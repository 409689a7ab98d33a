import Metasim.ClientService
import Mathlib.Data.Int.CardIntervalMod

/-! `ping.c` and `echo.c` from `metasim_invoke_init` on: the ranks of the clients, each at the
listener of its node, make their requests one by one behind a barrier. -/
namespace Metasim

open Transition Spmd Served

/-- Which of the programs -/
inductive SessionKind
  | ping
  | echo
deriving Repr, DecidableEq

/-- `argument` is that of the command line, 0 if there is none. There are `servers` of them, and
`host` is the one on the node of a rank. -/
structure SessionArgs where
  kind : SessionKind
  nranks : ℕ
  argument : ℕ
  servers : ℕ
  host : ℕ → ℤ
  pid : ℕ → ℤ
  servers_pos : 1 ≤ servers

/-- `invoke i` is `metasim_invoke_ping` or `metasim_invoke_echo` in turn `i`. -/
inductive SessionCall
  | invokeInit
  | barrier
  | invoke (i : ℕ)
deriving Repr, DecidableEq

namespace SessionCall

/-- `MPI_Barrier` -/
def collective : SessionCall → Bool
  | barrier => true
  | _ => false

/-- The number of a request on its rank. -/
def number : SessionCall → Option ℕ
  | invokeInit => some 0
  | barrier => none
  | invoke i => some (i + 1)

end SessionCall

namespace SessionArgs

variable (A : SessionArgs)

/-- `ping_count`, `count` in `echo.c`; the init has given `server_nranks`. -/
def count : ℕ := if A.argument = 0 then A.servers else A.argument

/-- `i < count` -/
def loop (i : ℕ) : Option SessionCall := if i < A.count then some (.invoke i) else none

def main : Program (Fin A.nranks) SessionCall where
  first _ := some .invokeInit
  next _
    | .invokeInit => some .barrier
    | .barrier => A.loop 0
    | .invoke i => A.loop (i + 1)
  collective := SessionCall.collective
  held _ := SessionCall.collective

/-- What request `k` of a rank sends. -/
def input (rank : Fin A.nranks) : ℕ → ClientIn
  | 0 => .init rank.val (A.pid rank)
  | i + 1 =>
    match A.kind with
    | .ping => .ping ⟨(i % A.servers : ℕ), i⟩
    | .echo => .echo i

/-- What it is to get. -/
def output (rank : Fin A.nranks) : ℕ → ClientOut
  | 0 => .init (A.host rank) A.servers
  | i + 1 =>
    match A.kind with
    | .ping => .ping i
    | .echo => .echo i

def requests : List ClientRequest :=
  spread (A.count + 1) fun (rank : Fin A.nranks) k => ⟨A.host rank, A.input rank k⟩

/-- The program over the listeners and the servers. -/
def session : Layer (Fin A.nranks) SessionCall (ℕ → RequestPhase) RequestLabel ClientOut where
  program := A.main
  uses rank c := c.number.map fun k => rank * (A.count + 1) + k
  service := clientService A.servers A.requests

/-- The pings of a rank that servers have answered, in order: the number of the request, and the
server. -/
def turns (rank : ℕ) (ys : List RequestLabel) : List (ℕ × ℤ) :=
  (pongs ys).filterMap fun e =>
    if e.1 / (A.count + 1) = rank then some (e.1 % (A.count + 1), e.2) else none

/-- Turn `i` at its server -/
def pinged (i : ℕ) : ℕ × ℤ := (i + 1, (i % A.servers : ℕ))

/-! ## The calls of a rank, one after the other -/

def path (_ : Fin A.nranks) : List SessionCall :=
  .invokeInit :: .barrier :: (List.range A.count).map .invoke

def phase : SessionCall → ℕ
  | .invokeInit | .barrier => 0
  | .invoke _ => 1

variable {A} {p : Fin A.nranks} {i k m : ℕ} {c : SessionCall}

theorem follows_loop (hm : i + m = A.count) :
    Follows (A.main.next p) (A.loop i) ((List.range' i m).map .invoke) := by
  induction m generalizing i with
  | zero => exact if_neg (by omega)
  | succ m ih =>
    rw [loop, if_pos (by omega), List.range'_succ]
    exact ⟨rfl, ih (by omega)⟩

theorem follows_path (p : Fin A.nranks) : Follows (A.main.next p) (A.main.first p) (A.path p) := by
  have hloop := follows_loop (p := p) (Nat.zero_add A.count)
  rw [← List.range_eq_range'] at hloop
  exact ⟨rfl, rfl, hloop⟩

theorem filter_path (p : Fin A.nranks) :
    (A.path p).filter SessionCall.collective = [.barrier] := by
  have hnone : ∀ l : List ℕ, (l.map SessionCall.invoke).filter SessionCall.collective = [] := by
    intro l
    induction l with
    | nil => rfl
    | cons i l ih => exact ih
  simp [path, List.filter_cons, SessionCall.collective, hnone]

theorem aligned (A : SessionArgs) : Aligned A.main A.path [.barrier] := ⟨follows_path, filter_path⟩

theorem phased (A : SessionArgs) : Phased A.main A.path phase := by
  refine phased_of_counted fun p => ⟨rfl, rfl, counted_own fun c hc => ?_⟩
  obtain ⟨i, -, rfl⟩ := List.mem_map.mp hc
  exact ⟨rfl, rfl⟩

theorem number_lt (hc : c ∈ A.path p) (hk : c.number = some k) : k < A.count + 1 := by
  cases c with
  | invokeInit =>
    obtain rfl : 0 = k := Option.some.inj hk
    omega
  | barrier => cases hk
  | invoke i =>
    obtain rfl : i + 1 = k := Option.some.inj hk
    simp only [path, List.mem_cons, List.mem_map, List.mem_range] at hc
    rcases hc with hc | hc | ⟨j, hj, hc⟩
    · cases hc
    · cases hc
    · cases hc
      omega

/-! ## Its requests -/

theorem request_get (p : Fin A.nranks) (hk : k < A.count + 1) :
    A.requests[p.val * (A.count + 1) + k]? = some ⟨A.host p, A.input p k⟩ := spread_get p hk

theorem input_ping {input : PingIn} (h : A.input p k = .ping input) : A.kind = .ping ∧
    ∃ i, k = i + 1 ∧ input = ⟨(i % A.servers : ℕ), i⟩ := by
  cases k with
  | zero => cases h
  | succ i =>
    cases hkind : A.kind with
    | echo => simp [SessionArgs.input, hkind] at h
    | ping =>
      simp only [SessionArgs.input, hkind, ClientIn.ping.injEq] at h
      exact ⟨rfl, i, rfl, h.symm⟩

theorem targeted (A : SessionArgs) : Targeted A.requests := by
  intro c hc input hinput
  obtain ⟨p, k, -, rfl⟩ := mem_spread hc
  obtain ⟨-, i, -, rfl⟩ := input_ping hinput
  exact Int.natCast_nonneg _

theorem expected_input (p : Fin A.nranks) (k : ℕ) :
    ClientRequest.expected A.servers ⟨A.host p, A.input p k⟩ = A.output p k := by
  cases k with
  | zero => rfl
  | succ i => cases hkind : A.kind <;> simp [ClientRequest.expected, input, output, hkind]

theorem one_le_servers (A : SessionArgs) : (1 : ℤ) ≤ A.servers := by
  exact_mod_cast A.servers_pos

theorem reliable (A : SessionArgs) :
    A.session.service.Reliable A.requests.length (A.requests.length * 4) :=
  clientService_reliable A.one_le_servers A.targeted

theorem uses_lt (p : Fin A.nranks) :
    ∀ c ∈ A.path p, ∀ i, A.session.uses p c = some i → i < A.requests.length := by
  intro c hc i hi
  obtain ⟨k, hk, rfl⟩ := Option.map_eq_some_iff.mp hi
  rw [requests, length_spread]
  exact index_lt p (number_lt hc hk)

variable {xs : List (Label (Fin A.nranks) SessionCall RequestLabel)}
  {s : State (Fin A.nranks) SessionCall × (ℕ → RequestPhase)}

theorem walks (hrun : A.session.Run xs s) (p : Fin A.nranks) :
    Walks A.main (A.path p) (mains xs) s.1 p := walks_trace follows_path hrun.mains p

theorem answer_of_number (hrun : A.session.Run xs s) (hc : c ∈ returned p (mains xs))
    (hk : c.number = some k) :
    A.session.service.answer s.2 (p.val * (A.count + 1) + k) = some (A.output p k) := by
  have huses : A.session.uses p c = some (p.val * (A.count + 1) + k) := congrArg (Option.map _) hk
  have hlt := number_lt ((walks hrun p).returned_initial.subset hc) hk
  obtain ⟨out, hout⟩ := answer_of_returned A.reliable hrun hc huses
  obtain ⟨d, hd, rfl⟩ := client_answer A.one_le_servers A.targeted hrun.serves hout
  obtain rfl := Option.some.inj ((request_get p hlt).symm.trans hd)
  rw [hout, expected_input]

theorem output_ping {input : PingIn} (h : A.input p k = .ping input) (junk : PingJunk) :
    (metasimInvokePing true A.servers {} input junk).pong.map ClientOut.ping =
      some (A.output p k) := by
  obtain ⟨-, i, -, rfl⟩ := input_ping h
  rw [invokePing_expected A.one_le_servers (Int.natCast_nonneg _) (A.host p), ← h, expected_input]

/-- No request is made before all ranks have been told how many servers there are. -/
theorem inits_returned (hrun : A.session.Run xs s) (hc : .invoke i ∈ entered p (mains xs))
    (q : Fin A.nranks) : .invokeInit ∈ returned q (mains xs) := by
  have hI := fencedInv_trace (fun _ _ h => h) follows_path hrun.mains
  have hreached := (hI.walks p).reached_of_entered hc
  have hmem : .invokeInit ∈ A.path q := List.mem_cons_self
  exact (hI.happens_before A.phased hreached hmem Nat.one_pos).2 rfl

/-! ## The order of the pings -/

theorem filterMap_number_path (p : Fin A.nranks) :
    (A.path p).filterMap SessionCall.number = List.range (A.count + 1) := by
  have hloop : ∀ l : List ℕ, (l.map SessionCall.invoke).filterMap SessionCall.number =
      l.map (· + 1) := by
    intro l
    rw [List.filterMap_map]
    exact congrFun (List.filterMap_eq_map (f := (· + 1))) l
  have hpath : (A.path p).filterMap SessionCall.number =
      0 :: ((List.range A.count).map SessionCall.invoke).filterMap SessionCall.number := rfl
  rw [hpath, hloop, List.range_succ_eq_map]

/-- A rank has returned from the requests with smaller numbers. -/
theorem returned_before (hrun : A.session.Run xs s) (hc : s.1.current p = some c)
    (hk : c.number = some k) (hm : m < k) :
    ∃ d ∈ returned p (mains xs), d.number = some m := by
  obtain ⟨rest, -, hpath⟩ := (walks hrun p).path_eq hc
  have hsplit := filterMap_number_path p
  rw [← hpath, List.filterMap_append, List.filterMap_cons_some hk] at hsplit
  have hmem : m ∈ (returned p (mains xs)).filterMap SessionCall.number := by
    rw [range_split hsplit]
    exact List.mem_range.mpr hm
  exact List.mem_filterMap.mp hmem

theorem turns_append (rank : ℕ) (ys zs : List RequestLabel) :
    A.turns rank (ys ++ zs) = A.turns rank ys ++ A.turns rank zs := by
  unfold turns pongs
  rw [List.filterMap_append, List.filterMap_append]

theorem mem_turns {ys : List RequestLabel} {r : ℤ} : (k, r) ∈ A.turns p ys ↔
    k < A.count + 1 ∧ (p.val * (A.count + 1) + k, r) ∈ pongs ys := by
  unfold turns
  rw [List.mem_filterMap]
  constructor
  · rintro ⟨⟨j, r'⟩, hmem, h⟩
    obtain ⟨hp, h⟩ := Option.ite_none_right_eq_some.mp h
    cases h
    refine ⟨Nat.mod_lt _ (Nat.succ_pos _), ?_⟩
    rwa [← hp, Nat.div_add_mod']
  · rintro ⟨hk, hmem⟩
    refine ⟨_, hmem, ?_⟩
    rw [if_pos (index_div hk), Nat.mul_add_mod_of_lt hk]

/-- The pings that have been answered are those that have come so far. -/
theorem mem_turns_iff (hrun : A.session.Run xs s) (p : Fin A.nranks) {r : ℤ} :
    (k, r) ∈ A.turns p (serves xs) ↔ A.kind = .ping ∧ (∃ i < A.count, (k, r) = A.pinged i) ∧
      3 ≤ (s.2 (p.val * (A.count + 1) + k)).level := by
  rw [mem_turns, (pongs_records A.one_le_servers A.targeted hrun.serves).mem_iff]
  constructor
  · rintro ⟨hk, hlevel, c, input, hc, hinput, rfl⟩
    obtain rfl := Option.some.inj ((request_get p hk).symm.trans hc)
    obtain ⟨hkind, i, rfl, rfl⟩ := input_ping hinput
    refine ⟨hkind, ⟨i, by omega, ?_⟩, hlevel⟩
    rw [pinged, ← Int.natCast_emod, Nat.mod_mod]
  · rintro ⟨hkind, ⟨i, hi, heq⟩, hlevel⟩
    cases heq
    have hlt : i + 1 < A.count + 1 := Nat.succ_lt_succ hi
    refine ⟨hlt, hlevel, _, ⟨(i % A.servers : ℕ), i⟩, request_get p hlt, ?_, ?_⟩
    · simp [input, hkind]
    · rw [← Int.natCast_emod, Nat.mod_mod]

/-- A ping that has come back was answered by its server. -/
theorem turn_of_returned (hrun : A.session.Run xs s) (hkind : A.kind = .ping)
    (hc : c ∈ returned p (mains xs)) (hk : c.number = some (i + 1)) :
    A.pinged i ∈ A.turns p (serves xs) := by
  have hanswer := client_answer_eq.mp (answer_of_number hrun hc hk)
  have hlt := number_lt ((walks hrun p).returned_initial.subset hc) hk
  refine (mem_turns_iff hrun p).mpr ⟨hkind, ⟨i, by omega, rfl⟩, ?_⟩
  rw [hanswer]
  simp [RequestPhase.level]

/-- A server that answers a ping does so in the turn of the rank that made it. -/
theorem current_of_pong (hrun : A.session.Run xs s) {ping r : ℤ}
    (hj : s.2 (p.val * (A.count + 1) + (i + 1)) = .forwarded r ping) (hi : i < A.count) :
    s.1.current p = some (.invoke i) := by
  have hbegun := (client_begun_iff (i := p.val * (A.count + 1) + (i + 1)) hrun.serves).mpr
    (by simp [hj])
  have hnone : A.session.service.answer s.2 (p.val * (A.count + 1) + (i + 1)) = none := by
    refine Option.eq_none_iff_forall_ne_some.mpr fun out hout => ?_
    rw [client_answer_eq.mp hout] at hj
    cases hj
  obtain ⟨q, -, huses⟩ := asked_of_begun A.reliable hrun hbegun hnone
  obtain ⟨c, hc, huses⟩ := Option.bind_eq_some_iff.mp huses
  obtain ⟨k, hk, heq⟩ := Option.map_eq_some_iff.mp huses
  obtain ⟨rfl, rfl⟩ := index_inj (number_lt ((walks hrun q).current_mem hc) hk)
    (Nat.succ_lt_succ hi) heq
  cases c with
  | invokeInit => cases hk
  | barrier => cases hk
  | invoke i' =>
    obtain rfl : i' = i := Nat.succ_injective (Option.some.inj hk)
    exact hc

theorem mem_map_pinged : A.pinged i ∈ (List.range m).map A.pinged ↔ i < m := by
  have hinj : Function.Injective A.pinged := fun i j h => Nat.succ_injective (congrArg Prod.fst h)
  rw [List.mem_map_of_injective hinj, List.mem_range]

/-- The turns before that of an open ping, and no others, have been answered. -/
theorem turn_of_forwarded (hrun : A.session.Run xs s)
    (hm : A.turns p (serves xs) = (List.range m).map A.pinged) (hkind : A.kind = .ping)
    (hi : i < A.count) {ping r : ℤ}
    (hforward : s.2 (p.val * (A.count + 1) + (i + 1)) = .forwarded r ping) : i = m := by
  have hcur := current_of_pong hrun hforward hi
  have hopen : A.pinged i ∉ A.turns p (serves xs) := by
    intro hin
    have hlevel := ((mem_turns_iff hrun p).mp hin).2.2
    rw [hforward] at hlevel
    simp [RequestPhase.level] at hlevel
  rw [hm, mem_map_pinged] at hopen
  refine Nat.le_antisymm (Nat.not_lt.mp fun hlt => ?_) (Nat.not_lt.mp hopen)
  obtain ⟨d, hd, hnumber⟩ := returned_before hrun hcur rfl (Nat.succ_lt_succ hlt)
  have hin := turn_of_returned hrun hkind hd hnumber
  rw [hm, mem_map_pinged] at hin
  exact Nat.lt_irrefl m hin

/-- A step of the servers adds the next turn of a rank, or nothing. -/
theorem turns_step (hrun : A.session.Run xs s)
    {t : State (Fin A.nranks) SessionCall × (ℕ → RequestPhase)} {b : RequestLabel}
    (hs : A.session.Step s (.serve b) t)
    (hm : A.turns p (serves xs) = (List.range m).map A.pinged) :
    A.turns p [b] = [] ∨ A.turns p [b] = [A.pinged m] := by
  refine or_iff_not_imp_left.mpr fun hnew => ?_
  cases b with
  | pong j r =>
    have hp : j / (A.count + 1) = p := by
      by_contra hne
      exact hnew (by simp [turns, pongs, hne])
    have hturn : A.turns p [.pong j r] = [(j % (A.count + 1), r)] := by
      simp [turns, pongs, hp]
    have hmem : (j % (A.count + 1), r) ∈ A.turns p (serves (xs ++ [.serve (.pong j r)])) := by
      rw [serves_snoc, turns_append, hturn]
      exact List.mem_append_right _ List.mem_cons_self
    obtain ⟨hkind, ⟨i, hi, heq⟩, -⟩ := (mem_turns_iff (hrun.snoc hs) p).mp hmem
    have hj : j = p.val * (A.count + 1) + (i + 1) := by
      have hmod : j % (A.count + 1) = i + 1 := congrArg Prod.fst heq
      rw [← hmod, ← hp, Nat.div_add_mod']
    have hserve : clientStep A.servers A.requests s.2 (.pong j r) = some t.2 :=
      (step_serve.mp hs).1
    obtain ⟨ping, hforward⟩ := pong_forwarded hserve
    rw [hj] at hforward
    rw [hturn, heq, turn_of_forwarded hrun hm hkind hi hforward]
  | _ => exact absurd rfl hnew

/-- The servers answer the pings of a rank turn by turn. -/
theorem turns_in_order (hrun : A.session.Run xs s) (p : Fin A.nranks) :
    ∃ m, A.turns p (serves xs) = (List.range m).map A.pinged := by
  induction hrun with
  | refl => exact ⟨0, rfl⟩
  | @snoc xs s u a hrun hs ih =>
    obtain ⟨m, hm⟩ := ih
    cases a with
    | main q e =>
      rw [serves_snoc, List.append_nil]
      exact ⟨m, hm⟩
    | serve b =>
      rw [serves_snoc, turns_append, hm]
      rcases turns_step hrun hs hm with hnone | hnext
      · rw [hnone, List.append_nil]
        exact ⟨m, rfl⟩
      · rw [hnext]
        exact ⟨m + 1, by rw [List.range_succ, List.map_append, List.map_singleton]⟩

/-- How many turns the servers have answered. -/
theorem turns_so_far (hrun : A.session.Run xs s) (p : Fin A.nranks) : ∃ m ≤ A.count,
    A.turns p (serves xs) = (List.range m).map A.pinged ∧
      (A.kind = .ping → ∀ i, .invoke i ∈ returned p (mains xs) → i < m) := by
  obtain ⟨m, hm⟩ := turns_in_order hrun p
  refine ⟨m, ?_, hm, fun hkind i hi => ?_⟩
  · by_contra hlt
    have hin : A.pinged A.count ∈ A.turns p (serves xs) := by
      rw [hm, mem_map_pinged]
      exact Nat.not_le.mp hlt
    obtain ⟨-, ⟨i, hi, heq⟩, -⟩ := (mem_turns_iff hrun p).mp hin
    have heq : A.count + 1 = i + 1 := congrArg Prod.fst heq
    omega
  · have hin := turn_of_returned hrun hkind hi rfl
    rwa [hm, mem_map_pinged] at hin

/-- Turns take the servers round and round. -/
theorem count_pinged (r m : ℕ) (hr : r < A.servers) :
    ((List.range m).map A.pinged).countP (·.2 = (r : ℤ)) =
      m / A.servers + if r < m % A.servers then 1 else 0 := by
  have hcount := Nat.count_modEq_card m A.servers_pos r
  rw [Nat.mod_eq_of_lt hr] at hcount
  rw [← hcount, Nat.count, List.countP_map]
  refine List.countP_congr fun i _ => ?_
  change decide (((i % A.servers : ℕ) : ℤ) = r) = true ↔ decide (i ≡ r [MOD A.servers]) = true
  rw [decide_eq_true_iff, decide_eq_true_iff, Nat.ModEq, Nat.mod_eq_of_lt hr]
  exact Nat.cast_inj

end SessionArgs

open SessionArgs

/-- The programs as a whole. No request is made before all ranks know how many servers there are,
and each comes back with what its own input asks for, a ping with what `metasim_invoke_ping` gives
alone. The pings of a rank reach the servers one by
one, those of turn `i` the server `i % server_nranks`, so in the end every server has answered its
share of each rank's pings, and exactly one if no number was given; nothing is sent between servers
for an echo. No rank is left waiting, and a run ends. -/
theorem session_run {A : SessionArgs} {xs : List (Label (Fin A.nranks) SessionCall RequestLabel)}
    {s : State (Fin A.nranks) SessionCall × (ℕ → RequestPhase)} (hrun : A.session.Run xs s) :
    (∀ p i, .invoke i ∈ entered p (mains xs) → ∀ q, .invokeInit ∈ returned q (mains xs)) ∧
    (∀ p, ∀ c ∈ returned p (mains xs), ∀ k, c.number = some k →
      A.session.service.answer s.2 (p.val * (A.count + 1) + k) = some (A.output p k)) ∧
    (∀ p k input, A.input p k = .ping input → ∀ junk,
      (metasimInvokePing true A.servers {} input junk).pong.map ClientOut.ping =
        some (A.output p k)) ∧
    (∀ p : Fin A.nranks, ∃ m ≤ A.count, A.turns p (serves xs) = (List.range m).map A.pinged ∧
      (A.kind = .ping → ∀ i, .invoke i ∈ returned p (mains xs) → i < m)) ∧
    (A.kind = .echo → pongs (serves xs) = []) ∧
    ((∃ p, s.1.current p ≠ none) → ∃ a u, A.session.Step s a u) ∧
    xs.length ≤ ∑ p, 2 * (A.path p).length + A.requests.length * 4 ∧
    ((∀ p, s.1.current p = none) → A.kind = .ping → ∀ (p : Fin A.nranks), ∀ r < A.servers,
      (A.turns p (serves xs)).countP (·.2 = (r : ℤ)) =
        A.count / A.servers + (if r < A.count % A.servers then 1 else 0) ∧
      (A.argument = 0 → (A.turns p (serves xs)).countP (·.2 = (r : ℤ)) = 1)) := by
  refine ⟨fun p i hi q => inits_returned hrun hi q, fun p c hc k hk => answer_of_number hrun hc hk,
    fun p k input => output_ping, turns_so_far hrun, fun hecho => ?_, ?_,
    Layer.Run.length_le A.reliable follows_path hrun, fun hdone hkind p r hr => ?_⟩
  · refine List.eq_nil_iff_forall_not_mem.mpr fun e he => ?_
    obtain ⟨-, c, input, hc, hinput, -⟩ :=
      ((pongs_records A.one_le_servers A.targeted hrun.serves).mem_iff e).mp he
    obtain ⟨p, k, -, rfl⟩ := mem_spread (List.mem_of_getElem? hc)
    obtain ⟨hping, -⟩ := input_ping hinput
    rw [hecho] at hping
    cases hping
  · rintro ⟨p, h⟩
    exact hrun.progress A.aligned A.reliable (ordered_of_free fun _ _ => not_false) uses_lt h
  · obtain ⟨m, hle, hm, hturns⟩ := turns_so_far hrun p
    have hall : m = A.count := by
      by_contra hne
      have hmem : .invoke m ∈ returned p (mains xs) := by
        rw [((walks hrun p).finished (hdone p)).2]
        simp only [path, List.mem_cons, List.mem_map, List.mem_range]
        exact Or.inr (Or.inr ⟨m, by omega, rfl⟩)
      exact absurd (hturns hkind m hmem) (Nat.lt_irrefl m)
    have hcount := count_pinged r A.count hr
    rw [hm, hall]
    refine ⟨hcount, fun harg => ?_⟩
    have hservers : A.count = A.servers := if_pos harg
    rw [hcount, hservers, Nat.div_self A.servers_pos, Nat.mod_self, if_neg (Nat.not_lt_zero r)]

/-- Two clients that ping three servers. -/
def threeServers : SessionArgs where
  kind := .ping
  nranks := 2
  argument := 0
  servers := 3
  host rank := rank
  pid rank := rank
  servers_pos := by decide

theorem session_run_three : ∃ xs s, threeServers.session.Run xs s ∧
    (threeServers.turns 0 (serves xs)).countP (·.2 = 2) = 1 := by
  obtain ⟨xs, s, hrun, hT⟩ := exists_terminal
    (fun xs s hrun => (session_run (A := threeServers) hrun).2.2.2.2.2.2.1) .refl
  have hrun : threeServers.session.Run xs s := hrun
  obtain ⟨-, -, -, -, -, hgoes, -, hend⟩ := session_run hrun
  have hdone : ∀ p, s.1.current p = none := by
    intro p
    by_contra hp
    obtain ⟨a, u, hs⟩ := hgoes ⟨p, hp⟩
    exact hT a u hs
  exact ⟨xs, s, hrun, (hend hdone rfl (0 : Fin 2) 2 (by decide)).2 rfl⟩

end Metasim
