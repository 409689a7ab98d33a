import Metasim.Lib.Log
import Metasim.Lib.Served
import Metasim.Ping

/-! The requests of clients that are answered at once or by one other server, in flight together.
No call fails. -/
namespace Metasim

open Transition Served

/-- What a client sends with `metasim_invoke_init`, `_terminate`, `_echo` and `_ping`. -/
inductive ClientIn
  | init (rank pid : ℤ)
  | terminate (rank pid : ℤ)
  | echo (num : ℤ)
  | ping (input : PingIn)
deriving Repr, DecidableEq

/-- What it gets, without the `ret` of the init. -/
inductive ClientOut
  | init (rank nranks : ℤ)
  | terminate (ret : ℤ)
  | echo (echo : ℤ)
  | ping (pong : ℤ)
deriving Repr, DecidableEq

/-- A request at the listener of `server`. -/
structure ClientRequest where
  server : ℤ
  input : ClientIn
deriving Repr, DecidableEq

/-- How far a request has come: to the listener, from there to the server of rank `target`, back
from it, and back to the client. -/
inductive RequestPhase
  | idle
  | received
  | forwarded (target ping : ℤ)
  | ponged (pong : ℤ)
  | responded (out : ClientOut)
deriving Repr, DecidableEq

/-- `forward` is the client's, `listen` the handler of the listener as far as it comes, `pong` the
one of the server of rank `rank`, and `respond` what is left of `metasim_listener_handle_ping`. -/
inductive RequestLabel
  | forward (i : ℕ)
  | listen (i : ℕ)
  | pong (i : ℕ) (rank : ℤ)
  | respond (i : ℕ)
deriving Repr, DecidableEq

/-- The handlers of the listener. That of a ping goes into `metasim_rpc_invoke_ping`. -/
def listenerHandle (nranks server : ℤ) : ClientIn → Option RequestPhase
  | .init _ _ => some (.responded (.init server nranks))
  | .terminate _ _ => some (.responded (.terminate 0))
  | .echo num => some (.responded (.echo num))
  | .ping ⟨target, ping⟩ =>
    let target := if nranks ≤ target then target.tmod nranks else target
    if target > nranks - 1 then some (.responded (.ping (-1)))
    -- a negative one reads in front of `peer_addrs`
    else if target < 0 then none
    else some (.forwarded target ping)

/-- A step of the requests `calls` at `nranks` servers. -/
def clientStep (nranks : ℤ) (calls : List ClientRequest) (s : ℕ → RequestPhase) :
    RequestLabel → Option (ℕ → RequestPhase)
  | .forward i =>
    if i < calls.length ∧ s i = .idle then some (Function.update s i .received) else none
  | .listen i =>
    match calls[i]?, s i with
    | some c, .received => (listenerHandle nranks c.server c.input).map (Function.update s i)
    | _, _ => none
  | .pong i rank =>
    match s i with
    | .forwarded target ping =>
      if target = rank then
        (responses (metasimRpcHandlePing 0 ping)).head?.map fun pong =>
          Function.update s i (.ponged pong)
      else none
    | _ => none
  | .respond i =>
    match s i with
    | .ponged pong => some (Function.update s i (.responded (.ping pong)))
    | _ => none

/-- The listeners to their clients. -/
def clientService (nranks : ℤ) (calls : List ClientRequest) :
    Service (ℕ → RequestPhase) RequestLabel ClientOut where
  start _ := .idle
  step := clientStep nranks calls
  begins
    | .forward i => some i
    | _ => none
  answer s i :=
    match s i with
    | .responded out => some out
    | _ => none

namespace RequestPhase

def level : RequestPhase → ℕ
  | idle => 0
  | received => 1
  | forwarded _ _ => 2
  | ponged _ => 3
  | responded _ => 4

end RequestPhase

variable {nranks : ℤ} {calls : List ClientRequest} {s u : ℕ → RequestPhase} {a : RequestLabel}
  {i : ℕ} {c : ClientRequest} {ys : List RequestLabel} {out : ClientOut} {p : RequestPhase}

/-- What a request is answered. -/
def ClientRequest.expected (nranks : ℤ) (c : ClientRequest) : ClientOut :=
  match c.input with
  | .init _ _ => .init c.server nranks
  | .terminate _ _ => .terminate 0
  | .echo num => .echo num
  | .ping input => .ping input.ping

/-- No ping has a negative target. -/
def Targeted (calls : List ClientRequest) : Prop :=
  ∀ c ∈ calls, ∀ input, c.input = .ping input → 0 ≤ input.target

/-! ## The steps -/

theorem clientStep_cases (hs : clientStep nranks calls s a = some u) :
    (∃ i c, a = .forward i ∧ calls[i]? = some c ∧ s i = .idle ∧
      u = Function.update s i .received) ∨
    (∃ i c p, a = .listen i ∧ calls[i]? = some c ∧ s i = .received ∧
      listenerHandle nranks c.server c.input = some p ∧ u = Function.update s i p) ∨
    (∃ i rank ping, a = .pong i rank ∧ s i = .forwarded rank ping ∧
      u = Function.update s i (.ponged ping)) ∨
    ∃ i pong, a = .respond i ∧ s i = .ponged pong ∧
      u = Function.update s i (.responded (.ping pong)) := by
  cases a with
  | forward i =>
    obtain ⟨⟨hi, hidle⟩, hu⟩ := Option.ite_none_right_eq_some.mp hs
    exact Or.inl ⟨i, calls[i], rfl, List.getElem?_eq_getElem hi, hidle, (Option.some.inj hu).symm⟩
  | listen i =>
    simp only [clientStep] at hs
    split at hs
    · rename_i c hc hreceived
      obtain ⟨p, hp, hu⟩ := Option.map_eq_some_iff.mp hs
      exact Or.inr (Or.inl ⟨i, c, p, rfl, hc, hreceived, hp, hu.symm⟩)
    · cases hs
  | pong i rank =>
    simp only [clientStep] at hs
    split at hs
    · rename_i target ping hforwarded
      obtain ⟨rfl, hu⟩ := Option.ite_none_right_eq_some.mp hs
      exact Or.inr (Or.inr (Or.inl ⟨i, target, ping, rfl, hforwarded, (Option.some.inj hu).symm⟩))
    · cases hs
  | respond i =>
    simp only [clientStep] at hs
    split at hs
    · rename_i pong hponged
      exact Or.inr (Or.inr (Or.inr ⟨i, pong, rfl, hponged, (Option.some.inj hs).symm⟩))
    · cases hs

theorem pong_forwarded {rank : ℤ} (hs : clientStep nranks calls s (.pong i rank) = some u) :
    ∃ ping, s i = .forwarded rank ping := by
  rcases clientStep_cases hs with ⟨_, _, ha, -⟩ | ⟨_, _, _, ha, -⟩ | ⟨j, r, ping, ha, hj, -⟩ |
    ⟨_, _, ha, -⟩
  · cases ha
  · cases ha
  · cases ha
    exact ⟨ping, hj⟩
  · cases ha

theorem listenerHandle_ping (hn : 1 ≤ nranks) {target : ℤ} (h0 : 0 ≤ target) (server ping : ℤ) :
    listenerHandle nranks server (.ping ⟨target, ping⟩) =
      some (.forwarded (target % nranks) ping) := by
  have hlt := Int.emod_lt_of_pos target (show 0 < nranks by omega)
  have hpos := Int.emod_nonneg target (show nranks ≠ 0 by omega)
  simp only [listenerHandle, listener_target_eq h0]
  rw [if_neg (by omega), if_neg (by omega)]

/-! ## The invariant -/

/-- What is true of request `c` in a phase. -/
def PhaseOk (nranks : ℤ) (c : ClientRequest) : RequestPhase → Prop
  | .idle | .received => True
  | .forwarded rank ping => ∃ target, c.input = .ping ⟨target, ping⟩ ∧ rank = target % nranks
  | .ponged pong => ∃ target, c.input = .ping ⟨target, pong⟩
  | .responded out => out = c.expected nranks

/-- Only the requests that there are get anywhere. -/
structure ClientInv (nranks : ℤ) (calls : List ClientRequest) (s : ℕ → RequestPhase) : Prop where
  ok : ∀ i c, calls[i]? = some c → PhaseOk nranks c (s i)
  elsewhere : ∀ i, calls[i]? = none → s i = .idle

theorem ClientInv.call (h : ClientInv nranks calls s) (hi : s i ≠ .idle) :
    ∃ c, calls[i]? = some c ∧ PhaseOk nranks c (s i) := by
  cases hc : calls[i]? with
  | none => exact absurd (h.elsewhere i hc) hi
  | some c => exact ⟨c, rfl, h.ok i c hc⟩

theorem ClientInv.update (h : ClientInv nranks calls s) (hc : calls[i]? = some c)
    (hp : PhaseOk nranks c p) : ClientInv nranks calls (Function.update s i p) := by
  constructor
  · intro j d hd
    by_cases hj : j = i
    · subst hj
      obtain rfl := Option.some.inj (hc.symm.trans hd)
      simpa using hp
    · rw [Function.update_of_ne hj]
      exact h.ok j d hd
  · intro j hd
    have hj : j ≠ i := by
      rintro rfl
      simp [hc] at hd
    rw [Function.update_of_ne hj]
    exact h.elsewhere j hd

theorem phaseOk_listen (hn : 1 ≤ nranks) (ht : Targeted calls) (hc : calls[i]? = some c)
    (hp : listenerHandle nranks c.server c.input = some p) : PhaseOk nranks c p := by
  have hmem := List.mem_of_getElem? hc
  cases hinput : c.input with
  | ping input =>
    obtain ⟨target, ping⟩ := input
    rw [hinput, listenerHandle_ping hn (ht c hmem _ hinput)] at hp
    obtain rfl := Option.some.inj hp
    exact ⟨target, hinput, rfl⟩
  | _ =>
    rw [hinput] at hp
    obtain rfl := Option.some.inj hp
    simp [PhaseOk, ClientRequest.expected, hinput]

theorem clientInv_step (hn : 1 ≤ nranks) (ht : Targeted calls) (h : ClientInv nranks calls s)
    (hs : clientStep nranks calls s a = some u) : ClientInv nranks calls u := by
  rcases clientStep_cases hs with ⟨i, c, -, hc, -, rfl⟩ | ⟨i, c, p, -, hc, -, hp, rfl⟩ |
    ⟨i, rank, ping, -, hi, rfl⟩ | ⟨i, pong, -, hi, rfl⟩
  · exact h.update hc trivial
  · exact h.update hc (phaseOk_listen hn ht hc hp)
  · obtain ⟨c, hc, hok⟩ := h.call (i := i) (by simp [hi])
    rw [hi] at hok
    obtain ⟨target, hinput, -⟩ := hok
    exact h.update hc ⟨target, hinput⟩
  · obtain ⟨c, hc, hok⟩ := h.call (i := i) (by simp [hi])
    rw [hi] at hok
    obtain ⟨target, hinput⟩ := hok
    exact h.update hc (by simp [PhaseOk, ClientRequest.expected, hinput])

theorem clientInv_trace (hn : 1 ≤ nranks) (ht : Targeted calls)
    (hrun : (clientService nranks calls).Run ys s) : ClientInv nranks calls s := by
  have hstart : ClientInv nranks calls fun _ => .idle := ⟨fun _ _ _ => trivial, fun _ _ => rfl⟩
  exact invariant_state hstart (fun _ _ _ h hs => clientInv_step hn ht h hs) hrun

/-! ## What has happened -/

/-- The request that a step is for. -/
def RequestLabel.request : RequestLabel → ℕ
  | .forward i | .listen i | .pong i _ | .respond i => i

theorem RequestPhase.level_le (p : RequestPhase) : p.level ≤ 4 := by
  cases p <;> simp [RequestPhase.level]

theorem level_listenerHandle {server : ℤ} {input : ClientIn}
    (hp : listenerHandle nranks server input = some p) : 1 < p.level := by
  cases input with
  | ping input =>
    simp only [listenerHandle] at hp
    split_ifs at hp <;> cases hp <;> simp [RequestPhase.level]
  | _ =>
    cases hp
    simp [RequestPhase.level]

/-- A step takes its request further and leaves the others alone. -/
theorem clientStep_moves (h : ClientInv nranks calls s)
    (hs : clientStep nranks calls s a = some u) : a.request < calls.length ∧
      ∃ p, (s a.request).level < p.level ∧ u = Function.update s a.request p := by
  have hlt : ∀ {i c}, calls[i]? = some c → i < calls.length := fun hc =>
    (List.getElem?_eq_some_iff.mp hc).1
  rcases clientStep_cases hs with ⟨i, c, rfl, hc, hi, rfl⟩ | ⟨i, c, p, rfl, hc, hi, hp, rfl⟩ |
    ⟨i, rank, ping, rfl, hi, rfl⟩ | ⟨i, pong, rfl, hi, rfl⟩
  · exact ⟨hlt hc, .received, by simp [RequestLabel.request, hi, RequestPhase.level], rfl⟩
  · refine ⟨hlt hc, p, ?_, rfl⟩
    rw [RequestLabel.request, hi]
    exact level_listenerHandle hp
  · obtain ⟨c, hc, -⟩ := h.call (i := i) (by simp [hi])
    exact ⟨hlt hc, .ponged ping, by simp [RequestLabel.request, hi, RequestPhase.level], rfl⟩
  · obtain ⟨c, hc, -⟩ := h.call (i := i) (by simp [hi])
    exact ⟨hlt hc, _, by simp [RequestLabel.request, hi, RequestPhase.level], rfl⟩

theorem client_begun_mem : (clientService nranks calls).Begun ys i ↔ .forward i ∈ ys := by
  constructor
  · rintro ⟨a, ha, hi⟩
    cases a <;> simp_all [clientService]
  · intro h
    exact ⟨_, h, rfl⟩

theorem client_begun_iff (hrun : (clientService nranks calls).Run ys s) :
    (clientService nranks calls).Begun ys i ↔ s i ≠ .idle := by
  rw [client_begun_mem]
  induction hrun with
  | refl => simp [clientService]
  | @snoc ys s u a _ hs ih =>
    have hupdate : ∀ {j p}, p ≠ RequestPhase.idle → s j ≠ .idle →
        (s i ≠ .idle ↔ Function.update s j p i ≠ .idle) := by
      intro j p hp hj
      by_cases hij : i = j
      · simp [hij, hp, hj]
      · simp [hij]
    rw [List.mem_append, List.mem_singleton, ih]
    rcases clientStep_cases hs with ⟨j, c, rfl, -, -, rfl⟩ | ⟨j, c, p, rfl, -, hj, hp, rfl⟩ |
      ⟨j, rank, ping, rfl, hj, rfl⟩ | ⟨j, pong, rfl, hj, rfl⟩
    · by_cases hij : i = j <;> simp [hij]
    · have hne : p ≠ .idle := by
        rintro rfl
        exact absurd (level_listenerHandle hp) (by simp [RequestPhase.level])
      simpa using hupdate hne (by simp [hj])
    · simpa using hupdate (p := .ponged ping) (by simp) (by simp [hj])
    · simpa using hupdate (p := .responded (.ping pong)) (by simp) (by simp [hj])

/-- The pings that the servers have answered one another, in order. -/
def pongs (ys : List RequestLabel) : List (ℕ × ℤ) :=
  ys.filterMap fun a => match a with
    | .pong i rank => some (i, rank)
    | _ => none

/-- Request `e.1` is a ping that the server of rank `e.2` has answered. -/
def Ponged (nranks : ℤ) (calls : List ClientRequest) (s : ℕ → RequestPhase) (e : ℕ × ℤ) : Prop :=
  3 ≤ (s e.1).level ∧ ∃ c input, calls[e.1]? = some c ∧ c.input = .ping input ∧
    e.2 = input.target % nranks

theorem ponged_update {j : ℕ} (e : ℕ × ℤ)
    (h : (∃ c input, calls[j]? = some c ∧ c.input = .ping input) →
      (3 ≤ (s j).level ↔ 3 ≤ p.level)) :
    Ponged nranks calls (Function.update s j p) e ↔ Ponged nranks calls s e := by
  unfold Ponged
  refine and_congr_left fun ⟨c, input, hc, hinput, _⟩ => ?_
  by_cases he : e.1 = j
  · subst he
    rw [Function.update_self]
    exact (h ⟨c, input, hc, hinput⟩).symm
  · rw [Function.update_of_ne he]

theorem pongs_records (hn : 1 ≤ nranks) (ht : Targeted calls)
    (hrun : (clientService nranks calls).Run ys s) :
    Log.Records (Ponged nranks calls s) (pongs ys) := by
  induction hrun with
  | refl =>
    exact Log.records_nil fun e h => by simp [Ponged, clientService, RequestPhase.level] at h
  | @snoc ys s u a hrun hs ih =>
    have hI := clientInv_trace hn ht hrun
    have hsnoc : pongs (ys ++ [a]) = pongs ys ++ pongs [a] := List.filterMap_append
    rw [hsnoc]
    rcases clientStep_cases hs with ⟨j, c, rfl, -, hj, rfl⟩ | ⟨j, c, p, rfl, hc, hj, hp, rfl⟩ |
      ⟨j, rank, ping, rfl, hj, rfl⟩ | ⟨j, pong, rfl, hj, rfl⟩
    · refine ih.append List.nodup_nil (by simp [pongs]) fun e => ?_
      rw [ponged_update e fun _ => by simp [hj, RequestPhase.level]]
      simp [pongs]
    · refine ih.append List.nodup_nil (by simp [pongs]) fun e => ?_
      rw [ponged_update e ?_]
      · simp [pongs]
      · rintro ⟨d, ⟨target, ping⟩, hd, hinput⟩
        obtain rfl := Option.some.inj (hc.symm.trans hd)
        rw [hinput, listenerHandle_ping hn (ht c (List.mem_of_getElem? hc) _ hinput)] at hp
        obtain rfl := Option.some.inj hp
        simp [hj, RequestPhase.level]
    · obtain ⟨c, hc, hok⟩ := hI.call (i := j) (by simp [hj])
      rw [hj] at hok
      obtain ⟨target, hinput, rfl⟩ := hok
      refine ih.append (List.nodup_singleton _) (fun e he h => ?_) fun e => ?_
      · obtain rfl := List.mem_singleton.mp he
        simp [Ponged, hj, RequestPhase.level] at h
      · have hmem : e ∈ pongs [.pong j (target % nranks)] ↔ e = (j, target % nranks) :=
          List.mem_singleton
        rw [hmem]
        by_cases he : e.1 = j
        · obtain ⟨i, r⟩ := e
          subst he
          simp [Ponged, hj, hc, hinput, RequestPhase.level]
        · have hne : e ≠ (j, target % nranks) := fun heq => he (congrArg Prod.fst heq)
          simp [Ponged, Function.update_of_ne he, hne]
    · refine ih.append List.nodup_nil (by simp [pongs]) fun e => ?_
      rw [ponged_update e fun _ => by simp [hj, RequestPhase.level]]
      simp [pongs]

theorem client_answer_eq : (clientService nranks calls).answer s i = some out ↔
    s i = .responded out := by
  simp only [clientService]
  cases hi : s i <;> simp

/-- A request that has come to the listener goes on until it is answered. -/
theorem client_goes_on (hn : 1 ≤ nranks) (ht : Targeted calls) (h : ClientInv nranks calls s)
    (hidle : s i ≠ .idle) (hnone : (clientService nranks calls).answer s i = none) :
    ∃ a u, (clientService nranks calls).begins a = none ∧
      clientStep nranks calls s a = some u := by
  obtain ⟨c, hc, -⟩ := h.call hidle
  cases hi : s i with
  | idle => exact absurd hi hidle
  | received =>
    have hsome : ∃ p, listenerHandle nranks c.server c.input = some p := by
      cases hinput : c.input with
      | ping input =>
        exact ⟨_, listenerHandle_ping hn (ht c (List.mem_of_getElem? hc) _ hinput) _ _⟩
      | _ => exact ⟨_, rfl⟩
    obtain ⟨p, hp⟩ := hsome
    exact ⟨.listen i, Function.update s i p, rfl, by simp [clientStep, hc, hi, hp]⟩
  | forwarded rank ping =>
    refine ⟨.pong i rank, Function.update s i (.ponged ping), rfl, ?_⟩
    simp only [clientStep, hi, if_true]
    rfl
  | ponged pong =>
    exact ⟨.respond i, Function.update s i (.responded (.ping pong)), rfl, by simp [clientStep, hi]⟩
  | responded out =>
    rw [client_answer_eq.mpr hi] at hnone
    cases hnone

theorem clientService_reliable (hn : 1 ≤ nranks) (ht : Targeted calls) :
    (clientService nranks calls).Reliable calls.length (calls.length * 4) where
  can_begin := by
    intro ys s i hrun hi hnot _
    rw [client_begun_iff hrun, not_not] at hnot
    exact ⟨.forward i, _, rfl, if_pos ⟨hi, hnot⟩⟩
  progress := by
    intro ys s i hrun _ hbegun hnone
    have hI := clientInv_trace hn ht hrun
    exact client_goes_on hn ht hI ((client_begun_iff hrun).mp hbegun) hnone
  stable := by
    intro ys s a u i out hrun hs hout
    rw [client_answer_eq] at hout ⊢
    obtain ⟨-, p, hlt, rfl⟩ := clientStep_moves (clientInv_trace hn ht hrun) hs
    have hne : i ≠ a.request := by
      rintro rfl
      rw [hout] at hlt
      exact absurd hlt (Nat.not_lt.mpr p.level_le)
    rw [Function.update_of_ne hne, hout]
  length_le := by
    intro ys s hrun
    have hstart : ClientInv nranks calls fun _ => .idle := ⟨fun _ _ _ => trivial, fun _ _ => rfl⟩
    have hle := length_le_measure (I := ClientInv nranks calls)
      (m := fun s => ∑ i ∈ Finset.range calls.length, (s i).level) hstart
      (fun _ _ _ h hs => clientInv_step hn ht h hs) (fun s a u h hs => ?_) hrun
    · refine hle.trans ((Finset.sum_le_card_nsmul _ _ 4 fun i _ => (s i).level_le).trans ?_)
      rw [Finset.card_range, smul_eq_mul]
    · obtain ⟨hlt, p, hlevel, rfl⟩ := clientStep_moves h hs
      refine Finset.sum_lt_sum (fun i _ => ?_) ⟨a.request, Finset.mem_range.mpr hlt, by simpa⟩
      by_cases hi : i = a.request
      · rw [hi, Function.update_self]
        exact hlevel.le
      · rw [Function.update_of_ne hi]

/-- An answer is what was asked for. -/
theorem client_answer (hn : 1 ≤ nranks) (ht : Targeted calls)
    (hrun : (clientService nranks calls).Run ys s)
    (hout : (clientService nranks calls).answer s i = some out) :
    ∃ c, calls[i]? = some c ∧ out = c.expected nranks := by
  rw [client_answer_eq] at hout
  obtain ⟨c, hc, hok⟩ := (clientInv_trace hn ht hrun).call (i := i) (by simp [hout])
  rw [hout] at hok
  exact ⟨c, hc, hok⟩

/-- For a ping it is what `metasim_invoke_ping` gives, whatever memory holds. -/
theorem invokePing_expected (hn : 1 ≤ nranks) {input : PingIn} (h0 : 0 ≤ input.target)
    (server : ℤ) (junk : PingJunk) :
    (metasimInvokePing true nranks {} input junk).pong.map ClientOut.ping =
      some (ClientRequest.expected nranks ⟨server, .ping input⟩) := by
  have hl := (listener_of_noneFails hn h0 junk).2
  simp [metasimInvokePing, hl, ClientRequest.expected]

end Metasim
