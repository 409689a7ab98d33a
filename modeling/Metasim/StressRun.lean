import Metasim.Listener
import Metasim.SumLimited

/-! The stress run of the clients, `sum.c` as a whole, over the listeners and the servers: from rank
0 alone, in rounds, or from all ranks at once. A negative `--limited`, the clock and what is printed
are left out, and the `calloc` of rank 0 succeeds. -/
namespace Metasim

open Transition Spmd Served

/-- What `sum` is started with, and where: there are `servers` of them, as `metasim_invoke_init`
tells every rank, and `host` is the one on the node of a rank. `count` is `repeat`. -/
structure StressArgs where
  nranks : ℕ
  count : ℕ
  limited : ℕ
  serial : Bool
  warmup : Bool
  servers : ℤ
  host : ℕ → ℤ
  hosted : ∀ rank, 0 ≤ host rank ∧ host rank < servers
  gatherHolds : ℕ → Bool

/-- The calls of `do_sum_limited` and `do_sum_parallel`, which all ranks make, and those of
`do_sum_serial`: `do_sum` to warm up and to measure, and the `MPI_Barrier` at `wait`. -/
inductive StressCall
  | turns (c : LimitedCall)
  | warmup (args : SumArgs)
  | sum (i : ℕ) (args : SumArgs)
  | wait
deriving Repr, DecidableEq

namespace StressCall

/-- The number of a `do_sum` on its rank, with its arguments. -/
def doSum : StressCall → Option (ℕ × SumArgs)
  | turns (.warmup args) => some (0, args)
  | turns (.sum i _ args) => some (i + 1, args)
  | warmup args => some (0, args)
  | sum i args => some (i + 1, args)
  | _ => none

def collective : StressCall → Bool
  | turns c => c.collective
  | wait => true
  | _ => false

end StressCall

namespace StressArgs

variable (A : StressArgs)

/-- The run as `do_sum_limited` has it with a limit of `limited`. -/
abbrev limitedArgs (limited : ℕ) : LimitedArgs where
  nranks := A.nranks
  limited := limited
  count := A.count
  warmup := A.warmup
  serverNranks := A.servers
  gatherHolds := A.gatherHolds

/-- `do_sum(rank, expected)` -/
def sumArgs (rank : Fin A.nranks) : SumArgs :=
  { seed := rank.val, expected := calculateExpectedSum A.servers rank.val }

/-- `i < repeat` of `do_sum_parallel` -/
def parallelLoop (i : ℕ) : Option LimitedCall := if i < A.count then some (.before i 0) else none

def nextParallel (rank : Fin A.nranks) : LimitedCall → Option LimitedCall
  | .warmup _ => A.parallelLoop 0
  | .before i j => some (.sum i j (A.sumArgs rank))
  | .sum i j _ => some (.after i j)
  | .after i _ => some (.gather i)
  | .gather i => A.parallelLoop (i + 1)

/-- `do_sum_parallel` on all ranks. Its calls are those of the rounds, without `j`. -/
def doSumParallel : Program (Fin A.nranks) LimitedCall where
  first rank := if A.warmup then some (.warmup (A.sumArgs rank)) else A.parallelLoop 0
  next := A.nextParallel
  collective := LimitedCall.collective
  held
    | _, .before _ _ => true
    | _, .after _ _ => true
    | rank, .gather _ => rank.val == 0 || A.gatherHolds rank
    | _, _ => false

/-- `i < repeat` of `do_sum_serial`; `do_sum(0, expected)` -/
def serialLoop (i : ℕ) : StressCall :=
  if i < A.count then .sum i ⟨0, calculateExpectedSum A.servers 0⟩ else .wait

/-- The modes in which all ranks take part. -/
def inAll : Program (Fin A.nranks) LimitedCall :=
  if A.limited ≠ 0 then (A.limitedArgs A.limited).doSumLimited else A.doSumParallel

/-- `main` from its options on. -/
def sumMain : Program (Fin A.nranks) StressCall where
  first rank :=
    if A.serial then
      if rank.val > 0 then some .wait
      else if A.warmup then some (.warmup ⟨rank.val, calculateExpectedSum A.servers 0⟩)
      else some (A.serialLoop 0)
    else (A.inAll.first rank).map .turns
  next rank
    | .turns c => (A.inAll.next rank c).map .turns
    | .warmup _ => some (A.serialLoop 0)
    | .sum i _ => some (A.serialLoop (i + 1))
    | .wait => none
  collective := StressCall.collective
  held rank
    | .turns c => A.inAll.held rank c
    | .wait => true
    | _ => false

/-- The requests of all ranks: `do_sum` number `k` of a rank is request `k` of its `count + 1`. -/
def requests : List ListenerIn :=
  spread (A.count + 1) fun (rank : Fin A.nranks) _ => .sum (A.host rank) rank

/-- `sum` on top of the listeners, and these on top of the servers. -/
def stress : Layer (Fin A.nranks) StressCall
    (State (Fin A.requests.length) ℕ × SumNet) (Label (Fin A.requests.length) ℕ SumLabel)
    ListenerOut where
  program := A.sumMain
  uses rank c := c.doSum.map fun d => rank.val * (A.count + 1) + d.1
  service := listenerService A.servers A.requests

/-! ## The calls of a rank, one after the other -/

/-- At most so many ranks are in a round. -/
def limit : ℕ := if A.limited ≠ 0 then A.limited else A.nranks

/-- The modes for all ranks are one: without a limit there is a single round. -/
abbrev rounded : LimitedArgs := A.limitedArgs A.limit

def serialPath (rank : Fin A.nranks) : List StressCall :=
  if rank.val > 0 then [.wait]
  else (if A.warmup then [.warmup ⟨rank.val, calculateExpectedSum A.servers 0⟩] else []) ++
    (List.range A.count).map (.sum · ⟨0, calculateExpectedSum A.servers 0⟩) ++ [.wait]

def path (rank : Fin A.nranks) : List StressCall :=
  if A.serial then A.serialPath rank else (A.rounded.path rank).map .turns

def collectives : List StressCall :=
  if A.serial then [.wait] else A.rounded.collectives.map .turns

variable {A} {rank : Fin A.nranks} {i j m : ℕ} {rest : List LimitedCall} {c : StressCall}
  {d : LimitedCall} {a : SumArgs}

theorem rounds_unlimited (A : StressArgs) : (A.limitedArgs A.nranks).rounds = 1 :=
  LimitedArgs.rounds_of_le (A := A.limitedArgs A.nranks) le_rfl

/-- Without a limit a repetition is one round of all ranks. -/
theorem repetition_unlimited (rank : Fin A.nranks) (i : ℕ) :
    (A.limitedArgs A.nranks).repetition rank i =
      [.before i 0, .sum i 0 (A.sumArgs rank), .after i 0, .gather i] := by
  simp [LimitedArgs.repetition, LimitedArgs.roundCalls, rounds_unlimited, Nat.mod_one]
  rfl

theorem follows_parallelLoop (hm : i + m = A.count) :
    Follows (A.doSumParallel.next rank) (A.parallelLoop i)
      ((List.range' i m).flatMap ((A.limitedArgs A.nranks).repetition rank)) := by
  induction m generalizing i with
  | zero => exact if_neg (by omega)
  | succ m ih =>
    rw [parallelLoop, if_pos (by omega), List.range'_succ, List.flatMap_cons, repetition_unlimited]
    exact ⟨rfl, rfl, rfl, rfl, ih (by omega)⟩

theorem follows_doSumParallel (rank : Fin A.nranks) : Follows (A.doSumParallel.next rank)
    (A.doSumParallel.first rank) ((A.limitedArgs A.nranks).path rank) := by
  have hloop := @follows_parallelLoop A rank 0 A.count (Nat.zero_add _)
  rw [← List.range_eq_range'] at hloop
  change Follows _ (if A.warmup then _ else _) ((if A.warmup then _ else _) ++ _)
  split_ifs
  · exact ⟨rfl, hloop⟩
  · exact hloop

theorem follows_inAll (rank : Fin A.nranks) :
    Follows (A.inAll.next rank) (A.inAll.first rank) (A.rounded.path rank) := by
  have hpath : ∀ l, A.limit = l → A.rounded.path rank = (A.limitedArgs l).path rank := by
    rintro _ rfl
    rfl
  by_cases h : A.limited ≠ 0
  · have hall : A.inAll = (A.limitedArgs A.limited).doSumLimited := if_pos h
    rw [hall, hpath A.limited (if_pos h)]
    exact LimitedArgs.follows_path (A := A.limitedArgs A.limited) rank
  · have hall : A.inAll = A.doSumParallel := if_neg h
    rw [hall, hpath A.nranks (if_neg h)]
    exact follows_doSumParallel rank

theorem follows_serialLoop (hm : i + m = A.count) : Follows (A.sumMain.next rank)
    (some (A.serialLoop i))
    ((List.range' i m).map (.sum · ⟨0, calculateExpectedSum A.servers 0⟩) ++ [.wait]) := by
  induction m generalizing i with
  | zero =>
    rw [serialLoop, if_neg (by omega)]
    exact ⟨rfl, rfl⟩
  | succ m ih =>
    rw [serialLoop, if_pos (by omega), List.range'_succ]
    exact ⟨rfl, ih (by omega)⟩

theorem follows_serialPath (hserial : A.serial = true) (rank : Fin A.nranks) :
    Follows (A.sumMain.next rank) (A.sumMain.first rank) (A.serialPath rank) := by
  have hloop := @follows_serialLoop A rank 0 A.count (Nat.zero_add _)
  rw [← List.range_eq_range'] at hloop
  change Follows _ (if A.serial then _ else _) _
  rw [if_pos hserial, serialPath]
  split_ifs
  · exact ⟨rfl, rfl⟩
  · exact ⟨rfl, hloop⟩
  · exact hloop

theorem follows_path (rank : Fin A.nranks) :
    Follows (A.sumMain.next rank) (A.sumMain.first rank) (A.path rank) := by
  cases hserial : A.serial with
  | true =>
    rw [path, if_pos hserial]
    exact follows_serialPath hserial rank
  | false =>
    have h : Follows (A.sumMain.next rank) ((A.inAll.first rank).map .turns)
        ((A.rounded.path rank).map .turns) :=
      (follows_inAll rank).map (f := StressCall.turns) fun _ => rfl
    simpa [path, sumMain, hserial] using h

theorem filter_collective_path (rank : Fin A.nranks) :
    (A.path rank).filter StressCall.collective = A.collectives := by
  unfold path collectives
  split_ifs
  · have hnone : ∀ (l : List ℕ) args,
        (l.map (StressCall.sum · args)).filter StressCall.collective = [] := by
      intro l args
      induction l with
      | nil => rfl
      | cons i l ih => exact ih
    unfold serialPath
    split_ifs <;> simp [hnone, StressCall.collective, List.filter_cons]
  · have hturns : StressCall.collective ∘ .turns = LimitedCall.collective := rfl
    rw [List.filter_map, hturns, LimitedArgs.filter_collective_path (A := A.rounded) rank]

theorem aligned (A : StressArgs) : Aligned A.sumMain A.path A.collectives :=
  ⟨follows_path, filter_collective_path⟩

/-! ## The sums of a rank -/

theorem doSum_of_mem_repetition {L : LimitedArgs} {rank : Fin L.nranks} {k : ℕ}
    (hd : d ∈ L.repetition rank i) (hsum : (StressCall.turns d).doSum = some (k, a)) :
    k = i + 1 ∧ a = L.sumArgs rank := by
  rcases List.mem_append.mp hd with hd | hd
  · obtain ⟨j, -, hd⟩ := List.mem_flatMap.mp hd
    unfold LimitedArgs.roundCalls at hd
    split_ifs at hd <;> simp at hd
    · rcases hd with rfl | rfl | rfl <;> cases hsum
      exact ⟨rfl, rfl⟩
    · rcases hd with rfl | rfl <;> cases hsum
  · obtain rfl := List.mem_singleton.mp hd
    cases hsum

theorem doSum_of_mem_rounds {L : LimitedArgs} {rank : Fin L.nranks} {k : ℕ}
    (hd : d ∈ L.path rank) (hsum : (StressCall.turns d).doSum = some (k, a)) :
    k < L.count + 1 ∧ a = L.sumArgs rank := by
  rcases List.mem_append.mp hd with hd | hd
  · split_ifs at hd <;> simp at hd
    subst hd
    cases hsum
    exact ⟨Nat.succ_pos _, rfl⟩
  · obtain ⟨i, hi, hd⟩ := List.mem_flatMap.mp hd
    obtain ⟨rfl, rfl⟩ := doSum_of_mem_repetition hd hsum
    exact ⟨Nat.succ_lt_succ (List.mem_range.mp hi), rfl⟩

theorem doSum_of_mem_serial {k : ℕ} (hc : c ∈ A.serialPath rank) (hsum : c.doSum = some (k, a)) :
    rank.val = 0 ∧ k < A.count + 1 ∧ a = A.sumArgs rank := by
  unfold serialPath at hc
  split_ifs at hc with hrank
  · obtain rfl := List.mem_singleton.mp hc
    cases hsum
  all_goals
    have hzero : rank.val = 0 := by omega
    refine ⟨hzero, ?_⟩
    simp only [List.nil_append, List.mem_append, List.mem_singleton, List.mem_map,
      List.mem_range] at hc
    unfold sumArgs
    rw [hzero]
  · rcases hc with (rfl | ⟨i, hi, rfl⟩) | rfl <;> cases hsum
    · exact ⟨Nat.succ_pos _, by rw [hzero, Nat.cast_zero]⟩
    · exact ⟨Nat.succ_lt_succ hi, rfl⟩
  · rcases hc with ⟨i, hi, rfl⟩ | rfl <;> cases hsum
    exact ⟨Nat.succ_lt_succ hi, rfl⟩

/-- Every `do_sum` of a rank has the rank for its seed, and a number below `count + 1`. -/
theorem doSum_of_mem_path {k : ℕ} (hc : c ∈ A.path rank) (hsum : c.doSum = some (k, a)) :
    k < A.count + 1 ∧ a = A.sumArgs rank ∧ (A.serial = true → rank.val = 0) := by
  unfold path at hc
  split_ifs at hc with hserial
  · obtain ⟨hzero, hk, ha⟩ := doSum_of_mem_serial hc hsum
    exact ⟨hk, ha, fun _ => hzero⟩
  · obtain ⟨d, hd, rfl⟩ := List.mem_map.mp hc
    obtain ⟨hk, ha⟩ := doSum_of_mem_rounds hd hsum
    exact ⟨hk, ha, fun h => absurd h hserial⟩

theorem uses_request_lt (rank : Fin A.nranks) : ∀ c ∈ A.path rank, ∀ i,
    A.stress.uses rank c = some i → i < A.requests.length := by
  intro c hc i hi
  obtain ⟨⟨k, a⟩, hsum, rfl⟩ := Option.map_eq_some_iff.mp hi
  rw [requests, length_spread]
  exact index_lt rank (doSum_of_mem_path hc hsum).1

theorem hosted_requests (A : StressArgs) :
    ∀ r ∈ A.requests, 0 ≤ r.server ∧ r.server < A.servers := by
  intro r hr
  obtain ⟨rank, -, -, rfl⟩ := mem_spread hr
  exact A.hosted rank

theorem reliable (A : StressArgs) : A.stress.service.Reliable A.requests.length
    (listenerSteps A.servers A.requests) := listenerService_reliable A.hosted_requests

/-! ## Who is inside a sum -/

variable {xs : List (Label (Fin A.nranks) StressCall (Label (Fin A.requests.length) ℕ SumLabel))}
  {s : State (Fin A.nranks) StressCall × State (Fin A.requests.length) ℕ × SumNet}
  {p q : Fin A.nranks}

/-- A rank inside a `do_sum` -/
def Summing (A : StressArgs) (s : State (Fin A.nranks) StressCall) (rank : Fin A.nranks) : Prop :=
  s.inside rank = true ∧ ∃ c d, s.current rank = some c ∧ c.doSum = some d

/-- Inside the `do_sum` of repetition `i` and round `j`, of a run on all ranks -/
def Measuring (A : StressArgs) (s : State (Fin A.nranks) StressCall) (rank : Fin A.nranks)
    (i j : ℕ) : Prop :=
  s.inside rank = true ∧ ∃ a, s.current rank = some (.turns (.sum i j a))

/-- The sums on the servers are no more than the ranks that wait for one. -/
theorem card_running_le (hrun : A.stress.Run xs s) {I : Finset ℕ}
    (hI : ∀ i ∈ I, s.2.2.rpc ⟨i, []⟩ = .running) {T : Finset (Fin A.nranks)}
    (hT : ∀ p, A.Summing s.1 p → p ∈ T) : I.card ≤ T.card := by
  have hserves : (listeners A.servers A.requests).Run (serves xs) s.2 := hrun.serves
  have hhosted := A.hosted_requests
  let H : Finset (Fin A.requests.length) := {p | ∃ k, s.2.1.current p = some k ∧
    p.val * width A.requests + k ∈ I}
  have hopen : I.card ≤ H.card := by
    refine card_open_le (sumService_reliable (invocations_roots hhosted)) hserves ?_ ?_
    · exact fun i hi => open_of_running (invocations_roots hhosted) hserves.serves (hI i hi)
    · rintro p k - hk ⟨i, hi, huses⟩
      exact Finset.mem_filter.mpr ⟨Finset.mem_univ p, k, hk, Option.some.inj huses ▸ hi⟩
  have hmap : H.card = (H.map Fin.valEmbedding).card := (Finset.card_map _).symm
  refine hopen.trans (hmap.trans_le (card_open_le A.reliable hrun ?_ ?_))
  · intro i hi
    obtain ⟨p, hp, rfl⟩ := Finset.mem_map.mp hi
    obtain ⟨-, k, hk, hmem⟩ := Finset.mem_filter.mp hp
    obtain ⟨q, m, heq, hm, hopen⟩ := handler_of_running hhosted hserves (hI _ hmem)
    have hlt : ∀ {r l}, s.2.1.current r = some l → l < width A.requests := fun hl =>
      lt_width ((walks_trace follows_handler hserves.mains _).current_mem hl)
    obtain ⟨rfl, -⟩ := index_inj (hlt hk) (hlt hm) heq
    exact hopen
  · rintro p c hin hc ⟨i, -, huses⟩
    obtain ⟨d, hd, -⟩ := Option.map_eq_some_iff.mp huses
    exact hT p ⟨hin, c, d, hc, hd⟩

theorem walks (hrun : A.stress.Run xs s) (p : Fin A.nranks) :
    Walks A.sumMain (A.path p) (mains xs) s.1 p := walks_trace follows_path hrun.mains p

theorem Summing.mem_path (h : A.Summing s.1 p) (hrun : A.stress.Run xs s) :
    ∃ c d, s.1.current p = some c ∧ c.doSum = some d ∧ c ∈ A.path p := by
  obtain ⟨-, c, d, hc, hd⟩ := h
  exact ⟨c, d, hc, hd, (walks hrun p).current_mem hc⟩

/-- Of the ranks that are in a serial run only the first sums. -/
theorem card_serial_le (hserial : A.serial = true) (hrun : A.stress.Run xs s) {I : Finset ℕ}
    (hI : ∀ i ∈ I, s.2.2.rpc ⟨i, []⟩ = .running) : I.card ≤ 1 := by
  refine (card_running_le hrun hI (T := {p | p.val = 0}) fun p hp => ?_).trans ?_
  · obtain ⟨c, d, -, hd, hmem⟩ := hp.mem_path hrun
    exact Finset.mem_filter.mpr ⟨Finset.mem_univ p, (doSum_of_mem_path hmem hd).2.2 hserial⟩
  · refine Finset.card_le_one.mpr fun p hp q hq => Fin.ext ?_
    rw [(Finset.mem_filter.mp hp).2, (Finset.mem_filter.mp hq).2]

/-! ## The rounds of all ranks -/

theorem inAll_sum (rank : Fin A.nranks) (i j : ℕ) (a : SumArgs) :
    A.inAll.next rank (.sum i j a) = some (.after i j) := by
  unfold inAll
  split_ifs <;> rfl

theorem barrier_turns {d : LimitedCall} (hcoll : d.collective = true) (hd : ∀ i, d ≠ .gather i) :
    A.sumMain.Barrier (.turns d) := by
  refine ⟨hcoll, fun p => ?_⟩
  change A.inAll.held p d = true
  unfold inAll
  cases d with
  | gather i => exact absurd rfl (hd i)
  | warmup => cases hcoll
  | sum => cases hcoll
  | _ => split_ifs <;> rfl

theorem limit_pos (rank : Fin A.nranks) : 1 ≤ A.limit := by
  have := rank.isLt
  unfold limit
  split_ifs <;> omega

/-- The first round comes behind the warm-up. -/
theorem inAll_warmup (hcount : 0 < A.count) (rank : Fin A.nranks) (a : SumArgs) :
    A.inAll.next rank (.warmup a) = some (.before 0 0) := by
  by_cases h : A.limited ≠ 0
  · have hall : A.inAll = (A.limitedArgs A.limited).doSumLimited := if_pos h
    have hrounds := LimitedArgs.rounds_pos (A := A.limitedArgs A.limited) (Nat.pos_of_ne_zero h)
    rw [hall]
    change (if 0 < A.count then some (if 0 < _ then _ else _) else none) = _
    rw [if_pos hcount, if_pos hrounds]
  · have hall : A.inAll = A.doSumParallel := if_neg h
    rw [hall]
    exact if_pos hcount

/-- Two measured sums at the same time are of one round of one repetition. -/
theorem Measuring.same_turn {i' j' : ℕ} (hrun : A.stress.Run xs s) (hp : A.Measuring s.1 p i j)
    (hq : A.Measuring s.1 q i' j') : i = i' ∧ j = j' := by
  obtain ⟨-, a, hp⟩ := hp
  obtain ⟨-, b, hq⟩ := hq
  have hnext : ∀ (r : Fin A.nranks) i j a,
      A.sumMain.next r (.turns (.sum i j a)) = some (.turns (.after i j)) := fun r i j a =>
    congrArg (Option.map StressCall.turns) (inAll_sum r i j a)
  have heq := (inv_trace A.aligned hrun.mains).same_barrier A.aligned hp hq rfl rfl
    (hnext p i j a) (hnext q i' j' b) (barrier_turns rfl (by simp)) (barrier_turns rfl (by simp))
  cases heq
  exact ⟨rfl, rfl⟩

/-- No warm-up is left when a sum is measured. -/
theorem Measuring.no_warmup (hrun : A.stress.Run xs s) (hp : A.Measuring s.1 p i j) :
    s.1.current q ≠ some (.turns (.warmup a)) := by
  intro hq
  obtain ⟨-, b, hp⟩ := hp
  have hmem := (walks hrun p).current_mem hp
  have hcount : 0 < A.count := by
    have hlt : i + 1 < A.count + 1 := (doSum_of_mem_path hmem rfl).1
    omega
  have hwarm : A.sumMain.next q (.turns (.warmup a)) = some (.turns (.before 0 0)) :=
    congrArg (Option.map StressCall.turns) (inAll_warmup hcount q a)
  have hsum : A.sumMain.next p (.turns (.sum i j b)) = some (.turns (.after i j)) :=
    congrArg (Option.map StressCall.turns) (inAll_sum p i j b)
  have heq := (inv_trace A.aligned hrun.mains).same_barrier A.aligned hq hp rfl rfl hwarm hsum
    (barrier_turns rfl (by simp)) (barrier_turns rfl (by simp))
  cases heq

/-- A rank of a run on all ranks is in its warm-up or measures. -/
theorem Summing.cases (h : A.Summing s.1 p) (hserial : A.serial = false)
    (hrun : A.stress.Run xs s) :
    (A.warmup = true ∧ ∃ a, s.1.current p = some (.turns (.warmup a))) ∨
      ∃ i j, A.Measuring s.1 p i j := by
  obtain ⟨c, d, hc, hd, hmem⟩ := h.mem_path hrun
  rw [path, hserial, if_neg Bool.false_ne_true] at hmem
  obtain ⟨e, he, rfl⟩ := List.mem_map.mp hmem
  cases e with
  | warmup a =>
    refine Or.inl ⟨?_, a, hc⟩
    rcases List.mem_append.mp he with he | he
    · split_ifs at he with hwarm
      · exact hwarm
      · cases he
    · obtain ⟨i, -, he⟩ := List.mem_flatMap.mp he
      cases (doSum_of_mem_repetition he rfl).1
  | sum i j a => exact Or.inr ⟨i, j, h.1, a, hc⟩
  | _ => cases hd

/-- With a limit no more sums than that are on the servers, besides those of a warm-up. -/
theorem card_limited_le (hserial : A.serial = false) (hlimited : A.limited ≠ 0)
    (hmeasured : A.warmup = false ∨ ∃ p i j, A.Measuring s.1 p i j) (hrun : A.stress.Run xs s)
    {I : Finset ℕ} (hI : ∀ i ∈ I, s.2.2.rpc ⟨i, []⟩ = .running) : I.card ≤ A.limited := by
  have hmeasuring : ∀ p, A.Summing s.1 p → ∃ i j, A.Measuring s.1 p i j := by
    intro p hp
    refine (hp.cases hserial hrun).resolve_left ?_
    rintro ⟨hwarm, a, hc⟩
    rcases hmeasured with hno | ⟨q, i, j, hq⟩
    · simp [hwarm] at hno
    · exact hq.no_warmup hrun hc
  by_cases hany : ∃ q, A.Summing s.1 q
  · obtain ⟨q, hq⟩ := hany
    obtain ⟨i, j, hq⟩ := hmeasuring q hq
    have hround : ∀ p, A.Summing s.1 p → p.val % A.rounded.rounds = j := by
      intro p hp
      obtain ⟨i', j', hp⟩ := hmeasuring p hp
      obtain ⟨rfl, rfl⟩ := hp.same_turn hrun hq
      obtain ⟨-, a, hp⟩ := hp
      have hmem := (walks hrun p).current_mem hp
      rw [path, hserial, if_neg Bool.false_ne_true] at hmem
      obtain ⟨e, he, heq⟩ := List.mem_map.mp hmem
      cases heq
      exact LimitedArgs.mem_path_sum (A := A.rounded) he
    have hlimit : A.rounded.limited = A.limited := if_pos hlimited
    calc I.card ≤ (Finset.univ.filter fun p : Fin A.nranks => p.val % A.rounded.rounds = j).card :=
          card_running_le hrun hI fun p hp => Finset.mem_filter.mpr ⟨Finset.mem_univ p, hround p hp⟩
      _ ≤ A.rounded.limited := LimitedArgs.card_round_le (A := A.rounded) (limit_pos q) j
      _ = A.limited := hlimit
  · have hle := card_running_le hrun hI (T := ∅) fun p hp => absurd ⟨p, hp⟩ hany
    exact hle.trans (Nat.zero_le _)

/-! ## What the ranks get -/

/-- A `do_sum` that has returned. -/
theorem answer_of_sum {k : ℕ} (hrun : A.stress.Run xs s) (hc : c ∈ returned p (mains xs))
    (hsum : c.doSum = some (k, a)) :
    A.stress.service.answer s.2 (p.val * (A.count + 1) + k) =
      some ⟨0, wrapInt (A.servers * (A.servers - 1) / 2 + A.servers * p.val)⟩ := by
  have huses : A.stress.uses p c = some (p.val * (A.count + 1) + k) :=
    congrArg (Option.map _) hsum
  have hmem := (walks hrun p).returned_initial.subset hc
  have hlt := uses_request_lt p c hmem _ huses
  have hk := (doSum_of_mem_path hmem hsum).1
  obtain ⟨o, ho⟩ := answer_of_returned A.reliable hrun hc huses
  obtain ⟨rfl, -⟩ := response_total (p := ⟨_, hlt⟩) A.hosted_requests hrun.serves ho
  have hget : A.requests.get ⟨_, hlt⟩ = .sum (A.host p) p := by
    have h : A.requests[p.val * (A.count + 1) + k]? = some (.sum (A.host p) p) := spread_get p hk
    rw [List.getElem?_eq_getElem hlt] at h
    exact Option.some.inj h
  rw [ho, hget]
  rfl

/-- The `do_sum`s of a rank, when it has returned from all. -/
theorem doSum_mem_path (rank : Fin A.nranks) (hpart : A.serial = true → rank.val = 0)
    (hi : i < A.count) : ∃ c ∈ A.path rank, c.doSum = some (i + 1, A.sumArgs rank) := by
  cases hserial : A.serial with
  | true =>
    have hzero := hpart hserial
    refine ⟨.sum i ⟨0, calculateExpectedSum A.servers 0⟩, ?_, ?_⟩
    · rw [path, if_pos hserial, serialPath, if_neg (by omega)]
      simp [hi]
    · simp [StressCall.doSum, sumArgs, hzero]
  | false =>
    have hsum := LimitedArgs.filter_measured_path (A := A.rounded) (limit_pos rank) rank i
    rw [if_pos hi] at hsum
    have hmem := List.mem_of_mem_filter (hsum ▸ List.mem_singleton_self _)
    rw [path, hserial, if_neg Bool.false_ne_true]
    exact ⟨_, List.mem_map_of_mem hmem, rfl⟩

/-- When all ranks have returned the servers are done. -/
theorem quiet_of_returned (hrun : A.stress.Run xs s) (hdone : ∀ p, s.1.current p = none)
    (h : Handle) : s.2.2.frame h = none ∧
      (s.2.2.rpc h = .unused ∨ s.2.2.rpc h = .completed) := by
  refine listeners_quiet A.hosted_requests hrun.serves (fun p hbegun => ?_) h
  obtain ⟨q, c, hc, huses⟩ := entered_of_begun follows_path hrun hbegun
  have hfinished := (walks hrun q).finished (hdone q)
  rw [hfinished.1, ← hfinished.2] at hc
  obtain ⟨o, ho⟩ := answer_of_returned A.reliable hrun hc huses
  exact Option.ne_none_iff_exists'.mpr ⟨o, ho⟩

end StressArgs

open StressArgs

/-- The stress run as a whole. Each `do_sum` comes back without an error and with the total for its
rank, which is what it expects if and only if the product halves exactly. From rank 0 alone one
sum is on the servers at a time, with a limit of `N` at most `N` measured ones, never more than
there are ranks; those measured at the same time are of one round, with no warm-up beside them. No
rank is left waiting, a run ends, every rank has then made its sums, and the servers are quiet. -/
theorem stress_run {A : StressArgs}
    {xs : List (Label (Fin A.nranks) StressCall (Label (Fin A.requests.length) ℕ SumLabel))}
    {s : State (Fin A.nranks) StressCall × State (Fin A.requests.length) ℕ × SumNet}
    (hrun : A.stress.Run xs s) :
    (∀ p, ∀ c ∈ returned p (mains xs), ∀ k a, c.doSum = some (k, a) →
      ∃ o, A.stress.service.answer s.2 (p.val * (A.count + 1) + k) = some o ∧ o.ret = 0 ∧
        a.seed = p.val ∧ o.sum = wrapInt (A.servers * (A.servers - 1) / 2 + A.servers * a.seed) ∧
        (o.sum = a.expected ↔ HalvesExactly A.servers)) ∧
    (∀ I : Finset ℕ, (∀ i ∈ I, s.2.2.rpc ⟨i, []⟩ = .running) →
      I.card ≤ A.nranks ∧ (A.serial = true → I.card ≤ 1) ∧
      (A.serial = false → A.limited ≠ 0 →
        A.warmup = false ∨ (∃ p i j, A.Measuring s.1 p i j) → I.card ≤ A.limited)) ∧
    (∀ p i j, A.Measuring s.1 p i j → ∀ q,
      (∀ i' j', A.Measuring s.1 q i' j' → i = i' ∧ j = j') ∧
        ∀ a, s.1.current q ≠ some (.turns (.warmup a))) ∧
    ((∃ rank, s.1.current rank ≠ none) → ∃ a u, A.stress.Step s a u) ∧
    xs.length ≤ ∑ rank, 2 * (A.path rank).length + listenerSteps A.servers A.requests ∧
    ((∀ rank, s.1.current rank = none) →
      (∀ rank : Fin A.nranks, (A.serial = true → rank.val = 0) → ∀ i < A.count,
        ∃ o, A.stress.service.answer s.2 (rank.val * (A.count + 1) + (i + 1)) = some o) ∧
      ∀ h, s.2.2.frame h = none ∧ (s.2.2.rpc h = .unused ∨ s.2.2.rpc h = .completed)) := by
  refine ⟨fun p c hc k a hsum => ?_, fun I hI => ⟨?_, ?_, ?_⟩, fun p i j hp q => ?_, ?_, ?_, ?_⟩
  · have hmem := (walks hrun p).returned_initial.subset hc
    obtain ⟨-, rfl, -⟩ := doSum_of_mem_path hmem hsum
    refine ⟨_, answer_of_sum hrun hc hsum, rfl, rfl, rfl, ?_⟩
    rw [← half_of_wrapped A.servers (A.servers * p.val), ← calculateExpectedSum_eq]
    exact eq_comm
  · have hle := card_running_le hrun hI (T := Finset.univ) fun p _ => Finset.mem_univ p
    rwa [Finset.card_univ, Fintype.card_fin] at hle
  · exact fun hserial => card_serial_le hserial hrun hI
  · exact fun hserial hlimited hmeasured => card_limited_le hserial hlimited hmeasured hrun hI
  · exact ⟨fun i' j' hq => hp.same_turn hrun hq, fun a => hp.no_warmup hrun⟩
  · rintro ⟨rank, h⟩
    exact hrun.progress A.aligned A.reliable (ordered_of_free fun _ _ => not_false)
      uses_request_lt h
  · exact Layer.Run.length_le A.reliable follows_path hrun
  · refine fun hdone => ⟨fun rank hpart i hi => ?_, quiet_of_returned hrun hdone⟩
    obtain ⟨c, hc, hsum⟩ := doSum_mem_path rank hpart hi
    rw [← ((walks hrun rank).finished (hdone rank)).2] at hc
    exact ⟨_, answer_of_sum hrun hc hsum⟩

/-- Two clients on two nodes, one at a time. -/
def twoNodes : StressArgs where
  nranks := 2
  count := 1
  limited := 1
  serial := false
  warmup := false
  servers := 2
  host rank := (rank : ℤ) % 2
  hosted rank := by omega
  gatherHolds _ := false

abbrev TwoNodesLabel : Type :=
  Label (Fin twoNodes.nranks) StressCall (Label (Fin twoNodes.requests.length) ℕ SumLabel)

/-- Request `k`, from the server that is not `other`. -/
def twoNodesServed (k : ℕ) (other : ℤ) : List (Label (Fin twoNodes.requests.length) ℕ SumLabel) :=
  if h : k < twoNodes.requests.length then Served.jointly [⟨k, h⟩] 0 (pairSum k other) else []

/-- The calls in turn, with the ranks that make them and what is served to them. -/
def twoNodesCalls : List (List (Fin twoNodes.nranks) × LimitedCall ×
    List (Label (Fin twoNodes.requests.length) ℕ SumLabel)) :=
  let both := List.finRange 2
  [(both, .before 0 0, []), (both.take 1, .sum 0 0 ⟨0, 1⟩, twoNodesServed 1 1),
    (both, .after 0 0, []), (both, .before 0 1, []),
    (both.drop 1, .sum 0 1 ⟨1, 3⟩, twoNodesServed 3 0), (both, .after 0 1, []),
    (both, .gather 0, [])]

def twoNodesRun : List TwoNodesLabel :=
  twoNodesCalls.flatMap fun c => Served.jointly c.1 (.turns c.2.1) c.2.2

theorem stress_run_two : ∃ s, twoNodes.stress.Run twoNodesRun s ∧
    (∀ rank, s.1.current rank = none) ∧
    (∃ o, twoNodes.stress.service.answer s.2 3 = some o) ∧
    ∀ h, s.2.2.frame h = none ∧ (s.2.2.rpc h = .unused ∨ s.2.2.rpc h = .completed) := by
  have hfinal : ((twoNodesRun.foldlM twoNodes.stress.step twoNodes.stress.start).map
      fun s => decide (∀ rank, s.1.current rank = none)) = some true := by decide
  obtain ⟨s, hs, hdone⟩ := Option.map_eq_some_iff.mp hfinal
  have hdone := of_decide_eq_true hdone
  have hrun : twoNodes.stress.Run twoNodesRun s := of_foldlM hs
  obtain ⟨-, -, -, -, -, hend⟩ := stress_run hrun
  obtain ⟨hall, hquiet⟩ := hend hdone
  exact ⟨s, hrun, hdone, hall (1 : Fin 2) (by decide) 0 (by decide), hquiet⟩

end Metasim
