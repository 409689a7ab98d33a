import Metasim.Listener
import Metasim.SumLimited

/-! `sumrepeat.c` from `metasim_invoke_init` on: rank 0 has its listener repeat a sum while the
other ranks wait. The clock and what is printed are left out. -/
namespace Metasim

open Transition Spmd Served

/-- `count` is `repeat`, as `atoi` gives it, and `host` the server on the node of rank 0. There are
`servers` of them. -/
structure RepeatArgs where
  nranks : ℕ
  count : ℤ
  servers : ℤ
  host : ℤ
  hosted : 0 ≤ host ∧ host < servers

/-- `do_sum_server`, and the `MPI_Barrier` at `wait`. -/
inductive RepeatCall
  | doSumServer (args : SumArgs)
  | wait
deriving Repr, DecidableEq

/-- `MPI_Barrier` -/
def RepeatCall.collective : RepeatCall → Bool
  | doSumServer _ => false
  | wait => true

namespace RepeatArgs

variable (A : RepeatArgs)

/-- The arguments of rank 0 -/
def sumArgs : SumArgs := ⟨0, calculateExpectedSum A.servers 0⟩

/-- `do_sum_serial` -/
def doSumSerial : Program (Fin A.nranks) RepeatCall where
  first rank := if rank.val > 0 then some .wait else some (.doSumServer A.sumArgs)
  next _
    | .doSumServer _ => some .wait
    | .wait => none
  collective := RepeatCall.collective
  held _ := RepeatCall.collective

/-- `metasim_invoke_sumrepeat` of rank 0 -/
def requests : List ListenerIn := [.sumrepeat A.host A.sumArgs.seed A.count]

/-- `sumrepeat` on top of the listeners, and these on top of the servers. -/
def sumrepeat : Layer (Fin A.nranks) RepeatCall
    (State (Fin A.requests.length) ℕ × SumNet) (Label (Fin A.requests.length) ℕ SumLabel)
    ListenerOut where
  program := A.doSumSerial
  uses _
    | .doSumServer _ => some 0
    | .wait => none
  service := listenerService A.servers A.requests

def path (rank : Fin A.nranks) : List RepeatCall :=
  if rank.val > 0 then [.wait] else [.doSumServer A.sumArgs, .wait]

variable {A} {p : Fin A.nranks} {c : RepeatCall} {i : ℕ} {a : SumArgs}
  {xs : List (Label (Fin A.nranks) RepeatCall (Label (Fin A.requests.length) ℕ SumLabel))}
  {s : State (Fin A.nranks) RepeatCall × State (Fin A.requests.length) ℕ × SumNet}

theorem follows_path (p : Fin A.nranks) :
    Follows (A.doSumSerial.next p) (A.doSumSerial.first p) (A.path p) := by
  change Follows _ (if _ then _ else _) (if _ then _ else _)
  split_ifs
  · exact ⟨rfl, rfl⟩
  · exact ⟨rfl, rfl, rfl⟩

theorem aligned (A : RepeatArgs) : Aligned A.doSumSerial A.path [.wait] := by
  refine ⟨follows_path, fun p => ?_⟩
  unfold path
  split_ifs <;> rfl

theorem doSum_of_mem_path (hc : .doSumServer a ∈ A.path p) : p.val = 0 ∧ a = A.sumArgs := by
  unfold path at hc
  split_ifs at hc with hp
  · simp at hc
  · simp only [List.mem_cons, RepeatCall.doSumServer.injEq, List.not_mem_nil, reduceCtorEq,
      or_false] at hc
    exact ⟨by omega, hc⟩

theorem hosted_requests (A : RepeatArgs) :
    ∀ r ∈ A.requests, 0 ≤ r.server ∧ r.server < A.servers := by
  intro r hr
  obtain rfl := List.mem_singleton.mp hr
  exact A.hosted

theorem reliable (A : RepeatArgs) : A.sumrepeat.service.Reliable A.requests.length
    (listenerSteps A.servers A.requests) := listenerService_reliable A.hosted_requests

theorem uses_lt (p : Fin A.nranks) (c : RepeatCall) :
    ∀ i, A.sumrepeat.uses p c = some i → i < A.requests.length := by
  intro i hi
  cases c with
  | doSumServer a =>
    obtain rfl : 0 = i := Option.some.inj hi
    exact Nat.one_pos
  | wait => cases hi

theorem walks (hrun : A.sumrepeat.Run xs s) (p : Fin A.nranks) :
    Walks A.doSumSerial (A.path p) (mains xs) s.1 p := walks_trace follows_path hrun.mains p

/-- The only handler -/
def handler (A : RepeatArgs) : Fin A.requests.length := ⟨0, Nat.one_pos⟩

theorem eq_handler (q : Fin A.requests.length) : q = A.handler := by
  have hlt : q.val < 1 := q.isLt
  exact Fin.ext (Nat.lt_one_iff.mp hlt)

theorem index_handler (k : ℕ) : A.handler.val * width A.requests + k = k := by
  rw [handler, Nat.zero_mul, Nat.zero_add]

theorem mem_handlerPath {k : ℕ} : k ∈ handlerPath A.requests A.handler ↔ k ≤ A.count.toNat := by
  rw [handlerPath, List.mem_range]
  exact Nat.lt_succ_iff

/-- The sums are those of the one handler. -/
theorem mem_of_invoked (hrun : A.sumrepeat.Run xs s) (hinvoked : .invoke i ∈ serves (serves xs)) :
    i ∈ entered A.handler (mains (serves xs)) := by
  have hserves : (listeners A.servers A.requests).Run (serves xs) s.2 := hrun.serves
  obtain ⟨q, k, hk, huses⟩ := entered_of_begun follows_handler hserves
    (begun_iff_mem.mpr hinvoked)
  obtain rfl := eq_handler q
  have hindex : A.handler.val * width A.requests + k = i := Option.some.inj huses
  rw [index_handler] at hindex
  rwa [← hindex]

theorem invoked_le (hrun : A.sumrepeat.Run xs s) (hinvoked : .invoke i ∈ serves (serves xs)) :
    i ≤ A.count.toNat ∧ ∀ j < i, ∃ x, s.2.2.result j = some x := by
  have hserves : (listeners A.servers A.requests).Run (serves xs) s.2 := hrun.serves
  have hmem := (walks_trace follows_handler hserves.mains A.handler).entered_initial.subset
    (mem_of_invoked hrun hinvoked)
  refine ⟨mem_handlerPath.mp hmem, fun j hj => ?_⟩
  have hbefore := answered_before A.hosted_requests hserves hmem
    (by rwa [index_handler]) hj
  rwa [index_handler] at hbefore

theorem running_unique {j : ℕ} (hrun : A.sumrepeat.Run xs s) (hi : s.2.2.rpc ⟨i, []⟩ = .running)
    (hj : s.2.2.rpc ⟨j, []⟩ = .running) : i = j := by
  have hserves : (listeners A.servers A.requests).Run (serves xs) s.2 := hrun.serves
  obtain ⟨q, k, hk, hcur, -⟩ := handler_of_running A.hosted_requests hserves hi
  obtain ⟨r, l, hl, hcur', -⟩ := handler_of_running A.hosted_requests hserves hj
  obtain rfl : q = r := (eq_handler q).trans (eq_handler r).symm
  rw [hk, hl, Option.some.inj (hcur.symm.trans hcur')]

/-- What rank 0 gets. -/
theorem answer_of_sum (hrun : A.sumrepeat.Run xs s)
    (hc : .doSumServer a ∈ returned p (mains xs)) :
    A.sumrepeat.service.answer s.2 0 =
      some ⟨0, wrapInt (A.servers * (A.servers - 1) / 2 + A.servers * a.seed)⟩ ∧
    returned A.handler (mains (serves xs)) = handlerPath A.requests A.handler := by
  obtain ⟨-, rfl⟩ := doSum_of_mem_path ((walks hrun p).returned_initial.subset hc)
  obtain ⟨o, ho⟩ := answer_of_returned A.reliable hrun hc rfl
  obtain ⟨rfl, hret⟩ := response_total (p := A.handler) A.hosted_requests hrun.serves ho
  exact ⟨ho, hret⟩

/-- It gets it after all the sums. -/
theorem invoked_of_sum (hrun : A.sumrepeat.Run xs s)
    (hc : .doSumServer a ∈ returned p (mains xs)) (hi : i ≤ A.count.toNat) :
    .invoke i ∈ serves (serves xs) := by
  have hserves : (listeners A.servers A.requests).Run (serves xs) s.2 := hrun.serves
  have hroots := invocations_roots A.hosted_requests
  have hmem : i ∈ returned A.handler (mains (serves xs)) := by
    rw [(answer_of_sum hrun hc).2]
    exact mem_handlerPath.mpr hi
  obtain ⟨x, hx⟩ := answer_of_returned (sumService_reliable hroots) hserves hmem
    (congrArg some (index_handler i))
  exact begun_of_answer hroots hserves.serves hx

/-- No rank comes to its end before rank 0 has its sum. -/
theorem sum_before_end (hrun : A.sumrepeat.Run xs s) (hc : .wait ∈ returned p (mains xs))
    {q : Fin A.nranks} (hq : q.val = 0) : .doSumServer A.sumArgs ∈ returned q (mains xs) := by
  have hI := fencedInv_trace (fun _ _ h => h) follows_path hrun.mains
  have hpos : 0 < (returned p (mains xs)).countP A.doSumSerial.collective :=
    List.countP_pos_iff.mpr ⟨_, hc, rfl⟩
  have hmade := hpos.trans_le (hI.even p q)
  rw [(hI.walks q).made_eq] at hmade
  obtain ⟨d, hd, hcoll⟩ := List.countP_pos_iff.mp hmade
  cases d with
  | doSumServer a => cases hcoll
  | wait =>
    obtain ⟨f, m, hf, hreturned⟩ := (hI.walks q).reached_of_entered hd
    rw [path, if_neg (by omega)] at hf
    cases f with
    | nil => cases hf
    | cons d f =>
      obtain rfl := (List.cons.inj hf).1
      exact hreturned.subset List.mem_cons_self

/-- When all ranks have returned the servers are done. -/
theorem quiet_of_returned (hrun : A.sumrepeat.Run xs s) (hdone : ∀ p, s.1.current p = none)
    (h : Handle) : s.2.2.frame h = none ∧
      (s.2.2.rpc h = .unused ∨ s.2.2.rpc h = .completed) := by
  refine listeners_quiet A.hosted_requests hrun.serves (fun q hbegun => ?_) h
  obtain ⟨p, c, hc, huses⟩ := entered_of_begun follows_path hrun hbegun
  have hfinished := (walks hrun p).finished (hdone p)
  rw [hfinished.1, ← hfinished.2] at hc
  obtain ⟨o, ho⟩ := answer_of_returned A.reliable hrun hc huses
  exact Option.ne_none_iff_exists'.mpr ⟨o, ho⟩

end RepeatArgs

open RepeatArgs

/-- The program as a whole. Rank 0 alone has sums made, one at a time and each after all before it
are answered: the first and `repeat` measured ones, none of those for a negative `repeat`. When it
has its response all have been made, without an error, and the sum is what it expects if and only if
the product halves exactly. No rank comes to its end before that, none is left waiting, a run ends,
and the servers are then quiet. -/
theorem sumrepeat_run {A : RepeatArgs}
    {xs : List (Label (Fin A.nranks) RepeatCall (Label (Fin A.requests.length) ℕ SumLabel))}
    {s : State (Fin A.nranks) RepeatCall × State (Fin A.requests.length) ℕ × SumNet}
    (hrun : A.sumrepeat.Run xs s) :
    (∀ p a, .doSumServer a ∈ returned p (mains xs) → p.val = 0 ∧
      (∃ o, A.sumrepeat.service.answer s.2 0 = some o ∧ o.ret = 0 ∧
        o.sum = wrapInt (A.servers * (A.servers - 1) / 2 + A.servers * a.seed) ∧
        (o.sum = a.expected ↔ HalvesExactly A.servers)) ∧
      ∀ i ≤ A.count.toNat, .invoke i ∈ serves (serves xs)) ∧
    (∀ i, .invoke i ∈ serves (serves xs) →
      i ≤ A.count.toNat ∧ ∀ j < i, ∃ x, s.2.2.result j = some x) ∧
    (∀ i j, s.2.2.rpc ⟨i, []⟩ = .running → s.2.2.rpc ⟨j, []⟩ = .running → i = j) ∧
    (∀ p q : Fin A.nranks, .wait ∈ returned p (mains xs) → q.val = 0 →
      .doSumServer A.sumArgs ∈ returned q (mains xs)) ∧
    ((∃ p, s.1.current p ≠ none) → ∃ a u, A.sumrepeat.Step s a u) ∧
    xs.length ≤ ∑ p, 2 * (A.path p).length + listenerSteps A.servers A.requests ∧
    ((∀ p, s.1.current p = none) →
      ∀ h, s.2.2.frame h = none ∧ (s.2.2.rpc h = .unused ∨ s.2.2.rpc h = .completed)) := by
  refine ⟨fun p a hc => ?_, fun i => invoked_le hrun, fun i j => running_unique hrun,
    fun p q hc hq => sum_before_end hrun hc hq, ?_,
    Layer.Run.length_le A.reliable follows_path hrun, quiet_of_returned hrun⟩
  · obtain ⟨hp, rfl⟩ := doSum_of_mem_path ((walks hrun p).returned_initial.subset hc)
    refine ⟨hp, ⟨_, (answer_of_sum hrun hc).1, rfl, rfl, ?_⟩, fun i => invoked_of_sum hrun hc⟩
    rw [← half_of_wrapped A.servers (A.servers * A.sumArgs.seed), sumArgs,
      ← calculateExpectedSum_eq]
    exact eq_comm
  · rintro ⟨p, h⟩
    exact hrun.progress A.aligned A.reliable (ordered_of_free fun _ _ => not_false)
      (fun p c _ => uses_lt p c) h

/-- Two clients; rank 0 repeats its sum once more. -/
def onceMore : RepeatArgs where
  nranks := 2
  count := 1
  servers := 3
  host := 1
  hosted := by decide

theorem sumrepeat_run_once : ∃ xs s, onceMore.sumrepeat.Run xs s ∧
    (∃ o, onceMore.sumrepeat.service.answer s.2 0 = some o ∧ o.sum = 3) ∧
    .invoke 1 ∈ serves (serves xs) := by
  obtain ⟨xs, s, hrun, hT⟩ := exists_terminal
    (fun xs s hrun => (sumrepeat_run (A := onceMore) hrun).2.2.2.2.2.1) .refl
  have hrun : onceMore.sumrepeat.Run xs s := hrun
  obtain ⟨hsum, -, -, -, hgoes, -⟩ := sumrepeat_run hrun
  let zero : Fin onceMore.nranks := (0 : Fin 2)
  have hdone : s.1.current zero = none := by
    by_contra hp
    obtain ⟨a, u, hs⟩ := hgoes ⟨_, hp⟩
    exact hT a u hs
  have hret : .doSumServer onceMore.sumArgs ∈ returned zero (mains xs) := by
    rw [((walks hrun zero).finished hdone).2]
    decide
  obtain ⟨-, ⟨o, ho, -, htotal, -⟩, hinvoked⟩ := hsum _ _ hret
  exact ⟨xs, s, hrun, ⟨o, ho, htotal.trans (by decide)⟩, hinvoked 1 (by decide)⟩

end Metasim
