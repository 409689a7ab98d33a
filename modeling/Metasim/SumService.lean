import Metasim.SumLoad
import Metasim.Lib.Served

/-! The servers' sums as a service to those who invoke them. -/
namespace Metasim

open Transition Served

/-- `metasim_rpc_invoke_sum` on servers of `n` ranks: call `i` is made by the rank and with the
seed that `calls` has for it. -/
def sumService (n : ℤ) (calls : List SumIn) : Service SumNet SumLabel ℤ where
  start := SumNet.start
  step := sumStep id n calls
  begins
    | .invoke i => some i
    | _ => none
  answer := SumNet.result

variable {n : ℤ} {calls : List SumIn} {s u : SumNet} {xs : List SumLabel} {a : SumLabel} {i : ℕ}
  {x : ℤ}

theorem begins_eq_none (h : ∀ i, a ≠ .invoke i) : (sumService n calls).begins a = none := by
  cases a <;> simp_all [sumService]

theorem begun_iff_mem : (sumService n calls).Begun xs i ↔ .invoke i ∈ xs := by
  constructor
  · rintro ⟨a, ha, hi⟩
    cases a <;> simp_all [sumService]
  · intro h
    exact ⟨_, h, rfl⟩

theorem HistoryInv.invoked_iff (hI : HistoryInv id n calls xs s) :
    .invoke i ∈ xs ↔ 2 ≤ (s.rpc ⟨i, []⟩).level :=
  (hI.mem (.invoke i)).trans (and_iff_right trivial)

theorem sound_of_roots (hroots : ∀ c ∈ calls, 0 ≤ c.root ∧ c.root < n) :
    ∀ c ∈ calls, Sound id n c.root 2 := sound_of_exact (exactFor_id n 2) hroots

/-- A result is final. -/
theorem result_stable (S : ∀ c ∈ calls, Sound id n c.root 2) (hI : NetInv id n calls s)
    (hs : SumStep id n calls s a u) (hx : s.result i = some x) : u.result i = some x := by
  obtain ⟨c, hc, hcomp, rfl⟩ := (hI.result i x).mp hx
  refine ((netInv_step S hI hs).result i _).mpr ⟨c, hc, ?_, rfl⟩
  have hm := sumStep_moves hI hs
  have hne : (⟨i, []⟩ : Handle) ≠ a.target := by
    intro heq
    have hbefore := hm.before
    have hle := sumRpc_level_le (u.rpc a.target)
    rw [hm.after] at hle
    rw [← heq, hcomp, SumRpc.level] at hbefore
    omega
  rw [hm.other _ hne, hcomp]

theorem sumService_reliable (hroots : ∀ c ∈ calls, 0 ≤ c.root ∧ c.root < n) :
    (sumService n calls).Reliable calls.length (calls.length * n.toNat * 5) := by
  have S := sound_of_roots hroots
  have hI : ∀ {xs s}, (sumService n calls).Run xs s → HistoryInv id n calls xs s :=
    fun hrun => historyInv_trace S hrun
  constructor
  · intro xs s i hrun hi hnot _
    rw [begun_iff_mem, (hI hrun).invoked_iff] at hnot
    have hc : calls[i]? = some calls[i] := List.getElem?_eq_getElem hi
    have hnone : s.result i = none := by
      refine Option.eq_none_iff_forall_ne_some.mpr fun x hx => hnot ?_
      obtain ⟨-, -, hcomp, -⟩ := ((hI hrun).net.result i x).mp hx
      simp [hcomp, SumRpc.level]
    rcases (hI hrun).net.pending hc hnone with hr | hr
    · exact ⟨.invoke i, _, rfl, sumStep_invoke.mpr ⟨_, hc, hr, rfl⟩⟩
    · simp [hr, SumRpc.level] at hnot
  · intro xs s i hrun hi hbegun hnone
    have hc : calls[i]? = some calls[i] := List.getElem?_eq_getElem hi
    have hS := S _ (List.mem_of_getElem? hc)
    rw [begun_iff_mem, (hI hrun).invoked_iff] at hbegun
    have hrunning : s.rpc ⟨i, []⟩ = .running := by
      refine ((hI hrun).net.pending hc hnone).resolve_left fun hr => ?_
      simp [hr, SumRpc.level] at hbegun
    obtain ⟨a, u, hs, ha⟩ := (hI hrun).net.enabled hS hS.tree.root_mem _ (at_root hc)
      (Or.inr (by rw [hrunning, SumRpc.level]))
    exact ⟨a, u, begins_eq_none ha, hs⟩
  · intro xs s a u i x hrun hs hx
    exact result_stable S (hI hrun).net hs hx
  · exact fun hrun => sum_trace_length_le S hrun

/-! ## Calls in flight, and none -/

/-- What an answer is. -/
theorem answer_total (hroots : ∀ c ∈ calls, 0 ≤ c.root ∧ c.root < n)
    (hrun : (sumService n calls).Run xs s) (hx : s.result i = some x) :
    ∃ c, calls[i]? = some c ∧ x = wrapInt (n * (n - 1) / 2 + n * c.seed) := by
  have S := sound_of_roots hroots
  obtain ⟨c, hc, -, rfl⟩ := ((historyInv_trace S hrun).net.result i x).mp hx
  exact ⟨c, hc, subtreeTotal_root (S c (List.mem_of_getElem? hc))⟩

/-- A call that is running has begun and is not answered. -/
theorem open_of_running (hroots : ∀ c ∈ calls, 0 ≤ c.root ∧ c.root < n)
    (hrun : (sumService n calls).Run xs s) (hr : s.rpc ⟨i, []⟩ = .running) :
    (sumService n calls).Begun xs i ∧ s.result i = none := by
  have hI := historyInv_trace (sound_of_roots hroots) hrun
  constructor
  · rw [begun_iff_mem, hI.invoked_iff, hr, SumRpc.level]
  · refine Option.eq_none_iff_forall_ne_some.mpr fun x hx => ?_
    obtain ⟨-, -, hcomp, -⟩ := (hI.net.result i x).mp hx
    simp [hr] at hcomp

/-- A call that is answered was made. -/
theorem begun_of_answer (hroots : ∀ c ∈ calls, 0 ≤ c.root ∧ c.root < n)
    (hrun : (sumService n calls).Run xs s) (hx : s.result i = some x) : .invoke i ∈ xs := by
  have hI := historyInv_trace (sound_of_roots hroots) hrun
  obtain ⟨-, -, hcomp, -⟩ := (hI.net.result i x).mp hx
  rw [hI.invoked_iff, hcomp]
  simp [SumRpc.level]

/-- Below a call that was not made nothing was sent. -/
theorem NetInv.unused (hI : NetInv id n calls s) (hroot : s.rpc ⟨i, []⟩ = .unused) {c : SumIn}
    {v : ℤ} {p : List ℕ} (hat : (⟨i, p⟩ : Handle).At id n calls c v) :
    s.rpc ⟨i, p⟩ = .unused := by
  induction p generalizing v with
  | nil => exact hroot
  | cons j p ih =>
    obtain ⟨w, hw, hj⟩ := (at_child_iff (h := ⟨i, p⟩)).mp hat
    have hup := ih hw
    have hlt := (List.getElem?_eq_some_iff.mp hj).1
    cases hI.server _ _ _ hw with
    | before _ _ hk => exact hk j hlt
    | during _ _ hr => simp [hr] at hup
    | after _ hr => rcases hr with hr | ⟨_, hr | hr⟩ <;> simp [hr] at hup

/-- When every call that was made is answered, no handler and no message is left. -/
theorem quiet_of_answered (hroots : ∀ c ∈ calls, 0 ≤ c.root ∧ c.root < n)
    (hrun : (sumService n calls).Run xs s)
    (hall : ∀ i, (sumService n calls).Begun xs i → s.result i ≠ none) (h : Handle) :
    s.frame h = none ∧ (s.rpc h = .unused ∨ s.rpc h = .completed) := by
  have hI := historyInv_trace (sound_of_roots hroots) hrun
  have hframe : s.frame h = none := by
    refine Option.eq_none_iff_forall_ne_some.mpr fun F hF => ?_
    obtain ⟨hbegun, hnone⟩ := open_of_running hroots hrun (hI.net.outstanding_of_frame hF)
    exact hall _ hbegun hnone
  refine ⟨hframe, ?_⟩
  by_cases hat : ∃ c v, h.At id n calls c v
  · obtain ⟨c, v, hat⟩ := hat
    have hatr : (⟨h.call, h.path⟩ : Handle).At id n calls c v := hat
    by_cases hbegun : (sumService n calls).Begun xs h.call
    · obtain ⟨x, hx⟩ := Option.ne_none_iff_exists'.mp (hall _ hbegun)
      obtain ⟨-, -, hcomp, -⟩ := (hI.net.result _ x).mp hx
      exact Or.inr (hI.net.completed hcomp hatr)
    · rw [begun_iff_mem, hI.invoked_iff] at hbegun
      have hnone : s.result h.call = none := by
        refine Option.eq_none_iff_forall_ne_some.mpr fun x hx => hbegun ?_
        obtain ⟨-, -, hcomp, -⟩ := (hI.net.result _ x).mp hx
        simp [hcomp, SumRpc.level]
      rcases hI.net.pending hat.1 hnone with hr | hr
      · exact Or.inl (hI.net.unused hr hatr)
      · simp [hr, SumRpc.level] at hbegun
  · simp only [not_exists] at hat
    exact Or.inl (hI.net.elsewhere h hat).1

/-- The steps of one sum on two servers, the other one being `rank`. -/
def pairSum (i : ℕ) (rank : ℤ) : List SumLabel :=
  [.invoke i, .issue ⟨i, []⟩ 0, .start ⟨i, [0]⟩ rank, .respond ⟨i, [0]⟩, .arrive ⟨i, [0]⟩,
    .collect ⟨i, []⟩ 0, .ret i]

end Metasim
