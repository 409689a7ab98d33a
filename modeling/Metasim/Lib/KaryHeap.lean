import Mathlib.Algebra.Order.Ring.GeomSum
import Mathlib.Logic.Function.Iterate
import Mathlib.Order.Interval.Finset.Nat

/-! Complete `k`-ary trees numbered level by level: node `d` has the parent `(d - 1) / k`. -/
namespace KaryHeap

variable {k d L M : ℕ}

def parent (k d : ℕ) : ℕ := (d - 1) / k

/-- The first number of a level. -/
def levelStart (k : ℕ) : ℕ → ℕ
  | 0 => 0
  | L + 1 => k * levelStart k L + 1

def OnLevel (k L d : ℕ) : Prop := levelStart k L ≤ d ∧ d < levelStart k (L + 1)

instance : DecidablePred (OnLevel k L) := fun _ => inferInstanceAs (Decidable (_ ∧ _))

theorem levelStart_eq_sum : levelStart k L = ∑ i ∈ Finset.range L, k ^ i := by
  induction L with
  | zero => rfl
  | succ L ih => rw [levelStart, ih, geom_sum_succ]

theorem levelStart_succ : levelStart k (L + 1) = levelStart k L + k ^ L := by
  rw [levelStart_eq_sum, levelStart_eq_sum, Finset.sum_range_succ]

theorem levelStart_closed (hk : 2 ≤ k) : levelStart k L = (k ^ L - 1) / (k - 1) :=
  levelStart_eq_sum.trans (Nat.geomSum_eq hk L)

@[simp] theorem levelStart_one : levelStart 1 L = L := by
  simp [levelStart_eq_sum]

@[simp] theorem onLevel_zero_iff : OnLevel k 0 d ↔ d = 0 := by
  simp [OnLevel, levelStart]

theorem card_level : (Finset.Ico (levelStart k L) (levelStart k (L + 1))).card = k ^ L := by
  rw [Nat.card_Ico, levelStart_succ, Nat.add_sub_cancel_left]

section

variable (hk : 1 ≤ k)
include hk

theorem levelStart_strictMono : StrictMono (levelStart k) := by
  refine strictMono_nat_of_lt_succ fun L => ?_
  rw [levelStart_succ]
  have := Nat.pow_pos (n := L) hk
  omega

theorem exists_onLevel (d : ℕ) : ∃ L, OnLevel k L d := by
  induction d with
  | zero => exact ⟨0, le_rfl, Nat.succ_pos _⟩
  | succ d ih =>
    obtain ⟨L, hlo, hhi⟩ := ih
    rcases Nat.lt_or_ge (d + 1) (levelStart k (L + 1)) with h | h
    · exact ⟨L, by omega, h⟩
    · have hnext : levelStart k (L + 1) < levelStart k (L + 1 + 1) :=
        levelStart_strictMono hk (Nat.lt_succ_self _)
      exact ⟨L + 1, h, by omega⟩

theorem onLevel_le {e : ℕ} (hd : OnLevel k L d) (he : OnLevel k M e) (hde : d ≤ e) : L ≤ M := by
  have hlt : levelStart k L < levelStart k (M + 1) := by
    have := hd.1
    have := he.2
    omega
  have := (levelStart_strictMono hk).lt_iff_lt.mp hlt
  omega

theorem onLevel_unique (hL : OnLevel k L d) (hM : OnLevel k M d) : L = M :=
  le_antisymm (onLevel_le hk hL hM le_rfl) (onLevel_le hk hM hL le_rfl)

/-- The parent of a node stands one level higher. -/
theorem onLevel_parent (h : OnLevel k (L + 1) d) : OnLevel k L (parent k d) := by
  obtain ⟨hlo, hhi⟩ := h
  constructor
  · refine (Nat.le_div_iff_mul_le hk).mpr ?_
    rw [levelStart] at hlo
    rw [mul_comm]
    omega
  · refine (Nat.div_lt_iff_lt_mul hk).mpr ?_
    rw [levelStart] at hhi
    rw [levelStart] at hlo
    rw [mul_comm]
    omega

end

end KaryHeap
