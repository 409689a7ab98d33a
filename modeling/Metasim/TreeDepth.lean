import Metasim.Lib.KaryHeap
import Metasim.TreeSpan

/-! How far the ranks are from the root of their tree. -/
namespace Metasim

open KaryHeap

variable {arith : ℤ → ℤ} {n root k r : ℤ} {L i j : ℕ}

/-- The parent rank that `r` computes. -/
abbrev parentRank (arith : ℤ → ℤ) (n root k r : ℤ) : ℤ := (localTree arith n root k r).parentRank

/-- Going from `r` to the parent `L` times ends at the root, no rank being met twice. -/
structure ClimbsIn (arith : ℤ → ℤ) (n root k r : ℤ) (L : ℕ) : Prop where
  root_reached : (parentRank arith n root k)^[L] r = root
  distinct : ∀ i j, i < j → j ≤ L →
    (parentRank arith n root k)^[i] r ≠ (parentRank arith n root k)^[j] r

theorem ClimbsIn.unique {M : ℕ} (hL : ClimbsIn arith n root k r L)
    (hM : ClimbsIn arith n root k r M) : L = M := by
  rcases Nat.lt_trichotomy L M with h | h | h
  · exact absurd (hL.root_reached.trans hM.root_reached.symm) (hM.distinct L M h le_rfl)
  · exact h
  · exact absurd (hM.root_reached.trans hL.root_reached.symm) (hL.distinct M L h le_rfl)

namespace Sound

variable (S : Sound arith n root k)
include S

/-- Relative to the root the parent rank is the parent of the heap. -/
theorem dist_parentRank (h0 : 0 ≤ r) (h1 : r < n) (hr : r ≠ root) :
    (dist n root (parentRank arith n root k r)).toNat =
      parent k.toNat (dist n root r).toNat := by
  have hk := S.one_le
  have hd := S.dist_mem h0 h1
  have hne := mt (S.dist_eq_zero_iff h0 h1).mp hr
  have hle : (dist n root r - 1) / k ≤ dist n root r - 1 := Int.ediv_le_self _ (by omega)
  have hge : 0 ≤ (dist n root r - 1) / k := Int.ediv_nonneg (by omega) (by omega)
  obtain ⟨d, hdn⟩ := Int.eq_ofNat_of_zero_le (show 0 ≤ dist n root r - 1 by omega)
  obtain ⟨m, rfl⟩ := Int.eq_ofNat_of_zero_le (show 0 ≤ k by omega)
  rw [parentRank, S.parentRank_eq h0 h1 hr, dist_place hge (by omega), hdn, parent]
  rw [show (dist n root r).toNat - 1 = d by omega]
  rfl

theorem one_le_toNat : 1 ≤ k.toNat := by
  have := S.one_le
  omega

theorem climb_mem (hr : 0 ≤ r ∧ r < n) (h : OnLevel k.toNat L (dist n root r).toNat)
    (hi : i ≤ L) :
    (0 ≤ (parentRank arith n root k)^[i] r ∧ (parentRank arith n root k)^[i] r < n) ∧
      OnLevel k.toNat (L - i) (dist n root ((parentRank arith n root k)^[i] r)).toNat := by
  induction i with
  | zero => exact ⟨hr, h⟩
  | succ i ih =>
    obtain ⟨hmem, hlevel⟩ := ih (by omega)
    rw [Function.iterate_succ_apply']
    generalize (parentRank arith n root k)^[i] r = x at hmem hlevel
    rw [show L - i = L - (i + 1) + 1 by omega] at hlevel
    have hne : x ≠ root := by
      rintro rfl
      rw [dist_self] at hlevel
      exact absurd hlevel.1 (by simp [levelStart])
    refine ⟨S.parentRank_mem hmem.1 hmem.2 hne, ?_⟩
    rw [S.dist_parentRank hmem.1 hmem.2 hne]
    exact onLevel_parent S.one_le_toNat hlevel

theorem climbsIn_of_onLevel (hr : 0 ≤ r ∧ r < n)
    (h : OnLevel k.toNat L (dist n root r).toNat) : ClimbsIn arith n root k r L := by
  constructor
  · obtain ⟨hmem, hlevel⟩ := S.climb_mem hr h le_rfl
    rw [Nat.sub_self, onLevel_zero_iff] at hlevel
    have hd := S.dist_mem hmem.1 hmem.2
    exact (S.dist_eq_zero_iff hmem.1 hmem.2).mp (by omega)
  · intro i j hij hj heq
    have hi := (S.climb_mem hr h (hij.le.trans hj)).2
    have hj' := (S.climb_mem hr h hj).2
    rw [heq] at hi
    have := onLevel_unique S.one_le_toNat hi hj'
    omega

end Sound

theorem dist_eq_emod (hr : 0 ≤ r ∧ r < n) (hroot : 0 ≤ root ∧ root < n) :
    dist n root r = (r - root) % n := by
  unfold dist
  split_ifs with h
  · rw [← Int.add_emod_right, Int.emod_eq_of_lt (by omega) (by omega)]
  · rw [Int.emod_eq_of_lt (by omega) (by omega)]

/-- The ranks of one level, where all numbers of the level occur as distances. -/
theorem card_at_level {k : ℕ} (hroot : 0 ≤ root ∧ root < n) (hL : (levelStart k (L + 1) : ℤ) ≤ n) :
    {x ∈ Finset.Ico 0 n | OnLevel k L (dist n root x).toNat}.card = k ^ L := by
  rw [← card_level]
  refine Finset.card_nbij' (fun x => (dist n root x).toNat) (fun d => place n root d) ?_ ?_ ?_ ?_
  · intro x hx
    obtain ⟨-, hx⟩ := Finset.mem_filter.mp hx
    exact Finset.mem_coe.mpr (Finset.mem_Ico.mpr hx)
  · intro d hd
    have hd := Finset.mem_Ico.mp (Finset.mem_coe.mp hd)
    have hdn : (d : ℤ) < n := by omega
    refine Finset.mem_coe.mpr (Finset.mem_filter.mpr ⟨Finset.mem_Ico.mpr
      ⟨place_nonneg (by omega) hroot.1, place_lt hdn hroot.2⟩, ?_⟩)
    rw [dist_place (by omega) hdn]
    exact hd
  · intro x hx
    have hx := Finset.mem_Ico.mp (Finset.mem_filter.mp (Finset.mem_coe.mp hx)).1
    change place n root ((dist n root x).toNat : ℤ) = x
    rw [Int.toNat_of_nonneg (dist_nonneg hx.1 hroot.2), place_dist hx.1 hx.2]
  · intro d hd
    have hd := Finset.mem_Ico.mp (Finset.mem_coe.mp hd)
    change (dist n root (place n root d)).toNat = d
    rw [dist_place (by omega) (by omega), Int.toNat_natCast]

theorem onLevel_iff_pow {d : ℤ} (hk : 2 ≤ k) (hd : 0 ≤ d) : OnLevel k.toNat L d.toNat ↔
    (k ^ L - 1) / (k - 1) ≤ d ∧ d < (k ^ (L + 1) - 1) / (k - 1) := by
  obtain ⟨m, rfl⟩ := Int.eq_ofNat_of_zero_le (show 0 ≤ k by omega)
  have hm : 2 ≤ m := by omega
  have hclosed : ∀ M : ℕ, (((m : ℤ) ^ M - 1) / ((m : ℤ) - 1)) = levelStart m M := by
    intro M
    rw [levelStart_closed hm]
    push_cast [Nat.cast_sub (Nat.one_le_pow M m (by omega)), Nat.cast_sub (show 1 ≤ m by omega)]
    rfl
  rw [hclosed, hclosed, Int.toNat_natCast, OnLevel]
  omega

/-- Every rank climbs to the root in as many steps as the level of its distance has; the rank
of the largest distance needs the most, and a level is full before the next one is used. -/
theorem tree_depth {arith : ℤ → ℤ} {n root k : ℤ} (hexact : ExactFor arith n k)
    (hroot : 0 ≤ root ∧ root < n) (hk : 1 ≤ k) :
    ∃ depth : ℤ → ℕ, ∀ r, 0 ≤ r ∧ r < n →
      (∀ L, ClimbsIn arith n root k r L ↔ L = depth r) ∧
      (2 ≤ k → ∀ L : ℕ, (k ^ L - 1) / (k - 1) ≤ (r - root) % n ∧
        (r - root) % n < (k ^ (L + 1) - 1) / (k - 1) ↔ L = depth r) ∧
      (k = 1 → depth r = (r - root) % n) ∧
      (∀ far, 0 ≤ far ∧ far < n → (far - root) % n = n - 1 → depth r ≤ depth far) ∧
      (∀ L < depth r, ({x ∈ Finset.Ico 0 n | depth x = L}.card : ℤ) = k ^ L) ∧
      (treeInit arith r n root k).parentRank = parentRank arith n root k r := by
  have S : Sound arith n root k := ⟨hroot.1, hroot.2, hk, hexact⟩
  have hkn := S.one_le_toNat
  choose depth hdepth using fun r => exists_onLevel hkn (dist n root r).toNat
  have hiff : ∀ r L, OnLevel k.toNat L (dist n root r).toNat ↔ L = depth r := by
    intro r L
    constructor
    · intro h
      exact onLevel_unique hkn h (hdepth r)
    · rintro rfl
      exact hdepth r
  refine ⟨depth, fun r hr => ⟨?_, ?_, ?_, ?_, ?_, by rw [treeInit_eq]⟩⟩
  · intro L
    have hclimb := S.climbsIn_of_onLevel hr (hdepth r)
    constructor
    · intro h
      exact h.unique hclimb
    · rintro rfl
      exact hclimb
  · intro h2 L
    rw [← hiff, onLevel_iff_pow h2 (S.dist_mem hr.1 hr.2).1, dist_eq_emod hr hroot]
  · rintro rfl
    have hlevel := hdepth r
    simp only [OnLevel, Int.toNat_one, levelStart_one] at hlevel
    have := (S.dist_mem hr.1 hr.2).1
    rw [← dist_eq_emod hr hroot]
    omega
  · intro far hfar hlast
    refine onLevel_le hkn (hdepth r) (hdepth far) ?_
    rw [← dist_eq_emod hfar hroot] at hlast
    have := (S.dist_mem hr.1 hr.2).2
    omega
  · intro L hL
    have hfull : (levelStart k.toNat (L + 1) : ℤ) ≤ n := by
      have hle := (levelStart_strictMono hkn).monotone (show L + 1 ≤ depth r from hL)
      have := (hdepth r).1
      have := S.dist_mem hr.1 hr.2
      omega
    have hset : {x ∈ Finset.Ico 0 n | depth x = L} =
        {x ∈ Finset.Ico 0 n | OnLevel k.toNat L (dist n root x).toNat} :=
      Finset.filter_congr fun x _ => by rw [hiff, eq_comm]
    rw [hset, card_at_level hroot hfull]
    push_cast
    rw [Int.toNat_of_nonneg (by omega)]

/-- Five ranks in a binary tree under root 3: rank 2, the farthest, is two steps away. -/
theorem tree_depth_five : ∃ depth : ℤ → ℕ, (∀ L, ClimbsIn wrapInt 5 3 2 2 L ↔ L = depth 2) ∧
    (∀ L < depth 2, ({x ∈ Finset.Ico (0 : ℤ) 5 | depth x = L}.card : ℤ) = 2 ^ L) := by
  have hexact := exactFor_wrapInt (n := 5) (k := 2) (by decide) le_rfl (by decide)
  obtain ⟨depth, h⟩ := tree_depth hexact (by decide : (0 : ℤ) ≤ 3 ∧ (3 : ℤ) < 5) (by decide)
  obtain ⟨hclimb, -, -, -, hcard, -⟩ := h 2 (by decide)
  exact ⟨depth, hclimb, hcard⟩

end Metasim
