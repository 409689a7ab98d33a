import Metasim.Lib.SpanningTree
import Metasim.RpcTree
import Mathlib

/-! The local trees of all ranks fit together into one spanning tree. -/
namespace Metasim

variable {arith : ℤ → ℤ} {n root k r c : ℤ}

/-- `arith` changes no result on the way to a tree of degree `k` over `n` ranks. -/
abbrev ExactFor (arith : ℤ → ℤ) (n k : ℤ) : Prop := Exact arith (max (2 * n) (k * n))

theorem exactFor_id (n k : ℤ) : ExactFor id n k := exact_id _

theorem exactFor_wrapInt (hn : 0 ≤ n) (hk : 2 ≤ k) (hfit : k * n ≤ intMax) :
    ExactFor wrapInt n k :=
  exact_wrapInt (max_le (by nlinarith) hfit)

theorem ExactFor.two (h : ExactFor arith n k) : ExactFor arith n 2 :=
  Exact.mono h (by simp)

/-- Parameters for which the tree arithmetic meets no wrapped result. -/
structure Sound (arith : ℤ → ℤ) (n root k : ℤ) : Prop where
  root_nonneg : 0 ≤ root
  root_lt : root < n
  one_le : 1 ≤ k
  exact : ExactFor arith n k

theorem sound_id (h0 : 0 ≤ root) (h1 : root < n) (hk : 1 ≤ k) : Sound id n root k :=
  ⟨h0, h1, hk, exactFor_id n k⟩

theorem sound_wrapInt (h0 : 0 ≤ root) (h1 : root < n) (hk : 2 ≤ k) (hn : k * n ≤ intMax) :
    Sound wrapInt n root k :=
  ⟨h0, h1, by omega, exactFor_wrapInt (by omega) hk hn⟩

/-- What rank `r` computes for the tree of `root`. -/
abbrev localTree (arith : ℤ → ℤ) (n root k r : ℤ) : RpcTree :=
  (metasimRpcTreeInit arith true r n root k).2

theorem treeInit_eq (arith : ℤ → ℤ) (n root k r : ℤ) :
    treeInit arith r n root k = localTree arith n root k r := by
  simp [localTree, metasimRpcTreeInit, treeInit]

namespace Sound

variable (S : Sound arith n root k)
include S

theorem init_eq (h0 : 0 ≤ r) (h1 : r < n) :
    metasimRpcTreeInit arith true r n root k = (0, fillTree arith (dist n root r) n root k) := by
  rw [metasimRpcTreeInit,
    rotateIn_exact S.exact (le_max_left _ _) ⟨h0, h1⟩ ⟨S.root_nonneg, S.root_lt⟩]
  simp

theorem dist_mem (h0 : 0 ≤ r) (h1 : r < n) : 0 ≤ dist n root r ∧ dist n root r < n :=
  ⟨dist_nonneg h0 S.root_lt, dist_lt h1 S.root_nonneg⟩

theorem rank_eq (h0 : 0 ≤ r) (h1 : r < n) : (localTree arith n root k r).rank = r := by
  rw [localTree, S.init_eq h0 h1, rank_fillTree_exact S.exact (le_max_left _ _)
    (S.dist_mem h0 h1) ⟨S.root_nonneg, S.root_lt⟩, place_dist h0 h1]

theorem childCount_eq (h0 : 0 ≤ r) (h1 : r < n) :
    (localTree arith n root k r).childCount = childNumber n k (dist n root r) := by
  rw [localTree, S.init_eq h0 h1]
  exact childCount_fillTree_exact S.exact (le_max_left _ _) (le_max_right _ _) S.one_le
    (S.dist_mem h0 h1) ⟨S.root_nonneg, S.root_lt⟩

theorem children_eq (h0 : 0 ≤ r) (h1 : r < n) :
    (localTree arith n root k r).children =
      (List.range (childNumber n k (dist n root r)).toNat).map
        fun i : ℕ => place n root (dist n root r * k + 1 + i) := by
  rw [localTree, S.init_eq h0 h1]
  exact children_fillTree_exact S.exact (le_max_left _ _) (le_max_right _ _) S.one_le
    (S.dist_mem h0 h1) ⟨S.root_nonneg, S.root_lt⟩

theorem length_childRanks (h0 : 0 ≤ r) (h1 : r < n) :
    (localTree arith n root k r).childRanks.length = k.toNat := by
  rw [localTree, S.init_eq h0 h1]
  exact length_childRanks_fillTree

theorem length_children (h0 : 0 ≤ r) (h1 : r < n) :
    ((localTree arith n root k r).children.length : ℤ) =
      (localTree arith n root k r).childCount := by
  rw [S.children_eq h0 h1, S.childCount_eq h0 h1, List.length_map, List.length_range,
    Int.toNat_of_nonneg (childNumber_nonneg S.one_le)]

theorem childCount_zero_iff (h0 : 0 ≤ r) (h1 : r < n) :
    (localTree arith n root k r).childCount = 0 ↔ (localTree arith n root k r).children = [] := by
  rw [← S.length_children h0 h1]
  simp

/-- A root that is not alone has a child. -/
theorem children_root_ne_nil (hn : 1 < n) : (localTree arith n root k root).children ≠ [] := by
  have hpos : 0 < childNumber n k (dist n root root) := by
    rw [dist_self, lt_childNumber_iff le_rfl]
    have := S.one_le
    omega
  rw [S.children_eq S.root_nonneg S.root_lt]
  intro h
  have := congrArg List.length h
  simp only [List.length_map, List.length_range, List.length_nil] at this
  omega

theorem dist_eq_zero_iff (h0 : 0 ≤ r) (_ : r < n) : dist n root r = 0 ↔ r = root := by
  have := S.root_nonneg
  have := S.root_lt
  unfold dist
  split <;> omega

theorem parentRank_root : (localTree arith n root k root).parentRank = -1 := by
  rw [localTree, S.init_eq S.root_nonneg S.root_lt, dist_self]
  exact parentRank_fillTree_root (by omega)

theorem parentRank_eq (h0 : 0 ≤ r) (h1 : r < n) (hr : r ≠ root) :
    (localTree arith n root k r).parentRank = place n root ((dist n root r - 1) / k) := by
  have hd := S.dist_mem h0 h1
  have hne := mt (S.dist_eq_zero_iff h0 h1).mp hr
  rw [localTree, S.init_eq h0 h1]
  exact parentRank_fillTree_exact S.exact (le_max_left _ _) S.one_le hd
    ⟨S.root_nonneg, S.root_lt⟩ (by omega)

theorem parentRank_mem (h0 : 0 ≤ r) (h1 : r < n) (hr : r ≠ root) :
    0 ≤ (localTree arith n root k r).parentRank ∧
      (localTree arith n root k r).parentRank < n := by
  have hd := S.dist_mem h0 h1
  have hne := mt (S.dist_eq_zero_iff h0 h1).mp hr
  have hk := S.one_le
  have hle : (dist n root r - 1) / k ≤ dist n root r - 1 := Int.ediv_le_self _ (by omega)
  have hge : 0 ≤ (dist n root r - 1) / k := Int.ediv_nonneg (by omega) (by omega)
  rw [S.parentRank_eq h0 h1 hr]
  exact ⟨place_nonneg hge S.root_nonneg, place_lt (by omega) S.root_lt⟩

theorem parentRank_eq_neg_one_iff (h0 : 0 ≤ r) (h1 : r < n) :
    (localTree arith n root k r).parentRank = -1 ↔ r = root := by
  constructor
  · intro h
    by_contra hr
    have := (S.parentRank_mem h0 h1 hr).1
    omega
  · rintro rfl
    exact S.parentRank_root

/-- The children of `r` are the ranks whose distance divides down to that of `r`. -/
theorem mem_children_iff (h0 : 0 ≤ r) (h1 : r < n) :
    c ∈ (localTree arith n root k r).children ↔
      (0 ≤ c ∧ c < n) ∧ c ≠ root ∧ (dist n root c - 1) / k = dist n root r := by
  have hk := S.one_le
  have hd := S.dist_mem h0 h1
  have hmul : 0 ≤ dist n root r * k := mul_nonneg hd.1 (by omega)
  rw [S.children_eq h0 h1, List.mem_map]
  constructor
  · rintro ⟨i, hi, rfl⟩
    have hlt : (i : ℤ) < childNumber n k (dist n root r) := by
      have := List.mem_range.mp hi
      omega
    obtain ⟨hik, hin⟩ := (lt_childNumber_iff (by omega)).mp hlt
    have hc0 := place_nonneg (n := n) (d := dist n root r * k + 1 + i) (by omega) S.root_nonneg
    have hc1 := place_lt hin S.root_lt
    have hdist := @dist_place n root (dist n root r * k + 1 + i) (by omega) hin
    refine ⟨⟨hc0, hc1⟩, ?_, ?_⟩
    · intro hr
      have := (S.dist_eq_zero_iff hc0 hc1).mpr hr
      omega
    · rw [hdist, show dist n root r * k + 1 + (i : ℤ) - 1 = i + dist n root r * k by ring,
        Int.add_mul_ediv_right _ _ (by omega), Int.ediv_eq_zero_of_lt (by omega) hik]
      omega
  · rintro ⟨⟨hc0, hc1⟩, hc, hdiv⟩
    have hdc := S.dist_mem hc0 hc1
    have hne := mt (S.dist_eq_zero_iff hc0 hc1).mp hc
    have hsplit := Int.emod_add_mul_ediv (dist n root c - 1) k
    have hmod0 := Int.emod_nonneg (dist n root c - 1) (show k ≠ 0 by omega)
    have hmod1 := Int.emod_lt_of_pos (dist n root c - 1) (show 0 < k by omega)
    rw [hdiv, mul_comm] at hsplit
    -- the remainder of the division is the child's position
    refine ⟨((dist n root c - 1) % k).toNat, ?_, ?_⟩
    · have hlt : (dist n root c - 1) % k < childNumber n k (dist n root r) :=
        (lt_childNumber_iff hmod0).mpr ⟨hmod1, by omega⟩
      rw [List.mem_range]
      omega
    · rw [Int.toNat_of_nonneg hmod0]
      have hpos : dist n root r * k + 1 + (dist n root c - 1) % k = dist n root c := by omega
      rw [hpos, place_dist hc0 hc1]

/-- Child lists and parent ranks agree. -/
theorem mem_children_iff_parentRank (hr : 0 ≤ r ∧ r < n) (hc : 0 ≤ c ∧ c < n) :
    c ∈ (localTree arith n root k r).children ↔
      (localTree arith n root k c).parentRank = r := by
  have hk := S.one_le
  rw [S.mem_children_iff hr.1 hr.2]
  by_cases hroot : c = root
  · subst hroot
    simp only [S.parentRank_root]
    constructor
    · rintro ⟨_, h, _⟩
      exact (h rfl).elim
    · rintro rfl
      omega
  · have hdc := S.dist_mem hc.1 hc.2
    have hne := mt (S.dist_eq_zero_iff hc.1 hc.2).mp hroot
    have hle : (dist n root c - 1) / k ≤ dist n root c - 1 := Int.ediv_le_self _ (by omega)
    have hge : 0 ≤ (dist n root c - 1) / k := Int.ediv_nonneg (by omega) (by omega)
    rw [S.parentRank_eq hc.1 hc.2 hroot]
    constructor
    · rintro ⟨_, _, h⟩
      rw [h, place_dist hr.1 hr.2]
    · intro h
      refine ⟨hc, hroot, ?_⟩
      rw [← h, dist_place hge (by omega)]

theorem children_nodup (h0 : 0 ≤ r) (h1 : r < n) :
    (localTree arith n root k r).children.Nodup := by
  have hd := S.dist_mem h0 h1
  have hk := S.one_le
  have hmul : 0 ≤ dist n root r * k := mul_nonneg hd.1 (by omega)
  rw [S.children_eq h0 h1]
  refine List.Nodup.map_on ?_ List.nodup_range
  intro i hi j hj hij
  have bound : ∀ m : ℕ, m ∈ List.range (childNumber n k (dist n root r)).toNat →
      dist n root r * k + 1 + m < n := by
    intro m hm
    have hlt : (m : ℤ) < childNumber n k (dist n root r) := by
      have := List.mem_range.mp hm
      omega
    exact ((lt_childNumber_iff (by omega)).mp hlt).2
  have := congrArg (dist n root) hij
  rw [dist_place (by omega) (bound i hi), dist_place (by omega) (bound j hj)] at this
  omega

theorem dist_lt_child (hr : 0 ≤ r ∧ r < n) (hc : c ∈ (localTree arith n root k r).children) :
    dist n root r < dist n root c := by
  obtain ⟨hcn, hne, hdiv⟩ := (S.mem_children_iff hr.1 hr.2).mp hc
  have hdc := S.dist_mem hcn.1 hcn.2
  have h0 := mt (S.dist_eq_zero_iff hcn.1 hcn.2).mp hne
  have hk := S.one_le
  have hle : (dist n root c - 1) / k ≤ dist n root c - 1 := Int.ediv_le_self _ (by omega)
  omega

omit S in
/-- The spanning tree formed by the local trees. -/
noncomputable def tree (S : Sound arith n root k) : SpanningTree ℤ where
  nodes := Finset.Ico 0 n
  root := root
  children r := (localTree arith n root k r).children
  index r := (dist n root r).toNat
  root_mem := Finset.mem_Ico.mpr ⟨S.root_nonneg, S.root_lt⟩
  child_mem := by
    intro r c hr hc
    have hr := Finset.mem_Ico.mp hr
    exact Finset.mem_Ico.mpr ((S.mem_children_iff hr.1 hr.2).mp hc).1
  child_nodup := by
    intro r hr
    have hr := Finset.mem_Ico.mp hr
    exact S.children_nodup hr.1 hr.2
  parent_unique := by
    intro r r' c hr hr' hc hc'
    have hr := Finset.mem_Ico.mp hr
    have hr' := Finset.mem_Ico.mp hr'
    have hcn := ((S.mem_children_iff hr.1 hr.2).mp hc).1
    exact ((S.mem_children_iff_parentRank hr hcn).mp hc).symm.trans
      ((S.mem_children_iff_parentRank hr' hcn).mp hc')
  index_lt := by
    intro r c hr hc
    have hr := Finset.mem_Ico.mp hr
    have hlt := S.dist_lt_child hr hc
    have := S.dist_mem hr.1 hr.2
    omega
  covered := by
    intro c hc hne
    have hc := Finset.mem_Ico.mp hc
    have hp := S.parentRank_mem hc.1 hc.2 hne
    exact ⟨_, Finset.mem_Ico.mpr hp, (S.mem_children_iff_parentRank hp hc).mpr rfl⟩
  root_not_child := by
    intro r hr hc
    have hr := Finset.mem_Ico.mp hr
    exact ((S.mem_children_iff hr.1 hr.2).mp hc).2.1 rfl

omit S in
@[simp] theorem tree_nodes (S : Sound arith n root k) : S.tree.nodes = Finset.Ico 0 n := rfl

omit S in
@[simp] theorem tree_root (S : Sound arith n root k) : S.tree.root = root := rfl

omit S in
@[simp] theorem tree_children (S : Sound arith n root k) (r : ℤ) :
    S.tree.children r = (localTree arith n root k r).children := rfl

end Sound

/-- The chain of parent ranks leads from `x` up to `r`. -/
def Descends (arith : ℤ → ℤ) (n root k x r : ℤ) : Prop :=
  Relation.ReflTransGen (fun c p => (0 ≤ c ∧ c < n) ∧ (0 ≤ p ∧ p < n) ∧
    (localTree arith n root k c).parentRank = p) x r

theorem Sound.below_iff_descends (S : Sound arith n root k) {x : ℤ} :
    S.tree.Below x r ↔ Descends arith n root k x r := by
  have hstep : (fun c p => p ∈ S.tree.nodes ∧ c ∈ S.tree.children p) =
      fun c p => (0 ≤ c ∧ c < n) ∧ (0 ≤ p ∧ p < n) ∧
        (localTree arith n root k c).parentRank = p := by
    funext c p
    rw [S.tree_nodes, Finset.mem_Ico, S.tree_children]
    apply propext
    constructor
    · rintro ⟨hp, hc⟩
      have hcn := ((S.mem_children_iff hp.1 hp.2).mp hc).1
      exact ⟨hcn, hp, (S.mem_children_iff_parentRank hp hcn).mp hc⟩
    · rintro ⟨hc, hp, h⟩
      exact ⟨hp, (S.mem_children_iff_parentRank hp hc).mpr h⟩
  rw [SpanningTree.Below, hstep, Descends]

/-- The ranks `0 .. n - 1` in order. -/
def rankList (n : ℤ) : List ℤ := (List.range n.toNat).map Int.ofNat

theorem mem_rankList {n : ℤ} : r ∈ rankList n ↔ 0 ≤ r ∧ r < n := by
  simp only [rankList, List.mem_map, List.mem_range]
  constructor
  · rintro ⟨i, hi, rfl⟩
    exact ⟨Int.natCast_nonneg i, by simp only [Int.ofNat_eq_natCast]; omega⟩
  · rintro ⟨h0, h1⟩
    exact ⟨r.toNat, by omega, by simp only [Int.ofNat_eq_natCast]; omega⟩

theorem rankList_nodup (n : ℤ) : (rankList n).Nodup :=
  List.Nodup.map (fun _ _ h => Int.ofNat.inj h) List.nodup_range

/-- The local results `T` describe one tree of degree `k` over the ranks below `n`: child
lists and parent ranks agree, each rank but the root is listed exactly once, the rank itself
is restored by the rotation, and no child is beyond the array of `k` cells. -/
structure OneTree (n root k : ℤ) (T : ℤ → RpcTree) : Prop where
  child_iff_parent : ∀ r c, 0 ≤ r ∧ r < n → 0 ≤ c ∧ c < n →
    (c ∈ (T r).children ↔ (T c).parentRank = r)
  children_nodup : ((rankList n).flatMap fun r => (T r).children).Nodup
  children_perm : ((rankList n).flatMap fun r => (T r).children).Perm ((rankList n).erase root)
  no_parent_iff : ∀ r, 0 ≤ r ∧ r < n → ((T r).parentRank = -1 ↔ r = root)
  parent_mem : ∀ r, 0 ≤ r ∧ r < n → r ≠ root → 0 ≤ (T r).parentRank ∧ (T r).parentRank < n
  child_mem : ∀ r, 0 ≤ r ∧ r < n → ∀ c ∈ (T r).children, 0 ≤ c ∧ c < n
  rank_eq : ∀ r, 0 ≤ r ∧ r < n → (T r).rank = r
  length_eq : ∀ r, 0 ≤ r ∧ r < n → ((T r).children.length : ℤ) = (T r).childCount
  childCount_nonneg : ∀ r, 0 ≤ r ∧ r < n → 0 ≤ (T r).childCount
  childCount_le : ∀ r, 0 ≤ r ∧ r < n → (T r).childCount ≤ k
  cells_eq : ∀ r, 0 ≤ r ∧ r < n → ((T r).childRanks.length : ℤ) = k

theorem Sound.oneTree {arith : ℤ → ℤ} {n root k : ℤ} (S : Sound arith n root k) :
    OneTree n root k (localTree arith n root k) := by
  have hm : ∀ v, v ∈ rankList n ↔ v ∈ S.tree.nodes := fun v => by
    rw [mem_rankList, S.tree_nodes, Finset.mem_Ico]
  have hk := S.one_le
  constructor
  case child_iff_parent => exact fun r c hr hc => S.mem_children_iff_parentRank hr hc
  case children_nodup => exact S.tree.flatMap_children_nodup (rankList_nodup n) hm
  case children_perm => exact S.tree.flatMap_children_perm (rankList_nodup n) hm
  all_goals intro r hr
  case no_parent_iff => exact S.parentRank_eq_neg_one_iff hr.1 hr.2
  case parent_mem => exact S.parentRank_mem hr.1 hr.2
  case child_mem => exact fun c hc => ((S.mem_children_iff hr.1 hr.2).mp hc).1
  case rank_eq => exact S.rank_eq hr.1 hr.2
  case length_eq => exact S.length_children hr.1 hr.2
  case childCount_nonneg => exact S.childCount_eq hr.1 hr.2 ▸ childNumber_nonneg hk
  case childCount_le => exact S.childCount_eq hr.1 hr.2 ▸ childNumber_le hk
  case cells_eq => rw [S.length_childRanks hr.1 hr.2, Int.toNat_of_nonneg (by omega)]

/-- For every communicator size, root and degree the local results describe one spanning
tree, and both constructors compute it. -/
theorem local_trees_span {n root k : ℤ} (hroot : 0 ≤ root ∧ root < n) (hk : 1 ≤ k) :
    OneTree n root k (fun r => (metasimRpcTreeInit id true r n root k).2) ∧
    (∀ r, (metasimRpcTreeInit id true r n root k).1 = 0) ∧
    ∀ r, treeInit id r n root k = (metasimRpcTreeInit id true r n root k).2 := by
  refine ⟨(sound_id hroot.1 hroot.2 hk).oneTree, ?_, treeInit_eq id n root k⟩
  intro r
  simp [metasimRpcTreeInit]

/-- Five ranks under root 3: rank 1, at distance 3 from it, is below rank 4. -/
theorem local_trees_span_five :
    (1 : ℤ) ∈ (metasimRpcTreeInit id true 4 5 3 2).2.children := by
  have h := (local_trees_span (n := 5) (k := 2) (by decide : (0 : ℤ) ≤ 3 ∧ (3 : ℤ) < 5)
    (by decide)).1
  exact (h.child_iff_parent 4 1 (by decide) (by decide)).mpr (by decide)

end Metasim
