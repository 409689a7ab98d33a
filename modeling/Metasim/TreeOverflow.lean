import Metasim.Lib.Traced
import Metasim.TreeSpan

/-! For which sizes and degrees the tree arithmetic stays within 32 bits. The functions of
`metasim-rpc-tree.c` once more, over exact integers, every arithmetic result being recorded. -/
namespace Metasim

open Traced

/-- `INT_MIN` to `INT_MAX` -/
def InInt (x : ℤ) : Prop := -2 ^ 31 ≤ x ∧ x ≤ intMax

def rotateInTraced (rank ranks root : ℤ) : Traced ℤ ℤ := do
  let rank ← record (rank - root)
  if rank < 0 then record (rank + ranks) else pure rank

def rotateOutTraced (r ranks root : ℤ) : Traced ℤ ℤ := do
  let r ← record (r + root)
  if ranks ≤ r then record (r - ranks) else pure r

/-- `for (i = 0; i < m; i++) a[i] = f(i, a[i])` -/
def writeLoopTraced (f : ℕ → ℤ → Traced ℤ ℤ) : ℕ → List ℤ → Traced ℤ (List ℤ)
  | 0, a => pure a
  | m + 1, a => do
    let a ← writeLoopTraced f m a
    let x ← f m (a.getD m 0)
    pure (a.set m x)

/-- `if (rank > 0) parent_rank = (rank - 1) / k` -/
def parentTraced (rank k : ℤ) : Traced ℤ ℤ :=
  if 0 < rank then do
    let before ← record (rank - 1)
    pure (before.tdiv k)
  else pure (-1)

/-- `if (right >= ranks) right = ranks - 1` -/
def lastChildTraced (right ranks : ℤ) : Traced ℤ ℤ :=
  if ranks ≤ right then record (ranks - 1) else pure right

/-- `child_count`, and the child array with the children filled in. -/
def fillChildrenTraced (left right ranks : ℤ) (cells : List ℤ) : Traced ℤ (ℤ × List ℤ) :=
  if left < ranks then do
    let right ← lastChildTraced right ranks
    let width ← record (right - left)
    let childCount ← record (width + 1)
    let cells ← writeLoopTraced (fun i _ => record (left + i)) childCount.toNat cells
    pure (childCount, cells)
  else pure (0, cells)

/-- The parent in global ranks, if there is one. -/
def rotateParentTraced (parentRank ranks root : ℤ) : Traced ℤ ℤ :=
  if parentRank ≠ -1 then rotateOutTraced parentRank ranks root else pure parentRank

def fillTreeTraced (rank ranks root k : ℤ) : Traced ℤ RpcTree := do
  let parentRank ← parentTraced rank k
  let product ← record (rank * k)
  let left ← record (product + 1)
  let product ← record (rank * k)
  let right ← record (product + k)
  let filled ← fillChildrenTraced left right ranks (List.replicate k.toNat (-1))
  let rank ← rotateOutTraced rank ranks root
  let parentRank ← rotateParentTraced parentRank ranks root
  let childRanks ← writeLoopTraced (fun _ c => rotateOutTraced c ranks root) filled.1.toNat filled.2
  pure { rank, ranks, parentRank, childCount := filled.1, childRanks }

def metasimRpcTreeInitTraced (malloc : Bool) (rank ranks root k : ℤ) :
    Traced ℤ (ℤ × RpcTree) := do
  let rank ← rotateInTraced rank ranks root
  if 0 < k ∧ malloc = false then pure (enomem, emptyTree rank ranks)
  else do
    let t ← fillTreeTraced rank ranks root k
    pure (0, t)

variable {arith : ℤ → ℤ} {b n root k r d : ℤ} {P : ℤ → Prop} {m : ℕ} {a : List ℤ}
  {f : ℕ → ℤ → Traced ℤ ℤ} {g : ℕ → ℤ → ℤ}

/-! ## Results that `arith` leaves alone -/

/-- `arith` changes none of the results on the way. -/
def Unchanged {α : Type} (arith : ℤ → ℤ) (t : Traced ℤ α) : Prop := t.All fun x => arith x = x

theorem rotateIn_traced (h : Unchanged arith (rotateInTraced r n root)) :
    rotateIn arith r n root = (rotateInTraced r n root).val := by
  simp only [Unchanged, rotateInTraced, all_bind, all_record, val_record, all_ite] at h
  simp only [rotateIn, rotateInTraced, h.1, val_bind, val_record, val_ite, val_pure]
  split_ifs with h0
  · exact h.2.1 h0
  · rfl

theorem rotateOut_traced (h : Unchanged arith (rotateOutTraced r n root)) :
    rotateOut arith r n root = (rotateOutTraced r n root).val := by
  simp only [Unchanged, rotateOutTraced, all_bind, all_record, val_record, all_ite] at h
  simp only [rotateOut, rotateOutTraced, h.1, val_bind, val_record, val_ite, val_pure]
  split_ifs with h0
  · exact h.2.1 h0
  · rfl

theorem modify_eq_set_getD (a : List ℤ) (m : ℕ) (f : ℤ → ℤ) :
    a.modify m f = a.set m (f (a.getD m 0)) := by
  rw [List.modify_eq_set_getElem?]
  cases h : a[m]? with
  | none => simp [List.set_eq_of_length_le (List.getElem?_eq_none_iff.mp h)]
  | some x => simp [h]

/-- The value each iteration starts from is the one the array had before the loop. -/
theorem getD_writeLoop (g : ℕ → ℤ → ℤ) (a : List ℤ) {m i : ℕ} (h : m ≤ i) :
    (writeLoop g m a).getD i 0 = a.getD i 0 := by
  rw [List.getD_eq_getElem?_getD, List.getD_eq_getElem?_getD, getElem?_writeLoop,
    if_neg (by omega)]

theorem writeLoop_traced (h : ∀ i < m, g i (a.getD i 0) = (f i (a.getD i 0)).val) :
    writeLoop g m a = (writeLoopTraced f m a).val := by
  induction m with
  | zero => rfl
  | succ m ih =>
    have ih := ih fun i hi => h i (by omega)
    simp only [writeLoop, writeLoopTraced, val_bind, val_pure, modify_eq_set_getD, ← ih,
      getD_writeLoop g a le_rfl, h m (Nat.lt_succ_self m)]

theorem all_writeLoopTraced :
    (writeLoopTraced f m a).All P ↔ ∀ i < m, (f i (a.getD i 0)).All P := by
  induction m with
  | zero => simp [writeLoopTraced]
  | succ m ih =>
    have hval : (writeLoopTraced f m a).val = writeLoop (fun i x => (f i x).val) m a :=
      (writeLoop_traced fun _ _ => rfl).symm
    simp only [writeLoopTraced, all_bind, all_pure, and_true, ih, hval,
      getD_writeLoop _ a le_rfl, Nat.forall_lt_succ_right]

theorem parent_traced (h : Unchanged arith (parentTraced r k)) :
    (parentTraced r k).val = if 0 < r then (arith (r - 1)).tdiv k else -1 := by
  unfold parentTraced at h ⊢
  split_ifs at h ⊢ with h0
  · simp only [Unchanged, all_bind, all_record, val_record] at h
    simp [h.1]
  · rfl

theorem lastChild_traced (h : Unchanged arith (lastChildTraced r n)) :
    (lastChildTraced r n).val = if n ≤ r then arith (n - 1) else r := by
  unfold lastChildTraced at h ⊢
  split_ifs at h ⊢ with h0
  · exact (all_record.mp h).symm
  · rfl

theorem fillChildren_traced {left right : ℤ}
    (h : Unchanged arith (fillChildrenTraced left right n a)) :
    (fillChildrenTraced left right n a).val =
      if left < n then
        let right := if n ≤ right then arith (n - 1) else right
        let childCount := arith (arith (right - left) + 1)
        (childCount, writeLoop (fun i _ => arith (left + i)) childCount.toNat a)
      else (0, a) := by
  unfold fillChildrenTraced at h ⊢
  by_cases hl : left < n
  · rw [if_pos hl] at h ⊢
    simp only [Unchanged, all_bind, all_record, all_writeLoopTraced, val_record, all_pure,
      and_true] at h
    obtain ⟨hright, hwidth, hcount, hcells⟩ := h
    rw [lastChild_traced hright] at hwidth hcount hcells
    simp only [val_bind, val_record, val_pure, lastChild_traced hright, if_pos hl, hwidth, hcount]
    rw [writeLoop_traced (f := fun i _ => record (left + i)) hcells]
  · rw [if_neg hl, if_neg hl, val_pure]

theorem rotateParent_traced (h : Unchanged arith (rotateParentTraced r n root)) :
    (rotateParentTraced r n root).val = if r ≠ -1 then rotateOut arith r n root else r := by
  unfold rotateParentTraced at h ⊢
  split_ifs at h ⊢ with h0
  · exact (rotateOut_traced h).symm
  · rfl

theorem fillTree_traced (h : Unchanged arith (fillTreeTraced d n root k)) :
    fillTree arith d n root k = (fillTreeTraced d n root k).val := by
  simp only [Unchanged, fillTreeTraced, all_bind, all_record, val_record, all_pure, and_true,
    all_writeLoopTraced] at h
  obtain ⟨hparent, hproduct, hleft, -, hright, hfilled, hrank, hup, hcells⟩ := h
  have hparent := parent_traced hparent
  have hfilled := fillChildren_traced hfilled
  have hup := rotateParent_traced hup
  have hcells := writeLoop_traced (g := fun _ c => rotateOut arith c n root)
    (f := fun _ c => rotateOutTraced c n root) fun i hi => rotateOut_traced (hcells i hi)
  simp only [fillTreeTraced, val_bind, val_record, val_pure]
  rw [← hcells, hup, hfilled, hparent, ← rotateOut_traced hrank]
  simp only [fillTree, emptyTree, hproduct, hleft, hright]
  split_ifs <;> simp_all

/-- Where 32 bits hold all results, the 32-bit tree is the exact one; likewise for any `arith`. -/
theorem treeInit_traced {malloc : Bool}
    (h : Unchanged arith (metasimRpcTreeInitTraced malloc r n root k)) :
    metasimRpcTreeInit arith malloc r n root k =
      (metasimRpcTreeInitTraced malloc r n root k).val := by
  simp only [Unchanged, metasimRpcTreeInitTraced, all_bind] at h
  obtain ⟨hrank, h⟩ := h
  simp only [metasimRpcTreeInit, metasimRpcTreeInitTraced, val_bind, rotateIn_traced hrank]
  split_ifs at h ⊢ with hm
  · rw [val_pure]
  · simp only [all_bind] at h
    rw [val_bind, val_pure, fillTree_traced h.1]

theorem unchanged_id {α : Type} (t : Traced ℤ α) : Unchanged id t := fun _ _ => rfl

/-! ## The range of the results -/

/-- Results of absolute value at most `b`. -/
def Within (b x : ℤ) : Prop := -b ≤ x ∧ x ≤ b

theorem within_rotateIn (hb : n ≤ b) (hr : 0 ≤ r ∧ r < n) (hroot : 0 ≤ root ∧ root < n) :
    (rotateInTraced r n root).All (Within b) := by
  simp only [rotateInTraced, all_bind, all_record, val_record, all_ite, all_pure, implies_true,
    and_true, Within]
  exact ⟨by omega, fun _ => by omega⟩

theorem within_rotateOut (hb : 2 * n ≤ b) (hr : 0 ≤ r ∧ r < n) (hroot : 0 ≤ root ∧ root < n) :
    (rotateOutTraced r n root).All (Within b) := by
  simp only [rotateOutTraced, all_bind, all_record, val_record, all_ite, all_pure, implies_true,
    and_true, Within]
  exact ⟨by omega, fun _ => by omega⟩

theorem fillChildren_val (n k d : ℤ) (a : List ℤ) :
    (fillChildrenTraced (d * k + 1) (d * k + k) n a).val =
      (childNumber n k d, if d * k + 1 < n then
        writeLoop (fun i _ => d * k + 1 + i) (childNumber n k d).toNat a else a) := by
  rw [fillChildren_traced (unchanged_id _), childNumber]
  by_cases hl : d * k + 1 < n
  · simp only [if_pos hl, id]
  · simp only [if_neg hl]

/-- What stands in the child array before it is rotated. -/
theorem fillChildren_cell (hk : 1 ≤ k) {i : ℕ} (hi : i < (childNumber n k d).toNat) :
    (fillChildrenTraced (d * k + 1) (d * k + k) n (List.replicate k.toNat (-1))).val.2.getD i 0 =
      d * k + 1 + i ∧ d * k + 1 + i < n := by
  obtain ⟨hik, hin⟩ := (lt_childNumber_iff (n := n) (k := k) (d := d) (i := i) (by omega)).mp
    (by omega)
  refine ⟨?_, hin⟩
  rw [fillChildren_val, if_pos (by omega), List.getD_eq_getElem?_getD, getElem?_writeLoop,
    if_pos hi, List.getElem?_replicate_of_lt (by omega)]
  rfl

section

variable (hk : 2 ≤ k) (hb : k * n ≤ b) (hd : 0 ≤ d ∧ d < n) (hroot : 0 ≤ root ∧ root < n)
include hk hb hd

theorem within_fillChildren :
    (fillChildrenTraced (d * k + 1) (d * k + k) n a).All (Within b) := by
  obtain ⟨hlo, hhi⟩ := child_bounds (by omega : 1 ≤ k) hd.1 hd.2
  unfold fillChildrenTraced
  by_cases hl : d * k + 1 < n
  · rw [if_pos hl]
    have hlast : (lastChildTraced (d * k + k) n).All (Within b) := by
      simp only [lastChildTraced, all_ite, all_record, all_pure, implies_true, and_true, Within]
      omega
    simp only [all_bind, all_record, val_record, all_writeLoopTraced, all_pure, and_true,
      lastChild_traced (unchanged_id (lastChildTraced (d * k + k) n)), id, Within]
    refine ⟨hlast, ?_⟩
    split_ifs
    · exact ⟨by omega, by omega, fun i hi => by omega⟩
    · exact ⟨by omega, by omega, fun i hi => by omega⟩
  · rw [if_neg hl]
    exact all_pure

include hroot

theorem within_fillTree : (fillTreeTraced d n root k).All (Within b) := by
  obtain ⟨hlo, hhi⟩ := child_bounds (by omega : 1 ≤ k) hd.1 hd.2
  have h2n : 2 * n ≤ b := by nlinarith
  have hparent := parent_traced (unchanged_id (parentTraced d k))
  simp only [fillTreeTraced, all_bind, all_record, val_record, all_pure, and_true,
    all_writeLoopTraced]
  refine ⟨?_, ⟨by omega, by omega⟩, ⟨by omega, by omega⟩, ⟨by omega, by omega⟩,
    ⟨by omega, by omega⟩, within_fillChildren hk hb hd, within_rotateOut h2n hd hroot, ?_, ?_⟩
  · simp only [parentTraced, all_ite, all_bind, all_record, all_pure, and_true, implies_true,
      Within]
    omega
  · rw [hparent]
    unfold rotateParentTraced
    by_cases h0 : 0 < d
    · have hle : (d - 1) / k ≤ d - 1 := Int.ediv_le_self _ (by omega)
      have hge : 0 ≤ (d - 1) / k := Int.ediv_nonneg (by omega) (by omega)
      rw [if_pos h0, id, Int.tdiv_eq_ediv_of_nonneg (by omega), if_pos (by omega)]
      exact within_rotateOut h2n ⟨hge, by omega⟩ hroot
    · simp [h0]
  · intro i hi
    rw [fillChildren_val] at hi
    obtain ⟨hcell, hin⟩ := fillChildren_cell (n := n) (d := d) (by omega : 1 ≤ k) hi
    rw [hcell]
    exact within_rotateOut h2n ⟨by omega, hin⟩ hroot

end

theorem rotateIn_val (hr : 0 ≤ r ∧ r < n) (hroot : 0 ≤ root ∧ root < n) :
    (rotateInTraced r n root).val = dist n root r :=
  (rotateIn_traced (unchanged_id _)).symm.trans
    (rotateIn_exact (exact_id (2 * n)) le_rfl hr hroot)

theorem within_treeInit {malloc : Bool} (hk : 2 ≤ k) (hr : 0 ≤ r ∧ r < n)
    (hroot : 0 ≤ root ∧ root < n) :
    (metasimRpcTreeInitTraced malloc r n root k).All (Within (k * n)) := by
  simp only [metasimRpcTreeInitTraced, all_bind, all_ite, all_pure, rotateIn_val hr hroot]
  refine ⟨within_rotateIn (by nlinarith) hr hroot, fun _ => trivial, fun _ => ⟨?_, trivial⟩⟩
  exact within_fillTree hk le_rfl ⟨dist_nonneg hr.1 hroot.2, dist_lt hr.2 hroot.1⟩ hroot

/-- Every rank computes the bound `rank * k + k` of its children. -/
theorem right_mem (hr : 0 ≤ r ∧ r < n) (hroot : 0 ≤ root ∧ root < n) :
    dist n root r * k + k ∈ (metasimRpcTreeInitTraced true r n root k).results := by
  simp [metasimRpcTreeInitTraced, rotateIn_val hr hroot, fillTreeTraced]

/-- The farthest rank has the largest bound. -/
theorem right_last (hn : 1 ≤ n) (hroot : 0 ≤ root ∧ root < n) :
    ∃ r, (0 ≤ r ∧ r < n) ∧ dist n root r * k + k = k * n := by
  refine ⟨place n root (n - 1), ⟨place_nonneg (by omega) hroot.1, place_lt (by omega) hroot.2⟩, ?_⟩
  rw [dist_place (by omega) (by omega)]
  ring

/-- The trace is one of `metasimRpcTreeInit`. No rank, whatever the root, meets a result beyond
32 bits if and only if `k * n` is none. Then the 32-bit trees are those of exact arithmetic;
otherwise, for every root, some rank computes a bound of its children that is too large. -/
theorem tree_overflow_iff {n k : ℤ} (hn : 1 ≤ n) (hk : 2 ≤ k) :
    (∀ malloc r root, (metasimRpcTreeInitTraced malloc r n root k).val =
      metasimRpcTreeInit id malloc r n root k) ∧
    ((∀ r root, 0 ≤ r ∧ r < n → 0 ≤ root ∧ root < n →
      (metasimRpcTreeInitTraced true r n root k).All InInt) ↔ k * n ≤ intMax) ∧
    (k * n ≤ intMax → ∀ malloc r root, 0 ≤ r ∧ r < n → 0 ≤ root ∧ root < n →
      metasimRpcTreeInit wrapInt malloc r n root k = metasimRpcTreeInit id malloc r n root k ∧
      treeInit wrapInt r n root k = treeInit id r n root k) ∧
    (intMax < k * n → ∀ root, 0 ≤ root ∧ root < n → ∃ r, (0 ≤ r ∧ r < n) ∧
      dist n root r * k + k ∈ (metasimRpcTreeInitTraced true r n root k).results ∧
      ¬ InInt (dist n root r * k + k)) := by
  refine ⟨fun malloc r root => (treeInit_traced (unchanged_id _)).symm, ⟨?_, ?_⟩, ?_, ?_⟩
  · intro h
    have hroot : 0 ≤ (0 : ℤ) ∧ 0 < n := ⟨le_rfl, by omega⟩
    obtain ⟨r, hr, hlast⟩ := right_last (k := k) hn hroot
    exact hlast ▸ (h r 0 hr hroot _ (right_mem hr hroot)).2
  · intro hkn r root hr hroot
    refine (within_treeInit hk hr hroot).imp fun x hx => ?_
    unfold Within at hx
    unfold InInt
    unfold intMax at hkn ⊢
    omega
  · intro hkn malloc r root hr hroot
    have hinit : ∀ malloc, metasimRpcTreeInit wrapInt malloc r n root k =
        metasimRpcTreeInit id malloc r n root k := by
      intro malloc
      rw [treeInit_traced (unchanged_id _)]
      refine treeInit_traced ((within_treeInit hk hr hroot).imp fun x hx => ?_)
      exact exact_wrapInt hkn x hx.1 hx.2
    refine ⟨hinit malloc, ?_⟩
    rw [treeInit_eq, treeInit_eq, localTree, localTree, hinit]
  · intro hkn root hroot
    obtain ⟨r, hr, hlast⟩ := right_last (k := k) hn hroot
    refine ⟨r, hr, right_mem hr hroot, fun h => ?_⟩
    rw [hlast] at h
    exact absurd h.2 (not_le.mpr hkn)

/-- A binary tree over as many ranks as 31 bits can number. -/
theorem tree_overflow_binary : ∃ r, (0 ≤ r ∧ r < 2 ^ 30) ∧
    ¬ InInt (dist (2 ^ 30) 0 r * 2 + 2) := by
  obtain ⟨r, hr, -, h⟩ := (tree_overflow_iff (n := 2 ^ 30) (k := 2) (by decide) (by decide)).2.2.2
    (by decide) 0 (by decide)
  exact ⟨r, hr, h⟩

end Metasim
