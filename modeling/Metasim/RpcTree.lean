import Mathlib.Data.Int.Basic
import Mathlib.Data.List.Basic
import Mathlib.Tactic.Linarith
import Mathlib.Tactic.Ring

/-! The tree constructors of `metasim-rpc-tree.c` and `margotree.c`. C integers are
integers whose every arithmetic result passes through `arith`: `id` computes exactly,
`wrapInt` in 32 bits. -/
namespace Metasim

/-- `INT_MAX` -/
def intMax : ℤ := 2 ^ 31 - 1

/-- A result reduced to a signed 32-bit value. -/
def wrapInt (x : ℤ) : ℤ := x.bmod (2 ^ 32)

/-- `ENOMEM` -/
def enomem : ℤ := 12

/-- `metasim_rpc_tree_t`; a null `child_ranks` is the empty list. -/
structure RpcTree where
  rank : ℤ
  ranks : ℤ
  parentRank : ℤ
  childCount : ℤ
  childRanks : List ℤ
deriving Repr, DecidableEq

/-- `child_ranks[0..child_count)` -/
def RpcTree.children (t : RpcTree) : List ℤ := t.childRanks.take t.childCount.toNat

/-- `for (i = 0; i < m; i++) a[i] = f(i, a[i])`; a write past the end is lost. -/
def writeLoop (f : ℕ → ℤ → ℤ) : ℕ → List ℤ → List ℤ
  | 0, a => a
  | m + 1, a => (writeLoop f m a).modify m (f m)

section Source

variable (arith : ℤ → ℤ)

/-- `rank -= root; if (rank < 0) rank += ranks` -/
def rotateIn (rank ranks root : ℤ) : ℤ :=
  let rank := arith (rank - root)
  if rank < 0 then arith (rank + ranks) else rank

/-- `r += root; if (r >= ranks) r -= ranks` -/
def rotateOut (r ranks root : ℤ) : ℤ :=
  let r := arith (r + root)
  if ranks ≤ r then arith (r - ranks) else r

/-- The fields as first initialized; `rank` is already relative to the root. -/
def emptyTree (rank ranks : ℤ) : RpcTree :=
  { rank, ranks, parentRank := -1, childCount := 0, childRanks := [] }

/-- Everything after the child array was obtained; `rank` is relative to the root. -/
def fillTree (rank ranks root k : ℤ) : RpcTree :=
  let t : RpcTree := { emptyTree rank ranks with childRanks := List.replicate k.toNat (-1) }
  let t : RpcTree := if 0 < rank then { t with parentRank := (arith (rank - 1)).tdiv k } else t
  let left := arith (arith (rank * k) + 1)
  let right := arith (arith (rank * k) + k)
  let t : RpcTree :=
    if left < ranks then
      let right := if ranks ≤ right then arith (ranks - 1) else right
      let childCount := arith (arith (right - left) + 1)
      { t with
        childCount
        childRanks := writeLoop (fun i _ => arith (left + i)) childCount.toNat t.childRanks }
    else t
  let t : RpcTree := { t with rank := rotateOut arith t.rank ranks root }
  let t : RpcTree := if t.parentRank ≠ -1 then
      { t with parentRank := rotateOut arith t.parentRank ranks root } else t
  { t with
    childRanks := writeLoop (fun _ c => rotateOut arith c ranks root) t.childCount.toNat
      t.childRanks }

/-- `metasim_rpc_tree_init`: the returned code and `*t`. `malloc` says whether the child
array was obtained. -/
def metasimRpcTreeInit (malloc : Bool) (rank ranks root k : ℤ) : ℤ × RpcTree :=
  let rank := rotateIn arith rank ranks root
  if 0 < k ∧ malloc = false then (enomem, emptyTree rank ranks)
  else (0, fillTree arith rank ranks root k)

/-- `tree_init` of `margotree.c`, the same text; it goes on after a failed allocation and
is used here with a successful one. -/
def treeInit (rank ranks root k : ℤ) : RpcTree :=
  fillTree arith (rotateIn arith rank ranks root) ranks root k

end Source

/-! ## Loops -/

@[simp] theorem length_writeLoop (f : ℕ → ℤ → ℤ) (m : ℕ) (a : List ℤ) :
    (writeLoop f m a).length = a.length := by
  induction m with
  | zero => rfl
  | succ m ih => simp [writeLoop, ih]

theorem getElem?_writeLoop (f : ℕ → ℤ → ℤ) (m : ℕ) (a : List ℤ) (i : ℕ) :
    (writeLoop f m a)[i]? = if i < m then a[i]?.map (f i) else a[i]? := by
  induction m with
  | zero => simp [writeLoop]
  | succ m ih =>
    rw [writeLoop, List.getElem?_modify, ih]
    rcases Nat.lt_trichotomy i m with h | rfl | h
    · simp [h, show i < m + 1 by omega, show m ≠ i by omega]
    · simp
    · simp [show ¬ i < m by omega, show ¬ i < m + 1 by omega, show m ≠ i by omega]

/-- A filling loop and then an updating loop over the first `m` cells. -/
theorem take_writeLoop_writeLoop (f : ℕ → ℤ) (g : ℤ → ℤ) (a : List ℤ) {m : ℕ}
    (hm : m ≤ a.length) :
    (writeLoop (fun _ => g) m (writeLoop (fun i _ => f i) m a)).take m =
      (List.range m).map fun i => g (f i) := by
  apply List.ext_getElem?
  intro i
  rw [List.getElem?_take, List.getElem?_map]
  split
  · rename_i hi
    rw [getElem?_writeLoop, if_pos hi, getElem?_writeLoop, if_pos hi,
      List.getElem?_eq_getElem (by omega), List.getElem?_range hi]
    rfl
  · rename_i hi
    rw [List.getElem?_eq_none (by simpa using hi)]
    rfl

/-! ## Exact arithmetic -/

/-- `arith` changes no integer of absolute value at most `b`. -/
def Exact (arith : ℤ → ℤ) (b : ℤ) : Prop := ∀ x, -b ≤ x → x ≤ b → arith x = x

theorem exact_id (b : ℤ) : Exact id b := fun _ _ _ => rfl

theorem Exact.mono {b b' : ℤ} (h : Exact arith b) (hb : b' ≤ b) : Exact arith b' :=
  fun x h0 h1 => h x (by omega) (h1.trans hb)

theorem exact_wrapInt {b : ℤ} (hb : b ≤ intMax) : Exact wrapInt b := by
  intro x hlo hhi
  unfold intMax at hb
  exact Int.bmod_eq_of_le_mul_two (by push_cast; omega) (by push_cast; omega)

section

variable {arith : ℤ → ℤ} {b n root k r d : ℤ}

/-- Distance of a rank from the root, going up and around. -/
def dist (n root r : ℤ) : ℤ := if r - root < 0 then r - root + n else r - root

/-- The rank at a distance from the root. -/
def place (n root d : ℤ) : ℤ := if n ≤ d + root then d + root - n else d + root

@[simp] theorem dist_self (n root : ℤ) : dist n root root = 0 := by
  simp [dist]

theorem dist_nonneg (hr : 0 ≤ r) (hroot : root < n) : 0 ≤ dist n root r := by
  unfold dist; split <;> omega

theorem dist_lt (hr : r < n) (hroot : 0 ≤ root) : dist n root r < n := by
  unfold dist; split <;> omega

theorem place_nonneg (hd : 0 ≤ d) (hroot : 0 ≤ root) : 0 ≤ place n root d := by
  unfold place; split <;> omega

theorem place_lt (hd : d < n) (hroot : root < n) : place n root d < n := by
  unfold place; split <;> omega

theorem place_dist (h0 : 0 ≤ r) (h1 : r < n) : place n root (dist n root r) = r := by
  unfold place dist; split <;> split <;> omega

theorem dist_place (h0 : 0 ≤ d) (h1 : d < n) : dist n root (place n root d) = d := by
  unfold place dist; split <;> split <;> omega

theorem rotateIn_exact (h : Exact arith b) (hb : 2 * n ≤ b) (hr : 0 ≤ r ∧ r < n)
    (hroot : 0 ≤ root ∧ root < n) : rotateIn arith r n root = dist n root r := by
  unfold rotateIn dist
  rw [h (r - root) (by omega) (by omega)]
  simp only
  split
  · exact h _ (by omega) (by omega)
  · rfl

theorem rotateOut_exact (h : Exact arith b) (hb : 2 * n ≤ b) (hd : 0 ≤ d ∧ d < n)
    (hroot : 0 ≤ root ∧ root < n) : rotateOut arith d n root = place n root d := by
  unfold rotateOut place
  rw [h (d + root) (by omega) (by omega)]
  simp only
  split
  · exact h _ (by omega) (by omega)
  · rfl

/-- How many children the node at distance `d` has. -/
def childNumber (n k d : ℤ) : ℤ :=
  if d * k + 1 < n then (if n ≤ d * k + k then n - 1 else d * k + k) - (d * k + 1) + 1 else 0

theorem childNumber_nonneg (hk : 1 ≤ k) : 0 ≤ childNumber n k d := by
  unfold childNumber; split <;> (try split) <;> omega

theorem childNumber_le (hk : 1 ≤ k) : childNumber n k d ≤ k := by
  unfold childNumber; split <;> (try split) <;> omega

/-- Position `i` holds a child exactly if its distance is below the number of ranks. -/
theorem lt_childNumber_iff {i : ℤ} (hi : 0 ≤ i) :
    i < childNumber n k d ↔ i < k ∧ d * k + 1 + i < n := by
  unfold childNumber; split <;> (try split) <;> omega

/-- The products of `fillTree` stay between zero and `k * n`. -/
theorem child_bounds (hk : 1 ≤ k) (h0 : 0 ≤ d) (h1 : d < n) :
    0 ≤ d * k ∧ d * k + k ≤ k * n := by
  constructor
  · exact mul_nonneg h0 (by omega)
  · nlinarith

theorem rank_fillTree : (fillTree arith d n root k).rank = rotateOut arith d n root := by
  simp only [fillTree, emptyTree]
  split_ifs <;> rfl

theorem parentRank_fillTree_root (hd : ¬ 0 < d) : (fillTree arith d n root k).parentRank = -1 := by
  simp only [fillTree, emptyTree, if_neg hd]
  split_ifs <;> simp_all

theorem parentRank_fillTree (hd : 0 < d) (hp : (arith (d - 1)).tdiv k ≠ -1) :
    (fillTree arith d n root k).parentRank =
      rotateOut arith ((arith (d - 1)).tdiv k) n root := by
  simp only [fillTree, emptyTree, if_pos hd]
  split_ifs <;> simp_all

theorem childRanks_fillTree :
    (fillTree arith d n root k).childRanks =
      writeLoop (fun _ c => rotateOut arith c n root)
        (fillTree arith d n root k).childCount.toNat
        (if arith (arith (d * k) + 1) < n then
          writeLoop (fun i _ => arith (arith (arith (d * k) + 1) + i))
            (fillTree arith d n root k).childCount.toNat (List.replicate k.toNat (-1))
        else List.replicate k.toNat (-1)) := by
  simp only [fillTree, emptyTree]
  split_ifs <;> simp_all

theorem length_childRanks_fillTree :
    (fillTree arith d n root k).childRanks.length = k.toNat := by
  rw [childRanks_fillTree, length_writeLoop]
  split_ifs <;> simp

theorem left_exact (h : Exact arith b) (hkb : k * n ≤ b) (hk : 1 ≤ k) (hd : 0 ≤ d ∧ d < n) :
    arith (arith (d * k) + 1) = d * k + 1 := by
  obtain ⟨hlo, hhi⟩ := child_bounds hk hd.1 hd.2
  rw [h (d * k) (by omega) (by omega), h _ (by omega) (by omega)]

section Exact

variable (h : Exact arith b) (hb : 2 * n ≤ b) (hkb : k * n ≤ b) (hk : 1 ≤ k)
  (hd : 0 ≤ d ∧ d < n) (hroot : 0 ≤ root ∧ root < n)
include h hb hd hroot

theorem rank_fillTree_exact : (fillTree arith d n root k).rank = place n root d := by
  rw [rank_fillTree, rotateOut_exact h hb hd hroot]

include hk

theorem parentRank_fillTree_exact (h0 : 0 < d) :
    (fillTree arith d n root k).parentRank = place n root ((d - 1) / k) := by
  have hle : (d - 1) / k ≤ d - 1 := Int.ediv_le_self _ (by omega)
  have hge : 0 ≤ (d - 1) / k := Int.ediv_nonneg (by omega) (by omega)
  have hpar : (arith (d - 1)).tdiv k = (d - 1) / k := by
    rw [h (d - 1) (by omega) (by omega), Int.tdiv_eq_ediv_of_nonneg (by omega)]
  rw [parentRank_fillTree h0 (by omega), hpar,
    rotateOut_exact h hb ⟨hge, by omega⟩ hroot]

include hkb

theorem childCount_fillTree_exact :
    (fillTree arith d n root k).childCount = childNumber n k d := by
  obtain ⟨hlo, hhi⟩ := child_bounds hk hd.1 hd.2
  have hleft := left_exact h hkb hk hd
  have hright : arith (arith (d * k) + k) = d * k + k := by
    rw [h (d * k) (by omega) (by omega), h _ (by omega) (by omega)]
  have hlast : arith (n - 1) = n - 1 := h _ (by omega) (by omega)
  have hcount : (fillTree arith d n root k).childCount =
      if arith (arith (d * k) + 1) < n then
        arith (arith ((if n ≤ arith (arith (d * k) + k) then arith (n - 1)
          else arith (arith (d * k) + k)) - arith (arith (d * k) + 1)) + 1) else 0 := by
    simp only [fillTree, emptyTree]
    split_ifs <;> rfl
  rw [hcount, hleft, hright, hlast, childNumber]
  split
  · split
    · rw [h (n - 1 - (d * k + 1)) (by omega) (by omega), h _ (by omega) (by omega)]
    · rw [h (d * k + k - (d * k + 1)) (by omega) (by omega), h _ (by omega) (by omega)]
  · rfl

/-- The children by position, left to right. -/
theorem children_fillTree_exact :
    (fillTree arith d n root k).children =
      (List.range (childNumber n k d).toNat).map
        fun i : ℕ => place n root (d * k + 1 + i) := by
  obtain ⟨hlo, hhi⟩ := child_bounds hk hd.1 hd.2
  have hleft := left_exact h hkb hk hd
  rw [RpcTree.children, childRanks_fillTree, hleft,
    childCount_fillTree_exact h hb hkb hk hd hroot]
  by_cases hc : d * k + 1 < n
  · rw [if_pos hc, take_writeLoop_writeLoop]
    · apply List.map_congr_left
      intro i hi
      have hlt : (i : ℤ) < childNumber n k d := by
        have := List.mem_range.mp hi
        omega
      obtain ⟨_, hin⟩ := (lt_childNumber_iff (by omega)).mp hlt
      rw [h (d * k + 1 + i) (by omega) (by omega),
        rotateOut_exact h hb ⟨by omega, hin⟩ hroot]
    · have := childNumber_le (n := n) (d := d) hk
      simp only [List.length_replicate]
      omega
  · simp [childNumber, if_neg hc]

end Exact

end

end Metasim
