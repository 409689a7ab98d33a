import Mathlib.Algebra.BigOperators.Group.List.Basic

/-! Reductions: the values of many processes combined two by two, in the shape and in the order that
whoever combines them chooses. -/
namespace Reduction

/-- How the values are combined; the leaves are the processes. -/
inductive Order (ι : Type*)
  | leaf (i : ι)
  | node (l r : Order ι)

variable {ι α M : Type*}

namespace Order

def leaves : Order ι → List ι
  | leaf i => [i]
  | node l r => l.leaves ++ r.leaves

def eval (op : α → α → α) (value : ι → α) : Order ι → α
  | leaf i => value i
  | node l r => op (l.eval op value) (r.eval op value)

variable [AddCommMonoid M] {op : α → α → α} {f : M → α} {t u : Order ι}

/-- An operation that adds what its arguments stand for gives what the sum stands for. -/
theorem eval_eq_sum (hop : ∀ a b, op (f a) (f b) = f (a + b)) (value : ι → M) (t : Order ι) :
    t.eval op (fun i => f (value i)) = f ((t.leaves.map value).sum) := by
  induction t with
  | leaf i => simp [eval, leaves]
  | node l r ihl ihr =>
    rw [eval, ihl, ihr, hop]
    simp [leaves]

/-- Neither shape nor order matter. -/
theorem eval_perm (hop : ∀ a b, op (f a) (f b) = f (a + b)) (value : ι → M) {l : List ι}
    (h : t.leaves.Perm l) : t.eval op (fun i => f (value i)) = f ((l.map value).sum) := by
  rw [eval_eq_sum hop, (h.map value).sum_eq]

end Order

end Reduction
