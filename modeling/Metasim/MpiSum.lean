import Metasim.Lib.Reduction
import Metasim.SumOracle
import Metasim.SumService

/-! `mpisum.c`, which lets MPI compute what the servers compute: a broadcast of the seed and a
reduction of the values of all ranks, again and again. What is printed and the clock are left
out. -/
namespace Metasim

open Transition Reduction

/-- The variables of a rank -/
structure MpisumRank where
  seed : ℤ := 0
  localSum : ℤ := 0
  sum : ℤ := 0
deriving Repr, DecidableEq

/-- `MPI_Bcast` from rank 0, and `local_sum = rank + seed` -/
def bcastSeed (ranks : ℕ → MpisumRank) (rank : ℕ) : MpisumRank :=
  let seed := (ranks 0).seed
  { ranks rank with seed, localSum := wrapInt (rank + seed) }

/-- `MPI_Reduce` with `MPI_SUM` to rank 0, where MPI adds in the order `t`. -/
def reduceSum (t : Order ℕ) (ranks : ℕ → MpisumRank) : ℕ → MpisumRank :=
  let sum := t.eval (fun a b => wrapInt (a + b)) fun rank => (ranks rank).localSum
  Function.update ranks 0 { ranks 0 with sum }

/-- The ranks after `count` turns of the loop of `main`. -/
def mpisum (order : ℕ → Order ℕ) : ℕ → ℕ → MpisumRank
  | 0 => fun _ => {}
  | count + 1 => reduceSum (order count) (bcastSeed (mpisum order count))

variable {n count r : ℕ} {order : ℕ → Order ℕ} {calls : List SumIn} {xs : List SumLabel}
  {s : SumNet}

theorem mpisum_seed (order : ℕ → Order ℕ) (count r : ℕ) : (mpisum order count r).seed = 0 := by
  induction count generalizing r with
  | zero => rfl
  | succ count ih =>
    rw [mpisum, reduceSum]
    by_cases hr : r = 0
    · subst hr
      rw [Function.update_self]
      exact ih 0
    · rw [Function.update_of_ne hr]
      exact ih 0

/-- Ranks that receive nothing keep what they have. -/
theorem mpisum_elsewhere (order : ℕ → Order ℕ) (count : ℕ) (hr : r ≠ 0) :
    (mpisum order count r).sum = 0 := by
  induction count with
  | zero => rfl
  | succ count ih =>
    rw [mpisum, reduceSum, Function.update_of_ne hr]
    exact ih

theorem sum_local_sums (n : ℕ) : ((List.range n).map fun rank : ℕ => (rank : ℤ)).sum =
    (n : ℤ) * (n - 1) / 2 := by
  induction n with
  | zero => rfl
  | succ n ih =>
    obtain ⟨h, hh⟩ := two_dvd_mul_pred (n : ℤ)
    have hnext : ((n + 1 : ℕ) : ℤ) * ((n + 1 : ℕ) - 1) = 2 * (h + n) := by
      push_cast
      linarith
    rw [List.range_succ, List.map_append, List.sum_append, ih, hh, hnext]
    simp

/-- A turn gives rank 0 the wrapped total, in whatever order the values are added. -/
theorem mpisum_root (hlast : (order count).leaves.Perm (List.range n)) :
    (mpisum order (count + 1) 0).sum = wrapInt ((n : ℤ) * (n - 1) / 2) := by
  have hop : ∀ a b : ℤ, wrapInt (wrapInt a + wrapInt b) = wrapInt (a + b) := fun a b => by simp
  have hlocal : ∀ rank, (bcastSeed (mpisum order count) rank).localSum = wrapInt (rank : ℤ) := by
    intro rank
    simp [bcastSeed, mpisum_seed]
  rw [mpisum, reduceSum, Function.update_self]
  simp only [hlocal]
  rw [Order.eval_perm hop (fun rank : ℕ => (rank : ℤ)) hlast, sum_local_sums]

/-- MPI and the servers compute the same. Whatever order MPI adds in, in every turn, the sum at rank
0 is what any invocation with seed 0 gives on as many servers, at whichever of them and beside
whatever other sums; it is what `mpisum` expects if and only if the product halves exactly; the
other ranks get no sum. -/
theorem mpisum_agrees (horder : ∀ i, (order i).leaves.Perm (List.range n)) (hcount : 0 < count) :
    (mpisum order count 0).sum = wrapInt ((n : ℤ) * (n - 1) / 2) ∧
    ((mpisum order count 0).sum = calculateExpectedSum n 0 ↔ HalvesExactly n) ∧
    (∀ rank ≠ 0, (mpisum order count rank).sum = 0) ∧
    ∀ calls : List SumIn, (∀ c ∈ calls, 0 ≤ c.root ∧ c.root < (n : ℤ)) → ∀ xs s,
      (sumService n calls).Run xs s → ∀ i c x, calls[i]? = some c → c.seed = 0 →
        s.result i = some x → x = (mpisum order count 0).sum := by
  obtain ⟨count, rfl⟩ := Nat.exists_eq_succ_of_ne_zero hcount.ne'
  have hroot := mpisum_root (horder count)
  refine ⟨hroot, ?_, fun rank hr => mpisum_elsewhere order _ hr, ?_⟩
  · have hhalf := half_of_wrapped n 0
    rw [add_zero, add_zero] at hhalf
    rw [Nat.succ_eq_add_one, hroot, ← hhalf, calculateExpectedSum_eq, mul_zero, add_zero]
    exact eq_comm
  · intro calls hroots xs s hrun i c x hc hseed hx
    obtain ⟨d, hd, rfl⟩ := answer_total hroots hrun hx
    obtain rfl := Option.some.inj (hc.symm.trans hd)
    rw [Nat.succ_eq_add_one, hroot, hseed, mul_zero, add_zero]

/-- Three ranks, the last two added first. -/
def threeOrder : Order ℕ := .node (.leaf 0) (.node (.leaf 2) (.leaf 1))

theorem mpisum_agrees_three : (mpisum (fun _ => threeOrder) 100 0).sum = 3 := by
  have hleaves : threeOrder.leaves.Perm (List.range 3) := by decide
  obtain ⟨hsum, -⟩ := @mpisum_agrees 3 100 (fun _ => threeOrder) (fun _ => hleaves)
    (show 0 < 100 by decide)
  rw [hsum]
  decide

end Metasim
