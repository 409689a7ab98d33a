import Metasim.Handle
import Metasim.SumTotal
import Metasim.Lib.Transition

/-! Several sums at once: the servers' threads and the messages between them, one call of
margo after the other. No call fails. -/
namespace Metasim

instance : OverTree SumIn := { root := SumIn.root, degree := fun _ => 2 }

/-- What has become of a handle. The request and the response are in flight in `sent` and
`responded`. -/
inductive SumRpc
  | unused
  | sent (dst : ℤ) (input : SumIn)
  | running
  | responded (sum : ℤ)
  | arrived (sum : ℤ)
  | completed
deriving Repr, DecidableEq

/-- A thread inside `sum_forward`: requests issued, answers collected, and the local `sum`. -/
structure SumFrame where
  rank : ℤ
  input : SumIn
  tree : RpcTree
  issued : ℕ
  collected : ℕ
  sum : ℤ
deriving Repr, DecidableEq

namespace SumFrame

/-- `sum_forward` on entry. -/
def enter (rank : ℤ) (input : SumIn) (tree : RpcTree) : SumFrame :=
  { rank, input, tree, issued := 0, collected := 0, sum := 0 }

/-- Both loops are done. -/
def Done (F : SumFrame) : Prop :=
  F.issued = F.tree.children.length ∧ F.collected = F.tree.children.length

instance : DecidablePred Done := fun _ => inferInstanceAs (Decidable (_ ∧ _))

/-- `sum += metasim->rank + seed` -/
def total (F : SumFrame) : ℤ := wrapInt (F.sum + wrapInt (F.rank + F.input.seed))

end SumFrame

structure SumNet where
  rpc : Handle → SumRpc
  frame : Handle → Option SumFrame
  result : ℕ → Option ℤ

namespace SumNet

def setRpc (s : SumNet) (h : Handle) (r : SumRpc) : SumNet :=
  { s with rpc := Function.update s.rpc h r }

def setFrame (s : SumNet) (h : Handle) (F : Option SumFrame) : SumNet :=
  { s with frame := Function.update s.frame h F }

def setResult (s : SumNet) (i : ℕ) (sum : ℤ) : SumNet :=
  { s with result := Function.update s.result i (some sum) }

def start : SumNet := { rpc := fun _ => .unused, frame := fun _ => none, result := fun _ => none }

end SumNet

inductive SumLabel
  | invoke (call : ℕ)
  | issue (h : Handle) (j : ℕ)
  | start (h : Handle) (rank : ℤ)
  | respond (h : Handle)
  | arrive (h : Handle)
  | collect (h : Handle) (j : ℕ)
  | ret (call : ℕ)
deriving Repr, DecidableEq

section Source

variable (arith : ℤ → ℤ) (n : ℤ) (calls : List SumIn)

/-- One step of some thread, or of the network. -/
def sumStep (s : SumNet) : SumLabel → Option SumNet
  -- `metasim_rpc_invoke_sum` at the root, with the tree built at registration
  | .invoke i => do
    let c ← calls[i]?
    if s.rpc ⟨i, []⟩ = .unused then
      some ((s.setRpc ⟨i, []⟩ .running).setFrame ⟨i, []⟩
        (some (.enter c.root c (bcastTree arith n c.root))))
    else none
  -- `corpc_get_handle` and `margo_iforward` for child `j`
  | .issue h j => do
    let F ← s.frame h
    let dst ← F.tree.children[j]?
    if F.issued = j then
      some ((s.setRpc (h.child j) (.sent dst F.input)).setFrame h
        (some { F with issued := j + 1 }))
    else none
  -- a request is delivered and its handler started
  | .start h rank =>
    match s.rpc h with
    | .sent dst input =>
      if dst = rank then
        some ((s.setRpc h .running).setFrame h
          (some (.enter rank input (handlerTree arith n rank {} input))))
      else none
    | _ => none
  -- `margo_respond`, and the handler ends
  | .respond h => do
    let F ← s.frame h
    if h.path ≠ [] ∧ F.Done then some ((s.setRpc h (.responded F.total)).setFrame h none)
    else none
  | .arrive h =>
    match s.rpc h with
    | .responded sum => some (s.setRpc h (.arrived sum))
    | _ => none
  -- `margo_wait` for request `j` returns
  | .collect h j => do
    let F ← s.frame h
    if F.issued = F.tree.children.length ∧ F.collected = j then
      match s.rpc (h.child j) with
      | .arrived sum =>
        some ((s.setRpc (h.child j) .completed).setFrame h
          (some { F with collected := j + 1, sum := wrapInt (F.sum + sum) }))
      | _ => none
    else none
  -- `metasim_rpc_invoke_sum` stores the sum and returns
  | .ret i => do
    let F ← s.frame ⟨i, []⟩
    if F.Done then
      some (((s.setRpc ⟨i, []⟩ .completed).setFrame ⟨i, []⟩ none).setResult i F.total)
    else none

def SumStep (s : SumNet) (a : SumLabel) (u : SumNet) : Prop :=
  sumStep arith n calls s a = some u

end Source

/-! ## Reading the state -/

namespace SumNet

variable (s : SumNet) (h g : Handle) (r : SumRpc) (F : Option SumFrame) (i : ℕ) (x : ℤ)

theorem rpc_setRpc : (s.setRpc h r).rpc g = if g = h then r else s.rpc g :=
  Function.update_apply _ _ _ _

theorem frame_setFrame : (s.setFrame h F).frame g = if g = h then F else s.frame g :=
  Function.update_apply _ _ _ _

@[simp] theorem frame_setRpc : (s.setRpc h r).frame = s.frame := rfl
@[simp] theorem result_setRpc : (s.setRpc h r).result = s.result := rfl
@[simp] theorem rpc_setFrame : (s.setFrame h F).rpc = s.rpc := rfl
@[simp] theorem result_setFrame : (s.setFrame h F).result = s.result := rfl
@[simp] theorem rpc_setResult : (s.setResult i x).rpc = s.rpc := rfl
@[simp] theorem frame_setResult : (s.setResult i x).frame = s.frame := rfl

theorem result_setResult (k : ℕ) :
    (s.setResult i x).result k = if k = i then some x else s.result k :=
  Function.update_apply _ _ _ _

end SumNet

/-! ## The steps, one by one -/

section Steps

variable {arith : ℤ → ℤ} {n : ℤ} {calls : List SumIn} {s u : SumNet} {h : Handle} {i j : ℕ}
  {r : ℤ}

theorem sumStep_invoke : SumStep arith n calls s (.invoke i) u ↔
    ∃ c, calls[i]? = some c ∧ s.rpc ⟨i, []⟩ = .unused ∧
      u = (s.setRpc ⟨i, []⟩ .running).setFrame ⟨i, []⟩
        (some (.enter c.root c (bcastTree arith n c.root))) := by
  simp only [SumStep, sumStep, Option.bind_eq_bind, Option.bind_eq_some_iff,
    Option.ite_none_right_eq_some, Option.some.injEq]
  grind

theorem sumStep_issue : SumStep arith n calls s (.issue h j) u ↔
    ∃ F dst, s.frame h = some F ∧ F.tree.children[j]? = some dst ∧ F.issued = j ∧
      u = (s.setRpc (h.child j) (.sent dst F.input)).setFrame h
        (some { F with issued := j + 1 }) := by
  simp only [SumStep, sumStep, Option.bind_eq_bind, Option.bind_eq_some_iff,
    Option.ite_none_right_eq_some, Option.some.injEq]
  grind

theorem sumStep_start : SumStep arith n calls s (.start h r) u ↔
    ∃ input, s.rpc h = .sent r input ∧
      u = (s.setRpc h .running).setFrame h
        (some (.enter r input (handlerTree arith n r {} input))) := by
  simp only [SumStep, sumStep]
  cases hr : s.rpc h <;> grind

theorem sumStep_respond : SumStep arith n calls s (.respond h) u ↔
    ∃ F, s.frame h = some F ∧ h.path ≠ [] ∧ F.Done ∧
      u = (s.setRpc h (.responded F.total)).setFrame h none := by
  simp only [SumStep, sumStep, Option.bind_eq_bind, Option.bind_eq_some_iff,
    Option.ite_none_right_eq_some, Option.some.injEq]
  grind

theorem sumStep_arrive : SumStep arith n calls s (.arrive h) u ↔
    ∃ x, s.rpc h = .responded x ∧ u = s.setRpc h (.arrived x) := by
  simp only [SumStep, sumStep]
  cases hr : s.rpc h <;> grind

theorem sumStep_collect : SumStep arith n calls s (.collect h j) u ↔
    ∃ F x, s.frame h = some F ∧ F.issued = F.tree.children.length ∧ F.collected = j ∧
      s.rpc (h.child j) = .arrived x ∧
      u = (s.setRpc (h.child j) .completed).setFrame h
        (some { F with collected := j + 1, sum := wrapInt (F.sum + x) }) := by
  simp only [SumStep, sumStep, Option.bind_eq_bind, Option.bind_eq_some_iff,
    Option.ite_none_right_eq_some]
  cases hr : s.rpc (h.child j) <;> grind

theorem sumStep_ret : SumStep arith n calls s (.ret i) u ↔
    ∃ F, s.frame ⟨i, []⟩ = some F ∧ F.Done ∧
      u = ((s.setRpc ⟨i, []⟩ .completed).setFrame ⟨i, []⟩ none).setResult i F.total := by
  simp only [SumStep, sumStep, Option.bind_eq_bind, Option.bind_eq_some_iff,
    Option.ite_none_right_eq_some, Option.some.injEq]
  grind

end Steps

end Metasim
