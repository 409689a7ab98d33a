import Metasim.TreeSpan

/-! The sum collective of `metasim-rpc.c`: `sum_forward`, the handler that runs it on every
rank reached, and the invocation at the root. -/
namespace Metasim

/-- `metasim_sum_in_t` -/
structure SumIn where
  root : ℤ
  seed : ℤ
deriving Repr, DecidableEq

/-- What the calls made by one rank for one sum return. Codes are `hg_return_t`, zero on
success; the calls made once per child are listed by the child's rank. -/
structure SumCalls where
  malloc : Bool := true
  calloc : Bool := true
  getInput : ℤ := 0
  create : ℤ → ℤ := fun _ => 0
  iforward : ℤ → ℤ := fun _ => 0
  wait : ℤ → ℤ := fun _ => 0
  getOutput : ℤ → ℤ := fun _ => 0

/-- Contents of memory that the code reads without having written it: `out` of the handler
and `_out` of `sum_forward`, the latter by child. -/
structure Junk where
  out : ℤ
  reply : ℤ → ℤ

/-- The calls as they are made, with the child concerned. -/
inductive MargoCall
  | getInput | freeInput | respond (sum : ℤ) | destroyOwn
  | calloc | free
  | create (child : ℤ) | iforward (child : ℤ) | wait (child : ℤ)
  | getOutput (child : ℤ) | freeOutput (child : ℤ) | destroy (child : ℤ)
deriving Repr, DecidableEq

/-- The content of a `metasim_sum_out_t`. `ranks` is not in the source: it lists the ranks
whose own value was added into `sum`. -/
structure SumOut where
  sum : ℤ
  ranks : List ℤ
deriving Repr, DecidableEq, Inhabited

/-- The result of `sum_forward`, with the calls it made. -/
structure Forwarded where
  ret : ℤ
  out : SumOut
  calls : List MargoCall
deriving Repr, DecidableEq

/-- The first loop of `sum_forward`: one request to each child, up to the first failure. -/
def issueRequests (f : SumCalls) : List ℤ → ℤ × List MargoCall
  | [] => (0, [])
  | child :: rest =>
    if f.create child ≠ 0 then (f.create child, [.create child])
    else if f.iforward child ≠ 0 then (f.iforward child, [.create child, .iforward child])
    else
      let (ret, calls) := issueRequests f rest
      (ret, .create child :: .iforward child :: calls)

/-- The second loop: answers are awaited and added in child order, up to the first failed
wait. The result of `margo_get_output` is not looked at. `none` as an answer is a child
that never responds, as a result the wait for it. -/
def collectReplies (f : SumCalls) (junk : Junk) :
    List (ℤ × Option SumOut) → SumOut → Option Forwarded
  | [], acc => some { ret := 0, out := acc, calls := [] }
  | (child, answer) :: rest, acc =>
    if f.wait child ≠ 0 then some { ret := f.wait child, out := acc, calls := [.wait child] }
    else do
      let answer ← answer
      let reply : SumOut :=
        if f.getOutput child = 0 then answer else { sum := junk.reply child, ranks := [] }
      let r ← collectReplies f junk rest
        { sum := wrapInt (acc.sum + reply.sum), ranks := acc.ranks ++ reply.ranks }
      return { r with
        calls := .wait child :: .getOutput child :: .freeOutput child :: .destroy child
          :: r.calls }

/-- `sum += metasim->rank + seed`, at the label `out` -/
def addOwn (rank seed : ℤ) (acc : SumOut) : SumOut :=
  { sum := wrapInt (acc.sum + wrapInt (rank + seed)), ranks := acc.ranks ++ [rank] }

/-- `sum_forward` on server `rank`; `answers` is what the children respond, in order. -/
def sumForward (rank : ℤ) (f : SumCalls) (junk : Junk) (tree : RpcTree) (input : SumIn)
    (answers : List (Option SumOut)) : Option Forwarded :=
  let zero : SumOut := { sum := 0, ranks := [] }
  if tree.childCount = 0 then
    some { ret := 0, out := addOwn rank input.seed zero, calls := [] }
  else if f.calloc = false then
    some { ret := enomem, out := { sum := junk.out, ranks := [] }, calls := [.calloc] }
  else
    let (ret, calls) := issueRequests f tree.children
    if ret ≠ 0 then
      some { ret, out := addOwn rank input.seed zero, calls := .calloc :: calls ++ [.free] }
    else do
      let r ← collectReplies f junk (tree.children.zip answers) zero
      return {
        ret := r.ret
        out := addOwn rank input.seed r.out
        calls := .calloc :: calls ++ r.calls ++ [.free] }

/-- The tree `metasim_rpc_handle_sum` works with; the code of `metasim_rpc_tree_init` is
not looked at. -/
def handlerTree (arith : ℤ → ℤ) (n rank : ℤ) (f : SumCalls) (input : SumIn) : RpcTree :=
  (metasimRpcTreeInit arith f.malloc rank n input.root 2).2

/-- The calls a handler makes, and the response if it sends one. -/
structure Handled where
  response : Option SumOut
  calls : List MargoCall
deriving Repr, DecidableEq

/-- `metasim_rpc_handle_sum` on server `rank` of `n` -/
def metasimRpcHandleSum (arith : ℤ → ℤ) (n rank : ℤ) (f : SumCalls) (junk : Junk)
    (input : SumIn) (answers : List (Option SumOut)) : Option Handled :=
  if f.getInput ≠ 0 then some { response := none, calls := [.getInput] }
  else do
    let r ← sumForward rank f junk (handlerTree arith n rank f input) input answers
    return {
      response := some r.out
      calls := .getInput :: r.calls ++ [.freeInput, .respond r.out.sum, .destroyOwn] }

/-- What `metasim_rpc_invoke_sum` returns, and `*sum` afterwards. -/
structure Invoked where
  ret : ℤ
  sum : ℤ
  ranks : List ℤ
  calls : List MargoCall
deriving Repr, DecidableEq

/-- `bcast_tree`, built by `metasim_rpc_register` -/
def bcastTree (arith : ℤ → ℤ) (n rank : ℤ) : RpcTree :=
  (metasimRpcTreeInit arith true rank n rank 2).2

/-- `metasim_rpc_invoke_sum(seed, sum)` on server `rank`; `before` is `*sum` on entry. -/
def metasimRpcInvokeSum (arith : ℤ → ℤ) (n rank : ℤ) (f : SumCalls) (junk : Junk)
    (seed before : ℤ) (answers : List (Option SumOut)) : Option Invoked := do
  let r ← sumForward rank f junk (bcastTree arith n rank) { root := rank, seed } answers
  return {
    ret := r.ret
    sum := if r.ret ≠ 0 then before else r.out.sum
    ranks := r.out.ranks
    calls := r.calls }

/-! ## The recursion over the servers -/

/-- The response of server `rank`, its children answering in the same way. `none` is a
response that is never sent, or `fuel` levels that do not suffice. -/
def serveSum (arith : ℤ → ℤ) (n : ℤ) (f : ℤ → SumCalls) (junk : ℤ → Junk) (input : SumIn) :
    ℕ → ℤ → Option SumOut
  | 0, _ => none
  | fuel + 1, rank => do
    let answers := (handlerTree arith n rank (f rank) input).children.map
      (serveSum arith n f junk input fuel)
    let handled ← metasimRpcHandleSum arith n rank (f rank) (junk rank) input answers
    handled.response

/-- An invocation at `root`, the other servers responding as `serveSum` says. -/
def runSum (arith : ℤ → ℤ) (n : ℤ) (f : ℤ → SumCalls) (junk : ℤ → Junk) (root seed before : ℤ)
    (fuel : ℕ) : Option Invoked :=
  metasimRpcInvokeSum arith n root (f root) (junk root) seed before
    ((bcastTree arith n root).children.map (serveSum arith n f junk { root, seed } fuel))

end Metasim
