import Metasim.RpcTree

/-! The record of one filesize collective in `margotree.c` and the operations on it. -/
namespace Metasim

/-- `filesize_request_in_t` -/
structure FilesizeRequestIn where
  root : ℤ
  degree : ℤ
  reply : Bool
  tag : ℤ
deriving Repr, DecidableEq

/-- `filesize_response_in_t` -/
structure FilesizeResponseIn where
  tag : ℤ
  filesize : ℕ
  err : ℤ
deriving Repr, DecidableEq

/-- `state_filesize_t`, without the mutex and the condition variable. -/
structure StateFilesize where
  root : ℤ
  degree : ℤ
  tree : RpcTree
  reply : Bool
  parentTag : ℤ
  tag : ℤ
  numResponses : ℤ
  filesize : ℕ
  err : ℤ
deriving Repr, DecidableEq

/-- `state_filesize_alloc` on server `glbRank` of `glbRanks` -/
def stateFilesizeAlloc (arith : ℤ → ℤ) (glbRank glbRanks root degree : ℤ) (reply : Bool)
    (ptag tag : ℤ) : StateFilesize where
  root := root
  degree := degree
  tree := treeInit arith glbRank glbRanks root degree
  reply := reply
  parentTag := ptag
  tag := tag
  numResponses := 0
  filesize := 0
  err := 0

/-- `size_t filesize = glb_rank * 100`, the product taken within the range of `int`. -/
def ownSize (glbRank : ℤ) : ℕ := (glbRank * 100).toNat

/-- A record as `state_filesize_alloc` leaves it. -/
structure StateFilesize.Fresh (st : StateFilesize) : Prop where
  numResponses : st.numResponses = 0
  filesize : st.filesize = 0
  err : st.err = 0

theorem fresh_stateFilesizeAlloc (arith : ℤ → ℤ) (glbRank glbRanks root degree ptag tag : ℤ)
    (reply : Bool) : (stateFilesizeAlloc arith glbRank glbRanks root degree reply ptag tag).Fresh :=
  ⟨rfl, rfl, rfl⟩

namespace StateFilesize

variable (st : StateFilesize)

/-- `if (filesize > st->filesize) st->filesize = filesize` -/
def raise (filesize : ℕ) : StateFilesize :=
  if st.filesize < filesize then { st with filesize } else st

/-- `if (err != 0) st->err = err` -/
def setErr (err : ℤ) : StateFilesize := if err ≠ 0 then { st with err } else st

/-- `st->num_responses++` -/
def countResponse : StateFilesize := { st with numResponses := st.numResponses + 1 }

/-- `st->num_responses == child_count` -/
def full : Bool := st.numResponses == st.tree.childCount

/-- What `rpc_invoke_filesize_request` sends. -/
def request : FilesizeRequestIn :=
  { root := st.root, degree := st.degree, reply := st.reply, tag := st.tag }

/-- What `rpc_invoke_filesize_response` sends. -/
def response : FilesizeResponseIn :=
  { tag := st.parentTag, filesize := st.filesize, err := st.err }

@[simp] theorem raise_filesize (size : ℕ) : (st.raise size).filesize = max st.filesize size := by
  unfold raise
  split_ifs with h
  · exact (max_eq_right h.le).symm
  · exact (max_eq_left (not_lt.mp h)).symm

@[simp] theorem raise_err (size : ℕ) : (st.raise size).err = st.err := by
  unfold raise
  split_ifs <;> rfl

@[simp] theorem raise_numResponses (size : ℕ) :
    (st.raise size).numResponses = st.numResponses := by
  unfold raise
  split_ifs <;> rfl

@[simp] theorem raise_tree (size : ℕ) : (st.raise size).tree = st.tree := by
  unfold raise
  split_ifs <;> rfl

@[simp] theorem raise_parentTag (size : ℕ) : (st.raise size).parentTag = st.parentTag := by
  unfold raise
  split_ifs <;> rfl

@[simp] theorem setErr_filesize (e : ℤ) : (st.setErr e).filesize = st.filesize := by
  unfold setErr
  split_ifs <;> rfl

@[simp] theorem setErr_numResponses (e : ℤ) : (st.setErr e).numResponses = st.numResponses := by
  unfold setErr
  split_ifs <;> rfl

@[simp] theorem setErr_tree (e : ℤ) : (st.setErr e).tree = st.tree := by
  unfold setErr
  split_ifs <;> rfl

@[simp] theorem setErr_parentTag (e : ℤ) : (st.setErr e).parentTag = st.parentTag := by
  unfold setErr
  split_ifs <;> rfl

@[simp] theorem setErr_err (e : ℤ) : (st.setErr e).err = 0 ↔ st.err = 0 ∧ e = 0 := by
  unfold setErr
  split_ifs <;> simp_all

end StateFilesize

/-- What `filesize_response_forward` passes on once all responses are in: to the parent, or,
where `parent` is -1, to the thread that waits at the root. -/
structure Delivery where
  parent : ℤ
  response : FilesizeResponseIn
deriving Repr, DecidableEq

/-- `filesize_response_forward` on server `glbRank` -/
def filesizeResponseForward (glbRank : ℤ) (st : StateFilesize) : StateFilesize × Option Delivery :=
  if st.full then
    let st := st.raise (ownSize glbRank)
    (st, some { parent := st.tree.parentRank, response := st.response })
  else (st, none)

theorem forward_of_full {st : StateFilesize} (hfull : st.full = true) (rank : ℤ) :
    filesizeResponseForward rank st = (st.raise (ownSize rank),
      some ⟨(st.raise (ownSize rank)).tree.parentRank, (st.raise (ownSize rank)).response⟩) :=
  if_pos hfull

theorem forward_of_open {st : StateFilesize} (hopen : ¬ st.full = true) (rank : ℤ) :
    filesizeResponseForward rank st = (st, none) := if_neg hopen

end Metasim
