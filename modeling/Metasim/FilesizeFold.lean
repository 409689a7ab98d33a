import Metasim.FilesizeState
import Mathlib

/-! The responses of the children at one rank of `margotree.c`, taken one handler after the
other in any order. -/
namespace Metasim

/-- A handler: what it answers the caller, the record after it, what it passed on. -/
structure ResponseHandled where
  answer : Option ℤ
  record : StateFilesize
  delivery : Option Delivery
deriving Repr, DecidableEq

def filesizeResponseRpc (glbRank : ℤ) (st : StateFilesize) (input : FilesizeResponseIn) :
    ResponseHandled :=
  let st := st.raise input.filesize
  let st := st.setErr input.err
  let st := st.countResponse
  let (st, delivery) := filesizeResponseForward glbRank st
  { answer := some 0, record := st, delivery }

def filesizeResponseNoreplyRpc (glbRank : ℤ) (st : StateFilesize) (input : FilesizeResponseIn) :
    ResponseHandled :=
  let st := st.raise input.filesize
  let st := st.setErr input.err
  let st := st.countResponse
  let (st, delivery) := filesizeResponseForward glbRank st
  { answer := none, record := st, delivery }

/-- The handler registered for the mode of the record. -/
def responseHandler (reply : Bool) :
    ℤ → StateFilesize → FilesizeResponseIn → ResponseHandled :=
  if reply then filesizeResponseRpc else filesizeResponseNoreplyRpc

/-- What the handlers of a list of responses pass on, one after the other. -/
def deliveries (handler : StateFilesize → FilesizeResponseIn → ResponseHandled) :
    StateFilesize → List FilesizeResponseIn → List (Option Delivery)
  | _, [] => []
  | st, r :: rs => (handler st r).delivery :: deliveries handler (handler st r).record rs

variable {rank : ℤ} {st : StateFilesize} {r : FilesizeResponseIn} {rs rs' : List FilesizeResponseIn}

namespace StateFilesize

/-- What a response does to the record before `filesize_response_forward`. -/
def absorb (st : StateFilesize) (r : FilesizeResponseIn) : StateFilesize :=
  ((st.raise r.filesize).setErr r.err).countResponse

theorem full_iff : st.full = true ↔ st.numResponses = st.tree.childCount := beq_iff_eq

@[simp] theorem absorb_numResponses : (st.absorb r).numResponses = st.numResponses + 1 := by
  simp [absorb, countResponse]

@[simp] theorem absorb_tree : (st.absorb r).tree = st.tree := by
  simp [absorb, countResponse]

@[simp] theorem absorb_parentTag : (st.absorb r).parentTag = st.parentTag := by
  simp [absorb, countResponse]

@[simp] theorem absorb_filesize : (st.absorb r).filesize = max st.filesize r.filesize := by
  simp [absorb, countResponse]

theorem absorb_err : (st.absorb r).err = if r.err ≠ 0 then r.err else st.err := by
  simp only [absorb, countResponse, setErr]
  split_ifs <;> simp

/-! ## All responses together -/

theorem foldl_absorb_parentTag (st : StateFilesize) (rs : List FilesizeResponseIn) :
    (rs.foldl absorb st).parentTag = st.parentTag := by
  induction rs generalizing st with
  | nil => rfl
  | cons r rs ih => rw [List.foldl_cons, ih, absorb_parentTag]

theorem foldl_absorb_filesize (st : StateFilesize) (rs : List FilesizeResponseIn) :
    (rs.foldl absorb st).filesize = (rs.map FilesizeResponseIn.filesize).foldr max st.filesize := by
  rw [← List.foldl_eq_foldr]
  induction rs generalizing st with
  | nil => rfl
  | cons r rs ih => rw [List.foldl_cons, ih, absorb_filesize, List.map_cons, List.foldl_cons]

/-- The error is zero unless some response has one, and then that of a response. -/
theorem foldl_absorb_err (st : StateFilesize) (rs : List FilesizeResponseIn) :
    ((rs.foldl absorb st).err = 0 ↔ st.err = 0 ∧ ∀ r ∈ rs, r.err = 0) ∧
      ((rs.foldl absorb st).err = st.err ∨ ∃ r ∈ rs, r.err = (rs.foldl absorb st).err) := by
  induction rs generalizing st with
  | nil => simp
  | cons r rs ih =>
    obtain ⟨hzero, hfrom⟩ := ih (st.absorb r)
    rw [List.foldl_cons]
    rw [absorb_err] at hzero hfrom
    constructor
    · rw [hzero]
      by_cases hr : r.err = 0 <;> simp [hr]
    · rcases hfrom with h | ⟨x, hx, h⟩
      · by_cases hr : r.err = 0
        · exact Or.inl (by simpa [hr] using h)
        · exact Or.inr ⟨r, List.mem_cons_self, by simpa [hr] using h.symm⟩
      · exact Or.inr ⟨x, List.mem_cons_of_mem r hx, h⟩

end StateFilesize

open StateFilesize

theorem max_foldr_max (a b : ℕ) (l : List ℕ) : max (l.foldr max a) b = l.foldr max (max a b) := by
  induction l with
  | nil => rfl
  | cons x l ih => rw [List.foldr_cons, List.foldr_cons, max_assoc, ih]

/-! ## The handlers in turn -/

/-- Both handlers treat the record alike. -/
theorem responseHandler_eq (reply : Bool) (rank : ℤ) (st : StateFilesize) (r : FilesizeResponseIn) :
    (responseHandler reply rank st r).record = (filesizeResponseForward rank (st.absorb r)).1 ∧
      (responseHandler reply rank st r).delivery =
        (filesizeResponseForward rank (st.absorb r)).2 := by
  cases reply <;> exact ⟨rfl, rfl⟩

/-- Nothing is passed on before the last response, and once after it. -/
theorem deliveries_eq (reply : Bool) (hne : rs ≠ [])
    (hcount : st.numResponses + rs.length = st.tree.childCount) :
    deliveries (responseHandler reply rank) st rs = List.replicate (rs.length - 1) none ++
      [some { parent := st.tree.parentRank
              response := ((rs.foldl absorb st).raise (ownSize rank)).response }] := by
  induction rs generalizing st with
  | nil => exact absurd rfl hne
  | cons r rs ih =>
    obtain ⟨hrecord, hdelivery⟩ := responseHandler_eq reply rank st r
    rw [List.length_cons, Nat.cast_succ] at hcount
    rw [deliveries, hrecord, hdelivery, List.foldl_cons]
    by_cases hrs : rs = []
    · have hfull : (st.absorb r).full = true := by
        rw [full_iff, absorb_numResponses, absorb_tree, ← hcount, hrs]
        simp
      simp [filesizeResponseForward, hfull, hrs, deliveries]
    · have hpos : 0 < rs.length := List.length_pos_iff.mpr hrs
      have hfull : ¬ (st.absorb r).full = true := by
        rw [full_iff, absorb_numResponses, absorb_tree]
        omega
      have hrest := @ih (st.absorb r) hrs
        (by rw [absorb_numResponses, absorb_tree, ← hcount]; ring)
      simp only [filesizeResponseForward, hfull, if_neg, Bool.false_eq_true, not_false_eq_true]
      rw [hrest, absorb_tree, List.length_cons, Nat.add_sub_cancel,
        ← List.cons_append, ← List.replicate_succ, Nat.sub_add_cancel hpos]

/-- In whatever order the responses of the children arrive, and in either mode: nothing is
passed on before the last one, then once, with the largest size of all and of the rank
itself, and with an error exactly if a child had one, which is then a child's. -/
theorem filesize_reduction {st : StateFilesize} (hst : st.Fresh) {rs : List FilesizeResponseIn}
    (hne : rs ≠ []) (hcount : rs.length = st.tree.childCount) (rank : ℤ) (reply : Bool) :
    ∀ rs', rs'.Perm rs → ∃ d : Delivery,
      deliveries (responseHandler reply rank) st rs' =
        List.replicate (rs.length - 1) none ++ [some d] ∧
      d.parent = st.tree.parentRank ∧ d.response.tag = st.parentTag ∧
      d.response.filesize = (rs.map FilesizeResponseIn.filesize).foldr max (ownSize rank) ∧
      (d.response.err ≠ 0 ↔ ∃ r ∈ rs, r.err ≠ 0) ∧
      (d.response.err ≠ 0 → ∃ r ∈ rs, r.err = d.response.err) := by
  intro rs' hperm
  have hne' : rs' ≠ [] := by
    rintro rfl
    exact hne (List.nil_perm.mp hperm)
  have hfull : st.numResponses + rs'.length = st.tree.childCount := by
    rw [hst.numResponses, hperm.length_eq, hcount, zero_add]
  obtain ⟨hzero, hfrom⟩ := foldl_absorb_err st rs'
  refine ⟨_, hperm.length_eq ▸ deliveries_eq reply hne' hfull, rfl, ?_, ?_, ?_, ?_⟩
  · simp [response, foldl_absorb_parentTag]
  · simp only [response, raise_filesize, foldl_absorb_filesize, hst.filesize, max_foldr_max,
      Nat.zero_max]
    exact (hperm.map _).foldr_eq _
  · simp only [response, raise_err, ne_eq, hzero, hst.err, true_and, hperm.mem_iff, not_forall,
      exists_prop]
  · simp only [response, raise_err, hst.err] at hfrom ⊢
    intro herr
    obtain ⟨r, hr, heq⟩ := hfrom.resolve_left herr
    exact ⟨r, hperm.mem_iff.mp hr, heq⟩

/-- Rank 1 of 5 with its children 3 and 4, in the other order. -/
theorem filesize_reduction_two : ∃ d : Delivery,
    deliveries (responseHandler true 1) (stateFilesizeAlloc id 1 5 0 2 true 0 1)
      [⟨1, 400, 5⟩, ⟨1, 300, 0⟩] = [none, some d] ∧ d.response.filesize = 400 := by
  obtain ⟨d, hd, -, -, hsize, -⟩ := filesize_reduction
    (fresh_stateFilesizeAlloc id 1 5 0 2 0 1 true)
    (show ([⟨1, 300, 0⟩, ⟨1, 400, 5⟩] : List FilesizeResponseIn) ≠ [] by simp)
    (by decide) 1 true _ (List.Perm.swap _ _ [])
  exact ⟨d, hd, hsize.trans (by decide)⟩

end Metasim
