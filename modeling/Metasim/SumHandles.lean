import Metasim.Lib.Ledger
import Metasim.SumFaults

/-! What `sum_forward` leaves behind: handles, requests in flight, outputs and the array. -/
namespace Metasim

open Ledger

variable {f : SumCalls} {j : Junk} {t : RpcTree} {x : SumIn} {r : ℤ} {cs : List ℤ}
  {g : ℤ → Option SumOut} {b : SumOut} {s : Forwarded} {calls : List MargoCall}

/-- A handle is obtained by `margo_create` and released by `margo_destroy`. -/
def handles (f : SumCalls) : Ledger MargoCall ℤ where
  obtains call := match call with
    | .create c => if f.create c = 0 then some c else none
    | _ => none
  releases call := match call with
    | .destroy c => some c
    | _ => none

/-- A request is in flight from `margo_iforward` to `margo_wait`. -/
def requests (f : SumCalls) : Ledger MargoCall ℤ where
  obtains call := match call with
    | .iforward c => if f.iforward c = 0 then some c else none
    | _ => none
  releases call := match call with
    | .wait c => some c
    | _ => none

/-- An output, where there is one, from `margo_get_output` to `margo_free_output`. -/
def outputs (f : SumCalls) : Ledger MargoCall ℤ where
  obtains call := match call with
    | .getOutput c => if f.getOutput c = 0 then some c else none
    | _ => none
  releases call := match call with
    | .freeOutput c => if f.getOutput c = 0 then some c else none
    | _ => none

/-- The array `req`. -/
def reqArray (f : SumCalls) : Ledger MargoCall Unit where
  obtains call := match call with
    | .calloc => if f.calloc then some () else none
    | _ => none
  releases call := match call with
    | .free => some ()
    | _ => none

/-- Nothing is left behind, and the array is not freed before the last call. -/
structure Discipline (f : SumCalls) (calls : List MargoCall) : Prop where
  handles_destroyed : (handles f).Balanced calls
  requests_awaited : (requests f).Balanced calls
  outputs_freed : (outputs f).Balanced calls
  array_freed : (reqArray f).Balanced calls
  array_last : .free ∉ calls.dropLast

/-- Call by call: a handle is destroyed as often as it is created, a request awaited as often as
it is sent, and an output freed as often as it is got. -/
theorem Discipline.count_eq (h : Discipline f calls) (c : ℤ) :
    (f.create c = 0 → calls.count (.destroy c) = calls.count (.create c)) ∧
    (f.iforward c = 0 → calls.count (.wait c) = calls.count (.iforward c)) ∧
    (f.getOutput c = 0 → calls.count (.freeOutput c) = calls.count (.getOutput c)) := by
  refine ⟨fun h0 => h.handles_destroyed.count_eq (k := c) ?_ ?_,
    fun h0 => h.requests_awaited.count_eq (k := c) ?_ ?_,
    fun h0 => h.outputs_freed.count_eq (k := c) ?_ ?_⟩
  all_goals
    intro call
    cases call <;> grind [handles, requests, outputs]

/-! ## The two loops -/

theorem count_cons_int (c d : ℤ) (cs : List ℤ) :
    ((d :: cs).count c : ℤ) = (if d = c then 1 else 0) + cs.count c := by
  rw [List.count_cons, add_comm]
  by_cases hd : d = c <;> simp [hd]

theorem held_issueRequests (h : ∀ c ∈ cs, f.create c = 0 ∧ f.iforward c = 0) (c : ℤ) :
    (handles f).held (issueRequests f cs).2 c = cs.count c ∧
      (requests f).held (issueRequests f cs).2 c = cs.count c := by
  induction cs with
  | nil => simp [issueRequests]
  | cons d cs ih =>
    obtain ⟨hcreate, hforward⟩ := h d List.mem_cons_self
    obtain ⟨hh, hr⟩ := ih fun e he => h e (List.mem_cons_of_mem d he)
    have hcalls : (issueRequests f (d :: cs)).2 =
        [.create d, .iforward d] ++ (issueRequests f cs).2 := by
      simp [issueRequests, hcreate, hforward]
    rw [hcalls, held_append, held_append, hh, hr, count_cons_int]
    simp [held_cons, handles, requests, hcreate, hforward]

/-- A handle that the first loop creates is not destroyed by it. -/
theorem held_issueRequests_pos {c : ℤ} (hmem : .create c ∈ (issueRequests f cs).2)
    (hc : f.create c = 0) : 0 < (handles f).held (issueRequests f cs).2 c := by
  refine (handles f).held_pos ?_ hmem (by simp [handles, hc])
  intro call h
  obtain ⟨d, rfl | rfl⟩ := mem_issueRequests h <;> rfl

/-- What the second loop releases: everything, or not the handle of the child whose wait
failed. -/
theorem held_collectReplies (hs : collectReplies f j (cs.map fun c => (c, g c)) b = some s) :
    (s.ret = 0 → ∀ c, (handles f).held s.calls c = -cs.count c ∧
      (requests f).held s.calls c = -cs.count c) ∧
    (s.ret ≠ 0 → ∃ c, 0 < (handles f).held s.calls c + cs.count c) ∧
    ∀ c, (outputs f).held s.calls c = 0 := by
  induction cs generalizing b s with
  | nil =>
    obtain rfl := Option.some.inj hs
    simp
  | cons d cs ih =>
    rcases collectReplies_cases hs with ⟨hw, rfl⟩ | ⟨_, a, s', _, hs', rfl⟩
    · refine ⟨fun h => absurd h hw, fun _ => ⟨d, ?_⟩, fun c => rfl⟩
      simp only [held_cons, held_nil, handles, List.count_cons_self, reduceCtorEq, if_false]
      omega
    · obtain ⟨hall, hleft, hout⟩ := ih hs'
      have hsplit : MargoCall.wait d :: .getOutput d :: .freeOutput d :: .destroy d :: s'.calls =
          [.wait d, .getOutput d, .freeOutput d, .destroy d] ++ s'.calls := rfl
      have hhandle : ∀ c, (handles f).held [.wait d, .getOutput d, .freeOutput d, .destroy d] c =
          -if d = c then 1 else 0 := by
        simp [held_cons, handles]
      have hrequest : ∀ c, (requests f).held [.wait d, .getOutput d, .freeOutput d, .destroy d] c =
          -if d = c then 1 else 0 := by
        simp [held_cons, requests]
      have houtput : ∀ c, (outputs f).held [.wait d, .getOutput d, .freeOutput d, .destroy d] c =
          0 := by
        simp [held_cons, outputs]
      simp only [hsplit, held_append, hhandle, hrequest, houtput, count_cons_int, hout, zero_add,
        implies_true, and_true]
      refine ⟨fun h c => ?_, fun h => ?_⟩
      · rw [(hall h c).1, (hall h c).2]
        constructor <;> ring
      · obtain ⟨c, hc⟩ := hleft h
        exact ⟨c, by omega⟩

/-! ## The whole function -/

/-- The calls between the allocation of the array and its release. -/
structure Inner (f : SumCalls) (l : List MargoCall) : Prop where
  outputs_freed : (outputs f).Balanced l
  no_calloc : .calloc ∉ l
  no_free : .free ∉ l

theorem inner_issueRequests (f : SumCalls) (cs : List ℤ) : Inner f (issueRequests f cs).2 := by
  constructor
  · refine (outputs f).held_quiet fun call h => ?_
    obtain ⟨c, rfl | rfl⟩ := mem_issueRequests h <;> exact ⟨rfl, rfl⟩
  · intro h
    obtain ⟨c, h | h⟩ := mem_issueRequests h <;> cases h
  · intro h
    obtain ⟨c, h | h⟩ := mem_issueRequests h <;> cases h

theorem inner_collectReplies (hs : collectReplies f j (cs.map fun c => (c, g c)) b = some s) :
    Inner f s.calls := by
  constructor
  · exact (held_collectReplies hs).2.2
  · intro h
    obtain ⟨c, h | h | h | h⟩ := mem_collectReplies hs h <;> cases h
  · intro h
    obtain ⟨c, h | h | h | h⟩ := mem_collectReplies hs h <;> cases h

theorem Inner.append {l m : List MargoCall} (hl : Inner f l) (hm : Inner f m) :
    Inner f (l ++ m) := by
  constructor
  · intro k
    rw [held_append, hl.outputs_freed k, hm.outputs_freed k, add_zero]
  · simp [hl.no_calloc, hm.no_calloc]
  · simp [hl.no_free, hm.no_free]

/-- With the array freed at the end it depends on the handles and requests. -/
theorem discipline_bracket {l : List MargoCall} (hcalloc : f.calloc = true) (hl : Inner f l) :
    Discipline f (.calloc :: l ++ [.free]) ↔ (handles f).Balanced l ∧ (requests f).Balanced l := by
  have hhandles : ∀ c, (handles f).held (.calloc :: l ++ [.free]) c = (handles f).held l c := by
    simp [held_cons, held_append, handles]
  have hrequests : ∀ c, (requests f).held (.calloc :: l ++ [.free]) c = (requests f).held l c := by
    simp [held_cons, held_append, requests]
  have houtputs : ∀ c, (outputs f).held (.calloc :: l ++ [.free]) c = (outputs f).held l c := by
    simp [held_cons, held_append, outputs]
  constructor
  · intro h
    exact ⟨fun c => (hhandles c).symm.trans (h.handles_destroyed c),
      fun c => (hrequests c).symm.trans (h.requests_awaited c)⟩
  · rintro ⟨hh, hr⟩
    constructor
    · exact fun c => (hhandles c).trans (hh c)
    · exact fun c => (hrequests c).trans (hr c)
    · exact fun c => (houtputs c).trans (hl.outputs_freed c)
    · intro k
      have hquiet : (reqArray f).held l k = 0 := by
        refine (reqArray f).held_quiet (fun call hcall => ?_) k
        cases call with
        | calloc => exact absurd hcall hl.no_calloc
        | free => exact absurd hcall hl.no_free
        | _ => exact ⟨rfl, rfl⟩
      rw [List.cons_append, held_cons, held_append, hquiet]
      simp [held_cons, reqArray, hcalloc]
    · rw [List.dropLast_concat]
      simp [hl.no_free]

/-- The failures after which `sum_forward` leaves nothing behind: none, or one before the first
handle is created. -/
def LeavesNothing (f : SumCalls) (cs : List ℤ) : Prop :=
  cs = [] ∨ f.calloc = false ∨ (∃ c, cs.head? = some c ∧ f.create c ≠ 0) ∨
    ∀ c ∈ cs, f.create c = 0 ∧ f.iforward c = 0 ∧ f.wait c = 0

/-- An abort in the first loop leaves the handles behind that are created by then. -/
theorem balanced_issue_failed (hissue : (issueRequests f cs).1 ≠ 0) :
    (handles f).Balanced (issueRequests f cs).2 ∧ (requests f).Balanced (issueRequests f cs).2 ↔
      ∃ c, cs.head? = some c ∧ f.create c ≠ 0 := by
  cases cs with
  | nil => simp [issueRequests] at hissue
  | cons c cs =>
    simp only [List.head?_cons, Option.some.injEq, exists_eq_left']
    by_cases hc : f.create c = 0
    · refine iff_of_false (fun h => ?_) (not_not.mpr hc)
      have hmem : .create c ∈ (issueRequests f (c :: cs)).2 := by
        rw [issueRequests]
        split_ifs <;> simp
      have hpos := held_issueRequests_pos hmem hc
      rw [h.1 c] at hpos
      exact lt_irrefl 0 hpos
    · refine iff_of_true ?_ hc
      have hcalls : (issueRequests f (c :: cs)).2 = [.create c] := by simp [issueRequests, hc]
      rw [hcalls]
      constructor <;> intro d <;> simp [held_cons, handles, requests, hc]

/-- Once all requests are out it takes all the waits. -/
theorem balanced_collect (hissue : ∀ c ∈ cs, f.create c = 0 ∧ f.iforward c = 0)
    (hs : collectReplies f j (cs.map fun c => (c, g c)) b = some s) :
    (handles f).Balanced ((issueRequests f cs).2 ++ s.calls) ∧
      (requests f).Balanced ((issueRequests f cs).2 ++ s.calls) ↔ s.ret = 0 := by
  obtain ⟨hall, hleft, -⟩ := held_collectReplies hs
  have hheld := held_issueRequests hissue
  constructor
  · rintro ⟨hh, -⟩
    by_contra hne
    obtain ⟨c, hc⟩ := hleft hne
    have := hh c
    rw [held_append, (hheld c).1] at this
    omega
  · intro h
    constructor <;> intro c <;> rw [held_append]
    · rw [(hheld c).1, (hall h c).1, add_neg_cancel]
    · rw [(hheld c).2, (hall h c).2, add_neg_cancel]

theorem collectReplies_ret (hs : collectReplies f j (cs.map fun c => (c, g c)) b = some s) :
    s.ret = 0 ↔ ∀ c ∈ cs, f.wait c = 0 := by
  induction cs generalizing b s with
  | nil =>
    obtain rfl := Option.some.inj hs
    simp
  | cons d cs ih =>
    rcases collectReplies_cases hs with ⟨hw, rfl⟩ | ⟨hw, a, s', _, hs', rfl⟩
    · simp [hw]
    · simpa [hw] using ih hs'

/-- `sum_forward` leaves no handle, request, output or array behind if and only if it has no
children, or fails before it creates a handle, or no create, forward or wait fails. -/
theorem handle_discipline_iff (hs : sumForward r f j t x (t.children.map g) = some s) :
    Discipline f s.calls ↔ LeavesNothing f t.children := by
  have hissue := issueRequests_ret f t.children
  rcases sumForward_cases hs with
    ⟨hc, rfl⟩ | ⟨_, hcalloc, rfl⟩ | ⟨_, hcalloc, hfail, rfl⟩ | ⟨_, hcalloc, hok, s', hs', rfl⟩
  · refine iff_of_true ⟨fun _ => rfl, fun _ => rfl, fun _ => rfl, fun _ => rfl, by simp⟩ ?_
    exact Or.inl (by simp [RpcTree.children, hc])
  · refine iff_of_true ⟨fun _ => rfl, fun _ => rfl, fun _ => rfl, fun k => ?_, by simp⟩ ?_
    · simp [held_cons, reqArray, hcalloc]
    · exact Or.inr (Or.inl hcalloc)
  · rw [discipline_bracket hcalloc (inner_issueRequests f _), balanced_issue_failed hfail]
    unfold LeavesNothing
    constructor
    · exact fun h => Or.inr (Or.inr (Or.inl h))
    · rintro (h | h | h | h)
      · simp [h, issueRequests] at hfail
      · simp [h] at hcalloc
      · exact h
      · exact absurd (hissue.mpr fun c hc => ⟨(h c hc).1, (h c hc).2.1⟩) hfail
  · rw [zip_answers] at hs'
    have hall := hissue.mp hok
    have hinner := (inner_issueRequests f t.children).append (inner_collectReplies hs')
    change Discipline f (.calloc :: ((issueRequests f t.children).2 ++ s'.calls) ++ [.free]) ↔ _
    rw [discipline_bracket hcalloc hinner, balanced_collect hall hs', collectReplies_ret hs']
    unfold LeavesNothing
    constructor
    · exact fun h => Or.inr (Or.inr (Or.inr fun c hc => ⟨(hall c hc).1, (hall c hc).2, h c hc⟩))
    · rintro (h | h | ⟨c, hhead, hne⟩ | h) c' hc'
      · simp [h] at hc'
      · simp [h] at hcalloc
      · exact absurd (hall c (List.mem_of_mem_head? hhead)).1 hne
      · exact (h c' hc').2.2

/-- Without failures rank 0 of three leaves nothing behind. -/
theorem handle_discipline_three : ∃ s,
    sumForward 0 {} zeroJunk (bcastTree id 3 0) ⟨0, 0⟩
      ((bcastTree id 3 0).children.map fun c => some ⟨c, [c]⟩) = some s ∧
    Discipline {} s.calls := by
  obtain ⟨s, hs⟩ : ∃ s, sumForward 0 {} zeroJunk (bcastTree id 3 0) ⟨0, 0⟩
      ((bcastTree id 3 0).children.map fun c => some ⟨c, [c]⟩) = some s := ⟨_, rfl⟩
  exact ⟨s, hs, (handle_discipline_iff hs).mpr
    (Or.inr (Or.inr (Or.inr fun _ _ => ⟨rfl, rfl, rfl⟩)))⟩

/-- Rank 0 has sent two requests and cannot wait for the first: it leaves two handles, and a
request in flight whose array is gone. -/
theorem handles_left_behind :
    ∃ s, sumForward 0 { wait := fun c => if c = 1 then 1 else 0 } zeroJunk (bcastTree id 3 0) ⟨0, 0⟩
        ((bcastTree id 3 0).children.map fun c => some ⟨c, [c]⟩) = some s ∧
      s.calls = [.calloc, .create 1, .iforward 1, .create 2, .iforward 2, .wait 1, .free] ∧
      ¬ Discipline { wait := fun c => if c = 1 then 1 else 0 } s.calls := by
  refine ⟨_, rfl, rfl, fun h => ?_⟩
  exact absurd (h.handles_destroyed 2) (by decide)

end Metasim
