import Metasim.FilesizeState
import Metasim.Lib.Transition
import Mathlib

/-! The response handlers of one rank running in parallel on one record, access by access:
`filesize_response_rpc` and `filesize_response_forward` of `margotree.c`. -/
namespace Metasim

open Transition

/-- The next access of a handler to the record. -/
inductive HandlerPhase
  | raise | setErr | count | test | raiseOwn | send | free | done
deriving Repr, DecidableEq

/-- A non-root rank while its children respond. `freed` counts the calls of
`state_filesize_free`, `touchedFreed` says whether one of the accesses came after. -/
structure ParallelState where
  record : StateFilesize
  freed : ℕ
  touchedFreed : Bool
  sent : List FilesizeResponseIn
  phase : ℕ → HandlerPhase

namespace ParallelState

/-- A handler's access to the record, after which it goes on at `p`. -/
def access (t : ParallelState) (h : ℕ) (record : StateFilesize) (p : HandlerPhase) :
    ParallelState :=
  { t with
    record
    touchedFreed := t.touchedFreed || decide (0 < t.freed)
    phase := Function.update t.phase h p }

end ParallelState

section Source

variable (glbRank : ℤ) (responses : ℕ → FilesizeResponseIn)

/-- The next step of handler `h`, which carries the response of the `h`-th child. The
root's wake-up of its main thread is left out. -/
def handlerStep (t : ParallelState) (h : ℕ) : Option ParallelState :=
  if (h : ℤ) < t.record.tree.childCount then
    match t.phase h with
    | .raise => some (t.access h (t.record.raise (responses h).filesize) .setErr)
    | .setErr => some (t.access h (t.record.setErr (responses h).err) .count)
    | .count => some (t.access h t.record.countResponse .test)
    | .test => some (t.access h t.record (if t.record.full then .raiseOwn else .done))
    | .raiseOwn =>
      some (t.access h (t.record.raise (ownSize glbRank))
        (if t.record.tree.parentRank ≠ -1 then .send else .done))
    | .send =>
      some { t.access h t.record .free with sent := t.sent ++ [t.record.response] }
    | .free => some { t.access h t.record .done with freed := t.freed + 1 }
    | .done => none
  else none

/-- All children have been sent their requests and none has been heard of. -/
def parallelStart (st : StateFilesize) : ParallelState :=
  { record := st, freed := 0, touchedFreed := false, sent := [], phase := fun _ => .raise }

def HandlerStep (t : ParallelState) (h : ℕ) (u : ParallelState) : Prop :=
  handlerStep glbRank responses t h = some u

/-- The count becomes full by this step only while no other handler stands between its own
increment and its test. -/
def LastCountsAlone (t : ParallelState) (h : ℕ) : Prop :=
  t.phase h = .count → t.record.countResponse.full = true →
    ∀ g : ℕ, (g : ℤ) < t.record.tree.childCount → g ≠ h → t.phase g ≠ .test

end Source

/-! ## What a handler has done at each phase -/

namespace HandlerPhase

def Raised (p : HandlerPhase) : Prop := p ≠ raise
def ErrSet (p : HandlerPhase) : Prop := p ≠ raise ∧ p ≠ setErr
def Counted (p : HandlerPhase) : Prop := p ≠ raise ∧ p ≠ setErr ∧ p ≠ count

/-- The handler has found the count full. -/
def Forwards (p : HandlerPhase) : Prop := p = raiseOwn ∨ p = send ∨ p = free

instance : DecidablePred Raised := fun _ => inferInstanceAs (Decidable (_ ≠ _))
instance : DecidablePred ErrSet := fun _ => inferInstanceAs (Decidable (_ ∧ _))
instance : DecidablePred Counted := fun _ => inferInstanceAs (Decidable (_ ∧ _))

end HandlerPhase

variable {glbRank : ℤ} {responses : ℕ → FilesizeResponseIn} {st : StateFilesize} {k h : ℕ}
  {t u : ParallelState} {p : HandlerPhase} {P : HandlerPhase → Prop} [DecidablePred P]

/-- The handlers whose phase satisfies `P`. -/
def ParallelState.at (t : ParallelState) (k : ℕ) (P : HandlerPhase → Prop) [DecidablePred P] :
    Finset ℕ :=
  (Finset.range k).filter fun h => P (t.phase h)

theorem ParallelState.phase_access (t : ParallelState) (h : ℕ) (r : StateFilesize)
    (p : HandlerPhase) (g : ℕ) :
    (t.access h r p).phase g = if g = h then p else t.phase g := by
  simp [access, Function.update_apply]

theorem at_eq_of_phase (hu : ∀ g, u.phase g = if g = h then p else t.phase g)
    (hp : P (t.phase h) ↔ P p) : u.at k P = t.at k P := by
  refine Finset.filter_congr fun g _ => ?_
  rw [hu]
  by_cases hg : g = h
  · rw [if_pos hg, hg, hp]
  · rw [if_neg hg]

theorem at_insert_of_phase (hu : ∀ g, u.phase g = if g = h then p else t.phase g) (hh : h < k)
    (hp : P p) : u.at k P = insert h (t.at k P) := by
  ext g
  simp only [ParallelState.at, Finset.mem_filter, Finset.mem_insert, Finset.mem_range, hu]
  by_cases hg : g = h
  · simp [hg, hh, hp]
  · simp [hg]

theorem not_mem_at (hp : ¬ P (t.phase h)) : h ∉ t.at k P := fun hm =>
  hp (Finset.mem_filter.mp hm).2

theorem at_card_eq_iff : (t.at k P).card = k ↔ ∀ g < k, P (t.phase g) := by
  have h := Finset.card_filter_eq_iff (s := Finset.range k) (p := fun g => P (t.phase g))
  simpa [ParallelState.at] using h

/-- What one step does. -/
theorem handlerStep_cases (hs : HandlerStep glbRank responses t h u) :
    (h : ℤ) < t.record.tree.childCount ∧
    ((t.phase h = .raise ∧ u = t.access h (t.record.raise (responses h).filesize) .setErr) ∨
     (t.phase h = .setErr ∧ u = t.access h (t.record.setErr (responses h).err) .count) ∨
     (t.phase h = .count ∧ u = t.access h t.record.countResponse .test) ∨
     (t.phase h = .test ∧
       u = t.access h t.record (if t.record.full then .raiseOwn else .done)) ∨
     (t.phase h = .raiseOwn ∧ u = t.access h (t.record.raise (ownSize glbRank))
       (if t.record.tree.parentRank ≠ -1 then .send else .done)) ∨
     (t.phase h = .send ∧
       u = { t.access h t.record .free with sent := t.sent ++ [t.record.response] }) ∨
     (t.phase h = .free ∧ u = { t.access h t.record .done with freed := t.freed + 1 })) := by
  by_cases hlt : (h : ℤ) < t.record.tree.childCount
  · refine ⟨hlt, ?_⟩
    unfold HandlerStep handlerStep at hs
    rw [if_pos hlt] at hs
    cases hp : t.phase h with
    | done => simp [hp] at hs
    | _ =>
      simp only [hp, Option.some.injEq] at hs
      simp only [reduceCtorEq, false_and, false_or, or_false, true_and]
      exact hs.symm
  · simp [HandlerStep, handlerStep, hlt] at hs

/-! ## The invariant -/

/-- The maximum over the children. -/
def childrenSize (responses : ℕ → FilesizeResponseIn) (k : ℕ) : ℕ :=
  (Finset.range k).sup fun g => (responses g).filesize

/-- How far the rank is when no two handlers find the count full. -/
inductive ForwardStage (glbRank : ℤ) (responses : ℕ → FilesizeResponseIn) (k : ℕ)
    (t : ParallelState) : Prop
  | collecting : (∃ g < k, ¬ (t.phase g).Counted) → (∀ g < k, ¬ (t.phase g).Forwards) →
      t.sent = [] → t.freed = 0 →
      t.record.filesize = (t.at k HandlerPhase.Raised).sup (fun g => (responses g).filesize) →
      ForwardStage glbRank responses k t
  | testing (h : ℕ) : h < k → t.phase h = .test ∨ t.phase h = .raiseOwn →
      (∀ g < k, g ≠ h → t.phase g = .done) → t.sent = [] → t.freed = 0 →
      t.record.filesize = childrenSize responses k → ForwardStage glbRank responses k t
  | sending (h : ℕ) : h < k → t.phase h = .send → (∀ g < k, g ≠ h → t.phase g = .done) →
      t.sent = [] → t.freed = 0 →
      t.record.filesize = max (childrenSize responses k) (ownSize glbRank) →
      ForwardStage glbRank responses k t
  | freeing (h : ℕ) : h < k → t.phase h = .free → (∀ g < k, g ≠ h → t.phase g = .done) →
      t.sent = [t.record.response] → t.freed = 0 →
      t.record.filesize = max (childrenSize responses k) (ownSize glbRank) →
      ForwardStage glbRank responses k t
  | finished : (∀ g < k, t.phase g = .done) → t.sent = [t.record.response] → t.freed = 1 →
      t.record.filesize = max (childrenSize responses k) (ownSize glbRank) →
      ForwardStage glbRank responses k t

structure ParallelInv (glbRank : ℤ) (responses : ℕ → FilesizeResponseIn) (st : StateFilesize)
    (k : ℕ) (t : ParallelState) : Prop where
  tree : t.record.tree = st.tree
  parentTag : t.record.parentTag = st.parentTag
  numResponses : t.record.numResponses = (t.at k HandlerPhase.Counted).card
  err : t.record.err = 0 ↔ ∀ g ∈ t.at k HandlerPhase.ErrSet, (responses g).err = 0
  untouched : t.touchedFreed = false
  stage : ForwardStage glbRank responses k t

theorem parallelInv_start (hst : st.Fresh) (hk : 0 < k) :
    ParallelInv glbRank responses st k (parallelStart st) := by
  have hnone : ∀ (P : HandlerPhase → Prop) [DecidablePred P], ¬ P .raise →
      (parallelStart st).at k P = ∅ := fun P _ hP =>
    Finset.filter_eq_empty_iff.mpr fun _ _ => hP
  constructor
  · rfl
  · rfl
  · rw [hnone _ (by simp [HandlerPhase.Counted])]
    exact hst.numResponses
  · rw [hnone _ (by simp [HandlerPhase.ErrSet])]
    simpa [parallelStart] using hst.err
  · rfl
  · refine .collecting ⟨0, hk, by simp [parallelStart, HandlerPhase.Counted]⟩ ?_ rfl rfl ?_
    · intro g _
      simp [parallelStart, HandlerPhase.Forwards]
    · rw [hnone _ (by simp [HandlerPhase.Raised])]
      exact hst.filesize

theorem ParallelInv.full_iff (hI : ParallelInv glbRank responses st k t)
    (hk : (k : ℤ) = st.tree.childCount) :
    t.record.full = true ↔ ∀ g < k, (t.phase g).Counted := by
  rw [StateFilesize.full, beq_iff_eq, hI.numResponses, hI.tree, ← hk, Nat.cast_inj,
    at_card_eq_iff]

/-- A step that leaves count and error code as they are. -/
theorem ParallelInv.of_stage (hI : ParallelInv glbRank responses st k t)
    (htree : u.record.tree = t.record.tree) (htag : u.record.parentTag = t.record.parentTag)
    (hnum : u.record.numResponses = t.record.numResponses) (herr : u.record.err = t.record.err)
    (hcounted : u.at k HandlerPhase.Counted = t.at k HandlerPhase.Counted)
    (hset : u.at k HandlerPhase.ErrSet = t.at k HandlerPhase.ErrSet)
    (htouched : u.touchedFreed = false) (hstage : ForwardStage glbRank responses k u) :
    ParallelInv glbRank responses st k u := by
  constructor
  · exact htree.trans hI.tree
  · exact htag.trans hI.parentTag
  · rw [hnum, hcounted]
    exact hI.numResponses
  · rw [herr, hset]
    exact hI.err
  · exact htouched
  · exact hstage

/-! ## One step, by the phase of the handler -/

section Steps

variable (hI : ParallelInv glbRank responses st k t) (hh : h < k)
include hI hh

/-- Before its increment a handler knows that the rank is still collecting. -/
theorem ParallelInv.collecting (hp : ¬ (t.phase h).Counted) :
    (∀ g < k, ¬ (t.phase g).Forwards) ∧ t.sent = [] ∧ t.freed = 0 ∧
      t.record.filesize =
        (t.at k HandlerPhase.Raised).sup (fun g => (responses g).filesize) := by
  cases hI.stage with
  | collecting _ hno hsent hfreed hsize => exact ⟨hno, hsent, hfreed, hsize⟩
  | finished hall => simp [hall h hh, HandlerPhase.Counted] at hp
  | testing g hg hphase hrest =>
    by_cases hgh : h = g
    · rcases hphase with hphase | hphase <;> simp [hgh, hphase, HandlerPhase.Counted] at hp
    · simp [hrest h hh hgh, HandlerPhase.Counted] at hp
  | sending g hg hphase hrest | freeing g hg hphase hrest =>
    by_cases hgh : h = g
    · simp [hgh, hphase, HandlerPhase.Counted] at hp
    · simp [hrest h hh hgh, HandlerPhase.Counted] at hp

theorem ParallelInv.raise (hp : t.phase h = .raise) :
    ParallelInv glbRank responses st k
      (t.access h (t.record.raise (responses h).filesize) .setErr) := by
  have hu := t.phase_access h (t.record.raise (responses h).filesize) .setErr
  have hncount : ¬ (t.phase h).Counted := by simp [hp, HandlerPhase.Counted]
  obtain ⟨hno, hsent, hfreed, hsize⟩ := hI.collecting hh hncount
  have hcount := at_eq_of_phase (k := k) (P := HandlerPhase.Counted) hu
    (by simp [hp, HandlerPhase.Counted])
  have herr := at_eq_of_phase (k := k) (P := HandlerPhase.ErrSet) hu
    (by simp [hp, HandlerPhase.ErrSet])
  refine hI.of_stage (t.record.raise_tree _) (t.record.raise_parentTag _)
    (t.record.raise_numResponses _) (t.record.raise_err _) hcount herr ?_ ?_
  · simp [ParallelState.access, hI.untouched, hfreed]
  · refine .collecting ⟨h, hh, ?_⟩ ?_ hsent hfreed ?_
    · simp [hu, HandlerPhase.Counted]
    · intro g hg
      rw [hu]
      split_ifs
      · simp [HandlerPhase.Forwards]
      · exact hno g hg
    · rw [at_insert_of_phase hu hh (by simp [HandlerPhase.Raised]), Finset.sup_insert, ← hsize]
      simp [ParallelState.access, max_comm]

theorem ParallelInv.setErr (hp : t.phase h = .setErr) :
    ParallelInv glbRank responses st k
      (t.access h (t.record.setErr (responses h).err) .count) := by
  have hu := t.phase_access h (t.record.setErr (responses h).err) .count
  have hncount : ¬ (t.phase h).Counted := by simp [hp, HandlerPhase.Counted]
  obtain ⟨hno, hsent, hfreed, hsize⟩ := hI.collecting hh hncount
  constructor
  · simpa [ParallelState.access] using hI.tree
  · simpa [ParallelState.access] using hI.parentTag
  · rw [at_eq_of_phase hu (by simp [hp, HandlerPhase.Counted])]
    simpa [ParallelState.access] using hI.numResponses
  · rw [at_insert_of_phase hu hh (by simp [HandlerPhase.ErrSet]), Finset.forall_mem_insert,
      ← hI.err, and_comm]
    simp [ParallelState.access]
  · simp [ParallelState.access, hI.untouched, hfreed]
  · refine .collecting ⟨h, hh, ?_⟩ ?_ hsent hfreed ?_
    · simp [hu, HandlerPhase.Counted]
    · intro g hg
      rw [hu]
      split_ifs
      · simp [HandlerPhase.Forwards]
      · exact hno g hg
    · rw [at_eq_of_phase hu (by simp [hp, HandlerPhase.Raised]), ← hsize]
      simp [ParallelState.access]

/-- The increment. If it fills the count, the others have all found it short. -/
theorem ParallelInv.count (hk : (k : ℤ) = st.tree.childCount) (hp : t.phase h = .count)
    (halone : LastCountsAlone t h) :
    ParallelInv glbRank responses st k (t.access h t.record.countResponse .test) := by
  have hu := t.phase_access h t.record.countResponse .test
  have hncount : ¬ (t.phase h).Counted := by simp [hp, HandlerPhase.Counted]
  obtain ⟨hno, hsent, hfreed, hsize⟩ := hI.collecting hh hncount
  have hcard : t.record.countResponse.numResponses =
      ((t.access h t.record.countResponse .test).at k HandlerPhase.Counted).card := by
    rw [at_insert_of_phase hu hh (by simp [HandlerPhase.Counted]),
      Finset.card_insert_of_notMem (not_mem_at hncount)]
    simp [StateFilesize.countResponse, hI.numResponses]
  refine ⟨hI.tree, hI.parentTag, hcard, ?_, ?_, ?_⟩
  · rw [at_eq_of_phase hu (by simp [hp, HandlerPhase.ErrSet])]
    exact hI.err
  · simp [ParallelState.access, hI.untouched, hfreed]
  · by_cases hall : ∀ g < k, ((t.access h t.record.countResponse .test).phase g).Counted
    · have hfull : t.record.countResponse.full = true := by
        rw [StateFilesize.full, beq_iff_eq, hcard, at_card_eq_iff.mpr hall, hk, ← hI.tree]
        rfl
      have htest := halone hp hfull
      rw [hI.tree, ← hk] at htest
      refine .testing h hh (Or.inl (by simp [hu])) ?_ hsent hfreed ?_
      · intro g hg hgh
        have hcounted := hall g hg
        have hforward := hno g hg
        have hnot := htest g (by omega) hgh
        rw [hu, if_neg hgh] at hcounted ⊢
        cases hpg : t.phase g <;> simp_all [HandlerPhase.Counted, HandlerPhase.Forwards]
      · have heq : t.at k HandlerPhase.Raised = Finset.range k := by
          refine Finset.filter_true_of_mem fun g hg => ?_
          have hcounted := hall g (Finset.mem_range.mp hg)
          by_cases hgh : g = h
          · simp [hgh, hp, HandlerPhase.Raised]
          · rw [hu, if_neg hgh] at hcounted
            exact hcounted.1
        rw [heq] at hsize
        exact hsize
    · simp only [not_forall] at hall
      obtain ⟨g, hg, hgc⟩ := hall
      refine .collecting ⟨g, hg, hgc⟩ ?_ hsent hfreed ?_
      · intro g hg
        rw [hu]
        split_ifs
        · simp [HandlerPhase.Forwards]
        · exact hno g hg
      · rw [at_eq_of_phase hu (by simp [hp, HandlerPhase.Raised])]
        exact hsize

/-- A handler that is past its increment and not done is alone with the record. -/
theorem ParallelInv.alone (hp : (t.phase h).Forwards) :
    (∀ g < k, g ≠ h → t.phase g = .done) ∧ t.freed = 0 ∧
      (t.phase h = .raiseOwn → t.sent = [] ∧ t.record.filesize = childrenSize responses k) ∧
      (t.phase h = .send → t.sent = [] ∧
        t.record.filesize = max (childrenSize responses k) (ownSize glbRank)) ∧
      (t.phase h = .free → t.sent = [t.record.response] ∧
        t.record.filesize = max (childrenSize responses k) (ownSize glbRank)) := by
  cases hI.stage with
  | collecting _ hno => exact absurd hp (hno h hh)
  | finished hall => simp [hall h hh, HandlerPhase.Forwards] at hp
  | testing g hg hphase hrest hsent hfreed hsize
  | sending g hg hphase hrest hsent hfreed hsize
  | freeing g hg hphase hrest hsent hfreed hsize =>
    by_cases hgh : h = g
    · subst hgh
      refine ⟨hrest, hfreed, ?_, ?_, ?_⟩ <;> intro h' <;> simp_all
    · simp [hrest h hh hgh, HandlerPhase.Forwards] at hp

theorem ParallelInv.test (hk : (k : ℤ) = st.tree.childCount) (hp : t.phase h = .test) :
    ParallelInv glbRank responses st k
      (t.access h t.record (if t.record.full then .raiseOwn else .done)) := by
  generalize hq : (if t.record.full then HandlerPhase.raiseOwn else .done) = q
  have hu := t.phase_access h t.record q
  have hqc : q.Counted ∧ q.ErrSet ∧ q.Raised := by
    rw [← hq]
    split_ifs <;> simp [HandlerPhase.Counted, HandlerPhase.ErrSet, HandlerPhase.Raised]
  have hfreed : t.freed = 0 := by
    cases hI.stage with
    | finished hall => simp [hall h hh] at hp
    | _ => assumption
  refine ⟨hI.tree, hI.parentTag, ?_, ?_, ?_, ?_⟩
  · rw [at_eq_of_phase hu (by simp [hp, hqc.1]; simp [HandlerPhase.Counted])]
    exact hI.numResponses
  · rw [at_eq_of_phase hu (by simp [hp, hqc.2.1]; simp [HandlerPhase.ErrSet])]
    exact hI.err
  · simp [ParallelState.access, hI.untouched, hfreed]
  · cases hI.stage with
    | collecting hleft hno hsent hfreed hsize =>
      have hshort : t.record.full = false := by
        rw [Bool.eq_false_iff, ne_eq, hI.full_iff hk]
        exact fun hall => hleft.elim fun g hg => hg.2 (hall g hg.1)
      rw [hshort] at hq
      obtain ⟨g, hg, hgc⟩ := hleft
      have hgh : g ≠ h := by
        rintro rfl
        simp [hp, HandlerPhase.Counted] at hgc
      refine .collecting ⟨g, hg, by rwa [hu, if_neg hgh]⟩ ?_ hsent hfreed ?_
      · intro g hg
        rw [hu]
        split_ifs
        · simp [← hq, HandlerPhase.Forwards]
        · exact hno g hg
      · rw [at_eq_of_phase hu (by simp [hp, hqc.2.2]; simp [HandlerPhase.Raised])]
        exact hsize
    | testing g hg hphase hrest hsent hfreed hsize =>
      have hgh : h = g := by
        by_contra hgh
        simp [hrest h hh hgh] at hp
      subst hgh
      have hfull : t.record.full = true := by
        rw [hI.full_iff hk]
        intro g hg
        by_cases hgh : g = h
        · simp [hgh, hp, HandlerPhase.Counted]
        · simp [hrest g hg hgh, HandlerPhase.Counted]
      rw [hfull] at hq
      refine .testing h hh (Or.inr ?_) ?_ hsent hfreed hsize
      · rw [hu, if_pos rfl, ← hq]
        rfl
      · intro g hg hgh
        rw [hu, if_neg hgh]
        exact hrest g hg hgh
    | finished hall => simp [hall h hh] at hp
    | sending g hg hphase hrest | freeing g hg hphase hrest =>
      by_cases hgh : h = g
      · simp [hgh, hphase] at hp
      · simp [hrest h hh hgh] at hp

theorem ParallelInv.raiseOwn (hparent : st.tree.parentRank ≠ -1) (hp : t.phase h = .raiseOwn) :
    ParallelInv glbRank responses st k (t.access h (t.record.raise (ownSize glbRank))
      (if t.record.tree.parentRank ≠ -1 then .send else .done)) := by
  rw [if_pos (hI.tree ▸ hparent)]
  have hu := t.phase_access h (t.record.raise (ownSize glbRank)) .send
  obtain ⟨hrest, hfreed, hdata, -⟩ := hI.alone hh (Or.inl hp)
  obtain ⟨hsent, hsize⟩ := hdata hp
  have hcount := at_eq_of_phase (k := k) (P := HandlerPhase.Counted) hu
    (by simp [hp, HandlerPhase.Counted])
  have herr := at_eq_of_phase (k := k) (P := HandlerPhase.ErrSet) hu
    (by simp [hp, HandlerPhase.ErrSet])
  refine hI.of_stage (t.record.raise_tree _) (t.record.raise_parentTag _)
    (t.record.raise_numResponses _) (t.record.raise_err _) hcount herr ?_ ?_
  · simp [ParallelState.access, hI.untouched, hfreed]
  · refine .sending h hh (by simp [hu]) ?_ hsent hfreed ?_
    · intro g hg hgh
      rw [hu, if_neg hgh]
      exact hrest g hg hgh
    · simp [ParallelState.access, hsize]

theorem ParallelInv.send (hp : t.phase h = .send) :
    ParallelInv glbRank responses st k
      { t.access h t.record .free with sent := t.sent ++ [t.record.response] } := by
  have hu := t.phase_access h t.record .free
  obtain ⟨hrest, hfreed, -, hdata, -⟩ := hI.alone hh (Or.inr (Or.inl hp))
  obtain ⟨hsent, hsize⟩ := hdata hp
  have hcount := at_eq_of_phase (k := k) (P := HandlerPhase.Counted) hu
    (by simp [hp, HandlerPhase.Counted])
  have herr := at_eq_of_phase (k := k) (P := HandlerPhase.ErrSet) hu
    (by simp [hp, HandlerPhase.ErrSet])
  refine hI.of_stage rfl rfl rfl rfl hcount herr ?_ ?_
  · simp [ParallelState.access, hI.untouched, hfreed]
  · refine .freeing h hh (by simp [hu]) ?_ (by rw [hsent]; rfl) hfreed hsize
    intro g hg hgh
    exact (hu g).trans ((if_neg hgh).trans (hrest g hg hgh))

theorem ParallelInv.free (hp : t.phase h = .free) :
    ParallelInv glbRank responses st k
      { t.access h t.record .done with freed := t.freed + 1 } := by
  have hu := t.phase_access h t.record .done
  obtain ⟨hrest, hfreed, -, -, hdata⟩ := hI.alone hh (Or.inr (Or.inr hp))
  obtain ⟨hsent, hsize⟩ := hdata hp
  have hcount := at_eq_of_phase (k := k) (P := HandlerPhase.Counted) hu
    (by simp [hp, HandlerPhase.Counted])
  have herr := at_eq_of_phase (k := k) (P := HandlerPhase.ErrSet) hu
    (by simp [hp, HandlerPhase.ErrSet])
  refine hI.of_stage rfl rfl rfl rfl hcount herr ?_ ?_
  · simp [ParallelState.access, hI.untouched, hfreed]
  · refine .finished ?_ hsent (by rw [hfreed]) hsize
    intro g hg
    refine (hu g).trans ?_
    split_ifs with hgh
    · rfl
    · exact hrest g hg hgh

end Steps

theorem parallelInv_step (hk : (k : ℤ) = st.tree.childCount) (hparent : st.tree.parentRank ≠ -1)
    (hI : ParallelInv glbRank responses st k t) (hs : HandlerStep glbRank responses t h u)
    (halone : LastCountsAlone t h) : ParallelInv glbRank responses st k u := by
  obtain ⟨hlt, hs⟩ := handlerStep_cases hs
  have hh : h < k := by
    rw [hI.tree, ← hk] at hlt
    omega
  rcases hs with ⟨hp, rfl⟩ | ⟨hp, rfl⟩ | ⟨hp, rfl⟩ | ⟨hp, rfl⟩ | ⟨hp, rfl⟩ | ⟨hp, rfl⟩ | ⟨hp, rfl⟩
  · exact hI.raise hh hp
  · exact hI.setErr hh hp
  · exact hI.count hh hk hp halone
  · exact hI.test hh hk hp
  · exact hI.raiseOwn hh hparent hp
  · exact hI.send hh hp
  · exact hI.free hh hp

/-! ## A crowded test -/

/-- The count is full and two handlers find it so, or did and freed the record. -/
structure Crowded (k h g : ℕ) (t : ParallelState) : Prop where
  ne : h ≠ g
  childCount : (k : ℤ) = t.record.tree.childCount
  parent : t.record.tree.parentRank ≠ -1
  full : t.record.full = true
  counted : ∀ x < k, (t.phase x).Counted
  freed : (if t.phase h = .done then 1 else 0) + (if t.phase g = .done then 1 else 0) ≤ t.freed

theorem Crowded.access {g x : ℕ} {r : StateFilesize} (hC : Crowded k h g t)
    (hr : r.tree = t.record.tree ∧ r.numResponses = t.record.numResponses)
    (hp : p.Counted ∧ p ≠ .done) : Crowded k h g (t.access x r p) := by
  have hu := t.phase_access x r p
  have hsame : ∀ y, (if (t.access x r p).phase y = .done then 1 else 0) ≤
      (if t.phase y = .done then 1 else 0) := by
    intro y
    rw [hu]
    split_ifs <;> simp_all
  refine ⟨hC.ne, ?_, ?_, ?_, ?_, ?_⟩
  · exact hC.childCount.trans (congrArg RpcTree.childCount hr.1.symm)
  · exact hr.1.symm ▸ hC.parent
  · have := hC.full
    simp only [StateFilesize.full, ParallelState.access, hr.1, hr.2] at this ⊢
    exact this
  · intro y hy
    rw [hu]
    split_ifs
    · exact hp.1
    · exact hC.counted y hy
  · exact (Nat.add_le_add (hsame h) (hsame g)).trans hC.freed

theorem crowded_step {g x : ℕ} (hC : Crowded k h g t)
    (hs : HandlerStep glbRank responses t x u) : Crowded k h g u := by
  obtain ⟨hlt, hs⟩ := handlerStep_cases hs
  have hx : x < k := by
    rw [← hC.childCount] at hlt
    omega
  have hcounted := hC.counted x hx
  rcases hs with ⟨hp, rfl⟩ | ⟨hp, rfl⟩ | ⟨hp, rfl⟩ | ⟨hp, rfl⟩ | ⟨hp, rfl⟩ | ⟨hp, rfl⟩ | ⟨hp, rfl⟩
  · simp [hp, HandlerPhase.Counted] at hcounted
  · simp [hp, HandlerPhase.Counted] at hcounted
  · simp [hp, HandlerPhase.Counted] at hcounted
  · rw [if_pos hC.full]
    exact hC.access ⟨rfl, rfl⟩ (by simp [HandlerPhase.Counted])
  · rw [if_pos hC.parent]
    exact hC.access (by simp) (by simp [HandlerPhase.Counted])
  · have hA := hC.access (x := x) (p := .free) ⟨rfl, rfl⟩ (by simp [HandlerPhase.Counted])
    exact ⟨hA.ne, hA.childCount, hA.parent, hA.full, hA.counted, hA.freed⟩
  · have hu := t.phase_access x t.record .done
    refine ⟨hC.ne, hC.childCount, hC.parent, hC.full, ?_, ?_⟩
    · intro y hy
      refine (hu y).symm ▸ ?_
      split_ifs
      · simp [HandlerPhase.Counted]
      · exact hC.counted y hy
    · have hne := hC.ne
      have hfreed := hC.freed
      change (if (t.access x t.record .done).phase h = .done then 1 else 0) +
        (if (t.access x t.record .done).phase g = .done then 1 else 0) ≤ t.freed + 1
      rw [hu, hu]
      split_ifs at hfreed ⊢ <;> omega

/-- An increment that fills the count beside a handler about to test it. -/
theorem crowded_of_not_alone (hk : (k : ℤ) = st.tree.childCount)
    (hparent : st.tree.parentRank ≠ -1) (hI : ParallelInv glbRank responses st k t)
    (hs : HandlerStep glbRank responses t h u) (halone : ¬ LastCountsAlone t h) :
    h < k ∧ ∃ g < k, Crowded k h g u := by
  simp only [LastCountsAlone, not_forall, not_not] at halone
  obtain ⟨hp, hfull, g, hg, hgh, hgt⟩ := halone
  obtain ⟨hlt, hs⟩ := handlerStep_cases hs
  have hh : h < k := by
    rw [hI.tree, ← hk] at hlt
    omega
  have hu : u = t.access h t.record.countResponse .test := by simpa [hp] using hs
  subst hu
  have hphase := t.phase_access h t.record.countResponse .test
  have hg : g < k := by
    rw [hI.tree, ← hk] at hg
    omega
  refine ⟨hh, g, hg, hgh.symm, hk.trans (by rw [← hI.tree]; rfl), ?_, hfull, ?_, ?_⟩
  · exact hI.tree.symm ▸ hparent
  · have hcard :
        ((t.access h t.record.countResponse .test).at k HandlerPhase.Counted).card = k := by
      have hnum : t.record.countResponse.numResponses = k := by
        rw [StateFilesize.full, beq_iff_eq] at hfull
        rw [hfull, hk, ← hI.tree]
        rfl
      rw [at_insert_of_phase hphase hh (by simp [HandlerPhase.Counted]),
        Finset.card_insert_of_notMem (not_mem_at (by simp [hp, HandlerPhase.Counted]))]
      have := hI.numResponses
      simp only [StateFilesize.countResponse] at hnum
      omega
    exact at_card_eq_iff.mp hcard
  · simp [hphase, hgh, hgt]

/-! ## Whole runs -/

/-- What parallel handlers are to do on a non-root rank with `k` children. -/
structure ForwardsOnce (glbRank : ℤ) (responses : ℕ → FilesizeResponseIn) (st : StateFilesize)
    (k : ℕ) (t : ParallelState) : Prop where
  untouched : t.touchedFreed = false
  freed_le : t.freed ≤ 1
  sent_le : t.sent.length ≤ 1
  answer : ∀ m ∈ t.sent, m.tag = st.parentTag ∧
    m.filesize = max (childrenSize responses k) (ownSize glbRank) ∧
    (m.err = 0 ↔ ∀ g < k, (responses g).err = 0)
  complete : (∀ g < k, t.phase g = .done) → t.sent.length = 1 ∧ t.freed = 1

theorem ParallelInv.forwardsOnce (hI : ParallelInv glbRank responses st k t) :
    ForwardsOnce glbRank responses st k t := by
  have hanswer : (∀ g < k, (t.phase g).Counted) →
      t.record.filesize = max (childrenSize responses k) (ownSize glbRank) →
      ∀ m ∈ [t.record.response], m.tag = st.parentTag ∧
        m.filesize = max (childrenSize responses k) (ownSize glbRank) ∧
        (m.err = 0 ↔ ∀ g < k, (responses g).err = 0) := by
    intro hall hsize m hm
    rw [List.mem_singleton] at hm
    subst hm
    have hset : t.at k HandlerPhase.ErrSet = Finset.range k :=
      Finset.filter_true_of_mem fun g hg =>
        ⟨(hall g (Finset.mem_range.mp hg)).1, (hall g (Finset.mem_range.mp hg)).2.1⟩
    have herr := hI.err
    simp only [hset, Finset.mem_range] at herr
    exact ⟨hI.parentTag, hsize, herr⟩
  have hfull : ∀ (h : ℕ), (t.phase h).Counted → (∀ g < k, g ≠ h → t.phase g = .done) →
      ∀ g < k, (t.phase g).Counted := by
    intro h hp hrest g hg
    by_cases hgh : g = h
    · exact hgh ▸ hp
    · simp [hrest g hg hgh, HandlerPhase.Counted]
  cases hI.stage with
  | collecting hleft hno hsent hfreed hsize =>
    obtain ⟨g, hg, hgc⟩ := hleft
    refine ⟨hI.untouched, by omega, by simp [hsent], by simp [hsent], ?_⟩
    intro hall
    simp [hall g hg, HandlerPhase.Counted] at hgc
  | testing h hh hphase hrest hsent hfreed hsize =>
    refine ⟨hI.untouched, by omega, by simp [hsent], by simp [hsent], ?_⟩
    intro hall
    simp [hall h hh] at hphase
  | sending h hh hphase hrest hsent hfreed hsize =>
    refine ⟨hI.untouched, by omega, by simp [hsent], by simp [hsent], ?_⟩
    intro hall
    simp [hall h hh] at hphase
  | freeing h hh hphase hrest hsent hfreed hsize =>
    refine ⟨hI.untouched, by omega, by simp [hsent], ?_, ?_⟩
    · rw [hsent]
      exact hanswer (hfull h (by simp [hphase, HandlerPhase.Counted]) hrest) hsize
    · intro hall
      simp [hall h hh] at hphase
  | finished hall hsent hfreed hsize =>
    refine ⟨hI.untouched, by omega, by simp [hsent], ?_, ?_⟩
    · rw [hsent]
      exact hanswer (fun g hg => by simp [hall g hg, HandlerPhase.Counted]) hsize
    · intro _
      exact ⟨by simp [hsent], hfreed⟩

def AloneStep (glbRank : ℤ) (responses : ℕ → FilesizeResponseIn) (t : ParallelState) (h : ℕ)
    (u : ParallelState) : Prop :=
  HandlerStep glbRank responses t h u ∧ LastCountsAlone t h

theorem alone_or_crowded (hst : st.Fresh) (hk : (k : ℤ) = st.tree.childCount) (hpos : 0 < k)
    (hparent : st.tree.parentRank ≠ -1) {xs : List ℕ}
    (hrun : Trace (HandlerStep glbRank responses) (parallelStart st) xs t) :
    (Trace (AloneStep glbRank responses) (parallelStart st) xs t ∧
      ParallelInv glbRank responses st k t) ∨
    ∃ h g, h < k ∧ g < k ∧ Crowded k h g t := by
  induction hrun with
  | refl => exact Or.inl ⟨.refl, parallelInv_start hst hpos⟩
  | @snoc xs v w x _ hs ih =>
    rcases ih with ⟨hrun, hI⟩ | ⟨h, g, hh, hg, hC⟩
    · by_cases halone : LastCountsAlone v x
      · exact Or.inl ⟨hrun.snoc ⟨hs, halone⟩, parallelInv_step hk hparent hI hs halone⟩
      · obtain ⟨hx, g, hg, hC⟩ := crowded_of_not_alone hk hparent hI hs halone
        exact Or.inr ⟨x, g, hx, hg, hC⟩
    · exact Or.inr ⟨h, g, hh, hg, crowded_step hC hs⟩

theorem Crowded.freed_two {g : ℕ} (hC : Crowded k h g t) (hh : h < k) (hg : g < k)
    (hdone : ∀ x < k, t.phase x = .done) : 2 ≤ t.freed := by
  simpa [hdone h hh, hdone g hg] using hC.freed

/-- In every run in which the increment that fills the count is taken beside no handler
about to test it, one response is sent and the record is freed once, untouched from then on.
A run of all handlers to their end that forwards once is such a run. -/
theorem parallel_forwards_once_iff (hst : st.Fresh) (hk : (k : ℤ) = st.tree.childCount)
    (hpos : 1 ≤ k) (hparent : st.tree.parentRank ≠ -1) {xs : List ℕ}
    (hrun : Trace (HandlerStep glbRank responses) (parallelStart st) xs t) :
    (Trace (AloneStep glbRank responses) (parallelStart st) xs t →
      ForwardsOnce glbRank responses st k t) ∧
    ((∀ h < k, t.phase h = .done) → ForwardsOnce glbRank responses st k t →
      Trace (AloneStep glbRank responses) (parallelStart st) xs t) := by
  constructor
  · intro halone
    have hI : ParallelInv glbRank responses st k t :=
      invariant_state (parallelInv_start hst hpos)
        (fun _ _ _ hI hs => parallelInv_step hk hparent hI hs.1 hs.2) halone
    exact hI.forwardsOnce
  · intro hdone honce
    rcases alone_or_crowded hst hk hpos hparent hrun with ⟨halone, _⟩ | ⟨h, g, hh, hg, hC⟩
    · exact halone
    · have := hC.freed_two hh hg hdone
      have := honce.freed_le
      omega

/-- Rank 1 of five, below rank 0: its record while ranks 3 and 4 respond. -/
def innerRecord : StateFilesize := stateFilesizeAlloc id 1 5 0 2 true 0 1

def innerResponses (h : ℕ) : FilesizeResponseIn :=
  { tag := 1, filesize := if h = 0 then 300 else 400, err := 0 }

/-- One handler after the other. -/
theorem parallel_forwards_once_in_turn :
    ∃ t, Trace (HandlerStep 1 innerResponses) (parallelStart innerRecord)
        [0, 0, 0, 0, 1, 1, 1, 1, 1, 1, 1] t ∧
      ForwardsOnce 1 innerResponses innerRecord 2 t ∧ t.sent = [⟨0, 400, 0⟩] := by
  have hst : innerRecord.Fresh := fresh_stateFilesizeAlloc id 1 5 0 2 0 1 true
  have hparent : innerRecord.tree.parentRank ≠ -1 := by decide
  have hrun := of_foldlM (f := handlerStep 1 innerResponses) (s := parallelStart innerRecord)
    (Eq.refl ([0, 0, 0, 0, 1, 1, 1, 1, 1, 1, 1].foldlM (handlerStep 1 innerResponses)
      (parallelStart innerRecord)))
  have halone := alone_or_crowded (k := 2) hst rfl two_pos hparent hrun
  refine ⟨_, hrun, (parallel_forwards_once_iff (k := 2) hst rfl one_le_two hparent hrun).1 ?_, rfl⟩
  rcases halone with ⟨halone, _⟩ | ⟨h, g, hh, hg, hC⟩
  · exact halone
  · have htwo := hC.freed_two hh hg (by
      intro x hx
      interval_cases x <;> rfl)
    exact absurd htwo (by decide)

/-- Both handlers count, then both test: two responses and a record freed twice. -/
theorem two_handlers_forward_twice :
    ∃ t, Trace (HandlerStep 1 innerResponses) (parallelStart innerRecord)
        [0, 0, 0, 1, 1, 1, 0, 1, 0, 0, 0, 1, 1, 1] t ∧
      t.sent.length = 2 ∧ t.freed = 2 ∧ t.touchedFreed = true :=
  ⟨_, of_foldlM (f := handlerStep 1 innerResponses) rfl, rfl, rfl, rfl⟩

end Metasim
