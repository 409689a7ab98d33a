import Metasim.FilesizeSafe
import Metasim.Lib.Log

/-! The log of the filesize collectives: what it holds is read off the state, and no event is
in it before those it rests on. -/
namespace Metasim

open Log

variable {arith : ℤ → ℤ} {n v w : ℤ} {colls : List Collective} {c d : Collective} {h g x : Handle}
  {s u : FilesizeNet} {i j : ℕ} {a : FilesizeLabel} {e : FilesizeEvent} {new : List FilesizeEvent}

/-- What has happened in a state. -/
def Happened (arith : ℤ → ℤ) (n : ℤ) (colls : List Collective) (s : FilesizeNet) :
    FilesizeEvent → Prop
  | .allocate x r => (∃ c, x.At arith n colls c r) ∧ (s.part x).cell ≠ .unallocated
  | .apply o x => (∃ j, o = x.child j) ∧ (s.part o).response = .served
  | .respond x r dst => (∃ c, x.At arith n colls c r ∧ dst = parentOf arith n c r) ∧
      (s.part x).response ≠ .unused
  | .complete i m => (∃ c, colls[i]? = some c ∧ m = subtreeSize arith n c c.root) ∧
      (s.control i).main = .finished
  | .free x => (s.part x).cell = .freed

/-- A response is applied after it was sent, and is sent after the record was allocated and
all children were counted; a collective completes after the children of its root were. -/
def Needs (arith : ℤ → ℤ) (n : ℤ) (colls : List Collective) : FilesizeEvent → FilesizeEvent → Prop
  | .allocate _ _, _ => False
  | .apply o _, e => ∃ c r, o.At arith n colls c r ∧ e = .respond o r (parentOf arith n c r)
  | .respond x r _, e => e = .allocate x r ∨
      ∃ c j, x.At arith n colls c r ∧ j < (kids arith n c r).length ∧ e = .apply (x.child j) x
  | .complete i _, e => ∃ c j, colls[i]? = some c ∧ j < (kids arith n c c.root).length ∧
      e = .apply (Handle.child ⟨i, []⟩ j) ⟨i, []⟩
  | .free _, _ => False

structure LogInv (arith : ℤ → ℤ) (n : ℤ) (colls : List Collective) (s : FilesizeNet) : Prop where
  records : Records (Happened arith n colls s) s.events
  causal : Causal (Needs arith n colls) s.events

theorem logInv_start : LogInv arith n colls FilesizeNet.start := by
  refine ⟨records_nil ?_, causal_nil⟩
  intro e
  cases e <;> simp [Happened, FilesizeNet.start]

/-- What has happened after a step, by kind of event. -/
theorem happened_iff (hnew : ∀ e ∈ new, Happened arith n colls u e)
    (halloc : ∀ x r c, x.At arith n colls c r → ((u.part x).cell ≠ .unallocated ↔
      (s.part x).cell ≠ .unallocated ∨ .allocate x r ∈ new))
    (happly : ∀ x j, (u.part (Handle.child x j)).response = .served ↔
      (s.part (x.child j)).response = .served ∨ .apply (x.child j) x ∈ new)
    (hrespond : ∀ x r c, x.At arith n colls c r → ((u.part x).response ≠ .unused ↔
      (s.part x).response ≠ .unused ∨ .respond x r (parentOf arith n c r) ∈ new))
    (hcomplete : ∀ i c, colls[i]? = some c → ((u.control i).main = .finished ↔
      (s.control i).main = .finished ∨ .complete i (subtreeSize arith n c c.root) ∈ new))
    (hfree : ∀ x, (u.part x).cell = .freed ↔ (s.part x).cell = .freed ∨ .free x ∈ new) :
    ∀ e, Happened arith n colls u e ↔ Happened arith n colls s e ∨ e ∈ new := by
  intro e
  constructor
  · intro he
    cases e with
    | allocate x r =>
      obtain ⟨⟨c, hat⟩, hcell⟩ := he
      exact ((halloc x r c hat).mp hcell).imp (fun h => ⟨⟨c, hat⟩, h⟩) id
    | apply o x =>
      obtain ⟨⟨j, rfl⟩, hr⟩ := he
      exact ((happly x j).mp hr).imp (fun h => ⟨⟨j, rfl⟩, h⟩) id
    | respond x r dst =>
      obtain ⟨⟨c, hat, rfl⟩, hr⟩ := he
      exact ((hrespond x r c hat).mp hr).imp (fun h => ⟨⟨c, hat, rfl⟩, h⟩) id
    | complete i m =>
      obtain ⟨⟨c, hc, rfl⟩, hm⟩ := he
      exact ((hcomplete i c hc).mp hm).imp (fun h => ⟨⟨c, hc, rfl⟩, h⟩) id
    | free x => exact (hfree x).mp he
  · rintro (he | he)
    · cases e with
      | allocate x r =>
        obtain ⟨⟨c, hat⟩, hcell⟩ := he
        exact ⟨⟨c, hat⟩, (halloc x r c hat).mpr (Or.inl hcell)⟩
      | apply o x =>
        obtain ⟨⟨j, rfl⟩, hr⟩ := he
        exact ⟨⟨j, rfl⟩, (happly x j).mpr (Or.inl hr)⟩
      | respond x r dst =>
        obtain ⟨⟨c, hat, rfl⟩, hr⟩ := he
        exact ⟨⟨c, hat, rfl⟩, (hrespond x r c hat).mpr (Or.inl hr)⟩
      | complete i m =>
        obtain ⟨⟨c, hc, rfl⟩, hm⟩ := he
        exact ⟨⟨c, hc, rfl⟩, (hcomplete i c hc).mpr (Or.inl hm)⟩
      | free x => exact (hfree x).mpr (Or.inl he)
    · exact hnew e he

/-- Two parts of which the log says the same. -/
structure SameLog (p q : Part) : Prop where
  unallocated : p.cell = .unallocated ↔ q.cell = .unallocated
  freed : p.cell = .freed ↔ q.cell = .freed
  unused : p.response = .unused ↔ q.response = .unused
  served : p.response = .served ↔ q.response = .served

theorem SameLog.refl (p : Part) : SameLog p p := ⟨Iff.rfl, Iff.rfl, Iff.rfl, Iff.rfl⟩

/-- A step that adds nothing to the log. -/
theorem LogInv.quiet (hL : LogInv arith n colls s) (hevents : u.events = s.events)
    (hpart : ∀ x, SameLog (u.part x) (s.part x))
    (hmain : ∀ i, (u.control i).main = .finished ↔ (s.control i).main = .finished) :
    LogInv arith n colls u := by
  have hiff : ∀ e, Happened arith n colls u e ↔ Happened arith n colls s e ∨ e ∈ [] := by
    apply happened_iff
    · simp
    · simp [(hpart _).unallocated]
    · simp [(hpart _).served]
    · simp [(hpart _).unused]
    · simp [hmain]
    · simp [(hpart _).freed]
  refine ⟨?_, hevents ▸ hL.causal⟩
  rw [hevents]
  exact hL.records.congr fun e => (hiff e).trans (by simp)

theorem LogInv.modify {f : Part → Part} (hL : LogInv arith n colls s)
    (hf : SameLog (f (s.part h)) (s.part h)) : LogInv arith n colls (s.modify h f) := by
  refine hL.quiet rfl (fun x => ?_) fun _ => Iff.rfl
  rw [FilesizeNet.part_modify]
  split_ifs with hx
  · rw [hx]
    exact hf
  · exact SameLog.refl _

theorem LogInv.setControl {f : RootControl → RootControl} (hL : LogInv arith n colls s)
    (hf : (f (s.control i)).main = .finished ↔ (s.control i).main = .finished) :
    LogInv arith n colls (s.setControl i f) := by
  refine hL.quiet rfl (fun x => SameLog.refl _) fun k => ?_
  rw [FilesizeNet.control_setControl]
  split_ifs with hk
  · rw [hk]
    exact hf
  · rfl

theorem LogInv.append (hL : LogInv arith n colls s) (hevents : u.events = s.events ++ new)
    (hn : new.Nodup) (hold : ∀ e ∈ new, ¬ Happened arith n colls s e)
    (hiff : ∀ e, Happened arith n colls u e ↔ Happened arith n colls s e ∨ e ∈ new)
    (hcausal : Causal (Needs arith n colls) (s.events ++ new)) : LogInv arith n colls u :=
  ⟨hevents ▸ hL.records.append hn hold hiff, hevents ▸ hcausal⟩

/-- A step that adds one event to the log. -/
theorem LogInv.snoc (hL : LogInv arith n colls s) (hevents : u.events = s.events ++ [e])
    (hold : ¬ Happened arith n colls s e)
    (hiff : ∀ e', Happened arith n colls u e' ↔ Happened arith n colls s e' ∨ e' ∈ [e])
    (hneeds : ∀ e', Needs arith n colls e e' → Happened arith n colls s e') :
    LogInv arith n colls u := by
  refine hL.append hevents (List.nodup_singleton e) ?_ hiff
    (hL.causal.snoc fun e' he' => (hL.records.mem_iff e').mpr (hneeds e' he'))
  rintro e' he'
  rwa [List.mem_singleton.mp he']

section Steps

variable (hL : LogInv arith n colls s)
include hL

theorem log_create {m : Message FilesizeRequestIn} (hat : h.At arith n colls c v)
    (hp : s.part h = { request := m }) : LogInv arith n colls (create arith n s h c v) := by
  refine hL.snoc (e := .allocate h v) rfl (by simp [Happened, hp]) (happened_iff ?_ ?_ ?_ ?_ ?_ ?_)
    (by simp [Needs])
  · simp only [List.mem_singleton, forall_eq]
    refine ⟨⟨c, hat⟩, ?_⟩
    rw [part_create hp, if_pos rfl]
    simp [createdPart]
  · intro x r d hx
    rw [part_create hp]
    by_cases hxh : x = h
    · subst hxh
      simp [createdPart, (at_unique hx hat).2]
    · simp [hxh]
  · intro x j
    rw [part_create hp]
    by_cases hxh : x.child j = h
    · simp [hxh, hp, createdPart]
    · simp [hxh]
  · intro x r d _
    rw [part_create hp]
    by_cases hxh : x = h
    · simp [hxh, hp, createdPart]
    · simp [hxh]
  · intro i d _
    simp [create, allocate]
  · intro x
    rw [part_create hp]
    by_cases hxh : x = h
    · simp [hxh, hp, createdPart]
    · simp [hxh]

/-- A record is answered for. -/
theorem log_respond {p : Part} (hat : h.At arith n colls c v) (hself : u.part h = p)
    (hrest : ∀ g, g ≠ h → u.part g = s.part g) (hcontrol : u.control = s.control)
    (hevents : u.events = s.events ++ [.respond h v (parentOf arith n c v)])
    (hlive : ∃ st, (s.part h).cell = .live st) (hp : ∃ st, p.cell = .live st)
    (hunused : (s.part h).response = .unused)
    (hresp : p.response ≠ .unused ∧ p.response ≠ .served)
    (hkids : ∀ j < (kids arith n c v).length, (s.part (h.child j)).response = .served) :
    LogInv arith n colls u := by
  obtain ⟨st, hlive⟩ := hlive
  obtain ⟨st', hp⟩ := hp
  refine hL.snoc hevents (by simp [Happened, hunused]) (happened_iff ?_ ?_ ?_ ?_ ?_ ?_) ?_
  · simp only [List.mem_singleton, forall_eq]
    exact ⟨⟨c, hat, rfl⟩, by rw [hself]; exact hresp.1⟩
  · intro x r d _
    by_cases hxh : x = h
    · simp [hxh, hself, hp, hlive]
    · simp [hrest x hxh]
  · intro x j
    by_cases hxh : x.child j = h
    · simp [hxh, hself, hresp, hunused]
    · simp [hrest _ hxh]
  · intro x r d hx
    by_cases hxh : x = h
    · subst hxh
      obtain ⟨rfl, rfl⟩ := at_unique hx hat
      simp [hself, hresp]
    · simp [hrest x hxh, hxh]
  · intro i d _
    simp [hcontrol]
  · intro x
    by_cases hxh : x = h
    · simp [hxh, hself, hp, hlive]
    · simp [hrest x hxh]
  · rintro e (rfl | ⟨d, j, hd, hj, rfl⟩)
    · exact ⟨⟨c, hat⟩, by simp [hlive]⟩
    · obtain ⟨rfl, -⟩ := at_unique hd hat
      exact ⟨⟨j, rfl⟩, hkids j hj⟩

/-- The response of child `j` is applied. -/
theorem log_apply {m : FilesizeResponseIn} {st st' : StateFilesize} {q : Part}
    (hatj : (h.child j).At arith n colls c w)
    (hr : (s.part (h.child j)).response = .accepted v m) (hlive : (s.part h).cell = .live st)
    (hself : u.part h = q) (hq : q.cell = .live st' ∧ q.response = (s.part h).response)
    (hchild : u.part (h.child j) = { s.part (h.child j) with response := .served })
    (hrest : ∀ g, g ≠ h → g ≠ h.child j → u.part g = s.part g)
    (hmain : ∀ k, (u.control k).main = .finished ↔ (s.control k).main = .finished)
    (hevents : u.events = s.events ++ [.apply (h.child j) h]) : LogInv arith n colls u := by
  refine hL.snoc hevents (by simp [Happened, hr]) (happened_iff ?_ ?_ ?_ ?_ ?_ ?_) ?_
  · simp only [List.mem_singleton, forall_eq]
    exact ⟨⟨j, rfl⟩, by rw [hchild]⟩
  · intro x r d _
    by_cases hx : x = h
    · simp [hx, hself, hq, hlive]
    · by_cases hxj : x = h.child j
      · simp [hxj, hchild]
      · simp [hrest x hx hxj]
  · intro x k
    by_cases hx : x.child k = h
    · have hxj : x ≠ h := by
        rintro rfl
        exact x.child_ne k hx
      simp [hx, hself, hq, hxj]
    · by_cases hxj : x.child k = h.child j
      · obtain ⟨rfl, rfl⟩ := Handle.child_inj.mp hxj
        simp [hchild]
      · simp [hrest _ hx hxj, hxj]
  · intro x r d _
    by_cases hx : x = h
    · simp [hx, hself, hq]
    · by_cases hxj : x = h.child j
      · simp [hxj, hchild, hr]
      · simp [hrest x hx hxj]
  · intro i d _
    simp [hmain]
  · intro x
    by_cases hx : x = h
    · simp [hx, hself, hq, hlive]
    · by_cases hxj : x = h.child j
      · simp [hxj, hchild]
      · simp [hrest x hx hxj]
  · rintro e ⟨d, r, hd, rfl⟩
    obtain ⟨rfl, rfl⟩ := at_unique hd hatj
    exact ⟨⟨d, hatj, rfl⟩, by simp [hr]⟩

theorem log_free {q : Part} {st : StateFilesize} (hlive : (s.part h).cell = .live st)
    (hself : u.part h = q) (hq : q.cell = .freed ∧ q.response = (s.part h).response)
    (hrest : ∀ g, g ≠ h → u.part g = s.part g)
    (hmain : ∀ k, (u.control k).main = .finished ↔ (s.control k).main = .finished)
    (hevents : u.events = s.events ++ [.free h]) : LogInv arith n colls u := by
  refine hL.snoc hevents (by simp [Happened, hlive]) (happened_iff ?_ ?_ ?_ ?_ ?_ ?_)
    (by simp [Needs])
  · simp only [List.mem_singleton, forall_eq, Happened]
    rw [hself, hq.1]
  · intro x r d _
    by_cases hx : x = h
    · simp [hx, hself, hq, hlive]
    · simp [hrest x hx]
  · intro x k
    by_cases hx : x.child k = h
    · simp [hx, hself, hq]
    · simp [hrest _ hx]
  · intro x r d _
    by_cases hx : x = h
    · simp [hx, hself, hq]
    · simp [hrest x hx]
  · intro i d _
    simp [hmain]
  · intro x
    by_cases hx : x = h
    · simp [hx, hself, hq]
    · simp [hrest x hx, hx]

theorem log_complete (hc : colls[i]? = some c) (hrunning : (s.control i).main ≠ .finished)
    (hpart : u.part = s.part)
    (hctl : ∀ k, (u.control k).main = if k = i then .finished else (s.control k).main)
    (hevents : u.events = s.events ++ [.complete i (subtreeSize arith n c c.root)])
    (hkids : ∀ j < (kids arith n c c.root).length,
      (s.part (Handle.child ⟨i, []⟩ j)).response = .served) : LogInv arith n colls u := by
  refine hL.snoc hevents ?_ (happened_iff ?_ ?_ ?_ ?_ ?_ ?_) ?_
  · rintro ⟨-, hm⟩
    exact hrunning hm
  · simp only [List.mem_singleton, forall_eq]
    exact ⟨⟨c, hc, rfl⟩, by rw [hctl, if_pos rfl]⟩
  · intro x r d _
    simp [hpart]
  · intro x k
    simp [hpart]
  · intro x r d _
    simp [hpart]
  · intro k d hd
    rw [hctl]
    by_cases hk : k = i
    · subst hk
      obtain rfl := Option.some.inj (hc.symm.trans hd)
      simp
    · simp [hk]
  · intro x
    simp [hpart]
  · rintro e ⟨d, j, hd, hj, rfl⟩
    obtain rfl := Option.some.inj (hc.symm.trans hd)
    exact ⟨⟨j, rfl⟩, hkids j hj⟩

/-- The last response is applied, then the record is answered for. -/
theorem log_applyLast {st : StateFilesize} (hat : h.At arith n colls c v)
    (hj : (kids arith n c v)[j]? = some w)
    (hr : (s.part (h.child j)).response = .accepted v (responseFrom arith n c w))
    (hA : Active arith n c v h (s.part h) (servedKids arith n c v s h) st)
    (hlast : (servedKids arith n c v s h).card + 1 = (kids arith n c v).length) :
    LogInv arith n colls ((((s.modify (h.child j) fun p => { p with response := .served }).log
      (.apply (h.child j) h)).modify h (respondPart arith n c v (counted arith n c w st))).log
        (.respond h v (parentOf arith n c v))) := by
  set t := (s.modify (h.child j) fun p => { p with response := .served }).log (.apply (h.child j) h)
  have hself : t.part h = s.part h := by
    simp [t, FilesizeNet.part_modify, (h.child_ne j).symm]
  have hchild : t.part (h.child j) = { s.part (h.child j) with response := .served } := by
    simp [t, FilesizeNet.part_modify]
  have hrest : ∀ g, g ≠ h.child j → t.part g = s.part g := by
    intro g hg
    simp [t, FilesizeNet.part_modify, hg]
  have hLt : LogInv arith n colls t :=
    log_apply hL (at_child_iff.mpr ⟨v, hat, hj⟩) hr hA.cell hself ⟨hA.cell, rfl⟩ hchild
      (fun g _ hgj => hrest g hgj) (fun _ => Iff.rfl) rfl
  have hall := insert_servedKids (List.getElem?_eq_some_iff.mp hj).1 hlast (by simp [hr])
  refine log_respond hLt hat
    (p := respondPart arith n c v (counted arith n c w st) (s.part h)) ?_ ?_ rfl rfl
    ⟨st, by rw [hself, hA.cell]⟩ ⟨_, rfl⟩ (by rw [hself, hA.response]) (by simp [respondPart]) ?_
  · simp [FilesizeNet.part_modify, hself]
  · intro g hg
    simp [FilesizeNet.part_modify, hg]
  · intro k hk
    have hmem := Finset.mem_range.mpr hk
    rw [← hall, Finset.mem_insert, mem_servedKids] at hmem
    rcases hmem with rfl | ⟨-, hserved⟩
    · rw [hchild]
    · by_cases hkj : k = j
      · rw [hkj, hchild]
      · rw [hrest _ (by simpa using hkj), hserved]

/-- The collective completes, then the record is freed. -/
theorem log_finish {st : StateFilesize} (hc : colls[i]? = some c)
    (hp : (s.part ⟨i, []⟩).cell = .live st)
    (hJ : servedKids arith n c c.root s ⟨i, []⟩ = Finset.range (kids arith n c c.root).length)
    (hmain : (s.control i).main ≠ .finished) :
    LogInv arith n colls (((((s.setControl i fun r =>
      { r with main := .finished, mutex := none }).modify ⟨i, []⟩ fun p =>
        { p with cell := .freed }).setGlbSt c.root none).log
          (.complete i (subtreeSize arith n c c.root))).log (.free ⟨i, []⟩)) := by
  set t := (s.setControl i fun r => { r with main := .finished, mutex := none }).log
    (.complete i (subtreeSize arith n c c.root))
  have hLt : LogInv arith n colls t := by
    refine log_complete hL hc hmain rfl ?_ rfl ?_
    · intro k
      simp only [t, FilesizeNet.control_log, FilesizeNet.control_setControl]
      split_ifs <;> rfl
    · intro j hj
      have hmem := Finset.mem_range.mpr hj
      rw [← hJ, mem_servedKids] at hmem
      exact hmem.2
  refine log_free hLt (h := ⟨i, []⟩) (q := { s.part ⟨i, []⟩ with cell := .freed }) hp ?_
    ⟨rfl, rfl⟩ ?_ (fun _ => Iff.rfl) rfl
  · simp [FilesizeNet.part_modify]
  · intro g hg
    simp [t, FilesizeNet.part_modify, hg]

theorem logInv_move (hm : Move arith n colls s a u) : LogInv arith n colls u := by
  cases hm with
  | control _ _ hrun hrun' =>
    exact hL.setControl ⟨fun hf => absurd hf hrun'.2, fun hf => absurd hf hrun.2⟩
  | silent _ hvis _ hcell _ hresp =>
    exact hL.modify ⟨by rw [hcell], by rw [hcell], hresp, hvis.2⟩
  | start hc hidle hp =>
    apply (log_create hL (at_root hc) hp).setControl
    simp [create, allocate, hidle]
  | alloc hat _ hp => exact log_create hL hat hp
  | forward =>
    refine (hL.modify ?_).modify ?_
    · exact ⟨Iff.rfl, Iff.rfl, Iff.rfl, Iff.rfl⟩
    · exact ⟨Iff.rfl, Iff.rfl, Iff.rfl, Iff.rfl⟩
  | @leaf _ h c v F st hat hh hF hK hnext hw hreq hA =>
    refine log_respond hL hat (p := { respondPart arith n c v st (s.part h) with thread := none })
      ?_ ?_ rfl rfl ⟨st, hA.cell⟩ ⟨_, rfl⟩ hA.response ?_ ?_
    · simp [FilesizeNet.part_modify]
    · intro g hg
      simp [FilesizeNet.part_modify, hg]
    · simp [respondPart]
    · intro j hj
      omega
  | endRoot _ _ _ _ _ hmain =>
    refine (hL.modify ?_).setControl ?_
    · exact ⟨Iff.rfl, Iff.rfl, Iff.rfl, Iff.rfl⟩
    · simp [hmain]
  | endAlone _ _ _ _ _ hmain _ hA =>
    refine (hL.modify ?_).setControl ?_
    · exact ⟨by simp [hA.cell], by simp [hA.cell], Iff.rfl, Iff.rfl⟩
    · simp [hmain]
  | @apply _ h c v w j st hat hj hr hA =>
    refine log_apply hL (at_child_iff.mpr ⟨v, hat, hj⟩) hr hA.cell
      (q := { s.part h with cell := .live (counted arith n c w st) }) ?_ ⟨rfl, rfl⟩ ?_ ?_
      (fun _ => Iff.rfl) rfl
    · simp [FilesizeNet.part_modify, (h.child_ne j).symm]
    · simp [FilesizeNet.part_modify, h.child_ne j]
    · intro g hg hgj
      simp [FilesizeNet.part_modify, hg, hgj]
  | applyLast hat _ hj hr hA hlast => exact log_applyLast hL hat hj hr hA hlast
  | @applyRoot _ i c w j st hc hj hr hA =>
    refine LogInv.setControl (f := fun r => { r with wake := .lock }) ?_ Iff.rfl
    refine log_apply hL (at_child_iff.mpr ⟨c.root, at_root hc, hj⟩) hr hA.cell
      (q := { s.part ⟨i, []⟩ with
        cell := .live ((counted arith n c w st).raise (ownSize c.root)) }) ?_
      ⟨rfl, rfl⟩ ?_ ?_ (fun _ => Iff.rfl) rfl
    · simp [FilesizeNet.part_modify, (Handle.child_ne ⟨i, []⟩ j).symm]
    · simp [FilesizeNet.part_modify, Handle.child_ne ⟨i, []⟩ j]
    · intro g hg hgj
      simp [FilesizeNet.part_modify, hg, hgj]
  | @release _ h c v st _ _ hp =>
    refine log_free hL hp (q := { s.part h with cell := .freed, releasing := none }) ?_ ⟨rfl, rfl⟩
      ?_ (fun _ => Iff.rfl) rfl
    · simp [FilesizeNet.part_modify]
    · intro g hg
      simp [FilesizeNet.part_modify, hg]
  | finish hc hp _ hJ _ hmain => exact log_finish hL hc hp hJ (by simp [hmain])

end Steps

end Metasim
