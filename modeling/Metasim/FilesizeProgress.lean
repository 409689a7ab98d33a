import Metasim.FilesizeSafe

/-! While something is left to do in a collective that has started there is a step, and each
step brings some part or main thread further. -/
namespace Metasim

variable {arith : ℤ → ℤ} {n v w : ℤ} {colls : List Collective} {c d : Collective} {h g x : Handle}
  {s t u : FilesizeNet} {i j k : ℕ} {a : FilesizeLabel} {p : List ℕ}

/-! ## A collective before and after -/

section Facts

variable (hI : FilesizeInv arith n colls s)
include hI

/-- Nothing happens in a collective before its root has allocated its record. -/
theorem FilesizeInv.root_created (hat : (⟨i, p⟩ : Handle).At arith n colls c v)
    (hp : (s.part ⟨i, p⟩).request ≠ .unused ∨ (s.part ⟨i, p⟩).cell ≠ .unallocated) :
    (s.part ⟨i, []⟩).cell ≠ .unallocated := by
  induction p generalizing v with
  | nil =>
    rcases hp with hr | hc
    · by_contra hc
      cases hI.parts.ok _ _ _ hat with
      | before hf =>
        rcases hf.request with hu | ⟨hne, _⟩
        · exact hr hu
        · exact absurd rfl hne
      | active _ hreq | done hreq => exact hr hreq
    · exact hc
  | cons j p ih =>
    obtain ⟨x, hx, hj⟩ := (at_child_iff (h := ⟨i, p⟩)).mp hat
    have hr : (s.part ⟨i, j :: p⟩).request ≠ .unused := by
      rcases hp with hr | hc
      · exact hr
      · have hreq := ((hI.parts.ok _ _ _ hat).created hc).1
        rw [Requested, if_neg (List.cons_ne_nil j p)] at hreq
        simp [hreq]
    have hmem : j ∈ sentKids arith n c x s ⟨i, p⟩ :=
      mem_sentKids.mpr ⟨(List.getElem?_eq_some_iff.mp hj).1, hr⟩
    exact ih hx (Or.inr ((hI.parts.ok _ _ _ hx).cell_of_sent (Finset.ne_empty_of_mem hmem)))

theorem FilesizeInv.started (hat : h.At arith n colls c v)
    (hp : (s.part h).request ≠ .unused ∨ (s.part h).cell ≠ .unallocated) :
    (s.control h.call).main ≠ .idle := by
  intro hidle
  exact hI.root_created (i := h.call) (p := h.path) hat hp (hI.idle_root hat.1 hidle).2

theorem FilesizeInv.finished_root (hc : colls[i]? = some c)
    (hm : (s.control i).main = .finished) : (s.part ⟨i, []⟩).cell = .freed := by
  cases hI.control i c hc with
  | finished hp => exact hp
  | idle hr => simp [hr] at hm
  | alone _ _ _ _ _ ho => rcases ho with ⟨h1, _⟩ | ⟨_, h1 | h1⟩ <;> simp [hm] at h1
  | sending _ _ _ _ _ ho => rcases ho with ⟨h1, _⟩ | ⟨h1, _⟩ <;> simp [hm] at h1
  | waiting _ _ _ _ h1 | woken _ _ _ _ _ h1 | got _ _ _ _ _ h1 => simp [hm] at h1

/-- Where a collective has finished, all its ranks have sent their responses and these have
been counted. -/
theorem FilesizeInv.finished_parts (hm : (s.control i).main = .finished)
    (hat : (⟨i, p⟩ : Handle).At arith n colls c v) :
    servedKids arith n c v s ⟨i, p⟩ = Finset.range (kids arith n c v).length ∧
      RecordDone arith n c v ⟨i, p⟩ (s.part ⟨i, p⟩) ∧
        (p ≠ [] → (s.part ⟨i, p⟩).response = .served) := by
  induction p generalizing v with
  | nil =>
    have hroot := hI.finished_root hat.1 hm
    cases hI.parts.ok _ _ _ hat with
    | before hf =>
      rw [hf.eq] at hroot
      simp at hroot
    | active _ _ _ hA => simp [hA.cell] at hroot
    | done _ _ _ hJ hD => exact ⟨hJ, hD, fun hne => absurd rfl hne⟩
  | cons j p ih =>
    obtain ⟨x, hx, hj⟩ := (at_child_iff (h := ⟨i, p⟩)).mp hat
    obtain ⟨hJ, -⟩ := ih hx
    have hmem := Finset.mem_range.mpr (List.getElem?_eq_some_iff.mp hj).1
    rw [← hJ, mem_servedKids] at hmem
    have hserved : (s.part ⟨i, j :: p⟩).response = .served := hmem.2
    obtain ⟨-, -, hJ', hD⟩ := (hI.parts.ok _ _ _ hat).done_of_response (by simp [hserved])
    exact ⟨hJ', hD, fun _ => hserved⟩

/-! ## Progress -/

/-- Some step is possible that does not start a collective. -/
def Working (arith : ℤ → ℤ) (n : ℤ) (colls : List Collective) (s : FilesizeNet) : Prop :=
  ∃ a u, FilesizeStep arith n colls s a u ∧ ∀ i, a ≠ .start i

theorem FilesizeInv.working_of_thread (ht : (s.part h).thread ≠ none) :
    Working arith n colls s := by
  obtain ⟨F, hF⟩ := Option.ne_none_iff_exists'.mp ht
  obtain ⟨c, v, hat, -, hcount, hreach, hsent, -⟩ := hI.thread hF
  cases hw : F.waiting with
  | false =>
    by_cases hlt : F.next < F.childCount
    · exact ⟨.forward h, _, step_forward.mpr ⟨hI.fault, F, hF, hw, hlt, rfl⟩, by simp⟩
    · exact ⟨.endForward h, _, step_endForward.mpr
        ⟨hI.fault, F, _, hF, hw, by omega, rfl, rfl⟩, by simp⟩
  | true =>
    have hr : F.reached = F.next + 1 := by simp [ForwardFrame.reached, hw]
    have hmem : F.next ∈ sentKids arith n c v s h := by
      rw [hsent, hr]
      exact Finset.self_mem_range_succ _
    cases hreq : (s.part (h.child F.next)).request with
    | unused => exact absurd hreq (mem_sentKids.mp hmem).2
    | sent dst msg => exact ⟨.accept _, _, step_accept.mpr ⟨hI.fault, dst, msg, hreq, rfl⟩, by simp⟩
    | accepted dst msg =>
      exact ⟨.returned h, _, step_returned.mpr
        ⟨hI.fault, F, hF, hw, Or.inl ⟨dst, msg, hreq⟩, rfl⟩, by simp⟩
    | served =>
      exact ⟨.returned h, _, step_returned.mpr ⟨hI.fault, F, hF, hw, Or.inr hreq, rfl⟩, by simp⟩

/-- An open record waits for a child that was sent a request and has not been counted. -/
theorem FilesizeInv.open_kid {st : StateFilesize} (hat : h.At arith n colls c v)
    (hA : Active arith n c v h (s.part h) (servedKids arith n c v s h) st)
    (ht : (s.part h).thread = none) :
    ∃ j w, (kids arith n c v)[j]? = some w ∧ (s.part (h.child j)).request ≠ .unused ∧
      (s.part (h.child j)).response ≠ .served := by
  have hlt : (servedKids arith n c v s h).card < (kids arith n c v).length := by
    rcases hA.open_ with hlt | ⟨-, hne⟩
    · exact hlt
    · exact absurd ht hne
  have hsent : sentKids arith n c v s h = Finset.range (kids arith n c v).length := by
    cases ((hI.parts.ok h c v hat).created (by simp [hA.cell])).2 with
    | ended _ hsent => exact hsent
    | sending F hF => simp [ht] at hF
  obtain ⟨j, hj, hnot⟩ := Finset.exists_mem_notMem_of_card_lt_card
    (s := servedKids arith n c v s h) (t := Finset.range (kids arith n c v).length)
    (by rwa [Finset.card_range])
  have hjlt := Finset.mem_range.mp hj
  refine ⟨j, _, List.getElem?_eq_getElem hjlt, ?_, fun hr => hnot (mem_servedKids.mpr ⟨hjlt, hr⟩)⟩
  rw [← hsent] at hj
  exact (mem_sentKids.mp hj).2

/-- Somewhere at or below a rank that was sent a request and has not been counted there is a
step to take. -/
theorem FilesizeInv.working_below (S : SoundFor arith n c) (hv : v ∈ S.tree.nodes) :
    ∀ h : Handle, h.At arith n colls c v → (s.part h).request ≠ .unused →
      (s.part h).response ≠ .served → Working arith n colls s := by
  refine S.tree.bottom_up hv ?_
  intro v hv ih h hat hreq hresp
  by_cases ht : (s.part h).thread = none
  · cases hI.parts.ok h c v hat with
    | before hf =>
      rcases hf.request with hu | ⟨-, hr | hr⟩
      · exact absurd hu hreq
      · exact ⟨.accept h, _, step_accept.mpr ⟨hI.fault, _, _, hr, rfl⟩, by simp⟩
      · exact ⟨.alloc h, _, step_alloc.mpr ⟨hI.fault, _, _, hr, rfl⟩, by simp⟩
    | active st _ _ hA =>
      obtain ⟨j, w, hj, hreqj, hrespj⟩ := hI.open_kid hat hA ht
      exact ih w (List.mem_of_getElem? hj) _ (at_child_iff.mpr ⟨v, hat, hj⟩) hreqj hrespj
    | done hr _ _ _ hD =>
      have hh : h.path ≠ [] := by
        intro hh
        rw [Requested, if_pos hh] at hr
        exact hreq hr
      rcases hD.answered hh with hr | hr | hr
      · exact ⟨.acceptResponse h, _, step_acceptResponse.mpr ⟨hI.fault, _, _, hr, rfl⟩, by simp⟩
      · exact ⟨.apply h, _, step_apply.mpr ⟨hI.fault, _, _, _, hr, rfl, rfl⟩, by simp⟩
      · exact absurd hr hresp
  · exact hI.working_of_thread ht

/-- A main thread between its start and its end is never stuck. -/
theorem FilesizeInv.working_of_running (S : AllSound arith n colls) (hc : colls[i]? = some c)
    (hm : (s.control i).main.Running) : Working arith n colls s := by
  have hS := S c (List.mem_of_getElem? hc)
  cases hI.control i c hc with
  | idle hr => exact absurd (by rw [hr]) hm.1
  | finished _ _ hf => exact absurd hf hm.2
  | alone st hn hp hw hx ho =>
    rcases ho with ⟨_, ht⟩ | ⟨ht, hr | hg⟩
    · exact hI.working_of_thread ht
    · exact ⟨.read i, _, step_read.mpr ⟨hI.fault, c, hc, hr, rfl⟩, by simp⟩
    · exact ⟨.finish i, _, step_finish.mpr ⟨hI.fault, c, _, hc, hg, rfl⟩, by simp⟩
  | sending st hn hp hx hw ho =>
    rcases ho with ⟨_, ht⟩ | ⟨hr, _⟩
    · exact hI.working_of_thread ht
    · exact ⟨.wait i, _, step_wait.mpr ⟨hI.fault, c, hc, hr, rfl⟩, by simp⟩
  | waiting st hn hp ht hmain ho =>
    rcases ho with ⟨hx, hw⟩ | ⟨_, _, hw⟩
    · cases hfull : st.full with
      | true =>
        rw [hfull, if_pos rfl] at hw
        exact ⟨.wakeLock i, _, step_wakeLock.mpr ⟨hI.fault, hw, hx, rfl⟩, by simp⟩
      | false =>
        -- the response that is missing is under way
        have hat : (⟨i, []⟩ : Handle).At arith n colls c c.root := at_root hc
        cases hI.parts.ok _ _ _ hat with
        | before hf =>
          rw [hf.eq] at hp
          simp at hp
        | active st' _ _ hA =>
          obtain ⟨j, w, hj, hreq, hresp⟩ := hI.open_kid hat hA ht
          have hatj := at_child_iff.mpr ⟨c.root, hat, hj⟩
          exact hI.working_below hS (hatj.mem_nodes hS) _ hatj hreq hresp
        | done _ _ _ _ hD =>
          cases hD with
          | root st' _ hp' _ hfull' =>
            obtain rfl : st = st' := Cell.live.inj (hp.symm.trans hp')
            simp [hfull] at hfull'
          | rootFreed _ hp' => simp [hp] at hp'
          | holding _ hne | released hne => exact absurd rfl hne
    · exact ⟨.wakeSignal i (some i), _, step_wakeSignal.mpr
        ⟨hI.fault, hw, Or.inl ⟨i, rfl, hmain, rfl⟩⟩, by simp⟩
  | woken st hn hp ht hf hmain ho =>
    rcases ho with ⟨_, hw⟩ | ⟨hx, _⟩
    · exact ⟨.wakeUnlock i, _, step_wakeUnlock.mpr ⟨hI.fault, hw, rfl⟩, by simp⟩
    · exact ⟨.reacquire i, _, step_reacquire.mpr ⟨hI.fault, c, i, hc, hmain, hx, rfl⟩, by simp⟩
  | got st hn hp ht hf hmain hx hw =>
    exact ⟨.finish i, _, step_finish.mpr ⟨hI.fault, c, _, hc, hmain, rfl⟩, by simp⟩

/-- Where no step is left, every collective that has started has finished, and all records
have been freed. -/
theorem FilesizeInv.idle (S : AllSound arith n colls) (hstuck : ¬ Working arith n colls s)
    (hat : h.At arith n colls c v) (hp : (s.part h).cell ≠ .unallocated) :
    (s.control h.call).main = .finished ∧ (s.part h).cell = .freed := by
  have hm : (s.control h.call).main = .finished := by
    by_contra hne
    exact hstuck (hI.working_of_running S hat.1 ⟨hI.started hat (Or.inr hp), hne⟩)
  refine ⟨hm, ?_⟩
  obtain ⟨-, hD, hserved⟩ := hI.finished_parts (i := h.call) (p := h.path) hm hat
  cases hD with
  | root st hh hlive =>
    have hfreed := hI.finished_root hat.1 hm
    rw [← hh] at hfreed
    exact hfreed
  | rootFreed _ hf | released _ hf => exact hf
  | holding st hh hlive _ _ hrel =>
    have hs : FilesizeStep arith n colls s (.release h) _ := step_release.mpr
      ⟨hI.fault, c.reply, hrel, fun _ dst msg hr => by simp [hserved hh] at hr, rfl⟩
    exact absurd ⟨_, _, hs, by simp⟩ hstuck

end Facts

/-! ## The length of a run -/

/-- No part and no main thread goes back. -/
structure Advances (n : ℤ) (s u : FilesizeNet) : Prop where
  parts : ∀ h, (s.part h).level n ≤ (u.part h).level n
  controls : ∀ i, (s.control i).level ≤ (u.control i).level

/-- One of them gets further, too. -/
structure Rises (arith : ℤ → ℤ) (n : ℤ) (colls : List Collective) (s u : FilesizeNet) : Prop
    extends Advances n s u where
  strict : (∃ h c v, h.At arith n colls c v ∧ (s.part h).level n < (u.part h).level n) ∨
    ∃ i < colls.length, (s.control i).level < (u.control i).level

theorem Rises.trans (hr : Rises arith n colls s t) (ha : Advances n t u) :
    Rises arith n colls s u := by
  refine ⟨⟨fun h => (hr.parts h).trans (ha.parts h),
    fun i => (hr.controls i).trans (ha.controls i)⟩, ?_⟩
  rcases hr.strict with ⟨h, c, v, hat, hlt⟩ | ⟨i, hi, hlt⟩
  · exact Or.inl ⟨h, c, v, hat, hlt.trans_le (ha.parts h)⟩
  · exact Or.inr ⟨i, hi, hlt.trans_le (ha.controls i)⟩

theorem Rises.log (hr : Rises arith n colls s u) (e : FilesizeEvent) :
    Rises arith n colls s (u.log e) :=
  ⟨⟨hr.parts, hr.controls⟩, hr.strict⟩

theorem Rises.setGlbSt (hr : Rises arith n colls s u) (rank : ℤ) (x : Option Handle) :
    Rises arith n colls s (u.setGlbSt rank x) := ⟨⟨hr.parts, hr.controls⟩, hr.strict⟩

theorem advances_modify {f : Part → Part} (hle : (s.part h).level n ≤ (f (s.part h)).level n) :
    Advances n s (s.modify h f) := by
  refine ⟨fun g => ?_, fun _ => le_rfl⟩
  rw [FilesizeNet.part_modify]
  split_ifs with hg
  · rw [hg]
    exact hle
  · rfl

theorem advances_setControl {f : RootControl → RootControl}
    (hle : (s.control i).level ≤ (f (s.control i)).level) : Advances n s (s.setControl i f) := by
  refine ⟨fun _ => le_rfl, fun k => ?_⟩
  rw [FilesizeNet.control_setControl]
  split_ifs with hk
  · rw [hk]
    exact hle
  · rfl

theorem rises_modify {f : Part → Part} (hat : h.At arith n colls c v)
    (hlt : (s.part h).level n < (f (s.part h)).level n) : Rises arith n colls s (s.modify h f) := by
  refine ⟨advances_modify hlt.le, Or.inl ⟨h, c, v, hat, ?_⟩⟩
  rwa [FilesizeNet.part_modify, if_pos rfl]

theorem rises_setControl {f : RootControl → RootControl} (hc : colls[i]? = some c)
    (hlt : (s.control i).level < (f (s.control i)).level) :
    Rises arith n colls s (s.setControl i f) := by
  refine ⟨advances_setControl hlt.le, Or.inr ⟨i, (List.getElem?_eq_some_iff.mp hc).1, ?_⟩⟩
  rwa [FilesizeNet.control_setControl, if_pos rfl]

theorem rises_create {m : Message FilesizeRequestIn} (hat : h.At arith n colls c v)
    (hp : s.part h = { request := m })
    (hm : m = .unused ∧ h.path = [] ∨ m.level ≤ 2 ∧ h.path ≠ []) :
    Rises arith n colls s (create arith n s h c v) := by
  refine (rises_modify hat ?_).trans
    (t := s.modify h fun _ => createdPart arith n c v h) ⟨fun g => ?_,
    fun _ => le_rfl⟩
  · rw [hp]
    rcases hm with ⟨rfl, hh⟩ | ⟨hm, hh⟩
    · simp [createdPart, Part.level, Part.threadLevel, Message.level, Cell.level, hh]
    · cases m <;> simp_all [createdPart, Part.level, Part.threadLevel, Message.level, Cell.level]
  · rw [part_create hp, FilesizeNet.part_modify]

/-- The response of child `j` is taken. -/
theorem rises_served {m : FilesizeResponseIn} (hat : (h.child j).At arith n colls c w)
    (hr : (s.part (h.child j)).response = .accepted v m) (e : FilesizeEvent) :
    Rises arith n colls s
    ((s.modify (h.child j) fun p => { p with response := .served }).log e) := by
  refine (rises_modify hat ?_).log e
  simp [Part.level, Part.threadLevel, hr, Message.level]

theorem rises_of_move (S : AllSound arith n colls) (hI : FilesizeInv arith n colls s)
    (hm : Move arith n colls s a u) : Rises arith n colls s u := by
  cases hm with
  | control hc _ _ _ hlt => exact rises_setControl hc hlt
  | silent hat _ _ _ _ _ hlt => exact rises_modify hat hlt
  | @start i c hc hidle hp =>
    refine (rises_create (v := c.root) (at_root hc) hp (Or.inl ⟨rfl, rfl⟩)).trans
      (advances_setControl ?_)
    have hcontrol : (create arith n s ⟨i, []⟩ c c.root).control i = {} := (hI.idle_root hc hidle).1
    rw [hcontrol]
    exact Nat.zero_le _
  | alloc hat hh hp => exact rises_create hat hp (Or.inr ⟨by simp [Message.level], hh⟩)
  | @forward _ h c v w F st hat hF _ _ hw hj _ _ _ hkid =>
    have hself : (s.modify (h.child F.next) fun p =>
        { p with request := .sent w (requestTo arith n c w) }).part h = s.part h := by
      rw [FilesizeNet.part_modify, if_neg (h.child_ne F.next).symm]
    refine (rises_modify (at_child_iff.mpr ⟨v, hat, hj⟩) ?_).trans (advances_modify ?_)
    · rw [hkid]
      simp [Part.level, Part.threadLevel, Message.level]
    · rw [hself]
      simp only [Part.level, Part.threadLevel, hF]
      split_ifs <;> simp_all
  | leaf hat _ hF _ hnext hw _ hA =>
    refine (rises_modify hat ?_).log _
    simp [Part.level, Part.threadLevel, hF, hw, hnext, hA.cell, hA.response, respondPart,
      Message.level, Cell.level]
  | @endRoot _ i c F hc hn hF hw hnext hmain =>
    have hat : (⟨i, []⟩ : Handle).At arith n colls c c.root := at_root hc
    have hlen := length_kids_le (S.at_ hat) (hat.mem_nodes (S.at_ hat))
    have hcell := hI.cell_of_thread hat (by simp [hF])
    refine (rises_modify hat ?_).trans (advances_setControl ?_)
    · simp only [Part.level, Part.threadLevel, hF, hw, hcell, Bool.false_eq_true, if_false]
      omega
    · simp [RootControl.level, MainPc.level, hmain]
  | endAlone hc _ hF hnext hw hmain _ hA =>
    refine (rises_modify (at_root hc) ?_).trans (advances_setControl ?_)
    · simp [Part.level, Part.threadLevel, hF, hw, hnext, hA.cell, Cell.level]
    · simp [RootControl.level, MainPc.level, hmain]
  | @apply _ h c v w j st hat hj hr hA =>
    refine (rises_served (at_child_iff.mpr ⟨v, hat, hj⟩) hr _).trans (advances_modify ?_)
    rw [FilesizeNet.part_log, FilesizeNet.part_modify, if_neg (h.child_ne j).symm]
    simp [Part.level, Part.threadLevel, hA.cell, Cell.level]
  | @applyLast _ h c v w j st hat _ hj hr hA =>
    refine ((rises_served (at_child_iff.mpr ⟨v, hat, hj⟩) hr _).trans (advances_modify ?_)).log _
    rw [FilesizeNet.part_log, FilesizeNet.part_modify, if_neg (h.child_ne j).symm]
    simp [Part.level, Part.threadLevel, respondPart, hA.cell, hA.response, Cell.level,
      Message.level]
  | @applyRoot _ i c w j st hc hj hr hA hlast =>
    have hat : (⟨i, []⟩ : Handle).At arith n colls c c.root := at_root hc
    have hopen := hA.not_full (S.at_ hat) (hat.mem_nodes (S.at_ hat)) (by omega)
    refine ((rises_served (at_child_iff.mpr ⟨c.root, hat, hj⟩) hr _).trans
      (advances_modify ?_)).trans (advances_setControl ?_)
    · rw [FilesizeNet.part_log, FilesizeNet.part_modify, if_neg (Handle.child_ne ⟨i, []⟩ j).symm]
      simp [Part.level, Part.threadLevel, hA.cell, Cell.level]
    · have hwake : (s.control i).wake = .idle := (hI.control i c hc).wake_idle hA.cell hopen
      simp [RootControl.level, hwake, WakePc.level]
  | release hat _ hp =>
    refine (rises_modify hat ?_).log _
    simp [Part.level, Part.threadLevel, hp, Cell.level]
  | finish hc hp ht _ _ hmain =>
    refine (((rises_setControl hc ?_).trans (advances_modify ?_)).setGlbSt _ _).log _ |>.log _
    · simp [RootControl.level, MainPc.level, hmain]
    · rw [FilesizeNet.part_setControl]
      simp [Part.level, Part.threadLevel, hp, ht, Cell.level]

/-- How far all parts and all main threads are together. -/
noncomputable def progress (arith : ℤ → ℤ) (n : ℤ) (colls : List Collective) (s : FilesizeNet) :
    ℕ :=
  (∑ q ∈ Finset.range colls.length ×ˢ Finset.Ico 0 n,
      (s.part (handleOf arith n colls q)).level n) +
    ∑ i ∈ Finset.range colls.length, (s.control i).level

theorem progress_of_rises (S : AllSound arith n colls) (hr : Rises arith n colls s u) :
    progress arith n colls s < progress arith n colls u := by
  have hparts := Finset.sum_le_sum fun q
    (_ : q ∈ Finset.range colls.length ×ˢ Finset.Ico 0 n) => hr.parts (handleOf arith n colls q)
  have hcontrols := Finset.sum_le_sum fun i (_ : i ∈ Finset.range colls.length) => hr.controls i
  rcases hr.strict with ⟨h, c, v, hat, hlt⟩ | ⟨i, hi, hlt⟩
  · have hS := S.at_ hat
    refine Nat.add_lt_add_of_lt_of_le (Finset.sum_lt_sum (fun q _ => hr.parts _)
      ⟨(h.call, v), ?_, ?_⟩) hcontrols
    · exact Finset.mem_product.mpr ⟨Finset.mem_range.mpr (List.getElem?_eq_some_iff.mp hat.1).1,
        hat.mem_nodes hS⟩
    · rwa [handleOf_at hS hat]
  · exact Nat.add_lt_add_of_le_of_lt hparts (Finset.sum_lt_sum (fun i _ => hr.controls i)
      ⟨i, Finset.mem_range.mpr hi, hlt⟩)

theorem part_level_le (S : AllSound arith n colls) (hI : FilesizeInv arith n colls s) (h : Handle) :
    (s.part h).level n ≤ 2 * n.toNat + 10 := by
  have hreq : (s.part h).request.level ≤ 3 := by cases (s.part h).request <;> simp [Message.level]
  have hcell : (s.part h).cell.level ≤ 2 := by cases (s.part h).cell <;> simp [Cell.level]
  have hresp : (s.part h).response.level ≤ 3 := by
    cases (s.part h).response <;> simp [Message.level]
  have hthread : (s.part h).threadLevel n ≤ 2 * n.toNat + 2 := by
    cases ht : (s.part h).thread with
    | none =>
      simp only [Part.threadLevel, ht]
      split_ifs <;> omega
    | some F =>
      obtain ⟨c, v, hat, -, -, hle, -⟩ := hI.thread ht
      have hlen := length_kids_le (S.at_ hat) (hat.mem_nodes (S.at_ hat))
      simp only [Part.threadLevel, ht]
      rw [ForwardFrame.reached] at hle
      split_ifs at hle ⊢ <;> omega
  unfold Part.level
  omega

theorem control_level_le (r : RootControl) : r.level ≤ 11 := by
  have hmain : r.main.level ≤ 7 := by cases r.main <;> simp [MainPc.level]
  have hwake : r.wake.level ≤ 4 := by cases r.wake <;> simp [WakePc.level]
  unfold RootControl.level
  omega

theorem progress_le (S : AllSound arith n colls) (hI : FilesizeInv arith n colls s) :
    progress arith n colls s ≤ colls.length * (n.toNat * (2 * n.toNat + 10) + 11) := by
  have hparts := Finset.sum_le_card_nsmul (Finset.range colls.length ×ˢ Finset.Ico 0 n)
    (fun q => (s.part (handleOf arith n colls q)).level n) _ fun q _ => part_level_le S hI _
  have hcontrols := Finset.sum_le_card_nsmul (Finset.range colls.length)
    (fun i => (s.control i).level) _ fun i _ => control_level_le _
  rw [Finset.card_product, Finset.card_range, Int.card_Ico, sub_zero, smul_eq_mul] at hparts
  rw [Finset.card_range, smul_eq_mul] at hcontrols
  calc progress arith n colls s ≤ colls.length * n.toNat * (2 * n.toNat + 10) + colls.length * 11 :=
        Nat.add_le_add hparts hcontrols
    _ = colls.length * (n.toNat * (2 * n.toNat + 10) + 11) := by ring

end Metasim
