import Metasim.FilesizeRuns
import Metasim.Lib.Served

/-! The filesize collectives as a service to the main thread of rank 0, which starts them one after
the other. -/
namespace Metasim

open Transition Served

/-- The `filesize` that the main thread has got from collective `i`. -/
def FilesizeNet.completed (s : FilesizeNet) (i : ℕ) : Option ℕ :=
  s.events.findSome? fun
    | .complete j filesize => if j = i then some filesize else none
    | _ => none

/-- A collective is started when those before it have finished. -/
def filesizeService (arith : ℤ → ℤ) (n : ℤ) (colls : List Collective) :
    Service FilesizeNet FilesizeLabel ℕ where
  start := FilesizeNet.start
  step := inTurnStep arith n colls
  begins
    | .start i => some i
    | _ => none
  answer := FilesizeNet.completed
  needs i j := j < i

variable {arith : ℤ → ℤ} {n v : ℤ} {colls : List Collective} {c : Collective} {s u : FilesizeNet}
  {xs : List FilesizeLabel} {a : FilesizeLabel} {i m : ℕ} {h : Handle}

theorem filesize_begins_none (ha : ∀ i, a ≠ .start i) :
    (filesizeService arith n colls).begins a = none := by
  cases a <;> simp_all [filesizeService]

theorem filesize_begun_iff : (filesizeService arith n colls).Begun xs i ↔ .start i ∈ xs := by
  constructor
  · rintro ⟨a, ha, hi⟩
    cases a <;> simp_all [filesizeService]
  · intro h
    exact ⟨_, h, rfl⟩

theorem filesize_run (hrun : (filesizeService arith n colls).Run xs s) :
    Trace (InTurnStep arith n colls) FilesizeNet.start xs s :=
  mono (fun _ _ _ => inTurnStep_eq_some.mp) hrun

/-! ## The start and the end of a collective -/

theorem complete_of_completed (hm : s.completed i = some m) : .complete i m ∈ s.events := by
  obtain ⟨e, he, hem⟩ := List.exists_of_findSome?_eq_some hm
  cases e with
  | complete j filesize =>
    simp only [Option.ite_none_right_eq_some, Option.some.injEq] at hem
    obtain ⟨rfl, rfl⟩ := hem
    exact he
  | _ => cases hem

theorem completed_of_complete (he : .complete i m ∈ s.events) : ∃ m', s.completed i = some m' :=
  Option.isSome_iff_exists.mp (List.findSome?_isSome_iff.mpr ⟨_, he, by simp⟩)

/-- Its main thread has an answer from a collective exactly when it is through with it. -/
theorem RunInv.completed_iff (hI : RunInv arith n colls s) (hc : colls[i]? = some c) :
    (∃ m, s.completed i = some m) ↔ (s.control i).main = .finished := by
  constructor
  · rintro ⟨m, hm⟩
    exact ((hI.log.records.mem_iff _).mp (complete_of_completed hm)).2
  · intro hfinished
    exact completed_of_complete ((hI.log.records.mem_iff _).mpr ⟨⟨c, hc, rfl⟩, hfinished⟩)

theorem RunInv.completed_eq (S : AllSound arith n colls) (hI : RunInv arith n colls s)
    (hm : s.completed i = some m) : i < colls.length ∧ (m : ℤ) = 100 * (n - 1) := by
  obtain ⟨c, hc, -, hmax⟩ := hI.completed S (complete_of_completed hm)
  exact ⟨(List.getElem?_eq_some_iff.mp hc).1, hmax⟩

/-- A main thread that has left its start does not come back to it. -/
theorem RunInv.started_move (S : AllSound arith n colls) (hI : RunInv arith n colls s)
    (hu : FilesizeInv arith n colls u) (hm : Move arith n colls s a u)
    (hstarted : (s.control i).main ≠ .idle) :
    (u.control i).main ≠ .idle := by
  intro hidle
  cases hc : colls[i]? with
  | none => exact hstarted (by rw [hI.net.noControl i hc])
  | some c =>
    have hle := (rises_of_move S hI.net hm).controls i
    rw [(hu.idle_root hc hidle).1] at hle
    cases hmain : (s.control i).main with
    | idle => exact hstarted hmain
    | _ => simp [RootControl.level, MainPc.level, WakePc.level, hmain] at hle

theorem finished_move (hm : Move arith n colls s a u)
    (hfinished : (s.control i).main = .finished) : (u.control i).main = .finished := by
  rcases main_of_move hm i with heq | hrunning | ⟨-, hidle⟩
  · rw [heq, hfinished]
  · exact absurd hfinished hrunning.2
  · simp [hfinished] at hidle

section Run

variable (S : AllSound arith n colls) (hroot : ∀ c ∈ colls, c.root = 0)
include S hroot

theorem started_iff (hrun : (filesizeService arith n colls).Run xs s) :
    .start i ∈ xs ↔ (s.control i).main ≠ .idle := by
  induction hrun with
  | refl =>
    constructor
    · intro h
      cases h
    · intro h
      exact absurd rfl h
  | @snoc xs s u a hrun hs ih =>
    obtain ⟨-, hI, ho⟩ := inTurn_trace S hroot (filesize_run hrun)
    obtain ⟨hstep, hturn⟩ := inTurnStep_eq_some.mp hs
    have hm := move_of_step S hI.net hstep
    have hu := (runInv_step S hI hstep (quiet_of_inTurn S hroot hI.net ho hstep hturn)).net
    rw [List.mem_append, List.mem_singleton, ih]
    constructor
    · rintro (hstarted | rfl)
      · exact hI.started_move S hu hm hstarted
      · obtain ⟨-, c, -, -, rfl⟩ := step_start.mp hstep
        simp [FilesizeNet.control_setControl]
    · intro hstarted
      rcases main_of_move hm i with heq | hrunning | ⟨rfl, -⟩
      · exact Or.inl (heq ▸ hstarted)
      · exact Or.inl hrunning.1
      · exact Or.inr rfl

theorem filesizeService_reliable : (filesizeService arith n colls).Reliable colls.length
    (colls.length * (n.toNat * (2 * n.toNat + 10) + 11)) := by
  constructor
  · intro xs s i hrun hi hnot hready
    obtain ⟨-, hI, -⟩ := inTurn_trace S hroot (filesize_run hrun)
    rw [filesize_begun_iff, started_iff S hroot hrun, not_not] at hnot
    have hs : FilesizeStep arith n colls s (.start i) _ :=
      step_start.mpr ⟨hI.net.fault, _, List.getElem?_eq_getElem hi, hnot, rfl⟩
    refine ⟨.start i, _, rfl, inTurnStep_eq_some.mpr ⟨hs, fun k hk => ?_⟩⟩
    have hc : colls[k]? = some colls[k] := List.getElem?_eq_getElem (hk.trans hi)
    exact (hI.completed_iff hc).mp (hready k hk)
  · intro xs s i hrun hi hbegun hnone
    obtain ⟨-, hI, -⟩ := inTurn_trace S hroot (filesize_run hrun)
    rw [filesize_begun_iff, started_iff S hroot hrun] at hbegun
    have hc : colls[i]? = some colls[i] := List.getElem?_eq_getElem hi
    have hopen : (s.control i).main ≠ .finished := by
      intro hfinished
      obtain ⟨m, hm⟩ := (hI.completed_iff hc).mpr hfinished
      have hm' : (filesizeService arith n colls).answer s i = some m := hm
      simp [hm'] at hnone
    obtain ⟨a, u, hs, ha⟩ := hI.net.working_of_running S hc ⟨hbegun, hopen⟩
    refine ⟨a, u, filesize_begins_none ha, inTurnStep_eq_some.mpr ⟨hs, ?_⟩⟩
    cases a with
    | start i => exact absurd rfl (ha i)
    | _ => trivial
  · intro xs s a u i m hrun hs hm
    obtain ⟨-, hI, ho⟩ := inTurn_trace S hroot (filesize_run hrun)
    obtain ⟨hstep, hturn⟩ := inTurnStep_eq_some.mp hs
    have hu := runInv_step S hI hstep (quiet_of_inTurn S hroot hI.net ho hstep hturn)
    obtain ⟨hi, hmax⟩ := hI.completed_eq S hm
    have hc : colls[i]? = some colls[i] := List.getElem?_eq_getElem hi
    have hfinished := finished_move (move_of_step S hI.net hstep)
      ((hI.completed_iff hc).mp ⟨m, hm⟩)
    obtain ⟨m', hm'⟩ := (hu.completed_iff hc).mpr hfinished
    obtain rfl : m = m' := by
      have hmax' := (hu.completed_eq S hm').2
      omega
    exact hm'
  · intro xs s hrun
    have hle : xs.length ≤ progress arith n colls s := by
      refine length_le_measure (I := fun s => RunInv arith n colls s ∧ InOrder s)
        ⟨runInv_start, fun k hk => absurd rfl hk⟩ ?_ ?_ (filesize_run hrun)
      · rintro s a u ⟨hI, ho⟩ ⟨hs, ht⟩
        exact ⟨runInv_step S hI hs (quiet_of_inTurn S hroot hI.net ho hs ht),
          inOrder_move ho (move_of_step S hI.net hs) ht⟩
      · rintro s a u ⟨hI, -⟩ ⟨hs, -⟩
        exact progress_of_rises S (rises_of_move S hI.net (move_of_step S hI.net hs))
    obtain ⟨-, hI, -⟩ := inTurn_trace S hroot (filesize_run hrun)
    exact hle.trans (progress_le S hI.net)

end Run

/-- Nothing happens before a collective is started. -/
theorem start_first (hrun : (filesizeService arith n colls).Run xs s) (ha : a ∈ xs) :
    ∃ i, .start i ∈ xs := by
  have hfirst : xs = [] ∧ s = FilesizeNet.start ∨ ∃ i, .start i ∈ xs := by
    clear ha
    induction hrun with
    | refl => exact Or.inl ⟨rfl, rfl⟩
    | @snoc xs s u a hrun hs ih =>
      refine Or.inr ?_
      rcases ih with ⟨rfl, rfl⟩ | ⟨i, hi⟩
      · obtain ⟨hstep, -⟩ := inTurnStep_eq_some.mp hs
        cases a with
        | start i => exact ⟨i, List.mem_singleton_self _⟩
        | _ => simp [FilesizeStep, filesizeStep, filesizeMove, FilesizeNet.start] at hstep
      · exact ⟨i, List.mem_append_left _ hi⟩
  rcases hfirst with ⟨rfl, -⟩ | h
  · cases ha
  · exact h

/-! ## When all collectives are over -/

section Over

variable (hI : RunInv arith n colls s) (hover : ∀ i, (s.control i).main ≠ .idle →
  (s.control i).main = .finished)
include hI hover

theorem RunInv.over (hat : h.At arith n colls c v) (hp : (s.part h).request ≠ .unused ∨
    (s.part h).cell ≠ .unallocated) : (s.control h.call).main = .finished :=
  hover _ (hI.net.started hat hp)

/-- A record is answered for. -/
theorem RunInv.record_over (hat : h.At arith n colls c v) (hp : (s.part h).request ≠ .unused ∨
    (s.part h).cell ≠ .unallocated) : Requested h (s.part h) ∧
      RecordDone arith n c v h (s.part h) ∧ (h.path ≠ [] → (s.part h).response = .served) := by
  have hfinished := hI.over hover hat hp
  obtain ⟨-, hD, hserved⟩ := hI.net.finished_parts (i := h.call) (p := h.path) hfinished hat
  refine ⟨?_, hD, hserved⟩
  cases hI.net.parts.ok h c v hat with
  | before hf =>
    have hcell : (s.part h).cell = .unallocated := by rw [hf.eq]
    cases hD <;> simp_all
  | active _ hreq | done hreq => exact hreq

/-- No message is on its way. -/
theorem RunInv.delivered (h : Handle) :
    ((s.part h).request = .unused ∨ (s.part h).request = .served) ∧
      ((s.part h).response = .unused ∨ (s.part h).response = .served) := by
  by_cases hat : ∃ c v, h.At arith n colls c v
  · obtain ⟨c, v, hat⟩ := hat
    by_cases hp : (s.part h).request ≠ .unused ∨ (s.part h).cell ≠ .unallocated
    · obtain ⟨hreq, hD, hserved⟩ := hI.record_over hover hat hp
      constructor
      · rw [hreq]
        split_ifs
        · exact Or.inl rfl
        · exact Or.inr rfl
      · cases hD with
        | root _ _ _ _ _ _ hresp | rootFreed _ _ hresp => exact Or.inl hresp
        | holding _ hne | released hne => exact Or.inr (hserved hne)
    · simp only [not_or, not_not] at hp
      cases hI.net.parts.ok h c v hat with
      | before hf => exact ⟨Or.inl hp.1, Or.inl (by rw [hf.eq])⟩
      | active _ _ _ hA => simp [hA.cell] at hp
      | done _ _ _ _ hD => cases hD <;> simp_all
  · simp only [not_exists] at hat
    rw [hI.net.parts.elsewhere h hat]
    exact ⟨Or.inl rfl, Or.inl rfl⟩

/-- Neither `main` nor the thread that wakes it has anything left to do. -/
theorem RunInv.control_over (i : ℕ) :
    (s.control i).main = .idle ∧ (s.control i).wake = .idle ∨ (s.control i).main = .finished ∧
      ((s.control i).wake = .done ∨ (s.control i).wake = .idle) := by
  cases hc : colls[i]? with
  | none =>
    rw [hI.net.noControl i hc]
    exact Or.inl ⟨rfl, rfl⟩
  | some c =>
    by_cases hidle : (s.control i).main = .idle
    · rw [(hI.net.idle_root hc hidle).1]
      exact Or.inl ⟨rfl, rfl⟩
    · have hfinished := hover i hidle
      refine Or.inr ⟨hfinished, ?_⟩
      cases hI.net.control i c hc with
      | finished _ _ _ _ hw =>
        rw [hw]
        split_ifs
        · exact Or.inl rfl
        · exact Or.inr rfl
      | idle hr => simp [hr] at hfinished
      | alone _ _ _ _ _ ho => rcases ho with ⟨h1, _⟩ | ⟨_, h1 | h1⟩ <;> simp [hfinished] at h1
      | sending _ _ _ _ _ ho => rcases ho with ⟨h1, _⟩ | ⟨h1, _⟩ <;> simp [hfinished] at h1
      | waiting _ _ _ _ h1 | woken _ _ _ _ _ h1 | got _ _ _ _ _ h1 => simp [hfinished] at h1

/-- No thread has a child left to send to. -/
theorem RunInv.no_forward (h : Handle) (hs : FilesizeStep arith n colls s (.forward h) u) :
    False := by
  obtain ⟨-, F, hF, hw, hlt, -⟩ := step_forward.mp hs
  obtain ⟨c, v, hat, -, hcount, -, hsent, -⟩ := hI.net.thread hF
  have hcell := hI.net.cell_of_thread hat (by simp [hF])
  obtain ⟨hserved, -⟩ := hI.net.finished_parts (i := h.call) (p := h.path)
    (hI.over hover hat (Or.inr hcell)) hat
  have hsub := hI.net.parts.servedKids_subset hat
  have hreached : F.reached = F.next := by simp [ForwardFrame.reached, hw]
  rw [hserved, hsent, hreached, Finset.range_subset_range] at hsub
  omega

/-- What can still happen is that threads return, and free their records. -/
theorem RunInv.trailing (hs : FilesizeStep arith n colls s a u) (ha : ∀ i, a ≠ .start i) :
    ∃ h, a = .returned h ∨ a = .endForward h ∨ a = .release h := by
  have hcontrol := hI.control_over hover
  cases a with
  | start i => exact absurd rfl (ha i)
  | returned h => exact ⟨h, Or.inl rfl⟩
  | endForward h => exact ⟨h, Or.inr (Or.inl rfl)⟩
  | release h => exact ⟨h, Or.inr (Or.inr rfl)⟩
  | forward h => exact (hI.no_forward hover h hs).elim
  | accept h =>
    obtain ⟨-, dst, msg, hr, -⟩ := step_accept.mp hs
    rcases (hI.delivered hover h).1 with hd | hd <;> simp [hr] at hd
  | alloc h =>
    obtain ⟨-, dst, msg, hr, -⟩ := step_alloc.mp hs
    rcases (hI.delivered hover h).1 with hd | hd <;> simp [hr] at hd
  | acceptResponse h =>
    obtain ⟨-, dst, msg, hr, -⟩ := step_acceptResponse.mp hs
    rcases (hI.delivered hover h).2 with hd | hd <;> simp [hr] at hd
  | apply h =>
    obtain ⟨-, dst, msg, t, hr, -⟩ := step_apply.mp hs
    rcases (hI.delivered hover h).2 with hd | hd <;> simp [hr] at hd
  | wakeLock i =>
    obtain ⟨-, hw, -⟩ := step_wakeLock.mp hs
    rcases hcontrol i with ⟨-, hw'⟩ | ⟨-, hw' | hw'⟩ <;> simp [hw] at hw'
  | wakeSignal i =>
    obtain ⟨-, hw, -⟩ := step_wakeSignal.mp hs
    rcases hcontrol i with ⟨-, hw'⟩ | ⟨-, hw' | hw'⟩ <;> simp [hw] at hw'
  | wakeUnlock i =>
    obtain ⟨-, hw, -⟩ := step_wakeUnlock.mp hs
    rcases hcontrol i with ⟨-, hw'⟩ | ⟨-, hw' | hw'⟩ <;> simp [hw] at hw'
  | wait i =>
    obtain ⟨-, c, -, hm, -⟩ := step_wait.mp hs
    rcases hcontrol i with ⟨hm', -⟩ | ⟨hm', -⟩ <;> simp [hm] at hm'
  | reacquire i =>
    obtain ⟨-, c, k, -, hm, -⟩ := step_reacquire.mp hs
    rcases hcontrol i with ⟨hm', -⟩ | ⟨hm', -⟩ <;> simp [hm] at hm'
  | read i =>
    obtain ⟨-, c, -, hm, -⟩ := step_read.mp hs
    rcases hcontrol i with ⟨hm', -⟩ | ⟨hm', -⟩ <;> simp [hm] at hm'
  | finish i =>
    obtain ⟨-, c, k, -, hm, -⟩ := step_finish.mp hs
    rcases hcontrol i with ⟨hm', -⟩ | ⟨hm', -⟩ <;> simp [hm] at hm'

end Over

end Metasim
