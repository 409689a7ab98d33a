import Metasim.FilesizeRuns

/-! The main thread of a collective waits without a loop around `ABT_cond_wait`: the signal
must not come before the wait. -/
namespace Metasim

open Transition

variable {arith : ℤ → ℤ} {n : ℤ} {colls : List Collective} {c : Collective} {s u : FilesizeNet}
    {i j : ℕ}

/-- Main has come back from waiting for its collective, or had none to wait for. -/
def Resumed (i : ℕ) (m : MainPc) : Prop := m = .woken i ∨ m = .awake ∨ ∃ size, m = .got size

/-- Main is inside `filesize_response_forward`, called for want of children, and is to lock
the mutex of its own record. -/
def LocksItself (n : ℤ) (s : FilesizeNet) (i : ℕ) : Prop :=
  ∃ F, (s.part ⟨i, []⟩).thread = some F ∧ F.childCount = 0 ∧ 1 < n

/-- How the main thread of collective `i` and the handler that completes its record meet. -/
structure WakeOk (n : ℤ) (s : FilesizeNet) (i : ℕ) : Prop where
  waits_for_own : ∀ k, (s.control i).main = .waiting k ∨ (s.control i).main = .woken k → k = i
  waiting_of_signal : (s.control i).wake = .signal → (s.control i).main = .waiting i
  signal_pending : ∀ st, (s.control i).main = .waiting i → (s.part ⟨i, []⟩).cell = .live st →
    st.full = true → (s.control i).wake = .lock ∨ (s.control i).wake = .signal
  not_locksItself : ¬ LocksItself n s i
  free_of_woken : (s.control i).main = .woken i → (s.control i).mutex ≠ some (.main i)
  final_of_resumed : Resumed i (s.control i).main → ∃ st, (s.part ⟨i, []⟩).cell = .live st ∧
    st.numResponses = st.tree.childCount ∧ (st.filesize : ℤ) = 100 * (n - 1) ∧
    ∀ size, (s.control i).main = .got size → size = st.filesize

section Facts

variable (S : AllSound arith n colls) (hI : FilesizeInv arith n colls s) (hc : colls[i]? = some c)
include hI hc

theorem main_waits_for_own {k : ℕ}
    (h : (s.control i).main = .waiting k ∨ (s.control i).main = .woken k) : k = i := by
  cases hI.control i c hc with
  | idle hr => simp [hr] at h
  | alone _ _ _ _ _ ho => rcases ho with ⟨h1, _⟩ | ⟨_, h1 | h1⟩ <;> simp [h1] at h
  | sending _ _ _ _ _ ho => rcases ho with ⟨h1, _⟩ | ⟨h1, _⟩ <;> simp [h1] at h
  | got _ _ _ _ _ h1 | finished _ _ h1 => simp [h1] at h
  | waiting _ _ _ _ h1 | woken _ _ _ _ _ h1 =>
    rw [h1] at h
    simp only [MainPc.waiting.injEq, MainPc.woken.injEq, reduceCtorEq, or_false, false_or] at h
    exact h.symm

theorem FilesizeInv.cell_of_waiting (h : (s.control i).main = .waiting i) :
    ∃ st, (s.part ⟨i, []⟩).cell = .live st := by
  cases hI.control i c hc with
  | idle hr => simp [hr] at h
  | finished _ _ h1 => simp [h1] at h
  | alone st _ hp | sending st _ hp | waiting st _ hp | woken st _ hp | got st _ hp =>
    exact ⟨st, hp⟩

/-- The mutex is held by main until it waits, so the handler does not get to its signal. -/
theorem waiting_of_signal (h : (s.control i).wake = .signal) :
    (s.control i).main = .waiting i := by
  cases hI.control i c hc with
  | idle hr => simp [hr] at h
  | alone _ _ _ h1 => simp [h1] at h
  | sending st _ _ _ h1 =>
    rw [h1] at h
    split_ifs at h
  | waiting _ _ _ _ h1 => exact h1
  | woken _ _ _ _ _ _ h1 => rcases h1 with ⟨_, h1⟩ | ⟨_, h1⟩ <;> simp [h1] at h
  | got _ _ _ _ _ _ _ h1 => simp [h1] at h
  | finished _ _ _ _ h1 =>
    rw [h1] at h
    split_ifs at h

theorem signal_pending {st : StateFilesize} (hm : (s.control i).main = .waiting i)
    (hcell : (s.part ⟨i, []⟩).cell = .live st) (hfull : st.full = true) :
    (s.control i).wake = .lock ∨ (s.control i).wake = .signal := by
  cases hI.control i c hc with
  | idle hr => simp [hr] at hm
  | alone _ _ _ _ _ ho => rcases ho with ⟨h1, _⟩ | ⟨_, h1 | h1⟩ <;> simp [h1] at hm
  | sending _ _ _ _ _ ho => rcases ho with ⟨h1, _⟩ | ⟨h1, _⟩ <;> simp [h1] at hm
  | woken _ _ _ _ _ h1 | got _ _ _ _ _ h1 | finished _ _ h1 => simp [h1] at hm
  | waiting st' _ hp _ _ ho =>
    obtain rfl : st = st' := Cell.live.inj (hcell.symm.trans hp)
    rcases ho with ⟨-, hw⟩ | ⟨-, -, hw⟩
    · exact Or.inl (by rw [hw, if_pos hfull])
    · exact Or.inr hw

theorem free_of_woken (h : (s.control i).main = .woken i) :
    (s.control i).mutex ≠ some (.main i) := by
  cases hI.control i c hc with
  | idle hr => simp [hr] at h
  | alone _ _ _ _ _ ho => rcases ho with ⟨h1, _⟩ | ⟨_, h1 | h1⟩ <;> simp [h1] at h
  | sending _ _ _ _ _ ho => rcases ho with ⟨h1, _⟩ | ⟨h1, _⟩ <;> simp [h1] at h
  | waiting _ _ _ _ h1 | got _ _ _ _ _ h1 | finished _ _ h1 => simp [h1] at h
  | woken _ _ _ _ _ _ hx => rcases hx with ⟨hx, _⟩ | ⟨hx, _⟩ <;> simp [hx]

include S

/-- A root that is not alone has a child. -/
theorem not_locksItself : ¬ LocksItself n s i := by
  rintro ⟨F, hF, hcount, hn⟩
  obtain ⟨d, v, hat, -, hkids, -⟩ := hI.thread hF
  obtain ⟨rfl, rfl⟩ := at_unique (at_root hc) hat
  rw [hkids] at hcount
  exact (kids_root (S c (List.mem_of_getElem? hc))).mpr hn (by exact_mod_cast hcount)

theorem final_of_resumed (h : Resumed i (s.control i).main) :
    ∃ st, (s.part ⟨i, []⟩).cell = .live st ∧ st.numResponses = st.tree.childCount ∧
      (st.filesize : ℤ) = 100 * (n - 1) ∧
      ∀ size, (s.control i).main = .got size → size = st.filesize := by
  have hS := S c (List.mem_of_getElem? hc)
  have hn : 1 ≤ n := by
    have := hS.root_nonneg
    have := hS.root_lt
    omega
  have hthread : ∃ st, (s.part ⟨i, []⟩).cell = .live st ∧ (s.part ⟨i, []⟩).thread = none ∧
      (st.full = true ∨ ¬ 1 < n) ∧
      ∀ size, (s.control i).main = .got size → size = subtreeSize arith n c c.root := by
    cases hI.control i c hc with
    | idle hr => rcases h with h | h | ⟨m, h⟩ <;> simp [hr] at h
    | alone st h1 hp _ _ ho =>
      rcases ho with ⟨h2, _⟩ | ⟨ht, h2 | h2⟩
      · rcases h with h | h | ⟨m, h⟩ <;> simp [h2] at h
      · exact ⟨st, hp, ht, Or.inr h1, by simp [h2]⟩
      · exact ⟨st, hp, ht, Or.inr h1, by simp [h2]⟩
    | sending _ _ _ _ _ ho =>
      rcases ho with ⟨h2, _⟩ | ⟨h2, _⟩ <;> rcases h with h | h | ⟨m, h⟩ <;> simp [h2] at h
    | waiting _ _ _ _ h2 | finished _ _ h2 => rcases h with h | h | ⟨m, h⟩ <;> simp [h2] at h
    | woken st _ hp ht hf h2 => exact ⟨st, hp, ht, Or.inl hf, by simp [h2]⟩
    | got st _ hp ht hf h2 => exact ⟨st, hp, ht, Or.inl hf, by simp [h2]⟩
  obtain ⟨st, hcell, ht, hfull, hgot⟩ := hthread
  cases (hI.root_done S hc hcell ht hfull).2 with
  | root st' _ hp hR hf hsize =>
    obtain rfl : st = st' := Cell.live.inj (hcell.symm.trans hp)
    refine ⟨st, hcell, by simpa [StateFilesize.full] using hf, ?_, ?_⟩
    · rw [hsize, subtreeSize_root hS, sup_ownSize hn]
    · intro size hm
      rw [hgot size hm, hsize]
  | rootFreed _ hp => simp [hcell] at hp
  | holding _ hne | released hne => exact absurd rfl hne

theorem wakeOk : WakeOk n s i where
  waits_for_own _ := main_waits_for_own hI hc
  waiting_of_signal := waiting_of_signal hI hc
  signal_pending _ := signal_pending hI hc
  not_locksItself := not_locksItself S hI hc
  free_of_woken := free_of_woken hI hc
  final_of_resumed := final_of_resumed S hI hc

end Facts

/-- In every run of collectives that rank 0 starts one after the other, the handler signals
only a main thread that waits, which is then woken, so that no signal is lost; main does not
lock a mutex it holds; and it resumes with all responses counted and the final size. -/
theorem wakeup_not_lost {arith : ℤ → ℤ} {n : ℤ} {colls : List Collective} (hn : 1 ≤ n)
    (hcolls : ∀ c ∈ colls, c.root = 0 ∧ 1 ≤ c.degree)
    (hexact : ∀ c ∈ colls, ExactFor arith n c.degree) {xs : List FilesizeLabel} {s : FilesizeNet}
    (hrun : Trace (InTurnStep arith n colls) FilesizeNet.start xs s) :
    (∀ i < colls.length, WakeOk n s i) ∧
    ∀ i w u, FilesizeStep arith n colls s (.wakeSignal i w) u →
      w = some i ∧ (s.control i).main = .waiting i ∧ (u.control i).main = .woken i := by
  have S := allSound_of_zero hn hcolls hexact
  obtain ⟨-, hI, -⟩ := inTurn_trace S (fun c hc => (hcolls c hc).1) hrun
  constructor
  · intro i hi
    exact wakeOk S hI.net (List.getElem?_eq_getElem hi)
  · intro i w u hs
    obtain ⟨-, hwake, hcases⟩ := step_wakeSignal.mp hs
    have hsome : ∀ k, s.control k ≠ {} → ∃ c, colls[k]? = some c := fun k hk =>
      Option.ne_none_iff_exists'.mp fun hnone => hk (hI.net.noControl k hnone)
    obtain ⟨c, hc⟩ := hsome i (by intro h; simp [h] at hwake)
    have hmain := waiting_of_signal hI.net hc hwake
    rcases hcases with ⟨k, rfl, hk, rfl⟩ | ⟨rfl, hnone, -⟩
    · obtain ⟨d, hd⟩ := hsome k (by intro h; simp [h] at hk)
      obtain rfl := main_waits_for_own hI.net hd (Or.inl hk)
      obtain ⟨st, hcell⟩ := hI.net.cell_of_waiting hc hmain
      rw [FilesizeNet.deref_live hcell]
      refine ⟨rfl, hmain, ?_⟩
      simp [FilesizeNet.control_setControl]
    · exact absurd hmain (hnone i (List.getElem?_eq_some_iff.mp hc).1)

/-- The first of two collectives on two servers: the handler is about to signal, and main has come
back. -/
theorem wakeup_not_lost_two :
    (∃ s u, Trace (InTurnStep wrapInt 2 repeatedCalls) FilesizeNet.start (repeatedRun.take 11) s ∧
      FilesizeStep wrapInt 2 repeatedCalls s (.wakeSignal 0 (some 0)) u ∧
      ((s.control 0).wake = .lock ∨ (s.control 0).wake = .signal) ∧
      (s.control 0).main = .waiting 0 ∧ (u.control 0).main = .woken 0) ∧
    ∃ s st, Trace (InTurnStep wrapInt 2 repeatedCalls) FilesizeNet.start (repeatedRun.take 14) s ∧
      (s.part ⟨0, []⟩).cell = .live st ∧ st.numResponses = st.tree.childCount ∧
      (st.filesize : ℤ) = 100 * (2 - 1) ∧ 100 = st.filesize := by
  have htrace : ∀ m s, (repeatedRun.take m).foldlM (inTurnStep wrapInt 2 repeatedCalls)
      FilesizeNet.start = some s →
      Trace (InTurnStep wrapInt 2 repeatedCalls) FilesizeNet.start (repeatedRun.take m) s :=
    fun m s h => mono (fun _ _ _ => inTurnStep_eq_some.mp) (of_foldlM h)
  constructor
  · have hrun := htrace 11 _ rfl
    obtain ⟨hok, hsignal⟩ := wakeup_not_lost (by decide) (by decide) repeated_exact hrun
    obtain ⟨-, hmain, hwoken⟩ := hsignal 0 (some 0) _ (Eq.refl (filesizeStep _ _ _ _ _))
    exact ⟨_, _, hrun, rfl, (hok 0 (by decide)).signal_pending _ hmain rfl rfl, hmain, hwoken⟩
  · have hrun := htrace 14 _ rfl
    obtain ⟨hok, -⟩ := wakeup_not_lost (by decide) (by decide) repeated_exact hrun
    obtain ⟨st, hcell, hcount, hmax, hgot⟩ :=
      (hok 0 (by decide)).final_of_resumed (Or.inr (Or.inr ⟨100, rfl⟩))
    exact ⟨_, st, hrun, hcell, hcount, hmax, hgot 100 rfl⟩

end Metasim
