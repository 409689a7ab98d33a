import Metasim.FilesizeService
import Metasim.Lib.CString

/-! `main` of `margotree.c` on all ranks: the servers gather their addresses, register and connect,
rank 0 runs the filesize collectives between barriers, and all shut down. `margo_init` and the
lookups succeed; the clock and what is printed are left out. -/
namespace Metasim

open Transition Spmd Served CString

/-- `modes` are the values of `reply` and `degree` in the order of the two loops. `selfString` is
the buffer of 128 characters that `margo_addr_to_string` has filled. -/
structure MargotreeArgs where
  glbRanks : ℕ
  modes : List (Bool × ℤ)
  times : ℕ
  selfString : ℕ → List Char
  degree_pos : ∀ m ∈ modes, 1 ≤ m.2
  selfString_length : ∀ rank, (selfString rank).length = 128
  terminated : ∀ rank, nul ∈ selfString rank

/-- The calls of `main`, with the mode they are for. Collective 0 of a mode is the one that is not
measured. `register` is `MARGO_REGISTER`, `lookup` the loop of `margo_connect_servers`, and the
others are `MPI_Allgather`, `MPI_Barrier` and `margo_finalize`. -/
inductive MargotreeCall
  | allgather
  | register
  | connecting
  | lookup
  | connected
  | before (mode : ℕ)
  | filesize (mode i : ℕ)
  | between (mode : ℕ)
  | last
  | finalize
deriving Repr, DecidableEq

def MargotreeCall.collective : MargotreeCall → Bool
  | allgather | connecting | connected | before _ | between _ | last => true
  | _ => false

namespace MargotreeArgs

variable (A : MargotreeArgs)

/-- `glb_addrs` after the `MPI_Allgather` -/
def glbAddrs : List Char := (List.range A.glbRanks).flatMap A.selfString

/-- `glb_servers[i].margo_svr_addr_str`, the string at `&glb_addrs[i*128]` -/
def margoSvrAddrStr (i : ℕ) : Option (List Char) := contents (A.glbAddrs.drop (i * 128))

/-- The loops over the modes, from one of them on. -/
def modeLoop (mode : ℕ) : MargotreeCall := if mode < A.modes.length then .before mode else .last

/-- `i < times` -/
def timesLoop (mode i : ℕ) : MargotreeCall :=
  if i < A.times then .filesize mode (i + 1) else A.modeLoop (mode + 1)

def nextCall (rank : Fin A.glbRanks) : MargotreeCall → Option MargotreeCall
  | .allgather => some .register
  | .register => some .connecting
  | .connecting => some .lookup
  | .lookup => some .connected
  | .connected => some (A.modeLoop 0)
  | .before mode => some (if rank.val = 0 then .filesize mode 0 else .between mode)
  | .filesize mode 0 => some (.between mode)
  | .between mode => some (if rank.val = 0 then A.timesLoop mode 0 else A.modeLoop (mode + 1))
  | .filesize mode (i + 1) => some (A.timesLoop mode (i + 1))
  | .last => some .finalize
  | .finalize => none

/-- `main` on all ranks -/
def main : Program (Fin A.glbRanks) MargotreeCall where
  first _ := some .allgather
  next := A.nextCall
  collective := MargotreeCall.collective
  held _ := MargotreeCall.collective

/-- The collectives of all modes: `times + 1` of each. -/
def collectives : List Collective :=
  spread (A.times + 1) fun (mode : Fin A.modes.length) _ =>
    ⟨0, (A.modes.get mode).2, (A.modes.get mode).1⟩

/-- `main` over the servers' threads and handlers, which keep no order of their own. -/
def margotree : Layer (Fin A.glbRanks) MargotreeCall FilesizeNet FilesizeLabel ℕ where
  program := A.main
  uses _
    | .filesize mode i => some (mode * (A.times + 1) + i)
    | _ => none
  service := { filesizeService id A.glbRanks A.collectives with
    step := filesizeStep id A.glbRanks A.collectives }

/-! ## The calls of a rank, one after the other -/

/-- The collectives of rank 0 -/
def filesizes (rank : Fin A.glbRanks) (mode : ℕ) (is : List ℕ) : List MargotreeCall :=
  if rank.val = 0 then is.map (.filesize mode) else []

def modeCalls (rank : Fin A.glbRanks) (mode : ℕ) : List MargotreeCall :=
  .before mode :: A.filesizes rank mode [0] ++
    .between mode :: A.filesizes rank mode (List.range' 1 A.times)

def path (rank : Fin A.glbRanks) : List MargotreeCall :=
  [.allgather, .register, .connecting, .lookup, .connected] ++
    (List.range A.modes.length).flatMap (A.modeCalls rank) ++ [.last, .finalize]

/-- The same on every rank. -/
def barriers : List MargotreeCall :=
  [.allgather, .connecting, .connected] ++
    (List.range A.modes.length).flatMap (fun mode => [.before mode, .between mode]) ++ [.last]

/-- The collective calls in front of a call -/
def phase : MargotreeCall → ℕ
  | .allgather => 0
  | .register | .connecting => 1
  | .lookup | .connected => 2
  | .before mode => 3 + 2 * mode
  | .filesize mode 0 | .between mode => 4 + 2 * mode
  | .filesize mode (_ + 1) => 5 + 2 * mode
  | .last => 3 + 2 * A.modes.length
  | .finalize => 4 + 2 * A.modes.length

variable {A} {rank p q : Fin A.glbRanks} {i m mode : ℕ} {rest : List MargotreeCall}
  {c d : MargotreeCall}

theorem follows_timesLoop
    (hrest : Follows (A.nextCall rank) (some (A.modeLoop (mode + 1))) rest) (hm : i + m = A.times) :
    Follows (A.nextCall rank) (some (A.timesLoop mode i))
      ((List.range' (i + 1) m).map (.filesize mode) ++ rest) := by
  induction m generalizing i with
  | zero =>
    rw [timesLoop, if_neg (by omega)]
    exact hrest
  | succ m ih =>
    rw [timesLoop, if_pos (by omega), List.range'_succ]
    exact ⟨rfl, ih (by omega)⟩

theorem follows_modeCalls
    (hrest : Follows (A.nextCall rank) (some (A.modeLoop (mode + 1))) rest) :
    Follows (A.nextCall rank) (some (.before mode)) (A.modeCalls rank mode ++ rest) := by
  have htimes : Follows (A.nextCall rank) (A.nextCall rank (.between mode))
      (A.filesizes rank mode (List.range' 1 A.times) ++ rest) := by
    unfold filesizes
    by_cases hrank : rank.val = 0
    · simpa [nextCall, hrank] using follows_timesLoop hrest (Nat.zero_add _)
    · simpa [nextCall, hrank] using hrest
  by_cases hrank : rank.val = 0
  · simp only [modeCalls, filesizes, hrank, if_true, List.map_cons, List.map_nil] at htimes ⊢
    exact ⟨rfl, by simp [nextCall, hrank], rfl, htimes⟩
  · simp only [modeCalls, filesizes, hrank, if_false] at htimes ⊢
    exact ⟨rfl, by simp [nextCall, hrank], htimes⟩

theorem follows_modeLoop (hm : mode + m = A.modes.length) :
    Follows (A.nextCall rank) (some (A.modeLoop mode))
      ((List.range' mode m).flatMap (A.modeCalls rank) ++ [.last, .finalize]) := by
  induction m generalizing mode with
  | zero =>
    rw [modeLoop, if_neg (by omega)]
    exact ⟨rfl, rfl, rfl⟩
  | succ m ih =>
    rw [modeLoop, if_pos (by omega), List.range'_succ, List.flatMap_cons, List.append_assoc]
    exact follows_modeCalls (ih (by omega))

theorem follows_path (rank : Fin A.glbRanks) :
    Follows (A.main.next rank) (A.main.first rank) (A.path rank) := by
  rw [path, List.range_eq_range', List.append_assoc]
  exact ⟨rfl, rfl, rfl, rfl, rfl, follows_modeLoop (Nat.zero_add _)⟩

theorem fenced (A : MargotreeArgs) : A.main.Fenced := fun _ _ h => h

theorem mem_filesizes {is : List ℕ} (hc : c ∈ A.filesizes rank mode is) :
    rank.val = 0 ∧ ∃ i ∈ is, c = .filesize mode i := by
  unfold filesizes at hc
  split_ifs at hc with hrank
  · obtain ⟨i, hi, rfl⟩ := List.mem_map.mp hc
    exact ⟨hrank, i, hi, rfl⟩
  · cases hc

theorem filter_filesizes (rank : Fin A.glbRanks) (mode : ℕ) (is : List ℕ) :
    (A.filesizes rank mode is).filter MargotreeCall.collective = [] := by
  refine List.filter_eq_nil_iff.mpr fun c hc => ?_
  obtain ⟨-, i, -, rfl⟩ := mem_filesizes hc
  exact Bool.false_ne_true

theorem aligned (A : MargotreeArgs) : Aligned A.main A.path A.barriers := by
  refine ⟨follows_path, fun rank => ?_⟩
  have hmode : ∀ mode, (A.modeCalls rank mode).filter MargotreeCall.collective =
      [.before mode, .between mode] := by
    intro mode
    simp [modeCalls, List.filter_cons, filter_filesizes, MargotreeCall.collective]
  change (A.path rank).filter MargotreeCall.collective = _
  simp [path, barriers, List.filter_cons, List.filter_flatMap, hmode, MargotreeCall.collective]

theorem counted_filesizes {k : ℕ} {is : List ℕ}
    (hphase : ∀ i ∈ is, A.phase (.filesize mode i) = k) :
    Counted MargotreeCall.collective A.phase k (A.filesizes rank mode is) := by
  refine counted_own fun c hc => ?_
  obtain ⟨-, i, hi, rfl⟩ := mem_filesizes hc
  exact ⟨rfl, hphase i hi⟩

theorem countP_filesizes (rank : Fin A.glbRanks) (mode : ℕ) (is : List ℕ) :
    (A.filesizes rank mode is).countP MargotreeCall.collective = 0 := by
  rw [List.countP_eq_length_filter, filter_filesizes, List.length_nil]

theorem counted_modeCalls (rank : Fin A.glbRanks) (mode : ℕ) :
    Counted MargotreeCall.collective A.phase (3 + 2 * mode) (A.modeCalls rank mode) := by
  have hzero : ∀ i ∈ [0], A.phase (.filesize mode i) = 3 + 2 * mode + 1 := by
    intro i hi
    obtain rfl := List.mem_singleton.mp hi
    simp only [phase]
    omega
  have htimes : ∀ i ∈ List.range' 1 A.times, A.phase (.filesize mode i) = 3 + 2 * mode + 1 + 1 := by
    intro i hi
    cases i with
    | zero => simp at hi
    | succ i =>
      simp only [phase]
      omega
  rw [modeCalls, List.cons_append]
  refine ⟨rfl, counted_append.mpr ⟨counted_filesizes hzero, ?_⟩⟩
  rw [countP_filesizes]
  exact ⟨by simp only [phase, MargotreeCall.collective, if_true]; omega, counted_filesizes htimes⟩

theorem countP_modeCalls (rank : Fin A.glbRanks) (mode : ℕ) :
    (A.modeCalls rank mode).countP MargotreeCall.collective = 2 := by
  simp [modeCalls, List.countP_cons, countP_filesizes, MargotreeCall.collective]

theorem counted_modes (rank : Fin A.glbRanks) (m : ℕ) :
    Counted MargotreeCall.collective A.phase 3 ((List.range m).flatMap (A.modeCalls rank)) ∧
      ((List.range m).flatMap (A.modeCalls rank)).countP MargotreeCall.collective = 2 * m := by
  induction m with
  | zero => exact ⟨trivial, rfl⟩
  | succ m ih =>
    obtain ⟨hcounted, hcount⟩ := ih
    rw [List.range_succ, List.flatMap_append, List.flatMap_singleton, List.countP_append, hcount,
      countP_modeCalls]
    refine ⟨counted_append.mpr ⟨hcounted, ?_⟩, by omega⟩
    rw [hcount]
    exact counted_modeCalls rank m

theorem phased (A : MargotreeArgs) : Phased A.main A.path A.phase := by
  refine phased_of_counted fun rank => ?_
  have hsetup : Counted MargotreeCall.collective A.phase 0
      [.allgather, .register, .connecting, .lookup, .connected] :=
    ⟨rfl, rfl, rfl, rfl, rfl, trivial⟩
  obtain ⟨hcounted, hcount⟩ := counted_modes rank A.modes.length
  have hend : Counted MargotreeCall.collective A.phase (3 + 2 * A.modes.length)
      [.last, .finalize] := by
    refine ⟨rfl, ?_, trivial⟩
    simp only [phase, MargotreeCall.collective, if_true]
    omega
  rw [path, List.append_assoc]
  refine counted_append.mpr ⟨hsetup, counted_append.mpr ⟨hcounted, ?_⟩⟩
  change Counted _ _ (3 + List.countP MargotreeCall.collective _) _
  rwa [hcount]

/-! ## The collectives of rank 0 -/

theorem collectives_sound (hn : 1 ≤ A.glbRanks) : AllSound id A.glbRanks A.collectives ∧
    ∀ c ∈ A.collectives, c.root = 0 := by
  have hmem : ∀ c ∈ A.collectives, c.root = 0 ∧ 1 ≤ c.degree := by
    intro c hc
    obtain ⟨mode, -, -, rfl⟩ := mem_spread hc
    exact ⟨rfl, A.degree_pos _ (List.get_mem _ _)⟩
  exact ⟨allSound_of_zero (by omega) hmem fun _ _ => exactFor_id _ _, fun c hc => (hmem c hc).1⟩

/-- The calls of `main` in which a collective is made. -/
theorem filterMap_filesizes (rank : Fin A.glbRanks) (mode : ℕ) (is : List ℕ) :
    (A.filesizes rank mode is).filterMap (A.margotree.uses rank) =
      if rank.val = 0 then is.map (mode * (A.times + 1) + ·) else [] := by
  unfold filesizes
  split_ifs
  · induction is with
    | nil => rfl
    | cons i is ih => exact congrArg _ ih
  · rfl

theorem filterMap_modeCalls (rank : Fin A.glbRanks) (mode : ℕ) :
    (A.modeCalls rank mode).filterMap (A.margotree.uses rank) =
      if rank.val = 0 then List.range' (mode * (A.times + 1)) (A.times + 1) else [] := by
  have hbefore : A.margotree.uses rank (.before mode) = none := rfl
  have hbetween : A.margotree.uses rank (.between mode) = none := rfl
  rw [modeCalls, List.cons_append, List.filterMap_cons_none hbefore, List.filterMap_append,
    List.filterMap_cons_none hbetween, filterMap_filesizes, filterMap_filesizes]
  split_ifs
  · simp [List.range'_succ, List.map_add_range']
  · rfl

/-- Rank 0 makes all collectives, in the order of their numbers, and the others none. -/
theorem filterMap_path (rank : Fin A.glbRanks) :
    (A.path rank).filterMap (A.margotree.uses rank) =
      List.range (if rank.val = 0 then A.collectives.length else 0) := by
  have hmodes : ∀ m, ((List.range m).flatMap (A.modeCalls rank)).filterMap
      (A.margotree.uses rank) = List.range (if rank.val = 0 then m * (A.times + 1) else 0) := by
    intro m
    induction m with
    | zero => simp
    | succ m ih =>
      rw [List.range_succ, List.flatMap_append, List.flatMap_singleton, List.filterMap_append, ih,
        filterMap_modeCalls]
      split_ifs
      · rw [List.range_eq_range', List.range_eq_range', Nat.succ_mul]
        simpa using List.range'_append_1 (s := 0) (m := m * (A.times + 1)) (n := A.times + 1)
      · rfl
  have hrest : ∀ l : List MargotreeCall, (∀ c ∈ l, A.margotree.uses rank c = none) →
      l.filterMap (A.margotree.uses rank) = [] := fun l h => List.filterMap_eq_nil_iff.mpr h
  rw [path, List.filterMap_append, List.filterMap_append, hmodes, hrest, hrest, List.nil_append,
    List.append_nil, collectives, length_spread]
  · simp [margotree]
  · simp [margotree]

theorem filesize_of_uses (h : A.margotree.uses p c = some i) :
    ∃ mode k, c = .filesize mode k ∧ i = mode * (A.times + 1) + k := by
  cases c with
  | filesize mode k => exact ⟨mode, k, rfl, (Option.some.inj h).symm⟩
  | _ => cases h

theorem ordered (A : MargotreeArgs) : A.margotree.Ordered :=
  ordered_of_range (fun _ _ h => h) follows_path fun rank => ⟨_, filterMap_path rank⟩

theorem uses_lt (rank : Fin A.glbRanks) : ∀ c ∈ A.path rank, ∀ i,
    A.margotree.uses rank c = some i → i < A.collectives.length ∧ rank.val = 0 := by
  intro c hc i hi
  have hmem : i ∈ (A.path rank).filterMap (A.margotree.uses rank) :=
    List.mem_filterMap.mpr ⟨c, hc, hi⟩
  rw [filterMap_path, List.mem_range] at hmem
  split_ifs at hmem with hrank
  · exact ⟨hmem, hrank⟩
  · omega

/-- Everything on a path but the shut-down is in front of the last barrier. -/
theorem phase_lt (hc : c ∈ A.path rank) (hne : c ≠ .finalize) : A.phase c < A.phase .finalize := by
  have hphase : A.phase .finalize = 4 + 2 * A.modes.length := rfl
  have hset : (A.phase .allgather = 0 ∧ A.phase .register = 1 ∧ A.phase .connecting = 1) ∧
      A.phase .lookup = 2 ∧ A.phase .connected = 2 := ⟨⟨rfl, rfl, rfl⟩, rfl, rfl⟩
  rw [path, List.mem_append, List.mem_append] at hc
  rcases hc with (hc | hc) | hc
  · simp only [List.mem_cons, List.not_mem_nil, or_false] at hc
    rcases hc with rfl | rfl | rfl | rfl | rfl <;> omega
  · obtain ⟨mode, hmode, hc⟩ := List.mem_flatMap.mp hc
    have hmode := List.mem_range.mp hmode
    simp only [modeCalls, List.mem_append, List.mem_cons, or_assoc] at hc
    rcases hc with rfl | hc | rfl | hc
    · simp only [phase]
      omega
    · obtain ⟨-, i, hi, rfl⟩ := mem_filesizes hc
      obtain rfl := List.mem_singleton.mp hi
      simp only [phase]
      omega
    · simp only [phase]
      omega
    · obtain ⟨-, i, -, rfl⟩ := mem_filesizes hc
      cases i <;> simp only [phase] <;> omega
  · simp only [List.mem_cons, List.not_mem_nil, or_false] at hc
    rcases hc with rfl | rfl
    · simp only [phase]
      omega
    · exact absurd rfl hne

/-! ## Whole runs -/

/-- The same with the order of the collectives as a guard. -/
abbrev inTurn (A : MargotreeArgs) :
    Layer (Fin A.glbRanks) MargotreeCall FilesizeNet FilesizeLabel ℕ :=
  A.margotree.restrict (inTurnStep id A.glbRanks A.collectives)

theorem reliable (hn : 1 ≤ A.glbRanks) :
    A.inTurn.service.Reliable A.collectives.length (A.collectives.length *
      ((A.glbRanks : ℤ).toNat * (2 * (A.glbRanks : ℤ).toNat + 10) + 11)) :=
  filesizeService_reliable (collectives_sound hn).1 (collectives_sound hn).2

variable {xs : List (Label (Fin A.glbRanks) MargotreeCall FilesizeLabel)}
  {s : State (Fin A.glbRanks) MargotreeCall × FilesizeNet}

theorem runInv (hn : 1 ≤ A.glbRanks) (hrun : A.inTurn.Run xs s) :
    RunInv id A.glbRanks A.collectives s.2 :=
  (inTurn_trace (collectives_sound hn).1 (collectives_sound hn).2 (filesize_run hrun.serves)).2.1

/-- `main` keeps the collectives in order. -/
theorem run_inTurn (hn : 1 ≤ A.glbRanks) (hrun : A.margotree.Run xs s) : A.inTurn.Run xs s := by
  refine hrun.restrict fun xs s b u hrun hs => ?_
  obtain ⟨hserve, -, hasked⟩ := step_serve.mp hs
  refine inTurnStep_eq_some.mpr ⟨hserve, ?_⟩
  cases b with
  | start i =>
    intro k hk
    obtain ⟨m, hm⟩ := ready_of_asked (L := A.inTurn) (reliable hn) hrun A.ordered
      (hasked i rfl) hk
    have hI := runInv hn hrun
    have hlt := (hI.completed_eq (collectives_sound hn).1 hm).1
    exact (hI.completed_iff (List.getElem?_eq_getElem hlt)).mp ⟨m, hm⟩
  | _ => trivial

theorem fencedInv (hrun : A.inTurn.Run xs s) : FencedInv A.main A.path (mains xs) s.1 :=
  fencedInv_trace A.fenced follows_path hrun.mains

/-- A server is registered and connected before anything is sent. -/
theorem connected_of_served (hrun : A.inTurn.Run xs s)
    (hserves : serves xs ≠ []) (q : Fin A.glbRanks) :
    .register ∈ returned q (mains xs) ∧ .lookup ∈ returned q (mains xs) := by
  have hI := fencedInv hrun
  obtain ⟨a, ha⟩ := List.exists_mem_of_ne_nil _ hserves
  obtain ⟨i, hi⟩ := start_first hrun.serves ha
  obtain ⟨p, c, hc, huses⟩ := entered_of_begun follows_path hrun (filesize_begun_iff.mpr hi)
  obtain ⟨mode, k, rfl, -⟩ := filesize_of_uses (p := p) huses
  have hreached := (hI.walks p).reached_of_entered hc
  have hphase : 4 ≤ A.phase (.filesize mode k) := by
    cases k <;> simp only [phase] <;> omega
  have hregister : A.phase .register = 1 := rfl
  have hlookup : A.phase .lookup = 2 := rfl
  have hmem : .register ∈ A.path q ∧ .lookup ∈ A.path q := by simp [path]
  exact ⟨(hI.happens_before A.phased hreached hmem.1 (by omega)).2 rfl,
    (hI.happens_before A.phased hreached hmem.2 (by omega)).2 rfl⟩

/-- All collectives are over before any server shuts down. -/
theorem completed_of_finalize (hn : 1 ≤ A.glbRanks) (hrun : A.inTurn.Run xs s)
    (hq : .finalize ∈ entered q (mains xs)) (hi : i < A.collectives.length) :
    ∃ filesize, s.2.completed i = some filesize := by
  have hI := fencedInv hrun
  let zero : Fin A.glbRanks := ⟨0, hn⟩
  have hmem : i ∈ (A.path zero).filterMap (A.margotree.uses zero) := by
    rw [filterMap_path, List.mem_range]
    exact hi
  obtain ⟨d, hd, huses⟩ := List.mem_filterMap.mp hmem
  obtain ⟨mode, k, rfl, -⟩ := filesize_of_uses huses
  have hlt := phase_lt hd (by simp)
  have hret := (hI.happens_before A.phased ((hI.walks q).reached_of_entered hq) hd hlt).2 rfl
  exact answer_of_returned (L := A.inTurn) (reliable hn) hrun hret huses

theorem over_of_finalize (hn : 1 ≤ A.glbRanks) (hrun : A.inTurn.Run xs s)
    (hq : .finalize ∈ entered q (mains xs)) (i : ℕ) (hi : (s.2.control i).main ≠ .idle) :
    (s.2.control i).main = .finished := by
  have hI := runInv hn hrun
  cases hc : A.collectives[i]? with
  | none => exact absurd (by rw [hI.net.noControl i hc]) hi
  | some c =>
    exact (hI.completed_iff hc).mp
      (completed_of_finalize hn hrun hq (List.getElem?_eq_some_iff.mp hc).1)

/-- Rank `q` has its own 128 characters in what is gathered. -/
theorem addrStr_eq (hq : i < A.glbRanks) : A.margoSvrAddrStr i = contents (A.selfString i) := by
  have hlen : ∀ l : List ℕ, (l.flatMap A.selfString).length = l.length * 128 := by
    intro l
    induction l with
    | nil => rfl
    | cons j l ih =>
      rw [List.flatMap_cons, List.length_append, ih, A.selfString_length, List.length_cons]
      ring
  have hsplit : List.range A.glbRanks =
      List.range i ++ i :: List.range' (i + 1) (A.glbRanks - i - 1) := by
    rw [List.range_eq_range', List.range_eq_range', ← List.range'_succ]
    have := List.range'_append_1 (s := 0) (m := i) (n := A.glbRanks - i - 1 + 1)
    rw [Nat.zero_add] at this
    rw [this]
    congr 1
    omega
  have hdrop : A.glbAddrs.drop (i * 128) = A.selfString i ++
      (List.range' (i + 1) (A.glbRanks - i - 1)).flatMap A.selfString := by
    rw [glbAddrs, hsplit, List.flatMap_append, List.flatMap_cons,
      List.drop_left' (by rw [hlen, List.length_range])]
  rw [margoSvrAddrStr, hdrop, contents_left _ (A.terminated i)]

end MargotreeArgs

open MargotreeArgs

/-- `margotree` as a whole, with handlers that are not interrupted between two calls. Each server
looks up what the others have published, and nothing is sent before all are registered and
connected. Rank 0 alone makes the collectives, one after the other, and gets the maximum from each.
When a server shuts down all are over and no message is on its way: what can still happen is that
threads return and free their records. No server is left waiting, and a run ends. -/
theorem margotree_run {A : MargotreeArgs} (hn : 1 ≤ A.glbRanks)
    {xs : List (Label (Fin A.glbRanks) MargotreeCall FilesizeLabel)}
    {s : State (Fin A.glbRanks) MargotreeCall × FilesizeNet} (hrun : A.margotree.Run xs s) :
    (∀ q < A.glbRanks, A.margoSvrAddrStr q = contents (A.selfString q)) ∧
    (serves xs ≠ [] → ∀ q, .register ∈ returned q (mains xs) ∧ .lookup ∈ returned q (mains xs)) ∧
    Trace (InTurnStep id A.glbRanks A.collectives) FilesizeNet.start (serves xs) s.2 ∧
    (∀ q mode i, .filesize mode i ∈ returned q (mains xs) → q.val = 0 ∧
      ∃ filesize, s.2.completed (mode * (A.times + 1) + i) = some filesize ∧
        (filesize : ℤ) = 100 * (A.glbRanks - 1)) ∧
    (∀ q, .finalize ∈ entered q (mains xs) →
      (∀ i < A.collectives.length, ∃ filesize, s.2.completed i = some filesize) ∧
      (∀ h, ((s.2.part h).request = .unused ∨ (s.2.part h).request = .served) ∧
        ((s.2.part h).response = .unused ∨ (s.2.part h).response = .served)) ∧
      ∀ a u, A.margotree.Step s (.serve a) u →
        ∃ h, a = .returned h ∨ a = .endForward h ∨ a = .release h) ∧
    ((∃ rank, s.1.current rank ≠ none) → ∃ a u, A.margotree.Step s a u) ∧
    xs.length ≤ ∑ rank, 2 * (A.path rank).length +
      A.collectives.length * (A.glbRanks * (2 * A.glbRanks + 10) + 11) := by
  have hturn := run_inTurn hn hrun
  have hI := runInv hn hturn
  refine ⟨fun q => addrStr_eq, connected_of_served hturn, filesize_run hturn.serves, ?_,
    fun q hq => ⟨fun i => completed_of_finalize hn hturn hq,
      hI.delivered (over_of_finalize hn hturn hq), ?_⟩, ?_, ?_⟩
  · intro q mode i hret
    have hmem := (walks_trace follows_path hrun.mains q).returned_initial.subset hret
    have huses : A.margotree.uses q (.filesize mode i) = some (mode * (A.times + 1) + i) := rfl
    obtain ⟨m, hm⟩ := answer_of_returned (L := A.inTurn) (reliable hn) hturn hret huses
    exact ⟨(uses_lt q _ hmem _ huses).2, m, hm,
      (hI.completed_eq (collectives_sound hn).1 hm).2⟩
  · intro a u hs
    obtain ⟨hserve, -, -⟩ := step_serve.mp hs
    refine hI.trailing (over_of_finalize hn hturn hq) hserve fun i hstart => ?_
    subst hstart
    obtain ⟨-, c, hc, hidle, -⟩ := step_start.mp hserve
    have hfinished := (hI.completed_iff hc).mp
      (completed_of_finalize hn hturn hq (List.getElem?_eq_some_iff.mp hc).1)
    simp [hidle] at hfinished
  · rintro ⟨rank, h⟩
    obtain ⟨a, u, hs⟩ := hturn.progress A.aligned (reliable hn) A.ordered
      (fun p c hc i hi => (uses_lt p c hc i hi).1) h
    exact ⟨a, u, step_of_restrict (fun _ _ _ hv => (inTurnStep_eq_some.mp hv).1) hs⟩
  · have hle := Layer.Run.length_le (reliable hn) follows_path hturn
    simpa only [Int.toNat_natCast] using hle

/-- Two servers, with a single measured repetition. -/
def twoServersTree : MargotreeArgs where
  glbRanks := 2
  modes := [(true, 2)]
  times := 1
  selfString _ := 'a' :: List.replicate 127 nul
  degree_pos := by simp
  selfString_length _ := by simp
  terminated _ := by simp

/-- The steps of collective `i`. -/
def pairFilesize (i : ℕ) : List FilesizeLabel :=
  [.start i, .forward ⟨i, []⟩, .accept ⟨i, [0]⟩, .alloc ⟨i, [0]⟩, .endForward ⟨i, [0]⟩,
    .acceptResponse ⟨i, [0]⟩, .apply ⟨i, [0]⟩, .returned ⟨i, []⟩, .endForward ⟨i, []⟩, .wait i,
    .wakeLock i, .wakeSignal i (some i), .wakeUnlock i, .reacquire i, .finish i]

def twoServersTreeCalls :
    List (List (Fin twoServersTree.glbRanks) × MargotreeCall × List FilesizeLabel) :=
  let both := List.finRange 2
  let zero := both.take 1
  [(both, .allgather, []), (both, .register, []), (both, .connecting, []), (both, .lookup, []),
    (both, .connected, []), (both, .before 0, []), (zero, .filesize 0 0, pairFilesize 0),
    (both, .between 0, []), (zero, .filesize 0 1, pairFilesize 1), (both, .last, []),
    (zero, .finalize, [])]

def twoServersTreeRun : List (Label (Fin twoServersTree.glbRanks) MargotreeCall FilesizeLabel) :=
  twoServersTreeCalls.flatMap fun c => Served.jointly c.1 c.2.1 c.2.2

theorem margotree_run_two : ∃ s, twoServersTree.margotree.Run twoServersTreeRun s ∧
    (∃ filesize, s.2.completed 1 = some filesize ∧ (filesize : ℤ) = 100) ∧
    ∀ h, (s.2.part h).request = .unused ∨ (s.2.part h).request = .served := by
  have hfinal : (twoServersTreeRun.foldlM twoServersTree.margotree.step
      twoServersTree.margotree.start).isSome := by decide
  obtain ⟨s, hs⟩ := Option.isSome_iff_exists.mp hfinal
  have hrun : twoServersTree.margotree.Run twoServersTreeRun s := of_foldlM hs
  obtain ⟨-, -, -, hvalue, hend, -⟩ := margotree_run (by decide) hrun
  obtain ⟨-, m, hm, hmax⟩ := hvalue (0 : Fin 2) 0 1 (by decide)
  obtain ⟨-, hquiet, -⟩ := hend (0 : Fin 2) (by decide)
  exact ⟨s, hrun, ⟨m, hm, by simpa [twoServersTree] using hmax⟩, fun h => (hquiet h).1⟩

end Metasim
