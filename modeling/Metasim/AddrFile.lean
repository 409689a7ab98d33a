import Metasim.Lib.CString
import Metasim.Lib.Transition
import Mathlib

/-! The exchange of server addresses through files, `comm_init` of `metasim-server.c`. -/
namespace Metasim

open CString Transition

/-- `server_addr_dir` -/
def serverAddrDir : String := "logs/addr"

/-- `sprintf(path, "%s/%d", server_addr_dir, rank)` -/
def addrPath (rank : ℕ) : String := serverAddrDir ++ "/" ++ Nat.repr rank

abbrev Files := String → Option (List Char)

/-- `write_addr_file`; opening for writing empties the file. -/
def writeAddrFile (files : Files) (rank : ℕ) (str : List Char) : Files :=
  Function.update files (addrPath rank) (some (str ++ ['\n']))

/-- One turn of the loop of `read_addr_file`: the string given to `margo_addr_lookup` and
the content of `addrstr` afterwards. `none` is an access outside `addrstr`. -/
def readAddr (addrstr text : List Char) : Option (List Char × List Char) := do
  let addrstr ← fgets addrstr 511 text
  let str ← contents addrstr
  let addrstr ← put addrstr (str.length - 1) nul
  let str ← contents addrstr
  return (str, addrstr)

/-- Where a rank is in `comm_init`. `peers` are the entries of `peer_addrs` so far, each
given by the string it was looked up from. -/
inductive CommPhase
  | start
  | fence
  | reading (addrstr : List Char) (peers : List (List Char))
  | ready (peers : List (List Char))
  | noFile
  | fault
deriving Repr, DecidableEq

structure CommState where
  files : Files
  phase : ℕ → CommPhase

def CommState.enter (t : CommState) (rank : ℕ) (p : CommPhase) : CommState :=
  { t with phase := Function.update t.phase rank p }

inductive CommLabel
  | write (rank : ℕ)
  | leaveFence (rank : ℕ)
  | read (rank : ℕ)
deriving Repr, DecidableEq

section Source

variable (nranks : ℕ) (published : ℕ → List Char) (junk : ℕ → List Char)

/-- One turn of the loop at `rank`, or its end. -/
def readStep (files : Files) (addrstr : List Char) (peers : List (List Char)) : CommPhase :=
  if peers.length < nranks then
    match files (addrPath peers.length) with
    | none => .noFile
    | some text =>
      match readAddr addrstr text with
      | none => .fault
      | some (str, addrstr) => .reading addrstr (peers ++ [str])
  else .ready peers

/-- The ranks write, wait for each other, and read. `junk` is what `addrstr` holds before
it is first read into. -/
def commStep (t : CommState) : CommLabel → Option CommState
  | .write r =>
    if r < nranks ∧ t.phase r = .start then
      some ({ t with files := writeAddrFile t.files r (published r) }.enter r .fence)
    else none
  | .leaveFence r =>
    if r < nranks ∧ t.phase r = .fence ∧ ∀ q < nranks, t.phase q ≠ .start then
      some (t.enter r (.reading (junk r) []))
    else none
  | .read r =>
    match t.phase r with
    | .reading addrstr peers =>
      if r < nranks then some (t.enter r (readStep nranks t.files addrstr peers)) else none
    | _ => none

/-- The files may be left over from an earlier run. -/
def commStart (files : Files) : CommState := { files, phase := fun _ => .start }

def CommStep (t : CommState) (a : CommLabel) (u : CommState) : Prop :=
  commStep nranks published junk t a = some u

end Source

/-! ## One file -/

theorem addrPath_injective {r q : ℕ} (h : addrPath r = addrPath q) : r = q := by
  unfold addrPath at h
  exact Nat.repr_injective (String.append_right_inj _ |>.mp h)

/-- A string as `comm_init` can hold it. -/
structure Holdable (s : List Char) : Prop where
  nonempty : s ≠ []
  no_newline : '\n' ∉ s
  no_nul : nul ∉ s
  length_le : s.length ≤ 511

theorem dropLast_take_written (s : List Char) :
    ((s ++ ['\n']).take 510).dropLast = s.take 509 := by
  by_cases hlen : s.length ≤ 509
  · have hall : (s ++ ['\n']).take 510 = s ++ ['\n'] := List.take_of_length_le (by simp; omega)
    rw [hall, List.dropLast_concat, List.take_of_length_le hlen]
  · have hcut : (s ++ ['\n']).take 510 = s.take 510 :=
      List.take_append_of_le_length (by omega)
    rw [hcut, List.dropLast_eq_take, List.take_take, List.length_take]
    congr 1
    omega

/-- Reading back what was written keeps the first 509 characters. -/
theorem readAddr_written {s addrstr : List Char} (hs : Holdable s) (ha : addrstr.length = 512) :
    ∃ b, readAddr addrstr (s ++ ['\n']) = some (s.take 509, b) ∧ b.length = 512 := by
  have hline : line 510 (s ++ ['\n']) = (s ++ ['\n']).take 510 := line_terminated 510 hs.no_newline
  have hnul : nul ∉ (s ++ ['\n']).take 510 := by
    intro h
    rcases List.mem_append.mp (List.mem_of_mem_take h) with h | h
    · exact hs.no_nul h
    · exact absurd h (by decide)
  have hne : (s ++ ['\n']).take 510 ≠ [] := by simp
  have hlen : ((s ++ ['\n']).take 510).length < addrstr.length := by
    rw [List.length_take]
    omega
  have hshort : nul ∉ s.take 509 := fun h => hs.no_nul (List.mem_of_mem_take h)
  have hread : readAddr addrstr (s ++ ['\n']) = some (s.take 509,
      s.take 509 ++ nul :: nul :: addrstr.drop (((s ++ ['\n']).take 510).length + 1)) := by
    simp only [readAddr, fgets, List.append_eq_nil_iff, List.cons_ne_self, and_false, if_false,
      Nat.add_one_sub_one, hline, store_some _ hlen, contents_append _ hnul, put_last _ hne,
      dropLast_take_written, contents_append _ hshort, Option.bind_eq_bind, Option.bind_some,
      Option.pure_def]
  refine ⟨_, hread, ?_⟩
  simp
  omega

/-! ## All ranks -/

variable {n r : ℕ} {s junk : ℕ → List Char} {t u : CommState} {a : CommLabel} {files : Files}

/-- What the file of rank `j` gives its reader. -/
def readBack (s : ℕ → List Char) (j : ℕ) : List Char := (s j).take 509

/-- What a step does, with its guard. -/
theorem commStep_cases (h : CommStep n s junk t a u) :
    (∃ r < n, a = .write r ∧ t.phase r = .start ∧
      u = { t with files := writeAddrFile t.files r (s r) }.enter r .fence) ∨
    (∃ r < n, a = .leaveFence r ∧ t.phase r = .fence ∧ (∀ q < n, t.phase q ≠ .start) ∧
      u = t.enter r (.reading (junk r) [])) ∨
    (∃ r < n, ∃ b ps, a = .read r ∧ t.phase r = .reading b ps ∧
      u = t.enter r (readStep n t.files b ps)) := by
  cases a with
  | write r =>
    simp only [CommStep, commStep, Option.ite_none_right_eq_some, Option.some.injEq] at h
    obtain ⟨⟨hr, hp⟩, rfl⟩ := h
    exact Or.inl ⟨r, hr, rfl, hp, rfl⟩
  | leaveFence r =>
    simp only [CommStep, commStep, Option.ite_none_right_eq_some, Option.some.injEq] at h
    obtain ⟨⟨hr, hp, hall⟩, rfl⟩ := h
    exact Or.inr (Or.inl ⟨r, hr, rfl, hp, hall, rfl⟩)
  | read r =>
    cases hp : t.phase r with
    | reading b ps =>
      simp only [CommStep, commStep, hp, Option.ite_none_right_eq_some, Option.some.injEq] at h
      obtain ⟨hr, rfl⟩ := h
      exact Or.inr (Or.inr ⟨r, hr, b, ps, rfl, hp, rfl⟩)
    | _ => simp [CommStep, commStep, hp] at h

/-- A rank has read what the files before its position hold. -/
def SoFar (n : ℕ) (s : ℕ → List Char) : CommPhase → Prop
  | .start | .fence => True
  | .reading b ps =>
    b.length = 512 ∧ ps.length ≤ n ∧ ps = (List.range ps.length).map (readBack s)
  | .ready ps => ps = (List.range n).map (readBack s)
  | .noFile | .fault => False

structure ExchangeInv (n : ℕ) (s : ℕ → List Char) (t : CommState) : Prop where
  written : ∀ q < n, t.phase q ≠ .start → t.files (addrPath q) = some (s q ++ ['\n'])
  so_far : ∀ r, SoFar n s (t.phase r)
  fenced : ∀ r b ps, t.phase r = .reading b ps → ∀ q < n, t.phase q ≠ .start

/-- A turn of the loop finds the next file and reads it. -/
theorem readStep_soFar (hs : ∀ j < n, Holdable (s j)) {b : List Char} {ps : List (List Char)}
    (hfiles : ∀ q < n, files (addrPath q) = some (s q ++ ['\n'])) (h : SoFar n s (.reading b ps)) :
    SoFar n s (readStep n files b ps) ∧ readStep n files b ps ≠ .start ∧
      ((∃ b' str, ps.length < n ∧ readStep n files b ps = .reading b' (ps ++ [str])) ∨
        readStep n files b ps = .ready ps) := by
  obtain ⟨hb, hle, hps⟩ := h
  by_cases hlt : ps.length < n
  · obtain ⟨b', hread, hb'⟩ := readAddr_written (hs ps.length hlt) hb
    have hstep : readStep n files b ps = .reading b' (ps ++ [readBack s ps.length]) := by
      simp only [readStep, if_pos hlt, hfiles ps.length hlt, hread, readBack]
    rw [hstep]
    refine ⟨⟨hb', by simpa using hlt, ?_⟩, by simp, Or.inl ⟨b', _, hlt, rfl⟩⟩
    rw [List.length_append, List.length_singleton, List.range_succ, List.map_append, ← hps]
    rfl
  · have hstep : readStep n files b ps = .ready ps := if_neg hlt
    rw [hstep]
    refine ⟨?_, by simp, Or.inr rfl⟩
    have hlen : ps.length = n := by omega
    simpa only [SoFar, hlen] using hps

theorem exchangeInv_start (files : Files) : ExchangeInv n s (commStart files) := by
  refine ⟨?_, fun r => trivial, ?_⟩
  · intro q _ hq
    exact absurd rfl hq
  · intro r b ps h
    cases h

theorem CommState.phase_enter (t : CommState) (r : ℕ) (p : CommPhase) (q : ℕ) :
    (t.enter r p).phase q = if q = r then p else t.phase q := by
  simp [CommState.enter, Function.update_apply]

theorem exchangeInv_step (hs : ∀ j < n, Holdable (s j)) (hj : ∀ r, (junk r).length = 512)
    (hI : ExchangeInv n s t) (h : CommStep n s junk t a u) : ExchangeInv n s u := by
  rcases commStep_cases h with ⟨r, hr, -, hp, rfl⟩ | ⟨r, hr, -, hp, hall, rfl⟩ |
    ⟨r, hr, b, ps, -, hp, rfl⟩
  · constructor
    · intro q hq hne
      by_cases hqr : q = r
      · subst hqr
        simp [CommState.enter, writeAddrFile]
      · have hpath : addrPath q ≠ addrPath r := fun h => hqr (addrPath_injective h)
        rw [CommState.phase_enter, if_neg hqr] at hne
        simpa [CommState.enter, writeAddrFile, hpath] using hI.written q hq hne
    · intro q
      rw [CommState.phase_enter]
      split_ifs
      · trivial
      · exact hI.so_far q
    · intro q b ps hq
      rw [CommState.phase_enter] at hq
      split_ifs at hq
      exact absurd hp (hI.fenced q b ps hq r hr)
  · constructor
    · intro q hq hne
      exact hI.written q hq (hall q hq)
    · intro q
      rw [CommState.phase_enter]
      split_ifs
      · exact ⟨hj r, by simp, rfl⟩
      · exact hI.so_far q
    · intro q b ps _ q' hq'
      rw [CommState.phase_enter]
      split_ifs
      · simp
      · exact hall q' hq'
  · have hall := hI.fenced r b ps hp
    have hstep := readStep_soFar hs (fun q hq => hI.written q hq (hall q hq)) (hp ▸ hI.so_far r)
    constructor
    · intro q hq _
      exact hI.written q hq (hall q hq)
    · intro q
      rw [CommState.phase_enter]
      split_ifs
      · exact hstep.1
      · exact hI.so_far q
    · intro q b ps _ q' hq'
      rw [CommState.phase_enter]
      split_ifs
      · exact hstep.2.1
      · exact hall q' hq'

/-! ## Runs come to an end -/

def CommPhase.level (n : ℕ) : CommPhase → ℕ
  | .start => 0
  | .fence => 1
  | .reading _ ps => ps.length + 2
  | .ready _ | .noFile | .fault => n + 3

theorem level_le (h : SoFar n s (t.phase r)) : (t.phase r).level n ≤ n + 3 := by
  cases hp : t.phase r with
  | reading b ps =>
    rw [hp] at h
    have := h.2.1
    simp only [CommPhase.level]
    omega
  | _ => simp [CommPhase.level]

def levels (n : ℕ) (t : CommState) : ℕ := ∑ r ∈ Finset.range n, (t.phase r).level n

theorem levels_enter {p : CommPhase} (f : Files) (hr : r < n)
    (hlt : (t.phase r).level n < p.level n) :
    levels n t < levels n ({ t with files := f }.enter r p) := by
  refine Finset.sum_lt_sum ?_ ⟨r, Finset.mem_range.mpr hr, ?_⟩
  · intro q _
    rw [CommState.phase_enter]
    split_ifs with hq
    · exact hq ▸ hlt.le
    · exact le_rfl
  · rw [CommState.phase_enter, if_pos rfl]
    exact hlt

theorem levels_step (hs : ∀ j < n, Holdable (s j)) (hI : ExchangeInv n s t)
    (h : CommStep n s junk t a u) : levels n t < levels n u := by
  rcases commStep_cases h with ⟨r, hr, -, hp, rfl⟩ | ⟨r, hr, -, hp, -, rfl⟩ |
    ⟨r, hr, b, ps, -, hp, rfl⟩
  · exact levels_enter _ hr (by simp [hp, CommPhase.level])
  · exact levels_enter t.files hr (by simp [hp, CommPhase.level])
  · have hall := hI.fenced r b ps hp
    have hle : ps.length ≤ n := by
      have := hI.so_far r
      rw [hp] at this
      exact this.2.1
    refine levels_enter t.files hr ?_
    rcases (readStep_soFar hs (fun q hq => hI.written q hq (hall q hq))
      (hp ▸ hI.so_far r)).2.2 with ⟨b', str, _, hstep⟩ | hstep
    · simp [hp, hstep, CommPhase.level]
    · simp only [hp, hstep, CommPhase.level]
      omega

theorem trace_exchangeInv (hs : ∀ j < n, Holdable (s j)) (hj : ∀ r, (junk r).length = 512)
    {xs : List CommLabel} (h : Trace (CommStep n s junk) (commStart files) xs t) :
    ExchangeInv n s t :=
  invariant_state (exchangeInv_start files) (fun _ _ _ hI => exchangeInv_step hs hj hI) h

theorem trace_length_le (hs : ∀ j < n, Holdable (s j)) (hj : ∀ r, (junk r).length = 512)
    (files : Files) (xs : List CommLabel) (t : CommState)
    (h : Trace (CommStep n s junk) (commStart files) xs t) :
    xs.length ≤ n * (n + 3) := by
  have hle : xs.length ≤ levels n t :=
    length_le_measure (exchangeInv_start files) (fun _ _ _ hI => exchangeInv_step hs hj hI)
      (fun _ _ _ hI => levels_step hs hI) h
  have hbound : levels n t ≤ ∑ _r ∈ Finset.range n, (n + 3) :=
    Finset.sum_le_sum fun r _ => level_le ((trace_exchangeInv hs hj h).so_far r)
  simp only [Finset.sum_const, Finset.card_range, smul_eq_mul] at hbound
  exact hle.trans hbound

/-- Nobody waits forever: a state without a step has every rank ready. -/
theorem terminal_ready (hI : ExchangeInv n s t) (hT : Terminal (CommStep n s junk) t) :
    ∀ r < n, t.phase r = .ready ((List.range n).map (readBack s)) := by
  have hstart : ∀ q < n, t.phase q ≠ .start := by
    intro q hq hp
    exact hT (.write q) _ (if_pos ⟨hq, hp⟩)
  intro r hr
  have hso := hI.so_far r
  cases hp : t.phase r with
  | start => exact absurd hp (hstart r hr)
  | fence => exact absurd (if_pos ⟨hr, hp, hstart⟩) (hT (.leaveFence r) _)
  | reading b ps =>
    have hread : CommStep n s junk t (.read r) (t.enter r (readStep n t.files b ps)) := by
      simp [CommStep, commStep, hp, hr]
    exact absurd hread (hT _ _)
  | ready ps =>
    rw [hp] at hso
    exact congrArg CommPhase.ready hso
  | noFile =>
    rw [hp] at hso
    exact hso.elim
  | fault =>
    rw [hp] at hso
    exact hso.elim

/-- What the exchange is for: entry `j` is looked up from the string rank `j` published, a
rank that is ready has all entries, and no rank gives up or leaves its buffer. -/
def PeersRight (n : ℕ) (s : ℕ → List Char) : CommPhase → Prop
  | .start | .fence => True
  | .reading _ ps => ps = (List.range ps.length).map s
  | .ready ps => ps = (List.range n).map s
  | .noFile | .fault => False

theorem peersRight_of_soFar {p : CommPhase} (hs : ∀ j < n, (s j).length ≤ 509)
    (h : SoFar n s p) : PeersRight n s p := by
  have hmap : ∀ m ≤ n, (List.range m).map (readBack s) = (List.range m).map s := by
    intro m hm
    refine List.map_congr_left fun j hj => List.take_of_length_le (hs j ?_)
    have := List.mem_range.mp hj
    omega
  cases p with
  | reading b ps => exact h.2.2.trans (hmap _ h.2.1)
  | ready ps => exact h.trans (hmap n le_rfl)
  | _ => exact h

/-- The exchange is right in every state of every run, and complete where a run ends. -/
def AddressExchange (n : ℕ) (s junk : ℕ → List Char) (files : Files) : Prop :=
  ∀ xs t, Trace (CommStep n s junk) (commStart files) xs t →
    (∀ r < n, PeersRight n s (t.phase r)) ∧
    (Terminal (CommStep n s junk) t → ∀ r < n, ∃ ps, t.phase r = .ready ps)

/-- The exchange works if and only if no published string is longer than 509 characters:
`fgets` leaves room for one character less than the 512 of `addrstr` hold, and without the
newline in the buffer the character removed is one of the address. -/
theorem address_exchange_iff (hs : ∀ j < n, Holdable (s j)) (hj : ∀ r, (junk r).length = 512)
    (files : Files) :
    AddressExchange n s junk files ↔ ∀ j < n, (s j).length ≤ 509 := by
  constructor
  · intro h j hjn
    obtain ⟨ys, t, ht, hT⟩ :=
      exists_terminal (trace_length_le hs hj files) .refl
    have hready := terminal_ready (trace_exchangeInv hs hj ht) hT j hjn
    have hright := (h _ _ ht).1 j hjn
    rw [hready] at hright
    have hentry : readBack s j = s j :=
      List.map_inj_left.mp hright j (List.mem_range.mpr hjn)
    have hlen := congrArg List.length hentry
    rw [readBack, List.length_take] at hlen
    omega
  · intro hshort xs t ht
    have hI := trace_exchangeInv hs hj ht
    exact ⟨fun r _ => peersRight_of_soFar hshort (hI.so_far r),
      fun hT r hr => ⟨_, terminal_ready hI hT r hr⟩⟩

theorem holdable_replicate {m : ℕ} (h0 : 0 < m) (h1 : m ≤ 511) :
    Holdable (List.replicate m 'a') := by
  have ha : ∀ c, c ∈ List.replicate m 'a' → c = 'a' := fun c hc => List.eq_of_mem_replicate hc
  constructor
  · intro h
    have := congrArg List.length h
    simp only [List.length_replicate, List.length_nil] at this
    omega
  · exact fun h => absurd (ha _ h) (by decide)
  · exact fun h => absurd (ha _ h) (by decide)
  · rwa [List.length_replicate]

theorem address_exchange_of_509 :
    AddressExchange 2 (fun _ => List.replicate 509 'a') (fun _ => List.replicate 512 nul)
      (fun _ => none) :=
  (address_exchange_iff (fun _ _ => holdable_replicate (by decide) (by decide))
    (fun _ => List.length_replicate) _).mpr fun _ _ => (List.length_replicate).le

/-- A server that publishes 510 characters looks itself up from the first 509 of them. -/
theorem address_of_510_truncated :
    Holdable (List.replicate 510 'a') ∧ ∃ xs t,
      Trace (CommStep 1 (fun _ => List.replicate 510 'a') fun _ => List.replicate 512 nul)
        (commStart fun _ => none) xs t ∧
      t.phase 0 = .ready [List.replicate 509 'a'] ∧
      List.replicate 509 'a' ≠ List.replicate 510 'a' := by
  have hs := holdable_replicate (m := 510) (by decide) (by decide)
  have hj : ∀ _ : ℕ, (List.replicate 512 nul).length = 512 := fun _ => List.length_replicate
  obtain ⟨xs, t, ht, hT⟩ := exists_terminal
    (trace_length_le (n := 1) (fun _ _ => hs) hj fun _ => none) .refl
  refine ⟨hs, _, t, ht, ?_, ?_⟩
  · rw [terminal_ready (trace_exchangeInv (fun _ _ => hs) hj ht) hT 0 one_pos]
    simp only [List.range_one, List.map_cons, List.map_nil, readBack, List.take_replicate,
      show min 509 510 = 509 from rfl]
  · intro h
    have := congrArg List.length h
    simp only [List.length_replicate] at this
    omega

end Metasim
