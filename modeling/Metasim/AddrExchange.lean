import Metasim.AddrFile
import Metasim.Lib.Served
import Metasim.ServerStart

/-! `comm_init` in the start-up of the servers: each rank writes and reads the address files in its
own time, and what keeps every reading behind all writings is the fence between the two. -/
namespace Metasim

open Transition Spmd Served

/-- `commStep` as a rank does it, without looking at the others. -/
def fileStep (nranks : ℕ) (published junk : ℕ → List Char) (t : CommState) :
    CommLabel → Option CommState
  | .leaveFence r =>
    if r < nranks ∧ t.phase r = .fence then some (t.enter r (.reading (junk r) [])) else none
  | a => commStep nranks published junk t a

/-- What has come of call `2 * r`, the writing of rank `r`, and of call `2 * r + 1`, its reading. -/
def CommState.exchanged (t : CommState) (i : ℕ) : Option (List (List Char)) :=
  match i % 2, t.phase (i / 2) with
  | 0, .start => none
  | 0, _ => some []
  | _, .ready peers => some peers
  | _, _ => none

/-- The exchange with its fence: to read, a rank needs the files of all. -/
def exchangeService (nranks : ℕ) (published junk : ℕ → List Char) (files : Files) :
    Service CommState CommLabel (List (List Char)) where
  start := commStart files
  step := commStep nranks published junk
  begins
    | .write r => some (2 * r)
    | .leaveFence r => some (2 * r + 1)
    | .read _ => none
  answer := CommState.exchanged
  needs i j := i % 2 = 1 ∧ j % 2 = 0 ∧ j / 2 < nranks

variable {n r i : ℕ} {published junk : ℕ → List Char} {files : Files} {t u : CommState}
  {ys : List CommLabel} {b : CommLabel} {x : List (List Char)}

/-! ## The exchange as a service -/

theorem exchanged_write : t.exchanged (2 * r) = some x ↔ t.phase r ≠ .start ∧ x = [] := by
  have hmod : 2 * r % 2 = 0 := by omega
  have hdiv : 2 * r / 2 = r := by omega
  unfold CommState.exchanged
  rw [hmod, hdiv]
  cases t.phase r <;> simp [eq_comm]

theorem exchanged_read : t.exchanged (2 * r + 1) = some x ↔ t.phase r = .ready x := by
  have hmod : (2 * r + 1) % 2 = 1 := by omega
  have hdiv : (2 * r + 1) / 2 = r := by omega
  unfold CommState.exchanged
  rw [hmod, hdiv]
  cases t.phase r <;> simp

theorem begun_write : (exchangeService n published junk files).Begun ys (2 * r) ↔
    .write r ∈ ys := by
  constructor
  · rintro ⟨a, ha, hbegins⟩
    cases a <;> simp_all [exchangeService]
    omega
  · exact fun h => ⟨_, h, rfl⟩

theorem begun_read : (exchangeService n published junk files).Begun ys (2 * r + 1) ↔
    .leaveFence r ∈ ys := by
  constructor
  · rintro ⟨a, ha, hbegins⟩
    cases a <;> simp_all [exchangeService]
    omega
  · exact fun h => ⟨_, h, rfl⟩

/-- A call is the writing of a rank or its reading. -/
theorem write_or_read (hi : i < 2 * n) : ∃ r < n, i = 2 * r ∨ i = 2 * r + 1 :=
  ⟨i / 2, by omega, by omega⟩

section Phases

variable (hs : ∀ j < n, Holdable (published j))
include hs

/-- The rank of a step goes on, and the others stay where they are. -/
theorem phase_moves (hI : ExchangeInv n published t) (h : CommStep n published junk t b u) :
    ∃ r, (∀ q ≠ r, u.phase q = t.phase q) ∧
      ((b = .write r ∧ t.phase r = .start ∧ u.phase r = .fence) ∨
        (b = .leaveFence r ∧ t.phase r = .fence ∧ u.phase r = .reading (junk r) []) ∨
        (b = .read r ∧ (∃ addrstr peers, t.phase r = .reading addrstr peers) ∧
          ((∃ addrstr peers, u.phase r = .reading addrstr peers) ∨
            ∃ peers, u.phase r = .ready peers))) := by
  rcases commStep_cases h with ⟨r, hr, rfl, hp, rfl⟩ | ⟨r, hr, rfl, hp, -, rfl⟩ |
    ⟨r, hr, addrstr, peers, rfl, hp, rfl⟩
  · refine ⟨r, fun q hq => ?_, Or.inl ⟨rfl, hp, ?_⟩⟩ <;> simp_all [CommState.phase_enter]
  · refine ⟨r, fun q hq => ?_, Or.inr (Or.inl ⟨rfl, hp, ?_⟩)⟩ <;>
      simp_all [CommState.phase_enter]
  · have hall := hI.fenced r addrstr peers hp
    obtain ⟨-, -, hnext⟩ := readStep_soFar hs (fun k hk => hI.written k hk (hall k hk))
      (hp ▸ hI.so_far r)
    refine ⟨r, fun q hq => ?_, Or.inr (Or.inr ⟨rfl, ⟨_, _, hp⟩, ?_⟩)⟩
    · simp [CommState.phase_enter, hq]
    · rw [CommState.phase_enter, if_pos rfl]
      exact hnext.imp (fun ⟨b', str, _, hb⟩ => ⟨b', _, hb⟩) fun hready => ⟨_, hready⟩

/-- How far a rank is tells what it has done. -/
theorem exchange_history (hj : ∀ r, (junk r).length = 512)
    (hrun : Trace (CommStep n published junk) (commStart files) ys t) :
    ∀ r, (.write r ∈ ys ↔ t.phase r ≠ .start) ∧
      (.leaveFence r ∈ ys ↔ t.phase r ≠ .start ∧ t.phase r ≠ .fence) := by
  induction hrun with
  | refl =>
    intro r
    simp [commStart]
  | @snoc ys t u a hrun hstep ih =>
    obtain ⟨r, hother, hself⟩ := phase_moves hs (trace_exchangeInv hs hj hrun) hstep
    intro q
    obtain ⟨hwrite, hleave⟩ := ih q
    by_cases hq : q = r
    · subst hq
      rcases hself with ⟨rfl, hp, hu⟩ | ⟨rfl, hp, hu⟩ |
        ⟨rfl, ⟨addrstr, peers, hp⟩, ⟨addrstr', peers', hu⟩ | ⟨peers', hu⟩⟩ <;>
        simp [hwrite, hleave, hp, hu]
    · rw [hother q hq]
      rcases hself with ⟨rfl, -⟩ | ⟨rfl, -⟩ | ⟨rfl, -⟩ <;> simp [hwrite, hleave, hq]

/-- A file stays written, and a rank that is ready is through. -/
theorem phase_kept (hI : ExchangeInv n published t) (h : CommStep n published junk t b u) (q : ℕ) :
    (t.phase q ≠ .start → u.phase q ≠ .start) ∧
      ∀ peers, t.phase q = .ready peers → u.phase q = .ready peers := by
  obtain ⟨r, hother, hself⟩ := phase_moves hs hI h
  by_cases hq : q = r
  · subst hq
    rcases hself with ⟨-, hp, hu⟩ | ⟨-, hp, hu⟩ |
      ⟨-, ⟨addrstr, peers, hp⟩, ⟨addrstr', peers', hu⟩ | ⟨peers', hu⟩⟩ <;> simp [hp, hu]
  · simp [hother q hq]

end Phases

/-- A rank that reads can read on. -/
theorem exists_read (hI : ExchangeInv n published t) (hr : r < n) (hstart : t.phase r ≠ .start)
    (hfence : t.phase r ≠ .fence) (hready : ∀ peers, t.phase r ≠ .ready peers) :
    ∃ u, CommStep n published junk t (.read r) u := by
  have hso := hI.so_far r
  cases hp : t.phase r with
  | start => exact absurd hp hstart
  | fence => exact absurd hp hfence
  | reading addrstr peers =>
    exact ⟨t.enter r (readStep n t.files addrstr peers), by simp [CommStep, commStep, hp, hr]⟩
  | ready peers => exact absurd hp (hready peers)
  | noFile =>
    rw [hp] at hso
    exact hso.elim
  | fault =>
    rw [hp] at hso
    exact hso.elim

theorem exchangeService_reliable (hs : ∀ j < n, Holdable (published j))
    (hj : ∀ r, (junk r).length = 512) :
    (exchangeService n published junk files).Reliable (2 * n) (n * (n + 3)) where
  can_begin := by
    intro ys t i hrun hi hnot hready
    obtain ⟨r, hr, rfl | rfl⟩ := write_or_read hi
    · rw [begun_write, (exchange_history hs hj hrun r).1, not_not] at hnot
      exact ⟨.write r, _, rfl, if_pos ⟨hr, hnot⟩⟩
    · rw [begun_read, (exchange_history hs hj hrun r).2] at hnot
      -- the fence is left when the calls that this one needs have been answered
      have hall : ∀ q < n, t.phase q ≠ .start := by
        intro q hq
        obtain ⟨x, hx⟩ := hready (2 * q) ⟨by omega, by omega, by omega⟩
        exact (exchanged_write.mp hx).1
      have hfence : t.phase r = .fence := not_not.mp fun h => hnot ⟨hall r hr, h⟩
      exact ⟨.leaveFence r, _, rfl, if_pos ⟨hr, hfence, hall⟩⟩
  progress := by
    intro ys t i hrun hi hbegun hnone
    have hnone : ∀ x, t.exchanged i ≠ some x := Option.eq_none_iff_forall_ne_some.mp hnone
    obtain ⟨r, hr, rfl | rfl⟩ := write_or_read hi
    · have hwritten := (exchange_history hs hj hrun r).1.mp (begun_write.mp hbegun)
      exact absurd (exchanged_write.mpr ⟨hwritten, rfl⟩) (hnone [])
    · obtain ⟨hstart, hfence⟩ := (exchange_history hs hj hrun r).2.mp (begun_read.mp hbegun)
      obtain ⟨u, hu⟩ : ∃ u, CommStep n published junk t (.read r) u :=
        exists_read (trace_exchangeInv hs hj hrun) hr hstart hfence fun peers hp =>
          hnone peers (exchanged_read.mpr hp)
      exact ⟨.read r, u, rfl, hu⟩
  stable := by
    intro ys t a u i x hrun hstep hx
    have hkept := phase_kept hs (trace_exchangeInv hs hj hrun) hstep
    rcases Nat.even_or_odd' i with ⟨r, rfl | rfl⟩
    · obtain ⟨hne, rfl⟩ := exchanged_write.mp hx
      exact exchanged_write.mpr ⟨(hkept r).1 hne, rfl⟩
    · exact exchanged_read.mpr ((hkept r).2 x (exchanged_read.mp hx))
  length_le := fun hrun => trace_length_le hs hj files _ _ hrun

/-! ## In the start-up -/

/-- The strings that the servers publish, what their buffers hold before, and the files that are
left over from earlier. -/
structure ExchangeArgs extends ServerArgs where
  published : ℕ → List Char
  junk : ℕ → List Char
  files : Files
  holdable : ∀ j < nranks, Holdable (published j)
  junk_length : ∀ r, (junk r).length = 512

namespace ExchangeArgs

variable (A : ExchangeArgs)

/-- `main` on all ranks over the files. -/
def startUp : Layer (Fin A.nranks) ServerCall CommState CommLabel (List (List Char)) where
  program := A.serverMain
  uses rank
    | .commInit => if A.margoInit rank then some (2 * rank) else none
    | .readAddrFile => some (2 * rank + 1)
    | _ => none
  service := { exchangeService A.nranks A.published A.junk A.files with
    step := fileStep A.nranks A.published A.junk }

/-- The same with the fence as a guard of the files. -/
abbrev fencedStartUp :
    Layer (Fin A.nranks) ServerCall CommState CommLabel (List (List Char)) :=
  A.startUp.restrict (commStep A.nranks A.published A.junk)

/-- `peer_addrs` when it is complete -/
def peerAddrs : List (List Char) := (List.range A.nranks).map (readBack A.published)

variable {A} {xs : List (Label (Fin A.nranks) ServerCall CommLabel)}
  {s u : State (Fin A.nranks) ServerCall × CommState} {p q : Fin A.nranks} {c : ServerCall}
  {i j : ℕ}

theorem reliable (A : ExchangeArgs) :
    A.fencedStartUp.service.Reliable (2 * A.nranks) (A.nranks * (A.nranks + 3)) :=
  exchangeService_reliable A.holdable A.junk_length

theorem readAddrFile_of_odd (hi : A.startUp.uses p c = some i) (hodd : i % 2 = 1) :
    c = .readAddrFile := by
  cases c with
  | commInit =>
    have huses : (if A.margoInit p then some (2 * p.val) else none) = some i := hi
    split_ifs at huses
    have := Option.some.inj huses
    omega
  | readAddrFile => rfl
  | _ => cases hi

/-- A rank that reads is behind the fence, and all have written in front of it. -/
theorem ordered (A : ExchangeArgs) : A.startUp.Ordered := by
  intro xs s hrun p c i hc hi j hij
  obtain ⟨hodd, heven, hlt⟩ := hij
  obtain rfl := readAddrFile_of_odd hi hodd
  have hI := ServerArgs.fencedInv hrun
  have hreached := (hI.walks p).reached hc
  let q : Fin A.nranks := ⟨j / 2, hlt⟩
  have hinit := ServerArgs.margoInit_of_reached hI hreached Nat.one_pos q
  have hbefore := hI.happens_before A.phased hreached (q := q) List.mem_cons_self Nat.one_pos
  have hwritten := hbefore.2 rfl
  refine ⟨q, .commInit, hwritten, ?_⟩
  change (if A.margoInit q then some (2 * (j / 2)) else none) = _
  rw [if_pos hinit]
  congr 1
  omega

theorem uses_lt (p : Fin A.nranks) : ∀ c ∈ A.path p, ∀ i, A.startUp.uses p c = some i →
    i < 2 * A.nranks := by
  intro c _ i hi
  have hp := p.isLt
  cases c with
  | commInit =>
    have huses : (if A.margoInit p then some (2 * p.val) else none) = some i := hi
    split_ifs at huses
    have := Option.some.inj huses
    omega
  | readAddrFile =>
    have : 2 * p.val + 1 = i := Option.some.inj hi
    omega
  | _ => cases hi

/-- The fence of `comm_init` is the guard. -/
theorem run_fenced (hrun : A.startUp.Run xs s) : A.fencedStartUp.Run xs s := by
  refine hrun.restrict fun xs s b u hrun hs => ?_
  obtain ⟨hserve, -, hasked⟩ := step_serve.mp hs
  cases b with
  | leaveFence r =>
    obtain ⟨⟨hr, hfence⟩, hu⟩ := Option.ite_none_right_eq_some.mp hserve
    have hall : ∀ q < A.nranks, s.2.phase q ≠ .start := by
      intro q hq
      obtain ⟨x, hx⟩ := ready_of_asked (L := A.fencedStartUp) A.reliable hrun A.ordered
        (hasked (2 * r + 1) rfl) (j := 2 * q) ⟨by omega, by omega, by omega⟩
      exact (exchanged_write.mp hx).1
    rw [commStep, if_pos ⟨hr, hfence, hall⟩]
    exact hu
  | _ => exact hserve

theorem exchangeInv (hrun : A.fencedStartUp.Run xs s) : ExchangeInv A.nranks A.published s.2 :=
  trace_exchangeInv A.holdable A.junk_length hrun.serves

/-- A rank that is through with `comm_init` has all addresses. -/
theorem ready_of_returned (hrun : A.fencedStartUp.Run xs s)
    (hp : .readAddrFile ∈ returned p (mains xs)) : s.2.phase p = .ready A.peerAddrs := by
  have huses : A.fencedStartUp.uses p .readAddrFile = some (2 * p.val + 1) := rfl
  obtain ⟨peers, hpeers⟩ := answer_of_returned A.reliable hrun hp huses
  have hready := exchanged_read.mp hpeers
  have hso := (exchangeInv hrun).so_far p
  rw [hready] at hso
  rw [hready, hso]
  rfl

theorem no_reading (hq : A.margoInit q = false) (hrun : A.fencedStartUp.Run xs s) (r : ℕ) :
    .leaveFence r ∉ serves xs := by
  intro hr
  obtain ⟨p, c, hc, huses⟩ := entered_of_begun ServerArgs.follows_path hrun (begun_read.mpr hr)
  obtain rfl := readAddrFile_of_odd huses (by omega)
  have hI := ServerArgs.fencedInv hrun.mains
  have hreached := (hI.walks p).reached_of_entered hc
  have hinit := ServerArgs.margoInit_of_reached hI hreached Nat.one_pos q
  simp [hq] at hinit

end ExchangeArgs

open ExchangeArgs

/-- The start-up over the files, whatever they hold before. It takes the steps of the exchange with
a fence, no rank gives up or leaves its buffer, and where a rank invokes or listens all have the
addresses of all. Without margo on a rank no file is read; with margo on all no rank is left
waiting, and a run ends. -/
theorem addresses_exchanged {A : ExchangeArgs}
    {xs : List (Label (Fin A.nranks) ServerCall CommLabel)}
    {s : State (Fin A.nranks) ServerCall × CommState} (hrun : A.startUp.Run xs s) :
    Trace (CommStep A.nranks A.published A.junk) (commStart A.files) (serves xs) s.2 ∧
    (∀ r, s.2.phase r ≠ .noFile ∧ s.2.phase r ≠ .fault) ∧
    (∀ p, ∀ c ∈ entered p (mains xs), c.test ≠ none ∨ c = .listenerInit →
      ∀ q < A.nranks, s.2.phase q = .ready A.peerAddrs) ∧
    ((∀ j < A.nranks, (A.published j).length ≤ 509) →
      A.peerAddrs = (List.range A.nranks).map A.published) ∧
    ((∃ rank < A.nranks, A.margoInit rank = false) → ∀ r, .leaveFence r ∉ serves xs) ∧
    ((∀ rank < A.nranks, A.margoInit rank = true) → (∃ rank, s.1.current rank ≠ none) →
      ∃ a u, A.startUp.Step s a u) ∧
    xs.length ≤ ∑ rank, 2 * (A.path rank).length + A.nranks * (A.nranks + 3) := by
  have hfenced := run_fenced hrun
  have hI := exchangeInv hfenced
  refine ⟨hfenced.serves, fun r => ?_, fun p c hc hlate q hq => ?_, fun hshort => ?_, ?_,
    fun hinit => ?_, Layer.Run.length_le A.reliable ServerArgs.follows_path hfenced⟩
  · have hso := hI.so_far r
    constructor <;>
    · intro hp
      rw [hp] at hso
      exact hso
  · obtain ⟨hread, -⟩ := ServerArgs.linked_of_entered (ServerArgs.fencedInv hrun.mains) hc hlate
      ⟨q, hq⟩
    exact ready_of_returned hfenced hread
  · refine List.map_congr_left fun j hj => List.take_of_length_le ?_
    exact hshort j (List.mem_range.mp hj)
  · rintro ⟨q, hq, hno⟩
    exact no_reading (q := ⟨q, hq⟩) hno hfenced
  · rintro ⟨rank, h⟩
    obtain ⟨a, u, hs⟩ := hfenced.progress (ServerArgs.aligned hinit) A.reliable A.ordered uses_lt h
    refine ⟨a, u, step_of_restrict (fun v b w hv => ?_) hs⟩
    cases b with
    | leaveFence r =>
      obtain ⟨⟨hr, hfence, -⟩, hw⟩ := Option.ite_none_right_eq_some.mp hv
      exact Option.ite_none_right_eq_some.mpr ⟨⟨hr, hfence⟩, hw⟩
    | _ => exact hv

/-- Two servers, with a file that an earlier run has left. -/
def twoFiles : ExchangeArgs where
  toServerArgs := twoServers
  published r := List.replicate (r + 1) 'a'
  junk _ := List.replicate 512 CString.nul
  files := writeAddrFile (fun _ => none) 1 ['b']
  holdable j hj := holdable_replicate (Nat.succ_pos j) (by have : j < 2 := hj; omega)
  junk_length _ := List.length_replicate

theorem addresses_exchanged_two : ∃ xs s, twoFiles.startUp.Run xs s ∧
    (∀ rank, s.1.current rank = none) ∧ s.2.phase 0 = .ready [['a'], ['a', 'a']] := by
  obtain ⟨xs, s, hrun, hT⟩ := exists_terminal
    (fun xs s hrun => (addresses_exchanged (A := twoFiles) hrun).2.2.2.2.2.2) .refl
  have hrun : twoFiles.startUp.Run xs s := hrun
  obtain ⟨-, -, hall, -, -, hgoes, -⟩ := addresses_exchanged (A := twoFiles) hrun
  have hdone : ∀ rank, s.1.current rank = none := by
    intro rank
    by_contra hrank
    obtain ⟨a, u, hs⟩ := hgoes (fun _ _ => rfl) ⟨rank, hrank⟩
    exact hT a u hs
  let first : Fin twoFiles.nranks := (0 : Fin 2)
  have hlisten : .listenerInit ∈ entered first (mains xs) := by
    rw [((walks_trace ServerArgs.follows_path hrun.mains first).finished (hdone first)).1]
    decide
  exact ⟨xs, s, hrun, hdone, hall first _ hlisten (Or.inr rfl) 0 (by decide)⟩

end Metasim
