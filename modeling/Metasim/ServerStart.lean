import Metasim.Lib.Spmd

/-! Start-up of the servers, `main` of `metasim-server.c`: what every rank does between the fences
until it listens to its clients. Options, log files and their links are left out. -/
namespace Metasim

open Transition Spmd

/-- The argument of `test_ping` and `test_sum`, 0 or -1. -/
inductive Test
  | first
  | all
deriving Repr, DecidableEq

def Test.rank : Test → ℤ
  | first => 0
  | all => -1

/-- `rank >= 0 && rank != metasim->rank` leaves a test at once. -/
def Test.takesPart (t : Test) (rank : ℕ) : Bool :=
  !(decide (0 ≤ t.rank) && decide (t.rank ≠ rank))

/-- The calls of `__fence`, in `comm_init` and in `main` -/
inductive Fence
  | reading
  | linked
  | initialized
  | pinged (t : Test)
  | summed (t : Test)
deriving Repr, DecidableEq

/-- `commInit` is `comm_init` up to its fence, `readAddrFile` the rest of it; `ping` and `sum` are
the invocations of `test_ping` and `test_sum`. -/
inductive ServerCall
  | commInit
  | readAddrFile
  | commProbePeers
  | rpcRegister
  | fence (f : Fence)
  | ping (t : Test) (target : ℕ)
  | sum (t : Test)
  | listenerInit
deriving Repr, DecidableEq

namespace ServerCall

/-- `MPI_Barrier` -/
def collective : ServerCall → Bool
  | fence _ => true
  | _ => false

/-- An invocation of the self test -/
def test : ServerCall → Option Test
  | ping t _ => some t
  | sum t => some t
  | _ => none

end ServerCall

/-- `margoInit` are the ranks on which `margo_init` succeeds. -/
structure ServerArgs where
  nranks : ℕ
  selftest : Bool
  margoInit : ℕ → Bool

namespace ServerArgs

variable (A : ServerArgs)

/-- The loop of `test_ping`, from `i` on -/
def pingLoop (rank : Fin A.nranks) (t : Test) (i : ℕ) : ServerCall :=
  let i := if i = rank.val then i + 1 else i
  if i < A.nranks then .ping t i else .fence (.pinged t)

def testPing (rank : Fin A.nranks) (t : Test) : ServerCall :=
  if t.takesPart rank then A.pingLoop rank t 0 else .fence (.pinged t)

def testSum (rank : Fin A.nranks) (t : Test) : ServerCall :=
  if t.takesPart rank then .sum t else .fence (.summed t)

/-- Where a server goes from a call. -/
def nextCall (rank : Fin A.nranks) : ServerCall → Option ServerCall
  -- without margo a server cleans up and is gone
  | .commInit => if A.margoInit rank then some (.fence .reading) else none
  | .fence .reading => some .readAddrFile
  | .readAddrFile => some (.fence .linked)
  | .fence .linked => if rank.val = 0 then some .commProbePeers else some .rpcRegister
  | .commProbePeers => some .rpcRegister
  | .rpcRegister => some (.fence .initialized)
  | .fence .initialized => some (if A.selftest then A.testPing rank .first else .listenerInit)
  | .ping t i => some (A.pingLoop rank t (i + 1))
  | .fence (.pinged .first) => some (A.testPing rank .all)
  | .fence (.pinged .all) => some (A.testSum rank .first)
  | .sum t => some (.fence (.summed t))
  | .fence (.summed .first) => some (A.testSum rank .all)
  | .fence (.summed .all) => some .listenerInit
  -- `margo_wait_for_finalize`
  | .listenerInit => none

/-- `main` on all ranks -/
def serverMain : Program (Fin A.nranks) ServerCall where
  first _ := some .commInit
  next := A.nextCall
  collective := ServerCall.collective
  held _ := ServerCall.collective

/-! ## The calls of a rank, one after the other -/

def pings (rank : Fin A.nranks) (t : Test) : List ServerCall :=
  if t.takesPart rank then ((List.range A.nranks).filter (· ≠ rank.val)).map (.ping t) else []

def sums (rank : Fin A.nranks) (t : Test) : List ServerCall :=
  if t.takesPart rank then [.sum t] else []

def selfTest (rank : Fin A.nranks) : List ServerCall :=
  A.pings rank .first ++ .fence (.pinged .first) :: (A.pings rank .all ++ .fence (.pinged .all) ::
    (A.sums rank .first ++ .fence (.summed .first) :: (A.sums rank .all ++
      [.fence (.summed .all)])))

def afterInit (rank : Fin A.nranks) : List ServerCall :=
  [.fence .reading, .readAddrFile, .fence .linked] ++
    (if rank.val = 0 then [.commProbePeers] else []) ++ [.rpcRegister, .fence .initialized] ++
    (if A.selftest then A.selfTest rank else []) ++ [.listenerInit]

def path (rank : Fin A.nranks) : List ServerCall :=
  .commInit :: if A.margoInit rank then A.afterInit rank else []

/-- The fences in front of a call -/
def phase : ServerCall → ℕ
  | .commInit | .fence .reading => 0
  | .readAddrFile | .fence .linked => 1
  | .commProbePeers | .rpcRegister | .fence .initialized => 2
  | .ping .first _ | .fence (.pinged .first) => 3
  | .ping .all _ | .fence (.pinged .all) => 4
  | .sum .first | .fence (.summed .first) => 5
  | .sum .all | .fence (.summed .all) => 6
  | .listenerInit => if A.selftest then 7 else 3

variable {A} {rank : Fin A.nranks} {i m : ℕ} {t : Test} {rest : List ServerCall}

theorem pingLoop_self : A.pingLoop rank t rank.val = A.pingLoop rank t (rank.val + 1) := by
  simp [pingLoop]

/-- Induction on the turns still to come. -/
theorem follows_pingLoop
    (hrest : Follows (A.nextCall rank) (A.nextCall rank (.fence (.pinged t))) rest)
    (hm : i + m = A.nranks) : Follows (A.nextCall rank) (some (A.pingLoop rank t i))
      (((List.range' i m).filter (· ≠ rank.val)).map (.ping t) ++ .fence (.pinged t) :: rest) := by
  induction m generalizing i with
  | zero =>
    have hnot : ¬ (if i = rank.val then i + 1 else i) < A.nranks := by split_ifs <;> omega
    exact ⟨congrArg some (if_neg hnot), hrest⟩
  | succ m ih =>
    have ih := ih (i := i + 1) (by omega)
    rw [List.range'_succ]
    by_cases hi : i = rank.val
    · have hturn : A.pingLoop rank t i = A.pingLoop rank t (i + 1) := by rw [hi, pingLoop_self]
      rw [List.filter_cons_of_neg (by simp [hi]), hturn]
      exact ih
    · rw [List.filter_cons_of_pos (by simp [hi]), List.map_cons, List.cons_append]
      refine ⟨?_, ih⟩
      rw [pingLoop, if_neg hi, if_pos (by omega)]

theorem follows_testPing
    (hrest : Follows (A.nextCall rank) (A.nextCall rank (.fence (.pinged t))) rest) :
    Follows (A.nextCall rank) (some (A.testPing rank t))
      (A.pings rank t ++ .fence (.pinged t) :: rest) := by
  unfold testPing pings
  split_ifs
  · have hloop := follows_pingLoop hrest (Nat.zero_add A.nranks)
    rwa [← List.range_eq_range'] at hloop
  · exact ⟨rfl, hrest⟩

theorem follows_testSum
    (hrest : Follows (A.nextCall rank) (A.nextCall rank (.fence (.summed t))) rest) :
    Follows (A.nextCall rank) (some (A.testSum rank t))
      (A.sums rank t ++ .fence (.summed t) :: rest) := by
  unfold testSum sums
  split_ifs
  · exact ⟨rfl, rfl, hrest⟩
  · exact ⟨rfl, hrest⟩

theorem follows_selfTest (rank : Fin A.nranks) : Follows (A.nextCall rank)
    (some (A.testPing rank .first)) (A.selfTest rank ++ [.listenerInit]) := by
  have hlast : Follows (A.nextCall rank) (some .listenerInit) [.listenerInit] := ⟨rfl, rfl⟩
  have hsums := follows_testSum (t := .first) (follows_testSum (t := .all) hlast)
  simpa [selfTest] using follows_testPing (t := .first) (follows_testPing (t := .all) hsums)

theorem follows_initialized (rank : Fin A.nranks) :
    Follows (A.nextCall rank) (A.nextCall rank (.fence .initialized))
      ((if A.selftest then A.selfTest rank else []) ++ [.listenerInit]) := by
  rw [nextCall]
  split_ifs
  · exact follows_selfTest rank
  · exact ⟨rfl, rfl⟩

theorem follows_linked
    (hrest : Follows (A.nextCall rank) (A.nextCall rank (.fence .initialized)) rest) :
    Follows (A.nextCall rank) (A.nextCall rank (.fence .linked))
      ((if rank.val = 0 then [.commProbePeers] else []) ++
        .rpcRegister :: .fence .initialized :: rest) := by
  rw [nextCall]
  split_ifs
  · exact ⟨rfl, rfl, rfl, hrest⟩
  · exact ⟨rfl, rfl, hrest⟩

theorem follows_path (rank : Fin A.nranks) :
    Follows (A.serverMain.next rank) (A.serverMain.first rank) (A.path rank) := by
  refine ⟨rfl, ?_⟩
  change Follows (A.nextCall rank) (if _ then _ else _) _
  split_ifs
  · have hlinked := follows_linked (follows_initialized rank)
    simpa [afterInit] using ⟨rfl, rfl, rfl, hlinked⟩
  · rfl

theorem fenced (A : ServerArgs) : A.serverMain.Fenced := fun _ _ h => h

/-! ## Fences and phases -/

theorem mem_pings {c : ServerCall} (h : c ∈ A.pings rank t) : ∃ i, c = .ping t i := by
  unfold pings at h
  split_ifs at h
  · obtain ⟨i, -, rfl⟩ := List.mem_map.mp h
    exact ⟨i, rfl⟩
  · cases h

theorem mem_sums {c : ServerCall} (h : c ∈ A.sums rank t) : c = .sum t := by
  unfold sums at h
  split_ifs at h
  · exact List.mem_singleton.mp h
  · cases h

theorem countP_pings : (A.pings rank t).countP ServerCall.collective = 0 := by
  refine List.countP_eq_zero.mpr fun c hc => ?_
  obtain ⟨i, rfl⟩ := mem_pings hc
  exact Bool.false_ne_true

theorem countP_sums : (A.sums rank t).countP ServerCall.collective = 0 := by
  refine List.countP_eq_zero.mpr fun c hc => ?_
  rw [mem_sums hc]
  exact Bool.false_ne_true

theorem counted_pings : Counted ServerCall.collective A.phase (A.phase (.fence (.pinged t)))
    (A.pings rank t) := by
  refine counted_own fun c hc => ?_
  obtain ⟨i, rfl⟩ := mem_pings hc
  cases t <;> exact ⟨rfl, rfl⟩

theorem counted_sums : Counted ServerCall.collective A.phase (A.phase (.fence (.summed t)))
    (A.sums rank t) := by
  refine counted_own fun c hc => ?_
  rw [mem_sums hc]
  cases t <;> exact ⟨rfl, rfl⟩

theorem counted_selfTest (rank : Fin A.nranks) :
    Counted ServerCall.collective A.phase 3 (A.selfTest rank) := by
  unfold selfTest
  simp only [counted_append, countP_pings, countP_sums, Counted, ServerCall.collective, if_true,
    and_true, Nat.add_zero, Nat.reduceAdd]
  exact ⟨counted_pings (t := .first), rfl, counted_pings (t := .all), rfl,
    counted_sums (t := .first), rfl, counted_sums (t := .all), rfl⟩

theorem countP_selfTest (rank : Fin A.nranks) :
    (A.selfTest rank).countP ServerCall.collective = 4 := by
  simp only [selfTest, List.countP_append, List.countP_cons, List.countP_nil, countP_pings,
    countP_sums, ServerCall.collective, if_true]

theorem counted_afterInit (rank : Fin A.nranks) :
    Counted ServerCall.collective A.phase 0 (A.afterInit rank) := by
  unfold afterInit
  by_cases hr : rank.val = 0 <;> by_cases ht : A.selftest = true <;>
    simp [hr, ht, counted_append, counted_selfTest, countP_selfTest, Counted,
      ServerCall.collective, phase]

theorem counted_path (rank : Fin A.nranks) :
    Counted ServerCall.collective A.phase 0 (A.path rank) := by
  refine ⟨rfl, ?_⟩
  change Counted ServerCall.collective A.phase 0 (if A.margoInit rank then A.afterInit rank else [])
  split_ifs
  · exact counted_afterInit rank
  · trivial

theorem phased (A : ServerArgs) : Phased A.serverMain A.path A.phase :=
  phased_of_counted counted_path

def fences (A : ServerArgs) : List ServerCall :=
  [.fence .reading, .fence .linked, .fence .initialized] ++
    if A.selftest then [.fence (.pinged .first), .fence (.pinged .all), .fence (.summed .first),
      .fence (.summed .all)] else []

theorem filter_eq_nil {l : List ServerCall} (h : l.countP ServerCall.collective = 0) :
    l.filter ServerCall.collective = [] := by
  rwa [List.countP_eq_length_filter, List.length_eq_zero_iff] at h

theorem filter_path (hinit : A.margoInit rank = true) :
    (A.path rank).filter ServerCall.collective = A.fences := by
  have htest : (A.selfTest rank).filter ServerCall.collective = [.fence (.pinged .first),
      .fence (.pinged .all), .fence (.summed .first), .fence (.summed .all)] := by
    simp [selfTest, List.filter_cons, filter_eq_nil countP_pings, filter_eq_nil countP_sums,
      ServerCall.collective]
  unfold path afterInit fences
  rw [if_pos hinit]
  by_cases hr : rank.val = 0 <;> by_cases ht : A.selftest = true <;>
    simp [hr, ht, htest, List.filter_cons, ServerCall.collective]

theorem aligned (hinit : ∀ rank < A.nranks, A.margoInit rank = true) :
    Aligned A.serverMain A.path A.fences :=
  ⟨follows_path, fun rank => filter_path (hinit rank rank.isLt)⟩

/-! ## What the fences give -/

variable {xs : List (Fin A.nranks × Event ServerCall)} {s : State (Fin A.nranks) ServerCall}
  {p q : Fin A.nranks} {c d : ServerCall}

theorem fencedInv (hrun : Trace (Step A.serverMain) A.serverMain.start xs s) :
    FencedInv A.serverMain A.path xs s := fencedInv_trace A.fenced follows_path hrun

/-- Behind the first fence all ranks have margo. -/
theorem margoInit_of_reached (hI : FencedInv A.serverMain A.path xs s)
    (hc : Reached (A.path p) xs p c) (hpos : 0 < A.phase c) (q : Fin A.nranks) :
    A.margoInit q = true := by
  by_contra hno
  have hpath : A.path q = [.commInit] := by rw [path, if_neg hno]
  have hle := hI.phase_le_made A.phased hc q
  have hcount := (hI.walks q).entered_initial.sublist.countP_le (p := A.serverMain.collective)
  rw [← (hI.walks q).made_eq, hpath] at hcount
  have : s.made q ≤ 0 := hcount
  omega

theorem mem_path_of_margoInit (hinit : A.margoInit rank = true) (hc : c ∈ A.afterInit rank) :
    c ∈ A.path rank := by
  rw [path, if_pos hinit]
  exact List.mem_cons_of_mem _ hc

theorem phase_test (h : c.test ≠ none) : 3 ≤ A.phase c ∧ A.phase c ≤ 6 ∧ c.collective = false := by
  cases c with
  | ping t i => cases t <;> simp [phase, ServerCall.collective]
  | sum t => cases t <;> simp [phase, ServerCall.collective]
  | _ => simp [ServerCall.test] at h

theorem phase_listenerInit : 3 ≤ A.phase .listenerInit := by
  simp only [phase]
  split_ifs <;> omega

theorem test_of_mem_path (hc : c ∈ A.path rank) (ht : c.test = some t) :
    A.selftest = true ∧ t.takesPart rank = true := by
  have hpings : ∀ u, c ∈ A.pings rank u → t.takesPart rank = true := by
    intro u h
    obtain ⟨i, rfl⟩ := mem_pings h
    obtain rfl : u = t := Option.some.inj ht
    unfold pings at h
    split_ifs at h with htake
    · exact htake
    · cases h
  have hsums : ∀ u, c ∈ A.sums rank u → t.takesPart rank = true := by
    intro u h
    obtain rfl := mem_sums h
    obtain rfl : u = t := Option.some.inj ht
    unfold sums at h
    split_ifs at h with htake
    · exact htake
    · cases h
  have hmem : A.selftest = true ∧ (c ∈ A.pings rank .first ∨ c ∈ A.pings rank .all ∨
      c ∈ A.sums rank .first ∨ c ∈ A.sums rank .all) := by
    unfold path afterInit selfTest at hc
    cases c with
    | ping u i => split_ifs at hc <;> simp_all
    | sum u => split_ifs at hc <;> simp_all
    | _ => simp [ServerCall.test] at ht
  refine ⟨hmem.1, ?_⟩
  rcases hmem.2 with h | h | h | h
  · exact hpings _ h
  · exact hpings _ h
  · exact hsums _ h
  · exact hsums _ h

theorem rank_of_first (hc : c ∈ A.path rank) (ht : c.test = some .first) : rank.val = 0 := by
  have := (test_of_mem_path hc ht).2
  simpa [Test.takesPart, Test.rank, eq_comm] using this

/-- Where a rank has no margo none comes back from the first fence. -/
theorem returned_le_commInit (hI : FencedInv A.serverMain A.path xs s)
    (hq : A.margoInit q = false) (p : Fin A.nranks) : returned p xs <+: [.commInit] := by
  have hcount : (returned p xs).countP ServerCall.collective = 0 := by
    have hpath : A.path q = [.commInit] := by simp [path, hq]
    have hle := hI.returned_le p q
    rw [hpath] at hle
    exact Nat.le_zero.mp hle
  have hret := (hI.walks p).returned_initial
  have hfirst := List.prefix_append [ServerCall.commInit]
    (if A.margoInit p then A.afterInit p else [])
  rcases List.prefix_or_prefix_of_prefix hret hfirst with h | ⟨r, hr⟩
  · exact h
  · rw [← hr] at hret hcount ⊢
    cases r with
    | nil => exact List.prefix_rfl
    | cons c r =>
      obtain ⟨t, ht⟩ := hret
      have htail : c :: r ++ t = if A.margoInit p then A.afterInit p else [] := by
        simpa [path] using ht
      split_ifs at htail
      · obtain rfl : c = .fence .reading := (List.cons.inj htail).1
        simp [List.countP_cons, ServerCall.collective] at hcount
      · simp at htail

/-- A run that cannot go on has the others waiting at the first fence. -/
theorem stuck_at_first_fence (hI : FencedInv A.serverMain A.path xs s)
    (hq : A.margoInit q = false) (hT : Terminal (Step A.serverMain) s) (p : Fin A.nranks) :
    if A.margoInit p then s.current p = some (.fence .reading) ∧ s.inside p = true
    else s.current p = none := by
  have hret := returned_le_commInit hI hq p
  have hw := hI.walks p
  cases hc : s.current p with
  | none =>
    rw [(hw.finished hc).2] at hret
    split_ifs with hp
    · simp [path, hp, afterInit] at hret
    · rfl
  | some c =>
    have hin : s.inside p = true := by
      by_contra hout
      exact hT _ _ (step_enter.mpr ⟨hc, by simpa using hout, rfl⟩)
    have hcoll : c.collective = true := by
      by_contra hown
      exact hT _ _ (step_leave.mpr ⟨hc, hin, fun h => absurd h hown, rfl⟩)
    obtain ⟨rest, -, hpath⟩ := hw.path_eq hc
    have hreading : A.margoInit p = true ∧ c = .fence .reading := by
      cases hr : returned p xs with
      | nil =>
        rw [hr] at hpath
        obtain rfl : c = .commInit := (List.cons.inj hpath).1
        exact absurd hcoll Bool.false_ne_true
      | cons d r =>
        obtain ⟨l, hl⟩ := hret
        rw [hr] at hl
        obtain ⟨rfl, rfl⟩ : d = .commInit ∧ r = [] := by
          have := List.cons.inj hl
          exact ⟨this.1, (List.append_eq_nil_iff.mp this.2).1⟩
        have htail : c :: rest = if A.margoInit p then A.afterInit p else [] := by
          simpa [hr, path] using hpath
        split_ifs at htail with hp
        exact ⟨hp, (List.cons.inj htail).1⟩
    rw [if_pos hreading.1, hreading.2]
    exact ⟨rfl, hin⟩

theorem count_pings (u t : Test) (q : Fin A.nranks) : (A.pings p u).count (.ping t q) =
    if u = t ∧ u.takesPart p = true ∧ q ≠ p then 1 else 0 := by
  unfold pings
  by_cases hu : u = t
  · subst hu
    have hinj : Function.Injective (ServerCall.ping u) := fun _ _ h => (ServerCall.ping.inj h).2
    by_cases htake : u.takesPart p = true
    · rw [if_pos htake, List.count_map_of_injective _ _ hinj, (List.nodup_range.filter _).count]
      simp [htake, Fin.val_inj]
    · simp [htake]
  · split_ifs <;> simp_all [List.count_eq_zero]

theorem count_sums (u t : Test) : (A.sums p u).count (.sum t) =
    if u = t ∧ u.takesPart p = true then 1 else 0 := by
  unfold sums
  by_cases hu : u = t
  · subst hu
    by_cases htake : u.takesPart p = true <;> simp [htake]
  · split_ifs <;> simp_all

theorem count_ping (hinit : A.margoInit p = true) (htest : A.selftest = true) (t : Test)
    (q : Fin A.nranks) : (A.path p).count (.ping t q) =
      if t.takesPart p = true ∧ q ≠ p then 1 else 0 := by
  have hsums : ∀ u, (A.sums p u).count (.ping t q) = 0 := fun u =>
    List.count_eq_zero.mpr fun h => by simpa using mem_sums h
  have hprobe : (if p.val = 0 then [ServerCall.commProbePeers] else []).count (.ping t q) = 0 := by
    split_ifs <;> simp
  rw [path, if_pos hinit, afterInit, if_pos htest, selfTest]
  simp only [List.count_cons, List.count_append, List.count_nil, count_pings, hsums, hprobe]
  cases t <;> simp

theorem count_sum (hinit : A.margoInit p = true) (htest : A.selftest = true) (t : Test) :
    (A.path p).count (.sum t) = if t.takesPart p = true then 1 else 0 := by
  have hpings : ∀ u, (A.pings p u).count (.sum t) = 0 := fun u =>
    List.count_eq_zero.mpr fun h => by simpa using mem_pings h
  have hprobe : (if p.val = 0 then [ServerCall.commProbePeers] else []).count (.sum t) = 0 := by
    split_ifs <;> simp
  rw [path, if_pos hinit, afterInit, if_pos htest, selfTest]
  simp only [List.count_cons, List.count_append, List.count_nil, count_sums, hpings, hprobe]
  cases t <;> simp

/-- A rank that invokes or listens does so when all have the addresses and their handlers. -/
theorem linked_of_entered (hI : FencedInv A.serverMain A.path xs s) (hc : c ∈ entered p xs)
    (hlate : c.test ≠ none ∨ c = .listenerInit) (q : Fin A.nranks) :
    .readAddrFile ∈ returned q xs ∧ .rpcRegister ∈ returned q xs := by
  have hreached := (hI.walks p).reached_of_entered hc
  have hphase : 3 ≤ A.phase c := by
    rcases hlate with ht | rfl
    · exact (phase_test ht).1
    · exact phase_listenerInit
  have hinit := margoInit_of_reached hI hreached (by omega) q
  have hread : A.phase .readAddrFile = 1 := rfl
  have hregister : A.phase .rpcRegister = 2 := rfl
  constructor
  · have hmem := mem_path_of_margoInit (c := .readAddrFile) hinit (by simp [afterInit])
    exact (hI.happens_before A.phased hreached hmem (by omega)).2 rfl
  · have hmem := mem_path_of_margoInit (c := .rpcRegister) hinit (by simp [afterInit])
    exact (hI.happens_before A.phased hreached hmem (by omega)).2 rfl

/-- A rank that listens has all tests of all ranks behind it. -/
theorem tested_of_listening (hI : FencedInv A.serverMain A.path xs s)
    (hc : .listenerInit ∈ entered p xs) (hd : d ∈ A.path q) (hdt : d.test ≠ none) :
    d ∈ returned q xs := by
  obtain ⟨t, ht⟩ := Option.ne_none_iff_exists'.mp hdt
  have hphase : A.phase .listenerInit = 7 := if_pos (test_of_mem_path hd ht).1
  obtain ⟨-, hle, hown⟩ := phase_test (A := A) hdt
  have hreached := (hI.walks p).reached_of_entered hc
  exact (hI.happens_before A.phased hreached hd (by omega)).2 hown

end ServerArgs

open ServerArgs

/-- The fences of the start-up. No rank reads the addresses before all have written theirs, none
invokes or listens before all have read the addresses and registered, the tests come one after
the other, those of rank 0 from rank 0 alone, and clients are listened to when all are over. Ranks
that are not at a fence are between the same fences. -/
theorem start_up_order {A : ServerArgs} {xs : List (Fin A.nranks × Event ServerCall)}
    {s : State (Fin A.nranks) ServerCall}
    (hrun : Trace (Step A.serverMain) A.serverMain.start xs s) (p q : Fin A.nranks) :
    (.readAddrFile ∈ entered p xs → A.margoInit q = true ∧ .commInit ∈ returned q xs) ∧
    (∀ c ∈ entered p xs, c.test ≠ none ∨ c = .listenerInit →
      .readAddrFile ∈ returned q xs ∧ .rpcRegister ∈ returned q xs) ∧
    (∀ c ∈ entered p xs, c.test ≠ none → ∀ d ∈ A.path q, d.test ≠ none → A.phase d < A.phase c →
      d ∈ returned q xs) ∧
    (∀ c ∈ entered p xs, c.test = some .first → p.val = 0) ∧
    (.listenerInit ∈ entered p xs → ∀ d ∈ A.path q, d.test ≠ none → d ∈ returned q xs) ∧
    (∀ c d, s.current p = some c → s.current q = some d → c.collective = false →
      d.collective = false → A.phase c = A.phase d) := by
  have hI := fencedInv hrun
  have hreached : ∀ c ∈ entered p xs, Reached (A.path p) xs p c := fun c hc =>
    (hI.walks p).reached_of_entered hc
  have hbefore : ∀ c ∈ entered p xs, ∀ d ∈ A.path q, d.collective = false → A.phase d < A.phase c →
      d ∈ returned q xs := fun c hc d hd hown hlt =>
    (hI.happens_before A.phased (hreached c hc) hd hlt).2 hown
  refine ⟨fun hc => ?_, fun c hc hlate => linked_of_entered hI hc hlate q,
    fun c hc ht d hd hdt hlt => ?_, fun c hc => ?_,
    fun hc d hd hdt => tested_of_listening hI hc hd hdt, fun c d hc hd hcown hdown => ?_⟩
  · exact ⟨margoInit_of_reached hI (hreached _ hc) Nat.one_pos q,
      hbefore _ hc _ List.mem_cons_self rfl Nat.one_pos⟩
  · exact hbefore c hc d hd (phase_test (A := A) hdt).2.2 hlt
  · exact rank_of_first ((hI.walks p).entered_initial.subset hc)
  · exact hI.same_phase A.phased hc hd hcown hdown

/-- Two servers that test themselves. -/
def twoServers : ServerArgs := { nranks := 2, selftest := true, margoInit := fun _ => true }

abbrev TwoServersLabel : Type := Fin twoServers.nranks × Event ServerCall

/-- The calls in turn, each with the ranks that make it. -/
def twoServersCalls : List (List (Fin twoServers.nranks) × ServerCall) :=
  let both := List.finRange 2
  let zero := both.take 1
  let one := both.drop 1
  [(both, .commInit), (both, .fence .reading), (both, .readAddrFile), (both, .fence .linked),
    (zero, .commProbePeers), (both, .rpcRegister), (both, .fence .initialized),
    (zero, .ping .first 1), (both, .fence (.pinged .first)), (one, .ping .all 0),
    (zero, .ping .all 1), (both, .fence (.pinged .all)), (zero, .sum .first),
    (both, .fence (.summed .first)), (both, .sum .all), (both, .fence (.summed .all)),
    (both, .listenerInit)]

def twoServersRun : List TwoServersLabel := twoServersCalls.flatMap fun c => jointly c.1 c.2

theorem twoServers_run : ∃ s, Trace (Step twoServers.serverMain) twoServers.serverMain.start
    twoServersRun s ∧ ∀ rank, s.current rank = none := by
  have hfinal : ((twoServersRun.foldlM twoServers.serverMain.step
      twoServers.serverMain.start).map fun s => decide (∀ rank, s.current rank = none)) =
      some true := by decide
  obtain ⟨s, hs, hdone⟩ := Option.map_eq_some_iff.mp hfinal
  exact ⟨s, of_foldlM hs, of_decide_eq_true hdone⟩

theorem start_up_order_two : ∃ s, Trace (Step twoServers.serverMain) twoServers.serverMain.start
    twoServersRun s ∧ ∀ c ∈ entered (0 : Fin 2) twoServersRun, c.test ≠ none ∨ c = .listenerInit →
      .rpcRegister ∈ returned (1 : Fin 2) twoServersRun := by
  obtain ⟨s, hrun, -⟩ := twoServers_run
  obtain ⟨-, hregistered, -⟩ := start_up_order hrun (0 : Fin 2) (1 : Fin 2)
  exact ⟨s, hrun, fun c hc hlate => (hregistered c hc hlate).2⟩

/-- With margo on all ranks the start-up ends with all of them listening and the self test
complete: every rank has pinged every other and made its sum. Where one rank has none, it leaves
and all others wait for it at the first fence for ever. -/
theorem start_up_all_or_none {A : ServerArgs} {xs : List (Fin A.nranks × Event ServerCall)}
    {s : State (Fin A.nranks) ServerCall}
    (hrun : Trace (Step A.serverMain) A.serverMain.start xs s) :
    xs.length ≤ ∑ rank, 2 * (A.path rank).length ∧
    ((∀ rank < A.nranks, A.margoInit rank = true) →
      ((∃ rank, s.current rank ≠ none) → ∃ a u, Step A.serverMain s a u) ∧
      ((∀ rank, s.current rank = none) → ∀ p q : Fin A.nranks, .listenerInit ∈ returned p xs ∧
        (A.selftest = true → ∀ t : Test,
          ((returned p xs).count (.ping t q) = if t.takesPart p = true ∧ q ≠ p then 1 else 0) ∧
          (returned p xs).count (.sum t) = if t.takesPart p = true then 1 else 0))) ∧
    ((∃ q : Fin A.nranks, A.margoInit q = false) → ∀ p, returned p xs <+: [.commInit] ∧
      (Terminal (Step A.serverMain) s →
        if A.margoInit p then s.current p = some (.fence .reading) ∧ s.inside p = true
        else s.current p = none)) := by
  have hI := fencedInv hrun
  refine ⟨length_le_of_walks hI.walks, fun hinit => ⟨?_, fun hdone p q => ?_⟩, ?_⟩
  · rintro ⟨rank, h⟩
    exact (inv_trace (aligned hinit) hrun).exists_step (aligned hinit) h
  · have hp := hinit p p.isLt
    rw [((hI.walks p).finished (hdone p)).2]
    refine ⟨mem_path_of_margoInit hp (by simp [afterInit]), fun htest t => ?_⟩
    exact ⟨count_ping hp htest t q, count_sum hp htest t⟩
  · rintro ⟨q, hq⟩ p
    exact ⟨returned_le_commInit hI hq p, fun hT => stuck_at_first_fence hI hq hT p⟩

theorem start_up_all_or_none_two : ∃ s,
    Trace (Step twoServers.serverMain) twoServers.serverMain.start twoServersRun s ∧
      (returned (0 : Fin 2) twoServersRun).count (.ping .all 1) = 1 ∧
      (returned (1 : Fin 2) twoServersRun).count (.ping .first 0) = 0 ∧
      .listenerInit ∈ returned (1 : Fin 2) twoServersRun := by
  obtain ⟨s, hrun, hdone⟩ := twoServers_run
  obtain ⟨-, hall, -⟩ := start_up_all_or_none hrun
  have hend := (hall fun _ _ => rfl).2 hdone
  exact ⟨s, hrun, ((hend (0 : Fin 2) (1 : Fin 2)).2 rfl .all).1,
    ((hend (1 : Fin 2) (0 : Fin 2)).2 rfl .first).1, (hend (1 : Fin 2) (0 : Fin 2)).1⟩

end Metasim
