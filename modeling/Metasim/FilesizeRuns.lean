import Metasim.FilesizeLog
import Metasim.FilesizeProgress

/-! Whole runs of filesize collectives: which record each response is applied to, what a root
receives, and what has happened on the other servers by then. -/
namespace Metasim

open Transition Log

variable {arith : ℤ → ℤ} {n v w r : ℤ} {colls : List Collective} {c d : Collective}
    {h g x o : Handle}
  {s u : FilesizeNet} {i j k m : ℕ} {a : FilesizeLabel} {xs : List FilesizeLabel}
  {l : List FilesizeEvent}

/-! ## The invariants along a run -/

structure RunInv (arith : ℤ → ℤ) (n : ℤ) (colls : List Collective) (s : FilesizeNet) : Prop where
  net : FilesizeInv arith n colls s
  log : LogInv arith n colls s

theorem runInv_start : RunInv arith n colls FilesizeNet.start := ⟨filesizeInv_start, logInv_start⟩

theorem runInv_step (S : AllSound arith n colls) (hI : RunInv arith n colls s)
    (hs : FilesizeStep arith n colls s a u) (hq : Quiet colls s a) : RunInv arith n colls u := by
  have hm := move_of_step S hI.net hs
  exact ⟨filesizeInv_move S hI.net hm hq, logInv_move hI.log hm⟩

/-- A step on a quiet server. -/
abbrev QuietStep (arith : ℤ → ℤ) (n : ℤ) (colls : List Collective) (s : FilesizeNet)
    (a : FilesizeLabel) (u : FilesizeNet) : Prop :=
  FilesizeStep arith n colls s a u ∧ Quiet colls s a

theorem runInv_trace (S : AllSound arith n colls)
    (hrun : Trace (QuietStep arith n colls) FilesizeNet.start xs s) : RunInv arith n colls s :=
  invariant_state runInv_start (fun _ _ _ hI hs => runInv_step S hI hs.1 hs.2) hrun

/-! ## Which responses a record gets -/

/-- Where the responses applied to a record come from, in order. -/
def appliedTo (x : Handle) (l : List FilesizeEvent) : List Handle :=
  l.filterMap fun
    | .apply o y => if y = x then some o else none
    | _ => none

theorem mem_appliedTo : o ∈ appliedTo x l ↔ .apply o x ∈ l := by
  simp only [appliedTo, List.mem_filterMap]
  constructor
  · rintro ⟨e, he, heq⟩
    cases e with
    | apply o' y =>
      simp only [Option.ite_none_right_eq_some, Option.some.injEq] at heq
      obtain ⟨rfl, rfl⟩ := heq
      exact he
    | allocate | respond | complete | free => simp at heq
  · intro he
    exact ⟨_, he, by simp⟩

theorem appliedTo_nodup (hn : l.Nodup) : (appliedTo x l).Nodup := by
  refine hn.filterMap fun e e' o he he' => ?_
  cases e with
  | apply =>
    cases e' with
    | apply =>
      simp only [Option.mem_def, Option.ite_none_right_eq_some, Option.some.injEq] at he he'
      obtain ⟨rfl, rfl⟩ := he
      obtain ⟨rfl, rfl⟩ := he'
      rfl
    | allocate | respond | complete | free => simp at he'
  | allocate | respond | complete | free => simp at he

/-- The record has been given the response of each of its `m` children, once, and no other. -/
def GotAll (m : ℕ) (x : Handle) (l : List FilesizeEvent) : Prop :=
  (appliedTo x l).Perm ((List.range m).map x.child)

theorem GotAll.length (hg : GotAll m x l) : (appliedTo x l).length = m := by
  simpa using hg.length_eq

section Facts

variable (hI : RunInv arith n colls s)
include hI

/-- A response is applied to the record its request was sent from. -/
theorem RunInv.applied (he : .apply o x ∈ s.events) :
    ∃ c r j, x.At arith n colls c r ∧ o = x.child j ∧ j < (kids arith n c r).length := by
  obtain ⟨⟨j, rfl⟩, hr⟩ := (hI.log.records.mem_iff _).mp he
  obtain ⟨c, w, hat⟩ := hI.net.parts.at_of_part (h := x.child j) (by intro h; simp [h] at hr)
  obtain ⟨r, hx, hj⟩ := at_child_iff.mp hat
  exact ⟨c, r, j, hx, rfl, (List.getElem?_eq_some_iff.mp hj).1⟩

theorem RunInv.applied_le (hat : x.At arith n colls c r) :
    (appliedTo x s.events).length ≤ (kids arith n c r).length := by
  have hsub : appliedTo x s.events ⊆ (List.range (kids arith n c r).length).map x.child := by
    intro o ho
    obtain ⟨d, r', j, hx, rfl, hj⟩ := hI.applied (mem_appliedTo.mp ho)
    obtain ⟨rfl, rfl⟩ := at_unique hx hat
    exact List.mem_map_of_mem (List.mem_range.mpr hj)
  have hle := ((appliedTo_nodup hI.log.records.nodup).subperm hsub).length_le
  simpa using hle

theorem RunInv.gotAll (hat : x.At arith n colls c r) (hsub : l.Sublist s.events)
    (hall : ∀ j < (kids arith n c r).length, .apply (x.child j) x ∈ l) :
    GotAll (kids arith n c r).length x l := by
  refine (List.perm_ext_iff_of_nodup (appliedTo_nodup (hI.log.records.nodup.sublist hsub)) ?_).mpr
    fun o => ?_
  · exact List.nodup_range.map fun _ _ hjk => (Handle.child_inj.mp hjk).2
  · rw [mem_appliedTo, List.mem_map]
    constructor
    · intro ho
      obtain ⟨d, r', j, hx, rfl, hj⟩ := hI.applied (hsub.subset ho)
      obtain ⟨rfl, rfl⟩ := at_unique hx hat
      exact ⟨j, List.mem_range.mpr hj, rfl⟩
    · rintro ⟨j, hj, rfl⟩
      exact hall j (List.mem_range.mp hj)

/-- What a collective completes with. -/
theorem RunInv.completed (S : AllSound arith n colls) (he : .complete i m ∈ s.events) :
    ∃ c, colls[i]? = some c ∧ m = (Finset.Ico 0 n).sup ownSize ∧ (m : ℤ) = 100 * (n - 1) := by
  obtain ⟨⟨c, hc, rfl⟩, -⟩ := (hI.log.records.mem_iff _).mp he
  have hS := S c (List.mem_of_getElem? hc)
  have h0 : 0 ≤ c.root := hS.root_nonneg
  have h1 : c.root < n := hS.root_lt
  have hsize := subtreeSize_root hS
  exact ⟨c, hc, hsize, by rw [hsize, sup_ownSize (by omega)]⟩

/-- When a collective completes, every other rank has sent its response. -/
theorem RunInv.responded {pre post : List FilesizeEvent} {p : List ℕ}
    (hevents : s.events = pre ++ .complete i m :: post) (hp : p ≠ [])
    (hat : (⟨i, p⟩ : Handle).At arith n colls c v) :
    .respond ⟨i, p⟩ v (parentOf arith n c v) ∈ pre := by
  have hcausal : Causal (Needs arith n colls) (pre ++ .complete i m :: post) :=
    hevents ▸ hI.log.causal
  induction p generalizing v with
  | nil => exact absurd rfl hp
  | cons j p ih =>
    obtain ⟨x, hx, hj⟩ := (at_child_iff (h := ⟨i, p⟩)).mp hat
    have hlt := (List.getElem?_eq_some_iff.mp hj).1
    have happly : .apply (Handle.child ⟨i, p⟩ j) ⟨i, p⟩ ∈ pre := by
      cases p with
      | nil =>
        obtain rfl : c.root = x := Option.some.inj hx.2
        exact hcausal pre _ post rfl _ ⟨c, j, hx.1, hlt, rfl⟩
      | cons k q =>
        exact hcausal.left.mem (ih (List.cons_ne_nil k q) hx) (Or.inr ⟨c, j, hx, hlt, rfl⟩)
    exact hcausal.left.mem happly ⟨c, v, hat, rfl⟩

end Facts

/-! ## Collectives in turn -/

abbrev InTurnStep (arith : ℤ → ℤ) (n : ℤ) (colls : List Collective) (s : FilesizeNet)
    (a : FilesizeLabel) (u : FilesizeNet) : Prop :=
  FilesizeStep arith n colls s a u ∧ InTurn s a

/-- A collective has started only where all before it have finished. -/
def InOrder (s : FilesizeNet) : Prop :=
  ∀ k, (s.control k).main ≠ .idle → ∀ j < k, (s.control j).main = .finished

/-- Only a main thread that is running moves, or one that starts. -/
theorem main_of_move (hm : Move arith n colls s a u) (k : ℕ) :
    (u.control k).main = (s.control k).main ∨ (s.control k).main.Running ∨
      a = .start k ∧ (s.control k).main = .idle := by
  cases hm with
  | @control _ i c r _ _ hrun =>
    rw [FilesizeNet.control_setControl]
    by_cases hk : k = i
    · exact Or.inr (Or.inl (hk ▸ hrun))
    · exact Or.inl (by rw [if_neg hk])
  | silent | alloc | forward | leaf | apply | applyLast | release => exact Or.inl rfl
  | @start i c _ hidle =>
    by_cases hk : k = i
    · exact Or.inr (Or.inr ⟨by rw [hk], hk ▸ hidle⟩)
    · refine Or.inl ?_
      rw [FilesizeNet.control_setControl, if_neg hk]
      rfl
  | @endRoot _ i _ _ _ _ _ _ _ hmain | @endAlone _ i _ _ _ _ _ _ _ _ hmain =>
    by_cases hk : k = i
    · refine Or.inr (Or.inl ?_)
      simp [hk, hmain, MainPc.Running]
    · refine Or.inl ?_
      rw [FilesizeNet.control_setControl, if_neg hk]
      rfl
  | applyRoot =>
    refine Or.inl ?_
    rw [FilesizeNet.control_setControl]
    split_ifs with hk
    · rw [hk]
      rfl
    · rfl
  | @finish _ i _ _ _ _ _ _ _ hmain =>
    by_cases hk : k = i
    · refine Or.inr (Or.inl ?_)
      simp [hk, hmain, MainPc.Running]
    · refine Or.inl ?_
      simp [FilesizeNet.control_setControl, hk]

theorem inOrder_move (ho : InOrder s) (hm : Move arith n colls s a u) (ht : InTurn s a) :
    InOrder u := by
  have hfinished : ∀ j, (s.control j).main = .finished → (u.control j).main = .finished := by
    intro j hj
    rcases main_of_move hm j with h | h | ⟨-, h⟩
    · rw [h, hj]
    · exact absurd hj h.2
    · simp [hj] at h
  intro k hk j hjk
  apply hfinished
  rcases main_of_move hm k with h | h | ⟨rfl, -⟩
  · exact ho k (h ▸ hk) j hjk
  · exact ho k h.1 j hjk
  · exact ht j hjk

section InTurn

variable (S : AllSound arith n colls) (hroot : ∀ c ∈ colls, c.root = 0)
include S hroot

/-- Only the roots are on rank 0. -/
theorem path_of_rank_zero (hat : h.At arith n colls c 0) : h.path = [] := by
  have hc := hroot c (List.mem_of_getElem? hat.1)
  by_contra hh
  exact (S.at_ hat).tree.nodeAt_ne_root_iff (hat.nodeAt (S.at_ hat)) |>.mpr hh hc.symm

/-- Collectives that rank 0 starts one after the other find every server quiet. -/
theorem quiet_of_inTurn (hI : FilesizeInv arith n colls s) (ho : InOrder s)
    (hs : FilesizeStep arith n colls s a u) (ht : InTurn s a) : Quiet colls s a := by
  cases a with
  | start i =>
    intro c hc g st hlive hrank
    obtain ⟨-, -, -, hidle, -⟩ := step_start.mp hs
    obtain ⟨d, w, hat⟩ := hI.parts.at_of_part (h := g) (by intro he; simp [he] at hlive)
    have hw : w = 0 := by
      rw [← hI.record_rank (S.at_ hat) hat hlive, hrank, hroot c (List.mem_of_getElem? hc)]
    obtain ⟨k, p⟩ := g
    obtain rfl : p = [] := path_of_rank_zero S hroot (hw ▸ hat)
    have hstarted : (s.control k).main ≠ .idle := hI.started hat (Or.inr (by simp [hlive]))
    rcases lt_trichotomy k i with hki | rfl | hik
    · have hfreed := hI.finished_root hat.1 (ht k hki)
      simp [hlive] at hfreed
    · exact absurd hidle hstarted
    · have hfinished := ho k hstarted i hik
      simp [hidle] at hfinished
  | alloc h =>
    intro dst msg hreq g st hlive hrank
    obtain ⟨c, hath, hh, -, hp⟩ := hI.accepted hreq
    obtain ⟨d, w, hat⟩ := hI.parts.at_of_part (h := g) (by intro he; simp [he] at hlive)
    have hw : w = dst := by rw [← hI.record_rank (S.at_ hat) hat hlive, hrank]
    subst hw
    have hg : g.path ≠ [] := by
      intro hg
      have hwroot : w = d.root := hat.root_of_path hg
      rw [hroot d (List.mem_of_getElem? hat.1)] at hwroot
      exact hh (path_of_rank_zero S hroot (hwroot ▸ hath))
    have hstarted : (s.control g.call).main ≠ .idle := hI.started hat (Or.inr (by simp [hlive]))
    have hstarted' : (s.control h.call).main ≠ .idle := hI.started hath (Or.inl (by simp [hreq]))
    rcases lt_trichotomy g.call h.call with hlt | heq | hlt
    · obtain ⟨-, hD, -⟩ :=
        hI.finished_parts (p := g.path) (ho h.call hstarted' g.call hlt) hat
      cases hD with
      | root _ hne | rootFreed hne => exact absurd hne hg
      | released _ hf => simp [hlive] at hf
      | holding st' _ hlive' hR hfull =>
        obtain rfl : st = st' := Cell.live.inj (hlive.symm.trans hlive')
        refine ⟨hfull, ?_⟩
        rw [hR.tree]
        exact parentOf_ne (S.at_ hat) hat hg
    · obtain rfl : d = c := Option.some.inj (hat.1.symm.trans (heq ▸ hath.1))
      obtain rfl := at_injective (S.at_ hat) hat hath heq
      rw [hp] at hlive
      simp at hlive
    · obtain ⟨-, hD, -⟩ :=
        hI.finished_parts (p := h.path) (ho g.call hstarted h.call hlt) hath
      have hcell : (s.part h).cell = .unallocated := by rw [hp]
      cases hD <;> simp_all
  | _ => trivial

theorem inTurn_trace (hrun : Trace (InTurnStep arith n colls) FilesizeNet.start xs s) :
    Trace (QuietStep arith n colls) FilesizeNet.start xs s ∧ RunInv arith n colls s ∧
    InOrder s := by
  refine invariant (I := fun xs s => Trace (QuietStep arith n colls) FilesizeNet.start xs s ∧
    RunInv arith n colls s ∧ InOrder s) ⟨.refl, runInv_start, ?_⟩ ?_ hrun
  · intro k hk
    exact absurd rfl hk
  · rintro xs s a u ⟨htrace, hI, ho⟩ ⟨hs, ht⟩
    have hq := quiet_of_inTurn S hroot hI.net ho hs ht
    exact ⟨htrace.snoc ⟨hs, hq⟩, runInv_step S hI hs hq,
      inOrder_move ho (move_of_step S hI.net hs) ht⟩

end InTurn

theorem allSound_of_roots (hcolls : ∀ c ∈ colls, (0 ≤ c.root ∧ c.root < n) ∧ 1 ≤ c.degree)
    (hexact : ∀ c ∈ colls, ExactFor arith n c.degree) : AllSound arith n colls := by
  intro c hc
  obtain ⟨⟨h0, h1⟩, hk⟩ := hcolls c hc
  exact ⟨h0, h1, hk, hexact c hc⟩

theorem allSound_of_zero (hn : 1 ≤ n) (hcolls : ∀ c ∈ colls, c.root = 0 ∧ 1 ≤ c.degree)
    (hexact : ∀ c ∈ colls, ExactFor arith n c.degree) : AllSound arith n colls := by
  refine allSound_of_roots (fun c hc => ?_) hexact
  obtain ⟨h0, hk⟩ := hcolls c hc
  exact ⟨⟨by omega, by omega⟩, hk⟩

theorem exactFor_of_le (h : ∀ c ∈ colls, max (2 * n) (c.degree * n) ≤ intMax) :
    ∀ c ∈ colls, ExactFor wrapInt n c.degree := fun c hc => exact_wrapInt (h c hc)

/-- A step of collectives in turn, computed. -/
def inTurnStep (arith : ℤ → ℤ) (n : ℤ) (colls : List Collective) (s : FilesizeNet)
    (a : FilesizeLabel) :
    Option FilesizeNet :=
  if InTurn s a then filesizeStep arith n colls s a else none

theorem inTurnStep_eq_some : inTurnStep arith n colls s a = some u ↔
    InTurnStep arith n colls s a u := by
  rw [inTurnStep, Option.ite_none_right_eq_some, InTurnStep, FilesizeStep, and_comm]

/-- `child_count` of rank `v`. -/
def childCountOf (arith : ℤ → ℤ) (n : ℤ) (c : Collective) (v : ℤ) : ℕ :=
  (localTree arith n c.root c.degree v).childCount.toNat

theorem childCountOf_eq (S : SoundFor arith n c) (hv : v ∈ S.tree.nodes) :
    childCountOf arith n c v = (kids arith n c v).length := by
  rw [childCountOf, ← length_kids S hv, Int.toNat_natCast]

/-! ## Results -/

/-- An allocation of collective `i` on server `rank`. -/
def allocates (i : ℕ) (rank : ℤ) : FilesizeEvent → Bool
  | .allocate x r => x.call == i && r == rank
  | _ => false

/-- A response of server `rank` in collective `i`. -/
def responds (i : ℕ) (rank : ℤ) : FilesizeEvent → Bool
  | .respond x r _ => x.call == i && r == rank
  | _ => false

theorem RunInv.rank_done (S : SoundFor arith n c) (hI : RunInv arith n colls s)
    {pre post : List FilesizeEvent} (hevents : s.events = pre ++ .complete i m :: post)
    (hc : colls[i]? = some c) (hr : r ∈ S.tree.nodes) (hne : r ≠ c.root) :
    ∃ x : Handle, x.call = i ∧ pre.filter (allocates i r) = [.allocate x r] ∧
      pre.filter (responds i r) = [.respond x r (parentOf arith n c r)] ∧
      ∀ before after, pre = before ++ .respond x r (parentOf arith n c r) :: after →
        GotAll (childCountOf arith n c r) x before := by
  obtain ⟨p, hp⟩ := S.tree.exists_nodeAt hr
  have hpath : p ≠ [] := (S.tree.nodeAt_ne_root_iff hp).mp hne
  have hat : (⟨i, p⟩ : Handle).At arith n colls c r := at_of_nodeAt S hc hp
  have hsub : pre.Sublist s.events := hevents ▸ List.sublist_append_left _ _
  have hnodup := hI.log.records.nodup.sublist hsub
  have hcausal : Causal (Needs arith n colls) pre := (hevents ▸ hI.log.causal).left
  have hrespond := hI.responded hevents hpath hat
  have huniq : ∀ (y : Handle) (d : Collective), y.call = i → y.At arith n colls d r →
      y = ⟨i, p⟩ := by
    intro y d hy hyat
    obtain rfl : c = d := Option.some.inj (hc.symm.trans (hy ▸ hyat.1))
    exact at_injective S hyat hat hy
  refine ⟨⟨i, p⟩, rfl, ?_, ?_, ?_⟩
  · refine filter_eq_singleton hnodup (hcausal.mem hrespond (Or.inl rfl)) (by simp [allocates]) ?_
    intro e he hkind
    cases e with
    | allocate y r' =>
      simp only [allocates, Bool.and_eq_true, beq_iff_eq] at hkind
      obtain ⟨⟨d, hyat⟩, -⟩ := (hI.log.records.mem_iff _).mp (hsub.subset he)
      obtain ⟨hy, rfl⟩ := hkind
      rw [huniq y d hy hyat]
    | apply | respond | complete | free => simp [allocates] at hkind
  · refine filter_eq_singleton hnodup hrespond (by simp [responds]) ?_
    intro e he hkind
    cases e with
    | respond y r' dst =>
      simp only [responds, Bool.and_eq_true, beq_iff_eq] at hkind
      obtain ⟨⟨d, hyat, rfl⟩, -⟩ := (hI.log.records.mem_iff _).mp (hsub.subset he)
      obtain ⟨hy, rfl⟩ := hkind
      obtain rfl := huniq y d hy hyat
      rw [(at_unique hyat hat).1]
    | apply | allocate | complete | free => simp [responds] at hkind
  · intro before after hpre
    rw [childCountOf_eq S hr]
    refine hI.gotAll hat ((hpre ▸ List.sublist_append_left _ _ : before.Sublist pre).trans hsub) ?_
    intro j hj
    exact hcausal before _ after hpre _ (Or.inr ⟨c, j, hat, hj, rfl⟩)

/-- Collectives that rank 0 starts one after the other: no response crosses from one to another,
each returns the maximum, and by then every other rank has allocated one record and sent one
response, to its parent, after all its children's were applied. -/
theorem filesize_in_turn {arith : ℤ → ℤ} {n : ℤ} {colls : List Collective} (hn : 1 ≤ n)
    (hcolls : ∀ c ∈ colls, c.root = 0 ∧ 1 ≤ c.degree)
    (hexact : ∀ c ∈ colls, ExactFor arith n c.degree) {xs : List FilesizeLabel} {s : FilesizeNet}
    (hrun : Trace (InTurnStep arith n colls) FilesizeNet.start xs s) :
    (∀ o x, .apply o x ∈ s.events → o.call = x.call) ∧
    ∀ pre i filesize post, s.events = pre ++ .complete i filesize :: post →
      ∃ c, colls[i]? = some c ∧ filesize = (Finset.Ico 0 n).sup ownSize ∧
        (filesize : ℤ) = 100 * (n - 1) ∧
        ∀ r, 1 ≤ r → r < n → ∃ x : Handle, x.call = i ∧
          pre.filter (allocates i r) = [.allocate x r] ∧
          pre.filter (responds i r) = [.respond x r (parentOf arith n c r)] ∧
          ∀ before after, pre = before ++ .respond x r (parentOf arith n c r) :: after →
            GotAll (childCountOf arith n c r) x before := by
  have S := allSound_of_zero hn hcolls hexact
  obtain ⟨-, hI, -⟩ := inTurn_trace S (fun c hc => (hcolls c hc).1) hrun
  constructor
  · intro o x he
    obtain ⟨-, -, j, -, rfl, -⟩ := hI.applied he
    rfl
  · intro pre i filesize post hevents
    obtain ⟨c, hc, hsup, hmax⟩ := hI.completed S (hevents ▸ List.mem_append_cons_self)
    have hmem := List.mem_of_getElem? hc
    have hS := S c hmem
    refine ⟨c, hc, hsup, hmax, fun r h1 h2 => ?_⟩
    have hr : r ∈ hS.tree.nodes := Finset.mem_Ico.mpr ⟨by omega, h2⟩
    exact hI.rank_done hS hevents hc hr (by rw [(hcolls c hmem).1]; omega)

/-- Two collectives on two servers, one of each mode; the first record of server 1 is freed
after its second has been allocated. -/
def repeatedCalls : List Collective := [⟨0, 2, true⟩, ⟨0, 1, false⟩]

def repeatedRun : List FilesizeLabel :=
  [.start 0, .forward ⟨0, []⟩, .accept ⟨0, [0]⟩, .alloc ⟨0, [0]⟩, .endForward ⟨0, [0]⟩,
    .acceptResponse ⟨0, [0]⟩, .apply ⟨0, [0]⟩, .returned ⟨0, []⟩, .endForward ⟨0, []⟩, .wait 0,
    .wakeLock 0, .wakeSignal 0 (some 0), .wakeUnlock 0, .reacquire 0, .finish 0, .start 1,
    .forward ⟨1, []⟩, .endForward ⟨1, []⟩, .accept ⟨1, [0]⟩, .alloc ⟨1, [0]⟩, .release ⟨0, [0]⟩,
    .endForward ⟨1, [0]⟩, .release ⟨1, [0]⟩, .wait 1, .acceptResponse ⟨1, [0]⟩, .apply ⟨1, [0]⟩,
    .wakeLock 1, .wakeSignal 1 (some 1), .wakeUnlock 1, .reacquire 1, .finish 1]

/-- What the log of that run ends with. -/
def repeatedEnd : List FilesizeEvent :=
  [.allocate ⟨1, []⟩ 0, .allocate ⟨1, [0]⟩ 1, .free ⟨0, [0]⟩, .respond ⟨1, [0]⟩ 1 0,
    .free ⟨1, [0]⟩, .apply ⟨1, [0]⟩ ⟨1, []⟩, .complete 1 100, .free ⟨1, []⟩]

theorem repeated_exact : ∀ c ∈ repeatedCalls, ExactFor wrapInt 2 c.degree :=
  exactFor_of_le (by decide)

theorem repeated_run : ∃ s,
    Trace (InTurnStep wrapInt 2 repeatedCalls) FilesizeNet.start repeatedRun s ∧
      s.events.drop 6 = repeatedEnd := by
  have hrun := of_foldlM (f := inTurnStep wrapInt 2 repeatedCalls) (s := FilesizeNet.start)
    (Eq.refl (repeatedRun.foldlM (inTurnStep wrapInt 2 repeatedCalls) FilesizeNet.start))
  exact ⟨_, mono (fun _ _ _ => inTurnStep_eq_some.mp) hrun, rfl⟩

theorem filesize_in_turn_two :
    ∃ s, Trace (InTurnStep wrapInt 2 repeatedCalls) FilesizeNet.start repeatedRun s ∧
    ∃ pre, s.events = pre ++ .complete 1 100 :: [.free ⟨1, []⟩] ∧ (100 : ℤ) = 100 * (2 - 1) ∧
      ∃ x : Handle, x.call = 1 ∧ pre.filter (allocates 1 1) = [.allocate x 1] := by
  obtain ⟨s, hrun, hend⟩ := repeated_run
  have hevents : s.events = (s.events.take 6 ++ repeatedEnd.take 6) ++
      .complete 1 100 :: [.free ⟨1, []⟩] := by
    calc s.events = s.events.take 6 ++ s.events.drop 6 := (List.take_append_drop 6 _).symm
      _ = _ := by rw [hend, List.append_assoc]; rfl
  obtain ⟨c, -, -, hmax, hranks⟩ :=
    (filesize_in_turn (by decide) (by decide) repeated_exact hrun).2 _ 1 100 _ hevents
  obtain ⟨x, hx, halloc, -⟩ := hranks 1 le_rfl (by decide)
  exact ⟨s, hrun, _, hevents, by exact_mod_cast hmax, x, hx, halloc⟩

/-! ## Overlapping collectives -/

/-- Where no step is left at all, every record has been given all its responses. -/
theorem RunInv.gotAll_of_terminal (S : AllSound arith n colls) (hI : RunInv arith n colls s)
    (hT : Terminal (FilesizeStep arith n colls) s) (hat : x.At arith n colls c r)
    (he : .allocate x r ∈ s.events) : GotAll (kids arith n c r).length x s.events := by
  have hstuck : ¬ Working arith n colls s := fun ⟨a, u, hs, _⟩ => hT a u hs
  have hcell := ((hI.log.records.mem_iff _).mp he).2
  have hm := (hI.net.idle S hstuck hat hcell).1
  have hserved := (hI.net.finished_parts (p := x.path) hm hat).1
  refine hI.gotAll hat (List.Sublist.refl _) fun j hj =>
    (hI.log.records.mem_iff _).mpr ⟨⟨j, rfl⟩, ?_⟩
  have hmem := Finset.mem_range.mpr hj
  rw [← hserved, mem_servedKids] at hmem
  exact hmem.2

/-- Collectives of any roots, overlapping in time, on servers whose handlers are not interrupted
between two calls: as long as a server allocates a record only where its other records have all
their responses and none is a root's, every response is applied to the record its request was sent
from, every root that completes has the maximum, and every record gets the responses of its
children. -/
theorem responses_find_their_records {arith : ℤ → ℤ} {n : ℤ} {colls : List Collective}
    (hcolls : ∀ c ∈ colls, (0 ≤ c.root ∧ c.root < n) ∧ 1 ≤ c.degree)
    (hexact : ∀ c ∈ colls, ExactFor arith n c.degree) {xs : List FilesizeLabel} {s : FilesizeNet}
    (hrun : Trace (QuietStep arith n colls) FilesizeNet.start xs s) :
    s.fault = false ∧
    (∀ o x, .apply o x ∈ s.events → ∃ j, o = x.child j) ∧
    (∀ i (filesize : ℕ), .complete i filesize ∈ s.events → (filesize : ℤ) = 100 * (n - 1)) ∧
    ∀ x c r, x.At arith n colls c r →
      (appliedTo x s.events).length ≤ childCountOf arith n c r ∧
      (∀ dst, .respond x r dst ∈ s.events → GotAll (childCountOf arith n c r) x s.events) ∧
      (∀ i filesize, x = ⟨i, []⟩ → .complete i filesize ∈ s.events →
        GotAll (childCountOf arith n c r) x s.events) ∧
      (Terminal (FilesizeStep arith n colls) s → .allocate x r ∈ s.events →
        GotAll (childCountOf arith n c r) x s.events) := by
  have S := allSound_of_roots hcolls hexact
  have hI := runInv_trace S hrun
  refine ⟨hI.net.fault, ?_, ?_, ?_⟩
  · intro o x he
    obtain ⟨-, -, j, -, rfl, -⟩ := hI.applied he
    exact ⟨j, rfl⟩
  · intro i filesize he
    obtain ⟨-, -, -, hmax⟩ := hI.completed S he
    exact hmax
  · intro x c r hat
    rw [childCountOf_eq (S.at_ hat) (hat.mem_nodes (S.at_ hat))]
    refine ⟨hI.applied_le hat, ?_, ?_, fun hT he => hI.gotAll_of_terminal S hT hat he⟩
    · intro dst he
      exact hI.gotAll hat (List.Sublist.refl _) fun j hj =>
        hI.log.causal.mem he (Or.inr ⟨c, j, hat, hj, rfl⟩)
    · rintro i filesize rfl he
      obtain rfl : c.root = r := Option.some.inj hat.2
      exact hI.gotAll hat (List.Sublist.refl _) fun j hj =>
        hI.log.causal.mem he ⟨c, j, hat.1, hj, rfl⟩

/-- `QuietAt`, computed from the log: every record that is there has been allocated. -/
def quietAt (s : FilesizeNet) (rank : ℤ) : Bool :=
  s.events.all fun
    | .allocate x _ =>
      match (s.part x).cell with
      | .live st => st.tree.rank ≠ rank || (st.full && st.tree.parentRank ≠ -1)
      | _ => true
    | _ => true

def quietBefore (colls : List Collective) (s : FilesizeNet) : FilesizeLabel → Bool
  | .start i => colls[i]?.all fun c => quietAt s c.root
  | .alloc h =>
    match (s.part h).request with
    | .accepted dst _ => quietAt s dst
    | _ => true
  | _ => true

/-- A step on a quiet server, computed. -/
def quietStep (arith : ℤ → ℤ) (n : ℤ) (colls : List Collective) (s : FilesizeNet)
    (a : FilesizeLabel) : Option FilesizeNet :=
  if quietBefore colls s a then filesizeStep arith n colls s a else none

theorem RunInv.quietAt {rank : ℤ} (hI : RunInv arith n colls s) (h : quietAt s rank = true) :
    QuietAt s rank := by
  intro x st hlive hrank
  obtain ⟨c, w, hat⟩ := hI.net.parts.at_of_part (h := x) (by intro he; simp [he] at hlive)
  have halloc : .allocate x w ∈ s.events :=
    (hI.log.records.mem_iff _).mpr ⟨⟨c, hat⟩, by simp [hlive]⟩
  have hx := List.all_eq_true.mp h _ halloc
  simpa [hlive, hrank] using hx

theorem RunInv.quietStep (hI : RunInv arith n colls s)
    (h : quietStep arith n colls s a = some u) : QuietStep arith n colls s a u := by
  obtain ⟨hquiet, hs⟩ := Option.ite_none_right_eq_some.mp h
  refine ⟨hs, ?_⟩
  cases a with
  | start i =>
    intro c hc
    simp only [quietBefore, hc, Option.all_some] at hquiet
    exact hI.quietAt hquiet
  | alloc h =>
    intro dst msg hreq
    simp only [quietBefore, hreq] at hquiet
    exact hI.quietAt hquiet
  | _ => trivial

theorem quiet_trace (S : AllSound arith n colls)
    (hrun : Trace (fun s a u => quietStep arith n colls s a = some u) FilesizeNet.start xs s) :
    Trace (QuietStep arith n colls) FilesizeNet.start xs s := by
  refine (invariant (I := fun xs s => Trace (QuietStep arith n colls) FilesizeNet.start xs s ∧
    RunInv arith n colls s) ⟨.refl, runInv_start⟩ ?_ hrun).1
  rintro xs s a u ⟨htrace, hI⟩ hs
  have hq := hI.quietStep hs
  exact ⟨htrace.snoc hq, runInv_step S hI hq.1 hq.2⟩

/-- Three servers; rank 1 asks while the collective of rank 0 is under way. -/
def overlappingCalls : List Collective := [⟨0, 2, true⟩, ⟨1, 1, false⟩]

/-- Servers 1 and 2 hold records of both collectives; server 0 takes its request for the second
one when it has ended the first. -/
def overlappingRun : List FilesizeLabel :=
  [.start 0, .forward ⟨0, []⟩, .accept ⟨0, [0]⟩, .alloc ⟨0, [0]⟩, .returned ⟨0, []⟩,
    .forward ⟨0, []⟩, .accept ⟨0, [1]⟩, .alloc ⟨0, [1]⟩, .returned ⟨0, []⟩, .start 1,
    .forward ⟨1, []⟩, .accept ⟨1, [0]⟩, .alloc ⟨1, [0]⟩, .forward ⟨1, [0]⟩, .endForward ⟨1, [0]⟩,
    .endForward ⟨0, [0]⟩, .endForward ⟨0, [1]⟩, .acceptResponse ⟨0, [1]⟩, .apply ⟨0, [1]⟩,
    .endForward ⟨0, []⟩, .wait 0, .acceptResponse ⟨0, [0]⟩, .apply ⟨0, [0]⟩, .release ⟨0, [0]⟩,
    .release ⟨0, [1]⟩, .wakeLock 0, .wakeSignal 0 (some 0), .wakeUnlock 0, .reacquire 0, .finish 0,
    .accept ⟨1, [0, 0]⟩, .alloc ⟨1, [0, 0]⟩, .endForward ⟨1, [0, 0]⟩, .acceptResponse ⟨1, [0, 0]⟩,
    .apply ⟨1, [0, 0]⟩, .release ⟨1, [0, 0]⟩, .endForward ⟨1, []⟩, .wait 1,
    .acceptResponse ⟨1, [0]⟩, .apply ⟨1, [0]⟩, .release ⟨1, [0]⟩, .wakeLock 1,
    .wakeSignal 1 (some 1), .wakeUnlock 1, .reacquire 1, .finish 1]

/-- The log from the end of the first collective on. -/
def overlappingEnd : List FilesizeEvent :=
  [.complete 0 200, .free ⟨0, []⟩, .allocate ⟨1, [0, 0]⟩ 0, .respond ⟨1, [0, 0]⟩ 0 2,
    .apply ⟨1, [0, 0]⟩ ⟨1, [0]⟩, .respond ⟨1, [0]⟩ 2 1, .free ⟨1, [0, 0]⟩,
    .apply ⟨1, [0]⟩ ⟨1, []⟩, .free ⟨1, [0]⟩, .complete 1 200, .free ⟨1, []⟩]

theorem overlapping_roots : ∀ c ∈ overlappingCalls, (0 ≤ c.root ∧ c.root < 3) ∧ 1 ≤ c.degree := by
  decide

theorem overlapping_exact : ∀ c ∈ overlappingCalls, ExactFor wrapInt 3 c.degree :=
  exactFor_of_le (by decide)

set_option maxRecDepth 2000 in
theorem overlapping_run : ∃ s,
    Trace (QuietStep wrapInt 3 overlappingCalls) FilesizeNet.start overlappingRun s ∧
      s.events.drop 11 = overlappingEnd := by
  have hrun := of_foldlM (f := quietStep wrapInt 3 overlappingCalls) (s := FilesizeNet.start)
    (Eq.refl (overlappingRun.foldlM (quietStep wrapInt 3 overlappingCalls) FilesizeNet.start))
  exact ⟨_, quiet_trace (allSound_of_roots overlapping_roots overlapping_exact) hrun, rfl⟩

/-- In that run a response finds its record on server 2, which has had two; both roots complete
with the maximum; and the records of both roots and the inner one have all their responses. -/
theorem responses_find_their_records_overlapping :
    ∃ s, Trace (QuietStep wrapInt 3 overlappingCalls) FilesizeNet.start overlappingRun s ∧
      s.fault = false ∧ (∃ j, (⟨1, [0, 0]⟩ : Handle) = Handle.child ⟨1, [0]⟩ j) ∧
      (∀ i < 2, .complete i 200 ∈ s.events) ∧ ((200 : ℕ) : ℤ) = 100 * (3 - 1) ∧
      GotAll (childCountOf wrapInt 3 ⟨0, 2, true⟩ 0) ⟨0, []⟩ s.events ∧
      GotAll (childCountOf wrapInt 3 ⟨1, 1, false⟩ 1) ⟨1, []⟩ s.events ∧
      GotAll (childCountOf wrapInt 3 ⟨1, 1, false⟩ 2) ⟨1, [0]⟩ s.events := by
  obtain ⟨s, hrun, hend⟩ := overlapping_run
  have hmem : ∀ e ∈ overlappingEnd, e ∈ s.events := fun e he => List.mem_of_mem_drop (hend ▸ he)
  obtain ⟨hfault, happly, hmax, hrecords⟩ :=
    responses_find_their_records overlapping_roots overlapping_exact hrun
  have hcomplete : ∀ i < 2, .complete i 200 ∈ s.events := by
    intro i hi
    interval_cases i <;> exact hmem _ (by decide)
  have hfirst := hrecords ⟨0, []⟩ ⟨0, 2, true⟩ 0 ⟨rfl, rfl⟩
  have hsecond := hrecords ⟨1, []⟩ ⟨1, 1, false⟩ 1 ⟨rfl, rfl⟩
  have hinner := hrecords ⟨1, [0]⟩ ⟨1, 1, false⟩ 2 ⟨rfl, rfl⟩
  exact ⟨s, hrun, hfault, happly _ _ (hmem _ (by decide)), hcomplete,
    hmax 0 200 (hcomplete 0 two_pos), hfirst.2.2.1 0 200 rfl (hcomplete 0 two_pos),
    hsecond.2.2.1 1 200 rfl (hcomplete 1 one_lt_two), hinner.2.1 1 (hmem _ (by decide))⟩

/-- Two servers that are the roots of one collective each. -/
def crossedCollectives : List Collective := [⟨0, 2, true⟩, ⟨1, 2, true⟩]

/-- Server 0 takes the request of server 1 while it waits for the response of server 1, which
is then applied to the newer record. -/
theorem responses_cross :
    ¬ ∀ xs s, Trace (FilesizeStep wrapInt 2 crossedCollectives) FilesizeNet.start xs s →
      ∀ o x, .apply o x ∈ s.events → ∃ j, o = x.child j := by
  intro hall
  have hrun := of_foldlM (f := filesizeStep wrapInt 2 crossedCollectives) (s := FilesizeNet.start)
    (Eq.refl (List.foldlM (filesizeStep wrapInt 2 crossedCollectives) FilesizeNet.start
      [.start 0, .forward ⟨0, []⟩, .start 1, .forward ⟨1, []⟩, .accept ⟨0, [0]⟩, .alloc ⟨0, [0]⟩,
        .endForward ⟨0, [0]⟩, .accept ⟨1, [0]⟩, .alloc ⟨1, [0]⟩, .endForward ⟨1, [0]⟩,
        .acceptResponse ⟨0, [0]⟩, .apply ⟨0, [0]⟩]))
  obtain ⟨j, hj⟩ := hall _ _ hrun ⟨0, [0]⟩ ⟨1, [0]⟩ (by decide)
  simp [Handle.child] at hj

/-! ## The life of the records -/

/-- Collectives that rank 0 starts one after the other: no record is used that is null or has
been freed, none is freed twice, and a run, which is finite, ends with all of them freed. -/
theorem filesize_records_freed_once {arith : ℤ → ℤ} {n : ℤ} {colls : List Collective} (hn : 1 ≤ n)
    (hcolls : ∀ c ∈ colls, c.root = 0 ∧ 1 ≤ c.degree)
    (hexact : ∀ c ∈ colls, ExactFor arith n c.degree) {xs : List FilesizeLabel} {s : FilesizeNet}
    (hrun : Trace (InTurnStep arith n colls) FilesizeNet.start xs s) :
    s.fault = false ∧
    (∀ x, .free x ∈ s.events →
      (∃ r, .allocate x r ∈ s.events) ∧ s.events.count (.free x) = 1) ∧
    xs.length ≤ colls.length * (n.toNat * (2 * n.toNat + 10) + 11) ∧
    (Terminal (InTurnStep arith n colls) s →
      (∀ i < colls.length, (s.control i).main = .finished) ∧
      ∀ x r, .allocate x r ∈ s.events → s.events.count (.free x) = 1) := by
  have S := allSound_of_zero hn hcolls hexact
  have hroot : ∀ c ∈ colls, c.root = 0 := fun c hc => (hcolls c hc).1
  obtain ⟨-, hI, ho⟩ := inTurn_trace S hroot hrun
  have honce : ∀ x, .free x ∈ s.events → s.events.count (.free x) = 1 := fun x he =>
    List.count_eq_one_of_mem hI.log.records.nodup he
  refine ⟨hI.net.fault, ?_, ?_, ?_⟩
  · intro x he
    have hfreed : (s.part x).cell = .freed := (hI.log.records.mem_iff _).mp he
    obtain ⟨c, r, hat⟩ := hI.net.parts.at_of_part (h := x) (by intro h; simp [h] at hfreed)
    exact ⟨⟨r, (hI.log.records.mem_iff _).mpr ⟨⟨c, hat⟩, by simp [hfreed]⟩⟩, honce x he⟩
  · have hle : xs.length ≤ progress arith n colls s := by
      refine length_le_measure (I := fun s => RunInv arith n colls s ∧ InOrder s)
        ⟨runInv_start, fun k hk => absurd rfl hk⟩ ?_ ?_ hrun
      · rintro s a u ⟨hI, ho⟩ ⟨hs, ht⟩
        exact ⟨runInv_step S hI hs (quiet_of_inTurn S hroot hI.net ho hs ht),
          inOrder_move ho (move_of_step S hI.net hs) ht⟩
      · rintro s a u ⟨hI, -⟩ ⟨hs, -⟩
        exact progress_of_rises S (rises_of_move S hI.net (move_of_step S hI.net hs))
    exact hle.trans (progress_le S hI.net)
  · intro hT
    have hstuck : ¬ Working arith n colls s := by
      rintro ⟨a, u, hs, hstart⟩
      refine hT a u ⟨hs, ?_⟩
      cases a with
      | start i => exact absurd rfl (hstart i)
      | _ => trivial
    constructor
    · intro i
      induction i using Nat.strong_induction_on with
      | _ i ih =>
        intro hi
        have hc : colls[i]? = some colls[i] := List.getElem?_eq_getElem hi
        by_cases hidle : (s.control i).main = .idle
        · have hs : FilesizeStep arith n colls s (.start i) _ :=
            step_start.mpr ⟨hI.net.fault, _, hc, hidle, rfl⟩
          exact absurd ⟨hs, fun k hk => ih k hk (hk.trans hi)⟩ (hT _ _)
        · by_contra hne
          exact hstuck (hI.net.working_of_running S hc ⟨hidle, hne⟩)
    · intro x r he
      obtain ⟨⟨c, hat⟩, hcell⟩ := (hI.log.records.mem_iff _).mp he
      exact honce x ((hI.log.records.mem_iff _).mpr (hI.net.idle S hstuck hat hcell).2)

theorem filesize_records_freed_once_two :
    ∃ s, Trace (InTurnStep wrapInt 2 repeatedCalls) FilesizeNet.start repeatedRun s ∧
      s.fault = false ∧ s.events.count (.free ⟨0, [0]⟩) = 1 ∧
      s.events.count (.free ⟨1, []⟩) = 1 := by
  obtain ⟨s, hrun, hend⟩ := repeated_run
  have hmem : ∀ e ∈ repeatedEnd, e ∈ s.events := fun e he => List.mem_of_mem_drop (hend ▸ he)
  obtain ⟨hfault, hfree, -⟩ := filesize_records_freed_once (by decide) (by decide)
    repeated_exact hrun
  exact ⟨s, hrun, hfault, (hfree _ (hmem _ (by decide))).2, (hfree _ (hmem _ (by decide))).2⟩

end Metasim
