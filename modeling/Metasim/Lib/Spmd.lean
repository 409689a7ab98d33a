import Metasim.Lib.Transition
import Mathlib.Algebra.BigOperators.Group.Finset.Piecewise
import Mathlib.Algebra.Order.BigOperators.Group.Finset
import Mathlib.Data.Finset.Max
import Mathlib.Data.Fintype.Basic

/-! Processes that run one program together: each goes from one blocking call to the next as its
own control says, and the collective calls are matched in the order in which they are made. -/
namespace Spmd

open Transition

/-- `held p c` is a process that may not return from `c` before all processes have made the call. -/
structure Program (ι κ : Type*) where
  first : ι → Option κ
  next : ι → κ → Option κ
  collective : κ → Bool
  held : ι → κ → Bool

/-- The call a process is at, whether it is inside, and how many collective calls it has made. -/
structure State (ι κ : Type*) where
  current : ι → Option κ
  inside : ι → Bool
  made : ι → ℕ

inductive Event (κ : Type*)
  | enter (c : κ)
  | leave (c : κ)
deriving Repr, DecidableEq

variable {ι κ : Type*} [DecidableEq ι]

section Definitions

variable (P : Program ι κ) (s : State ι κ) (p : ι) (c : κ)

/-- A barrier lets no process go on alone. -/
def Program.Barrier : Prop := P.collective c = true ∧ ∀ p, P.held p c = true

def Program.start : State ι κ :=
  { current := P.first, inside := fun _ => false, made := fun _ => 0 }

def Program.enter : State ι κ :=
  { s with
    inside := Function.update s.inside p true
    made := if P.collective c then Function.update s.made p (s.made p + 1) else s.made }

def Program.leave : State ι κ :=
  { s with
    current := Function.update s.current p (P.next p c)
    inside := Function.update s.inside p false }

end Definitions

/-- One process enters its next call or returns from it. -/
def Program.step [DecidableEq κ] [Fintype ι] (P : Program ι κ) (s : State ι κ) :
    ι × Event κ → Option (State ι κ)
  | (p, .enter c) =>
    if s.current p = some c ∧ s.inside p = false then some (P.enter s p c) else none
  | (p, .leave c) =>
    if s.current p = some c ∧ s.inside p = true ∧ (P.held p c = true → ∀ q, s.made p ≤ s.made q)
    then some (P.leave s p c) else none

def Step [DecidableEq κ] [Fintype ι] (P : Program ι κ) (s : State ι κ) (a : ι × Event κ)
    (u : State ι κ) : Prop :=
  P.step s a = some u

/-! ## What a run has done so far -/

/-- The calls a process has entered. -/
def entered (p : ι) (xs : List (ι × Event κ)) : List κ :=
  xs.filterMap fun a => if a.1 = p then (match a.2 with | .enter c => some c | .leave _ => none)
    else none

/-- The calls it has returned from. -/
def returned (p : ι) (xs : List (ι × Event κ)) : List κ :=
  xs.filterMap fun a => if a.1 = p then (match a.2 with | .enter _ => none | .leave c => some c)
    else none

/-- The steps of processes that make a call jointly. -/
def jointly (ps : List ι) (c : κ) : List (ι × Event κ) :=
  ps.map (·, .enter c) ++ ps.map (·, .leave c)

/-- The calls from one on, by the control of a process. -/
def Follows (next : κ → Option κ) : Option κ → List κ → Prop
  | o, [] => o = none
  | o, c :: l => o = some c ∧ Follows next (next c) l

/-- Every process has an end to its path, and the same collective calls on it. -/
structure Aligned (P : Program ι κ) (path : ι → List κ) (collectives : List κ) : Prop where
  follows : ∀ p, Follows (P.next p) (P.first p) (path p)
  collectives : ∀ p, (path p).filter P.collective = collectives

variable {P : Program ι κ} {path : ι → List κ} {collectives : List κ} {s u : State ι κ} {p q : ι}
  {c d : κ} {a : ι × Event κ} {xs : List (ι × Event κ)} {e : Event κ}

theorem follows_none {next : κ → Option κ} {l : List κ} (h : Follows next none l) : l = [] := by
  cases l with
  | nil => rfl
  | cons c l => cases h.1

theorem follows_some {next : κ → Option κ} {l : List κ} (h : Follows next (some c) l) :
    ∃ l', l = c :: l' ∧ Follows next (next c) l' := by
  cases l with
  | nil => cases h
  | cons d l =>
    obtain rfl := Option.some.inj h.1
    exact ⟨l, rfl, h.2⟩

/-- The calls under other names. -/
theorem Follows.map {μ : Type*} {next : κ → Option κ} {next' : μ → Option μ} {f : κ → μ}
    (hf : ∀ c, next' (f c) = (next c).map f) {o : Option κ} {l : List κ} (h : Follows next o l) :
    Follows next' (o.map f) (l.map f) := by
  induction l generalizing o with
  | nil => exact congrArg (Option.map f) h
  | cons c l ih =>
    obtain ⟨rfl, h⟩ := h
    refine ⟨rfl, ?_⟩
    rw [hf]
    exact ih h

section History

@[simp] theorem entered_nil (p : ι) : entered p ([] : List (ι × Event κ)) = [] := rfl

@[simp] theorem returned_nil (p : ι) : returned p ([] : List (ι × Event κ)) = [] := rfl

theorem entered_snoc (p q : ι) (e : Event κ) : entered p (xs ++ [(q, e)]) = entered p xs ++
    if q = p then (match e with | .enter c => [c] | .leave _ => []) else [] := by
  unfold entered
  rw [List.filterMap_append]
  congr 1
  cases e <;> by_cases h : q = p <;> simp [h]

theorem returned_snoc (p q : ι) (e : Event κ) : returned p (xs ++ [(q, e)]) = returned p xs ++
    if q = p then (match e with | .enter _ => [] | .leave c => [c]) else [] := by
  unfold returned
  rw [List.filterMap_append]
  congr 1
  cases e <;> by_cases h : q = p <;> simp [h]

/-- Every step enters a call or leaves one. -/
theorem length_eq_sum [Fintype ι] (xs : List (ι × Event κ)) :
    xs.length = ∑ p, ((entered p xs).length + (returned p xs).length) := by
  induction xs using List.reverseRecOn with
  | nil => simp
  | append_singleton xs a ih =>
    obtain ⟨q, e⟩ := a
    have hone : ∀ p, (entered p (xs ++ [(q, e)])).length + (returned p (xs ++ [(q, e)])).length =
        (entered p xs).length + (returned p xs).length + if q = p then 1 else 0 := by
      intro p
      rw [entered_snoc, returned_snoc]
      cases e <;> split_ifs <;> simp <;> omega
    rw [Finset.sum_congr rfl fun p _ => hone p, Finset.sum_add_distrib, ← ih,
      Finset.sum_ite_eq, if_pos (Finset.mem_univ q), List.length_append, List.length_singleton]

end History

/-! ## The steps -/

section Steps

variable [DecidableEq κ] [Fintype ι]

theorem step_enter : Step P s (p, .enter c) u ↔
    s.current p = some c ∧ s.inside p = false ∧ u = P.enter s p c := by
  simp only [Step, Program.step, Option.ite_none_right_eq_some, Option.some.injEq, and_assoc,
    @eq_comm _ u]

theorem step_leave : Step P s (p, .leave c) u ↔
    s.current p = some c ∧ s.inside p = true ∧ (P.held p c = true → ∀ q, s.made p ≤ s.made q) ∧
      u = P.leave s p c := by
  simp only [Step, Program.step, Option.ite_none_right_eq_some, Option.some.injEq, and_assoc,
    @eq_comm _ u]

end Steps

theorem made_enter (q : ι) : (P.enter s p c).made q =
    s.made q + if q = p ∧ P.collective c = true then 1 else 0 := by
  unfold Program.enter
  by_cases hc : P.collective c = true
  · by_cases hq : q = p
    · simp [hc, hq]
    · simp [hc, hq]
  · simp [hc]

/-! ## The invariant -/

/-- What a process has made of its path. -/
structure Walks (P : Program ι κ) (l : List κ) (xs : List (ι × Event κ)) (s : State ι κ) (p : ι) :
    Prop where
  path : ∃ rest, Follows (P.next p) (s.current p) rest ∧ returned p xs ++ rest = l
  entered_eq : entered p xs = returned p xs ++
    if s.inside p = true then (s.current p).toList else []
  made_eq : s.made p = (entered p xs).countP P.collective

/-- No process is past a barrier that another has not reached. -/
def Synced (P : Program ι κ) (collectives : List κ) (xs : List (ι × Event κ)) (s : State ι κ) :
    Prop :=
  ∀ p q k c, collectives[k]? = some c → P.Barrier c →
    k < (returned p xs).countP P.collective → k < s.made q

structure Inv (P : Program ι κ) (path : ι → List κ) (collectives : List κ)
    (xs : List (ι × Event κ)) (s : State ι κ) : Prop where
  walks : ∀ p, Walks P (path p) xs s p
  synced : Synced P collectives xs s

theorem walks_start (hpath : ∀ p, Follows (P.next p) (P.first p) (path p)) (p : ι) :
    Walks P (path p) [] P.start p := ⟨⟨path p, hpath p, rfl⟩, rfl, rfl⟩

theorem inv_start (h : Aligned P path collectives) : Inv P path collectives [] P.start := by
  refine ⟨walks_start h.follows, ?_⟩
  intro p q k c _ _ hk
  exact absurd hk (Nat.not_lt_zero k)

/-- The path around the call a process is at. -/
theorem Walks.path_eq {l : List κ} (h : Walks P l xs s p) (hc : s.current p = some c) :
    ∃ rest, Follows (P.next p) (P.next p c) rest ∧ returned p xs ++ c :: rest = l := by
  obtain ⟨rest, hrest, hl⟩ := h.path
  rw [hc] at hrest
  obtain ⟨rest, rfl, hnext⟩ := follows_some hrest
  exact ⟨rest, hnext, hl⟩

/-- A step of one process is none of the others'. -/
theorem Walks.congr {l : List κ} (h : Walks P l xs s p) (hpq : q ≠ p)
    (hc : u.current p = s.current p) (hi : u.inside p = s.inside p) (hm : u.made p = s.made p) :
    Walks P l (xs ++ [(q, e)]) u p := by
  have he : entered p (xs ++ [(q, e)]) = entered p xs := by
    rw [entered_snoc, if_neg hpq, List.append_nil]
  have hr : returned p (xs ++ [(q, e)]) = returned p xs := by
    rw [returned_snoc, if_neg hpq, List.append_nil]
  constructor
  · rw [hc, hr]
    exact h.path
  · rw [hc, hi, he, hr]
    exact h.entered_eq
  · rw [hm, he]
    exact h.made_eq

theorem Walks.enter {l : List κ} (h : Walks P l xs s p) (hc : s.current p = some c)
    (hi : s.inside p = false) : Walks P l (xs ++ [(p, .enter c)]) (P.enter s p c) p := by
  have he : entered p (xs ++ [(p, .enter c)]) = entered p xs ++ [c] := by
    rw [entered_snoc, if_pos rfl]
  have hr : returned p (xs ++ [(p, .enter c)]) = returned p xs := by
    rw [returned_snoc, if_pos rfl, List.append_nil]
  have heq := h.entered_eq
  rw [hi, if_neg Bool.false_ne_true, List.append_nil] at heq
  constructor
  · rw [hr]
    exact h.path
  · rw [he, hr, heq]
    simp [Program.enter, hc]
  · rw [made_enter, he, List.countP_append, h.made_eq, List.countP_singleton]
    simp

theorem Walks.leave {l : List κ} (h : Walks P l xs s p) (hc : s.current p = some c)
    (hi : s.inside p = true) : Walks P l (xs ++ [(p, .leave c)]) (P.leave s p c) p := by
  have he : entered p (xs ++ [(p, .leave c)]) = entered p xs := by
    rw [entered_snoc, if_pos rfl, List.append_nil]
  have hr : returned p (xs ++ [(p, .leave c)]) = returned p xs ++ [c] := by
    rw [returned_snoc, if_pos rfl]
  obtain ⟨rest, hnext, hl⟩ := h.path_eq hc
  constructor
  · refine ⟨rest, ?_, ?_⟩
    · simpa [Program.leave] using hnext
    · rw [hr, List.append_assoc, List.singleton_append, hl]
  · have heq := h.entered_eq
    rw [hi, if_pos rfl, hc, Option.toList_some] at heq
    rw [he, hr, heq]
    simp [Program.leave]
  · rw [he]
    exact h.made_eq

/-- The calls entered are those of the path. -/
theorem Walks.entered_initial {l : List κ} (h : Walks P l xs s p) : entered p xs <+: l := by
  rw [h.entered_eq]
  cases hc : s.current p with
  | none =>
    obtain ⟨rest, -, hl⟩ := h.path
    exact ⟨rest, by simp [hl]⟩
  | some c =>
    obtain ⟨rest, -, hl⟩ := h.path_eq hc
    split_ifs
    · exact ⟨rest, by simp [hl]⟩
    · exact ⟨c :: rest, by simp [hl]⟩

theorem Walks.returned_initial {l : List κ} (h : Walks P l xs s p) : returned p xs <+: l := by
  obtain ⟨rest, -, hl⟩ := h.path
  exact ⟨rest, hl⟩

theorem Walks.current_mem {l : List κ} (h : Walks P l xs s p) (hc : s.current p = some c) :
    c ∈ l := by
  obtain ⟨rest, -, hl⟩ := h.path_eq hc
  simp [← hl]

/-- At the end of its control a process has called everything on its path. -/
theorem Walks.finished {l : List κ} (h : Walks P l xs s p) (hc : s.current p = none) :
    entered p xs = l ∧ returned p xs = l := by
  obtain ⟨rest, hrest, hl⟩ := h.path
  rw [hc] at hrest
  rw [follows_none hrest, List.append_nil] at hl
  refine ⟨?_, hl⟩
  rw [h.entered_eq, hl, hc]
  simp

/-- The place of a collective call among all of them. -/
theorem getElem?_filter {f : κ → Bool} {l m : List κ} (hc : f c = true) :
    ((l ++ c :: m).filter f)[l.countP f]? = some c := by
  rw [List.filter_append, List.filter_cons_of_pos hc, List.countP_eq_length_filter,
    List.getElem?_append_right le_rfl, Nat.sub_self]
  rfl

/-- The collective call after one of the process's own. -/
theorem Walks.collective_ahead {l : List κ} (h : Walks P l xs s p) (hc : s.current p = some c)
    (hown : P.collective c = false) (hd : P.next p c = some d) (hcoll : P.collective d = true) :
    (l.filter P.collective)[s.made p]? = some d ∧
      s.made p = (returned p xs).countP P.collective := by
  have hmade : s.made p = (returned p xs).countP P.collective := by
    rw [h.made_eq, h.entered_eq, List.countP_append, hc]
    split_ifs <;> simp [hown]
  refine ⟨?_, hmade⟩
  obtain ⟨rest, hnext, hl⟩ := h.path_eq hc
  rw [hd] at hnext
  obtain ⟨rest, rfl, -⟩ := follows_some hnext
  have hget := getElem?_filter (l := returned p xs ++ [c]) (m := rest) hcoll
  rw [List.countP_append, List.countP_singleton, hown, if_neg Bool.false_ne_true, Nat.add_zero,
    ← hmade, List.append_assoc, List.singleton_append, hl] at hget
  exact hget

theorem Synced.enter (h : Synced P collectives xs s) :
    Synced P collectives (xs ++ [(p, .enter c)]) (P.enter s p c) := by
  intro r q k d hd hbar hk
  have hr : returned r (xs ++ [(p, .enter c)]) = returned r xs := by
    rw [returned_snoc]
    simp
  rw [hr] at hk
  rw [made_enter]
  exact Nat.lt_add_right _ (h r q k d hd hbar hk)

/-- A process that comes back from a barrier leaves no process behind it. -/
theorem Synced.leave (h : Synced P collectives xs s) (hw : Walks P (path p) xs s p)
    (hpath : (path p).filter P.collective = collectives) (hc : s.current p = some c)
    (hi : s.inside p = true) (hheld : P.held p c = true → ∀ q, s.made p ≤ s.made q) :
    Synced P collectives (xs ++ [(p, .leave c)]) (P.leave s p c) := by
  intro r q k d hd hbar hk
  change k < s.made q
  rw [returned_snoc] at hk
  by_cases hrp : p = r
  · subst hrp
    rw [if_pos rfl, List.countP_append, List.countP_singleton] at hk
    by_cases hold : k < (returned p xs).countP P.collective
    · exact h p q k d hd hbar hold
    · have hcoll : P.collective c = true := by
        by_contra hno
        rw [if_neg hno] at hk
        omega
      rw [if_pos hcoll] at hk
      obtain rfl : k = (returned p xs).countP P.collective := by omega
      obtain ⟨rest, -, hl⟩ := hw.path_eq hc
      rw [← hpath, ← hl, getElem?_filter hcoll] at hd
      obtain rfl := Option.some.inj hd
      have hmade := hw.made_eq
      rw [hw.entered_eq, hi, if_pos rfl, hc, Option.toList_some, List.countP_append,
        List.countP_singleton, if_pos hcoll] at hmade
      have := hheld (hbar.2 p) q
      omega
  · rw [if_neg hrp, List.append_nil] at hk
    exact h r q k d hd hbar hk

/-- Two processes that each have a barrier to call next are before the same one. -/
theorem Inv.same_barrier (hA : Aligned P path collectives) (h : Inv P path collectives xs s)
    {c' d' : κ} (hp : s.current p = some c) (hq : s.current q = some c')
    (hc : P.collective c = false) (hc' : P.collective c' = false) (hd : P.next p c = some d)
    (hd' : P.next q c' = some d') (hbar : P.Barrier d) (hbar' : P.Barrier d') : d = d' := by
  obtain ⟨hdp, hmp⟩ := (h.walks p).collective_ahead hp hc hd hbar.1
  obtain ⟨hdq, hmq⟩ := (h.walks q).collective_ahead hq hc' hd' hbar'.1
  rw [hA.collectives] at hdp hdq
  have hpq := h.synced q p _ _ hdp hbar
  have hqp := h.synced p q _ _ hdq hbar'
  have heq : s.made p = s.made q := by omega
  rw [heq, hdq] at hdp
  exact (Option.some.inj hdp).symm

section Runs

variable [DecidableEq κ] [Fintype ι]

theorem walks_step (h : ∀ q, Walks P (path q) xs s q) (hs : Step P s a u) :
    ∀ q, Walks P (path q) (xs ++ [a]) u q := by
  obtain ⟨p, e⟩ := a
  intro q
  cases e with
  | enter c =>
    obtain ⟨hc, hi, rfl⟩ := step_enter.mp hs
    by_cases hq : q = p
    · subst hq
      exact (h q).enter hc hi
    · refine (h q).congr (Ne.symm hq) rfl (Function.update_of_ne hq _ _) ?_
      rw [made_enter]
      simp [hq]
  | leave c =>
    obtain ⟨hc, hi, -, rfl⟩ := step_leave.mp hs
    by_cases hq : q = p
    · subst hq
      exact (h q).leave hc hi
    · exact (h q).congr (Ne.symm hq) (Function.update_of_ne hq _ _)
        (Function.update_of_ne hq _ _) rfl

theorem walks_trace (hpath : ∀ p, Follows (P.next p) (P.first p) (path p))
    (hrun : Trace (Step P) P.start xs s) : ∀ p, Walks P (path p) xs s p := by
  refine invariant (I := fun xs s => ∀ p, Walks P (path p) xs s p) (walks_start hpath) ?_ hrun
  exact fun _ _ _ _ h hs => walks_step h hs

theorem inv_step (hA : Aligned P path collectives) (h : Inv P path collectives xs s)
    (hs : Step P s a u) : Inv P path collectives (xs ++ [a]) u := by
  refine ⟨walks_step h.walks hs, ?_⟩
  obtain ⟨p, e⟩ := a
  cases e with
  | enter c =>
    obtain ⟨-, -, rfl⟩ := step_enter.mp hs
    exact h.synced.enter
  | leave c =>
    obtain ⟨hc, hi, hheld, rfl⟩ := step_leave.mp hs
    exact h.synced.leave (h.walks p) (hA.collectives p) hc hi hheld

theorem inv_trace (hA : Aligned P path collectives) (hrun : Trace (Step P) P.start xs s) :
    Inv P path collectives xs s :=
  invariant (inv_start hA) (fun _ _ _ _ h hs => inv_step hA h hs) hrun

/-- The processes that are furthest behind can go on. -/
theorem Inv.exists_step (hA : Aligned P path collectives) (h : Inv P path collectives xs s)
    (hp : s.current p ≠ none) : ∃ a u, Step P s a u := by
  obtain ⟨q, hq, hmin⟩ := Finset.exists_min_image {q | s.current q ≠ none} s.made
    ⟨p, Finset.mem_filter.mpr ⟨Finset.mem_univ p, hp⟩⟩
  obtain ⟨c, hc⟩ := Option.ne_none_iff_exists'.mp (Finset.mem_filter.mp hq).2
  cases hi : s.inside q with
  | false => exact ⟨(q, .enter c), _, step_enter.mpr ⟨hc, hi, rfl⟩⟩
  | true =>
    refine ⟨(q, .leave c), _, step_leave.mpr ⟨hc, hi, fun _ r => ?_, rfl⟩⟩
    by_cases hr : s.current r = none
    · have hr := (h.walks r).finished hr
      rw [(h.walks q).made_eq, (h.walks r).made_eq, hr.1,
        List.countP_eq_length_filter (l := path r), hA.collectives, ← hA.collectives q,
        ← List.countP_eq_length_filter]
      exact (h.walks q).entered_initial.sublist.countP_le
    · exact hmin r (Finset.mem_filter.mpr ⟨Finset.mem_univ r, hr⟩)

end Runs

theorem length_le_of_walks [Fintype ι] (h : ∀ p, Walks P (path p) xs s p) :
    xs.length ≤ ∑ p, 2 * (path p).length := by
  rw [length_eq_sum]
  refine Finset.sum_le_sum fun p _ => ?_
  have := (h p).entered_initial.length_le
  have := (h p).returned_initial.length_le
  omega

theorem Inv.length_le [Fintype ι] (h : Inv P path collectives xs s) :
    xs.length ≤ ∑ p, 2 * (path p).length := length_le_of_walks h.walks

/-! ## Barriers put the calls of all processes in order -/

/-- Every collective call is a barrier. -/
def Program.Fenced (P : Program ι κ) : Prop := ∀ p c, P.collective c = true → P.held p c = true

/-- No process is past a collective call that another has not reached. The paths need not
agree: a process may have left before the others. -/
structure FencedInv (P : Program ι κ) (path : ι → List κ) (xs : List (ι × Event κ))
    (s : State ι κ) : Prop where
  walks : ∀ p, Walks P (path p) xs s p
  even : ∀ p q, (returned p xs).countP P.collective ≤ s.made q

/-- The collective calls before a call are as many wherever it stands. -/
def Phased (P : Program ι κ) (path : ι → List κ) (phase : κ → ℕ) : Prop :=
  ∀ p l c m, path p = l ++ c :: m → l.countP P.collective = phase c

/-- The same along one path, from `k` calls on. -/
def Counted (collective : κ → Bool) (phase : κ → ℕ) : ℕ → List κ → Prop
  | _, [] => True
  | k, c :: l => phase c = k ∧ Counted collective phase (if collective c then k + 1 else k) l

section Counted

variable {f : κ → Bool} {phase : κ → ℕ} {k : ℕ} {l m : List κ}

theorem counted_append : Counted f phase k (l ++ m) ↔
    Counted f phase k l ∧ Counted f phase (k + l.countP f) m := by
  induction l generalizing k with
  | nil => simp [Counted]
  | cons c l ih =>
    simp only [List.cons_append, Counted, ih, and_assoc, List.countP_cons]
    by_cases hc : f c = true
    · simp only [hc, if_true, Nat.add_right_comm k 1, Nat.add_assoc]
    · simp only [hc, Bool.false_eq_true, if_false, Nat.add_zero]

/-- A stretch without collective calls. -/
theorem counted_own (h : ∀ c ∈ l, f c = false ∧ phase c = k) : Counted f phase k l := by
  induction l with
  | nil => trivial
  | cons c l ih =>
    obtain ⟨hc, hk⟩ := h c List.mem_cons_self
    refine ⟨hk, ?_⟩
    rw [hc, if_neg Bool.false_ne_true]
    exact ih fun d hd => h d (List.mem_cons_of_mem c hd)

omit [DecidableEq ι] in
theorem phased_of_counted (h : ∀ p, Counted P.collective phase 0 (path p)) :
    Phased P path phase := by
  intro p l c m hl
  have hp := h p
  rw [hl, counted_append, Nat.zero_add] at hp
  exact hp.2.1.symm

end Counted

section Fenced

variable [DecidableEq κ] [Fintype ι] {phase : κ → ℕ}

theorem fencedInv_step (hP : P.Fenced) (h : FencedInv P path xs s) (hs : Step P s a u) :
    FencedInv P path (xs ++ [a]) u := by
  refine ⟨walks_step h.walks hs, fun r q => ?_⟩
  obtain ⟨p, e⟩ := a
  have hle := h.even r q
  rw [returned_snoc]
  cases e with
  | enter c =>
    obtain ⟨-, -, rfl⟩ := step_enter.mp hs
    rw [made_enter]
    simpa using Nat.le_add_right_of_le hle
  | leave c =>
    obtain ⟨hc, hi, hheld, rfl⟩ := step_leave.mp hs
    change _ ≤ s.made q
    by_cases hpr : p = r
    · subst hpr
      by_cases hcoll : P.collective c = true
      · have hmade := (h.walks p).made_eq
        rw [(h.walks p).entered_eq, hi, if_pos rfl, hc, Option.toList_some, List.countP_append,
          List.countP_singleton] at hmade
        rw [if_pos rfl, List.countP_append, List.countP_singleton, ← hmade]
        exact hheld (hP p c hcoll) q
      · simpa [hcoll] using hle
    · rwa [if_neg hpr, List.append_nil]

theorem fencedInv_trace (hP : P.Fenced) (hpath : ∀ p, Follows (P.next p) (P.first p) (path p))
    (hrun : Trace (Step P) P.start xs s) : FencedInv P path xs s := by
  refine invariant ⟨walks_start hpath, fun _ _ => le_rfl⟩ ?_ hrun
  exact fun _ _ _ _ h hs => fencedInv_step hP h hs

end Fenced

/-- A process that has fewer collective calls on its path holds all others at the next one. -/
theorem FencedInv.returned_le (h : FencedInv P path xs s) (p q : ι) :
    (returned p xs).countP P.collective ≤ (path q).countP P.collective :=
  calc (returned p xs).countP P.collective ≤ s.made q := h.even p q
    _ = (entered q xs).countP P.collective := (h.walks q).made_eq
    _ ≤ (path q).countP P.collective := (h.walks q).entered_initial.sublist.countP_le

/-- A process is inside one call at most. -/
theorem Walks.entered_cases {l : List κ} (h : Walks P l xs s p) :
    entered p xs = returned p xs ∨
      ∃ c, s.inside p = true ∧ s.current p = some c ∧ entered p xs = returned p xs ++ [c] := by
  have heq := h.entered_eq
  cases hi : s.inside p with
  | false => exact Or.inl (by simpa [hi] using heq)
  | true =>
    cases hc : s.current p with
    | none => exact Or.inl (by simpa [hc] using heq)
    | some c => exact Or.inr ⟨c, rfl, rfl, by simpa [hi, hc] using heq⟩

/-- A process has returned from all that is in front of a call of its path. -/
def Reached (l : List κ) (xs : List (ι × Event κ)) (p : ι) (c : κ) : Prop :=
  ∃ f m, l = f ++ c :: m ∧ f <+: returned p xs

theorem Walks.reached {l : List κ} (h : Walks P l xs s p) (hc : s.current p = some c) :
    Reached l xs p c := by
  obtain ⟨rest, -, hl⟩ := h.path_eq hc
  exact ⟨_, rest, hl.symm, List.prefix_rfl⟩

theorem Walks.reached_of_entered {l : List κ} (h : Walks P l xs s p) (hc : c ∈ entered p xs) :
    Reached l xs p c := by
  obtain ⟨f, m, hf⟩ := List.append_of_mem hc
  obtain ⟨t, ht⟩ := h.entered_initial
  refine ⟨f, m ++ t, by rw [← ht, hf]; simp, ?_⟩
  have hpre : f <+: entered p xs := ⟨c :: m, hf.symm⟩
  rcases h.entered_cases with heq | ⟨d, -, -, heq⟩
  · rwa [heq] at hpre
  · rw [heq] at hpre
    refine (List.prefix_concat_iff.mp hpre).resolve_left fun hall => ?_
    have := congrArg List.length (hf.symm.trans heq)
    simp [hall] at this

section Phases

variable {phase : κ → ℕ}

theorem FencedInv.phase_le_made (h : FencedInv P path xs s) (hphase : Phased P path phase)
    (hc : Reached (path p) xs p c) (q : ι) : phase c ≤ s.made q := by
  obtain ⟨f, m, hf, hret⟩ := hc
  calc phase c = f.countP P.collective := (hphase p f c m hf).symm
    _ ≤ (returned p xs).countP P.collective := hret.sublist.countP_le
    _ ≤ s.made q := h.even p q

/-- Processes at calls of their own are in the same phase. -/
theorem FencedInv.same_phase (h : FencedInv P path xs s) (hphase : Phased P path phase)
    (hc : s.current p = some c) (hd : s.current q = some d) (hcown : P.collective c = false)
    (hdown : P.collective d = false) : phase c = phase d := by
  have hmade : ∀ {r e}, s.current r = some e → P.collective e = false → s.made r = phase e := by
    intro r e he hown
    obtain ⟨rest, -, hl⟩ := (h.walks r).path_eq he
    rw [(h.walks r).made_eq, (h.walks r).entered_eq, he, ← hphase r _ e rest hl.symm,
      List.countP_append]
    split_ifs <;> simp [hown]
  refine le_antisymm ?_ ?_
  · rw [← hmade hd hdown]
    exact h.phase_le_made hphase ((h.walks p).reached hc) q
  · rw [← hmade hc hcown]
    exact h.phase_le_made hphase ((h.walks q).reached hd) p

/-- What comes before a barrier on one path has been done when a process is behind it. -/
theorem FencedInv.happens_before (h : FencedInv P path xs s) (hphase : Phased P path phase)
    (hc : Reached (path p) xs p c) (hd : d ∈ path q) (hlt : phase d < phase c) :
    d ∈ entered q xs ∧ (P.collective d = false → d ∈ returned q xs) := by
  have hq := h.walks q
  have hmade : phase d < (entered q xs).countP P.collective := by
    rw [← hq.made_eq]
    exact lt_of_lt_of_le hlt (h.phase_le_made hphase hc q)
  obtain ⟨l, m, hl⟩ := List.append_of_mem hd
  have hbefore : l.countP P.collective = phase d := hphase q l d m hl
  -- with more collective calls than stand before `d` the process is past the part before it
  have hdone : l ++ [d] <+: entered q xs := by
    have hpre : l ++ [d] <+: path q := ⟨m, by simp [hl]⟩
    rcases List.prefix_or_prefix_of_prefix hpre hq.entered_initial with hdone | hshort
    · exact hdone
    · rcases List.prefix_concat_iff.mp hshort with heq | hpre
      · rw [heq]
      · have := hpre.sublist.countP_le (p := P.collective)
        omega
  refine ⟨hdone.subset (by simp), fun hown => ?_⟩
  rcases hq.entered_cases with heq | ⟨e, -, -, heq⟩
  · rw [heq] at hdone
    exact hdone.subset (by simp)
  · rw [heq] at hdone
    rcases List.prefix_concat_iff.mp hdone with hall | hpre
    · rw [heq, ← hall, List.countP_append, List.countP_singleton, hown] at hmade
      simp [hbefore] at hmade
    · exact hpre.subset (by simp)

end Phases

end Spmd
