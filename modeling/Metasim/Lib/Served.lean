import Metasim.Lib.Spmd

/-! Processes of one program over a concurrent service: some of their blocking calls return only
when the service has answered. A layer of such processes is a service itself. -/
namespace Served

open Transition Spmd

/-- Calls are numbered. `begins` are the steps that begin one, `answer` what has come of it;
`needs i j` where call `i` can begin only when call `j` is answered. -/
structure Service (σ β α : Type*) where
  start : σ
  step : σ → β → Option σ
  begins : β → Option ℕ
  answer : σ → ℕ → Option α
  needs : ℕ → ℕ → Prop := fun _ _ => False

namespace Service

variable {σ β α : Type*} (V : Service σ β α)

def Step (v : σ) (b : β) (w : σ) : Prop := V.step v b = some w

def Run (ys : List β) (v : σ) : Prop := Trace V.Step V.start ys v

/-- A call has begun. -/
def Begun (ys : List β) (i : ℕ) : Prop := ∃ b ∈ ys, V.begins b = some i

/-- Calls below `calls` can begin once, are answered in the end, and keep their answer. -/
structure Reliable (calls bound : ℕ) : Prop where
  can_begin : ∀ {ys v i}, V.Run ys v → i < calls → ¬ V.Begun ys i →
    (∀ j, V.needs i j → ∃ x, V.answer v j = some x) → ∃ b w, V.begins b = some i ∧ V.Step v b w
  progress : ∀ {ys v i}, V.Run ys v → i < calls → V.Begun ys i → V.answer v i = none →
    ∃ b w, V.begins b = none ∧ V.Step v b w
  stable : ∀ {ys v b w i x}, V.Run ys v → V.Step v b w → V.answer v i = some x →
    V.answer w i = some x
  length_le : ∀ {ys v}, V.Run ys v → ys.length ≤ bound

end Service

/-- `uses p c` is the call of the service that `p` makes with `c`. -/
structure Layer (ι κ σ β α : Type*) where
  program : Program ι κ
  uses : ι → κ → Option ℕ
  service : Service σ β α

inductive Label (ι κ β : Type*)
  | main (p : ι) (e : Event κ)
  | serve (b : β)
deriving Repr, DecidableEq

variable {ι κ σ β α : Type*}

/-- The steps of processes that make a call jointly while the service takes steps. -/
def jointly (ps : List ι) (c : κ) (bs : List β) : List (Label ι κ β) :=
  ps.map (.main · (.enter c)) ++ bs.map .serve ++ ps.map (.main · (.leave c))

/-- The steps of the processes. -/
def mains (xs : List (Label ι κ β)) : List (ι × Event κ) :=
  xs.filterMap fun a => match a with
    | .main p e => some (p, e)
    | .serve _ => none

/-- The steps of the service. -/
def serves (xs : List (Label ι κ β)) : List β :=
  xs.filterMap fun a => match a with
    | .main _ _ => none
    | .serve b => some b

theorem mains_snoc (xs : List (Label ι κ β)) (a : Label ι κ β) : mains (xs ++ [a]) = mains xs ++
    (match a with | .main p e => [(p, e)] | .serve _ => []) := by
  unfold mains
  rw [List.filterMap_append]
  cases a <;> rfl

theorem serves_snoc (xs : List (Label ι κ β)) (a : Label ι κ β) : serves (xs ++ [a]) = serves xs ++
    (match a with | .main _ _ => [] | .serve b => [b]) := by
  unfold serves
  rw [List.filterMap_append]
  cases a <;> rfl

theorem length_mains_serves (xs : List (Label ι κ β)) :
    xs.length = (mains xs).length + (serves xs).length := by
  induction xs with
  | nil => rfl
  | cons a xs ih =>
    cases a <;> simp only [mains, serves, List.filterMap_cons, List.length_cons] at ih ⊢ <;> omega

theorem mem_entered_mains [DecidableEq ι] {xs : List (Label ι κ β)} {p : ι} {c : κ} :
    c ∈ entered p (mains xs) ↔ .main p (.enter c) ∈ xs := by
  unfold entered mains
  simp only [List.mem_filterMap]
  constructor
  · rintro ⟨⟨q, e⟩, ⟨a, ha, hqe⟩, hc⟩
    cases a with
    | serve b => cases hqe
    | main q' e' =>
      cases hqe
      split_ifs at hc with hq
      cases e <;> cases hc
      rwa [← hq]
  · intro h
    exact ⟨(p, .enter c), ⟨_, h, rfl⟩, if_pos rfl⟩

variable [DecidableEq ι] [DecidableEq κ] [Fintype ι]

namespace Layer

variable (L : Layer ι κ σ β α)

/-- A process is inside the call that uses call `i` of the service. -/
def Asked (s : State ι κ) (i : ℕ) : Prop :=
  ∃ p, s.inside p = true ∧ (s.current p).bind (L.uses p) = some i

instance (s : State ι κ) (i : ℕ) : Decidable (L.Asked s i) :=
  inferInstanceAs (Decidable (∃ _, _))

/-- The answer that a process waits for in a call has come. -/
def answered (v : σ) (p : ι) (c : κ) : Bool :=
  match L.uses p c with
  | some i => (L.service.answer v i).isSome
  | none => true

def start : State ι κ × σ := (L.program.start, L.service.start)

/-- A step of a process, or of the service. -/
def step (s : State ι κ × σ) : Label ι κ β → Option (State ι κ × σ)
  | .main p (.enter c) => (L.program.step s.1 (p, .enter c)).map (·, s.2)
  | .main p (.leave c) =>
    if L.answered s.2 p c then (L.program.step s.1 (p, .leave c)).map (·, s.2) else none
  | .serve b =>
    match L.service.begins b with
    | some i => if L.Asked s.1 i then (L.service.step s.2 b).map (s.1, ·) else none
    | none => (L.service.step s.2 b).map (s.1, ·)

def Step (s : State ι κ × σ) (a : Label ι κ β) (u : State ι κ × σ) : Prop := L.step s a = some u

def Run (xs : List (Label ι κ β)) (s : State ι κ × σ) : Prop := Trace L.Step L.start xs s

end Layer

variable {L : Layer ι κ σ β α} {s u : State ι κ × σ} {xs : List (Label ι κ β)} {p q : ι} {c : κ}
  {b : β} {i calls bound : ℕ} {path : ι → List κ} {collectives : List κ} {a : Label ι κ β}

/-! ## The steps -/

theorem step_enter : L.Step s (.main p (.enter c)) u ↔
    Spmd.Step L.program s.1 (p, .enter c) u.1 ∧ u.2 = s.2 := by
  obtain ⟨u1, u2⟩ := u
  simp only [Layer.Step, Layer.step, Option.map_eq_some_iff, Spmd.Step, Prod.mk.injEq]
  grind

theorem step_leave : L.Step s (.main p (.leave c)) u ↔
    Spmd.Step L.program s.1 (p, .leave c) u.1 ∧ u.2 = s.2 ∧
      ∀ i, L.uses p c = some i → ∃ x, L.service.answer s.2 i = some x := by
  obtain ⟨u1, u2⟩ := u
  have hans : L.answered s.2 p c = true ↔
      ∀ i, L.uses p c = some i → ∃ x, L.service.answer s.2 i = some x := by
    unfold Layer.answered
    cases L.uses p c <;> simp [Option.isSome_iff_exists]
  simp only [Layer.Step, Layer.step, Option.ite_none_right_eq_some, Option.map_eq_some_iff,
    Spmd.Step, Prod.mk.injEq, hans]
  grind

theorem step_serve : L.Step s (.serve b) u ↔
    L.service.Step s.2 b u.2 ∧ u.1 = s.1 ∧ ∀ i, L.service.begins b = some i → L.Asked s.1 i := by
  obtain ⟨u1, u2⟩ := u
  simp only [Layer.Step, Layer.step, Service.Step]
  cases hb : L.service.begins b <;>
    simp only [Option.ite_none_right_eq_some, Option.map_eq_some_iff, Prod.mk.injEq] <;> grind

/-! ## Both sides of a run -/

theorem main_step (hs : L.Step s a u) : u.1 = s.1 ∧ (∃ b, a = .serve b) ∨
    ∃ p e, a = .main p e ∧ Spmd.Step L.program s.1 (p, e) u.1 ∧ u.2 = s.2 := by
  cases a with
  | serve b => exact Or.inl ⟨(step_serve.mp hs).2.1, b, rfl⟩
  | main p e =>
    cases e with
    | enter c => exact Or.inr ⟨p, _, rfl, step_enter.mp hs⟩
    | leave c =>
      obtain ⟨hmain, hserve, -⟩ := step_leave.mp hs
      exact Or.inr ⟨p, _, rfl, hmain, hserve⟩

/-- What the processes do is a run of their program. -/
theorem Layer.Run.mains (hrun : L.Run xs s) :
    Trace (Spmd.Step L.program) L.program.start (mains xs) s.1 := by
  induction hrun with
  | refl => exact .refl
  | snoc _ hs ih =>
    rw [mains_snoc]
    rcases main_step hs with ⟨heq, b, rfl⟩ | ⟨p, e, rfl, hmain, -⟩
    · rw [heq, List.append_nil]
      exact ih
    · exact ih.snoc hmain

/-- What the service does is a run of the service. -/
theorem Layer.Run.serves (hrun : L.Run xs s) : L.service.Run (serves xs) s.2 := by
  induction hrun with
  | refl => exact .refl
  | snoc _ hs ih =>
    rw [serves_snoc]
    rcases main_step hs with ⟨-, b, rfl⟩ | ⟨p, e, rfl, -, heq⟩
    · exact ih.snoc (step_serve.mp hs).1
    · rw [heq, List.append_nil]
      exact ih

/-! ## Calls and answers -/

/-- A call that has begun and is not answered belongs to a process that is waiting for it. -/
theorem asked_of_begun (hV : L.service.Reliable calls bound) (hrun : L.Run xs s)
    (hbegun : L.service.Begun (serves xs) i) (hnone : L.service.answer s.2 i = none) :
    L.Asked s.1 i := by
  induction hrun with
  | refl =>
    obtain ⟨b, hb, -⟩ := hbegun
    cases hb
  | @snoc xs s u a hrun hs ih =>
    cases a with
    | serve b =>
      obtain ⟨hserve, hmain, hasked⟩ := step_serve.mp hs
      rw [hmain]
      rw [serves_snoc] at hbegun
      obtain ⟨b', hmem, hb'⟩ := hbegun
      rcases List.mem_append.mp hmem with hmem | hmem
      · refine ih ⟨b', hmem, hb'⟩ (Option.eq_none_iff_forall_ne_some.mpr fun x hx => ?_)
        rw [hV.stable (Layer.Run.serves hrun) hserve hx] at hnone
        cases hnone
      · obtain rfl := List.mem_singleton.mp hmem
        exact hasked i hb'
    | main p e =>
      rw [serves_snoc, List.append_nil] at hbegun
      cases e with
      | enter c =>
        obtain ⟨hmain, hserve⟩ := step_enter.mp hs
        rw [hserve] at hnone
        obtain ⟨q, hin, huses⟩ := ih hbegun hnone
        obtain ⟨-, hout, heq⟩ := Spmd.step_enter.mp hmain
        have hne : q ≠ p := by
          rintro rfl
          simp [hin] at hout
        refine ⟨q, ?_, ?_⟩ <;> rw [heq] <;> simpa [Program.enter, Function.update_of_ne hne]
      | leave c =>
        obtain ⟨hmain, hserve, hans⟩ := step_leave.mp hs
        rw [hserve] at hnone
        obtain ⟨q, hin, huses⟩ := ih hbegun hnone
        obtain ⟨hc, -, -, heq⟩ := Spmd.step_leave.mp hmain
        have hne : q ≠ p := by
          rintro rfl
          rw [hc] at huses
          obtain ⟨x, hx⟩ := hans i huses
          simp [hnone] at hx
        refine ⟨q, ?_, ?_⟩ <;> rw [heq] <;> simpa [Program.leave, Function.update_of_ne hne]

/-- Only processes begin calls. -/
theorem entered_of_begun (hpath : ∀ p, Follows (L.program.next p) (L.program.first p) (path p))
    (hrun : L.Run xs s) (hbegun : L.service.Begun (serves xs) i) :
    ∃ p c, c ∈ entered p (mains xs) ∧ L.uses p c = some i := by
  induction hrun with
  | refl =>
    obtain ⟨b, hb, -⟩ := hbegun
    cases hb
  | @snoc xs s u a hrun hs ih =>
    cases a with
    | main q e =>
      rw [serves_snoc, List.append_nil] at hbegun
      obtain ⟨p, c, hc, huses⟩ := ih hbegun
      refine ⟨p, c, ?_, huses⟩
      rw [mains_snoc, entered_snoc]
      exact List.mem_append_left _ hc
    | serve b =>
      rw [mains_snoc, List.append_nil]
      obtain ⟨b', hmem, hb'⟩ := hbegun
      rw [serves_snoc] at hmem
      rcases List.mem_append.mp hmem with hmem | hmem
      · exact ih ⟨b', hmem, hb'⟩
      · obtain rfl := List.mem_singleton.mp hmem
        obtain ⟨-, -, hasked⟩ := step_serve.mp hs
        obtain ⟨p, hin, huses⟩ := hasked i hb'
        obtain ⟨c, hc, huses⟩ := Option.bind_eq_some_iff.mp huses
        refine ⟨p, c, ?_, huses⟩
        rw [(walks_trace hpath (Layer.Run.mains hrun) p).entered_eq, hin, if_pos rfl, hc]
        simp

/-- A process that has returned from a call of the service has its answer. -/
theorem answer_of_returned (hV : L.service.Reliable calls bound) (hrun : L.Run xs s)
    (hc : c ∈ returned p (mains xs)) (huses : L.uses p c = some i) :
    ∃ x, L.service.answer s.2 i = some x := by
  induction hrun with
  | refl => cases hc
  | @snoc xs s u a hrun hs ih =>
    cases a with
    | serve b =>
      rw [mains_snoc, List.append_nil] at hc
      obtain ⟨x, hx⟩ := ih hc
      exact ⟨x, hV.stable (Layer.Run.serves hrun) (step_serve.mp hs).1 hx⟩
    | main q e =>
      rw [mains_snoc, returned_snoc] at hc
      cases e with
      | enter d =>
        rw [(step_enter.mp hs).2]
        exact ih (by simpa using hc)
      | leave d =>
        obtain ⟨-, hserve, hans⟩ := step_leave.mp hs
        rw [hserve]
        rcases List.mem_append.mp hc with hc | hc
        · exact ih hc
        · split_ifs at hc with hq
          · obtain rfl := List.mem_singleton.mp hc
            subst hq
            exact hans i huses
          · cases hc

/-- In front of a number in a range are those below it. -/
theorem range_split {l r : List ℕ} {m : ℕ} (h : l ++ i :: r = List.range m) :
    l = List.range i := by
  have hlt : l.length < m := by
    have := congrArg List.length h
    rw [List.length_append, List.length_cons, List.length_range] at this
    omega
  have hi : (l ++ i :: r)[l.length]? = some l.length := by rw [h, List.getElem?_range hlt]
  rw [List.getElem?_append_right le_rfl, Nat.sub_self] at hi
  obtain rfl : i = l.length := Option.some.inj hi
  calc l = (l ++ l.length :: r).take l.length := List.take_left.symm
    _ = List.range l.length := by rw [h, List.take_range, min_eq_left hlt.le]

/-- A process comes to a call when some process has returned from the calls that this one needs. -/
def Layer.Ordered (L : Layer ι κ σ β α) : Prop :=
  ∀ xs s, Trace (Spmd.Step L.program) L.program.start xs s → ∀ p c i, s.current p = some c →
    L.uses p c = some i → ∀ j, L.service.needs i j →
      ∃ q, ∃ d ∈ returned q xs, L.uses q d = some j

/-- Calls that are made in the order of their numbers, each after those with smaller ones. -/
theorem ordered_of_range (hneeds : ∀ i j, L.service.needs i j → j < i)
    (hpath : ∀ p, Follows (L.program.next p) (L.program.first p) (path p))
    (h : ∀ p, ∃ m, (path p).filterMap (L.uses p) = List.range m) : L.Ordered := by
  intro xs s hrun p c i hc hi j hij
  obtain ⟨rest, -, hl⟩ := (walks_trace hpath hrun p).path_eq hc
  obtain ⟨m, hm⟩ := h p
  rw [← hl, List.filterMap_append, List.filterMap_cons_some hi] at hm
  have hmem : j ∈ (returned p xs).filterMap (L.uses p) := by
    rw [range_split hm]
    exact List.mem_range.mpr (hneeds i j hij)
  exact ⟨p, List.mem_filterMap.mp hmem⟩

theorem ordered_of_free (h : ∀ i j, ¬ L.service.needs i j) : L.Ordered :=
  fun _ _ _ _ _ i _ _ j hij => absurd hij (h i j)

/-- What a call needs is answered when its process is inside it. -/
theorem ready_of_asked (hV : L.service.Reliable calls bound) (hrun : L.Run xs s)
    (hordered : L.Ordered) (hasked : L.Asked s.1 i) {j : ℕ} (hj : L.service.needs i j) :
    ∃ x, L.service.answer s.2 j = some x := by
  obtain ⟨p, -, huses⟩ := hasked
  obtain ⟨c, hc, huses⟩ := Option.bind_eq_some_iff.mp huses
  obtain ⟨q, d, hd, hdj⟩ := hordered _ _ hrun.mains p c i hc huses j hj
  exact answer_of_returned hV hrun hd hdj

/-- Towards the answer of a call whose needs are answered the service goes on; it begins no call
but this one. -/
theorem Service.Reliable.goes_on {V : Service σ β α} (hV : V.Reliable calls bound) {ys : List β}
    {v : σ} (hrun : V.Run ys v) (hi : i < calls)
    (hready : ∀ j, V.needs i j → ∃ x, V.answer v j = some x) (hnone : V.answer v i = none) :
    ∃ b w, V.Step v b w ∧ ∀ j, V.begins b = some j → j = i := by
  by_cases hbegun : V.Begun ys i
  · obtain ⟨b, w, hb, hw⟩ := hV.progress hrun hi hbegun hnone
    exact ⟨b, w, hw, by simp [hb]⟩
  · obtain ⟨b, w, hb, hw⟩ := hV.can_begin hrun hi hbegun hready
    exact ⟨b, w, hw, fun j hj => Option.some.inj (hj.symm.trans hb)⟩

/-- A process goes on, or the service does it for it. -/
theorem exists_step_of_main (hV : L.service.Reliable calls bound) (hrun : L.Run xs s)
    (hordered : L.Ordered) (huse : ∀ i, L.uses p c = some i → i < calls) {e : Event κ}
    (he : e = .enter c ∨ e = .leave c) {u : State ι κ}
    (hs : Spmd.Step L.program s.1 (p, e) u) :
    ∃ a w, L.Step s a w ∧ (a = .main p e ∨ ∃ b, a = .serve b) := by
  rcases he with rfl | rfl
  · exact ⟨.main p (.enter c), (u, s.2), step_enter.mpr ⟨hs, rfl⟩, Or.inl rfl⟩
  · by_cases hans : ∀ i, L.uses p c = some i → ∃ x, L.service.answer s.2 i = some x
    · exact ⟨.main p (.leave c), (u, s.2), step_leave.mpr ⟨hs, rfl, hans⟩, Or.inl rfl⟩
    · simp only [not_forall] at hans
      obtain ⟨i, hi, hno⟩ := hans
      have hnone := Option.eq_none_iff_forall_ne_some.mpr (not_exists.mp hno)
      obtain ⟨hc, hin, -⟩ := Spmd.step_leave.mp hs
      have hasked : L.Asked s.1 i := ⟨p, hin, by rw [hc, Option.bind_some, hi]⟩
      obtain ⟨b, w, hw, hown⟩ := hV.goes_on hrun.serves (huse i hi)
        (fun j => ready_of_asked hV hrun hordered hasked) hnone
      refine ⟨.serve b, (s.1, w), step_serve.mpr ⟨hw, rfl, fun j hj => ?_⟩, Or.inr ⟨b, rfl⟩⟩
      rwa [hown j hj]

/-- The same processes over a service that takes other steps. -/
def Layer.restrict (L : Layer ι κ σ β α) (step : σ → β → Option σ) : Layer ι κ σ β α :=
  { L with service := { L.service with step } }

/-- A guard that the processes keep need not be checked. -/
theorem Layer.Run.restrict {step : σ → β → Option σ} (hrun : L.Run xs s)
    (h : ∀ xs s b u, (L.restrict step).Run xs s → L.Step s (.serve b) u →
      step s.2 b = some u.2) : (L.restrict step).Run xs s := by
  induction hrun with
  | refl => exact .refl
  | @snoc xs s u a hrun hs ih =>
    refine ih.snoc ?_
    cases a with
    | serve b =>
      obtain ⟨-, hmain, hasked⟩ := step_serve.mp hs
      exact step_serve.mpr ⟨h _ _ _ _ ih hs, hmain, hasked⟩
    | main p e =>
      cases e with
      | enter c => exact step_enter.mpr (step_enter.mp hs)
      | leave c => exact step_leave.mpr (step_leave.mp hs)

/-- Where a guard holds the processes go on without it too. -/
theorem step_of_restrict {step : σ → β → Option σ}
    (h : ∀ v b w, step v b = some w → L.service.Step v b w) (hs : (L.restrict step).Step s a u) :
    L.Step s a u := by
  cases a with
  | serve b =>
    obtain ⟨hserve, hrest⟩ := step_serve.mp hs
    exact step_serve.mpr ⟨h _ _ _ hserve, hrest⟩
  | main p e =>
    cases e with
    | enter c => exact step_enter.mpr (step_enter.mp hs)
    | leave c => exact step_leave.mpr (step_leave.mp hs)

/-! ## Whole runs -/

theorem Layer.Run.progress (hA : Aligned L.program path collectives)
    (hV : L.service.Reliable calls bound) (hordered : L.Ordered)
    (huse : ∀ p, ∀ c ∈ path p, ∀ i, L.uses p c = some i → i < calls) (hrun : L.Run xs s)
    (hp : s.1.current p ≠ none) : ∃ a u, L.Step s a u := by
  have hI := inv_trace hA hrun.mains
  obtain ⟨⟨q, e⟩, u, hs⟩ := hI.exists_step hA hp
  cases e with
  | enter c =>
    have hmem := (hI.walks q).current_mem (Spmd.step_enter.mp hs).1
    obtain ⟨a, w, hw, -⟩ := exists_step_of_main hV hrun hordered
      (huse q c hmem) (Or.inl rfl) hs
    exact ⟨a, w, hw⟩
  | leave c =>
    have hmem := (hI.walks q).current_mem (Spmd.step_leave.mp hs).1
    obtain ⟨a, w, hw, -⟩ := exists_step_of_main hV hrun hordered
      (huse q c hmem) (Or.inr rfl) hs
    exact ⟨a, w, hw⟩

theorem Layer.Run.length_le (hV : L.service.Reliable calls bound)
    (hpath : ∀ p, Follows (L.program.next p) (L.program.first p) (path p)) (hrun : L.Run xs s) :
    xs.length ≤ ∑ p, 2 * (path p).length + bound := by
  rw [length_mains_serves]
  exact Nat.add_le_add (length_le_of_walks (walks_trace hpath hrun.mains))
    (hV.length_le hrun.serves)

/-- There are no more open calls than processes inside the calls that use them. -/
theorem card_open_le (hV : L.service.Reliable calls bound) (hrun : L.Run xs s) {I : Finset ℕ}
    (hI : ∀ i ∈ I, L.service.Begun (serves xs) i ∧ L.service.answer s.2 i = none) {T : Finset ι}
    (hT : ∀ p c, s.1.inside p = true → s.1.current p = some c → (∃ i ∈ I, L.uses p c = some i) →
      p ∈ T) : I.card ≤ T.card := by
  have howner : ∀ i ∈ I, L.Asked s.1 i := fun i hi => asked_of_begun hV hrun (hI i hi).1 (hI i hi).2
  rcases I.eq_empty_or_nonempty with rfl | ⟨i, hi⟩
  · exact Nat.zero_le _
  have : Nonempty ι := ⟨(howner i hi).choose⟩
  choose! owner hin huses using howner
  refine Finset.card_le_card_of_injOn owner ?_ ?_
  · intro i hi
    obtain ⟨c, hc, hu⟩ := Option.bind_eq_some_iff.mp (huses i hi)
    exact hT _ c (hin i hi) hc ⟨i, hi, hu⟩
  · intro i hi j hj hij
    have hj := huses j hj
    rw [← hij, huses i hi] at hj
    exact Option.some.inj hj

/-! ## Numbers for the calls of all processes -/

section Spread

variable {m width k j : ℕ} {γ : Type*} {f : Fin m → ℕ → γ} {p q : Fin m}

/-- `width` calls of each process, call `k` of `p` under the number `p * width + k`. -/
def spread (width : ℕ) (f : Fin m → ℕ → γ) : List γ :=
  List.ofFn fun i : Fin (m * width) => f i.divNat i.modNat

@[simp] theorem length_spread : (spread width f).length = m * width := List.length_ofFn

theorem mem_spread {c : γ} (hc : c ∈ spread width f) : ∃ p, ∃ k < width, f p k = c := by
  obtain ⟨i, rfl⟩ := List.mem_ofFn.mp hc
  exact ⟨_, _, i.modNat.isLt, rfl⟩

theorem index_lt (p : Fin m) (hk : k < width) : p.val * width + k < m * width :=
  calc p.val * width + k < p.val * width + width := by omega
    _ = (p.val + 1) * width := (Nat.succ_mul _ _).symm
    _ ≤ m * width := Nat.mul_le_mul_right _ p.isLt

theorem index_div (hk : k < width) : (p.val * width + k) / width = p.val := by
  have hpos : 0 < width := by omega
  rw [mul_comm, Nat.mul_add_div hpos, Nat.div_eq_of_lt hk, Nat.add_zero]

/-- The number of a call tells whose it is. -/
theorem index_inj (hk : k < width) (hj : j < width)
    (h : p.val * width + k = q.val * width + j) : p = q ∧ k = j := by
  have hpq : p.val = q.val := by rw [← index_div hk, h, index_div hj]
  refine ⟨Fin.ext hpq, ?_⟩
  rw [hpq] at h
  exact Nat.add_left_cancel h

theorem spread_get (p : Fin m) (hk : k < width) :
    (spread width f)[p.val * width + k]? = some (f p k) := by
  rw [spread, List.getElem?_ofFn, dif_pos (index_lt p hk)]
  have hdiv : (p.val * width + k) / width = p.val := index_div hk
  have hmod : (p.val * width + k) % width = k := Nat.mul_add_mod_of_lt hk
  exact congrArg₂ (fun q k => some (f q k)) (Fin.ext hdiv) hmod

end Spread

/-! ## A layer as a service -/

/-- Processes that do not wait for each other, each behind one call of the service that they
are together. -/
structure Layer.Independent {m : ℕ} (L : Layer (Fin m) κ σ β α) (path : Fin m → List κ) :
    Prop where
  follows : ∀ p, Follows (L.program.next p) (L.program.first p) (path p)
  free : ∀ p c, L.program.held p c = false
  nonempty : ∀ p, path p ≠ []
  nodup : ∀ p, (path p).Nodup

/-- A call begins with the first step of its process. When the process is at its end, the answer
is made from the answers that it got. -/
def Layer.asService {m : ℕ} {γ : Type*} (L : Layer (Fin m) κ σ β α)
    (reply : Fin m → (ℕ → Option α) → γ) :
    Service (State (Fin m) κ × σ) (Label (Fin m) κ β) γ where
  start := L.start
  step := L.step
  begins
    | .main p (.enter c) => if L.program.first p = some c then some p.val else none
    | _ => none
  answer s i :=
    if h : i < m then
      if s.1.current ⟨i, h⟩ = none then some (reply ⟨i, h⟩ (L.service.answer s.2)) else none
    else none

section AsService

variable {m : ℕ} {γ : Type*} {L : Layer (Fin m) κ σ β α} {reply : Fin m → (ℕ → Option α) → γ}
  {path : Fin m → List κ} {xs : List (Label (Fin m) κ β)} {s u : State (Fin m) κ × σ}
  {p : Fin m} {a : Label (Fin m) κ β}

theorem begins_iff : (L.asService reply).begins a = some p.val ↔
    ∃ c, a = .main p (.enter c) ∧ L.program.first p = some c := by
  cases a with
  | serve b => simp [Layer.asService]
  | main q e =>
    cases e with
    | leave c => simp [Layer.asService]
    | enter c =>
      simp only [Layer.asService, Option.ite_none_right_eq_some, Option.some.injEq, Fin.val_inj]
      constructor
      · rintro ⟨hfirst, rfl⟩
        exact ⟨c, rfl, hfirst⟩
      · rintro ⟨d, heq, hfirst⟩
        cases heq
        exact ⟨hfirst, rfl⟩

theorem begun_iff (hL : L.Independent path) (hrun : L.Run xs s) (p : Fin m) :
    (L.asService reply).Begun xs p.val ↔ entered p (mains xs) ≠ [] := by
  have hw := walks_trace hL.follows hrun.mains p
  constructor
  · rintro ⟨a, ha, hb⟩
    obtain ⟨c, rfl, -⟩ := begins_iff.mp hb
    exact List.ne_nil_of_mem (mem_entered_mains.mpr ha)
  · intro hne
    obtain ⟨c, l, hl⟩ := List.exists_cons_of_ne_nil hne
    obtain ⟨t, ht⟩ := hw.entered_initial
    have hfirst : L.program.first p = some c := by
      have hf := hL.follows p
      rw [← ht, hl] at hf
      exact hf.1
    refine ⟨.main p (.enter c), mem_entered_mains.mp ?_, begins_iff.mpr ⟨c, rfl, hfirst⟩⟩
    rw [hl]
    exact List.mem_cons_self

theorem answer_asService (p : Fin m) : (L.asService reply).answer s p.val =
    if s.1.current p = none then some (reply p (L.service.answer s.2)) else none := by
  simp [Layer.asService]

/-- A process that has not begun is in front of its first call. -/
theorem at_first (hL : L.Independent path) (hrun : L.Run xs s)
    (hnot : ¬ (L.asService reply).Begun xs p.val) :
    ∃ c, L.program.first p = some c ∧ s.1.current p = some c ∧ s.1.inside p = false := by
  have hw := walks_trace hL.follows hrun.mains p
  have hnil : entered p (mains xs) = [] := not_not.mp (mt (begun_iff hL hrun p).mpr hnot)
  obtain ⟨c, l, hl⟩ := List.exists_cons_of_ne_nil (hL.nonempty p)
  have hfirst := hL.follows p
  rw [hl] at hfirst
  have heq := hw.entered_eq
  rw [hnil, eq_comm, List.append_eq_nil_iff] at heq
  obtain ⟨rest, hrest, hpath⟩ := hw.path
  rw [heq.1, List.nil_append, hl] at hpath
  rw [hpath] at hrest
  refine ⟨c, hfirst.1, hrest.1, ?_⟩
  have hin := heq.2
  rw [hrest.1] at hin
  simpa using hin

/-- A process that has begun and is not at its end can go on, or the service below. -/
theorem asService_progress (hL : L.Independent path) (hV : L.service.Reliable calls bound)
    (hordered : L.Ordered)
    (huse : ∀ p, ∀ c ∈ path p, ∀ i, L.uses p c = some i → i < calls) (hrun : L.Run xs s)
    (hbegun : (L.asService reply).Begun xs p.val) (hp : s.1.current p ≠ none) :
    ∃ a u, (L.asService reply).begins a = none ∧ L.Step s a u := by
  have hw := walks_trace hL.follows hrun.mains p
  obtain ⟨c, hc⟩ := Option.ne_none_iff_exists'.mp hp
  have huse := huse p c (hw.current_mem hc)
  cases hin : s.1.inside p with
  | true =>
    have hs : Spmd.Step L.program s.1 (p, .leave c) (L.program.leave s.1 p c) :=
      Spmd.step_leave.mpr ⟨hc, hin, by simp [hL.free], rfl⟩
    obtain ⟨a, w, hw, rfl | ⟨b, rfl⟩⟩ := exists_step_of_main hV hrun hordered
      huse (Or.inr rfl) hs
    · exact ⟨_, w, rfl, hw⟩
    · exact ⟨_, w, rfl, hw⟩
  | false =>
    have hs : Spmd.Step L.program s.1 (p, .enter c) (L.program.enter s.1 p c) :=
      Spmd.step_enter.mpr ⟨hc, hin, rfl⟩
    obtain ⟨a, w, hstep, rfl | ⟨b, rfl⟩⟩ := exists_step_of_main hV hrun hordered
      huse (Or.inl rfl) hs
    · refine ⟨_, w, ?_, hstep⟩
      -- the first call is behind it, and comes once
      have hne : L.program.first p ≠ some c := by
        intro hfirst
        have hent := hw.entered_eq
        rw [hin, if_neg Bool.false_ne_true, List.append_nil] at hent
        obtain ⟨rest, -, hpath⟩ := hw.path_eq hc
        have hnodup := hL.nodup p
        have hf := hL.follows p
        have hret := (begun_iff hL hrun p).mp hbegun
        rw [hent] at hret
        obtain ⟨d, l, hl⟩ := List.exists_cons_of_ne_nil hret
        rw [← hpath, hl] at hf hnodup
        obtain rfl : d = c := Option.some.inj (hf.1.symm.trans hfirst)
        simp at hnodup
      simp [Layer.asService, hne]
    · exact ⟨_, w, rfl, hstep⟩

theorem asService_stable (hL : L.Independent path) (hV : L.service.Reliable calls bound)
    (hreply : ∀ p f g, (∀ c ∈ path p, ∀ i, L.uses p c = some i → f i = g i) →
      reply p f = reply p g) (hrun : L.Run xs s) (hs : L.Step s a u)
    (hp : s.1.current p = none) : u.1.current p = none ∧
      reply p (L.service.answer u.2) = reply p (L.service.answer s.2) := by
  rcases main_step hs with ⟨heq, b, rfl⟩ | ⟨q, e, rfl, hmain, heq⟩
  · refine ⟨by rw [heq, hp], hreply p _ _ fun c hc i hi => ?_⟩
    have hw := walks_trace hL.follows hrun.mains p
    rw [← (hw.finished hp).2] at hc
    obtain ⟨x, hx⟩ := answer_of_returned hV hrun hc hi
    rw [hx, hV.stable hrun.serves (step_serve.mp hs).1 hx]
  · have hne : p ≠ q := by
      rintro rfl
      cases e with
      | enter c => simp [(Spmd.step_enter.mp hmain).1] at hp
      | leave c => simp [(Spmd.step_leave.mp hmain).1] at hp
    rw [heq]
    refine ⟨?_, rfl⟩
    cases e with
    | enter c => rwa [(Spmd.step_enter.mp hmain).2.2]
    | leave c =>
      rw [(Spmd.step_leave.mp hmain).2.2.2]
      simpa [Program.leave, Function.update_of_ne hne]

theorem asService_reliable (hL : L.Independent path) (hV : L.service.Reliable calls bound)
    (hordered : L.Ordered)
    (huse : ∀ p, ∀ c ∈ path p, ∀ i, L.uses p c = some i → i < calls)
    (hreply : ∀ p f g, (∀ c ∈ path p, ∀ i, L.uses p c = some i → f i = g i) →
      reply p f = reply p g) :
    (L.asService reply).Reliable m (∑ p, 2 * (path p).length + bound) where
  can_begin := by
    intro xs s i hrun hi hnot _
    obtain ⟨c, hfirst, hc, hin⟩ := at_first (p := ⟨i, hi⟩) hL hrun hnot
    exact ⟨.main ⟨i, hi⟩ (.enter c), (_, s.2), begins_iff.mpr ⟨c, rfl, hfirst⟩,
      step_enter.mpr ⟨Spmd.step_enter.mpr ⟨hc, hin, rfl⟩, rfl⟩⟩
  progress := by
    intro xs s i hrun hi hbegun hnone
    rw [answer_asService ⟨i, hi⟩] at hnone
    exact asService_progress (p := ⟨i, hi⟩) hL hV hordered huse hrun hbegun fun h => by
      simp [h] at hnone
  stable := by
    intro xs s a u i x hrun hs hx
    by_cases hi : i < m
    · rw [answer_asService ⟨i, hi⟩] at hx ⊢
      rw [Option.ite_none_right_eq_some] at hx
      obtain ⟨hcur, hrep⟩ := asService_stable hL hV hreply hrun hs hx.1
      rw [if_pos hcur, hrep]
      exact hx.2
    · simp [Layer.asService, hi] at hx
  length_le := fun hrun => Layer.Run.length_le hV hL.follows hrun

end AsService

end Served
