import Metasim.Lib.Served

/-! A service with two kinds of users: the processes of a layer, and others above that make calls of
their own and open the gates behind which the processes of the layer start. -/
namespace Served

open Transition Spmd

variable {κ σ β α γ : Type*} {m : ℕ}

/-- The calls below `calls` are begun by its users, the others are steps like any. -/
def Service.below (V : Service σ β α) (calls : ℕ) : Service σ β α :=
  { V with begins := fun b => (V.begins b).filter (· < calls) }

/-- A layer that makes the calls below `calls`. -/
def Layer.below {ι : Type*} (L : Layer ι κ σ β α) (calls : ℕ) : Layer ι κ σ β α :=
  { L with service := L.service.below calls }

inductive GateLabel (γ : Type*)
  | inside (a : γ)
  | opens (gate : ℕ)
deriving Repr, DecidableEq

/-- The steps behind the gates. -/
def insides (ys : List (GateLabel γ)) : List γ :=
  ys.filterMap fun a => match a with
    | .inside a => some a
    | .opens _ => none

/-- The gates that are opened, in order. -/
def openings (ys : List (GateLabel γ)) : List ℕ :=
  ys.filterMap fun a => match a with
    | .inside _ => none
    | .opens r => some r

/-- A layer as a service to the users above. It makes the calls below `first` of its service, they
those from `first` on, `count` of them; behind these are numbered the openings of the gates. -/
def Layer.shared [DecidableEq κ] (L : Layer (Fin m) κ σ β α) (first count gates : ℕ)
    (gate : Fin m → ℕ) :
    Service ((State (Fin m) κ × σ) × (ℕ → Bool)) (GateLabel (Label (Fin m) κ β)) (Option α) where
  start := (L.start, fun _ => false)
  step s
    | .inside (.main p e) =>
      if s.2 (gate p) then ((L.below first).step s.1 (.main p e)).map (·, s.2) else none
    | .inside (.serve b) => ((L.below first).step s.1 (.serve b)).map (·, s.2)
    | .opens r =>
      if r < gates ∧ s.2 r = false then some (s.1, Function.update s.2 r true) else none
  begins
    | .inside (.main _ _) => none
    | .inside (.serve b) => (L.service.begins b).bind fun i =>
      if first ≤ i ∧ i < first + count then some (i - first) else none
    | .opens r => some (count + r)
  answer s j :=
    if j < count then (L.service.answer s.1.2 (first + j)).map some
    else if s.2 (j - count) then some none else none

variable {V : Service σ β α} {ys : List β} {calls all bound i : ℕ}

theorem begins_below {b : β} : (V.below calls).begins b = some i ↔
    V.begins b = some i ∧ i < calls := by
  simp [Service.below, Option.filter_eq_some_iff]

theorem begun_below (hi : i < calls) : (V.below calls).Begun ys i ↔ V.Begun ys i := by
  constructor
  · rintro ⟨b, hb, hbegins⟩
    exact ⟨b, hb, (begins_below.mp hbegins).1⟩
  · rintro ⟨b, hb, hbegins⟩
    exact ⟨b, hb, begins_below.mpr ⟨hbegins, hi⟩⟩

theorem Service.Reliable.below (h : V.Reliable all bound) (hle : calls ≤ all) :
    (V.below calls).Reliable calls bound where
  can_begin := by
    intro ys v i hrun hi hnot hready
    have hnot := mt (begun_below hi).mpr hnot
    obtain ⟨b, w, hb, hw⟩ := h.can_begin hrun (hi.trans_le hle) hnot hready
    exact ⟨b, w, begins_below.mpr ⟨hb, hi⟩, hw⟩
  progress := by
    intro ys v i hrun hi hbegun hnone
    obtain ⟨b, w, hb, hw⟩ := h.progress hrun (hi.trans_le hle) ((begun_below hi).mp hbegun) hnone
    exact ⟨b, w, by simp [Service.below, hb], hw⟩
  stable := fun hrun hs hx => h.stable hrun hs hx
  length_le := fun hrun => h.length_le hrun

section Shared

variable [DecidableEq κ] {L : Layer (Fin m) κ σ β α} {first count gates : ℕ} {gate : Fin m → ℕ}
  {zs : List (GateLabel (Label (Fin m) κ β))} {s u : (State (Fin m) κ × σ) × (ℕ → Bool)}
  {a : GateLabel (Label (Fin m) κ β)} {r j : ℕ} {p : Fin m} {c : κ} {path : Fin m → List κ}

theorem insides_snoc (zs : List (GateLabel γ)) (a : GateLabel γ) : insides (zs ++ [a]) =
    insides zs ++ (match a with | .inside a => [a] | .opens _ => []) := by
  unfold insides
  rw [List.filterMap_append]
  cases a <;> rfl

theorem openings_snoc (zs : List (GateLabel γ)) (a : GateLabel γ) : openings (zs ++ [a]) =
    openings zs ++ (match a with | .inside _ => [] | .opens r => [r]) := by
  unfold openings
  rw [List.filterMap_append]
  cases a <;> rfl

theorem mem_openings {zs : List (GateLabel γ)} : r ∈ openings zs ↔ .opens r ∈ zs := by
  unfold openings
  rw [List.mem_filterMap]
  constructor
  · rintro ⟨a, ha, h⟩
    cases a <;> cases h
    exact ha
  · exact fun h => ⟨_, h, rfl⟩

theorem length_insides_openings (zs : List (GateLabel γ)) :
    zs.length = (insides zs).length + (openings zs).length := by
  induction zs with
  | nil => rfl
  | cons a zs ih =>
    cases a <;> simp only [insides, openings, List.filterMap_cons, List.length_cons] at ih ⊢ <;>
      omega

/-- A step behind the gates is one of the layer, through an open gate; the others open one. -/
theorem shared_step (hs : (L.shared first count gates gate).Step s a u) :
    (∃ b, a = .inside b ∧ (L.below first).Step s.1 b u.1 ∧ u.2 = s.2 ∧
      ∀ p e, b = .main p e → s.2 (gate p) = true) ∨
    ∃ r < gates, a = .opens r ∧ s.2 r = false ∧ u = (s.1, Function.update s.2 r true) := by
  cases a with
  | opens r =>
    obtain ⟨⟨hr, hclosed⟩, hu⟩ := Option.ite_none_right_eq_some.mp hs
    exact Or.inr ⟨r, hr, rfl, hclosed, (Option.some.inj hu).symm⟩
  | inside b =>
    refine Or.inl ⟨b, rfl, ?_⟩
    cases b with
    | main p e =>
      obtain ⟨hopen, hu⟩ := Option.ite_none_right_eq_some.mp hs
      obtain ⟨v, hv, rfl⟩ := Option.map_eq_some_iff.mp hu
      refine ⟨hv, rfl, fun q e' h => ?_⟩
      cases h
      exact hopen
    | serve b =>
      obtain ⟨v, hv, rfl⟩ := Option.map_eq_some_iff.mp hs
      exact ⟨hv, rfl, fun q e' h => by cases h⟩

/-- Behind the gates is a run of the layer, whose service makes the calls of above by itself. -/
theorem shared_inside (hrun : (L.shared first count gates gate).Run zs s) :
    (L.below first).Run (insides zs) s.1 := by
  induction hrun with
  | refl => exact .refl
  | snoc _ hs ih =>
    rw [insides_snoc]
    rcases shared_step hs with ⟨b, rfl, hb, -⟩ | ⟨r, -, rfl, -, rfl⟩
    · exact ih.snoc hb
    · rw [List.append_nil]
      exact ih

theorem gate_open (hrun : (L.shared first count gates gate).Run zs s) :
    .opens r ∈ zs ↔ s.2 r = true := by
  induction hrun with
  | refl =>
    constructor
    · intro h
      cases h
    · intro h
      cases h
  | snoc _ hs ih =>
    rw [List.mem_append, List.mem_singleton, ih]
    rcases shared_step hs with ⟨b, rfl, -, heq, -⟩ | ⟨q, -, rfl, hclosed, rfl⟩
    · simp [heq]
    · by_cases hq : r = q
      · simp [hq]
      · simp [hq]

theorem begun_gate : (L.shared first count gates gate).Begun zs (count + r) ↔ .opens r ∈ zs := by
  constructor
  · rintro ⟨a, ha, hbegins⟩
    cases a with
    | opens q =>
      obtain rfl : q = r := Nat.add_left_cancel (Option.some.inj hbegins)
      exact ha
    | inside b =>
      cases b with
      | main p e => cases hbegins
      | serve b =>
        obtain ⟨i, -, hi⟩ := Option.bind_eq_some_iff.mp hbegins
        split_ifs at hi
        have := Option.some.inj hi
        omega
  · exact fun h => ⟨_, h, rfl⟩

theorem begun_call (hj : j < count) : (L.shared first count gates gate).Begun zs j ↔
    L.service.Begun (serves (insides zs)) (first + j) := by
  constructor
  · rintro ⟨a, ha, hbegins⟩
    cases a with
    | opens q =>
      have : count + q = j := Option.some.inj hbegins
      omega
    | inside b =>
      cases b with
      | main p e => cases hbegins
      | serve b =>
        obtain ⟨i, hb, hi⟩ := Option.bind_eq_some_iff.mp hbegins
        split_ifs at hi with hrange
        obtain rfl : i = first + j := by
          have := Option.some.inj hi
          omega
        refine ⟨b, ?_, hb⟩
        exact List.mem_filterMap.mpr ⟨.serve b, List.mem_filterMap.mpr ⟨_, ha, rfl⟩, rfl⟩
  · rintro ⟨b, hmem, hb⟩
    obtain ⟨a, ha, hab⟩ := List.mem_filterMap.mp hmem
    obtain ⟨g, hg, hga⟩ := List.mem_filterMap.mp ha
    cases g with
    | opens q => cases hga
    | inside a' =>
      obtain rfl := Option.some.inj hga
      cases a' with
      | main p e => cases hab
      | serve b' =>
        obtain rfl := Option.some.inj hab
        refine ⟨_, hg, Option.bind_eq_some_iff.mpr ⟨_, hb, ?_⟩⟩
        rw [if_pos (by omega), Nat.add_sub_cancel_left]

/-- A process that has begun is behind an open gate. -/
theorem open_of_entered (hrun : (L.shared first count gates gate).Run zs s)
    (hc : c ∈ entered p (mains (insides zs))) : s.2 (gate p) = true := by
  induction hrun with
  | refl => cases hc
  | @snoc zs s u a _ hs ih =>
    rcases shared_step hs with ⟨b, rfl, -, heq, hopen⟩ | ⟨q, -, rfl, -, rfl⟩
    · rw [heq]
      rw [insides_snoc, mem_entered_mains, List.mem_append, List.mem_singleton] at hc
      rcases hc with hc | hc
      · exact ih (mem_entered_mains.mpr hc)
      · exact hopen p _ hc.symm
    · rw [insides_snoc, List.append_nil] at hc
      by_cases hq : gate p = q
      · simp [hq]
      · simpa [Function.update_of_ne hq] using ih hc

/-- Gates open once. -/
theorem openings_le (hrun : (L.shared first count gates gate).Run zs s) :
    (openings zs).length ≤ gates := by
  have hinv : (openings zs).Nodup ∧ ∀ r ∈ openings zs, r < gates := by
    induction hrun with
    | refl => exact ⟨List.nodup_nil, fun r h => by cases h⟩
    | @snoc zs s u a hrun hs ih =>
      obtain ⟨hnodup, hlt⟩ := ih
      rw [openings_snoc]
      rcases shared_step hs with ⟨b, rfl, -⟩ | ⟨q, hq, rfl, hclosed, -⟩
      · simpa using ⟨hnodup, hlt⟩
      · have hnew : q ∉ openings zs := by
          rw [mem_openings, gate_open hrun]
          simp [hclosed]
        refine ⟨List.nodup_append.mpr ⟨hnodup, List.nodup_singleton q, ?_⟩, ?_⟩
        · rintro r hr q' hq' rfl
          obtain rfl := List.mem_singleton.mp hq'
          exact hnew hr
        · intro r hr
          rcases List.mem_append.mp hr with hr | hr
          · exact hlt r hr
          · obtain rfl := List.mem_singleton.mp hr
            exact hq
  have hsub : openings zs ⊆ List.range gates := fun r hr => List.mem_range.mpr (hinv.2 r hr)
  have := (hinv.1.subperm hsub).length_le
  rwa [List.length_range] at this

theorem inside_serve {b : β} {v : State (Fin m) κ × σ}
    (hs : (L.below first).Step s.1 (.serve b) v) :
    (L.shared first count gates gate).Step s (.inside (.serve b)) (v, s.2) :=
  Option.map_eq_some_iff.mpr ⟨v, hs, rfl⟩

theorem answer_call (hj : j < count) : (L.shared first count gates gate).answer s j =
    (L.service.answer s.1.2 (first + j)).map some := if_pos hj

theorem answer_gate : (L.shared first count gates gate).answer s (count + r) =
    if s.2 r then some none else none := by
  have hdef : (L.shared first count gates gate).answer s (count + r) =
    if s.2 (count + r - count) then some none else none := if_neg (by omega)
  rw [hdef, Nat.add_sub_cancel_left]

/-- What is answered to the users above stays. -/
theorem shared_stable (hV : L.service.Reliable (first + count) bound)
    (hrun : (L.shared first count gates gate).Run zs s)
    (hs : (L.shared first count gates gate).Step s a u) {x : Option α}
    (hx : (L.shared first count gates gate).answer s j = some x) :
    (L.shared first count gates gate).answer u j = some x := by
  have hcalls : ∀ i y, L.service.answer s.1.2 i = some y → L.service.answer u.1.2 i = some y := by
    intro i y hy
    rcases shared_step hs with ⟨b, rfl, hb, -⟩ | ⟨r, -, rfl, -, rfl⟩
    · rcases main_step hb with ⟨-, b', rfl⟩ | ⟨p, e, rfl, -, heq⟩
      · exact hV.stable (shared_inside hrun).serves (step_serve.mp hb).1 hy
      · rwa [heq]
    · exact hy
  have hgates : ∀ r, s.2 r = true → u.2 r = true := by
    intro r hr
    rcases shared_step hs with ⟨b, rfl, -, heq, -⟩ | ⟨q, -, rfl, -, rfl⟩
    · rwa [heq]
    · by_cases hq : r = q
      · simp [hq]
      · simpa [Function.update_of_ne hq] using hr
  rcases Nat.lt_or_ge j count with hj | hj
  · rw [answer_call hj] at hx ⊢
    obtain ⟨y, hy, rfl⟩ := Option.map_eq_some_iff.mp hx
    rw [hcalls _ y hy, Option.map_some]
  · obtain ⟨r, rfl⟩ := Nat.exists_eq_add_of_le hj
    rw [answer_gate, Option.ite_none_right_eq_some] at hx
    rw [answer_gate, if_pos (hgates r hx.1)]
    exact hx.2

/-- A process behind an open gate goes on, or the service does it for it, without a call of above.
-/
theorem inside_goes_on (hV : L.service.Reliable (first + count) bound)
    (hfree : ∀ i j, ¬ L.service.needs i j) (hheld : L.program.held p c = false)
    (huse : ∀ i, L.uses p c = some i → i < first)
    (hrun : (L.shared first count gates gate).Run zs s) (hopen : s.2 (gate p) = true)
    (hc : s.1.1.current p = some c) :
    ∃ a u, (L.shared first count gates gate).begins a = none ∧
      (L.shared first count gates gate).Step s a u := by
  have hmain : ∀ {e v}, (L.below first).Step s.1 (.main p e) v →
      (L.shared first count gates gate).Step s (.inside (.main p e)) (v, s.2) := fun h =>
    Option.ite_none_right_eq_some.mpr ⟨hopen, Option.map_eq_some_iff.mpr ⟨_, h, rfl⟩⟩
  cases hin : s.1.1.inside p with
  | false =>
    have hs : Spmd.Step L.program s.1.1 (p, .enter c) (L.program.enter s.1.1 p c) :=
      Spmd.step_enter.mpr ⟨hc, hin, rfl⟩
    exact ⟨_, _, rfl, hmain (v := (_, s.1.2)) (step_enter.mpr ⟨hs, rfl⟩)⟩
  | true =>
    have hs : Spmd.Step L.program s.1.1 (p, .leave c) (L.program.leave s.1.1 p c) :=
      Spmd.step_leave.mpr ⟨hc, hin, by simp [hheld], rfl⟩
    by_cases hans : ∀ i, L.uses p c = some i → ∃ x, L.service.answer s.1.2 i = some x
    · exact ⟨_, _, rfl, hmain (v := (_, s.1.2)) (step_leave.mpr ⟨hs, rfl, hans⟩)⟩
    · simp only [not_forall] at hans
      obtain ⟨i, hi, hno⟩ := hans
      have hnone := Option.eq_none_iff_forall_ne_some.mpr (not_exists.mp hno)
      have hasked : L.Asked s.1.1 i := ⟨p, hin, by rw [hc, Option.bind_some, hi]⟩
      have hlt := huse i hi
      obtain ⟨b, w, hw, hown⟩ := hV.goes_on (shared_inside hrun).serves (by omega)
        (fun j hj => absurd hj (hfree i j)) hnone
      refine ⟨.inside (.serve b), _, ?_, inside_serve (v := (s.1.1, w)) ?_⟩
      · refine Option.bind_eq_none_iff.mpr fun j hj => ?_
        rw [hown j hj, if_neg (by omega)]
      · refine step_serve.mpr ⟨hw, rfl, fun j hj => ?_⟩
        rw [hown j (begins_below.mp hj).1]
        exact hasked

theorem shared_reliable (hV : L.service.Reliable (first + count) bound)
    (hfree : ∀ i j, ¬ L.service.needs i j)
    (hpath : ∀ p, Follows (L.program.next p) (L.program.first p) (path p)) :
    (L.shared first count gates gate).Reliable (count + gates)
      (∑ p, 2 * (path p).length + bound + gates) where
  can_begin := by
    intro zs s j hrun hj hnot _
    rcases Nat.lt_or_ge j count with hlt | hge
    · rw [begun_call hlt] at hnot
      obtain ⟨b, w, hb, hw⟩ := hV.can_begin (shared_inside hrun).serves (Nat.add_lt_add_left hlt _)
        hnot fun i hi => absurd hi (hfree _ i)
      refine ⟨.inside (.serve b), _, ?_, inside_serve (v := (s.1.1, w)) ?_⟩
      · refine Option.bind_eq_some_iff.mpr ⟨_, hb, ?_⟩
        rw [if_pos (by omega), Nat.add_sub_cancel_left]
      · refine step_serve.mpr ⟨hw, rfl, fun i hi => ?_⟩
        obtain ⟨hi, hbelow⟩ := begins_below.mp hi
        have := Option.some.inj (hi.symm.trans hb)
        omega
    · obtain ⟨r, rfl⟩ := Nat.exists_eq_add_of_le hge
      rw [begun_gate, gate_open hrun, Bool.not_eq_true] at hnot
      exact ⟨.opens r, _, rfl, if_pos ⟨by omega, hnot⟩⟩
  progress := by
    intro zs s j hrun hj hbegun hnone
    rcases Nat.lt_or_ge j count with hlt | hge
    · rw [begun_call hlt] at hbegun
      rw [answer_call hlt, Option.map_eq_none_iff] at hnone
      obtain ⟨b, w, hb, hw⟩ := hV.progress (shared_inside hrun).serves (Nat.add_lt_add_left hlt _)
        hbegun hnone
      refine ⟨.inside (.serve b), _, ?_, inside_serve (v := (s.1.1, w)) ?_⟩
      · exact Option.bind_eq_none_iff.mpr fun i hi => by simp [hb] at hi
      · refine step_serve.mpr ⟨hw, rfl, fun i hi => ?_⟩
        have := (begins_below.mp hi).1
        simp [hb] at this
    · obtain ⟨r, rfl⟩ := Nat.exists_eq_add_of_le hge
      rw [begun_gate, gate_open hrun] at hbegun
      simp [answer_gate, hbegun] at hnone
  stable := fun hrun hs hx => shared_stable hV hrun hs hx
  length_le := by
    intro zs s hrun
    rw [length_insides_openings]
    exact Nat.add_le_add (Layer.Run.length_le (L := L.below first) (hV.below (Nat.le_add_right _ _))
      hpath (shared_inside hrun)) (openings_le hrun)

end Shared

end Served
