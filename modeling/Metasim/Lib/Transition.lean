import Mathlib.Data.List.Induction
import Mathlib.Tactic.Common

/-! Finite labelled traces of a step relation: invariants over the whole history,
bounds on the length of a trace, and maximal traces. -/
namespace Transition

variable {σ α : Type*} {step : σ → α → σ → Prop} {s t u : σ} {a : α} {xs ys : List α}

/-- `Trace step s xs t`: the labels `xs`, oldest first, lead from `s` to `t`. -/
inductive Trace (step : σ → α → σ → Prop) (s : σ) : List α → σ → Prop
  | refl : Trace step s [] s
  | snoc {xs : List α} {t u : σ} {a : α} :
      Trace step s xs t → step t a u → Trace step s (xs ++ [a]) u

/-- No step leaves a terminal state. -/
def Terminal (step : σ → α → σ → Prop) (t : σ) : Prop := ∀ a u, ¬ step t a u

/-- A property of history and state that every step preserves holds along every trace. -/
theorem invariant {I : List α → σ → Prop} (h0 : I [] s)
    (hs : ∀ xs t a u, I xs t → step t a u → I (xs ++ [a]) u)
    (h : Trace step s xs t) : I xs t := by
  induction h with
  | refl => exact h0
  | snoc _ hstep ih => exact hs _ _ _ _ ih hstep

/-- The form of `invariant` for properties of the state alone. -/
theorem invariant_state {I : σ → Prop} (h0 : I s)
    (hs : ∀ t a u, I t → step t a u → I u) (h : Trace step s xs t) : I t :=
  invariant (I := fun _ t => I t) h0 (fun _ t a u => hs t a u) h

theorem mono {step' : σ → α → σ → Prop} (hm : ∀ t a u, step t a u → step' t a u)
    (h : Trace step s xs t) : Trace step' s xs t := by
  induction h with
  | refl => exact .refl
  | snoc _ hstep ih => exact .snoc ih (hm _ _ _ hstep)

theorem append (h : Trace step s xs t) (h' : Trace step t ys u) :
    Trace step s (xs ++ ys) u := by
  induction h' with
  | refl => simpa using h
  | snoc _ hstep ih => simpa only [List.append_assoc] using ih.snoc hstep

/-- Running a partial step function over labels gives a trace. -/
theorem of_foldlM {f : σ → α → Option σ} (h : xs.foldlM f s = some t) :
    Trace (fun t a u => f t a = some u) s xs t := by
  induction xs using List.reverseRecOn generalizing t with
  | nil =>
    cases h
    exact .refl
  | append_singleton xs a ih =>
    rw [List.foldlM_append, Option.bind_eq_bind, Option.bind_eq_some_iff] at h
    obtain ⟨u, hu, ha⟩ := h
    exact (ih hu).snoc (by simpa using ha)

/-- A measure that every step raises bounds the number of steps taken so far. -/
theorem length_le_measure {I : σ → Prop} {m : σ → ℕ} (h0 : I s)
    (hI : ∀ t a u, I t → step t a u → I u)
    (hm : ∀ t a u, I t → step t a u → m t < m u) (h : Trace step s xs t) :
    xs.length ≤ m t := by
  have key : I t ∧ xs.length ≤ m t := by
    refine invariant (I := fun xs t => I t ∧ xs.length ≤ m t) ⟨h0, Nat.zero_le _⟩ ?_ h
    intro xs t a u ⟨ht, hle⟩ hstep
    refine ⟨hI t a u ht hstep, ?_⟩
    have hlt := hm t a u ht hstep
    rw [List.length_append, List.length_singleton]
    exact Nat.lt_of_le_of_lt hle hlt
  exact key.2

/-- Where all traces are shorter than a bound, none goes on forever. -/
theorem not_infinite {bound : ℕ} (hb : ∀ xs t, Trace step s xs t → xs.length ≤ bound) :
    ¬ ∃ (f : ℕ → σ) (l : ℕ → α), f 0 = s ∧ ∀ i, step (f i) (l i) (f (i + 1)) := by
  rintro ⟨f, l, h0, hf⟩
  have run : ∀ i, ∃ xs, xs.length = i ∧ Trace step s xs (f i) := by
    intro i
    induction i with
    | zero => exact ⟨[], rfl, h0 ▸ .refl⟩
    | succ i ih =>
      obtain ⟨xs, hl, hx⟩ := ih
      exact ⟨xs ++ [l i], by simp [hl], hx.snoc (hf i)⟩
  obtain ⟨xs, hl, hx⟩ := run (bound + 1)
  have := hb xs _ hx
  omega

/-- Where all traces are shorter than a bound, each one extends to a maximal one. -/
theorem exists_terminal {bound : ℕ} (hb : ∀ xs t, Trace step s xs t → xs.length ≤ bound)
    (h : Trace step s xs t) : ∃ ys u, Trace step s (xs ++ ys) u ∧ Terminal step u := by
  generalize hk : bound - xs.length = k
  induction k generalizing xs t with
  | zero =>
    refine ⟨[], t, by simpa using h, ?_⟩
    intro a u hstep
    have := hb _ _ (h.snoc hstep)
    simp only [List.length_append, List.length_singleton] at this
    omega
  | succ k ih =>
    by_cases hT : Terminal step t
    · exact ⟨[], t, by simpa using h, hT⟩
    · simp only [Terminal, not_forall, not_not] at hT
      obtain ⟨a, u, hstep⟩ := hT
      obtain ⟨ys, v, hv, hterm⟩ := ih (h.snoc hstep) (by simp; omega)
      exact ⟨a :: ys, v, by simpa using hv, hterm⟩

end Transition
