import Mathlib.Tactic.Common

/-! Computations that record a list of results on the way. -/

/-- A value with the results recorded while it was computed, in order. -/
structure Traced (ρ α : Type) where
  val : α
  results : List ρ

namespace Traced

variable {ρ α β : Type} {P Q : ρ → Prop} {x : α} {m : Traced ρ α} {f : α → Traced ρ β}
  {c : Prop} [Decidable c]

instance : Monad (Traced ρ) where
  pure x := ⟨x, []⟩
  bind m f := ⟨(f m.val).val, m.results ++ (f m.val).results⟩

/-- The result is recorded. -/
def record (r : ρ) : Traced ρ ρ := ⟨r, [r]⟩

/-- All recorded results have the property. -/
def All (P : ρ → Prop) (m : Traced ρ α) : Prop := ∀ r ∈ m.results, P r

-- not by `rfl` alone: a condition on a value is to be rewritten with its decidability
@[simp] theorem val_pure : (pure x : Traced ρ α).val = x := (rfl)
@[simp] theorem val_bind : (m >>= f).val = (f m.val).val := (rfl)
@[simp] theorem val_record (r : ρ) : (record r).val = r := (rfl)

@[simp] theorem results_bind : (m >>= f).results = m.results ++ (f m.val).results := rfl

@[simp] theorem results_record (r : ρ) : (record r).results = [r] := rfl

@[simp] theorem all_pure : (pure x : Traced ρ α).All P := fun _ h => absurd h List.not_mem_nil

@[simp] theorem all_bind : (m >>= f).All P ↔ m.All P ∧ (f m.val).All P := by
  simp only [All, results_bind, List.mem_append]
  constructor
  · intro h
    exact ⟨fun r hr => h r (Or.inl hr), fun r hr => h r (Or.inr hr)⟩
  · rintro ⟨hm, hf⟩ r (hr | hr)
    · exact hm r hr
    · exact hf r hr

@[simp] theorem all_record {r : ρ} : (record r).All P ↔ P r := by
  simp [All]

@[simp] theorem val_ite {m' : Traced ρ α} :
    (if c then m else m').val = if c then m.val else m'.val := apply_ite val _ _ _

theorem all_ite {m' : Traced ρ α} :
    (if c then m else m').All P ↔ (c → m.All P) ∧ (¬ c → m'.All P) := by
  split_ifs with h <;> simp [h]

theorem All.imp (hPQ : ∀ r, P r → Q r) (h : m.All P) : m.All Q := fun r hr => hPQ r (h r hr)

end Traced
