import Mathlib.Data.Int.Basic
import Mathlib.Data.List.Count
import Mathlib.Data.List.Nodup

/-! Logs of events that obtain and release resources. -/

/-- The resource that an event obtains, and the one that it releases. -/
structure Ledger (E K : Type*) where
  obtains : E → Option K
  releases : E → Option K

namespace Ledger

variable {E K : Type*} [DecidableEq K] (L : Ledger E K) {l m : List E} {e : E} {k : K}

/-- How many times more `k` is obtained than released. -/
def held (l : List E) (k : K) : ℤ :=
  (l.filterMap L.obtains).count k - (l.filterMap L.releases).count k

/-- Whatever is obtained is released, as often as it is obtained. -/
def Balanced (l : List E) : Prop := ∀ k, L.held l k = 0

@[simp] theorem held_nil (k : K) : L.held [] k = 0 := rfl

theorem held_append (l m : List E) (k : K) : L.held (l ++ m) k = L.held l k + L.held m k := by
  simp only [held, List.filterMap_append, List.count_append]
  push_cast
  omega

theorem held_cons (e : E) (l : List E) (k : K) : L.held (e :: l) k =
    (if L.obtains e = some k then 1 else 0) - (if L.releases e = some k then 1 else 0) +
      L.held l k := by
  have hcount : ∀ f : E → Option K,
      (([e].filterMap f).count k : ℤ) = if f e = some k then 1 else 0 := by
    intro f
    cases h : f e with
    | none => simp [h]
    | some x => by_cases hx : x = k <;> simp [h, hx]
  rw [← List.singleton_append, held_append, held, hcount, hcount]

theorem held_quiet (h : ∀ e ∈ l, L.obtains e = none ∧ L.releases e = none) (k : K) :
    L.held l k = 0 := by
  have hobtains : l.filterMap L.obtains = [] := List.filterMap_eq_nil_iff.mpr fun e he => (h e he).1
  have hreleases : l.filterMap L.releases = [] :=
    List.filterMap_eq_nil_iff.mpr fun e he => (h e he).2
  simp [held, hobtains, hreleases]

/-- Where nothing is released, whatever is obtained is still held. -/
theorem held_pos (hr : ∀ e ∈ l, L.releases e = none) (he : e ∈ l) (hk : L.obtains e = some k) :
    0 < L.held l k := by
  have hreleases : l.filterMap L.releases = [] := List.filterMap_eq_nil_iff.mpr hr
  have hmem : k ∈ l.filterMap L.obtains := List.mem_filterMap.mpr ⟨e, he, hk⟩
  have := List.count_pos_iff.mpr hmem
  simp only [held, hreleases, List.count_nil]
  omega

theorem count_filterMap [DecidableEq E] {f : E → Option K} {a : E} (h : ∀ e, f e = some k ↔ e = a)
    (l : List E) : (l.filterMap f).count k = l.count a := by
  rw [List.count_filterMap, List.count]
  refine List.countP_congr fun e _ => ?_
  simpa using h e

/-- Where one event obtains `k` and one releases it, both occur equally often. -/
theorem Balanced.count_eq [DecidableEq E] {L : Ledger E K} (h : L.Balanced l) {a b : E}
    (ha : ∀ e, L.obtains e = some k ↔ e = a) (hb : ∀ e, L.releases e = some k ↔ e = b) :
    l.count b = l.count a := by
  have := h k
  rw [held, count_filterMap ha, count_filterMap hb] at this
  omega

end Ledger
