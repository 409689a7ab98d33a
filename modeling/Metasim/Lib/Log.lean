import Mathlib.Data.List.Nodup

/-! Logs of a run: a list of events that holds each event that has happened once, and in
which no event comes before one that it presupposes. -/
namespace Log

variable {α : Type*} {happened happened' : α → Prop} {needs : α → α → Prop}
  {l new pre post : List α} {e d : α}

/-- The log holds what has happened, once. -/
structure Records (happened : α → Prop) (l : List α) : Prop where
  nodup : l.Nodup
  mem_iff : ∀ e, e ∈ l ↔ happened e

/-- Every event comes after all that it needs. -/
def Causal (needs : α → α → Prop) (l : List α) : Prop :=
  ∀ pre e post, l = pre ++ e :: post → ∀ d, needs e d → d ∈ pre

theorem records_nil (h : ∀ e, ¬ happened e) : Records happened [] :=
  ⟨List.nodup_nil, fun e => ⟨fun he => absurd he List.not_mem_nil, fun he => absurd he (h e)⟩⟩

theorem Records.congr (h : Records happened l) (hiff : ∀ e, happened' e ↔ happened e) :
    Records happened' l :=
  ⟨h.nodup, fun e => (h.mem_iff e).trans (hiff e).symm⟩

/-- What a step adds to the log is what happens for the first time. -/
theorem Records.append (h : Records happened l) (hn : new.Nodup) (hnew : ∀ e ∈ new, ¬ happened e)
    (hiff : ∀ e, happened' e ↔ happened e ∨ e ∈ new) : Records happened' (l ++ new) := by
  constructor
  · refine List.nodup_append.mpr ⟨h.nodup, hn, ?_⟩
    rintro e he _ hd rfl
    exact hnew e hd ((h.mem_iff e).mp he)
  · intro e
    rw [List.mem_append, h.mem_iff, hiff]

theorem causal_nil : Causal needs [] := by
  intro pre e post h
  simp at h

theorem Causal.snoc (h : Causal needs l) (he : ∀ d, needs e d → d ∈ l) :
    Causal needs (l ++ [e]) := by
  intro pre e' post heq d hd
  rcases List.eq_nil_or_concat' post with rfl | ⟨post, x, rfl⟩
  · have hl := List.append_inj' heq rfl
    obtain rfl := hl.1
    obtain rfl := List.singleton_inj.mp hl.2
    exact he d hd
  · have hl : l = pre ++ e' :: post := by
      have : l ++ [e] = (pre ++ e' :: post) ++ [x] := by simpa using heq
      exact (List.append_inj' this rfl).1
    exact h pre e' post hl d hd

/-- What has been logged before an event is again such a log. -/
theorem Causal.left (h : Causal needs (pre ++ post)) : Causal needs pre := by
  rintro p e q rfl d hd
  exact h p e (q ++ post) (by simp) d hd

/-- In a log that some event is in, so is all that it needs. -/
theorem Causal.mem (h : Causal needs l) (he : e ∈ l) (hd : needs e d) : d ∈ l := by
  obtain ⟨pre, post, rfl⟩ := List.append_of_mem he
  exact List.mem_append_left _ (h pre e post rfl d hd)

/-- Of the events of one kind the log holds one. -/
theorem filter_eq_singleton {p : α → Bool} (hn : l.Nodup) (he : e ∈ l) (hp : p e)
    (huniq : ∀ d ∈ l, p d → d = e) : l.filter p = [e] := by
  have hmem : ∀ d, d ∈ l.filter p ↔ d = e := by
    intro d
    rw [List.mem_filter]
    exact ⟨fun ⟨hd, hpd⟩ => huniq d hd hpd, fun h => h ▸ ⟨he, hp⟩⟩
  exact List.perm_singleton.mp ((List.perm_ext_iff_of_nodup (hn.filter p)
    (List.nodup_singleton e)).mpr fun d => by rw [hmem, List.mem_singleton])

end Log
