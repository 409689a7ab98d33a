import Metasim.TreeSpan

/-! Names for what the servers create while collectives run over their trees. -/
namespace Metasim

/-- A collective runs over the tree of a root. -/
class OverTree (α : Type) where
  root : α → ℤ
  degree : α → ℤ

/-- What belongs to one rank's part in collective `call`: the handle of the request it was
sent, its thread, its record. `path` lists the positions of the children on the way from the
root, innermost first; the empty path is the root itself. -/
structure Handle where
  call : ℕ
  path : List ℕ
deriving Repr, DecidableEq

namespace Handle

/-- The part of child `j`. -/
def child (h : Handle) (j : ℕ) : Handle := { call := h.call, path := j :: h.path }

@[simp] theorem child_inj {h g : Handle} {j k : ℕ} : h.child j = g.child k ↔ h = g ∧ j = k := by
  obtain ⟨i, p⟩ := h
  obtain ⟨i', p'⟩ := g
  simp only [child, mk.injEq, List.cons.injEq]
  tauto

theorem child_ne (h : Handle) (j : ℕ) : h.child j ≠ h := by
  intro heq
  exact List.cons_ne_self j h.path (congrArg path heq)

theorem child_path (h : Handle) (j : ℕ) : (h.child j).path ≠ [] := List.cons_ne_nil j h.path

theorem child_ne_root (h : Handle) (j i : ℕ) : h.child j ≠ ⟨i, []⟩ := fun heq =>
  h.child_path j (congrArg path heq)

theorem cases_path (h : Handle) : h = ⟨h.call, []⟩ ∨ ∃ g j, h = child g j := by
  obtain ⟨i, p⟩ := h
  cases p with
  | nil => exact Or.inl rfl
  | cons j p => exact Or.inr ⟨⟨i, p⟩, j, rfl⟩

end Handle

/-- The rank reached from the root by a path of child positions. -/
def pathRank (arith : ℤ → ℤ) (n root k : ℤ) : List ℕ → Option ℤ
  | [] => some root
  | j :: p => (pathRank arith n root k p).bind fun r => (localTree arith n root k r).children[j]?

theorem pathRank_eq {arith : ℤ → ℤ} {n root k : ℤ} (S : Sound arith n root k) (p : List ℕ) :
    pathRank arith n root k p = S.tree.nodeAt p := by
  induction p with
  | nil => rfl
  | cons j p ih => rw [pathRank, ih]; rfl

section At

variable {α : Type} [OverTree α] {arith : ℤ → ℤ} {n v w : ℤ} {calls : List α} {c d : α}
  {h : Handle} {i j : ℕ}

/-- The handle belongs to collective `c` and rank `v`. -/
def Handle.At (arith : ℤ → ℤ) (n : ℤ) (calls : List α) (h : Handle) (c : α) (v : ℤ) : Prop :=
  calls[h.call]? = some c ∧
    pathRank arith n (OverTree.root c) (OverTree.degree c) h.path = some v

/-- The children of rank `v` in the tree of `c`. -/
abbrev kids (arith : ℤ → ℤ) (n : ℤ) (c : α) (v : ℤ) : List ℤ :=
  (localTree arith n (OverTree.root c) (OverTree.degree c) v).children

theorem at_unique (h1 : h.At arith n calls c v) (h2 : h.At arith n calls d w) :
    c = d ∧ v = w := by
  obtain rfl := Option.some.inj (h1.1.symm.trans h2.1)
  exact ⟨rfl, Option.some.inj (h1.2.symm.trans h2.2)⟩

theorem at_child_iff : (h.child j).At arith n calls c w ↔
    ∃ v, h.At arith n calls c v ∧ (kids arith n c v)[j]? = some w := by
  simp only [Handle.At, Handle.child, pathRank, Option.bind_eq_some_iff]
  tauto

theorem at_root (hc : calls[i]? = some c) :
    (⟨i, []⟩ : Handle).At arith n calls c (OverTree.root c) := ⟨hc, rfl⟩

theorem Handle.At.root_of_path (hat : h.At arith n calls c v) (hh : h.path = []) :
    v = OverTree.root c := by
  have hv := hat.2
  rw [hh] at hv
  exact (Option.some.inj hv).symm

/-- The tree of `c` -/
abbrev SoundFor (arith : ℤ → ℤ) (n : ℤ) (c : α) : Prop :=
  Sound arith n (OverTree.root c) (OverTree.degree c)

theorem Handle.At.nodeAt (S : SoundFor arith n c) (hat : h.At arith n calls c v) :
    S.tree.nodeAt h.path = some v := (pathRank_eq S _).symm.trans hat.2

theorem Handle.At.mem_nodes (S : SoundFor arith n c) (hat : h.At arith n calls c v) :
    v ∈ S.tree.nodes := S.tree.nodeAt_mem (hat.nodeAt S)

theorem at_of_nodeAt (S : SoundFor arith n c) (hc : calls[i]? = some c) {p : List ℕ}
    (hp : S.tree.nodeAt p = some v) : (⟨i, p⟩ : Handle).At arith n calls c v :=
  ⟨hc, (pathRank_eq S p).trans hp⟩

/-- In one collective a rank has one handle. -/
theorem at_injective (S : SoundFor arith n c) {g : Handle} (hh : h.At arith n calls c v)
    (hg : g.At arith n calls c v) (hcall : h.call = g.call) : h = g := by
  have hpath := S.tree.nodeAt_injective (hh.nodeAt S) (hg.nodeAt S)
  calc h = ⟨h.call, h.path⟩ := rfl
    _ = ⟨g.call, g.path⟩ := by rw [hcall, hpath]
    _ = g := rfl

open Classical in
/-- The handle under which a collective reaches a rank. -/
noncomputable def handleOf (arith : ℤ → ℤ) (n : ℤ) (calls : List α) (q : ℕ × ℤ) : Handle :=
  if h : ∃ p c, (⟨q.1, p⟩ : Handle).At arith n calls c q.2 then ⟨q.1, h.choose⟩ else ⟨q.1, []⟩

theorem handleOf_at (S : SoundFor arith n c) (hat : h.At arith n calls c v) :
    handleOf arith n calls (h.call, v) = h := by
  have hex : ∃ p d, (⟨h.call, p⟩ : Handle).At arith n calls d v := ⟨h.path, c, hat⟩
  rw [handleOf, dif_pos hex]
  obtain ⟨d, hd⟩ := hex.choose_spec
  obtain rfl := Option.some.inj (hat.1.symm.trans hd.1)
  exact at_injective S hd hat rfl

end At

end Metasim
