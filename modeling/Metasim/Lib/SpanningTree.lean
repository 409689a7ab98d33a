import Mathlib.Algebra.BigOperators.Group.Finset.Basic
import Mathlib.Data.Finset.Lattice.Union
import Mathlib.Logic.Relation
import Mathlib.Tactic.Linarith

/-!
# Finite rooted trees given by child lists

The nodes are a finite set; each node lists its children in order. An index that grows
from parent to child excludes cycles. Subtrees, sums and suprema over them, and the
addressing of nodes by child positions follow.
-/

/-- A rooted tree on a finite set of nodes, each node with an ordered list of children. -/
structure SpanningTree (V : Type*) [DecidableEq V] where
  nodes : Finset V
  root : V
  children : V → List V
  index : V → ℕ
  root_mem : root ∈ nodes
  child_mem : ∀ {v c}, v ∈ nodes → c ∈ children v → c ∈ nodes
  child_nodup : ∀ {v}, v ∈ nodes → (children v).Nodup
  parent_unique : ∀ {v w c}, v ∈ nodes → w ∈ nodes → c ∈ children v → c ∈ children w → v = w
  index_lt : ∀ {v c}, v ∈ nodes → c ∈ children v → index v < index c
  covered : ∀ {c}, c ∈ nodes → c ≠ root → ∃ v ∈ nodes, c ∈ children v
  root_not_child : ∀ {v}, v ∈ nodes → root ∉ children v

namespace SpanningTree

variable {V : Type*} [DecidableEq V] (T : SpanningTree V) {v w x c d : V}

/-! ## Induction along the tree -/

/-- From the leaves up: a property holds of a node once it holds of all its children. -/
@[elab_as_elim]
theorem bottom_up {P : V → Prop} (hv : v ∈ T.nodes)
    (h : ∀ v ∈ T.nodes, (∀ c ∈ T.children v, P c) → P v) : P v := by
  induction hk : T.nodes.sup T.index - T.index v using Nat.strong_induction_on generalizing v with
  | _ k ih =>
    refine h v hv fun c hc => ih _ ?_ (T.child_mem hv hc) rfl
    have hlt := T.index_lt hv hc
    have hle : T.index c ≤ T.nodes.sup T.index := Finset.le_sup (T.child_mem hv hc)
    omega

/-- From the root down: a property passes from each node to its children. -/
@[elab_as_elim]
theorem top_down {P : V → Prop} (hv : v ∈ T.nodes) (hroot : P T.root)
    (h : ∀ v ∈ T.nodes, P v → ∀ c ∈ T.children v, P c) : P v := by
  induction hk : T.index v using Nat.strong_induction_on generalizing v with
  | _ k ih =>
    by_cases hr : v = T.root
    · exact hr ▸ hroot
    · obtain ⟨w, hw, hc⟩ := T.covered hv hr
      exact h w hw (ih _ (hk ▸ T.index_lt hw hc) hw rfl) v hc

/-! ## Subtrees -/

/-- `x` lies in the subtree of `v`: the parents of `x` lead up to `v`. -/
def Below (x v : V) : Prop :=
  Relation.ReflTransGen (fun c p => p ∈ T.nodes ∧ c ∈ T.children p) x v

theorem below_refl (v : V) : T.Below v v := Relation.ReflTransGen.refl

theorem below_child (hv : v ∈ T.nodes) (hc : c ∈ T.children v) (h : T.Below x c) :
    T.Below x v := Relation.ReflTransGen.tail h ⟨hv, hc⟩

theorem below_cases (h : T.Below x v) :
    x = v ∨ ∃ c ∈ T.children v, v ∈ T.nodes ∧ T.Below x c := by
  rcases Relation.ReflTransGen.cases_tail h with rfl | ⟨c, hx, hv, hc⟩
  · exact Or.inl rfl
  · exact Or.inr ⟨c, hc, hv, hx⟩

theorem below_iff (hv : v ∈ T.nodes) :
    T.Below x v ↔ x = v ∨ ∃ c ∈ T.children v, T.Below x c := by
  constructor
  · intro h
    rcases T.below_cases h with rfl | ⟨c, hc, _, hx⟩
    · exact Or.inl rfl
    · exact Or.inr ⟨c, hc, hx⟩
  · rintro (rfl | ⟨c, hc, hx⟩)
    · exact T.below_refl x
    · exact T.below_child hv hc hx

theorem index_le_of_below (h : T.Below x v) : T.index v ≤ T.index x := by
  induction h with
  | refl => exact le_rfl
  | tail _ hstep ih => exact (T.index_lt hstep.1 hstep.2).le.trans ih

theorem below_root (hx : x ∈ T.nodes) : T.Below x T.root := by
  refine T.top_down hx (T.below_refl _) ?_
  intro v hv hb c hc
  exact Relation.ReflTransGen.head ⟨hv, hc⟩ hb

/-- The ancestors of a node form a chain. -/
theorem below_total (hc : T.Below x c) (hd : T.Below x d) : T.Below c d ∨ T.Below d c := by
  induction hc using Relation.ReflTransGen.head_induction_on with
  | refl => exact Or.inl hd
  | head hstep hc ih =>
    rcases Relation.ReflTransGen.cases_head hd with rfl | ⟨y, hy, hd⟩
    · exact Or.inr (Relation.ReflTransGen.head hstep hc)
    · obtain rfl := T.parent_unique hstep.1 hy.1 hstep.2 hy.2
      exact ih hd

theorem not_below_sibling (hv : v ∈ T.nodes) (hc : c ∈ T.children v) (hd : d ∈ T.children v)
    (h : T.Below c d) : c = d := by
  rcases Relation.ReflTransGen.cases_head h with rfl | ⟨w, hw, hwd⟩
  · rfl
  · obtain rfl := T.parent_unique hw.1 hv hw.2 hc
    have hle := T.index_le_of_below hwd
    have hlt := T.index_lt hv hd
    omega

/-- The subtrees of two children of one node are disjoint. -/
theorem sibling_eq (hv : v ∈ T.nodes) (hc : c ∈ T.children v) (hd : d ∈ T.children v)
    (hxc : T.Below x c) (hxd : T.Below x d) : c = d := by
  rcases T.below_total hxc hxd with h | h
  · exact T.not_below_sibling hv hc hd h
  · exact (T.not_below_sibling hv hd hc h).symm

open Classical in
/-- The nodes whose chain of parents passes through `v`. -/
noncomputable def subtree (v : V) : Finset V := T.nodes.filter fun x => T.Below x v

@[simp] theorem mem_subtree : x ∈ T.subtree v ↔ x ∈ T.nodes ∧ T.Below x v := by
  simp [subtree]

theorem subtree_root : T.subtree T.root = T.nodes := by
  ext x
  rw [mem_subtree]
  exact ⟨And.left, fun hx => ⟨hx, T.below_root hx⟩⟩

theorem subtree_subset (v : V) : T.subtree v ⊆ T.nodes := fun _ hx => (T.mem_subtree.mp hx).1

theorem subtree_eq (hv : v ∈ T.nodes) :
    T.subtree v = insert v ((T.children v).toFinset.biUnion T.subtree) := by
  ext x
  simp only [mem_subtree, Finset.mem_insert, Finset.mem_biUnion, List.mem_toFinset,
    T.below_iff hv]
  constructor
  · rintro ⟨hx, rfl | ⟨c, hc, hb⟩⟩
    · exact Or.inl rfl
    · exact Or.inr ⟨c, hc, hx, hb⟩
  · rintro (rfl | ⟨c, hc, hx, hb⟩)
    · exact ⟨hv, Or.inl rfl⟩
    · exact ⟨hx, Or.inr ⟨c, hc, hb⟩⟩

theorem not_mem_children_subtrees (hv : v ∈ T.nodes) :
    v ∉ (T.children v).toFinset.biUnion T.subtree := by
  simp only [Finset.mem_biUnion, List.mem_toFinset, mem_subtree, not_exists, not_and]
  intro c hc _ hb
  have hle := T.index_le_of_below hb
  have hlt := T.index_lt hv hc
  omega

/-- A sum over a subtree is the node's own term and the sums of its children's subtrees. -/
theorem sum_subtree {M : Type*} [AddCommMonoid M] (f : V → M) (hv : v ∈ T.nodes) :
    ∑ x ∈ T.subtree v, f x = f v + ((T.children v).map fun c => ∑ x ∈ T.subtree c, f x).sum := by
  rw [T.subtree_eq hv, Finset.sum_insert (T.not_mem_children_subtrees hv), Finset.sum_biUnion,
    List.sum_toFinset _ (T.child_nodup hv)]
  intro c hc d hd hne
  rw [Function.onFun, Finset.disjoint_left]
  intro x hxc hxd
  exact hne (T.sibling_eq hv (by simpa using hc) (by simpa using hd)
    (T.mem_subtree.mp hxc).2 (T.mem_subtree.mp hxd).2)

/-- A supremum over a subtree, likewise. -/
theorem sup_subtree {L : Type*} [SemilatticeSup L] [OrderBot L] (f : V → L)
    (hv : v ∈ T.nodes) :
    (T.subtree v).sup f = f v ⊔ (T.children v).toFinset.sup fun c => (T.subtree c).sup f := by
  rw [T.subtree_eq hv, Finset.sup_insert, Finset.sup_biUnion]

/-- Lists of the children's subtrees make up a list of the node's subtree. -/
theorem gather_subtrees {l : V → List V} (hv : v ∈ T.nodes)
    (hn : ∀ c ∈ T.children v, (l c).Nodup)
    (hm : ∀ c ∈ T.children v, ∀ x, x ∈ l c ↔ x ∈ T.subtree c) :
    ((T.children v).flatMap l ++ [v]).Nodup ∧
      ∀ x, x ∈ (T.children v).flatMap l ++ [v] ↔ x ∈ T.subtree v := by
  constructor
  · rw [List.nodup_append]
    refine ⟨?_, List.nodup_singleton v, ?_⟩
    · rw [List.nodup_flatMap]
      refine ⟨hn, (T.child_nodup hv).imp_of_mem ?_⟩
      intro c d hc hd hne x hxc hxd
      have hbc := (T.mem_subtree.mp ((hm c hc x).mp hxc)).2
      have hbd := (T.mem_subtree.mp ((hm d hd x).mp hxd)).2
      exact hne (T.sibling_eq hv hc hd hbc hbd)
    · intro x hx y hy hxy
      obtain rfl : y = v := by simpa using hy
      subst hxy
      obtain ⟨c, hc, hxc⟩ := List.mem_flatMap.mp hx
      refine T.not_mem_children_subtrees hv ?_
      exact Finset.mem_biUnion.mpr ⟨c, by simpa using hc, (hm c hc x).mp hxc⟩
  · intro x
    rw [T.subtree_eq hv]
    simp only [List.mem_append, List.mem_flatMap, List.mem_singleton, Finset.mem_insert,
      Finset.mem_biUnion, List.mem_toFinset]
    constructor
    · rintro (⟨c, hc, hx⟩ | rfl)
      · exact Or.inr ⟨c, hc, (hm c hc x).mp hx⟩
      · exact Or.inl rfl
    · rintro (rfl | ⟨c, hc, hx⟩)
      · exact Or.inr rfl
      · exact Or.inl ⟨c, hc, (hm c hc x).mpr hx⟩

/-- The sizes of the children's subtrees and the node itself. -/
theorem card_subtree (hv : v ∈ T.nodes) :
    (T.subtree v).card = ((T.children v).map fun c => (T.subtree c).card).sum + 1 := by
  simp only [Finset.card_eq_sum_ones]
  rw [T.sum_subtree (fun _ => 1) hv, add_comm]

theorem self_mem_subtree (hv : v ∈ T.nodes) : v ∈ T.subtree v :=
  T.mem_subtree.mpr ⟨hv, T.below_refl v⟩

theorem child_subtree_subset (hv : v ∈ T.nodes) (hc : c ∈ T.children v) :
    T.subtree c ⊆ T.subtree v := by
  intro x hx
  obtain ⟨hxn, hxc⟩ := T.mem_subtree.mp hx
  exact T.mem_subtree.mpr ⟨hxn, T.below_child hv hc hxc⟩

/-! ## All child lists together -/

theorem flatMap_children_nodup {vs : List V} (hn : vs.Nodup) (hm : ∀ v, v ∈ vs ↔ v ∈ T.nodes) :
    (vs.flatMap T.children).Nodup := by
  rw [List.nodup_flatMap]
  refine ⟨fun v hv => T.child_nodup ((hm v).mp hv), ?_⟩
  refine hn.imp_of_mem ?_
  intro v w hv hw hne c hc hd
  exact hne (T.parent_unique ((hm v).mp hv) ((hm w).mp hw) hc hd)

theorem mem_flatMap_children {vs : List V} (hm : ∀ v, v ∈ vs ↔ v ∈ T.nodes) :
    c ∈ vs.flatMap T.children ↔ c ∈ T.nodes ∧ c ≠ T.root := by
  rw [List.mem_flatMap]
  constructor
  · rintro ⟨v, hv, hc⟩
    have hv := (hm v).mp hv
    refine ⟨T.child_mem hv hc, ?_⟩
    rintro rfl
    exact T.root_not_child hv hc
  · rintro ⟨hc, hne⟩
    obtain ⟨v, hv, hcv⟩ := T.covered hc hne
    exact ⟨v, (hm v).mpr hv, hcv⟩

/-- Every node but the root is the child of exactly one node. -/
theorem flatMap_children_perm {vs : List V} (hn : vs.Nodup) (hm : ∀ v, v ∈ vs ↔ v ∈ T.nodes) :
    (vs.flatMap T.children).Perm (vs.erase T.root) := by
  rw [List.perm_ext_iff_of_nodup (T.flatMap_children_nodup hn hm) (hn.erase _)]
  intro c
  rw [T.mem_flatMap_children hm, hn.mem_erase_iff, hm, and_comm]

/-! ## Addresses: the child positions that lead to a node, innermost first -/

/-- The node at an address. -/
def nodeAt : List ℕ → Option V
  | [] => some T.root
  | j :: p => (nodeAt p).bind fun v => (T.children v)[j]?

@[simp] theorem nodeAt_nil : T.nodeAt [] = some T.root := rfl

theorem nodeAt_cons {j : ℕ} {p : List ℕ} (h : T.nodeAt p = some v) :
    T.nodeAt (j :: p) = (T.children v)[j]? := by
  simp [nodeAt, h]

theorem nodeAt_cons_eq_some {j : ℕ} {p : List ℕ} :
    T.nodeAt (j :: p) = some c ↔ ∃ v, T.nodeAt p = some v ∧ (T.children v)[j]? = some c := by
  simp [nodeAt, Option.bind_eq_some_iff]

theorem nodeAt_mem {p : List ℕ} (h : T.nodeAt p = some v) : v ∈ T.nodes := by
  induction p generalizing v with
  | nil =>
    obtain rfl : T.root = v := by simpa using h
    exact T.root_mem
  | cons j p ih =>
    obtain ⟨w, hw, hc⟩ := T.nodeAt_cons_eq_some.mp h
    exact T.child_mem (ih hw) (List.mem_of_getElem? hc)

theorem nodeAt_child_ne_root {j : ℕ} {p : List ℕ} (h : T.nodeAt (j :: p) = some c) :
    c ≠ T.root := by
  obtain ⟨w, hw, hc⟩ := T.nodeAt_cons_eq_some.mp h
  rintro rfl
  exact T.root_not_child (T.nodeAt_mem hw) (List.mem_of_getElem? hc)

/-- A node has one address only. -/
theorem nodeAt_injective {p q : List ℕ} (hp : T.nodeAt p = some v) (hq : T.nodeAt q = some v) :
    p = q := by
  induction p generalizing q v with
  | nil =>
    obtain rfl : T.root = v := by simpa using hp
    cases q with
    | nil => rfl
    | cons j q => exact (T.nodeAt_child_ne_root hq rfl).elim
  | cons i p ih =>
    cases q with
    | nil =>
      obtain rfl : T.root = v := by simpa using hq
      exact (T.nodeAt_child_ne_root hp rfl).elim
    | cons j q =>
      obtain ⟨a, ha, hi⟩ := T.nodeAt_cons_eq_some.mp hp
      obtain ⟨b, hb, hj⟩ := T.nodeAt_cons_eq_some.mp hq
      obtain rfl := T.parent_unique (T.nodeAt_mem ha) (T.nodeAt_mem hb)
        (List.mem_of_getElem? hi) (List.mem_of_getElem? hj)
      obtain rfl := ih ha hb
      have hij := (List.getElem?_inj (List.getElem?_eq_some_iff.mp hi).1
        (T.child_nodup (T.nodeAt_mem ha))).mp (hi.trans hj.symm)
      rw [hij]

theorem exists_nodeAt (hv : v ∈ T.nodes) : ∃ p, T.nodeAt p = some v := by
  refine T.top_down hv ⟨[], rfl⟩ ?_
  rintro v hv ⟨p, hp⟩ c hc
  obtain ⟨j, hj⟩ := List.mem_iff_getElem?.mp hc
  exact ⟨j :: p, (T.nodeAt_cons hp).trans hj⟩

theorem nodeAt_ne_root_iff {p : List ℕ} (h : T.nodeAt p = some v) : v ≠ T.root ↔ p ≠ [] := by
  cases p with
  | nil => simpa [eq_comm] using h
  | cons j p => simpa using T.nodeAt_child_ne_root h

end SpanningTree
