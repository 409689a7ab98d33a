import Metasim.SumRun

/-! The sum over the whole tree when no call fails. -/
namespace Metasim

variable {arith : ℤ → ℤ} {n root seed before r : ℤ} {f : ℤ → SumCalls} {junk : ℤ → Junk}

/-- A server whose calls for one sum all succeed; a leaf does not use its child array. -/
def ServerFine (f : SumCalls) (cs : List ℤ) : Prop :=
  f.getInput = 0 ∧ (cs ≠ [] → f.malloc = true) ∧ CallsFine f cs

theorem serverFine_default (cs : List ℤ) : ServerFine {} cs := by
  refine ⟨rfl, fun _ => rfl, fun _ => ⟨rfl, ?_⟩⟩
  intro c _
  exact ⟨⟨rfl, rfl⟩, rfl, rfl⟩

theorem bcastTree_eq : bcastTree arith n root = localTree arith n root 2 root := rfl

theorem handlerTree_of_malloc {f : SumCalls} (h : f.malloc = true) :
    handlerTree arith n r f ⟨root, seed⟩ = localTree arith n root 2 r := by
  rw [handlerTree, h]

theorem handlerTree_of_no_malloc {f : SumCalls} (h : f.malloc = false)
    (arith : ℤ → ℤ) (n r : ℤ) (x : SumIn) :
    (handlerTree arith n r f x).childCount = 0 ∧ (handlerTree arith n r f x).children = [] := by
  simp [handlerTree, metasimRpcTreeInit, h, emptyTree, RpcTree.children]

namespace Sound

variable (S : Sound arith n root 2)
include S

theorem mem_nodes : r ∈ S.tree.nodes ↔ 0 ≤ r ∧ r < n := by
  rw [tree_nodes, Finset.mem_Ico]

theorem childCount_eq_zero_iff (hr : r ∈ S.tree.nodes) :
    (localTree arith n root 2 r).childCount = 0 ↔ (localTree arith n root 2 r).children = [] := by
  have hr := S.mem_nodes.mp hr
  exact S.childCount_zero_iff hr.1 hr.2

/-- The handler's tree of a server whose allocation succeeds, or that needs none. -/
theorem handlerTree_children {f : SumCalls} (seed : ℤ) (hr : r ∈ S.tree.nodes)
    (hf : S.tree.children r ≠ [] → f.malloc = true) :
    (handlerTree arith n r f ⟨root, seed⟩).children = S.tree.children r ∧
      ((handlerTree arith n r f ⟨root, seed⟩).childCount = 0 ↔
        (handlerTree arith n r f ⟨root, seed⟩).children = []) := by
  cases hm : f.malloc with
  | true =>
    rw [handlerTree_of_malloc hm]
    exact ⟨rfl, S.childCount_eq_zero_iff hr⟩
  | false =>
    have hnil : S.tree.children r = [] := by
      by_contra h
      simp [hf h] at hm
    obtain ⟨hcount, hchildren⟩ := handlerTree_of_no_malloc hm arith n r ⟨root, seed⟩
    exact ⟨hchildren.trans hnil.symm, by simp [hcount, hchildren]⟩

end Sound

theorem wrapInt_sum_map (b : ℤ) (l : List ℤ) (g : ℤ → ℤ) :
    wrapInt (b + (l.map fun c => wrapInt (g c)).sum) = wrapInt (b + (l.map g).sum) := by
  induction l generalizing b with
  | nil => rfl
  | cons c l ih =>
    simp only [List.map_cons, List.sum_cons]
    calc wrapInt (b + (wrapInt (g c) + (l.map fun c => wrapInt (g c)).sum))
        = wrapInt (b + (l.map fun c => wrapInt (g c)).sum + g c) := by
          rw [add_comm (wrapInt (g c)), ← add_assoc, wrapInt_add_right]
      _ = wrapInt (b + g c + (l.map fun c => wrapInt (g c)).sum) := by rw [add_right_comm]
      _ = wrapInt (b + (g c + (l.map g).sum)) := by rw [ih, add_assoc]

/-- What a server delivers: the wrapped sum over its subtree, each rank of it added once. -/
def Delivers (S : Sound arith n root 2) (seed r : ℤ) (o : SumOut) : Prop :=
  o.sum = wrapInt (∑ x ∈ S.tree.subtree r, (x + seed)) ∧ o.ranks.Nodup ∧
    ∀ x, x ∈ o.ranks ↔ x ∈ S.tree.subtree r

/-- `sum_forward` keeps `Delivers` going up from the children. -/
theorem delivers_of_children (S : Sound arith n root 2) {a : ℤ → SumOut} {o : SumOut}
    (hr : r ∈ S.tree.nodes) (ha : ∀ c ∈ S.tree.children r, Delivers S seed c (a c))
    (hsum : o.sum = wrapInt (r + seed + ((S.tree.children r).map fun c => (a c).sum).sum))
    (hranks : o.ranks = ((S.tree.children r).flatMap fun c => (a c).ranks) ++ [r]) :
    Delivers S seed r o := by
  have hmap : ((S.tree.children r).map fun c => (a c).sum) =
      (S.tree.children r).map fun c => wrapInt (∑ x ∈ S.tree.subtree c, (x + seed)) :=
    List.map_congr_left fun c hc => (ha c hc).1
  have hg := S.tree.gather_subtrees (l := fun c => (a c).ranks) hr
    (fun c hc => (ha c hc).2.1) fun c hc => (ha c hc).2.2
  refine ⟨?_, hranks ▸ hg.1, hranks ▸ hg.2⟩
  rw [hsum, hmap, wrapInt_sum_map, S.tree.sum_subtree _ hr]

/-- A server below which no call fails delivers its subtree, given a level for each rank
between its distance and `n`. -/
theorem serveSum_fine (S : Sound arith n root 2) (seed : ℤ) (junk : ℤ → Junk)
    (hr : r ∈ S.tree.nodes) :
    (∀ x ∈ S.tree.subtree r, ServerFine (f x) (S.tree.children x)) →
    ∀ fuel, n.toNat ≤ fuel + S.tree.index r →
      ∃ o, serveSum arith n f junk ⟨root, seed⟩ fuel r = some o ∧ Delivers S seed r o := by
  refine S.tree.bottom_up hr ?_
  intro r hr ih hfine fuel hfuel
  have hlt : S.tree.index r < n.toNat := by
    have hr := S.mem_nodes.mp hr
    have := S.dist_mem hr.1 hr.2
    change (dist n root r).toNat < n.toNat
    omega
  obtain ⟨fuel, rfl⟩ : ∃ m, fuel = m + 1 := ⟨fuel - 1, by omega⟩
  have hchild : ∀ c ∈ S.tree.children r,
      ∃ o, serveSum arith n f junk ⟨root, seed⟩ fuel c = some o ∧ Delivers S seed c o := by
    intro c hc
    refine ih c hc (fun x hx => hfine x (S.tree.child_subtree_subset hr hc hx)) fuel ?_
    have := S.tree.index_lt hr hc
    omega
  choose! a ha using hchild
  obtain ⟨hinput, hmalloc, hcalls⟩ := hfine r (S.tree.self_mem_subtree hr)
  obtain ⟨hkids, hcount⟩ := S.handlerTree_children seed hr hmalloc
  obtain ⟨s, hs, hret, hsum, hranks⟩ := sumForward_fine (r := r) (j := junk r)
    (x := ⟨root, seed⟩) (a := a) hcount (hkids ▸ hcalls)
  have hanswers : (handlerTree arith n r (f r) ⟨root, seed⟩).children.map
      (serveSum arith n f junk ⟨root, seed⟩ fuel) =
      (handlerTree arith n r (f r) ⟨root, seed⟩).children.map fun c => some (a c) :=
    List.map_congr_left fun c hc => (ha c (hkids ▸ hc)).1
  rw [hkids] at hsum hranks
  refine ⟨s.out, ?_, delivers_of_children S hr (fun c hc => (ha c hc).2) hsum hranks⟩
  simp [serveSum, metasimRpcHandleSum, hinput, hanswers, hs]

/-- The invocation, likewise. -/
theorem runSum_fine (S : Sound arith n root 2) (seed before : ℤ) (junk : ℤ → Junk)
    (hfine : ∀ x ∈ S.tree.nodes, x ≠ root → ServerFine (f x) (S.tree.children x))
    (hroot : CallsFine (f root) (S.tree.children root)) {fuel : ℕ} (hfuel : n.toNat ≤ fuel) :
    ∃ i, runSum arith n f junk root seed before fuel = some i ∧ i.ret = 0 ∧
      Delivers S seed root { sum := i.sum, ranks := i.ranks } := by
  have hrn := S.tree.root_mem
  have hchild : ∀ c ∈ S.tree.children root,
      ∃ o, serveSum arith n f junk ⟨root, seed⟩ fuel c = some o ∧ Delivers S seed c o := by
    intro c hc
    refine serveSum_fine S seed junk (S.tree.child_mem hrn hc) ?_ fuel (by omega)
    intro x hx
    refine hfine x (S.tree.subtree_subset c hx) ?_
    rintro rfl
    have hle := S.tree.index_le_of_below (S.tree.mem_subtree.mp hx).2
    have hlt := S.tree.index_lt hrn hc
    exact absurd hlt (not_lt.mpr hle)
  choose! a ha using hchild
  obtain ⟨s, hs, hret, hsum, hranks⟩ := sumForward_fine (r := root) (f := f root)
    (j := junk root) (x := ⟨root, seed⟩) (a := a) (t := bcastTree arith n root)
    (S.childCount_eq_zero_iff hrn) hroot
  have hanswers : (bcastTree arith n root).children.map
      (serveSum arith n f junk ⟨root, seed⟩ fuel) =
      (bcastTree arith n root).children.map fun c => some (a c) :=
    List.map_congr_left fun c hc => (ha c hc).1
  refine ⟨{ ret := s.ret, sum := s.out.sum, ranks := s.out.ranks, calls := s.calls }, ?_, hret,
    delivers_of_children S hrn (fun c hc => (ha c hc).2) hsum hranks⟩
  simp [runSum, metasimRpcInvokeSum, hanswers, hs, hret]

theorem sum_range_mul_two (m : ℕ) : (∑ i ∈ Finset.range m, (i : ℤ)) * 2 = (m : ℤ) * (m - 1) := by
  induction m with
  | zero => rfl
  | succ m ih =>
    rw [Finset.sum_range_succ, add_mul, ih]
    push_cast
    ring

theorem sum_ranks (m : ℕ) (seed : ℤ) :
    ∑ x ∈ Finset.Ico (0 : ℤ) m, (x + seed) = (m : ℤ) * (m - 1) / 2 + m * seed := by
  have hsum : ∑ x ∈ Finset.Ico (0 : ℤ) m, (x + seed) = ∑ i ∈ Finset.range m, ((i : ℤ) + seed) := by
    symm
    refine Finset.sum_bij (fun i _ => (i : ℤ)) ?_ ?_ ?_ fun _ _ => rfl
    · intro i hi
      have := Finset.mem_range.mp hi
      exact Finset.mem_Ico.mpr ⟨by omega, by omega⟩
    · intro i _ j _ h
      exact Int.ofNat.inj h
    · intro x hx
      have := Finset.mem_Ico.mp hx
      exact ⟨x.toNat, Finset.mem_range.mpr (by omega), by omega⟩
  have hgauss := sum_range_mul_two m
  rw [hsum, Finset.sum_add_distrib, Finset.sum_const, Finset.card_range, nsmul_eq_mul]
  omega

/-- The complete total of a sum over `n` ranks. -/
def fullTotal (n seed : ℤ) : ℤ := n * (n - 1) / 2 + n * seed

theorem Sound.sum_tree (S : Sound arith n root 2) (seed : ℤ) :
    ∑ x ∈ S.tree.subtree root, (x + seed) = fullTotal n seed := by
  have hn : 0 ≤ n := by
    have := S.root_nonneg
    have := S.root_lt
    omega
  have hsub : S.tree.subtree root = S.tree.nodes := S.tree.subtree_root
  have h := sum_ranks n.toNat seed
  rw [Int.toNat_of_nonneg hn] at h
  rw [hsub, S.tree_nodes, h, fullTotal]

theorem Delivers.tallied {S : Sound arith n root 2} {o : SumOut} (h : Delivers S seed r o) :
    Tallied seed o := by
  obtain ⟨hsum, hnodup, hmem⟩ := h
  have hset : o.ranks.toFinset = S.tree.subtree r := by
    ext x
    rw [List.mem_toFinset, hmem]
  rw [Tallied, hsum, ← hset, List.sum_toFinset _ hnodup]

/-- In 32-bit arithmetic, whenever no call fails: `n` levels of recursion suffice, every rank
answers the wrapped sum over its subtree, and the root stores the full total, to which each
rank contributed once. -/
theorem sum_delivers_total {n root : ℤ} (hroot : 0 ≤ root ∧ root < n) (hn : 2 * n ≤ intMax)
    (seed before : ℤ) (junk : ℤ → Junk) (fuel : ℕ) (hfuel : n.toNat ≤ fuel) :
    (∀ r, 0 ≤ r ∧ r < n →
      ∃ o, serveSum wrapInt n (fun _ => {}) junk ⟨root, seed⟩ fuel r = some o ∧
        o.sum = wrapInt (o.ranks.map fun x => x + seed).sum ∧ o.ranks.Nodup ∧
        ∀ x, x ∈ o.ranks ↔ (0 ≤ x ∧ x < n) ∧ Descends wrapInt n root 2 x r) ∧
    ∃ i, runSum wrapInt n (fun _ => {}) junk root seed before fuel = some i ∧ i.ret = 0 ∧
      i.sum = wrapInt (n * (n - 1) / 2 + n * seed) ∧ i.ranks.Perm (rankList n) := by
  have S := sound_wrapInt hroot.1 hroot.2 le_rfl hn
  constructor
  · intro r hr
    obtain ⟨o, ho, hd⟩ := serveSum_fine (f := fun _ => {}) S seed junk (S.mem_nodes.mpr hr)
      (fun x _ => serverFine_default _) fuel (by omega)
    refine ⟨o, ho, hd.tallied, hd.2.1, ?_⟩
    intro x
    rw [hd.2.2, S.tree.mem_subtree, S.mem_nodes, S.below_iff_descends]
  · obtain ⟨i, hi, hret, hd⟩ := runSum_fine (f := fun _ => {}) S seed before junk
      (fun x _ _ => serverFine_default _) (serverFine_default _).2.2 hfuel
    refine ⟨i, hi, hret, hd.1.trans ?_, ?_⟩
    · rw [S.sum_tree, fullTotal]
    · have hsub : S.tree.subtree root = S.tree.nodes := S.tree.subtree_root
      refine (List.perm_ext_iff_of_nodup hd.2.1 (rankList_nodup n)).mpr fun x => ?_
      exact (hd.2.2 x).trans (by rw [hsub, S.mem_nodes, mem_rankList])

/-- Five servers, rank 3 asking with seed 7: ten and five times seven. -/
theorem sum_delivers_total_five :
    ∃ i, runSum wrapInt 5 (fun _ => {}) (fun _ => ⟨0, fun _ => 0⟩) 3 7 0 5 = some i ∧
      i.ret = 0 ∧ i.sum = 45 := by
  have hroot : (0 : ℤ) ≤ 3 ∧ (3 : ℤ) < 5 := by decide
  obtain ⟨i, hi, hret, hsum, _⟩ :=
    (sum_delivers_total hroot (by decide) 7 0 (fun _ => ⟨0, fun _ => 0⟩) 5 (by decide)).2
  exact ⟨i, hi, hret, hsum.trans (by decide)⟩

end Metasim
