import Metasim.SumTotal

/-! Failures inside one sum: a failed call below the root is answered as a smaller sum. -/
namespace Metasim

variable {arith : ℤ → ℤ} {n root seed before r : ℤ} {f : ℤ → SumCalls}

/-- Uninitialized memory that happens to be zero. -/
def zeroJunk : Junk := { out := 0, reply := fun _ => 0 }

theorem subtree_card_pos (S : Sound arith n root 2) {c : ℤ} (hc : c ∈ S.tree.nodes) :
    0 < (S.tree.subtree c).card :=
  Finset.card_pos.mpr ⟨c, S.tree.self_mem_subtree hc⟩

/-- Whatever fails below it, a server responds in time, and its answer counts all ranks of its
subtree only if none of them has a failed call. -/
theorem serveSum_some (S : Sound arith n root 2) (seed : ℤ) (hinput : ∀ x, (f x).getInput = 0)
    (hr : r ∈ S.tree.nodes) :
    ∀ fuel, n.toNat ≤ fuel + S.tree.index r →
      ∃ o, serveSum arith n f (fun _ => zeroJunk) ⟨root, seed⟩ fuel r = some o ∧
        Tallied seed o ∧ o.ranks.length ≤ (S.tree.subtree r).card ∧
        ((∃ x ∈ S.tree.subtree r, ¬ ServerFine (f x) (S.tree.children x)) →
          o.ranks.length < (S.tree.subtree r).card) := by
  refine S.tree.bottom_up hr ?_
  intro r hr ih fuel hfuel
  have hlt : S.tree.index r < n.toNat := by
    have hr := S.mem_nodes.mp hr
    have := S.dist_mem hr.1 hr.2
    change (dist n root r).toNat < n.toNat
    omega
  obtain ⟨fuel, rfl⟩ : ∃ m, fuel = m + 1 := ⟨fuel - 1, by omega⟩
  have hcard := S.tree.card_subtree hr
  by_cases hmalloc : S.tree.children r ≠ [] → (f r).malloc = true
  · have hchild : ∀ c ∈ S.tree.children r,
        ∃ o, serveSum arith n f (fun _ => zeroJunk) ⟨root, seed⟩ fuel c = some o ∧
          Tallied seed o ∧ o.ranks.length ≤ (S.tree.subtree c).card ∧
          ((∃ x ∈ S.tree.subtree c, ¬ ServerFine (f x) (S.tree.children x)) →
            o.ranks.length < (S.tree.subtree c).card) := by
      intro c hc
      have := S.tree.index_lt hr hc
      exact ih c hc fuel (by omega)
    choose! a ha using hchild
    obtain ⟨hkids, hcount⟩ := S.handlerTree_children seed hr hmalloc
    obtain ⟨s, hs, _, htally, hlen, hshort⟩ := sumForward_some (r := r) (f := f r)
      (j := zeroJunk) (x := ⟨root, seed⟩) (a := a)
      (w := fun c => (S.tree.subtree c).card) hcount rfl
      (fun c hc => (ha c (hkids ▸ hc)).2.1)
      (fun c hc => ⟨subtree_card_pos S (S.tree.child_mem hr (hkids ▸ hc)),
        (ha c (hkids ▸ hc)).2.2.1⟩)
    have hanswers : (handlerTree arith n r (f r) ⟨root, seed⟩).children.map
        (serveSum arith n f (fun _ => zeroJunk) ⟨root, seed⟩ fuel) =
        (handlerTree arith n r (f r) ⟨root, seed⟩).children.map fun c => some (a c) :=
      List.map_congr_left fun c hc => (ha c (hkids ▸ hc)).1
    rw [hkids, ← hcard] at hlen hshort
    refine ⟨s.out, ?_, htally, hlen, ?_⟩
    · simp [serveSum, metasimRpcHandleSum, hinput, hanswers, hs]
    · rintro ⟨x, hx, hbad⟩
      apply hshort
      rw [S.tree.subtree_eq hr, Finset.mem_insert, Finset.mem_biUnion] at hx
      rcases hx with rfl | ⟨c, hc, hx⟩
      · exact Or.inl fun h => hbad ⟨hinput x, hmalloc, h⟩
      · have hc := List.mem_toFinset.mp hc
        exact Or.inr ⟨c, hc, (ha c hc).2.2.2 ⟨x, hx, hbad⟩⟩
  · -- without its child array an inner rank answers like a leaf
    obtain ⟨hne, hfail⟩ := Classical.not_imp.mp hmalloc
    obtain ⟨hcount, hnil⟩ := handlerTree_of_no_malloc (Bool.not_eq_true _ ▸ hfail) arith n r
      ⟨root, seed⟩
    obtain ⟨c, hc⟩ := List.exists_mem_of_ne_nil _ hne
    have hpos : 0 < ((S.tree.children r).map fun c => (S.tree.subtree c).card).sum :=
      (subtree_card_pos S (S.tree.child_mem hr hc)).trans_le
        (List.single_le_sum (by simp) _ (List.mem_map_of_mem hc))
    refine ⟨addOwn r seed { sum := 0, ranks := [] }, ?_, (tallied_zero seed).addOwn r, ?_, ?_⟩
    · simp [serveSum, metasimRpcHandleSum, hinput, sumForward, hcount]
    · simp only [addOwn, List.nil_append, List.length_singleton]
      omega
    · intro _
      simp only [addOwn, List.nil_append, List.length_singleton]
      omega

/-- The calls of `sum_forward` whose failure the root reports. -/
def RootAborts (f : SumCalls) (cs : List ℤ) : Prop :=
  cs ≠ [] ∧ (f.calloc = false ∨ ∃ c ∈ cs, f.create c ≠ 0 ∨ f.iforward c ≠ 0 ∨ f.wait c ≠ 0)

theorem not_rootAborts_iff {f : SumCalls} {cs : List ℤ} :
    ¬ RootAborts f cs ↔ (cs ≠ [] → f.calloc = true ∧
      ∀ c ∈ cs, (f.create c = 0 ∧ f.iforward c = 0) ∧ f.wait c = 0) := by
  unfold RootAborts
  cases f.calloc <;> grind

theorem runSum_some (S : Sound arith n root 2) (seed before : ℤ)
    (hinput : ∀ x, (f x).getInput = 0) {fuel : ℕ} (hfuel : n.toNat ≤ fuel) :
    ∃ i, runSum arith n f (fun _ => zeroJunk) root seed before fuel = some i ∧
      (i.ret = 0 ↔ ¬ RootAborts (f root) (S.tree.children root)) ∧
      (i.ret = 0 → Tallied seed { sum := i.sum, ranks := i.ranks }) ∧
      ((¬ CallsFine (f root) (S.tree.children root) ∨
        ∃ x ∈ S.tree.nodes, x ≠ root ∧ ¬ ServerFine (f x) (S.tree.children x)) →
        i.ranks.length < S.tree.nodes.card) := by
  have hrn := S.tree.root_mem
  have hchild : ∀ c ∈ S.tree.children root,
      ∃ o, serveSum arith n f (fun _ => zeroJunk) ⟨root, seed⟩ fuel c = some o ∧
        Tallied seed o ∧ o.ranks.length ≤ (S.tree.subtree c).card ∧
        ((∃ x ∈ S.tree.subtree c, ¬ ServerFine (f x) (S.tree.children x)) →
          o.ranks.length < (S.tree.subtree c).card) := fun c hc =>
    serveSum_some S seed hinput (S.tree.child_mem hrn hc) fuel (by omega)
  choose! a ha using hchild
  obtain ⟨s, hs, hret, htally, _, hshort⟩ := sumForward_some (r := root) (f := f root)
    (j := zeroJunk) (x := ⟨root, seed⟩) (a := a) (t := bcastTree arith n root)
    (w := fun c => (S.tree.subtree c).card) (S.childCount_eq_zero_iff hrn) rfl
    (fun c hc => (ha c hc).2.1)
    (fun c hc => ⟨subtree_card_pos S (S.tree.child_mem hrn hc), (ha c hc).2.2.1⟩)
  have hanswers : (bcastTree arith n root).children.map
      (serveSum arith n f (fun _ => zeroJunk) ⟨root, seed⟩ fuel) =
      (bcastTree arith n root).children.map fun c => some (a c) :=
    List.map_congr_left fun c hc => (ha c hc).1
  refine ⟨{ ret := s.ret, sum := if s.ret ≠ 0 then before else s.out.sum,
            ranks := s.out.ranks, calls := s.calls }, ?_, ?_, ?_, ?_⟩
  · simp [runSum, metasimRpcInvokeSum, hanswers, hs]
  · rw [not_rootAborts_iff]
    exact hret
  · intro h0
    have h0 : s.ret = 0 := h0
    simpa only [h0, ne_eq, not_true_eq_false, if_false] using htally
  · intro hbad
    have hcard := S.tree.card_subtree hrn
    rw [S.tree.subtree_root] at hcard
    rw [hcard]
    refine hshort (hbad.imp id ?_)
    rintro ⟨x, hx, hne, hfail⟩
    have hxs := S.tree.subtree_root ▸ hx
    rw [S.tree.subtree_eq hrn, Finset.mem_insert, Finset.mem_biUnion] at hxs
    rcases hxs with rfl | ⟨c, hc, hxc⟩
    · exact (hne rfl).elim
    · have hc := List.mem_toFinset.mp hc
      exact ⟨c, hc, (ha c hc).2.2.2 ⟨x, hxc, hfail⟩⟩

/-! ## Which ranks are added does not depend on the seed -/

/-- What of a forwarded result is the same for every seed. -/
def shape (s : Forwarded) : ℤ × List ℤ := (s.ret, s.out.ranks)

theorem collectReplies_cons_shape {f : SumCalls} {j : Junk} {c : ℤ} {a acc : SumOut}
    {l : List (ℤ × Option SumOut)} (hw : f.wait c = 0) :
    (collectReplies f j ((c, some a) :: l) acc).map shape =
      (collectReplies f j l ⟨wrapInt (acc.sum + (received f j c a).sum),
        acc.ranks ++ (received f j c a).ranks⟩).map shape := by
  rw [collectReplies_cons hw, Option.map_map]
  rfl

theorem collectReplies_shape {f : SumCalls} (j j' : Junk) {cs : List ℤ}
    {g g' : ℤ → Option SumOut} {acc acc' : SumOut}
    (hg : ∀ c ∈ cs, (g c).map SumOut.ranks = (g' c).map SumOut.ranks)
    (hacc : acc.ranks = acc'.ranks) :
    (collectReplies f j (cs.map fun c => (c, g c)) acc).map shape =
      (collectReplies f j' (cs.map fun c => (c, g' c)) acc').map shape := by
  induction cs generalizing acc acc' with
  | nil => simp [collectReplies, shape, hacc]
  | cons c cs ih =>
    have hc := hg c List.mem_cons_self
    have htail := fun d hd => hg d (List.mem_cons_of_mem c hd)
    simp only [List.map_cons]
    by_cases hw : f.wait c = 0
    · cases hx : g c with
      | none =>
        cases hy : g' c with
        | none => simp [collectReplies, hw]
        | some b => simp [hx, hy] at hc
      | some a =>
        cases hy : g' c with
        | none => simp [hx, hy] at hc
        | some b =>
          have hab : (received f j c a).ranks = (received f j' c b).ranks := by
            have : a.ranks = b.ranks := by simpa [hx, hy] using hc
            unfold received
            split_ifs <;> simp [this]
          rw [collectReplies_cons_shape hw, collectReplies_cons_shape hw]
          exact ih htail (by rw [hacc, hab])
    · simp [collectReplies, hw, shape, hacc]

theorem sumForward_shape {f : SumCalls} (j j' : Junk) {t : RpcTree} {x y : SumIn}
    {g g' : ℤ → Option SumOut}
    (hg : ∀ c ∈ t.children, (g c).map SumOut.ranks = (g' c).map SumOut.ranks) :
    (sumForward r f j t x (t.children.map g)).map shape =
      (sumForward r f j' t y (t.children.map g')).map shape := by
  simp only [sumForward, zip_answers]
  split_ifs
  · simp [shape, addOwn]
  · simp [shape]
  · simp [shape, addOwn]
  · have h := collectReplies_shape (f := f) j j' hg (Eq.refl (SumOut.mk 0 []).ranks)
    generalize collectReplies f j _ _ = s at h ⊢
    generalize collectReplies f j' _ _ = s' at h ⊢
    cases s <;> cases s' <;> simp_all [shape, addOwn]

theorem serveSum_shape (arith : ℤ → ℤ) (n root : ℤ) (f : ℤ → SumCalls) (j j' : ℤ → Junk)
    (seed seed' : ℤ) (fuel : ℕ) (r : ℤ) :
    (serveSum arith n f j ⟨root, seed⟩ fuel r).map SumOut.ranks =
      (serveSum arith n f j' ⟨root, seed'⟩ fuel r).map SumOut.ranks := by
  induction fuel generalizing r with
  | zero => rfl
  | succ fuel ih =>
    have h := sumForward_shape (r := r) (f := f r) (j r) (j' r)
      (t := handlerTree arith n r (f r) ⟨root, seed⟩) (x := ⟨root, seed⟩) (y := ⟨root, seed'⟩)
      fun c _ => ih c
    simp only [serveSum, metasimRpcHandleSum]
    by_cases hi : (f r).getInput = 0
    · have htree : handlerTree arith n r (f r) ⟨root, seed'⟩ =
        handlerTree arith n r (f r) ⟨root, seed⟩ := rfl
      simp only [hi, htree]
      generalize sumForward r (f r) (j r) _ _ _ = s at h ⊢
      generalize sumForward r (f r) (j' r) _ _ _ = s' at h ⊢
      cases s <;> cases s' <;> simp_all [shape]
    · simp [hi]

theorem runSum_shape (arith : ℤ → ℤ) (n root : ℤ) (f : ℤ → SumCalls) (j j' : ℤ → Junk)
    (seed seed' before : ℤ) (fuel : ℕ) :
    (runSum arith n f j root seed before fuel).map (fun i => (i.ret, i.ranks)) =
      (runSum arith n f j' root seed' before fuel).map fun i => (i.ret, i.ranks) := by
  have h := sumForward_shape (r := root) (f := f root) (j root) (j' root)
    (t := bcastTree arith n root) (x := ⟨root, seed⟩) (y := ⟨root, seed'⟩)
    fun c _ => serveSum_shape arith n root f j j' seed seed' fuel c
  simp only [runSum, metasimRpcInvokeSum]
  generalize sumForward root (f root) (j root) _ _ _ = s at h ⊢
  generalize sumForward root (f root) (j' root) _ _ _ = s' at h ⊢
  cases s <;> cases s' <;> simp_all [shape]

/-- The invocation returns, and whether it reports an error is the root's affair alone. -/
theorem runSum_returns (S : Sound arith n root 2) (hinput : ∀ x, (f x).getInput = 0)
    (seed before : ℤ) (j : ℤ → Junk) {fuel : ℕ} (hfuel : n.toNat ≤ fuel) :
    ∃ i, runSum arith n f j root seed before fuel = some i ∧
      (i.ret = 0 ↔ ¬ RootAborts (f root) (S.tree.children root)) := by
  obtain ⟨z, hz, hret, _⟩ := runSum_some S seed before hinput hfuel
  have h := runSum_shape arith n root f (fun _ => zeroJunk) j seed seed before fuel
  rw [hz] at h
  cases hi : runSum arith n f j root seed before fuel with
  | none => simp [hi] at h
  | some i =>
    have : z.ret = i.ret := by
      simp only [hi, Option.map_some, Option.some.injEq, Prod.mk.injEq] at h
      exact h.1
    exact ⟨i, rfl, by rw [← this, hret]⟩

theorem runSum_before {j : ℤ → Junk} {fuel : ℕ} {i : Invoked}
    (hi : runSum arith n f j root seed before fuel = some i) (hret : i.ret ≠ 0) :
    i.sum = before := by
  obtain ⟨s, _, hs⟩ := Option.bind_eq_some_iff.mp hi
  cases hs
  exact if_pos hret

theorem sum_map_add (l : List ℤ) (b : ℤ) :
    (l.map fun x => x + b).sum = (l.map fun x => x + 0).sum + l.length * b := by
  induction l with
  | nil => simp
  | cons a l ih =>
    simp only [List.map_cons, List.sum_cons, List.length_cons, ih]
    push_cast
    ring

theorem wrapInt_emod (a : ℤ) : wrapInt a % 4294967296 = a % 4294967296 := Int.bmod_emod

/-- Fewer than `n` ranks do not give the total for seed 0 as well as for seed 1. -/
theorem short_tally {l : List ℤ} (hn : n ≤ intMax) (hlen : (l.length : ℤ) < n)
    (h0 : wrapInt (l.map fun x => x + 0).sum = wrapInt (fullTotal n 0))
    (h1 : wrapInt (l.map fun x => x + 1).sum = wrapInt (fullTotal n 1)) : False := by
  rw [sum_map_add] at h1
  have e0 := congrArg (· % 4294967296) h0
  have e1 := congrArg (· % 4294967296) h1
  simp only [wrapInt_emod, fullTotal] at e0 e1
  unfold intMax at hn
  omega

/-- The invocation at `root` returns; success means the total, an error that `*sum` is as
before. -/
def AllOrNothing (arith : ℤ → ℤ) (n root : ℤ) (f : ℤ → SumCalls) : Prop :=
  ∀ seed before junk fuel, n.toNat ≤ fuel →
    ∃ i, runSum arith n f junk root seed before fuel = some i ∧
      (i.ret = 0 → i.sum = wrapInt (n * (n - 1) / 2 + n * seed)) ∧ (i.ret ≠ 0 → i.sum = before)

/-- A sum is all or nothing if and only if the root itself aborts, or no call that is made
fails: the root's `margo_get_output` and every failure below the root go unreported. -/
theorem sum_all_or_nothing_iff {arith : ℤ → ℤ} {n root : ℤ} {f : ℤ → SumCalls}
    (hroot : 0 ≤ root ∧ root < n) (hexact : ExactFor arith n 2) (hn : n ≤ intMax)
    (hinput : ∀ r, (f r).getInput = 0) :
    AllOrNothing arith n root f ↔
      RootAborts (f root) (localTree arith n root 2 root).children ∨
      (CallsFine (f root) (localTree arith n root 2 root).children ∧
        ∀ r, 0 ≤ r ∧ r < n → r ≠ root →
          ServerFine (f r) (localTree arith n root 2 r).children) := by
  have S : Sound arith n root 2 := ⟨hroot.1, hroot.2, one_le_two, hexact⟩
  constructor
  · intro h
    by_contra hbad
    obtain ⟨habort, hfail⟩ := not_or.mp hbad
    have hfail : ¬ CallsFine (f root) (S.tree.children root) ∨
        ∃ x ∈ S.tree.nodes, x ≠ root ∧ ¬ ServerFine (f x) (S.tree.children x) := by
      by_contra hfine
      obtain ⟨hr, hfine⟩ := not_or.mp hfine
      refine hfail ⟨not_not.mp hr, fun x hx hne => ?_⟩
      by_contra hx'
      exact hfine ⟨x, S.mem_nodes.mpr hx, hne, hx'⟩
    obtain ⟨i, hi, hret, hi0, hshort⟩ := runSum_some (f := f) S 0 0 hinput le_rfl
    obtain ⟨k, hk, hret', hk1, _⟩ := runSum_some (f := f) S 1 0 hinput le_rfl
    have hranks : i.ranks = k.ranks := by
      have := runSum_shape arith n root f (fun _ => zeroJunk) (fun _ => zeroJunk) 0 1 0 n.toNat
      simp only [hi, hk, Option.map_some, Option.some.injEq, Prod.mk.injEq] at this
      exact this.2
    obtain ⟨_, hi', hfull, _⟩ := h 0 0 (fun _ => zeroJunk) n.toNat le_rfl
    obtain ⟨_, hk', hfull', _⟩ := h 1 0 (fun _ => zeroJunk) n.toNat le_rfl
    cases Option.some.inj (hi.symm.trans hi')
    cases Option.some.inj (hk.symm.trans hk')
    have hi0 := hi0 (hret.mpr habort)
    have hk1 := hk1 (hret'.mpr habort)
    have hcard : S.tree.nodes.card = n.toNat := by
      rw [S.tree_nodes, Int.card_Ico, sub_zero]
    have hlen := hshort hfail
    refine short_tally (l := i.ranks) hn (by omega) ?_ ?_
    · exact hi0.symm.trans (hfull (hret.mpr habort))
    · rw [hranks]
      exact hk1.symm.trans (hfull' (hret'.mpr habort))
  · rintro h seed before junk fuel hfuel
    rcases h with h | ⟨hcalls, hfine⟩
    · obtain ⟨i, hi, hret⟩ := runSum_returns S hinput seed before junk hfuel
      exact ⟨i, hi, fun h0 => absurd h (hret.mp h0), runSum_before hi⟩
    · obtain ⟨i, hi, hret, hd⟩ := runSum_fine S seed before junk
        (fun x hx hne => hfine x (S.mem_nodes.mp hx) hne) hcalls hfuel
      refine ⟨i, hi, fun _ => hd.1.trans ?_, fun h0 => absurd hret h0⟩
      rw [S.sum_tree, fullTotal]

/-- Four servers, rank 0 asking with seed 0; rank 1 cannot wait for its child, rank 3. -/
def waitFails : ℤ → SumCalls :=
  fun r => if r = 1 then { wait := fun _ => 1 } else {}

/-- The root reports success, with 3 for a sum. -/
theorem wait_failure_unreported :
    ∃ i, runSum wrapInt 4 waitFails (fun _ => zeroJunk) 0 0 0 4 = some i ∧ i.ret = 0 ∧
      i.sum = 3 ∧ i.sum ≠ wrapInt (4 * (4 - 1) / 2 + 4 * 0) := by
  refine ⟨_, rfl, ?_, ?_, ?_⟩ <;> decide

/-- Failures of the root's own calls are reported: without memory for its request array the
root leaves `*sum` alone, and the ranks below are not asked. -/
theorem sum_all_or_nothing_root_calloc :
    AllOrNothing wrapInt 4 0 fun r =>
      if r = 0 then { calloc := false } else { wait := fun _ => 1 } := by
  have hexact := exactFor_wrapInt (n := 4) (by decide) le_rfl (by decide)
  refine (sum_all_or_nothing_iff (by decide) hexact (by decide) ?_).mpr (Or.inl ?_)
  · intro r
    split_ifs <;> rfl
  · exact ⟨by decide, Or.inl rfl⟩

end Metasim
