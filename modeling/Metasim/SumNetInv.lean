import Metasim.SumNet

/-! The invariant of concurrent sums: every handle against its thread, its requests and the
answers it holds. -/
namespace Metasim

variable {arith : ℤ → ℤ} {n v w : ℤ} {calls : List SumIn} {c d : SumIn} {h g : Handle}
  {s u : SumNet} {i j : ℕ}

theorem sound_of_exact (hexact : ExactFor arith n 2)
    (hroots : ∀ c ∈ calls, 0 ≤ c.root ∧ c.root < n) :
    ∀ c ∈ calls, Sound arith n c.root 2 := fun c hc =>
  ⟨(hroots c hc).1, (hroots c hc).2, one_le_two, hexact⟩

def SumRpc.level : SumRpc → ℕ
  | .unused => 0
  | .sent _ _ => 1
  | .running => 2
  | .responded _ => 3
  | .arrived _ => 4
  | .completed => 5

open Classical in
/-- The sum over the subtree of `v` in the tree of call `c`, in 32 bits. -/
noncomputable def subtreeTotal (arith : ℤ → ℤ) (n : ℤ) (c : SumIn) (v : ℤ) : ℤ :=
  wrapInt (∑ x ∈ (Finset.Ico 0 n).filter fun x => Descends arith n c.root 2 x v, (x + c.seed))

theorem subtreeTotal_eq (S : Sound arith n c.root 2) (v : ℤ) :
    subtreeTotal arith n c v = wrapInt (∑ x ∈ S.tree.subtree v, (x + c.seed)) := by
  refine congrArg wrapInt (Finset.sum_congr ?_ fun _ _ => rfl)
  ext x
  simp only [Finset.mem_filter, S.tree.mem_subtree, S.below_iff_descends]
  rfl

theorem subtreeTotal_root (S : Sound arith n c.root 2) :
    subtreeTotal arith n c c.root = wrapInt (fullTotal n c.seed) := by
  rw [subtreeTotal_eq S, S.sum_tree]

/-- A rank's own value and the totals of its children. -/
theorem subtreeTotal_kids (S : Sound arith n c.root 2) (hv : v ∈ S.tree.nodes) :
    subtreeTotal arith n c v =
      wrapInt (v + c.seed + ((kids arith n c v).map (subtreeTotal arith n c)).sum) := by
  have hmap : (kids arith n c v).map (subtreeTotal arith n c) =
      (kids arith n c v).map fun x => wrapInt (∑ y ∈ S.tree.subtree x, (y + c.seed)) :=
    List.map_congr_left fun x _ => subtreeTotal_eq S x
  rw [hmap, wrapInt_sum_map, subtreeTotal_eq S, S.tree.sum_subtree _ hv]
  rfl

/-! ## The invariant -/

/-- A thread that serves rank `v` for call `c`. -/
structure FrameOk (arith : ℤ → ℤ) (n : ℤ) (c : SumIn) (v : ℤ) (F : SumFrame) : Prop where
  rank : F.rank = v
  input : F.input = c
  tree : F.tree = localTree arith n c.root 2 v
  issued_le : F.issued ≤ (kids arith n c v).length
  collected_le : F.collected ≤ F.issued
  collecting : 0 < F.collected → F.issued = (kids arith n c v).length
  sum : F.sum = wrapInt (((kids arith n c v).take F.collected).map (subtreeTotal arith n c)).sum

/-- A handle before its handler runs, while it runs, and after. -/
inductive ServerOk (arith : ℤ → ℤ) (n : ℤ) (c : SumIn) (v : ℤ) (s : SumNet) (h : Handle) : Prop
  | before : s.frame h = none → (s.rpc h = .unused ∨ h.path ≠ [] ∧ s.rpc h = .sent v c) →
      (∀ j < (kids arith n c v).length, s.rpc (h.child j) = .unused) → ServerOk arith n c v s h
  | during (F : SumFrame) : s.frame h = some F → s.rpc h = .running → FrameOk arith n c v F →
      (∀ j < F.collected, s.rpc (h.child j) = .completed) →
      (∀ j < F.issued, F.collected ≤ j →
        1 ≤ (s.rpc (h.child j)).level ∧ (s.rpc (h.child j)).level ≤ 4) →
      (∀ j < (kids arith n c v).length, F.issued ≤ j → s.rpc (h.child j) = .unused) →
      ServerOk arith n c v s h
  | after : s.frame h = none → (s.rpc h = .completed ∨ h.path ≠ [] ∧
        (s.rpc h = .responded (subtreeTotal arith n c v) ∨
          s.rpc h = .arrived (subtreeTotal arith n c v))) →
      (∀ j < (kids arith n c v).length, s.rpc (h.child j) = .completed) → ServerOk arith n c v s h

structure NetInv (arith : ℤ → ℤ) (n : ℤ) (calls : List SumIn) (s : SumNet) : Prop where
  server : ∀ h c v, h.At arith n calls c v → ServerOk arith n c v s h
  elsewhere : ∀ h, (∀ c v, ¬ h.At arith n calls c v) → s.rpc h = .unused ∧ s.frame h = none
  result : ∀ i x, s.result i = some x ↔
    ∃ c, calls[i]? = some c ∧ s.rpc ⟨i, []⟩ = .completed ∧ x = subtreeTotal arith n c c.root

theorem netInv_start : NetInv arith n calls SumNet.start := by
  constructor
  · intro h c v _
    exact .before rfl (Or.inl rfl) fun _ _ => rfl
  · intro h _
    exact ⟨rfl, rfl⟩
  · intro i x
    simp [SumNet.start]

/-- A server is as before where its thread, its handle and its requests are. -/
theorem ServerOk.congr (hs : ServerOk arith n c v s h) (hf : u.frame h = s.frame h)
    (hr : u.rpc h = s.rpc h) (hk : ∀ j, u.rpc (h.child j) = s.rpc (h.child j)) :
    ServerOk arith n c v u h := by
  cases hs with
  | before h1 h2 h3 =>
    exact .before (hf.trans h1) (by rwa [hr]) fun j hj => (hk j).trans (h3 j hj)
  | during F h1 h2 h3 h4 h5 h6 =>
    refine .during F (hf.trans h1) (hr.trans h2) h3 ?_ ?_ ?_
    · exact fun j hj => (hk j).trans (h4 j hj)
    · exact fun j hj hc => by rw [hk]; exact h5 j hj hc
    · exact fun j hj hi => (hk j).trans (h6 j hj hi)
  | after h1 h2 h3 =>
    exact .after (hf.trans h1) (by rwa [hr]) fun j hj => (hk j).trans (h3 j hj)

/-- To the server that issued it, a request stays outstanding until it is collected. -/
theorem ServerOk.outstanding (hs : ServerOk arith n c v s h) (hf : u.frame h = s.frame h)
    (hr : u.rpc h = s.rpc h) (hk : ∀ i, i ≠ j → u.rpc (h.child i) = s.rpc (h.child i))
    (hj : j < (kids arith n c v).length)
    (h1 : 1 ≤ (s.rpc (h.child j)).level ∧ (s.rpc (h.child j)).level ≤ 4)
    (h2 : 1 ≤ (u.rpc (h.child j)).level ∧ (u.rpc (h.child j)).level ≤ 4) :
    ServerOk arith n c v u h := by
  cases hs with
  | before _ _ h3 => simp [h3 j hj, SumRpc.level] at h1
  | after _ _ h3 => simp [h3 j hj, SumRpc.level] at h1
  | during F hF hrun hok h4 h5 h6 =>
    have hcol : F.collected ≤ j := by
      by_contra hlt
      simp [h4 j (by omega), SumRpc.level] at h1
    have hiss : j < F.issued := by
      by_contra hle
      simp [h6 j hj (by omega), SumRpc.level] at h1
    refine .during F (hf.trans hF) (hr.trans hrun) hok ?_ ?_ ?_
    · intro i hi
      exact (hk i (by omega)).trans (h4 i hi)
    · intro i hi hc
      by_cases hij : i = j
      · exact hij ▸ h2
      · rw [hk i hij]
        exact h5 i hi hc
    · intro i hi hle
      exact (hk i (by omega)).trans (h6 i hi hle)

section Inv

variable (hI : NetInv arith n calls s)
include hI

theorem NetInv.at_of_rpc (hr : s.rpc h ≠ .unused) : ∃ c v, h.At arith n calls c v := by
  by_contra hno
  simp only [not_exists] at hno
  exact hr (hI.elsewhere h hno).1

/-- What is known of a thread. -/
theorem NetInv.running {F : SumFrame} (hF : s.frame h = some F) :
    ∃ c v, h.At arith n calls c v ∧ s.rpc h = .running ∧ FrameOk arith n c v F ∧
      (∀ j < F.collected, s.rpc (h.child j) = .completed) ∧
      (∀ j < F.issued, F.collected ≤ j →
        1 ≤ (s.rpc (h.child j)).level ∧ (s.rpc (h.child j)).level ≤ 4) ∧
      ∀ j < (kids arith n c v).length, F.issued ≤ j → s.rpc (h.child j) = .unused := by
  have hat : ∃ c v, h.At arith n calls c v := by
    by_contra hno
    simp only [not_exists] at hno
    simp [(hI.elsewhere h hno).2] at hF
  obtain ⟨c, v, hat⟩ := hat
  cases hI.server h c v hat with
  | before hnone => simp [hnone] at hF
  | after hnone => simp [hnone] at hF
  | during G hG hr hok h1 h2 h3 =>
    obtain rfl := Option.some.inj (hG.symm.trans hF)
    exact ⟨c, v, hat, hr, hok, h1, h2, h3⟩

/-- What is known of a request no server has taken yet. -/
theorem NetInv.sent {r : ℤ} {x : SumIn} (hsent : s.rpc h = .sent r x) :
    h.At arith n calls x r ∧ h.path ≠ [] := by
  obtain ⟨c, v, hat⟩ := hI.at_of_rpc (h := h) (by simp [hsent])
  cases hI.server h c v hat with
  | before _ hr =>
    rcases hr with hr | ⟨hp, hr⟩
    · simp [hr] at hsent
    · rw [hsent, SumRpc.sent.injEq] at hr
      obtain ⟨rfl, rfl⟩ := hr
      exact ⟨hat, hp⟩
  | during _ _ hr => simp [hr] at hsent
  | after _ hr => rcases hr with hr | ⟨_, hr | hr⟩ <;> simp [hr] at hsent

/-- What is known of an answer, before and after it is at the server that asked. -/
theorem NetInv.answered {x : ℤ} (hans : s.rpc h = .responded x ∨ s.rpc h = .arrived x) :
    ∃ c v, h.At arith n calls c v ∧ h.path ≠ [] ∧ x = subtreeTotal arith n c v ∧
      s.frame h = none ∧ ∀ j < (kids arith n c v).length, s.rpc (h.child j) = .completed := by
  obtain ⟨c, v, hat⟩ := hI.at_of_rpc (h := h) (by rcases hans with hr | hr <;> simp [hr])
  refine ⟨c, v, hat, ?_⟩
  cases hI.server h c v hat with
  | before _ hr => rcases hr with hr | ⟨_, hr⟩ <;> simp [hr] at hans
  | during _ _ hr => simp [hr] at hans
  | after hf hr hk =>
    rcases hr with hr | ⟨hp, hr | hr⟩
    · simp [hr] at hans
    · exact ⟨hp, by simpa [hr, eq_comm] using hans, hf, hk⟩
    · exact ⟨hp, by simpa [hr, eq_comm] using hans, hf, hk⟩

theorem NetInv.of_server (hserver : ∀ h c v, h.At arith n calls c v → ServerOk arith n c v u h)
    (helse : ∀ h, (∀ c v, ¬ h.At arith n calls c v) →
      u.rpc h = s.rpc h ∧ u.frame h = s.frame h)
    (hresult : u.result = s.result)
    (hroot : ∀ i, u.rpc ⟨i, []⟩ = .completed ↔ s.rpc ⟨i, []⟩ = .completed) :
    NetInv arith n calls u := by
  refine ⟨hserver, ?_, ?_⟩
  · intro h hno
    obtain ⟨hr, hf⟩ := helse h hno
    rw [hr, hf]
    exact hI.elsewhere h hno
  · intro i x
    rw [hresult, hroot, hI.result]

/-- One handle moves from one outstanding state to another, with its own thread. -/
theorem NetInv.move (hat : h.At arith n calls c v) (hpath : h.path ≠ [])
    (hf : ∀ g, g ≠ h → u.frame g = s.frame g) (hr : ∀ g, g ≠ h → u.rpc g = s.rpc g)
    (hresult : u.result = s.result)
    (h1 : 1 ≤ (s.rpc h).level ∧ (s.rpc h).level ≤ 4)
    (h2 : 1 ≤ (u.rpc h).level ∧ (u.rpc h).level ≤ 4)
    (hown : ServerOk arith n c v u h) : NetInv arith n calls u := by
  refine hI.of_server ?_ ?_ hresult ?_
  · intro g d w hg
    by_cases hgh : g = h
    · subst hgh
      obtain ⟨rfl, rfl⟩ := at_unique hat hg
      exact hown
    · by_cases hchild : ∃ j, h = g.child j
      · obtain ⟨j, rfl⟩ := hchild
        have hj : j < (kids arith n d w).length := by
          obtain ⟨w', hw', hj⟩ := at_child_iff.mp hat
          obtain ⟨rfl, rfl⟩ := at_unique hw' hg
          exact (List.getElem?_eq_some_iff.mp hj).1
        refine (hI.server g d w hg).outstanding (hf g hgh) (hr g hgh) ?_ hj h1 h2
        intro i hij
        exact hr _ fun heq => hij (Handle.child_inj.mp heq).2
      · refine (hI.server g d w hg).congr (hf g hgh) (hr g hgh) fun j => hr _ ?_
        exact fun heq => hchild ⟨j, heq.symm⟩
  · intro g hno
    have hgh : g ≠ h := by
      rintro rfl
      exact hno c v hat
    exact ⟨hr g hgh, hf g hgh⟩
  · intro i
    have hne : (⟨i, []⟩ : Handle) ≠ h := by
      rintro rfl
      exact hpath rfl
    rw [hr _ hne]

/-- A thread acts on its request `j`. -/
theorem NetInv.act (hat : h.At arith n calls c v) (hj : (kids arith n c v)[j]? = some w)
    (hf : ∀ g, g ≠ h → u.frame g = s.frame g) (hr : ∀ g, g ≠ h.child j → u.rpc g = s.rpc g)
    (hresult : u.result = s.result)
    (hown : ServerOk arith n c v u h) (hrequest : ServerOk arith n c w u (h.child j)) :
    NetInv arith n calls u := by
  have hatj : (h.child j).At arith n calls c w := at_child_iff.mpr ⟨v, hat, hj⟩
  refine hI.of_server ?_ ?_ hresult ?_
  · intro g d x hg
    by_cases hgh : g = h
    · subst hgh
      obtain ⟨rfl, rfl⟩ := at_unique hat hg
      exact hown
    · by_cases hgj : g = h.child j
      · subst hgj
        obtain ⟨rfl, rfl⟩ := at_unique hatj hg
        exact hrequest
      · refine (hI.server g d x hg).congr (hf g hgh) (hr g hgj) fun i => hr _ ?_
        exact fun heq => hgh (Handle.child_inj.mp heq).1
  · intro g hno
    have hgh : g ≠ h := by
      rintro rfl
      exact hno c v hat
    have hgj : g ≠ h.child j := by
      rintro rfl
      exact hno c w hatj
    exact ⟨hr g hgj, hf g hgh⟩
  · intro i
    have hne : (⟨i, []⟩ : Handle) ≠ h.child j := fun heq =>
      h.child_path j (congrArg Handle.path heq).symm
    rw [hr _ hne]

/-- A thread without requests to children, just started. -/
theorem NetInv.enter (hat : h.At arith n calls c v) (hbefore : (s.rpc h).level ≤ 1) :
    ServerOk arith n c v ((s.setRpc h .running).setFrame h
      (some (.enter v c (localTree arith n c.root 2 v)))) h := by
  cases hI.server h c v hat with
  | during F _ hr => simp [hr, SumRpc.level] at hbefore
  | after _ hr =>
    rcases hr with hr | ⟨_, hr | hr⟩ <;> simp [hr, SumRpc.level] at hbefore
  | before _ _ hkids =>
    refine .during (.enter v c (localTree arith n c.root 2 v)) ?_ ?_ ?_ ?_ ?_ ?_
    · simp [SumNet.frame_setFrame]
    · simp [SumNet.rpc_setRpc]
    · exact ⟨rfl, rfl, rfl, Nat.zero_le _, le_rfl, fun h => absurd h (lt_irrefl 0), rfl⟩
    · intro j hj
      exact absurd hj (Nat.not_lt_zero j)
    · intro j hj
      exact absurd hj (Nat.not_lt_zero j)
    · intro j hj _
      rw [SumNet.rpc_setFrame, SumNet.rpc_setRpc, if_neg (h.child_ne j)]
      exact hkids j hj

/-- A call and its thread change; no server has the call for a request. -/
theorem NetInv.call (hc : calls[i]? = some c) (hf : ∀ g, g ≠ ⟨i, []⟩ → u.frame g = s.frame g)
    (hr : ∀ g, g ≠ ⟨i, []⟩ → u.rpc g = s.rpc g)
    (hresult : ∀ k, k ≠ i → u.result k = s.result k)
    (hval : ∀ x, u.result i = some x ↔
      u.rpc ⟨i, []⟩ = .completed ∧ x = subtreeTotal arith n c c.root)
    (hown : ServerOk arith n c c.root u ⟨i, []⟩) : NetInv arith n calls u := by
  have hchild : ∀ (g : Handle) (j : ℕ), g.child j ≠ ⟨i, []⟩ := fun g j heq =>
    g.child_path j (congrArg Handle.path heq)
  refine ⟨?_, ?_, ?_⟩
  · intro g d w hg
    by_cases hgi : g = ⟨i, []⟩
    · subst hgi
      obtain ⟨rfl, rfl⟩ := at_unique (at_root hc) hg
      exact hown
    · exact (hI.server g d w hg).congr (hf g hgi) (hr g hgi) fun j => hr _ (hchild g j)
  · intro g hno
    have hgi : g ≠ ⟨i, []⟩ := by
      rintro rfl
      exact hno c c.root (at_root hc)
    rw [hr g hgi, hf g hgi]
    exact hI.elsewhere g hno
  · intro k x
    by_cases hk : k = i
    · subst hk
      rw [hval]
      constructor
      · intro h
        exact ⟨c, hc, h⟩
      · rintro ⟨d, hd, h⟩
        obtain rfl := Option.some.inj (hc.symm.trans hd)
        exact h
    · have hne : (⟨k, []⟩ : Handle) ≠ ⟨i, []⟩ := fun heq =>
        hk (congrArg Handle.call heq)
      rw [hresult k hk, hr _ hne, hI.result]

theorem NetInv.invoke (h : SumStep arith n calls s (.invoke i) u) : NetInv arith n calls u := by
  obtain ⟨c, hc, hunused, rfl⟩ := sumStep_invoke.mp h
  have hnone : ∀ x, s.result i ≠ some x := by
    intro x hx
    obtain ⟨_, _, hcomp, _⟩ := (hI.result i x).mp hx
    simp [hunused] at hcomp
  refine hI.call hc ?_ ?_ (fun _ _ => rfl) ?_ ?_
  · intro g hg
    rw [SumNet.frame_setFrame, if_neg hg]
    rfl
  · intro g hg
    rw [SumNet.rpc_setFrame, SumNet.rpc_setRpc, if_neg hg]
  · intro x
    simp [SumNet.rpc_setRpc, hnone]
  · rw [bcastTree_eq]
    exact hI.enter (at_root hc) (by simp [hunused, SumRpc.level])

theorem NetInv.startHandler {r : ℤ} (hs : SumStep arith n calls s (.start h r) u) :
    NetInv arith n calls u := by
  obtain ⟨x, hsent, rfl⟩ := sumStep_start.mp hs
  obtain ⟨hat, hpath⟩ := hI.sent hsent
  refine hI.move hat hpath ?_ ?_ rfl ?_ ?_ ?_
  · intro g hg
    rw [SumNet.frame_setFrame, if_neg hg]
    rfl
  · intro g hg
    rw [SumNet.rpc_setFrame, SumNet.rpc_setRpc, if_neg hg]
  · simp [hsent, SumRpc.level]
  · simp [SumNet.rpc_setRpc, SumRpc.level]
  · have htree : handlerTree arith n r {} x = localTree arith n x.root 2 r :=
      @handlerTree_of_malloc arith n x.root x.seed r {} rfl
    rw [htree]
    exact hI.enter hat (by simp [hsent, SumRpc.level])

theorem NetInv.arrive (hs : SumStep arith n calls s (.arrive h) u) : NetInv arith n calls u := by
  obtain ⟨x, hresp, rfl⟩ := sumStep_arrive.mp hs
  obtain ⟨c, v, hat, hpath, rfl, hf, hk⟩ := hI.answered (Or.inl hresp)
  refine hI.move hat hpath (fun _ _ => rfl) ?_ rfl ?_ ?_ ?_
  · intro g hg
    rw [SumNet.rpc_setRpc, if_neg hg]
  · simp [hresp, SumRpc.level]
  · simp [SumNet.rpc_setRpc, SumRpc.level]
  · refine .after hf (Or.inr ⟨hpath, Or.inr ?_⟩) ?_
    · rw [SumNet.rpc_setRpc, if_pos rfl]
    · intro j hj
      rw [SumNet.rpc_setRpc, if_neg (h.child_ne j)]
      exact hk j hj

theorem NetInv.issue (hs : SumStep arith n calls s (.issue h j) u) : NetInv arith n calls u := by
  obtain ⟨F, dst, hF, hdst, hj, rfl⟩ := sumStep_issue.mp hs
  obtain ⟨c, v, hat, hrun, hok, hdone, hout, hrest⟩ := hI.running hF
  have hdst : (kids arith n c v)[j]? = some dst := by rwa [hok.tree] at hdst
  have hlt := (List.getElem?_eq_some_iff.mp hdst).1
  have hcol : F.collected = 0 := by
    by_contra hpos
    have := hok.collecting (by omega)
    omega
  have hatj : (h.child j).At arith n calls c dst := at_child_iff.mpr ⟨v, hat, hdst⟩
  refine hI.act hat hdst ?_ ?_ rfl ?_ ?_
  · intro g hg
    rw [SumNet.frame_setFrame, if_neg hg]
    rfl
  · intro g hg
    rw [SumNet.rpc_setFrame, SumNet.rpc_setRpc, if_neg hg]
  · refine .during { F with issued := j + 1 } ?_ ?_ ?_ ?_ ?_ ?_
    · simp [SumNet.frame_setFrame]
    · rw [SumNet.rpc_setFrame, SumNet.rpc_setRpc, if_neg (h.child_ne j).symm]
      exact hrun
    · refine ⟨hok.rank, hok.input, hok.tree, hlt, ?_, ?_, hok.sum⟩
      · simp [hcol]
      · intro hpos
        simp [hcol] at hpos
    · intro i hi
      simp [hcol] at hi
    · intro i hi hle
      rw [SumNet.rpc_setFrame, SumNet.rpc_setRpc]
      split_ifs with hij
      · simp [SumRpc.level]
      · refine hout i ?_ (by omega)
        have : i ≠ j := fun heq => hij (by rw [heq])
        have hi : i < j + 1 := hi
        omega
    · intro i hi hle
      have hle : j + 1 ≤ i := hle
      rw [SumNet.rpc_setFrame, SumNet.rpc_setRpc, if_neg]
      · exact hrest i hi (by omega)
      · intro heq
        have := (Handle.child_inj.mp heq).2
        omega
  · cases hI.server _ _ _ hatj with
    | before hf _ hk =>
      refine .before ?_ (Or.inr ⟨h.child_path j, ?_⟩) ?_
      · rw [SumNet.frame_setFrame, if_neg (h.child_ne j)]
        exact hf
      · rw [SumNet.rpc_setFrame, SumNet.rpc_setRpc, if_pos rfl, hok.input]
      · intro i hi
        rw [SumNet.rpc_setFrame, SumNet.rpc_setRpc, if_neg ((h.child j).child_ne i)]
        exact hk i hi
    | during _ _ hr =>
      simp [hrest j hlt hj.le] at hr
    | after _ hr =>
      simp [hrest j hlt hj.le] at hr

theorem NetInv.collect (hs : SumStep arith n calls s (.collect h j) u) :
    NetInv arith n calls u := by
  obtain ⟨F, x, hF, hiss, hj, harr, rfl⟩ := sumStep_collect.mp hs
  obtain ⟨c, v, hat, hrun, hok, hdone, hout, hrest⟩ := hI.running hF
  have hiss : F.issued = (kids arith n c v).length := by rwa [hok.tree] at hiss
  obtain ⟨d, w, hatj, -, rfl, hfj, hkj⟩ := hI.answered (Or.inr harr)
  obtain ⟨v', hat', hw⟩ := at_child_iff.mp hatj
  obtain ⟨rfl, rfl⟩ := at_unique hat hat'
  have hlt := (List.getElem?_eq_some_iff.mp hw).1
  refine hI.act hat hw ?_ ?_ rfl ?_ ?_
  · intro g hg
    rw [SumNet.frame_setFrame, if_neg hg]
    rfl
  · intro g hg
    rw [SumNet.rpc_setFrame, SumNet.rpc_setRpc, if_neg hg]
  · refine .during { F with
      collected := j + 1, sum := wrapInt (F.sum + subtreeTotal arith n c w) } ?_ ?_ ?_ ?_ ?_ ?_
    · simp [SumNet.frame_setFrame]
    · rw [SumNet.rpc_setFrame, SumNet.rpc_setRpc, if_neg (h.child_ne j).symm]
      exact hrun
    · refine ⟨hok.rank, hok.input, hok.tree, hok.issued_le, ?_, fun _ => hiss, ?_⟩
      · change j + 1 ≤ F.issued
        omega
      · change wrapInt (F.sum + subtreeTotal arith n c w) = _
        have hsum := hok.sum
        rw [hj] at hsum
        rw [hsum, List.take_add_one, hw, wrapInt_add_left]
        simp
    · intro i hi
      have hi : i < j + 1 := hi
      rw [SumNet.rpc_setFrame, SumNet.rpc_setRpc]
      split_ifs with hij
      · rfl
      · refine hdone i ?_
        have : i ≠ j := fun heq => hij (by rw [heq])
        omega
    · intro i hi hle
      have hi : i < F.issued := hi
      have hle : j + 1 ≤ i := hle
      rw [SumNet.rpc_setFrame, SumNet.rpc_setRpc, if_neg]
      · exact hout i hi (by omega)
      · intro heq
        have := (Handle.child_inj.mp heq).2
        omega
    · intro i hi hle
      have hle : F.issued ≤ i := hle
      rw [SumNet.rpc_setFrame, SumNet.rpc_setRpc, if_neg]
      · exact hrest i hi hle
      · intro heq
        have := (Handle.child_inj.mp heq).2
        omega
  · refine .after ?_ (Or.inl ?_) ?_
    · rw [SumNet.frame_setFrame, if_neg (h.child_ne j)]
      exact hfj
    · rw [SumNet.rpc_setFrame, SumNet.rpc_setRpc, if_pos rfl]
    · intro i hi
      rw [SumNet.rpc_setFrame, SumNet.rpc_setRpc, if_neg ((h.child j).child_ne i)]
      exact hkj i hi

end Inv

section Threads

variable (S : ∀ c ∈ calls, Sound arith n c.root 2) (hI : NetInv arith n calls s)
include S hI

/-- A thread that is done holds the total of its subtree. -/
theorem NetInv.finished {F : SumFrame} (hF : s.frame h = some F) (hD : F.Done) :
    ∃ c v, h.At arith n calls c v ∧ s.rpc h = .running ∧ F.total = subtreeTotal arith n c v ∧
      ∀ j < (kids arith n c v).length, s.rpc (h.child j) = .completed := by
  obtain ⟨c, v, hat, hrun, hok, hdone, -, -⟩ := hI.running hF
  have hcol : F.collected = (kids arith n c v).length := by
    have := hD.2
    rwa [hok.tree] at this
  have hS := S c (List.mem_of_getElem? hat.1)
  have hv : v ∈ hS.tree.nodes := hS.tree.nodeAt_mem ((pathRank_eq hS _).symm.trans hat.2)
  refine ⟨c, v, hat, hrun, ?_, fun j hj => hdone j (by omega)⟩
  rw [SumFrame.total, hok.sum, hcol, List.take_length, hok.rank, hok.input, subtreeTotal_kids hS hv,
    wrapInt_add_left, wrapInt_add_right, add_comm]

theorem NetInv.respond (hs : SumStep arith n calls s (.respond h) u) :
    NetInv arith n calls u := by
  obtain ⟨F, hF, hpath, hD, rfl⟩ := sumStep_respond.mp hs
  obtain ⟨c, v, hat, hrun, htotal, hk⟩ := hI.finished S hF hD
  refine hI.move hat hpath ?_ ?_ rfl ?_ ?_ ?_
  · intro g hg
    rw [SumNet.frame_setFrame, if_neg hg]
    rfl
  · intro g hg
    rw [SumNet.rpc_setFrame, SumNet.rpc_setRpc, if_neg hg]
  · simp [hrun, SumRpc.level]
  · simp [SumNet.rpc_setRpc, SumRpc.level]
  · refine .after ?_ (Or.inr ⟨hpath, Or.inl ?_⟩) ?_
    · rw [SumNet.frame_setFrame, if_pos rfl]
    · rw [SumNet.rpc_setFrame, SumNet.rpc_setRpc, if_pos rfl, htotal]
    · intro j hj
      rw [SumNet.rpc_setFrame, SumNet.rpc_setRpc, if_neg (h.child_ne j)]
      exact hk j hj

theorem NetInv.ret (hs : SumStep arith n calls s (.ret i) u) : NetInv arith n calls u := by
  obtain ⟨F, hF, hD, rfl⟩ := sumStep_ret.mp hs
  obtain ⟨c, v, hat, -, htotal, hk⟩ := hI.finished S hF hD
  obtain ⟨-, rfl⟩ := at_unique hat (at_root hat.1)
  refine hI.call hat.1 ?_ ?_ ?_ ?_ ?_
  · intro g hg
    rw [SumNet.frame_setResult, SumNet.frame_setFrame, if_neg hg]
    rfl
  · intro g hg
    rw [SumNet.rpc_setResult, SumNet.rpc_setFrame, SumNet.rpc_setRpc, if_neg hg]
  · intro k hk
    rw [SumNet.result_setResult, if_neg hk]
    rfl
  · intro x
    rw [SumNet.result_setResult, if_pos rfl, SumNet.rpc_setResult, SumNet.rpc_setFrame,
      SumNet.rpc_setRpc, if_pos rfl, htotal, Option.some.injEq]
    simp only [true_and]
    exact eq_comm
  · refine .after ?_ (Or.inl ?_) ?_
    · rw [SumNet.frame_setResult, SumNet.frame_setFrame, if_pos rfl]
    · rw [SumNet.rpc_setResult, SumNet.rpc_setFrame, SumNet.rpc_setRpc, if_pos rfl]
    · intro j hj
      rw [SumNet.rpc_setResult, SumNet.rpc_setFrame, SumNet.rpc_setRpc,
        if_neg (Handle.child_ne _ j)]
      exact hk j hj

/-- Every step keeps the invariant. -/
theorem netInv_step {a : SumLabel} (hs : SumStep arith n calls s a u) : NetInv arith n calls u := by
  cases a with
  | invoke i => exact hI.invoke hs
  | issue h j => exact hI.issue hs
  | start h r => exact hI.startHandler hs
  | respond h => exact hI.respond S hs
  | arrive h => exact hI.arrive hs
  | collect h j => exact hI.collect hs
  | ret i => exact hI.ret S hs

end Threads

end Metasim
