import Metasim.FilesizeMoves

/-! While every allocation finds its server quiet, the invariant holds. -/
namespace Metasim

variable {arith : ℤ → ℤ} {n v w : ℤ} {colls : List Collective} {c d : Collective} {h g : Handle}
  {s u : FilesizeNet} {i j : ℕ} {a : FilesizeLabel}

/-- A step within one collective. -/
theorem FilesizeInv.next (hI : FilesizeInv arith n colls s) (hf : u.fault = false)
    (hP : PartsInv arith n colls u) (hc : colls[i]? = some c)
    (hctl : ∀ k, k ≠ i → u.control k = s.control k)
    (hroots : ∀ k, k ≠ i → u.part ⟨k, []⟩ = s.part ⟨k, []⟩)
    (hok : ControlOk n (subtreeSize arith n c c.root) i (u.control i) (u.part ⟨i, []⟩))
    (hglb : ∀ h c v, h.At arith n colls c v → Wanted h (u.part h) → u.glbSt v = some h) :
    FilesizeInv arith n colls u := by
  refine ⟨hf, hP, ?_, ?_, hglb⟩
  · intro k d hd
    by_cases hk : k = i
    · subst hk
      obtain rfl := Option.some.inj (hc.symm.trans hd)
      exact hok
    · rw [hctl k hk, hroots k hk]
      exact hI.control k d hd
  · intro k hno
    have hk : k ≠ i := by
      rintro rfl
      simp [hc] at hno
    rw [hctl k hk]
    exact hI.noControl k hno

theorem root_ne (k : ℕ) (hk : k ≠ h.call) : (⟨k, []⟩ : Handle) ≠ h := by
  rintro rfl
  exact hk rfl

theorem Wanted.congr {p q : Part} (hcell : q.cell = p.cell) (hw : Wanted h q) : Wanted h p := by
  obtain ⟨st, hlive, hopen⟩ := hw
  exact ⟨st, hcell ▸ hlive, hopen⟩

theorem not_wanted_of_full {p : Part} {st : StateFilesize} (hh : h.path ≠ [])
    (hp : p.cell = .live st) (hfull : st.full = true) : ¬ Wanted h p := by
  rintro ⟨st', hp', hf | hf⟩
  · obtain rfl : st = st' := Cell.live.inj (hp.symm.trans hp')
    simp [hfull] at hf
  · exact hh hf

/-- A step that changes one record and leaves `glb_st`: no record may become wanted. -/
theorem FilesizeInv.next_at (hI : FilesizeInv arith n colls s) (hf : u.fault = false)
    (hP : PartsInv arith n colls u) (hat : h.At arith n colls c v) (hglb : u.glbSt = s.glbSt)
    (hctl : ∀ k, k ≠ h.call → u.control k = s.control k)
    (hroots : ∀ k, (⟨k, []⟩ : Handle) ≠ h → u.part ⟨k, []⟩ = s.part ⟨k, []⟩)
    (hcells : ∀ g, g ≠ h → (u.part g).cell = (s.part g).cell)
    (hwanted : Wanted h (u.part h) → Wanted h (s.part h))
    (hok : ControlOk n (subtreeSize arith n c c.root) h.call (u.control h.call)
      (u.part ⟨h.call, []⟩)) : FilesizeInv arith n colls u := by
  refine hI.next hf hP hat.1 hctl (fun k hk => hroots k (root_ne k hk)) hok ?_
  intro g d w hgat hw
  rw [hglb]
  apply hI.glbSt g d w hgat
  by_cases hg : g = h
  · subst hg
    exact hwanted hw
  · exact hw.congr (hcells g hg)

/-- Below the roots the main threads are not concerned. -/
theorem FilesizeInv.next_below (hI : FilesizeInv arith n colls s) (hf : u.fault = false)
    (hP : PartsInv arith n colls u) (hat : h.At arith n colls c v) (hh : h.path ≠ [])
    (hglb : u.glbSt = s.glbSt) (hctl : u.control = s.control)
    (hroots : ∀ k, (⟨k, []⟩ : Handle) ≠ h → u.part ⟨k, []⟩ = s.part ⟨k, []⟩)
    (hcells : ∀ g, g ≠ h → (u.part g).cell = (s.part g).cell)
    (hwanted : Wanted h (u.part h) → Wanted h (s.part h)) : FilesizeInv arith n colls u := by
  have hne : (⟨h.call, []⟩ : Handle) ≠ h := by
    intro heq
    rw [← heq] at hh
    exact hh rfl
  refine hI.next_at hf hP hat hglb (fun k _ => by rw [hctl]) hroots hcells hwanted ?_
  rw [hctl, hroots h.call hne]
  exact hI.control h.call c hat.1

theorem RecordDone.record {p : Part} {st : StateFilesize} (hD : RecordDone arith n c v h p)
    (hp : p.cell = .live st) : RecordOk arith n c v st := by
  cases hD with
  | root st' _ hp' hR | holding st' _ hp' hR =>
    obtain rfl : st = st' := Cell.live.inj (hp.symm.trans hp')
    exact hR
  | rootFreed _ hp' | released _ hp' => simp [hp] at hp'

/-- A response was counted that is not the last. -/
theorem ControlOk.recount {size : ℕ} {r : RootControl} {p q : Part} {st st' : StateFilesize}
    (hC : ControlOk n size i r p) (hp : p.cell = .live st) (hq : q.cell = .live st')
    (ht : q.thread = p.thread) (hfull : st'.full = st.full) : ControlOk n size i r q := by
  have heq : ∀ st₁, p.cell = .live st₁ → st'.full = st₁.full := by
    intro st₁ h₁
    obtain rfl : st = st₁ := Cell.live.inj (hp.symm.trans h₁)
    exact hfull
  cases hC with
  | idle _ h1 | finished h1 => simp [hp] at h1
  | alone st₁ hn h1 hw hm ho => exact .alone st' hn hq hw hm (by rwa [ht])
  | sending st₁ hn h1 hm hw ho => exact .sending st' hn hq hm (by rw [heq st₁ h1, hw]) (by rwa [ht])
  | waiting st₁ hn h1 h2 hm ho => exact .waiting st' hn hq (ht.trans h2) hm (by rwa [heq st₁ h1])
  | woken st₁ hn h1 h2 hf hm ho =>
    exact .woken st' hn hq (ht.trans h2) ((heq st₁ h1).trans hf) hm ho
  | got st₁ hn h1 h2 hf hm hx hw =>
    exact .got st' hn hq (ht.trans h2) ((heq st₁ h1).trans hf) hm hx hw

/-- Nobody wakes the main thread before the last response was counted. -/
theorem ControlOk.wake_idle {size : ℕ} {r : RootControl} {p : Part} {st : StateFilesize}
    (hC : ControlOk n size i r p) (hp : p.cell = .live st) (hopen : st.full = false) :
    r.wake = .idle := by
  have heq : ∀ st₁, p.cell = .live st₁ → st₁.full = false := by
    intro st₁ h₁
    obtain rfl : st = st₁ := Cell.live.inj (hp.symm.trans h₁)
    exact hopen
  cases hC with
  | idle hr => rw [hr]
  | finished h1 => simp [hp] at h1
  | alone _ _ _ hw => exact hw
  | woken st₁ _ h1 _ hf | got st₁ _ h1 _ hf => simp [heq st₁ h1] at hf
  | sending st₁ _ h1 _ hw => simpa [heq st₁ h1] using hw
  | waiting st₁ _ h1 _ _ ho =>
    rcases ho with ⟨_, hw⟩ | ⟨hf, _⟩
    · simpa [heq st₁ h1] using hw
    · simp [heq st₁ h1] at hf

/-- The last response was counted. -/
theorem ControlOk.fill {size : ℕ} {r : RootControl} {p q : Part} {st st' : StateFilesize}
    (hC : ControlOk n size i r p) (hn : 1 < n) (hp : p.cell = .live st) (hopen : st.full = false)
    (hq : q.cell = .live st') (ht : q.thread = p.thread) (hfull : st'.full = true) :
    ControlOk n size i { r with wake := .lock } q := by
  have heq : ∀ st₁, p.cell = .live st₁ → st₁.full = false := by
    intro st₁ h₁
    obtain rfl : st = st₁ := Cell.live.inj (hp.symm.trans h₁)
    exact hopen
  cases hC with
  | idle _ h1 | finished h1 => simp [hp] at h1
  | alone _ h1 => exact absurd hn h1
  | woken st₁ _ h1 _ hf | got st₁ _ h1 _ hf => simp [heq st₁ h1] at hf
  | sending st₁ _ h1 hm hw ho => exact .sending st' hn hq hm (by rw [hfull]; rfl) (by rwa [ht])
  | waiting st₁ _ h1 h2 hm ho =>
    rcases ho with ⟨hx, _⟩ | ⟨hf, _⟩
    · exact .waiting st' hn hq (ht.trans h2) hm (Or.inl ⟨hx, by rw [hfull]; rfl⟩)
    · simp [heq st₁ h1] at hf

/-! ## Allocation -/

/-- The record as it is allocated. -/
def recordOf (arith : ℤ → ℤ) (n : ℤ) (c : Collective) (v : ℤ) : StateFilesize :=
  stateFilesizeAlloc arith v n c.root c.degree c.reply (parentOf arith n c v) v

theorem recordOf_ok : RecordOk arith n c v (recordOf arith n c v) :=
  ⟨rfl, rfl, treeInit_eq _ _ _ _ _, rfl, rfl, rfl, rfl⟩

/-- What `create` leaves at its handle. -/
def createdPart (arith : ℤ → ℤ) (n : ℤ) (c : Collective) (v : ℤ) (h : Handle) : Part where
  request := if h.path = [] then .unused else .served
  cell := .live (recordOf arith n c v)
  thread := some ⟨v, (recordOf arith n c v).tree.childCount, 0, false⟩

theorem part_create {m : Message FilesizeRequestIn} (hp : s.part h = { request := m }) :
    (create arith n s h c v).part g = if g = h then createdPart arith n c v h else s.part g := by
  simp only [create, allocate, FilesizeNet.part_log, FilesizeNet.part_setGlbSt,
    FilesizeNet.part_modify, hp]
  rfl

theorem glbSt_create (k : ℤ) :
    (create arith n s h c v).glbSt k = if k = v then some h else s.glbSt k := by
  simp only [create, allocate, FilesizeNet.glbSt_log, FilesizeNet.glbSt_setGlbSt,
    FilesizeNet.glbSt_modify]

theorem createdPart_ok (S : SoundFor arith n c) (hv : v ∈ S.tree.nodes) :
    PartOk arith n c v h (createdPart arith n c v h) ∅ ∅ := by
  refine .active (recordOf arith n c v) rfl (.sending _ rfl rfl ?_ (Nat.zero_le _) rfl)
    ⟨rfl, recordOf_ok, rfl, rfl, rfl, rfl, ?_⟩
  · rw [recordOf_ok.tree, length_kids S hv]
  · rcases Nat.eq_zero_or_pos (kids arith n c v).length with h0 | hpos
    · exact Or.inr ⟨h0, Option.some_ne_none _⟩
    · exact Or.inl hpos

section Steps

variable (S : AllSound arith n colls) (hI : FilesizeInv arith n colls s)
include hI

theorem inv_control {r : RootControl} (hc : colls[i]? = some c)
    (hok : ControlOk n (subtreeSize arith n c c.root) i r (s.part ⟨i, []⟩)) :
    FilesizeInv arith n colls (s.setControl i fun _ => r) := by
  refine hI.next (i := i) hI.fault ⟨hI.parts.ok, hI.parts.elsewhere⟩ hc ?_ (fun _ _ => rfl) ?_
    hI.glbSt
  · intro k hk
    rw [FilesizeNet.control_setControl, if_neg hk]
  · rw [FilesizeNet.control_setControl, if_pos rfl]
    exact hok

theorem inv_silent {p : Part} (hat : h.At arith n colls c v) (hvis : Visible p (s.part h))
    (hok : PartOk arith n c v h p (sentKids arith n c v s h) (servedKids arith n c v s h))
    (hcell : p.cell = (s.part h).cell)
    (hthread : h.path = [] → (p.thread = none ↔ (s.part h).thread = none)) :
    FilesizeInv arith n colls (s.modify h fun _ => p) := by
  have hself : (s.modify h fun _ => p).part h = p := by rw [FilesizeNet.part_modify, if_pos rfl]
  have hrest : ∀ g, g ≠ h → (s.modify h fun _ => p).part g = s.part g := by
    intro g hg
    rw [FilesizeNet.part_modify, if_neg hg]
  refine hI.next_at hI.fault (hI.parts.self hat hrest (by rwa [hself]) (by rwa [hself])) hat rfl
    (fun _ _ => rfl) (fun k hk => hrest _ hk) (fun g hg => by rw [hrest g hg])
    (Wanted.congr (by rw [hself, hcell])) ?_
  by_cases hroot : (⟨h.call, []⟩ : Handle) = h
  · have hC := hI.control h.call c hat.1
    rw [hroot] at hC ⊢
    rw [hself]
    exact hC.congr hcell (hthread (by rw [← hroot]))
  · rw [hrest _ hroot]
    exact hI.control h.call c hat.1

theorem FilesizeInv.record {st : StateFilesize} (hat : h.At arith n colls c v)
    (hp : (s.part h).cell = .live st) : RecordOk arith n c v st := by
  cases hI.parts.ok h c v hat with
  | before hf =>
    rw [hf.eq] at hp
    simp at hp
  | active st' _ _ hA =>
    obtain rfl : st = st' := Cell.live.inj (hp.symm.trans hA.cell)
    exact hA.record
  | done _ _ _ _ hD => exact hD.record hp

theorem FilesizeInv.record_rank {st : StateFilesize} (hS : SoundFor arith n c)
    (hat : h.At arith n colls c v) (hp : (s.part h).cell = .live st) : st.tree.rank = v := by
  have hv := Finset.mem_Ico.mp (hat.mem_nodes hS)
  rw [(hI.record hat hp).tree]
  exact hS.rank_eq hv.1 hv.2

theorem FilesizeInv.no_kids (hat : h.At arith n colls c v) (hp : (s.part h).cell = .unallocated) :
    sentKids arith n c v s h = ∅ ∧ servedKids arith n c v s h = ∅ := by
  have hsent : sentKids arith n c v s h = ∅ := by
    by_contra hne
    exact (hI.parts.ok h c v hat).cell_of_sent hne hp
  refine ⟨hsent, Finset.subset_empty.mp ?_⟩
  rw [← hsent]
  exact hI.parts.servedKids_subset hat

include S

/-- The parts and `glb_st` after an allocation on a quiet server. -/
theorem create_ok {m : Message FilesizeRequestIn} (hat : h.At arith n colls c v)
    (hp : s.part h = { request := m }) (hm : m = .unused ↔ h.path = [])
    (hq : QuietAt s v) : PartsInv arith n colls (create arith n s h c v) ∧
      ∀ g d w, g.At arith n colls d w → Wanted g ((create arith n s h c v).part g) →
        (create arith n s h c v).glbSt w = some g := by
  have hS := S.at_ hat
  obtain ⟨hsent, hserved⟩ := hI.no_kids hat (by rw [hp])
  constructor
  · refine hI.parts.self hat ?_ ?_ ?_
    · intro g hg
      rw [part_create hp, if_neg hg]
    · rw [part_create hp, if_pos rfl, hp]
      refine ⟨?_, Iff.rfl⟩
      simp only [createdPart, hm]
      split_ifs with hh <;> simp [hh]
    · rw [part_create hp, if_pos rfl, hsent, hserved]
      exact createdPart_ok hS (hat.mem_nodes hS)
  · intro g d w hgat hw
    rw [part_create hp] at hw
    rw [glbSt_create]
    by_cases hg : g = h
    · subst hg
      rw [if_pos (at_unique hgat hat).2]
    · rw [if_neg hg] at hw
      by_cases hwv : w = v
      · -- a record on the same server is no longer wanted
        subst hwv
        have hSd := S.at_ hgat
        obtain ⟨st, hcell, hopen⟩ := hw
        have htree := (hI.record hgat hcell).tree
        obtain ⟨hfull, hparent⟩ := hq g st hcell (hI.record_rank hSd hgat hcell)
        rcases hopen with hf | hh
        · simp [hfull] at hf
        · have hroot : w = d.root := hgat.root_of_path hh
          rw [htree, hroot] at hparent
          exact absurd hSd.parentRank_root hparent
      · rw [if_neg hwv]
        exact hI.glbSt g d w hgat hw

theorem inv_start (hc : colls[i]? = some c) (hp : s.part ⟨i, []⟩ = {}) (hq : QuietAt s c.root) :
    FilesizeInv arith n colls ((create arith n s ⟨i, []⟩ c c.root).setControl i
      fun _ => { main := .forwarding, mutex := if 1 < n then some (.main i) else none }) := by
  have hat : (⟨i, []⟩ : Handle).At arith n colls c c.root := at_root hc
  have hS := S.at_ hat
  obtain ⟨hP, hglb⟩ := create_ok S hI hat hp (by simp) hq
  refine hI.next (i := i) hI.fault ⟨hP.ok, hP.elsewhere⟩ hc ?_ ?_ ?_ hglb
  · intro k hk
    rw [FilesizeNet.control_setControl, if_neg hk]
    rfl
  · intro k hk
    rw [FilesizeNet.part_setControl, part_create hp, if_neg (root_ne k hk)]
  · rw [FilesizeNet.control_setControl, if_pos rfl, FilesizeNet.part_setControl, part_create hp,
      if_pos rfl]
    by_cases hn : 1 < n
    · have hopen : (recordOf arith n c c.root).full = false := by
        by_contra hf
        have hnum := (recordOf_ok.full_iff hS (hat.mem_nodes hS)).mp (by simpa using hf)
        have hK := (kids_root hS).mpr hn
        have h0 : (recordOf arith n c c.root).numResponses = 0 := rfl
        omega
      refine .sending _ hn rfl (by simp [hn]) ?_ (Or.inl ⟨rfl, Option.some_ne_none _⟩)
      rw [hopen]
      rfl
    · exact .alone _ hn rfl rfl (by simp [hn]) (Or.inl ⟨rfl, Option.some_ne_none _⟩)

theorem inv_alloc (hat : h.At arith n colls c v) (hh : h.path ≠ [])
    (hp : s.part h = { request := .accepted v (requestTo arith n c v) }) (hq : QuietAt s v) :
    FilesizeInv arith n colls (create arith n s h c v) := by
  obtain ⟨hP, hglb⟩ := create_ok S hI hat hp (by simp [hh]) hq
  have hroots : ∀ k, (create arith n s h c v).part ⟨k, []⟩ = s.part ⟨k, []⟩ := by
    intro k
    rw [part_create hp, if_neg]
    rintro rfl
    exact hh rfl
  refine hI.next (i := h.call) hI.fault hP hat.1 (fun _ _ => rfl) (fun k _ => hroots k) ?_ hglb
  rw [hroots]
  exact hI.control _ _ hat.1

/-! ## Requests and responses -/

omit S in
theorem inv_forward {F : ForwardFrame} {st : StateFilesize} (hat : h.At arith n colls c v)
    (hrank : F.rank = v) (hcount : F.childCount = (kids arith n c v).length)
    (hw : F.waiting = false)
    (hj : (kids arith n c v)[F.next]? = some w)
    (hsent : sentKids arith n c v s h = Finset.range F.next)
    (hF : (s.part h).thread = some F) (hreq : Requested h (s.part h))
    (hA : Active arith n c v h (s.part h) (servedKids arith n c v s h) st)
    (hkid : s.part (h.child F.next) = {}) :
    FilesizeInv arith n colls ((s.modify (h.child F.next) fun p =>
      { p with request := .sent w (requestTo arith n c w) }).modify h fun p => { p with
        thread := some (if c.reply then { F with waiting := true }
          else { F with next := F.next + 1 }) }) := by
  set G : ForwardFrame := if c.reply then { F with waiting := true }
    else { F with next := F.next + 1 } with hG
  set u := (s.modify (h.child F.next) fun p =>
    { p with request := .sent w (requestTo arith n c w) }).modify h fun p =>
    { p with thread := some G }
  have hlt := (List.getElem?_eq_some_iff.mp hj).1
  have hatj : (h.child F.next).At arith n colls c w := at_child_iff.mpr ⟨v, hat, hj⟩
  have hreach : G.reached = F.next + 1 := by
    cases hr : c.reply <;> simp [hG, hr, ForwardFrame.reached, hw]
  have hself : u.part h = { s.part h with thread := some G } := by
    simp [u, FilesizeNet.part_modify, (h.child_ne F.next).symm]
  have hchild : u.part (h.child F.next) = { request := .sent w (requestTo arith n c w) } := by
    simp [u, FilesizeNet.part_modify, h.child_ne F.next, hkid]
  have hrest : ∀ g, g ≠ h → g ≠ h.child F.next → u.part g = s.part g := by
    intro g hg hgj
    simp [u, FilesizeNet.part_modify, hg, hgj]
  have hkids : ∀ j, j ≠ F.next → u.part (h.child j) = s.part (h.child j) := by
    intro j hne
    exact hrest _ (h.child_ne j) (by simpa using hne)
  have hserved : servedKids arith n c v u h = servedKids arith n c v s h := by
    refine Finset.filter_congr fun j _ => ?_
    by_cases hjn : j = F.next
    · simp [hjn, hchild, hkid]
    · rw [hkids j hjn]
  have hsent' : sentKids arith n c v u h = Finset.range (F.next + 1) := by
    ext j
    rw [Finset.mem_range_succ_iff, mem_sentKids]
    by_cases hjn : j = F.next
    · simp [hjn, hchild, hlt]
    · rw [hkids j hjn, ← mem_sentKids, hsent, Finset.mem_range]
      omega
  obtain ⟨hsentj, hservedj⟩ := hI.no_kids hatj (by rw [hkid])
  have hP : PartsInv arith n colls u := by
    refine hI.parts.kid hat hj hrest ?_ ?_ ?_
    · rw [hself]
      exact ⟨Iff.rfl, Iff.rfl⟩
    · rw [hself, hserved, hsent']
      refine .active st hreq (.sending G rfl ?_ ?_ ?_ ?_) (hA.setThread (by omega) _)
      · cases hr : c.reply <;> simp [hG, hr, hrank]
      · cases hr : c.reply <;> simp [hG, hr, hcount]
      · omega
      · rw [hreach]
    · rw [hchild, hsentj]
      exact .before ⟨rfl, Or.inr ⟨h.child_path _, Or.inl rfl⟩⟩ rfl
  refine hI.next_at hI.fault hP hat rfl (fun _ _ => rfl)
    (fun k hk => hrest _ hk (h.child_ne_root _ _).symm) (fun g hg => ?_)
    (Wanted.congr (by rw [hself])) ?_
  · by_cases hgj : g = h.child F.next
    · rw [hgj, hchild, hkid]
    · rw [hrest g hg hgj]
  · by_cases hroot : (⟨h.call, []⟩ : Handle) = h
    · have hC := hI.control h.call c hat.1
      rw [hroot] at hC ⊢
      rw [hself]
      exact hC.congr rfl (by simp [hF])
    · rw [hrest _ hroot (h.child_ne_root _ _).symm]
      exact hI.control h.call c hat.1

theorem inv_leaf {st : StateFilesize} (hat : h.At arith n colls c v) (hh : h.path ≠ [])
    (hK : (kids arith n c v).length = 0) (hreq : Requested h (s.part h))
    (hA : Active arith n c v h (s.part h) (servedKids arith n c v s h) st) :
    FilesizeInv arith n colls
    ((s.modify h fun p => { respondPart arith n c v st p with thread := none }).log
      (.respond h v (parentOf arith n c v))) := by
  set u := (s.modify h fun p => { respondPart arith n c v st p with thread := none }).log
    (.respond h v (parentOf arith n c v))
  have hS := S.at_ hat
  have hself : u.part h = { respondPart arith n c v st (s.part h) with thread := none } := by
    simp [u, FilesizeNet.part_modify]
  have hrest : ∀ g, g ≠ h → u.part g = s.part g := by
    intro g hg
    simp [u, FilesizeNet.part_modify, hg]
  have hsent : sentKids arith n c v s h =
    Finset.range (kids arith n c v).length := by simp [sentKids, hK]
  have hserved : servedKids arith n c v s h = Finset.range (kids arith n c v).length := by
    simp [servedKids, hK]
  have hfull : (st.raise (ownSize v)).full = true := by
    rw [full_raise, hA.record.full_iff hS (hat.mem_nodes hS), hA.numResponses, hserved,
      Finset.card_range]
  have hP : PartsInv arith n colls u := by
    refine hI.parts.self hat hrest ?_ ?_
    · rw [hself]
      exact ⟨Iff.rfl, by simp [respondPart, hA.response]⟩
    · rw [hself]
      exact .done hreq (.ended rfl hsent) (fun _ => rfl) hserved
        (.holding _ hh rfl (hA.record.raise _) hfull rfl (Or.inl rfl))
  refine hI.next_below hI.fault hP hat hh rfl rfl (fun k hk => hrest _ hk)
    (fun g hg => by rw [hrest g hg]) fun hw => ?_
  rw [hself] at hw
  exact absurd hw (not_wanted_of_full hh rfl hfull)

omit S in
theorem inv_endRoot {F : ForwardFrame} (hc : colls[i]? = some c) (hn : 1 < n)
    (hS : SoundFor arith n c) (hF : (s.part ⟨i, []⟩).thread = some F) (hw : F.waiting = false)
    (hnext : F.next = (kids arith n c c.root).length) (hm : (s.control i).main = .forwarding) :
    FilesizeInv arith n colls ((s.modify ⟨i, []⟩ fun p => { p with thread := none }).setControl i
      fun r => { r with main := .ready }) := by
  have hat : (⟨i, []⟩ : Handle).At arith n colls c c.root := at_root hc
  set t := s.modify ⟨i, []⟩ fun p => { p with thread := none }
  have hself : t.part ⟨i, []⟩ = { s.part ⟨i, []⟩ with thread := none } := by
    simp [t, FilesizeNet.part_modify]
  have hrest : ∀ g, g ≠ ⟨i, []⟩ → t.part g = s.part g := by
    intro g hg
    simp [t, FilesizeNet.part_modify, hg]
  have hsent : sentKids arith n c c.root s ⟨i, []⟩ =
    Finset.range (kids arith n c c.root).length := by
    obtain ⟨d, x, hgat, -, -, -, hsent, -⟩ := hI.thread hF
    obtain ⟨rfl, rfl⟩ := at_unique hgat hat
    rw [hsent, ← hnext]
    simp [ForwardFrame.reached, hw]
  have hP : PartsInv arith n colls t := by
    refine hI.parts.self hat hrest ?_ ?_
    · rw [hself]
      exact ⟨Iff.rfl, Iff.rfl⟩
    · rw [hself]
      exact (hI.parts.ok _ _ _ hat).setThread (by simp [hF]) ((kids_root hS).mpr hn)
        (.ended rfl hsent)
  refine hI.next_at hI.fault ⟨hP.ok, hP.elsewhere⟩ hat rfl ?_ (fun k hk => hrest _ hk)
    (fun g hg => congrArg Part.cell (hrest g hg))
    (Wanted.congr (by rw [FilesizeNet.part_setControl, hself])) ?_
  · intro k hk
    rw [FilesizeNet.control_setControl, if_neg hk]
    rfl
  · rw [FilesizeNet.control_setControl, if_pos rfl, FilesizeNet.part_setControl, hself]
    cases hI.control i c hc with
    | idle hr => simp [hr] at hm
    | alone _ h1 => exact absurd hn h1
    | waiting _ _ _ _ hmain | woken _ _ _ _ _ hmain | got _ _ _ _ _ hmain | finished _ _ hmain =>
      simp [hm] at hmain
    | sending st hn hp hmutex hwake ho =>
      exact .sending st hn hp hmutex hwake (Or.inr ⟨rfl, rfl⟩)

theorem inv_endAlone {st : StateFilesize} (hc : colls[i]? = some c) (hn : ¬ 1 < n)
    (hK : (kids arith n c c.root).length = 0) (hm : (s.control i).main = .forwarding)
    (hA : Active arith n c c.root ⟨i, []⟩ (s.part ⟨i, []⟩)
    (servedKids arith n c c.root s ⟨i, []⟩) st) :
    FilesizeInv arith n colls ((s.modify ⟨i, []⟩ fun p => { p with
        thread := none
        cell := .live (st.raise (ownSize c.root)) }).setControl i
      fun r => { r with main := .awake }) := by
  have hat : (⟨i, []⟩ : Handle).At arith n colls c c.root := at_root hc
  have hS := S.at_ hat
  set t := s.modify ⟨i, []⟩ fun p =>
    { p with thread := none, cell := .live (st.raise (ownSize c.root)) }
  have hself : t.part ⟨i, []⟩ = { s.part ⟨i, []⟩ with
      thread := none, cell := .live (st.raise (ownSize c.root)) } := by
    simp [t, FilesizeNet.part_modify]
  have hrest : ∀ g, g ≠ ⟨i, []⟩ → t.part g = s.part g := by
    intro g hg
    simp [t, FilesizeNet.part_modify, hg]
  have hsent : sentKids arith n c c.root s ⟨i, []⟩ =
    Finset.range (kids arith n c c.root).length := by
    simp [sentKids, hK]
  have hserved : servedKids arith n c c.root s ⟨i, []⟩ =
    Finset.range (kids arith n c c.root).length := by
    simp [servedKids, hK]
  have hfull : (st.raise (ownSize c.root)).full = true := by
    rw [full_raise, hA.record.full_iff hS (hat.mem_nodes hS), hA.numResponses, hserved,
      Finset.card_range]
  have hsize : (st.raise (ownSize c.root)).filesize = subtreeSize arith n c c.root :=
    filesize_raise hS (hat.mem_nodes hS) (by rw [hA.filesize, hserved])
  have hreq := ((hI.parts.ok _ _ _ hat).created (by simp [hA.cell])).1
  have hP : PartsInv arith n colls t := by
    refine hI.parts.self hat hrest ?_ ?_
    · rw [hself]
      exact ⟨Iff.rfl, Iff.rfl⟩
    · rw [hself]
      exact .done hreq (.ended rfl hsent) (fun _ => rfl) hserved
        (.root _ rfl rfl (hA.record.raise _) hfull hsize hA.response hA.releasing)
  refine hI.next_at hI.fault ⟨hP.ok, hP.elsewhere⟩ hat rfl ?_ (fun k hk => hrest _ hk)
    (fun g hg => congrArg Part.cell (hrest g hg)) (fun _ => ⟨st, hA.cell, Or.inr rfl⟩) ?_
  · intro k hk
    rw [FilesizeNet.control_setControl, if_neg hk]
    rfl
  · rw [FilesizeNet.control_setControl, if_pos rfl, FilesizeNet.part_setControl, hself]
    cases hI.control i c hc with
    | idle hr => simp [hr] at hm
    | sending _ h1 => exact absurd h1 hn
    | waiting _ _ _ _ hmain | woken _ _ _ _ _ hmain | got _ _ _ _ _ hmain | finished _ _ hmain =>
      simp [hm] at hmain
    | alone _ _ _ hwake hmutex =>
      exact .alone _ hn rfl hwake hmutex (Or.inr ⟨rfl, Or.inl rfl⟩)

omit S hI in
theorem cell_of_child {m : Message FilesizeResponseIn}
    (hchild : u.part (h.child j) = { s.part (h.child j) with response := m })
    (hrest : ∀ g, g ≠ h → g ≠ h.child j → u.part g = s.part g) :
    ∀ g, g ≠ h → (u.part g).cell = (s.part g).cell := by
  intro g hg
  by_cases hgj : g = h.child j
  · rw [hgj, hchild]
  · rw [hrest g hg hgj]

omit S in
/-- The parts after a response has been counted. -/
theorem counted_parts {p : Part} (hat : h.At arith n colls c v)
    (hj : (kids arith n c v)[j]? = some w)
    (hr : (s.part (h.child j)).response = .accepted v (responseFrom arith n c w))
    (hself : u.part h = p)
    (hchild : u.part (h.child j) = { s.part (h.child j) with response := .served })
    (hrest : ∀ g, g ≠ h → g ≠ h.child j → u.part g = s.part g) (hvis : Visible p (s.part h))
    (hok : PartOk arith n c v h p (sentKids arith n c v s h)
    (insert j (servedKids arith n c v s h))) :
    PartsInv arith n colls u := by
  have hlt := (List.getElem?_eq_some_iff.mp hj).1
  have hatj : (h.child j).At arith n colls c w := at_child_iff.mpr ⟨v, hat, hj⟩
  have hkids : ∀ k, k ≠ j → u.part (h.child k) = s.part (h.child k) := by
    intro k hne
    exact hrest _ (h.child_ne k) (by simpa using hne)
  have hsent : sentKids arith n c v u h = sentKids arith n c v s h := by
    refine Finset.filter_congr fun k _ => ?_
    by_cases hkj : k = j
    · rw [hkj, hchild]
    · rw [hkids k hkj]
  have hserved : servedKids arith n c v u h = insert j (servedKids arith n c v s h) := by
    ext k
    rw [Finset.mem_insert, mem_servedKids]
    by_cases hkj : k = j
    · simp [hkj, hchild, hlt]
    · rw [hkids k hkj, ← mem_servedKids]
      simp [hkj]
  refine hI.parts.kid hat hj hrest (by rwa [hself]) (by rwa [hself, hserved, hsent]) ?_
  rw [hchild]
  cases hI.parts.ok _ _ _ hatj with
  | before hf =>
    rw [hf.eq] at hr
    simp at hr
  | active _ _ _ hA => simp [hA.response] at hr
  | done hreq ht h0 hJ hD =>
    refine .done hreq ht h0 hJ ?_
    cases hD with
    | root _ hh | rootFreed hh => exact absurd hh (h.child_path j)
    | holding st hh hp hR hfull hrel => exact .holding st hh hp hR hfull hrel (Or.inr (Or.inr rfl))
    | released hh hp hrel => exact .released hh hp hrel (Or.inr (Or.inr rfl))

theorem inv_apply {st : StateFilesize} (hat : h.At arith n colls c v)
    (hj : (kids arith n c v)[j]? = some w)
    (hr : (s.part (h.child j)).response = .accepted v (responseFrom arith n c w))
    (hA : Active arith n c v h (s.part h) (servedKids arith n c v s h) st)
    (hmore : (servedKids arith n c v s h).card + 1 < (kids arith n c v).length) :
    FilesizeInv arith n colls (((s.modify (h.child j) fun p => { p with response := .served }).log
      (.apply (h.child j) h)).modify h fun p =>
        { p with cell := .live (counted arith n c w st) }) := by
  set u := ((s.modify (h.child j) fun p => { p with response := .served }).log
    (.apply (h.child j) h)).modify h fun p => { p with cell := .live (counted arith n c w st) }
  have hS := S.at_ hat
  have hv := hat.mem_nodes hS
  have hself : u.part h = { s.part h with cell := .live (counted arith n c w st) } := by
    simp [u, FilesizeNet.part_modify, (h.child_ne j).symm]
  have hchild : u.part (h.child j) = { s.part (h.child j) with response := .served } := by
    simp [u, FilesizeNet.part_modify, h.child_ne j]
  have hrest : ∀ g, g ≠ h → g ≠ h.child j → u.part g = s.part g := by
    intro g hg hgj
    simp [u, FilesizeNet.part_modify, hg, hgj]
  have hopen : st.full = false := hA.not_full hS hv (by omega)
  have hopen' : (counted arith n c w st).full = false := by
    by_contra hf
    have := (full_counted hS hv hA).mp (by simpa using hf)
    omega
  have hnot : j ∉ servedKids arith n c v s h := by simp [mem_servedKids, hr]
  have hcard : (insert j (servedKids arith n c v s h)).card =
    (servedKids arith n c v s h).card + 1 :=
    Finset.card_insert_of_notMem hnot
  have hP : PartsInv arith n colls u := by
    refine counted_parts hI hat hj hr hself hchild hrest ⟨Iff.rfl, Iff.rfl⟩ ?_
    obtain ⟨hreq, hthread⟩ := (hI.parts.ok h c v hat).created (by simp [hA.cell])
    refine .active _ hreq hthread ⟨rfl, hA.record.counted, hA.response, hA.releasing, ?_,
      filesize_counted hA.filesize hj, Or.inl (by omega)⟩
    simp [counted, StateFilesize.countResponse, hA.numResponses, hcard]
  refine hI.next_at hI.fault hP hat rfl (fun _ _ => rfl)
    (fun k hk => hrest _ hk (h.child_ne_root _ _).symm) (cell_of_child hchild hrest)
    (fun _ => ⟨st, hA.cell, Or.inl hopen⟩) ?_
  by_cases hroot : (⟨h.call, []⟩ : Handle) = h
  · have hC := hI.control h.call c hat.1
    rw [hroot] at hC ⊢
    rw [hself]
    exact hC.recount hA.cell rfl rfl (hopen'.trans hopen.symm)
  · rw [hrest _ hroot (h.child_ne_root _ _).symm]
    exact hI.control h.call c hat.1

theorem inv_applyLast {st : StateFilesize} (hat : h.At arith n colls c v) (hh : h.path ≠ [])
    (hj : (kids arith n c v)[j]? = some w)
    (hr : (s.part (h.child j)).response = .accepted v (responseFrom arith n c w))
    (hA : Active arith n c v h (s.part h) (servedKids arith n c v s h) st)
    (hlast : (servedKids arith n c v s h).card + 1 = (kids arith n c v).length) :
    FilesizeInv arith n colls ((((s.modify (h.child j) fun p => { p with response := .served }).log
      (.apply (h.child j) h)).modify h (respondPart arith n c v (counted arith n c w st))).log
        (.respond h v (parentOf arith n c v))) := by
  set u := (((s.modify (h.child j) fun p => { p with response := .served }).log
    (.apply (h.child j) h)).modify h (respondPart arith n c v (counted arith n c w st))).log
      (.respond h v (parentOf arith n c v))
  have hS := S.at_ hat
  have hv := hat.mem_nodes hS
  have hself : u.part h = respondPart arith n c v (counted arith n c w st) (s.part h) := by
    simp [u, FilesizeNet.part_modify, (h.child_ne j).symm]
  have hchild : u.part (h.child j) = { s.part (h.child j) with response := .served } := by
    simp [u, FilesizeNet.part_modify, h.child_ne j]
  have hrest : ∀ g, g ≠ h → g ≠ h.child j → u.part g = s.part g := by
    intro g hg hgj
    simp [u, FilesizeNet.part_modify, hg, hgj]
  have hfull : ((counted arith n c w st).raise (ownSize v)).full = true := by
    rw [full_raise]
    exact (full_counted hS hv hA).mpr hlast
  have hP : PartsInv arith n colls u := by
    obtain ⟨hreq, hthread⟩ := (hI.parts.ok h c v hat).created (by simp [hA.cell])
    refine counted_parts hI hat hj hr hself hchild hrest
      ⟨Iff.rfl, by simp [respondPart, hA.response]⟩ ?_
    exact .done hreq hthread (fun h0 => by omega)
      (insert_servedKids (List.getElem?_eq_some_iff.mp hj).1 hlast (by simp [hr]))
      (.holding _ hh rfl (hA.record.counted.raise _) hfull rfl (Or.inl rfl))
  refine hI.next_below hI.fault hP hat hh rfl rfl
    (fun k hk => hrest _ hk (h.child_ne_root _ _).symm) (cell_of_child hchild hrest) fun hw => ?_
  rw [hself] at hw
  exact absurd hw (not_wanted_of_full hh rfl hfull)

theorem inv_applyRoot {st : StateFilesize} (hc : colls[i]? = some c)
    (hj : (kids arith n c c.root)[j]? = some w)
    (hr : (s.part (Handle.child ⟨i, []⟩ j)).response = .accepted c.root (responseFrom arith n c w))
    (hA : Active arith n c c.root ⟨i, []⟩ (s.part ⟨i, []⟩)
    (servedKids arith n c c.root s ⟨i, []⟩) st)
    (hlast : (servedKids arith n c c.root s ⟨i, []⟩).card + 1 = (kids arith n c c.root).length)
    (hn : 1 < n) :
    FilesizeInv arith n colls ((((s.modify (Handle.child ⟨i, []⟩ j) fun p =>
        { p with response := .served }).log (.apply (Handle.child ⟨i, []⟩ j) ⟨i, []⟩)).modify
      ⟨i, []⟩ fun p =>
        { p with cell := .live ((counted arith n c w st).raise (ownSize c.root)) }).setControl i
          fun r => { r with wake := .lock }) := by
  have hat : (⟨i, []⟩ : Handle).At arith n colls c c.root := at_root hc
  set h : Handle := ⟨i, []⟩ with hh
  set t := ((s.modify (h.child j) fun p => { p with response := .served }).log
    (.apply (h.child j) h)).modify h fun p =>
      { p with cell := .live ((counted arith n c w st).raise (ownSize c.root)) }
  have hS := S.at_ hat
  have hv := hat.mem_nodes hS
  have hself : t.part h =
      { s.part h with cell := .live ((counted arith n c w st).raise (ownSize c.root)) } := by
    simp [t, FilesizeNet.part_modify, (h.child_ne j).symm]
  have hchild : t.part (h.child j) = { s.part (h.child j) with response := .served } := by
    simp [t, FilesizeNet.part_modify, h.child_ne j]
  have hrest : ∀ g, g ≠ h → g ≠ h.child j → t.part g = s.part g := by
    intro g hg hgj
    simp [t, FilesizeNet.part_modify, hg, hgj]
  have hopen : st.full = false := hA.not_full hS hv (by omega)
  have hfull : ((counted arith n c w st).raise (ownSize c.root)).full = true := by
    rw [full_raise]
    exact (full_counted hS hv hA).mpr hlast
  have hserved := insert_servedKids (List.getElem?_eq_some_iff.mp hj).1 hlast (by simp [hr])
  have hsize : ((counted arith n c w st).raise (ownSize c.root)).filesize =
    subtreeSize arith n c c.root :=
    filesize_raise hS hv (by rw [filesize_counted hA.filesize hj, hserved])
  have hP : PartsInv arith n colls t := by
    obtain ⟨hreq, hthread⟩ := (hI.parts.ok h c c.root hat).created (by simp [hA.cell])
    refine counted_parts hI hat hj hr hself hchild hrest ⟨Iff.rfl, Iff.rfl⟩ ?_
    exact .done hreq hthread (fun h0 => by omega) hserved
      (.root _ rfl rfl (hA.record.counted.raise _) hfull hsize hA.response hA.releasing)
  refine hI.next_at hI.fault ⟨hP.ok, hP.elsewhere⟩ hat rfl ?_
    (fun k hk => hrest _ hk (h.child_ne_root _ _).symm) (cell_of_child hchild hrest)
    (fun _ => ⟨st, hA.cell, Or.inl hopen⟩) ?_
  · intro k hk
    rw [FilesizeNet.control_setControl, if_neg hk]
    rfl
  · rw [FilesizeNet.control_setControl, if_pos rfl, FilesizeNet.part_setControl, hself]
    exact (hI.control i c hc).fill (q := { s.part h with
      cell := .live ((counted arith n c w st).raise (ownSize c.root)) }) hn hA.cell hopen rfl rfl
        hfull

/-! ## Freeing -/

omit S in
theorem inv_release {st : StateFilesize} (hat : h.At arith n colls c v) (hh : h.path ≠ [])
    (hp : (s.part h).cell = .live st) (hrel : (s.part h).releasing = some c.reply) :
    FilesizeInv arith n colls
    ((s.modify h fun p => { p with cell := .freed, releasing := none }).log
      (.free h)) := by
  set u := (s.modify h fun p => { p with cell := .freed, releasing := none }).log (.free h)
  have hself : u.part h = { s.part h with cell := .freed, releasing := none } := by
    simp [u, FilesizeNet.part_modify]
  have hrest : ∀ g, g ≠ h → u.part g = s.part g := by
    intro g hg
    simp [u, FilesizeNet.part_modify, hg]
  have hP : PartsInv arith n colls u := by
    refine hI.parts.self hat hrest ?_ ?_
    · rw [hself]
      exact ⟨Iff.rfl, Iff.rfl⟩
    · rw [hself]
      cases hI.parts.ok h c v hat with
      | before hf =>
        rw [hf.eq] at hp
        simp at hp
      | active _ _ _ hA => simp [hA.releasing] at hrel
      | done hreq ht h0 hJ hD =>
        exact .done hreq ht h0 hJ (.released hh rfl rfl (hD.answered hh))
  refine hI.next_below hI.fault hP hat hh rfl rfl (fun k hk => hrest _ hk)
    (fun g hg => by rw [hrest g hg]) ?_
  rintro ⟨st', hlive, -⟩
  rw [hself] at hlive
  simp at hlive

omit S in
theorem inv_finish {st : StateFilesize} {e₁ e₂ : FilesizeEvent} (hc : colls[i]? = some c)
    (hp : (s.part ⟨i, []⟩).cell = .live st) (ht : (s.part ⟨i, []⟩).thread = none)
    (hJ : servedKids arith n c c.root s ⟨i, []⟩ = Finset.range (kids arith n c c.root).length)
    (hD : RecordDone arith n c c.root ⟨i, []⟩ (s.part ⟨i, []⟩))
    (hwake : (s.control i).wake = if 1 < n then .done else .idle) :
    FilesizeInv arith n colls (((((s.setControl i fun r =>
      { r with main := .finished, mutex := none }).modify ⟨i, []⟩ fun p =>
        { p with cell := .freed }).setGlbSt c.root none).log e₁).log e₂) := by
  have hat : (⟨i, []⟩ : Handle).At arith n colls c c.root := at_root hc
  set h : Handle := ⟨i, []⟩
  set u := ((((s.setControl i fun r => { r with main := .finished, mutex := none }).modify h
    fun p => { p with cell := .freed }).setGlbSt c.root none).log e₁).log e₂
  have hself : u.part h = { s.part h with cell := .freed } := by
    simp [u, FilesizeNet.part_modify]
  have hrest : ∀ g, g ≠ h → u.part g = s.part g := by
    intro g hg
    simp [u, FilesizeNet.part_modify, hg]
  have hctl : ∀ k, u.control k =
      if k = i then { s.control i with main := .finished, mutex := none } else s.control k :=
    fun k => FilesizeNet.control_setControl s i k fun r =>
      { r with main := .finished, mutex := none }
  have hP : PartsInv arith n colls u := by
    obtain ⟨hreq, hthread⟩ := (hI.parts.ok h c c.root hat).created (by simp [hp])
    refine hI.parts.self hat hrest ?_ ?_
    · rw [hself]
      exact ⟨Iff.rfl, Iff.rfl⟩
    · rw [hself]
      refine .done hreq hthread (fun _ => ht) hJ ?_
      cases hD with
      | root _ _ _ _ _ _ hresp hrel | rootFreed _ _ hresp hrel =>
        exact .rootFreed rfl rfl hresp hrel
      | holding _ hne | released hne => exact absurd rfl hne
  refine hI.next (i := i) hI.fault hP hc ?_ (fun k hk => hrest _ (root_ne k hk)) ?_ ?_
  · intro k hk
    rw [hctl, if_neg hk]
  · rw [hctl, if_pos rfl, hself]
    exact .finished rfl ht rfl rfl hwake
  · -- `glb_st` of the root pointed to the record that was freed
    intro g d x hgat hw
    have hg : g ≠ h := by
      rintro rfl
      obtain ⟨st', hlive, -⟩ := hw
      rw [hself] at hlive
      simp at hlive
    rw [hrest g hg] at hw
    have hglb := hI.glbSt g d x hgat hw
    have hroot := hI.glbSt h c c.root hat ⟨st, hp, Or.inr rfl⟩
    have hx : x ≠ c.root := by
      rintro rfl
      exact hg (Option.some.inj (hglb.symm.trans hroot))
    calc u.glbSt x = if x = c.root then none else s.glbSt x :=
          FilesizeNet.glbSt_setGlbSt _ _ _ _
      _ = some g := by rw [if_neg hx, hglb]

/-! ## Every step -/

theorem filesizeInv_move (hm : Move arith n colls s a u) (hq : Quiet colls s a) :
    FilesizeInv arith n colls u := by
  cases hm with
  | control hc hok => exact inv_control hI hc hok
  | silent hat hvis hok hcell hthread => exact inv_silent hI hat hvis hok hcell hthread
  | start hc _ hp => exact inv_start S hI hc hp (hq _ hc)
  | alloc hat hh hp => exact inv_alloc S hI hat hh hp (hq _ _ (by rw [hp]))
  | forward hat hF hrank hcount hw hj hsent hreq hA hkid =>
    exact inv_forward hI hat hrank hcount hw hj hsent hF hreq hA hkid
  | leaf hat hh _ hK _ _ hreq hA => exact inv_leaf S hI hat hh hK hreq hA
  | endRoot hc hn hF hw hnext hm =>
    exact inv_endRoot hI hc hn (S _ (List.mem_of_getElem? hc)) hF hw hnext hm
  | endAlone hc hn _ _ _ hm hK hA => exact inv_endAlone S hI hc hn hK hm hA
  | apply hat hj hr hA hmore => exact inv_apply S hI hat hj hr hA hmore
  | applyLast hat hh hj hr hA hlast => exact inv_applyLast S hI hat hh hj hr hA hlast
  | applyRoot hc hj hr hA hlast hn => exact inv_applyRoot S hI hc hj hr hA hlast hn
  | release hat hh hp hrel => exact inv_release hI hat hh hp hrel
  | finish hc hp ht hJ hD _ hwake => exact inv_finish hI hc hp ht hJ hD hwake

end Steps

end Metasim
