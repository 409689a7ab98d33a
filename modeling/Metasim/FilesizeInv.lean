import Metasim.Filesize

/-! The invariant of the filesize collectives while no server loses track of a record. -/
namespace Metasim

variable {arith : ℤ → ℤ} {n v w : ℤ} {colls : List Collective} {c d : Collective} {h g : Handle}
  {s u : FilesizeNet} {i j : ℕ}

/-! ## Sizes -/

open Classical in
/-- The maximum over the subtree of `v` in the tree of `c`. -/
noncomputable def subtreeSize (arith : ℤ → ℤ) (n : ℤ) (c : Collective) (v : ℤ) : ℕ :=
  ((Finset.Ico 0 n).filter fun x => Descends arith n c.root c.degree x v).sup ownSize

theorem subtreeSize_eq (S : SoundFor arith n c) (v : ℤ) :
    subtreeSize arith n c v = (S.tree.subtree v).sup ownSize := by
  refine congrArg (Finset.sup · ownSize) ?_
  ext x
  simp only [Finset.mem_filter, S.tree.mem_subtree, S.below_iff_descends]
  rfl

/-- The maximum over the children with positions in `J`. -/
noncomputable def kidsSize (arith : ℤ → ℤ) (n : ℤ) (c : Collective) (v : ℤ) (J : Finset ℕ) : ℕ :=
  J.sup fun j => subtreeSize arith n c ((kids arith n c v).getD j 0)

theorem subtreeSize_kids (S : SoundFor arith n c) (hv : v ∈ S.tree.nodes) :
    subtreeSize arith n c v =
      max (kidsSize arith n c v (Finset.range (kids arith n c v).length)) (ownSize v) := by
  have hkids : kidsSize arith n c v (Finset.range (kids arith n c v).length) =
      (kids arith n c v).toFinset.sup fun x => (S.tree.subtree x).sup ownSize := by
    refine eq_of_forall_ge_iff fun m => ?_
    simp only [kidsSize, Finset.sup_le_iff, Finset.mem_range, List.mem_toFinset, ←
      subtreeSize_eq S]
    constructor
    · intro h x hx
      obtain ⟨j, hj, rfl⟩ := List.mem_iff_getElem.mp hx
      have := h j hj
      rwa [List.getD_eq_getElem _ _ hj] at this
    · intro h j hj
      rw [List.getD_eq_getElem _ _ hj]
      exact h _ (List.getElem_mem hj)
  rw [hkids, subtreeSize_eq S, S.tree.sup_subtree ownSize hv, max_comm]
  rfl

/-- A root receives the maximum over all ranks. -/
theorem subtreeSize_root (S : SoundFor arith n c) :
    subtreeSize arith n c c.root = (Finset.Ico 0 n).sup ownSize := by
  have hsub : S.tree.subtree c.root = Finset.Ico 0 n := S.tree.subtree_root
  rw [subtreeSize_eq S, hsub]

theorem sup_ownSize (hn : 1 ≤ n) : (((Finset.Ico 0 n).sup ownSize : ℕ) : ℤ) = 100 * (n - 1) := by
  have hmax : (Finset.Ico 0 n).sup ownSize = (100 * (n - 1)).toNat := by
    apply le_antisymm
    · refine Finset.sup_le fun x hx => ?_
      have := Finset.mem_Ico.mp hx
      unfold ownSize
      omega
    · have hmem : n - 1 ∈ Finset.Ico 0 n := Finset.mem_Ico.mpr ⟨by omega, by omega⟩
      have := Finset.le_sup (f := ownSize) hmem
      unfold ownSize at this ⊢
      rwa [mul_comm]
  rw [hmax, Int.toNat_of_nonneg (by omega)]

/-! ## The invariant -/

/-- The rank above `v`, -1 for the root. -/
abbrev parentOf (arith : ℤ → ℤ) (n : ℤ) (c : Collective) (v : ℤ) : ℤ :=
  (localTree arith n c.root c.degree v).parentRank

/-- The request that reaches rank `v`. -/
def requestTo (arith : ℤ → ℤ) (n : ℤ) (c : Collective) (v : ℤ) : FilesizeRequestIn :=
  { root := c.root, degree := c.degree, reply := c.reply, tag := parentOf arith n c v }

/-- The response that leaves rank `v`. -/
noncomputable def responseFrom (arith : ℤ → ℤ) (n : ℤ) (c : Collective) (v : ℤ) :
    FilesizeResponseIn :=
  { tag := parentOf arith n c v, filesize := subtreeSize arith n c v, err := 0 }

/-- What does not change in the record of rank `v`. -/
structure RecordOk (arith : ℤ → ℤ) (n : ℤ) (c : Collective) (v : ℤ) (st : StateFilesize) :
    Prop where
  root : st.root = c.root
  degree : st.degree = c.degree
  tree : st.tree = localTree arith n c.root c.degree v
  reply : st.reply = c.reply
  parentTag : st.parentTag = parentOf arith n c v
  tag : st.tag = v
  err : st.err = 0

/-- The positions of the children that have been sent a request. -/
def sentKids (arith : ℤ → ℤ) (n : ℤ) (c : Collective) (v : ℤ) (s : FilesizeNet) (h : Handle) :
    Finset ℕ :=
  (Finset.range (kids arith n c v).length).filter fun j => (s.part (h.child j)).request ≠ .unused

/-- The positions of the children whose responses have been counted. -/
def servedKids (arith : ℤ → ℤ) (n : ℤ) (c : Collective) (v : ℤ) (s : FilesizeNet) (h : Handle) :
    Finset ℕ :=
  (Finset.range (kids arith n c v).length).filter fun j => (s.part (h.child j)).response = .served

/-- How many requests the thread has sent, the one it waits in included. -/
def ForwardFrame.reached (F : ForwardFrame) : ℕ := if F.waiting then F.next + 1 else F.next

/-- The thread that sends the requests against the requests sent. -/
inductive ThreadOk (v : ℤ) (m : ℕ) (t : Option ForwardFrame) (sent : Finset ℕ) : Prop
  | ended : t = none → sent = Finset.range m → ThreadOk v m t sent
  | sending (F : ForwardFrame) : t = some F → F.rank = v → F.childCount = m → F.reached ≤ m →
      sent = Finset.range F.reached → ThreadOk v m t sent

/-- The request has been served; a root has none. -/
def Requested (h : Handle) (p : Part) : Prop :=
  p.request = if h.path = [] then .unused else .served

/-- A response with the size of the whole subtree. -/
def Answered (arith : ℤ → ℤ) (n : ℤ) (c : Collective) (v : ℤ) (p : Part) : Prop :=
  p.response = .sent (parentOf arith n c v) (responseFrom arith n c v) ∨
    p.response = .accepted (parentOf arith n c v) (responseFrom arith n c v) ∨ p.response = .served

/-- The record once all children have been counted. -/
inductive RecordDone (arith : ℤ → ℤ) (n : ℤ) (c : Collective) (v : ℤ) (h : Handle) (p : Part) : Prop
  | root (st : StateFilesize) : h.path = [] → p.cell = .live st → RecordOk arith n c v st →
      st.full = true → st.filesize = subtreeSize arith n c v → p.response = .unused →
      p.releasing = none → RecordDone arith n c v h p
  | rootFreed : h.path = [] → p.cell = .freed → p.response = .unused → p.releasing = none →
      RecordDone arith n c v h p
  | holding (st : StateFilesize) : h.path ≠ [] → p.cell = .live st → RecordOk arith n c v st →
      st.full = true → p.releasing = some c.reply → Answered arith n c v p →
        RecordDone arith n c v h p
  | released : h.path ≠ [] → p.cell = .freed → p.releasing = none → Answered arith n c v p →
      RecordDone arith n c v h p

/-- A rank before its record exists. -/
structure NoRecord (arith : ℤ → ℤ) (n : ℤ) (c : Collective) (v : ℤ) (h : Handle) (p : Part) :
    Prop where
  eq : p = { request := p.request }
  request : p.request = .unused ∨ h.path ≠ [] ∧
    (p.request = .sent v (requestTo arith n c v) ∨ p.request = .accepted v (requestTo arith n c v))

/-- A rank that counts responses, or has yet to send its own as it has no children. -/
structure Active (arith : ℤ → ℤ) (n : ℤ) (c : Collective) (v : ℤ) (h : Handle) (p : Part)
    (served : Finset ℕ) (st : StateFilesize) : Prop where
  cell : p.cell = .live st
  record : RecordOk arith n c v st
  response : p.response = .unused
  releasing : p.releasing = none
  numResponses : st.numResponses = served.card
  filesize : st.filesize = kidsSize arith n c v served
  open_ : served.card < (kids arith n c v).length ∨ (kids arith n c v).length = 0 ∧ p.thread ≠ none

/-- What is known of a rank, given which of its children have been sent a request and which
have been counted. -/
inductive PartOk (arith : ℤ → ℤ) (n : ℤ) (c : Collective) (v : ℤ) (h : Handle) (p : Part)
    (sent served : Finset ℕ) : Prop
  | before : NoRecord arith n c v h p → sent = ∅ → PartOk arith n c v h p sent served
  | active (st : StateFilesize) : Requested h p →
      ThreadOk v (kids arith n c v).length p.thread sent → Active arith n c v h p served st →
      PartOk arith n c v h p sent served
  | done : Requested h p → ThreadOk v (kids arith n c v).length p.thread sent →
      ((kids arith n c v).length = 0 → p.thread = none) →
      served = Finset.range (kids arith n c v).length → RecordDone arith n c v h p →
      PartOk arith n c v h p sent served

/-- The main thread of a collective, the mutex of its record and the handler that wakes it. -/
inductive ControlOk (n : ℤ) (size i : ℕ) (r : RootControl) (p : Part) : Prop
  | idle : r = {} → p.cell = .unallocated → ControlOk n size i r p
  | alone (st : StateFilesize) : ¬ 1 < n → p.cell = .live st → r.wake = .idle → r.mutex = none →
      (r.main = .forwarding ∧ p.thread ≠ none ∨
        p.thread = none ∧ (r.main = .awake ∨ r.main = .got size)) → ControlOk n size i r p
  | sending (st : StateFilesize) : 1 < n → p.cell = .live st → r.mutex = some (.main i) →
      (r.wake = if st.full then .lock else .idle) →
      (r.main = .forwarding ∧ p.thread ≠ none ∨ r.main = .ready ∧ p.thread = none) →
      ControlOk n size i r p
  | waiting (st : StateFilesize) : 1 < n → p.cell = .live st → p.thread = none →
      r.main = .waiting i →
      (r.mutex = none ∧ (r.wake = if st.full then .lock else .idle) ∨
        st.full = true ∧ r.mutex = some .handler ∧ r.wake = .signal) → ControlOk n size i r p
  | woken (st : StateFilesize) : 1 < n → p.cell = .live st → p.thread = none → st.full = true →
      r.main = .woken i →
      (r.mutex = some .handler ∧ r.wake = .unlock ∨ r.mutex = none ∧ r.wake = .done) →
      ControlOk n size i r p
  | got (st : StateFilesize) : 1 < n → p.cell = .live st → p.thread = none → st.full = true →
      r.main = .got size → r.mutex = some (.main i) → r.wake = .done → ControlOk n size i r p
  | finished : p.cell = .freed → p.thread = none → r.main = .finished → r.mutex = none →
      r.wake = (if 1 < n then .done else .idle) → ControlOk n size i r p

/-- The parts of all ranks in all collectives. -/
structure PartsInv (arith : ℤ → ℤ) (n : ℤ) (colls : List Collective) (s : FilesizeNet) : Prop where
  ok : ∀ h c v, h.At arith n colls c v →
    PartOk arith n c v h (s.part h) (sentKids arith n c v s h) (servedKids arith n c v s h)
  elsewhere : ∀ h, (∀ c v, ¬ h.At arith n colls c v) → s.part h = {}

/-- The record is there, and a response or the main thread of its root is still to look for it. -/
def Wanted (h : Handle) (p : Part) : Prop :=
  ∃ st, p.cell = .live st ∧ (st.full = false ∨ h.path = [])

/-- `glb_st` points to the record that is wanted. -/
structure FilesizeInv (arith : ℤ → ℤ) (n : ℤ) (colls : List Collective) (s : FilesizeNet) :
    Prop where
  fault : s.fault = false
  parts : PartsInv arith n colls s
  control : ∀ i c, colls[i]? = some c →
    ControlOk n (subtreeSize arith n c c.root) i (s.control i) (s.part ⟨i, []⟩)
  noControl : ∀ i, colls[i]? = none → s.control i = {}
  glbSt : ∀ h c v, h.At arith n colls c v → Wanted h (s.part h) → s.glbSt v = some h

theorem filesizeInv_start : FilesizeInv arith n colls FilesizeNet.start := by
  refine ⟨rfl, ⟨?_, fun _ _ => rfl⟩, ?_, fun _ _ => rfl, ?_⟩
  · intro h c v _
    refine .before ⟨rfl, Or.inl rfl⟩ ?_
    simp [sentKids, FilesizeNet.start]
  · intro i c _
    exact .idle rfl rfl
  · rintro h c v _ ⟨st, hc, _⟩
    simp [FilesizeNet.start] at hc

/-! ## What the invariant says of one rank -/

theorem mem_servedKids : j ∈ servedKids arith n c v s h ↔
    j < (kids arith n c v).length ∧ (s.part (h.child j)).response = .served := by
  rw [servedKids, Finset.mem_filter, Finset.mem_range]

theorem mem_sentKids : j ∈ sentKids arith n c v s h ↔
    j < (kids arith n c v).length ∧ (s.part (h.child j)).request ≠ .unused := by
  rw [sentKids, Finset.mem_filter, Finset.mem_range]

theorem insert_servedKids (hlt : j < (kids arith n c v).length)
    (hlast : (servedKids arith n c v s h).card + 1 = (kids arith n c v).length)
    (hnot : (s.part (h.child j)).response ≠ .served) :
    insert j (servedKids arith n c v s h) = Finset.range (kids arith n c v).length := by
  refine Finset.eq_of_subset_of_card_le ?_ ?_
  · exact Finset.insert_subset (Finset.mem_range.mpr hlt) (Finset.filter_subset _ _)
  · rw [Finset.card_insert_of_notMem (by simp [mem_servedKids, hnot]), Finset.card_range, hlast]

theorem length_kids (S : SoundFor arith n c) (hv : v ∈ S.tree.nodes) :
    ((kids arith n c v).length : ℤ) = (localTree arith n c.root c.degree v).childCount := by
  have hv := Finset.mem_Ico.mp hv
  exact S.length_children hv.1 hv.2

theorem RecordOk.full_iff (S : SoundFor arith n c) (hv : v ∈ S.tree.nodes) {st : StateFilesize}
    (hR : RecordOk arith n c v st) :
    st.full = true ↔ st.numResponses = (kids arith n c v).length := by
  rw [StateFilesize.full, beq_iff_eq, hR.tree, length_kids S hv]

theorem Active.leaf_of_full (S : SoundFor arith n c) (hv : v ∈ S.tree.nodes) {p : Part}
    {J : Finset ℕ} {st : StateFilesize} (hA : Active arith n c v h p J st)
    (hfull : st.full = true) :
    (kids arith n c v).length = 0 := by
  have hnum := (hA.record.full_iff S hv).mp hfull
  have hcard := hA.numResponses
  rcases hA.open_ with hlt | ⟨h0, _⟩
  · omega
  · exact h0

theorem Active.not_full (S : SoundFor arith n c) (hv : v ∈ S.tree.nodes) {p : Part}
    {J : Finset ℕ} {st : StateFilesize} (hA : Active arith n c v h p J st)
    (hK : (kids arith n c v).length ≠ 0) : st.full = false := by
  by_contra hf
  exact hK (hA.leaf_of_full S hv (by simpa using hf))

theorem RecordDone.answered {p : Part} (hD : RecordDone arith n c v h p) (hh : h.path ≠ []) :
    Answered arith n c v p := by
  cases hD with
  | root _ hp | rootFreed hp => exact absurd hp hh
  | holding _ _ _ _ _ _ ha | released _ _ _ ha => exact ha

theorem PartOk.created {p : Part} {I J : Finset ℕ} (hP : PartOk arith n c v h p I J)
    (hp : p.cell ≠ .unallocated) :
    Requested h p ∧ ThreadOk v (kids arith n c v).length p.thread I := by
  cases hP with
  | before hf =>
    rw [hf.eq] at hp
    exact absurd rfl hp
  | active _ hr ht | done hr ht => exact ⟨hr, ht⟩

theorem PartOk.cell_of_sent {p : Part} {I J : Finset ℕ} (hP : PartOk arith n c v h p I J)
    (hI : I ≠ ∅) : p.cell ≠ .unallocated := by
  cases hP with
  | before _ he => exact absurd he hI
  | active st _ _ hA => simp [hA.cell]
  | done _ _ _ _ hD => cases hD <;> simp_all

/-- Only a rank that has counted all its children has sent a response. -/
theorem PartOk.done_of_response {p : Part} {I J : Finset ℕ} (hP : PartOk arith n c v h p I J)
    (hp : p.response ≠ .unused) :
    h.path ≠ [] ∧ p.request = .served ∧ J = Finset.range (kids arith n c v).length ∧
      RecordDone arith n c v h p := by
  cases hP with
  | before hf =>
    rw [hf.eq] at hp
    exact absurd rfl hp
  | active st _ _ hA => exact absurd hA.response hp
  | done hr _ _ hJ hD =>
    have hh : h.path ≠ [] := by
      intro hh
      cases hD with
      | root _ _ _ _ _ _ hu | rootFreed _ _ hu => exact hp hu
      | holding _ hne | released hne => exact hne hh
    exact ⟨hh, hr.trans (if_neg hh), hJ, hD⟩

section Facts

variable (hI : PartsInv arith n colls s)
include hI

theorem PartsInv.at_of_part (hp : s.part h ≠ {}) : ∃ c v, h.At arith n colls c v := by
  by_contra hno
  simp only [not_exists] at hno
  exact hp (hI.elsewhere h hno)

/-- A child that has been counted has been sent a request. -/
theorem PartsInv.servedKids_subset (hat : h.At arith n colls c v) :
    servedKids arith n c v s h ⊆ sentKids arith n c v s h := by
  intro j hj
  rw [mem_servedKids] at hj
  refine mem_sentKids.mpr ⟨hj.1, ?_⟩
  have hatj : (h.child j).At arith n colls c (kids arith n c v)[j] :=
    at_child_iff.mpr ⟨v, hat, List.getElem?_eq_getElem hj.1⟩
  have hserved := ((hI.ok _ _ _ hatj).done_of_response (by simp [hj.2])).2.1
  simp [hserved]

end Facts

/-! ## Steps that move one or two parts -/

/-- Two parts that look alike from above. -/
def Visible (p q : Part) : Prop :=
  (p.request = .unused ↔ q.request = .unused) ∧ (p.response = .served ↔ q.response = .served)

theorem visible_of_eq {p q : Part} (h : p = q) : Visible p q := by
  rw [h]
  exact ⟨Iff.rfl, Iff.rfl⟩

theorem sentKids_congr (hk : ∀ j, Visible (u.part (h.child j)) (s.part (h.child j))) :
    sentKids arith n c v u h = sentKids arith n c v s h :=
  Finset.filter_congr fun j _ => not_congr (hk j).1

theorem servedKids_congr (hk : ∀ j, Visible (u.part (h.child j)) (s.part (h.child j))) :
    servedKids arith n c v u h = servedKids arith n c v s h :=
  Finset.filter_congr fun j _ => (hk j).2

/-- A step of one part that cannot be seen from above. -/
theorem PartsInv.self (hI : PartsInv arith n colls s) (hat : h.At arith n colls c v)
    (hrest : ∀ g, g ≠ h → u.part g = s.part g) (hvis : Visible (u.part h) (s.part h))
    (hok : PartOk arith n c v h (u.part h) (sentKids arith n c v s h)
      (servedKids arith n c v s h)) :
    PartsInv arith n colls u := by
  have hall : ∀ g, Visible (u.part g) (s.part g) := by
    intro g
    by_cases hg : g = h
    · rw [hg]
      exact hvis
    · exact visible_of_eq (hrest g hg)
  constructor
  · intro g d w hgat
    rw [sentKids_congr fun j => hall _, servedKids_congr fun j => hall _]
    by_cases hg : g = h
    · subst hg
      obtain ⟨rfl, rfl⟩ := at_unique hat hgat
      exact hok
    · rw [hrest g hg]
      exact hI.ok g d w hgat
  · intro g hno
    have hg : g ≠ h := by
      rintro rfl
      exact hno c v hat
    rw [hrest g hg]
    exact hI.elsewhere g hno

/-- A step of a part and of one of its children. -/
theorem PartsInv.kid (hI : PartsInv arith n colls s) (hat : h.At arith n colls c v)
    (hj : (kids arith n c v)[j]? = some w)
    (hrest : ∀ g, g ≠ h → g ≠ h.child j → u.part g = s.part g)
    (hvis : Visible (u.part h) (s.part h))
    (hok : PartOk arith n c v h (u.part h) (sentKids arith n c v u h) (servedKids arith n c v u h))
    (hkid : PartOk arith n c w (h.child j) (u.part (h.child j)) (sentKids arith n c w s (h.child j))
      (servedKids arith n c w s (h.child j))) : PartsInv arith n colls u := by
  have hatj : (h.child j).At arith n colls c w := at_child_iff.mpr ⟨v, hat, hj⟩
  have hall : ∀ g, g ≠ h.child j → Visible (u.part g) (s.part g) := by
    intro g hgj
    by_cases hg : g = h
    · rw [hg]
      exact hvis
    · exact visible_of_eq (hrest g hg hgj)
  have hother : ∀ g, g ≠ h → ∀ k, Visible (u.part (g.child k)) (s.part (g.child k)) := by
    intro g hg k
    refine hall _ fun heq => hg ?_
    exact (Handle.child_inj.mp heq).1
  constructor
  · intro g d x hgat
    by_cases hg : g = h
    · subst hg
      obtain ⟨rfl, rfl⟩ := at_unique hat hgat
      exact hok
    · rw [sentKids_congr (hother g hg), servedKids_congr (hother g hg)]
      by_cases hgj : g = h.child j
      · subst hgj
        obtain ⟨rfl, rfl⟩ := at_unique hatj hgat
        exact hkid
      · rw [hrest g hg hgj]
        exact hI.ok g d x hgat
  · intro g hno
    have hg : g ≠ h := by
      rintro rfl
      exact hno c v hat
    have hgj : g ≠ h.child j := by
      rintro rfl
      exact hno c w hatj
    rw [hrest g hg hgj]
    exact hI.elsewhere g hno

/-- A main thread sees of its root only the record and whether the thread has ended. -/
theorem ControlOk.congr {size : ℕ} {r : RootControl} {p q : Part} (hC : ControlOk n size i r p)
    (hcell : q.cell = p.cell) (hthread : q.thread = none ↔ p.thread = none) :
    ControlOk n size i r q := by
  cases hC with
  | idle hr hp => exact .idle hr (hcell.trans hp)
  | alone st hn hp hw hm ho =>
    refine .alone st hn (hcell.trans hp) hw hm ?_
    rwa [Ne, hthread]
  | sending st hn hp hm hw ho =>
    refine .sending st hn (hcell.trans hp) hm hw ?_
    rwa [Ne, hthread]
  | waiting st hn hp ht hm ho => exact .waiting st hn (hcell.trans hp) (hthread.mpr ht) hm ho
  | woken st hn hp ht hf hm ho => exact .woken st hn (hcell.trans hp) (hthread.mpr ht) hf hm ho
  | got st hn hp ht hf hm hx hw =>
    exact .got st hn (hcell.trans hp) (hthread.mpr ht) hf hm hx hw
  | finished hp ht hm hx hw => exact .finished (hcell.trans hp) (hthread.mpr ht) hm hx hw

end Metasim
