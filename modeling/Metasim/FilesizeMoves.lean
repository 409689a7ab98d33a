import Metasim.FilesizeInv

/-! What each step of the filesize collectives does while the invariant holds. -/
namespace Metasim

variable {arith : ℤ → ℤ} {n v w : ℤ} {colls : List Collective} {c d : Collective} {h g : Handle}
  {s u : FilesizeNet} {i j : ℕ} {a : FilesizeLabel}

/-! ## Levels -/

def Message.level {α : Type} : Message α → ℕ
  | .unused => 0
  | .sent _ _ => 1
  | .accepted _ _ => 2
  | .served => 3

def Cell.level : Cell → ℕ
  | .unallocated => 0
  | .live _ => 1
  | .freed => 2

def MainPc.level : MainPc → ℕ
  | .idle => 0
  | .forwarding => 1
  | .ready => 2
  | .waiting _ => 3
  | .woken _ => 4
  | .awake => 5
  | .got _ => 6
  | .finished => 7

def WakePc.level : WakePc → ℕ
  | .idle => 0
  | .lock => 1
  | .signal => 2
  | .unlock => 3
  | .done => 4

def RootControl.level (r : RootControl) : ℕ := r.main.level + r.wake.level

/-- A thread over at most `n` children. -/
def Part.threadLevel (n : ℤ) (p : Part) : ℕ :=
  match p.thread with
  | some F => 2 * F.next + if F.waiting then 2 else 1
  | none => if p.cell = .unallocated then 0 else 2 * n.toNat + 2

def Part.level (n : ℤ) (p : Part) : ℕ :=
  p.request.level + p.cell.level + p.response.level + p.threadLevel n

/-- Between its start and its end. -/
def MainPc.Running (m : MainPc) : Prop := m ≠ .idle ∧ m ≠ .finished

/-! ## Moves -/

/-- `allocate` for rank `v`, as the root or on a request. -/
def create (arith : ℤ → ℤ) (n : ℤ) (s : FilesizeNet) (h : Handle) (c : Collective) (v : ℤ) :
    FilesizeNet :=
  allocate arith n s h v c.root c.degree c.reply (parentOf arith n c v)
    (if h.path = [] then .unused else .served)

/-- The record `st` has been answered for. -/
noncomputable def respondPart (arith : ℤ → ℤ) (n : ℤ) (c : Collective) (v : ℤ) (st : StateFilesize)
    (p : Part) : Part :=
  { p with
    cell := .live (st.raise (ownSize v))
    response := .sent (parentOf arith n c v) (responseFrom arith n c v)
    releasing := some c.reply }

/-- The response of child `w` is counted. -/
noncomputable def counted (arith : ℤ → ℤ) (n : ℤ) (c : Collective) (w : ℤ) (st : StateFilesize) :
    StateFilesize :=
  (st.raise (subtreeSize arith n c w)).countResponse

/-- A step taken while the invariant holds, by what it changes. -/
inductive Move (arith : ℤ → ℤ) (n : ℤ) (colls : List Collective) (s : FilesizeNet) :
    FilesizeLabel → FilesizeNet → Prop
  /-- A main thread or the handler that wakes it. -/
  | control {a : FilesizeLabel} {i : ℕ} {c : Collective} {r : RootControl} :
      colls[i]? = some c → ControlOk n (subtreeSize arith n c c.root) i r (s.part ⟨i, []⟩) →
      (s.control i).main.Running → r.main.Running → (s.control i).level < r.level →
      Move arith n colls s a (s.setControl i fun _ => r)
  /-- A thread or a message of one rank. -/
  | silent {a : FilesizeLabel} {h : Handle} {c : Collective} {v : ℤ} {p : Part} :
      h.At arith n colls c v → Visible p (s.part h) →
      PartOk arith n c v h p (sentKids arith n c v s h) (servedKids arith n c v s h) →
      p.cell = (s.part h).cell →
      (h.path = [] → (p.thread = none ↔ (s.part h).thread = none)) →
      (p.response = .unused ↔ (s.part h).response = .unused) →
      (s.part h).level n < p.level n → Move arith n colls s a (s.modify h fun _ => p)
  | start {i : ℕ} {c : Collective} : colls[i]? = some c → (s.control i).main = .idle →
      s.part ⟨i, []⟩ = {} →
      Move arith n colls s (.start i) ((create arith n s ⟨i, []⟩ c c.root).setControl i
        fun _ => { main := .forwarding, mutex := if 1 < n then some (.main i) else none })
  | alloc {h : Handle} {c : Collective} {v : ℤ} : h.At arith n colls c v → h.path ≠ [] →
      s.part h = { request := .accepted v (requestTo arith n c v) } →
      Move arith n colls s (.alloc h) (create arith n s h c v)
  | forward {a : FilesizeLabel} {h : Handle} {c : Collective} {v w : ℤ} {F : ForwardFrame}
      {st : StateFilesize} : h.At arith n colls c v → (s.part h).thread = some F → F.rank = v →
      F.childCount = (kids arith n c v).length → F.waiting = false →
      (kids arith n c v)[F.next]? = some w → sentKids arith n c v s h = Finset.range F.next →
      Requested h (s.part h) → Active arith n c v h (s.part h) (servedKids arith n c v s h) st →
      s.part (h.child F.next) = {} →
      Move arith n colls s a ((s.modify (h.child F.next) fun p =>
          { p with request := .sent w (requestTo arith n c w) }).modify h fun p => { p with
            thread := some (if c.reply then { F with waiting := true }
              else { F with next := F.next + 1 }) })
  /-- The thread of a rank without children. -/
  | leaf {a : FilesizeLabel} {h : Handle} {c : Collective} {v : ℤ} {F : ForwardFrame}
      {st : StateFilesize} : h.At arith n colls c v → h.path ≠ [] → (s.part h).thread = some F →
      (kids arith n c v).length = 0 → F.next = 0 → F.waiting = false → Requested h (s.part h) →
      Active arith n c v h (s.part h) (servedKids arith n c v s h) st →
      Move arith n colls s a
        ((s.modify h fun p => { respondPart arith n c v st p with thread := none }).log
        (.respond h v (parentOf arith n c v)))
  /-- The thread of a root. -/
  | endRoot {a : FilesizeLabel} {i : ℕ} {c : Collective} {F : ForwardFrame} :
      colls[i]? = some c → 1 < n → (s.part ⟨i, []⟩).thread = some F → F.waiting = false →
      F.next = (kids arith n c c.root).length → (s.control i).main = .forwarding →
      Move arith n colls s a ((s.modify ⟨i, []⟩ fun p => { p with thread := none }).setControl i
        fun r => { r with main := .ready })
  | endAlone {a : FilesizeLabel} {i : ℕ} {c : Collective} {F : ForwardFrame} {st : StateFilesize} :
      colls[i]? = some c → ¬ 1 < n → (s.part ⟨i, []⟩).thread = some F → F.next = 0 →
      F.waiting = false → (s.control i).main = .forwarding → (kids arith n c c.root).length = 0 →
      Active arith n c c.root ⟨i, []⟩ (s.part ⟨i, []⟩) (servedKids arith n c c.root s ⟨i, []⟩) st →
      Move arith n colls s a ((s.modify ⟨i, []⟩ fun p => { p with
          thread := none
          cell := .live (st.raise (ownSize c.root)) }).setControl i
        fun r => { r with main := .awake })
  /-- A response that is not the last one the record waits for. -/
  | apply {a : FilesizeLabel} {h : Handle} {c : Collective} {v w : ℤ} {j : ℕ}
      {st : StateFilesize} : h.At arith n colls c v → (kids arith n c v)[j]? = some w →
      (s.part (h.child j)).response = .accepted v (responseFrom arith n c w) →
      Active arith n c v h (s.part h) (servedKids arith n c v s h) st →
      (servedKids arith n c v s h).card + 1 < (kids arith n c v).length →
      Move arith n colls s a (((s.modify (h.child j) fun p => { p with response := .served }).log
        (.apply (h.child j) h)).modify h fun p => { p with cell := .live (counted arith n c w st) })
  | applyLast {a : FilesizeLabel} {h : Handle} {c : Collective} {v w : ℤ} {j : ℕ}
      {st : StateFilesize} : h.At arith n colls c v → h.path ≠ [] →
      (kids arith n c v)[j]? = some w →
      (s.part (h.child j)).response = .accepted v (responseFrom arith n c w) →
      Active arith n c v h (s.part h) (servedKids arith n c v s h) st →
      (servedKids arith n c v s h).card + 1 = (kids arith n c v).length →
      Move arith n colls s a ((((s.modify (h.child j) fun p => { p with response := .served }).log
        (.apply (h.child j) h)).modify h (respondPart arith n c v (counted arith n c w st))).log
          (.respond h v (parentOf arith n c v)))
  | applyRoot {a : FilesizeLabel} {i : ℕ} {c : Collective} {w : ℤ} {j : ℕ} {st : StateFilesize} :
      colls[i]? = some c → (kids arith n c c.root)[j]? = some w →
      (s.part (Handle.child ⟨i, []⟩ j)).response = .accepted c.root (responseFrom arith n c w) →
      Active arith n c c.root ⟨i, []⟩ (s.part ⟨i, []⟩) (servedKids arith n c c.root s ⟨i, []⟩) st →
      (servedKids arith n c c.root s ⟨i, []⟩).card + 1 = (kids arith n c c.root).length → 1 < n →
      Move arith n colls s a ((((s.modify (Handle.child ⟨i, []⟩ j) fun p =>
          { p with response := .served }).log (.apply (Handle.child ⟨i, []⟩ j) ⟨i, []⟩)).modify
        ⟨i, []⟩ fun p =>
          { p with cell := .live ((counted arith n c w st).raise (ownSize c.root)) }).setControl i
            fun r => { r with wake := .lock })
  | release {a : FilesizeLabel} {h : Handle} {c : Collective} {v : ℤ} {st : StateFilesize} :
      h.At arith n colls c v → h.path ≠ [] → (s.part h).cell = .live st →
      (s.part h).releasing = some c.reply → Answered arith n c v (s.part h) →
      Move arith n colls s a ((s.modify h fun p => { p with cell := .freed, releasing := none }).log
        (.free h))
  | finish {a : FilesizeLabel} {i : ℕ} {c : Collective} {st : StateFilesize} :
      colls[i]? = some c → (s.part ⟨i, []⟩).cell = .live st → (s.part ⟨i, []⟩).thread = none →
      servedKids arith n c c.root s ⟨i, []⟩ = Finset.range (kids arith n c c.root).length →
      RecordDone arith n c c.root ⟨i, []⟩ (s.part ⟨i, []⟩) →
      (s.control i).main = .got (subtreeSize arith n c c.root) →
      ((s.control i).wake = if 1 < n then .done else .idle) →
      Move arith n colls s a (((((s.setControl i fun r =>
          { r with main := .finished, mutex := none }).modify ⟨i, []⟩ fun p =>
            { p with cell := .freed }).setGlbSt c.root none).log
              (.complete i (subtreeSize arith n c c.root))).log (.free ⟨i, []⟩))

/-! ## Records and their updates -/

theorem parentOf_kid (S : SoundFor arith n c) (hv : v ∈ S.tree.nodes)
    (hj : (kids arith n c v)[j]? = some w) : parentOf arith n c w = v := by
  have hw : w ∈ S.tree.nodes := S.tree.child_mem hv (List.mem_of_getElem? hj)
  exact (S.mem_children_iff_parentRank (Finset.mem_Ico.mp hv) (Finset.mem_Ico.mp hw)).mp
    (List.mem_of_getElem? hj)

theorem parentOf_ne (S : SoundFor arith n c) (hat : h.At arith n colls c v) (hh : h.path ≠ []) :
    parentOf arith n c v ≠ -1 := by
  have hv := Finset.mem_Ico.mp (hat.mem_nodes S)
  have hne := (S.tree.nodeAt_ne_root_iff (hat.nodeAt S)).mpr hh
  exact mt (S.parentRank_eq_neg_one_iff hv.1 hv.2).mp hne

theorem length_kids_le (S : SoundFor arith n c) (hv : v ∈ S.tree.nodes) :
    (kids arith n c v).length ≤ n.toNat := by
  have hsub : (kids arith n c v).toFinset ⊆ Finset.Ico 0 n := fun x hx =>
    S.tree.child_mem hv (List.mem_toFinset.mp hx)
  calc (kids arith n c v).length = (kids arith n c v).toFinset.card :=
        (List.toFinset_card_of_nodup (S.tree.child_nodup hv)).symm
    _ ≤ (Finset.Ico 0 n).card := Finset.card_le_card hsub
    _ = n.toNat := by rw [Int.card_Ico, sub_zero]

/-- The root of a tree of one rank has no children. -/
theorem kids_root (S : SoundFor arith n c) : (kids arith n c c.root).length ≠ 0 ↔ 1 < n := by
  constructor
  · intro h
    obtain ⟨w, hw⟩ := List.exists_mem_of_length_pos (Nat.pos_of_ne_zero h)
    have hroot := S.root_nonneg
    have hlt := S.root_lt
    obtain ⟨hwn, hne, -⟩ := (S.mem_children_iff hroot hlt).mp hw
    have hne : w ≠ c.root := hne
    change 0 ≤ c.root at hroot
    change c.root < n at hlt
    omega
  · intro hn h
    exact S.children_root_ne_nil hn (List.length_eq_zero_iff.mp h)

theorem RecordOk.childRank {st : StateFilesize} (hR : RecordOk arith n c v st)
    (hj : (kids arith n c v)[j]? = some w) : st.tree.childRanks[j]? = some w := by
  rw [hR.tree]
  simp only [RpcTree.children, List.getElem?_take] at hj
  split_ifs at hj
  exact hj

theorem RecordOk.request {st : StateFilesize} (S : SoundFor arith n c) (hv : v ∈ S.tree.nodes)
    (hR : RecordOk arith n c v st) (hj : (kids arith n c v)[j]? = some w) :
    st.request = requestTo arith n c w := by
  rw [StateFilesize.request, requestTo, hR.root, hR.degree, hR.reply, hR.tag, parentOf_kid S hv hj]

theorem RecordOk.raise {st : StateFilesize} (hR : RecordOk arith n c v st) (size : ℕ) :
    RecordOk arith n c v (st.raise size) := by
  unfold StateFilesize.raise
  split_ifs
  · exact ⟨hR.root, hR.degree, hR.tree, hR.reply, hR.parentTag, hR.tag, hR.err⟩
  · exact hR

theorem RecordOk.counted {st : StateFilesize} (hR : RecordOk arith n c v st) :
    RecordOk arith n c v (counted arith n c w st) := by
  obtain ⟨h1, h2, h3, h4, h5, h6, h7⟩ := hR.raise (subtreeSize arith n c w)
  exact ⟨h1, h2, h3, h4, h5, h6, h7⟩

/-- The record of a rank whose children have all been counted, with its own size. -/
theorem filesize_raise (S : SoundFor arith n c) (hv : v ∈ S.tree.nodes) {st : StateFilesize}
    (hsize : st.filesize = kidsSize arith n c v (Finset.range (kids arith n c v).length)) :
    (st.raise (ownSize v)).filesize = subtreeSize arith n c v := by
  rw [StateFilesize.raise_filesize, hsize, subtreeSize_kids S hv]

theorem full_raise (st : StateFilesize) (size : ℕ) : (st.raise size).full = st.full := by
  simp [StateFilesize.full]

theorem full_counted (S : SoundFor arith n c) (hv : v ∈ S.tree.nodes) {st : StateFilesize}
    {p : Part} {J : Finset ℕ} (hA : Active arith n c v h p J st) :
    (counted arith n c w st).full = true ↔ J.card + 1 = (kids arith n c v).length := by
  rw [hA.record.counted.full_iff S hv]
  simp only [counted, StateFilesize.countResponse, StateFilesize.raise_numResponses,
    hA.numResponses]
  omega

/-- Counting the last child. -/
theorem filesize_counted {st : StateFilesize} {J : Finset ℕ}
    (hsize : st.filesize = kidsSize arith n c v J) (hj : (kids arith n c v)[j]? = some w) :
    (counted arith n c w st).filesize = kidsSize arith n c v (insert j J) := by
  have hget : (kids arith n c v).getD j 0 = w := by rw [List.getD_eq_getElem?_getD, hj]; rfl
  simp only [counted, StateFilesize.countResponse, StateFilesize.raise_filesize, hsize, kidsSize,
    Finset.sup_insert, hget]
  exact max_comm _ _

theorem modify_modify (s : FilesizeNet) (h : Handle) (f f' : Part → Part) :
    (s.modify h f).modify h f' = s.modify h (f' ∘ f) := by
  simp [FilesizeNet.modify]

/-! ## `filesize_response_forward` -/

section ResponseForward

variable {st : StateFilesize} (S : SoundFor arith n c) (hat : h.At arith n colls c v)
  (hR : RecordOk arith n c v st) (hfull : st.full = true)
  (hsize : st.filesize = kidsSize arith n c v (Finset.range (kids arith n c v).length))
include S hat hR hfull

include hsize in
theorem responseForward_parent (hh : h.path ≠ []) : responseForward n v s h st =
    (s.modify h (respondPart arith n c v st)).log (.respond h v (parentOf arith n c v)) := by
  have hv := hat.mem_nodes S
  have hR' := hR.raise (ownSize v)
  have hparent : (st.raise (ownSize v)).tree.parentRank = parentOf arith n c v := by rw [hR'.tree]
  have hresp : (st.raise (ownSize v)).response = responseFrom arith n c v := by
    rw [StateFilesize.response, responseFrom, hR'.parentTag, filesize_raise S hv hsize, hR'.err]
  rw [responseForward, forward_of_full hfull]
  simp only [hparent, hresp, hR'.reply, if_pos (parentOf_ne S hat hh)]
  rfl

theorem responseForward_root (hh : h.path = []) : responseForward n v s h st =
    if 1 < n then (s.modify h fun p => { p with cell := .live (st.raise (ownSize v)) }).setControl
      h.call fun r => { r with wake := .lock }
    else s.modify h fun p => { p with cell := .live (st.raise (ownSize v)) } := by
  have hv := Finset.mem_Ico.mp (hat.mem_nodes S)
  have hroot : v = c.root := hat.root_of_path hh
  have hparent : (st.raise (ownSize v)).tree.parentRank = -1 := by
    rw [(hR.raise _).tree]
    exact (S.parentRank_eq_neg_one_iff hv.1 hv.2).mpr hroot
  rw [responseForward, forward_of_full hfull]
  simp only [hparent, ne_eq, not_true_eq_false, if_false]

end ResponseForward

/-! ## Every step is a move -/

/-- The parts of all ranks have the trees of their collectives. -/
abbrev AllSound (arith : ℤ → ℤ) (n : ℤ) (colls : List Collective) : Prop :=
  ∀ c ∈ colls, SoundFor arith n c

theorem AllSound.at_ (S : AllSound arith n colls) (hat : h.At arith n colls c v) :
    SoundFor arith n c :=
  S c (List.mem_of_getElem? hat.1)

theorem RecordDone.congr {p q : Part} (hD : RecordDone arith n c v h p) (hcell : q.cell = p.cell)
    (hresp : q.response = p.response) (hrel : q.releasing = p.releasing) :
    RecordDone arith n c v h q := by
  cases hD with
  | root st hh hp hR hfull hsize hu hr =>
    exact .root st hh (hcell.trans hp) hR hfull hsize (hresp.trans hu) (hrel.trans hr)
  | rootFreed hh hp hu hr => exact .rootFreed hh (hcell.trans hp) (hresp.trans hu) (hrel.trans hr)
  | holding st hh hp hR hfull hr ha =>
    exact .holding st hh (hcell.trans hp) hR hfull (hrel.trans hr) (by rwa [Answered, hresp])
  | released hh hp hr ha =>
    exact .released hh (hcell.trans hp) (hrel.trans hr) (by rwa [Answered, hresp])

theorem Active.setThread {p : Part} {J : Finset ℕ} {st : StateFilesize}
    (hA : Active arith n c v h p J st) (hK : (kids arith n c v).length ≠ 0)
    (t : Option ForwardFrame) :
    Active arith n c v h { p with thread := t } J st := by
  refine ⟨hA.cell, hA.record, hA.response, hA.releasing, hA.numResponses, hA.filesize, ?_⟩
  rcases hA.open_ with hlt | ⟨h0, _⟩
  · exact Or.inl hlt
  · exact absurd h0 hK

theorem PartOk.setThread {p : Part} {I J : Finset ℕ} {t : Option ForwardFrame}
    (hP : PartOk arith n c v h p I J) (hp : p.thread ≠ none) (hK : (kids arith n c v).length ≠ 0)
    (ht : ThreadOk v (kids arith n c v).length t I) :
    PartOk arith n c v h { p with thread := t } I J := by
  cases hP with
  | before hf =>
    rw [hf.eq] at hp
    exact absurd rfl hp
  | active st hr _ hA => exact .active st hr ht (hA.setThread hK t)
  | done hr _ _ hJ hD => exact .done hr ht (fun h0 => absurd h0 hK) hJ (hD.congr rfl rfl rfl)

section Resolve

variable (S : AllSound arith n colls) (hI : FilesizeInv arith n colls s)
include hI

/-- A thread that sends requests. -/
theorem FilesizeInv.thread {F : ForwardFrame} (hF : (s.part h).thread = some F) :
    ∃ c v, h.At arith n colls c v ∧ F.rank = v ∧ F.childCount = (kids arith n c v).length ∧
      F.reached ≤ (kids arith n c v).length ∧ sentKids arith n c v s h = Finset.range F.reached ∧
      Requested h (s.part h) := by
  obtain ⟨c, v, hat⟩ := hI.parts.at_of_part (h := h) (by intro he; simp [he] at hF)
  have hthread : Requested h (s.part h) ∧
      ThreadOk v (kids arith n c v).length (s.part h).thread (sentKids arith n c v s h) := by
    cases hI.parts.ok h c v hat with
    | before hf =>
      rw [hf.eq] at hF
      simp at hF
    | active _ hr ht | done hr ht => exact ⟨hr, ht⟩
  obtain ⟨hr, ht⟩ := hthread
  cases ht with
  | ended hn => simp [hF] at hn
  | sending G hG hrank hcount hle hsent =>
    obtain rfl := Option.some.inj (hF.symm.trans hG)
    exact ⟨c, v, hat, hrank, hcount, hle, hsent, hr⟩

theorem FilesizeInv.cell_of_thread (hat : h.At arith n colls c v) (ht : (s.part h).thread ≠ none) :
    (s.part h).cell ≠ .unallocated := by
  cases hI.parts.ok h c v hat with
  | before hf =>
    rw [hf.eq] at ht
    exact absurd rfl ht
  | active _ _ _ hA => simp [hA.cell]
  | done _ _ _ _ hD => cases hD <;> simp_all

/-- While not all children have been sent a request, or there are none and the thread is
there, the record is there and open. -/
theorem FilesizeInv.active {F : ForwardFrame} (hat : h.At arith n colls c v)
    (hF : (s.part h).thread = some F)
    (hopen : sentKids arith n c v s h ≠ Finset.range (kids arith n c v).length ∨
      (kids arith n c v).length = 0) :
    ∃ st, Active arith n c v h (s.part h) (servedKids arith n c v s h) st := by
  cases hI.parts.ok h c v hat with
  | before hf =>
    rw [hf.eq] at hF
    simp at hF
  | active st _ _ hA => exact ⟨st, hA⟩
  | done _ _ h0 hJ =>
    rcases hopen with hne | hK
    · have hsub := hI.parts.servedKids_subset hat
      rw [hJ] at hsub
      exact absurd (Finset.Subset.antisymm (Finset.filter_subset _ _) hsub) hne
    · exact absurd (h0 hK) (by simp [hF])

theorem move_returned (hs : FilesizeStep arith n colls s (.returned h) u) :
    Move arith n colls s (.returned h) u := by
  obtain ⟨-, F, hF, hw, -, rfl⟩ := step_returned.mp hs
  obtain ⟨c, v, hat, hrank, hcount, hle, hsent, -⟩ := hI.thread hF
  have hreach : F.reached = F.next + 1 := by simp [ForwardFrame.reached, hw]
  refine .silent hat ⟨Iff.rfl, Iff.rfl⟩ ((hI.parts.ok h c v hat).setThread (by simp [hF]) (by omega)
    (.sending _ rfl hrank hcount ?_ ?_)) rfl (by simp [hF]) Iff.rfl ?_
  · simp only [ForwardFrame.reached, Bool.false_eq_true, if_false]
    omega
  · rw [hsent, hreach]
    rfl
  · simp only [Part.level, Part.threadLevel, hF, hw, Bool.false_eq_true, if_true, if_false]
    omega

theorem move_accept (hs : FilesizeStep arith n colls s (.accept h) u) :
    Move arith n colls s (.accept h) u := by
  obtain ⟨-, dst, msg, hr, rfl⟩ := step_accept.mp hs
  obtain ⟨c, v, hat⟩ := hI.parts.at_of_part (h := h) (by intro he; simp [he] at hr)
  cases hI.parts.ok h c v hat with
  | before hf hsent =>
    rcases hf.request with hu | ⟨hh, hreq⟩
    · simp [hr] at hu
    have hmsg : dst = v ∧ msg = requestTo arith n c v := by
      rcases hreq with hreq | hreq
      · simpa [hr] using hreq
      · simp [hr] at hreq
    obtain ⟨rfl, rfl⟩ := hmsg
    refine .silent hat ⟨by simp [hr], Iff.rfl⟩ (.before ⟨?_, Or.inr ⟨hh, Or.inr rfl⟩⟩ hsent) rfl
      (fun _ => Iff.rfl) Iff.rfl ?_
    · rw [hf.eq]
    · simp [Part.level, Part.threadLevel, hr, Message.level]
  | active _ hreq | done hreq =>
    rw [Requested, hr] at hreq
    split_ifs at hreq

/-- A request whose handler has started. -/
theorem FilesizeInv.accepted {dst : ℤ} {msg : FilesizeRequestIn}
    (hr : (s.part h).request = .accepted dst msg) :
    ∃ c, h.At arith n colls c dst ∧ h.path ≠ [] ∧ msg = requestTo arith n c dst ∧
      s.part h = { request := .accepted dst msg } := by
  obtain ⟨c, v, hat⟩ := hI.parts.at_of_part (h := h) (by intro he; simp [he] at hr)
  cases hI.parts.ok h c v hat with
  | before hf =>
    rcases hf.request with hu | ⟨hh, hreq⟩
    · simp [hr] at hu
    have hmsg : dst = v ∧ msg = requestTo arith n c v := by
      rcases hreq with hreq | hreq
      · simp [hr] at hreq
      · simpa [hr] using hreq
    obtain ⟨rfl, rfl⟩ := hmsg
    exact ⟨c, hat, hh, rfl, hf.eq.trans (by rw [hr])⟩
  | active _ hreq | done hreq =>
    rw [Requested, hr] at hreq
    split_ifs at hreq

theorem move_alloc (hs : FilesizeStep arith n colls s (.alloc h) u) :
    Move arith n colls s (.alloc h) u := by
  obtain ⟨-, dst, msg, hr, rfl⟩ := step_alloc.mp hs
  obtain ⟨c, hat, hh, rfl, hp⟩ := hI.accepted hr
  have hm := Move.alloc hat hh hp
  rwa [create, if_neg hh] at hm

theorem move_acceptResponse (hs : FilesizeStep arith n colls s (.acceptResponse h) u) :
    Move arith n colls s (.acceptResponse h) u := by
  obtain ⟨-, dst, msg, hr, rfl⟩ := step_acceptResponse.mp hs
  obtain ⟨c, v, hat⟩ := hI.parts.at_of_part (h := h) (by intro he; simp [he] at hr)
  cases hI.parts.ok h c v hat with
  | before hf =>
    rw [hf.eq] at hr
    simp at hr
  | active _ _ _ hA => simp [hA.response] at hr
  | done hreq ht h0 hJ hD =>
    have hmsg : dst = parentOf arith n c v ∧ msg = responseFrom arith n c v := by
      cases hD with
      | root _ _ _ _ _ _ hu | rootFreed _ _ hu => simp [hr] at hu
      | holding _ _ _ _ _ _ ha | released _ _ _ ha => simpa [Answered, hr] using ha
    obtain ⟨rfl, rfl⟩ := hmsg
    refine .silent hat ⟨Iff.rfl, by simp [hr]⟩ (.done hreq ht h0 hJ ?_) rfl (fun _ => Iff.rfl)
      (by simp [hr]) ?_
    · cases hD with
      | root _ _ _ _ _ _ hu | rootFreed _ _ hu => simp [hr] at hu
      | holding st hh hp hR hfull hrel =>
        exact .holding st hh hp hR hfull hrel (Or.inr (Or.inl rfl))
      | released hh hp hrel => exact .released hh hp hrel (Or.inr (Or.inl rfl))
    · simp [Part.level, Part.threadLevel, hr, Message.level]

theorem move_release (hs : FilesizeStep arith n colls s (.release h) u) :
    Move arith n colls s (.release h) u := by
  obtain ⟨-, reply, hr, -, rfl⟩ := step_release.mp hs
  obtain ⟨c, v, hat⟩ := hI.parts.at_of_part (h := h) (by intro he; simp [he] at hr)
  cases hI.parts.ok h c v hat with
  | before hf =>
    rw [hf.eq] at hr
    simp at hr
  | active _ _ _ hA => simp [hA.releasing] at hr
  | done _ _ _ _ hD =>
    cases hD with
    | root _ _ _ _ _ _ _ hn | rootFreed _ _ _ hn | released _ _ hn => simp [hr] at hn
    | holding st hh hp _ _ hrel ha =>
      rw [FilesizeNet.deref_live hp]
      exact .release hat hh hp hrel ha

theorem FilesizeInv.collective (hr : s.control i ≠ {}) : ∃ c, colls[i]? = some c := by
  cases hc : colls[i]? with
  | none => exact absurd (hI.noControl i hc) hr
  | some c => exact ⟨c, rfl⟩

theorem FilesizeInv.idle_root (hc : colls[i]? = some c) (hm : (s.control i).main = .idle) :
    s.control i = {} ∧ (s.part ⟨i, []⟩).cell = .unallocated := by
  cases hI.control i c hc with
  | idle hr hp => exact ⟨hr, hp⟩
  | alone _ _ _ _ _ ho => rcases ho with ⟨h1, _⟩ | ⟨_, h1 | h1⟩ <;> simp [hm] at h1
  | sending _ _ _ _ _ ho => rcases ho with ⟨h1, _⟩ | ⟨h1, _⟩ <;> simp [hm] at h1
  | waiting _ _ _ _ h1 | woken _ _ _ _ _ h1 | got _ _ _ _ _ h1 | finished _ _ h1 =>
    simp [hm] at h1

theorem move_wakeLock (hs : FilesizeStep arith n colls s (.wakeLock i) u) :
    Move arith n colls s (.wakeLock i) u := by
  obtain ⟨-, hw, hm, rfl⟩ := step_wakeLock.mp hs
  obtain ⟨c, hc⟩ := hI.collective (i := i) (by intro he; simp [he] at hw)
  cases hI.control i c hc with
  | idle hr => simp [hr] at hw
  | alone _ _ _ hwake => simp [hw] at hwake
  | sending _ _ _ hmutex => simp [hm] at hmutex
  | woken _ _ _ _ _ _ ho => rcases ho with ⟨_, hwake⟩ | ⟨_, hwake⟩ <;> simp [hw] at hwake
  | got _ _ _ _ _ _ _ hwake => simp [hw] at hwake
  | finished _ _ _ _ hwake =>
    rw [hw] at hwake
    split_ifs at hwake
  | waiting st hn hp ht hmain ho =>
    have hfull : st.full = true := by
      rcases ho with ⟨_, hwake⟩ | ⟨hf, _⟩
      · by_contra hf
        simp [hw, hf] at hwake
      · exact hf
    rw [FilesizeNet.deref_live hp]
    refine .control (r := { s.control i with wake := .signal, mutex := some .handler }) hc
      (.waiting st hn hp ht hmain (Or.inr ⟨hfull, rfl, rfl⟩)) ?_ ?_ ?_
    · simp [MainPc.Running, hmain]
    · simp [MainPc.Running, hmain]
    · simp [RootControl.level, WakePc.level, hw]

theorem move_wakeSignal {k : Option ℕ} (hs : FilesizeStep arith n colls s (.wakeSignal i k) u) :
    Move arith n colls s (.wakeSignal i k) u := by
  obtain ⟨-, hw, hu⟩ := step_wakeSignal.mp hs
  obtain ⟨c, hc⟩ := hI.collective (i := i) (by intro he; simp [he] at hw)
  have hlt := (List.getElem?_eq_some_iff.mp hc).1
  cases hI.control i c hc with
  | idle hr => simp [hr] at hw
  | alone _ _ _ hwake => simp [hw] at hwake
  | sending _ _ _ _ hwake =>
    rw [hw] at hwake
    split_ifs at hwake
  | woken _ _ _ _ _ _ ho => rcases ho with ⟨_, hwake⟩ | ⟨_, hwake⟩ <;> simp [hw] at hwake
  | got _ _ _ _ _ _ _ hwake => simp [hw] at hwake
  | finished _ _ _ _ hwake =>
    rw [hw] at hwake
    split_ifs at hwake
  | waiting st hn hp ht hmain ho =>
    have hfull : st.full = true ∧ (s.control i).mutex = some .handler := by
      rcases ho with ⟨_, hwake⟩ | ⟨hf, hmutex, _⟩
      · rw [hw] at hwake
        split_ifs at hwake
      · exact ⟨hf, hmutex⟩
    rcases hu with ⟨k, -, hk, rfl⟩ | ⟨-, hno, -⟩
    · -- only the main thread of this collective waits on this record
      obtain rfl : k = i := by
        obtain ⟨d, hd⟩ := hI.collective (i := k) (by intro he; simp [he] at hk)
        cases hI.control k d hd with
        | idle hr => simp [hr] at hk
        | alone _ _ _ _ _ ho => rcases ho with ⟨hm, _⟩ | ⟨_, hm | hm⟩ <;> simp [hk] at hm
        | sending _ _ _ _ _ ho => rcases ho with ⟨hm, _⟩ | ⟨hm, _⟩ <;> simp [hk] at hm
        | woken _ _ _ _ _ hm | got _ _ _ _ _ hm | finished _ _ hm => simp [hk] at hm
        | waiting _ _ _ _ hm =>
          rw [hk] at hm
          exact (MainPc.waiting.inj hm).symm
      rw [FilesizeNet.deref_live hp]
      have hset : (s.setControl k fun r => { r with main := .woken k }).setControl k
          (fun r => { r with wake := .unlock }) =
          s.setControl k fun _ => { s.control k with main := .woken k, wake := .unlock } := by
        simp [FilesizeNet.setControl]
      rw [hset]
      refine .control hc (.woken st hn hp ht hfull.1 rfl (Or.inl ⟨hfull.2, rfl⟩)) ?_ ?_ ?_
      · simp [MainPc.Running, hmain]
      · simp [MainPc.Running]
      · simp [RootControl.level, WakePc.level, MainPc.level, hw, hmain]
    · exact absurd hmain (hno i hlt)

theorem move_wakeUnlock (hs : FilesizeStep arith n colls s (.wakeUnlock i) u) :
    Move arith n colls s (.wakeUnlock i) u := by
  obtain ⟨-, hw, rfl⟩ := step_wakeUnlock.mp hs
  obtain ⟨c, hc⟩ := hI.collective (i := i) (by intro he; simp [he] at hw)
  cases hI.control i c hc with
  | idle hr => simp [hr] at hw
  | alone _ _ _ hwake => simp [hw] at hwake
  | sending _ _ _ _ hwake =>
    rw [hw] at hwake
    split_ifs at hwake
  | waiting _ _ _ _ _ ho =>
    rcases ho with ⟨_, hwake⟩ | ⟨_, _, hwake⟩
    · rw [hw] at hwake
      split_ifs at hwake
    · simp [hw] at hwake
  | got _ _ _ _ _ _ _ hwake => simp [hw] at hwake
  | finished _ _ _ _ hwake =>
    rw [hw] at hwake
    split_ifs at hwake
  | woken st hn hp ht hfull hmain =>
    rw [FilesizeNet.deref_live hp]
    refine .control (r := { s.control i with wake := .done, mutex := none }) hc
      (.woken st hn hp ht hfull hmain (Or.inr ⟨rfl, rfl⟩)) ?_ ?_ ?_
    · simp [MainPc.Running, hmain]
    · simp [MainPc.Running, hmain]
    · simp [RootControl.level, WakePc.level, hw]

theorem move_wait (hs : FilesizeStep arith n colls s (.wait i) u) :
    Move arith n colls s (.wait i) u := by
  obtain ⟨-, c, hc, hm, rfl⟩ := step_wait.mp hs
  cases hI.control i c hc with
  | idle hr => simp [hr] at hm
  | alone _ _ _ _ _ ho => rcases ho with ⟨hmain, _⟩ | ⟨_, hmain | hmain⟩ <;> simp [hm] at hmain
  | waiting _ _ _ _ hmain | woken _ _ _ _ _ hmain | got _ _ _ _ _ hmain | finished _ _ hmain =>
    simp [hm] at hmain
  | sending st hn hp hmutex hwake ho =>
    have ht : (s.part ⟨i, []⟩).thread = none := by
      rcases ho with ⟨hmain, _⟩ | ⟨_, ht⟩
      · simp [hm] at hmain
      · exact ht
    have hglb := hI.glbSt _ c c.root (at_root hc) ⟨st, hp, Or.inr rfl⟩
    rw [FilesizeNet.derefGlbSt_live hglb hp, if_pos rfl]
    have hset : (s.setControl i fun r => { r with main := .waiting i }).setControl i
        (fun r => { r with mutex := none }) =
        s.setControl i fun _ => { s.control i with main := .waiting i, mutex := none } := by
      simp [FilesizeNet.setControl]
    rw [hset]
    refine .control hc (.waiting st hn hp ht rfl (Or.inl ⟨rfl, hwake⟩)) ?_ ?_ ?_
    · simp [MainPc.Running, hm]
    · simp [MainPc.Running]
    · simp [RootControl.level, MainPc.level, hm]

include S

theorem move_start (hs : FilesizeStep arith n colls s (.start i) u) :
    Move arith n colls s (.start i) u := by
  obtain ⟨-, c, hc, hidle, rfl⟩ := step_start.mp hs
  have hS := S c (List.mem_of_getElem? hc)
  have hroot : s.part ⟨i, []⟩ = {} := by
    have hcell := (hI.idle_root hc hidle).2
    cases hI.parts.ok _ _ _ (at_root hc) with
    | before hf =>
      rcases hf.request with hr | ⟨hne, _⟩
      · rw [hf.eq, hr]
      · exact absurd rfl hne
    | active _ _ _ hA => simp [hA.cell] at hcell
    | done _ _ _ _ hD => cases hD <;> simp_all
  have hparent : parentOf arith n c c.root = -1 := hS.parentRank_root
  have hm : Move arith n colls s (.start i) _ := .start hc hidle hroot
  rwa [create, hparent, if_pos rfl] at hm

theorem move_forward (hs : FilesizeStep arith n colls s (.forward h) u) :
    Move arith n colls s (.forward h) u := by
  obtain ⟨-, F, hF, hw, hlt, rfl⟩ := step_forward.mp hs
  obtain ⟨c, v, hat, hrank, hcount, -, hsent, hreq⟩ := hI.thread hF
  have hS := S.at_ hat
  have hv := hat.mem_nodes hS
  have hreach : F.reached = F.next := by simp [ForwardFrame.reached, hw]
  rw [hreach] at hsent
  have hnext : F.next < (kids arith n c v).length := by omega
  obtain ⟨w, hj⟩ : ∃ w, (kids arith n c v)[F.next]? = some w := ⟨_, List.getElem?_eq_getElem hnext⟩
  obtain ⟨st, hA⟩ := hI.active hat hF (Or.inl (by
    intro he
    have := congrArg Finset.card (hsent.symm.trans he)
    simp only [Finset.card_range] at this
    omega))
  have hkid : s.part (h.child F.next) = {} := by
    have hunused : (s.part (h.child F.next)).request = .unused := by
      by_contra hne
      have hmem : F.next ∈ sentKids arith n c v s h := mem_sentKids.mpr ⟨hnext, hne⟩
      rw [hsent] at hmem
      simp at hmem
    cases hI.parts.ok _ _ _ (at_child_iff.mpr ⟨v, hat, hj⟩) with
    | before hf => rw [hf.eq, hunused]
    | active _ hr | done hr =>
      rw [Requested, if_neg (h.child_path _), hunused] at hr
      simp at hr
  rw [FilesizeNet.deref_live hA.cell]
  simp only [hA.record.childRank hj, hA.record.request hS hv hj, hA.record.reply]
  exact Move.forward hat hF hrank hcount hw hj hsent hreq hA hkid

theorem move_endForward (hs : FilesizeStep arith n colls s (.endForward h) u) :
    Move arith n colls s (.endForward h) u := by
  obtain ⟨-, F, t, hF, hw, hle, ht, hu⟩ := step_endForward.mp hs
  obtain ⟨c, v, hat, hrank, hcount, hreach, hsent, hreq⟩ := hI.thread hF
  have hS := S.at_ hat
  rw [show F.reached = F.next by simp [ForwardFrame.reached, hw]] at hreach hsent
  have hnext : F.next = (kids arith n c v).length := by omega
  by_cases hh : h.path = []
  · -- the main thread
    obtain ⟨i, p⟩ := h
    obtain rfl : p = [] := hh
    obtain rfl : c.root = v := Option.some.inj hat.2
    rw [if_pos rfl] at ht
    have hctl : (s.control i).main = .forwarding := by
      cases hI.control i c hat.1 with
      | idle hr hp => exact absurd hp (hI.cell_of_thread hat (by simp [hF]))
      | alone _ _ _ _ _ ho =>
        rcases ho with ⟨hm, _⟩ | ⟨hn, _⟩
        · exact hm
        · simp [hF] at hn
      | sending _ _ _ _ _ ho =>
        rcases ho with ⟨hm, _⟩ | ⟨_, hn⟩
        · exact hm
        · simp [hF] at hn
      | waiting _ _ _ hn | woken _ _ _ hn | got _ _ _ hn | finished _ hn => simp [hF] at hn
    by_cases hn : 1 < n
    · have hK := (kids_root hS).mpr hn
      rw [if_neg (by omega)] at hu
      rw [hu, ht]
      simp only [if_pos hn]
      exact .endRoot hat.1 hn hF hw hnext hctl
    · have hK : (kids arith n c c.root).length = 0 := by
        by_contra hne
        exact hn ((kids_root hS).mp hne)
      obtain ⟨st, hA⟩ := hI.active hat hF (Or.inr hK)
      have hserved : servedKids arith n c c.root s ⟨i, []⟩ = ∅ := by simp [servedKids, hK]
      have hfull : st.full = true := by
        rw [hA.record.full_iff hS (hat.mem_nodes hS), hA.numResponses, hserved, hK]
        rfl
      have hcell : (t.part ⟨i, []⟩).cell = .live st := by
        rw [ht, FilesizeNet.part_setControl, FilesizeNet.part_modify, if_pos rfl]
        exact hA.cell
      rw [if_pos (by omega), FilesizeNet.deref_live hcell, hrank,
        responseForward_root hS hat hA.record hfull rfl, if_neg hn, ht] at hu
      simp only [if_neg hn] at hu
      have hm := Move.endAlone (a := .endForward ⟨i, []⟩) hat.1 hn hF (by omega) hw hctl hK hA
      rw [hu]
      convert hm using 1
      simp [FilesizeNet.modify, FilesizeNet.setControl]
  · rw [if_neg hh] at ht
    by_cases hK : (kids arith n c v).length = 0
    · obtain ⟨st, hA⟩ := hI.active hat hF (Or.inr hK)
      have hserved : servedKids arith n c v s h = ∅ := by simp [servedKids, hK]
      have hfull : st.full = true := by
        rw [hA.record.full_iff hS (hat.mem_nodes hS), hA.numResponses, hserved, hK]
        rfl
      have hcell : (t.part h).cell = .live st := by
        rw [ht, FilesizeNet.part_modify, if_pos rfl]
        exact hA.cell
      have hsize : st.filesize = kidsSize arith n c v (Finset.range (kids arith n c v).length) := by
        rw [hA.filesize, hserved, hK, Finset.range_zero]
      rw [if_pos (by omega), FilesizeNet.deref_live hcell, hrank,
        responseForward_parent hS hat hA.record hfull hsize hh, ht, modify_modify] at hu
      rw [hu]
      exact .leaf hat hh hF hK (by omega) hw hreq hA
    · rw [if_neg (by omega), ht] at hu
      rw [hu]
      refine .silent hat ⟨Iff.rfl, Iff.rfl⟩ ((hI.parts.ok h c v hat).setThread (by simp [hF]) hK
        (.ended rfl (by rw [hsent, hnext]))) rfl (fun hp => absurd hp hh) Iff.rfl ?_
      have hlen := length_kids_le hS (hat.mem_nodes hS)
      have hcell := hI.cell_of_thread hat (by simp [hF])
      simp only [Part.level, Part.threadLevel, hF, hw, Bool.false_eq_true, if_false, if_neg hcell]
      omega

theorem move_apply (hs : FilesizeStep arith n colls s (.apply h) u) :
    Move arith n colls s (.apply h) u := by
  obtain ⟨-, dst, msg, t, hr, ht, hu⟩ := step_apply.mp hs
  obtain ⟨c, w, hatw⟩ := hI.parts.at_of_part (h := h) (by intro he; simp [he] at hr)
  obtain ⟨hh, hreq, -, hD⟩ := (hI.parts.ok h c w hatw).done_of_response (by simp [hr])
  obtain ⟨g, j, rfl⟩ : ∃ g j, h = Handle.child g j := by
    rcases h.cases_path with he | he
    · rw [he] at hh
      exact absurd rfl hh
    · exact he
  obtain ⟨v, hat, hj⟩ := at_child_iff.mp hatw
  have hS := S.at_ hat
  have hv := hat.mem_nodes hS
  have hlt := (List.getElem?_eq_some_iff.mp hj).1
  have hmsg : dst = v ∧ msg = responseFrom arith n c w := by
    have ha := hD.answered hh
    rw [Answered, parentOf_kid hS hv hj] at ha
    simpa [hr] using ha
  obtain ⟨rfl, rfl⟩ := hmsg
  -- the parent waits for this response
  obtain ⟨st, hA⟩ : ∃ st, Active arith n c dst g (s.part g) (servedKids arith n c dst s g) st := by
    cases hI.parts.ok g c dst hat with
    | before _ hsent =>
      have hmem : j ∈ sentKids arith n c dst s g := mem_sentKids.mpr ⟨hlt, by simp [hreq]⟩
      rw [hsent] at hmem
      exact absurd hmem (Finset.notMem_empty j)
    | active st _ _ hA => exact ⟨st, hA⟩
    | done _ _ _ hJ =>
      have hmem := Finset.mem_range.mpr hlt
      rw [← hJ, mem_servedKids] at hmem
      simp [hr] at hmem
  have hopen : st.full = false := hA.not_full hS hv (by omega)
  have hglb := hI.glbSt g c dst hat ⟨st, hA.cell, Or.inl hopen⟩
  have hcell : (t.part g).cell = .live st := by
    rw [ht, FilesizeNet.part_modify, if_neg (g.child_ne j).symm]
    exact hA.cell
  have herr : ((st.raise (responseFrom arith n c w).filesize).setErr
      (responseFrom arith n c w).err).countResponse = counted arith n c w st := by
    simp [responseFrom, counted, StateFilesize.setErr]
  rw [FilesizeNet.derefGlbSt_live (by rw [ht]; exact hglb) hcell, herr, ht] at hu
  by_cases hlast : (servedKids arith n c dst s g).card + 1 = (kids arith n c dst).length
  · have hfull := (full_counted (w := w) hS hv hA).mpr hlast
    have hsize : (counted arith n c w st).filesize =
        kidsSize arith n c dst (Finset.range (kids arith n c dst).length) := by
      rw [filesize_counted hA.filesize hj, insert_servedKids hlt hlast (by simp [hr])]
    by_cases hg : g.path = []
    · obtain ⟨i, p⟩ := g
      obtain rfl : p = [] := hg
      obtain rfl : c.root = dst := Option.some.inj hat.2
      have hn := (kids_root hS).mp (by omega)
      rw [responseForward_root hS hat hA.record.counted hfull rfl, if_pos hn] at hu
      rw [hu]
      exact .applyRoot hat.1 hj hr hA hlast hn
    · rw [responseForward_parent hS hat hA.record.counted hfull hsize hg] at hu
      rw [hu]
      exact .applyLast hat hg hj hr hA hlast
  · have hfull : ¬ (counted arith n c w st).full = true := mt (full_counted hS hv hA).mp hlast
    have hlt' : (servedKids arith n c dst s g).card + 1 < (kids arith n c dst).length := by
      rcases hA.open_ with ho | ⟨h0, -⟩ <;> omega
    rw [responseForward, forward_of_open hfull] at hu
    rw [hu]
    exact .apply hat hj hr hA hlt'

/-- The record of a root that main no longer works on. -/
theorem FilesizeInv.root_done {st : StateFilesize} (hc : colls[i]? = some c)
    (hcell : (s.part ⟨i, []⟩).cell = .live st) (ht : (s.part ⟨i, []⟩).thread = none)
    (hfull : st.full = true ∨ ¬ 1 < n) :
    servedKids arith n c c.root s ⟨i, []⟩ = Finset.range (kids arith n c c.root).length ∧
      RecordDone arith n c c.root ⟨i, []⟩ (s.part ⟨i, []⟩) := by
  have hS := S c (List.mem_of_getElem? hc)
  have hat : (⟨i, []⟩ : Handle).At arith n colls c c.root := at_root hc
  cases hI.parts.ok _ _ _ hat with
  | before hf =>
    rw [hf.eq] at hcell
    simp at hcell
  | active st' _ _ hA =>
    obtain rfl : st = st' := Cell.live.inj (hcell.symm.trans hA.cell)
    have hK : (kids arith n c c.root).length = 0 := by
      rcases hfull with hf | hn
      · exact hA.leaf_of_full hS (hat.mem_nodes hS) hf
      · by_contra hne
        exact hn ((kids_root hS).mp hne)
    rcases hA.open_ with hlt | ⟨-, hne⟩
    · omega
    · exact absurd ht hne
  | done _ _ _ hJ hD => exact ⟨hJ, hD⟩

theorem FilesizeInv.readResult {st : StateFilesize} {r : RootControl → RootControl}
    (hc : colls[i]? = some c) (hcell : (s.part ⟨i, []⟩).cell = .live st)
    (ht : (s.part ⟨i, []⟩).thread = none) (hfull : st.full = true ∨ ¬ 1 < n) :
    readResult (s.setControl i r) c.root i = s.setControl i
      fun _ => { r (s.control i) with main := .got (subtreeSize arith n c c.root) } := by
  have hsize : st.filesize = subtreeSize arith n c c.root := by
    cases (hI.root_done S hc hcell ht hfull).2 with
    | root st' _ hp _ _ hsize =>
      obtain rfl : st = st' := Cell.live.inj (hcell.symm.trans hp)
      exact hsize
    | rootFreed _ hp => simp [hcell] at hp
    | holding _ hne | released hne => exact absurd rfl hne
  have hglb := hI.glbSt _ c c.root (at_root hc) ⟨st, hcell, Or.inr rfl⟩
  rw [Metasim.readResult, FilesizeNet.derefGlbSt_live (s := s.setControl i r) hglb hcell, hsize]
  simp [FilesizeNet.setControl]

theorem move_reacquire (hs : FilesizeStep arith n colls s (.reacquire i) u) :
    Move arith n colls s (.reacquire i) u := by
  obtain ⟨-, c, k, hc, hm, hmutex, rfl⟩ := step_reacquire.mp hs
  cases hI.control i c hc with
  | idle hr => simp [hr] at hm
  | alone _ _ _ _ _ ho => rcases ho with ⟨hmain, _⟩ | ⟨_, hmain | hmain⟩ <;> simp [hm] at hmain
  | sending _ _ _ _ _ ho => rcases ho with ⟨hmain, _⟩ | ⟨hmain, _⟩ <;> simp [hm] at hmain
  | waiting _ _ _ _ hmain | got _ _ _ _ _ hmain | finished _ _ hmain => simp [hm] at hmain
  | woken st hn hp ht hfull hmain ho =>
    obtain rfl : k = i := MainPc.woken.inj (hm.symm.trans hmain)
    have hwake : (s.control k).wake = .done := by
      rcases ho with ⟨hx, _⟩ | ⟨_, hwake⟩
      · simp [hmutex] at hx
      · exact hwake
    rw [hI.readResult S hc hp ht (Or.inl hfull)]
    refine .control hc (.got st hn hp ht hfull rfl rfl hwake) ?_ ?_ ?_
    · simp [MainPc.Running, hm]
    · simp [MainPc.Running]
    · simp [RootControl.level, MainPc.level, hm]

theorem move_read (hs : FilesizeStep arith n colls s (.read i) u) :
    Move arith n colls s (.read i) u := by
  obtain ⟨-, c, hc, hm, rfl⟩ := step_read.mp hs
  cases hI.control i c hc with
  | idle hr => simp [hr] at hm
  | sending _ _ _ _ _ ho => rcases ho with ⟨hmain, _⟩ | ⟨hmain, _⟩ <;> simp [hm] at hmain
  | waiting _ _ _ _ hmain | woken _ _ _ _ _ hmain | got _ _ _ _ _ hmain | finished _ _ hmain =>
    simp [hm] at hmain
  | alone st hn hp hwake hmutex ho =>
    have ht : (s.part ⟨i, []⟩).thread = none := by
      rcases ho with ⟨hmain, _⟩ | ⟨ht, _⟩
      · simp [hm] at hmain
      · exact ht
    have hset := hI.readResult (r := id) S hc hp ht (Or.inr hn)
    have hid : s.setControl i id = s := by simp [FilesizeNet.setControl]
    rw [hid] at hset
    rw [hset]
    refine .control hc (.alone st hn hp hwake hmutex (Or.inr ⟨ht, Or.inr rfl⟩)) ?_ ?_ ?_
    · simp [MainPc.Running, hm]
    · simp [MainPc.Running]
    · simp [RootControl.level, MainPc.level, hm]

theorem move_finish (hs : FilesizeStep arith n colls s (.finish i) u) :
    Move arith n colls s (.finish i) u := by
  obtain ⟨-, c, m, hc, hm, rfl⟩ := step_finish.mp hs
  have hroot : ∃ st, (s.part ⟨i, []⟩).cell = .live st ∧ (s.part ⟨i, []⟩).thread = none ∧
      (st.full = true ∨ ¬ 1 < n) ∧ m = subtreeSize arith n c c.root ∧
      (s.control i).wake = if 1 < n then .done else .idle := by
    cases hI.control i c hc with
    | idle hr => simp [hr] at hm
    | sending _ _ _ _ _ ho => rcases ho with ⟨hmain, _⟩ | ⟨hmain, _⟩ <;> simp [hm] at hmain
    | waiting _ _ _ _ hmain | woken _ _ _ _ _ hmain | finished _ _ hmain => simp [hm] at hmain
    | alone st hn hp hwake _ ho =>
      rcases ho with ⟨hmain, _⟩ | ⟨ht, hmain | hmain⟩
      · simp [hm] at hmain
      · simp [hm] at hmain
      · exact ⟨st, hp, ht, Or.inr hn, MainPc.got.inj (hm.symm.trans hmain),
          by rw [hwake, if_neg hn]⟩
    | got st hn hp ht hfull hmain _ hwake =>
      exact ⟨st, hp, ht, Or.inl hfull, MainPc.got.inj (hm.symm.trans hmain),
        by rw [hwake, if_pos hn]⟩
  obtain ⟨st, hp, ht, hfull, rfl, hwake⟩ := hroot
  have hglb := hI.glbSt _ c c.root (at_root hc) ⟨st, hp, Or.inr rfl⟩
  rw [FilesizeNet.derefGlbSt_live hglb hp]
  have hset : (s.setControl i fun r => { r with mutex := none }).setControl i
      (fun r => { r with main := .finished }) =
      s.setControl i fun r => { r with main := .finished, mutex := none } := by
    simp [FilesizeNet.setControl]
  simp only [if_pos, hset]
  obtain ⟨hJ, hD⟩ := hI.root_done S hc hp ht hfull
  exact .finish hc hp ht hJ hD hm hwake

theorem move_of_step (hs : FilesizeStep arith n colls s a u) : Move arith n colls s a u := by
  cases a with
  | start i => exact move_start S hI hs
  | forward h => exact move_forward S hI hs
  | returned h => exact move_returned hI hs
  | endForward h => exact move_endForward S hI hs
  | accept h => exact move_accept hI hs
  | alloc h => exact move_alloc hI hs
  | acceptResponse h => exact move_acceptResponse hI hs
  | apply h => exact move_apply S hI hs
  | release h => exact move_release hI hs
  | wakeLock i => exact move_wakeLock hI hs
  | wakeSignal i k => exact move_wakeSignal hI hs
  | wakeUnlock i => exact move_wakeUnlock hI hs
  | wait i => exact move_wait hI hs
  | reacquire i => exact move_reacquire S hI hs
  | read i => exact move_read S hI hs
  | finish i => exact move_finish S hI hs

end Resolve

end Metasim
