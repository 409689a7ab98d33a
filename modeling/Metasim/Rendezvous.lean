import Metasim.ClientInit
import Metasim.Lib.Served
import Metasim.ServerStart
import Mathlib

/-! The clients find the listener of their node by the address file in `/tmp`: they may be there
before it, and more than one rank of a node may write the file. -/
namespace Metasim

open Transition Spmd Served CString

/-- Where a rank is in `metasim_listener_init`; what it prints is in the buffer of `fp` until
`fclose`. -/
inductive ListenerPhase
  | idle
  | opened
  | published
  | failed
deriving Repr, DecidableEq

/-- Where a client is in `get_local_listener_addr`. -/
inductive ClientPhase
  | waiting
  | accessed
  | opened
  | read (file : ListenerFile)
deriving Repr, DecidableEq

/-- `files` has `METASIM_LISTENER_ADDR_FILE` of every node. -/
structure RendezvousState where
  files : ℕ → Option (List Char)
  listener : ℕ → ListenerPhase
  client : ℕ → ClientPhase

inductive RendezvousLabel
  | publish (rank : ℕ)
  | fclose (rank : ℕ)
  | access (client : ℕ)
  | fopen (client : ℕ)
  | fgets (client : ℕ)
deriving Repr, DecidableEq

/-- What is on a disk when `str` has been written over the beginning of `text`. -/
def overwrite (text str : List Char) : List Char := str ++ text.drop str.length

/-- The servers, each with the outcome of `margo_init` and `fopen` in its listener and the address
it gets there, and the clients, with the outcome of `access` and `fopen`. `left` is what is in the
files beforehand. -/
structure RendezvousArgs extends ServerArgs where
  node : ℕ → ℕ
  addrstr : ℕ → List Char
  listenerMargo : ℕ → Bool
  listenerFopen : ℕ → Bool
  left : ℕ → Option (List Char)
  clients : ℕ
  clientNode : ℕ → ℕ
  accessible : ℕ → Bool
  clientFopen : ℕ → Bool

namespace RendezvousState

def setListener (s : RendezvousState) (r : ℕ) (p : ListenerPhase) : RendezvousState :=
  { s with listener := Function.update s.listener r p }

def setClient (s : RendezvousState) (c : ℕ) (p : ClientPhase) : RendezvousState :=
  { s with client := Function.update s.client c p }

def setFile (s : RendezvousState) (k : ℕ) (text : List Char) : RendezvousState :=
  { s with files := Function.update s.files k (some text) }

end RendezvousState

section Source

variable (A : RendezvousArgs)

/-- `metasim_listener_init` at the ranks, `get_local_listener_addr` at the clients. -/
def rendezvousStep (s : RendezvousState) : RendezvousLabel → Option RendezvousState
  | .publish r =>
    if r < A.nranks ∧ s.listener r = .idle then
      some (if A.listenerMargo r && A.listenerFopen r then
        (s.setFile (A.node r) []).setListener r .opened
      else s.setListener r .failed)
    else none
  | .fclose r =>
    if r < A.nranks ∧ s.listener r = .opened then
      let text := (s.files (A.node r)).getD []
      some ((s.setFile (A.node r) (overwrite text (A.addrstr r))).setListener r .published)
    else none
  | .access c =>
    if c < A.clients ∧ s.client c = .waiting then
      if A.accessible c then
        -- `ENOENT`: it sleeps and tries again
        if s.files (A.clientNode c) = none then none else some (s.setClient c .accessed)
      else some (s.setClient c (.read .noAccess))
    else none
  | .fopen c =>
    if c < A.clients ∧ s.client c = .accessed then
      some (s.setClient c (if A.clientFopen c then .opened else .read .noOpen))
    else none
  | .fgets c =>
    if c < A.clients ∧ s.client c = .opened then
      (s.files (A.clientNode c)).map fun text => s.setClient c (.read (.content text))
    else none

def RendezvousStep (s : RendezvousState) (a : RendezvousLabel) (u : RendezvousState) : Prop :=
  rendezvousStep A s a = some u

def rendezvousStart : RendezvousState where
  files := A.left
  listener _ := .idle
  client _ := .waiting

/-- The call of rank `r` is `metasim_listener_init`; what comes of it is whether it has
published. -/
def rendezvousService : Service RendezvousState RendezvousLabel Bool where
  start := rendezvousStart A
  step := rendezvousStep A
  begins
    | .publish r => some r
    | _ => none
  answer s r :=
    match s.listener r with
    | .published => some true
    | .failed => some false
    | _ => none

/-- The servers from their start on, and the clients. -/
def rendezvous : Layer (Fin A.nranks) ServerCall RendezvousState RendezvousLabel Bool where
  program := A.serverMain
  uses rank
    | .listenerInit => some rank
    | _ => none
  service := rendezvousService A

end Source

variable {A : RendezvousArgs} {s t u : RendezvousState} {a : RendezvousLabel}
  {ys : List RendezvousLabel} {r q c k : ℕ} {text str : List Char} {file : ListenerFile}

/-! ## The steps -/

@[simp] theorem listener_setListener (p : ListenerPhase) :
    (s.setListener r p).listener q = if q = r then p else s.listener q :=
  Function.update_apply _ _ _ _

@[simp] theorem client_setClient (p : ClientPhase) :
    (s.setClient c p).client q = if q = c then p else s.client q :=
  Function.update_apply _ _ _ _

@[simp] theorem files_setFile : (s.setFile k text).files q =
    if q = k then some text else s.files q := Function.update_apply _ _ _ _

@[simp] theorem listener_setClient (p : ClientPhase) :
    (s.setClient c p).listener = s.listener := rfl

@[simp] theorem files_setClient (p : ClientPhase) : (s.setClient c p).files = s.files := rfl

@[simp] theorem client_setListener (p : ListenerPhase) :
    (s.setListener r p).client = s.client := rfl

@[simp] theorem files_setListener (p : ListenerPhase) :
    (s.setListener r p).files = s.files := rfl

@[simp] theorem client_setFile : (s.setFile k text).client = s.client := rfl

@[simp] theorem listener_setFile : (s.setFile k text).listener = s.listener := rfl

/-- What a step does, with its guard: a listener fails, opens the file or writes it, or a client
goes on. -/
inductive RendezvousMove (A : RendezvousArgs) (s : RendezvousState) :
    RendezvousLabel → RendezvousState → Prop
  | fail {r : ℕ} (hr : r < A.nranks) (hidle : s.listener r = .idle)
      (hno : (A.listenerMargo r && A.listenerFopen r) = false) :
      RendezvousMove A s (.publish r) (s.setListener r .failed)
  | truncate {r : ℕ} (hr : r < A.nranks) (hidle : s.listener r = .idle)
      (hyes : (A.listenerMargo r && A.listenerFopen r) = true) :
      RendezvousMove A s (.publish r) ((s.setFile (A.node r) []).setListener r .opened)
  | write {r : ℕ} (hr : r < A.nranks) (hopened : s.listener r = .opened) :
      RendezvousMove A s (.fclose r) ((s.setFile (A.node r)
        (overwrite ((s.files (A.node r)).getD []) (A.addrstr r))).setListener r .published)
  | client {c : ℕ} {p : ClientPhase} (a : RendezvousLabel) (hc : c < A.clients)
      (hbegins : (rendezvousService A).begins a = none)
      (hnext : (s.client c = .waiting ∧ (p = .read .noAccess ∨
          p = .accessed ∧ s.files (A.clientNode c) ≠ none)) ∨
        (s.client c = .accessed ∧ (p = .opened ∨ p = .read .noOpen)) ∨
        (s.client c = .opened ∧ ∃ text, s.files (A.clientNode c) = some text ∧
          p = .read (.content text))) :
      RendezvousMove A s a (s.setClient c p)

theorem move_of_rendezvousStep (h : RendezvousStep A s a u) : RendezvousMove A s a u := by
  cases a with
  | publish r =>
    obtain ⟨⟨hr, hidle⟩, hu⟩ := Option.ite_none_right_eq_some.mp h
    obtain rfl := Option.some.inj hu
    split_ifs with hyes
    · exact .truncate hr hidle hyes
    · exact .fail hr hidle (Bool.eq_false_iff.mpr hyes)
  | fclose r =>
    obtain ⟨⟨hr, hopened⟩, hu⟩ := Option.ite_none_right_eq_some.mp h
    obtain rfl := Option.some.inj hu
    exact .write hr hopened
  | access c =>
    obtain ⟨⟨hc, hwaiting⟩, hu⟩ := Option.ite_none_right_eq_some.mp h
    split_ifs at hu with haccess hfile
    · obtain rfl := Option.some.inj hu
      exact .client _ hc rfl (Or.inl ⟨hwaiting, Or.inr ⟨rfl, hfile⟩⟩)
    · obtain rfl := Option.some.inj hu
      exact .client _ hc rfl (Or.inl ⟨hwaiting, Or.inl rfl⟩)
  | fopen c =>
    obtain ⟨⟨hc, haccessed⟩, hu⟩ := Option.ite_none_right_eq_some.mp h
    obtain rfl := Option.some.inj hu
    refine .client _ hc rfl (Or.inr (Or.inl ⟨haccessed, ?_⟩))
    split_ifs
    · exact Or.inl rfl
    · exact Or.inr rfl
  | fgets c =>
    obtain ⟨⟨hc, hopened⟩, hu⟩ := Option.ite_none_right_eq_some.mp h
    obtain ⟨text, htext, rfl⟩ := Option.map_eq_some_iff.mp hu
    exact .client _ hc rfl (Or.inr (Or.inr ⟨hopened, text, htext, rfl⟩))

/-! ## What is in the files -/

/-- The listener has opened the file. -/
def ListenerPhase.Launched (p : ListenerPhase) : Prop := p = .opened ∨ p = .published

instance (p : ListenerPhase) : Decidable p.Launched := inferInstanceAs (Decidable (_ ∨ _))

theorem launched_opened : ListenerPhase.opened.Launched := Or.inl rfl

theorem launched_published : ListenerPhase.published.Launched := Or.inr rfl

/-- Each character of a text stands there in an address of the node. -/
def Woven (A : RendezvousArgs) (k : ℕ) (text : List Char) : Prop :=
  ∀ i < text.length, ∃ q < A.nranks, A.node q = k ∧ (A.addrstr q)[i]? = text[i]?

/-- A text that the listeners of a node have written, one of them last. -/
def Published (A : RendezvousArgs) (s : RendezvousState) (k : ℕ) (text : List Char) : Prop :=
  Woven A k text ∧
    ∃ r < A.nranks, A.node r = k ∧ s.listener r = .published ∧ A.addrstr r <+: text

/-- What a client may find: what was left there, nothing yet, or what is published. -/
def Found (A : RendezvousArgs) (s : RendezvousState) (k : ℕ) (text : List Char) : Prop :=
  A.left k = some text ∨ (∃ r < A.nranks, A.node r = k ∧ (s.listener r).Launched) ∧
    (text = [] ∨ Published A s k text)

/-- What the listeners have made of the file of a node. -/
def Written (A : RendezvousArgs) (s : RendezvousState) (k : ℕ) : Prop :=
  ∃ text, s.files k = some text ∧
    ((text = [] ∧ ∃ q < A.nranks, A.node q = k ∧ s.listener q = .opened) ∨ Published A s k text)

structure RendezvousInv (A : RendezvousArgs) (s : RendezvousState) : Prop where
  untouched : ∀ k, (∀ r < A.nranks, A.node r = k → ¬ (s.listener r).Launched) →
    s.files k = A.left k
  touched : ∀ r < A.nranks, (s.listener r).Launched → Written A s (A.node r)
  reads : ∀ c text, s.client c = .read (.content text) → Found A s (A.clientNode c) text
  present : ∀ c, s.client c = .accessed ∨ s.client c = .opened → s.files (A.clientNode c) ≠ none

theorem woven_overwrite (hr : r < A.nranks) (hnode : A.node r = k) (h : Woven A k text) :
    Woven A k (overwrite text (A.addrstr r)) := by
  intro i hi
  by_cases hlt : i < (A.addrstr r).length
  · exact ⟨r, hr, hnode, (List.getElem?_append_left hlt).symm⟩
  · have hle := Nat.le_of_not_lt hlt
    rw [overwrite, List.length_append, List.length_drop] at hi
    obtain ⟨q, hq, hqk, heq⟩ := h i (by omega)
    refine ⟨q, hq, hqk, ?_⟩
    rw [overwrite, List.getElem?_append_right hle, List.getElem?_drop, Nat.add_sub_cancel' hle]
    exact heq

theorem Published.mono (h : Published A s k text)
    (hkept : ∀ q, s.listener q = .published → u.listener q = .published) :
    Published A u k text := by
  obtain ⟨hwoven, r, hr, hk, hp, hpre⟩ := h
  exact ⟨hwoven, r, hr, hk, hkept r hp, hpre⟩

theorem Found.mono (h : Found A s k text)
    (hkept : ∀ q, s.listener q = .published → u.listener q = .published)
    (hlaunched : ∀ q, (s.listener q).Launched → (u.listener q).Launched) :
    Found A u k text := by
  rcases h with hleft | ⟨⟨r, hr, hk, hl⟩, htext⟩
  · exact Or.inl hleft
  · exact Or.inr ⟨⟨r, hr, hk, hlaunched r hl⟩, htext.imp_right (·.mono hkept)⟩

theorem RendezvousInv.found (hI : RendezvousInv A s) (hfile : s.files k = some text) :
    Found A s k text := by
  by_cases hany : ∃ r < A.nranks, A.node r = k ∧ (s.listener r).Launched
  · refine Or.inr ⟨hany, ?_⟩
    obtain ⟨r, hr, rfl, hl⟩ := hany
    obtain ⟨text', htext', h⟩ := hI.touched r hr hl
    obtain rfl := Option.some.inj (hfile.symm.trans htext')
    exact h.imp_left And.left
  · refine Or.inl ((hI.untouched k fun r hr hk hl => hany ⟨r, hr, hk, hl⟩).symm.trans hfile)

/-- Where a listener goes on and the file is kept, what was written is. -/
theorem Written.mono (h : Written A s k) (hfile : u.files k = s.files k)
    (hkept : ∀ q ≠ r, u.listener q = s.listener q) (hr : s.listener r ≠ .published)
    (hopened : s.listener r = .opened → A.node r ≠ k) : Written A u k := by
  obtain ⟨text, htext, h⟩ := h
  refine ⟨text, hfile.trans htext, ?_⟩
  rcases h with ⟨rfl, q, hq, hnode, hp⟩ | hpub
  · refine Or.inl ⟨rfl, q, hq, hnode, (hkept q ?_).trans hp⟩
    rintro rfl
    exact hopened hp hnode
  · refine Or.inr (hpub.mono fun q hq => (hkept q ?_).trans hq)
    rintro rfl
    exact hr hq

/-- A listener at its call leaves the other nodes as they are, and is seen on its own if it has
opened the file. -/
structure Listens (A : RendezvousArgs) (s : RendezvousState) (r : ℕ) (p : ListenerPhase)
    (u : RendezvousState) : Prop where
  lt : r < A.nranks
  unpublished : s.listener r ≠ .published
  launched : (s.listener r).Launched → p.Launched
  listener : u.listener = Function.update s.listener r p
  client : u.client = s.client
  others : ∀ k ≠ A.node r, u.files k = s.files k
  written : p.Launched → Written A u (A.node r)
  kept : ¬ p.Launched → u.files (A.node r) = s.files (A.node r)

namespace Listens

variable {p : ListenerPhase} (h : Listens A s r p u)
include h

theorem listener_self : u.listener r = p := by rw [h.listener, Function.update_self]

theorem listener_other (q : ℕ) (hq : q ≠ r) : u.listener q = s.listener q := by
  rw [h.listener, Function.update_of_ne hq]

theorem launched_mono (q : ℕ) (hq : (s.listener q).Launched) : (u.listener q).Launched := by
  by_cases hqr : q = r
  · subst hqr
    rw [h.listener_self]
    exact h.launched hq
  · rwa [h.listener_other q hqr]

theorem published_mono (q : ℕ) (hq : s.listener q = .published) : u.listener q = .published := by
  refine (h.listener_other q ?_).trans hq
  rintro rfl
  exact h.unpublished hq

/-- Where no listener has opened the file, or only others have, it is as before. -/
theorem files_eq {k : ℕ} (hk : A.node r = k → ¬ p.Launched) : u.files k = s.files k := by
  by_cases hkr : k = A.node r
  · subst hkr
    exact h.kept (hk rfl)
  · exact h.others k hkr

theorem touched (htouched : ∀ q < A.nranks, (s.listener q).Launched → Written A s (A.node q)) :
    ∀ q < A.nranks, (u.listener q).Launched → Written A u (A.node q) := by
  intro q hq hql
  by_cases hself : A.node r = A.node q ∧ p.Launched
  · rw [← hself.1]
    exact h.written hself.2
  · have hnot : A.node r = A.node q → ¬ p.Launched := fun hnode hp => hself ⟨hnode, hp⟩
    have hqr : q ≠ r := by
      rintro rfl
      exact hnot rfl (h.listener_self ▸ hql)
    refine (htouched q hq (h.listener_other q hqr ▸ hql)).mono (h.files_eq hnot)
      h.listener_other h.unpublished fun hopened hnode => ?_
    exact hnot hnode (h.launched (Or.inl hopened))

theorem present {k : ℕ} (hk : s.files k ≠ none) : u.files k ≠ none := by
  by_cases hself : A.node r = k ∧ p.Launched
  · obtain ⟨text, htext, -⟩ := h.written hself.2
    rw [← hself.1, htext]
    exact Option.some_ne_none text
  · rwa [h.files_eq fun hnode hp => hself ⟨hnode, hp⟩]

end Listens

theorem RendezvousInv.listen (hI : RendezvousInv A s) {p : ListenerPhase}
    (h : Listens A s r p u) : RendezvousInv A u := by
  constructor
  · intro k hk
    rw [h.files_eq fun hnode => h.listener_self ▸ hk r h.lt hnode]
    exact hI.untouched k fun q hq hqk hql => hk q hq hqk (h.launched_mono q hql)
  · exact h.touched hI.touched
  · intro c text hc
    rw [h.client] at hc
    exact (hI.reads c text hc).mono h.published_mono h.launched_mono
  · intro c hc
    rw [h.client] at hc
    exact h.present (hI.present c hc)

theorem rendezvousInv_start (A : RendezvousArgs) : RendezvousInv A (rendezvousStart A) := by
  constructor
  · exact fun _ _ => rfl
  · rintro r - (h | h) <;> cases h
  · intro c text h
    cases h
  · rintro c (h | h) <;> cases h

theorem rendezvousInv_step (hI : RendezvousInv A s) (h : RendezvousStep A s a u) :
    RendezvousInv A u := by
  cases move_of_rendezvousStep h with
  | @fail r hr hidle hno =>
    have hnot : ¬ ListenerPhase.failed.Launched := by rintro (h | h) <;> cases h
    refine hI.listen (r := r) (p := .failed) ⟨hr, by simp [hidle], fun hl => ?_, rfl, rfl,
      fun _ _ => rfl, fun hl => absurd hl hnot, fun _ => rfl⟩
    rcases hl with hl | hl <;> simp [hidle] at hl
  | @truncate r hr hidle hyes =>
    refine hI.listen (r := r) (p := .opened) ⟨hr, by simp [hidle], fun _ => launched_opened, rfl,
      rfl, fun k hk => by simp [hk], fun _ => ?_, absurd launched_opened⟩
    exact ⟨[], by simp, Or.inl ⟨rfl, r, hr, rfl, by simp⟩⟩
  | @write r hr hopened =>
    obtain ⟨text, htext, hwritten⟩ := hI.touched r hr (hopened ▸ launched_opened)
    have hwoven : Woven A (A.node r) text := by
      rcases hwritten with ⟨rfl, -⟩ | hpub
      · exact fun i hi => absurd hi (Nat.not_lt_zero i)
      · exact hpub.1
    refine hI.listen (r := r) (p := .published) ⟨hr, by simp [hopened],
      fun _ => launched_published, rfl, rfl, fun k hk => by simp [hk], fun _ => ?_,
      absurd launched_published⟩
    exact ⟨overwrite text (A.addrstr r), by simp [htext],
      Or.inr ⟨woven_overwrite hr rfl hwoven, r, hr, rfl, by simp, List.prefix_append _ _⟩⟩
  | @client c p a hc hbegins hnext =>
    have hfound : ∀ {k text}, Found A s k text → Found A (s.setClient c p) k text := fun h =>
      h.mono (fun _ hq => hq) fun _ hq => hq
    constructor
    · exact hI.untouched
    · exact hI.touched
    · intro d text hd
      rw [client_setClient] at hd
      split_ifs at hd with hdc
      · subst hdc hd
        rcases hnext with ⟨-, h | ⟨h, -⟩⟩ | ⟨-, h | h⟩ | ⟨-, text', htext', h⟩ <;> cases h
        exact hfound (hI.found htext')
      · exact hfound (hI.reads d text hd)
    · intro d hd
      rw [client_setClient] at hd
      split_ifs at hd with hdc
      · subst hdc
        rcases hnext with ⟨-, rfl | ⟨-, h⟩⟩ | ⟨h, -⟩ | ⟨h, -⟩
        · rcases hd with hd | hd <;> cases hd
        · exact h
        · exact hI.present d (Or.inl h)
        · exact hI.present d (Or.inr h)
      · exact hI.present d hd

theorem rendezvous_inv (hrun : (rendezvousService A).Run ys s) : RendezvousInv A s :=
  invariant_state (rendezvousInv_start A) (fun _ _ _ hI => rendezvousInv_step hI) hrun

/-- Where the addresses of a node are of one length, each hides the others. -/
theorem Published.eq_of_length {m : ℕ} (h : Published A s k text)
    (hlen : ∀ q < A.nranks, A.node q = k → (A.addrstr q).length = m) :
    ∃ r < A.nranks, A.node r = k ∧ s.listener r = .published ∧ text = A.addrstr r := by
  obtain ⟨hwoven, r, hr, hk, hp, rest, rfl⟩ := h
  refine ⟨r, hr, hk, hp, ?_⟩
  cases rest with
  | nil => exact List.append_nil _
  | cons c rest =>
    -- the character behind the address is of none
    obtain ⟨q, hq, hqk, heq⟩ := hwoven (A.addrstr r).length (by simp)
    have hnone : (A.addrstr q)[(A.addrstr r).length]? = none := by
      rw [List.getElem?_eq_none_iff, hlen q hq hqk, hlen r hr hk]
    simp [hnone] at heq

/-- The only listener of a node. -/
def Sole (A : RendezvousArgs) (r : ℕ) : Prop := ∀ q < A.nranks, A.node q = A.node r → q = r

theorem RendezvousInv.published_sole (hI : RendezvousInv A s) (hr : r < A.nranks) (hsole : Sole A r)
    (hp : s.listener r = .published) : s.files (A.node r) = some (A.addrstr r) := by
  obtain ⟨text, htext, h⟩ := hI.touched r hr (hp ▸ launched_published)
  rcases h with ⟨-, q, hq, hnode, hopened⟩ | hpub
  · obtain rfl := hsole q hq hnode
    simp [hp] at hopened
  · have hlength : ∀ q < A.nranks, A.node q = A.node r →
        (A.addrstr q).length = (A.addrstr r).length := fun q hq hnode => by
      rw [hsole q hq hnode]
    obtain ⟨q, hq, hnode, -, rfl⟩ := hpub.eq_of_length hlength
    obtain rfl := hsole q hq hnode
    exact htext

/-! ## The listeners to the servers -/

theorem begun_iff_publish : (rendezvousService A).Begun ys r ↔ .publish r ∈ ys := by
  constructor
  · rintro ⟨a, ha, hbegins⟩
    cases a with
    | publish q =>
      obtain rfl : q = r := Option.some.inj hbegins
      exact ha
    | _ => cases hbegins
  · exact fun h => ⟨_, h, rfl⟩

theorem publish_history (hrun : (rendezvousService A).Run ys s) :
    .publish r ∈ ys ↔ s.listener r ≠ .idle := by
  induction hrun with
  | refl => simp [rendezvousService, rendezvousStart]
  | @snoc ys s u a _ hstep ih =>
    rw [List.mem_append, List.mem_singleton, ih]
    cases move_of_rendezvousStep hstep with
    | fail | truncate =>
      rw [listener_setListener]
      split_ifs with hr
      · simp [hr]
      · simp [hr]
    | write hr hopened =>
      rw [listener_setListener]
      split_ifs with hr
      · simp [hr, hopened]
      · simp
    | client a hc hbegins =>
      have hne : a ≠ .publish r := by
        rintro rfl
        cases hbegins
      simp [hne.symm]

def ListenerPhase.level : ListenerPhase → ℕ
  | .idle => 0
  | .opened => 1
  | .published | .failed => 2

def ClientPhase.level : ClientPhase → ℕ
  | .waiting => 0
  | .accessed => 1
  | .opened => 2
  | .read _ => 3

/-- How far the listeners and the clients are. -/
def rendezvousLevel (A : RendezvousArgs) (s : RendezvousState) : ℕ :=
  ∑ r ∈ Finset.range A.nranks, (s.listener r).level +
    ∑ c ∈ Finset.range A.clients, (s.client c).level

theorem rendezvousLevel_le (s : RendezvousState) :
    rendezvousLevel A s ≤ 2 * A.nranks + 3 * A.clients := by
  have hlistener : ∀ p : ListenerPhase, p.level ≤ 2 := fun p => by
    cases p <;> simp [ListenerPhase.level]
  have hclient : ∀ p : ClientPhase, p.level ≤ 3 := fun p => by
    cases p <;> simp [ClientPhase.level]
  have h1 := Finset.sum_le_card_nsmul (Finset.range A.nranks) (fun r => (s.listener r).level) 2
    fun r _ => hlistener _
  have h2 := Finset.sum_le_card_nsmul (Finset.range A.clients) (fun c => (s.client c).level) 3
    fun c _ => hclient _
  rw [Finset.card_range, smul_eq_mul] at h1 h2
  unfold rendezvousLevel
  omega

theorem sum_update_lt {π : Type} {level : π → ℕ} {f : ℕ → π} {n i : ℕ} {p : π} (hi : i < n)
    (hlt : level (f i) < level p) : ∑ j ∈ Finset.range n, level (f j) <
      ∑ j ∈ Finset.range n, level (Function.update f i p j) := by
  refine Finset.sum_lt_sum (fun j _ => ?_) ⟨i, Finset.mem_range.mpr hi, ?_⟩
  · by_cases hj : j = i
    · rw [hj, Function.update_self]
      exact hlt.le
    · rw [Function.update_of_ne hj]
  · rwa [Function.update_self]

theorem rendezvousLevel_step (h : RendezvousStep A s a u) :
    rendezvousLevel A s < rendezvousLevel A u := by
  cases move_of_rendezvousStep h with
  | fail hr hidle =>
    exact Nat.add_lt_add_right (sum_update_lt hr (by simp [hidle, ListenerPhase.level])) _
  | truncate hr hidle =>
    exact Nat.add_lt_add_right (sum_update_lt hr (by simp [hidle, ListenerPhase.level])) _
  | write hr hopened =>
    exact Nat.add_lt_add_right (sum_update_lt hr (by simp [hopened, ListenerPhase.level])) _
  | client a hc hbegins hnext =>
    refine Nat.add_lt_add_left (sum_update_lt hc ?_) _
    rcases hnext with ⟨hpc, rfl | ⟨rfl, -⟩⟩ | ⟨hpc, rfl | rfl⟩ | ⟨hpc, text, -, rfl⟩ <;>
      simp [hpc, ClientPhase.level]

/-- What has come of a listener stays. -/
theorem listener_kept (h : RendezvousStep A s a u)
    (hp : s.listener r = .published ∨ s.listener r = .failed) : u.listener r = s.listener r := by
  have hne : ∀ {q}, s.listener q = .idle ∨ s.listener q = .opened → r ≠ q := by
    rintro q hq rfl
    rcases hp with hp | hp <;> simp [hp] at hq
  cases move_of_rendezvousStep h with
  | fail hr hidle | truncate hr hidle => exact Function.update_of_ne (hne (Or.inl hidle)) _ _
  | write hr hopened => exact Function.update_of_ne (hne (Or.inr hopened)) _ _
  | client => rfl

theorem rendezvousService_reliable (A : RendezvousArgs) :
    (rendezvousService A).Reliable A.nranks (2 * A.nranks + 3 * A.clients) := by
  constructor
  · intro ys s r hrun hr hnot _
    rw [begun_iff_publish, publish_history hrun, not_not] at hnot
    exact ⟨.publish r, _, rfl, if_pos ⟨hr, hnot⟩⟩
  · intro ys s r hrun hr hbegun hnone
    rw [begun_iff_publish, publish_history hrun] at hbegun
    have hopened : s.listener r = .opened := by
      cases hp : s.listener r <;> simp_all [rendezvousService]
    exact ⟨.fclose r, _, rfl, if_pos ⟨hr, hopened⟩⟩
  · intro ys s a u r x hrun hstep hx
    have hkept := listener_kept (r := r) hstep
    cases hp : s.listener r <;> simp_all [rendezvousService]
  · intro ys s hrun
    exact (length_le_measure (I := fun _ => True) trivial (fun _ _ _ _ _ => trivial)
      (fun _ _ _ _ h => rendezvousLevel_step h) hrun).trans (rendezvousLevel_le s)

/-! ## What a client makes of the file -/

theorem stripLast_empty {below : Char} (b : List Char) (hbelow : isspace below = false) :
    stripLast below (nul :: b) = .ok [] := by
  have hnil : contents (nul :: b) = some [] := contents_append (s := []) b (by simp)
  have hbyte : byteAt below (nul :: b) (-1) = below := rfl
  rw [stripLast, hnil]
  change (stripAt below (nul :: b) (-1)).bind _ = _
  rw [stripAt, hbyte, hbelow]
  change (.ok (nul :: b) : Except InitFault (List Char)).bind _ = _
  exact congrArg (orFault · .outsideLinebuf) hnil

/-- A file that begins with a NUL gives no context. -/
theorem no_ctx_of_nul {e : InitCalls} {m : LineMemory} (hm : m.linebuf.length = lineMax)
    (hhead : text.head? = some nul) (ctx : ClientCtx) (calls : List InitCall) :
    metasimInit e m (.content text) ≠ .ok (some ctx, calls) := by
  intro h
  have hcalloc : e.calloc = true := by
    by_contra hno
    rw [metasimInit, if_pos (by simpa using hno)] at h
    cases h
  cases hbelow : isspace m.below with
  | true =>
    rw [metasimInit_nul hm hcalloc hhead hbelow] at h
    cases h
  | false =>
    have htext : text ≠ [] := by
      rintro rfl
      simp at hhead
    obtain ⟨b, hb⟩ := fgets_linebuf hm htext
    rw [(delivered_eq_nil htext).mpr hhead] at hb
    have hline : readLine m text = .ok [] := by
      rw [readLine, hb]
      exact stripLast_empty b hbelow
    have hget : getLocalListenerAddr e m (.content text) =
        .ok (if e.strdupAddr then some [] else none) := by
      rw [getLocalListenerAddr, if_neg htext, hline]
      rfl
    cases haddr : e.strdupAddr with
    | false =>
      rw [haddr] at hget
      rw [metasimInit_no_addr hcalloc hget] at h
      cases h
    | true =>
      rw [haddr] at hget
      rw [metasimInit_addr hcalloc hget, initRpcAt] at h
      cases hdup : e.strdupProto with
      | false =>
        rw [readAddrProto, if_pos hdup] at h
        cases h
      | true =>
        rw [readAddrProto_eq List.not_mem_nil hdup] at h
        cases h

/-- A context belongs to the file it was made from, whatever the file and the outcomes. -/
theorem ctxOf_of_metasimInit {e : InitCalls} {m : LineMemory} {ctx : ClientCtx}
    {calls : List InitCall} (hm : m.linebuf.length = lineMax)
    (h : metasimInit e m file = .ok (some ctx, calls)) : CtxOf file ctx := by
  by_cases hp : e.calloc = false ∨ Prepared e file
  · obtain ⟨ctx', calls', hrun, hstarts⟩ := startsUp_of_prepared hm hp
    rw [h] at hrun
    cases hrun
    exact hstarts.ctx_of_file ctx rfl
  · obtain ⟨hcalloc, hp⟩ := not_or.mp hp
    have hcalloc : e.calloc = true := by simpa using hcalloc
    cases file with
    | noAccess | noOpen => exact absurd trivial hp
    | content text =>
      obtain ⟨htext, hp⟩ := not_or.mp hp
      by_cases hhead : text.head? = some nul
      · exact absurd h (no_ctx_of_nul hm hhead ctx calls)
      · obtain ⟨haddr, hproto⟩ := not_or.mp fun h => hp ⟨hhead, h⟩
        have haddr : e.strdupAddr = true := by simpa using haddr
        cases hdup : e.strdupProto with
        | false =>
          rw [metasimInit_no_proto hm hcalloc htext hhead haddr hdup] at h
          cases h
        | true =>
          rw [metasimInit_no_colon hm hcalloc htext hhead haddr hdup
            fun hc => hproto ⟨hdup, hc⟩] at h
          cases h

/-- An address as the listener gets it from margo. -/
structure PlainAddr (str : List Char) : Prop where
  no_nul : nul ∉ str
  no_newline : '\n' ∉ str
  length_le : str.length ≤ 511
  last : str.getLast?.any isspace = false

theorem PlainAddr.stripped_delivered (h : PlainAddr str) : stripped (delivered str) = str := by
  have hlen : str.length ≤ lineMax - 2 := h.length_le.trans (by decide)
  rw [delivered_published h.no_nul h.no_newline hlen, stripped, h.last]
  rfl

/-! ## Servers and clients together -/

section Together

variable {xs zs : List (Label (Fin A.nranks) ServerCall RendezvousLabel)}
  {v w : State (Fin A.nranks) ServerCall × RendezvousState}

theorem listenerInit_of_uses {p : Fin A.nranks} {d : ServerCall}
    (h : (rendezvous A).uses p d = some r) : d = .listenerInit ∧ p.val = r := by
  cases d with
  | listenerInit => exact ⟨rfl, Option.some.inj h⟩
  | _ => cases h

/-- No listener opens its file before every server is ready. -/
theorem listening_of_launched (hrun : (rendezvous A).Run xs v) (hl : (v.2.listener r).Launched) :
    ∃ p : Fin A.nranks, .listenerInit ∈ entered p (mains xs) := by
  have hne : v.2.listener r ≠ .idle := by
    rintro hidle
    rw [hidle] at hl
    rcases hl with hl | hl <;> cases hl
  have hbegun : (rendezvousService A).Begun (serves xs) r :=
    begun_iff_publish.mpr ((publish_history hrun.serves).mpr hne)
  obtain ⟨p, d, hd, huses⟩ := entered_of_begun ServerArgs.follows_path hrun hbegun
  obtain ⟨rfl, -⟩ := listenerInit_of_uses huses
  exact ⟨p, hd⟩

/-- A server that is at its end has tried to publish. -/
theorem listened_of_finished (hinit : ∀ rank < A.nranks, A.margoInit rank = true)
    (hrun : (rendezvous A).Run xs v) (hdone : ∀ rank, v.1.current rank = none)
    (hr : r < A.nranks) : v.2.listener r = .published ∨ v.2.listener r = .failed := by
  have hw := walks_trace ServerArgs.follows_path hrun.mains ⟨r, hr⟩
  have hret : .listenerInit ∈ returned ⟨r, hr⟩ (mains xs) := by
    rw [(hw.finished (hdone _)).2]
    exact ServerArgs.mem_path_of_margoInit (hinit r hr) (by simp [ServerArgs.afterInit])
  obtain ⟨x, hx⟩ := answer_of_returned (rendezvousService_reliable A) hrun hret
    (show (rendezvous A).uses ⟨r, hr⟩ .listenerInit = some r from rfl)
  have hx : (rendezvousService A).answer v.2 r = some x := hx
  cases hp : v.2.listener r <;> simp_all [rendezvousService]

/-- A client that has nothing to do has read, or waits where nobody has published. -/
theorem client_of_terminal (hT : Terminal (rendezvous A).Step v) (hI : RendezvousInv A v.2)
    (hlistened : ∀ r < A.nranks, v.2.listener r = .published ∨ v.2.listener r = .failed)
    (hc : c < A.clients) : (∃ file, v.2.client c = .read file) ∨
      (v.2.client c = .waiting ∧ A.accessible c = true ∧ A.left (A.clientNode c) = none ∧
        ∀ r < A.nranks, A.node r = A.clientNode c → v.2.listener r = .failed) := by
  have hserve : ∀ a u, (rendezvousService A).begins a = none → ¬ RendezvousStep A v.2 a u := by
    intro a u hbegins hs
    exact hT (.serve a) (v.1, u) (step_serve.mpr ⟨hs, rfl, by
      intro i hi
      rw [show (rendezvous A).service = rendezvousService A from rfl, hbegins] at hi
      cases hi⟩)
  cases hp : v.2.client c with
  | read file => exact Or.inl ⟨file, rfl⟩
  | accessed => exact absurd (if_pos ⟨hc, hp⟩) (hserve (.fopen c) _ rfl)
  | opened =>
    obtain ⟨text, htext⟩ := Option.ne_none_iff_exists'.mp (hI.present c (Or.inr hp))
    have hs : RendezvousStep A v.2 (.fgets c) (v.2.setClient c (.read (.content text))) := by
      simp [RendezvousStep, rendezvousStep, hc, hp, htext]
    exact absurd hs (hserve _ _ rfl)
  | waiting =>
    right
    have haccess : A.accessible c = true := by
      by_contra hno
      have hs : RendezvousStep A v.2 (.access c) (v.2.setClient c (.read .noAccess)) := by
        simp [RendezvousStep, rendezvousStep, hc, hp, hno]
      exact hserve _ _ rfl hs
    have hfile : v.2.files (A.clientNode c) = none := by
      by_contra hfile
      have hs : RendezvousStep A v.2 (.access c) (v.2.setClient c .accessed) := by
        simp [RendezvousStep, rendezvousStep, hc, hp, haccess, hfile]
      exact hserve _ _ rfl hs
    have hnone : ∀ r < A.nranks, A.node r = A.clientNode c → ¬ (v.2.listener r).Launched := by
      intro r hr hnode hl
      obtain ⟨text, htext, -⟩ := hI.touched r hr hl
      simp [hnode, hfile] at htext
    refine ⟨rfl, haccess, (hI.untouched _ hnone).symm.trans hfile, fun r hr hnode => ?_⟩
    exact (hlistened r hr).resolve_left fun hpub => hnone r hr hnode (hpub ▸ launched_published)

/-- The states from here on, where the only listener of a node has published. -/
theorem read_of_published (hrun : (rendezvous A).Run xs v) (hr : r < A.nranks) (hsole : Sole A r)
    (hp : v.2.listener r = .published) (hnode : A.clientNode c = A.node r)
    (hnot : ∀ file, v.2.client c ≠ .read file)
    (hlater : Trace (rendezvous A).Step v zs w) : w.2.listener r = .published ∧
      ∀ text, w.2.client c = .read (.content text) → text = A.addrstr r := by
  induction hlater with
  | refl => exact ⟨hp, fun text h => absurd h (hnot _)⟩
  | @snoc zs w z a hzs hs ih =>
    obtain ⟨hpub, hread⟩ := ih
    have hw : (rendezvous A).Run (xs ++ zs) w := append hrun hzs
    rcases main_step hs with ⟨-, b, rfl⟩ | ⟨p, e, rfl, -, heq⟩
    · have hserve : RendezvousStep A w.2 b z.2 := (step_serve.mp hs).1
      refine ⟨(listener_kept hserve (Or.inl hpub)).trans hpub, fun text htext => ?_⟩
      generalize z.2 = u at hserve htext
      cases move_of_rendezvousStep hserve with
      | fail | truncate | write => exact hread text htext
      | @client d q a hd hbegins hnext =>
        rw [client_setClient] at htext
        split_ifs at htext with hcd
        · subst hcd htext
          rcases hnext with ⟨-, h | ⟨h, -⟩⟩ | ⟨-, h | h⟩ | ⟨-, text', htext', h⟩ <;> cases h
          have hfile := (rendezvous_inv hw.serves).published_sole hr hsole hpub
          rw [hnode, hfile] at htext'
          exact (Option.some.inj htext').symm
        · exact hread text htext
    · rw [heq]
      exact ⟨hpub, hread⟩

/-- What a client reads from the file of its node, in every run of the servers and all clients: what
was left there, nothing, or what listeners of its node have published, the last of them at its
beginning; and in the last two cases every server has its addresses and handlers and is through with
its tests. A context is that of the string in the file, and where nothing was left and the addresses
of the node have one length, that of a listener of the node. -/
theorem client_finds_listener (hrun : (rendezvous A).Run xs v)
    (hc : v.2.client c = .read (.content text)) :
    (A.left (A.clientNode c) = some text ∨
      ((∀ q : Fin A.nranks, .readAddrFile ∈ returned q (mains xs) ∧
        .rpcRegister ∈ returned q (mains xs) ∧
        ∀ d ∈ A.path q, d.test ≠ none → d ∈ returned q (mains xs)) ∧
      (text = [] ∨ Published A v.2 (A.clientNode c) text))) ∧
    ∀ e m ctx calls, m.linebuf.length = lineMax →
      metasimInit e m (.content text) = .ok (some ctx, calls) →
      ctx.listener = stripped (delivered text) ∧ ctx.proto = ctx.listener.takeWhile (· ≠ ':') ∧
      ∀ n, A.left (A.clientNode c) = none →
        (∀ r < A.nranks, A.node r = A.clientNode c → PlainAddr (A.addrstr r) ∧
          (A.addrstr r).length = n) →
        ∃ r < A.nranks, A.node r = A.clientNode c ∧ v.2.listener r = .published ∧
          ctx.listener = A.addrstr r := by
  have hfound := (rendezvous_inv hrun.serves).reads c text hc
  refine ⟨?_, ?_⟩
  · rcases hfound with hleft | ⟨⟨r, -, -, hl⟩, htext⟩
    · exact Or.inl hleft
    · obtain ⟨p, hp⟩ := listening_of_launched hrun hl
      have hF := ServerArgs.fencedInv hrun.mains
      refine Or.inr ⟨fun q => ?_, htext⟩
      obtain ⟨hread, hregister⟩ := ServerArgs.linked_of_entered hF hp (Or.inr rfl) q
      exact ⟨hread, hregister, fun d hd hdt => ServerArgs.tested_of_listening hF hp hd hdt⟩
  · intro e m ctx calls hm hinit
    obtain ⟨text', htext', hlistener, hcolon, hproto⟩ := ctxOf_of_metasimInit hm hinit
    cases htext'
    refine ⟨hlistener, hproto, fun n hleft hplain => ?_⟩
    rcases hfound with hleft' | ⟨-, rfl | hpub⟩
    · simp [hleft] at hleft'
    · have hnil : stripped (delivered []) = [] := rfl
      rw [hlistener, hnil] at hcolon
      cases hcolon
    · obtain ⟨r, hr, hnode, hp, rfl⟩ := hpub.eq_of_length fun q hq hq' => (hplain q hq hq').2
      exact ⟨r, hr, hnode, hp, hlistener.trans (hplain r hr hnode).1.stripped_delivered⟩

/-- Two servers and a client on one node. -/
def sharedNode : RendezvousArgs where
  nranks := 2
  selftest := false
  margoInit _ := true
  node _ := 0
  addrstr rank := if rank = 0 then ['n', ':'] else ['m', ':']
  listenerMargo _ := true
  listenerFopen _ := true
  left _ := none
  clients := 1
  clientNode _ := 0
  accessible _ := true
  clientFopen _ := true

abbrev SharedNodeLabel : Type := Label (Fin sharedNode.nranks) ServerCall RendezvousLabel

/-- Server 1 opens the file that server 0 has written, and writes while the client has it open. -/
def sharedNodeRun : List SharedNodeLabel :=
  let both := List.finRange 2
  let calls : List (List (Fin 2) × ServerCall) := [(both, .commInit), (both, .fence .reading),
    (both, .readAddrFile), (both, .fence .linked), (both.take 1, .commProbePeers),
    (both, .rpcRegister), (both, .fence .initialized)]
  calls.flatMap (fun c => Served.jointly c.1 c.2 []) ++ both.map (.main · (.enter .listenerInit)) ++
    ([.publish 0, .fclose 0, .publish 1, .access 0, .fopen 0, .fclose 1, .fgets 0].map .serve)

theorem client_finds_listener_two : ∃ v, (rendezvous sharedNode).Run sharedNodeRun v ∧
    Published sharedNode v.2 0 ['m', ':'] ∧
    ∃ ctx : ClientCtx, ctx.proto = ['m'] ∧ ∃ r < 2, v.2.listener r = .published ∧
      ctx.listener = sharedNode.addrstr r := by
  have hfinal : ((sharedNodeRun.foldlM (rendezvous sharedNode).step
      (rendezvous sharedNode).start).map fun v =>
        decide (v.2.client 0 = .read (.content ['m', ':']))) = some true := by decide
  obtain ⟨v, hv, hread⟩ := Option.map_eq_some_iff.mp hfinal
  have hrun : (rendezvous sharedNode).Run _ v := of_foldlM hv
  obtain ⟨hfound, hctx⟩ := client_finds_listener hrun (of_decide_eq_true hread)
  have hpub : Published sharedNode v.2 0 ['m', ':'] := by
    rcases hfound with hleft | ⟨-, hnil | hpub⟩
    · cases hleft
    · cases hnil
    · exact hpub
  let m : LineMemory := ⟨List.replicate lineMax nul, nul⟩
  have hm : m.linebuf.length = lineMax := List.length_replicate
  obtain ⟨calls, hinit⟩ := published_address_found (s := ['m', ':']) hm (by decide) (by decide)
    (by decide) (by decide) (by decide)
  obtain ⟨-, -, hfind⟩ := hctx {} m _ calls hm hinit
  obtain ⟨r, hr, -, hp, hlistener⟩ := hfind 2 rfl fun r hr _ => by
    have hr : r < 2 := hr
    interval_cases r <;> exact ⟨⟨by decide, by decide, by decide, by decide⟩, rfl⟩
  exact ⟨v, hrun, hpub, _, rfl, r, hr, hp, hlistener⟩

/-- Where a listener is alone on its node, a client that has not read by the time it has published
reads its address. With margo on all ranks the servers come to their end, and then every client has
read, or it waits where nothing was left and no listener could publish. A run ends. -/
theorem published_for_good (hrun : (rendezvous A).Run xs v) :
    (∀ r < A.nranks, Sole A r → v.2.listener r = .published → ∀ zs w,
      Trace (rendezvous A).Step v zs w → ∀ c, A.clientNode c = A.node r →
        (∀ file, v.2.client c ≠ .read file) →
        ∀ text, w.2.client c = .read (.content text) → text = A.addrstr r) ∧
    ((∀ rank < A.nranks, A.margoInit rank = true) → Terminal (rendezvous A).Step v →
      (∀ rank, v.1.current rank = none) ∧ ∀ c < A.clients,
        (∃ file, v.2.client c = .read file) ∨
          (v.2.client c = .waiting ∧ A.accessible c = true ∧ A.left (A.clientNode c) = none ∧
            ∀ r < A.nranks, A.node r = A.clientNode c → v.2.listener r = .failed)) ∧
    xs.length ≤ ∑ rank, 2 * (A.path rank).length + (2 * A.nranks + 3 * A.clients) := by
  refine ⟨fun r hr hsole hp zs w hlater c hnode hnot =>
    (read_of_published hrun hr hsole hp hnode hnot hlater).2, fun hinit hT => ?_,
    Layer.Run.length_le (rendezvousService_reliable A) ServerArgs.follows_path hrun⟩
  have hdone : ∀ rank, v.1.current rank = none := by
    intro rank
    by_contra hrank
    have huse : ∀ (p : Fin A.nranks), ∀ d ∈ A.path p, ∀ i, (rendezvous A).uses p d = some i →
        i < A.nranks := fun p d _ i hi => (listenerInit_of_uses hi).2 ▸ p.isLt
    obtain ⟨a, u, hs⟩ := hrun.progress (ServerArgs.aligned hinit) (rendezvousService_reliable A)
      (ordered_of_free fun _ _ => not_false) huse hrank
    exact hT a u hs
  exact ⟨hdone, fun c hc => client_of_terminal hT (rendezvous_inv hrun.serves)
    (fun r hr => listened_of_finished hinit hrun hdone hr) hc⟩

/-- One server and one client on a node. -/
def oneNode : RendezvousArgs where
  nranks := 1
  selftest := false
  margoInit _ := true
  node _ := 0
  addrstr _ := ['n', ':']
  listenerMargo _ := true
  listenerFopen _ := true
  left _ := none
  clients := 1
  clientNode _ := 0
  accessible _ := true
  clientFopen _ := true

abbrev OneNodeLabel : Type := Label (Fin oneNode.nranks) ServerCall RendezvousLabel

/-- The server up to the point where its listener has the file open. -/
def oneNodeRun : List OneNodeLabel :=
  let calls : List ServerCall := [.commInit, .fence .reading, .readAddrFile, .fence .linked,
    .commProbePeers, .rpcRegister, .fence .initialized]
  calls.flatMap (Served.jointly (List.finRange 1) · []) ++
    (List.finRange 1).map (.main · (.enter .listenerInit)) ++ [.serve (.publish 0)]

def oneNodeClose : List OneNodeLabel := [.serve (.fclose 0)]

def oneNodeLater : List OneNodeLabel :=
  [.serve (.access 0), .serve (.fopen 0), .serve (.fgets 0)]

theorem published_for_good_one : ∃ v w text,
    (rendezvous oneNode).Run (oneNodeRun ++ oneNodeClose) v ∧
      Trace (rendezvous oneNode).Step v oneNodeLater w ∧
      w.2.client 0 = .read (.content text) ∧ text = ['n', ':'] := by
  have hfinal : (((oneNodeRun ++ oneNodeClose).foldlM (rendezvous oneNode).step
      (rendezvous oneNode).start).bind fun v =>
        (oneNodeLater.foldlM (rendezvous oneNode).step v).map fun w =>
          decide (v.2.listener 0 = .published ∧ v.2.client 0 = .waiting ∧
            w.2.client 0 = .read (.content ['n', ':']))) = some true := by decide
  obtain ⟨v, hv, hfinal⟩ := Option.bind_eq_some_iff.mp hfinal
  obtain ⟨w, hw, hfinal⟩ := Option.map_eq_some_iff.mp hfinal
  obtain ⟨hp, hc, hread⟩ := of_decide_eq_true hfinal
  have hrun : (rendezvous oneNode).Run _ v := of_foldlM hv
  have hlater : Trace (rendezvous oneNode).Step v oneNodeLater w := of_foldlM hw
  obtain ⟨hgood, -⟩ := published_for_good hrun
  have htext := hgood 0 (by decide) (fun q hq _ => Nat.lt_one_iff.mp hq) hp _ w hlater 0 rfl
    (by simp [hc]) _ hread
  exact ⟨v, w, _, hrun, hlater, hread, htext⟩

end Together

end Metasim
