import Metasim.FilesizeState
import Metasim.Handle
import Metasim.Lib.Transition

/-! The filesize collectives of `margotree.c` on all servers: the threads that send requests,
the handlers, the messages between them, the heap of records and the waiting main threads.
A step leads from one call of margo or of a mutex or condition variable to the next. -/
namespace Metasim

/-- A collective as `main` starts it: the server, the degree of the tree, and `reply`. -/
structure Collective where
  root : ℤ
  degree : ℤ
  reply : Bool
deriving Repr, DecidableEq

instance : OverTree Collective := { root := Collective.root, degree := Collective.degree }

/-- A message in flight, one whose handler has started (and has answered the call, in the
reply mode), and one whose handler has gone on. -/
inductive Message (α : Type)
  | unused
  | sent (dst : ℤ) (msg : α)
  | accepted (dst : ℤ) (msg : α)
  | served
deriving Repr, DecidableEq

inductive Cell
  | unallocated
  | live (st : StateFilesize)
  | freed
deriving Repr, DecidableEq

/-- The locals of `filesize_request_forward`; `waiting` inside the call for child `next`. -/
structure ForwardFrame where
  rank : ℤ
  childCount : ℤ
  next : ℕ
  waiting : Bool
deriving Repr, DecidableEq

/-- What exists under one handle: the request, the record allocated for it and the thread
that sends it on, the response sent from the record, and, with the mode of that call, the
thread that is to free the record after it. -/
structure Part where
  request : Message FilesizeRequestIn := .unused
  cell : Cell := .unallocated
  thread : Option ForwardFrame := none
  response : Message FilesizeResponseIn := .unused
  releasing : Option Bool := none
deriving Repr, DecidableEq

/-- A main thread. It waits on the condition variable of the record that `glb_st` points to,
given by its collective. -/
inductive MainPc
  | idle
  | forwarding
  | ready
  | waiting (on : ℕ)
  | woken (on : ℕ)
  | awake
  | got (filesize : ℕ)
  | finished
deriving Repr, DecidableEq

/-- The handler that completes a root's record: what it is to do next. -/
inductive WakePc
  | idle | lock | signal | unlock | done
deriving Repr, DecidableEq

inductive MutexOwner
  | main (call : ℕ)
  | handler
deriving Repr, DecidableEq

/-- The main thread of a collective, and mutex and waker of its root's record. -/
structure RootControl where
  main : MainPc := .idle
  wake : WakePc := .idle
  mutex : Option MutexOwner := none
deriving Repr, DecidableEq

/-- What happens to records, in order. This log is not in the source. -/
inductive FilesizeEvent
  | allocate (record : Handle) (rank : ℤ)
  | apply (origin record : Handle)
  | respond (record : Handle) (rank dst : ℤ)
  | complete (call : ℕ) (filesize : ℕ)
  | free (record : Handle)
deriving Repr, DecidableEq

/-- `glbSt` is the global `glb_st` of each server. `fault` is set by an access through a
null or dangling pointer, after which nothing is said. -/
structure FilesizeNet where
  part : Handle → Part
  glbSt : ℤ → Option Handle
  control : ℕ → RootControl
  events : List FilesizeEvent
  fault : Bool

namespace FilesizeNet

def modify (s : FilesizeNet) (h : Handle) (f : Part → Part) : FilesizeNet :=
  { s with part := Function.update s.part h (f (s.part h)) }

def setGlbSt (s : FilesizeNet) (rank : ℤ) (p : Option Handle) : FilesizeNet :=
  { s with glbSt := Function.update s.glbSt rank p }

def setControl (s : FilesizeNet) (i : ℕ) (f : RootControl → RootControl) : FilesizeNet :=
  { s with control := Function.update s.control i (f (s.control i)) }

def log (s : FilesizeNet) (e : FilesizeEvent) : FilesizeNet := { s with events := s.events ++ [e] }

def fail (s : FilesizeNet) : FilesizeNet := { s with fault := true }

/-- Going on with the record at `h`, which must be there. -/
def deref (s : FilesizeNet) (h : Handle) (k : StateFilesize → FilesizeNet) : FilesizeNet :=
  match (s.part h).cell with
  | .live st => k st
  | _ => s.fail

/-- Going on with the record that `glb_st` of `rank` points to. -/
def derefGlbSt (s : FilesizeNet) (rank : ℤ) (k : Handle → StateFilesize → FilesizeNet) :
    FilesizeNet :=
  match s.glbSt rank with
  | some h => s.deref h (k h)
  | none => s.fail

def start : FilesizeNet where
  part := fun _ => {}
  glbSt := fun _ => none
  control := fun _ => {}
  events := []
  fault := false

end FilesizeNet

inductive FilesizeLabel
  | start (call : ℕ)
  | forward (h : Handle)
  | returned (h : Handle)
  | endForward (h : Handle)
  | accept (h : Handle)
  | alloc (h : Handle)
  | acceptResponse (h : Handle)
  | apply (h : Handle)
  | release (h : Handle)
  | wakeLock (call : ℕ)
  | wakeSignal (call : ℕ) (woken : Option ℕ)
  | wakeUnlock (call : ℕ)
  | wait (call : ℕ)
  | reacquire (call : ℕ)
  | read (call : ℕ)
  | finish (call : ℕ)
deriving Repr, DecidableEq

section Source

variable (arith : ℤ → ℤ) (n : ℤ) (colls : List Collective)

/-- `glb_st = state_filesize_alloc(...)`, then `filesize_request_forward` is entered. -/
def allocate (s : FilesizeNet) (h : Handle) (rank root degree : ℤ) (reply : Bool) (ptag : ℤ)
    (request : Message FilesizeRequestIn) : FilesizeNet :=
  let st := stateFilesizeAlloc arith rank n root degree reply ptag rank
  let frame : ForwardFrame :=
    { rank, childCount := st.tree.childCount, next := 0, waiting := false }
  (((s.modify h fun p => { p with cell := .live st, thread := some frame, request })).setGlbSt
    rank (some h)).log (.allocate h rank)

/-- `filesize_response_forward(st)` on server `rank`, `st` being the record at `h`. -/
def responseForward (rank : ℤ) (s : FilesizeNet) (h : Handle) (st : StateFilesize) :
    FilesizeNet :=
  match filesizeResponseForward rank st with
  | (st, none) => s.modify h fun p => { p with cell := .live st }
  | (st, some d) =>
    if d.parent ≠ -1 then
      (s.modify h fun p => { p with
        cell := .live st
        response := .sent d.parent d.response
        releasing := some st.reply }).log (.respond h rank d.parent)
    else
      let s := s.modify h fun p => { p with cell := .live st }
      if 1 < n then s.setControl h.call fun r => { r with wake := .lock } else s

/-- The main thread of call `i` reads `glb_st->filesize`. -/
def readResult (s : FilesizeNet) (root : ℤ) (i : ℕ) : FilesizeNet :=
  s.derefGlbSt root fun _ st => s.setControl i fun r => { r with main := .got st.filesize }

/-- One step of some thread or handler. -/
def filesizeMove (s : FilesizeNet) : FilesizeLabel → Option FilesizeNet
  -- `main`, up to the first request
  | .start i => do
    let c ← colls[i]?
    if (s.control i).main = .idle then
      some ((allocate arith n s ⟨i, []⟩ c.root c.root c.degree c.reply (-1) .unused).setControl i
        fun _ => { main := .forwarding, mutex := if 1 < n then some (.main i) else none })
    else none
  -- one turn of the loop: `rpc_invoke_filesize_request` is called
  | .forward h => do
    let F ← (s.part h).thread
    if F.waiting = false ∧ F.next < F.childCount then
      some (s.deref h fun st =>
        match st.tree.childRanks[F.next]? with
        | some child =>
          (s.modify (h.child F.next) fun p => { p with request := .sent child st.request }).modify h
            fun p => { p with
              thread := some (if st.reply then { F with waiting := true }
                else { F with next := F.next + 1 }) }
        | none => s.fail)
    else none
  -- and returns, in the reply mode
  | .returned h => do
    let F ← (s.part h).thread
    if F.waiting then
      match (s.part (h.child F.next)).request with
      | .accepted _ _ | .served => some (s.modify h fun p => { p with
          thread := some { F with next := F.next + 1, waiting := false } })
      | _ => none
    else none
  -- the rest of `filesize_request_forward`
  | .endForward h => do
    let F ← (s.part h).thread
    if F.waiting = false ∧ F.childCount ≤ F.next then
      let s := s.modify h fun p => { p with thread := none }
      let s := if h.path = [] then
        s.setControl h.call fun r => { r with main := if 1 < n then .ready else .awake } else s
      if F.childCount = 0 then some (s.deref h fun st => responseForward n F.rank s h st)
      else some s
    else none
  -- `filesize_request_rpc` up to `margo_respond`, and after it
  | .accept h =>
    match (s.part h).request with
    | .sent dst msg => some (s.modify h fun p => { p with request := .accepted dst msg })
    | _ => none
  | .alloc h =>
    match (s.part h).request with
    | .accepted dst msg =>
      some (allocate arith n s h dst msg.root msg.degree msg.reply msg.tag .served)
    | _ => none
  -- `filesize_response_rpc` up to `margo_respond`, and after it
  | .acceptResponse h =>
    match (s.part h).response with
    | .sent dst msg => some (s.modify h fun p => { p with response := .accepted dst msg })
    | _ => none
  | .apply h =>
    match (s.part h).response with
    | .accepted dst msg =>
      let s := s.modify h fun p => { p with response := .served }
      some (s.derefGlbSt dst fun x st => responseForward n dst (s.log (.apply h x)) x
        ((st.raise msg.filesize).setErr msg.err).countResponse)
    | _ => none
  -- `rpc_invoke_filesize_response` returns and `state_filesize_free` is called
  | .release h => do
    let reply ← (s.part h).releasing
    match reply, (s.part h).response with
    | true, .sent _ _ => none
    | _, _ => some (s.deref h fun _ =>
        (s.modify h fun p => { p with cell := .freed, releasing := none }).log (.free h))
  -- the handler wakes the main thread of the root
  | .wakeLock i =>
    if (s.control i).wake = .lock ∧ (s.control i).mutex = none then
      some (s.deref ⟨i, []⟩ fun _ =>
        s.setControl i fun r => { r with wake := .signal, mutex := some .handler })
    else none
  | .wakeSignal i woken =>
    if (s.control i).wake = .signal then
      match woken with
      | some k =>
        if (s.control k).main = .waiting i then
          some (s.deref ⟨i, []⟩ fun _ =>
            (s.setControl k fun r => { r with main := .woken i }).setControl i
              fun r => { r with wake := .unlock })
        else none
      | none =>
        if ∀ k < colls.length, (s.control k).main ≠ .waiting i then
          some (s.deref ⟨i, []⟩ fun _ => s.setControl i fun r => { r with wake := .unlock })
        else none
    else none
  | .wakeUnlock i =>
    if (s.control i).wake = .unlock then
      some (s.deref ⟨i, []⟩ fun _ =>
        s.setControl i fun r => { r with wake := .done, mutex := none })
    else none
  -- `ABT_cond_wait(glb_st->cond, glb_st->mutex)`; without a condition variable it returns
  | .wait i => do
    let c ← colls[i]?
    if (s.control i).main = .ready then
      some (s.derefGlbSt c.root fun x _ =>
        if x.path = [] then
          (s.setControl i fun r => { r with main := .waiting x.call }).setControl x.call
            fun r => { r with mutex := none }
        else s.setControl i fun r => { r with main := .awake })
    else none
  | .reacquire i => do
    let c ← colls[i]?
    match (s.control i).main with
    | .woken k =>
      if (s.control k).mutex = none then
        some (readResult (s.setControl k fun r => { r with mutex := some (.main i) }) c.root i)
      else none
    | _ => none
  | .read i => do
    let c ← colls[i]?
    if (s.control i).main = .awake then some (readResult s c.root i) else none
  -- `ABT_mutex_unlock`, `state_filesize_free(&glb_st)`
  | .finish i => do
    let c ← colls[i]?
    match (s.control i).main with
    | .got filesize =>
      some (s.derefGlbSt c.root fun x _ =>
        let s := if x.path = [] then s.setControl x.call fun r => { r with mutex := none } else s
        let s := s.setControl i fun r => { r with main := .finished }
        let s := (s.modify x fun p => { p with cell := .freed }).setGlbSt c.root none
        (s.log (.complete i filesize)).log (.free x))
    | _ => none

def filesizeStep (s : FilesizeNet) (a : FilesizeLabel) : Option FilesizeNet :=
  if s.fault then none else filesizeMove arith n colls s a

def FilesizeStep (s : FilesizeNet) (a : FilesizeLabel) (u : FilesizeNet) : Prop :=
  filesizeStep arith n colls s a = some u

/-- Every record of the server that is still there has all its responses and is not a
root's, which main goes on reading. -/
def QuietAt (s : FilesizeNet) (rank : ℤ) : Prop :=
  ∀ h st, (s.part h).cell = .live st → st.tree.rank = rank →
    st.full = true ∧ st.tree.parentRank ≠ -1

/-- A step that makes `glb_st` of a server point to a new record is taken when that server is
quiet. -/
def Quiet (s : FilesizeNet) : FilesizeLabel → Prop
  | .start i => ∀ c, colls[i]? = some c → QuietAt s c.root
  | .alloc h => ∀ dst msg, (s.part h).request = .accepted dst msg → QuietAt s dst
  | _ => True

/-- The collectives are started in order, each after the one before has finished. -/
def InTurn (s : FilesizeNet) : FilesizeLabel → Prop
  | .start i => ∀ k < i, (s.control k).main = .finished
  | _ => True

end Source

instance (s : FilesizeNet) : DecidablePred (InTurn s)
  | .start i => inferInstanceAs (Decidable (∀ k < i, (s.control k).main = .finished))
  | .forward _ | .returned _ | .endForward _ | .accept _ | .alloc _ | .acceptResponse _
  | .apply _ | .release _ | .wakeLock _ | .wakeSignal _ _ | .wakeUnlock _ | .wait _
  | .reacquire _ | .read _ | .finish _ => .isTrue trivial

/-! ## Reading the state -/

namespace FilesizeNet

variable (s : FilesizeNet) (h g : Handle) (f : Part → Part) (i k : ℕ)
  (r : RootControl → RootControl) (p : Option Handle) (rank : ℤ) (e : FilesizeEvent)

theorem part_modify : (s.modify h f).part g = if g = h then f (s.part h) else s.part g :=
  Function.update_apply _ _ _ _

theorem control_setControl :
    (s.setControl i r).control k = if k = i then r (s.control i) else s.control k :=
  Function.update_apply _ _ _ _

theorem glbSt_setGlbSt (q : ℤ) :
    (s.setGlbSt rank p).glbSt q = if q = rank then p else s.glbSt q :=
  Function.update_apply _ _ _ _

@[simp] theorem glbSt_modify : (s.modify h f).glbSt = s.glbSt := rfl
@[simp] theorem control_modify : (s.modify h f).control = s.control := rfl
@[simp] theorem events_modify : (s.modify h f).events = s.events := rfl
@[simp] theorem fault_modify : (s.modify h f).fault = s.fault := rfl
@[simp] theorem part_setGlbSt : (s.setGlbSt rank p).part = s.part := rfl
@[simp] theorem control_setGlbSt : (s.setGlbSt rank p).control = s.control := rfl
@[simp] theorem events_setGlbSt : (s.setGlbSt rank p).events = s.events := rfl
@[simp] theorem fault_setGlbSt : (s.setGlbSt rank p).fault = s.fault := rfl
@[simp] theorem part_setControl : (s.setControl i r).part = s.part := rfl
@[simp] theorem glbSt_setControl : (s.setControl i r).glbSt = s.glbSt := rfl
@[simp] theorem events_setControl : (s.setControl i r).events = s.events := rfl
@[simp] theorem fault_setControl : (s.setControl i r).fault = s.fault := rfl
@[simp] theorem part_log : (s.log e).part = s.part := rfl
@[simp] theorem glbSt_log : (s.log e).glbSt = s.glbSt := rfl
@[simp] theorem control_log : (s.log e).control = s.control := rfl
@[simp] theorem events_log : (s.log e).events = s.events ++ [e] := rfl
@[simp] theorem fault_log : (s.log e).fault = s.fault := rfl

theorem deref_live {s : FilesizeNet} {h : Handle} {st : StateFilesize}
    (hc : (s.part h).cell = .live st) (k : StateFilesize → FilesizeNet) : s.deref h k = k st := by
  simp [deref, hc]

theorem derefGlbSt_live {s : FilesizeNet} {rank : ℤ} {h : Handle} {st : StateFilesize}
    (hg : s.glbSt rank = some h) (hc : (s.part h).cell = .live st)
    (k : Handle → StateFilesize → FilesizeNet) : s.derefGlbSt rank k = k h st := by
  simp [derefGlbSt, hg, deref_live hc]

end FilesizeNet

/-! ## The steps, one by one -/

section Steps

variable {arith : ℤ → ℤ} {n : ℤ} {colls : List Collective} {s u : FilesizeNet} {h : Handle} {i : ℕ}

theorem step_iff {a : FilesizeLabel} : FilesizeStep arith n colls s a u ↔
    s.fault = false ∧ filesizeMove arith n colls s a = some u := by
  cases hf : s.fault <;> simp [FilesizeStep, filesizeStep, hf]

theorem step_start : FilesizeStep arith n colls s (.start i) u ↔ s.fault = false ∧
    ∃ c, colls[i]? = some c ∧ (s.control i).main = .idle ∧
      u = (allocate arith n s ⟨i, []⟩ c.root c.root c.degree c.reply (-1) .unused).setControl i
        fun _ => { main := .forwarding, mutex := if 1 < n then some (.main i) else none } := by
  simp only [step_iff, filesizeMove, Option.bind_eq_bind, Option.bind_eq_some_iff,
    Option.ite_none_right_eq_some, Option.some.injEq]
  grind

theorem step_forward : FilesizeStep arith n colls s (.forward h) u ↔ s.fault = false ∧
    ∃ F, (s.part h).thread = some F ∧ F.waiting = false ∧ F.next < F.childCount ∧
      u = s.deref h fun st =>
        match st.tree.childRanks[F.next]? with
        | some child =>
          (s.modify (h.child F.next) fun p => { p with request := .sent child st.request }).modify h
            fun p => { p with
              thread := some (if st.reply then { F with waiting := true }
                else { F with next := F.next + 1 }) }
        | none => s.fail := by
  simp only [step_iff, filesizeMove, Option.bind_eq_bind, Option.bind_eq_some_iff,
    Option.ite_none_right_eq_some, Option.some.injEq]
  grind

theorem step_returned : FilesizeStep arith n colls s (.returned h) u ↔ s.fault = false ∧
    ∃ F, (s.part h).thread = some F ∧ F.waiting = true ∧
      ((∃ dst msg, (s.part (h.child F.next)).request = .accepted dst msg) ∨
        (s.part (h.child F.next)).request = .served) ∧
      u = s.modify h fun p => { p with
        thread := some { F with next := F.next + 1, waiting := false } } := by
  simp only [step_iff, filesizeMove, Option.bind_eq_bind, Option.bind_eq_some_iff,
    Option.ite_none_right_eq_some]
  refine and_congr_right fun _ => exists_congr fun F => ?_
  cases hr : (s.part (h.child F.next)).request <;> grind

theorem step_endForward : FilesizeStep arith n colls s (.endForward h) u ↔ s.fault = false ∧
    ∃ F t, (s.part h).thread = some F ∧ F.waiting = false ∧ F.childCount ≤ F.next ∧
      t = (if h.path = [] then
        (s.modify h fun p => { p with thread := none }).setControl h.call
          fun r => { r with main := if 1 < n then .ready else .awake }
        else s.modify h fun p => { p with thread := none }) ∧
      u = if F.childCount = 0 then t.deref h fun st => responseForward n F.rank t h st else t := by
  simp only [step_iff, filesizeMove, Option.bind_eq_bind, Option.bind_eq_some_iff,
    Option.ite_none_right_eq_some]
  grind

theorem step_accept : FilesizeStep arith n colls s (.accept h) u ↔ s.fault = false ∧
    ∃ dst msg, (s.part h).request = .sent dst msg ∧
      u = s.modify h fun p => { p with request := .accepted dst msg } := by
  simp only [step_iff, filesizeMove]
  cases hr : (s.part h).request <;> grind

theorem step_alloc : FilesizeStep arith n colls s (.alloc h) u ↔ s.fault = false ∧
    ∃ dst msg, (s.part h).request = .accepted dst msg ∧
      u = allocate arith n s h dst msg.root msg.degree msg.reply msg.tag .served := by
  simp only [step_iff, filesizeMove]
  cases hr : (s.part h).request <;> grind

theorem step_acceptResponse : FilesizeStep arith n colls s (.acceptResponse h) u ↔ s.fault = false ∧
    ∃ dst msg, (s.part h).response = .sent dst msg ∧
      u = s.modify h fun p => { p with response := .accepted dst msg } := by
  simp only [step_iff, filesizeMove]
  cases hr : (s.part h).response <;> grind

theorem step_apply : FilesizeStep arith n colls s (.apply h) u ↔ s.fault = false ∧
    ∃ dst msg t, (s.part h).response = .accepted dst msg ∧
      t = (s.modify h fun p => { p with response := .served }) ∧
      u = t.derefGlbSt dst fun x st => responseForward n dst (t.log (.apply h x)) x
        ((st.raise msg.filesize).setErr msg.err).countResponse := by
  simp only [step_iff, filesizeMove]
  cases hr : (s.part h).response <;> grind

theorem step_release : FilesizeStep arith n colls s (.release h) u ↔ s.fault = false ∧
    ∃ reply, (s.part h).releasing = some reply ∧
      (reply = true → ∀ dst msg, (s.part h).response ≠ .sent dst msg) ∧
      u = s.deref h fun _ =>
        (s.modify h fun p => { p with cell := .freed, releasing := none }).log (.free h) := by
  simp only [step_iff, filesizeMove, Option.bind_eq_bind, Option.bind_eq_some_iff]
  refine and_congr_right fun _ => exists_congr fun reply => and_congr_right fun _ => ?_
  cases reply <;> cases hr : (s.part h).response <;> grind

theorem step_wakeLock : FilesizeStep arith n colls s (.wakeLock i) u ↔ s.fault = false ∧
    (s.control i).wake = .lock ∧ (s.control i).mutex = none ∧
      u = s.deref ⟨i, []⟩ fun _ =>
        s.setControl i fun r => { r with wake := .signal, mutex := some .handler } := by
  simp only [step_iff, filesizeMove]
  grind

theorem step_wakeSignal {w : Option ℕ} :
    FilesizeStep arith n colls s (.wakeSignal i w) u ↔ s.fault = false ∧
      (s.control i).wake = .signal ∧
      ((∃ k, w = some k ∧ (s.control k).main = .waiting i ∧
          u = s.deref ⟨i, []⟩ fun _ =>
            (s.setControl k fun r => { r with main := .woken i }).setControl i
              fun r => { r with wake := .unlock }) ∨
        (w = none ∧ (∀ k < colls.length, (s.control k).main ≠ .waiting i) ∧
          u = s.deref ⟨i, []⟩ fun _ => s.setControl i fun r => { r with wake := .unlock })) := by
  simp only [step_iff, filesizeMove]
  cases w <;> grind

theorem step_wakeUnlock : FilesizeStep arith n colls s (.wakeUnlock i) u ↔ s.fault = false ∧
    (s.control i).wake = .unlock ∧
      u = s.deref ⟨i, []⟩ fun _ =>
        s.setControl i fun r => { r with wake := .done, mutex := none } := by
  simp only [step_iff, filesizeMove]
  grind

theorem step_wait : FilesizeStep arith n colls s (.wait i) u ↔ s.fault = false ∧
    ∃ c, colls[i]? = some c ∧ (s.control i).main = .ready ∧
      u = s.derefGlbSt c.root fun x _ =>
        if x.path = [] then
          (s.setControl i fun r => { r with main := .waiting x.call }).setControl x.call
            fun r => { r with mutex := none }
        else s.setControl i fun r => { r with main := .awake } := by
  simp only [step_iff, filesizeMove, Option.bind_eq_bind, Option.bind_eq_some_iff,
    Option.ite_none_right_eq_some, Option.some.injEq]
  grind

theorem step_reacquire : FilesizeStep arith n colls s (.reacquire i) u ↔ s.fault = false ∧
    ∃ c k, colls[i]? = some c ∧ (s.control i).main = .woken k ∧ (s.control k).mutex = none ∧
      u = readResult (s.setControl k fun r => { r with mutex := some (.main i) }) c.root i := by
  simp only [step_iff, filesizeMove, Option.bind_eq_bind, Option.bind_eq_some_iff]
  refine and_congr_right fun _ => exists_congr fun c => ?_
  cases hm : (s.control i).main <;> grind

theorem step_read : FilesizeStep arith n colls s (.read i) u ↔ s.fault = false ∧
    ∃ c, colls[i]? = some c ∧ (s.control i).main = .awake ∧ u = readResult s c.root i := by
  simp only [step_iff, filesizeMove, Option.bind_eq_bind, Option.bind_eq_some_iff,
    Option.ite_none_right_eq_some, Option.some.injEq]
  grind

theorem step_finish : FilesizeStep arith n colls s (.finish i) u ↔ s.fault = false ∧
    ∃ c m, colls[i]? = some c ∧ (s.control i).main = .got m ∧
      u = s.derefGlbSt c.root fun x _ =>
        let s := if x.path = [] then s.setControl x.call fun r => { r with mutex := none } else s
        let s := s.setControl i fun r => { r with main := .finished }
        let s := (s.modify x fun p => { p with cell := .freed }).setGlbSt c.root none
        (s.log (.complete i m)).log (.free x) := by
  simp only [step_iff, filesizeMove, Option.bind_eq_bind, Option.bind_eq_some_iff]
  refine and_congr_right fun _ => exists_congr fun c => ?_
  cases hm : (s.control i).main <;> grind

end Steps

end Metasim
