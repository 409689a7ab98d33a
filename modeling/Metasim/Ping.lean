import Metasim.Sum

/-! A client's ping: `metasim_invoke_ping` to the local listener, `metasim_rpc_invoke_ping` from
there to the target, and the two handlers. -/
namespace Metasim

/-- `EINVAL` -/
def einval : ℤ := 22

/-- `metasim_ping_in_t` of the listener -/
structure PingIn where
  target : ℤ
  ping : ℤ
deriving Repr, DecidableEq

/-- What the calls made for one ping return, from the client to the target. Each is made at
most once; codes are `hg_return_t`. -/
structure PingCalls where
  clientCreate : ℤ := 0
  clientForward : ℤ := 0
  clientGetOutput : ℤ := 0
  listenerGetInput : ℤ := 0
  listenerRespond : ℤ := 0
  create : ℤ := 0
  forward : ℤ := 0
  getOutput : ℤ := 0
  getInput : ℤ := 0
  respond : ℤ := 0
deriving Repr, DecidableEq

/-- Memory that is read without having been written: `in` and `pong` of the listener's
handler, and `out.pong` of `metasim_rpc_invoke_ping` and of the client. -/
structure PingJunk where
  input : PingIn
  pong : ℤ
  out : ℤ
  clientOut : ℤ
deriving Repr, DecidableEq

/-- `metasim_rpc_handle_ping`: the calls made for its handle. The `margo_respond` after a failed
`margo_get_input` is jumped over. -/
def metasimRpcHandlePing (getInput ping : ℤ) : List MargoCall :=
  if getInput ≠ 0 then [.getInput, .freeInput, .destroyOwn]
  else [.getInput, .respond ping, .freeInput, .destroyOwn]

/-- What a handler responds. -/
def responses (calls : List MargoCall) : List ℤ :=
  calls.filterMap fun call => match call with
    | .respond x => some x
    | _ => none

/-- The answer that reaches the caller of the target, if one does. -/
def pingAnswer (f : PingCalls) (ping : ℤ) : Option ℤ :=
  if f.respond = 0 then (responses (metasimRpcHandlePing f.getInput ping)).head? else none

/-- The calls of `metasim_rpc_invoke_ping`; `peerAddr i` reads `peer_addrs[i]`. -/
inductive PingCall
  | peerAddr (i : ℤ) | create | forward | getOutput | freeOutput | destroy
deriving Repr, DecidableEq

/-- `metasim_rpc_invoke_ping`: `ret` is `none` where it does not return, `pong` is `*pong`, and
`answer` what the target responded. -/
structure PingInvoked where
  ret : Option ℤ
  pong : ℤ
  answer : Option ℤ
  calls : List PingCall
deriving Repr, DecidableEq

/-- `metasim_rpc_invoke_ping(targetrank, ping, pong)`; `before` is `*pong` on entry. Its `ret` is
never assigned. -/
def metasimRpcInvokePing (nranks : ℤ) (f : PingCalls) (out targetrank ping before : ℤ) :
    PingInvoked :=
  if targetrank > nranks - 1 then
    { ret := some einval, pong := before, answer := none, calls := [] }
  else if targetrank < 0 then
    -- before the array; what follows is undefined
    { ret := none, pong := before, answer := none, calls := [.peerAddr targetrank] }
  else if f.create ≠ 0 then
    { ret := some 0, pong := before, answer := none
      calls := [.peerAddr targetrank, .create, .freeOutput] }
  else if f.forward ≠ 0 then
    { ret := some 0, pong := out, answer := none
      calls := [.peerAddr targetrank, .create, .forward, .getOutput, .freeOutput, .destroy] }
  else
    match pingAnswer f ping with
    | none =>
      { ret := none, pong := before, answer := none
        calls := [.peerAddr targetrank, .create, .forward] }
    | some pong =>
      { ret := some 0, pong := if f.getOutput = 0 then pong else out, answer := some pong
        calls := [.peerAddr targetrank, .create, .forward, .getOutput, .freeOutput, .destroy] }

/-- A run of `metasim_listener_handle_ping`; `pong` is what it answers. -/
structure PingListened where
  invoked : PingInvoked
  pong : Option ℤ
deriving Repr, DecidableEq

/-- `metasim_listener_handle_ping`; the result of `margo_get_input` is not looked at. -/
def metasimListenerHandlePing (nranks : ℤ) (f : PingCalls) (junk : PingJunk) (input : PingIn) :
    PingListened :=
  let input := if f.listenerGetInput = 0 then input else junk.input
  let target := if nranks ≤ input.target then input.target.tmod nranks else input.target
  let invoked := metasimRpcInvokePing nranks f junk.out target input.ping junk.pong
  { invoked, pong := invoked.ret.map fun ret => if ret ≠ 0 then -1 else invoked.pong }

/-- A run of `metasim_invoke_ping`: its result, the handler if the request reached it, and
`*pong` if it is written. -/
structure PingRun where
  ret : Option ℤ
  listener : Option PingListened
  pong : Option ℤ
deriving Repr, DecidableEq

/-- `metasim_invoke_ping`, in which no result is looked at; `self` says whether there is a
context. Nothing is delivered by a forward that fails, or on the handle of a failed create. -/
def metasimInvokePing (self : Bool) (nranks : ℤ) (f : PingCalls) (input : PingIn)
    (junk : PingJunk) : PingRun :=
  if self = false then { ret := some einval, listener := none, pong := none }
  else if f.clientCreate ≠ 0 ∨ f.clientForward ≠ 0 then
    { ret := some 0, listener := none, pong := some junk.clientOut }
  else
    let listener := metasimListenerHandlePing nranks f junk input
    let answer := if f.listenerRespond = 0 then listener.pong else none
    { ret := answer.map fun _ => 0
      listener := some listener
      pong := answer.map fun pong => if f.clientGetOutput = 0 then pong else junk.clientOut }

/-! ## The function at the listener -/

variable {nranks target ping before out pong : ℤ} {f : PingCalls}

/-- The entries of `peer_addrs` that are read. -/
def PingInvoked.accesses (r : PingInvoked) : List ℤ :=
  r.calls.filterMap fun call => match call with
    | .peerAddr i => some i
    | _ => none

theorem pingAnswer_eq_some :
    pingAnswer f ping = some pong ↔ f.respond = 0 ∧ f.getInput = 0 ∧ pong = ping := by
  unfold pingAnswer metasimRpcHandlePing responses
  split_ifs <;> simp_all [eq_comm]

/-- What an invocation below the upper bound does, by the first call that goes wrong. -/
inductive PingOutcome (f : PingCalls) (out targetrank ping before : ℤ) : PingInvoked → Prop
  | outside (h : targetrank < 0) : PingOutcome f out targetrank ping before
      { ret := none, pong := before, answer := none, calls := [.peerAddr targetrank] }
  | notCreated (h : 0 ≤ targetrank) (hc : f.create ≠ 0) : PingOutcome f out targetrank ping before
      { ret := some 0, pong := before, answer := none
        calls := [.peerAddr targetrank, .create, .freeOutput] }
  | notForwarded (h : 0 ≤ targetrank) (hf : f.forward ≠ 0) :
      PingOutcome f out targetrank ping before
      { ret := some 0, pong := out, answer := none
        calls := [.peerAddr targetrank, .create, .forward, .getOutput, .freeOutput, .destroy] }
  | unanswered (h : 0 ≤ targetrank) (ha : f.getInput ≠ 0 ∨ f.respond ≠ 0) :
      PingOutcome f out targetrank ping before
      { ret := none, pong := before, answer := none
        calls := [.peerAddr targetrank, .create, .forward] }
  | answered (h : 0 ≤ targetrank) (hc : f.create = 0 ∧ f.forward = 0)
      (ha : f.getInput = 0 ∧ f.respond = 0) : PingOutcome f out targetrank ping before
      { ret := some 0, pong := if f.getOutput = 0 then ping else out, answer := some ping
        calls := [.peerAddr targetrank, .create, .forward, .getOutput, .freeOutput, .destroy] }

theorem invokePing_outcome (h : target < nranks) : PingOutcome f out target ping before
    (metasimRpcInvokePing nranks f out target ping before) := by
  have hle : ¬ target > nranks - 1 := by omega
  rw [metasimRpcInvokePing, if_neg hle]
  by_cases hneg : target < 0
  · rw [if_pos hneg]
    exact .outside hneg
  have h0 : 0 ≤ target := by omega
  rw [if_neg hneg]
  by_cases hc : f.create = 0
  · by_cases hf : f.forward = 0
    · rw [if_neg (not_not.mpr hc), if_neg (not_not.mpr hf)]
      cases ha : pingAnswer f ping with
      | none =>
        refine .unanswered h0 ?_
        by_contra hok
        obtain ⟨hi, hr⟩ := not_or.mp hok
        have := pingAnswer_eq_some.mpr ⟨not_not.mp hr, not_not.mp hi, Eq.refl ping⟩
        simp [ha] at this
      | some pong =>
        obtain ⟨hr, hi, rfl⟩ := pingAnswer_eq_some.mp ha
        exact .answered h0 ⟨hc, hf⟩ ⟨hi, hr⟩
    · rw [if_neg (not_not.mpr hc), if_pos hf]
      exact .notForwarded h0 hf
  · rw [if_pos hc]
    exact .notCreated h0 hc

/-- It never reports a failed call. -/
theorem PingOutcome.ret_eq {r : PingInvoked} (h : PingOutcome f out target ping before r) {x : ℤ}
    (hx : r.ret = some x) : x = 0 := by
  cases h <;> simp_all

theorem PingOutcome.accesses_eq {r : PingInvoked} (h : PingOutcome f out target ping before r) :
    r.accesses = [target] := by
  cases h <;> rfl

/-! ## From end to end -/

variable {self : Bool} {input : PingIn} {junk : PingJunk}

/-- The request reaches the listener. -/
def ReachesListener (self : Bool) (f : PingCalls) : Prop :=
  self = true ∧ f.clientCreate = 0 ∧ f.clientForward = 0

/-- No call fails from the client to the target and back. -/
def PingCalls.NoneFails (f : PingCalls) : Prop := f = {}

theorem invokePing_run (h : ReachesListener self f) (nranks : ℤ) (input : PingIn)
    (junk : PingJunk) :
    (metasimInvokePing self nranks f input junk).listener =
      some (metasimListenerHandlePing nranks f junk input) := by
  obtain ⟨hself, hc, hf⟩ := h
  simp [metasimInvokePing, hself, hc, hf]

theorem invokePing_not_reached (h : ¬ ReachesListener self f) (nranks : ℤ) (input : PingIn)
    (junk : PingJunk) :
    (metasimInvokePing self nranks f input junk).listener = none := by
  unfold metasimInvokePing
  split_ifs with hself hc
  · rfl
  · rfl
  · refine absurd ⟨by simpa using hself, ?_⟩ h
    exact ⟨by_contra fun h => hc (Or.inl h), by_contra fun h => hc (Or.inr h)⟩

/-- Whatever the client asks for, the target given to `metasim_rpc_invoke_ping` is below the
number of ranks: its own check never fires. -/
theorem listener_target_lt (hn : 1 ≤ nranks) (t : ℤ) :
    (if nranks ≤ t then t.tmod nranks else t) < nranks := by
  split_ifs with h
  · exact Int.tmod_lt_of_pos t (by omega)
  · omega

/-- The contract of a client's ping, over all contents of uninitialized memory. -/
structure PingContract (nranks : ℤ) (f : PingCalls) (input : PingIn) (run : PingJunk → PingRun) :
    Prop where
  in_range : ∀ junk l, (run junk).listener = some l →
    ∀ i ∈ l.invoked.accesses, 0 ≤ i ∧ i < nranks
  pong_of_answer : ∀ junk l, (run junk).listener = some l → l.invoked.answer ≠ none →
    l.invoked.accesses = [input.target % nranks] ∧ (run junk).pong = some input.ping
  error_of_failure : ¬ f.NoneFails → ∀ junk l, (run junk).listener = some l →
    l.pong = some (-1) ∧ ∃ ret ≠ 0, l.invoked.ret = some ret

theorem listener_outcome (hn : 1 ≤ nranks) (hin : f.listenerGetInput = 0) (input : PingIn)
    (junk : PingJunk) :
    PingOutcome f junk.out
      (if nranks ≤ input.target then input.target.tmod nranks else input.target) input.ping
      junk.pong (metasimListenerHandlePing nranks f junk input).invoked := by
  simpa only [metasimListenerHandlePing, if_pos hin] using
    invokePing_outcome (listener_target_lt hn input.target)

theorem listener_ret_eq (hn : 1 ≤ nranks) {x : ℤ}
    (hx : (metasimListenerHandlePing nranks f junk input).invoked.ret = some x) : x = 0 := by
  exact (invokePing_outcome (listener_target_lt hn _)).ret_eq hx

/-- A target of at least 0 is reduced into the range by the listener. -/
theorem listener_target_eq {t : ℤ} (ht : 0 ≤ t) :
    (if nranks ≤ t then t.tmod nranks else t) = t % nranks := by
  split_ifs with h
  · exact Int.tmod_eq_emod_of_nonneg ht
  · exact (Int.emod_eq_of_lt ht (by omega)).symm

theorem invokePing_fine (h0 : 0 ≤ target) (h : target < nranks) :
    metasimRpcInvokePing nranks {} out target ping before = {
      ret := some 0, pong := ping, answer := some ping
      calls := [.peerAddr target, .create, .forward, .getOutput, .freeOutput, .destroy] } := by
  have hle : ¬ target > nranks - 1 := by omega
  have hneg : ¬ target < 0 := by omega
  rw [metasimRpcInvokePing, if_neg hle, if_neg hneg]
  rfl

/-- Nothing fails: the target answers and the answer comes back unchanged. -/
theorem listener_of_noneFails (hn : 1 ≤ nranks) (ht : 0 ≤ input.target) (junk : PingJunk) :
    (metasimListenerHandlePing nranks {} junk input).invoked.accesses = [input.target % nranks] ∧
      (metasimListenerHandlePing nranks {} junk input).pong = some input.ping := by
  have h0 := Int.emod_nonneg input.target (show nranks ≠ 0 by omega)
  have hlt := Int.emod_lt_of_pos input.target (show 0 < nranks by omega)
  simp only [metasimListenerHandlePing, if_true, listener_target_eq ht, invokePing_fine h0 hlt]
  exact ⟨rfl, rfl⟩

theorem contract_of_not_reached (h : ¬ ReachesListener self f) :
    PingContract nranks f input (metasimInvokePing self nranks f input) := by
  have hnone := invokePing_not_reached h nranks input
  constructor
  · intro junk l hl
    simp [hnone] at hl
  · intro junk l hl
    simp [hnone] at hl
  · intro _ junk l hl
    simp [hnone] at hl

theorem contract_of_noneFails (hn : 1 ≤ nranks) (hreach : ReachesListener self {})
    (ht : 0 ≤ input.target) :
    PingContract nranks {} input (metasimInvokePing self nranks {} input) := by
  have hrun := invokePing_run hreach nranks input
  have hl := listener_of_noneFails hn ht
  constructor
  · intro junk l h i hi
    obtain rfl := Option.some.inj ((hrun junk).symm.trans h)
    rw [(hl junk).1, List.mem_singleton] at hi
    rw [hi]
    exact ⟨Int.emod_nonneg _ (by omega), Int.emod_lt_of_pos _ (by omega)⟩
  · intro junk l h _
    obtain rfl := Option.some.inj ((hrun junk).symm.trans h)
    refine ⟨(hl junk).1, ?_⟩
    simp [metasimInvokePing, hreach.1, (hl junk).2]
  · exact fun h => absurd rfl h

/-- The contract holds if and only if the request does not reach the listener, or the target is
not negative and no call fails: `metasim_rpc_invoke_ping` reports nothing, and neither of the
two range treatments covers the targets below 0. -/
theorem ping_contract_iff (hn : 1 ≤ nranks) (self : Bool) (f : PingCalls) (input : PingIn) :
    PingContract nranks f input (metasimInvokePing self nranks f input) ↔
      ¬ ReachesListener self f ∨ (0 ≤ input.target ∧ f.NoneFails) := by
  by_cases hreach : ReachesListener self f
  · rw [iff_false_intro (not_not.mpr hreach), false_or]
    have hrun := invokePing_run hreach nranks input
    constructor
    · intro h
      have hf : f.NoneFails := by
        by_contra hf
        obtain ⟨-, ret, hne, hret⟩ := h.error_of_failure hf ⟨⟨0, 0⟩, 0, 0, 0⟩ _ (hrun _)
        exact hne (listener_ret_eq hn hret)
      refine ⟨?_, hf⟩
      -- a negative target is passed on as it is
      by_contra hneg
      have hacc := (listener_outcome (f := f) hn (by rw [hf]) input ⟨⟨0, 0⟩, 0, 0, 0⟩).accesses_eq
      rw [if_neg (by omega)] at hacc
      have hmem : input.target ∈ [input.target] := List.mem_singleton_self _
      exact hneg (h.in_range _ _ (hrun _) input.target (hacc ▸ hmem)).1
    · rintro ⟨ht, rfl⟩
      exact contract_of_noneFails hn hreach ht
  · exact iff_of_true (contract_of_not_reached hreach) (Or.inl hreach)

theorem ping_contract_four : PingContract 4 {} ⟨9, 7⟩ (metasimInvokePing true 4 {} ⟨9, 7⟩) :=
  (ping_contract_iff (by decide) true {} ⟨9, 7⟩).mpr (Or.inr ⟨by decide, rfl⟩)

/-- A ping to rank -1 reads `peer_addrs[-1]`, and a forward that fails on the way to rank 0 makes
the listener answer with what its memory held, and no error. -/
theorem ping_contract_broken :
    ¬ PingContract 4 {} ⟨-1, 7⟩ (metasimInvokePing true 4 {} ⟨-1, 7⟩) ∧
    (∀ junk, ∃ l, (metasimInvokePing true 4 {} ⟨-1, 7⟩ junk).listener = some l ∧
      l.invoked.accesses = [-1]) ∧
    ∀ junk, ∃ l, (metasimInvokePing true 4 { forward := 1 } ⟨0, 7⟩ junk).listener = some l ∧
      l.invoked.ret = some 0 ∧ l.pong = some junk.out := by
  refine ⟨?_, fun junk => ⟨_, rfl, rfl⟩, fun junk => ⟨_, rfl, rfl, rfl⟩⟩
  intro h
  have := (h.in_range ⟨⟨0, 0⟩, 0, 0, 0⟩ _ rfl (-1) (by decide)).1
  exact absurd this (by decide)

end Metasim
