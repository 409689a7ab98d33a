import Metasim.Lib.Shared
import Metasim.Listener
import Metasim.SelfTest

/-! The servers from their start on: `main` on every rank with the self test, and once a rank
listens, the handlers of the requests that clients make at it. Their sums meet on the same servers.
-/
namespace Metasim

open Transition Spmd Served

/-- The requests that clients make in the time of the servers. -/
structure DeployArgs extends ServerArgs where
  requests : List ListenerIn
  hosted : ∀ r ∈ requests, 0 ≤ r.server ∧ r.server < nranks
  nranks_pos : 1 ≤ nranks

namespace DeployArgs

variable (A : DeployArgs)

/-- The sums of the clients, behind them those of the self test. -/
def calls : List SumIn := invocations A.requests ++ testCalls A.nranks

/-- The first of the self test -/
def tests : ℕ := (invocations A.requests).length

/-- The handlers of all requests over the servers. -/
def handlers : Layer (Fin A.requests.length) ℕ SumNet SumLabel ℤ :=
  handling A.requests (sumService A.nranks A.calls)

/-- A handler runs on the server of its request. -/
def gate (p : Fin A.requests.length) : ℕ := (A.requests.get p).server.toNat

abbrev HandlerLabel : Type := Label (Fin A.requests.length) ℕ SumLabel

abbrev HandlerState : Type := (State (Fin A.requests.length) ℕ × SumNet) × (ℕ → Bool)

/-- `main` on all ranks. `metasim_listener_init` lets the handlers of its rank run. -/
def metasimd : Layer (Fin A.nranks) ServerCall A.HandlerState (GateLabel A.HandlerLabel)
    (Option ℤ) where
  program := A.serverMain
  uses rank
    | .sum .first => some 0
    | .sum .all => some (rank + 1)
    | .listenerInit => some (A.nranks + 1 + rank)
    | _ => none
  service := A.handlers.shared A.tests (A.nranks + 1) A.nranks A.gate

/-- What a client gets. -/
def response (s : State (Fin A.nranks) ServerCall × A.HandlerState)
    (p : Fin A.requests.length) : Option ListenerOut :=
  (A.handlers.asService (reply A.requests)).answer s.2.1 p.val

variable {A} {xs : List (Label (Fin A.nranks) ServerCall (GateLabel A.HandlerLabel))}
  {s : State (Fin A.nranks) ServerCall × A.HandlerState} {i j k : ℕ} {x : ℤ}
  {rank : Fin A.nranks} {p : Fin A.requests.length} {o : ListenerOut}

/-- The steps of the handlers and, below them, of the sums. -/
def handlerSteps (xs : List (Label (Fin A.nranks) ServerCall (GateLabel A.HandlerLabel))) :
    List A.HandlerLabel := insides (serves xs)

def sumSteps (xs : List (Label (Fin A.nranks) ServerCall (GateLabel A.HandlerLabel))) :
    List SumLabel := serves (handlerSteps xs)

/-- The clients that have asked and have no response yet. -/
def waiting (xs : List (Label (Fin A.nranks) ServerCall (GateLabel A.HandlerLabel)))
    (s : State (Fin A.nranks) ServerCall × A.HandlerState) : Finset (Fin A.requests.length) :=
  {p | entered p (mains (handlerSteps xs)) ≠ [] ∧ A.response s p = none}

/-! ## The sums -/

theorem calls_roots (A : DeployArgs) : ∀ c ∈ A.calls, 0 ≤ c.root ∧ c.root < (A.nranks : ℤ) := by
  intro c hc
  rcases List.mem_append.mp hc with hc | hc
  · exact invocations_roots A.hosted c hc
  · exact ServerArgs.testCalls_roots A.nranks_pos c hc

/-- Bound on the steps of all sums. -/
def sumsBound (A : DeployArgs) : ℕ := (A.tests + (A.nranks + 1)) * A.nranks * 5

theorem sums_reliable (A : DeployArgs) :
    A.handlers.service.Reliable (A.tests + (A.nranks + 1)) A.sumsBound := by
  have hlen : A.calls.length = A.tests + (A.nranks + 1) := by
    rw [calls, List.length_append, ServerArgs.length_testCalls, tests]
  have hV := sumService_reliable A.calls_roots
  rw [hlen, Int.toNat_natCast] at hV
  exact hV

theorem metasimd_reliable (A : DeployArgs) :
    A.metasimd.service.Reliable (A.nranks + 1 + A.nranks)
      (∑ p, 2 * (handlerPath A.requests p).length + A.sumsBound + A.nranks) :=
  shared_reliable A.sums_reliable (fun _ _ => not_false) follows_handler

theorem run_handlers (hrun : A.metasimd.Run xs s) :
    (A.handlers.below A.tests).Run (handlerSteps xs) s.2.1 := shared_inside hrun.serves

theorem run_sums (hrun : A.metasimd.Run xs s) :
    (sumService A.nranks A.calls).Run (sumSteps xs) s.2.1.2 := (run_handlers hrun).serves

theorem calls_test (A : DeployArgs) (j : ℕ) :
    A.calls[A.tests + j]? = (testCalls A.nranks)[j]? := by
  rw [calls, tests, List.getElem?_append_right (Nat.le_add_right _ _), Nat.add_sub_cancel_left]

theorem calls_invocation (hi : i < A.tests) : A.calls[i]? = (invocations A.requests)[i]? :=
  List.getElem?_append_left hi

/-! ## Who invokes a sum -/

/-- A sum that is invoked is one of the calls. -/
theorem lt_of_invoked (hrun : A.metasimd.Run xs s) (hinvoked : .invoke i ∈ sumSteps xs) :
    i < A.tests + (A.nranks + 1) := by
  have hI := historyInv_trace (sound_of_roots A.calls_roots) (run_sums hrun)
  by_contra hle
  have hnone : A.calls[i]? = none := by
    refine List.getElem?_eq_none ?_
    rw [calls, List.length_append, ServerArgs.length_testCalls]
    exact Nat.not_lt.mp hle
  have hunused := (hI.net.elsewhere ⟨i, []⟩ fun c v hat => by simp [hat.1] at hnone).1
  have hlevel := hI.invoked_iff.mp hinvoked
  simp [hunused, SumRpc.level] at hlevel

/-- A handler that runs is on a server that listens. -/
theorem listening_of_entered (hrun : A.metasimd.Run xs s)
    (hk : k ∈ entered p (mains (handlerSteps xs))) :
    ∃ rank : Fin A.nranks, rank.val = A.gate p ∧ .listenerInit ∈ entered rank (mains xs) := by
  have hopen := (gate_open hrun.serves).mpr (open_of_entered hrun.serves hk)
  obtain ⟨rank, c, hc, huses⟩ := entered_of_begun ServerArgs.follows_path hrun
    (begun_gate.mpr hopen)
  cases c with
  | sum t =>
    cases t with
    | first =>
      have : 0 = A.nranks + 1 + A.gate p := Option.some.inj huses
      omega
    | all =>
      have : rank.val + 1 = A.nranks + 1 + A.gate p := Option.some.inj huses
      omega
  | listenerInit =>
    refine ⟨rank, ?_, hc⟩
    have : A.nranks + 1 + rank.val = A.nranks + 1 + A.gate p := Option.some.inj huses
    omega
  | _ => cases huses

/-- A sum of the self test is invoked by a rank in its test. -/
theorem tester_of_invoked (hrun : A.metasimd.Run xs s) (hj : j < A.nranks + 1)
    (hinvoked : .invoke (A.tests + j) ∈ sumSteps xs) :
    ∃ (rank : Fin A.nranks) (t : Test), .sum t ∈ entered rank (mains xs) ∧
      A.metasimd.uses rank (.sum t) = some j := by
  obtain ⟨rank, c, hc, huses⟩ := entered_of_begun (i := j) ServerArgs.follows_path hrun
    ((begun_call hj).mpr (begun_iff_mem.mpr hinvoked))
  cases c with
  | sum t => exact ⟨rank, t, hc, huses⟩
  | listenerInit =>
    have : A.nranks + 1 + rank.val = j := Option.some.inj huses
    omega
  | _ => cases huses

/-- A sum of a client is invoked by a handler on a server that listens. -/
theorem listening_of_invoked (hrun : A.metasimd.Run xs s) (hi : i < A.tests)
    (hinvoked : .invoke i ∈ sumSteps xs) :
    ∃ rank : Fin A.nranks, .listenerInit ∈ entered rank (mains xs) := by
  have hbegun := (begun_below (V := A.handlers.service) hi).mpr (begun_iff_mem.mpr hinvoked)
  obtain ⟨p, k, hk, -⟩ := entered_of_begun follows_handler (run_handlers hrun) hbegun
  obtain ⟨rank, -, hlisten⟩ := listening_of_entered hrun hk
  exact ⟨rank, hlisten⟩

/-- Whoever invokes it, all servers have the addresses and the handlers of the sums. -/
theorem linked_of_invoked (hrun : A.metasimd.Run xs s) (hinvoked : .invoke i ∈ sumSteps xs)
    (q : Fin A.nranks) :
    .readAddrFile ∈ returned q (mains xs) ∧ .rpcRegister ∈ returned q (mains xs) := by
  have hI := ServerArgs.fencedInv hrun.mains
  rcases Nat.lt_or_ge i A.tests with hi | hi
  · obtain ⟨rank, hlisten⟩ := listening_of_invoked hrun hi hinvoked
    exact ServerArgs.linked_of_entered hI hlisten (Or.inr rfl) q
  · obtain ⟨j, rfl⟩ := Nat.exists_eq_add_of_le hi
    have hj : j < A.nranks + 1 := by
      have := lt_of_invoked hrun hinvoked
      omega
    obtain ⟨rank, t, hc, -⟩ := tester_of_invoked hrun hj hinvoked
    exact ServerArgs.linked_of_entered hI hc (Or.inl (by simp [ServerCall.test])) q

/-! ## The self test and the clients -/

theorem answer_of_tested (hrun : A.metasimd.Run xs s) (hj : j < A.nranks + 1) {t : Test}
    (hret : .sum t ∈ returned rank (mains xs)) (huses : A.metasimd.uses rank (.sum t) = some j) :
    ∃ x, s.2.1.2.result (A.tests + j) = some x := by
  obtain ⟨y, hy⟩ := answer_of_returned A.metasimd_reliable hrun hret huses
  have hanswer : (s.2.1.2.result (A.tests + j)).map some = some y := (answer_call hj).symm.trans hy
  obtain ⟨x, hx, -⟩ := Option.map_eq_some_iff.mp hanswer
  exact ⟨x, hx⟩

/-- No sum of the self test is left when a rank listens. -/
theorem answered_of_listening (hrun : A.metasimd.Run xs s)
    (hlisten : .listenerInit ∈ entered rank (mains xs)) (hi : A.tests ≤ i)
    (hinvoked : .invoke i ∈ sumSteps xs) : ∃ x, s.2.1.2.result i = some x := by
  obtain ⟨j, rfl⟩ := Nat.exists_eq_add_of_le hi
  have hI := ServerArgs.fencedInv hrun.mains
  have hj : j < A.nranks + 1 := by
    have := lt_of_invoked hrun hinvoked
    omega
  obtain ⟨q, t, hc, huses⟩ := tester_of_invoked hrun hj hinvoked
  have hmem := (hI.walks q).entered_initial.subset hc
  have hret := ServerArgs.tested_of_listening hI hlisten hmem (by simp [ServerCall.test])
  exact answer_of_tested hrun hj hret huses

/-- With the self test all its sums have been made then. -/
theorem tests_of_listening (hrun : A.metasimd.Run xs s)
    (hlisten : .listenerInit ∈ entered rank (mains xs)) (htest : A.selftest = true)
    (hj : j < A.nranks + 1) : ∃ x, s.2.1.2.result (A.tests + j) = some x := by
  have hI := ServerArgs.fencedInv hrun.mains
  have hpos : 0 < A.phase .listenerInit := by
    have := ServerArgs.phase_listenerInit (A := A.toServerArgs)
    omega
  have hreached := (hI.walks rank).reached_of_entered hlisten
  have hret : ∀ (q : Fin A.nranks) t, t.takesPart q = true → .sum t ∈ returned q (mains xs) := by
    intro q t ht
    have hmem : .sum t ∈ A.path q := by
      have hinit := ServerArgs.margoInit_of_reached hI hreached hpos q
      refine List.count_pos_iff.mp ?_
      rw [ServerArgs.count_sum hinit htest, if_pos ht]
      exact Nat.one_pos
    exact ServerArgs.tested_of_listening hI hlisten hmem (by simp [ServerCall.test])
  cases j with
  | zero => exact answer_of_tested hrun hj (hret ⟨0, A.nranks_pos⟩ .first rfl) rfl
  | succ j => exact answer_of_tested hrun hj (hret ⟨j, by omega⟩ .all rfl) rfl

theorem test_total (hrun : A.metasimd.Run xs s)
    (hx : s.2.1.2.result (A.tests + j) = some x) :
    x = wrapInt ((A.nranks : ℤ) * (A.nranks - 1) / 2) ∧
      (A.nranks ≤ 46341 → x = testSumExpected A.nranks) := by
  obtain ⟨c, hc, rfl⟩ := answer_total A.calls_roots (run_sums hrun) hx
  rw [calls_test] at hc
  have hpos := A.nranks_pos
  rw [ServerArgs.seed_testCalls hc]
  refine ⟨by rw [mul_zero, add_zero], fun hle => ServerArgs.test_sum_total ?_ ?_⟩
  · exact_mod_cast hpos
  · exact_mod_cast hle

theorem response_metasimd (hrun : A.metasimd.Run xs s) (ho : A.response s p = some o) :
    o = ⟨0, wrapInt ((A.nranks : ℤ) * (A.nranks - 1) / 2 +
        A.nranks * (A.requests.get p).seed)⟩ ∧
      returned p (mains (handlerSteps xs)) = handlerPath A.requests p := by
  refine response_over (A.sums_reliable.below (Nat.le_add_right _ _)) (fun hrun hx c hc => ?_)
    (run_handlers hrun) ho
  obtain ⟨d, hd, rfl⟩ := answer_total A.calls_roots hrun hx
  rw [calls_invocation (List.getElem?_eq_some_iff.mp hc).1, hc] at hd
  obtain rfl := Option.some.inj hd
  rfl

/-- The threads of a rank that wait for children are of different sums. -/
theorem card_blocked_calls (hrun : A.metasimd.Run xs s) {r : ℤ} (H : Finset Handle)
    (hH : ∀ h ∈ H, Blocked s.2.1.2 r h) : (H.image Handle.call).card = H.card := by
  have S := sound_of_roots A.calls_roots
  have hI := (historyInv_trace S (run_sums hrun)).net
  refine Finset.card_image_of_injOn fun h hh g hg heq => ?_
  obtain ⟨c, hat, -⟩ := hI.blocked S (hH h hh)
  obtain ⟨d, hatg, -⟩ := hI.blocked S (hH g hg)
  have heq : h.call = g.call := heq
  obtain rfl := Option.some.inj (hat.1.symm.trans (heq ▸ hatg.1))
  exact at_injective (S c (List.mem_of_getElem? hat.1)) hat hatg heq

/-- When the ranks listen a thread that waits is for a client that waits. -/
theorem blocked_le_waiting (hrun : A.metasimd.Run xs s)
    (hlisten : .listenerInit ∈ entered rank (mains xs)) {r : ℤ} (H : Finset Handle)
    (hH : ∀ h ∈ H, Blocked s.2.1.2 r h) : H.card ≤ (waiting xs s).card := by
  have S := sound_of_roots A.calls_roots
  have hI := (historyInv_trace S (run_sums hrun)).net
  rw [← card_blocked_calls hrun H hH]
  refine card_open_le (A.sums_reliable.below (Nat.le_add_right _ _)) (run_handlers hrun)
    (fun i hi => ?_) fun p k hin hk _ => ?_
  · obtain ⟨h, hh, rfl⟩ := Finset.mem_image.mp hi
    obtain ⟨c, -, -, hr, -⟩ := hI.blocked S (hH h hh)
    obtain ⟨hbegun, hnone⟩ := open_of_running A.calls_roots (run_sums hrun) hr
    have hlt : h.call < A.tests := by
      by_contra hle
      obtain ⟨x, hx⟩ := answered_of_listening hrun hlisten (Nat.not_lt.mp hle)
        (begun_iff_mem.mp hbegun)
      simp [hx] at hnone
    exact ⟨(begun_below (V := A.handlers.service) hlt).mpr hbegun, hnone⟩
  · refine Finset.mem_filter.mpr ⟨Finset.mem_univ p, ?_, ?_⟩
    · rw [(walks_trace follows_handler (run_handlers hrun).mains p).entered_eq, hin, if_pos rfl, hk]
      simp
    · rw [response, answer_asService, if_neg (by simp [hk])]

/-! ## Progress -/

theorem uses_handler_lt (p : Fin A.requests.length) (hk : k ∈ handlerPath A.requests p) :
    ∀ i, A.handlers.uses p k = some i → i < A.tests :=
  uses_listener_lt (n := A.nranks) p k hk

theorem uses_metasimd_lt (rank : Fin A.nranks) (c : ServerCall) :
    ∀ i, A.metasimd.uses rank c = some i → i < A.nranks + 1 + A.nranks := by
  intro i hi
  have := rank.isLt
  cases c with
  | sum t =>
    cases t with
    | first =>
      obtain rfl : 0 = i := Option.some.inj hi
      omega
    | all =>
      obtain rfl : rank.val + 1 = i := Option.some.inj hi
      omega
  | listenerInit =>
    obtain rfl : A.nranks + 1 + rank.val = i := Option.some.inj hi
    omega
  | _ => cases hi

/-- A request at a rank that listens is worked on whatever the ranks do. -/
theorem handler_goes_on (hrun : A.metasimd.Run xs s) (hopen : s.2.2 (A.gate p) = true)
    (hnone : A.response s p = none) : ∃ b u, A.metasimd.Step s (.serve b) u := by
  have hcur : s.2.1.1.current p ≠ none := fun hcur => by
    simp [response, answer_asService, hcur] at hnone
  obtain ⟨k, hk⟩ := Option.ne_none_iff_exists'.mp hcur
  have hmem := (walks_trace follows_handler (run_handlers hrun).mains p).current_mem hk
  obtain ⟨a, u, hbegins, hu⟩ := inside_goes_on A.sums_reliable (fun _ _ => not_false) rfl
    (uses_handler_lt p hmem) hrun.serves hopen hk
  exact ⟨a, (s.1, u), step_serve.mpr ⟨hu, rfl, fun i hi => absurd (hbegins.symm.trans hi)
    (Option.some_ne_none i).symm⟩⟩

/-- A rank at its end listens, if it has margo. -/
theorem open_of_finished (hrun : A.metasimd.Run xs s) (hinit : A.margoInit rank = true)
    (hdone : s.1.current rank = none) : s.2.2 rank = true := by
  have hw := walks_trace ServerArgs.follows_path hrun.mains rank
  have hmem : .listenerInit ∈ returned rank (mains xs) := by
    rw [(hw.finished hdone).2]
    exact ServerArgs.mem_path_of_margoInit hinit (by simp [ServerArgs.afterInit])
  obtain ⟨y, hy⟩ := answer_of_returned A.metasimd_reliable hrun hmem rfl
  have hanswer : (if s.2.2 rank then some none else none) = some y := answer_gate.symm.trans hy
  exact (Option.ite_none_right_eq_some.mp hanswer).1

theorem metasimd_goes_on (hrun : A.metasimd.Run xs s)
    (hinit : ∀ rank < A.nranks, A.margoInit rank = true)
    (h : (∃ rank, s.1.current rank ≠ none) ∨ ∃ p, A.response s p = none) :
    ∃ a u, A.metasimd.Step s a u := by
  by_cases hdone : ∃ rank, s.1.current rank ≠ none
  · obtain ⟨rank, hrank⟩ := hdone
    exact hrun.progress (ServerArgs.aligned hinit) A.metasimd_reliable
      (ordered_of_free fun _ _ => not_false) (fun p c _ => uses_metasimd_lt p c) hrank
  · obtain ⟨p, hp⟩ := h.resolve_left hdone
    simp only [not_exists, not_not] at hdone
    have hserver := A.hosted _ (List.get_mem A.requests p)
    have hlt : A.gate p < A.nranks := by
      have hnat : ((A.gate p : ℕ) : ℤ) = (A.requests.get p).server := Int.toNat_of_nonneg hserver.1
      omega
    have hopen : s.2.2 (⟨A.gate p, hlt⟩ : Fin A.nranks) = true :=
      open_of_finished hrun (hinit _ hlt) (hdone _)
    obtain ⟨b, u, hs⟩ := handler_goes_on hrun hopen hp
    exact ⟨_, u, hs⟩

/-- When all ranks are at their ends and every client that has asked is answered, the servers have
nothing left to do. -/
theorem metasimd_quiet (hrun : A.metasimd.Run xs s) (hdone : ∀ rank, s.1.current rank = none)
    (hall : ∀ p, entered p (mains (handlerSteps xs)) ≠ [] → A.response s p ≠ none) (h : Handle) :
    s.2.1.2.frame h = none ∧
      (s.2.1.2.rpc h = .unused ∨ s.2.1.2.rpc h = .completed) := by
  refine quiet_of_answered A.calls_roots (run_sums hrun) (fun i hbegun => ?_) h
  refine Option.ne_none_iff_exists'.mpr ?_
  rcases Nat.lt_or_ge i A.tests with hi | hi
  · obtain ⟨p, k, hk, huses⟩ := entered_of_begun follows_handler (run_handlers hrun)
      ((begun_below (V := A.handlers.service) hi).mpr hbegun)
    obtain ⟨o, ho⟩ := Option.ne_none_iff_exists'.mp (hall p (List.ne_nil_of_mem hk))
    have hret := (response_metasimd hrun ho).2
    have hw := walks_trace follows_handler (run_handlers hrun).mains p
    exact answer_of_returned (A.sums_reliable.below (Nat.le_add_right _ _)) (run_handlers hrun)
      (hret ▸ hw.entered_initial.subset hk) huses
  · obtain ⟨j, rfl⟩ := Nat.exists_eq_add_of_le hi
    have hinvoked := begun_iff_mem.mp hbegun
    have hj : j < A.nranks + 1 := by
      have := lt_of_invoked hrun hinvoked
      omega
    obtain ⟨rank, t, hc, huses⟩ := tester_of_invoked hrun hj hinvoked
    have hw := walks_trace ServerArgs.follows_path hrun.mains rank
    have hret := (hw.finished (hdone rank)).2 ▸ hw.entered_initial.subset hc
    exact answer_of_tested hrun hj hret huses

end DeployArgs

open DeployArgs

/-- What clients can rely on, from the start of the servers on. A sum is invoked, for a client or by
the self test, when all servers can serve it. Clients are served when their server listens, and
then the self test is over: no sum of it is left, and all were made if it was asked for. What is
computed is the total for the seed that was sent, beside the sums of all others; a server has no
more threads that wait for children than there are clients that wait for a response. -/
theorem metasimd_serves {A : DeployArgs}
    {xs : List (Label (Fin A.nranks) ServerCall (GateLabel A.HandlerLabel))}
    {s : State (Fin A.nranks) ServerCall × A.HandlerState} (hrun : A.metasimd.Run xs s) :
    (∀ i, .invoke i ∈ sumSteps xs → ∀ q : Fin A.nranks,
      .readAddrFile ∈ returned q (mains xs) ∧ .rpcRegister ∈ returned q (mains xs)) ∧
    (∀ p, entered p (mains (handlerSteps xs)) ≠ [] →
      (∃ rank : Fin A.nranks, rank.val = A.gate p ∧ .listenerInit ∈ entered rank (mains xs)) ∧
      (∀ i, A.tests ≤ i → .invoke i ∈ sumSteps xs → ∃ x, s.2.1.2.result i = some x) ∧
      (A.selftest = true → ∀ j < A.nranks + 1, ∃ x, s.2.1.2.result (A.tests + j) = some x) ∧
      ∀ (r : ℤ) (H : Finset Handle), (∀ h ∈ H, Blocked s.2.1.2 r h) → 
        H.card ≤ (waiting xs s).card) ∧
    (∀ j x, s.2.1.2.result (A.tests + j) = some x →
      x = wrapInt ((A.nranks : ℤ) * (A.nranks - 1) / 2) ∧
      (A.nranks ≤ 46341 → x = testSumExpected A.nranks)) ∧
    ∀ p o, A.response s p = some o →
      o = ⟨0, wrapInt ((A.nranks : ℤ) * (A.nranks - 1) / 2 +
          A.nranks * (A.requests.get p).seed)⟩ ∧
        returned p (mains (handlerSteps xs)) = handlerPath A.requests p := by
  refine ⟨fun i hi q => linked_of_invoked hrun hi q, fun p hp => ?_,
    fun j x hx => test_total hrun hx, fun p o ho => response_metasimd hrun ho⟩
  obtain ⟨k, hk⟩ := List.exists_mem_of_ne_nil _ hp
  obtain ⟨rank, hrank, hlisten⟩ := listening_of_entered hrun hk
  exact ⟨⟨rank, hrank, hlisten⟩, fun i => answered_of_listening hrun hlisten,
    fun htest j => tests_of_listening hrun hlisten htest,
    fun r H hH => blocked_le_waiting hrun hlisten H hH⟩

/-- The servers never keep a client waiting for good: a request at a server that listens can go on
whatever the servers do besides, with margo on all of them every client gets its response after
boundedly many steps, and when all that have asked are answered nothing is left on the servers. -/
theorem metasimd_completes {A : DeployArgs}
    {xs : List (Label (Fin A.nranks) ServerCall (GateLabel A.HandlerLabel))}
    {s : State (Fin A.nranks) ServerCall × A.HandlerState} (hrun : A.metasimd.Run xs s) :
    (∀ p, s.2.2 (A.gate p) = true → A.response s p = none →
      ∃ b u, A.metasimd.Step s (.serve b) u) ∧
    ((∀ rank < A.nranks, A.margoInit rank = true) →
      (∃ rank, s.1.current rank ≠ none) ∨ (∃ p, A.response s p = none) →
        ∃ a u, A.metasimd.Step s a u) ∧
    xs.length ≤ ∑ rank, 2 * (A.path rank).length +
      (∑ p, 2 * (handlerPath A.requests p).length + A.sumsBound + A.nranks) ∧
    ((∀ rank, s.1.current rank = none) →
      (∀ p, entered p (mains (handlerSteps xs)) ≠ [] → A.response s p ≠ none) →
        ∀ h, s.2.1.2.frame h = none ∧
          (s.2.1.2.rpc h = .unused ∨ s.2.1.2.rpc h = .completed)) :=
  ⟨fun _ => handler_goes_on hrun, metasimd_goes_on hrun,
    Layer.Run.length_le A.metasimd_reliable ServerArgs.follows_path hrun, metasimd_quiet hrun⟩

/-- Two servers that test themselves, with a client at each. -/
def twoClients : DeployArgs where
  toServerArgs := twoServers
  requests := mixedRequests
  hosted := by decide
  nranks_pos := by decide

theorem twoClients_run : ∃ xs s, twoClients.metasimd.Run xs s ∧
    (∀ rank, s.1.current rank = none) ∧ ∀ p, twoClients.response s p ≠ none := by
  obtain ⟨xs, s, hrun, hT⟩ := exists_terminal (fun xs s hrun =>
    Layer.Run.length_le twoClients.metasimd_reliable ServerArgs.follows_path hrun) .refl
  have hrun : twoClients.metasimd.Run xs s := hrun
  have hend : ¬ ((∃ rank, s.1.current rank ≠ none) ∨ ∃ p, twoClients.response s p = none) := by
    intro h
    obtain ⟨a, u, hs⟩ := metasimd_goes_on hrun (fun _ _ => rfl) h
    exact hT a u hs
  simp only [not_or, not_exists, not_not] at hend
  exact ⟨xs, s, hrun, hend⟩

theorem metasimd_serves_two : ∃ xs s, twoClients.metasimd.Run xs s ∧
    twoClients.response s (0 : Fin 2) = some ⟨0, 11⟩ ∧
    twoClients.response s (1 : Fin 2) = some ⟨0, 15⟩ := by
  obtain ⟨xs, s, hrun, -, hanswered⟩ := twoClients_run
  obtain ⟨-, -, -, htotal⟩ := metasimd_serves hrun
  obtain ⟨o, ho⟩ := Option.ne_none_iff_exists'.mp (hanswered (0 : Fin 2))
  obtain ⟨o', ho'⟩ := Option.ne_none_iff_exists'.mp (hanswered (1 : Fin 2))
  refine ⟨xs, s, hrun, ?_, ?_⟩
  · rw [(htotal _ o ho).1] at ho
    exact ho
  · rw [(htotal _ o' ho').1] at ho'
    exact ho'

theorem metasimd_completes_two : ∃ xs s, twoClients.metasimd.Run xs s ∧
    ∀ h, s.2.1.2.frame h = none := by
  obtain ⟨xs, s, hrun, hdone, hanswered⟩ := twoClients_run
  obtain ⟨-, -, -, hquiet⟩ := metasimd_completes hrun
  exact ⟨xs, s, hrun, fun h => (hquiet hdone (fun p _ => hanswered p) h).1⟩

end Metasim
