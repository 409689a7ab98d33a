import Metasim.SumRepeat
import Metasim.SumService

/-! The listeners: every request of a client has its handler, which invokes one sum after the
other on its server. A handler that waits for a sum does not keep others from running, and no call
fails. -/
namespace Metasim

open Transition Spmd Served

/-- A request for `metasim_listener_handle_sum` or `metasim_listener_handle_sumrepeat` at the
listener of `server`; `count` is `repeat`. -/
inductive ListenerIn
  | sum (server seed : ℤ)
  | sumrepeat (server seed count : ℤ)
deriving Repr, DecidableEq

/-- What it responds, without `elapsed_usec` -/
structure ListenerOut where
  ret : ℤ
  sum : ℤ
deriving Repr, DecidableEq

namespace ListenerIn

def server : ListenerIn → ℤ
  | sum server _ => server
  | sumrepeat server _ _ => server

def seed : ListenerIn → ℤ
  | sum _ seed => seed
  | sumrepeat _ seed _ => seed

/-- The invocations of the measured loop -/
def turns : ListenerIn → ℕ
  | sum _ _ => 0
  | sumrepeat _ _ count => count.toNat

/-- The response to `r` when the invocations have given `sums`: each overwrites `sum`. -/
def respond (r : ListenerIn) (sums : ℕ → Option ℤ) : ListenerOut where
  ret := 0
  sum := (List.range (r.turns + 1)).foldl (fun sum k => (sums k).getD sum) 0

theorem respond_congr {r : ListenerIn} {f g : ℕ → Option ℤ} (h : ∀ k ≤ r.turns, f k = g k) :
    r.respond f = r.respond g := by
  unfold respond
  congr 1
  refine List.foldl_ext _ _ _ fun sum k hk => ?_
  rw [h k (Nat.lt_succ_iff.mp (List.mem_range.mp hk))]

/-- The last invocation gives the sum. -/
theorem respond_eq {r : ListenerIn} {f : ℕ → Option ℤ} {x : ℤ} (h : f r.turns = some x) :
    r.respond f = ⟨0, x⟩ := by
  unfold respond
  rw [List.range_succ, List.foldl_append, List.foldl_cons, List.foldl_nil, h, Option.getD_some]

end ListenerIn

/-! ## The handlers of the source -/

section Handlers

variable {arith : ℤ → ℤ} {n rank seed count i ret : ℤ} {env : ℕ → SumEnv} {r t : SumReply}

/-- What the invocations of a handler have given, in turn. -/
def SumReply.sums (r : SumReply) (k : ℕ) : Option ℤ := r.invoked[k]?.map (·.sum)

/-- As long as no invocation fails: no code, and the sum of the last. -/
def SumReply.Fresh (r : SumReply) (k : ℕ) : Prop :=
  r.ret = 0 ∧ r.invoked.length = k + 1 ∧ r.sums k = some r.sum

theorem fresh_invoke (h : r.invoke arith n rank seed env = some (ret, t))
    (hall : ∀ v ∈ t.invoked, v.ret = 0) : ret = 0 ∧ t.ret = r.ret ∧
      t.invoked.length = r.invoked.length + 1 ∧ t.sums r.invoked.length = some t.sum := by
  obtain ⟨v, hret, hkeep, hinvoked, hcases⟩ := invoke_cases h
  have hzero : v.ret = 0 := hall v (by simp [hinvoked])
  rw [hzero] at hret
  obtain ⟨-, -, hsum⟩ := hcases.resolve_right fun hne => hne.1 hret.symm
  exact ⟨hret.symm, hkeep, by simp [hinvoked], by simp [SumReply.sums, hinvoked, hsum]⟩

/-- Induction on the turns still to come. -/
theorem fresh_repeatLoop {k : ℕ} (hok : r.Ok) (hr : r.Fresh k)
    (h : repeatLoop arith n rank seed env i count r = some t)
    (hall : ∀ v ∈ t.invoked, v.ret = 0) : t.Fresh (k + (count - i).toNat) := by
  induction hm : (count - i).toNat generalizing i k r with
  | zero =>
    rw [repeatLoop_done (by omega)] at h
    obtain rfl := Option.some.inj h
    exact hr
  | succ m ih =>
    obtain ⟨ret, r', hr', h⟩ := repeatLoop_turn (by omega) h
    have hok' := (hok.invoke hr').withRet (Int.lor r'.ret ret)
    have hkept := (repeatLoop_end hok' h).kept
    obtain ⟨h0, hret, hlen, hsum⟩ := fresh_invoke hr' fun v hv => hall v (hkept.subset hv)
    obtain ⟨hr0, hrlen, -⟩ := hr
    have hnext : SumReply.Fresh { r' with ret := Int.lor r'.ret ret } (k + 1) := by
      refine ⟨(lor_eq_zero_iff _ _).mpr ⟨hret.trans hr0, h0⟩, hlen.trans (by rw [hrlen]), ?_⟩
      rw [← hrlen]
      exact hsum
    have hend := ih hok' hnext h (by omega)
    rwa [Nat.add_right_comm] at hend

/-- The handlers of the source respond like `respond` when their invocations succeed. -/
theorem respond_sum (h : metasimListenerHandleSum arith n rank seed env = some t)
    (hall : ∀ v ∈ t.invoked, v.ret = 0) :
    (ListenerIn.sum rank seed).respond t.sums = ⟨t.ret, t.sum⟩ := by
  obtain ⟨⟨ret, r⟩, hr, ht⟩ := Option.bind_eq_some_iff.mp h
  obtain rfl := Option.some.inj ht
  rw [checkRet_invoked] at hall
  obtain ⟨rfl, -, -, hsum⟩ := fresh_invoke hr hall
  rw [checkRet_of_zero rfl]
  exact ListenerIn.respond_eq hsum

theorem respond_sumrepeat (h : metasimListenerHandleSumrepeat arith n rank seed count env = some t)
    (hall : ∀ v ∈ t.invoked, v.ret = 0) :
    (ListenerIn.sumrepeat rank seed count).respond t.sums = ⟨t.ret, t.sum⟩ := by
  obtain ⟨⟨ret, r⟩, hr, h⟩ := Option.bind_eq_some_iff.mp h
  obtain ⟨u, hu, ht⟩ := Option.bind_eq_some_iff.mp h
  obtain rfl := Option.some.inj ht
  obtain ⟨v, hret, -, hinvoked, -⟩ := invoke_cases hr
  have hok : SumReply.Ok { SumReply.checkRet { r with ret } with ret := 0 } :=
    (((ok_initial.invoke hr).withRet ret).checkRet
      fun hne => ⟨v, by simp [hinvoked], hret ▸ hne⟩).withRet 0
  have hkept := (repeatLoop_end hok hu).kept
  simp only [checkRet_invoked] at hall hkept
  obtain ⟨rfl, -, hlen, hsum⟩ := fresh_invoke hr fun v hv => hall v (hkept.subset hv)
  have hfirst : SumReply.Fresh { SumReply.checkRet { r with ret := 0 } with ret := 0 } 0 := by
    rw [checkRet_of_zero rfl]
    exact ⟨rfl, hlen, hsum⟩
  obtain ⟨hzero, -, hend⟩ := fresh_repeatLoop hok hfirst hu hall
  rw [checkRet_of_zero hzero, hzero]
  refine ListenerIn.respond_eq ?_
  rwa [Nat.zero_add, Int.sub_zero] at hend

/-- The handler of a request. -/
def ListenerIn.handler (arith : ℤ → ℤ) (n : ℤ) (env : ℕ → SumEnv) : ListenerIn → Option SumReply
  | sum server seed => metasimListenerHandleSum arith n server seed env
  | sumrepeat server seed count => metasimListenerHandleSumrepeat arith n server seed count env

theorem respond_handler {q : ListenerIn} (h : q.handler arith n env = some t)
    (hall : ∀ v ∈ t.invoked, v.ret = 0) : q.respond t.sums = ⟨t.ret, t.sum⟩ := by
  cases q with
  | sum server seed => exact respond_sum h hall
  | sumrepeat server seed count => exact respond_sumrepeat h hall

end Handlers

/-- The handlers; their calls are the invocations, numbered from 0. -/
def handlers (requests : List ListenerIn) : Program (Fin requests.length) ℕ where
  first _ := some 0
  next p k := if k < (requests.get p).turns then some (k + 1) else none
  collective _ := false
  held _ _ := false

/-- More invocations than any handler makes, to number those of all handlers. -/
def width (requests : List ListenerIn) : ℕ :=
  (Finset.univ.sup fun p : Fin requests.length => (requests.get p).turns) + 1

/-- The invocations of all handlers. -/
def invocations (requests : List ListenerIn) : List SumIn :=
  spread (width requests) fun (p : Fin requests.length) _ =>
    ⟨(requests.get p).server, (requests.get p).seed⟩

/-- The handlers over the servers, `V`. -/
def handling {σ β : Type*} (requests : List ListenerIn) (V : Service σ β ℤ) :
    Layer (Fin requests.length) ℕ σ β ℤ where
  program := handlers requests
  uses p k := some (p * width requests + k)
  service := V

/-- The response of a handler to what its invocations have given. -/
def reply (requests : List ListenerIn) (p : Fin requests.length) (sums : ℕ → Option ℤ) :
    ListenerOut :=
  (requests.get p).respond fun k => sums (p * width requests + k)

def listeners (n : ℤ) (requests : List ListenerIn) :
    Layer (Fin requests.length) ℕ SumNet SumLabel ℤ :=
  handling requests (sumService n (invocations requests))

/-- The listeners to their clients. -/
def listenerService (n : ℤ) (requests : List ListenerIn) : Service
    (State (Fin requests.length) ℕ × SumNet) (Label (Fin requests.length) ℕ SumLabel)
    ListenerOut :=
  (listeners n requests).asService (reply requests)

variable {n : ℤ} {requests : List ListenerIn} {p : Fin requests.length} {k : ℕ}
  {xs : List (Label (Fin requests.length) ℕ SumLabel)}
  {s : State (Fin requests.length) ℕ × SumNet} {i : ℕ} {o : ListenerOut}

/-! ## The invocations of a handler -/

def handlerPath (requests : List ListenerIn) (p : Fin requests.length) : List ℕ :=
  List.range ((requests.get p).turns + 1)

theorem follows_handler (p : Fin requests.length) : Follows ((handlers requests).next p)
    ((handlers requests).first p) (handlerPath requests p) := by
  have hloop : ∀ m k, k + m = (requests.get p).turns →
      Follows ((handlers requests).next p) (some k) (List.range' k (m + 1)) := by
    intro m
    induction m with
    | zero =>
      intro k hk
      exact ⟨rfl, if_neg (by omega)⟩
    | succ m ih =>
      intro k hk
      refine ⟨rfl, ?_⟩
      change Follows _ (if _ then _ else _) _
      rw [if_pos (by omega)]
      exact ih (k + 1) (by omega)
  rw [handlerPath, List.range_eq_range']
  exact hloop _ 0 (Nat.zero_add _)

theorem independent (n : ℤ) (requests : List ListenerIn) :
    (listeners n requests).Independent (handlerPath requests) where
  follows := follows_handler
  free _ _ := rfl
  nonempty p := by simp [handlerPath]
  nodup p := List.nodup_range

theorem lt_width (hk : k ∈ handlerPath requests p) : k < width requests := by
  have hle := Finset.le_sup (f := fun p : Fin requests.length => (requests.get p).turns)
    (Finset.mem_univ p)
  exact lt_of_lt_of_le (List.mem_range.mp hk) (Nat.succ_le_succ hle)

theorem invocations_get (hk : k ∈ handlerPath requests p) :
    (invocations requests)[p.val * width requests + k]? =
      some ⟨(requests.get p).server, (requests.get p).seed⟩ := spread_get p (lt_width hk)

theorem invocations_roots (hservers : ∀ r ∈ requests, 0 ≤ r.server ∧ r.server < n) :
    ∀ c ∈ invocations requests, 0 ≤ c.root ∧ c.root < n := by
  intro c hc
  obtain ⟨p, -, -, rfl⟩ := mem_spread hc
  exact hservers _ (List.get_mem _ _)

theorem uses_listener_lt (p : Fin requests.length) : ∀ k ∈ handlerPath requests p,
    ∀ i, (listeners n requests).uses p k = some i → i < (invocations requests).length := by
  intro k hk i hi
  obtain rfl := Option.some.inj hi
  rw [invocations, length_spread]
  exact index_lt p (lt_width hk)

/-- Bound on the steps of all handlers and of the servers for them. -/
def listenerSteps (n : ℤ) (requests : List ListenerIn) : ℕ :=
  ∑ p, 2 * (handlerPath requests p).length + (invocations requests).length * n.toNat * 5

theorem listenerService_reliable (hservers : ∀ r ∈ requests, 0 ≤ r.server ∧ r.server < n) :
    (listenerService n requests).Reliable requests.length (listenerSteps n requests) := by
  refine asService_reliable (independent n requests)
    (sumService_reliable (invocations_roots hservers)) (ordered_of_free fun _ _ => not_false)
    uses_listener_lt fun p f g hfg => ?_
  refine ListenerIn.respond_congr fun k hk => ?_
  exact hfg k (List.mem_range.mpr (Nat.lt_succ_of_le hk)) _ rfl

/-! ## Responses -/

/-- A response is the one of the source's handler, when its invocations all succeed with the
sums that the servers have given. -/
theorem response_of_handler {σ β : Type*} {V : Service σ β ℤ} {arith : ℤ → ℤ} {env : ℕ → SumEnv}
    {t : SumReply} {s : State (Fin requests.length) ℕ × σ}
    (ho : ((handling requests V).asService (reply requests)).answer s p.val = some o)
    (h : (requests.get p).handler arith n env = some t) (hall : ∀ v ∈ t.invoked, v.ret = 0)
    (hsums : ∀ k ≤ (requests.get p).turns,
      t.sums k = V.answer s.2 (p.val * width requests + k)) : o = ⟨t.ret, t.sum⟩ := by
  rw [answer_asService, Option.ite_none_right_eq_some] at ho
  rw [← respond_handler h hall, ListenerIn.respond_congr hsums]
  exact (Option.some.inj ho.2).symm

/-- A response has the total for the seed of its request. -/
theorem response_over {σ β : Type*} {V : Service σ β ℤ} {calls bound : ℕ}
    (hV : V.Reliable calls bound)
    (htotal : ∀ {ys v i x}, V.Run ys v → V.answer v i = some x →
      ∀ c, (invocations requests)[i]? = some c → x = wrapInt (n * (n - 1) / 2 + n * c.seed))
    {xs : List (Label (Fin requests.length) ℕ β)} {s : State (Fin requests.length) ℕ × σ}
    (hrun : (handling requests V).Run xs s)
    (ho : ((handling requests V).asService (reply requests)).answer s p.val = some o) :
    o = ⟨0, wrapInt (n * (n - 1) / 2 + n * (requests.get p).seed)⟩ ∧
      returned p (mains xs) = handlerPath requests p := by
  rw [answer_asService, Option.ite_none_right_eq_some] at ho
  obtain ⟨hdone, ho⟩ := ho
  obtain ⟨-, hret⟩ := (walks_trace follows_handler hrun.mains p).finished hdone
  refine ⟨?_, hret⟩
  rw [← Option.some.inj ho]
  refine ListenerIn.respond_eq ?_
  have hmem : (requests.get p).turns ∈ handlerPath requests p :=
    List.mem_range.mpr (Nat.lt_succ_self _)
  obtain ⟨x, hx⟩ := answer_of_returned hV hrun (hret ▸ hmem) rfl
  have heq := htotal hrun.serves hx _ (invocations_get hmem)
  rw [heq] at hx
  exact hx

theorem response_total (hservers : ∀ r ∈ requests, 0 ≤ r.server ∧ r.server < n)
    (hrun : (listeners n requests).Run xs s)
    (ho : (listenerService n requests).answer s p.val = some o) :
    o = ⟨0, wrapInt (n * (n - 1) / 2 + n * (requests.get p).seed)⟩ ∧
      returned p (mains xs) = handlerPath requests p := by
  have hroots := invocations_roots hservers
  refine response_over (sumService_reliable hroots) (fun hrun hx c hc => ?_) hrun ho
  obtain ⟨d, hd, rfl⟩ := answer_total hroots hrun hx
  obtain rfl := Option.some.inj (hd.symm.trans hc)
  rfl

/-- A sum that runs on the servers belongs to a handler that has begun and has not responded. -/
theorem handler_of_running (hservers : ∀ r ∈ requests, 0 ≤ r.server ∧ r.server < n)
    (hrun : (listeners n requests).Run xs s) (hr : s.2.rpc ⟨i, []⟩ = .running) :
    ∃ (p : Fin requests.length) (k : ℕ), i = p.val * width requests + k ∧
      s.1.current p = some k ∧ (listenerService n requests).Begun xs p.val ∧
      (listenerService n requests).answer s p.val = none := by
  have hroots := invocations_roots hservers
  obtain ⟨hbegun, hnone⟩ := open_of_running hroots hrun.serves hr
  obtain ⟨p, hin, huses⟩ := asked_of_begun (sumService_reliable hroots) hrun hbegun hnone
  obtain ⟨k, hk, huses⟩ := Option.bind_eq_some_iff.mp huses
  refine ⟨p, k, (Option.some.inj huses).symm, hk, ?_, ?_⟩
  · refine (begun_iff (independent n requests) hrun p).mpr ?_
    rw [(walks_trace follows_handler hrun.mains p).entered_eq, hin, if_pos rfl, hk]
    simp
  · rw [listenerService, answer_asService, if_neg (by simp [hk])]

/-- A handler has the answers of all invocations before it makes the next. -/
theorem answered_before (hservers : ∀ r ∈ requests, 0 ≤ r.server ∧ r.server < n)
    (hrun : (listeners n requests).Run xs s) (hk : k ∈ handlerPath requests p)
    (hinvoked : .invoke (p.val * width requests + k) ∈ serves xs) {j : ℕ} (hj : j < k) :
    ∃ x, s.2.result (p.val * width requests + j) = some x := by
  obtain ⟨q, m, hm, huses⟩ := entered_of_begun follows_handler hrun (begun_iff_mem.mpr hinvoked)
  have hw := walks_trace follows_handler hrun.mains q
  obtain ⟨rfl, rfl⟩ := index_inj (lt_width (hw.entered_initial.subset hm)) (lt_width hk)
    (Option.some.inj huses)
  obtain ⟨f, t, hf, hret⟩ := hw.reached_of_entered hm
  -- the invocations in front of this one are those with smaller numbers
  have hbefore : j ∈ f := by
    rw [range_split hf.symm]
    exact List.mem_range.mpr hj
  exact answer_of_returned (sumService_reliable (invocations_roots hservers)) hrun
    (hret.subset hbefore) rfl

/-- When every client that has asked is answered, the servers have nothing left to do. -/
theorem listeners_quiet (hservers : ∀ r ∈ requests, 0 ≤ r.server ∧ r.server < n)
    (hrun : (listeners n requests).Run xs s)
    (hall : ∀ p : Fin requests.length, (listenerService n requests).Begun xs p.val →
      (listenerService n requests).answer s p.val ≠ none) (h : Handle) :
    s.2.frame h = none ∧ (s.2.rpc h = .unused ∨ s.2.rpc h = .completed) := by
  have hroots := invocations_roots hservers
  refine quiet_of_answered hroots hrun.serves (fun i hbegun => ?_) h
  obtain ⟨p, k, hk, huses⟩ := entered_of_begun follows_handler hrun hbegun
  have hasked : (listenerService n requests).Begun xs p.val :=
    (begun_iff (independent n requests) hrun p).mpr (List.ne_nil_of_mem hk)
  obtain ⟨o, ho⟩ := Option.ne_none_iff_exists'.mp (hall p hasked)
  obtain ⟨-, hret⟩ := response_total hservers hrun ho
  have hw := walks_trace follows_handler hrun.mains p
  obtain ⟨x, hx⟩ := answer_of_returned (sumService_reliable hroots) hrun
    (hret ▸ hw.entered_initial.subset hk) huses
  exact Option.ne_none_iff_exists'.mpr ⟨x, hx⟩

/-- The listeners under requests of any number, at any servers. What is answered is the total for
the seed that was sent, after one invocation for each turn, made one by one, and it is what the
handler of the source responds when its invocations give the same. What runs on the
servers is for a client who has no answer yet. Every client gets one, after boundedly many steps,
and the servers are then quiet. -/
theorem listeners_answer (hservers : ∀ r ∈ requests, 0 ≤ r.server ∧ r.server < n)
    (hrun : (listeners n requests).Run xs s) :
    (∀ (p : Fin requests.length) o, (listenerService n requests).answer s p.val = some o →
      o = ⟨0, wrapInt (n * (n - 1) / 2 + n * (requests.get p).seed)⟩ ∧
        returned p (mains xs) = handlerPath requests p ∧
        ∀ arith env t, (requests.get p).handler arith n env = some t →
          (∀ v ∈ t.invoked, v.ret = 0) →
          (∀ k ≤ (requests.get p).turns, t.sums k = s.2.result (p.val * width requests + k)) →
          o = ⟨t.ret, t.sum⟩) ∧
    (∀ (p : Fin requests.length) k, k < (requests.get p).turns →
      .invoke (p.val * width requests + (k + 1)) ∈ serves xs →
        ∃ x, s.2.result (p.val * width requests + k) = some x) ∧
    (∀ i, s.2.rpc ⟨i, []⟩ = .running → ∃ p : Fin requests.length,
      (listenerService n requests).Begun xs p.val ∧
        (listenerService n requests).answer s p.val = none) ∧
    ((∃ p : Fin requests.length, (listenerService n requests).answer s p.val = none) →
      ∃ a u, (listeners n requests).Step s a u) ∧
    xs.length ≤ listenerSteps n requests ∧
    ((∀ p : Fin requests.length, (listenerService n requests).Begun xs p.val →
      (listenerService n requests).answer s p.val ≠ none) →
        ∀ h, s.2.frame h = none ∧ (s.2.rpc h = .unused ∨ s.2.rpc h = .completed)) := by
  have hV := listenerService_reliable hservers
  refine ⟨fun p o ho => ?_, fun p k hk hnext => ?_, fun i hi => ?_, ?_,
    hV.length_le hrun, listeners_quiet hservers hrun⟩
  · obtain ⟨htotal, hreturned⟩ := response_total hservers hrun ho
    exact ⟨htotal, hreturned, fun arith env t => response_of_handler ho⟩
  · have hmem : k + 1 ∈ handlerPath requests p := List.mem_range.mpr (Nat.succ_lt_succ hk)
    exact answered_before hservers hrun hmem hnext (Nat.lt_succ_self k)
  · obtain ⟨p, -, -, -, hbegun, hnone⟩ := handler_of_running hservers hrun hi
    exact ⟨p, hbegun, hnone⟩
  · rintro ⟨p, hp⟩
    by_cases hbegun : (listenerService n requests).Begun xs p.val
    · obtain ⟨a, u, -, hs⟩ := hV.progress hrun p.isLt hbegun hp
      exact ⟨a, u, hs⟩
    · obtain ⟨a, u, -, hs⟩ := hV.can_begin hrun p.isLt hbegun fun _ => False.elim
      exact ⟨a, u, hs⟩

/-- A repeated sum at one server while another server makes one. -/
def mixedRequests : List ListenerIn := [.sumrepeat 0 5 1, .sum 1 7]

abbrev MixedLabel : Type := Label (Fin mixedRequests.length) ℕ SumLabel

def mixedRun : List MixedLabel :=
  let repeated := (List.finRange 2).take 1
  let single := (List.finRange 2).drop 1
  single.map (.main · (.enter 0)) ++ Served.jointly repeated 0 (pairSum 0 1) ++
    Served.jointly repeated 1 (pairSum 2 0 ++ pairSum 1 1) ++ single.map (.main · (.leave 0))

/-- What the invocation of the second handler meets: server 0 answers 7. -/
def mixedEnv (_ : ℕ) : SumEnv where
  junk := ⟨0, fun _ => 0⟩
  answers := [some ⟨7, [0]⟩]

theorem listeners_answer_two : ∃ s, (listeners 2 mixedRequests).Run mixedRun s ∧
    (listenerService 2 mixedRequests).answer s 0 = some ⟨0, 11⟩ ∧
    (∃ t, metasimListenerHandleSum wrapInt 2 1 7 mixedEnv = some t ∧
      (listenerService 2 mixedRequests).answer s 1 = some ⟨t.ret, t.sum⟩) ∧
    ∀ h, s.2.frame h = none ∧ (s.2.rpc h = .unused ∨ s.2.rpc h = .completed) := by
  have hfinal : ((mixedRun.foldlM (listeners 2 mixedRequests).step
      (listeners 2 mixedRequests).start).map fun s => decide ((∀ p : Fin mixedRequests.length,
        ((listenerService 2 mixedRequests).answer s p.val).isSome) ∧
          s.2.result (1 * width mixedRequests) = some 15)) = some true := by decide
  obtain ⟨s, hs, hdone⟩ := Option.map_eq_some_iff.mp hfinal
  obtain ⟨hdone, hresult⟩ := of_decide_eq_true hdone
  have hrun : (listeners 2 mixedRequests).Run mixedRun s := of_foldlM hs
  obtain ⟨htotal, -, -, -, -, hquiet⟩ := listeners_answer (by decide) hrun
  refine ⟨s, hrun, ?_, ?_, hquiet fun p _ => Option.isSome_iff_ne_none.mp (hdone p)⟩
  · obtain ⟨o, ho⟩ := Option.isSome_iff_exists.mp (hdone (0 : Fin 2))
    rw [(htotal (0 : Fin 2) o ho).1] at ho
    exact ho
  · obtain ⟨o, ho⟩ := Option.isSome_iff_exists.mp (hdone (1 : Fin 2))
    have hhandler : (ListenerIn.sum 1 7).handler wrapInt 2 mixedEnv = some _ := rfl
    refine ⟨_, hhandler, ho.trans (congrArg some ?_)⟩
    refine (htotal (1 : Fin 2) o ho).2.2 _ _ _ hhandler ?_ ?_
    · decide
    · intro k hk
      obtain rfl : k = 0 := Nat.le_zero.mp hk
      exact hresult.symm

end Metasim
