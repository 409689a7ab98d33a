import Metasim.SumFaults
import Metasim.Ping

/-! Whether every request is answered: the exits of the two handlers, and the servers that wait
for each other along the tree. -/
namespace Metasim

/-- A handler answers its request, whatever the memory `m` that it has not written holds: it
returns, its one response has always the same content, and its handle is destroyed once. -/
def Answers {M : Type} (run : M → Option (List MargoCall)) : Prop :=
  ∃ x, ∀ m, ∃ calls, run m = some calls ∧ responses calls = [x] ∧ calls.count .destroyOwn = 1

/-- The children to which a request is out when `sum_forward` leaves its first loop. -/
def sent (f : SumCalls) (cs : List ℤ) : List ℤ :=
  if f.calloc then cs.takeWhile fun c => f.create c = 0 ∧ f.iforward c = 0 else []

/-- The children whose answer is read by the second loop. -/
def collected (f : SumCalls) (cs : List ℤ) : List ℤ :=
  if ∀ c ∈ cs, f.create c = 0 ∧ f.iforward c = 0 then cs.takeWhile fun c => f.wait c = 0 else []

/-- The failures of one server that leave its request with an answer. -/
structure AnswersFine (f : SumCalls) (cs : List ℤ) : Prop where
  getInput : f.getInput = 0
  calloc : cs ≠ [] → f.calloc = true
  getOutput : ∀ c ∈ collected f cs, f.getOutput c = 0

/-! ## What a handler calls for its own request -/

variable {f : SumCalls} {j : Junk} {b : SumOut} {x : SumIn} {t : RpcTree} {r : ℤ} {cs : List ℤ}

/-- A call that concerns a child, or the array of requests. -/
def MargoCall.ForChildren (call : MargoCall) : Prop :=
  call ≠ .destroyOwn ∧ ∀ sum, call ≠ .respond sum

theorem sumForward_forChildren {answers : List (Option SumOut)} {s : Forwarded}
    (hs : sumForward r f j t x answers = some s) : ∀ call ∈ s.calls, call.ForChildren := by
  have hissue : ∀ call ∈ (issueRequests f t.children).2, call.ForChildren := by
    intro call h
    obtain ⟨c, rfl | rfl⟩ := mem_issueRequests h <;> simp [MargoCall.ForChildren]
  rcases sumForward_cases hs with
    ⟨_, rfl⟩ | ⟨_, _, rfl⟩ | ⟨_, _, _, rfl⟩ | ⟨_, _, _, s', hs', rfl⟩
  · simp
  · simp [MargoCall.ForChildren]
  · simpa [MargoCall.ForChildren, or_imp, forall_and] using hissue
  · have hcollect : ∀ call ∈ s'.calls, call.ForChildren := by
      intro call h
      obtain ⟨c, rfl | rfl | rfl | rfl⟩ := mem_collectReplies hs' h <;>
        simp [MargoCall.ForChildren]
    simp only [List.cons_append, List.mem_cons, List.mem_append, List.not_mem_nil, or_false]
    rintro call (rfl | (h | h) | rfl)
    · simp [MargoCall.ForChildren]
    · exact hissue call h
    · exact hcollect call h
    · simp [MargoCall.ForChildren]

theorem responses_forChildren {calls : List MargoCall} (h : ∀ call ∈ calls, call.ForChildren) :
    responses calls = [] ∧ calls.count .destroyOwn = 0 := by
  constructor
  · refine List.filterMap_eq_nil_iff.mpr fun call hc => ?_
    cases call with
    | respond sum => exact absurd rfl ((h _ hc).2 sum)
    | _ => rfl
  · exact List.count_eq_zero.mpr fun hc => (h _ hc).1 rfl

theorem responses_append (l m : List MargoCall) :
    responses (l ++ m) = responses l ++ responses m := List.filterMap_append

variable {arith : ℤ → ℤ} {n rank : ℤ} {answers : List (Option SumOut)} {s : Forwarded}

/-- With its input the handler responds what `sum_forward` put into `out`. -/
theorem handleSum_of_forwarded (hin : f.getInput = 0) (hht : handlerTree arith n rank f x = t)
    (hs : sumForward rank f j t x answers = some s) :
    ∃ calls, metasimRpcHandleSum arith n rank f j x answers = some ⟨some s.out, calls⟩ ∧
      responses calls = [s.out.sum] ∧ calls.count .destroyOwn = 1 := by
  obtain ⟨hnil, hzero⟩ := responses_forChildren (sumForward_forChildren hs)
  refine ⟨[.getInput] ++ s.calls ++ [.freeInput, .respond s.out.sum, .destroyOwn], ?_, ?_, ?_⟩
  · simp [metasimRpcHandleSum, hin, hht, hs]
  · rw [responses_append, responses_append, hnil]
    rfl
  · simp [List.count_append, hzero]

theorem handleSum_no_input (hin : f.getInput ≠ 0) :
    metasimRpcHandleSum arith n rank f j x answers =
      some { response := none, calls := [.getInput] } := if_pos hin

/-! ## The content of the response -/

variable {g : ℤ → Option SumOut} {v : ℤ → ℤ}

/-- What the second loop adds up, when child `c` answers `v c`. -/
def collectedSum (f : SumCalls) (j : Junk) (v : ℤ → ℤ) (cs : List ℤ) : ℤ :=
  ((collected f cs).map fun c => if f.getOutput c = 0 then v c else j.reply c).sum

/-- Where a request is out to all children, they are all sent one. -/
theorem sent_eq (hcalloc : f.calloc = true) (h : ∀ c ∈ cs, f.create c = 0 ∧ f.iforward c = 0) :
    sent f cs = cs := by
  rw [sent, if_pos hcalloc]
  exact List.takeWhile_eq_self_iff.mpr fun c hc => decide_eq_true (h c hc)

/-- The requests that are out are those whose `margo_iforward` is called with success. -/
theorem mem_sent {c : ℤ} : c ∈ sent f cs ↔
    f.calloc = true ∧ .iforward c ∈ (issueRequests f cs).2 ∧ f.iforward c = 0 := by
  unfold sent
  split_ifs with hcalloc
  · rw [and_iff_right hcalloc]
    induction cs with
    | nil => simp [issueRequests]
    | cons d cs ih =>
      rw [issueRequests]
      split_ifs with hcreate hforward
      · simp [hcreate]
      · simp only [hforward, and_false, decide_false, List.takeWhile_cons, Bool.false_eq_true,
          if_false, List.not_mem_nil, List.mem_cons, reduceCtorEq, MargoCall.iforward.injEq,
          or_false, false_or, false_iff, not_and]
        rintro rfl
        exact hforward
      · have hd : f.create d = 0 ∧ f.iforward d = 0 := ⟨not_not.mp hcreate, not_not.mp hforward⟩
        simp only [hd, and_self, decide_true, List.takeWhile_cons, if_true, List.mem_cons, ih,
          reduceCtorEq, MargoCall.iforward.injEq, false_or]
        constructor
        · rintro (rfl | h)
          · exact ⟨Or.inl rfl, hd.2⟩
          · exact ⟨Or.inr h.1, h.2⟩
        · rintro ⟨rfl | h, h0⟩
          · exact Or.inl rfl
          · exact Or.inr ⟨h, h0⟩
  · simp [hcalloc]

theorem collectReplies_sum (hg : ∀ c ∈ cs, ∃ o, g c = some o ∧ o.sum = v c) :
    ∃ s, collectReplies f j (cs.map fun c => (c, g c)) b = some s ∧
      wrapInt s.out.sum = wrapInt (b.sum + ((cs.takeWhile fun c => f.wait c = 0).map fun c =>
        if f.getOutput c = 0 then v c else j.reply c).sum) := by
  induction cs generalizing b with
  | nil => exact ⟨_, rfl, by simp⟩
  | cons c cs ih =>
    by_cases hw : f.wait c = 0
    · obtain ⟨o, ho, hv⟩ := hg c List.mem_cons_self
      obtain ⟨s, hs, hsum⟩ := ih (fun d hd => hg d (List.mem_cons_of_mem c hd))
        (b := ⟨wrapInt (b.sum + (received f j c o).sum), b.ranks ++ (received f j c o).ranks⟩)
      refine ⟨{ s with
        calls := .wait c :: .getOutput c :: .freeOutput c :: .destroy c :: s.calls }, ?_, ?_⟩
      · simp [ho, collectReplies_cons hw, hs]
      · have hreceived : (received f j c o).sum = if f.getOutput c = 0 then v c else j.reply c := by
          unfold received
          split_ifs
          · exact hv
          · rfl
        simpa [hw, hreceived, add_assoc] using hsum
    · exact ⟨{ ret := f.wait c, out := b, calls := [.wait c] }, by simp [collectReplies, hw],
        by simp [hw]⟩

/-- `sum_forward` returns once the requests that are out are answered, and says what it adds. -/
theorem sumForward_sum (ht : t.childCount = 0 ↔ t.children = [])
    (hcalloc : t.children ≠ [] → f.calloc = true)
    (hg : ∀ c ∈ sent f t.children, ∃ o, g c = some o ∧ o.sum = v c) :
    ∃ s, sumForward r f j t x (t.children.map g) = some s ∧
      s.out.sum = wrapInt (r + x.seed + collectedSum f j v t.children) := by
  by_cases hc : t.children = []
  · refine ⟨_, by rw [sumForward, if_pos (ht.mpr hc)], ?_⟩
    simp [addOwn, collectedSum, collected, hc]
  · have hcount := mt ht.mp hc
    have hissue := issueRequests_ret f t.children
    by_cases hall : ∀ c ∈ t.children, f.create c = 0 ∧ f.iforward c = 0
    · rw [sent_eq (hcalloc hc) hall] at hg
      obtain ⟨s, hs, hsum⟩ := collectReplies_sum (f := f) (j := j) (b := ⟨0, []⟩) hg
      rw [← zip_answers] at hs
      refine ⟨_, sumForward_collect hcount (hcalloc hc) (hissue.mpr hall) hs, ?_⟩
      simp only [addOwn, wrapInt_add_right, collectedSum, collected, if_pos hall]
      rw [← wrapInt_add_left, hsum, wrapInt_add_left]
      congr 1
      ring
    · refine ⟨_, sumForward_issue_failed hcount (hcalloc hc) (mt hissue.mp hall), ?_⟩
      simp [addOwn, collectedSum, collected, hall]

/-- It returns once the requests that are out are answered. -/
theorem sumForward_returns (ht : t.childCount = 0 ↔ t.children = [])
    (hg : ∀ c ∈ sent f t.children, g c ≠ none) :
    ∃ s, sumForward r f j t x (t.children.map g) = some s := by
  by_cases hcalloc : t.children ≠ [] → f.calloc = true
  · obtain ⟨s, hs, -⟩ := sumForward_sum (r := r) (j := j) (x := x)
      (v := fun c => ((g c).map SumOut.sum).getD 0) ht hcalloc fun c hc => by
        obtain ⟨o, ho⟩ := Option.ne_none_iff_exists'.mp (hg c hc)
        exact ⟨o, ho, by simp [ho]⟩
    exact ⟨s, hs⟩
  · obtain ⟨hne, hfail⟩ := Classical.not_imp.mp hcalloc
    exact ⟨_, sumForward_calloc_failed (mt ht.mp hne) (Bool.not_eq_true _ ▸ hfail)⟩

theorem collectedSum_congr {j' : Junk} (h : ∀ c ∈ collected f cs, f.getOutput c = 0) :
    collectedSum f j v cs = collectedSum f j' v cs := by
  refine congrArg List.sum (List.map_congr_left fun c hc => ?_)
  rw [if_pos (h c hc), if_pos (h c hc)]

/-- An output that is not got shows in the sum. -/
theorem collectedSum_junk {c : ℤ} (hnd : cs.Nodup) (hc : c ∈ collected f cs)
    (hne : f.getOutput c ≠ 0) :
    collectedSum f ⟨0, fun d => if d = c then 1 else 0⟩ v cs =
      collectedSum f zeroJunk v cs + 1 := by
  have hnd : (collected f cs).Nodup := by
    unfold collected
    split_ifs
    · exact hnd.sublist (List.takeWhile_sublist _)
    · exact List.nodup_nil
  have hrest : ((collected f cs).erase c).map (fun d =>
      if f.getOutput d = 0 then v d else if d = c then 1 else 0) =
      ((collected f cs).erase c).map fun d => if f.getOutput d = 0 then v d else 0 := by
    refine List.map_congr_left fun d hd => ?_
    rw [if_neg (hnd.mem_erase_iff.mp hd).1]
  simp only [collectedSum, zeroJunk]
  rw [← List.sum_map_erase _ hc, ← List.sum_map_erase _ hc, hrest]
  simp only [hne, if_false, if_true]
  ring

/-! ## One handler -/

section Handler

-- `M` is the memory of a whole run, `J` the part that the handler reads, and the answers of the
-- children do not depend on it either
variable {M : Type} {J : M → Junk} {g : M → ℤ → Option SumOut}

/-- The calls of the handler on tree `t`. -/
def handlerCalls (arith : ℤ → ℤ) (n rank : ℤ) (f : SumCalls) (x : SumIn) (t : RpcTree)
    (J : M → Junk) (g : M → ℤ → Option SumOut) (m : M) : Option (List MargoCall) :=
  (metasimRpcHandleSum arith n rank f (J m) x (t.children.map (g m))).map Handled.calls

/-- What is answered is the sum. -/
theorem handlerCalls_value (hht : handlerTree arith n rank f x = t) (hin : f.getInput = 0) {y : ℤ}
    {m : M} (hy : ∃ calls, handlerCalls arith n rank f x t J g m = some calls ∧
      responses calls = [y] ∧ calls.count .destroyOwn = 1)
    (hs : sumForward rank f (J m) t x (t.children.map (g m)) = some s) : y = s.out.sum := by
  obtain ⟨calls, hcalls, hone, -⟩ := hy
  obtain ⟨calls', hcalls', hone', -⟩ := handleSum_of_forwarded hin hht hs
  rw [handlerCalls, hcalls'] at hcalls
  obtain rfl := Option.some.inj hcalls
  exact List.singleton_inj.mp (hone.symm.trans hone')

theorem handler_fine_of_answers (hJ : Function.Surjective J)
    (ht : t.childCount = 0 ↔ t.children = []) (hnd : t.children.Nodup)
    (hht : handlerTree arith n rank f x = t)
    (hg : f.getInput = 0 → ∀ c ∈ sent f t.children, ∃ v, ∀ m, ∃ o, g m c = some o ∧ o.sum = v)
    (h : Answers (handlerCalls arith n rank f x t J g)) : AnswersFine f t.children := by
  obtain ⟨y, hy⟩ := h
  have hin : f.getInput = 0 := by
    by_contra hne
    obtain ⟨m, -⟩ := hJ zeroJunk
    obtain ⟨calls, hcalls, hone, -⟩ := hy m
    rw [handlerCalls, handleSum_no_input hne] at hcalls
    obtain rfl := Option.some.inj hcalls
    simp [responses] at hone
  have hcalloc : t.children ≠ [] → f.calloc = true := by
    intro hc
    by_contra hfail
    obtain ⟨m, hm⟩ := hJ ⟨y + 1, fun _ => 0⟩
    have := handlerCalls_value hht hin (hy m)
      (sumForward_calloc_failed (mt ht.mp hc) (Bool.not_eq_true _ ▸ hfail))
    simp only [hm] at this
    omega
  refine ⟨hin, hcalloc, fun c hc => ?_⟩
  -- two memories that differ in the output that is not got
  by_contra hne
  have hg := hg hin
  choose! v hv using hg
  obtain ⟨m, hm⟩ := hJ zeroJunk
  obtain ⟨m', hm'⟩ := hJ ⟨0, fun d => if d = c then 1 else 0⟩
  obtain ⟨s, hs, hsum⟩ := sumForward_sum (r := rank) (j := J m) (x := x) ht hcalloc
    fun d hd => hv d hd m
  obtain ⟨s', hs', hsum'⟩ := sumForward_sum (r := rank) (j := J m') (x := x) ht hcalloc
    fun d hd => hv d hd m'
  have heq := (handlerCalls_value hht hin (hy m) hs).symm.trans
    (handlerCalls_value hht hin (hy m') hs')
  rw [hsum, hsum', hm, hm', collectedSum_junk hnd hc hne] at heq
  have := congrArg (· % 4294967296) heq
  simp only [wrapInt_emod] at this
  omega

theorem handler_answers_of_fine (ht : t.childCount = 0 ↔ t.children = [])
    (hht : handlerTree arith n rank f x = t) (hfine : AnswersFine f t.children)
    (hg : ∀ c ∈ sent f t.children, ∃ v, ∀ m, ∃ o, g m c = some o ∧ o.sum = v) :
    Answers (handlerCalls arith n rank f x t J g) := by
  choose! v hv using hg
  refine ⟨wrapInt (rank + x.seed + collectedSum f zeroJunk v t.children), fun m => ?_⟩
  obtain ⟨s, hs, hsum⟩ := sumForward_sum (r := rank) (j := J m) (x := x) ht hfine.calloc
    fun d hd => hv d hd m
  obtain ⟨calls, hcalls, hone, hdestroy⟩ := handleSum_of_forwarded hfine.getInput hht hs
  refine ⟨calls, by simp [handlerCalls, hcalls], ?_, hdestroy⟩
  rw [hone, hsum, collectedSum_congr hfine.getOutput]

/-- The response and the calls of a handler agree. -/
theorem handler_response {y : ℤ} {h : Handled}
    (hh : metasimRpcHandleSum arith n rank f j x answers = some h) (hy : responses h.calls = [y]) :
    ∃ o, h.response = some o ∧ o.sum = y := by
  by_cases hin : f.getInput = 0
  · have hbind := hh
    rw [metasimRpcHandleSum, if_neg (not_not.mpr hin)] at hbind
    obtain ⟨s, hs, -⟩ := Option.bind_eq_some_iff.mp hbind
    obtain ⟨calls, hcalls, hone, -⟩ := handleSum_of_forwarded hin rfl hs
    obtain rfl := Option.some.inj (hh.symm.trans hcalls)
    exact ⟨s.out, rfl, List.singleton_inj.mp (hone.symm.trans hy)⟩
  · rw [handleSum_no_input hin] at hh
    obtain rfl := Option.some.inj hh
    simp [responses] at hy

end Handler

/-! ## All servers -/

/-- The servers that a request of the sum reaches. -/
inductive Delivered (arith : ℤ → ℤ) (n : ℤ) (f : ℤ → SumCalls) (x : SumIn) : ℤ → Prop
  | fromRoot {c : ℤ} (hc : c ∈ sent (f x.root) (bcastTree arith n x.root).children) :
      Delivered arith n f x c
  | fromServer {r c : ℤ} (hr : Delivered arith n f x r) (hin : (f r).getInput = 0)
      (hc : c ∈ sent (f r) (handlerTree arith n r (f r) x).children) : Delivered arith n f x c

/-- The calls of the handler of `rank`, the servers below it responding as `serveSum` says. -/
def serverCalls (arith : ℤ → ℤ) (n : ℤ) (f : ℤ → SumCalls) (x : SumIn) (fuel : ℕ) (rank : ℤ)
    (junk : ℤ → Junk) : Option (List MargoCall) :=
  (metasimRpcHandleSum arith n rank (f rank) (junk rank) x
    ((handlerTree arith n rank (f rank) x).children.map
      (serveSum arith n f junk x fuel))).map Handled.calls

/-- Every request that is delivered is answered, and the invocation at the root returns: nobody
waits for an answer that is never sent. -/
def AllAnswered (arith : ℤ → ℤ) (n : ℤ) (f : ℤ → SumCalls) (x : SumIn) : Prop :=
  ∀ fuel, n.toNat ≤ fuel →
    (∀ r, Delivered arith n f x r → Answers (serverCalls arith n f x fuel r)) ∧
    ∀ junk before, runSum arith n f junk x.root x.seed before fuel ≠ none

section Servers

variable {root seed : ℤ} {f : ℤ → SumCalls}

theorem serveSum_of_answers {fuel : ℕ} (h : Answers (serverCalls arith n f x fuel r)) :
    ∃ v, ∀ junk, ∃ o, serveSum arith n f junk x (fuel + 1) r = some o ∧ o.sum = v := by
  obtain ⟨v, hv⟩ := h
  refine ⟨v, fun junk => ?_⟩
  obtain ⟨calls, hcalls, hone, -⟩ := hv junk
  obtain ⟨h, hh, rfl⟩ := Option.map_eq_some_iff.mp hcalls
  obtain ⟨o, ho, hsum⟩ := handler_response hh hone
  exact ⟨o, by simp [serveSum, hh, ho], hsum⟩

theorem surjective_at (r : ℤ) : Function.Surjective fun junk : ℤ → Junk => junk r :=
  fun j => ⟨fun _ => j, rfl⟩

theorem mem_of_mem_sent {f : SumCalls} {c : ℤ} (hc : c ∈ sent f cs) : c ∈ cs := by
  unfold sent at hc
  split_ifs at hc
  · exact (List.takeWhile_sublist _).subset hc
  · simp at hc

variable (S : Sound arith n root 2)
include S

/-- What the handler's tree has to offer: the children of the rank, or none. -/
theorem Sound.handlerTree_facts (hr : r ∈ S.tree.nodes) (f : SumCalls) (seed : ℤ) :
    ((handlerTree arith n r f ⟨root, seed⟩).childCount = 0 ↔
      (handlerTree arith n r f ⟨root, seed⟩).children = []) ∧
    (handlerTree arith n r f ⟨root, seed⟩).children.Nodup ∧
    ∀ c ∈ (handlerTree arith n r f ⟨root, seed⟩).children, c ∈ S.tree.children r := by
  cases hm : f.malloc with
  | true =>
    obtain ⟨hkids, hcount⟩ := S.handlerTree_children seed hr fun _ => hm
    exact ⟨hcount, hkids ▸ S.tree.child_nodup hr, fun c hc => hkids ▸ hc⟩
  | false =>
    obtain ⟨hcount, hnil⟩ := handlerTree_of_no_malloc hm arith n r ⟨root, seed⟩
    simp [hcount, hnil]

theorem Delivered.mem_nodes (h : Delivered arith n f ⟨root, seed⟩ r) : r ∈ S.tree.nodes := by
  induction h with
  | fromRoot hc => exact S.tree.child_mem S.tree.root_mem (mem_of_mem_sent hc)
  | fromServer _ _ hc ih =>
    exact S.tree.child_mem ih ((S.handlerTree_facts ih _ seed).2.2 _ (mem_of_mem_sent hc))

/-- From the leaves up: a server answers if the failures on it and below allow it. -/
theorem server_answers
    (hfine : ∀ r, Delivered arith n f ⟨root, seed⟩ r →
      AnswersFine (f r) (handlerTree arith n r (f r) ⟨root, seed⟩).children)
    (hr : r ∈ S.tree.nodes) : Delivered arith n f ⟨root, seed⟩ r →
    ∀ fuel, n.toNat ≤ fuel + 1 + S.tree.index r →
      Answers (serverCalls arith n f ⟨root, seed⟩ fuel r) := by
  refine S.tree.bottom_up hr ?_
  intro r hr ih hd fuel hfuel
  obtain ⟨hcount, hnd, hkids⟩ := S.handlerTree_facts hr (f r) seed
  refine handler_answers_of_fine (J := fun junk : ℤ → Junk => junk r)
    (g := fun junk => serveSum arith n f junk ⟨root, seed⟩ fuel) hcount rfl (hfine r hd) ?_
  intro c hc
  have hchild := hkids c (mem_of_mem_sent hc)
  have hlt := S.tree.index_lt hr hchild
  have hbound : S.tree.index c < n.toNat := by
    have hc := S.mem_nodes.mp (S.tree.child_mem hr hchild)
    have := S.dist_mem hc.1 hc.2
    change (dist n root c).toNat < n.toNat
    omega
  obtain ⟨fuel, rfl⟩ : ∃ m, fuel = m + 1 := ⟨fuel - 1, by omega⟩
  have hdc := Delivered.fromServer hd (hfine r hd).getInput hc
  exact serveSum_of_answers (ih c hchild hdc fuel (by omega))

/-- The invocation returns where its children answer. -/
theorem runSum_ne_none {junk : ℤ → Junk} {before : ℤ} {fuel : ℕ}
    (h : ∀ c ∈ sent (f root) (bcastTree arith n root).children,
      ∃ v, ∀ junk, ∃ o, serveSum arith n f junk ⟨root, seed⟩ fuel c = some o ∧ o.sum = v) :
    runSum arith n f junk root seed before fuel ≠ none := by
  have hcount : (bcastTree arith n root).childCount = 0 ↔ (bcastTree arith n root).children = [] :=
    S.childCount_eq_zero_iff S.tree.root_mem
  obtain ⟨s, hs⟩ := sumForward_returns (r := root) (j := junk root) (x := ⟨root, seed⟩)
    (g := serveSum arith n f junk ⟨root, seed⟩ fuel) hcount fun c hc => by
      obtain ⟨v, hv⟩ := h c hc
      obtain ⟨o, ho, -⟩ := hv junk
      simp [ho]
  simp [runSum, metasimRpcInvokeSum, hs]

theorem allAnswered_iff : AllAnswered arith n f ⟨root, seed⟩ ↔
    ∀ r, Delivered arith n f ⟨root, seed⟩ r →
      AnswersFine (f r) (handlerTree arith n r (f r) ⟨root, seed⟩).children := by
  constructor
  · intro h r hd
    obtain ⟨hcount, hnd, -⟩ := S.handlerTree_facts (hd.mem_nodes S) (f r) seed
    refine handler_fine_of_answers
      (g := fun junk => serveSum arith n f junk ⟨root, seed⟩ (n.toNat + 1))
      (surjective_at r) hcount hnd rfl ?_ ((h (n.toNat + 1) (by omega)).1 r hd)
    intro hin c hc
    exact serveSum_of_answers ((h n.toNat le_rfl).1 c (.fromServer hd hin hc))
  · intro hfine fuel hfuel
    refine ⟨fun r hd => server_answers S hfine (hd.mem_nodes S) hd fuel (by omega), ?_⟩
    intro junk before
    refine runSum_ne_none S fun c hc => ?_
    have hpos : 0 < n.toNat := by
      have := S.mem_nodes.mp S.tree.root_mem
      omega
    obtain ⟨fuel, rfl⟩ : ∃ m, fuel = m + 1 := ⟨fuel - 1, by omega⟩
    have hd : Delivered arith n f ⟨root, seed⟩ c := .fromRoot hc
    exact serveSum_of_answers (server_answers S hfine (hd.mem_nodes S) hd fuel (by omega))

end Servers

/-- Failures of the tree's child array and of the children's create, forward and wait matter to
no answer. -/
theorem answersFine_of_getInput {f : SumCalls} (hin : f.getInput = 0) (hcalloc : f.calloc = true)
    (hout : ∀ c, f.getOutput c = 0) (cs : List ℤ) : AnswersFine f cs :=
  ⟨hin, fun _ => hcalloc, fun c _ => hout c⟩

theorem handlePing_answers_iff (getInput ping : ℤ) :
    Answers (fun _ : PingJunk => some (metasimRpcHandlePing getInput ping)) ↔ getInput = 0 := by
  unfold metasimRpcHandlePing
  constructor
  · rintro ⟨x, hx⟩
    by_contra hne
    obtain ⟨calls, hcalls, hone, -⟩ := hx ⟨⟨0, 0⟩, 0, 0, 0⟩
    rw [if_pos hne] at hcalls
    obtain rfl := Option.some.inj hcalls
    simp [responses] at hone
  · intro hin
    rw [if_neg (not_not.mpr hin)]
    exact ⟨ping, fun _ => ⟨_, rfl, rfl, rfl⟩⟩

/-- All requests of a sum are answered if and only if each server that one is delivered to gets
its input, allocates its requests and gets the outputs it reads, and one is delivered to the
children for which `margo_iforward` is called with success; a ping is answered if and
only if its handler gets the input. -/
theorem requests_answered_iff {arith : ℤ → ℤ} {n root : ℤ} (hexact : ExactFor arith n 2)
    (hroot : 0 ≤ root ∧ root < n) (f : ℤ → SumCalls) (seed getInput ping : ℤ) :
    (AllAnswered arith n f ⟨root, seed⟩ ↔ ∀ r, Delivered arith n f ⟨root, seed⟩ r →
      AnswersFine (f r) (handlerTree arith n r (f r) ⟨root, seed⟩).children) ∧
    (∀ r cs c, c ∈ sent (f r) cs ↔ (f r).calloc = true ∧
      .iforward c ∈ (issueRequests (f r) cs).2 ∧ (f r).iforward c = 0) ∧
    (Answers (fun _ : PingJunk => some (metasimRpcHandlePing getInput ping)) ↔ getInput = 0) :=
  ⟨allAnswered_iff ⟨hroot.1, hroot.2, one_le_two, hexact⟩, fun _ _ _ => mem_sent,
    handlePing_answers_iff getInput ping⟩

/-- Rank 1 cannot wait for its child and rank 2 has no memory for a tree: all answer. -/
theorem requests_answered_four : AllAnswered wrapInt 4
    (fun r => if r = 1 then { wait := fun _ => 1 } else { malloc := decide (r ≠ 2) }) ⟨0, 5⟩ := by
  have hexact := exactFor_wrapInt (n := 4) (by decide) le_rfl (by decide)
  refine (requests_answered_iff hexact (by decide) _ 5 0 0).1.mpr fun r _ => ?_
  refine answersFine_of_getInput ?_ ?_ ?_ _
  · split_ifs <;> rfl
  · split_ifs <;> rfl
  · intro c
    split_ifs <;> rfl

/-- Rank 1 cannot decode the request and returns: the root waits for its answer forever. Neither
does a ping that cannot be decoded get its -1. -/
theorem unanswered_request :
    let f : ℤ → SumCalls := fun r => if r = 1 then { getInput := 1 } else {}
    Delivered wrapInt 2 f ⟨0, 0⟩ 1 ∧
    (∀ junk fuel, serverCalls wrapInt 2 f ⟨0, 0⟩ fuel 1 junk = some [.getInput]) ∧
    (∀ junk fuel, runSum wrapInt 2 f junk 0 0 0 fuel = none) ∧ ¬ AllAnswered wrapInt 2 f ⟨0, 0⟩ ∧
    metasimRpcHandlePing 1 7 = [.getInput, .freeInput, .destroyOwn] := by
  intro f
  have hnone : ∀ junk fuel, runSum wrapInt 2 f junk 0 0 0 fuel = none := by
    intro junk fuel
    cases fuel <;> rfl
  refine ⟨.fromRoot (by decide), fun _ _ => rfl, hnone, ?_, rfl⟩
  intro h
  exact (h 2 le_rfl).2 (fun _ => zeroJunk) 0 (hnone _ 2)

end Metasim
