import Metasim.SumNetInv

/-! Whole runs of concurrent sums: what has happened to each handle, how often, and that
every run comes to its end. -/
namespace Metasim

open Transition

variable {arith : ℤ → ℤ} {n v w r : ℤ} {calls : List SumIn} {c : SumIn} {h g : Handle}
  {s u : SumNet} {i j k : ℕ} {a b : SumLabel} {xs : List SumLabel} {x : ℤ}

namespace SumLabel

/-- The handle a step moves. -/
def target : SumLabel → Handle
  | invoke i => ⟨i, []⟩
  | issue h j => h.child j
  | start h _ => h
  | respond h => h
  | arrive h => h
  | collect h j => h.child j
  | ret i => ⟨i, []⟩

/-- The level it moves it to. -/
def stage : SumLabel → ℕ
  | invoke _ => 2
  | issue _ _ => 1
  | start _ _ => 2
  | respond _ => 3
  | arrive _ => 4
  | collect _ _ => 5
  | ret _ => 5

/-- A request of call `i` -/
def requestOf (i : ℕ) : SumLabel → Bool
  | issue h _ => h.call == i
  | _ => false

/-- A response within call `i` -/
def responseOf (i : ℕ) : SumLabel → Bool
  | respond h => h.call == i
  | _ => false

/-- A handler started on server `rank` for call `i` -/
def startsOn (i : ℕ) (rank : ℤ) : SumLabel → Bool
  | start h r => h.call == i && r == rank
  | _ => false

/-- The steps that can occur at all. -/
def Proper (arith : ℤ → ℤ) (n : ℤ) (calls : List SumIn) : SumLabel → Prop
  | start h r => h.path ≠ [] ∧ ∃ c, h.At arith n calls c r
  | respond h => h.path ≠ []
  | arrive h => h.path ≠ []
  | _ => True

end SumLabel

open SumLabel

theorem proper_unique (ha : a.Proper arith n calls) (hb : b.Proper arith n calls)
    (ht : a.target = b.target) (hs : a.stage = b.stage) : a = b := by
  cases a <;> cases b <;> simp only [stage, Nat.reduceEqDiff, OfNat.ofNat_ne_one,
    OfNat.one_ne_ofNat] at hs
  case invoke.invoke => simpa [target] using ht
  case ret.ret => simpa [target] using ht
  case issue.issue => simpa [target] using ht
  case collect.collect => simpa [target] using ht
  case respond.respond => simpa [target] using ht
  case arrive.arrive => simpa [target] using ht
  case start.start h r h' r' =>
    obtain rfl : h = h' := ht
    obtain ⟨_, c, hc⟩ := ha
    obtain ⟨_, d, hd⟩ := hb
    rw [(at_unique hc hd).2]
  case invoke.start h r =>
    obtain rfl := ht
    exact absurd rfl hb.1
  case start.invoke h r i =>
    obtain rfl : h = _ := ht
    exact absurd rfl ha.1
  case collect.ret => exact absurd ht (Handle.child_ne_root _ _ _)
  case ret.collect => exact absurd ht.symm (Handle.child_ne_root _ _ _)

/-- A step moves its handle up to its stage, and passes no other step that could have moved
that handle. -/
structure Moves (arith : ℤ → ℤ) (n : ℤ) (calls : List SumIn) (s : SumNet) (a : SumLabel)
    (u : SumNet) : Prop where
  proper : a.Proper arith n calls
  at_target : ∃ c v, a.target.At arith n calls c v
  before : (s.rpc a.target).level < a.stage
  after : (u.rpc a.target).level = a.stage
  other : ∀ h, h ≠ a.target → u.rpc h = s.rpc h
  between : ∀ b : SumLabel, b.Proper arith n calls → b.target = a.target →
    b.stage ≤ (s.rpc a.target).level ∨ a.stage ≤ b.stage

/-- A step that sets one handle, one level up. -/
theorem moves_of_setRpc {x : SumRpc} (hp : a.Proper arith n calls)
    (hat : ∃ c v, a.target.At arith n calls c v) (hlevel : (s.rpc a.target).level + 1 = a.stage)
    (hx : x.level = a.stage) (hu : u.rpc = (s.setRpc a.target x).rpc) :
    Moves arith n calls s a u := by
  refine ⟨hp, hat, by omega, ?_, ?_, ?_⟩
  · rw [hu, SumNet.rpc_setRpc, if_pos rfl, hx]
  · intro g hg
    rw [hu, SumNet.rpc_setRpc, if_neg hg]
  · intro b _ _
    omega

theorem moves_of_root (hc : ∃ c, calls[i]? = some c) (hp : a.Proper arith n calls)
    (ht : a.target = ⟨i, []⟩)
    (h1 : (s.rpc ⟨i, []⟩).level = 0 ∧ a.stage = 2 ∨ (s.rpc ⟨i, []⟩).level = 2 ∧ a.stage = 5)
    (h2 : (u.rpc ⟨i, []⟩).level = a.stage)
    (ho : ∀ h, h ≠ ⟨i, []⟩ → u.rpc h = s.rpc h) : Moves arith n calls s a u := by
  obtain ⟨c, hc⟩ := hc
  refine ⟨hp, ⟨c, c.root, ht ▸ at_root hc⟩, ?_, ht ▸ h2, ht ▸ ho, ?_⟩
  · rw [ht]
    omega
  · intro b hb htb
    rw [ht] at htb ⊢
    have hstage : b.stage = 2 ∨ b.stage = 5 := by
      cases b with
      | invoke => exact Or.inl rfl
      | ret => exact Or.inr rfl
      | issue h j => exact absurd htb (h.child_ne_root j i)
      | collect h j => exact absurd htb (h.child_ne_root j i)
      | start h r => exact absurd (congrArg Handle.path htb) hb.1
      | respond h => exact absurd (congrArg Handle.path htb) hb
      | arrive h => exact absurd (congrArg Handle.path htb) hb
    omega

theorem sumStep_moves (hI : NetInv arith n calls s) (hs : SumStep arith n calls s a u) :
    Moves arith n calls s a u := by
  cases a with
  | invoke i =>
    obtain ⟨c, hc, hunused, rfl⟩ := sumStep_invoke.mp hs
    refine moves_of_root ⟨c, hc⟩ trivial rfl (Or.inl ⟨by simp [hunused, SumRpc.level], rfl⟩) ?_ ?_
    · simp [SumNet.rpc_setRpc, SumRpc.level, stage]
    · intro h hh
      rw [SumNet.rpc_setFrame, SumNet.rpc_setRpc]
      exact if_neg hh
  | issue h j =>
    obtain ⟨F, dst, hF, hdst, hj, rfl⟩ := sumStep_issue.mp hs
    obtain ⟨c, v, hat, -, hok, -, -, hrest⟩ := hI.running hF
    have hdst : (kids arith n c v)[j]? = some dst := by rwa [hok.tree] at hdst
    have hunused := hrest j (List.getElem?_eq_some_iff.mp hdst).1 hj.le
    refine moves_of_setRpc trivial ⟨c, dst, at_child_iff.mpr ⟨v, hat, hdst⟩⟩ ?_ rfl rfl
    simp [target, hunused, SumRpc.level, stage]
  | start h r =>
    obtain ⟨x, hsent, rfl⟩ := sumStep_start.mp hs
    obtain ⟨hat, hp⟩ := hI.sent hsent
    refine moves_of_setRpc ⟨hp, x, hat⟩ ⟨x, r, hat⟩ ?_ rfl rfl
    simp [target, hsent, SumRpc.level, stage]
  | respond h =>
    obtain ⟨F, hF, hpath, hD, rfl⟩ := sumStep_respond.mp hs
    obtain ⟨c, v, hat, hrun, -⟩ := hI.running hF
    refine moves_of_setRpc hpath ⟨c, v, hat⟩ ?_ rfl rfl
    simp [target, hrun, SumRpc.level, stage]
  | arrive h =>
    obtain ⟨x, hresp, rfl⟩ := sumStep_arrive.mp hs
    obtain ⟨c, v, hat, hpath, -⟩ := hI.answered (Or.inl hresp)
    refine moves_of_setRpc hpath ⟨c, v, hat⟩ ?_ rfl rfl
    simp [target, hresp, SumRpc.level, stage]
  | collect h j =>
    obtain ⟨F, x, hF, -, -, harr, rfl⟩ := sumStep_collect.mp hs
    refine moves_of_setRpc trivial (hI.at_of_rpc (by simp [target, harr])) ?_ rfl rfl
    simp [target, harr, SumRpc.level, stage]
  | ret i =>
    obtain ⟨F, hF, -, rfl⟩ := sumStep_ret.mp hs
    obtain ⟨c, v, hat, hrun, -⟩ := hI.running hF
    refine moves_of_root ⟨c, hat.1⟩ trivial rfl (Or.inr ⟨by simp [hrun, SumRpc.level], rfl⟩) ?_ ?_
    · simp [SumNet.rpc_setRpc, SumRpc.level, stage]
    · intro g hg
      rw [SumNet.rpc_setResult, SumNet.rpc_setFrame, SumNet.rpc_setRpc]
      exact if_neg hg

/-! ## History -/

/-- A step has been taken exactly when its handle is at its stage or beyond, and once. -/
structure HistoryInv (arith : ℤ → ℤ) (n : ℤ) (calls : List SumIn) (xs : List SumLabel)
    (s : SumNet) : Prop where
  net : NetInv arith n calls s
  nodup : xs.Nodup
  mem : ∀ a, a ∈ xs ↔ a.Proper arith n calls ∧ a.stage ≤ (s.rpc a.target).level

theorem historyInv_start : HistoryInv arith n calls [] SumNet.start := by
  refine ⟨netInv_start, List.nodup_nil, ?_⟩
  intro a
  cases a <;> simp [SumNet.start, SumRpc.level, stage]

theorem historyInv_step (S : ∀ c ∈ calls, Sound arith n c.root 2)
    (hI : HistoryInv arith n calls xs s) (hs : SumStep arith n calls s a u) :
    HistoryInv arith n calls (xs ++ [a]) u := by
  have hm := sumStep_moves hI.net hs
  have hnew : a ∉ xs := by
    intro h
    have := ((hI.mem a).mp h).2
    have := hm.before
    omega
  refine ⟨netInv_step S hI.net hs, ?_, ?_⟩
  · exact List.nodup_append.mpr ⟨hI.nodup, List.nodup_singleton a, fun b hb d hd hbd =>
      hnew (List.mem_singleton.mp hd ▸ hbd ▸ hb)⟩
  · intro b
    rw [List.mem_append, List.mem_singleton, hI.mem]
    by_cases ht : b.target = a.target
    · rw [ht, hm.after]
      constructor
      · rintro (⟨hp, hle⟩ | rfl)
        · exact ⟨hp, hle.trans hm.before.le⟩
        · exact ⟨hm.proper, le_rfl⟩
      · rintro ⟨hp, hle⟩
        rcases hm.between b hp ht with h | h
        · exact Or.inl ⟨hp, h⟩
        · exact Or.inr (proper_unique hp hm.proper ht (by omega))
    · rw [hm.other _ ht]
      constructor
      · rintro (h | rfl)
        · exact h
        · exact absurd rfl ht
      · exact Or.inl

theorem historyInv_trace (S : ∀ c ∈ calls, Sound arith n c.root 2)
    (hrun : Trace (SumStep arith n calls) SumNet.start xs s) : HistoryInv arith n calls xs s :=
  invariant historyInv_start (fun _ _ _ _ hI hs => historyInv_step S hI hs) hrun

/-! ## A call that has returned -/

/-- Below a completed call every handle is completed. -/
theorem NetInv.completed (hI : NetInv arith n calls s) (hroot : s.rpc ⟨i, []⟩ = .completed)
    {p : List ℕ} (hat : (⟨i, p⟩ : Handle).At arith n calls c v) :
    s.rpc ⟨i, p⟩ = .completed := by
  induction p generalizing v with
  | nil => exact hroot
  | cons j p ih =>
    obtain ⟨w, hw, hj⟩ := (at_child_iff (h := ⟨i, p⟩)).mp hat
    have hup := ih hw
    have hlt := (List.getElem?_eq_some_iff.mp hj).1
    cases hI.server _ _ _ hw with
    | before _ hr => rcases hr with hr | ⟨_, hr⟩ <;> simp [hr] at hup
    | during _ _ hr => simp [hr] at hup
    | after _ _ hk => exact hk j hlt

/-- The steps of one kind taken for the handles of one call, apart from the call itself. -/
def onCall (i k : ℕ) (a : SumLabel) : Bool :=
  decide (a.stage = k ∧ a.target.call = i ∧ a.target.path ≠ [])

/-- Where a call has returned, each kind of step was taken once for each rank but the root. -/
theorem countP_onCall (S : Sound arith n c.root 2) (hI : HistoryInv arith n calls xs s)
    (hc : calls[i]? = some c) (hroot : s.rpc ⟨i, []⟩ = .completed) (hk : k ≤ 5)
    (hlabel : ∀ h v, h.path ≠ [] → h.At arith n calls c v →
      ∃ a : SumLabel, a.Proper arith n calls ∧ a.target = h ∧ a.stage = k) :
    (xs.countP (onCall i k) : ℤ) = n - 1 := by
  have hmem : ∀ a, a ∈ xs.filter (onCall i k) ↔ (a.Proper arith n calls ∧
      a.stage ≤ (s.rpc a.target).level) ∧ a.stage = k ∧ a.target.call = i ∧ a.target.path ≠ [] := by
    intro a
    rw [List.mem_filter, hI.mem, onCall, decide_eq_true_eq]
  have hat : ∀ a, a ∈ xs.filter (onCall i k) → ∃ v, a.target.At arith n calls c v ∧ v ≠ c.root := by
    intro a ha
    obtain ⟨⟨hp, hle⟩, hstage, hcall, hpath⟩ := (hmem a).mp ha
    have hpos : 1 ≤ a.stage := by cases a <;> simp [stage]
    obtain ⟨d, v, hd, hv⟩ := hI.net.at_of_rpc (h := a.target) (by
      intro hr
      simp [hr, SumRpc.level] at hle
      omega)
    obtain rfl := Option.some.inj (hc.symm.trans (hcall ▸ hd))
    have hatv : a.target.At arith n calls c v := ⟨hd, hv⟩
    exact ⟨v, hatv, (S.tree.nodeAt_ne_root_iff (hatv.nodeAt S)).mpr hpath⟩
  -- the steps and the ranks correspond by the rank of the handle moved
  have hperm : ((xs.filter (onCall i k)).map fun a => pathRank arith n c.root 2 a.target.path).Perm
      (((rankList n).erase c.root).map some) := by
    rw [List.perm_ext_iff_of_nodup]
    · intro y
      simp only [List.mem_map, (rankList_nodup n).mem_erase_iff, mem_rankList]
      constructor
      · rintro ⟨a, ha, rfl⟩
        obtain ⟨v, hv, hne⟩ := hat a ha
        exact ⟨v, ⟨hne, S.mem_nodes.mp (hv.mem_nodes S)⟩, hv.2.symm⟩
      · rintro ⟨v, ⟨hne, hvn⟩, rfl⟩
        obtain ⟨p, hp⟩ := S.tree.exists_nodeAt (S.mem_nodes.mpr hvn)
        have hpath : p ≠ [] := (S.tree.nodeAt_ne_root_iff hp).mp hne
        have hatp := at_of_nodeAt S hc hp
        obtain ⟨a, ha, ht, hs⟩ := hlabel ⟨i, p⟩ v hpath hatp
        have hcomp := hI.net.completed hroot hatp
        refine ⟨a, (hmem a).mpr ⟨⟨ha, ?_⟩, hs, by rw [ht], by rwa [ht]⟩, by rw [ht]; exact hatp.2⟩
        rw [ht, hcomp, hs]
        exact hk
    · refine (hI.nodup.filter _).map_on ?_
      intro a ha b hb heq
      obtain ⟨v, hv, -⟩ := hat a ha
      obtain ⟨⟨hpa, -⟩, hsa, hca, -⟩ := (hmem a).mp ha
      obtain ⟨⟨hpb, -⟩, hsb, hcb, -⟩ := (hmem b).mp hb
      have hcall : a.target.call = b.target.call := hca.trans hcb.symm
      have hvb : b.target.At arith n calls c v := ⟨hcall ▸ hv.1, heq.symm.trans hv.2⟩
      exact proper_unique hpa hpb (at_injective S hv hvb hcall) (hsa.trans hsb.symm)
    · exact ((rankList_nodup n).erase _).map fun _ _ h => Option.some.inj h
  have hlen := hperm.length_eq
  have hn : (rankList n).length = n.toNat := by simp [rankList]
  rw [List.length_map, List.length_map, List.length_erase_of_mem
    (mem_rankList.mpr ⟨S.root_nonneg, S.root_lt⟩), hn] at hlen
  rw [List.countP_eq_length_filter, hlen]
  have := S.root_nonneg
  have := S.root_lt
  omega

theorem countP_requests (S : Sound arith n c.root 2) (hI : HistoryInv arith n calls xs s)
    (hc : calls[i]? = some c) (hroot : s.rpc ⟨i, []⟩ = .completed) :
    (xs.countP (requestOf i) : ℤ) = n - 1 := by
  have hcongr : xs.countP (requestOf i) = xs.countP (onCall i 1) := by
    refine List.countP_congr fun a _ => ?_
    cases a <;> simp [requestOf, onCall, stage, target, Handle.child]
  rw [hcongr]
  refine countP_onCall S hI hc hroot (by omega) ?_
  intro h v hpath _
  obtain ⟨i, p⟩ := h
  cases p with
  | nil => exact absurd rfl hpath
  | cons j p => exact ⟨.issue ⟨i, p⟩ j, trivial, rfl, rfl⟩

theorem countP_responses (S : Sound arith n c.root 2) (hI : HistoryInv arith n calls xs s)
    (hc : calls[i]? = some c) (hroot : s.rpc ⟨i, []⟩ = .completed) :
    (xs.countP (responseOf i) : ℤ) = n - 1 := by
  have hcongr : xs.countP (responseOf i) = xs.countP (onCall i 3) := by
    refine List.countP_congr fun a ha => ?_
    have hp := ((hI.mem a).mp ha).1
    cases a with
    | respond h =>
      have hp : h.path ≠ [] := hp
      simp [responseOf, onCall, stage, target, hp]
    | _ => simp [responseOf, onCall, stage]
  rw [hcongr]
  refine countP_onCall S hI hc hroot (by omega) ?_
  intro h v hpath _
  exact ⟨.respond h, hpath, rfl, rfl⟩

/-- The handler runs once on every rank but the root, and never on the root. -/
theorem countP_starts (S : Sound arith n c.root 2) (hI : HistoryInv arith n calls xs s)
    (hc : calls[i]? = some c) (hroot : s.rpc ⟨i, []⟩ = .completed) (r : ℤ) :
    xs.countP (startsOn i r) = if (0 ≤ r ∧ r < n) ∧ r ≠ c.root then 1 else 0 := by
  have hmem : ∀ a, a ∈ xs.filter (startsOn i r) → ∃ p, a = .start ⟨i, p⟩ r ∧ p ≠ [] ∧
      S.tree.nodeAt p = some r := by
    intro a ha
    obtain ⟨hax, hstart⟩ := List.mem_filter.mp ha
    have hp := ((hI.mem a).mp hax).1
    cases a with
    | start h r' =>
      obtain ⟨i', p⟩ := h
      simp only [startsOn, Bool.and_eq_true, beq_iff_eq] at hstart
      obtain ⟨rfl, rfl⟩ := hstart
      obtain ⟨hpath, d, hd, hr⟩ := hp
      obtain rfl := Option.some.inj (hc.symm.trans hd)
      exact ⟨p, rfl, hpath, (pathRank_eq S p).symm.trans hr⟩
    | _ => simp [startsOn] at hstart
  rw [List.countP_eq_length_filter]
  split_ifs with h
  · obtain ⟨hr, hne⟩ := h
    obtain ⟨p, hp⟩ := S.tree.exists_nodeAt (S.mem_nodes.mpr hr)
    have hpath : p ≠ [] := (S.tree.nodeAt_ne_root_iff hp).mp hne
    have hat := at_of_nodeAt S hc hp
    have hone : (xs.filter (startsOn i r)).Perm [.start ⟨i, p⟩ r] := by
      rw [List.perm_ext_iff_of_nodup (hI.nodup.filter _) (List.nodup_singleton _)]
      intro a
      rw [List.mem_singleton]
      constructor
      · intro ha
        obtain ⟨q, rfl, -, hq⟩ := hmem a ha
        rw [S.tree.nodeAt_injective hq hp]
      · rintro rfl
        rw [List.mem_filter, hI.mem]
        refine ⟨⟨⟨hpath, c, hat⟩, ?_⟩, by simp [startsOn]⟩
        have hcomp := hI.net.completed hroot hat
        simp [target, stage, hcomp, SumRpc.level]
    exact hone.length_eq
  · rw [List.length_eq_zero_iff, List.eq_nil_iff_forall_not_mem]
    intro a ha
    obtain ⟨p, -, hpath, hp⟩ := hmem a ha
    exact h ⟨S.mem_nodes.mp (S.tree.nodeAt_mem hp), (S.tree.nodeAt_ne_root_iff hp).mpr hpath⟩

/-- However the steps of any number of sums interleave, each that returns has the total of
its own seed, reached with one handler run on every other rank, `n - 1` requests and as many
responses. -/
theorem concurrent_sums_isolated {arith : ℤ → ℤ} {n : ℤ} {calls : List SumIn}
    (hexact : ExactFor arith n 2) (hroots : ∀ c ∈ calls, 0 ≤ c.root ∧ c.root < n)
    {xs : List SumLabel} {s : SumNet} (hrun : Trace (SumStep arith n calls) SumNet.start xs s)
    {i : ℕ} {x : ℤ} (hret : s.result i = some x) :
    ∃ c, calls[i]? = some c ∧ x = wrapInt (n * (n - 1) / 2 + n * c.seed) ∧
      (∀ r, xs.countP (startsOn i r) = if (0 ≤ r ∧ r < n) ∧ r ≠ c.root then 1 else 0) ∧
      (xs.countP (requestOf i) : ℤ) = n - 1 ∧ (xs.countP (responseOf i) : ℤ) = n - 1 := by
  have S := sound_of_exact hexact hroots
  have hI := historyInv_trace S hrun
  obtain ⟨c, hc, hroot, hx⟩ := (hI.net.result i x).mp hret
  have hS := S c (List.mem_of_getElem? hc)
  refine ⟨c, hc, ?_, countP_starts hS hI hc hroot, countP_requests hS hI hc hroot,
    countP_responses hS hI hc hroot⟩
  rw [hx, subtreeTotal_root hS, fullTotal]

/-- The threads of a call compute what the recursion over the servers computes. -/
theorem result_eq_runSum (S : ∀ c ∈ calls, Sound arith n c.root 2)
    (hrun : Trace (SumStep arith n calls) SumNet.start xs s) (hret : s.result i = some x)
    (junk : ℤ → Junk) (before : ℤ) {fuel : ℕ} (hfuel : n.toNat ≤ fuel) :
    ∃ c o, calls[i]? = some c ∧
      runSum arith n (fun _ => {}) junk c.root c.seed before fuel = some o ∧ o.sum = x := by
  obtain ⟨c, hc, -, hx⟩ := ((historyInv_trace S hrun).net.result i x).mp hret
  have hS := S c (List.mem_of_getElem? hc)
  obtain ⟨o, ho, -, hd⟩ := runSum_fine (f := fun _ => {}) hS c.seed before junk
    (fun x _ _ => serverFine_default _) (serverFine_default _).2.2 hfuel
  exact ⟨c, o, hc, ho, hd.1.trans ((subtreeTotal_eq hS _).symm.trans hx.symm)⟩

/-- Ranks 0 and 1 each asking while it serves the other. -/
def crossedCalls : List SumIn := [⟨0, 5⟩, ⟨1, 7⟩]

def crossedRun : List SumLabel :=
  [.invoke 0, .invoke 1, .issue ⟨0, []⟩ 0, .issue ⟨1, []⟩ 0, .start ⟨1, [0]⟩ 0, .start ⟨0, [0]⟩ 1,
    .respond ⟨1, [0]⟩, .respond ⟨0, [0]⟩, .arrive ⟨0, [0]⟩, .arrive ⟨1, [0]⟩, .collect ⟨0, []⟩ 0,
    .collect ⟨1, []⟩ 0, .ret 1, .ret 0]

theorem crossed_exact : ExactFor wrapInt 2 2 := exactFor_wrapInt two_pos.le le_rfl (by decide)

theorem concurrent_sums_isolated_two :
    ∃ s, Trace (SumStep wrapInt 2 crossedCalls) SumNet.start crossedRun s ∧
      s.result 0 = some 11 ∧ crossedRun.countP (startsOn 0 1) = 1 ∧
      (crossedRun.countP (requestOf 0) : ℤ) = 2 - 1 := by
  have hroots : ∀ c ∈ crossedCalls, 0 ≤ c.root ∧ c.root < 2 := by decide
  have hrun := of_foldlM (f := sumStep wrapInt 2 crossedCalls) (s := SumNet.start)
    (Eq.refl (crossedRun.foldlM (sumStep wrapInt 2 crossedCalls) SumNet.start))
  obtain ⟨c, hc, -, hstarts, hrequests, -⟩ :=
    concurrent_sums_isolated crossed_exact hroots hrun (i := 0) (x := 11) rfl
  obtain rfl : (⟨0, 5⟩ : SumIn) = c := Option.some.inj hc
  exact ⟨_, hrun, rfl, hstarts 1, hrequests⟩

/-! ## Progress -/

/-- Somewhere at or below an outstanding request that has not been answered there is a step
to take, and it is none of another call's invocation. -/
theorem NetInv.enabled (S : Sound arith n c.root 2) (hI : NetInv arith n calls s)
    (hv : v ∈ S.tree.nodes) :
    ∀ h : Handle, h.At arith n calls c v → (s.rpc h).level = 1 ∨ (s.rpc h).level = 2 →
      ∃ a u, SumStep arith n calls s a u ∧ ∀ i, a ≠ .invoke i := by
  refine S.tree.bottom_up hv ?_
  intro v hv ih h hat hlevel
  cases hI.server h c v hat with
  | after _ hr => rcases hr with hr | ⟨_, hr | hr⟩ <;> simp [hr, SumRpc.level] at hlevel
  | before _ hr _ =>
    rcases hr with hr | ⟨_, hr⟩
    · simp [hr, SumRpc.level] at hlevel
    · exact ⟨.start h v, _, sumStep_start.mpr ⟨c, hr, rfl⟩, by simp⟩
  | during F hF hr hok hdone hout hrest =>
    have htree : F.tree.children = kids arith n c v := congrArg RpcTree.children hok.tree
    by_cases hissue : F.issued < (kids arith n c v).length
    · have hdst : F.tree.children[F.issued]? = some (kids arith n c v)[F.issued] := by
        rw [htree]
        exact List.getElem?_eq_getElem hissue
      exact ⟨.issue h F.issued, _, sumStep_issue.mpr ⟨F, _, hF, hdst, rfl, rfl⟩, by simp⟩
    · have hall : F.issued = (kids arith n c v).length := by
        have := hok.issued_le
        omega
      by_cases hcollect : F.collected < F.issued
      · -- the request waited for is under way
        obtain ⟨w, hw⟩ : ∃ w, (kids arith n c v)[F.collected]? = some w :=
          ⟨_, List.getElem?_eq_getElem (hall ▸ hcollect)⟩
        have hatj := at_child_iff.mpr ⟨v, hat, hw⟩
        obtain ⟨h1, h4⟩ := hout F.collected hcollect le_rfl
        have hmem := List.mem_of_getElem? hw
        cases hj : s.rpc (h.child F.collected) with
        | unused => simp [hj, SumRpc.level] at h1
        | completed => simp [hj, SumRpc.level] at h4
        | sent => exact ih _ hmem _ hatj (by simp [hj, SumRpc.level])
        | running => exact ih _ hmem _ hatj (by simp [hj, SumRpc.level])
        | responded x => exact ⟨.arrive _, _, sumStep_arrive.mpr ⟨x, hj, rfl⟩, by simp⟩
        | arrived x =>
          exact ⟨.collect h F.collected, _,
            sumStep_collect.mpr ⟨F, x, hF, by rw [hall, htree], rfl, hj, rfl⟩, by simp⟩
      · have hD : F.Done := by
          have := hok.collected_le
          exact ⟨by rw [htree, hall], by rw [htree, ← hall]; omega⟩
        by_cases hp : h.path = []
        · obtain ⟨i, p⟩ := h
          obtain rfl : p = [] := hp
          exact ⟨.ret i, _, sumStep_ret.mpr ⟨F, hF, hD, rfl⟩, by simp⟩
        · exact ⟨.respond h, _, sumStep_respond.mpr ⟨F, hF, hp, hD, rfl⟩, by simp⟩

/-- A call without a result has not been made, or is running. -/
theorem NetInv.pending (hI : NetInv arith n calls s) (hc : calls[i]? = some c)
    (hnone : s.result i = none) : s.rpc ⟨i, []⟩ = .unused ∨ s.rpc ⟨i, []⟩ = .running := by
  have hat : (⟨i, []⟩ : Handle).At arith n calls c c.root := at_root hc
  cases hI.server _ _ _ hat with
  | before _ hr =>
    rcases hr with hr | ⟨hp, _⟩
    · exact Or.inl hr
    · exact absurd rfl hp
  | during _ _ hr => exact Or.inr hr
  | after _ hr =>
    rcases hr with hr | ⟨hp, _⟩
    · have := (hI.result i _).mpr ⟨_, hc, hr, rfl⟩
      simp [hnone] at this
    · exact absurd rfl hp

theorem NetInv.progress (S : ∀ c ∈ calls, Sound arith n c.root 2) (hI : NetInv arith n calls s)
    (hi : i < calls.length) (hnone : s.result i = none) : ∃ a u, SumStep arith n calls s a u := by
  have hc : calls[i]? = some calls[i] := List.getElem?_eq_getElem hi
  have hS := S _ (List.mem_of_getElem? hc)
  rcases hI.pending hc hnone with hr | hr
  · exact ⟨.invoke i, _, sumStep_invoke.mpr ⟨_, hc, hr, rfl⟩⟩
  · obtain ⟨a, u, hs, -⟩ := hI.enabled hS hS.tree.root_mem _ (at_root hc)
      (Or.inr (by simp [hr, SumRpc.level]))
    exact ⟨a, u, hs⟩

/-! ## The length of a run -/

/-- How far all handles are together. -/
noncomputable def totalLevel (arith : ℤ → ℤ) (n : ℤ) (calls : List SumIn) (s : SumNet) : ℕ :=
  ∑ q ∈ Finset.range calls.length ×ˢ Finset.Ico 0 n, (s.rpc (handleOf arith n calls q)).level

theorem sumRpc_level_le (r : SumRpc) : r.level ≤ 5 := by
  cases r <;> simp [SumRpc.level]

theorem totalLevel_step (S : ∀ c ∈ calls, Sound arith n c.root 2) (hI : NetInv arith n calls s)
    (hs : SumStep arith n calls s a u) :
    totalLevel arith n calls s < totalLevel arith n calls u := by
  have hm := sumStep_moves hI hs
  obtain ⟨c, v, hat⟩ := hm.at_target
  have hS := S c (List.mem_of_getElem? hat.1)
  have hlt : (s.rpc a.target).level < (u.rpc a.target).level := hm.after ▸ hm.before
  refine Finset.sum_lt_sum ?_ ⟨(a.target.call, v), ?_, ?_⟩
  · intro q _
    by_cases hq : handleOf arith n calls q = a.target
    · rw [hq]
      exact hlt.le
    · rw [hm.other _ hq]
  · rw [Finset.mem_product, Finset.mem_range]
    exact ⟨(List.getElem?_eq_some_iff.mp hat.1).1, hat.mem_nodes hS⟩
  · rw [handleOf_at hS hat]
    exact hlt

/-- No run is longer than five steps for each rank and call. -/
theorem sum_trace_length_le (S : ∀ c ∈ calls, Sound arith n c.root 2)
    (hrun : Trace (SumStep arith n calls) SumNet.start xs s) :
    xs.length ≤ calls.length * n.toNat * 5 := by
  have hle : xs.length ≤ totalLevel arith n calls s :=
    length_le_measure netInv_start (fun _ _ _ hI hs => netInv_step S hI hs)
      (fun _ _ _ hI hs => totalLevel_step S hI hs) hrun
  have hsum := Finset.sum_le_card_nsmul (Finset.range calls.length ×ˢ Finset.Ico 0 n)
    (fun q => (s.rpc (handleOf arith n calls q)).level) 5 fun q _ => sumRpc_level_le _
  rw [Finset.card_product, Finset.card_range, Int.card_Ico, sub_zero, smul_eq_mul] at hsum
  exact hle.trans hsum

/-- Concurrent sums neither block nor go on forever: as long as a call has not returned some
step is possible, runs are bounded, and where one ends all calls have returned, no handler is
left and no message in flight. -/
theorem concurrent_sums_terminate {arith : ℤ → ℤ} {n : ℤ} {calls : List SumIn}
    (hexact : ExactFor arith n 2) (hroots : ∀ c ∈ calls, 0 ≤ c.root ∧ c.root < n)
    {xs : List SumLabel} {s : SumNet}
    (hrun : Trace (SumStep arith n calls) SumNet.start xs s) :
    ((∃ i < calls.length, s.result i = none) → ∃ a u, SumStep arith n calls s a u) ∧
    xs.length ≤ calls.length * n.toNat * 5 ∧
    (Terminal (SumStep arith n calls) s →
      (∀ i < calls.length, ∃ x, s.result i = some x) ∧
      ∀ h, s.frame h = none ∧ (s.rpc h = .unused ∨ s.rpc h = .completed)) ∧
    ¬ ∃ (f : ℕ → SumNet) (l : ℕ → SumLabel),
      f 0 = SumNet.start ∧ ∀ i, SumStep arith n calls (f i) (l i) (f (i + 1)) := by
  have S := sound_of_exact hexact hroots
  have hI := (historyInv_trace S hrun).net
  refine ⟨?_, sum_trace_length_le S hrun, ?_,
    not_infinite fun xs t ht => sum_trace_length_le S ht⟩
  · rintro ⟨i, hi, hnone⟩
    exact hI.progress S hi hnone
  · intro hT
    have hall : ∀ i < calls.length, ∃ x, s.result i = some x := by
      intro i hi
      by_contra hno
      have hnone : s.result i = none := Option.eq_none_iff_forall_ne_some.mpr (by simpa using hno)
      obtain ⟨a, u, hs⟩ := hI.progress S hi hnone
      exact hT a u hs
    refine ⟨hall, ?_⟩
    intro h
    by_cases hat : ∃ c v, h.At arith n calls c v
    · obtain ⟨c, v, hat⟩ := hat
      obtain ⟨x, hx⟩ := hall h.call (List.getElem?_eq_some_iff.mp hat.1).1
      obtain ⟨-, -, hroot, -⟩ := (hI.result _ _).mp hx
      have hcomp : s.rpc h = .completed := hI.completed hroot (p := h.path) hat
      cases hI.server h c v hat with
      | before hf => exact ⟨hf, Or.inr hcomp⟩
      | during _ _ hr => simp [hr] at hcomp
      | after hf => exact ⟨hf, Or.inr hcomp⟩
    · simp only [not_exists] at hat
      obtain ⟨hr, hf⟩ := hI.elsewhere h hat
      exact ⟨hf, Or.inl hr⟩

theorem concurrent_sums_terminate_two :
    (∃ a u, SumStep wrapInt 2 crossedCalls SumNet.start a u) ∧
    ∃ s, Trace (SumStep wrapInt 2 crossedCalls) SumNet.start crossedRun s ∧
      crossedRun.length ≤ crossedCalls.length * 2 * 5 := by
  have hroots : ∀ c ∈ crossedCalls, 0 ≤ c.root ∧ c.root < 2 := by decide
  have hrun := of_foldlM (f := sumStep wrapInt 2 crossedCalls) (s := SumNet.start)
    (Eq.refl (crossedRun.foldlM (sumStep wrapInt 2 crossedCalls) SumNet.start))
  exact ⟨(concurrent_sums_terminate crossed_exact hroots .refl).1 ⟨0, by decide, rfl⟩,
    _, hrun, (concurrent_sums_terminate crossed_exact hroots hrun).2.1⟩

end Metasim
