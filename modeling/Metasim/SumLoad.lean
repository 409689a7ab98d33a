import Metasim.Answered
import Metasim.SumNetRuns

/-! What the sums of all roots together ask of one rank. -/
namespace Metasim

open Transition

variable {arith : ℤ → ℤ} {n k r root : ℤ}

/-! ## One rank in the trees of all roots -/

/-- Seen from a rank, roots and distances mirror each other. -/
theorem dist_dist (_ : 0 ≤ r ∧ r < n) (hroot : 0 ≤ root ∧ root < n) :
    dist n (dist n root r) r = root := by
  unfold dist
  split_ifs <;> omega

theorem sum_over_roots {M : Type} [AddCommMonoid M] (hr : 0 ≤ r ∧ r < n) (f : ℤ → M) :
    ∑ root ∈ Finset.Ico 0 n, f (dist n root r) = ∑ d ∈ Finset.Ico 0 n, f d := by
  have hmem : ∀ x ∈ Finset.Ico 0 n, dist n x r ∈ Finset.Ico 0 n := by
    intro x hx
    have hx := Finset.mem_Ico.mp hx
    exact Finset.mem_Ico.mpr ⟨dist_nonneg hr.1 hx.2, dist_lt hr.2 hx.1⟩
  refine Finset.sum_nbij' (fun root => dist n root r) (fun d => dist n d r) hmem hmem ?_ ?_ ?_
  · intro root hroot
    exact dist_dist hr (Finset.mem_Ico.mp hroot)
  · intro d hd
    exact dist_dist hr (Finset.mem_Ico.mp hd)
  · intro _ _
    rfl

theorem card_roots (hr : 0 ≤ r ∧ r < n) (p : ℤ → Prop) [DecidablePred p] :
    {root ∈ Finset.Ico 0 n | p (dist n root r)}.card = {d ∈ Finset.Ico 0 n | p d}.card := by
  rw [Finset.card_filter, Finset.card_filter]
  exact sum_over_roots hr fun d => if p d then 1 else 0

theorem sum_rankList (f : ℤ → ℤ) : ((rankList n).map f).sum = ∑ x ∈ Finset.Ico 0 n, f x := by
  rw [← List.sum_toFinset f (rankList_nodup n)]
  refine Finset.sum_congr ?_ fun _ _ => rfl
  ext x
  rw [List.mem_toFinset, mem_rankList, Finset.mem_Ico]

theorem length_rankList_erase (hroot : 0 ≤ root ∧ root < n) :
    (((rankList n).erase root).length : ℤ) = n - 1 := by
  rw [List.length_erase_of_mem (mem_rankList.mpr hroot), rankList, List.length_map,
    List.length_range]
  omega

/-- Every number from 1 on is the number of one child. -/
theorem sum_childNumber (hn : 1 ≤ n) (hk : 1 ≤ k) :
    ∑ d ∈ Finset.Ico 0 n, childNumber n k d = n - 1 := by
  have S := sound_id le_rfl (show (0 : ℤ) < n by omega) hk
  have hlen := congrArg (Nat.cast (R := ℤ)) S.oneTree.children_perm.length_eq
  rw [length_rankList_erase ⟨le_rfl, by omega⟩, List.length_flatMap] at hlen
  rw [← hlen, Nat.cast_list_sum, List.map_map, ← sum_rankList]
  refine congrArg List.sum (List.map_congr_left fun x hx => ?_)
  have hx := mem_rankList.mp hx
  have hdist : dist n 0 x = x := by
    unfold dist
    split_ifs <;> omega
  rw [Function.comp_apply, S.length_children hx.1 hx.2, S.childCount_eq hx.1 hx.2, hdist]

theorem childNumber_pos_iff {d : ℤ} (hk : 1 ≤ k) : 0 < childNumber n k d ↔ d * k + 1 < n := by
  rw [lt_childNumber_iff le_rfl]
  omega

/-- The inner numbers come first. -/
theorem card_inner (hn : 1 ≤ n) (hk : 1 ≤ k) :
    ({d ∈ Finset.Ico 0 n | 0 < childNumber n k d}.card : ℤ) = ⌈((n : ℚ) - 1) / k⌉ := by
  have hkq : (0 : ℚ) < k := by exact_mod_cast hk
  have hlt : ∀ d : ℤ, d < ⌈((n : ℚ) - 1) / k⌉ ↔ d * k + 1 < n := by
    intro d
    rw [Int.lt_ceil, lt_div_iff₀ hkq, lt_sub_iff_add_lt]
    exact_mod_cast Iff.rfl
  have hset : {d ∈ Finset.Ico 0 n | 0 < childNumber n k d} =
      Finset.Ico 0 ⌈((n : ℚ) - 1) / k⌉ := by
    ext d
    rw [Finset.mem_filter, Finset.mem_Ico, Finset.mem_Ico, childNumber_pos_iff hk, hlt]
    constructor
    · rintro ⟨⟨h0, -⟩, h⟩
      exact ⟨h0, h⟩
    · rintro ⟨h0, h⟩
      have hle : d ≤ d * k := le_mul_of_one_le_right h0 hk
      exact ⟨⟨h0, by omega⟩, h⟩
  have hnonneg : 0 ≤ ⌈((n : ℚ) - 1) / k⌉ := by
    refine Int.ceil_nonneg (div_nonneg ?_ hkq.le)
    rw [sub_nonneg]
    exact_mod_cast hn
  rw [hset, Int.card_Ico, sub_zero, Int.toNat_of_nonneg hnonneg]

section Roots

variable (hexact : ExactFor arith n k) (hr : 0 ≤ r ∧ r < n) (hk : 1 ≤ k)
include hexact hr hk

theorem childCount_over_roots :
    ∑ root ∈ Finset.Ico 0 n, (localTree arith n root k r).childCount = n - 1 := by
  rw [← sum_childNumber (by omega) hk, ← sum_over_roots hr fun d => childNumber n k d]
  refine Finset.sum_congr rfl fun root hroot => ?_
  have hroot := Finset.mem_Ico.mp hroot
  exact (Sound.mk hroot.1 hroot.2 hk hexact).childCount_eq hr.1 hr.2

theorem card_interior :
    ({root ∈ Finset.Ico 0 n | 0 < (localTree arith n root k r).childCount}.card : ℤ) =
      ⌈((n : ℚ) - 1) / k⌉ := by
  rw [← card_inner (by omega) hk, ← card_roots hr fun d => 0 < childNumber n k d]
  refine congrArg (fun s : Finset ℤ => (s.card : ℤ)) (Finset.filter_congr fun root hroot => ?_)
  have hroot := Finset.mem_Ico.mp hroot
  rw [(Sound.mk hroot.1 hroot.2 hk hexact).childCount_eq hr.1 hr.2]

/-- In each tree but its own a rank is the child of one other. -/
theorem count_children (hroot : 0 ≤ root ∧ root < n) :
    ∑ p ∈ Finset.Ico 0 n, ((localTree arith n root k p).children.count r : ℤ) =
      if root = r then 0 else 1 := by
  have S : Sound arith n root k := ⟨hroot.1, hroot.2, hk, hexact⟩
  have hcount := congrArg (Nat.cast (R := ℤ)) (S.oneTree.children_perm.count_eq r)
  rw [List.count_flatMap, Nat.cast_list_sum, List.map_map, sum_rankList] at hcount
  refine hcount.trans ?_
  split_ifs with h
  · rw [h, List.count_eq_zero_of_not_mem (List.Nodup.not_mem_erase (rankList_nodup n))]
    rfl
  · rw [List.count_erase_of_ne (Ne.symm h),
      List.count_eq_one_of_mem (rankList_nodup n) (mem_rankList.mpr hr)]
    rfl

theorem requests_over_roots : ∑ root ∈ Finset.Ico 0 n, ∑ p ∈ Finset.Ico 0 n,
    ((localTree arith n root k p).children.count r : ℤ) = n - 1 := by
  have hsum : ∀ root ∈ Finset.Ico 0 n, ∑ p ∈ Finset.Ico 0 n,
      ((localTree arith n root k p).children.count r : ℤ) = 1 - if root = r then 1 else 0 := by
    intro root hroot
    rw [count_children hexact hr hk (Finset.mem_Ico.mp hroot)]
    split_ifs <;> rfl
  rw [Finset.sum_congr rfl hsum, Finset.sum_sub_distrib, Finset.sum_ite_eq',
    if_pos (Finset.mem_Ico.mpr hr)]
  simp
  omega

end Roots

/-! ## `sum_forward` for the sums of all roots -/

def MargoCall.isForward : MargoCall → Bool
  | .iforward _ => true
  | _ => false

def MargoCall.isWait : MargoCall → Bool
  | .wait _ => true
  | _ => false

/-- The run of `sum_forward` at rank `r` for the sum of `root`, over a tree of degree `k`. -/
def forwardFor (arith : ℤ → ℤ) (n k r : ℤ) (f : ℤ → SumCalls) (junk : ℤ → Junk) (seed : ℤ → ℤ)
    (answer : ℤ → ℤ → Option SumOut) (root : ℤ) : Option Forwarded :=
  sumForward r (f root) (junk root) (localTree arith n root k r) ⟨root, seed root⟩
    ((localTree arith n root k r).children.map (answer root))

section Forward

variable {f : SumCalls} {j : Junk} {t : RpcTree} {x : SumIn} {b : SumOut} {s : Forwarded}

/-- A server without children returns at once. -/
theorem sumForward_waits {answers : List (Option SumOut)}
    (hs : sumForward r f j t x answers = some s) (hwait : s.calls.any MargoCall.isWait) :
    t.childCount ≠ 0 := by
  intro hc
  rw [sumForward, if_pos hc] at hs
  obtain rfl := Option.some.inj hs
  simp at hwait

theorem issueRequests_forwards (cs : List ℤ) :
    (issueRequests {} cs).2.countP MargoCall.isForward = cs.length := by
  induction cs with
  | nil => rfl
  | cons c cs ih => simp [issueRequests, List.countP_cons, MargoCall.isForward, ih]

theorem collectReplies_forwards {l : List (ℤ × Option SumOut)}
    (hs : collectReplies f j l b = some s) : s.calls.countP MargoCall.isForward = 0 := by
  rw [List.countP_eq_zero]
  intro call hcall
  obtain ⟨c, rfl | rfl | rfl | rfl⟩ := mem_collectReplies hs hcall <;> simp [MargoCall.isForward]

theorem collectReplies_waits {l : List (ℤ × Option SumOut)} (hl : l ≠ [])
    (hs : collectReplies f j l b = some s) : s.calls.any MargoCall.isWait := by
  obtain ⟨p, l, rfl⟩ := List.exists_cons_of_ne_nil hl
  rcases collectReplies_cases hs with ⟨_, rfl⟩ | ⟨_, _, _, _, _, rfl⟩ <;> rfl

/-- Where no call fails there is one request for each child, and a wait if there is one. -/
theorem sumForward_load {g : ℤ → Option SumOut} (ht : (t.children.length : ℤ) = t.childCount)
    (hs : sumForward r {} j t x (t.children.map g) = some s) :
    (s.calls.countP MargoCall.isForward : ℤ) = t.childCount ∧
      (t.childCount ≠ 0 → s.calls.any MargoCall.isWait) := by
  rcases sumForward_cases hs with
    ⟨hc, rfl⟩ | ⟨_, hcalloc, _⟩ | ⟨_, _, hfail, _⟩ | ⟨hc, _, _, s', hs', rfl⟩
  · exact ⟨hc.symm, fun h => absurd hc h⟩
  · cases hcalloc
  · exact absurd ((issueRequests_ret {} t.children).mpr fun _ _ => ⟨rfl, rfl⟩) hfail
  · constructor
    · rw [List.countP_append, List.countP_append, List.countP_cons, issueRequests_forwards,
        collectReplies_forwards hs', ← ht]
      simp [MargoCall.isForward]
    · intro _
      have hne : t.children.zip (t.children.map g) ≠ [] := by
        rw [zip_answers]
        intro hnil
        rw [List.map_eq_nil_iff.mp hnil] at ht
        exact hc ht.symm
      simp [List.any_append, collectReplies_waits hne hs']

end Forward

section Out

variable {f : ℤ → SumCalls} {junk : ℤ → Junk} {seed : ℤ → ℤ} {answer : ℤ → ℤ → Option SumOut}
  {out : ℤ → Forwarded} (hexact : ExactFor arith n k) (hr : 0 ≤ r ∧ r < n) (hk : 1 ≤ k)
  (hout : ∀ root, 0 ≤ root ∧ root < n →
    forwardFor arith n k r f junk seed answer root = some (out root))
include hexact hr hk hout

theorem card_waits_le :
    ({root ∈ Finset.Ico 0 n | (out root).calls.any MargoCall.isWait}.card : ℤ) ≤
      ⌈((n : ℚ) - 1) / k⌉ := by
  have hsub : {root ∈ Finset.Ico 0 n | (out root).calls.any MargoCall.isWait} ⊆
      {root ∈ Finset.Ico 0 n | 0 < (localTree arith n root k r).childCount} := by
    intro root h
    obtain ⟨hmem, hwait⟩ := Finset.mem_filter.mp h
    have hroot := Finset.mem_Ico.mp hmem
    have hne := sumForward_waits (hout root hroot) hwait
    have S : Sound arith n root k := ⟨hroot.1, hroot.2, hk, hexact⟩
    have hnonneg := S.oneTree.childCount_nonneg r hr
    exact Finset.mem_filter.mpr ⟨hmem, by omega⟩
  rw [← card_interior hexact hr hk]
  exact_mod_cast Finset.card_le_card hsub

/-- Where no call fails, `sum_forward` does what the trees ask of it. -/
theorem forwards_of_fine (hf : ∀ root, f root = {}) :
    ∑ root ∈ Finset.Ico 0 n, ((out root).calls.countP MargoCall.isForward : ℤ) = n - 1 ∧
      ({root ∈ Finset.Ico 0 n | (out root).calls.any MargoCall.isWait}.card : ℤ) =
        ⌈((n : ℚ) - 1) / k⌉ := by
  have hload : ∀ root ∈ Finset.Ico 0 n,
      ((out root).calls.countP MargoCall.isForward : ℤ) =
          (localTree arith n root k r).childCount ∧
        ((localTree arith n root k r).childCount ≠ 0 →
          (out root).calls.any MargoCall.isWait) := by
    intro root h
    have hroot := Finset.mem_Ico.mp h
    have hs := hout root hroot
    rw [forwardFor, hf] at hs
    have S : Sound arith n root k := ⟨hroot.1, hroot.2, hk, hexact⟩
    exact sumForward_load (S.oneTree.length_eq r hr) hs
  constructor
  · rw [← childCount_over_roots hexact hr hk]
    exact Finset.sum_congr rfl fun root h => (hload root h).1
  · refine le_antisymm (card_waits_le hexact hr hk hout) ?_
    rw [← card_interior hexact hr hk]
    refine Int.ofNat_le.mpr (Finset.card_le_card fun root h => ?_)
    obtain ⟨hmem, hpos⟩ := Finset.mem_filter.mp h
    exact Finset.mem_filter.mpr ⟨hmem, (hload root hmem).2 hpos.ne'⟩

end Out

/-! ## Threads of several sums on one rank -/

/-- A thread of rank `r` still has an answer to wait for. -/
def Blocked (s : SumNet) (r : ℤ) (h : Handle) : Prop :=
  ∃ F, s.frame h = some F ∧ F.rank = r ∧ F.collected < F.tree.children.length

/-- No rank has two sums outstanding. -/
def OneOutstanding (calls : List SumIn) (s : SumNet) : Prop :=
  ∀ i j c d, calls[i]? = some c → calls[j]? = some d → s.rpc ⟨i, []⟩ = .running →
    s.rpc ⟨j, []⟩ = .running → c.root = d.root → i = j

section Net

variable {calls : List SumIn} {s : SumNet} {h g : Handle} {F : SumFrame}

/-- A call has threads only while it is outstanding itself. -/
theorem NetInv.outstanding_of_frame (hI : NetInv arith n calls s) (hF : s.frame h = some F) :
    s.rpc ⟨h.call, []⟩ = .running := by
  obtain ⟨i, p⟩ := h
  induction p generalizing F with
  | nil =>
    obtain ⟨c, v, -, hrun, -⟩ := hI.running hF
    exact hrun
  | cons j p ih =>
    obtain ⟨c, w, hat, hrun, -⟩ := hI.running hF
    obtain ⟨v, hatv, hj⟩ := (at_child_iff (h := ⟨i, p⟩)).mp hat
    have hlt := (List.getElem?_eq_some_iff.mp hj).1
    cases hI.server _ _ _ hatv with
    | before _ _ hk => exact absurd (hrun.symm.trans (hk j hlt)) (by simp)
    | during G hG => exact ih hG
    | after _ _ hk => exact absurd (hrun.symm.trans (hk j hlt)) (by simp)

/-- A blocked thread serves a sum in whose tree the rank has children. -/
theorem NetInv.blocked (S : ∀ c ∈ calls, Sound arith n c.root 2) (hI : NetInv arith n calls s)
    (hb : Blocked s r h) : ∃ c, h.At arith n calls c r ∧ (0 ≤ c.root ∧ c.root < n) ∧
      s.rpc ⟨h.call, []⟩ = .running ∧ 0 < (localTree arith n c.root 2 r).childCount := by
  obtain ⟨F, hF, hrank, hlt⟩ := hb
  obtain ⟨c, v, hat, -, hok, -⟩ := hI.running hF
  obtain rfl : v = r := hok.rank.symm.trans hrank
  have hS := S c (List.mem_of_getElem? hat.1)
  have hv := Finset.mem_Ico.mp (hat.mem_nodes hS)
  have hlen := hS.length_children hv.1 hv.2
  rw [hok.tree] at hlt
  exact ⟨c, hat, ⟨hS.root_nonneg, hS.root_lt⟩, hI.outstanding_of_frame hF, by omega⟩

theorem oneOutstanding_of_nodup (h : (calls.map SumIn.root).Nodup) (s : SumNet) :
    OneOutstanding calls s := by
  intro i j c d hi hj _ _ heq
  have hlt : i < (calls.map SumIn.root).length := by
    rw [List.length_map]
    exact (List.getElem?_eq_some_iff.mp hi).1
  refine (List.getElem?_inj hlt h).mp ?_
  rw [List.getElem?_map, List.getElem?_map, hi, hj, Option.map_some, Option.map_some, heq]

/-- Blocked threads of one rank serve sums of different roots. -/
theorem card_blocked_le (S : ∀ c ∈ calls, Sound arith n c.root 2) (hI : NetInv arith n calls s)
    (hone : OneOutstanding calls s) (H : Finset Handle) (hH : ∀ h ∈ H, Blocked s r h) :
    H.card ≤ {root ∈ Finset.Ico 0 n | 0 < (localTree arith n root 2 r).childCount}.card := by
  have hroot : ∀ h : Handle, ∃ root, h ∈ H → ∃ c, c.root = root ∧ h.At arith n calls c r ∧
      (0 ≤ root ∧ root < n) ∧ s.rpc ⟨h.call, []⟩ = .running ∧
      0 < (localTree arith n root 2 r).childCount := by
    intro h
    by_cases hh : h ∈ H
    · obtain ⟨c, hc⟩ := hI.blocked S (hH h hh)
      exact ⟨c.root, fun _ => ⟨c, rfl, hc⟩⟩
    · exact ⟨0, fun hmem => absurd hmem hh⟩
  choose root hroot using hroot
  refine Finset.card_le_card_of_injOn root ?_ ?_
  · intro h hh
    obtain ⟨_, -, -, hmem, -, hpos⟩ := hroot h hh
    exact Finset.mem_coe.mpr (Finset.mem_filter.mpr ⟨Finset.mem_Ico.mpr hmem, hpos⟩)
  · intro h hh g hg heq
    obtain ⟨c, hc, hat, -, hrun, -⟩ := hroot h hh
    obtain ⟨d, hd, hatg, -, hrung, -⟩ := hroot g hg
    have hcall : h.call = g.call :=
      hone _ _ c d hat.1 hatg.1 hrun hrung (hc.trans (heq.trans hd.symm))
    obtain rfl := Option.some.inj (hat.1.symm.trans (hcall ▸ hatg.1))
    exact at_injective (S c (List.mem_of_getElem? hat.1)) hat hatg hcall

end Net

/-- Over the sums of all roots every rank sends and answers `n - 1` requests and has children in
`⌈(n - 1) / k⌉` of the trees; `sum_forward` returns where the children answer and waits in no more
of the trees, and while each rank has one sum outstanding no rank has more threads that wait for
children. -/
theorem uniform_load {arith : ℤ → ℤ} {n k r : ℤ} (hexact : ExactFor arith n k)
    (hr : 0 ≤ r ∧ r < n) (hk : 1 ≤ k) :
    ∑ root ∈ Finset.Ico 0 n, (metasimRpcTreeInit arith true r n root k).2.childCount = n - 1 ∧
    ∑ root ∈ Finset.Ico 0 n, ∑ p ∈ Finset.Ico 0 n,
      ((metasimRpcTreeInit arith true p n root k).2.children.count r : ℤ) = n - 1 ∧
    ({root ∈ Finset.Ico 0 n |
      0 < (metasimRpcTreeInit arith true r n root k).2.childCount}.card : ℤ) =
        ⌈((n : ℚ) - 1) / k⌉ ∧
    (∀ f junk seed answer,
      (∀ root, 0 ≤ root ∧ root < n →
        (∀ c ∈ sent (f root) (localTree arith n root k r).children, answer root c ≠ none) →
        ∃ out, forwardFor arith n k r f junk seed answer root = some out) ∧
      ∀ out : ℤ → Forwarded, (∀ root, 0 ≤ root ∧ root < n →
        forwardFor arith n k r f junk seed answer root = some (out root)) →
      ({root ∈ Finset.Ico 0 n | (out root).calls.any MargoCall.isWait}.card : ℤ) ≤
        ⌈((n : ℚ) - 1) / k⌉ ∧
      ((∀ root, f root = {}) →
        ∑ root ∈ Finset.Ico 0 n, ((out root).calls.countP MargoCall.isForward : ℤ) = n - 1 ∧
        ({root ∈ Finset.Ico 0 n | (out root).calls.any MargoCall.isWait}.card : ℤ) =
          ⌈((n : ℚ) - 1) / k⌉)) ∧
    ∀ calls : List SumIn, (∀ c ∈ calls, 0 ≤ c.root ∧ c.root < n) → ∀ xs s,
      Trace (SumStep arith n calls) SumNet.start xs s → OneOutstanding calls s →
      ∀ H : Finset Handle, (∀ h ∈ H, Blocked s r h) → (H.card : ℤ) ≤ ⌈((n : ℚ) - 1) / 2⌉ := by
  refine ⟨childCount_over_roots hexact hr hk, requests_over_roots hexact hr hk,
    card_interior hexact hr hk, ?_, ?_⟩
  · intro f junk seed answer
    refine ⟨fun root hroot hanswer => ?_, fun out hout => ?_⟩
    · have S : Sound arith n root k := ⟨hroot.1, hroot.2, hk, hexact⟩
      exact sumForward_returns (S.childCount_zero_iff hr.1 hr.2) hanswer
    · exact ⟨card_waits_le hexact hr hk hout, forwards_of_fine hexact hr hk hout⟩
  · intro calls hroots xs s hrun hone H hH
    have S := sound_of_exact hexact.two hroots
    have hcard := card_blocked_le S (historyInv_trace S hrun).net hone H hH
    have hceil := card_interior hexact.two hr one_le_two
    push_cast at hceil
    omega

/-- Rank 3 of five has children in two of the five trees and waits in these. Of two servers that
ask each other, rank 0 waits in one thread. -/
theorem uniform_load_five :
    ∑ root ∈ Finset.Ico 0 5, (metasimRpcTreeInit wrapInt true 3 5 root 2).2.childCount = 4 ∧
    {root ∈ Finset.Ico 0 5 |
      0 < (metasimRpcTreeInit wrapInt true 3 5 root 2).2.childCount}.card = 2 ∧
    (∃ out : ℤ → Forwarded, (∀ root, 0 ≤ root ∧ root < 5 → forwardFor wrapInt 5 2 3 (fun _ => {})
        (fun _ => zeroJunk) (fun _ => 0) (fun _ _ => some ⟨0, []⟩) root = some (out root)) ∧
      ∑ root ∈ Finset.Ico 0 5, ((out root).calls.countP MargoCall.isForward : ℤ) = 4 ∧
      {root ∈ Finset.Ico (0 : ℤ) 5 | (out root).calls.any MargoCall.isWait}.card = 2) ∧
    ∃ s, Trace (SumStep wrapInt 2 crossedCalls) SumNet.start (crossedRun.take 6) s ∧
      Blocked s 0 ⟨0, []⟩ ∧ ∀ H : Finset Handle, (∀ h ∈ H, Blocked s 0 h) → H.card ≤ 1 := by
  have hexact := exactFor_wrapInt (n := 5) (k := 2) (by decide) le_rfl (by decide)
  obtain ⟨hsum, -, hcard, hforward, -⟩ := uniform_load (r := 3) hexact (by decide) (by decide)
  obtain ⟨-, -, -, -, hnet⟩ := uniform_load (r := 0) crossed_exact (by decide) (by decide)
  have hrun := of_foldlM (f := sumStep wrapInt 2 crossedCalls) (s := SumNet.start)
    (Eq.refl ((crossedRun.take 6).foldlM (sumStep wrapInt 2 crossedCalls) SumNet.start))
  have hceil : ⌈(((5 : ℤ) : ℚ) - 1) / ((2 : ℤ) : ℚ)⌉ = 2 := by norm_num
  refine ⟨hsum, ?_, ?_, _, hrun, ⟨_, rfl, rfl, by decide⟩, fun H hH => ?_⟩
  · exact_mod_cast hcard.trans hceil
  · obtain ⟨hreturn, hload⟩ := hforward (fun _ => {}) (fun _ => zeroJunk) (fun _ => 0)
      fun _ _ => some ⟨0, []⟩
    have : Nonempty Forwarded := ⟨⟨0, ⟨0, []⟩, []⟩⟩
    choose! out hout using fun root hroot => hreturn root hroot (by simp)
    obtain ⟨-, hfine⟩ := hload out hout
    obtain ⟨hrequests, hwaits⟩ := hfine fun _ => rfl
    exact ⟨out, hout, hrequests, by exact_mod_cast hwaits.trans hceil⟩
  · have h := hnet crossedCalls (by decide) _ _ hrun (oneOutstanding_of_nodup (by decide) _) H hH
    norm_num at h
    exact_mod_cast h

end Metasim
