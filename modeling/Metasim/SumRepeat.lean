import Metasim.Sum
import Mathlib.Data.Int.Bitwise

/-! The listener's sums for its clients: one sum, and one followed by `repeat` measured sums. The
clock and `elapsed_usec` are left out. -/
namespace Metasim

/-- What one invocation meets: the results of its calls, and what the children answer. -/
structure SumEnv where
  calls : SumCalls := {}
  junk : Junk
  answers : List (Option SumOut)

/-- Where the value of `sum` comes from; not in the source. -/
inductive SumOrigin
  | initial
  | total (i : ℕ)
  | failure
deriving Repr, DecidableEq

/-- `ret` and `sum` of a handler, with the invocations made so far. -/
structure SumReply where
  ret : ℤ
  sum : ℤ
  origin : SumOrigin
  invoked : List Invoked
deriving Repr, DecidableEq

/-- The variables as they are declared. -/
def SumReply.initial : SumReply := { ret := 0, sum := 0, origin := .initial, invoked := [] }

/-- `metasim_rpc_invoke_sum(seed, &sum)`: the code, and the variables with `sum` as it is left. -/
def SumReply.invoke (arith : ℤ → ℤ) (n rank seed : ℤ) (env : ℕ → SumEnv) (s : SumReply) :
    Option (ℤ × SumReply) := do
  let e := env s.invoked.length
  let r ← metasimRpcInvokeSum arith n rank e.calls e.junk seed s.sum e.answers
  return (r.ret, { s with
    sum := r.sum
    origin := if r.ret = 0 then .total s.invoked.length else s.origin
    invoked := s.invoked ++ [r] })

/-- `if (ret) sum = -1;` -/
def SumReply.checkRet (s : SumReply) : SumReply :=
  if s.ret ≠ 0 then { s with sum := -1, origin := .failure } else s

/-- `metasim_listener_handle_sum` -/
def metasimListenerHandleSum (arith : ℤ → ℤ) (n rank seed : ℤ) (env : ℕ → SumEnv) :
    Option SumReply := do
  let (ret, s) ← SumReply.initial.invoke arith n rank seed env
  return { s with ret }.checkRet

/-- `for (; i < repeat; i++) ret |= metasim_rpc_invoke_sum(seed, &sum);` -/
def repeatLoop (arith : ℤ → ℤ) (n rank seed : ℤ) (env : ℕ → SumEnv) (i count : ℤ) (s : SumReply) :
    Option SumReply :=
  if i < count then do
    let (ret, s) ← s.invoke arith n rank seed env
    repeatLoop arith n rank seed env (i + 1) count { s with ret := Int.lor s.ret ret }
  else some s
termination_by (count - i).toNat
decreasing_by omega

/-- `metasim_listener_handle_sumrepeat`; `count` is `repeat`. -/
def metasimListenerHandleSumrepeat (arith : ℤ → ℤ) (n rank seed count : ℤ) (env : ℕ → SumEnv) :
    Option SumReply := do
  let (ret, s) ← SumReply.initial.invoke arith n rank seed env
  let s := { s with ret }.checkRet
  let s ← repeatLoop arith n rank seed env 0 count { s with ret := 0 }
  return s.checkRet

/-! ## One invocation -/

variable {arith : ℤ → ℤ} {n rank seed count i : ℤ} {env : ℕ → SumEnv} {s t : SumReply} {ret : ℤ}

theorem lor_eq_zero_iff (a b : ℤ) : Int.lor a b = 0 ↔ a = 0 ∧ b = 0 := by
  cases a <;> cases b <;> simp [Int.lor, Nat.or_eq_zero_iff]

/-- A successful invocation replaces the sum, a failed one keeps it. -/
theorem invoke_cases (h : s.invoke arith n rank seed env = some (ret, t)) :
    ∃ r : Invoked, r.ret = ret ∧ t.ret = s.ret ∧ t.invoked = s.invoked ++ [r] ∧
      ((ret = 0 ∧ t.origin = .total s.invoked.length ∧ t.sum = r.sum) ∨
        (ret ≠ 0 ∧ t.origin = s.origin ∧ t.sum = s.sum)) := by
  obtain ⟨r, hr, ht⟩ := Option.bind_eq_some_iff.mp h
  obtain ⟨f, -, hf⟩ := Option.bind_eq_some_iff.mp hr
  cases hf
  cases ht
  refine ⟨_, rfl, rfl, rfl, ?_⟩
  by_cases h0 : f.ret = 0
  · exact Or.inl ⟨h0, if_pos h0, rfl⟩
  · exact Or.inr ⟨h0, if_neg h0, if_pos h0⟩

/-- The sum is what its origin says. -/
structure SumReply.Ok (s : SumReply) : Prop where
  total : ∀ k, s.origin = .total k → ∃ r, s.invoked[k]? = some r ∧ r.ret = 0 ∧ s.sum = r.sum
  failure : s.origin = .failure → s.sum = -1 ∧ ∃ r ∈ s.invoked, r.ret ≠ 0

theorem ok_initial : SumReply.initial.Ok := by
  constructor
  · intro k h
    cases h
  · intro h
    cases h

theorem SumReply.Ok.withRet (h : s.Ok) (x : ℤ) : SumReply.Ok { s with ret := x } :=
  ⟨h.total, h.failure⟩

theorem SumReply.Ok.invoke (hs : s.Ok) (h : s.invoke arith n rank seed env = some (ret, t)) :
    t.Ok := by
  obtain ⟨r, hret, -, hinvoked, hcases⟩ := invoke_cases h
  rcases hcases with ⟨h0, horigin, hsum⟩ | ⟨-, horigin, hsum⟩
  · constructor
    · intro k hk
      obtain rfl := SumOrigin.total.inj (horigin.symm.trans hk)
      exact ⟨r, by simp [hinvoked], hret.trans h0, hsum⟩
    · intro hf
      simp [horigin] at hf
  · constructor
    · intro k hk
      obtain ⟨r', hr', h0, hsum'⟩ := hs.total k (horigin.symm.trans hk)
      refine ⟨r', ?_, h0, hsum.trans hsum'⟩
      rw [hinvoked, List.getElem?_append_left (List.getElem?_eq_some_iff.mp hr').1, hr']
    · intro hf
      obtain ⟨hsum', r', hr', hne⟩ := hs.failure (horigin.symm.trans hf)
      exact ⟨hsum.trans hsum', r', by simp [hinvoked, hr'], hne⟩

theorem SumReply.Ok.checkRet (hs : s.Ok) (hret : s.ret ≠ 0 → ∃ r ∈ s.invoked, r.ret ≠ 0) :
    s.checkRet.Ok := by
  unfold SumReply.checkRet
  split_ifs with h
  · constructor
    · intro k hk
      cases hk
    · exact fun _ => ⟨rfl, hret h⟩
  · exact hs

@[simp] theorem checkRet_ret (s : SumReply) : s.checkRet.ret = s.ret := by
  unfold SumReply.checkRet
  split_ifs <;> rfl

@[simp] theorem checkRet_invoked (s : SumReply) : s.checkRet.invoked = s.invoked := by
  unfold SumReply.checkRet
  split_ifs <;> rfl

theorem checkRet_origin_of_ne (h : s.ret ≠ 0) : s.checkRet.origin = .failure := by
  rw [SumReply.checkRet, if_pos h]

theorem checkRet_of_zero (h : s.ret = 0) : s.checkRet = s := by
  rw [SumReply.checkRet, if_neg (not_not.mpr h)]

/-! ## The loop -/

theorem repeatLoop_done (h : ¬ i < count) :
    repeatLoop arith n rank seed env i count s = some s := by
  rw [repeatLoop, if_neg h]

theorem repeatLoop_next (hi : i < count) (h : s.invoke arith n rank seed env = some (ret, t)) :
    repeatLoop arith n rank seed env i count s =
      repeatLoop arith n rank seed env (i + 1) count { t with ret := Int.lor t.ret ret } := by
  rw [repeatLoop, if_pos hi, h]
  rfl

theorem repeatLoop_turn (hi : i < count)
    (h : repeatLoop arith n rank seed env i count s = some t) :
    ∃ ret s', s.invoke arith n rank seed env = some (ret, s') ∧
      repeatLoop arith n rank seed env (i + 1) count { s' with ret := Int.lor s'.ret ret } =
        some t := by
  rw [repeatLoop, if_pos hi] at h
  obtain ⟨⟨ret, s'⟩, hs', h⟩ := Option.bind_eq_some_iff.mp h
  exact ⟨ret, s', hs', h⟩

/-- What the loop leaves: one more invocation for each turn, an error as soon as one fails, and
else the total of the last. -/
structure LoopEnd (i count : ℤ) (s t : SumReply) : Prop where
  ok : t.Ok
  kept : s.invoked <+: t.invoked
  invocations : t.invoked.length = s.invoked.length + (count - i).toNat
  failed : t.ret ≠ 0 → s.ret ≠ 0 ∨ ∃ r ∈ t.invoked, r.ret ≠ 0
  total : t.ret = 0 → i < count → ∃ k, t.origin = .total k

theorem repeatLoop_end (hs : s.Ok) (h : repeatLoop arith n rank seed env i count s = some t) :
    LoopEnd i count s t := by
  induction hk : (count - i).toNat generalizing i s with
  | zero =>
    have hi : ¬ i < count := by omega
    rw [repeatLoop_done hi] at h
    obtain rfl := Option.some.inj h
    exact ⟨hs, List.prefix_rfl, by omega, Or.inl, fun _ hlt => absurd hlt hi⟩
  | succ k ih =>
    have hi : i < count := by omega
    obtain ⟨ret, s', hs', h⟩ := repeatLoop_turn hi h
    obtain ⟨r, hret, hkeep, hinvoked, hcases⟩ := invoke_cases hs'
    have hend := ih ((hs.invoke hs').withRet _) h (by omega)
    have hprefix : s'.invoked <+: t.invoked := hend.kept
    constructor
    · exact hend.ok
    · exact (hinvoked ▸ List.prefix_append _ _ : s.invoked <+: s'.invoked).trans hprefix
    · have hlen : s'.invoked.length = s.invoked.length + 1 := by simp [hinvoked]
      have := hend.invocations
      simp only [hlen] at this
      omega
    · intro hne
      rcases hend.failed hne with hor | hr
      · by_cases h0 : s'.ret = 0
        · have hfail : ret ≠ 0 := fun hz => hor ((lor_eq_zero_iff _ _).mpr ⟨h0, hz⟩)
          have hmem : r ∈ s'.invoked := by simp [hinvoked]
          exact Or.inr ⟨r, hprefix.subset hmem, hret.symm ▸ hfail⟩
        · exact Or.inl (hkeep ▸ h0)
      · exact Or.inr hr
    · intro h0 _
      by_cases hlast : i + 1 < count
      · exact hend.total h0 hlast
      · rw [repeatLoop_done hlast] at h
        obtain rfl := Option.some.inj h
        obtain ⟨-, hz⟩ := (lor_eq_zero_iff _ _).mp h0
        rcases hcases with ⟨-, horigin, -⟩ | ⟨hne, -⟩
        · exact ⟨_, horigin⟩
        · exact absurd hz hne

/-! ## The handlers -/

/-- What a client may rely on: without an error the sum is the total of a successful
invocation, with one it is the failure value, and there is one invocation for each turn. -/
structure SumContract (count : ℤ) (s : SumReply) : Prop where
  total_of_success : s.ret = 0 →
    ∃ k r, s.origin = .total k ∧ s.invoked[k]? = some r ∧ r.ret = 0 ∧ s.sum = r.sum
  error_iff : s.ret ≠ 0 ↔ s.origin = .failure
  failure_value : s.origin = .failure → s.sum = -1 ∧ ∃ r ∈ s.invoked, r.ret ≠ 0
  invocations : (s.invoked.length : ℤ) = 1 + max count 0

/-- The invocation that is not measured succeeds. -/
def FirstSucceeds (arith : ℤ → ℤ) (n rank seed : ℤ) (env : ℕ → SumEnv) : Prop :=
  ∃ r, metasimRpcInvokeSum arith n rank (env 0).calls (env 0).junk seed 0 (env 0).answers =
    some r ∧ r.ret = 0

theorem firstSucceeds_iff (h : SumReply.initial.invoke arith n rank seed env = some (ret, t)) :
    FirstSucceeds arith n rank seed env ↔ ret = 0 := by
  obtain ⟨r, hr, ht⟩ := Option.bind_eq_some_iff.mp h
  have hret : r.ret = ret := congrArg Prod.fst (Option.some.inj ht)
  constructor
  · rintro ⟨r', hr', h0⟩
    obtain rfl := Option.some.inj (hr.symm.trans hr')
    exact hret ▸ h0
  · exact fun h0 => ⟨r, hr, hret.trans h0⟩

/-- A state with the code that is answered, after the check. -/
theorem contract_of_ok (hs : s.Ok) (hfailed : s.ret ≠ 0 → ∃ r ∈ s.invoked, r.ret ≠ 0)
    (htotal : s.ret = 0 → ∃ k, s.origin = .total k)
    (hlen : (s.invoked.length : ℤ) = 1 + max count 0) : SumContract count s.checkRet := by
  have hok := hs.checkRet hfailed
  constructor
  · intro h0
    rw [checkRet_ret] at h0
    obtain ⟨k, hk⟩ := htotal h0
    rw [checkRet_of_zero h0]
    obtain ⟨r, hr⟩ := hs.total k hk
    exact ⟨k, r, hk, hr⟩
  · rw [checkRet_ret]
    constructor
    · exact checkRet_origin_of_ne
    · intro hf h0
      obtain ⟨k, hk⟩ := htotal h0
      rw [checkRet_of_zero h0, hk] at hf
      cases hf
  · exact hok.failure
  · rw [checkRet_invoked, hlen]

/-- A single sum keeps the contract, whatever fails. -/
theorem listener_sum_contract
    (h : metasimListenerHandleSum arith n rank seed env = some s) : SumContract 0 s := by
  obtain ⟨⟨ret, t⟩, ht, hs⟩ := Option.bind_eq_some_iff.mp h
  cases hs
  obtain ⟨r, hret, -, hinvoked, hcases⟩ := invoke_cases ht
  refine contract_of_ok ((ok_initial.invoke ht).withRet ret) ?_ ?_ ?_
  · exact fun hne => ⟨r, by simp [hinvoked], hret ▸ hne⟩
  · intro h0
    rcases hcases with ⟨-, horigin, -⟩ | ⟨hne, -⟩
    · exact ⟨_, horigin⟩
    · exact absurd h0 hne
  · simp [hinvoked, SumReply.initial]

/-- The repeated sum keeps it if and only if a sum is measured or the first one succeeds: the code
of the first is dropped, its failure value is not. -/
theorem sumrepeat_contract_iff
    (h : metasimListenerHandleSumrepeat arith n rank seed count env = some s) :
    SumContract count s ↔ 0 < count ∨ FirstSucceeds arith n rank seed env := by
  obtain ⟨⟨ret, t⟩, ht, h⟩ := Option.bind_eq_some_iff.mp h
  obtain ⟨u, hu, hs⟩ := Option.bind_eq_some_iff.mp h
  obtain rfl := Option.some.inj hs
  obtain ⟨r, hret, -, hinvoked, hcases⟩ := invoke_cases ht
  rw [firstSucceeds_iff ht]
  have hfirst : SumReply.Ok { SumReply.checkRet { t with ret } with ret := 0 } :=
    (((ok_initial.invoke ht).withRet ret).checkRet
      fun hne => ⟨r, by simp [hinvoked], hret ▸ hne⟩).withRet 0
  have hend := repeatLoop_end hfirst hu
  have hlen : (u.invoked.length : ℤ) = 1 + max count 0 := by
    have := hend.invocations
    simp only [checkRet_invoked, hinvoked, SumReply.initial, List.nil_append,
      List.length_singleton] at this
    omega
  have hfailed : u.ret ≠ 0 → ∃ r ∈ u.invoked, r.ret ≠ 0 := fun hne =>
    (hend.failed hne).resolve_left fun h0 => h0 rfl
  constructor
  · intro hc
    by_contra hbad
    obtain ⟨hcount, hne⟩ := not_or.mp hbad
    rw [repeatLoop_done hcount] at hu
    obtain rfl := Option.some.inj hu
    have hf := checkRet_origin_of_ne (s := { t with ret }) hne
    exact hc.error_iff.mpr hf rfl
  · intro hcond
    refine contract_of_ok hend.ok hfailed (fun h0 => ?_) hlen
    by_cases hcount : 0 < count
    · exact hend.total h0 hcount
    · have hz := hcond.resolve_left hcount
      rw [repeatLoop_done hcount] at hu
      obtain rfl := Option.some.inj hu
      rcases hcases with ⟨-, horigin, -⟩ | ⟨hne, -⟩
      · exact ⟨_, by rw [checkRet_of_zero hz]; exact horigin⟩
      · exact absurd hz hne

/-- Two servers, of which the root cannot allocate its request array in the first invocation. -/
def firstFails : ℕ → SumEnv := fun i =>
  { calls := { calloc := decide (i ≠ 0) }, junk := { out := 0, reply := fun _ => 0 }
    answers := [some { sum := 6, ranks := [1] }] }

theorem firstFails_zero : SumReply.initial.invoke id 2 0 5 firstFails =
    some (enomem, { SumReply.initial with invoked := [⟨enomem, 0, [], [.calloc]⟩] }) := rfl

/-- With one measured sum all is well. -/
theorem sumrepeat_contract_one : ∃ s,
    metasimListenerHandleSumrepeat id 2 0 5 1 firstFails = some s ∧ SumContract 1 s := by
  have hs : ∃ s, metasimListenerHandleSumrepeat id 2 0 5 1 firstFails = some s := by
    simp only [metasimListenerHandleSumrepeat, firstFails_zero, Option.bind_eq_bind,
      Option.bind_some]
    rw [repeatLoop_next one_pos rfl, repeatLoop_done (by decide)]
    exact ⟨_, rfl⟩
  obtain ⟨s, hs⟩ := hs
  exact ⟨s, hs, (sumrepeat_contract_iff hs).mpr (Or.inl one_pos)⟩

/-- Without one the error value -1 is answered together with the code of success. -/
theorem sumrepeat_success_with_failure_value : ∃ s,
    metasimListenerHandleSumrepeat id 2 0 5 0 firstFails = some s ∧ s.ret = 0 ∧ s.sum = -1 ∧
      s.origin = .failure ∧ ¬ SumContract 0 s := by
  have hs : metasimListenerHandleSumrepeat id 2 0 5 0 firstFails =
      some { ret := 0, sum := -1, origin := .failure
             invoked := [⟨enomem, 0, [], [.calloc]⟩] } := by
    simp only [metasimListenerHandleSumrepeat, firstFails_zero, Option.bind_eq_bind,
      Option.bind_some]
    rw [repeatLoop_done (by decide)]
    rfl
  refine ⟨_, hs, rfl, rfl, rfl, fun h => ?_⟩
  exact absurd rfl (h.error_iff.mpr rfl)

end Metasim
