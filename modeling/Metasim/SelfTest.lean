import Metasim.ServerStart
import Metasim.SumOracle
import Metasim.SumService

/-! The self test of the servers as a whole: `main` on every rank over the sums that it invokes. -/
namespace Metasim

open Transition Spmd Served

/-- The sums of the self test: call 0 is that of rank 0 alone, call `rank + 1` that of `rank`
with all others. `test_sum` gives no seed but 0. -/
def testCalls (nranks : ℕ) : List SumIn :=
  ⟨0, 0⟩ :: (List.range nranks).map fun rank : ℕ => ⟨rank, 0⟩

namespace ServerArgs

variable (A : ServerArgs)

/-- The servers with their handlers. -/
def deployment : Layer (Fin A.nranks) ServerCall SumNet SumLabel ℤ where
  program := A.serverMain
  uses rank
    | .sum .first => some 0
    | .sum .all => some (rank + 1)
    | _ => none
  service := sumService A.nranks (testCalls A.nranks)

variable {A} {xs : List (Label (Fin A.nranks) ServerCall SumLabel)}
  {s : State (Fin A.nranks) ServerCall × SumNet} {i : ℕ} {rank : Fin A.nranks} {c : ServerCall}

theorem testCalls_roots (hn : 1 ≤ A.nranks) :
    ∀ c ∈ testCalls A.nranks, 0 ≤ c.root ∧ c.root < (A.nranks : ℤ) := by
  intro c hc
  rcases List.mem_cons.mp hc with rfl | hc
  · refine ⟨le_rfl, ?_⟩
    change (0 : ℤ) < A.nranks
    omega
  · obtain ⟨rank, hrank, rfl⟩ := List.mem_map.mp hc
    exact ⟨Int.natCast_nonneg rank, Int.ofNat_lt.mpr (List.mem_range.mp hrank)⟩

theorem length_testCalls (n : ℕ) : (testCalls n).length = n + 1 := by simp [testCalls]

theorem seed_testCalls {c : SumIn} (hc : (testCalls A.nranks)[i]? = some c) : c.seed = 0 := by
  rcases List.mem_cons.mp (List.mem_of_getElem? hc) with rfl | hc
  · rfl
  · obtain ⟨rank, -, rfl⟩ := List.mem_map.mp hc
    rfl

/-- A sum of rank `rank` is rooted there. -/
theorem root_of_uses (hc : c ∈ A.path rank) (hi : A.deployment.uses rank c = some i) {d : SumIn}
    (hd : (testCalls A.nranks)[i]? = some d) : d.root = (rank.val : ℤ) := by
  cases c with
  | sum t =>
    cases t with
    | first =>
      obtain rfl : 0 = i := Option.some.inj hi
      have hzero := rank_of_first hc rfl
      obtain rfl := Option.some.inj hd
      simp [hzero]
    | all =>
      obtain rfl : rank.val + 1 = i := Option.some.inj hi
      simp only [testCalls, List.getElem?_cons_succ, List.getElem?_map,
        List.getElem?_range rank.isLt, Option.map_some, Option.some.injEq] at hd
      rw [← hd]
  | _ => cases hi

theorem uses_lt (hi : A.deployment.uses rank c = some i) : i < (testCalls A.nranks).length := by
  rw [length_testCalls]
  cases c with
  | sum t =>
    cases t with
    | first =>
      obtain rfl : 0 = i := Option.some.inj hi
      omega
    | all =>
      obtain rfl : rank.val + 1 = i := Option.some.inj hi
      have := rank.isLt
      omega
  | _ => cases hi

theorem reliable (hn : 1 ≤ A.nranks) : A.deployment.service.Reliable (testCalls A.nranks).length
    ((testCalls A.nranks).length * (A.nranks : ℤ).toNat * 5) :=
  sumService_reliable (testCalls_roots hn)

/-- A rank is inside one sum at most. -/
theorem oneOutstanding (hn : 1 ≤ A.nranks) (hrun : A.deployment.Run xs s) :
    OneOutstanding (testCalls A.nranks) s.2 := by
  have howner : ∀ {i d}, (testCalls A.nranks)[i]? = some d → s.2.rpc ⟨i, []⟩ = .running →
      ∃ (p : Fin A.nranks) (c : ServerCall), s.1.current p = some c ∧
        A.deployment.uses p c = some i ∧ d.root = (p.val : ℤ) := by
    intro i d hd hr
    obtain ⟨hbegun, hnone⟩ := open_of_running (testCalls_roots hn) hrun.serves hr
    obtain ⟨p, -, huses⟩ := asked_of_begun (reliable hn) hrun hbegun hnone
    obtain ⟨c, hc, huses⟩ := Option.bind_eq_some_iff.mp huses
    have hmem := (walks_trace follows_path hrun.mains p).current_mem hc
    exact ⟨p, c, hc, huses, root_of_uses hmem huses hd⟩
  intro i j c d hi hj hri hrj heq
  obtain ⟨p, e, hp, hup, hrootp⟩ := howner hi hri
  obtain ⟨q, f, hq, huq, hrootq⟩ := howner hj hrj
  obtain rfl : p = q := Fin.ext (by
    have := hrootp.symm.trans (heq.trans hrootq)
    exact_mod_cast this)
  obtain rfl := Option.some.inj (hp.symm.trans hq)
  exact Option.some.inj (hup.symm.trans huq)

/-- The sum of rank 0 alone is over before any other begins. -/
theorem first_sum_answered (hn : 1 ≤ A.nranks) (hrun : A.deployment.Run xs s)
    (hinvoked : .invoke (i + 1) ∈ serves xs) : ∃ x, s.2.result 0 = some x := by
  have hI := fencedInv hrun.mains
  obtain ⟨p, c, hc, huses⟩ := entered_of_begun follows_path hrun (begun_iff_mem.mpr hinvoked)
  have hall : c = .sum .all := by
    cases c with
    | sum t =>
      cases t with
      | first => simp [deployment] at huses
      | all => rfl
    | _ => cases huses
  subst hall
  let zero : Fin A.nranks := ⟨0, hn⟩
  have hreached := (hI.walks p).reached_of_entered hc
  have htest := (test_of_mem_path ((hI.walks p).entered_initial.subset hc) rfl).1
  have hmem : .sum .first ∈ A.path zero := by
    have hinit := margoInit_of_reached hI hreached (Nat.succ_pos 5) zero
    refine List.count_pos_iff.mp ?_
    rw [count_sum hinit htest]
    exact Nat.one_pos
  have hret := (hI.happens_before A.phased hreached hmem (Nat.lt_succ_self 5)).2 rfl
  exact answer_of_returned (reliable hn) hrun hret rfl

theorem test_sum_total {n : ℤ} (hn : 1 ≤ n) (hle : n ≤ 46341) :
    wrapInt (n * (n - 1) / 2 + n * 0) = testSumExpected n := by
  have hpos : 0 ≤ n * (n - 1) := mul_nonneg (by omega) (by omega)
  have hfit : n * (n - 1) / 2 ≤ intMax := by
    unfold intMax
    have : n * (n - 1) ≤ 46341 * 46340 := by nlinarith
    omega
  have hhalf := (half_of_wrapped n (n * 0)).mpr ((halvesExactly_iff_of_fits hn hfit).mpr hle)
  rw [testSumExpected_eq, calculateExpectedSum_eq, hhalf]

/-- Servers that have come to the end of the self test have all sums. -/
theorem answered_of_done (hn : 1 ≤ A.nranks) (hinit : ∀ rank < A.nranks, A.margoInit rank = true)
    (htest : A.selftest = true) (hrun : A.deployment.Run xs s)
    (hdone : ∀ rank, s.1.current rank = none) :
    ∀ i ≤ A.nranks, ∃ x, s.2.result i = some x := by
  have hsum : ∀ (p : Fin A.nranks) t, t.takesPart p = true → .sum t ∈ returned p (mains xs) := by
    intro p t ht
    rw [((walks_trace follows_path hrun.mains p).finished (hdone p)).2]
    refine List.count_pos_iff.mp ?_
    rw [count_sum (hinit p p.isLt) htest, if_pos ht]
    exact Nat.one_pos
  intro i hi
  cases i with
  | zero => exact answer_of_returned (reliable hn) hrun (hsum ⟨0, hn⟩ .first rfl) rfl
  | succ i => exact answer_of_returned (reliable hn) hrun (hsum ⟨i, hi⟩ .all rfl) rfl

end ServerArgs

open ServerArgs

/-- The self test on servers that all have margo. It ends with every server listening; every sum
is what `test_sum` expects, up to 46341 servers; the sum of rank 0 alone runs alone; no server
ever has more than `⌈(n - 1) / 2⌉` sums, its own included, waiting on its children; and nothing is
left behind. -/
theorem self_test_completes {A : ServerArgs} (hn : 1 ≤ A.nranks)
    (hinit : ∀ rank < A.nranks, A.margoInit rank = true) (htest : A.selftest = true)
    {xs : List (Label (Fin A.nranks) ServerCall SumLabel)}
    {s : State (Fin A.nranks) ServerCall × SumNet} (hrun : A.deployment.Run xs s) :
    (∀ i x, s.2.result i = some x → x = wrapInt ((A.nranks : ℤ) * (A.nranks - 1) / 2) ∧
      (A.nranks ≤ 46341 → x = testSumExpected A.nranks)) ∧
    (∀ i, .invoke (i + 1) ∈ serves xs → ∃ x, s.2.result 0 = some x) ∧
    (∀ rank < A.nranks, ∀ H : Finset Handle, (∀ h ∈ H, Blocked s.2 (rank : ℤ) h) →
      (H.card : ℤ) ≤ ⌈((A.nranks : ℚ) - 1) / 2⌉) ∧
    ((∃ rank, s.1.current rank ≠ none) → ∃ a u, A.deployment.Step s a u) ∧
    xs.length ≤ ∑ rank, 2 * (A.path rank).length + (A.nranks + 1) * A.nranks * 5 ∧
    ((∀ rank, s.1.current rank = none) → (∀ i ≤ A.nranks, ∃ x, s.2.result i = some x) ∧
      ∀ h, s.2.frame h = none ∧ (s.2.rpc h = .unused ∨ s.2.rpc h = .completed)) := by
  have hroots := testCalls_roots hn
  refine ⟨?_, fun i => first_sum_answered hn hrun, fun rank hrank H hH => ?_, ?_, ?_,
    fun hdone => ⟨answered_of_done hn hinit htest hrun hdone,
      quiet_of_answered hroots hrun.serves fun i hbegun => ?_⟩⟩
  · intro i x hx
    obtain ⟨c, hc, rfl⟩ := answer_total hroots hrun.serves hx
    rw [seed_testCalls hc]
    exact ⟨by rw [mul_zero, add_zero], fun hle => test_sum_total (by omega) (by omega)⟩
  · have hnet := historyInv_trace (sound_of_roots hroots) hrun.serves
    have hr : (0 : ℤ) ≤ rank ∧ (rank : ℤ) < A.nranks := by omega
    have hcard := card_blocked_le (sound_of_roots hroots) hnet.net (oneOutstanding hn hrun) H hH
    have hceil := card_interior (exactFor_id _ _) hr one_le_two
    push_cast at hceil
    omega
  · rintro ⟨rank, h⟩
    exact hrun.progress (aligned hinit) (reliable hn) (ordered_of_free fun _ _ => not_false)
      (fun p c _ i hi => uses_lt hi) h
  · have hle := Layer.Run.length_le (reliable hn) follows_path hrun
    rwa [length_testCalls, Int.toNat_natCast] at hle
  · obtain ⟨p, c, -, huses⟩ := entered_of_begun follows_path hrun hbegun
    have hlt := uses_lt huses
    rw [length_testCalls] at hlt
    obtain ⟨x, hx⟩ := answered_of_done hn hinit htest hrun hdone i (by omega)
    simp [hx]

def servedBy : ServerCall → List SumLabel
  | .sum .first => pairSum 0 1
  | .sum .all => pairSum 1 1 ++ pairSum 2 0
  | _ => []

def selfTestRun : List (Label (Fin twoServers.nranks) ServerCall SumLabel) :=
  twoServersCalls.flatMap fun c => Served.jointly c.1 c.2 (servedBy c.2)

theorem self_test_completes_two : ∃ s, twoServers.deployment.Run selfTestRun s ∧
    (∀ rank, s.1.current rank = none) ∧ ∀ i ≤ 2, ∃ x, s.2.result i = some x := by
  have hfinal : ((selfTestRun.foldlM twoServers.deployment.step
      twoServers.deployment.start).map fun s => decide (∀ rank, s.1.current rank = none)) =
      some true := by decide
  obtain ⟨s, hs, hdone⟩ := Option.map_eq_some_iff.mp hfinal
  have hdone := of_decide_eq_true hdone
  have hrun : twoServers.deployment.Run selfTestRun s := of_foldlM hs
  obtain ⟨-, -, -, -, -, hend⟩ := self_test_completes (by decide) (fun _ _ => rfl) rfl hrun
  exact ⟨s, hrun, hdone, (hend hdone).1⟩

end Metasim
