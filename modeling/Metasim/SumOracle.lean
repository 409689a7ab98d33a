import Metasim.SumFaults
import Metasim.TreeOverflow

/-! The sums that `metasim-server.c` and `examples/sum.c` expect. -/
namespace Metasim

variable {arith : ℤ → ℤ} {n root seed before : ℤ}

/-- `expected` of `test_sum` on a server of `nranks` -/
def testSumExpected (nranks : ℤ) : ℤ := (wrapInt (wrapInt (nranks - 1) * nranks)).tdiv 2

/-- `calculate_expected_sum(rank)`, the rank of the client being the seed. -/
def calculateExpectedSum (serverNranks rank : ℤ) : ℤ :=
  let seed := rank
  let expected := (wrapInt (serverNranks * wrapInt (serverNranks - 1))).tdiv 2
  wrapInt (expected + wrapInt (serverNranks * seed))

/-- The product differs from its 32-bit value by an even multiple of `2 ^ 32`. -/
def HalvesExactly (n : ℤ) : Prop :=
  -2 ^ 31 ≤ (n * (n - 1)).bmod (2 ^ 33) ∧ (n * (n - 1)).bmod (2 ^ 33) < 2 ^ 31

theorem two_dvd_mul_pred (n : ℤ) : ∃ h, n * (n - 1) = 2 * h :=
  (even_iff_two_dvd.mp (Int.even_mul_pred_self n))

@[simp] theorem wrapInt_mul_right (a b : ℤ) : wrapInt (a * wrapInt b) = wrapInt (a * b) :=
  Int.mul_bmod_bmod

@[simp] theorem wrapInt_mul_left (a b : ℤ) : wrapInt (wrapInt a * b) = wrapInt (a * b) :=
  Int.bmod_mul_bmod

theorem wrapInt_eq_iff {a b : ℤ} : wrapInt a = wrapInt b ↔ a % 4294967296 = b % 4294967296 := by
  simp only [wrapInt, Int.bmod_def]
  norm_num
  omega

theorem wrapInt_range (a : ℤ) : -2147483648 ≤ wrapInt a ∧ wrapInt a < 2147483648 := by
  have hlo := Int.le_bmod (x := a) (m := 2 ^ 32) (by norm_num)
  have hhi := Int.bmod_lt (x := a) (m := 2 ^ 32) (by norm_num)
  norm_num at hlo hhi
  exact ⟨hlo, hhi⟩

/-- The wrapped product of two neighbours is even and is divided without remainder. -/
theorem wrapInt_half (h : ℤ) : ∃ w, wrapInt (2 * h) = 2 * w ∧ (wrapInt (2 * h)).tdiv 2 = w := by
  have hmod := wrapInt_emod (2 * h)
  refine ⟨wrapInt (2 * h) / 2, by omega, ?_⟩
  generalize hp : wrapInt (2 * h) = p at hmod
  obtain ⟨w, rfl⟩ : ∃ w, p = 2 * w := ⟨p / 2, by omega⟩
  rw [Int.mul_tdiv_cancel_left _ two_ne_zero, Int.mul_ediv_cancel_left _ two_ne_zero]

/-- Dividing after wrapping is right exactly when the product halves exactly. -/
theorem half_of_wrapped (n b : ℤ) :
    wrapInt ((wrapInt (n * (n - 1))).tdiv 2 + b) = wrapInt (n * (n - 1) / 2 + b) ↔
      HalvesExactly n := by
  obtain ⟨h, hh⟩ := two_dvd_mul_pred n
  obtain ⟨w, hw, hdiv⟩ := wrapInt_half h
  rw [HalvesExactly, hh, hdiv, wrapInt_eq_iff, Int.mul_ediv_cancel_left _ two_ne_zero]
  have hmod := wrapInt_emod (2 * h)
  have hrange := wrapInt_range (2 * h)
  have hv : (2 * h).bmod (2 ^ 33) % 8589934592 = 2 * h % 8589934592 := Int.bmod_emod
  have hlo := Int.le_bmod (x := 2 * h) (m := 2 ^ 33) (by norm_num)
  have hhi := Int.bmod_lt (x := 2 * h) (m := 2 ^ 33) (by norm_num)
  norm_num at hlo hhi
  generalize (2 * h).bmod (2 ^ 33) = q at hv hlo hhi
  rw [hw] at hmod hrange
  omega

theorem calculateExpectedSum_eq (n seed : ℤ) : calculateExpectedSum n seed =
    wrapInt ((wrapInt (n * (n - 1))).tdiv 2 + n * seed) := by
  simp [calculateExpectedSum]

/-- `test_sum` expects what the client expects for seed 0. -/
theorem testSumExpected_eq (n : ℤ) : testSumExpected n = calculateExpectedSum n 0 := by
  obtain ⟨h, hh⟩ := two_dvd_mul_pred n
  obtain ⟨w, hw, hdiv⟩ := wrapInt_half h
  have hrange := wrapInt_range (2 * h)
  rw [calculateExpectedSum_eq, testSumExpected, wrapInt_mul_left, mul_comm (n - 1) n, mul_zero,
    add_zero, hh, hdiv]
  refine (exact_wrapInt le_rfl _ ?_ ?_).symm <;> unfold intMax <;> omega

/-- Where the total for seed 0 fits, the product must fit itself. -/
theorem halvesExactly_iff_of_fits (hn : 1 ≤ n) (hfit : n * (n - 1) / 2 ≤ intMax) :
    HalvesExactly n ↔ n ≤ 46341 := by
  have hpos : 0 ≤ n * (n - 1) := mul_nonneg (by omega) (by omega)
  unfold intMax at hfit
  have hsmall : (n * (n - 1)).bmod (2 ^ 33) = n * (n - 1) :=
    Int.bmod_eq_of_le_mul_two (by push_cast; omega) (by push_cast; omega)
  rw [HalvesExactly, hsmall]
  constructor
  · intro h
    by_contra hbig
    nlinarith
  · intro h
    constructor
    · omega
    · nlinarith

/-! ## The oracle against the collective -/

/-- Without failures the invocation gives the wrapped total. -/
theorem runSum_total (hexact : ExactFor arith n 2) (hroot : 0 ≤ root ∧ root < n)
    (seed before : ℤ) (junk : ℤ → Junk) {fuel : ℕ} (hfuel : n.toNat ≤ fuel) :
    ∃ i, runSum arith n (fun _ => {}) junk root seed before fuel = some i ∧ i.ret = 0 ∧
      i.sum = wrapInt (n * (n - 1) / 2 + n * seed) := by
  have S : Sound arith n root 2 := ⟨hroot.1, hroot.2, one_le_two, hexact⟩
  obtain ⟨i, hi, hret, hd⟩ := runSum_fine (f := fun _ => {}) S seed before junk
    (fun x _ _ => serverFine_default _) (serverFine_default _).2.2 hfuel
  exact ⟨i, hi, hret, hd.1.trans (by rw [S.sum_tree, fullTotal])⟩

/-- Where the true total fits in 32 bits, the client's oracle agrees with the sum if and only
if `n * (n - 1)` modulo `2 ^ 33` is within `2 ^ 31` of zero; the server's, for seed 0, if and
only if there are at most 46341 servers. -/
theorem oracle_agrees_iff {arith : ℤ → ℤ} {n root seed : ℤ} (hexact : ExactFor arith n 2)
    (hroot : 0 ≤ root ∧ root < n) (hfit : InInt (n * (n - 1) / 2 + n * seed)) (before : ℤ)
    (junk : ℤ → Junk) {fuel : ℕ} (hfuel : n.toNat ≤ fuel) :
    ∃ i, runSum arith n (fun _ => {}) junk root seed before fuel = some i ∧ i.ret = 0 ∧
      (calculateExpectedSum n seed = i.sum ↔ HalvesExactly n) ∧
      (seed = 0 → (testSumExpected n = i.sum ↔ n ≤ 46341)) := by
  obtain ⟨i, hi, hret, hsum⟩ := runSum_total hexact hroot seed before junk hfuel
  have hiff : calculateExpectedSum n seed = i.sum ↔ HalvesExactly n := by
    rw [calculateExpectedSum_eq, hsum]
    exact half_of_wrapped n (n * seed)
  refine ⟨i, hi, hret, hiff, ?_⟩
  rintro rfl
  rw [testSumExpected_eq, hiff]
  rw [mul_zero, add_zero] at hfit
  exact halvesExactly_iff_of_fits (by omega) hfit.2

/-- 46341 servers are still summed as expected. -/
theorem oracle_agrees_46341 : ∃ i,
    runSum wrapInt 46341 (fun _ => {}) (fun _ => zeroJunk) 0 0 0 46341 = some i ∧
      testSumExpected 46341 = i.sum := by
  obtain ⟨i, hi, -, -, htest⟩ := oracle_agrees_iff
    (exactFor_wrapInt (by decide) le_rfl (by decide))
    (show (0 : ℤ) ≤ 0 ∧ (0 : ℤ) < 46341 by decide)
    (show InInt (46341 * (46341 - 1) / 2 + 46341 * 0) by unfold InInt intMax; decide)
    0 (fun _ => zeroJunk) (le_refl 46341)
  exact ⟨i, hi, (htest rfl).mpr le_rfl⟩

/-- With one more the product of 46342 and 46341 leaves the 32 bits, the total 1073767311
does not. -/
theorem oracle_wraps : ∃ i,
    runSum wrapInt 46342 (fun _ => {}) (fun _ => zeroJunk) 0 0 0 46342 = some i ∧ i.ret = 0 ∧
      InInt (46342 * (46342 - 1) / 2 + 46342 * 0) ∧ i.sum = 1073767311 ∧
      calculateExpectedSum 46342 0 = -1073716337 ∧ testSumExpected 46342 = -1073716337 := by
  obtain ⟨i, hi, hret, hsum⟩ := runSum_total (exactFor_wrapInt (by decide) le_rfl (by decide))
    (show (0 : ℤ) ≤ 0 ∧ (0 : ℤ) < 46342 by decide) 0 0 (fun _ => zeroJunk) (le_refl 46342)
  refine ⟨i, hi, hret, by unfold InInt intMax; decide, hsum.trans (by decide), by decide, by decide⟩

end Metasim
