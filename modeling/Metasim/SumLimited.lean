import Metasim.Lib.Spmd
import Metasim.SumOracle

/-! The throttled stress run of the clients, `do_sum_limited` of `sum.c`: the ranks take turns in
rounds with an `MPI_Barrier` on both sides. The clock and what is printed are left out, and the
`calloc` of rank 0 succeeds. -/
namespace Metasim

open Transition Spmd

/-- What a client starts with. `count` is `repeat`; `gatherHolds` are the ranks besides 0 that
`MPI_Gather` keeps until all have called it, which MPI leaves open. -/
structure LimitedArgs where
  nranks : ℕ
  limited : ℕ
  count : ℕ
  warmup : Bool
  serverNranks : ℤ
  gatherHolds : ℕ → Bool

/-- The arguments of `do_sum` -/
structure SumArgs where
  seed : ℤ
  expected : ℤ
deriving Repr, DecidableEq

/-- The calls of `do_sum_limited`, with the values of `i` and `j`: `do_sum` to warm up and to
measure, the `MPI_Barrier` on either side, and `MPI_Gather`. -/
inductive LimitedCall
  | warmup (args : SumArgs)
  | before (i j : ℕ)
  | sum (i j : ℕ) (args : SumArgs)
  | after (i j : ℕ)
  | gather (i : ℕ)
deriving Repr, DecidableEq

namespace LimitedCall

/-- `MPI_Barrier` and `MPI_Gather` -/
def collective : LimitedCall → Bool
  | before _ _ => true
  | after _ _ => true
  | gather _ => true
  | _ => false

/-- The measured `do_sum` of repetition `i` -/
def measuredIn (i : ℕ) : LimitedCall → Bool
  | sum i' _ _ => i' == i
  | _ => false

def measured : LimitedCall → Bool
  | sum _ _ _ => true
  | _ => false

end LimitedCall

namespace LimitedArgs

variable (A : LimitedArgs)

def rounds : ℕ :=
  if A.limited < A.nranks then
    let rounds := A.nranks / A.limited
    if A.nranks % A.limited ≠ 0 then rounds + 1 else rounds
  else 1

/-- `do_sum(rank, expected)` -/
def sumArgs (rank : Fin A.nranks) : SumArgs :=
  { seed := rank.val, expected := calculateExpectedSum A.serverNranks rank.val }

/-- `j < rounds`, and the first call behind it -/
def roundLoop (i j : ℕ) : LimitedCall := if j < A.rounds then .before i j else .gather i

/-- `i < repeat` -/
def repeatLoop (i : ℕ) : Option LimitedCall := if i < A.count then some (A.roundLoop i 0) else none

/-- Where a rank goes from a call; `do_sum` may have failed. -/
def nextCall (rank : Fin A.nranks) : LimitedCall → Option LimitedCall
  | .warmup _ => A.repeatLoop 0
  | .before i j =>
    if rank.val % A.rounds = j then some (.sum i j (A.sumArgs rank)) else some (.after i j)
  | .sum i j _ => some (.after i j)
  | .after i j => some (A.roundLoop i (j + 1))
  | .gather i => A.repeatLoop (i + 1)

/-- `do_sum_limited` on all ranks -/
def doSumLimited : Program (Fin A.nranks) LimitedCall where
  first rank := if A.warmup then some (.warmup (A.sumArgs rank)) else A.repeatLoop 0
  next := A.nextCall
  collective := LimitedCall.collective
  held
    | _, .before _ _ => true
    | _, .after _ _ => true
    -- rank 0 needs what the others send
    | rank, .gather _ => rank.val == 0 || A.gatherHolds rank
    | _, _ => false

/-- A rank inside the measured `do_sum` -/
def measuring (s : State (Fin A.nranks) LimitedCall) (rank : Fin A.nranks) : Bool :=
  s.inside rank && (s.current rank).any LimitedCall.measured

/-! ## The calls of a rank, one after the other -/

def roundCalls (rank : Fin A.nranks) (i j : ℕ) : List LimitedCall :=
  .before i j :: (if rank.val % A.rounds = j then [.sum i j (A.sumArgs rank)] else []) ++
    [.after i j]

def repetition (rank : Fin A.nranks) (i : ℕ) : List LimitedCall :=
  (List.range A.rounds).flatMap (A.roundCalls rank i) ++ [.gather i]

def path (rank : Fin A.nranks) : List LimitedCall :=
  (if A.warmup then [.warmup (A.sumArgs rank)] else []) ++
    (List.range A.count).flatMap (A.repetition rank)

/-- The collective calls, the same on every rank. -/
def collectives : List LimitedCall :=
  (List.range A.count).flatMap fun i =>
    ((List.range A.rounds).flatMap fun j => [.before i j, .after i j]) ++ [.gather i]

variable {A} {rank : Fin A.nranks} {i j m : ℕ} {rest : List LimitedCall}

/-- Induction on the rounds still to come. -/
theorem follows_rounds (hrest : Follows (A.nextCall rank) (A.repeatLoop (i + 1)) rest)
    (hm : j + m = A.rounds) : Follows (A.nextCall rank) (some (A.roundLoop i j))
      ((List.range' j m).flatMap (A.roundCalls rank i) ++ .gather i :: rest) := by
  induction m generalizing j with
  | zero => exact ⟨by rw [roundLoop, if_neg (by omega)], hrest⟩
  | succ m ih =>
    have ih := ih (j := j + 1) (by omega)
    rw [roundLoop, if_pos (by omega), List.range'_succ, List.flatMap_cons, roundCalls]
    refine ⟨rfl, ?_⟩
    rw [nextCall]
    split_ifs with hj
    · exact ⟨rfl, rfl, ih⟩
    · exact ⟨rfl, ih⟩

theorem follows_repetitions (hm : i + m = A.count) : Follows (A.nextCall rank) (A.repeatLoop i)
    ((List.range' i m).flatMap (A.repetition rank)) := by
  induction m generalizing i with
  | zero => exact if_neg (by omega)
  | succ m ih =>
    rw [repeatLoop, if_pos (by omega), List.range'_succ, List.flatMap_cons, repetition,
      List.append_assoc, List.range_eq_range']
    exact follows_rounds (ih (by omega)) (Nat.zero_add _)

theorem follows_path (rank : Fin A.nranks) :
    Follows (A.nextCall rank) (A.doSumLimited.first rank) (A.path rank) := by
  have hloop := @follows_repetitions A rank 0 A.count (Nat.zero_add _)
  rw [← List.range_eq_range'] at hloop
  rw [doSumLimited, path]
  split_ifs
  · exact ⟨rfl, hloop⟩
  · exact hloop

theorem filter_collective_path (rank : Fin A.nranks) :
    (A.path rank).filter LimitedCall.collective = A.collectives := by
  have hround : ∀ i j, (A.roundCalls rank i j).filter LimitedCall.collective =
      [.before i j, .after i j] := by
    intro i j
    unfold roundCalls
    split_ifs <;> rfl
  have hwarm : (if A.warmup then [LimitedCall.warmup (A.sumArgs rank)] else []).filter
      LimitedCall.collective = [] := by
    split_ifs <;> rfl
  rw [path, List.filter_append, hwarm, List.nil_append, List.filter_flatMap, collectives]
  simp only [repetition, List.filter_append, List.filter_flatMap, hround]
  rfl

theorem aligned (A : LimitedArgs) : Aligned A.doSumLimited A.path A.collectives :=
  ⟨follows_path, filter_collective_path⟩

/-- One turn of a loop does something. -/
theorem flatMap_range_single {α : Type} (f : ℕ → List α) (m i : ℕ)
    (hf : ∀ x, x ≠ i → f x = []) :
    (List.range m).flatMap f = if i < m then f i else [] := by
  induction m with
  | zero => rfl
  | succ m ih =>
    rw [List.range_succ, List.flatMap_append, ih, List.flatMap_singleton]
    by_cases hm : m = i
    · subst hm
      simp
    · rw [hf m hm, List.append_nil]
      congr 1
      exact propext (by omega)

theorem rounds_pos (hl : 1 ≤ A.limited) : 0 < A.rounds := by
  unfold rounds
  split_ifs with h hmod
  · exact Nat.succ_pos _
  · exact Nat.div_pos h.le hl
  · exact Nat.one_pos

/-- A repetition measures one sum on each rank, in the round of its residue. -/
theorem filter_measured_path (hl : 1 ≤ A.limited) (rank : Fin A.nranks) (i : ℕ) :
    (A.path rank).filter (LimitedCall.measuredIn i) =
      if i < A.count then [.sum i (rank.val % A.rounds) (A.sumArgs rank)] else [] := by
  have hround : ∀ x j, (A.roundCalls rank x j).filter (LimitedCall.measuredIn i) =
      if x = i ∧ rank.val % A.rounds = j then [.sum i j (A.sumArgs rank)] else [] := by
    intro x j
    unfold roundCalls
    by_cases hj : rank.val % A.rounds = j <;> by_cases hx : x = i <;>
      simp [hj, hx, LimitedCall.measuredIn]
  have hrepeat : ∀ x, (A.repetition rank x).filter (LimitedCall.measuredIn i) =
      if x = i then [.sum i (rank.val % A.rounds) (A.sumArgs rank)] else [] := by
    intro x
    have hlt : rank.val % A.rounds < A.rounds := Nat.mod_lt _ (rounds_pos hl)
    rw [repetition, List.filter_append, List.filter_flatMap,
      flatMap_range_single _ _ (rank.val % A.rounds), if_pos hlt, hround]
    · simp [LimitedCall.measuredIn]
    · intro j hj
      rw [hround, if_neg fun h => hj h.2.symm]
  have hwarm : (if A.warmup then [LimitedCall.warmup (A.sumArgs rank)] else []).filter
      (LimitedCall.measuredIn i) = [] := by
    split_ifs <;> rfl
  rw [path, List.filter_append, hwarm, List.nil_append, List.filter_flatMap,
    flatMap_range_single _ _ i, hrepeat, if_pos rfl]
  intro x hx
  rw [hrepeat, if_neg hx]

/-! ## The rounds -/

/-- The rounds have room for all ranks. -/
theorem nranks_le (hl : 1 ≤ A.limited) : A.nranks ≤ A.rounds * A.limited := by
  dsimp only [rounds]
  have hdiv := Nat.div_add_mod A.nranks A.limited
  have hmod := Nat.mod_lt A.nranks hl
  rw [mul_comm] at hdiv
  split_ifs with h hrest
  · rw [Nat.add_mul]
    omega
  · omega
  · omega

/-- Fewer rounds have not. -/
theorem rounds_le (hn : 1 ≤ A.nranks) (hm : A.nranks ≤ m * A.limited) :
    A.rounds ≤ m := by
  unfold rounds
  have hdiv : A.nranks / A.limited ≤ m := Nat.div_le_of_le_mul (by rwa [mul_comm] at hm)
  split_ifs with h hrest
  · refine Nat.lt_of_le_of_ne hdiv fun heq => hrest ?_
    have hsum := Nat.div_add_mod A.nranks A.limited
    rw [heq, mul_comm] at hsum
    omega
  · exact hdiv
  · rcases Nat.eq_zero_or_pos m with rfl | hpos
    · omega
    · exact hpos

/-- The ranks of one round are numbered by their quotients. -/
theorem card_round_le (hl : 1 ≤ A.limited) (j : ℕ) :
    (Finset.univ.filter fun rank : Fin A.nranks => rank.val % A.rounds = j).card ≤ A.limited := by
  rw [← Finset.card_range A.limited]
  refine Finset.card_le_card_of_injOn (fun rank => rank.val / A.rounds) ?_ ?_
  · intro rank _
    refine Finset.mem_coe.mpr (Finset.mem_range.mpr ?_)
    exact Nat.div_lt_of_lt_mul (rank.isLt.trans_le (nranks_le hl))
  · intro p hp q hq heq
    have hp := (Finset.mem_filter.mp hp).2
    have hq := (Finset.mem_filter.mp hq).2
    have heq : p.val / A.rounds = q.val / A.rounds := heq
    refine Fin.ext ?_
    rw [← Nat.div_add_mod p.val A.rounds, ← Nat.div_add_mod q.val A.rounds, heq, hp, hq]

theorem rounds_least (hn : 1 ≤ A.nranks) (f : Fin A.nranks → Fin m)
    (hf : ∀ j, (Finset.univ.filter fun rank => f rank = j).card ≤ A.limited) : A.rounds ≤ m := by
  refine rounds_le hn ?_
  calc A.nranks = (Finset.univ : Finset (Fin A.nranks)).card := (Finset.card_fin _).symm
    _ = ∑ j, (Finset.univ.filter fun rank => f rank = j).card :=
        Finset.card_eq_sum_card_fiberwise fun _ _ => Finset.mem_coe.mpr (Finset.mem_univ _)
    _ ≤ ∑ _j : Fin m, A.limited := Finset.sum_le_sum fun j _ => hf j
    _ = m * A.limited := by simp

theorem rounds_eq_ceil (hn : 1 ≤ A.nranks) (hl : 1 ≤ A.limited) :
    A.rounds = ⌈(A.nranks : ℚ) / A.limited⌉₊ := by
  have hlq : (0 : ℚ) < A.limited := by exact_mod_cast hl
  refine le_antisymm (rounds_le hn ?_) (Nat.ceil_le.mpr ?_)
  · have h := (div_le_iff₀ hlq).mp (Nat.le_ceil ((A.nranks : ℚ) / A.limited))
    exact_mod_cast h
  · rw [div_le_iff₀ hlq]
    exact_mod_cast nranks_le hl

theorem rounds_of_le (h : A.nranks ≤ A.limited) : A.rounds = 1 := if_neg (by omega)

/-! ## Whole runs -/

variable {s : State (Fin A.nranks) LimitedCall} {xs : List (Fin A.nranks × Event LimitedCall)}
  {a b : SumArgs} {i' j' : ℕ} {p q : Fin A.nranks}

theorem mem_path_sum (h : .sum i j a ∈ A.path rank) : rank.val % A.rounds = j := by
  rw [path, List.mem_append, List.mem_flatMap] at h
  rcases h with h | ⟨x, -, h⟩
  · split_ifs at h <;> simp at h
  · rw [repetition, List.mem_append, List.mem_flatMap] at h
    rcases h with ⟨y, -, h⟩ | h
    · unfold roundCalls at h
      split_ifs at h with hy
      · simp only [List.cons_append, List.nil_append, List.mem_cons, reduceCtorEq, false_or,
          LimitedCall.sum.injEq, List.not_mem_nil, or_false] at h
        exact hy.trans h.2.1.symm
      · simp at h
    · simp at h

theorem barrier_after (i j : ℕ) : A.doSumLimited.Barrier (.after i j) := ⟨rfl, fun _ => rfl⟩

/-- Ranks at their measured sums are in the same round. -/
theorem same_round (hI : Inv A.doSumLimited A.path A.collectives xs s)
    (hp : s.current p = some (.sum i j a)) (hq : s.current q = some (.sum i' j' b)) :
    p.val % A.rounds = q.val % A.rounds := by
  have heq := hI.same_barrier A.aligned hp hq rfl rfl rfl rfl (barrier_after i j)
    (barrier_after i' j')
  rw [LimitedCall.after.injEq] at heq
  rw [mem_path_sum ((hI.walks p).current_mem hp), mem_path_sum ((hI.walks q).current_mem hq)]
  exact heq.2

theorem card_measuring_le (hl : 1 ≤ A.limited)
    (hI : Inv A.doSumLimited A.path A.collectives xs s) :
    (Finset.univ.filter fun rank => A.measuring s rank).card ≤ A.limited := by
  have hcurrent : ∀ rank, A.measuring s rank → ∃ i j a, s.current rank = some (.sum i j a) := by
    intro rank h
    cases hc : s.current rank with
    | none => simp [measuring, hc] at h
    | some c =>
      cases c with
      | sum i j a => exact ⟨i, j, a, rfl⟩
      | _ => simp [measuring, hc, LimitedCall.measured] at h
  by_cases hany : ∃ q, A.measuring s q
  · obtain ⟨q, hq⟩ := hany
    obtain ⟨i', j', b, hq⟩ := hcurrent q hq
    refine le_trans (Finset.card_le_card fun p hp => ?_) (card_round_le hl (q.val % A.rounds))
    obtain ⟨i, j, a, hp⟩ := hcurrent p (Finset.mem_filter.mp hp).2
    exact Finset.mem_filter.mpr ⟨Finset.mem_univ p, same_round hI hp hq⟩
  · rw [Finset.filter_false_of_mem fun p _ hp => hany ⟨p, hp⟩, Finset.card_empty]
    exact Nat.zero_le _

end LimitedArgs

open LimitedArgs

/-- With a limit of `N` at most `N` ranks are inside the measured `do_sum`. Each measures one sum
in every repetition, in the round of its residue, and all make the same collective calls: no rank
is left waiting, a run ends when all have returned, and fewer rounds would not do. -/
theorem limited_run {A : LimitedArgs} (hn : 1 ≤ A.nranks) (hl : 1 ≤ A.limited)
    {xs : List (Fin A.nranks × Event LimitedCall)} {s : State (Fin A.nranks) LimitedCall}
    (hrun : Trace (Step A.doSumLimited) A.doSumLimited.start xs s) :
    (Finset.univ.filter fun rank => A.measuring s rank).card ≤ A.limited ∧
    (∀ rank, (entered rank xs).filter LimitedCall.collective <+: A.collectives ∧
      ∀ i, (entered rank xs).filter (LimitedCall.measuredIn i) <+:
        if i < A.count then [.sum i (rank.val % A.rounds) (A.sumArgs rank)] else []) ∧
    ((∃ rank, s.current rank ≠ none) → ∃ a u, Step A.doSumLimited s a u) ∧
    xs.length ≤ ∑ rank, 2 * (A.path rank).length ∧
    ((∀ rank, s.current rank = none) →
      ∀ rank, (entered rank xs).filter LimitedCall.collective = A.collectives ∧
        ∀ i < A.count, (entered rank xs).filter (LimitedCall.measuredIn i) =
          [.sum i (rank.val % A.rounds) (A.sumArgs rank)]) ∧
    (A.limited < A.nranks → A.rounds = ⌈(A.nranks : ℚ) / A.limited⌉₊) ∧
    (A.nranks ≤ A.limited → A.rounds = 1) ∧
    ∀ m (f : Fin A.nranks → Fin m),
      (∀ j, (Finset.univ.filter fun rank => f rank = j).card ≤ A.limited) → A.rounds ≤ m := by
  have hI := inv_trace A.aligned hrun
  refine ⟨card_measuring_le hl hI, fun rank => ⟨?_, fun i => ?_⟩, ?_, hI.length_le, ?_,
    fun _ => rounds_eq_ceil hn hl, rounds_of_le, fun m f => rounds_least hn f⟩
  · rw [← filter_collective_path rank]
    exact (hI.walks rank).entered_initial.filter _
  · rw [← filter_measured_path hl rank i]
    exact (hI.walks rank).entered_initial.filter _
  · rintro ⟨rank, h⟩
    exact hI.exists_step A.aligned h
  · intro hdone rank
    obtain ⟨hpath, -⟩ := (hI.walks rank).finished (hdone rank)
    rw [hpath]
    refine ⟨filter_collective_path rank, fun i hi => ?_⟩
    rw [filter_measured_path hl, if_pos hi]

/-- Two clients, one at a time. -/
def onePerRound : LimitedArgs where
  nranks := 2
  limited := 1
  count := 1
  warmup := false
  serverNranks := 2
  gatherHolds _ := false

abbrev ClientLabel : Type := Fin onePerRound.nranks × Event LimitedCall

def alone (rank : Fin 2) (c : LimitedCall) : List ClientLabel :=
  [(rank, .enter c), (rank, .leave c)]

def together (c : LimitedCall) : List ClientLabel :=
  [((0 : Fin 2), .enter c), ((1 : Fin 2), .enter c), ((0 : Fin 2), .leave c),
    ((1 : Fin 2), .leave c)]

def onePerRoundRun : List ClientLabel :=
  together (.before 0 0) ++ alone 0 (.sum 0 0 ⟨0, 1⟩) ++ together (.after 0 0) ++
    together (.before 0 1) ++ alone 1 (.sum 0 1 ⟨1, 3⟩) ++ together (.after 0 1) ++
    together (.gather 0)

theorem limited_run_two :
    ∃ s, Trace (Step onePerRound.doSumLimited) onePerRound.doSumLimited.start onePerRoundRun s ∧
      (∀ rank, s.current rank = none) ∧ onePerRound.rounds = ⌈(2 : ℚ) / 1⌉₊ ∧
      ∀ rank, (entered rank onePerRoundRun).filter (LimitedCall.measuredIn 0) =
        [.sum 0 (rank.val % onePerRound.rounds) (onePerRound.sumArgs rank)] := by
  have hfinal : ((onePerRoundRun.foldlM onePerRound.doSumLimited.step
      onePerRound.doSumLimited.start).map fun s => decide (∀ rank, s.current rank = none)) =
      some true := by decide
  obtain ⟨s, hs, hdone⟩ := Option.map_eq_some_iff.mp hfinal
  have hdone := of_decide_eq_true hdone
  have hrun : Trace (Step onePerRound.doSumLimited) onePerRound.doSumLimited.start
      onePerRoundRun s := of_foldlM hs
  obtain ⟨-, -, -, -, hall, hceil, -⟩ := limited_run (by decide) (by decide) hrun
  refine ⟨s, hrun, hdone, ?_, fun rank => (hall hdone rank).2 0 (by decide)⟩
  exact_mod_cast hceil (by decide)

end Metasim
