import Metasim.Sum

/-! What a run of the sum collective delivers, call by call and then over the tree. -/
namespace Metasim

variable {seed r : ℤ} {f : SumCalls} {j : Junk} {x : SumIn} {b o : SumOut}

@[simp] theorem wrapInt_add_left (a b : ℤ) : wrapInt (wrapInt a + b) = wrapInt (a + b) :=
  Int.bmod_add_bmod

@[simp] theorem wrapInt_add_right (a b : ℤ) : wrapInt (a + wrapInt b) = wrapInt (a + b) :=
  Int.add_bmod_bmod

@[simp] theorem wrapInt_wrapInt (a : ℤ) : wrapInt (wrapInt a) = wrapInt a := Int.bmod_bmod

/-- The sum is that of the ranks that were added, wrapped. -/
def Tallied (seed : ℤ) (o : SumOut) : Prop :=
  o.sum = wrapInt (o.ranks.map fun x => x + seed).sum

theorem tallied_zero (seed : ℤ) : Tallied seed { sum := 0, ranks := [] } := rfl

theorem Tallied.addOwn (h : Tallied seed b) (r : ℤ) :
    Tallied seed (addOwn r seed b) := by
  unfold Tallied at h ⊢
  simp [Metasim.addOwn, h]

theorem Tallied.append (h : Tallied seed b) (ho : Tallied seed o) :
    Tallied seed { sum := wrapInt (b.sum + o.sum), ranks := b.ranks ++ o.ranks } := by
  unfold Tallied at h ho ⊢
  simp [h, ho]

/-! ## The two loops -/

theorem issueRequests_ret (f : SumCalls) (cs : List ℤ) :
    (issueRequests f cs).1 = 0 ↔ ∀ c ∈ cs, f.create c = 0 ∧ f.iforward c = 0 := by
  induction cs with
  | nil => simp [issueRequests]
  | cons c cs ih =>
    rw [issueRequests]
    split_ifs with hc hi
    · simp [hc]
    · simp [hi]
    · simp_all

/-- What `margo_get_output` leaves in `_out`. -/
def received (f : SumCalls) (junk : Junk) (child : ℤ) (answer : SumOut) : SumOut :=
  if f.getOutput child = 0 then answer else { sum := junk.reply child, ranks := [] }

theorem received_ranks_le (f : SumCalls) (j : Junk) (c : ℤ) (o : SumOut) :
    (received f j c o).ranks.length ≤ o.ranks.length := by
  unfold received
  split_ifs <;> simp

theorem received_of_got {c : ℤ} (h : f.getOutput c = 0) : received f j c o = o := if_pos h

theorem received_of_lost {c : ℤ} (h : f.getOutput c ≠ 0) :
    received f j c o = { sum := j.reply c, ranks := [] } := if_neg h

/-- One turn of the second loop that gets its answer. -/
theorem collectReplies_cons {c : ℤ} {l : List (ℤ × Option SumOut)} (hw : f.wait c = 0) :
    collectReplies f j ((c, some o) :: l) b =
      (collectReplies f j l ⟨wrapInt (b.sum + (received f j c o).sum),
        b.ranks ++ (received f j c o).ranks⟩).map fun s => { s with
          calls := .wait c :: .getOutput c :: .freeOutput c :: .destroy c :: s.calls } := by
  unfold received
  simp only [collectReplies, hw, ne_eq, not_true_eq_false, if_false, Option.bind_eq_bind,
    Option.bind_some]
  generalize collectReplies f j l _ = s
  cases s <;> rfl

theorem collectReplies_failed {c : ℤ} {answer : Option SumOut} {l : List (ℤ × Option SumOut)}
    (hw : f.wait c ≠ 0) : collectReplies f j ((c, answer) :: l) b =
      some { ret := f.wait c, out := b, calls := [.wait c] } := by
  rw [collectReplies, if_pos hw]

/-- The second loop goes wrong at its first child, or goes on behind it. -/
theorem collectReplies_cases {c : ℤ} {answer : Option SumOut} {l : List (ℤ × Option SumOut)}
    {s : Forwarded} (hs : collectReplies f j ((c, answer) :: l) b = some s) :
    (f.wait c ≠ 0 ∧ s = { ret := f.wait c, out := b, calls := [.wait c] }) ∨
    (f.wait c = 0 ∧ ∃ o s', answer = some o ∧
      collectReplies f j l ⟨wrapInt (b.sum + (received f j c o).sum),
        b.ranks ++ (received f j c o).ranks⟩ = some s' ∧
      s = { s' with
        calls := .wait c :: .getOutput c :: .freeOutput c :: .destroy c :: s'.calls }) := by
  by_cases hw : f.wait c = 0
  · cases answer with
    | none => simp [collectReplies, hw] at hs
    | some o =>
      rw [collectReplies_cons hw] at hs
      obtain ⟨s', hs', rfl⟩ := Option.map_eq_some_iff.mp hs
      exact Or.inr ⟨hw, o, s', rfl, hs', rfl⟩
  · rw [collectReplies_failed hw] at hs
    exact Or.inl ⟨hw, (Option.some.inj hs).symm⟩

theorem mem_issueRequests {cs : List ℤ} {call : MargoCall}
    (h : call ∈ (issueRequests f cs).2) : ∃ c, call = .create c ∨ call = .iforward c := by
  induction cs with
  | nil => simp [issueRequests] at h
  | cons c cs ih =>
    rw [issueRequests] at h
    split_ifs at h
    · exact ⟨c, by simpa using Or.inl h⟩
    · exact ⟨c, by simpa using h⟩
    · rcases List.mem_cons.mp h with h | h
      · exact ⟨c, Or.inl h⟩
      · rcases List.mem_cons.mp h with h | h
        · exact ⟨c, Or.inr h⟩
        · exact ih h

theorem mem_collectReplies {l : List (ℤ × Option SumOut)} {s : Forwarded}
    (hs : collectReplies f j l b = some s) {call : MargoCall} (h : call ∈ s.calls) :
    ∃ c, call = .wait c ∨ call = .getOutput c ∨ call = .freeOutput c ∨ call = .destroy c := by
  induction l generalizing b s with
  | nil =>
    obtain rfl := Option.some.inj hs
    simp at h
  | cons p l ih =>
    rcases collectReplies_cases hs with ⟨_, rfl⟩ | ⟨_, o, s', _, hs', rfl⟩
    · exact ⟨p.1, Or.inl (List.mem_singleton.mp h)⟩
    · simp only [List.mem_cons] at h
      rcases h with h | h | h | h | h
      · exact ⟨p.1, Or.inl h⟩
      · exact ⟨p.1, Or.inr (Or.inl h)⟩
      · exact ⟨p.1, Or.inr (Or.inr (Or.inl h))⟩
      · exact ⟨p.1, Or.inr (Or.inr (Or.inr h))⟩
      · exact ih hs' h

/-- Answers that all arrive and are all read are added up. -/
theorem collectReplies_all {cs : List ℤ} {a : ℤ → SumOut}
    (hf : ∀ c ∈ cs, f.wait c = 0 ∧ f.getOutput c = 0) :
    ∃ s, collectReplies f j (cs.map fun c => (c, some (a c))) b = some s ∧
      s.ret = 0 ∧ wrapInt s.out.sum = wrapInt (b.sum + (cs.map fun c => (a c).sum).sum) ∧
      s.out.ranks = b.ranks ++ cs.flatMap fun c => (a c).ranks := by
  induction cs generalizing b with
  | nil => exact ⟨_, rfl, rfl, by simp, by simp⟩
  | cons c cs ih =>
    obtain ⟨hw, ho⟩ := hf c List.mem_cons_self
    obtain ⟨s, hs, hret, hsum, hranks⟩ := ih (fun d hd => hf d (List.mem_cons_of_mem c hd))
      (b := { sum := wrapInt (b.sum + (a c).sum), ranks := b.ranks ++ (a c).ranks })
    refine ⟨{ s with calls := .wait c :: .getOutput c :: .freeOutput c :: .destroy c :: s.calls },
      ?_, hret, ?_, ?_⟩
    · simp [collectReplies_cons hw, received_of_got ho, hs]
    · simpa [add_assoc] using hsum
    · simpa using hranks

/-- With zeroed memory the result is tallied whatever fails; an answer that does not arrive
or is not read leaves ranks out. -/
theorem collectReplies_some {cs : List ℤ} {a : ℤ → SumOut} {w : ℤ → ℕ}
    (hj : j.reply = fun _ => 0) (ha : ∀ c ∈ cs, Tallied seed (a c))
    (hw : ∀ c ∈ cs, 0 < w c ∧ (a c).ranks.length ≤ w c) (hacc : Tallied seed b) :
    ∃ s, collectReplies f j (cs.map fun c => (c, some (a c))) b = some s ∧
      (s.ret = 0 ↔ ∀ c ∈ cs, f.wait c = 0) ∧ Tallied seed s.out ∧
      s.out.ranks.length ≤ b.ranks.length + (cs.map w).sum ∧
      ((∃ c ∈ cs, f.wait c ≠ 0 ∨ f.getOutput c ≠ 0 ∨ (a c).ranks.length < w c) →
        s.out.ranks.length < b.ranks.length + (cs.map w).sum) := by
  induction cs generalizing b with
  | nil => exact ⟨_, rfl, by simp, hacc, by simp, by simp⟩
  | cons c cs ih =>
    have hrest := fun d hd => hw d (List.mem_cons_of_mem c hd)
    obtain ⟨hpos, hle⟩ := hw c List.mem_cons_self
    have htail : ∀ d ∈ cs, Tallied seed (a d) := fun d hd => ha d (List.mem_cons_of_mem c hd)
    by_cases hwait : f.wait c = 0
    · have hshort := received_ranks_le f j c (a c)
      have hgot : Tallied seed (received f j c (a c)) := by
        unfold received
        split_ifs
        · exact ha c List.mem_cons_self
        · rw [hj]
          exact tallied_zero seed
      obtain ⟨s, hs, hret, htally, hlen, hlt⟩ := ih htail hrest (hacc.append hgot)
      simp only [List.length_append] at hlen hlt
      refine ⟨{ s with
        calls := .wait c :: .getOutput c :: .freeOutput c :: .destroy c :: s.calls },
        ?_, ?_, htally, ?_, ?_⟩
      · simp [collectReplies_cons hwait, hs]
      · simpa [hwait] using hret
      · simp only [List.map_cons, List.sum_cons]
        omega
      · rintro ⟨d, hd, hbad⟩
        simp only [List.map_cons, List.sum_cons]
        rcases List.mem_cons.mp hd with rfl | hd
        · rcases hbad.resolve_left (not_not.mpr hwait) with hlost | hfew
          · rw [received_of_lost hlost, List.length_nil] at hlen
            omega
          · omega
        · have := hlt ⟨d, hd, hbad⟩
          omega
    · refine ⟨_, collectReplies_failed hwait, ?_, hacc, ?_, ?_⟩
      · simp [hwait]
      · simp only [List.map_cons, List.sum_cons]
        omega
      · intro _
        simp only [List.map_cons, List.sum_cons]
        omega

/-! ## One server -/

/-- No call made by a server for its children fails. -/
def CallsFine (f : SumCalls) (cs : List ℤ) : Prop :=
  cs ≠ [] → f.calloc = true ∧
    ∀ c ∈ cs, (f.create c = 0 ∧ f.iforward c = 0) ∧ f.wait c = 0 ∧ f.getOutput c = 0

variable {t : RpcTree}

/-- The result once all requests are out and the answers are collected. -/
theorem sumForward_collect {answers : List (Option SumOut)} {s : Forwarded}
    (hc : t.childCount ≠ 0) (hcalloc : f.calloc = true)
    (hissue : (issueRequests f t.children).1 = 0)
    (hs : collectReplies f j (t.children.zip answers) { sum := 0, ranks := [] } = some s) :
    sumForward r f j t x answers = some {
      ret := s.ret
      out := addOwn r x.seed s.out
      calls := .calloc :: (issueRequests f t.children).2 ++ s.calls ++ [.free] } := by
  simp [sumForward, hc, hcalloc, hissue, hs]

theorem sumForward_issue_failed {answers : List (Option SumOut)} (hc : t.childCount ≠ 0)
    (hcalloc : f.calloc = true) (hissue : (issueRequests f t.children).1 ≠ 0) :
    sumForward r f j t x answers = some {
      ret := (issueRequests f t.children).1
      out := addOwn r x.seed { sum := 0, ranks := [] }
      calls := .calloc :: (issueRequests f t.children).2 ++ [.free] } := by
  simp [sumForward, hc, hcalloc, hissue]

theorem sumForward_calloc_failed {answers : List (Option SumOut)} (hc : t.childCount ≠ 0)
    (hcalloc : f.calloc = false) :
    sumForward r f j t x answers = some {
      ret := enomem
      out := { sum := j.out, ranks := [] }
      calls := [.calloc] } := by
  simp [sumForward, hc, hcalloc]

/-- The exits of `sum_forward`. -/
theorem sumForward_cases {answers : List (Option SumOut)} {s : Forwarded}
    (hs : sumForward r f j t x answers = some s) :
    (t.childCount = 0 ∧
      s = { ret := 0, out := addOwn r x.seed { sum := 0, ranks := [] }, calls := [] }) ∨
    (t.childCount ≠ 0 ∧ f.calloc = false ∧
      s = { ret := enomem, out := { sum := j.out, ranks := [] }, calls := [.calloc] }) ∨
    (t.childCount ≠ 0 ∧ f.calloc = true ∧ (issueRequests f t.children).1 ≠ 0 ∧
      s = { ret := (issueRequests f t.children).1
            out := addOwn r x.seed { sum := 0, ranks := [] }
            calls := .calloc :: (issueRequests f t.children).2 ++ [.free] }) ∨
    (t.childCount ≠ 0 ∧ f.calloc = true ∧ (issueRequests f t.children).1 = 0 ∧
      ∃ s', collectReplies f j (t.children.zip answers) { sum := 0, ranks := [] } = some s' ∧
        s = { ret := s'.ret
              out := addOwn r x.seed s'.out
              calls := .calloc :: (issueRequests f t.children).2 ++ s'.calls ++ [.free] }) := by
  by_cases hc : t.childCount = 0
  · rw [sumForward, if_pos hc] at hs
    exact Or.inl ⟨hc, (Option.some.inj hs).symm⟩
  · cases hcalloc : f.calloc with
    | false =>
      rw [sumForward_calloc_failed hc hcalloc] at hs
      exact Or.inr (Or.inl ⟨hc, rfl, (Option.some.inj hs).symm⟩)
    | true =>
      by_cases hissue : (issueRequests f t.children).1 = 0
      · cases hs' : collectReplies f j (t.children.zip answers) { sum := 0, ranks := [] } with
        | none => simp [sumForward, hc, hcalloc, hissue, hs'] at hs
        | some s' =>
          rw [sumForward_collect hc hcalloc hissue hs'] at hs
          exact Or.inr (Or.inr (Or.inr ⟨hc, rfl, hissue, s', rfl, (Option.some.inj hs).symm⟩))
      · rw [sumForward_issue_failed hc hcalloc hissue] at hs
        exact Or.inr (Or.inr (Or.inl ⟨hc, rfl, hissue, (Option.some.inj hs).symm⟩))

theorem zip_answers (cs : List ℤ) (g : ℤ → Option SumOut) :
    cs.zip (cs.map g) = cs.map fun c => (c, g c) := by
  rw [List.zip_eq_zipWith, List.zipWith_map_right, List.zipWith_self]

theorem sumForward_fine {a : ℤ → SumOut} (ht : t.childCount = 0 ↔ t.children = [])
    (hf : CallsFine f t.children) :
    ∃ s, sumForward r f j t x (t.children.map fun c => some (a c)) = some s ∧
      s.ret = 0 ∧
      s.out.sum = wrapInt (r + x.seed + (t.children.map fun c => (a c).sum).sum) ∧
      s.out.ranks = (t.children.flatMap fun c => (a c).ranks) ++ [r] := by
  by_cases hc : t.children = []
  · exact ⟨_, by rw [sumForward, if_pos (ht.mpr hc)], rfl, by simp [addOwn, hc],
      by simp [addOwn, hc]⟩
  · obtain ⟨hcalloc, hcalls⟩ := hf hc
    have hissue := (issueRequests_ret f t.children).mpr fun c h => (hcalls c h).1
    obtain ⟨s, hs, hret, hsum, hranks⟩ := collectReplies_all (j := j) (a := a)
      (b := { sum := 0, ranks := [] }) fun c h => (hcalls c h).2
    rw [← zip_answers t.children fun c => some (a c)] at hs
    refine ⟨_, sumForward_collect (mt ht.mp hc) hcalloc hissue hs, hret, ?_, ?_⟩
    · simp only [addOwn, wrapInt_add_right]
      rw [← wrapInt_add_left, hsum]
      simp [add_comm]
    · simp [addOwn, hranks]

/-- With zeroed memory the result is tallied whatever fails, and short of `w` as soon as a
call fails or an answer is short. -/
theorem sumForward_some {a : ℤ → SumOut} {w : ℤ → ℕ} (ht : t.childCount = 0 ↔ t.children = [])
    (hj : j = { out := 0, reply := fun _ => 0 })
    (ha : ∀ c ∈ t.children, Tallied x.seed (a c))
    (hw : ∀ c ∈ t.children, 0 < w c ∧ (a c).ranks.length ≤ w c) :
    ∃ s, sumForward r f j t x (t.children.map fun c => some (a c)) = some s ∧
      (s.ret = 0 ↔ (t.children ≠ [] → f.calloc = true ∧
        ∀ c ∈ t.children, (f.create c = 0 ∧ f.iforward c = 0) ∧ f.wait c = 0)) ∧
      Tallied x.seed s.out ∧ s.out.ranks.length ≤ (t.children.map w).sum + 1 ∧
      ((¬ CallsFine f t.children ∨ ∃ c ∈ t.children, (a c).ranks.length < w c) →
        s.out.ranks.length < (t.children.map w).sum + 1) := by
  by_cases hc : t.children = []
  · refine ⟨_, by rw [sumForward, if_pos (ht.mpr hc)], by simp [hc],
      (tallied_zero _).addOwn r, by simp [addOwn], ?_⟩
    simp [CallsFine, hc]
  have hcount : t.childCount ≠ 0 := mt ht.mp hc
  have hsum : 0 < (t.children.map w).sum := by
    obtain ⟨c, hcm⟩ := List.exists_mem_of_ne_nil _ hc
    exact (hw c hcm).1.trans_le (List.single_le_sum (by simp) _ (List.mem_map_of_mem hcm))
  by_cases hcalloc : f.calloc = true
  · by_cases hissue : (issueRequests f t.children).1 = 0
    · obtain ⟨s, hs, hret, htally, hlen, hlt⟩ := collectReplies_some (f := f) (j := j)
        (by rw [hj]) ha hw (tallied_zero x.seed)
      rw [← zip_answers t.children fun c => some (a c)] at hs
      have hcreate := (issueRequests_ret f t.children).mp hissue
      refine ⟨_, sumForward_collect hcount hcalloc hissue hs, ?_, htally.addOwn r, ?_, ?_⟩
      · simp only [hret, hcalloc, true_and]
        constructor
        · intro h _ c hcm
          exact ⟨hcreate c hcm, h c hcm⟩
        · intro h c hcm
          exact (h hc c hcm).2
      · simpa [addOwn] using hlen
      · intro h
        have hshort : s.out.ranks.length < 0 + (t.children.map w).sum := by
          apply hlt
          rcases h with h | ⟨c, hcm, h⟩
          · simp only [CallsFine, hcalloc, true_and, not_forall] at h
            obtain ⟨_, c, hcm, h⟩ := h
            refine ⟨c, hcm, ?_⟩
            have := hcreate c hcm
            tauto
          · exact ⟨c, hcm, Or.inr (Or.inr h)⟩
        simpa [addOwn] using hshort
    · refine ⟨_, sumForward_issue_failed hcount hcalloc hissue, ?_,
        (tallied_zero _).addOwn r, ?_, ?_⟩
      · simp only [hissue, false_iff]
        intro h
        exact hissue ((issueRequests_ret f t.children).mpr fun c hcm => ((h hc).2 c hcm).1)
      · simp [addOwn]
      · intro _
        simp only [addOwn, List.nil_append, List.length_singleton]
        omega
  · refine ⟨_, sumForward_calloc_failed hcount (by simpa using hcalloc), ?_, ?_, ?_, ?_⟩
    · simp [enomem, hc, hcalloc]
    · simp [hj, tallied_zero]
    · simp
    · intro _
      simp

end Metasim
