import Mathlib.Data.Int.Basic
import Mathlib.Data.List.TakeWhile

/-! NUL-terminated strings in buffers of fixed size, and reading a text file by lines. -/
namespace CString

/-- The terminating NUL. -/
def nul : Char := '\x00'

/-- The string in a buffer; `none` when no NUL ends it. -/
def contents (buf : List Char) : Option (List Char) :=
  if nul ∈ buf then some (buf.takeWhile (· ≠ nul)) else none

/-- `s` and a NUL from the start of the buffer on; `none` when they do not fit. -/
def store (buf s : List Char) : Option (List Char) :=
  if s.length < buf.length then some (s ++ nul :: buf.drop (s.length + 1)) else none

/-- `buf[i] = c`; `none` when `i` is no index. -/
def put (buf : List Char) (i : ℤ) (c : Char) : Option (List Char) :=
  if 0 ≤ i ∧ i < buf.length then some (buf.set i.toNat c) else none

/-- The first line of a text with its newline, cut after `m` characters. -/
def line : ℕ → List Char → List Char
  | 0, _ => []
  | _, [] => []
  | m + 1, c :: rest => if c = '\n' then [c] else c :: line m rest

/-- The buffer after `fgets(buf, size, fp)`; at the end of the file it is not written. -/
def fgets (buf : List Char) (size : ℕ) (text : List Char) : Option (List Char) :=
  if text = [] then some buf else store buf (line (size - 1) text)

/-- Where `c` first occurs in a string. -/
def strchr (s : List Char) (c : Char) : Option ℕ :=
  if c ∈ s then some (s.takeWhile (· ≠ c)).length else none

variable {buf b s : List Char}

theorem length_line_le (m : ℕ) (text : List Char) : (line m text).length ≤ m := by
  induction text generalizing m with
  | nil => cases m <;> simp [line]
  | cons c text ih =>
    cases m with
    | zero => simp [line]
    | succ m =>
      rw [line]
      split_ifs
      · simp
      · simpa using ih m

theorem head?_line (m : ℕ) (text : List Char) : (line (m + 1) text).head? = text.head? := by
  cases text with
  | nil => rfl
  | cons c text =>
    rw [line]
    split_ifs <;> rfl

/-- A line without a newline is cut only by the size. -/
theorem line_plain (m : ℕ) (h : '\n' ∉ s) : line m s = s.take m := by
  induction s generalizing m with
  | nil => cases m <;> rfl
  | cons c s ih =>
    cases m with
    | zero => rfl
    | succ m =>
      have hc : c ≠ '\n' := fun hc => h (hc ▸ List.mem_cons_self)
      rw [line, if_neg hc, List.take_succ_cons, ih m fun hs => h (List.mem_cons_of_mem c hs)]

theorem line_terminated (m : ℕ) (h : '\n' ∉ s) :
    line m (s ++ ['\n']) = (s ++ ['\n']).take m := by
  induction s generalizing m with
  | nil => cases m <;> simp [line]
  | cons c s ih =>
    cases m with
    | zero => rfl
    | succ m =>
      have hc : c ≠ '\n' := fun hc => h (hc ▸ List.mem_cons_self)
      have hs : '\n' ∉ s := fun hs => h (List.mem_cons_of_mem c hs)
      simp [line, hc, ih m hs]

theorem contents_append (b : List Char) (h : nul ∉ s) : contents (s ++ nul :: b) = some s := by
  have hs : ∀ c ∈ s, decide (c ≠ nul) = true := fun c hc =>
    decide_eq_true fun heq => h (heq ▸ hc)
  rw [contents, if_pos (by simp), List.takeWhile_append_of_pos hs]
  simp

theorem not_mem_takeWhile (c : Char) (s : List Char) : c ∉ s.takeWhile (· ≠ c) := by
  intro h
  simpa using List.mem_takeWhile_imp h

/-- Up to its first occurrence of `c`, a string that has one. -/
theorem takeWhile_split {c : Char} (h : c ∈ s) :
    ∃ t, s = s.takeWhile (· ≠ c) ++ c :: t := by
  induction s with
  | nil => simp at h
  | cons d s ih =>
    by_cases hd : d = c
    · exact ⟨s, by simp [hd]⟩
    · obtain ⟨t, ht⟩ := ih ((List.mem_cons.mp h).resolve_left fun he => hd he.symm)
      exact ⟨t, by simpa [hd] using ht⟩

/-- What follows a string in its buffer begins with its NUL. -/
theorem buffer_split (s b : List Char) :
    ∃ b', s ++ nul :: b = s.takeWhile (· ≠ nul) ++ nul :: b' := by
  obtain ⟨t, ht⟩ := takeWhile_split (s := s ++ nul :: b) (c := nul) (by simp)
  refine ⟨t, ht.trans ?_⟩
  congr 1
  by_cases h : nul ∈ s
  · obtain ⟨u, hu⟩ := takeWhile_split h
    have hcut : ∀ c ∈ s.takeWhile (· ≠ nul), decide (c ≠ nul) = true := fun c hc =>
      decide_eq_true fun heq => not_mem_takeWhile nul s (heq ▸ hc)
    conv_lhs => rw [hu]
    rw [List.append_assoc, List.takeWhile_append_of_pos hcut]
    simp
  · have hall : ∀ c ∈ s, decide (c ≠ nul) = true := fun c hc =>
      decide_eq_true fun heq => h (heq ▸ hc)
    rw [List.takeWhile_append_of_pos hall, List.takeWhile_eq_self_iff.mpr hall]
    simp

/-- What lies behind a buffer is no part of its string. -/
theorem contents_left (b : List Char) (h : nul ∈ buf) : contents (buf ++ b) = contents buf := by
  obtain ⟨t, ht⟩ := takeWhile_split h
  have hs := not_mem_takeWhile nul buf
  generalize buf.takeWhile (· ≠ nul) = s at ht hs
  rw [ht, List.append_assoc, List.cons_append, contents_append _ hs, contents_append _ hs]

/-- Cutting a string at the first `c`. -/
theorem contents_cut {c : Char} (h : c ∈ s) (hs : nul ∉ s) :
    (put (s ++ [nul]) ((s.takeWhile (· ≠ c)).length : ℕ) nul).bind contents =
      some (s.takeWhile (· ≠ c)) := by
  obtain ⟨t, ht⟩ := takeWhile_split h
  generalize s.takeWhile (· ≠ c) = p at ht ⊢
  subst ht
  have hp : nul ∉ p := fun hn => hs (List.mem_append_left _ hn)
  have hput : put (p ++ c :: t ++ [nul]) (p.length : ℕ) nul = some (p ++ nul :: (t ++ [nul])) := by
    rw [put, if_pos]
    · simp
    · simp only [List.length_append, List.length_cons, List.length_nil]
      omega
  rw [hput, Option.bind_some, contents_append _ hp]

theorem store_some (buf : List Char) (h : s.length < buf.length) :
    store buf s = some (s ++ nul :: buf.drop (s.length + 1)) := if_pos h

/-- Overwriting the last character of a string shortens it by one. -/
theorem put_last (b : List Char) (h : s ≠ []) :
    put (s ++ nul :: b) (s.length - 1) nul = some (s.dropLast ++ nul :: nul :: b) := by
  rcases List.eq_nil_or_concat s with rfl | ⟨t, c, rfl⟩
  · exact absurd rfl h
  · have hlen : ((t.concat c).length : ℤ) - 1 = t.length := by simp
    rw [hlen, put, if_pos]
    · simp
    · simp
      omega

end CString
