import Mathlib.Data.List.Basic
import Mathlib.Data.List.Infix

/-!
# Lines of a stream

The first occurrence of a pattern in a list, and the lines of a list: the pieces that a line feed ends, without a
carriage return in front of it. A list divides at a line feed (`lines_append`), so that lines can be taken one by one.
-/

namespace Lines

variable {α : Type} [DecidableEq α]

/-! ## The first occurrence -/

/-- The place of the first occurrence of a pattern. -/
def find (pat : List α) : List α → Option Nat
  | [] => if pat = [] then some 0 else none
  | a :: s => if pat <+: a :: s then some 0 else (find pat s).map (· + 1)

/-- A pattern that occurs is found, and not behind any of its occurrences. -/
theorem find_append (pat : List α) (b : List α) : ∀ a : List α, ∃ i ≤ a.length, find pat (a ++ (pat ++ b)) = some i
  | [] => by
    rw [List.nil_append]
    cases hs : pat ++ b with
    | nil =>
      rw [List.append_eq_nil_iff] at hs
      exact ⟨0, Nat.le_refl _, if_pos hs.1⟩
    | cons x s =>
      refine ⟨0, Nat.le_refl _, if_pos ?_⟩
      rw [← hs]
      exact List.prefix_append pat b
  | x :: a => by
    obtain ⟨i, hi, hf⟩ := find_append pat b a
    rw [List.cons_append, find, hf]
    split
    · exact ⟨0, Nat.zero_le _, rfl⟩
    · exact ⟨i + 1, by simpa using hi, rfl⟩

/-- What is found is an occurrence. -/
theorem find_some {pat : List α} : ∀ {s : List α} {i : Nat}, find pat s = some i →
    ∃ b, s = s.take i ++ (pat ++ b) ∧ i ≤ s.length
  | [], i, h => by
    rw [find] at h
    split at h
    · rename_i hp
      cases h
      exact ⟨[], by rw [hp]; rfl, Nat.le_refl _⟩
    · cases h
  | x :: s, i, h => by
    rw [find] at h
    split at h
    · rename_i hp
      cases h
      obtain ⟨b, hb⟩ := hp
      exact ⟨b, by rw [hb]; rfl, Nat.zero_le _⟩
    · obtain ⟨j, hj, rfl⟩ := Option.map_eq_some_iff.mp h
      obtain ⟨b, hb, hle⟩ := find_some hj
      refine ⟨b, ?_, by simpa using hle⟩
      rw [List.take_succ_cons, List.cons_append, ← hb]

theorem find_eq_none {pat s : List α} (h : ∀ a b, s ≠ a ++ (pat ++ b)) : find pat s = none := by
  cases hf : find pat s with
  | none => rfl
  | some i =>
    obtain ⟨b, hb, -⟩ := find_some hf
    exact absurd hb (h _ b)

/-- The first of all occurrences is found. -/
theorem find_eq_some {pat a b : List α} (h : ∀ a' b', a ++ (pat ++ b) = a' ++ (pat ++ b') → a.length ≤ a'.length) :
    find pat (a ++ (pat ++ b)) = some a.length := by
  obtain ⟨i, hi, hf⟩ := find_append pat b a
  obtain ⟨b', hb, hle⟩ := find_some hf
  have hlen := h _ b' hb
  rw [List.length_take, Nat.min_eq_left hle] at hlen
  rw [hf, Nat.le_antisymm hi hlen]

/-! ## Lines -/

variable (lf cr : α)

/-- A line without the carriage return at its end. -/
def strip (line : List α) : List α := if line.getLast? = some cr then line.dropLast else line

/-- The lines behind what there is of the first one. -/
def linesFrom : List α → List α → List (List α)
  | _, [] => []
  | line, a :: s => if a = lf then strip cr line :: linesFrom [] s else linesFrom (line ++ [a]) s

/-- The lines that a list holds; what stands behind the last line feed is no line. -/
def lines (s : List α) : List (List α) := linesFrom lf cr [] s

variable {lf cr}

theorem linesFrom_append : ∀ {line a : List α} (s : List α), lf ∉ a →
    linesFrom lf cr line (a ++ s) = linesFrom lf cr (line ++ a) s
  | line, [], s, _ => by rw [List.append_nil, List.nil_append]
  | line, x :: a, s, h => by
    have hx : x ≠ lf := fun he => h (by rw [he]; exact List.mem_cons_self)
    rw [List.cons_append, linesFrom, if_neg hx, linesFrom_append s fun hm => h (List.mem_cons_of_mem _ hm),
      List.append_assoc, List.singleton_append]

theorem lines_of_not_mem {a : List α} (h : lf ∉ a) : lines lf cr a = [] := by
  have : linesFrom lf cr [] (a ++ []) = linesFrom lf cr ([] ++ a) [] := linesFrom_append [] h
  rw [List.append_nil] at this
  rw [lines, this]
  rfl

/-- **The first line.** -/
theorem lines_cons {a : List α} (h : lf ∉ a) (s : List α) :
    lines lf cr (a ++ lf :: s) = strip cr a :: lines lf cr s := by
  rw [lines, linesFrom_append _ h, List.nil_append, linesFrom, if_pos rfl]
  rfl

/-- A list divides at a line feed. -/
theorem lines_append (s : List α) : ∀ (n : Nat) (a : List α), a.length ≤ n → (a = [] ∨ a.getLast? = some lf) →
    lines lf cr (a ++ s) = lines lf cr a ++ lines lf cr s
  | _, [], _, _ => rfl
  | 0, x :: a, hn, _ => absurd hn (by simp)
  | n + 1, x :: a, hn, h => by
    have hlast : (x :: a).getLast? = some lf := h.resolve_left (List.cons_ne_nil x a)
    obtain ⟨b, c, hbc, hb⟩ := List.eq_append_cons_of_mem (List.mem_of_getLast? hlast)
    have hlen := congrArg List.length hbc
    rw [List.length_append, List.length_cons] at hlen
    have hc : c = [] ∨ c.getLast? = some lf := by
      by_cases hc : c = []
      · exact Or.inl hc
      · rw [hbc, List.getLast?_append_of_ne_nil _ (List.cons_ne_nil lf c), List.getLast?_cons_of_ne_nil hc] at hlast
        exact Or.inr hlast
    rw [hbc, List.append_assoc, List.cons_append, lines_cons hb, lines_cons hb,
      lines_append s n c (by simp only [List.length_cons] at hn hlen; omega) hc, List.cons_append]

/-- Every line feed ends a line. -/
theorem length_lines : ∀ (n : Nat) (s : List α), s.length ≤ n → (lines lf cr s).length = s.count lf
  | 0, s, hn => by
    rw [List.length_eq_zero_iff.mp (Nat.le_zero.mp hn)]
    rfl
  | n + 1, s, hn => by
    by_cases h : lf ∈ s
    · obtain ⟨a, b, rfl, ha⟩ := List.eq_append_cons_of_mem h
      rw [List.length_append, List.length_cons] at hn
      rw [lines_cons ha, List.length_cons, length_lines n b (by omega), List.count_append, List.count_cons_self,
        List.count_eq_zero.mpr ha, Nat.zero_add]
    · rw [lines_of_not_mem h, List.count_eq_zero.mpr h]
      rfl

end Lines
