import Mathlib.Data.List.Basic
import Mathlib.InformationTheory.Coding.UniquelyDecodable

/-!
# Prefix codes

In a prefix code no word starts another one, so the words of a stream can be told apart from its front
(`PrefixFree.uniquelyDecodable`). The union of two prefix codes whose words start with different letters is one.
-/

namespace PrefixCode

open InformationTheory

variable {α : Type*} {S T : Set (List α)}

/-- No word continues another one, whatever follows them. -/
def PrefixFree (S : Set (List α)) : Prop := ∀ a ∈ S, ∀ b ∈ S, ∀ x y, a ++ x = b ++ y → a = b

/-- Words with different first letters do not continue each other. -/
theorem PrefixFree.union (hs : PrefixFree S) (ht : PrefixFree T)
    (hne : ∀ a ∈ S, ∀ b ∈ T, ∃ c s d t, a = c :: s ∧ b = d :: t ∧ c ≠ d) : PrefixFree (S ∪ T) := by
  rintro a (ha | ha) b (hb | hb) x y h
  · exact hs a ha b hb x y h
  · obtain ⟨c, s, d, t, rfl, rfl, hcd⟩ := hne a ha b hb
    exact absurd (List.cons.inj h).1 hcd
  · obtain ⟨c, s, d, t, rfl, rfl, hcd⟩ := hne b hb a ha
    exact absurd (List.cons.inj h).1.symm hcd
  · exact ht a ha b hb x y h

/-- **The words of a stream** can be told apart. -/
theorem PrefixFree.uniquelyDecodable (h : PrefixFree S) (hnil : [] ∉ S) : UniquelyDecodable S := by
  intro l₁
  induction l₁ with
  | nil =>
    intro l₂ _ h₂ he
    cases l₂ with
    | nil => rfl
    | cons b l₂ =>
      have hb : b = [] := by simp_all
      exact absurd (hb ▸ h₂ b List.mem_cons_self) hnil
  | cons a l₁ ih =>
    intro l₂ h₁ h₂ he
    cases l₂ with
    | nil =>
      have ha : a = [] := by simp_all
      exact absurd (ha ▸ h₁ a List.mem_cons_self) hnil
    | cons b l₂ =>
      simp only [List.flatten_cons] at he
      obtain rfl := h a (h₁ a List.mem_cons_self) b (h₂ b List.mem_cons_self) _ _ he
      rw [ih l₂ (fun w hw => h₁ w (List.mem_cons_of_mem _ hw)) (fun w hw => h₂ w (List.mem_cons_of_mem _ hw))
        (List.append_cancel_left he)]

end PrefixCode
