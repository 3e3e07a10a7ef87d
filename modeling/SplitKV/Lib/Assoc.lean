import Mathlib.Data.List.Lex
import Mathlib.Order.Lattice

/-!
# Strictly sorted association lists

A list of bindings whose keys strictly increase is a finite map: `lookup` finds a binding iff it is in the list
(`Sorted.lookup_eq_some_iff`), and the lookups in two lists of which the first lies wholly below the second do not
interfere (`Sorted.append`). The last binding of a sorted list carries the greatest key (`Sorted.le_getLast`).
-/

namespace Assoc

variable {κ α : Type*} [LinearOrder κ]

/-- The keys of the bindings strictly increase. -/
def Sorted (l : List (κ × α)) : Prop := l.Pairwise (fun p q => p.1 < q.1)

@[simp] theorem sorted_nil : Sorted ([] : List (κ × α)) := List.Pairwise.nil

theorem sorted_cons {p : κ × α} {l : List (κ × α)} : Sorted (p :: l) ↔ (∀ q ∈ l, p.1 < q.1) ∧ Sorted l :=
  List.pairwise_cons

theorem Sorted.tail {l : List (κ × α)} (h : Sorted l) : Sorted l.tail := List.Pairwise.sublist (List.tail_sublist l) h

theorem Sorted.sublist {l l' : List (κ × α)} (h : Sorted l) (hs : l'.Sublist l) : Sorted l' := List.Pairwise.sublist hs h

theorem sorted_append {l₁ l₂ : List (κ × α)} :
    Sorted (l₁ ++ l₂) ↔ Sorted l₁ ∧ Sorted l₂ ∧ ∀ p ∈ l₁, ∀ q ∈ l₂, p.1 < q.1 := List.pairwise_append

/-- What the list binds `k` to: its first binding. -/
def lookup (k : κ) : List (κ × α) → Option α
  | [] => none
  | p :: l => if p.1 = k then some p.2 else lookup k l

@[simp] theorem lookup_nil (k : κ) : lookup k ([] : List (κ × α)) = none := rfl

theorem lookup_cons (p : κ × α) (l : List (κ × α)) (k : κ) :
    lookup k (p :: l) = if p.1 = k then some p.2 else lookup k l := rfl

@[simp] theorem lookup_cons_self (k : κ) (a : α) (l : List (κ × α)) : lookup k ((k, a) :: l) = some a := if_pos rfl

theorem lookup_cons_of_ne {p : κ × α} {k : κ} (h : p.1 ≠ k) (l : List (κ × α)) : lookup k (p :: l) = lookup k l :=
  if_neg h

theorem lookup_append (l₁ l₂ : List (κ × α)) (k : κ) : lookup k (l₁ ++ l₂) = (lookup k l₁).or (lookup k l₂) := by
  induction l₁ with
  | nil => rfl
  | cons p l₁ ih =>
    rw [List.cons_append, lookup_cons, lookup_cons]
    split
    · rfl
    · exact ih

/-- A found binding is in the list. -/
theorem mem_of_lookup {l : List (κ × α)} {k : κ} {a : α} (h : lookup k l = some a) : (k, a) ∈ l := by
  induction l with
  | nil => cases h
  | cons p l ih =>
    rw [lookup_cons] at h
    split at h
    · rename_i hk
      cases h
      rw [← hk]
      exact List.mem_cons_self
    · exact List.mem_cons_of_mem _ (ih h)

theorem lookup_eq_none {l : List (κ × α)} {k : κ} (h : ∀ p ∈ l, p.1 ≠ k) : lookup k l = none := by
  cases hl : lookup k l with
  | none => rfl
  | some a => exact absurd rfl (h _ (mem_of_lookup hl))

theorem ne_of_lookup_eq_none {l : List (κ × α)} {k : κ} (h : lookup k l = none) : ∀ p ∈ l, p.1 ≠ k := by
  induction l with
  | nil => intro p hp; cases hp
  | cons q l ih =>
    rw [lookup_cons] at h
    split at h
    · cases h
    · intro p hp
      rcases List.mem_cons.mp hp with rfl | hp
      · assumption
      · exact ih h p hp

/-- **A sorted list is a map**: it binds a key to what it contains for it. -/
theorem Sorted.lookup_eq_some_iff {l : List (κ × α)} (h : Sorted l) {k : κ} {a : α} :
    lookup k l = some a ↔ (k, a) ∈ l := by
  refine ⟨mem_of_lookup, fun hm => ?_⟩
  induction l with
  | nil => cases hm
  | cons p l ih =>
    rw [sorted_cons] at h
    rw [lookup_cons]
    rcases List.mem_cons.mp hm with rfl | hm
    · simp
    · rw [if_neg (h.1 _ hm).ne]
      exact ih h.2 hm

/-- A key below every key of a list is not bound by it. -/
theorem lookup_of_lt {l : List (κ × α)} {k : κ} (h : ∀ p ∈ l, k < p.1) : lookup k l = none :=
  lookup_eq_none fun p hp => (h p hp).ne'

theorem lookup_of_gt {l : List (κ × α)} {k : κ} (h : ∀ p ∈ l, p.1 < k) : lookup k l = none :=
  lookup_eq_none fun p hp => (h p hp).ne

/-- The first binding of a sorted list has the least key. -/
theorem Sorted.head_le {l : List (κ × α)} (h : Sorted l) {p : κ × α} (hp : l.head? = some p) :
    ∀ q ∈ l, p.1 ≤ q.1 := by
  cases l with
  | nil => cases hp
  | cons a l =>
    cases hp
    intro q hq
    rcases List.mem_cons.mp hq with rfl | hq
    · exact le_refl _
    · exact ((sorted_cons.mp h).1 q hq).le

/-- The last binding of a sorted list has the greatest key. -/
theorem Sorted.le_getLast {l : List (κ × α)} (h : Sorted l) {p : κ × α} (hp : l.getLast? = some p) :
    ∀ q ∈ l, q.1 ≤ p.1 := by
  obtain ⟨l', rfl⟩ := List.getLast?_eq_some_iff.mp hp
  intro q hq
  rcases List.mem_append.mp hq with hq | hq
  · exact ((sorted_append.mp h).2.2 q hq p (by simp)).le
  · rw [List.mem_singleton.mp hq]

/-- The head of a sorted list is what the list binds its key to; the other keys are bound by the tail. -/
theorem Sorted.lookup_tail {p : κ × α} {l : List (κ × α)} (h : Sorted (p :: l)) (k : κ) :
    lookup k l = if p.1 = k then none else lookup k (p :: l) := by
  by_cases hk : p.1 = k
  · subst hk
    rw [if_pos rfl]
    exact lookup_of_lt (sorted_cons.mp h).1
  · rw [if_neg hk, lookup_cons, if_neg hk]

/-- Taking the bindings of a key out of a list leaves the lookups of the other keys. -/
theorem lookup_filter_ne (k : κ) (l : List (κ × α)) (k' : κ) :
    lookup k' (l.filter (fun p => p.1 ≠ k)) = if k' = k then none else lookup k' l := by
  induction l with
  | nil => simp
  | cons p l ih =>
    by_cases hp : p.1 = k
    · rw [List.filter_cons_of_neg (by simpa using hp), ih, lookup_cons]
      split
      · rfl
      · rw [if_neg (fun h => ‹¬k' = k› (h.symm.trans hp))]
    · rw [List.filter_cons_of_pos (by simpa using hp), lookup_cons, lookup_cons, ih]
      by_cases hk : p.1 = k'
      · rw [if_pos hk, if_pos hk, if_neg (fun h => hp (hk.trans h))]
      · rw [if_neg hk, if_neg hk]

/-- A sorted list binds a key at most once. -/
theorem Sorted.length_filter_ne {l : List (κ × α)} (h : Sorted l) (k : κ) :
    (l.filter (fun p => p.1 ≠ k)).length = if (lookup k l).isSome then l.length - 1 else l.length := by
  induction l with
  | nil => rfl
  | cons p l ih =>
    obtain ⟨hlt, hl⟩ := sorted_cons.mp h
    by_cases hp : p.1 = k
    · subst hp
      rw [List.filter_cons_of_neg (by simp), lookup_cons, if_pos rfl,
        List.filter_eq_self.mpr fun q hq => by simpa using (hlt q hq).ne']
      rfl
    · rw [List.filter_cons_of_pos (by simpa using hp), lookup_cons_of_ne hp, List.length_cons, ih hl, List.length_cons]
      cases hk : lookup k l with
      | none => rfl
      | some a =>
        have hpos : 0 < l.length := List.length_pos_of_mem (mem_of_lookup hk)
        simp only [Option.isSome_some, if_true]
        omega

/-- Two places of a sorted list lie in the order of their keys. -/
theorem Sorted.split_lt {pre post pre' post' : List (κ × α)} {p p' : κ × α} (h : Sorted (pre ++ p :: post))
    (he : pre ++ p :: post = pre' ++ p' :: post') (hlt : p.1 < p'.1) : ∃ mid, pre' = pre ++ p :: mid := by
  rcases List.append_eq_append_iff.mp he with ⟨c, hc, hc'⟩ | ⟨c, hc, hc'⟩
  · cases c with
    | nil => cases hc'; exact absurd hlt (lt_irrefl _)
    | cons a c => cases hc'; exact ⟨c, hc⟩
  · cases c with
    | nil => cases hc'; exact absurd hlt (lt_irrefl _)
    | cons a c =>
      cases hc'
      exact absurd hlt ((sorted_append.mp h).2.2 p' (by simp [hc]) p (by simp)).not_gt

end Assoc
