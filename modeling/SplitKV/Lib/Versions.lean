import Mathlib.Data.List.Basic
import Mathlib.Order.Lattice

/-!
# Version lists

The versions of one key, in search order. A search returns the first one; `shown gone l` is what the search tells its
caller when a first version satisfying `gone` hides the key.

- `NewestFirst`: the first version has the greatest rank; `Descending`: so has the first version of every rest;
  `Coherent`: a rank belongs to one version.
- `Merged`: a block of versions is replaced by its newest one, or, when nothing lies below it and its newest one is
  gone, by nothing. A merge below any newer versions changes nothing a search shows (`Merged.shown_eq`) and keeps
  both properties (`Merged.newestFirst`, `Coherent.mono`).
- `bestOf`: the newest of several candidates, the first one on ties, as a scan with a strict comparison finds it.
-/

namespace Versions

variable {α : Type*}

/-- What a search over the versions `l` shows: the first one, unless it marks the key as gone. -/
def shown (gone : α → Prop) [DecidablePred gone] (l : List α) : Option α :=
  match l.head? with
  | some a => if gone a then none else some a
  | none => none

theorem shown_eq_some {gone : α → Prop} [DecidablePred gone] {l : List α} {a : α} (h : shown gone l = some a) :
    l.head? = some a ∧ ¬gone a := by
  unfold shown at h
  split at h
  · split at h
    · cases h
    · cases h
      exact ⟨by assumption, by assumption⟩
  · cases h

section Rank

variable (rank : α → Nat)

/-- The first version has the greatest rank. -/
def NewestFirst (l : List α) : Prop := ∀ a, l.head? = some a → ∀ b ∈ l, rank b ≤ rank a

/-- The ranks never increase. -/
def Descending (l : List α) : Prop := l.Pairwise (fun a b => rank b ≤ rank a)

/-- Two versions of one rank are the same version. -/
def Coherent (l : List α) : Prop := ∀ a ∈ l, ∀ b ∈ l, rank a = rank b → a = b

/-- One step of a merge on the versions of a key, which lie in search order above, in and below the merged block. -/
inductive Merged (gone : α → Prop) : List α → List α → Prop
  | refl (l : List α) : Merged gone l l
  | keep (A I D : List α) (w : α) : w ∈ I → (∀ b ∈ I, rank b ≤ rank w) → Merged gone (A ++ I ++ D) (A ++ w :: D)
  | drop (A I : List α) (w : α) : w ∈ I → (∀ b ∈ I, rank b ≤ rank w) → gone w → Merged gone (A ++ I) A

variable {rank}

theorem newestFirst_nil : NewestFirst rank ([] : List α) := fun _ h => by cases h

theorem newestFirst_cons {a : α} {l : List α} : NewestFirst rank (a :: l) ↔ ∀ b ∈ l, rank b ≤ rank a := by
  refine ⟨fun h b hb => h a rfl b (List.mem_cons_of_mem _ hb), fun h c hc b hb => ?_⟩
  cases hc
  rcases List.mem_cons.mp hb with rfl | hb
  · exact Nat.le_refl _
  · exact h b hb

theorem Descending.newestFirst {l : List α} (h : Descending rank l) : NewestFirst rank l := by
  cases l with
  | nil => exact newestFirst_nil
  | cons a l => exact newestFirst_cons.mpr (List.pairwise_cons.mp h).1

theorem Coherent.mono {l l' : List α} (h : Coherent rank l) (hs : ∀ a ∈ l', a ∈ l) : Coherent rank l' :=
  fun a ha b hb => h a (hs a ha) b (hs b hb)

/-- A new version above all others. -/
theorem Coherent.cons {a : α} {l : List α} (h : Coherent rank l) (ha : ∀ b ∈ l, rank b < rank a) :
    Coherent rank (a :: l) := by
  intro x hx y hy hxy
  rcases List.mem_cons.mp hx with hx | hx <;> rcases List.mem_cons.mp hy with hy | hy
  · rw [hx, hy]
  · have := ha y hy; subst hx; omega
  · have := ha x hx; subst hy; omega
  · exact h x hx y hy hxy

/-- Newest first depends only on the first version and the set of versions. -/
theorem NewestFirst.congr {l l' : List α} (h : NewestFirst rank l) (hh : l'.head? = l.head?)
    (hs : ∀ a ∈ l', a ∈ l) : NewestFirst rank l' := fun a ha b hb => h a (hh ▸ ha) b (hs b hb)

/-- The newest version of a coherent list in newest-first order is its head. -/
theorem eq_head_of_max {a w : α} {l : List α} (hn : NewestFirst rank (a :: l)) (hc : Coherent rank (a :: l))
    (hw : w ∈ a :: l) (hmax : rank a ≤ rank w) : w = a :=
  hc w hw a (List.mem_cons_self) (Nat.le_antisymm (hn a rfl w hw) hmax)

variable {gone : α → Prop}

theorem Merged.subset {l l' : List α} (h : Merged rank gone l l') : ∀ a ∈ l', a ∈ l := by
  cases h with
  | refl => exact fun a ha => ha
  | keep A I D w hw _ =>
    intro a ha
    simp only [List.mem_append, List.mem_cons] at ha ⊢
    rcases ha with ha | rfl | ha
    · exact Or.inl (Or.inl ha)
    · exact Or.inl (Or.inr hw)
    · exact Or.inr ha
  | drop A I w _ _ _ => exact fun a ha => List.mem_append_left _ ha

/-- A merge either leaves the first version alone, or it drops the last one there was, which was gone. -/
theorem Merged.head {P l l' : List α} (h : Merged rank gone l l') (hn : NewestFirst rank (P ++ l))
    (hc : Coherent rank (P ++ l)) :
    (P ++ l').head? = (P ++ l).head? ∨ P ++ l' = [] ∧ ∃ w, (P ++ l).head? = some w ∧ gone w := by
  cases P with
  | cons p P => exact Or.inl rfl
  | nil =>
    simp only [List.nil_append] at hn hc ⊢
    cases h with
    | refl => exact Or.inl rfl
    | keep A I D w hw hmax =>
      cases A with
      | cons a A => exact Or.inl rfl
      | nil =>
        cases I with
        | nil => cases hw
        | cons i I =>
          simp only [List.nil_append, List.cons_append] at hn hc ⊢
          have hi : w = i :=
            eq_head_of_max hn hc (by simpa using List.mem_append_left D hw) (hmax i List.mem_cons_self)
          exact Or.inl (by simp [hi])
    | drop A I w hw hmax hg =>
      cases hA : l' with
      | cons a A => exact Or.inl rfl
      | nil =>
        subst hA
        cases I with
        | nil => cases hw
        | cons i I =>
          simp only [List.nil_append] at hn hc ⊢
          have hi : w = i := eq_head_of_max hn hc hw (hmax i List.mem_cons_self)
          exact Or.inr ⟨trivial, i, rfl, hi ▸ hg⟩

/-- **A merge below newer versions changes nothing a search shows.** -/
theorem Merged.shown_eq [DecidablePred gone] {P l l' : List α} (h : Merged rank gone l l')
    (hn : NewestFirst rank (P ++ l)) (hc : Coherent rank (P ++ l)) : shown gone (P ++ l') = shown gone (P ++ l) := by
  rcases h.head hn hc with he | ⟨he, w, hw, hg⟩
  · rw [shown, he, shown]
  · rw [he, shown, shown, hw]
    simp [hg]

theorem Merged.newestFirst {P l l' : List α} (h : Merged rank gone l l') (hn : NewestFirst rank (P ++ l))
    (hc : Coherent rank (P ++ l)) : NewestFirst rank (P ++ l') := by
  rcases h.head hn hc with he | ⟨he, -⟩
  · refine hn.congr he fun a ha => ?_
    rcases List.mem_append.mp ha with ha | ha
    · exact List.mem_append_left _ ha
    · exact List.mem_append_right _ (h.subset a ha)
  · rw [he]
    exact newestFirst_nil

end Rank

/-! ## The newest candidate -/

section BestOf

variable (rank : α → Nat)

/-- The better of the best candidate so far and the next one; the next one must be strictly newer. -/
def newer : Option α → Option α → Option α
  | best, none => best
  | none, some a => some a
  | some b, some a => if rank b < rank a then some a else some b

/-- The newest of the candidates; on ties the first one. -/
def bestOf (l : List (Option α)) : Option α := l.foldl (newer rank) none

/-- `r` is a newest candidate of `S`. -/
structure IsBest (r : Option α) (S : List (Option α)) : Prop where
  none_iff : r = none ↔ ∀ c ∈ S, c = none
  mem : ∀ w, r = some w → some w ∈ S
  max : ∀ w, r = some w → ∀ b, some b ∈ S → rank b ≤ rank w

variable {rank}

theorem isBest_newer (best c : Option α) : IsBest rank (newer rank best c) [best, c] := by
  cases best <;> cases c
  case some.some b a =>
    by_cases h : rank b < rank a
    · refine ⟨by simp [newer, h], by simp [newer, h], ?_⟩
      simp only [newer, h, if_true, Option.some.injEq, forall_eq', List.mem_cons, List.not_mem_nil, or_false]
      rintro x (rfl | rfl) <;> omega
    · refine ⟨by simp [newer, h], by simp [newer, h], ?_⟩
      simp only [newer, h, if_false, Option.some.injEq, forall_eq', List.mem_cons, List.not_mem_nil, or_false]
      rintro x (rfl | rfl) <;> omega
  all_goals exact ⟨by simp [newer], by simp [newer], by simp [newer]⟩

/-- A newest candidate stands for the candidates it was chosen from. -/
theorem IsBest.trans {r x : Option α} {S T : List (Option α)} (h : IsBest rank r (x :: T)) (hx : IsBest rank x S) :
    IsBest rank r (S ++ T) := by
  refine ⟨?_, fun w hw => ?_, fun w hw b hb => ?_⟩
  · rw [h.none_iff]
    simp only [List.mem_cons, List.mem_append, or_imp, forall_and, forall_eq, hx.none_iff]
  · rcases List.mem_cons.mp (h.mem w hw) with he | hm
    · exact List.mem_append_left _ (hx.mem w he.symm)
    · exact List.mem_append_right _ hm
  · rcases List.mem_append.mp hb with hb | hb
    · cases hxe : x with
      | none => exact absurd (hx.none_iff.mp hxe _ hb) (by simp)
      | some y => exact Nat.le_trans (hx.max y hxe b hb) (h.max w hw y (by simp [hxe]))
    · exact h.max w hw b (List.mem_cons_of_mem _ hb)

theorem isBest_foldl (l : List (Option α)) : ∀ best : Option α, IsBest rank (l.foldl (newer rank) best) (best :: l) := by
  induction l with
  | nil =>
    intro best
    refine ⟨by simp, fun w hw => by simp_all, fun w hw b hb => ?_⟩
    simp_all
  | cons c l ih => exact fun best => (ih (newer rank best c)).trans (isBest_newer best c)

theorem isBest_bestOf (l : List (Option α)) : IsBest rank (bestOf rank l) l := by
  have h : IsBest rank _ _ := isBest_foldl l none
  refine ⟨by simpa [bestOf] using h.none_iff, fun w hw => ?_, fun w hw b hb => h.max w hw b (List.mem_cons_of_mem _ hb)⟩
  simpa using h.mem w hw

theorem bestOf_eq_none {l : List (Option α)} : bestOf rank l = none ↔ ∀ c ∈ l, c = none := (isBest_bestOf l).none_iff

/-- The newest candidate is a candidate of the greatest rank. -/
theorem bestOf_spec {l : List (Option α)} {w : α} (h : bestOf rank l = some w) :
    some w ∈ l ∧ ∀ b, some b ∈ l → rank b ≤ rank w := ⟨(isBest_bestOf l).mem w h, (isBest_bestOf l).max w h⟩

theorem bestOf_isSome_of_mem {l : List (Option α)} {a : α} (h : some a ∈ l) : ∃ w, bestOf rank l = some w := by
  cases hb : bestOf rank l with
  | some w => exact ⟨w, rfl⟩
  | none => cases bestOf_eq_none.mp hb _ h

end BestOf

end Versions
