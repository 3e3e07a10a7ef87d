import Mathlib.Algebra.Order.BigOperators.Group.List
import Mathlib.Algebra.Order.Ring.Nat
import Mathlib.Data.Set.Insert
import SplitKV.Lib.Assoc
import SplitKV.Lib.Versions

/-!
# Merging any number of sorted runs

A round of the merge looks at the current binding of every cursor: it takes the least key (`minKey`), the newest
binding of that key (`winner`), and moves every cursor that stands on the key (`advance`). Cursors are abstract; what
they still have to deliver is a list (`view`), and the loop commutes with it (`minKey_view`, `winner_view`,
`advance_view`).

`Progress` is the loop invariant: every key is either untouched, or delivered with its newest binding, or dropped
because its newest binding is gone. One round keeps it (`Progress.emit`, `Progress.drop`); when the cursors are at
their ends, the output binds every key that was not dropped to its newest binding (`Progress.lookup_out`).
-/

namespace KMerge

open Assoc Versions

variable {σ κ α : Type*} [LinearOrder κ]

section Loop

variable (head : σ → Option (κ × α)) (next : σ → σ) (rank : α → Nat)

/-- The lesser of the least key so far and the key of the next cursor. -/
def lesser : Option κ → Option (κ × α) → Option κ
  | m, none => m
  | none, some p => some p.1
  | some k, some p => if p.1 < k then some p.1 else some k

/-- The least key a cursor stands on. -/
def minKey (cs : List σ) : Option κ := cs.foldl (fun m c => lesser m (head c)) none

/-- What the cursor binds `k` to, when it stands on it. -/
def candidate (k : κ) (c : σ) : Option α :=
  match head c with
  | some p => if p.1 = k then some p.2 else none
  | none => none

/-- The newest binding of `k` among the cursors. -/
def winner (k : κ) (cs : List σ) : Option α := bestOf rank (cs.map (candidate head k))

/-- A cursor that stands on `k` moves. -/
def moveOn (k : κ) (c : σ) : σ :=
  match head c with
  | some p => if p.1 = k then next c else c
  | none => c

/-- Every cursor that stands on `k` moves. -/
def advance (k : κ) (cs : List σ) : List σ := cs.map (moveOn head next k)

variable {head next rank}

theorem lesser_some (k : κ) (p : κ × α) : lesser (some k) (some p) = some (min k p.1) := by
  rw [lesser]
  split
  · rename_i hlt
    rw [min_eq_right hlt.le]
  · rename_i hle
    rw [min_eq_left (not_lt.mp hle)]

theorem foldl_lesser (k : κ) (cs : List σ) : cs.foldl (fun m c => lesser m (head c)) (some k) =
    some ((cs.filterMap fun c => (head c).map Prod.fst).foldl min k) := by
  induction cs generalizing k with
  | nil => rfl
  | cons c cs ih =>
    rw [List.foldl_cons]
    cases hc : head c with
    | none =>
      rw [List.filterMap_cons_none (by rw [hc]; rfl)]
      exact ih k
    | some p =>
      rw [List.filterMap_cons_some (by rw [hc]; rfl), List.foldl_cons, lesser_some]
      exact ih _

/-- The least key is the minimum of the keys that the cursors stand on. -/
theorem minKey_eq (cs : List σ) : minKey head cs = (cs.filterMap fun c => (head c).map Prod.fst).min? := by
  rw [minKey]
  induction cs with
  | nil => rfl
  | cons c cs ih =>
    rw [List.foldl_cons]
    cases hc : head c with
    | none =>
      rw [List.filterMap_cons_none (by rw [hc]; rfl)]
      exact ih
    | some p =>
      rw [List.filterMap_cons_some (by rw [hc]; rfl), List.min?_cons']
      exact foldl_lesser p.1 cs

/-- No least key: every cursor is at its end. -/
theorem minKey_eq_none {cs : List σ} : minKey head cs = none ↔ ∀ c ∈ cs, head c = none := by
  rw [minKey_eq, List.min?_eq_none_iff, List.filterMap_eq_nil_iff]
  simp only [Option.map_eq_none_iff]

/-- The least key is the key of some cursor and below the keys of all. -/
theorem minKey_spec {cs : List σ} {k : κ} (h : minKey head cs = some k) :
    (∃ c ∈ cs, ∃ a, head c = some (k, a)) ∧ ∀ c ∈ cs, ∀ p, head c = some p → k ≤ p.1 := by
  rw [minKey_eq, List.min?_eq_some_iff] at h
  obtain ⟨hmem, hle⟩ := h
  refine ⟨?_, fun c hc p hp => hle p.1 (List.mem_filterMap.mpr ⟨c, hc, by rw [hp]; rfl⟩)⟩
  obtain ⟨c, hc, hk⟩ := List.mem_filterMap.mp hmem
  obtain ⟨p, hp, rfl⟩ := Option.map_eq_some_iff.mp hk
  exact ⟨c, hc, p.2, hp⟩

/-- A round keeps what a move of a cursor keeps. -/
theorem forall_advance {P : σ → Prop} (hn : ∀ c, P c → P (next c)) {cs : List σ} (h : ∀ c ∈ cs, P c) (k : κ) :
    ∀ c ∈ advance head next k cs, P c := by
  intro c hc
  obtain ⟨c', hc', rfl⟩ := List.mem_map.mp hc
  unfold moveOn
  split
  · split
    · exact hn c' (h c' hc')
    · exact h c' hc'
  · exact h c' hc'

/-- A round lowers the sum of a measure that a move of each cursor lowers. -/
theorem sum_advance_lt {μ : σ → Nat} {cs : List σ} {k : κ} (hμ : ∀ c ∈ cs, head c ≠ none → μ (next c) < μ c)
    (hk : ∃ c ∈ cs, ∃ a, head c = some (k, a)) : ((advance head next k cs).map μ).sum < (cs.map μ).sum := by
  rw [advance, List.map_map]
  refine List.sum_lt_sum _ _ (fun c hc => ?_) ?_
  · simp only [Function.comp, moveOn]
    cases hh : head c with
    | none => exact Nat.le_refl _
    | some p =>
      simp only
      split
      · exact (hμ c hc (by simp [hh])).le
      · exact Nat.le_refl _
  · obtain ⟨c, hc, a, ha⟩ := hk
    refine ⟨c, hc, ?_⟩
    simp only [Function.comp, moveOn, ha, if_true]
    exact hμ c hc (by simp [ha])

end Loop

/-! ## Cursors and what they still deliver -/

section View

variable {head : σ → Option (κ × α)} {next : σ → σ} {rank : α → Nat} {view : σ → List (κ × α)} {cs : List σ}

theorem minKey_view (h : ∀ c ∈ cs, head c = (view c).head?) : minKey head cs = minKey List.head? (cs.map view) := by
  rw [minKey_eq, minKey_eq, List.filterMap_map]
  refine congrArg List.min? (List.filterMap_congr fun c hc => ?_)
  rw [h c hc]
  rfl

theorem winner_view (h : ∀ c ∈ cs, head c = (view c).head?) (k : κ) :
    winner head rank k cs = winner List.head? rank k (cs.map view) := by
  unfold winner
  rw [List.map_map]
  congr 1
  refine List.map_congr_left fun c hc => ?_
  simp only [candidate, Function.comp, h c hc]

theorem advance_view (h : ∀ c ∈ cs, head c = (view c).head?) (hn : ∀ c ∈ cs, view (next c) = (view c).tail) (k : κ) :
    (advance head next k cs).map view = advance List.head? List.tail k (cs.map view) := by
  unfold advance
  rw [List.map_map, List.map_map]
  refine List.map_congr_left fun c hc => ?_
  simp only [Function.comp, moveOn, h c hc]
  cases hv : (view c).head? with
  | none => rfl
  | some p =>
    simp only
    split
    · exact hn c hc
    · rfl

end View

/-! ## The loop invariant -/

section Runs

variable {rank : α → Nat} {gone : α → Prop}

/-- The newest binding of `k` in the runs. -/
def best (rank : α → Nat) (runs : List (List (κ × α))) (k : κ) : Option α := bestOf rank (runs.map (lookup k))

/-- On its own key, a sorted run with no lesser key is its head. -/
theorem candidate_eq_lookup {m : κ} {l : List (κ × α)} (hs : Sorted l) (hm : ∀ p, l.head? = some p → m ≤ p.1) :
    candidate List.head? m l = lookup m l := by
  cases l with
  | nil => rfl
  | cons p l =>
    rw [lookup_cons]
    simp only [candidate, List.head?_cons]
    split
    · rfl
    · rename_i hne
      have hlt : m < p.1 := lt_of_le_of_ne (hm p rfl) (Ne.symm hne)
      exact (lookup_of_lt fun q hq => hlt.trans ((sorted_cons.mp hs).1 q hq)).symm

theorem winner_eq_best {runs : List (List (κ × α))} {m : κ} (hs : ∀ l ∈ runs, Sorted l)
    (hm : minKey List.head? runs = some m) : winner List.head? rank m runs = best rank runs m := by
  unfold winner best
  congr 1
  exact List.map_congr_left fun l hl => candidate_eq_lookup (hs l hl) ((minKey_spec hm).2 l hl)

/-- The runs bind the least key. -/
theorem best_isSome {runs : List (List (κ × α))} {m : κ} (hm : minKey List.head? runs = some m) :
    ∃ w, best rank runs m = some w := by
  obtain ⟨⟨l, hl, a, ha⟩, -⟩ := minKey_spec hm
  refine bestOf_isSome_of_mem (a := a) (List.mem_map.mpr ⟨l, hl, ?_⟩)
  cases l with
  | nil => cases ha
  | cons p l => cases ha; simp

/-- Advancing past the least key removes exactly its bindings. -/
theorem lookup_advance {m : κ} {l : List (κ × α)} (hs : Sorted l) (hm : ∀ p, l.head? = some p → m ≤ p.1) (k : κ) :
    lookup k (moveOn List.head? List.tail m l) = if k = m then none else lookup k l := by
  cases l with
  | nil => simp [moveOn]
  | cons p l =>
    simp only [moveOn, List.head?_cons, List.tail_cons]
    by_cases hp : p.1 = m
    · rw [if_pos hp, hs.lookup_tail, hp]
      simp only [eq_comm]
    · rw [if_neg hp]
      by_cases hk : k = m
      · rw [if_pos hk, hk]
        have hlt : m < p.1 := lt_of_le_of_ne (hm p rfl) (Ne.symm hp)
        refine lookup_of_lt fun q hq => ?_
        rcases List.mem_cons.mp hq with rfl | hq
        · exact hlt
        · exact hlt.trans ((sorted_cons.mp hs).1 q hq)
      · rw [if_neg hk]

theorem sublist_moveOn {m : κ} (l : List (κ × α)) : (moveOn List.head? List.tail m l).Sublist l := by
  unfold moveOn
  split
  · split
    · exact List.tail_sublist l
    · exact List.Sublist.refl l
  · exact List.Sublist.refl l

/-- The state of a merge of `runs₀`: `runs` is left, `out` is delivered, the keys in `dropped` were left out. -/
structure Progress (rank : α → Nat) (gone : α → Prop) (runs₀ runs : List (List (κ × α))) (out : List (κ × α))
    (dropped : Set κ) : Prop where
  sorted : ∀ l ∈ runs, Sorted l
  sorted_out : Sorted out
  below : ∀ p ∈ out, ∀ l ∈ runs, ∀ q ∈ l, p.1 < q.1
  keys : ∀ k, (runs.map (lookup k) = runs₀.map (lookup k) ∧ lookup k out = none ∧ k ∉ dropped) ∨
    (∀ l ∈ runs, lookup k l = none) ∧
      (lookup k out = best rank runs₀ k ∧ k ∉ dropped ∨
        lookup k out = none ∧ k ∈ dropped ∧ ∃ w, best rank runs₀ k = some w ∧ gone w)

namespace Progress

variable {runs₀ runs : List (List (κ × α))} {out : List (κ × α)} {dropped : Set κ}

theorem start (h : ∀ l ∈ runs₀, Sorted l) : Progress rank gone runs₀ runs₀ [] ∅ where
  sorted := h
  sorted_out := sorted_nil
  below := fun p hp => by cases hp
  keys := fun k => Or.inl ⟨rfl, rfl, id⟩

/-- The key a round works on is untouched before it. -/
theorem min_untouched (h : Progress rank gone runs₀ runs out dropped) {m : κ}
    (hm : minKey List.head? runs = some m) :
    runs.map (lookup m) = runs₀.map (lookup m) ∧ lookup m out = none ∧ m ∉ dropped := by
  rcases h.keys m with hk | ⟨hnone, -⟩
  · exact hk
  · obtain ⟨w, hw⟩ := @best_isSome _ _ _ rank _ _ hm
    have : best rank runs m = none := bestOf_eq_none.mpr fun c hc => by
      obtain ⟨l, hl, rfl⟩ := List.mem_map.mp hc
      exact hnone l hl
    rw [this] at hw
    cases hw

theorem best_min (h : Progress rank gone runs₀ runs out dropped) {m : κ} (hm : minKey List.head? runs = some m) :
    best rank runs m = best rank runs₀ m := by
  unfold best
  rw [(h.min_untouched hm).1]

theorem le_of_min (h : Progress rank gone runs₀ runs out dropped) {m : κ} (hm : minKey List.head? runs = some m)
    {l : List (κ × α)} (hl : l ∈ runs) {q : κ × α} (hq : q ∈ l) : m ≤ q.1 := by
  cases hh : l.head? with
  | none => rw [List.head?_eq_none_iff.mp hh] at hq; cases hq
  | some p => exact ((minKey_spec hm).2 l hl p hh).trans ((h.sorted l hl).head_le hh q hq)

theorem lookup_advance_map (h : Progress rank gone runs₀ runs out dropped) {m : κ}
    (hm : minKey List.head? runs = some m) (k : κ) :
    (advance List.head? List.tail m runs).map (lookup k) =
      runs.map (fun l => if k = m then none else lookup k l) := by
  unfold advance
  rw [List.map_map]
  exact List.map_congr_left fun l hl => lookup_advance (h.sorted l hl) ((minKey_spec hm).2 l hl) k

theorem sorted_advance (h : Progress rank gone runs₀ runs out dropped) (m : κ) :
    ∀ l ∈ advance List.head? List.tail m runs, Sorted l := by
  intro l hl
  obtain ⟨l', hl', rfl⟩ := List.mem_map.mp hl
  exact (h.sorted l' hl').sublist (sublist_moveOn l')

/-- After the round, every key left lies above the key it worked on. -/
theorem lt_of_mem_advance (h : Progress rank gone runs₀ runs out dropped) {m : κ}
    (hm : minKey List.head? runs = some m) {l : List (κ × α)} (hl : l ∈ advance List.head? List.tail m runs)
    {q : κ × α} (hq : q ∈ l) : m < q.1 := by
  obtain ⟨l', hl', rfl⟩ := List.mem_map.mp hl
  have hnone := lookup_advance (h.sorted l' hl') ((minKey_spec hm).2 l' hl') m
  rw [if_pos rfl] at hnone
  have hne : q.1 ≠ m := ne_of_lookup_eq_none hnone q hq
  exact lt_of_le_of_ne (h.le_of_min hm hl' ((sublist_moveOn l').subset hq)) hne.symm

/-- The keys other than the one worked on are as before. -/
theorem keys_of_ne (h : Progress rank gone runs₀ runs out dropped) {m k : κ} (hm : minKey List.head? runs = some m)
    (hk : k ≠ m) {out' : List (κ × α)} {dropped' : Set κ} (ho : lookup k out' = lookup k out)
    (hd : k ∈ dropped' ↔ k ∈ dropped) :
    ((advance List.head? List.tail m runs).map (lookup k) = runs₀.map (lookup k) ∧ lookup k out' = none ∧
        k ∉ dropped') ∨
      (∀ l ∈ advance List.head? List.tail m runs, lookup k l = none) ∧
        (lookup k out' = best rank runs₀ k ∧ k ∉ dropped' ∨
          lookup k out' = none ∧ k ∈ dropped' ∧ ∃ w, best rank runs₀ k = some w ∧ gone w) := by
  have hl := h.lookup_advance_map hm k
  simp only [hk, if_false] at hl
  rw [ho, hd]
  rcases h.keys k with ⟨h₁, h₂, h₃⟩ | ⟨h₁, h₂⟩
  · exact Or.inl ⟨hl.trans h₁, h₂, h₃⟩
  · refine Or.inr ⟨fun l hml => ?_, h₂⟩
    have hmem : lookup k l ∈ runs.map (lookup k) := hl ▸ List.mem_map_of_mem hml
    obtain ⟨l', hl', he⟩ := List.mem_map.mp hmem
    rw [← he]
    exact h₁ l' hl'

theorem lookup_min_advance (h : Progress rank gone runs₀ runs out dropped) {m : κ}
    (hm : minKey List.head? runs = some m) : ∀ l ∈ advance List.head? List.tail m runs, lookup m l = none :=
  fun _ hl => lookup_of_lt fun _ hq => h.lt_of_mem_advance hm hl hq

/-- **A round that delivers the newest binding of the least key.** -/
theorem emit (h : Progress rank gone runs₀ runs out dropped) {m : κ} {w : α} (hm : minKey List.head? runs = some m)
    (hw : winner List.head? rank m runs = some w) :
    Progress rank gone runs₀ (advance List.head? List.tail m runs) (out ++ [(m, w)]) dropped where
  sorted := h.sorted_advance m
  sorted_out := by
    rw [sorted_append]
    refine ⟨h.sorted_out, by simp [Sorted], fun p hp q hq => ?_⟩
    rw [List.mem_singleton.mp hq]
    obtain ⟨⟨l, hl, a, ha⟩, -⟩ := minKey_spec hm
    exact h.below p hp l hl (m, a) (List.mem_of_mem_head? ha)
  below := by
    intro p hp l hl q hq
    rcases List.mem_append.mp hp with hp | hp
    · obtain ⟨l', hl', rfl⟩ := List.mem_map.mp hl
      exact h.below p hp l' hl' q ((sublist_moveOn l').subset hq)
    · rw [List.mem_singleton.mp hp]
      exact h.lt_of_mem_advance hm hl hq
  keys := by
    intro k
    by_cases hk : k = m
    · subst hk
      obtain ⟨-, hout, hd⟩ := h.min_untouched hm
      refine Or.inr ⟨h.lookup_min_advance hm, Or.inl ⟨?_, hd⟩⟩
      rw [lookup_append, hout, ← h.best_min hm, ← winner_eq_best h.sorted hm, hw]
      simp
    · refine h.keys_of_ne hm hk ?_ Iff.rfl
      rw [lookup_append, lookup_cons, if_neg (Ne.symm hk)]
      simp

/-- **A round that drops the least key, whose newest binding is gone.** -/
theorem drop (h : Progress rank gone runs₀ runs out dropped) {m : κ} {w : α} (hm : minKey List.head? runs = some m)
    (hw : winner List.head? rank m runs = some w) (hg : gone w) :
    Progress rank gone runs₀ (advance List.head? List.tail m runs) out (insert m dropped) where
  sorted := h.sorted_advance m
  sorted_out := h.sorted_out
  below := by
    intro p hp l hl q hq
    obtain ⟨l', hl', rfl⟩ := List.mem_map.mp hl
    exact h.below p hp l' hl' q ((sublist_moveOn l').subset hq)
  keys := by
    intro k
    by_cases hk : k = m
    · subst hk
      obtain ⟨-, hout, -⟩ := h.min_untouched hm
      refine Or.inr ⟨h.lookup_min_advance hm, Or.inr ⟨hout, Set.mem_insert _ _, w, ?_, hg⟩⟩
      rw [← h.best_min hm, ← winner_eq_best h.sorted hm, hw]
    · exact h.keys_of_ne hm hk rfl (by simp [hk])

/-- **At the end of the merge** every key has its newest binding in the output, or it was dropped. -/
theorem lookup_out (h : Progress rank gone runs₀ runs out dropped) (hend : minKey List.head? runs = none) (k : κ) :
    lookup k out = best rank runs₀ k ∧ k ∉ dropped ∨
      lookup k out = none ∧ k ∈ dropped ∧ ∃ w, best rank runs₀ k = some w ∧ gone w := by
  have hnil : ∀ l ∈ runs, l = [] := fun l hl => List.head?_eq_none_iff.mp (minKey_eq_none.mp hend l hl)
  rcases h.keys k with ⟨h₁, h₂, h₃⟩ | ⟨-, h₂⟩
  · refine Or.inl ⟨?_, h₃⟩
    rw [h₂, eq_comm, best, ← h₁, bestOf_eq_none]
    intro c hc
    obtain ⟨l, hl, rfl⟩ := List.mem_map.mp hc
    rw [hnil l hl]
    rfl
  · exact h₂

end Progress

/-- The bindings left to deliver. -/
def size (runs : List (List (κ × α))) : Nat := (runs.map List.length).sum

/-- A round delivers at least one binding. -/
theorem size_advance_lt {runs : List (List (κ × α))} {m : κ} (h : ∃ l ∈ runs, ∃ a, l.head? = some (m, a)) :
    size (advance List.head? List.tail m runs) < size runs := by
  refine sum_advance_lt (fun l _ hl => ?_) h
  cases l with
  | nil => exact absurd rfl hl
  | cons p t => exact Nat.lt_succ_self _

end Runs

end KMerge
