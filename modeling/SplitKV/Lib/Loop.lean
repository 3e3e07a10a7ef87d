import Mathlib.Data.Nat.Notation
import Mathlib.Tactic.TypeStar

/-!
# Loops that a measure ends

A loop takes turns: each one goes on in a new state, or ends with a result. Nothing is said about the number of turns;
a loop ends when every turn from a state of the invariant leads to one, and lowers a measure (`Ranked.endsWithin`).
-/

namespace Loop

variable {σ ρ : Type*}

/-- What a turn does: the loop goes on in a state, or ends with a result. -/
inductive Turn (σ ρ : Type*) where
  | next (s : σ)
  | done (r : ρ)

/-- The result of a loop that ends within `n` turns. -/
def run (turn : σ → Turn σ ρ) : Nat → σ → Option ρ
  | 0, _ => none
  | n + 1, s =>
    match turn s with
    | .next s => run turn n s
    | .done r => some r

/-- The loop ends within `n` turns. -/
def EndsWithin (turn : σ → Turn σ ρ) (n : Nat) (s : σ) : Prop := (run turn n s).isSome

variable {turn : σ → Turn σ ρ} {s s' : σ} {r : ρ}

theorem run_next (h : turn s = .next s') (n : Nat) : run turn (n + 1) s = run turn n s' := by
  rw [run, h]

theorem run_done (h : turn s = .done r) (n : Nat) : run turn (n + 1) s = some r := by
  rw [run, h]

/-- More turns do not change the result. -/
theorem run_mono : ∀ {n m : Nat} {s : σ}, run turn n s = some r → n ≤ m → run turn m s = some r
  | 0, _, _, h, _ => by cases h
  | n + 1, 0, _, _, hm => absurd hm (Nat.not_succ_le_zero n)
  | n + 1, m + 1, s, h, hm => by
    cases ht : turn s with
    | next s' =>
      rw [run_next ht] at h ⊢
      exact run_mono h (Nat.le_of_succ_le_succ hm)
    | done r' =>
      rw [run_done ht] at h ⊢
      exact h

/-- A turn that goes on keeps the invariant and lowers the measure. -/
def Ranked (turn : σ → Turn σ ρ) (I : σ → Prop) (μ : σ → Nat) : Prop :=
  ∀ s s', I s → turn s = .next s' → I s' ∧ μ s' < μ s

/-- **A measure that every turn lowers** ends the loop. -/
theorem Ranked.endsWithin {I : σ → Prop} {μ : σ → Nat} (h : Ranked turn I μ) : ∀ {n : Nat} {s : σ}, I s → μ s < n →
    EndsWithin turn n s
  | 0, s, _, hn => absurd hn (Nat.not_lt_zero _)
  | n + 1, s, hs, hn => by
    cases ht : turn s with
    | next s' =>
      obtain ⟨hs', hlt⟩ := h s s' hs ht
      have hrest : EndsWithin turn n s' := Ranked.endsWithin h hs' (by omega)
      rwa [EndsWithin, run_next ht]
    | done r => rw [EndsWithin, run_done ht, Option.isSome_some]

end Loop
