import Mathlib.Data.List.Basic
import Mathlib.Tactic.TypeStar

/-!
# Moves that come to an end

A system makes moves, each of them possible in some states only. When every move lowers a rank, runs cannot go on forever,
and when a move is possible in every state that is not final, all runs end in a final state (`Ranked.completes`).
-/

namespace Progress

variable {σ α : Type*} {step : σ → α → Option σ}

/-- The moves lead from one state to another. -/
def Run (step : σ → α → Option σ) : σ → List α → σ → Prop
  | s, [], s' => s = s'
  | s, a :: as, s' => ∃ t, step s a = some t ∧ Run step t as s'

theorem Run.append {as bs : List α} {s t u : σ} (h : Run step s as t) (h' : Run step t bs u) : Run step s (as ++ bs) u := by
  induction as generalizing s with
  | nil => exact h ▸ h'
  | cons a as ih =>
    obtain ⟨s₁, hs, h⟩ := h
    exact ⟨s₁, hs, ih h⟩

theorem Run.split {as bs : List α} {s u : σ} (h : Run step s (as ++ bs) u) : ∃ t, Run step s as t ∧ Run step t bs u := by
  induction as generalizing s with
  | nil => exact ⟨s, rfl, h⟩
  | cons a as ih =>
    obtain ⟨s₁, hs, h⟩ := h
    obtain ⟨t, ha, hb⟩ := ih h
    exact ⟨t, ⟨s₁, hs, ha⟩, hb⟩

theorem Run.unique {as : List α} {s t u : σ} (h : Run step s as t) (h' : Run step s as u) : t = u := by
  induction as generalizing s with
  | nil => exact Eq.trans (Eq.symm h) h'
  | cons a as ih =>
    obtain ⟨s₁, hs₁, h⟩ := h
    obtain ⟨s₂, hs₂, h'⟩ := h'
    rw [hs₁] at hs₂
    cases hs₂
    exact ih h h'

/-- **An invariant** that the moves keep. -/
theorem Run.keeps {I : σ → Prop} (hI : ∀ s a t, I s → step s a = some t → I t) {as : List α} {s t : σ}
    (h : Run step s as t) (hs : I s) : I t := by
  induction as generalizing s with
  | nil => exact h ▸ hs
  | cons a as ih =>
    obtain ⟨s₁, hs₁, h⟩ := h
    exact ih h (hI s a s₁ hs hs₁)

/-- All runs are short, and the ones that cannot go on have ended in a final state. -/
def Completes (step : σ → α → Option σ) (final : σ → Prop) (s : σ) : Prop :=
  ∃ n, ∀ as t, Run step s as t → as.length ≤ n ∧ (final t ∨ ∃ a u, step t a = some u)

/-- Moves keep the invariant and lower the rank. -/
def Ranked (step : σ → α → Option σ) (I : σ → Prop) (rank : σ → Nat) : Prop :=
  ∀ s a t, I s → step s a = some t → I t ∧ rank t < rank s

variable {I final : σ → Prop} {rank : σ → Nat}

theorem Ranked.run (h : Ranked step I rank) {as : List α} {s t : σ} (hs : I s) (hr : Run step s as t) :
    I t ∧ as.length + rank t ≤ rank s := by
  induction as generalizing s with
  | nil => exact ⟨hr ▸ hs, by simp [show s = t from hr]⟩
  | cons a as ih =>
    obtain ⟨s₁, hs₁, hr⟩ := hr
    obtain ⟨hI, hlt⟩ := h s a s₁ hs hs₁
    obtain ⟨ht, hle⟩ := ih hI hr
    exact ⟨ht, by simp; omega⟩

/-- **All runs end in a final state** when every other state has a move, and moves lower a rank. -/
theorem Ranked.completes (h : Ranked step I rank) (hmove : ∀ s, I s → final s ∨ ∃ a t, step s a = some t) {s : σ}
    (hs : I s) : Completes step final s := by
  refine ⟨rank s, fun as t hr => ?_⟩
  obtain ⟨ht, hle⟩ := h.run hs hr
  exact ⟨by omega, hmove t ht⟩

/-- A state that is not final, and from which no move leads on, keeps the runs into it from completing. -/
theorem not_completes {as : List α} {s t : σ} (hr : Run step s as t) (hf : ¬final t) (hstuck : ∀ a, step t a = none) :
    ¬Completes step final s := by
  rintro ⟨n, h⟩
  rcases (h as t hr).2 with hfin | ⟨a, u, hu⟩
  · exact hf hfin
  · rw [hstuck a] at hu
    cases hu

end Progress
