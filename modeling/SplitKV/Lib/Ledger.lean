import Mathlib.Data.List.Basic

/-!
# Runs that leave items behind

A system takes steps. Each of them leaves some items, which act on what the system stands for. When every step keeps an
invariant between the two, so does every run (`Ledger.run`), and what the invariant implies of the steps holds of all
steps of the run (`Ledger.throughout`).
-/

namespace Ledger

variable {σ ε β γ : Type*}

/-- The state behind a run. -/
def after (next : σ → ε → σ) (s : σ) (evs : List ε) : σ := evs.foldl next s

/-- Every step meets a condition, in the state it is taken in. -/
def Throughout (next : σ → ε → σ) (Q : σ → ε → Prop) : σ → List ε → Prop
  | _, [] => True
  | s, ev :: evs => Q s ev ∧ Throughout next Q (next s ev) evs

/-- The items that the steps of a run leave, one after the other. -/
def LeavesAll (next : σ → ε → σ) (leaves : σ → ε → List β → Prop) : σ → List ε → List β → Prop
  | _, [], bs => bs = []
  | s, ev :: evs, bs => ∃ a b, bs = a ++ b ∧ leaves s ev a ∧ LeavesAll next leaves (next s ev) evs b

variable {next : σ → ε → σ} {leaves : σ → ε → List β → Prop} {Q R : σ → ε → Prop}

theorem after_append (s : σ) (evs later : List ε) :
    after next s (evs ++ later) = after next (after next s evs) later := List.foldl_append

theorem throughout_append : ∀ {evs later : List ε} {s : σ}, Throughout next Q s (evs ++ later) ↔
    Throughout next Q s evs ∧ Throughout next Q (after next s evs) later
  | [], _, _ => ⟨fun h => ⟨trivial, h⟩, fun h => h.2⟩
  | _ :: evs, later, _ => by
    rw [List.cons_append, Throughout, Throughout, throughout_append, and_assoc]
    rfl

theorem Throughout.imp (h : ∀ s ev, Q s ev → R s ev) : ∀ {evs : List ε} {s : σ}, Throughout next Q s evs →
    Throughout next R s evs
  | [], _, _ => trivial
  | ev :: _, s, ⟨hq, hqs⟩ => ⟨h s ev hq, hqs.imp h⟩

theorem Throughout.and : ∀ {evs : List ε} {s : σ}, Throughout next Q s evs → Throughout next R s evs →
    Throughout next (fun s ev => Q s ev ∧ R s ev) s evs
  | [], _, _, _ => trivial
  | _ :: _, _, ⟨hq, hqs⟩, ⟨hr, hrs⟩ => ⟨⟨hq, hr⟩, hqs.and hrs⟩

/-- A step that keeps the invariant `I` leaves items that act on what the state stands for. -/
def Keeps (next : σ → ε → σ) (leaves : σ → ε → List β → Prop) (act : γ → List β → γ) (I : σ → γ → Prop)
    (Q : σ → ε → Prop) : Prop :=
  ∀ s ev c, I s c → Q s ev → ∃ bs, leaves s ev bs ∧ I (next s ev) (act c bs)

/-- Items act one after the other. -/
structure Acts (act : γ → List β → γ) : Prop where
  nil : ∀ c, act c [] = c
  append : ∀ c a b, act c (a ++ b) = act (act c a) b

variable {act : γ → List β → γ} {I : σ → γ → Prop}

/-- **A run** keeps the invariant that its steps keep. -/
theorem run (ha : Acts act) (hk : Keeps next leaves act I Q) : ∀ {evs : List ε} {s : σ} {c : γ}, I s c →
    Throughout next Q s evs → ∃ bs, LeavesAll next leaves s evs bs ∧ I (after next s evs) (act c bs)
  | [], s, c, h, _ => ⟨[], rfl, by rw [ha.nil]; exact h⟩
  | ev :: evs, s, c, h, ⟨hq, hqs⟩ => by
    obtain ⟨a, ha', h'⟩ := hk s ev c h hq
    obtain ⟨b, hb, h''⟩ := run ha hk h' hqs
    refine ⟨a ++ b, ⟨a, b, rfl, ha', hb⟩, ?_⟩
    rw [ha.append]
    exact h''

/-- **What the invariant implies** of a step holds of all steps. -/
theorem throughout (hk : Keeps next leaves act I Q) (hr : ∀ s ev c, I s c → R s ev) : ∀ {evs : List ε} {s : σ} {c : γ},
    I s c → Throughout next Q s evs → Throughout next R s evs
  | [], _, _, _, _ => trivial
  | ev :: _, s, c, h, ⟨hq, hqs⟩ => by
    obtain ⟨a, -, h'⟩ := hk s ev c h hq
    exact ⟨hr s ev c h, throughout hk hr h' hqs⟩

end Ledger
