import Mathlib.Data.Set.Insert
import Mathlib.Logic.Function.Basic

/-!
# Concurrent objects

Callers call the operations of an object and wait for its answers. A history of calls and returns is linearizable when every
operation can take effect at one moment between its call and its return (`Object.Linearizable`). Operations that change
nothing may be answered for any moment of their call, and which one it was need not be known before they return: it is enough
to keep the answers of all moments so far (`Object.Foreseen`). What an implementation does is then one of five things: a call,
the moment of an operation, a moment that passes, a return, or nothing.
-/

namespace Histories

variable {γ ι ρ τ : Type*}

/-- What an operation does to the contents of an object, and what it answers. -/
structure Object (γ ι ρ : Type*) where
  apply : γ → ι → γ
  answer : γ → ι → ρ

/-- What callers see. -/
inductive Event (τ ι ρ : Type*)
  | call (t : τ) (op : ι)
  | ret (t : τ) (r : ρ)

/-- An operation that was called, and did not return: it has not taken effect, or it has. -/
inductive Pending (ι ρ : Type*)
  | called (op : ι)
  | answered (r : ρ)

/-- What is known of an operation that did not return: it has not taken effect; it changes nothing, and would be answered so
at the moments so far; or it has taken effect. -/
inductive View (ι ρ : Type*)
  | waits (op : ι)
  | queries (op : ι) (answers : Set ρ)
  | answered (r : ρ)

namespace View

/-- The operation, when a query has been given an answer or not. -/
def choose : View ι ρ → Option ρ → Pending ι ρ
  | waits op, _ => .called op
  | queries op _, none => .called op
  | queries _ _, some r => .answered r
  | answered r, _ => .answered r

/-- A moment passes. -/
def grow (o : Object γ ι ρ) (c : γ) : View ι ρ → View ι ρ
  | waits op => .waits op
  | queries op answers => .queries op (insert (o.answer c op) answers)
  | answered r => .answered r

/-- The answer may be given. -/
def Allows : View ι ρ → ρ → Prop
  | queries _ answers, r => r ∈ answers
  | _, _ => False

/-- The operation may return the answer. -/
def Answers : View ι ρ → ρ → Prop
  | queries _ answers, r => r ∈ answers
  | answered r', r => r' = r
  | waits _, _ => False

/-- A call of the operation. -/
def Fresh (v : View ι ρ) (op : ι) : Prop := v = .waits op ∨ v = .queries op ∅

/-- Queries change nothing. -/
def Sound (o : Object γ ι ρ) : View ι ρ → Prop
  | queries op _ => ∀ c, o.apply c op = c
  | _ => True

end View

namespace Object

variable [DecidableEq τ] {o : Object γ ι ρ} {c₀ c : γ} {h : List (Event τ ι ρ)} {t : τ}

/-- The histories of the object, with the operations that did not return: each of them takes effect at one moment, between its
call and its return. -/
inductive Runs (o : Object γ ι ρ) (c₀ : γ) : List (Event τ ι ρ) → γ → (τ → Option (Pending ι ρ)) → Prop
  | start : Runs o c₀ [] c₀ fun _ => none
  | call {h c p} (t : τ) (op : ι) (hr : Runs o c₀ h c p) (ht : p t = none) :
      Runs o c₀ (h ++ [.call t op]) c (Function.update p t (some (.called op)))
  | moment {h c p} (t : τ) (op : ι) (hr : Runs o c₀ h c p) (ht : p t = some (.called op)) :
      Runs o c₀ h (o.apply c op) (Function.update p t (some (.answered (o.answer c op))))
  | ret {h c p} (t : τ) (r : ρ) (hr : Runs o c₀ h c p) (ht : p t = some (.answered r)) :
      Runs o c₀ (h ++ [.ret t r]) c (Function.update p t none)

/-- Every operation of the history takes effect at one moment between its call and its return, and is answered for it. -/
def Linearizable (o : Object γ ι ρ) (c₀ : γ) (h : List (Event τ ι ρ)) : Prop := ∃ c p, o.Runs c₀ h c p

/-- The operations, when some queries have been given answers. -/
def chosen (v : τ → Option (View ι ρ)) (f : τ → Option ρ) : τ → Option (Pending ι ρ) :=
  fun t => (v t).map fun w => w.choose (f t)

/-- The answers may be given. -/
def Allowed (v : τ → Option (View ι ρ)) (f : τ → Option ρ) : Prop := ∀ t r, f t = some r → ∃ w, v t = some w ∧ w.Allows r

/-- The history goes with the contents and with what is known of the operations that did not return, whichever answers are
going to be given. -/
structure Foreseen (o : Object γ ι ρ) (c₀ : γ) (h : List (Event τ ι ρ)) (c : γ) (v : τ → Option (View ι ρ)) : Prop where
  sound : ∀ t w, v t = some w → w.Sound o
  finite : ∃ ts : List τ, ∀ t, v t ≠ none → t ∈ ts
  runs : ∀ f, Allowed v f → o.Runs c₀ h c (chosen v f)

variable {v : τ → Option (View ι ρ)}

theorem foreseen_start (o : Object γ ι ρ) (c₀ : γ) : o.Foreseen c₀ [] c₀ (fun _ : τ => none) where
  sound := fun _ _ he => by cases he
  finite := ⟨[], fun _ hne => absurd rfl hne⟩
  runs := fun _ _ => .start

theorem Foreseen.linearizable (hf : o.Foreseen c₀ h c v) : o.Linearizable c₀ h :=
  ⟨c, _, hf.runs (fun _ => none) fun _ _ he => by cases he⟩

/-- What is known of one operation changes. -/
theorem chosen_update (v : τ → Option (View ι ρ)) (f : τ → Option ρ) (t : τ) (w : Option (View ι ρ)) (r : Option ρ) :
    chosen (Function.update v t w) (Function.update f t r) = Function.update (chosen v f) t (w.map fun w => w.choose r) := by
  funext t'
  by_cases ht : t' = t
  · subst ht
    simp [chosen]
  · simp [chosen, ht]

/-- An operation that has no answer yet. -/
theorem chosen_update_none {f : τ → Option ρ} (hf : f t = none) (w : Option (View ι ρ)) :
    chosen (Function.update v t w) f = Function.update (chosen v f) t (w.map fun w => w.choose none) := by
  have hu : Function.update f t none = f := by rw [← hf, Function.update_eq_self]
  rw [← chosen_update, hu]

theorem of_update_none {f : τ → Option ρ} {t' : τ} {r : ρ} (he : Function.update f t none t' = some r) :
    t' ≠ t ∧ f t' = some r := by
  by_cases heq : t' = t
  · subst heq
    rw [Function.update_self] at he
    cases he
  · rw [Function.update_of_ne heq] at he
    exact ⟨heq, he⟩

/-- A choice of answers that leaves an operation alone. -/
theorem Allowed.of_update {f : τ → Option ρ} {w : Option (View ι ρ)} (ha : Allowed (Function.update v t w) f)
    (hf : f t = none) : Allowed v f := by
  intro t' r he
  obtain ⟨w', hw, hr⟩ := ha t' r he
  have hne : t' ≠ t := fun heq => by
    rw [heq, hf] at he
    cases he
  rw [Function.update_of_ne hne] at hw
  exact ⟨w', hw, hr⟩

/-- No answer is chosen for an operation that allows none. -/
theorem Allowed.eq_none {f : τ → Option ρ} {w : Option (View ι ρ)} (ha : Allowed (Function.update v t w) f)
    (hw : ∀ w', w = some w' → ∀ r, ¬w'.Allows r) : f t = none := by
  cases hf : f t with
  | none => rfl
  | some r =>
    obtain ⟨w', hw', hr⟩ := ha t r hf
    rw [Function.update_self] at hw'
    exact absurd hr (hw w' hw' r)

theorem Foreseen.finite_update (hf : o.Foreseen c₀ h c v) (t : τ) (w : Option (View ι ρ)) :
    ∃ ts : List τ, ∀ t', Function.update v t w t' ≠ none → t' ∈ ts := by
  obtain ⟨ts, hts⟩ := hf.finite
  refine ⟨t :: ts, fun t' hne => ?_⟩
  by_cases ht : t' = t
  · exact ht ▸ List.mem_cons_self
  · rw [Function.update_of_ne ht] at hne
    exact List.mem_cons_of_mem _ (hts t' hne)

theorem Foreseen.sound_update (hf : o.Foreseen c₀ h c v) {w : Option (View ι ρ)} (hw : ∀ w', w = some w' → w'.Sound o) :
    ∀ t' w', Function.update v t w t' = some w' → w'.Sound o := by
  intro t' w' he
  by_cases ht : t' = t
  · subst ht
    rw [Function.update_self] at he
    exact hw w' he
  · rw [Function.update_of_ne ht] at he
    exact hf.sound t' w' he

/-- **A call.** -/
theorem Foreseen.call (hf : o.Foreseen c₀ h c v) (ht : v t = none) {op : ι} {w : View ι ρ} (hw : w.Fresh op)
    (hs : w.Sound o) : o.Foreseen c₀ (h ++ [.call t op]) c (Function.update v t (some w)) := by
  refine ⟨hf.sound_update fun w' he => (by cases he; exact hs), hf.finite_update t _, fun f ha => ?_⟩
  have hnone : f t = none := ha.eq_none fun w' he r hr => by
    cases he
    rcases hw with rfl | rfl
    · exact hr
    · exact hr
  have hpending : chosen v f t = none := by simp [chosen, ht]
  have hcalled : w.choose none = .called op := by rcases hw with rfl | rfl <;> rfl
  rw [chosen_update_none hnone, Option.map_some, hcalled]
  exact .call t op (hf.runs f (ha.of_update hnone)) hpending

/-- **The moment of an operation** that changes the contents. -/
theorem Foreseen.moment (hf : o.Foreseen c₀ h c v) {op : ι} (ht : v t = some (.waits op)) :
    o.Foreseen c₀ h (o.apply c op) (Function.update v t (some (.answered (o.answer c op)))) := by
  refine ⟨hf.sound_update fun w' he => (by cases he; trivial), hf.finite_update t _, fun f ha => ?_⟩
  have hnone : f t = none := ha.eq_none fun w' he r hr => by
    cases he
    exact hr
  have hpending : chosen v f t = some (.called op) := by simp [chosen, ht, View.choose]
  rw [chosen_update_none hnone]
  exact .moment t op (hf.runs f (ha.of_update hnone)) hpending

/-- **A return.** -/
theorem Foreseen.ret (hf : o.Foreseen c₀ h c v) {w : View ι ρ} (ht : v t = some w) {r : ρ} (hw : w.Answers r) :
    o.Foreseen c₀ (h ++ [.ret t r]) c (Function.update v t none) := by
  refine ⟨hf.sound_update fun w' he => (by cases he), hf.finite_update t none, fun f ha => ?_⟩
  have hnone : f t = none := ha.eq_none fun w' he => by cases he
  have hold := ha.of_update hnone
  rw [chosen_update_none hnone, Option.map_none]
  cases w with
  | waits op => cases hw
  | answered r' =>
    have hr : r' = r := hw
    exact .ret t r (hf.runs f hold) (by simp [chosen, ht, View.choose, hr])
  | queries op answers =>
    -- the answer is chosen now
    have hchosen := hf.runs (Function.update f t (some r)) fun t' r' he => by
      by_cases heq : t' = t
      · subst heq
        rw [Function.update_self] at he
        cases he
        exact ⟨_, ht, hw⟩
      · rw [Function.update_of_ne heq] at he
        exact hold t' r' he
    have hself : chosen v (Function.update f t (some r)) = Function.update (chosen v f) t (some (.answered r)) := by
      have := chosen_update v f t (v t) (some r)
      rw [Function.update_eq_self] at this
      rw [this, ht]
      rfl
    rw [hself] at hchosen
    have hret := Runs.ret t r hchosen (Function.update_self ..)
    rwa [Function.update_idem] at hret

/-- **A moment passes**: every query may be answered for it. -/
theorem Foreseen.grow (hf : o.Foreseen c₀ h c v) : o.Foreseen c₀ h c fun t => (v t).map (View.grow o c) := by
  obtain ⟨ts, hts⟩ := hf.finite
  refine ⟨fun t w he => ?_, ⟨ts, fun t hne => hts t fun hv => hne (by rw [hv]; rfl)⟩, fun f ha => ?_⟩
  · obtain ⟨w', hw', rfl⟩ := Option.map_eq_some_iff.mp he
    have hs := hf.sound t w' hw'
    cases w' <;> exact hs
  · have hsame : ∀ f, chosen (fun t => (v t).map (View.grow o c)) f = chosen v f := by
      intro f
      funext t
      rw [chosen, chosen, Option.map_map]
      cases v t with
      | none => rfl
      | some w =>
        cases w with
        | queries op answers => cases f t <;> rfl
        | waits op | answered r => rfl
    rw [hsame]
    -- by induction on the operations: those with answers for this moment alone take effect now
    have hall : ∀ (ts : List τ) (f : τ → Option ρ), Allowed (fun t => (v t).map (View.grow o c)) f →
        (∀ t r, f t = some r → t ∈ ts ∨ ∃ w, v t = some w ∧ w.Allows r) → o.Runs c₀ h c (chosen v f) := by
      intro ts
      induction ts with
      | nil => exact fun f _ hold => hf.runs f fun t r he => (hold t r he).resolve_left List.not_mem_nil
      | cons t ts ih =>
        intro f ha hold
        by_cases hnow : ∃ r, f t = some r ∧ ¬∃ w, v t = some w ∧ w.Allows r
        · obtain ⟨r, hr, hnew⟩ := hnow
          obtain ⟨w', hw', hallows⟩ := ha t r hr
          obtain ⟨w, hw, rfl⟩ := Option.map_eq_some_iff.mp hw'
          cases w with
          | waits op => cases hallows
          | answered r' => cases hallows
          | queries op answers =>
            rcases Set.mem_insert_iff.mp hallows with rfl | hin
            · have hrest := ih (Function.update f t none)
                (fun t' r' he => by
                  by_cases heq : t' = t
                  · subst heq
                    rw [Function.update_self] at he
                    cases he
                  · rw [Function.update_of_ne heq] at he
                    exact ha t' r' he)
                (fun t' r' he => by
                  by_cases heq : t' = t
                  · subst heq
                    rw [Function.update_self] at he
                    cases he
                  · rw [Function.update_of_ne heq] at he
                    exact (hold t' r' he).imp_left fun hm => (List.mem_cons.mp hm).resolve_left heq)
              have hpending : chosen v (Function.update f t none) t = some (.called op) := by
                simp [chosen, hw, View.choose]
              have hstep := Runs.moment t op hrest hpending
              have hc : o.apply c op = c := hf.sound t _ hw c
              have hself : Function.update (chosen v (Function.update f t none)) t (some (.answered (o.answer c op))) =
                  chosen v f := by
                have hup := chosen_update v (Function.update f t none) t (v t) (some (o.answer c op))
                rw [Function.update_eq_self, Function.update_idem, ← hr, Function.update_eq_self, hr, hw] at hup
                exact hup.symm
              rwa [hc, hself] at hstep
            · exact absurd ⟨_, hw, hin⟩ hnew
        · refine ih f ha fun t' r he => ?_
          rcases hold t' r he with hm | hold
          · rcases List.mem_cons.mp hm with rfl | hm
            · exact Or.inr (by_contra fun hne => hnow ⟨r, he, hne⟩)
            · exact Or.inl hm
          · exact Or.inr hold
    refine hall ts f ha fun t r he => Or.inl (hts t fun hv => ?_)
    obtain ⟨w, hw, -⟩ := ha t r he
    simp [hv] at hw

end Object

end Histories
