import Mathlib.Logic.Function.Basic
import Mathlib.Data.List.Basic

/-!
# Threads that read shared files

A program reads at given places of files, and goes on with what it read. A read takes two steps, the seek and the read
proper, on one position that all threads share. As long as no step of a thread moves the position of a file between the
two steps of another one's read, every read gets the bytes of its place, and every program ends with the result that it
has alone (`Run.right`, `Run.result`).
-/

namespace SharedReads

variable {ι β τ : Type} [DecidableEq ι] [DecidableEq τ]

/-- A program that reads `n` bytes of a file at an offset, and goes on with them. -/
inductive Program (ι β α : Type) where
  | done (a : α)
  | read (file : ι) (offset n : Nat) (next : List β → Program ι β α)

namespace Program

variable {α γ : Type}

/-- The bytes of a file at a place. -/
def bytesAt (files : ι → List β) (file : ι) (offset n : Nat) : List β := ((files file).drop offset).take n

/-- The result of the program, when it runs alone. -/
def run (files : ι → List β) : Program ι β α → α
  | done a => a
  | read file offset n next => (next (bytesAt files file offset n)).run files

/-- The result of a program that is at its end. -/
def result : Program ι β α → Option α
  | done a => some a
  | read _ _ _ _ => none

/-- One program, and then another one. -/
def bind (p : Program ι β α) (f : α → Program ι β γ) : Program ι β γ :=
  match p with
  | done a => f a
  | read file offset n next => .read file offset n fun bytes => (next bytes).bind f

omit [DecidableEq ι] in
@[simp] theorem run_done (files : ι → List β) (a : α) : (done a : Program ι β α).run files = a := rfl

omit [DecidableEq ι] in
@[simp] theorem run_read (files : ι → List β) (file : ι) (offset n : Nat) (next : List β → Program ι β α) :
    (read file offset n next).run files = (next (bytesAt files file offset n)).run files := rfl

omit [DecidableEq ι] in
@[simp] theorem run_bind (files : ι → List β) : ∀ (p : Program ι β α) (f : α → Program ι β γ),
    (p.bind f).run files = (f (p.run files)).run files
  | done _, _ => rfl
  | read _ _ _ next, f => run_bind files (next _) f

end Program

open Program

/-- A thread: what is left of its program, and whether it has sought the place of its next read. -/
structure Thread (ι β α : Type) where
  program : Program ι β α
  sought : Bool := false

/-- A read that was made. -/
structure Made (ι β : Type) where
  file : ι
  offset : Nat
  n : Nat
  bytes : List β

/-- The bytes are those of the place that was asked for. -/
def Made.Right (files : ι → List β) (m : Made ι β) : Prop := m.bytes = bytesAt files m.file m.offset m.n

/-- The positions of the files, the threads, and the reads that were made. -/
structure System (ι β τ : Type) (α : τ → Type) where
  position : ι → Nat
  threads : (t : τ) → Thread ι β (α t)
  made : List (Made ι β) := []

namespace System

variable {α : τ → Type}

/-- The threads at their starts. -/
def start (position : ι → Nat) (programs : (t : τ) → Program ι β (α t)) : System ι β τ α :=
  { position := position, threads := fun t => { program := programs t } }

/-- A step of a thread: the seek of its next read, or the read at the position as it is. -/
def step (files : ι → List β) (s : System ι β τ α) (t : τ) : System ι β τ α :=
  match (s.threads t).program with
  | .done _ => s
  | .read file offset n next =>
    if (s.threads t).sought then
      let bytes := bytesAt files file (s.position file) n
      { position := Function.update s.position file (s.position file + bytes.length)
        threads := Function.update s.threads t { program := next bytes }
        made := s.made ++ [⟨file, offset, n, bytes⟩] }
    else
      { s with
        position := Function.update s.position file offset
        threads := Function.update s.threads t { program := .read file offset n next, sought := true } }

/-- A run, in the order in which the threads take their steps. -/
def after (files : ι → List β) (s : System ι β τ α) (ts : List τ) : System ι β τ α := ts.foldl (step files) s

/-- The thread is between the seek and the read of its next read, of the file. -/
def Between (s : System ι β τ α) (t : τ) (file : ι) : Prop :=
  (s.threads t).sought = true ∧ ∃ offset n next, (s.threads t).program = .read file offset n next

/-- The step moves no position between the two steps of a read of another thread. -/
def Quiet (files : ι → List β) (s : System ι β τ α) (t : τ) : Prop :=
  ∀ t' ≠ t, ∀ file, s.Between t' file → (s.step files t).position file = s.position file

/-- All steps are quiet, in the states they are taken in. -/
def AllQuiet (files : ι → List β) : System ι β τ α → List τ → Prop
  | _, [] => True
  | s, t :: ts => s.Quiet files t ∧ AllQuiet files (s.step files t) ts

/-- While no other thread is between its two steps, a step is quiet. -/
theorem quiet_of_idle {files : ι → List β} {s : System ι β τ α} {t : τ} (h : ∀ t' ≠ t, (s.threads t').sought = false) :
    s.Quiet files t := by
  intro t' ht file hb
  have hs := hb.1
  rw [h t' ht] at hs
  cases hs

/-- A step leaves the other threads alone. -/
theorem threads_step_of_ne (files : ι → List β) (s : System ι β τ α) {t t' : τ} (h : t' ≠ t) :
    (s.step files t).threads t' = s.threads t' := by
  unfold step
  split
  · rfl
  · split
    · exact Function.update_of_ne h _ _
    · exact Function.update_of_ne h _ _

/-- Behind two steps of a thread that was between two reads, it is between two reads. -/
theorem sought_step_step (files : ι → List β) (s : System ι β τ α) {t : τ} (h : (s.threads t).sought = false) :
    (((s.step files t).step files t).threads t).sought = false := by
  cases hp : (s.threads t).program with
  | done a =>
    have he : s.step files t = s := by rw [step, hp]
    rw [he, he]
    exact h
  | read file offset n next =>
    have hself : (s.step files t).threads t = { program := .read file offset n next, sought := true } := by
      rw [step, hp]
      simp only [h, Bool.false_eq_true, if_false]
      exact Function.update_self _ _ _
    rw [step, hself]
    simp only [if_true, Function.update_self]

/-- **Whole reads**: when the two steps of every read come one behind the other, all steps are quiet. -/
theorem allQuiet_pairs (files : ι → List β) : ∀ (ts : List τ) (s : System ι β τ α), (∀ t, (s.threads t).sought = false) →
    s.AllQuiet files (ts.flatMap fun t => [t, t])
  | [], _, _ => trivial
  | t :: ts, s, h => by
    have hother : ∀ t' ≠ t, ((s.step files t).threads t').sought = false := fun t' ht => by
      rw [threads_step_of_ne files s ht]
      exact h t'
    refine ⟨quiet_of_idle fun t' _ => h t', quiet_of_idle hother, allQuiet_pairs files ts _ fun t' => ?_⟩
    by_cases ht : t' = t
    · subst ht
      exact sought_step_step files s (h t')
    · rw [threads_step_of_ne files _ ht]
      exact hother t' ht

/-- The threads of a run that started with the programs `programs`. -/
structure Run (files : ι → List β) (programs : (t : τ) → Program ι β (α t)) (s : System ι β τ α) : Prop where
  place : ∀ t file offset n next, (s.threads t).sought = true → (s.threads t).program = .read file offset n next →
    s.position file = offset
  same : ∀ t, (s.threads t).program.run files = (programs t).run files
  right : ∀ m ∈ s.made, m.Right files

variable {files : ι → List β} {programs : (t : τ) → Program ι β (α t)} {s : System ι β τ α}

omit [DecidableEq ι] [DecidableEq τ] in
theorem run_start (files : ι → List β) (position : ι → Nat) (programs : (t : τ) → Program ι β (α t)) :
    Run files programs (start position programs) :=
  ⟨fun _ _ _ _ _ h => (by cases h), fun _ => rfl, fun _ h => absurd h List.not_mem_nil⟩

omit [DecidableEq ι] in
/-- One thread goes on, behind the same result, and the positions of the others stay. -/
theorem Run.replace (h : Run files programs s) {t : τ} {s' : System ι β τ α}
    (hother : ∀ t' ≠ t, s'.threads t' = s.threads t')
    (hplace : ∀ t' ≠ t, ∀ file offset n next, (s.threads t').sought = true →
      (s.threads t').program = .read file offset n next → s'.position file = s.position file)
    (hself : ∀ file offset n next, (s'.threads t).sought = true → (s'.threads t).program = .read file offset n next →
      s'.position file = offset)
    (hsame : (s'.threads t).program.run files = (s.threads t).program.run files)
    (hright : ∀ m ∈ s'.made, m ∈ s.made ∨ m.Right files) : Run files programs s' := by
  refine ⟨fun t' file offset n next hs hp => ?_, fun t' => ?_, fun m hm => (hright m hm).elim (h.right m) id⟩
  · by_cases ht : t' = t
    · subst ht
      exact hself file offset n next hs hp
    · rw [hother t' ht] at hs hp
      rw [hplace t' ht file offset n next hs hp]
      exact h.place t' file offset n next hs hp
  · by_cases ht : t' = t
    · subst ht
      exact hsame.trans (h.same t')
    · rw [hother t' ht]
      exact h.same t'

/-- **A quiet step.** -/
theorem Run.step (h : Run files programs s) {t : τ} (hq : s.Quiet files t) : Run files programs (s.step files t) := by
  have hother : ∀ t' ≠ t, ((s.step files t).threads t') = s.threads t' := fun t' ht => threads_step_of_ne files s ht
  have hplace : ∀ t' ≠ t, ∀ file offset n next, (s.threads t').sought = true →
      (s.threads t').program = .read file offset n next → (s.step files t).position file = s.position file :=
    fun t' ht file offset n next hs hp => hq t' ht file ⟨hs, offset, n, next, hp⟩
  cases hp : (s.threads t).program with
  | done a =>
    have he : s.step files t = s := by rw [System.step, hp]
    rw [he]
    exact h
  | read file offset n next =>
    cases hs : (s.threads t).sought with
    | true =>
      -- the position is still the one that was sought
      have hat := h.place t file offset n next hs hp
      have he : s.step files t =
          { position := Function.update s.position file (offset + (bytesAt files file offset n).length)
            threads := Function.update s.threads t { program := next (bytesAt files file offset n) }
            made := s.made ++ [⟨file, offset, n, bytesAt files file offset n⟩] } := by
        rw [System.step, hp]
        simp only [hs, if_true, hat]
      have hself : (s.step files t).threads t = { program := next (bytesAt files file offset n) } := by
        rw [he]
        exact Function.update_self _ _ _
      refine h.replace hother hplace (fun f o k c hs' _ => ?_) ?_ fun m hm => ?_
      · rw [hself] at hs'
        cases hs'
      · rw [hself, hp]
        rfl
      · rw [he] at hm
        refine (List.mem_append.mp hm).imp_right fun hm => ?_
        rw [List.mem_singleton.mp hm]
        rfl
    | false =>
      have he : s.step files t =
          { s with
            position := Function.update s.position file offset
            threads := Function.update s.threads t { program := .read file offset n next, sought := true } } := by
        rw [System.step, hp]
        simp only [hs, Bool.false_eq_true, if_false]
      have hself : (s.step files t).threads t = { program := .read file offset n next, sought := true } := by
        rw [he]
        exact Function.update_self _ _ _
      refine h.replace hother hplace (fun f o k c _ hp' => ?_) ?_ fun m hm => ?_
      · rw [hself] at hp'
        cases hp'
        rw [he]
        exact Function.update_self _ _ _
      · rw [hself, hp]
      · rw [he] at hm
        exact Or.inl hm

/-- **A run** of quiet steps. -/
theorem Run.after : ∀ (ts : List τ) (s : System ι β τ α), Run files programs s → s.AllQuiet files ts →
    Run files programs (s.after files ts)
  | [], _, h, _ => h
  | t :: ts, s, h, ⟨hq, hqs⟩ => Run.after ts (s.step files t) (h.step hq) hqs

omit [DecidableEq ι] [DecidableEq τ] in
/-- A thread that is at its end has the result that its program has alone. -/
theorem Run.result (h : Run files programs s) {t : τ} {a : α t} (hd : (s.threads t).program.result = some a) :
    a = (programs t).run files := by
  rw [← h.same t]
  cases hp : (s.threads t).program with
  | done b =>
    rw [hp] at hd
    exact (Option.some.inj hd).symm
  | read file offset n next =>
    rw [hp] at hd
    cases hd

end System

end SharedReads
