import SplitKV.Lib.Progress
import Mathlib.Algebra.BigOperators.Group.Finset.Basic
import Mathlib.Algebra.Order.BigOperators.Group.Finset
import Mathlib.Data.Fintype.Basic

/-!
# Threads, locks and shared variables

A procedure is a script: what it does to the locks and to the shared variables, with its branches, its loops and its returns
open. A lock belongs to a scope and is released at the end of it, as a guard object does. Threads carry out calls, and their
operations interleave.

- When every script takes its locks in the order of a rank, no schedule leaves a call in the middle (`Crew.completes`).
- A race needs two accesses whose locks do not exclude each other (`Crew.locks_of_race`), and two such accesses do race when
  the locks of the one do not keep the other one from getting there (`Crew.exists_race`).
-/

namespace Locks

/-- An operation of a thread. A lock is taken shared or exclusively. -/
inductive Op (L V : Type) where
  | acquire (l : L) (shared : Bool)
  | release (l : L) (shared : Bool)
  | access (v : V) (writes : Bool)

/-- The locks that a thread holds, the newest first, and whether they are shared. -/
abbrev Held (L : Type) := List (L × Bool)

/-- The operations of a procedure. -/
inductive Script (L V : Type) where
  | skip
  | ret
  | access (v : V) (writes : Bool)
  | wait (l : L)
  | seq (a b : Script L V)
  | choose (a b : Script L V)
  | pick (f : Nat → Script L V)
  | loop (a : Script L V)
  | locked (l : L) (shared : Bool) (a : Script L V)
  | call (a : Script L V)

namespace Script

variable {L V : Type}

/-- The runs of a script: the operations, and whether a `return` ended it. A wait gives its lock back and takes it again; the
end of a scope releases its lock also behind a `return`. -/
inductive Runs : Script L V → List (Op L V) → Bool → Prop where
  | skip : Runs .skip [] false
  | ret : Runs .ret [] true
  | access (v : V) (w : Bool) : Runs (.access v w) [.access v w] false
  | wait (l : L) : Runs (.wait l) [.release l false, .acquire l false] false
  | seq {a b : Script L V} {xs ys : List (Op L V)} {r : Bool} : Runs a xs false → Runs b ys r → Runs (.seq a b) (xs ++ ys) r
  | seqRet {a b : Script L V} {xs : List (Op L V)} : Runs a xs true → Runs (.seq a b) xs true
  | left {a b : Script L V} {xs : List (Op L V)} {r : Bool} : Runs a xs r → Runs (.choose a b) xs r
  | right {a b : Script L V} {xs : List (Op L V)} {r : Bool} : Runs b xs r → Runs (.choose a b) xs r
  | pick {f : Nat → Script L V} {xs : List (Op L V)} {r : Bool} (i : Nat) : Runs (f i) xs r → Runs (.pick f) xs r
  | stop {a : Script L V} : Runs (.loop a) [] false
  | again {a : Script L V} {xs ys : List (Op L V)} {r : Bool} : Runs a xs false → Runs (.loop a) ys r →
      Runs (.loop a) (xs ++ ys) r
  | againRet {a : Script L V} {xs : List (Op L V)} : Runs a xs true → Runs (.loop a) xs true
  | locked {l : L} {sh : Bool} {a : Script L V} {xs : List (Op L V)} {r : Bool} : Runs a xs r →
      Runs (.locked l sh a) (.acquire l sh :: (xs ++ [.release l sh])) r
  | call {a : Script L V} {xs : List (Op L V)} {r : Bool} : Runs a xs r → Runs (.call a) xs false

/-- Every operation of the script has the property, with the locks that are held in front of it; a wait is at the newest
lock. -/
def All (Q : Held L → Op L V → Prop) : Held L → Script L V → Prop
  | _, .skip | _, .ret => True
  | hs, .access v w => Q hs (.access v w)
  | hs, .wait l => hs.head? = some (l, false) ∧ Q hs.tail (.acquire l false)
  | hs, .seq a b | hs, .choose a b => a.All Q hs ∧ b.All Q hs
  | hs, .pick f => ∀ i, (f i).All Q hs
  | hs, .loop a | hs, .call a => a.All Q hs
  | hs, .locked l sh a => Q hs (.acquire l sh) ∧ a.All Q ((l, sh) :: hs)

/-- The script can come to its end without a `return`. -/
def Passes : Script L V → Prop
  | .skip | .access _ _ | .wait _ | .loop _ | .call _ => True
  | .ret => False
  | .seq a b => a.Passes ∧ b.Passes
  | .choose a b => a.Passes ∨ b.Passes
  | .pick f => ∃ i, (f i).Passes
  | .locked _ _ a => a.Passes

/-- Somewhere the script accesses the variable, with the locks `held`, when it starts with `hs`. -/
def Accesses (v : V) (w : Bool) (held : Held L) : Held L → Script L V → Prop
  | _, .skip | _, .ret | _, .wait _ => False
  | hs, .access v' w' => v' = v ∧ w' = w ∧ hs = held
  | hs, .seq a b => a.Accesses v w held hs ∨ a.Passes ∧ b.Accesses v w held hs
  | hs, .choose a b => a.Accesses v w held hs ∨ b.Accesses v w held hs
  | hs, .pick f => ∃ i, (f i).Accesses v w held hs
  | hs, .loop a | hs, .call a => a.Accesses v w held hs
  | hs, .locked l sh a => a.Accesses v w held ((l, sh) :: hs)

/-- The script takes the lock somewhere. -/
def Takes (l : L) : Script L V → Prop
  | .skip | .ret | .access _ _ => False
  | .wait l' => l' = l
  | .seq a b | .choose a b => a.Takes l ∨ b.Takes l
  | .pick f => ∃ i, (f i).Takes l
  | .loop a | .call a => a.Takes l
  | .locked l' _ a => l' = l ∨ a.Takes l

end Script

section

variable {L V : Type} [DecidableEq L]

/-- The locks that are held behind an operation. -/
def Op.hold : Op L V → Held L → Held L
  | .acquire l sh, hs => (l, sh) :: hs
  | .release l sh, hs => hs.erase (l, sh)
  | .access _ _, hs => hs

/-- The locks that are held behind operations. -/
def after (hs : Held L) : List (Op L V) → Held L
  | [] => hs
  | x :: xs => after (x.hold hs) xs

/-- Every operation has the property, with the locks that are held in front of it. -/
def Each (Q : Held L → Op L V → Prop) : Held L → List (Op L V) → Prop
  | _, [] => True
  | hs, x :: xs => Q hs x ∧ Each Q (x.hold hs) xs

variable {Q : Held L → Op L V → Prop} {hs : Held L} {xs ys : List (Op L V)}

@[simp] theorem after_append : after hs (xs ++ ys) = after (after hs xs) ys := by
  induction xs generalizing hs with
  | nil => rfl
  | cons x xs ih => exact ih

theorem Each.append (h : Each Q hs xs) (h' : Each Q (after hs xs) ys) : Each Q hs (xs ++ ys) := by
  induction xs generalizing hs with
  | nil => exact h'
  | cons x xs ih => exact ⟨h.1, ih h.2 h'⟩

namespace Script

variable {s : Script L V} {r : Bool}

/-- **A run keeps the scopes**: at its end the thread holds what it held at its beginning, and every operation has the
property that the script was checked for. -/
theorem Runs.each (hrel : ∀ hs l sh, Q hs (.release l sh)) (h : s.Runs xs r) (hall : s.All Q hs) :
    Each Q hs xs ∧ after hs xs = hs := by
  induction h generalizing hs with
  | skip | ret | stop => exact ⟨trivial, rfl⟩
  | access v w => exact ⟨⟨hall, trivial⟩, rfl⟩
  | wait l =>
    cases hs with
    | nil => cases hall.1
    | cons k hs =>
      cases hall.1
      have herase : ((l, false) :: hs).erase (l, false) = hs := by simp
      refine ⟨⟨hrel _ _ _, ?_, trivial⟩, ?_⟩
      · simpa [Op.hold, herase] using hall.2
      · simp [after, Op.hold]
  | seq _ _ ih₁ ih₂ =>
    obtain ⟨h₁, e₁⟩ := ih₁ hall.1
    obtain ⟨h₂, e₂⟩ := ih₂ hall.2
    exact ⟨h₁.append (by rwa [e₁]), by rw [after_append, e₁, e₂]⟩
  | seqRet _ ih => exact ih hall.1
  | left _ ih => exact ih hall.1
  | right _ ih => exact ih hall.2
  | pick i _ ih => exact ih (hall i)
  | again _ _ ih₁ ih₂ =>
    obtain ⟨h₁, e₁⟩ := ih₁ hall
    obtain ⟨h₂, e₂⟩ := ih₂ hall
    exact ⟨h₁.append (by rwa [e₁]), by rw [after_append, e₁, e₂]⟩
  | againRet _ ih => exact ih hall
  | @locked l sh a xs r _ ih =>
    obtain ⟨h₁, e₁⟩ := ih hall.2
    refine ⟨⟨hall.1, h₁.append ⟨hrel _ _ _, trivial⟩⟩, ?_⟩
    show after ((l, sh) :: hs) (xs ++ [.release l sh]) = hs
    rw [after_append, e₁]
    simp [after, Op.hold]
  | call _ ih => exact ih hall

omit [DecidableEq L] in
/-- A script can be run, and to its end without a `return` when it passes. -/
theorem exists_run (s : Script L V) : ∃ xs r, s.Runs xs r ∧ (s.Passes → r = false) := by
  induction s with
  | skip => exact ⟨[], false, .skip, fun _ => rfl⟩
  | ret => exact ⟨[], true, .ret, False.elim⟩
  | access v w => exact ⟨_, false, .access v w, fun _ => rfl⟩
  | wait l => exact ⟨_, false, .wait l, fun _ => rfl⟩
  | seq a b iha ihb =>
    obtain ⟨xs, r, hx, hr⟩ := iha
    obtain ⟨ys, r', hy, hr'⟩ := ihb
    cases r with
    | false => exact ⟨_, r', .seq hx hy, fun h => hr' h.2⟩
    | true => exact ⟨_, true, .seqRet hx, fun h => hr h.1⟩
  | choose a b iha ihb =>
    obtain ⟨xs, r, hx, hr⟩ := iha
    obtain ⟨ys, r', hy, hr'⟩ := ihb
    by_cases ha : a.Passes
    · exact ⟨xs, r, .left hx, fun _ => hr ha⟩
    · exact ⟨ys, r', .right hy, fun h => hr' (h.resolve_left ha)⟩
  | pick f ih =>
    by_cases hf : ∃ i, (f i).Passes
    · obtain ⟨i, hi⟩ := hf
      obtain ⟨xs, r, hx, hr⟩ := ih i
      exact ⟨xs, r, .pick i hx, fun _ => hr hi⟩
    · obtain ⟨xs, r, hx, -⟩ := ih 0
      exact ⟨xs, r, .pick 0 hx, fun h => absurd h hf⟩
  | loop a _ => exact ⟨[], false, .stop, fun _ => rfl⟩
  | locked l sh a ih =>
    obtain ⟨xs, r, hx, hr⟩ := ih
    exact ⟨_, r, .locked hx, hr⟩
  | call a ih =>
    obtain ⟨xs, r, hx, -⟩ := ih
    exact ⟨xs, false, .call hx, fun _ => rfl⟩

omit [DecidableEq L] in
/-- A run takes only locks of the script. -/
theorem Runs.takes (h : s.Runs xs r) {l : L} {sh : Bool} (hl : Op.acquire l sh ∈ xs) : s.Takes l := by
  induction h with
  | skip | ret | stop | access => simp at hl
  | wait l' => simp at hl; exact hl.1.symm
  | seq _ _ ih₁ ih₂ => exact (List.mem_append.mp hl).imp ih₁ ih₂
  | seqRet _ ih => exact Or.inl (ih hl)
  | left _ ih => exact Or.inl (ih hl)
  | right _ ih => exact Or.inr (ih hl)
  | pick i _ ih => exact ⟨i, ih hl⟩
  | again _ _ ih₁ ih₂ => exact (List.mem_append.mp hl).elim ih₁ ih₂
  | againRet _ ih => exact ih hl
  | locked _ ih =>
    rcases List.mem_cons.mp hl with he | hl
    · cases he; exact Or.inl rfl
    · exact Or.inr (ih (by simpa using hl))
  | call _ ih => exact ih hl

/-- **Every access of a script is one of a run**, with the locks that it stands under. -/
theorem Accesses.exists_run (hrel : ∀ hs l sh, Q hs (.release l sh)) {v : V} {w : Bool} {held : Held L}
    (h : s.Accesses v w held hs) (hall : s.All Q hs) :
    ∃ xs ys r, s.Runs (xs ++ .access v w :: ys) r ∧ after hs xs = held := by
  induction s generalizing hs with
  | skip | ret | wait => cases h
  | access v' w' =>
    obtain ⟨rfl, rfl, rfl⟩ := h
    exact ⟨[], [], false, .access _ _, rfl⟩
  | seq a b iha ihb =>
    rcases h with h | ⟨hp, h⟩
    · obtain ⟨xs, ys, r, hr, he⟩ := iha h hall.1
      cases r with
      | true => exact ⟨xs, ys, true, .seqRet hr, he⟩
      | false =>
        obtain ⟨zs, r, hz, -⟩ := Script.exists_run b
        exact ⟨xs, ys ++ zs, r, by simpa using hr.seq hz, he⟩
    · obtain ⟨zs, r, hz, hpass⟩ := Script.exists_run a
      rw [hpass hp] at hz
      obtain ⟨xs, ys, r, hr, he⟩ := ihb h hall.2
      refine ⟨zs ++ xs, ys, r, by simpa using hz.seq hr, ?_⟩
      rw [after_append, (hz.each hrel hall.1).2, he]
  | choose a b iha ihb =>
    rcases h with h | h
    · obtain ⟨xs, ys, r, hr, he⟩ := iha h hall.1
      exact ⟨xs, ys, r, .left hr, he⟩
    · obtain ⟨xs, ys, r, hr, he⟩ := ihb h hall.2
      exact ⟨xs, ys, r, .right hr, he⟩
  | pick f ih =>
    obtain ⟨i, h⟩ := h
    obtain ⟨xs, ys, r, hr, he⟩ := ih i h (hall i)
    exact ⟨xs, ys, r, .pick i hr, he⟩
  | loop a ih =>
    obtain ⟨xs, ys, r, hr, he⟩ := ih h hall
    cases r with
    | true => exact ⟨xs, ys, true, .againRet hr, he⟩
    | false => exact ⟨xs, ys, false, by simpa using hr.again .stop, he⟩
  | locked l sh a ih =>
    obtain ⟨xs, ys, r, hr, he⟩ := ih h hall.2
    exact ⟨.acquire l sh :: xs, ys ++ [.release l sh], r, by simpa using @Runs.locked L V l sh a _ _ hr, he⟩
  | call a ih =>
    obtain ⟨xs, ys, r, hr, he⟩ := ih h hall
    exact ⟨xs, ys, false, .call hr, he⟩

end Script

end

/-! ## Threads -/

/-- A thread: the call that it is in, the locks that it holds, and the operations that are left of the call. -/
structure Thread (P L V : Type) where
  call : Option P := none
  held : Held L := []
  todo : List (Op L V) := []

/-- The threads and the procedures that they may call. -/
structure Crew (ι P L V : Type) where
  script : P → Script L V
  may : ι → P → Prop

abbrev Threads (ι P L V : Type) := ι → Thread P L V

section

variable {ι P L V : Type} [DecidableEq ι] [DecidableEq L] [Fintype ι]

/-- An operation can be carried out: the lock is not held by another thread, or it is shared. -/
def Threads.Enabled (s : Threads ι P L V) : Op L V → Prop
  | .acquire l sh => ∀ u, ∀ h ∈ (s u).held, h.1 = l → h.2 = true ∧ sh = true
  | .release _ _ | .access _ _ => True

instance (s : Threads ι P L V) (x : Op L V) : Decidable (s.Enabled x) :=
  match x with
  | .acquire l sh => inferInstanceAs (Decidable (∀ u, ∀ h ∈ (s u).held, h.1 = l → h.2 = true ∧ sh = true))
  | .release _ _ => inferInstanceAs (Decidable True)
  | .access _ _ => inferInstanceAs (Decidable True)

/-- A thread goes on. -/
def Threads.move (s : Threads ι P L V) (t : ι) : Option (Threads ι P L V) :=
  match (s t).todo with
  | [] => none
  | x :: xs =>
    if s.Enabled x then some (Function.update s t { s t with held := x.hold (s t).held, todo := xs }) else none

/-- All calls have returned. -/
def Threads.Idle (s : Threads ι P L V) : Prop := ∀ t, (s t).todo = []

/-- The interleavings of the calls. -/
inductive Crew.Reaches (C : Crew ι P L V) : Threads ι P L V → Prop where
  | start : C.Reaches fun _ => {}
  | call {s : Threads ι P L V} {t : ι} {f : P} {xs : List (Op L V)} {r : Bool} : C.Reaches s → C.may t f →
      (s t).todo = [] → (C.script f).Runs xs r → C.Reaches (Function.update s t { call := some f, todo := xs })
  | move {s s' : Threads ι P L V} {t : ι} : C.Reaches s → s.move t = some s' → C.Reaches s'

/-- Two locks that different threads may hold at the same time. -/
def Compatible (hs hs' : Held L) : Prop := ∀ h ∈ hs, ∀ h' ∈ hs', h.1 = h'.1 → h.2 = true ∧ h'.2 = true

omit [DecidableEq L] in
theorem Compatible.symm {hs hs' : Held L} (h : Compatible hs hs') : Compatible hs' hs :=
  fun k hk k' hk' hl => (h k' hk' k hk hl.symm).symm

/-- The thread is in a call, in front of an access. -/
def Thread.At (t : Thread P L V) (f : P) (v : V) (w : Bool) : Prop := t.call = some f ∧ ∃ xs, t.todo = .access v w :: xs

/-- **A race**: two threads are in front of accesses to one variable, and one of them writes. -/
def Threads.Races (s : Threads ι P L V) (v : V) (f g : P) : Prop :=
  ∃ t u w w', t ≠ u ∧ (s t).At f v w ∧ (s u).At g v w' ∧ (w = true ∨ w' = true)

omit [DecidableEq ι] [DecidableEq L] [Fintype ι] in
theorem Threads.Races.symm {s : Threads ι P L V} {v : V} {f g : P} (h : s.Races v f g) : s.Races v g f := by
  obtain ⟨t, u, w, w', hne, ht, hu, hw⟩ := h
  exact ⟨u, t, w', w, Ne.symm hne, hu, ht, hw.symm⟩

/-- What holds between the calls: every call goes on as its script was checked, holds no lock at its end, and different
threads hold compatible locks. -/
structure Crew.Inv (C : Crew ι P L V) (Q : P → Held L → Op L V → Prop) (s : Threads ι P L V) : Prop where
  called : ∀ t, (s t).todo ≠ [] → ∃ f, (s t).call = some f ∧ C.may t f ∧ Each (Q f) (s t).held (s t).todo
  returns : ∀ t, after (s t).held (s t).todo = []
  apart : ∀ t u, t ≠ u → Compatible (s t).held (s u).held

variable {C : Crew ι P L V} {Q : P → Held L → Op L V → Prop} {s s' : Threads ι P L V} {t u : ι}

/-- What a thread does when it goes on. -/
theorem Threads.move_cases (h : s.move t = some s') : ∃ x xs, (s t).todo = x :: xs ∧ s.Enabled x ∧
    s' = Function.update s t { s t with held := x.hold (s t).held, todo := xs } := by
  unfold Threads.move at h
  cases hx : (s t).todo with
  | nil => rw [hx] at h; cases h
  | cons x xs =>
    simp only [hx] at h
    by_cases he : s.Enabled x
    · rw [if_pos he] at h
      exact ⟨x, xs, rfl, he, (Option.some.inj h).symm⟩
    · rw [if_neg he] at h
      cases h

omit [DecidableEq ι] [Fintype ι] in
/-- Locks that are compatible with all others stay so when a thread goes on. -/
theorem Crew.Inv.compatible (h : C.Inv Q s) {x : Op L V} (he : s.Enabled x) (hne : u ≠ t) :
    Compatible (x.hold (s t).held) (s u).held := by
  have hold := h.apart t u (Ne.symm hne)
  cases x with
  | access v w => exact hold
  | release l sh => exact fun k hk k' hk' => hold k (List.mem_of_mem_erase hk) k' hk'
  | acquire l sh =>
    intro k hk k' hk' hl
    rcases List.mem_cons.mp hk with rfl | hk
    · exact (he u k' hk' hl.symm).symm
    · exact hold k hk k' hk' hl

theorem Crew.Inv.move (h : C.Inv Q s) (hm : s.move t = some s') : C.Inv Q s' := by
  obtain ⟨x, xs, hx, he, rfl⟩ := Threads.move_cases hm
  constructor
  · intro u hu
    by_cases hut : u = t
    · subst hut
      obtain ⟨f, hf, hmay, heach⟩ := h.called u (by simp [hx])
      rw [hx] at heach
      exact ⟨f, by simpa using hf, hmay, by simpa using heach.2⟩
    · simp only [Function.update_of_ne hut] at hu ⊢
      exact h.called u hu
  · intro u
    by_cases hut : u = t
    · subst hut
      have hret := h.returns u
      rw [hx] at hret
      simpa [after] using hret
    · simpa only [Function.update_of_ne hut] using h.returns u
  · intro u u' hne
    by_cases hut : u = t
    · subst hut
      simpa [Function.update_of_ne (Ne.symm hne)] using h.compatible he (Ne.symm hne)
    · by_cases hut' : u' = t
      · subst hut'
        simpa [Function.update_of_ne hut] using (h.compatible he hut).symm
      · simpa only [Function.update_of_ne hut, Function.update_of_ne hut'] using h.apart u u' hne

/-- **Every interleaving keeps the invariant**, when the scripts have been checked. -/
theorem Crew.Reaches.inv (hrel : ∀ f hs l sh, Q f hs (.release l sh)) (hQ : ∀ f, (C.script f).All (Q f) [])
    (h : C.Reaches s) : C.Inv Q s := by
  induction h with
  | start => exact ⟨fun t ht => absurd rfl ht, fun _ => rfl, fun _ _ _ k hk => by simp at hk⟩
  | @call s t f xs r _ hmay hidle hr ih =>
    obtain ⟨heach, hafter⟩ := hr.each (hrel f) (hQ f)
    have hheld : (s t).held = [] := by simpa [hidle, after] using ih.returns t
    constructor
    · intro u hu
      by_cases hut : u = t
      · subst hut
        exact ⟨f, by simp, hmay, by simpa using heach⟩
      · simp only [Function.update_of_ne hut] at hu ⊢
        exact ih.called u hu
    · intro u
      by_cases hut : u = t
      · subst hut
        simpa using hafter
      · simpa only [Function.update_of_ne hut] using ih.returns u
    · have hsame : ∀ u, (Function.update s t ({ call := some f, todo := xs } : Thread P L V) u).held = (s u).held := by
        intro u
        by_cases hut : u = t
        · subst hut
          simp [hheld]
        · rw [Function.update_of_ne hut]
      intro u u' hne
      rw [hsame, hsame]
      exact ih.apart u u' hne
  | move _ hm ih => exact ih.move hm

/-! ## No deadlock -/

variable {rank : L → Nat} {n : Nat}

theorem Threads.move_of_enabled {x : Op L V} {xs : List (Op L V)} (hx : (s t).todo = x :: xs) (he : s.Enabled x) :
    ∃ s', s.move t = some s' := by
  unfold Threads.move
  simp [hx, he]

/-- A thread that waits for a lock waits for one that can go on: the locks that the waiting threads want have higher and
higher ranks. -/
theorem Crew.Inv.can_move (h : C.Inv Q s) (hrank : ∀ f hs l sh, Q f hs (.acquire l sh) → ∀ k ∈ hs, rank k.1 < rank l)
    (hn : ∀ l, rank l < n) (m : Nat) : ∀ t, (s t).todo ≠ [] →
    (∀ l sh xs, (s t).todo = .acquire l sh :: xs → n ≤ rank l + m) → ∃ u s', s.move u = some s' := by
  induction m with
  | zero =>
    intro t ht hm
    cases hx : (s t).todo with
    | nil => exact absurd hx ht
    | cons x xs =>
      cases x with
      | acquire l sh => exact absurd (hn l) (by have := hm l sh xs hx; omega)
      | release l sh => exact ⟨t, Threads.move_of_enabled hx trivial⟩
      | access v w => exact ⟨t, Threads.move_of_enabled hx trivial⟩
  | succ m ih =>
    intro t ht hm
    cases hx : (s t).todo with
    | nil => exact absurd hx ht
    | cons x xs =>
      by_cases he : s.Enabled x
      · exact ⟨t, Threads.move_of_enabled hx he⟩
      · cases x with
        | release l sh => exact absurd trivial he
        | access v w => exact absurd trivial he
        | acquire l sh =>
          -- the thread that holds the lock is in a call, and wants a lock of a higher rank if any
          simp only [Threads.Enabled, not_forall] at he
          obtain ⟨u, k, hk, hl, -⟩ := he
          have hu : (s u).todo ≠ [] := by
            intro hidle
            have hret := h.returns u
            rw [hidle] at hret
            rw [show (s u).held = [] from hret] at hk
            simp at hk
          refine ih u hu fun l' sh' ys hy => ?_
          obtain ⟨f, -, -, heach⟩ := h.called u hu
          rw [hy] at heach
          have hlt := hrank f _ l' sh' heach.1 k hk
          have hle := hm l sh xs hx
          rw [hl] at hlt
          omega

/-- **No deadlock**: in every state that the threads reach, every schedule without new calls comes to an end, and at its end
all calls have returned. -/
theorem Crew.completes (hrel : ∀ f hs l sh, Q f hs (.release l sh)) (hQ : ∀ f, (C.script f).All (Q f) [])
    (hrank : ∀ f hs l sh, Q f hs (.acquire l sh) → ∀ k ∈ hs, rank k.1 < rank l) (hn : ∀ l, rank l < n)
    (h : C.Reaches s) : Progress.Completes Threads.move Threads.Idle s := by
  have hranked : Progress.Ranked Threads.move (C.Inv Q) fun s => ∑ t, (s t).todo.length := by
    intro s t s' hi hm
    refine ⟨hi.move hm, ?_⟩
    obtain ⟨x, xs, hx, -, rfl⟩ := Threads.move_cases hm
    refine Finset.sum_lt_sum (fun u _ => ?_) ⟨t, Finset.mem_univ t, by simp [hx]⟩
    by_cases hut : u = t
    · subst hut
      simp [hx]
    · rw [Function.update_of_ne hut]
  refine hranked.completes (fun s hi => ?_) (h.inv hrel hQ)
  by_cases hidle : s.Idle
  · exact Or.inl hidle
  · obtain ⟨t, ht⟩ := not_forall.mp hidle
    exact Or.inr (hi.can_move hrank hn n t ht fun l _ _ _ => by omega)

/-! ## Races -/

/-- **Where two threads race**, the locks of the two accesses are compatible. -/
theorem Crew.locks_of_race (hrel : ∀ f hs l sh, Q f hs (.release l sh)) (hQ : ∀ f, (C.script f).All (Q f) [])
    (h : C.Reaches s) {v : V} {f g : P} (hr : s.Races v f g) : ∃ t u hs hs' w w', t ≠ u ∧ C.may t f ∧ C.may u g ∧
      Q f hs (.access v w) ∧ Q g hs' (.access v w') ∧ (w = true ∨ w' = true) ∧ Compatible hs hs' := by
  have hi := h.inv hrel hQ
  obtain ⟨t, u, w, w', hne, ⟨hf, xs, hx⟩, ⟨hg, ys, hy⟩, hw⟩ := hr
  obtain ⟨f', hf', hmay, heach⟩ := hi.called t (by simp [hx])
  obtain ⟨g', hg', hmay', heach'⟩ := hi.called u (by simp [hy])
  rw [hx] at heach
  rw [hy] at heach'
  obtain rfl : f = f' := Option.some.inj (hf.symm.trans hf')
  obtain rfl : g = g' := Option.some.inj (hg.symm.trans hg')
  exact ⟨t, u, _, _, w, w', hne, hmay, hmay', heach.1, heach'.1, hw, hi.apart t u hne⟩

/-- A thread goes on alone, while the others hold none of the locks that it takes. -/
theorem Crew.Reaches.advance (hrel : ∀ f hs l sh, Q f hs (.release l sh)) (hQ : ∀ f, (C.script f).All (Q f) [])
    (hrank : ∀ f hs l sh, Q f hs (.acquire l sh) → ∀ k ∈ hs, rank k.1 < rank l) (h : C.Reaches s) (xs : List (Op L V))
    {ys : List (Op L V)} (hx : (s t).todo = xs ++ ys) (hfree : ∀ l sh, .acquire l sh ∈ xs → ∀ u ≠ t, ∀ k ∈ (s u).held, k.1 ≠ l) :
    C.Reaches (Function.update s t { s t with held := after (s t).held xs, todo := ys }) := by
  induction xs generalizing s with
  | nil =>
    have hsame : Function.update s t { s t with held := after (s t).held ([] : List (Op L V)), todo := ys } = s := by
      rw [← show (s t).todo = ys from hx]
      exact Function.update_eq_self t s
    rwa [hsame]
  | cons x xs ih =>
    have hen : s.Enabled x := by
      cases x with
      | release l sh | access v w => trivial
      | acquire l sh =>
        intro u k hk hl
        by_cases hut : u = t
        · subst hut
          obtain ⟨f, -, -, heach⟩ := (h.inv hrel hQ).called u (by simp [hx])
          rw [hx] at heach
          have hlt := hrank f _ l sh heach.1 k hk
          rw [hl] at hlt
          exact absurd hlt (lt_irrefl _)
        · exact absurd hl (hfree l sh List.mem_cons_self u hut k hk)
    have hmove : s.move t = some (Function.update s t { s t with held := x.hold (s t).held, todo := xs ++ ys }) := by
      unfold Threads.move
      rw [hx]
      exact if_pos hen
    have hnext := ih (h.move hmove) (by simp) fun l sh hl u hut k hk =>
      hfree l sh (List.mem_cons_of_mem _ hl) u hut k (by simpa only [Function.update_of_ne hut] using hk)
    simpa [after] using hnext

/-- **Two threads get to race**: the first one stands in front of its access with locks that the procedure of the second one
never takes. -/
theorem Crew.exists_race (hrel : ∀ f hs l sh, Q f hs (.release l sh)) (hQ : ∀ f, (C.script f).All (Q f) [])
    (hrank : ∀ f hs l sh, Q f hs (.acquire l sh) → ∀ k ∈ hs, rank k.1 < rank l) {f g : P} (hne : t ≠ u) (hf : C.may t f)
    (hg : C.may u g) {v : V} {w w' : Bool} {hs hs' : Held L} (ha : (C.script f).Accesses v w hs [])
    (hb : (C.script g).Accesses v w' hs' []) (hw : w = true ∨ w' = true) (hfree : ∀ k ∈ hs, ¬(C.script g).Takes k.1) :
    ∃ s, C.Reaches s ∧ s.Races v f g := by
  obtain ⟨xs, zs, r, hr, rfl⟩ := ha.exists_run (hrel f) (hQ f)
  obtain ⟨ys, zs', r', hr', rfl⟩ := hb.exists_run (hrel g) (hQ g)
  -- the first thread goes to its access, with nobody else around
  have h₁ := Crew.Reaches.call .start hf rfl hr
  have h₂ := h₁.advance (t := t) hrel hQ hrank xs (by simp; rfl) fun l sh _ v hv k hk => by
    rw [Function.update_of_ne hv] at hk
    simp at hk
  -- then the second one
  have h₃ := h₂.call (t := u) hg (by simp [Function.update_of_ne (Ne.symm hne)]) hr'
  have h₄ := h₃.advance (t := u) hrel hQ hrank ys (by simp; rfl) fun l sh hl v hv k hk => by
    rw [Function.update_of_ne hv] at hk
    by_cases hvt : v = t
    · subst hvt
      rintro rfl
      exact hfree k (by simpa using hk) (hr'.takes (List.mem_append_left _ hl))
    · simp [Function.update_of_ne hvt] at hk
  refine ⟨_, h₄, t, u, w, w', hne, ⟨?_, zs, ?_⟩, ⟨?_, zs', ?_⟩, hw⟩
  · simp [Function.update_of_ne hne]
  · simp [Function.update_of_ne hne]
  · simp
  · simp

end

end Locks
