import SplitKV.Concurrent.System
import SplitKV.DBImpl.Close
import SplitKV.Lib.Progress
import SplitKV.Recovery.Index
import SplitKV.Store.Steps

/-!
# The wait of the flush thread

`BackgroundFlush` waits on `flush_cv_` until there is work. Writers notify it under `memtable_mutex_`, the destructor under
no lock at all; neither holds `flush_mutex_`, which the thread holds from the test of its condition until it sleeps. A
notification that comes in between wakes nobody. The thread sleeps while there is work exactly behind such a notification, or
behind a rotation that failed before it notified (`oversleeps_iff`), and the destructor returns exactly when its own
notification does not come in between (`close_returns_iff`).
-/

namespace SplitKV

namespace FlushThread

/-- Where the thread stands: at `while (!shutting_down_)`; at the two reads of its condition; in front of the sleep, the
condition being false; asleep; behind the wait; in the flush of a memtable; in the automatic compactions; at its end. -/
inductive Place
  | test
  | readShutdown
  | readQueue
  | window
  | asleep
  | awake
  | working (w : Flusher)
  | compacting
  | exited

/-- Where the destructor stands: not called; `shutting_down_` is set; behind `notify_all`; behind its flushes. -/
inductive Closing
  | running
  | stored
  | joining
  | closed
  deriving DecidableEq

/-- The database with its flush thread. A writer that is about to notify holds `memtable_mutex_`. -/
structure State where
  db : DB
  place : Place := .test
  notifying : Bool := false
  closing : Closing := .running

/-- What can happen: a write, up to its notification; the notification; the three parts of the destructor; the next step of
the thread; a wakeup that nobody asked for. -/
inductive Move
  | write (sync : Bool) (batch : WriteBatch) (f : WriteFaults)
  | notifyOne
  | store
  | notifyAll
  | join
  | thread
  | spurious

namespace State

/-- `shutting_down_`. -/
def shuttingDown (s : State) : Prop := s.closing ≠ .running

instance (s : State) : Decidable s.shuttingDown := inferInstanceAs (Decidable (¬s.closing = .running))

/-- `!immutable_memtables_.empty()`. -/
def hasWork (s : State) : Prop := s.db.immutableMemtables ≠ []

instance (s : State) : Decidable s.hasWork :=
  decidable_of_iff (s.db.immutableMemtables.isEmpty = false) (by simp [hasWork])

/-- The write moved the memtable to the queue. -/
def rotates (s : State) (sync : Bool) (batch : WriteBatch) (f : WriteFaults) : Bool :=
  decide (s.db.immutableMemtables.length < (s.db.write sync batch f).1.immutableMemtables.length)

/-- The write returns OK. -/
def succeeds (s : State) (sync : Bool) (batch : WriteBatch) (f : WriteFaults) : Bool :=
  (s.db.write sync batch f).2.toOption.isSome

/-- Who is notified, and sleeps, tests its condition anew. -/
def wake (s : State) : State :=
  match s.place with
  | .asleep => { s with place := .readShutdown }
  | _ => s

/-- The next step of `BackgroundFlush`. The front of the queue is taken, and popped, under `memtable_mutex_`. -/
def threadStep (s : State) : Option State :=
  match s.place with
  | .test => some { s with place := if s.shuttingDown then .exited else .readShutdown }
  | .readShutdown => some { s with place := if s.shuttingDown then .awake else .readQueue }
  | .readQueue => some { s with place := if s.hasWork then .awake else .window }
  | .window => some { s with place := .asleep }
  | .asleep => none
  | .awake =>
    if s.shuttingDown ∧ ¬s.hasWork then some { s with place := .exited }
    else if s.notifying then none
    else
      match s.db.flushStep .idle with
      | (db, .idle) => some { s with db := db, place := .test }
      | (db, w) => some { s with db := db, place := .working w }
  | .working w =>
    match w, s.notifying with
    | .flushed _, true => none
    | w, _ =>
      match s.db.flushStep w with
      | (db, .idle) => some { s with db := db, place := .compacting }
      | (db, w) => some { s with db := db, place := .working w }
  | .compacting =>
    some { s with db := DB.autoCompact (List.range (s.db.options.maxSstableLevels - 1)) s.db, place := .test }
  | .exited => none

/-- A move, where it is possible. Writers take turns, and none is left when the destructor is called. -/
def step (s : State) : Move → Option State
  | .write sync batch f =>
    if s.notifying ∨ s.shuttingDown then none
    else some { s with
      db := (s.db.write sync batch f).1
      notifying := s.rotates sync batch f && s.succeeds sync batch f }
  | .notifyOne => if s.notifying then some { s.wake with notifying := false } else none
  | .store => if s.notifying ∨ s.shuttingDown then none else some { s with closing := .stored }
  | .notifyAll => if s.closing = .stored then some { s.wake with closing := .joining } else none
  | .join =>
    match s.closing, s.place with
    | .joining, .exited => some { s with db := s.db.destroy fun _ => {}, closing := .closed }
    | _, _ => none
  | .thread => s.threadStep
  | .spurious =>
    match s.place with
    | .asleep => some { s with place := .readShutdown }
    | _ => none

/-- A notification is still to come. -/
def coming (s : State) : Prop := s.notifying = true ∨ s.closing = .stored

/-- The thread sleeps, or will sleep next, although its condition holds, and no notification is to come. -/
def Oversleeps (s : State) : Prop :=
  ¬s.coming ∧ ((s.place = .window ∨ s.place = .asleep) ∧ (s.hasWork ∨ s.shuttingDown) ∨
    s.place = .readQueue ∧ ¬s.hasWork ∧ s.shuttingDown)

/-- A notification that wakes nobody: it comes when the thread has found its condition false, and does not sleep yet; or
there is none, since the creation of the WAL failed. -/
def Misses (s : State) : Move → Prop
  | .notifyOne => s.place = .window
  | .notifyAll => s.place = .window ∨ s.place = .readQueue ∧ ¬s.hasWork
  | .write sync batch f =>
    (s.place = .window ∨ s.place = .asleep) ∧ s.rotates sync batch f = true ∧ s.succeeds sync batch f = false
  | _ => False

end State

/-! ## The steps of the thread -/

/-- How far a flush is from its end. -/
def rankFlusher : Flusher → Nat
  | .idle => 5
  | .taken _ => 4
  | .allocated _ _ => 3
  | .registered _ => 2
  | .flushed _ => 1

/-- How far the thread is from its end, once `shutting_down_` is set. -/
def Place.rank : Place → Nat
  | .exited => 0
  | .test => 1
  | .compacting => 2
  | .working w => 2 + rankFlusher w
  | .awake => 8
  | .readShutdown | .readQueue => 9
  | .window => 10
  | .asleep => 11

theorem rankFlusher_pos (w : Flusher) : 0 < rankFlusher w := by
  cases w <;> simp [rankFlusher]

theorem flushStep_rank (db : DB) (w : Flusher) :
    (db.flushStep w).2 = .idle ∨ rankFlusher (db.flushStep w).2 < rankFlusher w := by
  cases w with
  | idle =>
    rw [DB.flushStep]
    split <;> simp [rankFlusher]
  | taken m =>
    rw [DB.flushStep]
    split <;> simp [rankFlusher]
  | allocated m fileId =>
    rw [DB.flushStep]
    simp only
    split <;> simp [rankFlusher]
  | registered m => simp [DB.flushStep, rankFlusher]
  | flushed m => simp [DB.flushStep]

/-- Only the end of a flush pops the queue. -/
theorem flushStep_queue (db : DB) {w : Flusher} (h : ∀ m, w ≠ .flushed m) :
    (db.flushStep w).1.immutableMemtables = db.immutableMemtables := by
  cases w with
  | idle =>
    rw [DB.flushStep]
    split <;> rfl
  | taken m =>
    rw [DB.flushStep]
    split <;> rfl
  | allocated m fileId =>
    rw [DB.flushStep]
    simp only
    split <;> rfl
  | registered m => rfl
  | flushed m => exact absurd rfl (h m)

theorem autoCompact_queue (lvls : List Nat) (db : DB) :
    (DB.autoCompact lvls db).immutableMemtables = db.immutableMemtables := by
  induction lvls generalizing db with
  | nil => rfl
  | cons lvl lvls ih =>
    rw [DB.autoCompact, List.foldl_cons, ← DB.autoCompact, ih]
    split
    · exact (DB.onlyIndex_compact db lvl .none).immutableMemtables
    · rfl

/-- A write adds memtables to the queue. -/
theorem write_queue (db : DB) (sync : Bool) (batch : WriteBatch) (f : WriteFaults) :
    db.immutableMemtables <+: (db.write sync batch f).1.immutableMemtables :=
  (DB.write_logSteps db sync batch f).keep (P := fun a => db.immutableMemtables <+: a.immutableMemtables) List.prefix_rfl
    (fun _ _ _ _ _ h _ => h) (fun _ _ _ h _ => h) fun _ h => h.trans (List.prefix_append _ _)

/-- What a step of the thread does to the wait. -/
structure Threaded (s s' : State) : Prop where
  notifying : s'.notifying = s.notifying
  closing : s'.closing = s.closing
  queue : s.notifying = true → s'.db.immutableMemtables = s.db.immutableMemtables
  readQueue : s'.place = .readQueue → ¬s.shuttingDown
  window : s'.place = .window → s.place = .readQueue ∧ ¬s.hasWork ∧ s'.db = s.db
  asleep : s'.place = .asleep → s.place = .window ∧ s'.db = s.db
  rank : s.shuttingDown → s.place ≠ .window → (s.place = .readQueue → s.hasWork) → s'.place.rank < s.place.rank

theorem threaded {s s' : State} (h : s.threadStep = some s') : Threaded s s' := by
  obtain ⟨db, place, notifying, closing⟩ := s
  cases place with
  | test =>
    cases h
    refine ⟨rfl, rfl, fun _ => rfl, ?_, ?_, ?_, ?_⟩ <;> simp only <;> split <;> simp_all [Place.rank]
  | readShutdown =>
    cases h
    refine ⟨rfl, rfl, fun _ => rfl, ?_, ?_, ?_, ?_⟩ <;> simp only <;> split <;> simp_all [Place.rank]
  | readQueue =>
    cases h
    refine ⟨rfl, rfl, fun _ => rfl, ?_, ?_, ?_, ?_⟩ <;> simp only <;> split <;> simp_all [Place.rank]
  | window =>
    cases h
    exact ⟨rfl, rfl, fun _ => rfl, by simp, by simp, fun _ => ⟨rfl, rfl⟩, fun _ hw => absurd rfl hw⟩
  | asleep => cases h
  | exited => cases h
  | compacting =>
    cases h
    exact ⟨rfl, rfl, fun _ => autoCompact_queue _ db, by simp, by simp, by simp, fun _ _ _ => by simp [Place.rank]⟩
  | awake =>
    have hq := @flushStep_queue db .idle fun m => by simp
    have hr := flushStep_rank db .idle
    rw [State.threadStep] at h
    simp only at h
    split at h
    · cases h
      exact ⟨rfl, rfl, fun _ => rfl, by simp, by simp, by simp, fun _ _ _ => by simp [Place.rank]⟩
    · split at h
      · cases h
      · generalize db.flushStep .idle = x at h hq hr
        obtain ⟨db', w⟩ := x
        cases w <;> cases h <;>
          exact ⟨rfl, rfl, fun _ => hq, by simp, by simp, by simp, fun _ _ _ => by simp_all [Place.rank, rankFlusher]⟩
  | working w =>
    rw [State.threadStep] at h
    simp only at h
    split at h
    · cases h
    · rename_i hpop
      have hq : notifying = true → (db.flushStep w).1.immutableMemtables = db.immutableMemtables := fun hn =>
        flushStep_queue db fun m hw => hpop m hw hn
      have hr := flushStep_rank db w
      generalize db.flushStep w = x at h hq hr
      obtain ⟨db', w'⟩ := x
      have hpos := rankFlusher_pos w
      cases w' with
      | idle =>
        cases h
        exact ⟨rfl, rfl, hq, by simp, by simp, by simp, fun _ _ _ => by simp [Place.rank]; omega⟩
      | taken _ | allocated _ _ | registered _ | flushed _ =>
        cases h
        have hlt := hr.resolve_left (by simp)
        exact ⟨rfl, rfl, hq, by simp, by simp, by simp, fun _ _ _ => Nat.add_lt_add_left hlt 2⟩

/-! ## Moves -/

/-- A writer that is about to notify has put a memtable into the queue, and the destructor was not called. -/
def Inv (s : State) : Prop := s.notifying = true → s.hasWork ∧ s.closing = .running

section

variable {s s' : State}

@[simp] theorem wake_db (s : State) : s.wake.db = s.db := by
  unfold State.wake
  split <;> rfl

@[simp] theorem wake_notifying (s : State) : s.wake.notifying = s.notifying := by
  unfold State.wake
  split <;> rfl

@[simp] theorem wake_closing (s : State) : s.wake.closing = s.closing := by
  unfold State.wake
  split <;> rfl

/-- Who was notified does not sleep. -/
@[simp] theorem wake_ne_asleep (s : State) : s.wake.place ≠ .asleep := by
  unfold State.wake
  split
  · simp
  · exact ‹_›

/-- A notification changes nothing for who does not sleep. -/
@[simp] theorem wake_window (s : State) : s.wake.place = .window ↔ s.place = .window := by
  unfold State.wake
  split <;> simp [*]

@[simp] theorem wake_readQueue (s : State) : s.wake.place = .readQueue ↔ s.place = .readQueue := by
  unfold State.wake
  split <;> simp [*]

theorem hasWork_congr (h : s'.db.immutableMemtables = s.db.immutableMemtables) : s'.hasWork ↔ s.hasWork := by
  rw [State.hasWork, h]
  rfl

/-- A write, and whether it notifies. -/
theorem write_cases {sync : Bool} {batch : WriteBatch} {f : WriteFaults} (h : s.step (.write sync batch f) = some s') :
    s.notifying = false ∧ s.closing = .running ∧ s'.place = s.place ∧ s'.closing = s.closing ∧
      s'.notifying = (s.rotates sync batch f && s.succeeds sync batch f) ∧
      (s.rotates sync batch f = true ∧ s'.hasWork ∨ s.rotates sync batch f = false ∧ (s'.hasWork ↔ s.hasWork)) := by
  simp only [State.step] at h
  split at h
  · cases h
  · rename_i hfree
    cases h
    rw [not_or, State.shuttingDown, not_not, Bool.not_eq_true] at hfree
    refine ⟨hfree.1, hfree.2, rfl, rfl, rfl, ?_⟩
    have hq := write_queue s.db sync batch f
    by_cases hr : s.rotates sync batch f = true
    · refine Or.inl ⟨hr, fun hnil => ?_⟩
      have hlt := of_decide_eq_true hr
      simp only at hnil
      rw [hnil] at hlt
      exact Nat.not_lt_zero _ hlt
    · rw [Bool.not_eq_true] at hr
      refine Or.inr ⟨hr, hasWork_congr ?_⟩
      have hge := of_decide_eq_false hr
      exact (hq.eq_of_length (Nat.le_antisymm hq.length_le (Nat.le_of_not_lt hge))).symm

theorem notifyOne_cases (h : s.step .notifyOne = some s') : s.notifying = true ∧ s' = { s.wake with notifying := false } := by
  simp only [State.step] at h
  split at h
  · cases h
    exact ⟨‹_›, rfl⟩
  · cases h

theorem store_cases (h : s.step .store = some s') :
    s.notifying = false ∧ s.closing = .running ∧ s' = { s with closing := .stored } := by
  simp only [State.step] at h
  split at h
  · cases h
  · rename_i hfree
    cases h
    rw [not_or, State.shuttingDown, not_not, Bool.not_eq_true] at hfree
    exact ⟨hfree.1, hfree.2, rfl⟩

theorem notifyAll_cases (h : s.step .notifyAll = some s') : s.closing = .stored ∧ s' = { s.wake with closing := .joining } := by
  simp only [State.step] at h
  split at h
  · cases h
    exact ⟨‹_›, rfl⟩
  · cases h

theorem join_cases (h : s.step .join = some s') :
    s.closing = .joining ∧ s.place = .exited ∧ s' = { s with db := s.db.destroy fun _ => {}, closing := .closed } := by
  simp only [State.step] at h
  split at h
  · cases h
    exact ⟨‹_›, ‹_›, rfl⟩
  · cases h

theorem spurious_cases (h : s.step .spurious = some s') : s.place = .asleep ∧ s' = { s with place := .readShutdown } := by
  simp only [State.step] at h
  split at h
  · cases h
    exact ⟨‹_›, rfl⟩
  · cases h

theorem Inv.step (hi : Inv s) {mv : Move} (h : s.step mv = some s') : Inv s' := by
  intro hn
  cases mv with
  | write sync batch f =>
    obtain ⟨-, hc, -, hc', hn', hw⟩ := write_cases h
    rw [hn, eq_comm, Bool.and_eq_true] at hn'
    rcases hw with ⟨-, hw⟩ | ⟨hr, -⟩
    · exact ⟨hw, hc'.trans hc⟩
    · rw [hr] at hn'
      exact absurd hn'.1 (by simp)
  | notifyOne =>
    obtain ⟨-, rfl⟩ := notifyOne_cases h
    cases hn
  | store =>
    obtain ⟨hn', -, rfl⟩ := store_cases h
    exact absurd (hn'.symm.trans hn) (by simp)
  | notifyAll =>
    obtain ⟨hc, rfl⟩ := notifyAll_cases h
    exact absurd (hc.symm.trans (hi (by simpa using hn)).2) (by simp)
  | join =>
    obtain ⟨hc, -, rfl⟩ := join_cases h
    exact absurd (hc.symm.trans (hi hn).2) (by simp)
  | thread =>
    have ht := threaded h
    rw [ht.notifying] at hn
    exact ⟨(hasWork_congr (ht.queue hn)).mpr (hi hn).1, ht.closing.trans (hi hn).2⟩
  | spurious =>
    obtain ⟨-, rfl⟩ := spurious_cases h
    exact hi hn

/-! ## Lost notifications -/

theorem not_oversleeps_of_coming (h : s.coming) : ¬s.Oversleeps := fun ho => ho.1 h

/-- The thread is neither asleep nor about to sleep. -/
theorem not_oversleeps_of_place (h₁ : s.place ≠ .window) (h₂ : s.place ≠ .asleep) (h₃ : s.place ≠ .readQueue) :
    ¬s.Oversleeps := by
  rintro ⟨-, ⟨hp | hp, -⟩ | ⟨hp, -⟩⟩
  · exact h₁ hp
  · exact h₂ hp
  · exact h₃ hp

/-- A write that does not notify. -/
theorem oversleeps_write (ho : ¬s.Oversleeps) {sync : Bool} {batch : WriteBatch} {f : WriteFaults}
    (h : s.step (.write sync batch f) = some s') : s'.Oversleeps ↔ s.Misses (.write sync batch f) := by
  obtain ⟨hn, hc, hp, hc', hn', hw⟩ := write_cases h
  have hrun : ¬s'.shuttingDown := fun hs => hs (hc'.trans hc)
  have hquiet : ¬s.coming := by
    rintro (hco | hco)
    · exact absurd (hn.symm.trans hco) (by simp)
    · exact absurd (hc.symm.trans hco) (by simp)
  have hcoming : s'.coming ↔ s.rotates sync batch f = true ∧ s.succeeds sync batch f = true := by
    rw [State.coming, hn', hc', hc, Bool.and_eq_true]
    simp
  constructor
  · rintro ⟨hco, ⟨hpl, hwork⟩ | ⟨-, -, hs⟩⟩
    · rw [hp] at hpl
      refine ⟨hpl, ?_⟩
      rcases hw with ⟨hr, -⟩ | ⟨-, hsame⟩
      · refine ⟨hr, Bool.eq_false_iff.mpr fun hsu => hco (hcoming.mpr ⟨hr, hsu⟩)⟩
      · exact absurd ⟨hquiet, Or.inl ⟨hpl, Or.inl (hsame.mp (hwork.resolve_right hrun))⟩⟩ ho
    · exact absurd hs hrun
  · rintro ⟨hpl, hr, hsu⟩
    refine ⟨fun hco => ?_, Or.inl ⟨hp ▸ hpl, Or.inl ?_⟩⟩
    · exact absurd (hsu.symm.trans (hcoming.mp hco).2) (by simp)
    · rcases hw with ⟨-, hw⟩ | ⟨hr', -⟩
      · exact hw
      · exact absurd (hr'.symm.trans hr) (by simp)

/-- The thread itself reads its condition before it sleeps. -/
theorem oversleeps_thread (ho : ¬s.Oversleeps) (h : s.step .thread = some s') : ¬s'.Oversleeps := by
  have ht := threaded h
  have hcoming : s'.coming ↔ s.coming := by rw [State.coming, ht.notifying, ht.closing]; rfl
  have hshut : s'.shuttingDown ↔ s.shuttingDown := by rw [State.shuttingDown, ht.closing]; rfl
  rintro ⟨hco, ⟨hp | hp, hwork⟩ | ⟨hp, -, hs⟩⟩
  · obtain ⟨hpl, hno, hdb⟩ := ht.window hp
    rw [hasWork_congr (congrArg DB.immutableMemtables hdb), hshut] at hwork
    exact ho ⟨fun hc => hco (hcoming.mpr hc), Or.inr ⟨hpl, hno, hwork.resolve_left hno⟩⟩
  · obtain ⟨hpl, hdb⟩ := ht.asleep hp
    rw [hasWork_congr (congrArg DB.immutableMemtables hdb), hshut] at hwork
    exact ho ⟨fun hc => hco (hcoming.mpr hc), Or.inl ⟨Or.inl hpl, hwork⟩⟩
  · exact ht.readQueue hp (hshut.mp hs)

/-- **A move** makes the thread oversleep exactly when its notification is missed. -/
theorem oversleeps_step (hi : Inv s) (ho : ¬s.Oversleeps) {mv : Move} (h : s.step mv = some s') :
    s'.Oversleeps ↔ s.Misses mv := by
  cases mv with
  | write sync batch f => exact oversleeps_write ho h
  | thread => exact ⟨fun ho' => oversleeps_thread ho h ho', False.elim⟩
  | notifyOne =>
    obtain ⟨hn, rfl⟩ := notifyOne_cases h
    obtain ⟨hwork, hrun⟩ := hi hn
    have hwork' : s.db.immutableMemtables ≠ [] := hwork
    simp [State.Oversleeps, State.Misses, State.coming, State.hasWork, State.shuttingDown, hrun, hwork']
  | store =>
    obtain ⟨-, -, rfl⟩ := store_cases h
    exact ⟨fun ho' => absurd ho' (not_oversleeps_of_coming (Or.inr rfl)), False.elim⟩
  | notifyAll =>
    obtain ⟨hc, rfl⟩ := notifyAll_cases h
    have hn : s.notifying = false := Bool.eq_false_iff.mpr fun hn => absurd (hc.symm.trans (hi hn).2) (by simp)
    simp [State.Oversleeps, State.Misses, State.coming, State.hasWork, State.shuttingDown, hn]
  | join =>
    obtain ⟨-, hp, rfl⟩ := join_cases h
    refine ⟨fun ho' => absurd ho' (not_oversleeps_of_place ?_ ?_ ?_), False.elim⟩ <;> simp [hp]
  | spurious =>
    obtain ⟨-, rfl⟩ := spurious_cases h
    exact ⟨fun ho' => absurd ho' (not_oversleeps_of_place (by simp) (by simp) (by simp)), False.elim⟩

/-- A run without missed notifications. -/
theorem awake_run (hi : Inv s) (ho : ¬s.Oversleeps) {moves : List Move} (h : Progress.Run State.step s moves s')
    (hm : ∀ as mv bs t, moves = as ++ mv :: bs → Progress.Run State.step s as t → ¬t.Misses mv) : ¬s'.Oversleeps := by
  induction moves generalizing s with
  | nil => exact (show s = s' from h) ▸ ho
  | cons mv moves ih =>
    obtain ⟨t, ht, h⟩ := h
    have ho' : ¬t.Oversleeps := fun ho' => hm [] mv moves s rfl rfl ((oversleeps_step hi ho ht).mp ho')
    exact ih (hi.step ht) ho' h fun as mv' bs u he hr => hm (mv :: as) mv' bs u (by rw [he]; rfl) ⟨t, ht, hr⟩

theorem inv_start (db : DB) : Inv { db := db } := fun hn => by cases hn

theorem awake_start (db : DB) : ¬State.Oversleeps { db := db } := not_oversleeps_of_place (by simp) (by simp) (by simp)

/-- **The flush thread oversleeps exactly when a notification is missed.** In every interleaving of writes, their
notifications, the destructor and the thread, with wakeups that nobody asked for: at some point the thread sleeps, or is
about to, while there is work and no notification is to come, if and only if some notification came between the test of the
condition and the sleep, or some rotation failed before its notification while the thread slept. -/
theorem oversleeps_iff {db : DB} {moves : List Move} (h : Progress.Run State.step { db := db } moves s) :
    (∃ as bs t, moves = as ++ bs ∧ Progress.Run State.step { db := db } as t ∧ t.Oversleeps) ↔
      ∃ as mv bs t, moves = as ++ mv :: bs ∧ Progress.Run State.step { db := db } as t ∧ t.Misses mv := by
  constructor
  · rintro ⟨as, bs, t, rfl, hr, ho⟩
    by_contra hno
    refine awake_run (inv_start db) (awake_start db) hr (fun as' mv bs' u he hr' hm => hno ?_) ho
    exact ⟨as', mv, bs' ++ bs, u, by rw [he, List.append_assoc]; rfl, hr', hm⟩
  · rintro ⟨as, mv, bs, t, rfl, hr, hm⟩
    obtain ⟨t', hr', u, hu, hrest⟩ := h.split
    obtain rfl := hr.unique hr'
    by_cases ho : t.Oversleeps
    · exact ⟨as, mv :: bs, t, rfl, hr, ho⟩
    · have hi : Inv t := hr.keeps (fun _ _ _ hi hs => hi.step hs) (inv_start db)
      exact ⟨as ++ [mv], bs, u, by simp, hr.append ⟨u, hu, rfl⟩, (oversleeps_step hi ho hu).mpr hm⟩

/-- A writer that fills a memtable, and notifies the thread just before it sleeps. -/
def lateMoves : List Move :=
  [.thread, .thread, .thread, .write false [.put [1] [7]] {}, .notifyOne, .thread]

/-- The thread sleeps, with a memtable to flush. -/
theorem oversleeps_iff_sample : ∃ as bs t, lateMoves = as ++ bs ∧
    Progress.Run State.step { db := DB.fresh { memtableSizeLimit := 1 } } as t ∧ t.Oversleeps := by
  have hrotates : State.rotates { db := DB.fresh { memtableSizeLimit := 1 }, place := .window } false [.put [1] [7]] {} = true ∧
      State.succeeds { db := DB.fresh { memtableSizeLimit := 1 }, place := .window } false [.put [1] [7]] {} = true := by
    decide +kernel
  have hwrite : State.step { db := DB.fresh { memtableSizeLimit := 1 }, place := .window } (.write false [.put [1] [7]] {}) =
      some { db := ((DB.fresh { memtableSizeLimit := 1 }).write false [.put [1] [7]] {}).1, place := .window,
             notifying := true } := by
    simp [State.step, hrotates, State.shuttingDown]
  have hfront : Progress.Run State.step { db := DB.fresh { memtableSizeLimit := 1 } }
      [.thread, .thread, .thread, .write false [.put [1] [7]] {}]
      { db := ((DB.fresh { memtableSizeLimit := 1 }).write false [.put [1] [7]] {}).1, place := .window, notifying := true } :=
    ⟨_, rfl, _, rfl, _, rfl, _, hwrite, rfl⟩
  have hlast : Progress.Run State.step
      { db := ((DB.fresh { memtableSizeLimit := 1 }).write false [.put [1] [7]] {}).1, place := .window, notifying := true }
      [.notifyOne, .thread]
      { db := ((DB.fresh { memtableSizeLimit := 1 }).write false [.put [1] [7]] {}).1, place := .asleep } :=
    ⟨_, rfl, _, rfl, rfl⟩
  exact (oversleeps_iff (hfront.append hlast)).mpr ⟨_, .notifyOne, [.thread], _, rfl, hfront, rfl⟩

/-! ## The destructor -/

/-- A move that somebody makes. -/
def moveOn (s : State) (mv : Move) : Option State :=
  match mv with
  | .spurious => none
  | mv => s.step mv

/-- Behind `notify_all`, the thread will not sleep any more. -/
structure Leaving (s : State) : Prop where
  notifying : s.notifying = false
  closing : s.closing = .joining ∨ s.closing = .closed ∧ s.place = .exited
  window : s.place ≠ .window
  asleep : s.place ≠ .asleep
  readQueue : s.place = .readQueue → s.hasWork

/-- Behind `notify_all`, the thread sleeps or will sleep. -/
structure Hanging (s : State) : Prop where
  notifying : s.notifying = false
  closing : s.closing = .joining
  place : s.place = .window ∨ s.place = .asleep ∨ s.place = .readQueue ∧ ¬s.hasWork

/-- How far the destructor is from its end. -/
def rank (s : State) : Nat := s.place.rank + if s.closing = .closed then 0 else 1

/-- Behind `notify_all`, there are the steps of the thread, and the end of the destructor. -/
theorem moveOn_cases (hn : s.notifying = false) (hc : s.closing = .joining ∨ s.closing = .closed) {mv : Move}
    (h : moveOn s mv = some s') : Threaded s s' ∧ s.threadStep = some s' ∨
      s.closing = .joining ∧ s.place = .exited ∧ s' = { s with db := s.db.destroy fun _ => {}, closing := .closed } := by
  have hrun : s.closing ≠ .running := by rcases hc with hc | hc <;> simp [hc]
  cases mv with
  | spurious => cases h
  | write sync batch f => exact absurd (write_cases h).2.1 hrun
  | notifyOne => exact absurd (hn.symm.trans (notifyOne_cases h).1) (by simp)
  | store => exact absurd (store_cases h).2.1 hrun
  | notifyAll => rcases hc with hc | hc <;> exact absurd (hc.symm.trans (notifyAll_cases h).1) (by simp)
  | join => exact Or.inr (join_cases h)
  | thread => exact Or.inl ⟨threaded h, h⟩

theorem ranked_leaving : Progress.Ranked moveOn Leaving rank := by
  intro s mv t hl h
  rcases moveOn_cases hl.notifying (hl.closing.imp_right And.left) h with ⟨ht, hstep⟩ | ⟨hc, hp, rfl⟩
  · have hjoining : s.closing = .joining := by
      rcases hl.closing with hc | ⟨-, hp⟩
      · exact hc
      · rw [State.threadStep, hp] at hstep
        cases hstep
    have hshut : s.shuttingDown := by simp [State.shuttingDown, hjoining]
    refine ⟨⟨ht.notifying.trans hl.notifying, Or.inl (ht.closing.trans hjoining), fun hp => ?_, fun hp => ?_, fun hp => ?_⟩, ?_⟩
    · exact (ht.window hp).2.1 (hl.readQueue (ht.window hp).1)
    · exact hl.window (ht.asleep hp).1
    · exact absurd hshut (ht.readQueue hp)
    · rw [rank, rank, ht.closing]
      exact Nat.add_lt_add_right (ht.rank hshut hl.window hl.readQueue) _
  · refine ⟨⟨hl.notifying, Or.inr ⟨rfl, hp⟩, hl.window, hl.asleep, fun hq => absurd (hp.symm.trans hq) (by simp)⟩, ?_⟩
    simp [rank, hc]

/-- The thread goes on when it neither sleeps nor waits for a lock. -/
theorem threadStep_isSome (hn : s.notifying = false) (h₁ : s.place ≠ .asleep) (h₂ : s.place ≠ .exited) :
    ∃ t, s.threadStep = some t := by
  obtain ⟨db, place, notifying, closing⟩ := s
  obtain rfl : notifying = false := hn
  cases place with
  | asleep => exact absurd rfl h₁
  | exited => exact absurd rfl h₂
  | test | readShutdown | readQueue | window | compacting => exact ⟨_, rfl⟩
  | awake =>
    rw [State.threadStep]
    simp only [Bool.false_eq_true, if_false]
    split
    · exact ⟨_, rfl⟩
    · generalize db.flushStep .idle = x
      obtain ⟨db', w⟩ := x
      cases w <;> exact ⟨_, rfl⟩
  | working w =>
    rw [State.threadStep]
    simp only
    generalize db.flushStep w = x
    obtain ⟨db', w'⟩ := x
    cases w <;> cases w' <;> exact ⟨_, rfl⟩

/-- There is a move until the destructor is through. -/
theorem leaving_moves (s : State) (hl : Leaving s) : s.closing = .closed ∨ ∃ mv t, moveOn s mv = some t := by
  by_cases hp : s.place = .exited
  · rcases hl.closing with hc | ⟨hc, -⟩
    · right
      refine ⟨.join, { s with db := s.db.destroy fun _ => {}, closing := .closed }, ?_⟩
      show s.step .join = _
      simp only [State.step, hc, hp]
    · exact Or.inl hc
  · obtain ⟨t, ht⟩ := threadStep_isSome hl.notifying hl.asleep hp
    exact Or.inr ⟨.thread, t, ht⟩

/-- Nothing wakes a thread that hangs. -/
theorem hanging_keeps (s : State) (mv : Move) (t : State) (hh : Hanging s) (h : moveOn s mv = some t) : Hanging t := by
  rcases moveOn_cases hh.notifying (Or.inl hh.closing) h with ⟨ht, hstep⟩ | ⟨-, hp, -⟩
  · refine ⟨ht.notifying.trans hh.notifying, ht.closing.trans hh.closing, ?_⟩
    rcases hh.place with hp | hp | ⟨hp, hw⟩
    · rw [State.threadStep, hp] at hstep
      cases hstep
      exact Or.inr (Or.inl rfl)
    · rw [State.threadStep, hp] at hstep
      cases hstep
    · rw [State.threadStep, hp] at hstep
      cases hstep
      exact Or.inl (if_neg hw)
  · rcases hh.place with hp' | hp' | ⟨hp', -⟩ <;> exact absurd (hp.symm.trans hp') (by simp)

/-- It goes to sleep. -/
theorem hanging_sleeps (hh : Hanging s) : ∃ moves t, Progress.Run moveOn s moves t ∧ Hanging t ∧ t.place = .asleep := by
  have hwindow : ∀ u : State, Hanging u → u.place = .window →
      moveOn u .thread = some { u with place := .asleep } ∧ Hanging { u with place := .asleep } := by
    intro u hu hp
    have hstep : moveOn u .thread = some { u with place := .asleep } := by
      show u.threadStep = _
      rw [State.threadStep, hp]
    exact ⟨hstep, hanging_keeps u _ _ hu hstep⟩
  rcases hh.place with hp | hp | ⟨hp, hw⟩
  · obtain ⟨hstep, hu⟩ := hwindow s hh hp
    exact ⟨[.thread], _, ⟨_, hstep, rfl⟩, hu, rfl⟩
  · exact ⟨[], s, rfl, hh, hp⟩
  · have hstep : moveOn s .thread = some { s with place := .window } := by
      show s.threadStep = _
      rw [State.threadStep, hp]
      simp only [hw, if_false]
    obtain ⟨hstep', hu⟩ := hwindow _ (hanging_keeps s _ _ hh hstep) rfl
    exact ⟨[.thread, .thread], _, ⟨_, hstep, _, hstep', rfl⟩, hu, rfl⟩

theorem hanging_stuck (hh : Hanging s) (hp : s.place = .asleep) (mv : Move) : moveOn s mv = none := by
  cases hm : moveOn s mv with
  | none => rfl
  | some t =>
    rcases moveOn_cases hh.notifying (Or.inl hh.closing) hm with ⟨-, hstep⟩ | ⟨-, hp', -⟩
    · rw [State.threadStep, hp] at hstep
      cases hstep
    · exact absurd (hp.symm.trans hp') (by simp)

end

/-- **The destructor returns exactly when its notification is not missed.** Whatever happened before, in whatever order: when
`notify_all` comes while the thread does not stand between the reads of its condition and its sleep, with nothing to flush,
the destructor is through after finitely many steps; when it comes in between, the destructor waits for ever, unless the
thread wakes up without being notified. -/
theorem close_returns_iff {db : DB} {moves : List Move} {s s' : State} (h : Progress.Run State.step { db := db } moves s)
    (hs : s.step .notifyAll = some s') :
    (Progress.Completes moveOn (fun t => t.closing = .closed) s' ↔
      ¬(s.place = .window ∨ s.place = .readQueue ∧ ¬s.hasWork)) ∧
    ((s.place = .window ∨ s.place = .readQueue ∧ ¬s.hasWork) →
      ∀ later t, Progress.Run moveOn s' later t → t.closing ≠ .closed) := by
  have hi : Inv s := h.keeps (fun _ _ _ hi hs => hi.step hs) (inv_start db)
  obtain ⟨hc, rfl⟩ := notifyAll_cases hs
  have hn : s.notifying = false := Bool.eq_false_iff.mpr fun hn => absurd (hc.symm.trans (hi hn).2) (by simp)
  have hhang : (s.place = .window ∨ s.place = .readQueue ∧ ¬s.hasWork) → Hanging { s.wake with closing := .joining } := by
    intro hm
    refine ⟨by simpa using hn, rfl, ?_⟩
    simpa [State.hasWork] using hm
  refine ⟨⟨fun hcomp hm => ?_, fun hm => ?_⟩, fun hm later t hr => ?_⟩
  · obtain ⟨later, t, hr, ht, hp⟩ := hanging_sleeps (hhang hm)
    exact Progress.not_completes hr (by simp [ht.closing]) (hanging_stuck ht hp) hcomp
  · rw [not_or, not_and, not_not] at hm
    refine ranked_leaving.completes leaving_moves ⟨by simpa using hn, Or.inl rfl, ?_, by simp, ?_⟩
    · simpa using hm.1
    · simpa [State.hasWork] using hm.2
  · have ht := hr.keeps hanging_keeps (hhang hm)
    simp [ht.closing]

/-- The destructor of an empty database, whose thread sleeps. -/
theorem close_returns_iff_sample : Progress.Completes moveOn (fun t => t.closing = .closed)
    { db := DB.fresh {}, place := .readShutdown, closing := .joining } := by
  have hrun : Progress.Run State.step { db := DB.fresh {} } [.thread, .thread, .thread, .thread, .store]
      { db := DB.fresh {}, place := .asleep, closing := .stored } :=
    ⟨_, rfl, _, rfl, _, rfl, _, rfl, _, rfl, rfl⟩
  exact (close_returns_iff hrun rfl).1.mpr (by simp)

end FlushThread

end SplitKV
