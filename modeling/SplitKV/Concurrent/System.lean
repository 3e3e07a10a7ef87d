import SplitKV.Faults.Run

/-!
# The threads of a database

Writers hold the memtable lock for a whole write. The background flush and the compactions take a lock for one critical
section at a time, and what they do between two sections touches nothing that another thread reads. A step of the
system is the next section of one thread (`Sys.step`), with the work of the thread behind it. Compactions run on any
number of threads; `DB.readAt` is a `Get` whose two searches and whose read of the value log see three states.
-/

namespace SplitKV

/-- Where `BackgroundFlush` stands: it waits; it has taken the front of the queue; the table id is allocated; the table
is registered; `FlushMemTable` has returned. -/
inductive Flusher
  | idle
  | taken (m : MemTable)
  | allocated (m : MemTable) (fileId : Nat)
  | registered (m : MemTable)
  | flushed (m : MemTable)

/-- Where `CompactLevel` stands behind the choice of `inputs_lvl`: the overlap is not known yet; the next key is not
chosen yet; the deeper levels were searched for the chosen key; the outputs are finished; they are installed; the
manifest is saved. -/
inductive Phase
  | selected
  | merging (inputsNext : List SSTableInfo) (st : MergeState)
  | checked (inputsNext : List SSTableInfo) (st : MergeState) (key : Key) (e : InternalEntry) (drop : Bool)
  | merged (inputsNext outputs : List SSTableInfo)
  | installed (inputsNext : List SSTableInfo)
  | saved (inputsNext : List SSTableInfo)

/-- A running `CompactLevel`. -/
structure Compaction where
  lvl : Nat
  inputsLvl : List SSTableInfo
  phase : Phase

namespace DB

/-- The next section of `BackgroundFlush`. -/
def flushStep (db : DB) : Flusher → DB × Flusher
  | .idle =>
    match db.immutableMemtables with
    | [] => (db, .idle)
    | m :: _ => (db, .taken m)
  | .taken m =>
    if m.count = 0 then (db, .flushed m)
    else ({ db with nextSstableId := db.nextSstableId + 1 }, .allocated m db.nextSstableId)
  | .allocated m fileId =>
    let db := { db with sst := db.sst.create fileId none }
    match writeTable db.options m.getSortedEntries {} with
    | .error _ => (db, .flushed m)
    | .ok (w, file) =>
      let db := { db with sst := db.sst.write fileId (some file) }
      (db.registerTable ⟨w.tableMeta fileId 0, .openFile file⟩, .registered m)
  | .registered m => ((db.saveManifest false).1, .flushed m)
  | .flushed _ => (db.popFront, .idle)

/-- The first section of `CompactLevel`. -/
def startCompact (db : DB) (lvl : Int) : Option Compaction :=
  if lvl < 0 ∨ (db.options.maxSstableLevels : Int) - 1 ≤ lvl then none
  else if db.levels lvl.toNat = [] then none
  else some ⟨lvl.toNat, db.levels lvl.toNat, .selected⟩

/-- The next section of a compaction; it is over when there is none. -/
def compactStep (db : DB) (c : Compaction) : DB × Option Compaction :=
  match c.phase with
  | .selected =>
    let inputsNext := db.inputsNext c.lvl c.inputsLvl
    match openIterators (fun _ _ => none) 0 (c.inputsLvl ++ inputsNext) with
    | .error _ => (db, none)
    | .ok iters => (db, some { c with phase := .merging inputsNext { iters := iters } })
  | .merging inputsNext st =>
    match st.pick with
    | some (key, e) =>
      (db, some { c with phase := .checked inputsNext st key e (db.dropEntry .none c.lvl key e) })
    | none =>
      match db.mergeEnd .none c.lvl st with
      | (db, .error _) => (db, none)
      | (db, .ok st) => (db, some { c with phase := .merged inputsNext st.outputs })
  | .checked inputsNext st key e drop =>
    match db.mergeRound .none c.lvl st key e drop with
    | (db, .error _) => (db, none)
    | (db, .ok st) => (db, some { c with phase := .merging inputsNext st })
  | .merged inputsNext outputs =>
    ({ db with levels := db.levels.install c.lvl c.inputsLvl inputsNext outputs },
      some { c with phase := .installed inputsNext })
  | .installed inputsNext => ((db.saveManifest false).1, some { c with phase := .saved inputsNext })
  | .saved inputsNext => (db.deleteInputs .none (c.inputsLvl ++ inputsNext), none)

/-- `Get` when the memtables are searched in one state, the tables in a later one, and the value is read in a third
one. -/
def readAt (memtables tables vlog : DB) (key : Key) : Except Status Bytes :=
  resolve vlog.vlog ((memtables.findInMemtables key).or (tables.findInTables noFails key))

/-- A `Get` that nothing interrupts. -/
theorem readAt_self (db : DB) (key : Key) : db.readAt db db key = db.get key := rfl

end DB

/-- The database with its threads; compactions are known by a number. -/
structure Sys where
  db : DB
  flusher : Flusher := .idle
  compactions : Nat → Option Compaction := fun _ => none

/-- The next section of a thread; `startCompact t lvl` is the first one of a new compaction `t`. -/
inductive Act
  | write (sync : Bool) (batch : WriteBatch)
  | flush
  | startCompact (t : Nat) (lvl : Int)
  | compact (t : Nat)

namespace Sys

/-- A step of the system. -/
def step (s : Sys) : Act → Sys
  | .write sync batch => { s with db := (s.db.write sync batch {}).1 }
  | .flush =>
    match s.db.flushStep s.flusher with
    | (db, flusher) => { s with db := db, flusher := flusher }
  | .startCompact t lvl =>
    match s.compactions t with
    | some _ => s
    | none => { s with compactions := setAt s.compactions t (s.db.startCompact lvl) }
  | .compact t =>
    match s.compactions t with
    | none => s
    | some c =>
      match s.db.compactStep c with
      | (db, c) => { s with db := db, compactions := setAt s.compactions t c }

section

variable {s : Sys} {t : Nat}

theorem step_startCompact {lvl : Int} (h : s.compactions t = none) :
    s.step (.startCompact t lvl) = { s with compactions := setAt s.compactions t (s.db.startCompact lvl) } := by
  simp only [step, h]

theorem step_startCompact_running {lvl : Int} {c : Compaction} (h : s.compactions t = some c) :
    s.step (.startCompact t lvl) = s := by simp only [step, h]

theorem step_compact {c : Compaction} (h : s.compactions t = some c) : s.step (.compact t) =
    { s with db := (s.db.compactStep c).1, compactions := setAt s.compactions t (s.db.compactStep c).2 } := by
  simp only [step, h]

theorem step_compact_none (h : s.compactions t = none) : s.step (.compact t) = s := by simp only [step, h]

end

/-- A run of the system. -/
def run (s : Sys) (acts : List Act) : Sys := acts.foldl step s

@[simp] theorem run_nil (s : Sys) : s.run [] = s := rfl

@[simp] theorem run_cons (s : Sys) (a : Act) (acts : List Act) : s.run (a :: acts) = (s.step a).run acts := rfl

theorem run_append (s : Sys) (acts acts' : List Act) : s.run (acts ++ acts') = (s.run acts).run acts' :=
  List.foldl_append

end Sys

end SplitKV
