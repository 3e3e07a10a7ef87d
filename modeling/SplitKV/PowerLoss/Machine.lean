import SplitKV.Faults.Run
import SplitKV.Recovery.Log

/-!
# Power losses

When the power fails, every file keeps a prefix of what was written to it, at least as long as what was synced, and each
file its own; the directory is kept, and so are table files and manifests, which are synced before they are used. A
machine is on, with an open database, or off, with the files that are left (`Machine`); the power may fail while an
operation is on its way, or while the database is opened.
-/

namespace SplitKV

namespace Folder

/-- What a power loss leaves: of every file the first `kept` bytes, or what was synced when that is more. -/
def lose (f : Folder Bytes) (kept : Nat → Nat) : Folder Bytes :=
  { f with
    data := fun id => (f.data id).take (max (f.synced id) (kept id))
    synced := fun id => ((f.data id).take (max (f.synced id) (kept id))).length }

theorem data_lose (f : Folder Bytes) (kept : Nat → Nat) (id : Nat) : (f.lose kept).data id <+: f.data id :=
  List.take_prefix _ _

end Folder

/-- How much of every file a power loss leaves at least. -/
structure Loss where
  vlog : Nat → Nat
  wal : Nat → Nat

/-- What a power loss leaves of the files. -/
def Disk.lose (d : Disk) (loss : Loss) : Disk := { d with vlog := d.vlog.lose loss.vlog, wal := d.wal.lose loss.wal }

/-- What is going on when the power fails: nothing, or an operation that gets as far as its faults let it. -/
inductive Doing
  | nothing
  | write (sync : Bool) (batch : WriteBatch) (f : WriteFaults)
  | flush (f : FlushFaults)
  | compactLevel (lvl : Int) (f : CompactFaults)

/-- The state in which an operation is interrupted. -/
def DB.interrupt (db : DB) : Doing → DB
  | .nothing => db
  | .write sync batch f => (db.write sync batch f).1
  | .flush f => db.flushFront f
  | .compactLevel lvl f => (db.compactLevel lvl f).1

/-- A machine is off, or it runs a database. -/
inductive Machine
  | off (d : Disk)
  | on (db : DB)

/-- A step of a machine: an operation that is completed, the loss of power during an operation or during an opening, and
an opening, with any options. -/
inductive Step
  | write (sync : Bool) (batch : WriteBatch)
  | flush
  | compactLevel (lvl : Int)
  | losePower (during : Doing) (loss : Loss)
  | losePowerOpening (o : Options) (f : OpenFaults) (loss : Loss)
  | reopen (o : Options)

namespace Step

/-- The entries a step writes, or tries to write. -/
def entries : Step → WriteBatch
  | write _ batch => batch
  | losePower (.write _ batch _) _ => batch
  | _ => []

end Step

namespace Machine

/-- A machine with an empty directory. -/
def start : Machine := .off .empty

/-- One step. An opening that fails leaves the files. -/
def step : Machine → Step → Machine
  | .on db, .write sync batch => .on (db.write sync batch {}).1
  | .on db, .flush => .on (db.flushFront {})
  | .on db, .compactLevel lvl => .on (db.compactLevel lvl .none).1
  | .on db, .losePower during loss => .off ((db.interrupt during).disk.lose loss)
  | .off d, .losePower _ loss => .off (d.lose loss)
  | .off d, .losePowerOpening o f loss => .off ((DB.openDB o d f).1.disk.lose loss)
  | .off d, .reopen o =>
    match DB.openDB o d .none with
    | (db, .ok ()) => .on db
    | (db, .error _) => .off db.disk
  | m, _ => m

/-- A run. -/
def run (m : Machine) (steps : List Step) : Machine := steps.foldl step m

theorem run_cons (m : Machine) (s : Step) (steps : List Step) : m.run (s :: steps) = (m.step s).run steps := rfl

theorem run_append (m : Machine) (steps later : List Step) : m.run (steps ++ later) = (m.run steps).run later :=
  List.foldl_append

/-- The machine is off, and an opening of its files `d` succeeds and leads to `db`. -/
def Opens (m : Machine) (o : Options) (d : Disk) (db : DB) : Prop := m = .off d ∧ DB.openDB o d .none = (db, .ok ())

theorem opens_of_ok {m : Machine} {o : Options} {d : Disk} (hm : m = .off d) (h : (DB.openDB o d .none).2 = .ok ()) :
    m.Opens o d (DB.openDB o d .none).1 := ⟨hm, Prod.ext rfl h⟩

theorem Opens.step {m : Machine} {o : Options} {d : Disk} {db : DB} (h : m.Opens o d db) : m.step (.reopen o) = .on db := by
  obtain ⟨rfl, he⟩ := h
  rw [Machine.step, he]

/-- Every step of a run meets the condition, in the state it is taken from. -/
def Along (Q : Machine → Step → Prop) : Machine → List Step → Prop
  | _, [] => True
  | m, s :: steps => Q m s ∧ Along Q (m.step s) steps

/-- **An invariant of machines** that every step keeps under its condition holds at the end of every run that meets the
conditions. -/
theorem Along.inv {Q : Machine → Step → Prop} {I : List Step → Machine → Prop}
    (h : ∀ past m s, I past m → Q m s → I (past ++ [s]) (m.step s)) : ∀ (steps past : List Step) (m : Machine),
      I past m → Along Q m steps → I (past ++ steps) (m.run steps)
  | [], past, m, hi, _ => by
    rw [List.append_nil]
    exact hi
  | s :: steps, past, m, hi, ⟨hq, hrest⟩ => by
    have hstep := Along.inv h steps (past ++ [s]) (m.step s) (h past m s hi hq) hrest
    rw [List.append_assoc, List.singleton_append] at hstep
    exact hstep

/-- A run meets what each of its steps meets. -/
theorem Along.and {Q R : Machine → Step → Prop} : ∀ {steps : List Step} {m : Machine}, Along Q m steps → Along R m steps →
    Along (fun m s => Q m s ∧ R m s) m steps
  | [], _, _, _ => trivial
  | _ :: _, _, ⟨hq, hqs⟩, ⟨hr, hrs⟩ => ⟨⟨hq, hr⟩, hqs.and hrs⟩

/-- An opening succeeds or leaves the machine off. -/
theorem step_reopen {d : Disk} {o : Options} :
    (∃ db, DB.openDB o d .none = (db, .ok ()) ∧ (Machine.off d).step (.reopen o) = .on db) ∨
      ∃ db s, DB.openDB o d .none = (db, .error s) ∧ (Machine.off d).step (.reopen o) = .off db.disk := by
  cases he : DB.openDB o d .none with
  | mk db r =>
    cases r with
    | ok u => exact Or.inl ⟨db, rfl, by rw [step, he]⟩
    | error s => exact Or.inr ⟨db, s, rfl, by rw [step, he]⟩

end Machine

end SplitKV
