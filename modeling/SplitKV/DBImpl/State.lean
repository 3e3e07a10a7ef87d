import SplitKV.MemTable
import SplitKV.SSTable
import SplitKV.Wal

/-!
# The state of the database and its lookups (`db_impl.h`, `DBImpl::Get`)

A lookup goes through the memtables, newest first, then through level 0 from its last table to its first, then through
the deeper levels. `fails id` is the status with which a lookup in the table file `id` fails, if it does.
-/

namespace SplitKV

/-- `SSTableInfo`. -/
structure SSTableInfo where
  tableMeta : SSTableMeta
  reader : SSTableReader
  deriving DecidableEq

namespace SSTableInfo

/-- `key >= smallest_key && key <= largest_key`. -/
def covers (info : SSTableInfo) (key : Key) : Bool :=
  decide (info.tableMeta.smallestKey ≤ key) && decide (key ≤ info.tableMeta.largestKey)

/-- `reader->Get`, unless it fails. -/
def lookupTable (fails : Nat → Option Status) (info : SSTableInfo) (key : Key) : Except Status InternalEntry :=
  match fails info.tableMeta.fileId with
  | some s => .error s
  | none => info.reader.get key

end SSTableInfo

/-- No lookup fails. -/
def noFails : Nat → Option Status := fun _ => none

/-- The levels of tables; `levels l` is empty from `max_sstable_levels` on. -/
abbrev Levels := Nat → List SSTableInfo

namespace Levels

/-- The search of level 0: every table, the last one first. -/
def find0 (fails : Nat → Option Status) (tables : List SSTableInfo) (key : Key) : Option InternalEntry :=
  tables.reverse.findSome? (fun info => (info.lookupTable fails key).toOption)

/-- The search of a deeper level: the tables whose range covers the key. -/
def findDeep (fails : Nat → Option Status) (tables : List SSTableInfo) (key : Key) : Option InternalEntry :=
  tables.findSome? (fun info => if info.covers key then (info.lookupTable fails key).toOption else none)

/-- The search of all levels. -/
def find (fails : Nat → Option Status) (levels : Levels) (maxLevels : Nat) (key : Key) : Option InternalEntry :=
  (find0 fails (levels 0) key).or
    (((List.range maxLevels).drop 1).findSome? (fun lvl => findDeep fails (levels lvl) key))

end Levels

/-- `DBImpl`, with the files it works on. The queue of immutable memtables has its front first. -/
structure DB where
  options : Options
  vlog : VLog
  wal : WAL
  walId : Nat
  sst : Folder (Option SSTableFile)
  manifest : Option Bytes
  memtable : MemTable
  immutableMemtables : List MemTable
  levels : Levels
  nextSstableId : Nat
  sequenceNumber : Nat

namespace DB

/-- The search of the memtables: the active one, then the immutable ones, the newest first. -/
def findInMemtables (db : DB) (key : Key) : Option InternalEntry :=
  (db.memtable.get key).toOption.or (db.immutableMemtables.reverse.findSome? (fun m => (m.get key).toOption))

/-- The search of the tables. -/
def findInTables (db : DB) (fails : Nat → Option Status) (key : Key) : Option InternalEntry :=
  db.levels.find fails db.options.maxSstableLevels key

/-- The entry `Get` and `RunGC` find for a key. -/
def findLatest (db : DB) (fails : Nat → Option Status) (key : Key) : Option InternalEntry :=
  (db.findInMemtables key).or (db.findInTables fails key)

/-- What `Get` returns for the entry it found. -/
def resolve (vlog : VLog) (found : Option InternalEntry) : Except Status Bytes :=
  match found with
  | none => .error (.NotFound "Key not found")
  | some ie =>
    if ie.type = .deletion then .error (.NotFound "Key deleted")
    else
      match vlog.read ie.vlogPtr with
      | .ok r => .ok r.2
      | .error s => .error s

/-- `Get` when some table lookups fail. -/
def getWith (db : DB) (fails : Nat → Option Status) (key : Key) : Except Status Bytes :=
  resolve db.vlog (db.findLatest fails key)

/-- `Get`. -/
def get (db : DB) (key : Key) : Except Status Bytes := db.getWith noFails key

end DB

end SplitKV
