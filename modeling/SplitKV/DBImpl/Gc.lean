import SplitKV.DBImpl.Write
import Mathlib.Data.List.Sort

/-!
# Garbage collection of the value log (`DBImpl::RunGC`)

The choice of the segment, the check of one scanned record, the read and the append of a live record, its swap, and
the removal of the segment are functions of their own.
-/

namespace SplitKV

/-- What goes wrong in a garbage collection: the lookups for scanned record number `i`, and, for live record number
`i`, its read, its append, the lookups and the WAL record of its swap; the removal of the file. -/
structure GcFaults where
  scan : Nat → Nat → Option Status := fun _ _ => none
  read : Nat → Bool := fun _ => false
  append : Nat → AppendFault := fun _ => .none
  cas : Nat → Nat → Option Status := fun _ _ => none
  wal : Nat → Option Nat := fun _ => none
  vlogSync : Bool := false
  walSync : Bool := false
  remove : Bool := false

/-- Nothing goes wrong. -/
def GcFaults.none : GcFaults := {}

/-- `LiveRecord`. -/
structure LiveRecord where
  key : Key
  offset : Nat
  valSize : Nat
  deriving DecidableEq

/-- What the scan adds up. -/
structure GcScan where
  totalBytes : Nat := 0
  liveBytes : Nat := 0
  liveRecords : List LiveRecord := []

/-- `rec_size`, a `uint32_t`. -/
def ScanRecord.recSize (r : ScanRecord) : Nat := (4 + 1 + 4 + r.key.length + 4 + r.value.length) % 2 ^ 32

namespace DB

/-- The ids of the value-log files, as `RunGC` lists them. -/
def vlogIds (db : DB) : List Nat :=
  (db.vlog.files.dir.filterMap (fun id => gcFileId (vlogFileName id))).insertionSort (· ≤ ·)

/-- The oldest completed file. -/
def gcChoose (db : DB) : Option Nat := db.vlogIds.find? (fun id => decide (id < db.vlog.currentFileId))

/-- The latest entry of the key points at the record. -/
def pointsTo (db : DB) (fails : Nat → Option Status) (gcFileId : Nat) (key : Key) (offset : Nat) : Bool :=
  match db.findLatest fails key with
  | some ie => decide (ie.type = .value ∧ ie.vlogPtr.fileId = gcFileId ∧ ie.vlogPtr.offset = offset)
  | none => false

/-- The callback of the scan. -/
def gcCallback (db : DB) (fails : Nat → Option Status) (gcFileId : Nat) (acc : GcScan) (r : ScanRecord) : GcScan :=
  let acc := { acc with totalBytes := acc.totalBytes + r.recSize }
  if r.type = .value ∧ db.pointsTo fails gcFileId r.key r.offset = true then
    { acc with
      liveBytes := acc.liveBytes + r.recSize
      liveRecords := acc.liveRecords ++ [⟨r.key, r.offset, r.value.length % 2 ^ 32⟩] }
  else acc

/-- The scan, from record number `i` on. -/
def gcScan (db : DB) (f : GcFaults) (gcFileId : Nat) : Nat → List ScanRecord → GcScan → GcScan
  | _, [], acc => acc
  | i, r :: rs, acc => gcScan db f gcFileId (i + 1) rs (db.gcCallback (f.scan i) gcFileId acc r)

/-- The read of a live record, with its effect on the reader cache. -/
def gcRead (db : DB) (fault : Bool) (gcFileId : Nat) (r : LiveRecord) : DB × Except Status Bytes :=
  let ptr : VLogPointer := ⟨gcFileId, r.offset, r.valSize⟩
  ({ db with vlog := db.vlog.openReader gcFileId },
    if fault then .error (.IOError "fread")
    else match db.vlog.read ptr with
      | .ok kv => .ok kv.2
      | .error s => .error s)

/-- The append of a live record. -/
def gcAppend (db : DB) (fault : AppendFault) (r : LiveRecord) (value : Bytes) : DB × Except Status VLogPointer :=
  match db.vlog.append db.options r.key value .value fault with
  | (vlog, s) => ({ db with vlog := vlog }, s)

/-- The swap: the entry moves to the new pointer when the latest entry still points at the record. -/
def gcSwap (db : DB) (fails : Nat → Option Status) (fw : Option Nat) (gcFileId : Nat) (r : LiveRecord)
    (newPtr : VLogPointer) : DB :=
  if db.pointsTo fails gcFileId r.key r.offset then
    let seq := db.sequenceNumber
    let db := { db with sequenceNumber := seq + 1 }
    match db.wal.addRecord ⟨.value, seq, r.key, newPtr⟩ fw with
    | (wal, .error _) => { db with wal := wal }
    | (wal, .ok ()) => { db with wal := wal, memtable := db.memtable.put r.key newPtr seq }
  else db

/-- The rewriting of the live records, from number `i` on. -/
def gcRewrite (f : GcFaults) (gcFileId : Nat) : Nat → List LiveRecord → DB → DB × Except Status Unit
  | _, [], db => (db, .ok ())
  | i, r :: rs, db =>
    match db.gcRead (f.read i) gcFileId r with
    | (db, .error _) => gcRewrite f gcFileId (i + 1) rs db
    | (db, .ok value) =>
      match db.gcAppend (f.append i) r value with
      | (db, .error s) => (db, .error s)
      | (db, .ok newPtr) => gcRewrite f gcFileId (i + 1) rs (db.gcSwap (f.cas i) (f.wal i) gcFileId r newPtr)

/-- `vlog_->Sync(); wal_->Sync();` -/
def gcSync (db : DB) (f : GcFaults) : DB :=
  { db with
    vlog := if f.vlogSync then db.vlog else db.vlog.sync
    wal := if f.walSync then db.wal else db.wal.sync }

/-- `RemoveReader`. -/
def gcRemoveReader (db : DB) (gcFileId : Nat) : DB := { db with vlog := db.vlog.removeReader gcFileId }

/-- `DeleteFile`; its status is ignored. -/
def gcDelete (db : DB) (fault : Bool) (gcFileId : Nat) : DB :=
  if fault then db else { db with vlog := { db.vlog with files := db.vlog.files.remove gcFileId } }

/-- The segment is rewritten: the scan found records, and enough garbage among them. -/
def gcDecide (db : DB) (acc : GcScan) : Bool :=
  decide (acc.totalBytes ≠ 0) && db.options.gcTest acc.liveBytes acc.totalBytes

/-- `RunGC` on its segment. -/
def gcSegment (db : DB) (f : GcFaults) (gcFileId : Nat) : DB × Except Status Unit :=
  match db.vlog.newReader gcFileId 0 with
  | .error s => (db, .error s)
  | .ok records =>
    let acc := db.gcScan f gcFileId 0 records {}
    if db.gcDecide acc then
      match gcRewrite f gcFileId 0 acc.liveRecords db with
      | (db, .error s) => (db, .error s)
      | (db, .ok ()) => (((db.gcSync f).gcRemoveReader gcFileId).gcDelete f.remove gcFileId, .ok ())
    else (db, .ok ())

/-- `RunGC`. -/
def runGC (db : DB) (f : GcFaults) : DB × Except Status Unit :=
  match db.gcChoose with
  | none => (db, .ok ())
  | some id => db.gcSegment f id

end DB

end SplitKV
