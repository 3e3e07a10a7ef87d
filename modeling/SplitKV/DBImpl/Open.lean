import SplitKV.DBImpl.Compact
import SplitKV.DBImpl.Gc

/-!
# Opening a database (`DBImpl::Open`, `DBImpl::LoadManifest`, `DBImpl::RecoverFromWAL`)
-/

namespace SplitKV

/-- What a process leaves behind: the files. -/
structure Disk where
  vlog : Folder Bytes
  wal : Folder Bytes
  sst : Folder (Option SSTableFile)
  manifest : Option Bytes

/-- An empty directory. -/
def Disk.empty : Disk := ⟨.empty [], .empty [], .empty none, none⟩

/-- What goes wrong while a database is opened: opening the value log, the flush behind WAL number `i`, creating the
new WAL. -/
structure OpenFaults where
  vlog : Bool := false
  flush : Nat → FlushFaults := fun _ => {}
  create : CreateFault := .none

/-- Nothing goes wrong. -/
def OpenFaults.none : OpenFaults := {}

namespace DB

/-- What is on disk. -/
def disk (db : DB) : Disk := ⟨db.vlog.files, db.wal.files, db.sst, db.manifest⟩

/-- The loop of `LoadManifest`: a table that does not exist or does not open is left out; `levels_[level]` outside the
levels is undefined. -/
def loadTables (sst : Folder (Option SSTableFile)) (maxLevels : Nat) : List ManifestLine → Levels → Except Status Levels
  | [], levels => .ok levels
  | l :: lines, levels =>
    match if sst.has l.fileId then sst.data l.fileId else none with
    | none => loadTables sst maxLevels lines levels
    | some file =>
      if 0 ≤ l.level ∧ l.level < maxLevels then
        let lvl := l.level.toNat
        let info : SSTableInfo :=
          ⟨{ fileId := l.fileId, level := lvl, smallestKey := l.smallestKey, largestKey := l.largestKey,
             numEntries := l.numEntries, fileSize := file.size }, .openFile file⟩
        loadTables sst maxLevels lines (setAt levels lvl (levels lvl ++ [info]))
      else .error (.Corruption "levels_[level] is undefined")

/-- `LoadManifest`: the next table id and the levels. -/
def loadManifest (d : Disk) (maxLevels : Nat) : Except Status (Nat × Levels) :=
  match d.manifest with
  | none => .ok (1, fun _ => [])
  | some content =>
    match loadTables d.sst maxLevels (parseManifest content).2 (fun _ => []) with
    | .error s => .error s
    | .ok levels => .ok ((parseManifest content).1, levels)

/-- The ids of the WAL files, as `RecoverFromWAL` lists them. -/
def walIds (wal : Folder Bytes) : List Nat :=
  (wal.dir.filterMap (fun id => walFileId (walFileName id))).insertionSort (· ≤ ·)

/-- A record is replayed into the memtable. -/
def replayRecord (m : MemTable) (r : WALRecord) : MemTable :=
  match r.type with
  | .value => m.put r.key r.vlogPtr r.sequence
  | .deletion => m.delete r.key r.sequence
  | .other _ => m

/-- The loop of `RecoverFromWAL` over the WAL files, from file number `i` on; `maxSeq` is kept in
`sequence_number`. -/
def replayWals (f : OpenFaults) : Nat → List Nat → DB → DB × Except Status Unit
  | _, [], db => (db, .ok ())
  | i, id :: ids, db =>
    match WAL.recover db.wal.files id with
    | .error s => (db, .error s)
    | .ok records =>
      let db := { db with
        memtable := records.foldl replayRecord db.memtable
        sequenceNumber := records.foldl (fun (n : Nat) (r : WALRecord) => max n r.sequence) db.sequenceNumber }
      if db.memtable.shouldFlush then
        match db.flushMemTable db.memtable (f.flush i) with
        | (db, .error s) => (db, .error s)
        | (db, .ok ()) => replayWals f (i + 1) ids { db with memtable := .new db.options.memtableSizeLimit }
      else replayWals f (i + 1) ids db

/-- `RecoverFromWAL`. -/
def recoverFromWAL (db : DB) (f : OpenFaults) : DB × Except Status Unit :=
  let ids := walIds db.wal.files
  match replayWals f 0 ids db with
  | (db, .error s) => (db, .error s)
  | (db, .ok ()) =>
    let walId := match ids.getLast? with
      | none => 1
      | some id => id + 1
    match db.wal.create walId f.create with
    | (wal, s) => ({ db with sequenceNumber := db.sequenceNumber + 1, walId := walId, wal := wal }, s)

/-- Behind a replay that succeeds, a WAL is created. -/
theorem recoverFromWAL_replayed {db db₁ : DB} {f : OpenFaults}
    (h : replayWals f 0 (walIds db.wal.files) db = (db₁, .ok ())) : ∃ walId,
      db.recoverFromWAL f = ({ db₁ with
        sequenceNumber := db₁.sequenceNumber + 1, walId := walId, wal := (db₁.wal.create walId f.create).1 },
        (db₁.wal.create walId f.create).2) := by
  rw [recoverFromWAL, h]
  exact ⟨_, rfl⟩

/-- The state `Open` builds before `RecoverFromWAL`: the constructor, the value log, the manifest. -/
def openState (o : Options) (d : Disk) (nextSstableId : Nat) (levels : Levels) : DB :=
  { options := o
    vlog := .openLog d.vlog
    wal := { files := d.wal }
    walId := 0
    sst := d.sst
    manifest := d.manifest
    memtable := .new o.memtableSizeLimit
    immutableMemtables := []
    levels := levels
    nextSstableId := nextSstableId
    sequenceNumber := 1 }

/-- `Open`: the state it reaches, and the status; on an error only the files remain. -/
def openDB (o : Options) (d : Disk) (f : OpenFaults) : DB × Except Status Unit :=
  if f.vlog then
    ({ openState o d 1 (fun _ => []) with vlog := { files := d.vlog } },
      .error (.IOError "Cannot open file for writing"))
  else
    match loadManifest d o.maxSstableLevels with
    | .error s => (openState o d 1 (fun _ => []), .error s)
    | .ok (nextSstableId, levels) => (openState o d nextSstableId levels).recoverFromWAL f

end DB

end SplitKV
