import SplitKV.DBImpl.Write
import SplitKV.Manifest

/-!
# Flushing a memtable (`DBImpl::FlushMemTable`, `DBImpl::SaveManifest`)
-/

namespace SplitKV

/-- What goes wrong in a flush: opening the table file, the append of entry number `i`, the appends and the sync of
`Finish`, opening the reader, writing or renaming the manifest. -/
structure FlushFaults where
  openFile : Bool := false
  add : Nat → Bool := fun _ => false
  finish : Bool := false
  reader : Bool := false
  manifest : Bool := false

/-- The loop that adds entries to a table, from entry number `i` on. -/
def SSTableWriter.addAll (fault : Nat → Bool) : Nat → List (Key × InternalEntry) → SSTableWriter →
    Except Status SSTableWriter
  | _, [], w => .ok w
  | i, p :: l, w =>
    if fault i then .error (.IOError "fwrite")
    else
      match w.add p.1 p.2 with
      | .error s => .error s
      | .ok w => addAll fault (i + 1) l w

namespace DB

/-- The lines of the manifest. -/
def manifestLines (levels : Levels) (maxLevels : Nat) : List ManifestLine :=
  (List.range maxLevels).flatMap (fun lvl => (levels lvl).map (fun info =>
    ⟨info.tableMeta.fileId, info.tableMeta.level, info.tableMeta.numEntries, info.tableMeta.smallestKey,
      info.tableMeta.largestKey⟩))

/-- `SaveManifest`: the new manifest replaces the old one with the rename, its last step. -/
def saveManifest (db : DB) (fault : Bool) : DB × Except Status Unit :=
  if fault then (db, .error (.IOError "rename"))
  else ({ db with
    manifest := some (encodeManifest db.nextSstableId (manifestLines db.levels db.options.maxSstableLevels)) }, .ok ())

/-- The table file of `FlushMemTable`: the entries are added, and the table is finished. -/
def writeTable (o : Options) (l : List (Key × InternalEntry)) (f : FlushFaults) :
    Except Status (SSTableWriter × SSTableFile) :=
  match SSTableWriter.addAll f.add 0 l (.new o) with
  | .error s => .error s
  | .ok w => if f.finish then .error (.IOError "fwrite") else w.finish

/-- `FlushMemTable`. -/
def flushMemTable (db : DB) (m : MemTable) (f : FlushFaults) : DB × Except Status Unit :=
  if m.count = 0 then (db, .ok ())
  else
    let fileId := db.nextSstableId
    let db := { db with nextSstableId := fileId + 1 }
    if f.openFile then (db, .error (.IOError "Cannot open file for writing"))
    else
      let db := { db with sst := db.sst.create fileId none }
      match writeTable db.options m.getSortedEntries f with
      | .error s => (db, .error s)
      | .ok (w, file) =>
        let db := { db with sst := db.sst.write fileId (some file) }
        if f.reader then (db, .error (.IOError "Cannot open file for reading"))
        else
          let info : SSTableInfo := ⟨w.tableMeta fileId 0, .openFile file⟩
          { db with levels := setAt db.levels 0 (db.levels 0 ++ [info]) }.saveManifest f.manifest

/-- `immutable_memtables_.pop_front()`. -/
def popFront (db : DB) : DB := { db with immutableMemtables := db.immutableMemtables.tail }

/-- The flush of the oldest immutable memtable, and the pop; the status of `FlushMemTable` is ignored. -/
def flushFront (db : DB) (f : FlushFaults) : DB :=
  match db.immutableMemtables with
  | [] => db
  | m :: _ => (db.flushMemTable m f).1.popFront

end DB

end SplitKV
