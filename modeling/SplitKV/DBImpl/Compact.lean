import Mathlib.Data.List.Sort
import SplitKV.DBImpl.Flush
import SplitKV.Lib.KMerge

/-!
# Compaction (`DBImpl::CompactLevel`, `DBImpl::CompactRange`)

The critical sections of a compaction are functions of their own: the snapshot of the inputs, the search for
overlapping tables, the check of the deeper levels, the allocation of a table id, and the installation of the outputs.
-/

namespace SplitKV

/-- What goes wrong in a compaction: read number `n` of input iterator `i`, the lookup of a key in a deeper table, the
opening of output number `i`, the append of a key, the end of output number `i` and its reopening, the manifest, and
the removal of an input file. -/
structure CompactFaults where
  read : Nat → Nat → Option Status := fun _ _ => none
  deeper : Key → Nat → Option Status := fun _ _ => none
  openFile : Nat → Bool := fun _ => false
  add : Key → Bool := fun _ => false
  finish : Nat → Bool := fun _ => false
  reader : Nat → Bool := fun _ => false
  manifest : Bool := false
  remove : Nat → Bool := fun _ => false

/-- Nothing goes wrong. -/
def CompactFaults.none : CompactFaults := {}

namespace Levels

/-- The smallest and the largest key of some tables. -/
def keyRange : List SSTableInfo → Key × Key
  | [] => ([], [])
  | info :: infos =>
    infos.foldl (fun r i =>
      (if i.tableMeta.smallestKey < r.1 then i.tableMeta.smallestKey else r.1,
        if r.2 < i.tableMeta.largestKey then i.tableMeta.largestKey else r.2))
      (info.tableMeta.smallestKey, info.tableMeta.largestKey)

/-- The tables that overlap a key range. -/
def overlapping (tables : List SSTableInfo) (range : Key × Key) : List SSTableInfo :=
  tables.filter (fun info => decide (info.tableMeta.smallestKey ≤ range.2) && decide (range.1 ≤ info.tableMeta.largestKey))

/-- Some table of the levels from `lvl + 2` on has an entry for the key. -/
def existsDeeper (levels : Levels) (maxLevels : Nat) (fails : Nat → Option Status) (lvl : Nat) (key : Key) : Bool :=
  ((List.range maxLevels).drop (lvl + 2)).any (fun d =>
    (levels d).any (fun info => info.covers key && (info.lookupTable fails key).toOption.isSome))

/-- `find_if` by file id, and `erase`. -/
def eraseInput (tables : List SSTableInfo) (input : SSTableInfo) : List SSTableInfo :=
  tables.eraseP (fun info => info.tableMeta.fileId == input.tableMeta.fileId)

/-- `std::sort` by the smallest key. -/
def sortBySmallest (tables : List SSTableInfo) : List SSTableInfo :=
  tables.insertionSort (fun a b => a.tableMeta.smallestKey ≤ b.tableMeta.smallestKey)

/-- The inputs leave their levels, and the outputs enter the next level. -/
def install (levels : Levels) (lvl : Nat) (inputsLvl inputsNext outputs : List SSTableInfo) : Levels :=
  let levels := setAt levels lvl (inputsLvl.foldl eraseInput (levels lvl))
  setAt levels (lvl + 1) (sortBySmallest (inputsNext.foldl eraseInput (levels (lvl + 1)) ++ outputs))

end Levels

/-- The iterators of the inputs from number `i` on; an input that is empty at its start is left out. -/
def openIterators (read : Nat → Nat → Option Status) : Nat → List SSTableInfo → Except Status (List Iterator)
  | _, [] => .ok []
  | i, info :: infos =>
    match Iterator.seekToFirst { reader := info.reader, fault := read i } with
    | (it, .ok ()) =>
      match openIterators read (i + 1) infos with
      | .ok its => .ok (it :: its)
      | .error s => .error s
    | (_, .error s) => if s.isNotFound then openIterators read (i + 1) infos else .error s

/-- The variables of the merge loop: the iterators, the current writer with its table id, and the new tables. -/
structure MergeState where
  iters : List Iterator
  writer : Option (Nat × SSTableWriter) := none
  outputs : List SSTableInfo := []

namespace MergeState

/-- The least key the iterators stand on, and its newest entry. -/
def pick (st : MergeState) : Option (Key × InternalEntry) :=
  match KMerge.minKey Iterator.head st.iters with
  | none => none
  | some k =>
    match KMerge.winner Iterator.head InternalEntry.sequence k st.iters with
    | none => none
    | some e => some (k, e)

/-- Every iterator that stands on the key moves on. -/
def advance (st : MergeState) (key : Key) : MergeState :=
  { st with iters := KMerge.advance Iterator.head Iterator.next key st.iters }

/-- The rounds the merge loop can take: every round moves an iterator. -/
def rounds (infos : List SSTableInfo) : Nat := (infos.map (fun info => info.reader.entries.length)).sum + 1

end MergeState

namespace DB

/-- `drop`: a tombstone without an older version below. -/
def dropEntry (db : DB) (f : CompactFaults) (lvl : Nat) (key : Key) (e : InternalEntry) : Bool :=
  decide (e.type = .deletion) && !db.levels.existsDeeper db.options.maxSstableLevels (f.deeper key) lvl key

/-- The end of an output table: `Finish`, its metadata, and its reader. -/
def finishOutput (db : DB) (f : CompactFaults) (lvl : Nat) (st : MergeState) (fileId : Nat) (w : SSTableWriter) :
    DB × Except Status MergeState :=
  if f.finish st.outputs.length then (db, .error (.IOError "fwrite"))
  else
    match w.finish with
    | .error s => (db, .error s)
    | .ok (w, file) =>
      let db := { db with sst := db.sst.write fileId (some file) }
      if f.reader st.outputs.length then (db, .error (.IOError "Cannot open file for reading"))
      else
        (db, .ok { st with
          writer := none, outputs := st.outputs ++ [⟨w.tableMeta fileId (lvl + 1), .openFile file⟩] })

/-- The current writer; without one, a table id is allocated and the file is opened. -/
def currentWriter (db : DB) (f : CompactFaults) (st : MergeState) : DB × Except Status (Nat × SSTableWriter) :=
  match st.writer with
  | some w => (db, .ok w)
  | none =>
    let fileId := db.nextSstableId
    let db := { db with nextSstableId := fileId + 1 }
    if f.openFile st.outputs.length then (db, .error (.IOError "Cannot open file for writing"))
    else ({ db with sst := db.sst.create fileId none }, .ok (fileId, .new db.options))

/-- The entry goes to the output; a table that reached the size limit is finished. -/
def putEntry (db : DB) (f : CompactFaults) (lvl : Nat) (st : MergeState) (key : Key) (e : InternalEntry) :
    DB × Except Status MergeState :=
  match db.currentWriter f st with
  | (db, .error s) => (db, .error s)
  | (db, .ok (fileId, w)) =>
    if f.add key then (db, .error (.IOError "fwrite"))
    else
      match w.add key e with
      | .error s => (db, .error s)
      | .ok w =>
        if db.options.memtableSizeLimit ≤ w.offset then db.finishOutput f lvl st fileId w
        else (db, .ok { st with writer := some (fileId, w) })

/-- A round of the merge loop on the key and the entry it picked. -/
def mergeRound (db : DB) (f : CompactFaults) (lvl : Nat) (st : MergeState) (key : Key) (e : InternalEntry) (drop : Bool) :
    DB × Except Status MergeState :=
  if drop then (db, .ok (st.advance key))
  else
    match db.putEntry f lvl st key e with
    | (db, .error s) => (db, .error s)
    | (db, .ok st) => (db, .ok (st.advance key))

/-- The end of the merge: the last table is finished. -/
def mergeEnd (db : DB) (f : CompactFaults) (lvl : Nat) (st : MergeState) : DB × Except Status MergeState :=
  match st.writer with
  | none => (db, .ok st)
  | some (fileId, w) => db.finishOutput f lvl st fileId w

/-- The merge loop. -/
def mergeLoop (f : CompactFaults) (lvl : Nat) : Nat → DB → MergeState → DB × Except Status MergeState
  | 0, db, st => (db, .ok st)
  | n + 1, db, st =>
    match st.pick with
    | none => db.mergeEnd f lvl st
    | some (key, e) =>
      match db.mergeRound f lvl st key e (db.dropEntry f lvl key e) with
      | (db, .error s) => (db, .error s)
      | (db, .ok st) => mergeLoop f lvl n db st

/-- The inputs of the next level. -/
def inputsNext (db : DB) (lvl : Nat) (inputsLvl : List SSTableInfo) : List SSTableInfo :=
  Levels.overlapping (db.levels (lvl + 1)) (Levels.keyRange inputsLvl)

/-- The input files are deleted; the status of `DeleteFile` is ignored. -/
def deleteInputs (db : DB) (f : CompactFaults) (inputs : List SSTableInfo) : DB :=
  { db with sst := inputs.foldl (fun sst info =>
      if f.remove info.tableMeta.fileId then sst else sst.remove info.tableMeta.fileId) db.sst }

/-- `CompactLevel` behind the check of the level. -/
def compactTables (db : DB) (lvl : Nat) (f : CompactFaults) : DB × Except Status Unit :=
  let inputsLvl := db.levels lvl
  if inputsLvl = [] then (db, .ok ())
  else
    let inputsNext := db.inputsNext lvl inputsLvl
    match openIterators f.read 0 (inputsLvl ++ inputsNext) with
    | .error s => (db, .error s)
    | .ok iters =>
      match mergeLoop f lvl (MergeState.rounds (inputsLvl ++ inputsNext)) db { iters := iters } with
      | (db, .error s) => (db, .error s)
      | (db, .ok st) =>
        match { db with levels := db.levels.install lvl inputsLvl inputsNext st.outputs }.saveManifest f.manifest with
        | (db, .error s) => (db, .error s)
        | (db, .ok ()) => (db.deleteInputs f (inputsLvl ++ inputsNext), .ok ())

/-- `CompactLevel`. -/
def compactLevel (db : DB) (lvl : Int) (f : CompactFaults) : DB × Except Status Unit :=
  if lvl < 0 ∨ (db.options.maxSstableLevels : Int) - 1 ≤ lvl then
    (db, .error (.InvalidArgument "Invalid level for compaction"))
  else db.compactTables lvl.toNat f

/-- The loop of `CompactRange` over the levels `lvls`. -/
def compactLevels (f : Nat → CompactFaults) : List Nat → DB → DB × Except Status Unit
  | [], db => (db, .ok ())
  | lvl :: lvls, db =>
    if db.levels lvl = [] then compactLevels f lvls db
    else
      match db.compactLevel lvl (f lvl) with
      | (db, .error s) => (db, .error s)
      | (db, .ok ()) => compactLevels f lvls db

/-- `CompactRange`. -/
def compactRange (db : DB) (f : Nat → CompactFaults) : DB × Except Status Unit :=
  compactLevels f (List.range (db.options.maxSstableLevels - 1)) db

/-- The automatic compaction of `BackgroundFlush` wants to compact the level. -/
def needsCompaction (db : DB) (lvl : Nat) : Bool :=
  if lvl = 0 then decide (4 ≤ (db.levels 0).length)
  else decide (10 * 1024 * 1024 * 10 ^ (lvl - 1) % 2 ^ 64 < ((db.levels lvl).map (fun info => info.tableMeta.fileSize)).sum)

/-- The loop of `BackgroundFlush` over the levels; the status of `CompactLevel` is ignored. -/
def autoCompact (lvls : List Nat) (db : DB) : DB :=
  lvls.foldl (fun db lvl => if db.needsCompaction lvl then (db.compactLevel lvl .none).1 else db) db

/-- An iteration of `BackgroundFlush` on the front of the queue: the flush, the pop, the automatic compactions. -/
def backgroundFlush (db : DB) (f : FlushFaults) : DB :=
  match db.immutableMemtables with
  | [] => db
  | _ :: _ => autoCompact (List.range (db.options.maxSstableLevels - 1)) (db.flushFront f)

end DB

end SplitKV
