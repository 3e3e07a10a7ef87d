import SplitKV.Index.Compaction

/-!
# The versions of a key in the database

A lookup in the whole database finds the first version of the key: in the memtables, the newest first, then in the
levels (`DB.findLatest_eq`). `Get` answers with the value of that version, unless it is a tombstone (`DB.Shows`).
-/

namespace SplitKV

open Assoc

/-- What the memtable holds for a key. -/
def MemTable.version (m : MemTable) (key : Key) : Option InternalEntry := lookup key m.getSortedEntries

/-- The versions of a key in some memtables, searched from the first one on. -/
def memVersions (ms : List MemTable) (key : Key) : List InternalEntry := ms.filterMap (fun m => m.version key)

theorem memVersions_append (a b : List MemTable) (key : Key) :
    memVersions (a ++ b) key = memVersions a key ++ memVersions b key := List.filterMap_append

theorem memVersions_singleton (m : MemTable) (key : Key) : memVersions [m] key = (m.version key).toList := by
  rw [memVersions, List.filterMap_cons]
  cases m.version key <;> rfl

namespace DB

/-- The memtables in search order. -/
def memtables (db : DB) : List MemTable := db.memtable :: db.immutableMemtables.reverse

/-- The versions of a key in the levels. -/
def tableVersions (db : DB) (key : Key) : List InternalEntry := db.levels.versions db.options.maxSstableLevels key

/-- The versions of a key, in search order. -/
def versions (db : DB) (key : Key) : List InternalEntry := memVersions db.memtables key ++ db.tableVersions key

/-- The memtables and the tables are well formed, and table ids are not reused. -/
structure Wf (db : DB) : Prop where
  memtables : ∀ m ∈ db.memtables, m.Valid
  levels : db.levels.Wf db.options.maxSstableLevels
  ids : ∀ l, ∀ info ∈ db.levels l, info.tableMeta.fileId < db.nextSstableId

theorem findInMemtables_eq {db : DB} (h : ∀ m ∈ db.memtables, m.Valid) (key : Key) :
    db.findInMemtables key = (memVersions db.memtables key).head? := by
  have hrest : ∀ ms : List MemTable, (∀ m ∈ ms, m.Valid) →
      ms.findSome? (fun m => (m.get key).toOption) = (memVersions ms key).head? := by
    intro ms hms
    rw [memVersions, List.head?_filterMap]
    induction ms with
    | nil => rfl
    | cons m ms ih =>
      rw [List.findSome?_cons, List.findSome?_cons, MemTable.get_toOption (hms m List.mem_cons_self),
        ih (fun m' hm => hms m' (List.mem_cons_of_mem _ hm))]
      rfl
  have := hrest db.memtables h
  rw [memtables, List.findSome?_cons] at this
  rw [memtables, ← this, findInMemtables]
  cases (db.memtable.get key).toOption <;> rfl

/-- **A lookup finds the first version.** -/
theorem findLatest_eq {db : DB} (h : db.Wf) (key : Key) : db.findLatest noFails key = (db.versions key).head? := by
  rw [findLatest, findInMemtables_eq h.memtables, findInTables, Levels.find_eq h.levels, versions, List.head?_append]
  rfl

/-- The version `Get` shows: the first one, unless it is a tombstone. -/
def visible (db : DB) (key : Key) : Option InternalEntry := Versions.shown InternalEntry.Gone (db.versions key)

end DB

/-- What a caller of `Get` sees: the value, or the code of the status. -/
def observe (r : Except Status Bytes) : Except Code Bytes :=
  match r with
  | .ok v => .ok v
  | .error s => .error s.code

namespace DB

/-- `Get`, as its caller sees it. -/
def result (db : DB) (key : Key) : Except Code Bytes := observe (db.get key)

/-- What is seen for a version that is found, or for none. -/
def seen (vlog : VLog) : Option InternalEntry → Except Code Bytes
  | none => .error .notFound
  | some e => observe ((vlog.read e.vlogPtr).map Prod.snd)

/-- What a caller sees for the first of some versions. -/
theorem observe_resolve (vlog : VLog) (l : List InternalEntry) :
    observe (resolve vlog l.head?) = seen vlog (Versions.shown InternalEntry.Gone l) := by
  rw [Versions.shown]
  cases l.head? with
  | none => rfl
  | some e =>
    simp only [resolve]
    by_cases hg : e.type = .deletion
    · have hg' : e.Gone := hg
      rw [if_pos hg, if_pos hg']
      rfl
    · have hg' : ¬e.Gone := hg
      rw [if_neg hg, if_neg hg', seen]
      cases vlog.read e.vlogPtr <;> rfl

/-- What a caller sees depends on the visible version. -/
theorem result_eq {db : DB} (h : db.Wf) (key : Key) : db.result key = seen db.vlog (db.visible key) := by
  rw [result, get, getWith, findLatest_eq h]
  exact observe_resolve db.vlog _

/-- What `Get` shows for a key: nothing, or a value that the visible version denotes. -/
def Shows (db : DB) (key : Key) : Option Bytes → Prop
  | none => db.visible key = none
  | some v => ∃ e, db.visible key = some e ∧ db.vlog.Holds e.vlogPtr key v ∧ db.vlog.canOpen e.vlogPtr.fileId = true

/-- A value is what a caller sees for it. -/
def answer : Option Bytes → Except Code Bytes
  | none => .error .notFound
  | some v => .ok v

theorem Shows.result {db : DB} (hw : db.Wf) {key : Key} {o : Option Bytes} (h : db.Shows key o) :
    db.result key = answer o := by
  rw [result_eq hw]
  cases o with
  | none =>
    rw [show db.visible key = none from h]
    rfl
  | some v =>
    obtain ⟨e, he, hh, hc⟩ := h
    rw [he, seen, hh.read hc]
    rfl

/-- A step that keeps the visible version, and only extends the value log, keeps what is shown. -/
theorem Shows.mono {db db' : DB} {key : Key} {o : Option Bytes} (h : db.Shows key o)
    (hv : db'.visible key = db.visible key) (he : db.vlog.Extends db'.vlog) : db'.Shows key o := by
  cases o with
  | none => exact hv.trans h
  | some v =>
    obtain ⟨e, he', hh, hd⟩ := h
    exact ⟨e, hv.trans he', hh.mono he, he.canOpen hd⟩

/-! ## How the steps change the versions -/

/-- The memtable gets a new version of a key. -/
def addEntry (db : DB) (key : Key) (e : InternalEntry) : DB := { db with memtable := db.memtable.add key e }

theorem versions_addEntry_self {db : DB} (h : db.memtable.Valid) (key : Key) (e : InternalEntry) :
    ∃ rest, (db.addEntry key e).versions key = e :: rest ∧ rest.Sublist (db.versions key) := by
  refine ⟨memVersions db.immutableMemtables.reverse key ++ db.tableVersions key, ?_, ?_⟩
  · rw [versions, memtables, memVersions, List.filterMap_cons]
    have : (db.addEntry key e).memtable.version key = some e := MemTable.lookup_add_self h key e
    rw [this]
    rfl
  · refine List.Sublist.append ?_ (List.Sublist.refl _)
    rw [memVersions, memVersions, memtables, List.filterMap_cons]
    cases db.memtable.version key with
    | none => exact List.Sublist.refl _
    | some a => exact List.sublist_cons_self _ _

theorem versions_addEntry_of_ne (db : DB) {key k : Key} (hk : k ≠ key) (e : InternalEntry) :
    (db.addEntry key e).versions k = db.versions k := by
  have : (db.addEntry key e).memtable.version k = db.memtable.version k :=
    MemTable.lookup_add_of_ne hk e db.memtable
  rw [versions, memtables, memVersions, List.filterMap_cons, this, versions, memtables, memVersions, List.filterMap_cons]
  rfl

/-- The memtable moves to the queue. -/
def rotate (db : DB) : DB :=
  { db with
    immutableMemtables := db.immutableMemtables ++ [db.memtable]
    memtable := .new db.options.memtableSizeLimit }

theorem versions_rotate (db : DB) (key : Key) : db.rotate.versions key = db.versions key := by
  rw [versions, versions, memtables, memtables]
  simp only [rotate, List.reverse_append, List.reverse_singleton, List.singleton_append]
  rw [memVersions, List.filterMap_cons, MemTable.version, MemTable.getSortedEntries_new]
  rfl

/-- A table is registered on level 0. -/
def registerTable (db : DB) (info : SSTableInfo) : DB :=
  { db with levels := setAt db.levels 0 (db.levels 0 ++ [info]) }

theorem tableVersions_registerTable {db : DB} (h : db.levels.Wf db.options.maxSstableLevels) (info : SSTableInfo) (key : Key) :
    (db.registerTable info).tableVersions key = (info.version key).toList ++ db.tableVersions key := by
  have hrest : (db.registerTable info).levels.versionsIn ((List.range db.options.maxSstableLevels).drop 1) key =
      db.levels.versionsIn ((List.range db.options.maxSstableLevels).drop 1) key := by
    refine Levels.versionsIn_congr (fun l hl => ?_) key
    have := Levels.mem_drop_range hl
    exact setAt_of_ne _ (by omega) _
  have h0 : ∀ L : Levels, L.versionsIn (List.range db.options.maxSstableLevels) key =
      SplitKV.tableVersions (L 0).reverse key ++ L.versionsIn ((List.range db.options.maxSstableLevels).drop 1) key := by
    intro L
    conv_lhs => rw [Levels.range_eq_cons h.pos]
    rfl
  rw [tableVersions, tableVersions, Levels.versions, Levels.versions, h0 db.levels]
  refine (h0 (db.registerTable info).levels).trans ?_
  rw [hrest, ← List.append_assoc]
  congr 1
  have hl : (db.registerTable info).levels 0 = db.levels 0 ++ [info] := setAt_self db.levels 0 _
  rw [hl, List.reverse_append, SplitKV.tableVersions_append]
  congr 1

/-- The versions of a key when the front of the queue is named. -/
theorem versions_front {db : DB} {m : MemTable} {ms : List MemTable} (hq : db.immutableMemtables = m :: ms) (key : Key) :
    db.versions key = memVersions (db.memtable :: ms.reverse) key ++ (m.version key).toList ++ db.tableVersions key := by
  rw [versions, memtables, hq, List.reverse_cons, ← List.cons_append, memVersions, List.filterMap_append]
  cases hv : m.version key <;> simp [hv, memVersions]

theorem versions_popFront {db : DB} {m : MemTable} {ms : List MemTable} (hq : db.immutableMemtables = m :: ms) (key : Key) :
    db.popFront.versions key = memVersions (db.memtable :: ms.reverse) key ++ db.tableVersions key := by
  rw [versions, memtables, popFront, hq]
  rfl

/-- The versions only depend on the memtables and the levels. -/
theorem versions_congr {db db' : DB} (hm : db'.memtable = db.memtable)
    (hi : db'.immutableMemtables = db.immutableMemtables) (hl : db'.levels = db.levels) (ho : db'.options = db.options)
    (key : Key) : db'.versions key = db.versions key := by
  rw [versions, versions, memtables, memtables, hm, hi, tableVersions, tableVersions, hl, ho]

end DB

end SplitKV
