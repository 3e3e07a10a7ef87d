import SplitKV.Recovery.Log

/-!
# What the files of a database say

`DB.Logged` relates the state to its files: the manifest describes the levels, and every version in a memtable or a
table is a record of the log. `Disk.Recoverable` is what remains of it when the process dies: the manifest still
describes some levels, and all their versions are in the log. Reading such a manifest gives the levels it describes
(`Described.loadManifest`).
-/

namespace SplitKV

open Assoc

/-! ## Values on disk -/

/-- The pointer denotes a record in a file that is not newer than the newest one on disk. -/
def Stored (files : Folder Bytes) (ptr : VLogPointer) (key value : Bytes) : Prop :=
  ∃ id ∈ files.dir, VLog.Holds { files := files, currentFileId := id } ptr key value

namespace VLog

theorem Holds.stored {v : VLog} {ptr : VLogPointer} {key value : Bytes} (h : Holds v ptr key value)
    (hc : v.currentFileId ∈ v.files.dir) : Stored v.files ptr key value :=
  ⟨v.currentFileId, hc, h.fileId, h.valueSize, h.fits, h.record⟩

end VLog

theorem Stored.holds {v : VLog} {ptr : VLogPointer} {key value : Bytes} (h : Stored v.files ptr key value)
    (hn : v.Tidy) : v.Holds ptr key value := by
  obtain ⟨id, hid, hh⟩ := h
  exact ⟨hh.fileId.trans (hn.newest id hid), hh.valueSize, hh.fits, hh.record⟩

/-- Extending the value log keeps what is stored. -/
theorem Stored.mono {v v' : VLog} {ptr : VLogPointer} {key value : Bytes} (h : Stored v.files ptr key value)
    (hn : v.Tidy) (he : v.Extends v') : Stored v'.files ptr key value := by
  obtain ⟨id, hid, hh⟩ := h
  have hid' := hn.newest id hid
  have hext : VLog.Extends { files := v.files, currentFileId := id } { files := v'.files, currentFileId := id } :=
    ⟨Nat.le_refl _, fun i hi => he.data i (hi.trans hid'), he.dir, fun _ h => h⟩
  exact ⟨id, he.dir id hid, hh.mono hext⟩

/-! ## Records -/

/-- The records of a log: each of them is a tombstone or points at a value of its key, their sequence numbers grow, and
the manifest can hold their keys. -/
structure Records (vlog : Folder Bytes) (rs : List WALRecord) : Prop where
  holds : ∀ r ∈ rs, r.type = .deletion ∨ r.type = .value ∧ ∃ value, Stored vlog r.vlogPtr r.key value
  ordered : rs.Pairwise (fun a b => a.sequence < b.sequence)
  pos : ∀ r ∈ rs, 1 ≤ r.sequence
  token : ∀ r ∈ rs, Token r.key

/-- Every entry is a version of the log. -/
def Recorded (rs : List WALRecord) (l : List (Key × InternalEntry)) : Prop :=
  ∀ p ∈ l, ∃ r ∈ rs, r.key = p.1 ∧ r.entry = p.2

theorem Recorded.mono {rs rs' : List WALRecord} {l : List (Key × InternalEntry)} (h : Recorded rs l)
    (hs : ∀ r ∈ rs, r ∈ rs') : Recorded rs' l := by
  intro p hp
  obtain ⟨r, hr, he⟩ := h p hp
  exact ⟨r, hs r hr, he⟩

/-- A table has fewer entries than there are sequence numbers. -/
theorem Recorded.length_lt {vlog : Folder Bytes} {rs : List WALRecord} (hr : Records vlog rs) {n : Nat}
    (hn : ∀ r ∈ rs, r.sequence < n) {l : List (Key × InternalEntry)} (h : Recorded rs l) (hs : Sorted l) :
    l = [] ∨ l.length < n := by
  have hinj : (l.map (fun p => p.2.sequence)).Nodup := by
    refine List.Nodup.map_on (fun p hp q hq he => ?_) (hs.imp fun hlt he => ?_)
    · obtain ⟨r, hrm, hk, hre⟩ := h p hp
      obtain ⟨r', hrm', hk', hre'⟩ := h q hq
      have hseq : r.sequence = r'.sequence := by
        have h₁ : r.sequence = p.2.sequence := congrArg InternalEntry.sequence hre
        have h₂ : r'.sequence = q.2.sequence := congrArg InternalEntry.sequence hre'
        rw [h₁, h₂, he]
      have := WAL.eq_of_sequence hr.ordered hrm hrm' hseq
      subst this
      exact Prod.ext (hk.symm.trans hk') (hre.symm.trans hre')
    · rw [he] at hlt
      exact lt_irrefl _ hlt
  have hsub : ∀ x ∈ l.map (fun p => p.2.sequence), x ∈ List.range' 1 (n - 1) := by
    intro x hx
    obtain ⟨p, hp, rfl⟩ := List.mem_map.mp hx
    obtain ⟨r, hrm, -, hre⟩ := h p hp
    have h₁ : r.sequence = p.2.sequence := congrArg InternalEntry.sequence hre
    have h₂ := hr.pos r hrm
    have h₃ := hn r hrm
    rw [List.mem_range'_1]
    omega
  have hle := (List.subperm_of_subset hinj hsub).length_le
  rw [List.length_map, List.length_range'] at hle
  cases l with
  | nil => exact Or.inl rfl
  | cons p l =>
    obtain ⟨r, hrm, -⟩ := h p List.mem_cons_self
    have h₃ := hn r hrm
    exact Or.inr (by omega)

/-! ## Tables on disk -/

/-- The table of level `lvl` is the one that its file holds. -/
structure OnDisk (sst : Folder (Option SSTableFile)) (lvl : Nat) (info : SSTableInfo) : Prop where
  file : ∃ file, info.tableMeta.fileId ∈ sst.dir ∧ sst.data info.tableMeta.fileId = some file ∧
    info.reader = .openFile file ∧ info.tableMeta.fileSize = file.size
  level : info.tableMeta.level = lvl
  numEntries : info.tableMeta.numEntries = info.reader.entries.length

/-- The files describe the levels, and the next table id. -/
structure Described (o : Options) (d : Disk) (levels : Levels) (next : Nat) : Prop where
  manifest : d.manifest = none ∧ levels = (fun _ => []) ∧ next = 1 ∨
    d.manifest = some (encodeManifest next (DB.manifestLines levels o.maxSstableLevels))
  onDisk : ∀ l, ∀ info ∈ levels l, OnDisk d.sst l info
  wf : levels.Wf o.maxSstableLevels
  ids : ∀ l, ∀ info ∈ levels l, info.tableMeta.fileId < next
  unique : ∀ l l' a b, a ∈ levels l → b ∈ levels l' → a.tableMeta.fileId = b.tableMeta.fileId → l = l'

/-- Every entry of every table is a version of the log. -/
def TablesRecorded (rs : List WALRecord) (levels : Levels) : Prop :=
  ∀ l, ∀ info ∈ levels l, Recorded rs info.reader.entries

/-- What a process leaves behind can be recovered. -/
structure Disk.Recoverable (o : Options) (d : Disk) : Prop where
  logs : WAL.Logs d.wal
  records : Records d.vlog (WAL.log d.wal)
  tables : ∃ levels next, next < 2 ^ 32 ∧ Described o d levels next ∧ TablesRecorded (WAL.log d.wal) levels
  vlogIds : ∀ id ∈ d.vlog.dir, 1 ≤ id ∧ id < 100000
  walIds : ∀ id ∈ d.wal.dir, id < 100000

/-- The state agrees with its files. -/
structure DB.Logged (db : DB) : Prop where
  wf : db.Wf
  described : Described db.options db.disk db.levels db.nextSstableId
  logs : WAL.Logs db.wal.files
  records : Records db.vlog.files (WAL.log db.wal.files)
  bound : ∀ r ∈ WAL.log db.wal.files, r.sequence < db.sequenceNumber
  memtables : ∀ m ∈ db.memtables, Recorded (WAL.log db.wal.files) m.getSortedEntries
  tables : TablesRecorded (WAL.log db.wal.files) db.levels
  vlog : db.vlog.Tidy
  walId : ∀ id ∈ db.wal.files.dir, id ≤ db.walId
  pos : 1 ≤ db.sequenceNumber

/-- The ids and the sequence numbers are within their bounds: less than 100000 files, and sequence numbers of 64 bits. -/
structure DB.Small (db : DB) : Prop where
  vlog : ∀ id ∈ db.vlog.files.dir, id < 100000
  wal : ∀ id ∈ db.wal.files.dir, id < 100000
  sst : db.nextSstableId ≤ 100000
  sequence : db.sequenceNumber ≤ 2 ^ 64

theorem DB.Logged.recoverable {db : DB} (h : db.Logged) (hs : db.Small) : db.disk.Recoverable db.options where
  logs := h.logs
  records := h.records
  tables := ⟨db.levels, db.nextSstableId, by have := hs.sst; omega, h.described, h.tables⟩
  vlogIds := fun id hid => ⟨h.vlog.pos id hid, hs.vlog id hid⟩
  walIds := hs.wal

/-- Every version of a key is a version of the log. -/
theorem DB.Logged.versions {db : DB} (h : db.Logged) {key : Key} {e : InternalEntry} (he : e ∈ db.versions key) :
    ∃ r ∈ WAL.log db.wal.files, r.key = key ∧ r.entry = e := by
  rcases List.mem_append.mp he with he | he
  · obtain ⟨m, hm, hv⟩ := List.mem_filterMap.mp he
    exact h.memtables m hm (key, e) (mem_of_lookup hv)
  · obtain ⟨l, -, hl⟩ := List.mem_flatMap.mp he
    obtain ⟨info, hi, hv⟩ := mem_tableVersions.mp hl
    exact h.tables l info (Levels.mem_searched.mp hi) (key, e) (mem_of_lookup hv)

/-! ## Reading the manifest -/

/-- The line of a table. -/
def manifestLine (info : SSTableInfo) : ManifestLine :=
  ⟨info.tableMeta.fileId, info.tableMeta.level, info.tableMeta.numEntries, info.tableMeta.smallestKey,
    info.tableMeta.largestKey⟩

/-- The tables of one level are loaded behind the others. -/
theorem loadTables_level {sst : Folder (Option SSTableFile)} {maxLevels lvl : Nat} (hl : lvl < maxLevels)
    (rest : List ManifestLine) : ∀ (infos : List SSTableInfo) (levels : Levels), (∀ info ∈ infos, OnDisk sst lvl info) →
      DB.loadTables sst maxLevels (infos.map manifestLine ++ rest) levels =
        DB.loadTables sst maxLevels rest (setAt levels lvl (levels lvl ++ infos))
  | [], levels, _ => by
    have hsame : setAt levels lvl (levels lvl ++ []) = levels := by
      funext l
      unfold setAt
      split
      · rename_i h
        rw [h, List.append_nil]
      · rfl
    rw [hsame]
    rfl
  | info :: infos, levels, h => by
    obtain ⟨⟨file, hd, hf, hr, hs⟩, hlevel, -⟩ := h info List.mem_cons_self
    have hinfo : (⟨⟨info.tableMeta.fileId, lvl, info.tableMeta.smallestKey, info.tableMeta.largestKey,
        info.tableMeta.numEntries, file.size⟩, .openFile file⟩ : SSTableInfo) = info := by
      obtain ⟨⟨id, level, smallest, largest, num, size⟩, reader⟩ := info
      simp only at hr hs hlevel
      rw [hr, hs, hlevel]
    have hhas : sst.has info.tableMeta.fileId = true := Folder.has_iff.mpr hd
    have hlt : (0 : Int) ≤ lvl ∧ (lvl : Int) < maxLevels := ⟨by omega, by omega⟩
    rw [List.map_cons, List.cons_append, DB.loadTables]
    simp only [manifestLine, hhas, if_true, hf, hlevel, hlt, and_self, Int.toNat_natCast, hinfo]
    rw [loadTables_level hl rest infos _ fun i hi => h i (List.mem_cons_of_mem _ hi)]
    congr 1
    funext l
    unfold setAt
    split
    · simp
    · rfl

/-- The levels below `n`. -/
def Levels.below (levels : Levels) (n : Nat) : Levels := fun l => if l < n then levels l else []

/-- **All tables are loaded.** -/
theorem loadTables_lines {sst : Folder (Option SSTableFile)} {levels : Levels} {maxLevels : Nat}
    (h : ∀ l, ∀ info ∈ levels l, OnDisk sst l info) : ∀ n ≤ maxLevels,
      DB.loadTables sst maxLevels (DB.manifestLines levels maxLevels) (fun _ => []) =
        DB.loadTables sst maxLevels (((List.range maxLevels).drop n).flatMap fun l => (levels l).map manifestLine)
          (levels.below n)
  | 0, _ => by
    rw [List.drop_zero]
    rfl
  | n + 1, hn => by
    rw [loadTables_lines h n (by omega)]
    have hcons : (List.range maxLevels).drop n = n :: (List.range maxLevels).drop (n + 1) := by
      rw [List.drop_eq_getElem_cons (by rw [List.length_range]; omega), List.getElem_range]
    rw [hcons, List.flatMap_cons, loadTables_level (by omega) _ _ _ (h n)]
    congr 1
    funext l
    unfold setAt Levels.below
    by_cases hl : l = n
    · subst hl
      rw [if_pos rfl, if_neg (Nat.lt_irrefl l), if_pos (Nat.lt_succ_self l), List.nil_append]
    · rw [if_neg hl]
      by_cases hlt : l < n
      · rw [if_pos hlt, if_pos (by omega)]
      · rw [if_neg hlt, if_neg (by omega)]

/-- The keys of the tables can be read back from a manifest, and their sizes. -/
structure Listable (levels : Levels) : Prop where
  token : ∀ l, ∀ info ∈ levels l, ∀ p ∈ info.reader.entries, Token p.1
  count : ∀ l, ∀ info ∈ levels l, info.reader.entries.length < 2 ^ 64

/-- Recorded tables are listable. -/
theorem Described.listable {o : Options} {d : Disk} {levels : Levels} {next : Nat} (h : Described o d levels next)
    {rs : List WALRecord} (hr : Records d.vlog rs) (hs : ∀ r ∈ rs, r.sequence < 2 ^ 64) (ht : TablesRecorded rs levels) :
    Listable levels := by
  refine ⟨fun l info hi p hp => ?_, fun l info hi => ?_⟩
  · obtain ⟨r, hrm, hk, -⟩ := ht l info hi p hp
    exact hk ▸ hr.token r hrm
  · rcases (ht l info hi).length_lt hr hs (h.wf.tables l info hi).reader.sorted with he | he
    · rw [he]
      exact Nat.two_pow_pos 64
    · exact he

/-- The lines of described levels can be read back. -/
theorem Described.readable {o : Options} {d : Disk} {levels : Levels} {next : Nat} (h : Described o d levels next)
    (hn : next < 2 ^ 32) (hl : o.maxSstableLevels < 2 ^ 31) (hr : Listable levels) :
    ∀ line ∈ DB.manifestLines levels o.maxSstableLevels, line.Readable := by
  intro line hline
  obtain ⟨l, hlm, hline⟩ := List.mem_flatMap.mp hline
  obtain ⟨info, hi, rfl⟩ := List.mem_map.mp hline
  have hw := h.wf.tables l info hi
  have hd := h.onDisk l info hi
  have hlt := List.mem_range.mp hlm
  constructor
  · exact (h.ids l info hi).trans hn
  · simp only [hd.level]
    omega
  · simp only [hd.numEntries]
    exact hr.count l info hi
  · obtain ⟨p, hp, he⟩ := hw.smallest
    exact he ▸ hr.token l info hi p (List.mem_of_mem_head? hp)
  · obtain ⟨p, hp, he⟩ := hw.largest
    exact he ▸ hr.token l info hi p (List.mem_of_mem_getLast? hp)

/-- The lines of described levels give these levels. -/
theorem Described.loadTables {o : Options} {d : Disk} {levels : Levels} {next : Nat} (h : Described o d levels next) :
    DB.loadTables d.sst o.maxSstableLevels (DB.manifestLines levels o.maxSstableLevels) (fun _ => []) = .ok levels := by
  have hload := loadTables_lines h.onDisk o.maxSstableLevels (Nat.le_refl _)
  have hbelow : levels.below o.maxSstableLevels = levels := by
    funext l
    unfold Levels.below
    split
    · rfl
    · rename_i hge
      rw [h.wf.empty l (by omega)]
  rw [List.drop_eq_nil_of_le (by rw [List.length_range]), List.flatMap_nil, hbelow] at hload
  exact hload

/-- **Reading the manifest** gives the levels it describes, when they are listable. -/
theorem Described.loadManifest_listable {o : Options} {d : Disk} {levels : Levels} {next : Nat}
    (h : Described o d levels next) (hn : next < 2 ^ 32) (hl : o.maxSstableLevels < 2 ^ 31) (hr : Listable levels) :
    DB.loadManifest d o.maxSstableLevels = .ok (next, levels) := by
  unfold DB.loadManifest
  rcases h.manifest with ⟨he, hlv, hnx⟩ | he
  · rw [he, hlv, hnx]
  · rw [he]
    simp only
    rw [parseManifest_encode hn (h.readable hn hl hr), h.loadTables]

/-- **Reading the manifest** gives the levels it describes. -/
theorem Described.loadManifest {o : Options} {d : Disk} {levels : Levels} {next : Nat} (h : Described o d levels next)
    (hn : next < 2 ^ 32) (hl : o.maxSstableLevels < 2 ^ 31) {rs : List WALRecord} (hr : Records d.vlog rs)
    (hs : ∀ r ∈ rs, r.sequence < 2 ^ 64) (ht : TablesRecorded rs levels) :
    DB.loadManifest d o.maxSstableLevels = .ok (next, levels) :=
  h.loadManifest_listable hn hl (h.listable hr hs ht)

end SplitKV
