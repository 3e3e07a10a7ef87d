import SplitKV.Recovery.Open

/-!
# Operations that can be recovered

Wherever a flush or a compaction is interrupted, its files can be recovered with the same log; when it is completed, the
database agrees with its files again (`Logged.flushFront`, `Logged.compactLevel`; `Logged.write` says so of writes).
-/

namespace SplitKV

open Assoc

namespace DB

/-! ## Steps of the index -/

/-- The logs are the same, and so are the counters that belong to them. -/
structure SameLogs (db db' : DB) : Prop where
  vlog : db'.vlog = db.vlog
  wal : db'.wal = db.wal
  walId : db'.walId = db.walId
  options : db'.options = db.options
  sequenceNumber : db'.sequenceNumber = db.sequenceNumber

theorem OnlyIndex.sameLogs {db db' : DB} (h : db.OnlyIndex db') : db.SameLogs db' :=
  ⟨h.vlog, h.wal, h.walId, h.options, h.sequenceNumber⟩

/-- The tables that a manifest describes behind a step of the index. -/
structure IndexFiles (db db' : DB) (levels : Levels) (next : Nat) : Prop where
  described : Described db.options db'.disk levels next
  next_le : next ≤ db'.nextSstableId
  recorded : TablesRecorded (WAL.log db.wal.files) levels

/-- The files behind a step of the index can be recovered. -/
theorem Logged.recoverable_index {db db' : DB} (h : db.Logged) (hl : db.SameLogs db') {levels : Levels} {next : Nat}
    (hf : db.IndexFiles db' levels next) (hs : db'.Small) : db'.disk.Recoverable db.options := by
  have hsst := hs.sst
  have hnext := hf.next_le
  have hvlog := hs.vlog
  have hwal := hs.wal
  rw [hl.vlog] at hvlog
  rw [hl.wal] at hwal
  constructor
  · show WAL.Logs db'.wal.files
    rw [hl.wal]
    exact h.logs
  · show Records db'.vlog.files (WAL.log db'.wal.files)
    rw [hl.vlog, hl.wal]
    exact h.records
  · refine ⟨levels, next, by omega, hf.described, ?_⟩
    show TablesRecorded (WAL.log db'.wal.files) levels
    rw [hl.wal]
    exact hf.recorded
  · intro id hid
    have hid : id ∈ db'.vlog.files.dir := hid
    rw [hl.vlog] at hid
    exact ⟨h.vlog.pos id hid, hvlog id hid⟩
  · intro id hid
    have hid : id ∈ db'.wal.files.dir := hid
    rw [hl.wal] at hid
    exact hwal id hid

/-- A step of the index whose levels are described, and that adds no memtable. -/
theorem Logged.index {db db' : DB} (h : db.Logged) (hl : db.SameLogs db') (hw : db'.Wf)
    (hf : db.IndexFiles db' db'.levels db'.nextSstableId) (hm : ∀ m ∈ db'.memtables, m ∈ db.memtables) : db'.Logged := by
  obtain ⟨hvlog, hwal, hwalId, hopt, hseq⟩ := hl
  constructor
  · exact hw
  · rw [hopt]
    exact hf.described
  · rw [hwal]
    exact h.logs
  · rw [hvlog, hwal]
    exact h.records
  · rw [hwal, hseq]
    exact h.bound
  · rw [hwal]
    exact fun m hmem => h.memtables m (hm m hmem)
  · rw [hwal]
    exact hf.recorded
  · rw [hvlog]
    exact h.vlog
  · rw [hwal, hwalId]
    exact h.walId
  · rw [hseq]
    exact h.pos

/-! ## Operations -/

/-- What an operation that writes the entries of a batch leaves, wherever it is interrupted. -/
structure Interrupted (db db' : DB) (batch : WriteBatch) : Prop where
  recoverable : db'.disk.Recoverable db.options
  told : ∀ m, Tells db.vlog.files (WAL.log db.wal.files) m → ∃ n,
    Tells db'.vlog.files (WAL.log db'.wal.files) (WriteBatch.apply m (batch.take n))

/-- What a step of the index that is completed leaves. -/
structure Reindexed (db db' : DB) : Prop where
  sameLogs : db.SameLogs db'
  logged : db'.Logged

theorem Logged.interrupted_index {db db' : DB} (h : db.Logged) (hl : db.SameLogs db') {levels : Levels} {next : Nat}
    (hf : db.IndexFiles db' levels next) (hs : db'.Small) : db.Interrupted db' [] := by
  refine ⟨h.recoverable_index hl hf hs, fun m hm => ⟨0, ?_⟩⟩
  rw [hl.vlog, hl.wal]
  exact hm

/-- The index behind a flush of the oldest memtable. -/
theorem Logged.flushFront_files {db : DB} (h : db.Logged) (f : FlushFaults) : db.SameLogs (db.flushFront f) ∧
    (∀ m ∈ (db.flushFront f).memtables, m ∈ db.memtables) ∧ ∃ levels next, db.IndexFiles (db.flushFront f) levels next ∧
      (f = {} → levels = (db.flushFront f).levels ∧ next = (db.flushFront f).nextSstableId) := by
  cases hq : db.immutableMemtables with
  | nil =>
    have he : db.flushFront f = db := by rw [DB.flushFront, hq]
    rw [he]
    exact ⟨⟨rfl, rfl, rfl, rfl, rfl⟩, fun _ hm => hm, db.levels, db.nextSstableId,
      ⟨h.described, Nat.le_refl _, h.tables⟩, fun _ => ⟨rfl, rfl⟩⟩
  | cons m ms =>
    have he : db.flushFront f = (db.flushMemTable m f).1.popFront := by rw [DB.flushFront, hq]
    have hmem : m ∈ db.memtables := by
      refine List.mem_cons_of_mem _ (List.mem_reverse.mpr ?_)
      rw [hq]
      exact List.mem_cons_self
    have hm := h.wf.memtables m hmem
    have hi := onlyIndex_flush db m f
    have hl : db.SameLogs (db.flushMemTable m f).1.popFront :=
      ⟨hi.vlog, hi.wal, hi.walId, hi.options, hi.sequenceNumber⟩
    obtain ⟨levels, next, hd, hle, hcases, hok⟩ := flushMemTable_describes h.described hm f
    rw [he]
    refine ⟨hl, fun x hx => ?_, levels, next, ⟨hd, hle, ?_⟩, fun hf => ?_⟩
    · -- the pop only drops the oldest memtable
      rcases List.mem_cons.mp hx with rfl | hx
      · rw [show (db.flushMemTable m f).1.popFront.memtable = (db.flushMemTable m f).1.memtable from rfl, hi.memtable]
        exact List.mem_cons_self
      · have hx : x ∈ (db.flushMemTable m f).1.immutableMemtables := List.mem_of_mem_tail (List.mem_reverse.mp hx)
        rw [hi.immutableMemtables] at hx
        exact List.mem_cons_of_mem _ (List.mem_reverse.mpr hx)
    · rcases hcases with rfl | rfl
      · exact h.tables
      · intro l info hinfo
        rcases flushMemTable_levels db hm f l info hinfo with hold | hnew
        · exact h.tables l info hold
        · rw [hnew]
          exact h.memtables m hmem
    · subst hf
      exact hok (flushMemTable_ok db hm)

/-- **A flush**, wherever it is interrupted. -/
theorem Logged.flushFront {db : DB} (h : db.Logged) (f : FlushFaults) :
    ((db.flushFront f).Small → db.Interrupted (db.flushFront f) []) ∧ (f = {} → db.Reindexed (db.flushFront f)) := by
  obtain ⟨hl, hm, levels, next, hf, hok⟩ := h.flushFront_files f
  refine ⟨fun hs => h.interrupted_index hl hf hs, fun he => ⟨hl, ?_⟩⟩
  obtain ⟨rfl, rfl⟩ := hok he
  have hwf : (db.flushFront f).Wf := by
    subst he
    exact (versions_flushFront h.wf fun m _ => Or.inr ⟨rfl, fun _ _ => rfl, rfl, rfl⟩).1
  exact h.index hl hwf hf hm

/-- The index behind a compaction. -/
theorem Logged.compactLevel_files {db : DB} (h : db.Logged) (lvl : Int) (f : CompactFaults) :
    (db.compactLevel lvl f).1.Wf ∧ ∃ levels next, db.IndexFiles (db.compactLevel lvl f).1 levels next ∧
      (f = .none → levels = (db.compactLevel lvl f).1.levels ∧ next = (db.compactLevel lvl f).1.nextSstableId) := by
  unfold DB.compactLevel
  split
  · exact ⟨h.wf, db.levels, db.nextSstableId, ⟨h.described, Nat.le_refl _, h.tables⟩, fun _ => ⟨rfl, rfl⟩⟩
  · have hlt : lvl.toNat + 1 < db.options.maxSstableLevels := by omega
    obtain ⟨hi, hcases, hnone⟩ := compactTables_spec h.wf.levels h.wf.ids hlt f
    obtain ⟨levels, next, hd, hle, hold, hok⟩ := compactTables_described h.described hlt f
    have hwf : (db.compactTables lvl.toNat f).1.Wf := by
      split at hcases
      · obtain ⟨outputs, hres⟩ := hcases
        exact hres.wf h.wf hi
      · exact h.wf.sameLevels hi hcases
    refine ⟨hwf, levels, next, ⟨hd, hle, fun l info hinfo p hp => ?_⟩, fun hf => hok (hnone hf).1⟩
    obtain ⟨l', info', hinfo', hp'⟩ := hold l info hinfo p hp
    exact h.tables l' info' hinfo' p hp'

/-- **A compaction**, wherever it is interrupted. -/
theorem Logged.compactLevel {db : DB} (h : db.Logged) (lvl : Int) (f : CompactFaults) :
    ((db.compactLevel lvl f).1.Small → db.Interrupted (db.compactLevel lvl f).1 []) ∧
      (f = .none → db.Reindexed (db.compactLevel lvl f).1) := by
  have hi := onlyIndex_compact db lvl f
  have hmem : ∀ m ∈ (db.compactLevel lvl f).1.memtables, m ∈ db.memtables := fun m hm => by rwa [hi.memtables] at hm
  obtain ⟨hwf, levels, next, hf, hok⟩ := h.compactLevel_files lvl f
  refine ⟨fun hs => h.interrupted_index hi.sameLogs hf hs, fun he => ⟨hi.sameLogs, ?_⟩⟩
  obtain ⟨rfl, rfl⟩ := hok he
  exact h.index hi.sameLogs hwf hf hmem

/-- The logs are still open. -/
theorem Reindexed.alive {db db' : DB} (h : db.Reindexed db') (ha : db.Alive) : db'.Alive := by
  refine ⟨h.logged, ?_, ?_⟩
  · rw [h.sameLogs.wal]
    exact ha.active
  · rw [h.sameLogs.vlog]
    exact ha.ready

end DB

end SplitKV
