import SplitKV.Recovery.Index
import SplitKV.Recovery.Write

/-!
# The replay of the log

The replay reads every WAL file, the oldest first, and flushes the memtable between two files when it is full. Whatever
tables were on disk, and whichever new ones it writes, the first version of a key is then its last record
(`DB.Replaying.head`, `DB.replayWals_spec`).
-/

namespace SplitKV

open Assoc Versions

/-- A record is replayed as the version it stands for. -/
theorem replayRecord_eq {r : WALRecord} (h : WAL.Fits r) (m : MemTable) :
    DB.replayRecord m r = m.add r.key r.entry := by
  obtain ⟨type, seq, key, ptr⟩ := r
  have hk := h.kind
  simp only at hk
  rcases hk with rfl | ⟨rfl, rfl⟩ <;> rfl

namespace DB

/-- The replay has read the records `done` of the log `rs`. -/
structure Replaying (rs done : List WALRecord) (db : DB) : Prop where
  memtable : db.memtable.Valid
  immutable : db.immutableMemtables = []
  described : Described db.options db.disk db.levels db.nextSstableId
  recorded : Recorded rs db.memtable.getSortedEntries
  tables : TablesRecorded rs db.levels
  head : ∀ key r, WAL.lastRecord done key = some r → (db.versions key).head? = some r.entry
  bound : ∀ r ∈ done, r.sequence ≤ db.sequenceNumber

/-- One record. -/
theorem Replaying.record {rs done : List WALRecord} {db : DB} (h : Replaying rs done db) {r : WALRecord} (hr : r ∈ rs)
    (hf : WAL.Fits r) : Replaying rs (done ++ [r]) { db with
      memtable := replayRecord db.memtable r, sequenceNumber := max db.sequenceNumber r.sequence } := by
  have hm := replayRecord_eq hf db.memtable
  refine ⟨?_, h.immutable, described_congr h.described rfl rfl, fun p hp => ?_, h.tables, fun key a ha => ?_, fun a ha => ?_⟩
  · simp only [hm]
    exact MemTable.valid_add h.memtable _ _
  · simp only [hm] at hp
    rcases MemTable.mem_add hp with rfl | hp
    · exact ⟨r, hr, rfl, rfl⟩
    · exact h.recorded p hp
  · have hv : ∀ key, ({ db with
        memtable := replayRecord db.memtable r
        sequenceNumber := max db.sequenceNumber r.sequence } : DB).versions key =
        (db.addEntry r.key r.entry).versions key := by
      intro key
      rw [hm]
      rfl
    rw [hv]
    rw [WAL.lastRecord_append] at ha
    by_cases hk : r.key = key
    · rw [if_pos hk] at ha
      cases ha
      obtain ⟨rest, he, -⟩ := versions_addEntry_self h.memtable r.key r.entry
      rw [← hk, he]
      rfl
    · rw [if_neg hk] at ha
      rw [versions_addEntry_of_ne db (Ne.symm hk)]
      exact h.head key a ha
  · rcases List.mem_append.mp ha with ha | ha
    · exact (h.bound a ha).trans (Nat.le_max_left _ _)
    · rw [List.mem_singleton.mp ha]
      exact Nat.le_max_right _ _

/-- The records of one file. -/
theorem Replaying.records {rs : List WALRecord} : ∀ (new done : List WALRecord) (db : DB), Replaying rs done db →
    (∀ r ∈ new, r ∈ rs ∧ WAL.Fits r) → Replaying rs (done ++ new) { db with
      memtable := new.foldl replayRecord db.memtable
      sequenceNumber := new.foldl (fun (n : Nat) (r : WALRecord) => max n r.sequence) db.sequenceNumber }
  | [], done, db, h, _ => by
    rw [List.append_nil]
    exact h
  | r :: new, done, db, h, hn => by
    obtain ⟨hr, hf⟩ := hn r List.mem_cons_self
    have hrest := Replaying.records new (done ++ [r]) _ (h.record hr hf) fun a ha => hn a (List.mem_cons_of_mem _ ha)
    rw [List.append_assoc, List.singleton_append] at hrest
    exact hrest

/-- The tables that a flush of the memtable leaves are recorded. -/
theorem Replaying.flushed_recorded {rs done : List WALRecord} {db : DB} (h : Replaying rs done db) {levels : Levels}
    (hl : FlushedLevels db.levels levels db.memtable) : TablesRecorded rs levels := by
  intro l info hi
  rcases hl l info hi with hi | he
  · exact h.tables l info hi
  · exact he ▸ h.recorded

theorem Replaying.wf {rs done : List WALRecord} {db : DB} (h : Replaying rs done db) : db.Wf := by
  refine ⟨fun m hm => ?_, h.described.wf, h.described.ids⟩
  rw [memtables, h.immutable] at hm
  rw [List.mem_singleton.mp hm]
  exact h.memtable

/-- The versions of a key while there is only one memtable. -/
theorem versions_single {db : DB} (hi : db.immutableMemtables = []) (key : Key) :
    db.versions key = (db.memtable.version key).toList ++ db.tableVersions key := by
  rw [versions, memtables, hi]
  cases hv : db.memtable.version key <;> simp [hv, memVersions]

/-- The tables behind a flush that registers the table of the memtable. -/
theorem Flushed.tableVersions {db db' : DB} {m : MemTable} {info : SSTableInfo} (h : Flushed db m db' info)
    (hw : db.levels.Wf db.options.maxSstableLevels) (key : Key) :
    db'.tableVersions key = (m.version key).toList ++ db.tableVersions key := by
  rw [← h.version, ← tableVersions_registerTable hw, DB.tableVersions, DB.tableVersions, h.levels, h.onlyIndex.options]
  rfl

/-- A flush of the only memtable that succeeds keeps the versions when a new memtable replaces it. -/
theorem versions_flushMemTable {db : DB} (h : db.Wf) (hi : db.immutableMemtables = []) (f : FlushFaults)
    (hok : (db.flushMemTable db.memtable f).2 = .ok ()) (n : Nat) (key : Key) :
    { (db.flushMemTable db.memtable f).1 with memtable := .new n }.versions key = db.versions key := by
  have hm := h.memtables _ List.mem_cons_self
  have hnew : ∀ db' : DB, db'.immutableMemtables = [] →
      { db' with memtable := .new n }.versions key = db'.tableVersions key := by
    intro db' hi'
    have hone : ({ db' with memtable := .new n } : DB).immutableMemtables = [] := hi'
    rw [versions_single hone]
    rfl
  by_cases hc : db.memtable.count = 0
  · have he : db.flushMemTable db.memtable f = (db, .ok ()) := if_pos hc
    have hv : db.memtable.version key = none := by
      rw [MemTable.version, hm.count_eq_zero.mp hc]
      rfl
    rw [he, hnew db hi, versions_single hi, hv]
    rfl
  · have hreg : f.Registers db.memtable := by
      by_contra hn
      obtain ⟨-, -, s, hs⟩ := flushMemTable_fails db hm hc hn
      rw [hok] at hs
      cases hs
    obtain ⟨⟨info, hfl⟩, -⟩ := flushMemTable_registers db hm hc hreg
    rw [hnew _ (hfl.onlyIndex.immutableMemtables.trans hi), hfl.tableVersions h.levels, versions_single hi]

/-- Wherever a flush of the only memtable fails, its tables hold some of the versions, in the same order. -/
theorem tableVersions_flushMemTable {db : DB} (h : db.Wf) (hi : db.immutableMemtables = []) (f : FlushFaults) (key : Key) :
    ((db.flushMemTable db.memtable f).1.tableVersions key).Sublist (db.versions key) := by
  have hm := h.memtables _ List.mem_cons_self
  have hold : (db.tableVersions key).Sublist (db.versions key) := List.sublist_append_right _ _
  by_cases hc : db.memtable.count = 0
  · have he : db.flushMemTable db.memtable f = (db, .ok ()) := if_pos hc
    rw [he]
    exact hold
  · by_cases hreg : f.Registers db.memtable
    · obtain ⟨⟨info, hfl⟩, -⟩ := flushMemTable_registers db hm hc hreg
      rw [hfl.tableVersions h.levels, versions_single hi]
    · obtain ⟨hidx, hl, -⟩ := flushMemTable_fails db hm hc hreg
      rw [tableVersions, hl, hidx.options]
      exact hold

/-- A flush without faults succeeds. -/
theorem flushMemTable_ok (db : DB) {m : MemTable} (hm : m.Valid) : (db.flushMemTable m {}).2 = .ok () := by
  by_cases hc : m.count = 0
  · have he : db.flushMemTable m {} = (db, .ok ()) := if_pos hc
    rw [he]
  · exact (flushMemTable_registers db hm hc ⟨rfl, fun _ _ => rfl, rfl, rfl⟩).2 rfl

/-- **A full memtable** is flushed. -/
theorem Replaying.flush {rs done : List WALRecord} {db : DB} (h : Replaying rs done db) (f : FlushFaults)
    (hok : (db.flushMemTable db.memtable f).2 = .ok ()) (n : Nat) :
    Replaying rs done { (db.flushMemTable db.memtable f).1 with memtable := .new n } := by
  obtain ⟨levels, next, hd, -, hl, he⟩ := flushMemTable_described h.described h.memtable f
  obtain ⟨rfl, rfl⟩ := he hok
  have hi := onlyIndex_flush db db.memtable f
  refine ⟨MemTable.valid_new _, hi.immutableMemtables.trans h.immutable, ?_, fun p hp => (by cases hp),
    h.flushed_recorded hl, fun key r hr => ?_, fun r hr => ?_⟩
  · have hd' := (described_congr hd rfl rfl : Described db.options (db.flushMemTable db.memtable f).1.disk _ _)
    rw [← hi.options] at hd'
    exact hd'
  · rw [versions_flushMemTable h.wf h.immutable f hok]
    exact h.head key r hr
  · exact (h.bound r hr).trans_eq hi.sequenceNumber.symm

/-- The records of some WAL files. -/
def recordsOf (wal : Folder Bytes) (ids : List Nat) : List WALRecord := ids.flatMap (fun id => WAL.recoverFile (wal.data id))

/-- **The rule of the replay.** What holds of the records that were read and of the state, and is kept by the records of a
file and by a flush, holds behind the last file; when a file is missing or a flush fails, what is left then holds. -/
theorem replayWals_induct {I : List WALRecord → DB → Prop} {J : DB → Prop} (files : Folder Bytes) (f : OpenFaults)
    (all : List Nat) (hfiles : ∀ done db, I done db → db.wal.files = files)
    (hrec : ∀ done db, I done db → ∀ id ∈ all, id ∈ files.dir → I (done ++ WAL.recoverFile (files.data id)) { db with
      memtable := (WAL.recoverFile (files.data id)).foldl replayRecord db.memtable
      sequenceNumber := (WAL.recoverFile (files.data id)).foldl
        (fun (n : Nat) (r : WALRecord) => max n r.sequence) db.sequenceNumber })
    (hmissing : ∀ done db, I done db → ∀ id ∈ all, id ∉ files.dir → J db)
    (hflush : ∀ done db i n, I done db → (db.flushMemTable db.memtable (f.flush i)).2 = .ok () →
      I done { (db.flushMemTable db.memtable (f.flush i)).1 with memtable := .new n })
    (hfail : ∀ done db i, I done db → (db.flushMemTable db.memtable (f.flush i)).2 ≠ .ok () →
      J (db.flushMemTable db.memtable (f.flush i)).1) :
    ∀ (ids : List Nat) (i : Nat) (done : List WALRecord) (db : DB), I done db → (∀ id ∈ ids, id ∈ all) →
      match replayWals f i ids db with
      | (db', .ok ()) => I (done ++ recordsOf files ids) db'
      | (db', .error _) => J db'
  | [], i, done, db, h, _ => by
    rw [replayWals, recordsOf, List.flatMap_nil, List.append_nil]
    exact h
  | id :: ids, i, done, db, h, hall => by
    have hid := hall id List.mem_cons_self
    by_cases hd : id ∈ files.dir
    · have hread : WAL.recover db.wal.files id = .ok (WAL.recoverFile (files.data id)) := by
        rw [hfiles done db h, WAL.recover, Folder.has_iff.mpr hd]
        rfl
      have hnext := hrec done db h id hid hd
      have hrecords :
          done ++ recordsOf files (id :: ids) = done ++ WAL.recoverFile (files.data id) ++ recordsOf files ids := by
        rw [recordsOf, List.flatMap_cons, ← List.append_assoc]
        rfl
      have hids : ∀ id ∈ ids, id ∈ all := fun id' h' => hall id' (List.mem_cons_of_mem _ h')
      rw [replayWals, hread, hrecords]
      simp only
      generalize hdb : ({ db with
        memtable := (WAL.recoverFile (files.data id)).foldl replayRecord db.memtable
        sequenceNumber := (WAL.recoverFile (files.data id)).foldl
          (fun (n : Nat) (r : WALRecord) => max n r.sequence) db.sequenceNumber } : DB) = db₁ at hnext ⊢
      rw [show (WAL.recoverFile (files.data id)).foldl replayRecord db.memtable = db₁.memtable by rw [← hdb]]
      by_cases hfull : db₁.memtable.shouldFlush = true
      · rw [if_pos hfull]
        have hok := fun n => hflush _ db₁ i n hnext
        have hbad := hfail _ db₁ i hnext
        cases hx : db₁.flushMemTable db₁.memtable (f.flush i) with
        | mk db₂ r =>
          rw [hx] at hbad
          cases r with
          | error s => exact hbad fun he => by cases he
          | ok u =>
            have hkeep := hok db₂.options.memtableSizeLimit (by rw [hx])
            rw [hx] at hkeep
            exact replayWals_induct files f all hfiles hrec hmissing hflush hfail ids (i + 1) _ _ hkeep hids
      · rw [if_neg hfull]
        exact replayWals_induct files f all hfiles hrec hmissing hflush hfail ids (i + 1) _ _ hnext hids
    · have hread : ∃ s, WAL.recover db.wal.files id = .error s := by
        rw [hfiles done db h, WAL.recover, if_neg fun hh => hd (Folder.has_iff.mp hh)]
        exact ⟨_, rfl⟩
      obtain ⟨s, hread⟩ := hread
      rw [replayWals, hread]
      exact hmissing done db h id hid hd

/-- What the replay of some files leaves. -/
structure Replayed (rs : List WALRecord) (db db' : DB) (ok : Prop) : Prop where
  onlyLogs : db'.vlog = db.vlog ∧ db'.wal = db.wal ∧ db'.options = db.options ∧ db'.walId = db.walId
  files : ∃ levels next, next ≤ db'.nextSstableId ∧ Described db.options db'.disk levels next ∧ TablesRecorded rs levels
  replaying : ok → Replaying rs rs db'

/-- **The replay of the files**, wherever a flush fails. -/
theorem replayWals_spec {db : DB} {ids : List Nat} (h : Replaying (recordsOf db.wal.files ids) [] db) (f : OpenFaults)
    (hd : ∀ id ∈ ids, id ∈ db.wal.files.dir) (hf : ∀ r ∈ recordsOf db.wal.files ids, WAL.Fits r) :
    Replayed (recordsOf db.wal.files ids) db (replayWals f 0 ids db).1 ((replayWals f 0 ids db).2 = .ok ()) ∧
      ((∀ i, f.flush i = {}) → (replayWals f 0 ids db).2 = .ok ()) := by
  have hrule := replayWals_induct
    (I := fun done db' => Replaying (recordsOf db.wal.files ids) done db' ∧ db'.vlog = db.vlog ∧ db'.wal = db.wal ∧
      db'.options = db.options ∧ db'.walId = db.walId)
    (J := fun db' => (db'.vlog = db.vlog ∧ db'.wal = db.wal ∧ db'.options = db.options ∧ db'.walId = db.walId) ∧
      (∃ levels next, next ≤ db'.nextSstableId ∧ Described db.options db'.disk levels next ∧
        TablesRecorded (recordsOf db.wal.files ids) levels) ∧ ∃ i, f.flush i ≠ {}) db.wal.files f ids
    (fun done db' hI => by rw [hI.2.2.1]) ?_ (fun done db' _ id hid hno => absurd (hd id hid) hno) ?_ ?_ ids 0 [] db
    ⟨h, rfl, rfl, rfl, rfl⟩ fun id hid => hid
  · generalize replayWals f 0 ids db = x at hrule ⊢
    obtain ⟨db', r⟩ := x
    cases r with
    | error s =>
      obtain ⟨hlogs, htables, i, hi⟩ := hrule
      exact ⟨⟨hlogs, htables, fun he => by cases he⟩, fun hn => absurd (hn i) hi⟩
    | ok u =>
      obtain ⟨hI, hlogs⟩ := hrule
      rw [List.nil_append] at hI
      exact ⟨⟨hlogs, ⟨_, _, Nat.le_refl _, hlogs.2.2.1 ▸ hI.described, hI.tables⟩, fun _ => hI⟩, fun _ => rfl⟩
  · rintro done db' ⟨hI, hlogs⟩ id hid -
    have hnew : ∀ r ∈ WAL.recoverFile (db.wal.files.data id), r ∈ recordsOf db.wal.files ids :=
      fun r hr => List.mem_flatMap.mpr ⟨id, hid, hr⟩
    exact ⟨hI.records _ done db' fun r hr => ⟨hnew r hr, hf r (hnew r hr)⟩, hlogs⟩
  · rintro done db' i n ⟨hI, hv, hw, ho, hid⟩ hok
    have hi := onlyIndex_flush db' db'.memtable (f.flush i)
    exact ⟨hI.flush (f.flush i) hok n, hi.vlog.trans hv, hi.wal.trans hw, hi.options.trans ho, hi.walId.trans hid⟩
  · rintro done db' i ⟨hI, hv, hw, ho, hid⟩ hfails
    have hi := onlyIndex_flush db' db'.memtable (f.flush i)
    obtain ⟨levels, next, hdesc, hle, hlv, -⟩ := flushMemTable_described hI.described hI.memtable (f.flush i)
    exact ⟨⟨hi.vlog.trans hv, hi.wal.trans hw, hi.options.trans ho, hi.walId.trans hid⟩,
      ⟨levels, next, hle, ho ▸ hdesc, hI.flushed_recorded hlv⟩, i, fun hn => hfails (hn ▸ flushMemTable_ok db' hI.memtable)⟩

end DB

end SplitKV
