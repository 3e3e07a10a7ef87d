import SplitKV.PowerLoss.Layers
import SplitKV.PowerLoss.Reads
import SplitKV.PowerLoss.Sequence

/-!
# Newest versions and power losses

An opening replays every WAL record that is left on top of the tables, whatever their sequence numbers are. A lookup then
selects a version at least as new as those of the tables exactly when the last record of every key is
(`Machine.recovers_newest_iff`). When a WAL file has lost its last records, an older one hides the version that was flushed
(`Machine.older_record_wins`).
-/

namespace SplitKV

open Versions

/-- The key can be written to a manifest. -/
def Named (key : Key) (_ : InternalEntry) : Prop := Token key

/-- The numbers of entries of the table files fit their counters. -/
def Counted (sst : Folder (Option SSTableFile)) : Prop :=
  ∀ id ∈ sst.dir, ∀ file, sst.data id = some file → file.entries.length < 2 ^ 64

/-- The tables on disk are listable. -/
theorem Described.listable_files {o : Options} {d : Disk} {levels : Levels} {next : Nat} (h : Described o d levels next)
    (hn : AllFiles Named d.sst) (hc : Counted d.sst) : Listable levels := by
  refine ⟨fun l info hi p hp => ?_, fun l info hi => ?_⟩
  · obtain ⟨file, hd, hf, hr, -⟩ := (h.onDisk l info hi).file
    rw [hr] at hp
    exact hn _ hd file hf p hp
  · obtain ⟨file, hd, hf, hr, -⟩ := (h.onDisk l info hi).file
    rw [hr]
    exact hc _ hd file hf

/-- The versions of a key in the tables are in the order of their sequence numbers, unless a durable record of the key will
be replayed on top of them. -/
def Layers (wal : Folder Bytes) (vs : Key → List InternalEntry) : Prop :=
  ∀ key, WAL.Durable wal key ∨ Descending InternalEntry.sequence (vs key)

theorem Layers.mono {wal wal' : Folder Bytes} {vs vs' : Key → List InternalEntry} (h : Layers wal vs)
    (hl : WAL.Lasts wal wal') (ht : WAL.Logs wal')
    (hd : ∀ key, Descending InternalEntry.sequence (vs key) → Descending InternalEntry.sequence (vs' key)) :
    Layers wal' vs' := fun key => (h key).imp (fun hk => hk.mono hl ht) (hd key)

theorem Layers.sublist {wal : Folder Bytes} {vs vs' : Key → List InternalEntry} (h : Layers wal vs)
    (hs : ∀ key, (vs' key).Sublist (vs key)) : Layers wal vs' := fun key =>
  (h key).imp_right fun hd => List.Pairwise.sublist (hs key) hd

/-- The bounds of the counters. -/
structure DB.InRange (db : DB) : Prop extends db.Small where
  counted : Counted db.sst

/-- What is known of the files of a machine that is off. -/
structure Disk.Layered (d : Disk) : Prop where
  logs : WAL.Logs d.wal
  ordered : (WAL.log d.wal).Pairwise (fun a b => a.sequence < b.sequence)
  walIds : ∀ id ∈ d.wal.dir, id < 100000
  vlogIds : ∀ id ∈ d.vlog.dir, 1 ≤ id ∧ id < 100000
  files : AllFiles Named d.sst
  wal : AllLogged Named d.wal
  counted : Counted d.sst
  tables : ∃ (o : Options) (vs : Key → List InternalEntry), o.maxSstableLevels < 2 ^ 31 ∧ DB.Below o d 100000 vs ∧
    Layers d.wal vs

/-- **A power loss.** -/
theorem Disk.Layered.lose {d : Disk} (h : d.Layered) (loss : Loss) :
    (d.lose loss).Layered ∧ WAL.AllSynced (d.lose loss).wal := by
  obtain ⟨h₁, h₂, h₃, h₄⟩ := h.logs.lose loss.wal
  obtain ⟨o, vs, hl, ⟨levels, next, hn, hd, hs⟩, hlay⟩ := h.tables
  refine ⟨⟨h₁, h.ordered.sublist h₄, h.walIds, h.vlogIds, h.files, h.wal.lose loss.wal, h.counted, o, vs, hl,
    ⟨levels, next, hn, DB.described_congr hd rfl rfl, hs⟩, hlay.mono h₃ h₁ fun _ hk => hk⟩, h₂⟩

/-- What is known of an open database, also when its logs are damaged. -/
structure DB.Arranged (db : DB) : Prop where
  wf : db.Wf
  described : Described db.options db.disk db.levels db.nextSstableId
  logs : WAL.Logs db.wal.files
  ordered : (WAL.log db.wal.files).Pairwise (fun a b => a.sequence < b.sequence)
  bound : ∀ r ∈ WAL.log db.wal.files, r.sequence < db.sequenceNumber
  walId : ∀ id ∈ db.wal.files.dir, id ≤ db.walId
  tidy : db.vlog.Tidy
  traced : db.Traced Named
  layers : Layers db.wal.files db.versions
  levels : db.options.maxSstableLevels < 2 ^ 31
  limit : db.options.vlogFileSizeLimit < 2 ^ 64

/-- The logs are open. -/
structure DB.Layered (db : DB) : Prop extends db.Arranged where
  active : db.wal.Active
  writable : db.Writable

/-- The files of an open database. -/
theorem DB.Arranged.off {db : DB} (h : db.Arranged) (hr : db.InRange) : db.disk.Layered :=
  ⟨h.logs, h.ordered, hr.wal, fun id hid => ⟨h.tidy.pos id hid, hr.vlog id hid⟩, h.traced.files, h.traced.wal, hr.counted,
    db.options, db.versions, h.levels, ⟨db.levels, db.nextSstableId, hr.sst, h.described, DB.tableVersions_sublist db⟩,
    h.layers⟩

namespace DB

/-! ## Writes -/

/-- What one entry does to the versions. -/
structure AddsVersion (db db' : DB) (key : Key) : Prop where
  memtable : db'.memtable.Valid
  sequence : db'.sequenceNumber = db.sequenceNumber + 1
  others : ∀ k, k ≠ key → db'.versions k = db.versions k
  self : db'.versions key = db.versions key ∨
    ∃ e rest, e.sequence = db.sequenceNumber ∧ db'.versions key = e :: rest ∧ rest.Sublist (db.versions key)

theorem writeEntry_adds {db : DB} (hm : db.memtable.Valid) (e : BatchEntry) (fv : AppendFault) (fw : Option Nat) :
    AddsVersion db (db.writeEntry e fv fw).1 e.key := by
  have hsame : ∀ (vlog : VLog) (wal : WAL), AddsVersion db
      { db with vlog := vlog, wal := wal, sequenceNumber := db.sequenceNumber + 1 } e.key :=
    fun vlog wal => ⟨hm, rfl, fun _ _ => rfl, Or.inl rfl⟩
  have hadd : ∀ (vlog : VLog) (wal : WAL) (x : InternalEntry), x.sequence = db.sequenceNumber →
      AddsVersion db (DB.addVersion { db with vlog := vlog, wal := wal } e.key x) e.key := by
    intro vlog wal x hx
    have hv : ∀ k, (DB.addVersion { db with vlog := vlog, wal := wal } e.key x).versions k =
        (db.addEntry e.key x).versions k := fun _ => rfl
    refine ⟨MemTable.valid_add hm _ _, rfl, fun k hk => ?_, Or.inr ?_⟩
    · rw [hv, versions_addEntry_of_ne db hk]
    · obtain ⟨rest, he, hs⟩ := versions_addEntry_self hm e.key x
      exact ⟨x, rest, hx, (hv e.key).trans he, hs⟩
  unfold DB.writeEntry
  cases e with
  | put key value =>
    simp only
    split
    · exact hsame _ db.wal
    · split
      · exact hsame _ _
      · exact hadd _ _ ⟨_, db.sequenceNumber, .value⟩ rfl
  | delete key =>
    simp only
    split
    · exact hsame db.vlog _
    · exact hadd db.vlog _ ⟨⟨0, 0, 0⟩, db.sequenceNumber, .deletion⟩ rfl

/-- **The order of the versions of a key** is kept by a batch, when those of the keys it writes have smaller sequence
numbers. -/
theorem descending_writeEntries (f : WriteFaults) (key : Key) : ∀ (batch : WriteBatch) (i : Nat) (db : DB),
    db.memtable.Valid → Descending InternalEntry.sequence (db.versions key) →
    (∀ e ∈ batch, e.key = key → ∀ v ∈ db.versions key, v.sequence < db.sequenceNumber) →
    Descending InternalEntry.sequence ((DB.writeEntries f i batch db).1.versions key)
  | [], _, _, _, hd, _ => hd
  | e :: batch, i, db, hm, hd, hnew => by
    have hone := writeEntry_adds hm e (f.vlog i) (f.wal i)
    have hstep : Descending InternalEntry.sequence ((db.writeEntry e (f.vlog i) (f.wal i)).1.versions key) ∧
        (∀ a ∈ batch, a.key = key → ∀ v ∈ (db.writeEntry e (f.vlog i) (f.wal i)).1.versions key,
          v.sequence < (db.writeEntry e (f.vlog i) (f.wal i)).1.sequenceNumber) := by
      rw [hone.sequence]
      by_cases hk : e.key = key
      · have hlt := hnew e List.mem_cons_self hk
        rw [← hk]
        rw [← hk] at hlt hd
        rcases hone.self with he | ⟨x, rest, hx, he, hs⟩
        · rw [he]
          exact ⟨hd, fun _ _ _ v hv => Nat.lt_succ_of_lt (hlt v hv)⟩
        · rw [he]
          have hrest : ∀ v ∈ rest, v.sequence < x.sequence := fun v hv => hx ▸ hlt v (hs.subset hv)
          refine ⟨List.pairwise_cons.mpr ⟨fun v hv => (hrest v hv).le, List.Pairwise.sublist hs hd⟩, fun _ _ _ v hv => ?_⟩
          rcases List.mem_cons.mp hv with rfl | hv
          · omega
          · have := hrest v hv
            omega
      · rw [hone.others key (Ne.symm hk)]
        exact ⟨hd, fun a ha hka v hv => Nat.lt_succ_of_lt (hnew a (List.mem_cons_of_mem _ ha) hka v hv)⟩
    have hmem := hone.memtable
    rw [DB.writeEntries]
    generalize db.writeEntry e (f.vlog i) (f.wal i) = x at hstep hmem
    obtain ⟨db₁, r⟩ := x
    cases r with
    | error s => exact hstep.1
    | ok u => exact descending_writeEntries f key batch (i + 1) db₁ hmem hstep.1 hstep.2

/-- **The entries of a batch**, wherever their records stop. -/
theorem Layered.writeEntries {db : DB} (h : db.Layered) {batch : WriteBatch} (ht : ∀ e ∈ batch, Token e.key)
    (hnew : ∀ e ∈ batch, ∀ v ∈ db.versions e.key, v.sequence < db.sequenceNumber) {f : WriteFaults}
    {new : List WALRecord} {ok : Prop} (hs : Writes db (DB.writeEntries f 0 batch db).1 batch new ok) :
    (DB.writeEntries f 0 batch db).1.Arranged ∧ (ok → (DB.writeEntries f 0 batch db).1.Layered) := by
  have hwf := (writeEntries_logSteps f batch 0 db).wf h.wf
  have hvers := fun key hd => descending_writeEntries f key batch 0 db (h.wf.memtables _ List.mem_cons_self) hd
    fun e he hk v hv => hnew e he v (hk ▸ hv)
  obtain ⟨hlogs, hlog, hact⟩ := hs.wal.logs h.active h.logs
  have hname : ∀ r ∈ new, Named r.key r.entry := by
    intro r hr
    obtain ⟨e, he, hk⟩ := (hs.records.of r hr).key_mem
    exact hk ▸ ht e he
  have htraced := h.traced.writes h.writable hs hname
  generalize (DB.writeEntries f 0 batch db).1 = db' at hs hwf hvers hlogs hlog hact htraced
  have hdesc : Described db'.options db'.disk db'.levels db'.nextSstableId := by
    have hd := h.described
    rw [hs.same]
    exact described_congr hd rfl rfl
  have harr : db'.Arranged := by
    refine ⟨hwf, hdesc, hlogs, ?_, fun r hr => ?_, fun id hid => ?_, hs.tidy, htraced, h.layers.mono hs.wal.lasts hlogs hvers,
      ?_, ?_⟩
    · rw [hlog, List.pairwise_append]
      exact ⟨h.ordered, hs.records.ordered, fun a ha b hb => (h.bound a ha).trans_le (hs.records.range b hb).1⟩
    · rw [hlog] at hr
      rcases List.mem_append.mp hr with hr | hr
      · exact (h.bound r hr).trans_le hs.sequence
      · exact (hs.records.range r hr).2
    · rw [hs.wal.dir] at hid
      rw [hs.same]
      exact h.walId id hid
    · rw [hs.same]
      exact h.levels
    · rw [hs.same]
      exact h.limit
  exact ⟨harr, fun hok => ⟨harr, hact hok, (hs.imp fun _ => hok).writable h.writable⟩⟩

theorem Arranged.syncLogs {db : DB} (h : db.Arranged) : db.syncLogs.Arranged := by
  obtain ⟨h₁, h₂, -⟩ := WAL.sync_files db.wal
  have hlogs : WAL.Logs db.syncLogs.wal.files := h.logs.congr h₁ h₂
  have hlog : WAL.log db.syncLogs.wal.files = WAL.log db.wal.files := WAL.log_congr h₁ h₂
  refine ⟨⟨h.wf.memtables, h.wf.levels, h.wf.ids⟩, described_congr h.described rfl rfl, hlogs, ?_, fun r hr => ?_,
    fun id hid => h.walId id (h₂ ▸ hid), tidy_sync h.tidy, h.traced.syncLogs,
    h.layers.mono (WAL.lasts_sync db.wal) hlogs fun _ hd => hd, h.levels, h.limit⟩
  · rw [hlog]
    exact h.ordered
  · exact h.bound r (hlog ▸ hr)

theorem Layered.syncLogs {db : DB} (h : db.Layered) : db.syncLogs.Layered :=
  ⟨h.toArranged.syncLogs, h.active.sync, h.writable.syncLogs⟩

/-- A WAL is created, or this fails. -/
theorem create_logs {w : WAL} (hl : WAL.Logs w.files) {id : Nat} (hid : ∀ i ∈ w.files.dir, i < id) (fault : CreateFault) :
    WAL.Logs (w.create id fault).1.files ∧ WAL.log (w.create id fault).1.files = WAL.log w.files ∧
      WAL.Lasts w.files (w.create id fault).1.files ∧ (∀ i ∈ (w.create id fault).1.files.dir, i ≤ id) ∧
      (WAL.AllSynced w.files → WAL.AllSynced (w.create id fault).1.files) := by
  obtain ⟨h₁, h₂, h₃⟩ := hl.create hid
  have hold : ∀ i ∈ w.files.dir, i ≤ id := fun i hi => (hid i hi).le
  unfold WAL.create
  split
  · exact ⟨hl, rfl, WAL.Lasts.refl _, hold, fun hs => hs⟩
  · split
    · exact ⟨hl, rfl, WAL.Lasts.refl _, hold, fun hs => hs⟩
    · refine ⟨h₁, h₂, WAL.lasts_create hid, fun i hi => ?_, fun hs i hi => ?_⟩
      · rcases Folder.mem_dir_create.mp hi with rfl | hi
        · exact Nat.le_refl _
        · exact hold i hi
      · by_cases hc : i = id
        · rw [hc, Folder.data_create_self]
          exact Nat.zero_le _
        · have hsync : (w.files.create id []).synced i = w.files.synced i := setAt_of_ne _ hc _
          rw [Folder.data_create_of_ne _ hc, hsync]
          exact hs i ((Folder.mem_dir_create.mp hi).resolve_left hc)

/-- The rotation of the memtable and of the WAL, wherever it fails. -/
theorem Arranged.maybeScheduleFlush {db : DB} (h : db.Arranged) (fault : CreateFault) :
    (db.maybeScheduleFlush fault).1.Arranged := by
  have hwf := (maybeScheduleFlush_logSteps db fault).wf h.wf
  have htraced := h.traced.maybeScheduleFlush fault
  unfold DB.maybeScheduleFlush at hwf htraced ⊢
  split
  · rename_i hfull
    rw [if_pos hfull] at hwf htraced
    obtain ⟨h₁, h₂, h₃, h₄, -⟩ := create_logs h.logs (fun id hid => Nat.lt_succ_of_le (h.walId id hid)) fault
    refine ⟨hwf, described_congr h.described rfl rfl, h₁, ?_, fun r hr => ?_, h₄, h.tidy, htraced,
      h.layers.mono h₃ h₁ fun key hd => ?_, h.levels, h.limit⟩
    · simp only [h₂]
      exact h.ordered
    · simp only [h₂] at hr
      exact h.bound r hr
    · have hv := versions_rotate db key
      rw [← hv] at hd
      exact hd
  · exact h

theorem Layered.maybeScheduleFlush {db : DB} (h : db.Layered) : (db.maybeScheduleFlush .none).1.Layered := by
  have harr := h.toArranged.maybeScheduleFlush .none
  have hact := h.logs.create_active fun id hid => Nat.lt_succ_of_le (h.walId id hid)
  unfold DB.maybeScheduleFlush at harr ⊢
  split
  · rename_i hfull
    rw [if_pos hfull] at harr
    exact ⟨harr, hact, h.writable.tidy, h.writable.ready, hact.writer, hact.whole⟩
  · exact h

/-- **A write**, wherever it stops. -/
theorem Layered.write {db : DB} (h : db.Layered) (sync : Bool) {batch : WriteBatch} (hf : ∀ e ∈ batch, e.Fits)
    (ht : ∀ e ∈ batch, Token e.key)
    (hnew : ∀ e ∈ batch, ∀ v ∈ db.versions e.key, v.sequence < db.sequenceNumber) (f : WriteFaults)
    (hr : (db.write sync batch f).1.InRange) : (db.write sync batch f).1.Arranged ∧ (f = {} → (db.write sync batch f).1.Layered) := by
  have hb := Bounded.writeEntries hr.toSmall.bounded
  obtain ⟨new, hs⟩ := writeEntries_writes f batch 0 db h.writable hf h.limit hb
  obtain ⟨h₁, h₂⟩ := h.writeEntries ht hnew hs
  have hok : f = {} → (DB.writeEntries f 0 batch db).2 = .ok () := by
    rintro rfl
    exact writeEntries_ok batch 0 db h.writable hf h.limit hb
  unfold DB.write
  generalize DB.writeEntries f 0 batch db = x at h₁ h₂ hok ⊢
  obtain ⟨db₁, r⟩ := x
  cases r with
  | error s => exact ⟨h₁, fun hnone => (by cases hok hnone)⟩
  | ok u =>
    have hsync : (if sync then db₁.syncLogs else db₁).Layered := by
      split
      · exact (h₂ rfl).syncLogs
      · exact h₂ rfl
    refine ⟨hsync.toArranged.maybeScheduleFlush f.create, ?_⟩
    rintro rfl
    exact hsync.maybeScheduleFlush

/-! ## Flushes and compactions -/

/-- Another index over the same logs. -/
theorem Layered.of_index {db db' : DB} (h : db.Layered) (hv : db'.vlog = db.vlog) (hw : db'.wal = db.wal)
    (hid : db'.walId = db.walId) (ho : db'.options = db.options) (hs : db'.sequenceNumber = db.sequenceNumber)
    (hwf : db'.Wf) (hd : Described db'.options db'.disk db'.levels db'.nextSstableId) (ht : db'.Traced Named)
    (hvers : ∀ key, (db'.versions key).Sublist (db.versions key)) : db'.Layered := by
  refine ⟨⟨hwf, hd, ?_, ?_, ?_, ?_, ?_, ht, ?_, ?_, ?_⟩, ?_, ⟨?_, ?_, ?_, ?_⟩⟩
  · exact hw.symm ▸ h.logs
  · exact hw.symm ▸ h.ordered
  · rw [hw, hs]
    exact h.bound
  · rw [hw, hid]
    exact h.walId
  · exact hv.symm ▸ h.tidy
  · rw [hw]
    exact h.layers.sublist hvers
  · exact ho.symm ▸ h.levels
  · exact ho.symm ▸ h.limit
  · exact hw.symm ▸ h.active
  · exact hv.symm ▸ h.writable.tidy
  · exact hv.symm ▸ h.writable.ready
  · exact hw.symm ▸ h.writable.writer
  · exact hw.symm ▸ h.writable.whole

/-- The files of a state with other tables. -/
theorem Layered.off_index {db db' : DB} (h : db.Layered) (hv : db'.vlog = db.vlog) (hw : db'.wal = db.wal)
    (ht : db'.Traced Named) (hb : Below db.options db'.disk db'.nextSstableId db.versions) (hr : db'.InRange) :
    db'.disk.Layered := by
  obtain ⟨levels, next, hn, hd, hs⟩ := hb
  refine ⟨?_, ?_, hr.wal, fun id hid => ⟨?_, hr.vlog id hid⟩, ht.files, ht.wal, hr.counted, db.options, db.versions,
    h.levels, ⟨levels, next, hn.trans hr.sst, hd, hs⟩, ?_⟩
  · show WAL.Logs db'.wal.files
    exact hw.symm ▸ h.logs
  · show (WAL.log db'.wal.files).Pairwise _
    exact hw.symm ▸ h.ordered
  · have htidy : db'.vlog.Tidy := hv.symm ▸ h.tidy
    exact htidy.pos id hid
  · show Layers db'.wal.files _
    exact hw.symm ▸ h.layers

theorem flushFront_logs (db : DB) (f : FlushFaults) : (db.flushFront f).vlog = db.vlog ∧ (db.flushFront f).wal = db.wal ∧
    (db.flushFront f).walId = db.walId ∧ (db.flushFront f).options = db.options ∧
    (db.flushFront f).sequenceNumber = db.sequenceNumber := by
  unfold DB.flushFront
  split
  · exact ⟨rfl, rfl, rfl, rfl, rfl⟩
  · rename_i m _ _
    have hi := onlyIndex_flush db m f
    exact ⟨hi.vlog, hi.wal, hi.walId, hi.options, hi.sequenceNumber⟩

/-- **A flush**, wherever it fails. -/
theorem Layered.flushFront {db : DB} (h : db.Layered) (f : FlushFaults) :
    ((db.flushFront f).InRange → (db.flushFront f).disk.Layered) ∧ (f = {} → (db.flushFront f).Layered) := by
  obtain ⟨h₁, h₂, h₃, h₄, h₅⟩ := flushFront_logs db f
  have ht := h.traced.flushFront f
  have hvers := versions_flushFront_sublist h.wf f
  refine ⟨fun hr => h.off_index h₁ h₂ ht (flushFront_layers h.wf h.described f) hr, ?_⟩
  rintro rfl
  cases hq : db.immutableMemtables with
  | nil =>
    have he : db.flushFront {} = db := by rw [DB.flushFront, hq]
    rw [he]
    exact h
  | cons m ms =>
    have hm : m.Valid := by
      refine h.wf.memtables m (List.mem_cons_of_mem _ (List.mem_reverse.mpr ?_))
      rw [hq]
      exact List.mem_cons_self
    obtain ⟨hwf, hi, -⟩ := flushFront_cases h.wf {} hq
    obtain ⟨levels, next, hd, -, -, hok⟩ := flushMemTable_describes h.described hm {}
    obtain ⟨rfl, rfl⟩ := hok (flushMemTable_ok db hm)
    have he : db.flushFront {} = (db.flushMemTable m {}).1.popFront := by rw [DB.flushFront, hq]
    refine h.of_index h₁ h₂ h₃ h₄ h₅ hwf ?_ ht hvers
    rw [h₄, he]
    exact described_congr hd rfl rfl

/-- **A compaction**, wherever it fails. -/
theorem Layered.compactLevel {db : DB} (h : db.Layered) (lvl : Int) (f : CompactFaults) :
    ((db.compactLevel lvl f).1.InRange → (db.compactLevel lvl f).1.disk.Layered) ∧
      (f = .none → (db.compactLevel lvl f).1.Layered) := by
  have hi := onlyIndex_compact db lvl f
  have ht := h.traced.compactLevel lvl f
  obtain ⟨hwf, hvers⟩ := compactLevel_sublist h.wf lvl f
  refine ⟨fun hr => h.off_index hi.vlog hi.wal ht (compactLevel_layers h.wf h.described lvl f) hr, ?_⟩
  rintro rfl
  refine h.of_index hi.vlog hi.wal hi.walId hi.options hi.sequenceNumber hwf ?_ ht hvers
  rw [hi.options]
  unfold DB.compactLevel
  split
  · exact h.described
  · have hlt : lvl.toNat + 1 < db.options.maxSstableLevels := by omega
    obtain ⟨levels, next, hd, -, -, hok⟩ := compactTables_describes h.described hlt .none
    obtain ⟨rfl, rfl⟩ := hok ((compactTables_spec h.wf.levels h.wf.ids hlt .none).2.2 rfl).1
    exact hd

/-! ## Openings -/

/-- The entries of the tables, as records. -/
def tableRecords (levels : Levels) (maxLevels : Nat) : List WALRecord :=
  (List.range maxLevels).flatMap fun l => (levels l).flatMap fun info =>
    info.reader.entries.map fun p => ⟨p.2.type, p.2.sequence, p.1, p.2.vlogPtr⟩

/-- The state before the replay. -/
theorem replaying_tables {o : Options} {d : Disk} {levels : Levels} {next : Nat} (hd : Described o d levels next)
    (rs : List WALRecord) :
    Replaying (tableRecords levels o.maxSstableLevels ++ rs) [] (openState o d next levels) := by
  refine ⟨MemTable.valid_new _, rfl, described_congr hd rfl rfl, fun p hp => (by cases hp), fun l info hi p hp => ?_,
    fun key r hr => (by cases hr), fun r hr => (by cases hr)⟩
  have hlt : l < o.maxSstableLevels := by
    by_contra hge
    have hi' : info ∈ levels l := hi
    rw [hd.wf.empty l (not_lt.mp hge)] at hi'
    cases hi'
  refine ⟨⟨p.2.type, p.2.sequence, p.1, p.2.vlogPtr⟩, List.mem_append_left _ ?_, rfl, rfl⟩
  exact List.mem_flatMap.mpr ⟨l, List.mem_range.mpr hlt, List.mem_flatMap.mpr ⟨info, hi, List.mem_map.mpr ⟨p, hp, rfl⟩⟩⟩

/-- What the replay of an opening leaves of the tables and of the versions. -/
structure Relayered (o : Options) (d : Disk) (db : DB) (ok : Prop) : Prop where
  below : ∃ vs, Below o db.disk db.nextSstableId vs ∧ Layers d.wal vs
  wal : db.wal = { files := d.wal }
  wf : ok → db.Wf
  described : ok → Described db.options db.disk db.levels db.nextSstableId
  bound : ok → ∀ r ∈ WAL.log d.wal, r.sequence ≤ db.sequenceNumber
  head : ok → ∀ key r, WAL.lastRecord (WAL.log d.wal) key = some r → (db.versions key).head? = some r.entry
  rest : ok → ∀ key, (∀ r ∈ WAL.log d.wal, r.key ≠ key) → Descending InternalEntry.sequence (db.versions key)

theorem Relayered.layers {o : Options} {d : Disk} {db : DB} {ok : Prop} (h : Relayered o d db ok) (hok : ok)
    (hs : WAL.AllSynced d.wal) : Layers d.wal db.versions := by
  intro key
  by_cases hk : ∃ r ∈ WAL.log d.wal, r.key = key
  · obtain ⟨r, hr, rfl⟩ := hk
    exact Or.inl (hs.durable hr)
  · exact Or.inr (h.rest hok key fun r hr he => hk ⟨r, hr, he⟩)

/-- **The replay of an opening**, wherever it fails. -/
theorem replayWals_relayered {o : Options} {d : Disk} (h : d.Layered) (hs : WAL.AllSynced d.wal) {levels : Levels} {next : Nat}
    (hd : Described o d levels next)
    (hlay : ∀ key, (∀ r ∈ WAL.log d.wal, r.key ≠ key) →
      Descending InternalEntry.sequence (levels.versions o.maxSstableLevels key)) (f : OpenFaults) :
    Relayered o d (replayWals f 0 (walIds d.wal) (openState o d next levels)).1
      ((replayWals f 0 (walIds d.wal) (openState o d next levels)).2 = .ok ()) := by
  have hids := walIds_eq h.logs.sorted h.walIds
  have hstart := replaying_tables hd (WAL.log d.wal)
  have hmem : ∀ r, r ∈ WAL.log d.wal ↔ ∃ id ∈ d.wal.dir, r ∈ WAL.recoverFile (d.wal.data id) := fun r => List.mem_flatMap
  obtain ⟨⟨vs, hb, hvs⟩, hok, -⟩ := replayWals_layers hstart f (fun id hid => hids ▸ hid)
    (fun id hid r hr => ⟨List.mem_append_right _ ((hmem r).mpr ⟨id, hid, hr⟩), h.logs.fits ((hmem r).mpr ⟨id, hid, hr⟩)⟩) hmem
  obtain ⟨hrep, -, -⟩ := replayWals_holding f (walIds d.wal) 0 (openState o d next levels)
  have hstate : ∀ key, (openState o d next levels).versions key = levels.versions o.maxSstableLevels key := fun _ => rfl
  have hlog : recordsOf d.wal (walIds d.wal) = WAL.log d.wal := by rw [hids]; rfl
  rw [show recordsOf (openState o d next levels).wal.files (walIds d.wal) = WAL.log d.wal from hlog] at hok
  refine ⟨⟨vs, hb, fun key => ?_⟩, hrep.wal, fun he => (hok he).toReplaying.wf, fun he => (hok he).described,
    fun he => (hok he).bound, fun he => (hok he).head, fun he key hk => ?_⟩
  · by_cases hk : ∃ r ∈ WAL.log d.wal, r.key = key
    · obtain ⟨r, hr, rfl⟩ := hk
      exact Or.inl (hs.durable hr)
    · have hne : ∀ r ∈ WAL.log d.wal, r.key ≠ key := fun r hr he => hk ⟨r, hr, he⟩
      rw [hvs key hne, hstate]
      exact Or.inr (hlay key hne)
  · rw [(hok he).untouched key hk, hstate]
    exact hlay key hk

/-- A WAL that is created without a fault is active. -/
theorem active_of_create {w : WAL} (hl : WAL.Logs w.files) {id : Nat} (hid : ∀ i ∈ w.files.dir, i < id)
    {fault : CreateFault} (hok : (w.create id fault).2 = .ok ()) : (w.create id fault).1.Active := by
  have hact := hl.create_active hid
  rw [WAL.create_none] at hact
  unfold WAL.create at hok ⊢
  split at hok
  · cases hok
  · split at hok
    · cases hok
    · rename_i h₁ h₂
      rw [if_neg h₁, if_neg h₂]
      exact hact

/-- What an opening leaves of the WAL and of the tables. -/
structure Reopened (o : Options) (d : Disk) (db : DB) (ok : Prop) : Prop where
  logs : WAL.Logs db.wal.files
  log : WAL.log db.wal.files = WAL.log d.wal
  synced : WAL.AllSynced db.wal.files
  lasts : WAL.Lasts d.wal db.wal.files
  tables : db.nextSstableId ≤ 100000 → ∃ (o' : Options) (vs : Key → List InternalEntry), o'.maxSstableLevels < 2 ^ 31 ∧
    Below o' db.disk 100000 vs ∧ Layers d.wal vs
  wf : ok → db.Wf
  described : ok → Described db.options db.disk db.levels db.nextSstableId
  bound : ok → ∀ r ∈ WAL.log d.wal, r.sequence < db.sequenceNumber
  walId : ok → ∀ id ∈ db.wal.files.dir, id ≤ db.walId
  active : ok → db.wal.Active
  head : ok → ∀ key r, WAL.lastRecord (WAL.log d.wal) key = some r → (db.versions key).head? = some r.entry
  rest : ok → ∀ key, (∀ r ∈ WAL.log d.wal, r.key ≠ key) → Descending InternalEntry.sequence (db.versions key)

/-- **An opening**, wherever it fails, and with whichever options. -/
theorem openDB_reopened {o : Options} {d : Disk} (h : d.Layered) (hs : WAL.AllSynced d.wal)
    (hpos : 1 ≤ o.maxSstableLevels) (hl : o.maxSstableLevels < 2 ^ 31) (f : OpenFaults) :
    Reopened o d (openDB o d f).1 ((openDB o d f).2 = .ok ()) := by
  obtain ⟨o₀, vs, hl₀, ⟨levels, next, hn, hd, hsub⟩, hlay⟩ := h.tables
  -- an opening that fails before the replay
  have hearly : ∀ (db : DB) (st : Status), db.wal.files = d.wal → db.sst = d.sst → db.manifest = d.manifest →
      Reopened o d db ((.error st : Except Status Unit) = .ok ()) := by
    intro db st hw hsst hm
    refine ⟨hw.symm ▸ h.logs, by rw [hw], hw.symm ▸ hs, hw.symm ▸ WAL.Lasts.refl _, fun _ => ?_, (by intro he; cases he),
      (by intro he; cases he), (by intro he; cases he), (by intro he; cases he), (by intro he; cases he),
      (by intro he; cases he), (by intro he; cases he)⟩
    exact ⟨o₀, vs, hl₀, ⟨levels, next, hn, described_congr hd hsst hm, hsub⟩, hlay⟩
  unfold openDB
  split
  · exact hearly _ _ rfl rfl rfl
  split
  · exact hearly _ _ rfl rfl rfl
  rename_i next' levels' hload
  obtain ⟨rfl, rfl, hd', hvers⟩ := hd.retarget (by omega) hl₀ hpos (hd.listable_files h.files h.counted) hload
  have hrel := replayWals_relayered h hs hd' (fun key hk => by
    rw [hvers key]
    refine List.Pairwise.sublist (hsub key) ((hlay key).resolve_left fun hdur => ?_)
    obtain ⟨r, hr, he⟩ := hdur.mem_log h.logs
    exact hk r hr he) f
  have hids := walIds_eq h.logs.sorted h.walIds
  cases hx : replayWals f 0 (walIds d.wal) (openState o d next' levels') with
  | mk db r =>
    rw [hx] at hrel
    have htables : ∀ db' : DB, db'.sst = db.sst → db'.manifest = db.manifest → db.nextSstableId ≤ 100000 →
        ∃ (o' : Options) (vs : Key → List InternalEntry), o'.maxSstableLevels < 2 ^ 31 ∧ Below o' db'.disk 100000 vs ∧
          Layers d.wal vs := by
      intro db' hsst hm hle
      obtain ⟨vs', ⟨levels'', next'', hn'', hd'', hsub''⟩, hlay'⟩ := hrel.below
      exact ⟨o, vs', hl, ⟨levels'', next'', hn''.trans hle, described_congr hd'' hsst hm, hsub''⟩, hlay'⟩
    cases r with
    | error st =>
      have he : (openState o d next' levels').recoverFromWAL f = (db, .error st) := by
        rw [recoverFromWAL]
        rw [show (openState o d next' levels').wal.files = d.wal from rfl, hx]
      rw [he]
      have hw : db.wal.files = d.wal := congrArg WAL.files hrel.wal
      exact ⟨hw.symm ▸ h.logs, by rw [hw], hw.symm ▸ hs, hw.symm ▸ WAL.Lasts.refl _, htables db rfl rfl,
        (by intro he; cases he), (by intro he; cases he), (by intro he; cases he), (by intro he; cases he),
        (by intro he; cases he), (by intro he; cases he), (by intro he; cases he)⟩
    | ok u =>
      have hsorted : (walIds (openState o d next' levels').wal.files).Pairwise (· < ·) := by
        rw [show (openState o d next' levels').wal.files = d.wal from rfl, hids]
        exact h.logs.sorted
      obtain ⟨walId, hid, he⟩ := recoverFromWAL_ok hsorted hx
      rw [show (openState o d next' levels').wal.files = d.wal from rfl, hids] at hid
      rw [he]
      have hw : db.wal.files = d.wal := congrArg WAL.files hrel.wal
      have hwl : WAL.Logs db.wal.files := hw.symm ▸ h.logs
      have hwid : ∀ i ∈ db.wal.files.dir, i < walId := hw.symm ▸ hid
      obtain ⟨h₁, h₂, h₃, h₄, h₅⟩ := create_logs hwl hwid f.create
      have hwf := hrel.wf rfl
      refine ⟨h₁, h₂.trans (by rw [hw]), h₅ (hw.symm ▸ hs), hw ▸ h₃, htables _ rfl rfl,
        fun _ => ⟨hwf.memtables, hwf.levels, hwf.ids⟩, fun _ => described_congr (hrel.described rfl) rfl rfl,
        fun _ r hr => Nat.lt_succ_of_le (hrel.bound rfl r hr), fun _ => h₄, fun hok => active_of_create hwl hwid hok,
        fun _ => hrel.head rfl, fun _ => hrel.rest rfl⟩

/-- **An opening** of a layered directory, wherever it fails. -/
theorem Reopened.layered {o : Options} {d : Disk} (h : d.Layered) (hl : o.maxSstableLevels < 2 ^ 31)
    (hv : o.vlogFileSizeLimit < 2 ^ 64) {f : OpenFaults}
    (hr : Reopened o d (openDB o d f).1 ((openDB o d f).2 = .ok ())) (hrange : (openDB o d f).1.InRange)
    (hs : WAL.AllSynced d.wal) :
    (openDB o d f).1.disk.Layered ∧ ((openDB o d f).2 = .ok () → (openDB o d f).1.Layered) := by
  obtain ⟨h₁, h₂, h₃, h₄⟩ := openDB_traced h.files h.wal o f
  obtain ⟨hready, htidy, -, hid⟩ := VLog.openLog_spec h.vlogIds
  have hlog : (WAL.log (openDB o d f).1.wal.files).Pairwise (fun a b => a.sequence < b.sequence) := by
    rw [hr.log]
    exact h.ordered
  constructor
  · obtain ⟨o', vs, hl', hb, hlay⟩ := hr.tables hrange.sst
    refine ⟨hr.logs, hlog, hrange.wal, fun id hm => ?_, h₁, h₂, hrange.counted, o', vs, hl', hb,
      hlay.mono hr.lasts hr.logs fun _ hd => hd⟩
    rcases h₃ with he | he
    · exact h.vlogIds id (he ▸ hm)
    · have hm' : id ∈ (VLog.openLog d.vlog).files.dir := he ▸ hm
      exact ⟨htidy.pos id hm', hid id hm'⟩
  · intro hok
    obtain ⟨k₁, k₂, ho, k₃, -⟩ := h₄ hok
    have hact := hr.active hok
    have hlayers : Layers d.wal (openDB o d f).1.versions := by
      intro key
      by_cases hk : ∃ r ∈ WAL.log d.wal, r.key = key
      · obtain ⟨r, hmem, rfl⟩ := hk
        exact Or.inl (hs.durable hmem)
      · exact Or.inr (hr.rest hok key fun r hmem he => hk ⟨r, hmem, he⟩)
    refine ⟨⟨hr.wf hok, hr.described hok, hr.logs, hlog, fun r hm => hr.bound hok r (hr.log ▸ hm), hr.walId hok, k₂ ▸ htidy,
      ⟨k₁, h₁, h₂⟩, hlayers.mono hr.lasts hr.logs fun _ hd => hd, ho.symm ▸ hl, ho.symm ▸ hv⟩, hact,
      ⟨k₂ ▸ htidy, k₂ ▸ hready, k₃, hact.whole⟩⟩

end DB

/-! ## The newest versions -/

/-- A lookup selects a version at least as new as every entry of its key in the tables. -/
def DB.UpToDate (db : DB) : Prop :=
  ∀ l, AllTables (fun key e => ∃ top, db.findLatest noFails key = some top ∧ e.sequence ≤ top.sequence) (db.levels l)

/-- The last record of every key that is left is at least as new as every entry of the key in the tables that the manifest
registers. -/
def Disk.KeepsUp (o : Options) (d : Disk) : Prop :=
  ∀ next levels, DB.loadManifest d o.maxSstableLevels = .ok (next, levels) → ∀ l, AllTables (fun key e =>
    ∀ r, WAL.lastRecord d.records key = some r → e.sequence ≤ r.sequence) (levels l)

namespace DB

/-- The entries of a table are versions. -/
theorem mem_tableVersions_of_mem {db : DB} (hw : db.levels.Wf db.options.maxSstableLevels) {l : Nat} {info : SSTableInfo}
    (hi : info ∈ db.levels l) {p : Key × InternalEntry} (hp : p ∈ info.reader.entries) : p.2 ∈ db.tableVersions p.1 := by
  have hlt : l < db.options.maxSstableLevels := by
    by_contra hge
    rw [hw.empty l (not_lt.mp hge)] at hi
    cases hi
  refine List.mem_flatMap.mpr ⟨l, List.mem_range.mpr hlt, mem_tableVersions.mpr
    ⟨info, Levels.mem_searched.mpr hi, ?_⟩⟩
  exact (hw.tables l info hi).reader.sorted.lookup_eq_some_iff.mpr hp

/-- **What a lookup selects behind an opening.** -/
theorem newest_openDB_iff {o : Options} {d : Disk} (h : d.Layered) {db : DB} (hopen : openDB o d .none = (db, .ok ()))
    {ok : Prop} (hr : Reopened o d db ok) (hok : ok) (hdb : db.Layered) : db.UpToDate ↔ d.KeepsUp o := by
  have hids := walIds_eq h.logs.sorted h.walIds
  have hrecords : d.records = WAL.log d.wal := by
    rw [Disk.records, hids]
    rfl
  obtain ⟨next, levels, hload, hlevels, -, hhold⟩ := openDB_holding hopen
  have hfind := fun key => findLatest_eq hdb.wf key
  constructor
  · intro hn next' levels' hload' l info hi p hp r hlast
    rw [hload] at hload'
    cases hload'
    rw [hrecords] at hlast
    obtain ⟨top, htop, hle⟩ := hn l info (hlevels l info hi) p hp
    rw [hfind, hr.head hok p.1 r hlast] at htop
    cases htop
    exact hle
  · intro hk l info hi p hp
    cases hlast : WAL.lastRecord (WAL.log d.wal) p.1 with
    | some r =>
      refine ⟨r.entry, (hfind p.1).trans (hr.head hok p.1 r hlast), ?_⟩
      -- the entry is one of the tables that were loaded, or of a record
      have hall := hhold (fun key e => (∃ l, ∃ info ∈ levels l, (key, e) ∈ info.reader.entries) ∨
        ∃ r ∈ WAL.log d.wal, r.key = key ∧ e.sequence = r.sequence) (fun id hid _ r hrm e he => ?_)
        fun l info hi p hp => Or.inl ⟨l, info, hi, hp⟩
      · rcases hall.levels l info hi p hp with ⟨l', info', hi', hp'⟩ | ⟨r', hr', hkey, hseq⟩
        · exact hk next levels hload l' info' hi' p hp' r (hrecords ▸ hlast)
        · have hnew := WAL.lastRecord_newest h.ordered hlast
          rw [hseq]
          exact hnew r' hr' hkey
      · exact Or.inr ⟨r, List.mem_flatMap.mpr ⟨id, hids ▸ hid, hrm⟩, rfl, he.sequence⟩
    | none =>
      have hdesc := hr.rest hok p.1 (WAL.lastRecord_eq_none.mp hlast)
      have hmem : p.2 ∈ db.versions p.1 := List.mem_append_right _ (mem_tableVersions_of_mem hdb.wf.levels hi hp)
      obtain ⟨top, rest, he⟩ := List.exists_cons_of_ne_nil (List.ne_nil_of_mem hmem)
      refine ⟨top, by rw [hfind, he]; rfl, ?_⟩
      rw [he] at hdesc hmem
      rcases List.mem_cons.mp hmem with rfl | hmem
      · exact Nat.le_refl _
      · exact (List.pairwise_cons.mp hdesc).1 _ hmem

end DB

namespace Machine

/-- The options, the keys and the sizes that the formats and the counters can hold. -/
def Regular : Machine → Step → Prop
  | .on db, .write sync batch => (∀ e ∈ batch, e.Fits ∧ Token e.key) ∧ (db.write sync batch {}).1.InRange
  | .on db, .flush => (db.flushFront {}).InRange
  | .on db, .compactLevel lvl => (db.compactLevel lvl .none).1.InRange
  | .on db, .losePower during loss =>
    (∀ e ∈ (Step.losePower during loss).entries, e.Fits ∧ Token e.key) ∧ (db.interrupt during).InRange
  | .off d, .losePowerOpening o f _ =>
    (1 ≤ o.maxSstableLevels ∧ o.maxSstableLevels < 2 ^ 31 ∧ o.vlogFileSizeLimit < 2 ^ 64) ∧ (DB.openDB o d f).1.InRange
  | .off d, .reopen o =>
    (1 ≤ o.maxSstableLevels ∧ o.maxSstableLevels < 2 ^ 31 ∧ o.vlogFileSizeLimit < 2 ^ 64) ∧ (DB.openDB o d .none).1.InRange
  | _, _ => True

/-- The keys that are written have no version whose sequence number reaches the next one. -/
def Outdating : Machine → Step → Prop
  | .on db, s => ∀ e ∈ s.entries, ∀ v ∈ db.versions e.key, v.sequence < db.sequenceNumber
  | .off _, _ => True

/-- What is known of a machine. -/
def Layered : Machine → Prop
  | .on db => db.Layered
  | .off d => d.Layered ∧ WAL.AllSynced d.wal

theorem layered_start : start.Layered := by
  refine ⟨⟨WAL.logs_empty, List.Pairwise.nil, fun _ hid => absurd hid List.not_mem_nil, fun _ hid => absurd hid List.not_mem_nil,
    fun _ hid => absurd hid List.not_mem_nil, fun _ hid => absurd hid List.not_mem_nil,
    fun _ hid => absurd hid List.not_mem_nil, { maxSstableLevels := 1 }, fun _ => [], by decide,
    ⟨fun _ => [], 1, by decide, ?_, fun key => List.Sublist.refl _⟩, fun key => Or.inr List.Pairwise.nil⟩,
    fun _ hid => absurd hid List.not_mem_nil⟩
  exact ⟨Or.inl ⟨rfl, rfl, rfl⟩, fun l info hi => absurd hi List.not_mem_nil,
    ⟨Nat.le_refl 1, fun l info hi => absurd hi List.not_mem_nil, fun _ => List.Pairwise.nil, fun _ _ _ => Nat.zero_le 1,
      fun _ _ => rfl⟩, fun l info hi => absurd hi List.not_mem_nil, fun l l' a b ha => absurd ha List.not_mem_nil⟩

/-- **A step.** -/
theorem Layered.step {m : Machine} {s : Step} (h : m.Layered) (hr : m.Regular s) (hw : m.Outdating s) :
    (m.step s).Layered := by
  cases m with
  | on db =>
    have hl : db.Layered := h
    cases s with
    | write sync batch =>
      exact (hl.write sync (fun e he => (hr.1 e he).1) (fun e he => (hr.1 e he).2) hw {} hr.2).2 rfl
    | flush => exact (hl.flushFront {}).2 rfl
    | compactLevel lvl => exact (hl.compactLevel lvl .none).2 rfl
    | losePower during loss =>
      have hoff : (db.interrupt during).disk.Layered := by
        cases during with
        | nothing => exact hl.toArranged.off hr.2
        | write sync batch f =>
          exact (hl.write sync (fun e he => (hr.1 e he).1) (fun e he => (hr.1 e he).2) hw f hr.2).1.off hr.2
        | flush f => exact (hl.flushFront f).1 hr.2
        | compactLevel lvl f => exact (hl.compactLevel lvl f).1 hr.2
      exact hoff.lose loss
    | losePowerOpening _ _ _ | reopen _ => exact h
  | off d =>
    obtain ⟨hl, hs⟩ := h
    cases s with
    | reopen o =>
      obtain ⟨⟨h₁, h₂, h₃⟩, hrange⟩ := hr
      have hopened := DB.openDB_reopened hl hs h₁ h₂ .none
      obtain ⟨g₁, g₂⟩ := hopened.layered hl h₂ h₃ hrange hs
      rcases step_reopen (d := d) (o := o) with ⟨db, hopen, he⟩ | ⟨db, st, hopen, he⟩
      · rw [he]
        rw [hopen] at g₂
        exact g₂ rfl
      · rw [he]
        rw [hopen] at g₁ hopened
        exact ⟨g₁, hopened.synced⟩
    | losePower during loss => exact hl.lose loss
    | losePowerOpening o f loss =>
      obtain ⟨⟨h₁, h₂, h₃⟩, hrange⟩ := hr
      exact ((DB.openDB_reopened hl hs h₁ h₂ f).layered hl h₂ h₃ hrange hs).1.lose loss
    | write _ _ | flush | compactLevel _ => exact ⟨hl, hs⟩

/-- **Newest versions and power losses.** Behind every run of writes, flushes, compactions, power losses and openings in
which only keys are written whose versions have smaller sequence numbers than the next one, an opening that succeeds leads
to a database in which every lookup selects a version at least as new as those of the tables exactly when the last record
that is left of every key is. -/
theorem recovers_newest_iff {steps : List Step} (hr : Along Regular start steps) (hw : Along Outdating start steps) {o : Options}
    {d : Disk} {db : DB} (hopen : (start.run steps).Opens o d db) (hlast : (start.run steps).Regular (.reopen o)) :
    db.UpToDate ↔ d.KeepsUp o := by
  have hinv := Along.inv (I := fun _ m => m.Layered) (fun _ _ _ hi hq => Layered.step hi hq.1 hq.2) steps [] start
    layered_start (hr.and hw)
  obtain ⟨hm, he⟩ := hopen
  rw [hm] at hinv hlast
  obtain ⟨hl, hs⟩ := hinv
  obtain ⟨⟨h₁, h₂, h₃⟩, hrange⟩ := hlast
  have hopened := DB.openDB_reopened hl hs h₁ h₂ .none
  obtain ⟨-, hdb⟩ := hopened.layered hl h₂ h₃ hrange hs
  rw [he] at hopened hdb
  exact DB.newest_openDB_iff hl he hopened rfl (hdb rfl)

/-- A value that was kept is the newest version. -/
theorem recovers_newest_sample : (DB.openDB {} (putThenLost 1000) .none).1.UpToDate := by
  have hopen : (DB.openDB {} (putThenLost 1000) .none).2 = .ok () := by decide +kernel
  have hrange : ∀ db : DB, (∀ id ∈ db.vlog.files.dir, id < 100000) → (∀ id ∈ db.wal.files.dir, id < 100000) →
      db.nextSstableId ≤ 100000 → db.sequenceNumber ≤ 2 ^ 64 → db.sst.dir = [] → db.InRange :=
    fun db h₁ h₂ h₃ h₄ h₅ => ⟨⟨h₁, h₂, h₃, h₄⟩, fun id hid => by
      rw [h₅] at hid
      cases hid⟩
  have hone : ∀ e ∈ [BatchEntry.put [1] [7]], e.Fits ∧ Token e.key := by
    intro e he
    rw [List.mem_singleton.mp he]
    exact ⟨by decide, by decide, by decide +kernel⟩
  refine (@recovers_newest_iff [.reopen {}, .write false [.put [1] [7]], .losePower .nothing ⟨fun _ => 1000, fun _ => 1000⟩]
    ?_ ?_ {} (putThenLost 1000) _ (opens_of_ok ?_ hopen) ?_).mpr ?_
  · refine ⟨⟨by decide, ?_⟩, ?_⟩
    · exact hrange _ (by decide +kernel) (by decide +kernel) (by decide +kernel) (by decide +kernel) (by decide +kernel)
    rw [opens_start.step]
    refine ⟨⟨hone, ?_⟩, ⟨fun e he => absurd he List.not_mem_nil, ?_⟩, trivial⟩
    · exact hrange _ (by decide +kernel) (by decide +kernel) (by decide +kernel) (by decide +kernel) (by decide +kernel)
    · exact hrange _ (by decide +kernel) (by decide +kernel) (by decide +kernel) (by decide +kernel) (by decide +kernel)
  · refine ⟨trivial, ?_⟩
    rw [opens_start.step]
    refine ⟨fun e _ v hv => ?_, fun e he => absurd he List.not_mem_nil, trivial⟩
    rw [DB.versions_fresh] at hv
    cases hv
  · rw [run_cons, opens_start.step]
    rfl
  · rw [run_cons, opens_start.step]
    refine ⟨by decide, ?_⟩
    exact hrange _ (by decide +kernel) (by decide +kernel) (by decide +kernel) (by decide +kernel) (by decide +kernel)
  · intro next levels h l info hi
    have hnone : (putThenLost 1000).manifest = none := rfl
    rw [DB.loadManifest, hnone] at h
    cases h
    exact absurd hi List.not_mem_nil

/-- A value is put and synced; another one is put under its key, behind a rotation, and flushed. The power loss leaves the
first WAL file, which was synced. -/
def putTwiceFlushed : List Step :=
  [.reopen { memtableSizeLimit := 1, bloomBitsPerKey := 0 }, .write true [.put [1] [7]], .write false [.put [1] [8]], .flush,
    .flush, .losePower .nothing ⟨fun _ => 1000, fun _ => 0⟩]

/-- The files that are left. -/
def lostUpdate : Disk :=
  ((DB.fresh { memtableSizeLimit := 1, bloomBitsPerKey := 0 }).run
    [.write true [.put [1] [7]], .write false [.put [1] [8]], .flush, .flush]).disk.lose ⟨fun _ => 1000, fun _ => 0⟩

/-- **An older record wins** over a version that was flushed, when the record of the latter is lost. -/
theorem older_record_wins : ∃ db,
    (start.run putTwiceFlushed).Opens { memtableSizeLimit := 1, bloomBitsPerKey := 0 } lostUpdate db ∧ ¬db.UpToDate ∧
      db.result [1] = .ok [7] := by
  have hopen : (DB.openDB { memtableSizeLimit := 1, bloomBitsPerKey := 0 } lostUpdate .none).2 = .ok () := by decide +kernel
  have hentry : ∃ info ∈ (DB.openDB { memtableSizeLimit := 1, bloomBitsPerKey := 0 } lostUpdate .none).1.levels 0,
      ∃ p ∈ info.reader.entries, p.1 = [1] ∧ p.2.sequence = 3 := by
    decide +kernel
  refine ⟨_, opens_of_ok ?_ hopen, fun hn => ?_, by decide +kernel⟩
  · rfl
  · obtain ⟨info, hi, p, hp, hkey, hseq⟩ := hentry
    obtain ⟨top, hfind, hle⟩ := hn 0 info hi p hp
    rw [hkey] at hfind
    have htop : ((DB.openDB { memtableSizeLimit := 1, bloomBitsPerKey := 0 } lostUpdate .none).1.findLatest noFails
        [1]).map InternalEntry.sequence = some 2 := by decide +kernel
    rw [hfind] at htop
    have heq : top.sequence = 2 := Option.some.inj htop
    omega

end Machine

end SplitKV
