import SplitKV.Recovery.Disk
import SplitKV.Store.Write

/-!
# Writes and the log

`Tells` says which contents a log stands for: the last record of a key decides. A write that starts with a newest file
of whole records and at the end of the value log adds the records of some of the first entries of its batch to the log,
wherever it fails, and those of all of them when it returns OK (`DB.Logged.write`).
-/

namespace SplitKV

open Assoc

/-! ## The contents of a log -/

/-- What the last record of a key says about it. -/
def RecordTells (vlog : Folder Bytes) (key : Key) : Option WALRecord → Option Bytes → Prop
  | none, o => o = none
  | some r, none => r.type = .deletion
  | some r, some value => r.type = .value ∧ Stored vlog r.vlogPtr key value ∧ r.vlogPtr.fileId ∈ vlog.dir

/-- The log stands for the contents. -/
def Tells (vlog : Folder Bytes) (rs : List WALRecord) (m : Contents) : Prop :=
  ∀ key, RecordTells vlog key (WAL.lastRecord rs key) (m key)

theorem tells_nil (vlog : Folder Bytes) : Tells vlog [] (fun _ => none) := fun _ => rfl

/-- Extending the value log keeps what a log stands for. -/
theorem Tells.mono {v v' : VLog} {rs : List WALRecord} {m : Contents} (h : Tells v.files rs m) (ht : v.Tidy)
    (he : v.Extends v') : Tells v'.files rs m := by
  intro key
  have hk := h key
  cases hr : WAL.lastRecord rs key with
  | none =>
    rw [hr] at hk
    exact hk
  | some r =>
    rw [hr] at hk
    cases hm : m key with
    | none =>
      rw [hm] at hk
      exact hk
    | some value =>
      rw [hm] at hk
      obtain ⟨h₁, h₂, h₃⟩ := hk
      exact ⟨h₁, h₂.mono ht he, he.dir _ h₃⟩

/-- The record is the one of an entry of a batch. -/
def BatchEntry.RecordOf (vlog : Folder Bytes) : BatchEntry → WALRecord → Prop
  | put key value, r => r.type = .value ∧ r.key = key ∧ Stored vlog r.vlogPtr key value ∧ r.vlogPtr.fileId ∈ vlog.dir
  | delete key, r => r.type = .deletion ∧ r.key = key

theorem BatchEntry.RecordOf.key {vlog : Folder Bytes} {e : BatchEntry} {r : WALRecord} (h : e.RecordOf vlog r) :
    r.key = e.key := by
  cases e with
  | put key value => exact h.2.1
  | delete key => exact h.2

/-- **The record of an entry** applies the entry to the contents. -/
theorem Tells.append {vlog : Folder Bytes} {rs : List WALRecord} {m : Contents} (h : Tells vlog rs m) {e : BatchEntry}
    {r : WALRecord} (hr : e.RecordOf vlog r) : Tells vlog (rs ++ [r]) (e.apply m) := by
  intro key
  rw [WAL.lastRecord_append]
  by_cases hk : r.key = key
  · rw [if_pos hk]
    cases e with
    | put k value =>
      obtain ⟨h₁, h₂, h₃, h₄⟩ := hr
      have hkey : key = k := hk.symm.trans h₂
      rw [show (BatchEntry.put k value).apply m key = some value from if_pos hkey]
      exact ⟨h₁, hkey ▸ h₃, h₄⟩
    | delete k =>
      obtain ⟨h₁, h₂⟩ := hr
      rw [show (BatchEntry.delete k).apply m key = none from if_pos (hk.symm.trans h₂)]
      exact h₁
  · rw [if_neg hk, BatchEntry.apply_of_ne m (fun he => hk (hr.key.trans he.symm))]
    exact h key

namespace DB

/-! ## Steps of the logs -/

/-- The description of the levels does not depend on the logs. -/
theorem described_congr {o : Options} {d d' : Disk} {levels : Levels} {next : Nat} (h : Described o d levels next)
    (hs : d'.sst = d.sst) (hm : d'.manifest = d.manifest) : Described o d' levels next where
  manifest := by rw [hm]; exact h.manifest
  onDisk := by rw [hs]; exact h.onDisk
  wf := h.wf
  ids := h.ids
  unique := h.unique

/-- What a new record must be. -/
structure NewRecord (vlog : Folder Bytes) (n : Nat) (r : WALRecord) : Prop where
  sequence : r.sequence = n
  holds : r.type = .deletion ∨ r.type = .value ∧ ∃ value, Stored vlog r.vlogPtr r.key value
  token : Token r.key

/-- The logs grow by at most one record, which takes the next sequence number. -/
theorem Logged.of_logs {db : DB} (h : db.Logged) {vlog : VLog} {wal : WAL} (hext : db.vlog.Extends vlog)
    (htidy : vlog.Tidy) (hlogs : WAL.Logs wal.files) (hdir : wal.files.dir = db.wal.files.dir) {r : WALRecord}
    (hr : NewRecord vlog.files db.sequenceNumber r)
    (hlog : WAL.log wal.files = WAL.log db.wal.files ∨ WAL.log wal.files = WAL.log db.wal.files ++ [r]) :
    { db with vlog := vlog, wal := wal, sequenceNumber := db.sequenceNumber + 1 }.Logged := by
  have hsub : ∀ a ∈ WAL.log db.wal.files, a ∈ WAL.log wal.files := by
    intro a ha
    rcases hlog with he | he
    · exact he ▸ ha
    · exact he ▸ List.mem_append_left _ ha
  have hmem : ∀ a ∈ WAL.log wal.files, a ∈ WAL.log db.wal.files ∨ a = r := by
    intro a ha
    rcases hlog with he | he
    · exact Or.inl (he ▸ ha)
    · rw [he] at ha
      exact (List.mem_append.mp ha).imp_right List.mem_singleton.mp
  constructor
  · exact ⟨h.wf.memtables, h.wf.levels, h.wf.ids⟩
  · exact described_congr h.described rfl rfl
  · exact hlogs
  · refine ⟨fun a ha => ?_, ?_, fun a ha => ?_, fun a ha => ?_⟩
    · rcases hmem a ha with ha | rfl
      · exact (h.records.holds a ha).imp_right fun ⟨ht, value, hs⟩ => ⟨ht, value, hs.mono h.vlog hext⟩
      · exact hr.holds
    · rcases hlog with he | he
      · rw [he]
        exact h.records.ordered
      · rw [he, List.pairwise_append]
        refine ⟨h.records.ordered, List.pairwise_singleton _ _, fun a ha b hb => ?_⟩
        rw [List.mem_singleton.mp hb, hr.sequence]
        exact h.bound a ha
    · rcases hmem a ha with ha | rfl
      · exact h.records.pos a ha
      · rw [hr.sequence]
        exact h.pos
    · rcases hmem a ha with ha | rfl
      · exact h.records.token a ha
      · exact hr.token
  · intro a ha
    rcases hmem a ha with ha | rfl
    · exact Nat.lt_succ_of_lt (h.bound a ha)
    · exact hr.sequence ▸ Nat.lt_succ_self _
  · exact fun m hm => (h.memtables m hm).mono hsub
  · exact fun l info hi => (h.tables l info hi).mono hsub
  · exact htidy
  · exact fun id hid => h.walId id (hdir ▸ hid)
  · exact Nat.le_add_left 1 _

/-- The value log grows alone. -/
theorem Logged.of_vlog {db : DB} (h : db.Logged) {vlog : VLog} (hext : db.vlog.Extends vlog) (htidy : vlog.Tidy) {n : Nat}
    (hn : db.sequenceNumber ≤ n) : { db with vlog := vlog, sequenceNumber := n }.Logged where
  wf := ⟨h.wf.memtables, h.wf.levels, h.wf.ids⟩
  described := described_congr h.described rfl rfl
  logs := h.logs
  records := ⟨fun a ha => (h.records.holds a ha).imp_right fun ⟨ht, value, hs⟩ => ⟨ht, value, hs.mono h.vlog hext⟩,
    h.records.ordered, h.records.pos, h.records.token⟩
  bound := fun r hr => (h.bound r hr).trans_le hn
  memtables := h.memtables
  tables := h.tables
  vlog := htidy
  walId := h.walId
  pos := h.pos.trans hn

/-- A record of the log becomes a version in the memtable. -/
theorem Logged.addEntry {db : DB} (h : db.Logged) {r : WALRecord} (hr : r ∈ WAL.log db.wal.files) {key : Key}
    {e : InternalEntry} (hk : r.key = key) (he : r.entry = e) : (db.addEntry key e).Logged := by
  have hwf := h.wf.addVersion key e
  refine ⟨⟨hwf.memtables, hwf.levels, hwf.ids⟩, described_congr h.described rfl rfl, h.logs, h.records, h.bound,
    fun m hm => ?_, h.tables, h.vlog, h.walId, h.pos⟩
  rcases List.mem_cons.mp hm with rfl | hm
  · intro p hp
    rcases MemTable.mem_add hp with rfl | hp
    · exact ⟨r, hr, hk, he⟩
    · exact h.memtables _ List.mem_cons_self p hp
  · exact h.memtables m (List.mem_cons_of_mem _ hm)

/-! ## Bounds -/

/-- The ids and the sequence numbers do not shrink. -/
structure Grows (db db' : DB) : Prop where
  vlog : ∀ id ∈ db.vlog.files.dir, id ∈ db'.vlog.files.dir
  wal : ∀ id ∈ db.wal.files.dir, id ∈ db'.wal.files.dir
  sst : db.nextSstableId ≤ db'.nextSstableId
  sequence : db.sequenceNumber ≤ db'.sequenceNumber

theorem Grows.refl (db : DB) : db.Grows db := ⟨fun _ h => h, fun _ h => h, Nat.le_refl _, Nat.le_refl _⟩

theorem Grows.trans {a b c : DB} (h : a.Grows b) (h' : b.Grows c) : a.Grows c :=
  ⟨fun id hid => h'.vlog id (h.vlog id hid), fun id hid => h'.wal id (h.wal id hid), h.sst.trans h'.sst,
    h.sequence.trans h'.sequence⟩

theorem Small.of_grows {db db' : DB} (h : db'.Small) (hg : db.Grows db') : db.Small :=
  ⟨fun id hid => h.vlog id (hg.vlog id hid), fun id hid => h.wal id (hg.wal id hid), hg.sst.trans h.sst,
    hg.sequence.trans h.sequence⟩

theorem dir_addRecord (w : WAL) (r : WALRecord) (fault : Option Nat) :
    (w.addRecord r fault).1.files.dir = w.files.dir := by
  unfold WAL.addRecord
  split
  · rfl
  · rfl
  · cases fault <;> rfl

theorem grows_writeEntry (db : DB) (e : BatchEntry) (fv : AppendFault) (fw : Option Nat) :
    db.Grows (db.writeEntry e fv fw).1 := by
  refine ⟨?_, fun id hid => ?_, ?_, ?_⟩
  · rcases vlog_writeEntry db e fv fw with hv | ⟨key, value, hv⟩
    · rw [hv]
      exact fun _ h => h
    · rw [hv]
      exact (VLog.extends_append db.options db.vlog key value .value fv).dir
  · rcases wal_writeEntry db e fv fw with hw | ⟨r, hw⟩
    · rwa [hw]
    · rwa [hw, dir_addRecord]
  · exact (congrArg DB.nextSstableId (writeEntry_frame db e fv fw)).ge
  · exact (Nat.le_succ _).trans (sequence_writeEntry db e fv fw).ge

theorem grows_writeEntries (f : WriteFaults) (batch : WriteBatch) (i : Nat) (db : DB) :
    db.Grows (writeEntries f i batch db).1 :=
  writeEntries_induct Grows.refl Grows.trans grows_writeEntry f batch i db

/-- The entries behind the first one. -/
theorem grows_first (f : WriteFaults) (e : BatchEntry) (batch : WriteBatch) (i : Nat) (db : DB) :
    (db.writeEntry e (f.vlog i) (f.wal i)).1.Grows (writeEntries f i (e :: batch) db).1 := by
  rw [writeEntries]
  split
  · rename_i hr
    rw [hr]
    exact Grows.refl _
  · rename_i db₁ hr
    rw [hr]
    exact grows_writeEntries f batch (i + 1) db₁

/-! ## Entries -/

/-- The value log is at the end of its file, or the first put of the batch starts a new file. -/
def Continues (o : Options) (v : VLog) : WriteBatch → Prop
  | [] => True
  | .put key value :: _ =>
    v.mustRotate o key value = false → v.currentOffset = (v.files.data v.currentFileId).length
  | .delete _ :: batch => Continues o v batch

/-- A log at the end of its file continues with any batch. -/
theorem continues_of_ready {o : Options} {v : VLog} (h : v.currentOffset = (v.files.data v.currentFileId).length) :
    ∀ batch : WriteBatch, Continues o v batch
  | [] => trivial
  | .put _ _ :: _ => fun _ => h
  | .delete _ :: batch => continues_of_ready h batch

/-- What the log gets from a step that tries to write an entry. -/
structure EntryLogged (db db' : DB) (e : BatchEntry) (rest : WriteBatch) (ok : Prop) : Prop where
  logged : db'.Logged
  options : db'.options = db.options
  skipped : ¬ok → ∀ m, Tells db.vlog.files (WAL.log db.wal.files) m →
    Tells db'.vlog.files (WAL.log db'.wal.files) m ∨ Tells db'.vlog.files (WAL.log db'.wal.files) (e.apply m)
  told : ok → ∀ m, Tells db.vlog.files (WAL.log db.wal.files) m →
    Tells db'.vlog.files (WAL.log db'.wal.files) (e.apply m)
  active : ok → db'.wal.Active
  continues : ok → Continues db'.options db'.vlog rest

/-- An entry sends its record to the WAL, behind a value log that holds its value: either the record is logged and the
entry gets into the memtable, or the write fails. -/
theorem Logged.sendRecord {db : DB} (h : db.Logged) (ha : db.wal.Active) {e : BatchEntry} {rest : WriteBatch}
    {vlog : VLog} {r : WALRecord} (hext : db.vlog.Extends vlog) (htidy : vlog.Tidy) (hfits : WAL.Fits r)
    (hrec : e.RecordOf vlog.files r) (hnew : NewRecord vlog.files db.sequenceNumber r)
    (hcont : Continues db.options vlog rest) (fw : Option Nat) {x : DB × Except Status Unit}
    (hok : ∀ wal, db.wal.addRecord r fw = (wal, .ok ()) →
      x = ({ db with vlog := vlog, wal := wal }.addVersion r.key r.entry, .ok ()))
    (herror : ∀ wal s, db.wal.addRecord r fw = (wal, .error s) →
      x = ({ db with vlog := vlog, wal := wal, sequenceNumber := db.sequenceNumber + 1 }, .error s)) :
    EntryLogged db x.1 e rest (x.2 = .ok ()) := by
  obtain ⟨h₁, h₂, h₃, h₄⟩ := ha.addRecord h.logs hfits fw
  have hdir := dir_addRecord db.wal r fw
  generalize db.wal.addRecord r fw = y at h₁ h₂ h₃ h₄ hdir hok herror
  obtain ⟨wal, res⟩ := y
  simp only at h₁ h₂ h₃ h₄ hdir
  have hlogged := h.of_logs hext htidy h₁ hdir hnew (h₂.elim Or.inr fun h => Or.inl h.2)
  have htells : ∀ m, Tells db.vlog.files (WAL.log db.wal.files) m → Tells vlog.files (WAL.log db.wal.files) m :=
    fun m hm => hm.mono h.vlog hext
  cases fw with
  | none =>
    obtain ⟨rfl, hact⟩ := h₃ rfl
    have hlog : WAL.log wal.files = WAL.log db.wal.files ++ [r] := by
      rcases h₂ with h₂ | ⟨hne, -⟩
      · exact h₂
      · exact absurd rfl hne
    have hmem : r ∈ WAL.log wal.files := hlog ▸ List.mem_append_right _ (List.mem_singleton.mpr rfl)
    rw [hok wal rfl]
    refine ⟨hlogged.addEntry hmem rfl rfl, rfl, fun hne => absurd rfl hne, fun _ m hm => ?_, fun _ => hact, fun _ => hcont⟩
    show Tells vlog.files (WAL.log wal.files) _
    rw [hlog]
    exact (htells m hm).append hrec
  | some n =>
    obtain ⟨s, rfl⟩ := h₄ (Option.some_ne_none n)
    rw [herror wal s rfl]
    refine ⟨hlogged, rfl, fun _ m hm => ?_, fun he => (by cases he), fun he => (by cases he), fun he => (by cases he)⟩
    show Tells vlog.files (WAL.log wal.files) _ ∨ Tells vlog.files (WAL.log wal.files) _
    rcases h₂ with h₂ | ⟨-, h₂⟩
    · rw [h₂]
      exact Or.inr ((htells m hm).append hrec)
    · rw [h₂]
      exact Or.inl (htells m hm)

/-- **One entry**, wherever its records fail. -/
theorem Logged.writeEntry {db : DB} (h : db.Logged) (ha : db.wal.Active) {e : BatchEntry} {rest : WriteBatch}
    (hc : Continues db.options db.vlog (e :: rest)) (hf : e.Fits) (ht : Token e.key)
    (hl : db.options.vlogFileSizeLimit < 2 ^ 64) (fv : AppendFault) (fw : Option Nat)
    (hs : (db.writeEntry e fv fw).1.Small) : EntryLogged db (db.writeEntry e fv fw).1 e rest
      ((db.writeEntry e fv fw).2 = .ok ()) := by
  have hseq : db.sequenceNumber < 2 ^ 64 := by
    have := hs.sequence
    rw [sequence_writeEntry] at this
    omega
  cases e with
  | put key value =>
    have hext := VLog.extends_append db.options db.vlog key value .value fv
    have htidy := h.vlog.append db.options key value .value fv
    unfold DB.writeEntry at hs ⊢
    simp only at hs ⊢
    cases hv : db.vlog.append db.options key value .value fv with
    | mk vlog res =>
      rw [hv] at hext htidy
      cases res with
      | error s =>
        -- nothing reaches the WAL
        exact ⟨h.of_vlog hext htidy (Nat.le_succ _), rfl, fun _ m hm => Or.inl (hm.mono h.vlog hext),
          fun he => (by cases he), fun he => (by cases he), fun he => (by cases he)⟩
      | ok ptr =>
        simp only [hv] at hs ⊢
        obtain ⟨hsize, happ⟩ := h.vlog.appended hc hv
        have hdir : ptr.fileId ∈ vlog.files.dir := (happ.dir _).mpr (Or.inl happ.fileId)
        have hst : Stored vlog.files ptr key value := (happ.holds hf.1 hsize).stored happ.ready.exists_
        have hid : ptr.fileId < 100000 := by
          refine hs.vlog _ ?_
          split <;> exact hdir
        have hfits : WAL.Fits ⟨.value, db.sequenceNumber, key, ptr⟩ :=
          ⟨Or.inl rfl, hseq, hf.2, hid.trans (by omega), (VLog.append_offset_le hv).trans_lt hl, by
            rw [hsize]
            exact Nat.mod_lt _ (by omega)⟩
        have hrec : (BatchEntry.put key value).RecordOf vlog.files ⟨.value, db.sequenceNumber, key, ptr⟩ :=
          ⟨rfl, rfl, hst, hdir⟩
        refine h.sendRecord ha hext htidy hfits hrec ⟨rfl, Or.inr ⟨rfl, value, hst⟩, ht⟩
          (continues_of_ready happ.ready.offset rest) fw (fun wal hw => ?_) fun wal s hw => ?_
        · rw [hw]
          rfl
        · rw [hw]
  | delete key =>
    have hfits : WAL.Fits ⟨.deletion, db.sequenceNumber, key, ⟨0, 0, 0⟩⟩ :=
      ⟨Or.inr ⟨rfl, rfl⟩, hseq, hf, Nat.two_pow_pos 32, Nat.two_pow_pos 64, Nat.two_pow_pos 32⟩
    have hrec : (BatchEntry.delete key).RecordOf db.vlog.files ⟨.deletion, db.sequenceNumber, key, ⟨0, 0, 0⟩⟩ := ⟨rfl, rfl⟩
    have hcont : Continues db.options db.vlog rest := hc
    unfold DB.writeEntry
    refine h.sendRecord ha (VLog.Extends.refl _) h.vlog hfits hrec ⟨rfl, Or.inl rfl, ht⟩ hcont fw (fun wal hw => ?_)
      fun wal s hw => ?_
    · simp only [hw]
      rfl
    · simp only [hw]

/-! ## Batches -/

/-- What the log gets from a step that tries to write a batch: the records of some of its first entries. -/
structure BatchLogged (db db' : DB) (batch : WriteBatch) (ok : Prop) : Prop where
  told : ∀ m, Tells db.vlog.files (WAL.log db.wal.files) m → ∃ n,
    Tells db'.vlog.files (WAL.log db'.wal.files) (WriteBatch.apply m (batch.take n))
  all : ok → ∀ m, Tells db.vlog.files (WAL.log db.wal.files) m →
    Tells db'.vlog.files (WAL.log db'.wal.files) (WriteBatch.apply m batch)

/-- **The entries of a batch**, wherever their records fail. -/
theorem Logged.writeEntries (f : WriteFaults) : ∀ (batch : WriteBatch) (i : Nat) (db : DB), db.Logged → db.wal.Active →
    Continues db.options db.vlog batch → (∀ e ∈ batch, e.Fits) → (∀ e ∈ batch, Token e.key) →
    db.options.vlogFileSizeLimit < 2 ^ 64 → (DB.writeEntries f i batch db).1.Small →
    (DB.writeEntries f i batch db).1.Logged ∧ (DB.writeEntries f i batch db).1.options = db.options ∧
      BatchLogged db (DB.writeEntries f i batch db).1 batch ((DB.writeEntries f i batch db).2 = .ok ()) ∧
      ((DB.writeEntries f i batch db).2 = .ok () → (DB.writeEntries f i batch db).1.wal.Active)
  | [], _, _, h, ha, _, _, _, _, _ => ⟨h, rfl, ⟨fun _ hm => ⟨0, hm⟩, fun _ _ hm => hm⟩, fun _ => ha⟩
  | e :: batch, i, db, h, ha, hc, hf, ht, hl, hs => by
    have hgrow : (db.writeEntry e (f.vlog i) (f.wal i)).1.Small := hs.of_grows (grows_first f e batch i db)
    have hentry := h.writeEntry ha hc (hf e List.mem_cons_self) (ht e List.mem_cons_self) hl (f.vlog i) (f.wal i) hgrow
    rw [DB.writeEntries] at hs ⊢
    generalize db.writeEntry e (f.vlog i) (f.wal i) = x at hs hentry hgrow ⊢
    obtain ⟨db₁, r⟩ := x
    cases r with
    | error s =>
      refine ⟨hentry.logged, hentry.options, ⟨fun m hm => ?_, fun he => by cases he⟩, fun he => by cases he⟩
      rcases hentry.skipped (fun he => by cases he) m hm with hm | hm
      · exact ⟨0, hm⟩
      · exact ⟨1, hm⟩
    | ok x =>
      have hopt := hentry.options
      obtain ⟨h₁, h₂, h₃, h₄⟩ := Logged.writeEntries f batch (i + 1) db₁ hentry.logged (hentry.active rfl)
        (hentry.continues rfl) (fun e he => hf e (List.mem_cons_of_mem _ he))
        (fun e he => ht e (List.mem_cons_of_mem _ he)) (hopt ▸ hl) hs
      refine ⟨h₁, h₂.trans hopt, ⟨fun m hm => ?_, fun hok m hm => ?_⟩, h₄⟩
      · obtain ⟨n, hn⟩ := h₃.told _ (hentry.told rfl m hm)
        exact ⟨n + 1, hn⟩
      · exact h₃.all hok _ (hentry.told rfl m hm)

/-- The memtable moves to the queue, behind a new WAL. -/
theorem Logged.maybeScheduleFlush {db : DB} (h : db.Logged) :
    (db.maybeScheduleFlush .none).1.Logged ∧ WAL.log (db.maybeScheduleFlush .none).1.wal.files = WAL.log db.wal.files ∧
      (db.wal.Active → (db.maybeScheduleFlush .none).1.wal.Active) := by
  unfold DB.maybeScheduleFlush
  split
  · have hid : ∀ id ∈ db.wal.files.dir, id < db.walId + 1 := fun id hid => Nat.lt_succ_of_le (h.walId id hid)
    obtain ⟨h₁, h₂, h₃⟩ := h.logs.create hid
    have hact := h.logs.create_active hid
    rw [WAL.create_none] at hact ⊢
    refine ⟨⟨?_, described_congr h.described rfl rfl, h₁, ?_, ?_, fun m hm => ?_, ?_, h.vlog, fun id hid => ?_, h.pos⟩, h₂,
      fun _ => hact⟩
    · refine ⟨fun m hm => ?_, h.wf.levels, h.wf.ids⟩
      rcases List.mem_cons.mp hm with rfl | hm
      · exact MemTable.valid_new _
      · simp only [List.reverse_append, List.reverse_singleton, List.singleton_append] at hm
        exact h.wf.memtables m hm
    · exact h₂.symm ▸ h.records
    · exact fun r hr => h.bound r (h₂ ▸ hr)
    · simp only [h₂]
      rcases List.mem_cons.mp hm with rfl | hm
      · exact fun p hp => by cases hp
      · simp only [List.reverse_append, List.reverse_singleton, List.singleton_append] at hm
        exact h.memtables m hm
    · exact fun l info hi => (h.tables l info hi).mono fun r hr => h₂.symm ▸ hr
    · simp only [h₃] at hid
      rcases List.mem_append.mp hid with hid | hid
      · exact (h.walId id hid).trans (Nat.le_succ _)
      · exact (List.mem_singleton.mp hid).le
  · exact ⟨h, rfl, fun ha => ha⟩

theorem tidy_sync {v : VLog} (h : v.Tidy) : v.sync.Tidy := by
  unfold VLog.sync
  split <;> exact ⟨h.newest, h.pos, h.opened⟩

/-- The syncs change nothing that is read. -/
theorem Logged.syncLogs {db : DB} (h : db.Logged) : db.syncLogs.Logged ∧
    WAL.log db.syncLogs.wal.files = WAL.log db.wal.files := by
  obtain ⟨h₁, h₂, -⟩ := WAL.sync_files db.wal
  have hlog : WAL.log db.syncLogs.wal.files = WAL.log db.wal.files := WAL.log_congr h₁ h₂
  have hv := h.of_vlog (VLog.extends_sync db.vlog) (tidy_sync h.vlog) (Nat.le_refl _)
  refine ⟨⟨⟨hv.wf.memtables, hv.wf.levels, hv.wf.ids⟩, described_congr hv.described rfl rfl, h.logs.congr h₁ h₂, ?_, ?_,
    fun m hm => ?_, fun l info hi => ?_, hv.vlog, fun id hid => ?_, h.pos⟩, hlog⟩
  · exact hlog.symm ▸ hv.records
  · exact fun r hr => h.bound r (hlog ▸ hr)
  · exact (h.memtables m hm).mono fun r hr => hlog.symm ▸ hr
  · exact (h.tables l info hi).mono fun r hr => hlog.symm ▸ hr
  · exact h.walId id (h₂ ▸ hid)

theorem grows_syncLogs (db : DB) : db.Grows db.syncLogs := by
  obtain ⟨-, h₂, -⟩ := WAL.sync_files db.wal
  exact ⟨(VLog.extends_sync db.vlog).dir, fun id hid => h₂.symm ▸ hid, Nat.le_refl _, Nat.le_refl _⟩

theorem grows_maybeScheduleFlush (db : DB) (fault : CreateFault) : db.Grows (db.maybeScheduleFlush fault).1 := by
  have hdir : ∀ id ∈ db.wal.files.dir, id ∈ (db.wal.create (db.walId + 1) fault).1.files.dir := by
    intro id hid
    unfold WAL.create
    split
    · exact hid
    · split
      · exact hid
      · exact Folder.mem_dir_create.mpr (Or.inr hid)
  unfold DB.maybeScheduleFlush
  split
  · exact ⟨fun _ h => h, hdir, Nat.le_refl _, Nat.le_refl _⟩
  · exact Grows.refl db

/-- The files have the same log. -/
structure SameLog (db db' : DB) : Prop where
  disk : db'.vlog.files = db.vlog.files ∧ db'.sst = db.sst ∧ db'.manifest = db.manifest
  logs : WAL.Logs db'.wal.files
  log : WAL.log db'.wal.files = WAL.log db.wal.files
  grows : db.Grows db'

/-- Wherever `MaybeScheduleFlush` fails, it adds nothing to the log. -/
theorem Logged.sameLog_maybeScheduleFlush {db : DB} (h : db.Logged) (fault : CreateFault) :
    SameLog db (db.maybeScheduleFlush fault).1 := by
  have hid : ∀ id ∈ db.wal.files.dir, id < db.walId + 1 := fun id hid => Nat.lt_succ_of_le (h.walId id hid)
  obtain ⟨h₁, h₂, h₃⟩ := h.logs.create hid
  have hcreate : WAL.Logs (db.wal.create (db.walId + 1) fault).1.files ∧
      WAL.log (db.wal.create (db.walId + 1) fault).1.files = WAL.log db.wal.files := by
    unfold WAL.create
    split
    · exact ⟨h.logs, rfl⟩
    · split
      · exact ⟨h.logs, rfl⟩
      · exact ⟨h₁, h₂⟩
  have hgrow := grows_maybeScheduleFlush db fault
  unfold DB.maybeScheduleFlush at hgrow ⊢
  split
  · rename_i hs
    rw [if_pos hs] at hgrow
    exact ⟨⟨rfl, rfl, rfl⟩, hcreate.1, hcreate.2, hgrow⟩
  · exact ⟨⟨rfl, rfl, rfl⟩, h.logs, rfl, Grows.refl db⟩

/-- Files with the same log can be recovered. -/
theorem Logged.recoverable_sameLog {db db' : DB} (h : db.Logged) (hd : SameLog db db') (hs : db'.Small) :
    db'.disk.Recoverable db.options := by
  obtain ⟨hv, hsst, hm⟩ := hd.disk
  refine ⟨hd.logs, ?_, ⟨db.levels, db.nextSstableId, ?_, described_congr h.described hsst hm, ?_⟩, fun id hid => ?_, hs.wal⟩
  · show Records db'.vlog.files (WAL.log db'.wal.files)
    rw [hd.log, hv]
    exact h.records
  · have := hd.grows.sst.trans hs.sst
    omega
  · show TablesRecorded (WAL.log db'.wal.files) db.levels
    rw [hd.log]
    exact h.tables
  · have hid' : id ∈ db.vlog.files.dir := by
      rw [← hv]
      exact hid
    exact ⟨h.vlog.pos id hid', hs.vlog id hid⟩

theorem grows_endWrite (db : DB) (sync : Bool) (fault : CreateFault) :
    db.Grows ((if sync then db.syncLogs else db).maybeScheduleFlush fault).1 := by
  refine Grows.trans ?_ (grows_maybeScheduleFlush _ fault)
  split
  · exact grows_syncLogs db
  · exact Grows.refl db

/-- What the end of a write leaves: the syncs, and the new WAL behind a full memtable. -/
structure EndsWrite (db db' : DB) (fault : CreateFault) : Prop where
  recoverable : db'.Small → db'.disk.Recoverable db.options
  told : ∀ m, Tells db.vlog.files (WAL.log db.wal.files) m → Tells db'.vlog.files (WAL.log db'.wal.files) m
  completed : fault = .none → db'.Logged ∧ db'.options = db.options ∧ (db.wal.Active → db'.wal.Active)

/-- **The end of a write**, wherever it fails. -/
theorem Logged.endWrite {db : DB} (h : db.Logged) (sync : Bool) (fault : CreateFault) :
    EndsWrite db ((if sync then db.syncLogs else db).maybeScheduleFlush fault).1 fault := by
  -- the syncs change nothing that is read
  have hlogged : (if sync then db.syncLogs else db).Logged ∧ (if sync then db.syncLogs else db).options = db.options ∧
      (∀ m, Tells db.vlog.files (WAL.log db.wal.files) m →
        Tells (if sync then db.syncLogs else db).vlog.files (WAL.log (if sync then db.syncLogs else db).wal.files) m) ∧
      (db.wal.Active → (if sync then db.syncLogs else db).wal.Active) := by
    split
    · obtain ⟨g₁, g₂⟩ := h.syncLogs
      refine ⟨g₁, rfl, fun m hm => ?_, fun ha => ha.sync⟩
      rw [g₂]
      exact hm.mono h.vlog (VLog.extends_sync db.vlog)
    · exact ⟨h, rfl, fun _ hm => hm, fun ha => ha⟩
  generalize (if sync = true then db.syncLogs else db) = db₁ at hlogged ⊢
  obtain ⟨g₁, g₂, g₃, g₄⟩ := hlogged
  have hsame := g₁.sameLog_maybeScheduleFlush fault
  have hopt : (db₁.maybeScheduleFlush fault).1.options = db₁.options := by
    unfold DB.maybeScheduleFlush
    split <;> rfl
  refine ⟨fun hs => g₂ ▸ g₁.recoverable_sameLog hsame hs, fun m hm => ?_, fun hf => ?_⟩
  · rw [hsame.log, hsame.disk.1]
    exact g₃ m hm
  · subst hf
    obtain ⟨k₁, -, k₃⟩ := g₁.maybeScheduleFlush
    exact ⟨k₁, hopt.trans g₂, fun ha => k₃ (g₄ ha)⟩

/-- **A write**, wherever it fails: its files can be recovered, and the log has the records of some of its first
entries. When it returns OK, the log has all of them. -/
theorem Logged.write {db : DB} (h : db.Logged) (ha : db.wal.Active) (sync : Bool) {batch : WriteBatch}
    (hc : Continues db.options db.vlog batch) (hf : ∀ e ∈ batch, e.Fits) (ht : ∀ e ∈ batch, Token e.key)
    (hl : db.options.vlogFileSizeLimit < 2 ^ 64) (f : WriteFaults) (hs : (db.write sync batch f).1.Small) :
    (db.write sync batch f).1.disk.Recoverable db.options ∧
      BatchLogged db (db.write sync batch f).1 batch ((db.write sync batch f).2 = .ok ()) ∧
      (f.create = .none → (db.write sync batch f).1.Logged ∧ (db.write sync batch f).1.options = db.options ∧
        ((db.write sync batch f).2 = .ok () → (db.write sync batch f).1.wal.Active)) := by
  rw [DB.write] at hs ⊢
  have hentries := Logged.writeEntries f batch 0 db h ha hc hf ht hl
  generalize DB.writeEntries f 0 batch db = x at hentries hs ⊢
  obtain ⟨db₁, r⟩ := x
  cases r with
  | error s =>
    obtain ⟨h₁, h₂, h₃, -⟩ := hentries hs
    exact ⟨h₂ ▸ h₁.recoverable hs, h₃, fun _ => ⟨h₁, h₂, fun he => by cases he⟩⟩
  | ok x =>
    obtain ⟨h₁, h₂, h₃, h₄⟩ := hentries (hs.of_grows (grows_endWrite db₁ sync f.create))
    have hend := h₁.endWrite sync f.create
    refine ⟨h₂ ▸ hend.recoverable hs, ⟨fun m hm => ?_, fun _ m hm => hend.told _ (h₃.all rfl m hm)⟩, fun hf => ?_⟩
    · obtain ⟨n, hn⟩ := h₃.told m hm
      exact ⟨n, hend.told _ hn⟩
    · obtain ⟨k₁, k₂, k₃⟩ := hend.completed hf
      exact ⟨k₁, k₂.trans h₂, fun _ => k₃ (h₄ rfl)⟩

end DB

end SplitKV
