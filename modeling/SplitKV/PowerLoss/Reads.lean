import SplitKV.PowerLoss.Pointers

/-!
# Reads and power losses

Pointers may outlive the bytes they point at. While no value is appended to a value log file that some surviving pointer
reaches past, a `Get` returns a value that was put under its key (`Machine.no_cross_key_reads`). When a value is, it may be
read under the key of the pointer (`Machine.cross_key_read`).
-/

namespace SplitKV

variable {P Q : Key → InternalEntry → Prop}

namespace VLog

/-- The files before the current one keep their bytes. -/
structure KeepsOlder (v v' : VLog) : Prop where
  current : v.currentFileId ≤ v'.currentFileId
  data : ∀ id < v.currentFileId, v'.files.data id = v.files.data id

theorem KeepsOlder.refl (v : VLog) : KeepsOlder v v := ⟨Nat.le_refl _, fun _ _ => rfl⟩

theorem KeepsOlder.trans {v₁ v₂ v₃ : VLog} (h : KeepsOlder v₁ v₂) (h' : KeepsOlder v₂ v₃) : KeepsOlder v₁ v₃ :=
  ⟨h.current.trans h'.current, fun id hid => (h'.data id (hid.trans_le h.current)).trans (h.data id hid)⟩

theorem AppendSteps.keepsOlder {v u : VLog} (h : AppendSteps v u) : KeepsOlder v u := by
  induction h with
  | refl => exact KeepsOlder.refl v
  | write _ bytes n ih =>
    refine ⟨ih.current, fun id hid => ?_⟩
    rw [← ih.data id hid]
    exact Folder.data_write_of_ne _ (hid.trans_le ih.current).ne _
  | sync _ ih => exact ⟨ih.current, ih.data⟩
  | close _ ih => exact ⟨ih.current, ih.data⟩
  | next _ ih => exact ⟨ih.current.trans (Nat.le_succ _), ih.data⟩
  | create _ ih =>
    have hcur := ih.current
    refine ⟨hcur.trans (Nat.le_succ _), fun id hid => ?_⟩
    rw [Folder.data_create_of_ne _ (by omega)]
    exact ih.data id hid

/-- **An append leaves the older files alone**, wherever it fails. -/
theorem keepsOlder_append (o : Options) (v : VLog) (key value : Bytes) (type : ValueType) (fault : AppendFault) :
    KeepsOlder v (v.append o key value type fault).1 := (appendSteps_append o v key value type fault).keepsOlder

/-- **Appends and pointers**: a pointer that is cut stays so, unless it reaches past the end of the file that grows. -/
theorem Cut.append {v v' : VLog} {ptr : VLogPointer} {key value : Bytes} (h : Cut v.files ptr key value) (ht : v.Tidy)
    (he : Extends v v') (ho : KeepsOlder v v') (hw : ptr.fileId = v.currentFileId → Within v.files ptr key) :
    Cut v'.files ptr key value := by
  obtain ⟨more, hfile, hsize, hfits, hr⟩ := id h
  by_cases hid : ptr.fileId = v.currentFileId
  · exact ⟨[], (h.kept (hw hid)).mono he.dir fun id hd => he.data id (ht.newest id hd)⟩
  · refine ⟨more, he.dir _ hfile, hsize, hfits, ?_⟩
    have hlt : ptr.fileId < v.currentFileId := Nat.lt_of_le_of_ne (ht.newest _ hfile) hid
    rw [ho.data _ hlt]
    exact hr

end VLog

/-- The pointer of the entry, if it points into the file that is written, points at bytes of it. -/
def EntryClear (vlog : VLog) (key : Key) (e : InternalEntry) : Prop :=
  e.type = .value → e.vlogPtr.fileId = vlog.currentFileId → VLog.Within vlog.files e.vlogPtr key

/-- A put of its key is behind the entry, unless it is a tombstone, and its record may be cut. -/
def Attributed (vlog : Folder Bytes) (puts : WriteBatch) : Key → InternalEntry → Prop := Genuine (VLog.Cut vlog) puts

namespace DB

/-- No pointer that the database holds, has on disk or has in its log reaches past the end of the value log file that is
written. -/
structure Clear (db : DB) : Prop where
  holding : db.Holding (EntryClear db.vlog)
  files : AllFiles (EntryClear db.vlog) db.sst
  wal : ∀ id ∈ db.wal.files.dir, ∀ r ∈ WAL.recoverFile (db.wal.files.data id), EntryClear db.vlog r.key r.entry

theorem Traced.and {db : DB} (h : db.Traced P) (hh : db.Holding Q) (hf : AllFiles Q db.sst)
    (hw : ∀ id ∈ db.wal.files.dir, ∀ r ∈ WAL.recoverFile (db.wal.files.data id), Q r.key r.entry) :
    db.Traced fun key e => P key e ∧ Q key e := by
  refine ⟨⟨fun m hm p hp => ⟨h.holding.memtables m hm p hp, hh.memtables m hm p hp⟩,
    fun l info hi p hp => ⟨h.holding.levels l info hi p hp, hh.levels l info hi p hp⟩⟩,
    fun id hid file hx p hp => ⟨h.files id hid file hx p hp, hf id hid file hx p hp⟩, fun id hid => ?_⟩
  obtain ⟨rs, ht, hr⟩ := h.wal id hid
  have hq := hw id hid
  rw [ht.recover] at hq
  exact ⟨rs, ht, fun r hm => ⟨hr r hm, hq r hm⟩⟩

/-! ## Writes -/

theorem keepsOlder_writeEntry (db : DB) (e : BatchEntry) (fv : AppendFault) (fw : Option Nat) :
    VLog.KeepsOlder db.vlog (db.writeEntry e fv fw).1.vlog := by
  rcases vlog_writeEntry db e fv fw with hv | ⟨key, value, hv⟩
  · rw [hv]
    exact VLog.KeepsOlder.refl _
  · rw [hv]
    exact VLog.keepsOlder_append db.options db.vlog key value .value fv

theorem keepsOlder_writeEntries (f : WriteFaults) (batch : WriteBatch) (i : Nat) (db : DB) :
    VLog.KeepsOlder db.vlog (DB.writeEntries f i batch db).1.vlog :=
  @writeEntries_induct (fun db db' => VLog.KeepsOlder db.vlog db'.vlog) (fun db => VLog.KeepsOlder.refl db.vlog)
    (fun h₁ h₂ => h₁.trans h₂) keepsOlder_writeEntry f batch i db

/-- Deletes leave the value log alone. -/
theorem vlog_writeEntries_deletes (f : WriteFaults) : ∀ (batch : WriteBatch) (i : Nat) (db : DB),
    (∀ key value, BatchEntry.put key value ∉ batch) → (DB.writeEntries f i batch db).1.vlog = db.vlog
  | [], _, _, _ => rfl
  | .put key value :: _, _, _, h => absurd List.mem_cons_self (h key value)
  | .delete key :: batch, i, db, h => by
    have hone : (db.writeEntry (.delete key) (f.vlog i) (f.wal i)).1.vlog = db.vlog := by
      unfold DB.writeEntry
      simp only
      split <;> rfl
    rw [DB.writeEntries]
    split
    · rename_i he
      rw [he] at hone
      exact hone
    · rename_i db₁ he
      rw [he] at hone
      rw [vlog_writeEntries_deletes f batch (i + 1) db₁ fun k v hm => h k v (List.mem_cons_of_mem _ hm)]
      exact hone

/-- Without faults every entry is written. -/
theorem writeEntry_ok {db : DB} (hw : db.Writable) (e : BatchEntry) : (db.writeEntry e .none none).2 = .ok () := by
  unfold DB.writeEntry
  cases e with
  | put key value =>
    obtain ⟨vlog, ptr, he, -⟩ := VLog.appended_append db.options hw.ready key value .value
    simp only [he, WAL.addRecord_opened hw.writer]
  | delete key => simp only [WAL.addRecord_opened hw.writer]

/-- What becomes of the pointers when some entries are written, wherever their records stop. -/
theorem Traced.writeEntries {db : DB} {puts : WriteBatch} (h : db.Traced (Attributed db.vlog.files puts))
    (hw : db.Writable) {batch : WriteBatch} {new : List WALRecord} {ok : Prop} {f : WriteFaults} {i : Nat}
    (hs : Writes db (DB.writeEntries f i batch db).1 batch new ok)
    (hc : (∃ key value, BatchEntry.put key value ∈ batch) → db.Clear) :
    (DB.writeEntries f i batch db).1.Traced (Attributed (DB.writeEntries f i batch db).1.vlog.files (puts ++ batch)) := by
  have hold : db.Traced (Attributed (DB.writeEntries f i batch db).1.vlog.files (puts ++ batch)) := by
    by_cases hput : ∃ key value, BatchEntry.put key value ∈ batch
    · obtain ⟨hh, hf, hl⟩ := hc hput
      refine (h.and hh hf hl).mono fun key e ⟨ha, hclear⟩ => ?_
      rcases ha with hd | ⟨ht, value, hm, hcut⟩
      · exact Or.inl hd
      · refine Or.inr ⟨ht, value, List.mem_append_left _ hm, ?_⟩
        exact hcut.append hw.tidy hs.extended (keepsOlder_writeEntries f batch i db) (hclear ht)
    · have hv := vlog_writeEntries_deletes f batch i db fun key value hm => hput ⟨key, value, hm⟩
      rw [hv]
      exact h.mono fun key e ha => Genuine.mono ha (fun _ hr => hr) fun x hx => List.mem_append_left _ hx
  refine hold.writes hw hs fun r hr => ?_
  rcases hs.records.of r hr with ⟨ht, -⟩ | ⟨ht, value, hm, hh, hd⟩
  · exact Or.inl ht
  · exact Or.inr ⟨ht, value, List.mem_append_right _ hm, [], hh.kept hd⟩

/-- The entries of a batch are written when nothing fails. -/
theorem writeEntries_ok : ∀ (batch : WriteBatch) (i : Nat) (db : DB), db.Writable → (∀ e ∈ batch, e.Fits) →
    db.options.vlogFileSizeLimit < 2 ^ 64 → (DB.writeEntries {} i batch db).1.Bounded →
    (DB.writeEntries {} i batch db).2 = .ok ()
  | [], _, _, _, _, _, _ => rfl
  | e :: batch, i, db, hw, hf, hl, hb => by
    have hok := writeEntry_ok hw e
    have hb₁ : (db.writeEntry e .none none).1.Bounded := hb.of_grows (grows_first {} e batch i db)
    obtain ⟨new, hs⟩ := writeEntry_writes hw (hf e List.mem_cons_self) hl .none none hb₁
    rw [DB.writeEntries] at hb ⊢
    cases he : db.writeEntry e .none none with
    | mk db₁ r =>
      rw [he] at hok
      cases hok
      simp only [he] at hb ⊢
      rw [he] at hs
      have hs₁ : Writes db db₁ [e] new True := hs.imp fun _ => rfl
      have hopt : db₁.options = db.options := by rw [hs₁.same]
      exact writeEntries_ok batch (i + 1) db₁ (hs₁.writable hw) (fun x hx => hf x (List.mem_cons_of_mem _ hx))
        (hopt.symm ▸ hl) hb

theorem Attributed.congr {vlog vlog' : Folder Bytes} (hd : vlog'.dir = vlog.dir) (hb : vlog'.data = vlog.data)
    {puts : WriteBatch} (key : Key) (e : InternalEntry) (h : Attributed vlog puts key e) : Attributed vlog' puts key e :=
  Genuine.mono h (fun _ hc => hc.shorten (fun id hid => hd.symm ▸ hid) fun id => by rw [hb]) fun _ hx => hx

/-- What follows the entries of a batch. -/
theorem Traced.endWrite {db : DB} {puts : WriteBatch} (h : db.Traced (Attributed db.vlog.files puts)) (ht : db.vlog.Tidy)
    (sync : Bool) (fault : CreateFault) {db' : DB}
    (he : db' = ((if sync then db.syncLogs else db).maybeScheduleFlush fault).1) :
    db'.Traced (Attributed db'.vlog.files puts) ∧ db'.vlog.Tidy ∧ db'.options = db.options ∧ db.Grows db' ∧
      (fault = .none → db.Writable → db'.Writable) := by
  have hsync : (if sync then db.syncLogs else db).Traced
        (Attributed (if sync then db.syncLogs else db).vlog.files puts) ∧
      (if sync then db.syncLogs else db).vlog.Tidy ∧ (if sync then db.syncLogs else db).options = db.options ∧
      db.Grows (if sync then db.syncLogs else db) ∧ (db.Writable → (if sync then db.syncLogs else db).Writable) := by
    split
    · have hsame := VLog.sameFiles_sync db.vlog
      exact ⟨h.syncLogs.mono (Attributed.congr hsame.dir hsame.data), tidy_sync ht, rfl, grows_syncLogs db,
        fun hw => hw.syncLogs⟩
    · exact ⟨h, ht, rfl, Grows.refl db, fun hw => hw⟩
  generalize (if sync then db.syncLogs else db) = db₁ at hsync he
  obtain ⟨h₁, ht₁, ho₁, hg₁, hw₁⟩ := hsync
  subst he
  have hgrow := grows_maybeScheduleFlush db₁ fault
  have htr := h₁.maybeScheduleFlush fault
  unfold DB.maybeScheduleFlush at hgrow htr ⊢
  split
  · rename_i hs
    rw [if_pos hs] at hgrow htr
    refine ⟨htr, ht₁, ho₁, hg₁.trans hgrow, fun hf hw => ⟨ht₁, (hw₁ hw).ready, ?_, [], ?_⟩⟩
    · rw [hf, WAL.create_none]
    · rw [hf, WAL.create_none]
      simp only [Folder.data_create_self]
      exact WAL.holds_nil
  · exact ⟨h₁, ht₁, ho₁, hg₁, fun _ hw => hw₁ hw⟩

/-- The counters only grow during a write. -/
theorem Bounded.writeEntries {db : DB} {sync : Bool} {batch : WriteBatch} {f : WriteFaults}
    (h : (db.write sync batch f).1.Bounded) : (DB.writeEntries f 0 batch db).1.Bounded := by
  unfold DB.write at h
  generalize DB.writeEntries f 0 batch db = x at h ⊢
  obtain ⟨db₁, r⟩ := x
  cases r with
  | error s => exact h
  | ok u =>
    have hgrow : db₁.Grows ((if sync then db₁.syncLogs else db₁).maybeScheduleFlush f.create).1 := by
      refine Grows.trans ?_ (grows_maybeScheduleFlush _ f.create)
      split
      · exact grows_syncLogs db₁
      · exact Grows.refl db₁
    exact h.of_grows hgrow

/-- **A write**, wherever it stops. -/
theorem Traced.write {db : DB} {puts : WriteBatch} (h : db.Traced (Attributed db.vlog.files puts)) (hw : db.Writable)
    (hl : db.options.vlogFileSizeLimit < 2 ^ 64) (sync : Bool) {batch : WriteBatch} (hf : ∀ e ∈ batch, e.Fits)
    (hc : (∃ key value, BatchEntry.put key value ∈ batch) → db.Clear) (f : WriteFaults)
    (hb : (db.write sync batch f).1.Bounded) :
    (db.write sync batch f).1.Traced (Attributed (db.write sync batch f).1.vlog.files (puts ++ batch)) ∧
      (db.write sync batch f).1.vlog.Tidy ∧ (db.write sync batch f).1.options = db.options ∧
      (f = {} → (db.write sync batch f).1.Writable) := by
  have hspec : (DB.writeEntries f 0 batch db).1.Bounded →
      (DB.writeEntries f 0 batch db).1.Traced (Attributed (DB.writeEntries f 0 batch db).1.vlog.files (puts ++ batch)) ∧
        (DB.writeEntries f 0 batch db).1.vlog.Tidy ∧ (DB.writeEntries f 0 batch db).1.options = db.options ∧
        ((DB.writeEntries f 0 batch db).2 = .ok () → (DB.writeEntries f 0 batch db).1.Writable) := by
    intro hb₁
    obtain ⟨new, hs⟩ := writeEntries_writes f batch 0 db hw hf hl hb₁
    refine ⟨h.writeEntries hw hs hc, hs.tidy, ?_, fun hok => (hs.imp fun _ => hok).writable hw⟩
    rw [hs.same]
  have hok : f = {} → (DB.writeEntries f 0 batch db).1.Bounded → (DB.writeEntries f 0 batch db).2 = .ok () := by
    rintro rfl hb₁
    exact writeEntries_ok batch 0 db hw hf hl hb₁
  have hmid := hb.writeEntries
  unfold DB.write
  generalize DB.writeEntries f 0 batch db = x at hspec hok hmid ⊢
  obtain ⟨db₁, r⟩ := x
  cases r with
  | error s =>
    obtain ⟨h₁, h₂, h₃, -⟩ := hspec hmid
    refine ⟨h₁, h₂, h₃, fun hnone => ?_⟩
    cases hok hnone hmid
  | ok u =>
    obtain ⟨h₁, h₂, h₃, h₄⟩ := hspec hmid
    obtain ⟨g₁, g₂, g₃, -, g₅⟩ := h₁.endWrite h₂ sync f.create rfl
    refine ⟨g₁, g₂, g₃.trans h₃, fun hnone => g₅ ?_ (h₄ rfl)⟩
    rw [hnone]

end DB

/-! ## Room in the counters -/

namespace VLog

theorem currentFileId_append_le (o : Options) (v : VLog) (key value : Bytes) (type : ValueType) (fault : AppendFault) :
    (v.append o key value type fault).1.currentFileId ≤ v.currentFileId + 1 := by
  have hrot : (v.rotateFile fault).1.currentFileId ≤ v.currentFileId + 1 := by
    have hsync : (if v.writer = .opened then v.syncFile else v).currentFileId = v.currentFileId := by
      split <;> rfl
    unfold rotateFile
    split
    · exact Nat.le_succ _
    split
    · exact Nat.le_succ _
    split
    · exact Nat.le_succ _
    simp only
    split <;> exact (congrArg (· + 1) hsync).le
  have hrec : ∀ u : VLog, (u.appendRecord o key value type fault).1.currentFileId = u.currentFileId := by
    intro u
    unfold appendRecord
    simp only
    split
    · rfl
    · split
      · rfl
      · rfl
      · split
        · split <;> rfl
        · rfl
  unfold append
  split
  · exact Nat.le_succ _
  · split
    · split
      · rename_i he
        rw [he] at hrot
        exact hrot
      · rename_i he
        rw [he] at hrot
        rw [hrec]
        exact hrot
    · rw [hrec]
      exact Nat.le_succ _

end VLog

namespace DB

/-- The counters leave room for `n` entries. -/
structure Room (db : DB) (n : Nat) : Prop where
  vlog : db.vlog.currentFileId + n < 100000
  sequence : db.sequenceNumber + n ≤ 2 ^ 64

theorem Room.writeEntry {db : DB} {n : Nat} (h : db.Room (n + 1)) (ht : db.vlog.Tidy) (e : BatchEntry) (fv : AppendFault)
    (fw : Option Nat) : (db.writeEntry e fv fw).1.Room n ∧ (db.writeEntry e fv fw).1.vlog.Tidy := by
  have hid := h.vlog
  have hseq := h.sequence
  have hsequence : (db.writeEntry e fv fw).1.sequenceNumber + n ≤ 2 ^ 64 := by
    rw [sequence_writeEntry]
    omega
  rcases vlog_writeEntry db e fv fw with hv | ⟨key, value, hv⟩
  · refine ⟨⟨?_, hsequence⟩, hv ▸ ht⟩
    rw [hv]
    omega
  · have happ := VLog.currentFileId_append_le db.options db.vlog key value .value fv
    refine ⟨⟨?_, hsequence⟩, hv ▸ ht.append db.options key value .value fv⟩
    rw [hv]
    omega

theorem Room.bounded {db : DB} {n : Nat} (h : db.Room n) (ht : db.vlog.Tidy) : db.Bounded := by
  refine ⟨fun id hid => ?_, (Nat.le_add_right _ n).trans h.sequence⟩
  have hle := ht.newest id hid
  have hv := h.vlog
  omega

theorem Room.writeEntries (f : WriteFaults) : ∀ (batch : WriteBatch) (i : Nat) (db : DB), db.Room batch.length →
    db.vlog.Tidy → (DB.writeEntries f i batch db).1.Bounded
  | [], _, _, h, ht => h.bounded ht
  | e :: batch, i, db, h, ht => by
    obtain ⟨hr, ht'⟩ := Room.writeEntry (n := batch.length) h ht e (f.vlog i) (f.wal i)
    rw [DB.writeEntries]
    generalize db.writeEntry e (f.vlog i) (f.wal i) = x at hr ht'
    obtain ⟨db₁, r⟩ := x
    cases r with
    | error s => exact hr.bounded ht'
    | ok u => exact Room.writeEntries f batch (i + 1) db₁ hr ht'

/-- The counters stay within their bounds. -/
theorem Room.write {db : DB} {batch : WriteBatch} (h : db.Room batch.length) (ht : db.vlog.Tidy) (sync : Bool)
    (f : WriteFaults) : (db.write sync batch f).1.Bounded := by
  have hb := Room.writeEntries f batch 0 db h ht
  unfold DB.write
  generalize DB.writeEntries f 0 batch db = x at hb ⊢
  obtain ⟨db₁, r⟩ := x
  cases r with
  | error s => exact hb
  | ok u =>
    have hdir : db₁.vlog.sync.files.dir = db₁.vlog.files.dir := by
      unfold VLog.sync
      split <;> rfl
    have hsync : (if sync then db₁.syncLogs else db₁).Bounded := by
      split
      · exact ⟨fun id hid => hb.vlog id (hdir ▸ hid), hb.sequence⟩
      · exact hb
    show ((if sync then db₁.syncLogs else db₁).maybeScheduleFlush f.create).1.Bounded
    generalize (if sync then db₁.syncLogs else db₁) = db₂ at hsync
    unfold DB.maybeScheduleFlush
    split
    · exact ⟨hsync.vlog, hsync.sequence⟩
    · exact hsync

end DB

/-! ## Lookups -/

theorem Node.mem_of_find {κ α : Type} [LinearOrder κ] {key : κ} {value : α} {t : Node κ α} (h : t.find key = some value) :
    (key, value) ∈ t.inorder := by
  induction t with
  | nil => cases h
  | node k v l r n ihl ihr =>
    rw [find] at h
    rw [inorder, List.mem_append, List.mem_cons]
    split at h
    · exact Or.inl (ihl h)
    · split at h
      · exact Or.inr (Or.inr (ihr h))
      · rename_i hlt hgt
        cases h
        rw [le_antisymm (not_lt.mp hgt) (not_lt.mp hlt)]
        exact Or.inr (Or.inl rfl)

theorem MemTable.mem_of_get {m : MemTable} {key : Key} {e : InternalEntry} (h : (m.get key).toOption = some e) :
    (key, e) ∈ m.getSortedEntries := by
  unfold MemTable.get at h
  split at h
  · rename_i hf
    cases h
    rw [MemTable.getSortedEntries, AVLTree.entries_eq]
    exact Node.mem_of_find hf
  · cases h

theorem SSTableReader.mem_of_scan {r : SSTableReader} {key : Key} {e : InternalEntry} {endOffset : Nat} :
    ∀ {n offset : Nat}, r.scan key endOffset n offset = .ok e → (key, e) ∈ r.entries
  | 0, _, h => by cases h
  | n + 1, offset, h => by
    rw [SSTableReader.scan] at h
    split at h
    · split at h
      · cases h
      · rename_i hr
        split at h
        · rename_i hk
          cases h
          exact hk ▸ SSTableReader.mem_of_readEntryAt hr
        · split at h
          · cases h
          · exact SSTableReader.mem_of_scan h
    · cases h

theorem SSTableReader.mem_of_get {r : SSTableReader} {key : Key} {e : InternalEntry} (h : r.get key = .ok e) :
    (key, e) ∈ r.entries := by
  unfold SSTableReader.get at h
  split at h
  · cases h
  · split at h
    · cases h
    · exact SSTableReader.mem_of_scan h

theorem SSTableInfo.mem_of_lookupTable {fails : Nat → Option Status} {info : SSTableInfo} {key : Key} {e : InternalEntry}
    (h : (info.lookupTable fails key).toOption = some e) : (key, e) ∈ info.reader.entries := by
  unfold SSTableInfo.lookupTable at h
  split at h
  · cases h
  · cases hg : info.reader.get key with
    | error s =>
      rw [hg] at h
      cases h
    | ok x =>
      rw [hg] at h
      cases h
      exact SSTableReader.mem_of_get hg

namespace DB

/-- **A lookup** finds an entry that the database holds. -/
theorem Holding.findLatest {db : DB} (h : db.Holding P) {fails : Nat → Option Status} {key : Key} {e : InternalEntry}
    (hf : db.findLatest fails key = some e) : P key e := by
  rcases Option.or_eq_some_iff.mp hf with hm | ⟨-, ht⟩
  · rcases Option.or_eq_some_iff.mp hm with ha | ⟨-, hi⟩
    · exact h.memtables _ List.mem_cons_self _ (MemTable.mem_of_get ha)
    · obtain ⟨m, hmem, hget⟩ := List.exists_of_findSome?_eq_some hi
      exact h.memtables m (List.mem_cons_of_mem _ hmem) _ (MemTable.mem_of_get hget)
  · rcases Option.or_eq_some_iff.mp ht with h0 | ⟨-, hd⟩
    · obtain ⟨info, hmem, hget⟩ := List.exists_of_findSome?_eq_some h0
      exact h.levels 0 info (List.mem_reverse.mp hmem) _ (SSTableInfo.mem_of_lookupTable hget)
    · obtain ⟨lvl, -, hl⟩ := List.exists_of_findSome?_eq_some hd
      obtain ⟨info, hmem, hget⟩ := List.exists_of_findSome?_eq_some hl
      split at hget
      · exact h.levels lvl info hmem _ (SSTableInfo.mem_of_lookupTable hget)
      · cases hget

/-- **What `Get` returns** was put under its key. -/
theorem Traced.get {db : DB} {puts : WriteBatch} (h : db.Traced (Attributed db.vlog.files puts)) {key value : Bytes}
    (hg : db.get key = .ok value) : .put key value ∈ puts := by
  unfold DB.get DB.getWith DB.resolve at hg
  split at hg
  · cases hg
  · rename_i e he
    split at hg
    · cases hg
    · rename_i hd
      rcases h.holding.findLatest he with ht | ⟨-, value', hm, hc⟩
      · exact absurd ht hd
      · split at hg
        · rename_i r hr
          cases hg
          rw [hc.read hr]
          exact hm
        · cases hg

end DB

/-! ## Runs -/

/-- What is known of an open database. -/
structure DB.Attested (puts : WriteBatch) (db : DB) : Prop where
  traced : db.Traced (Attributed db.vlog.files puts)
  writable : db.Writable
  limit : db.options.vlogFileSizeLimit < 2 ^ 64
  ids : ∀ id ∈ db.vlog.files.dir, id < 100000

/-- What is known of the files of a machine that is off. -/
structure Disk.Attested (puts : WriteBatch) (d : Disk) : Prop where
  files : AllFiles (Attributed d.vlog puts) d.sst
  wal : AllLogged (Attributed d.vlog puts) d.wal
  ids : ∀ id ∈ d.vlog.dir, 1 ≤ id ∧ id < 100000

theorem Disk.Attested.lose {puts : WriteBatch} {d : Disk} (h : d.Attested puts) (loss : Loss) :
    (d.lose loss).Attested puts := by
  have hcut : ∀ key e, Attributed d.vlog puts key e → Attributed (d.lose loss).vlog puts key e := fun key e he =>
    Genuine.mono he (fun _ hc => hc.shorten (fun id hid => hid) (Folder.data_lose d.vlog loss.vlog)) fun _ hx => hx
  exact ⟨h.files.mono hcut, AllLogged.lose (h.wal.mono hcut) loss.wal, h.ids⟩

/-- The value log that is opened has the files it had, unless it had none. -/
theorem attributed_openLog {d : Disk} {puts : WriteBatch} (h : d.Attested puts) (key : Key) (e : InternalEntry)
    (he : Attributed d.vlog puts key e) : Attributed (VLog.openLog d.vlog).files puts key e := by
  obtain ⟨-, -, hsame, -⟩ := VLog.openLog_spec h.ids
  refine Genuine.mono he (fun value hc => ?_) fun _ hx => hx
  have hne : d.vlog.dir ≠ [] := by
    obtain ⟨more, hl⟩ := id hc
    exact List.ne_nil_of_mem hl.file
  rw [hsame hne]
  exact hc

/-- **An opening.** -/
theorem Disk.Attested.openDB {puts : WriteBatch} {d : Disk} (h : d.Attested puts) (o : Options) (f : OpenFaults) :
    (DB.openDB o d f).1.disk.Attested puts ∧
      (o.vlogFileSizeLimit < 2 ^ 64 → (DB.openDB o d f).2 = .ok () → (DB.openDB o d f).1.Attested puts) := by
  obtain ⟨h₁, h₂, h₃, h₄⟩ := DB.openDB_traced h.files h.wal o f
  obtain ⟨hr, ht, -, hid⟩ := VLog.openLog_spec h.ids
  have hopen : ∀ v : VLog, v = VLog.openLog d.vlog → (∀ key e, Attributed d.vlog puts key e → Attributed v.files puts key e) ∧
      v.Ready ∧ v.Tidy ∧ ∀ id ∈ v.files.dir, id < 100000 := by
    rintro v rfl
    exact ⟨attributed_openLog h, hr, ht, hid⟩
  constructor
  · rcases h₃ with hv | hv
    · refine ⟨h₁.mono fun key e he => ?_, h₂.mono fun key e he => ?_, fun id hm => ?_⟩
      · show Attributed (DB.openDB o d f).1.vlog.files puts key e
        rw [hv]
        exact he
      · show Attributed (DB.openDB o d f).1.vlog.files puts key e
        rw [hv]
        exact he
      · exact h.ids id (hv ▸ hm)
    · obtain ⟨g₁, -, g₂, g₃⟩ := hopen _ hv
      exact ⟨h₁.mono g₁, h₂.mono g₁, fun id hm => ⟨g₂.pos id hm, g₃ id hm⟩⟩
  · intro hl hok
    obtain ⟨k₁, k₂, ho, k₃, k₄⟩ := h₄ hok
    obtain ⟨g₁, g₂, g₃, g₄⟩ := hopen _ k₂
    exact ⟨DB.Traced.mono ⟨k₁, h₁, h₂⟩ g₁, ⟨g₃, g₂, k₃, [], k₄⟩, ho.symm ▸ hl, g₄⟩

theorem DB.Attested.off {puts : WriteBatch} {db : DB} (h : db.Traced (Attributed db.vlog.files puts)) (ht : db.vlog.Tidy)
    (hi : ∀ id ∈ db.vlog.files.dir, id < 100000) : db.disk.Attested puts :=
  ⟨h.files, h.wal, fun id hid => ⟨ht.pos id hid, hi id hid⟩⟩

theorem DB.Attested.flushFront {puts : WriteBatch} {db : DB} (h : db.Attested puts) (f : FlushFaults) :
    (db.flushFront f).Attested puts := by
  have htr := h.traced.flushFront f
  have hsame : (db.flushFront f).vlog = db.vlog ∧ (db.flushFront f).wal = db.wal ∧
      (db.flushFront f).options = db.options := by
    unfold DB.flushFront
    split
    · exact ⟨rfl, rfl, rfl⟩
    · rename_i m _ _
      have hi := DB.onlyIndex_flush db m f
      exact ⟨hi.vlog, hi.wal, hi.options⟩
  obtain ⟨hv, hw, ho⟩ := hsame
  refine ⟨hv.symm ▸ htr, ⟨hv.symm ▸ h.writable.tidy, hv.symm ▸ h.writable.ready, hw.symm ▸ h.writable.writer,
    hw.symm ▸ h.writable.whole⟩, ho.symm ▸ h.limit, hv.symm ▸ h.ids⟩

theorem DB.Attested.compactLevel {puts : WriteBatch} {db : DB} (h : db.Attested puts) (lvl : Int) (f : CompactFaults) :
    (db.compactLevel lvl f).1.Attested puts := by
  have htr := h.traced.compactLevel lvl f
  have hi := DB.onlyIndex_compact db lvl f
  refine ⟨hi.vlog.symm ▸ htr, ⟨hi.vlog.symm ▸ h.writable.tidy, hi.vlog.symm ▸ h.writable.ready,
    hi.wal.symm ▸ h.writable.writer, hi.wal.symm ▸ h.writable.whole⟩, hi.options.symm ▸ h.limit, hi.vlog.symm ▸ h.ids⟩

namespace Machine

/-- The sizes that the formats and the counters can hold. -/
def InBounds : Machine → Step → Prop
  | .on db, .write _ batch => (∀ e ∈ batch, e.Fits) ∧ db.Room batch.length
  | .on db, .losePower (.write _ batch _) _ => (∀ e ∈ batch, e.Fits) ∧ db.Room batch.length
  | .off _, .reopen o => o.vlogFileSizeLimit < 2 ^ 64
  | _, _ => True

/-- A value is put only when no pointer reaches past the end of the value log file that is written. -/
def Clear : Machine → Step → Prop
  | .on db, .write _ batch => (∃ key value, BatchEntry.put key value ∈ batch) → db.Clear
  | .on db, .losePower (.write _ batch _) _ => (∃ key value, BatchEntry.put key value ∈ batch) → db.Clear
  | _, _ => True

/-- The entries that a run writes, or tries to write: only an open database writes. -/
def history : Machine → List Step → WriteBatch
  | _, [] => []
  | .on db, s :: steps => s.entries ++ ((Machine.on db).step s).history steps
  | .off d, s :: steps => ((Machine.off d).step s).history steps

/-- What is known of a machine when the entries were written, or tried. -/
def Attested (puts : WriteBatch) : Machine → Prop
  | .on db => db.Attested puts
  | .off d => d.Attested puts

/-- **A step of a machine that is on.** -/
theorem Attested.step_on {puts : WriteBatch} {db : DB} {s : Step} (h : db.Attested puts) (hb : (Machine.on db).InBounds s)
    (hc : (Machine.on db).Clear s) : ((Machine.on db).step s).Attested (puts ++ s.entries) := by
  have hnone : s.entries = [] → puts ++ s.entries = puts := by
    intro he
    rw [he, List.append_nil]
  cases s with
  | write sync batch =>
    have hbound := DB.Room.write hb.2 h.writable.tidy sync {}
    obtain ⟨h₁, h₂, h₃, h₄⟩ := h.traced.write h.writable h.limit sync hb.1 hc {} hbound
    exact ⟨h₁, h₄ rfl, h₃.symm ▸ h.limit, hbound.vlog⟩
  | flush =>
    rw [hnone rfl]
    exact h.flushFront {}
  | compactLevel lvl =>
    rw [hnone rfl]
    exact h.compactLevel lvl .none
  | losePower during loss =>
    refine Disk.Attested.lose (d := (db.interrupt during).disk) ?_ loss
    cases during with
    | nothing =>
      rw [hnone rfl]
      exact DB.Attested.off h.traced h.writable.tidy h.ids
    | write sync batch f =>
      have hbound := DB.Room.write hb.2 h.writable.tidy sync f
      obtain ⟨h₁, h₂, -, -⟩ := h.traced.write h.writable h.limit sync hb.1 hc f hbound
      exact DB.Attested.off h₁ h₂ hbound.vlog
    | flush f =>
      rw [hnone rfl]
      have hf := h.flushFront f
      exact DB.Attested.off hf.traced hf.writable.tidy hf.ids
    | compactLevel lvl f =>
      rw [hnone rfl]
      have hf := h.compactLevel lvl f
      exact DB.Attested.off hf.traced hf.writable.tidy hf.ids
  | losePowerOpening _ _ _ | reopen _ =>
    rw [hnone rfl]
    exact h

/-- **A step of a machine that is off.** -/
theorem Attested.step_off {puts : WriteBatch} {d : Disk} {s : Step} (h : d.Attested puts)
    (hb : (Machine.off d).InBounds s) : ((Machine.off d).step s).Attested puts := by
  cases s with
  | reopen o =>
    obtain ⟨h₁, h₂⟩ := h.openDB o .none
    rcases step_reopen (d := d) (o := o) with ⟨db, hopen, he⟩ | ⟨db, st, hopen, he⟩
    · rw [he]
      rw [hopen] at h₂
      exact h₂ hb rfl
    · rw [he]
      rw [hopen] at h₁
      exact h₁
  | losePower during loss => exact h.lose loss
  | losePowerOpening o f loss => exact (h.openDB o f).1.lose loss
  | write _ _ | flush | compactLevel _ => exact h

theorem Attested.run : ∀ {steps : List Step} {m : Machine} {puts : WriteBatch}, m.Attested puts → Along InBounds m steps →
    Along Clear m steps → (m.run steps).Attested (puts ++ m.history steps)
  | [], m, puts, h, _, _ => by
    rw [show m.history [] = [] from by cases m <;> rfl, List.append_nil]
    exact h
  | s :: steps, .on db, puts, h, hb, hc => by
    rw [history, ← List.append_assoc]
    exact (Attested.step_on h hb.1 hc.1).run hb.2 hc.2
  | s :: steps, .off d, puts, h, hb, hc => by
    rw [history]
    exact (Attested.step_off h hb.1).run hb.2 hc.2

theorem attested_start : start.Attested [] :=
  ⟨fun _ hid => absurd hid List.not_mem_nil, fun _ hid => absurd hid List.not_mem_nil,
    fun _ hid => absurd hid List.not_mem_nil⟩

/-- **No reads across keys.** In every run of writes, flushes, compactions, power losses and openings in which values are
put only while no pointer reaches past the end of the value log file that is written, a `Get` that succeeds returns a value
that was put under its key. -/
theorem no_cross_key_reads {steps : List Step} (hb : Along InBounds start steps) (hc : Along Clear start steps) {db : DB}
    (hdb : start.run steps = .on db) {key value : Bytes} (hg : db.get key = .ok value) :
    .put key value ∈ start.history steps := by
  have h := attested_start.run hb hc
  rw [hdb] at h
  exact DB.Traced.get (DB.Attested.traced h) hg

/-- The files behind a write, when the power loss takes nothing of the WAL and leaves `n` bytes of the value log. -/
def putThenLost (n : Nat) : Disk :=
  ((DB.fresh {}).run [.write false [.put [1] [7]]]).disk.lose ⟨fun _ => n, fun _ => 1000⟩

/-- The steps that lead there, and an opening. -/
def putLoseReopen (n : Nat) : List Step :=
  [.reopen {}, .write false [.put [1] [7]], .losePower .nothing ⟨fun _ => n, fun _ => 1000⟩, .reopen {}]

theorem opens_start : start.Opens {} .empty (DB.fresh {}) := opens_of_ok rfl (by decide +kernel)

theorem run_putLoseReopen {n : Nat} (h : (DB.openDB {} (putThenLost n) .none).2 = .ok ()) :
    start.run (putLoseReopen n) = .on (DB.openDB {} (putThenLost n) .none).1 := by
  have hopen : (Machine.off (putThenLost n)).Opens {} (putThenLost n) _ := opens_of_ok rfl h
  rw [putLoseReopen, run_cons, opens_start.step]
  exact hopen.step

/-- A value that was kept is read. -/
theorem no_cross_key_reads_sample : .put [1] [7] ∈ start.history (putLoseReopen 1000) := by
  have hopen : (DB.openDB {} (putThenLost 1000) .none).2 = .ok () := by decide +kernel
  have hget : (DB.openDB {} (putThenLost 1000) .none).1.get [1] = .ok [7] := by decide +kernel
  have hclear : (DB.fresh {}).Clear := by
    refine ⟨⟨fun m hm p hp => ?_, fun l info hi => absurd hi List.not_mem_nil⟩, fun id hid => absurd hid List.not_mem_nil,
      fun id hid r hr => ?_⟩
    · rw [List.mem_singleton.mp hm] at hp
      cases hp
    · rw [List.mem_singleton.mp hid] at hr
      cases hr
  refine no_cross_key_reads ?_ ?_ (run_putLoseReopen hopen) hget
  · refine ⟨by show _ < _; decide, ?_⟩
    rw [opens_start.step]
    refine ⟨⟨fun e he => ?_, by decide +kernel, by decide +kernel⟩, trivial, by show _ < _; decide, trivial⟩
    rw [List.mem_singleton.mp he]
    exact ⟨by decide, by decide⟩
  · refine ⟨trivial, ?_⟩
    rw [opens_start.step]
    exact ⟨fun _ => hclear, trivial, trivial, trivial⟩

/-- **A read across keys.** The power loss leaves the WAL record of the first value, but nothing of the value log. The next
value is written where the first one was, and it is read under both keys. -/
theorem cross_key_read : ∃ db, start.run (putLoseReopen 0 ++ [.write false [.put [2] [8]]]) = .on db ∧
    db.get [1] = .ok [8] ∧ .put [1] [8] ∉ start.history (putLoseReopen 0 ++ [.write false [.put [2] [8]]]) := by
  have hopen : (DB.openDB {} (putThenLost 0) .none).2 = .ok () := by decide +kernel
  refine ⟨((DB.openDB {} (putThenLost 0) .none).1.write false [.put [2] [8]] {}).1, ?_, by decide +kernel,
    by decide +kernel⟩
  rw [run_append, run_putLoseReopen hopen]
  rfl

end Machine

end SplitKV
