import SplitKV.PowerLoss.Opening
import SplitKV.PowerLoss.Write
import SplitKV.VLog.Open

/-!
# Pointers and power losses

A power loss may cut the value log behind a record that a WAL record or a table points at. While nothing is appended
under such a pointer, reading it fails (`VLog.Cut.read`). A database is traced when each of its entries is a tombstone, or
points at the place of a record of a put, of which perhaps only the first bytes are left.
-/

namespace SplitKV

namespace VLog

/-- The record of the key and the value lies at the place of the pointer, when the bytes `more` follow its file. -/
structure Lies (files : Folder Bytes) (ptr : VLogPointer) (key value more : Bytes) : Prop where
  file : ptr.fileId ∈ files.dir
  valueSize : ptr.valueSize = value.length
  fits : Fits key value
  record : ∃ pre, ptr.offset = pre.length ∧ pre ++ encodeRecord .value key value <+: files.data ptr.fileId ++ more

/-- The record is there. -/
def Kept (files : Folder Bytes) (ptr : VLogPointer) (key value : Bytes) : Prop := Lies files ptr key value []

/-- The record is there, or some of its first bytes at the end of its file, or its file ends before its place. -/
def Cut (files : Folder Bytes) (ptr : VLogPointer) (key value : Bytes) : Prop := ∃ more, Lies files ptr key value more

/-- The file reaches to the end of the record of the key behind the pointer. -/
def Within (files : Folder Bytes) (ptr : VLogPointer) (key : Bytes) : Prop :=
  ptr.offset + 13 + key.length + ptr.valueSize ≤ (files.data ptr.fileId).length

theorem Holds.kept {v : VLog} {ptr : VLogPointer} {key value : Bytes} (h : Holds v ptr key value)
    (hd : ptr.fileId ∈ v.files.dir) : Kept v.files ptr key value := by
  obtain ⟨pre, post, he, ho⟩ := h.record
  refine ⟨hd, h.valueSize, h.fits, pre, ho, post, ?_⟩
  rw [List.append_nil, he, List.append_assoc]

/-- A file that reaches behind the record has it. -/
theorem Cut.kept {files : Folder Bytes} {ptr : VLogPointer} {key value : Bytes} (h : Cut files ptr key value)
    (hw : Within files ptr key) : Kept files ptr key value := by
  obtain ⟨more, hfile, hsize, hfits, pre, ho, hp⟩ := h
  refine ⟨hfile, hsize, hfits, pre, ho, ?_⟩
  rw [List.append_nil]
  refine List.prefix_of_prefix_length_le hp (List.prefix_append _ more) ?_
  unfold Within at hw
  rw [List.length_append, length_encodeRecord, ← ho, ← hsize]
  omega

/-- A file that is cut. -/
theorem Cut.shorten {files files' : Folder Bytes} {ptr : VLogPointer} {key value : Bytes} (h : Cut files ptr key value)
    (hd : ∀ id ∈ files.dir, id ∈ files'.dir) (hp : ∀ id, files'.data id <+: files.data id) : Cut files' ptr key value := by
  obtain ⟨more, hfile, hsize, hfits, pre, ho, hr⟩ := h
  obtain ⟨lost, hlost⟩ := hp ptr.fileId
  refine ⟨lost ++ more, hd _ hfile, hsize, hfits, pre, ho, ?_⟩
  rw [← List.append_assoc, hlost]
  exact hr

/-- A file that grows behind the record. -/
theorem Kept.mono {files files' : Folder Bytes} {ptr : VLogPointer} {key value : Bytes} (h : Kept files ptr key value)
    (hd : ∀ id ∈ files.dir, id ∈ files'.dir) (hp : ∀ id ∈ files.dir, files.data id <+: files'.data id) :
    Kept files' ptr key value := by
  obtain ⟨hfile, hsize, hfits, pre, ho, hr⟩ := h
  refine ⟨hd _ hfile, hsize, hfits, pre, ho, ?_⟩
  rw [List.append_nil] at hr ⊢
  exact hr.trans (hp _ hfile)

theorem Kept.read {v : VLog} {ptr : VLogPointer} {key value : Bytes} (h : Kept v.files ptr key value) :
    v.read ptr = .ok (key, value) := by
  obtain ⟨hfile, hsize, hfits, pre, ho, post, hp⟩ := h
  have hread : readRecord (pre ++ (encodeRecord .value key value ++ post)) ⟨ptr.fileId, pre.length, value.length⟩ =
      .ok (key, value) := readRecord_encode hfits pre post ptr.fileId
  rw [← ho, ← hsize] at hread
  rw [List.append_nil, List.append_assoc] at hp
  rw [VLog.read, if_pos (canOpen_of_mem hfile), ← hp]
  exact hread

theorem Cut.read_short {v : VLog} {ptr : VLogPointer} {key value : Bytes} (h : Cut v.files ptr key value)
    (hw : ¬Within v.files ptr key) : ∃ msg, v.read ptr = .error (.Corruption msg) := by
  obtain ⟨more, hfile, hsize, hfits, pre, ho, hp⟩ := h
  unfold Within at hw
  rw [VLog.read, if_pos (canOpen_of_mem hfile)]
  exact readRecord_cut hfits ho hsize hp (by omega)

/-- **What a pointer reads** is the value it was made for. -/
theorem Cut.read {v : VLog} {ptr : VLogPointer} {key value : Bytes} (h : Cut v.files ptr key value) {kv : Bytes × Bytes}
    (hr : v.read ptr = .ok kv) : kv = (key, value) := by
  by_cases hw : Within v.files ptr key
  · have hread := (h.kept hw).read
    rw [hread] at hr
    exact (Except.ok.inj hr).symm
  · obtain ⟨msg, hmsg⟩ := h.read_short hw
    rw [hmsg] at hr
    cases hr

end VLog

/-! ## Databases -/

/-- The entry is a tombstone, or it points at the value of a put of its key, as `R` says. -/
def Genuine (R : VLogPointer → Bytes → Bytes → Prop) (puts : WriteBatch) (key : Key) (e : InternalEntry) : Prop :=
  e.type = .deletion ∨ e.type = .value ∧ ∃ value, .put key value ∈ puts ∧ R e.vlogPtr key value

theorem Genuine.mono {R R' : VLogPointer → Bytes → Bytes → Prop} {puts puts' : WriteBatch} {key : Key} {e : InternalEntry}
    (h : Genuine R puts key e) (hr : ∀ value, R e.vlogPtr key value → R' e.vlogPtr key value)
    (hp : ∀ x ∈ puts, x ∈ puts') : Genuine R' puts' key e :=
  h.imp_right fun ⟨ht, value, hm, hv⟩ => ⟨ht, value, hp _ hm, hr value hv⟩

variable {P Q : Key → InternalEntry → Prop}

/-- `P` holds of every entry that the records of the WAL files stand for. -/
def AllLogged (P : Key → InternalEntry → Prop) (wal : Folder Bytes) : Prop :=
  ∀ id ∈ wal.dir, ∃ rs, WAL.Torn (wal.data id) rs ∧ ∀ r ∈ rs, P r.key r.entry

theorem AllLogged.mono {wal : Folder Bytes} (h : AllLogged P wal) (hq : ∀ key e, P key e → Q key e) : AllLogged Q wal := by
  intro id hid
  obtain ⟨rs, ht, hr⟩ := h id hid
  exact ⟨rs, ht, fun r hm => hq _ _ (hr r hm)⟩

theorem AllLogged.create {wal : Folder Bytes} (h : AllLogged P wal) (id : Nat) : AllLogged P (wal.create id []) := by
  intro i hi
  by_cases he : i = id
  · refine ⟨[], Or.inl ?_, fun r hr => absurd hr List.not_mem_nil⟩
    rw [he, Folder.data_create_self]
    exact WAL.holds_nil
  · rw [Folder.data_create_of_ne _ he]
    exact h i ((Folder.mem_dir_create.mp hi).resolve_left he)

theorem AllLogged.congr {wal wal' : Folder Bytes} (h : AllLogged P wal) (hd : wal'.data = wal.data)
    (hdir : wal'.dir = wal.dir) : AllLogged P wal' := by
  intro id hid
  rw [hd]
  exact h id (hdir ▸ hid)

/-- The records that recovery reads. -/
theorem AllLogged.recover {wal : Folder Bytes} (h : AllLogged P wal) {id : Nat} (hid : id ∈ wal.dir) :
    ∀ r ∈ WAL.recoverFile (wal.data id), P r.key r.entry := by
  obtain ⟨rs, ht, hr⟩ := h id hid
  rw [ht.recover]
  exact hr

theorem AllLogged.lose {wal : Folder Bytes} (h : AllLogged P wal) (kept : Nat → Nat) : AllLogged P (wal.lose kept) := by
  intro id hid
  obtain ⟨rs, ht, hr⟩ := h id hid
  obtain ⟨rs', ht', hsub⟩ := ht.take (max (wal.synced id) (kept id))
  exact ⟨rs', ht', fun r hm => hr r (hsub.subset hm)⟩

/-- A record that fits is replayed as the entry it stands for. -/
theorem WALRecord.Replays.eq_entry {r : WALRecord} {e : InternalEntry} (h : r.Replays e) (hf : WAL.Fits r) : e = r.entry := by
  rcases h with ⟨ht, rfl⟩ | ⟨ht, rfl⟩
  · rw [WALRecord.entry, ht]
  · rcases hf.kind with hk | ⟨-, hk⟩
    · rw [ht] at hk
      cases hk
    · rw [WALRecord.entry, ht, hk]

theorem AllLogged.createFile {w : WAL} (h : AllLogged P w.files) (id : Nat) (fault : CreateFault) :
    AllLogged P (w.create id fault).1.files := by
  unfold WAL.create
  split
  · exact h
  · split
    · exact h
    · exact h.create id

/-- The entries that the WAL files are replayed into. -/
theorem AllLogged.replayed {wal : Folder Bytes} (h : AllLogged P wal) (ids : List Nat) : AllReplayed P wal ids := by
  intro id _ hid r hr e he
  obtain ⟨rs, ht, hp⟩ := h id hid
  rw [ht.recover] at hr
  rw [he.eq_entry (ht.fits r hr)]
  exact hp r hr

namespace DB

/-- `P` holds of every entry that a database holds, has on disk or has in its log. -/
structure Traced (P : Key → InternalEntry → Prop) (db : DB) : Prop where
  holding : db.Holding P
  files : AllFiles P db.sst
  wal : AllLogged P db.wal.files

theorem Traced.mono {db : DB} (h : db.Traced P) (hq : ∀ key e, P key e → Q key e) : db.Traced Q :=
  ⟨h.holding.mono hq, h.files.mono hq, h.wal.mono hq⟩

/-- **The entries of a batch**, wherever their records stop. -/
theorem Traced.writes {db db' : DB} (h : db.Traced P) (hw : db.Writable) {batch : WriteBatch} {new : List WALRecord}
    {ok : Prop} (hs : Writes db db' batch new ok) (hn : ∀ r ∈ new, P r.key r.entry) : db'.Traced P := by
  refine ⟨⟨fun m hm => ?_, fun l => ?_⟩, ?_, fun id hid => ?_⟩
  · rw [hs.same] at hm
    rcases List.mem_cons.mp hm with rfl | hm
    · intro p hp
      rcases hs.records.memtable p hp with hp | ⟨r, hr, rfl⟩
      · exact h.holding.memtables _ List.mem_cons_self p hp
      · exact hn r hr
    · exact h.holding.memtables m (List.mem_cons_of_mem _ hm)
  · rw [hs.same]
    exact h.holding.levels l
  · rw [hs.same]
    exact h.files
  · rw [hs.wal.dir] at hid
    by_cases he : id = db.wal.currentId
    · obtain ⟨rs, hrs⟩ := hw.whole
      have hold := h.wal.recover hid
      rw [he, hrs.recover] at hold
      refine ⟨rs ++ new, he ▸ hs.wal.torn rs hrs, fun r hr => ?_⟩
      exact (List.mem_append.mp hr).elim (hold r) (hn r)
    · rw [hs.wal.older id he]
      exact h.wal id hid

theorem Traced.syncLogs {db : DB} (h : db.Traced P) : db.syncLogs.Traced P := by
  obtain ⟨hd, hdir, -, -⟩ := WAL.sync_files db.wal
  exact ⟨⟨h.holding.memtables, h.holding.levels⟩, h.files, h.wal.congr hd hdir⟩

theorem Traced.maybeScheduleFlush {db : DB} (h : db.Traced P) (fault : CreateFault) :
    (db.maybeScheduleFlush fault).1.Traced P := by
  unfold DB.maybeScheduleFlush
  split
  · have hr := h.holding.rotate
    exact ⟨⟨hr.memtables, hr.levels⟩, h.files, h.wal.createFile _ fault⟩
  · exact h

theorem Traced.flushFront {db : DB} (h : db.Traced P) (f : FlushFaults) : (db.flushFront f).Traced P := by
  obtain ⟨hh, hf⟩ := h.holding.flushFront h.files (fun _ _ hp => hp) f
  refine ⟨hh, hf, ?_⟩
  unfold DB.flushFront
  split
  · exact h.wal
  · rename_i m _ _
    show AllLogged P (db.flushMemTable m f).1.wal.files
    rw [(onlyIndex_flush db m f).wal]
    exact h.wal

theorem Traced.compactLevel {db : DB} (h : db.Traced P) (lvl : Int) (f : CompactFaults) :
    (db.compactLevel lvl f).1.Traced P := by
  obtain ⟨hh, hf⟩ := h.holding.compactLevel h.files (fun _ _ hp => hp) lvl f
  exact ⟨hh, hf, (onlyIndex_compact db lvl f).wal.symm ▸ h.wal⟩

/-- **An opening**, wherever it fails, takes its entries from the files; when it succeeds, the new WAL is empty. -/
theorem openDB_traced {d : Disk} (hf : AllFiles P d.sst) (hl : AllLogged P d.wal) (o : Options) (f : OpenFaults) :
    AllFiles P (openDB o d f).1.sst ∧ AllLogged P (openDB o d f).1.wal.files ∧
      ((openDB o d f).1.vlog.files = d.vlog ∨ (openDB o d f).1.vlog = VLog.openLog d.vlog) ∧
      ((openDB o d f).2 = .ok () → (openDB o d f).1.Holding P ∧ (openDB o d f).1.vlog = VLog.openLog d.vlog ∧
        (openDB o d f).1.options = o ∧ (openDB o d f).1.wal.writer = .opened ∧
        WAL.Holds ((openDB o d f).1.wal.files.data (openDB o d f).1.wal.currentId) []) := by
  unfold openDB
  split
  · exact ⟨hf, hl, Or.inl rfl, (by intro h; cases h)⟩
  split
  · exact ⟨hf, hl, Or.inr rfl, (by intro h; cases h)⟩
  rename_i next levels hload
  obtain ⟨h₁, h₂, -⟩ := replayWals_holding f (walIds d.wal) 0 (openState o d next levels)
  obtain ⟨hi, hm⟩ := h₂ P P (hl.replayed _) ⟨allTables_loadManifest hf hload, hf, fun _ _ h => h⟩ allEntries_nil
  have hwal : AllLogged P (replayWals f 0 (walIds d.wal) (openState o d next levels)).1.wal.files := by
    rw [h₁.wal]
    exact hl
  cases hx : replayWals f 0 (walIds d.wal) (openState o d next levels) with
  | mk db r =>
  rw [hx] at h₁ hi hm hwal
  cases r with
  | error s =>
    rw [recoverFromWAL, show (openState o d next levels).wal.files = d.wal from rfl, hx]
    exact ⟨hi.files, hwal, Or.inr h₁.vlog, (by intro h; cases h)⟩
  | ok u =>
    obtain ⟨walId, he⟩ := @recoverFromWAL_replayed (openState o d next levels) db f hx
    rw [he]
    refine ⟨hi.files, hwal.createFile _ f.create, Or.inr h₁.vlog, fun hok =>
      ⟨⟨fun m hx => ?_, hi.levels⟩, h₁.vlog, h₁.options, ?_⟩⟩
    · have hx' : m ∈ db.memtables := hx
      rw [memtables, h₁.immutable] at hx'
      rw [List.mem_singleton.mp hx']
      exact hm
    · simp only at hok ⊢
      unfold WAL.create at hok ⊢
      split at hok
      · cases hok
      · split at hok
        · cases hok
        · rename_i h₂ h₃
          rw [if_neg h₂, if_neg h₃]
          refine ⟨rfl, ?_⟩
          simp only [Folder.data_create_self]
          exact WAL.holds_nil

end DB

end SplitKV
