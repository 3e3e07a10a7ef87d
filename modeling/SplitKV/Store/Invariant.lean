import SplitKV.Store.Versions

/-!
# The invariant of a session

`DB.Inv` holds in every state: the state is well formed, the logs are ready, and every version is a tombstone or points
at a record of its key. `DB.Settled` says that the first version of a key is its newest one. `DB.Intact` holds as long as
no file of the value log was damaged: then a scan delivers every record that a version points at. The lemmas say how the
steps of the index (`Inv.of_index`), appends (`Inv.append`) and new versions (`Inv.addVersion`) keep them.
-/

namespace SplitKV

open Assoc Versions

namespace VLog

/-- The writer is ready, and no file is newer than the current one. -/
structure Sound (v : VLog) : Prop where
  ready : v.Ready
  newest : ∀ id ∈ v.files.dir, id ≤ v.currentFileId

/-- A scan of the file delivers the record at the pointer. -/
def Scanned (v : VLog) (ptr : VLogPointer) (key value : Bytes) : Prop :=
  ⟨key, value, .value, ptr.offset⟩ ∈ scanFile (v.files.data ptr.fileId) 0

theorem Appended.current_le {v v' : VLog} {record : Bytes} {ptr : VLogPointer} (h : Appended v record v' ptr) :
    v.currentFileId ≤ v'.currentFileId := by
  obtain ⟨base, -, -, hb⟩ := h.new
  omega

theorem Sound.append {v v' : VLog} {ptr : VLogPointer} {record : Bytes} (hv : Sound v) (ha : Appended v record v' ptr) :
    Sound v' := by
  refine ⟨ha.ready, fun id hid => ?_⟩
  rcases (ha.dir id).mp hid with rfl | hid
  · exact Nat.le_refl _
  · exact (hv.newest id hid).trans ha.current_le

/-- The files that were written consist of whole records. -/
def AllWhole (v : VLog) : Prop := ∀ id ≤ v.currentFileId, Whole (v.files.data id)

theorem AllWhole.append {v v' : VLog} {ptr : VLogPointer} {k x : Bytes} (hv : AllWhole v) (hf : Fits k x)
    (ha : Appended v (encodeRecord .value k x) v' ptr) : AllWhole v' := by
  intro id hid
  obtain ⟨base, hb, -, hbase⟩ := ha.new
  by_cases he : id = v'.currentFileId
  · rw [he, hb]
    rcases hbase with ⟨-, rfl⟩ | ⟨-, rfl⟩
    · exact (hv _ (Nat.le_refl _)).append hf
    · exact whole_nil.append hf
  · rw [ha.old id he]
    exact hv id (by omega)

/-- **An append keeps what a scan delivers.** -/
theorem Scanned.append {v v' : VLog} {ptr ptr' : VLogPointer} {key value k x : Bytes} (h : Scanned v ptr key value)
    (hle : ptr.fileId ≤ v.currentFileId) (hv : AllWhole v) (hf : Fits k x)
    (ha : Appended v (encodeRecord .value k x) v' ptr') : Scanned v' ptr key value := by
  by_cases he : ptr.fileId = v'.currentFileId
  · obtain ⟨base, hb, -, hbase⟩ := ha.new
    rcases hbase with ⟨hc, hbase⟩ | ⟨hc, -⟩
    · have hw := hv v.currentFileId (Nat.le_refl _)
      unfold Scanned at h ⊢
      rw [he, hc, ← hbase] at h
      rw [he, hb, scanFile_append (hbase ▸ hw) hf]
      exact List.mem_append_left _ h
    · omega
  · unfold Scanned
    rw [ha.old _ he]
    exact h

/-- The appended record is delivered. -/
theorem Appended.scanned {v v' : VLog} {ptr : VLogPointer} {k x : Bytes} (ha : Appended v (encodeRecord .value k x) v' ptr)
    (hv : AllWhole v) (hf : Fits k x) : Scanned v' ptr k x := by
  obtain ⟨base, hb, ho, hbase⟩ := ha.new
  have hw : Whole base := by
    rcases hbase with ⟨-, rfl⟩ | ⟨-, rfl⟩
    · exact hv _ (Nat.le_refl _)
    · exact whole_nil
  rw [Scanned, ha.fileId, hb, scanFile_append hw hf, ho]
  exact List.mem_append_right _ (List.mem_singleton.mpr rfl)

/-- The records and their files are the same. -/
structure SameFiles (v v' : VLog) : Prop where
  data : v'.files.data = v.files.data
  dir : v'.files.dir = v.files.dir
  current : v'.currentFileId = v.currentFileId
  offset : v'.currentOffset = v.currentOffset
  writer : v'.writer = v.writer

theorem Holds.sameFiles {v v' : VLog} {ptr : VLogPointer} {key value : Bytes} (h : Holds v ptr key value)
    (hs : SameFiles v v') : Holds v' ptr key value :=
  ⟨by rw [hs.current]; exact h.fileId, h.valueSize, h.fits, by rw [hs.data]; exact h.record⟩

theorem Ready.sameFiles {v v' : VLog} (h : Ready v) (hs : SameFiles v v') : Ready v' :=
  ⟨by rw [hs.writer]; exact h.writer, by rw [hs.offset, hs.data, hs.current]; exact h.offset,
    by rw [hs.current, hs.dir]; exact h.exists_⟩

theorem Sound.sameFiles {v v' : VLog} (h : Sound v) (hs : SameFiles v v') : Sound v' :=
  ⟨h.ready.sameFiles hs, by rw [hs.current, hs.dir]; exact h.newest⟩

theorem sameFiles_sync (v : VLog) : SameFiles v v.sync := by
  unfold sync
  split <;> exact ⟨rfl, rfl, rfl, rfl, rfl⟩

theorem sameFiles_openReader (v : VLog) (id : Nat) : SameFiles v (v.openReader id) := by
  unfold openReader
  split
  · exact ⟨rfl, rfl, rfl, rfl, rfl⟩
  · split <;> exact ⟨rfl, rfl, rfl, rfl, rfl⟩

end VLog

namespace DB

/-- The first version of every key is its newest one, a sequence number belongs to one version, and all are below the
next one. -/
def SettledBelow (vs : Key → List InternalEntry) (bound : Nat) : Prop :=
  ∀ key, NewestFirst InternalEntry.sequence (vs key) ∧ Coherent InternalEntry.sequence (vs key) ∧
    ∀ e ∈ vs key, e.sequence < bound

/-- The versions of the database are settled. -/
def Settled (db : DB) : Prop := SettledBelow db.versions db.sequenceNumber

/-- The version is a tombstone, or the value of a record of its key. -/
def EntryHolds (v : VLog) (key : Key) (e : InternalEntry) : Prop :=
  e.type = .deletion ∨ e.type = .value ∧ ∃ value, v.Holds e.vlogPtr key value

/-- The version is a tombstone, or the value of a record that a scan delivers. -/
def EntryScanned (v : VLog) (key : Key) (e : InternalEntry) : Prop :=
  e.type = .deletion ∨ ∃ value, v.Holds e.vlogPtr key value ∧ v.Scanned e.vlogPtr key value

/-- The invariant of a session. -/
structure Inv (db : DB) : Prop where
  wf : db.Wf
  vlog : db.vlog.Sound
  wal : db.wal.writer = .opened
  holds : ∀ key, ∀ e ∈ db.versions key, EntryHolds db.vlog key e

/-- No file of the value log was damaged. -/
structure Intact (db : DB) : Prop where
  whole : db.vlog.AllWhole
  scanned : ∀ key, ∀ e ∈ db.versions key, EntryScanned db.vlog key e

/-! ## Settled versions -/

/-- A new version of one key, with the next sequence number. -/
theorem SettledBelow.add {vs vs' : Key → List InternalEntry} {n : Nat} (h : SettledBelow vs n) {key : Key}
    {e : InternalEntry} (he : e.sequence = n) (hself : ∃ rest, vs' key = e :: rest ∧ rest.Sublist (vs key))
    (hne : ∀ k, k ≠ key → vs' k = vs k) : SettledBelow vs' (n + 1) := by
  intro k
  by_cases hk : k = key
  · subst hk
    obtain ⟨rest, hv, hs⟩ := hself
    obtain ⟨-, hc, hb⟩ := h k
    have hlt : ∀ b ∈ rest, b.sequence < e.sequence := fun b hm => he ▸ hb b (hs.subset hm)
    rw [hv]
    refine ⟨newestFirst_cons.mpr fun b hm => (hlt b hm).le, (hc.mono fun a ha => hs.subset ha).cons hlt, fun b hm => ?_⟩
    rcases List.mem_cons.mp hm with rfl | hm
    · omega
    · have := hlt b hm
      omega
  · rw [hne k hk]
    obtain ⟨hd, hc, hb⟩ := h k
    exact ⟨hd, hc, fun b hm => (hb b hm).trans (Nat.lt_succ_self n)⟩

theorem SettledBelow.mono {vs : Key → List InternalEntry} {n m : Nat} (h : SettledBelow vs n) (hn : n ≤ m) :
    SettledBelow vs m := fun k => ⟨(h k).1, (h k).2.1, fun e he => ((h k).2.2 e he).trans_le hn⟩

/-- The first version of every key is the same, and no version is new. -/
theorem SettledBelow.congr {vs vs' : Key → List InternalEntry} {n : Nat} (h : SettledBelow vs n)
    (hh : ∀ k, (vs' k).head? = (vs k).head?) (hs : ∀ k, ∀ e ∈ vs' k, e ∈ vs k) : SettledBelow vs' n := fun k =>
  ⟨(h k).1.congr (hh k) (hs k), (h k).2.1.mono (hs k), fun e he => (h k).2.2 e (hs k e he)⟩

/-- A merge below newer versions. -/
theorem SettledBelow.merged {vs vs' : Key → List InternalEntry} {n : Nat} (h : SettledBelow vs n)
    (hm : ∀ k, ∃ P l l', vs k = P ++ l ∧ vs' k = P ++ l' ∧ Merged InternalEntry.sequence InternalEntry.Gone l l') :
    SettledBelow vs' n ∧ (∀ k, shown InternalEntry.Gone (vs' k) = shown InternalEntry.Gone (vs k)) ∧
      ∀ k, ∀ e ∈ vs' k, e ∈ vs k := by
  have hsub : ∀ k, ∀ a ∈ vs' k, a ∈ vs k := by
    intro k a ha
    obtain ⟨P, l, l', h₁, h₂, h₃⟩ := hm k
    rw [h₁]
    rw [h₂] at ha
    rcases List.mem_append.mp ha with ha | ha
    · exact List.mem_append_left _ ha
    · exact List.mem_append_right _ (h₃.subset a ha)
  refine ⟨fun k => ?_, fun k => ?_, hsub⟩
  · obtain ⟨P, l, l', h₁, h₂, h₃⟩ := hm k
    refine ⟨?_, (h k).2.1.mono (hsub k), fun e he => (h k).2.2 e (hsub k e he)⟩
    rw [h₂]
    exact h₃.newestFirst (h₁ ▸ (h k).1) (h₁ ▸ (h k).2.1)
  · obtain ⟨P, l, l', h₁, h₂, h₃⟩ := hm k
    rw [h₁, h₂]
    exact h₃.shown_eq (h₁ ▸ (h k).1) (h₁ ▸ (h k).2.1)

/-! ## Steps -/

/-- A step that leaves the value log alone and adds no version. -/
theorem Inv.of_index {db db' : DB} (h : db.Inv) (hw : db'.Wf) (hv : db'.vlog = db.vlog)
    (hwal : db'.wal.writer = .opened) (hsub : ∀ key, ∀ e ∈ db'.versions key, e ∈ db.versions key) : db'.Inv where
  wf := hw
  vlog := hv ▸ h.vlog
  wal := hwal
  holds := fun key e he => hv ▸ h.holds key e (hsub key e he)

theorem Intact.of_index {db db' : DB} (h : db.Intact) (hv : db'.vlog = db.vlog)
    (hsub : ∀ key, ∀ e ∈ db'.versions key, e ∈ db.versions key) : db'.Intact :=
  ⟨hv ▸ h.whole, fun key e he => hv ▸ h.scanned key e (hsub key e he)⟩

/-- A step of the value log that keeps what is held. -/
theorem Inv.of_vlog {db : DB} (h : db.Inv) {v : VLog} (hv : v.Sound)
    (hs : ∀ ptr key value, db.vlog.Holds ptr key value → v.Holds ptr key value) : { db with vlog := v }.Inv where
  wf := ⟨h.wf.memtables, h.wf.levels, h.wf.ids⟩
  vlog := hv
  wal := h.wal
  holds := fun key e he => (h.holds key e he).imp_right fun ⟨ht, value, hst⟩ => ⟨ht, value, hs _ _ _ hst⟩

/-- **An append of a record** keeps the invariant. -/
theorem Inv.append {db : DB} (h : db.Inv) {v : VLog} {ptr : VLogPointer} {record : Bytes}
    (ha : VLog.Appended db.vlog record v ptr) : { db with vlog := v }.Inv :=
  h.of_vlog (h.vlog.append ha) (fun _ _ _ hs => hs.mono ha.extends)

theorem Intact.append {db : DB} (h : db.Intact) {v : VLog} {ptr : VLogPointer} {k x : Bytes} (hf : VLog.Fits k x)
    (ha : VLog.Appended db.vlog (VLog.encodeRecord .value k x) v ptr) : { db with vlog := v }.Intact :=
  ⟨h.whole.append hf ha, fun key e he => (h.scanned key e he).imp_right fun ⟨value, hh, hs⟩ =>
    ⟨value, hh.mono ha.extends, hs.append hh.fileId h.whole hf ha⟩⟩

theorem Inv.sameFiles {db : DB} (h : db.Inv) {v : VLog} (hs : VLog.SameFiles db.vlog v) : { db with vlog := v }.Inv :=
  h.of_vlog (h.vlog.sameFiles hs) (fun _ _ _ hst => hst.sameFiles hs)

theorem Intact.sameFiles {db : DB} (h : db.Intact) {v : VLog} (hs : VLog.SameFiles db.vlog v) :
    { db with vlog := v }.Intact := by
  refine ⟨?_, fun key e he => (h.scanned key e he).imp_right fun ⟨value, hh, hsc⟩ => ⟨value, hh.sameFiles hs, ?_⟩⟩
  · intro id hid
    rw [hs.data]
    exact h.whole id (hs.current ▸ hid)
  · unfold VLog.Scanned
    rw [hs.data]
    exact hsc

/-- The state with another WAL whose file is open. -/
theorem Inv.setWal {db : DB} (h : db.Inv) {w : WAL} (hw : w.writer = .opened) : { db with wal := w }.Inv :=
  ⟨⟨h.wf.memtables, h.wf.levels, h.wf.ids⟩, h.vlog, hw, h.holds⟩

/-- A new version takes the next sequence number. -/
def addVersion (db : DB) (key : Key) (e : InternalEntry) : DB :=
  { db.addEntry key e with sequenceNumber := db.sequenceNumber + 1 }

theorem visible_addVersion_self {db : DB} (h : db.memtable.Valid) (key : Key) (e : InternalEntry) :
    (db.addVersion key e).visible key = if e.Gone then none else some e := by
  obtain ⟨rest, hv, -⟩ := versions_addEntry_self h key e
  rw [visible, show (db.addVersion key e).versions key = e :: rest from hv]
  rfl

theorem visible_addVersion_of_ne (db : DB) {key k : Key} (hk : k ≠ key) (e : InternalEntry) :
    (db.addVersion key e).visible k = db.visible k :=
  congrArg (shown InternalEntry.Gone) (versions_addEntry_of_ne db hk e)

/-- A version of the new state is the new one, or an old one. -/
theorem mem_versions_addVersion {db : DB} (h : db.memtable.Valid) {key k : Key} {e a : InternalEntry}
    (ha : a ∈ (db.addVersion key e).versions k) : k = key ∧ a = e ∨ a ∈ db.versions k := by
  by_cases hk : k = key
  · subst hk
    obtain ⟨rest, hv, hsub⟩ := versions_addEntry_self h k e
    rw [show (db.addVersion k e).versions k = e :: rest from hv] at ha
    rcases List.mem_cons.mp ha with rfl | ha
    · exact Or.inl ⟨rfl, rfl⟩
    · exact Or.inr (hsub.subset ha)
  · rw [show (db.addVersion key e).versions k = db.versions k from versions_addEntry_of_ne db hk e] at ha
    exact Or.inr ha

theorem Wf.addVersion {db : DB} (h : db.Wf) (key : Key) (e : InternalEntry) : (db.addVersion key e).Wf := by
  refine ⟨fun m hmem => ?_, h.levels, h.ids⟩
  rcases List.mem_cons.mp hmem with rfl | hmem
  · exact MemTable.valid_add (h.memtables _ List.mem_cons_self) key e
  · exact h.memtables m (List.mem_cons_of_mem _ hmem)

/-- **A new version** of a tombstone or a record keeps the invariant. -/
theorem Inv.addVersion {db : DB} (h : db.Inv) {key : Key} {e : InternalEntry} (hs : EntryHolds db.vlog key e) :
    (db.addVersion key e).Inv := by
  have hm : db.memtable.Valid := h.wf.memtables _ List.mem_cons_self
  refine ⟨h.wf.addVersion key e, h.vlog, h.wal, fun k a ha => ?_⟩
  rcases mem_versions_addVersion hm ha with ⟨rfl, rfl⟩ | ha
  · exact hs
  · exact h.holds k a ha

/-- A new version with the next sequence number is the newest one. -/
theorem Settled.addVersion {db : DB} (h : db.Settled) (hm : db.memtable.Valid) {key : Key} {e : InternalEntry}
    (hseq : e.sequence = db.sequenceNumber) : (db.addVersion key e).Settled := by
  obtain ⟨rest, hv, hsub⟩ := versions_addEntry_self hm key e
  exact SettledBelow.add h hseq ⟨rest, hv, hsub⟩ (fun k hk => versions_addEntry_of_ne db hk e)

theorem Intact.addVersion {db : DB} (h : db.Intact) (hm : db.memtable.Valid) {key : Key} {e : InternalEntry}
    (hs : EntryScanned db.vlog key e) : (db.addVersion key e).Intact := by
  refine ⟨h.whole, fun k a ha => ?_⟩
  rcases mem_versions_addVersion hm ha with ⟨rfl, rfl⟩ | ha
  · exact hs
  · exact h.scanned k a ha

/-- The visible version is the first one. -/
theorem visible_eq_some {db : DB} {key : Key} {e : InternalEntry} :
    db.visible key = some e ↔ (db.versions key).head? = some e ∧ ¬e.Gone := by
  unfold visible shown
  cases (db.versions key).head? with
  | none => simp
  | some a =>
    by_cases hg : a.Gone
    · simp only [if_pos hg, reduceCtorEq, Option.some.injEq, false_iff, not_and, not_not]
      exact fun h => h ▸ hg
    · simp only [if_neg hg, Option.some.injEq]
      exact ⟨fun h => ⟨h, h ▸ hg⟩, fun h => h.1⟩

/-- The visible version of a key points at a record of it. -/
theorem Inv.visible_holds {db : DB} (h : db.Inv) {key : Key} {e : InternalEntry} (he : db.visible key = some e) :
    e.type = .value ∧ ∃ value, db.vlog.Holds e.vlogPtr key value := by
  obtain ⟨hh, hg⟩ := visible_eq_some.mp he
  rcases h.holds key e (List.mem_of_mem_head? hh) with hd | hv
  · exact absurd hd hg
  · exact hv

end DB

end SplitKV
