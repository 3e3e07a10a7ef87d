import SplitKV.Store.Invariant

/-!
# Writes keep the invariant

`DB.Refines db m` says that `Get` shows the contents `m`. A write without a fault succeeds, keeps the invariant, and
applies the entries of its batch to the contents (`write_spec`).
-/

namespace SplitKV

/-- The contents of the database, as its callers see them. -/
abbrev Contents := Key → Option Bytes

namespace BatchEntry

/-- The records of the entry are smaller than 4 GiB. -/
def Fits : BatchEntry → Prop
  | put key value => VLog.Fits key value ∧ 29 + key.length < 2 ^ 32
  | delete key => 29 + key.length < 2 ^ 32

instance : (e : BatchEntry) → Decidable e.Fits
  | put key value => inferInstanceAs (Decidable (VLog.Fits key value ∧ 29 + key.length < 2 ^ 32))
  | delete key => inferInstanceAs (Decidable (29 + key.length < 2 ^ 32))

/-- What the entry does to the contents. -/
def apply (m : Contents) : BatchEntry → Contents
  | put key value => fun k => if k = key then some value else m k
  | delete key => fun k => if k = key then none else m k

/-- The key of the entry. -/
def key : BatchEntry → Key
  | put key _ => key
  | delete key => key

theorem apply_of_ne (m : Contents) {e : BatchEntry} {k : Key} (h : k ≠ e.key) : e.apply m k = m k := by
  cases e <;> exact if_neg h

end BatchEntry

/-- What a batch does to the contents. -/
def WriteBatch.apply (m : Contents) (batch : WriteBatch) : Contents := batch.foldl BatchEntry.apply m

namespace WAL

/-- A record reaches an open WAL. -/
theorem addRecord_opened {w : WAL} (h : w.writer = .opened) (r : WALRecord) :
    w.addRecord r none = (w.extend (encodeRecord r), .ok ()) := by
  rw [addRecord, h]

@[simp] theorem writer_extend (w : WAL) (bytes : Bytes) : (w.extend bytes).writer = w.writer := rfl

@[simp] theorem writer_sync (w : WAL) : w.sync.writer = w.writer := by
  unfold sync
  split <;> rfl

/-- A new WAL opens. -/
theorem create_none (w : WAL) (walId : Nat) :
    w.create walId .none = ({ w with files := w.files.create walId [], currentId := walId, writer := .opened }, .ok ()) := by
  simp [create]

end WAL

namespace DB

/-- `Get` shows the contents. -/
def Refines (db : DB) (m : Contents) : Prop := ∀ key, db.Shows key (m key)

theorem Refines.result {db : DB} (h : db.Inv) {m : Contents} (hr : db.Refines m) (key : Key) :
    db.result key = answer (m key) := (hr key).result h.wf

/-- A step that keeps what is visible, and only extends the value log, keeps the contents. -/
theorem Refines.mono {db db' : DB} {m : Contents} (h : db.Refines m) (hv : ∀ key, db'.visible key = db.visible key)
    (he : db.vlog.Extends db'.vlog) : db'.Refines m := fun key => (h key).mono (hv key) he

/-- **A new version** of a key whose value is stored. -/
theorem Refines.addVersion {db : DB} (h : db.Wf) {m : Contents} (hr : db.Refines m) {key value : Bytes}
    {ptr : VLogPointer} {seq : Nat} (hs : db.vlog.Holds ptr key value) (hl : db.vlog.canOpen ptr.fileId = true) :
    (db.addVersion key ⟨ptr, seq, .value⟩).Refines ((BatchEntry.put key value).apply m) := by
  intro k
  by_cases hk : k = key
  · subst hk
    have hv := visible_addVersion_self (h.memtables _ List.mem_cons_self) k ⟨ptr, seq, .value⟩
    rw [show (BatchEntry.put k value).apply m k = some value from if_pos rfl]
    exact ⟨_, hv, hs, hl⟩
  · rw [BatchEntry.apply_of_ne m (show k ≠ (BatchEntry.put key value).key from hk)]
    exact (hr k).mono (visible_addVersion_of_ne db hk _) (VLog.Extends.refl _)

/-- **A tombstone.** -/
theorem Refines.addTombstone {db : DB} (h : db.Wf) {m : Contents} (hr : db.Refines m) {key : Key} {ptr : VLogPointer}
    {seq : Nat} : (db.addVersion key ⟨ptr, seq, .deletion⟩).Refines ((BatchEntry.delete key).apply m) := by
  intro k
  by_cases hk : k = key
  · subst hk
    have hv := visible_addVersion_self (h.memtables _ List.mem_cons_self) k ⟨ptr, seq, .deletion⟩
    rw [show (BatchEntry.delete k).apply m k = none from if_pos rfl]
    exact hv
  · rw [BatchEntry.apply_of_ne m (show k ≠ (BatchEntry.delete key).key from hk)]
    exact (hr k).mono (visible_addVersion_of_ne db hk _) (VLog.Extends.refl _)

/-- A step of a session: it keeps the options and the invariants, and takes the contents `m` to `m'`. -/
structure Keeps (db db' : DB) (m m' : Contents) : Prop where
  options : db'.options = db.options
  inv : db'.Inv
  refines : db'.Refines m'
  settled : db.Settled → db'.Settled
  intact : db.Intact → db'.Intact

/-- One entry of a batch. -/
theorem writeEntry_spec {db : DB} (h : db.Inv) {m : Contents} (hr : db.Refines m) {e : BatchEntry} (hf : e.Fits) :
    ∃ db', db.writeEntry e .none none = (db', .ok ()) ∧ db.Keeps db' m (e.apply m) := by
  cases e with
  | put key value =>
    obtain ⟨v, ptr, hv, hs, ha⟩ := VLog.appended_append db.options h.vlog.ready key value .value
    have h₁ := h.append ha
    have hr₁ : { db with vlog := v }.Refines m := hr.mono (fun _ => rfl) ha.extends
    have hst := ha.holds hf.1 hs
    have hl : v.canOpen ptr.fileId = true := VLog.canOpen_of_mem ((ha.dir _).mpr (Or.inl ha.fileId))
    have h₂ := h₁.setWal (w := db.wal.extend (WAL.encodeRecord ⟨.value, db.sequenceNumber, key, ptr⟩)) h.wal
    have he : db.writeEntry (.put key value) .none none = ({ db with
        vlog := v, wal := db.wal.extend (WAL.encodeRecord ⟨.value, db.sequenceNumber, key, ptr⟩) }.addVersion key
          ⟨ptr, db.sequenceNumber, .value⟩, .ok ()) := by
      simp only [writeEntry, hv, WAL.addRecord_opened h.wal]
      rfl
    refine ⟨_, he, rfl, ?_, ?_, fun hs => ?_, fun hi => ?_⟩
    · exact h₂.addVersion (Or.inr ⟨rfl, value, hst⟩)
    · exact Refines.addVersion h₂.wf (hr₁.mono (fun _ => rfl) (VLog.Extends.refl _)) hst hl
    · have hs₂ : { db with
          vlog := v, wal := db.wal.extend (WAL.encodeRecord ⟨.value, db.sequenceNumber, key, ptr⟩) }.Settled := hs
      exact hs₂.addVersion (h.wf.memtables _ List.mem_cons_self) rfl
    · have hi₂ : { db with
          vlog := v, wal := db.wal.extend (WAL.encodeRecord ⟨.value, db.sequenceNumber, key, ptr⟩) }.Intact :=
        (hi.append hf.1 ha).of_index rfl (fun _ _ he => he)
      exact hi₂.addVersion (h.wf.memtables _ List.mem_cons_self)
        (Or.inr ⟨value, hst, ha.scanned hi.whole hf.1⟩)
  | delete key =>
    have h₂ := h.setWal (w := db.wal.extend (WAL.encodeRecord ⟨.deletion, db.sequenceNumber, key, ⟨0, 0, 0⟩⟩)) h.wal
    have he : db.writeEntry (.delete key) .none none = ({ db with
        wal := db.wal.extend (WAL.encodeRecord ⟨.deletion, db.sequenceNumber, key, ⟨0, 0, 0⟩⟩) }.addVersion key
          ⟨⟨0, 0, 0⟩, db.sequenceNumber, .deletion⟩, .ok ()) := by
      simp only [writeEntry, WAL.addRecord_opened h.wal]
      rfl
    refine ⟨_, he, rfl, ?_, ?_, fun hs => ?_, fun hi => ?_⟩
    · exact h₂.addVersion (Or.inl rfl)
    · exact Refines.addTombstone h₂.wf (hr.mono (fun _ => rfl) (VLog.Extends.refl _))
    · have hs₂ : { db with
          wal := db.wal.extend (WAL.encodeRecord ⟨.deletion, db.sequenceNumber, key, ⟨0, 0, 0⟩⟩) }.Settled := hs
      exact hs₂.addVersion (h.wf.memtables _ List.mem_cons_self) rfl
    · have hi₂ : { db with
          wal := db.wal.extend (WAL.encodeRecord ⟨.deletion, db.sequenceNumber, key, ⟨0, 0, 0⟩⟩) }.Intact :=
        hi.of_index rfl (fun _ _ he => he)
      exact hi₂.addVersion (e := ⟨⟨0, 0, 0⟩, db.sequenceNumber, .deletion⟩) (h.wf.memtables _ List.mem_cons_self)
        (Or.inl rfl)

/-- The entries of a batch. -/
theorem writeEntries_spec {f : WriteFaults} (hv : ∀ i, f.vlog i = .none) (hw : ∀ i, f.wal i = none) :
    ∀ (batch : WriteBatch) (i : Nat) (db : DB) (m : Contents), db.Inv → db.Refines m → (∀ e ∈ batch, e.Fits) →
      ∃ db', writeEntries f i batch db = (db', .ok ()) ∧ db.Keeps db' m (batch.apply m)
  | [], _, db, _, h, hr, _ => ⟨db, rfl, rfl, h, hr, fun hs => hs, fun hi => hi⟩
  | e :: batch, i, db, m, h, hr, hf => by
    obtain ⟨db₁, he, hk⟩ := writeEntry_spec h hr (hf e List.mem_cons_self)
    obtain ⟨db₂, he₂, hk₂⟩ := writeEntries_spec hv hw batch (i + 1) db₁ (e.apply m) hk.inv hk.refines
      (fun e he => hf e (List.mem_cons_of_mem _ he))
    refine ⟨db₂, ?_, hk₂.options.trans hk.options, hk₂.inv, hk₂.refines,
      fun hs => hk₂.settled (hk.settled hs), fun hi => hk₂.intact (hk.intact hi)⟩
    rw [writeEntries, hv, hw, he]
    exact he₂

/-- The memtable moves to the queue, behind a new WAL. -/
theorem Inv.rotate {db : DB} (h : db.Inv) : db.rotate.Inv := by
  refine h.of_index ⟨fun m hm => ?_, h.wf.levels, h.wf.ids⟩ rfl h.wal (fun key e he => versions_rotate db key ▸ he)
  rcases List.mem_cons.mp hm with rfl | hm
  · exact MemTable.valid_new _
  · simp only [DB.rotate, List.reverse_append, List.reverse_singleton, List.singleton_append] at hm
    exact h.wf.memtables m hm

theorem Settled.rotate {db : DB} (h : db.Settled) : db.rotate.Settled :=
  h.congr (fun key => by rw [versions_rotate]) (fun key e he => versions_rotate db key ▸ he)

/-- `MaybeScheduleFlush`. -/
theorem maybeScheduleFlush_spec {db : DB} (h : db.Inv) {m : Contents} (hr : db.Refines m) :
    ∃ db', db.maybeScheduleFlush .none = (db', .ok ()) ∧ db.Keeps db' m m := by
  unfold maybeScheduleFlush
  split
  · rw [WAL.create_none]
    refine ⟨_, rfl, rfl, ?_, ?_, fun hs => hs.rotate, fun hi => hi.of_index rfl fun key e he => versions_rotate db key ▸ he⟩
    · have h₁ := h.rotate.setWal (w := { db.wal with
        files := db.wal.files.create (db.walId + 1) [], currentId := db.walId + 1, writer := .opened }) rfl
      exact ⟨⟨h₁.wf.memtables, h₁.wf.levels, h₁.wf.ids⟩, h₁.vlog, rfl, h₁.holds⟩
    · have hv : ∀ key, db.rotate.visible key = db.visible key := fun key => congrArg _ (versions_rotate db key)
      exact (hr.mono hv (VLog.Extends.refl _) : db.rotate.Refines m)
  · exact ⟨db, rfl, rfl, h, hr, fun hs => hs, fun hi => hi⟩

/-- The syncs of the logs. -/
theorem syncLogs_spec {db : DB} (h : db.Inv) {m : Contents} (hr : db.Refines m) : db.Keeps db.syncLogs m m := by
  refine ⟨rfl, ?_, ?_, fun hs => hs, fun hi => ?_⟩
  · exact (h.sameFiles (VLog.sameFiles_sync db.vlog)).setWal (w := db.wal.sync) (by rw [WAL.writer_sync, h.wal])
  · have hv : ∀ key, db.syncLogs.visible key = db.visible key := fun _ => rfl
    exact hr.mono hv (VLog.extends_sync db.vlog)
  · exact (hi.sameFiles (VLog.sameFiles_sync db.vlog)).of_index rfl fun _ _ he => he

/-- **A write without a fault** applies its batch. -/
theorem write_spec {db : DB} (h : db.Inv) {m : Contents} (hr : db.Refines m) (sync : Bool) {batch : WriteBatch}
    (hf : ∀ e ∈ batch, e.Fits) : ∃ db', db.write sync batch {} = (db', .ok ()) ∧ db.Keeps db' m (batch.apply m) := by
  obtain ⟨db₁, he, hk⟩ := writeEntries_spec (f := {}) (fun _ => rfl) (fun _ => rfl) batch 0 db m h hr hf
  have h₂ : db₁.Keeps (if sync then db₁.syncLogs else db₁) (batch.apply m) (batch.apply m) := by
    split
    · exact syncLogs_spec hk.inv hk.refines
    · exact ⟨rfl, hk.inv, hk.refines, fun hs => hs, fun hi => hi⟩
  obtain ⟨db₃, he₃, hk₃⟩ := maybeScheduleFlush_spec h₂.inv h₂.refines
  refine ⟨db₃, ?_, (hk₃.options.trans h₂.options).trans hk.options, hk₃.inv, hk₃.refines,
    fun hs => hk₃.settled (h₂.settled (hk.settled hs)), fun hi => hk₃.intact (h₂.intact (hk.intact hi))⟩
  rw [write, he]
  exact he₃

end DB

end SplitKV
