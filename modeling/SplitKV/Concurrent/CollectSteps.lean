import SplitKV.Concurrent.Collect
import SplitKV.Concurrent.Get

/-!
# What collections rely on

A collection relies on three things while other threads run: records stay where they are, and scans still deliver them;
file ids only grow; and no new version points into its segment. Writes keep them (`DB.write_passes`), since new versions point into files that are not
older than the current one; all other steps leave the visible versions and the value log alone.
-/

namespace SplitKV

open Assoc

namespace VLog

/-- What a collection needs of the value log. -/
structure Passes (v v' : VLog) : Prop where
  current : v.currentFileId ≤ v'.currentFileId
  holds : ∀ ptr key value, v.Holds ptr key value → v'.Holds ptr key value
  whole : v.AllWhole → v'.AllWhole
  scanned : ∀ ptr key value, v.AllWhole → v.Holds ptr key value → v.Scanned ptr key value → v'.Scanned ptr key value
  dir : ∀ id ∈ v'.files.dir, id ∈ v.files.dir ∨ v.currentFileId < id

theorem Passes.refl (v : VLog) : Passes v v :=
  ⟨Nat.le_refl _, fun _ _ _ h => h, fun h => h, fun _ _ _ _ _ h => h, fun _ h => Or.inl h⟩

theorem Passes.trans {v v' v'' : VLog} (h : Passes v v') (h' : Passes v' v'') : Passes v v'' where
  current := h.current.trans h'.current
  holds := fun ptr key value hh => h'.holds ptr key value (h.holds ptr key value hh)
  whole := fun hw => h'.whole (h.whole hw)
  scanned := fun ptr key value hw hh hs =>
    h'.scanned ptr key value (h.whole hw) (h.holds ptr key value hh) (h.scanned ptr key value hw hh hs)
  dir := fun id hid => by
    rcases h'.dir id hid with hid | hlt
    · exact h.dir id hid
    · exact Or.inr (h.current.trans_lt hlt)

theorem SameFiles.passes {v v' : VLog} (h : SameFiles v v') : Passes v v' := by
  refine ⟨h.current.ge, fun ptr key value hh => hh.sameFiles h, fun hw id hid => ?_, fun ptr key value _ _ hs => ?_,
    fun id hid => Or.inl (h.dir ▸ hid)⟩
  · rw [h.data]
    exact hw id (h.current ▸ hid)
  · rw [Scanned, h.data]
    exact hs

theorem Appended.passes {v v' : VLog} {ptr : VLogPointer} {key value : Bytes} (hr : Ready v) (hf : Fits key value)
    (ha : Appended v (encodeRecord .value key value) v' ptr) : Passes v v' := by
  refine ⟨ha.current_le, fun p k x hh => hh.mono ha.extends, fun hw => hw.append hf ha,
    fun p k x hw hh hs => hs.append hh.fileId hw hf ha, fun id hid => ?_⟩
  rcases (ha.dir id).mp hid with rfl | hid
  · obtain ⟨_, -, -, hbase⟩ := ha.new
    rcases hbase with ⟨hc, -⟩ | ⟨hc, -⟩
    · exact Or.inl (hc ▸ hr.exists_)
    · exact Or.inr (by omega)
  · exact Or.inl hid

/-- The removal of a file. -/
theorem passes_remove (v : VLog) (id : Nat) : Passes v { v with files := v.files.remove id } :=
  ⟨Nat.le_refl _, fun _ _ _ hh => ⟨hh.fileId, hh.valueSize, hh.fits, hh.record⟩, fun hw => hw, fun _ _ _ _ _ hs => hs,
    fun _ hid => Or.inl (Folder.mem_dir_remove.mp hid).1⟩

end VLog

namespace DB

variable {db db' : DB} {m : Contents}

/-- The files of the visible versions are on disk. -/
def Live (db : DB) : Prop := ∀ key e, db.visible key = some e → e.vlogPtr.fileId ∈ db.vlog.files.dir

/-- What collections, like all other threads, keep: the invariants, undamaged segments that are all there, and the
contents. -/
structure Reliable (db : DB) (m : Contents) : Prop where
  inv : db.Inv
  intact : db.Intact
  live : db.Live
  refines : db.Refines m

/-- A step that keeps what is visible, and the files of it, keeps the contents. -/
theorem Refines.passes (h : db.Refines m) (hv : db.vlog.Passes db'.vlog) (hvis : ∀ key, db'.visible key = db.visible key)
    (hl : db'.Live) : db'.Refines m := by
  intro key
  have hs := h key
  cases hm : m key with
  | none =>
    rw [hm] at hs
    exact (hvis key).trans hs
  | some value =>
    rw [hm] at hs
    obtain ⟨e, he, hh, -⟩ := hs
    have he' := (hvis key).trans he
    exact ⟨e, he', hv.holds _ _ _ hh, VLog.canOpen_of_mem (hl key e he')⟩

theorem live_fresh (o : Options) : (fresh o).Live := fun key e he => by
  rw [visible, versions_fresh] at he
  cases he

/-! ## Writes -/

/-- What a write leaves to a collection: new versions point into the current file or newer ones, which are on disk. -/
structure WritePasses (db db' : DB) : Prop where
  vlog : db.vlog.Passes db'.vlog
  dir : ∀ id ∈ db.vlog.files.dir, id ∈ db'.vlog.files.dir
  visible : ∀ key e, db'.visible key = some e → db.visible key = some e ∨
    db.vlog.currentFileId ≤ e.vlogPtr.fileId ∧ e.vlogPtr.fileId ∈ db'.vlog.files.dir

theorem WritePasses.trans {a b c : DB} (h : a.WritePasses b) (h' : b.WritePasses c) : a.WritePasses c where
  vlog := h.vlog.trans h'.vlog
  dir := fun id hid => h'.dir id (h.dir id hid)
  visible := fun key e he => by
    rcases h'.visible key e he with he | ⟨hle, hid⟩
    · exact (h.visible key e he).imp_right fun ⟨hle, hid⟩ => ⟨hle, h'.dir _ hid⟩
    · exact Or.inr ⟨h.vlog.current.trans hle, hid⟩

theorem WritePasses.live (h : db.WritePasses db') (hl : db.Live) : db'.Live := by
  intro key e he
  rcases h.visible key e he with he | ⟨-, hid⟩
  · exact h.dir _ (hl key e he)
  · exact hid

/-- A step that changes neither the files nor the visible versions. -/
theorem writePasses_of_same (hv : VLog.SameFiles db.vlog db'.vlog) (h : ∀ key, db'.visible key = db.visible key) :
    db.WritePasses db' :=
  ⟨hv.passes, fun _ hid => hv.dir.symm ▸ hid, fun key _ he => Or.inl (h key ▸ he)⟩

/-- A new version that is a tombstone, or points into the current file or a newer one. -/
theorem WritePasses.addVersion (h : db.WritePasses db') (hm : db'.memtable.Valid) (key : Key) {e : InternalEntry}
    (he : e.Gone ∨ db.vlog.currentFileId ≤ e.vlogPtr.fileId ∧ e.vlogPtr.fileId ∈ db'.vlog.files.dir) :
    db.WritePasses (db'.addVersion key e) := by
  refine ⟨h.vlog, h.dir, fun k x hx => ?_⟩
  by_cases hk : k = key
  · rw [hk, visible_addVersion_self hm] at hx
    split at hx
    · cases hx
    · rename_i hg
      cases hx
      exact Or.inr (he.resolve_left hg)
  · rw [visible_addVersion_of_ne db' hk] at hx
    exact h.visible k x hx

/-- One entry of a batch. -/
theorem writeEntry_passes (h : db.Inv) {e : BatchEntry} (hf : e.Fits) : db.WritePasses (db.writeEntry e .none none).1 := by
  have hm : db.memtable.Valid := h.wf.memtables _ List.mem_cons_self
  cases e with
  | put key value =>
    obtain ⟨v, ptr, hv, -, ha⟩ := VLog.appended_append db.options h.vlog.ready key value .value
    have hlog : db.WritePasses { db with
        vlog := v, wal := db.wal.extend (WAL.encodeRecord ⟨.value, db.sequenceNumber, key, ptr⟩) } :=
      ⟨ha.passes h.vlog.ready hf.1, fun id hid => (ha.dir id).mpr (Or.inr hid), fun _ _ he => Or.inl he⟩
    have hptr : db.vlog.currentFileId ≤ ptr.fileId ∧ ptr.fileId ∈ v.files.dir :=
      ⟨ha.fileId ▸ ha.current_le, (ha.dir _).mpr (Or.inl ha.fileId)⟩
    have hadd := hlog.addVersion hm key (e := ⟨ptr, db.sequenceNumber, .value⟩) (Or.inr hptr)
    simp only [writeEntry, hv, WAL.addRecord_opened h.wal]
    exact hadd
  | delete key =>
    have hlog : db.WritePasses { db with
        wal := db.wal.extend (WAL.encodeRecord ⟨.deletion, db.sequenceNumber, key, ⟨0, 0, 0⟩⟩) } :=
      writePasses_of_same ⟨rfl, rfl, rfl, rfl, rfl⟩ fun _ => rfl
    have hadd := hlog.addVersion hm key (e := ⟨⟨0, 0, 0⟩, db.sequenceNumber, .deletion⟩) (Or.inl rfl)
    simp only [writeEntry, WAL.addRecord_opened h.wal]
    exact hadd

/-- The entries of a batch. -/
theorem writeEntries_passes : ∀ (batch : WriteBatch) (i : Nat) (db : DB) (m : Contents), db.Inv → db.Refines m →
    (∀ e ∈ batch, e.Fits) → db.WritePasses (writeEntries {} i batch db).1
  | [], _, _, _, _, _, _ => writePasses_of_same ⟨rfl, rfl, rfl, rfl, rfl⟩ fun _ => rfl
  | e :: batch, i, db, m, h, hr, hf => by
    have hp := writeEntry_passes h (hf e List.mem_cons_self)
    obtain ⟨db₁, he, hk⟩ := writeEntry_spec h hr (hf e List.mem_cons_self)
    have hrest := writeEntries_passes batch (i + 1) db₁ _ hk.inv hk.refines fun e he => hf e (List.mem_cons_of_mem _ he)
    rw [he] at hp
    rw [writeEntries, show ({} : WriteFaults).vlog i = .none from rfl, show ({} : WriteFaults).wal i = none from rfl, he]
    exact hp.trans hrest

/-- **A write.** -/
theorem write_passes (h : db.Inv) (hr : db.Refines m) (sync : Bool) {batch : WriteBatch} (hf : ∀ e ∈ batch, e.Fits) :
    db.WritePasses (db.write sync batch {}).1 := by
  have hp := writeEntries_passes batch 0 db m h hr hf
  obtain ⟨db₁, he, -⟩ := writeEntries_spec (f := {}) (fun _ => rfl) (fun _ => rfl) batch 0 db m h hr hf
  rw [he] at hp
  have hsync : db₁.WritePasses (if sync then db₁.syncLogs else db₁) := by
    split
    · exact writePasses_of_same (VLog.sameFiles_sync db₁.vlog) fun _ => rfl
    · exact writePasses_of_same ⟨rfl, rfl, rfl, rfl, rfl⟩ fun _ => rfl
  have hrotate : ∀ db₂ : DB, db₂.WritePasses (db₂.maybeScheduleFlush .none).1 := by
    intro db₂
    unfold maybeScheduleFlush
    split
    · exact writePasses_of_same ⟨rfl, rfl, rfl, rfl, rfl⟩ fun key => congrArg _ (versions_rotate db₂ key)
    · exact writePasses_of_same ⟨rfl, rfl, rfl, rfl, rfl⟩ fun _ => rfl
  rw [write, he]
  exact (hp.trans hsync).trans (hrotate _)

end DB

namespace Sys

variable {s : Sys} {m : Contents}

/-- **A step of another thread** keeps what collections keep, and leaves to them what they need. -/
theorem Inv.passes (h : s.Inv) (hr : s.db.Reliable m) {a : Act} (ha : s.Apart a) (hf : a.Fits) :
    (s.step a).db.Reliable (WriteBatch.apply m a.entries) ∧ s.db.WritePasses (s.step a).db := by
  obtain ⟨hi, href⟩ := h.contents hr.inv hr.refines ha hf
  cases hw : a.isWrite with
  | false =>
    have hq := h.quiet ha hw
    have hp : s.db.WritePasses (s.step a).db :=
      DB.writePasses_of_same (hq.vlog ▸ ⟨rfl, rfl, rfl, rfl, rfl⟩) hq.visible
    exact ⟨⟨hi, hr.intact.of_index hq.vlog hq.subset, hp.live hr.live, href⟩, hp⟩
  | true =>
    cases a with
    | write sync batch =>
      have hb : ∀ e ∈ batch, e.Fits := hf
      obtain ⟨db', he, hk⟩ := DB.write_spec hr.inv hr.refines sync hb
      have hstep : (s.step (.write sync batch)).db = db' := congrArg Prod.fst he
      have hp := DB.write_passes hr.inv hr.refines sync hb
      rw [congrArg Prod.fst he] at hp
      rw [hstep] at hi href ⊢
      exact ⟨⟨hi, hk.intact hr.intact, hp.live hr.live, href⟩, hp⟩
    | _ => cases hw

end Sys

end SplitKV
