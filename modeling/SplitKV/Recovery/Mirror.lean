import SplitKV.Recovery.Shutdown

/-!
# The log and what is visible

While a database runs, the visible version of every key is the one of its last record in the log (`DB.Mirrors`). Every
write without faults keeps that, and so do flushes, compactions and openings; `DB.InService` puts it together with what is
known of a database that runs.
-/

namespace SplitKV

open Assoc Versions

namespace VLog

theorem SameFiles.tidy {v v' : VLog} (h : SameFiles v v') (ht : v.Tidy) : v'.Tidy := by
  refine ⟨?_, ?_, ?_⟩
  · rw [h.dir, h.current]
    exact ht.newest
  · rw [h.dir]
    exact ht.pos
  · rw [h.dir, h.current, h.writer]
    exact ht.opened

end VLog

namespace DB

/-- The visible version of every key is the one of its last record. -/
def Mirrors (db : DB) : Prop := ∀ key,
  db.visible key = shown InternalEntry.Gone ((WAL.lastRecord (WAL.log db.wal.files) key).toList.map WALRecord.entry)

theorem Mirrors.congr {db db' : DB} (h : db.Mirrors) (hv : ∀ key, db'.visible key = db.visible key)
    (hl : WAL.log db'.wal.files = WAL.log db.wal.files) : db'.Mirrors := by
  intro key
  rw [hv, hl]
  exact h key

/-- **A record** that gets into the log and into the memtable. -/
theorem Mirrors.addVersion {db : DB} (h : db.Mirrors) (hm : db.memtable.Valid) {vlog : VLog} {wal : WAL} {r : WALRecord}
    (hl : WAL.log wal.files = WAL.log db.wal.files ++ [r]) :
    ({ db with vlog := vlog, wal := wal }.addVersion r.key r.entry).Mirrors := by
  intro key
  have hlog : WAL.log (DB.addVersion { db with vlog := vlog, wal := wal } r.key r.entry).wal.files =
      WAL.log db.wal.files ++ [r] := hl
  rw [hlog, WAL.lastRecord_append]
  by_cases hk : r.key = key
  · subst hk
    rw [if_pos rfl, @visible_addVersion_self { db with vlog := vlog, wal := wal } hm]
    rfl
  · rw [if_neg hk, visible_addVersion_of_ne _ (Ne.symm hk)]
    exact h key

/-- A value that is visible is the one of the last record. -/
theorem Mirrors.lastRecord {db : DB} (h : db.Mirrors) {key : Key} {e : InternalEntry} (he : db.visible key = some e) :
    ∃ r, WAL.lastRecord (WAL.log db.wal.files) key = some r ∧ r.entry = e := by
  have hk := h key
  rw [he] at hk
  cases hr : WAL.lastRecord (WAL.log db.wal.files) key with
  | none =>
    rw [hr] at hk
    cases hk
  | some r =>
    rw [hr] at hk
    have hs : (if r.entry.Gone then none else some r.entry) = some e := hk.symm
    split at hs
    · cases hs
    · cases hs
      exact ⟨r, rfl, rfl⟩

/-- What is known of a database that runs with the contents `m`. -/
structure InService (db : DB) (m : Contents) : Prop where
  alive : db.Alive
  settled : db.Settled
  refines : db.Refines m
  tells : Tells db.vlog.files (WAL.log db.wal.files) m
  mirrors : db.Mirrors

theorem InService.valid {db : DB} {m : Contents} (h : db.InService m) : db.memtable.Valid :=
  h.alive.logged.wf.memtables _ List.mem_cons_self

/-! ## Writes -/

/-- The record of a put can be written. -/
theorem fits_put {o : Options} {v v' : VLog} {key value : Bytes} {fault : AppendFault} {ptr : VLogPointer} {n : Nat}
    (ha : v.append o key value .value fault = (v', .ok ptr)) (hl : o.vlogFileSizeLimit < 2 ^ 64) (hn : n < 2 ^ 64)
    (hkey : 29 + key.length < 2 ^ 32) (hid : ptr.fileId < 100000) (hsize : ptr.valueSize = value.length % 2 ^ 32) :
    WAL.Fits ⟨.value, n, key, ptr⟩ :=
  ⟨Or.inl rfl, hn, hkey, hid.trans (by decide), (VLog.append_offset_le ha).trans_lt hl,
    hsize ▸ Nat.mod_lt _ (Nat.two_pow_pos 32)⟩

/-- **One entry** without faults: its record gets into the log and into the memtable. -/
theorem Alive.writeEntry_record {db : DB} (h : db.Alive) {e : BatchEntry} (hf : e.Fits)
    (hl : db.options.vlogFileSizeLimit < 2 ^ 64) (hs : (db.writeEntry e .none none).1.Small) :
    ∃ (r : WALRecord) (vlog : VLog) (wal : WAL), vlog.Ready ∧ WAL.log wal.files = WAL.log db.wal.files ++ [r] ∧
      db.writeEntry e .none none = ({ db with vlog := vlog, wal := wal }.addVersion r.key r.entry, .ok ()) := by
  have hw := h.active.writer
  have hseq : db.sequenceNumber < 2 ^ 64 := by
    have := hs.sequence
    rw [sequence_writeEntry] at this
    omega
  have hlog : ∀ r, WAL.Fits r → WAL.log (db.wal.extend (WAL.encodeRecord r)).files = WAL.log db.wal.files ++ [r] := by
    intro r hr
    obtain ⟨-, h₂, -⟩ := h.active.addRecord h.logged.logs hr none
    rw [WAL.addRecord_opened hw] at h₂
    exact h₂.resolve_right fun hne => hne.1 rfl
  cases e with
  | put key value =>
    obtain ⟨v, ptr, hv, hsize, happ⟩ := VLog.appended_append db.options h.ready key value .value
    have he : db.writeEntry (.put key value) .none none = ({ db with
        vlog := v, wal := db.wal.extend (WAL.encodeRecord ⟨.value, db.sequenceNumber, key, ptr⟩) }.addVersion key
          ⟨ptr, db.sequenceNumber, .value⟩, .ok ()) := by
      simp only [writeEntry, hv, WAL.addRecord_opened hw]
      rfl
    rw [he] at hs
    have hid : ptr.fileId < 100000 := hs.vlog _ ((happ.dir _).mpr (Or.inl happ.fileId))
    exact ⟨⟨.value, db.sequenceNumber, key, ptr⟩, v, _, happ.ready, hlog _ (fits_put hv hl hseq hf.2 hid hsize), he⟩
  | delete key =>
    have he : db.writeEntry (.delete key) .none none = ({ db with
        wal := db.wal.extend (WAL.encodeRecord ⟨.deletion, db.sequenceNumber, key, ⟨0, 0, 0⟩⟩) }.addVersion key
          ⟨⟨0, 0, 0⟩, db.sequenceNumber, .deletion⟩, .ok ()) := by
      simp only [writeEntry, WAL.addRecord_opened hw]
      rfl
    exact ⟨⟨.deletion, db.sequenceNumber, key, ⟨0, 0, 0⟩⟩, db.vlog, _, h.ready, hlog _ ⟨Or.inr ⟨rfl, rfl⟩, hseq, hf,
      Nat.two_pow_pos 32, Nat.two_pow_pos 64, Nat.two_pow_pos 32⟩, he⟩

/-- **The entries of a batch** without faults. -/
theorem Mirrors.writeEntries : ∀ (batch : WriteBatch) (i : Nat) (db : DB), db.Mirrors → db.Alive → (∀ e ∈ batch, e.Fits) →
    (∀ e ∈ batch, Token e.key) → db.options.vlogFileSizeLimit < 2 ^ 64 → (DB.writeEntries {} i batch db).1.Small →
    (DB.writeEntries {} i batch db).1.Mirrors
  | [], _, _, h, _, _, _, _, _ => h
  | e :: batch, i, db, h, ha, hf, ht, hl, hs => by
    have hgrow : (db.writeEntry e .none none).1.Small := hs.of_grows (grows_first {} e batch i db)
    obtain ⟨r, vlog, wal, hready, hlog, he⟩ := ha.writeEntry_record (hf e List.mem_cons_self) hl hgrow
    have hentry := ha.logged.writeEntry ha.active (continues_of_ready ha.ready.offset (e :: batch)) (hf e List.mem_cons_self)
      (ht e List.mem_cons_self) hl .none none hgrow
    rw [DB.writeEntries] at hs ⊢
    rw [show (({} : WriteFaults).vlog i) = .none from rfl, show (({} : WriteFaults).wal i) = none from rfl, he] at hs ⊢
    rw [he] at hentry
    have hopt := hentry.options
    exact Mirrors.writeEntries batch (i + 1) _ (h.addVersion (ha.logged.wf.memtables _ List.mem_cons_self) hlog)
      ⟨hentry.logged, hentry.active rfl, hready⟩ (fun e he => hf e (List.mem_cons_of_mem _ he))
      (fun e he => ht e (List.mem_cons_of_mem _ he)) (hopt ▸ hl) hs

/-- The end of a write. -/
theorem Mirrors.endWrite {db : DB} (h : db.Mirrors) (hl : db.Logged) (sync : Bool) :
    ((if sync then db.syncLogs else db).maybeScheduleFlush .none).1.Mirrors := by
  have hsync : (if sync then db.syncLogs else db).Mirrors ∧ (if sync then db.syncLogs else db).Logged := by
    split
    · exact ⟨h.congr (fun _ => rfl) hl.syncLogs.2, hl.syncLogs.1⟩
    · exact ⟨h, hl⟩
  generalize (if sync then db.syncLogs else db) = db₁ at hsync ⊢
  obtain ⟨h₁, hl₁⟩ := hsync
  refine h₁.congr (fun key => ?_) hl₁.maybeScheduleFlush.2.1
  unfold DB.maybeScheduleFlush
  split
  · exact congrArg (shown InternalEntry.Gone) (versions_rotate db₁ key)
  · rfl

/-- **A write** without faults. -/
theorem InService.write {db : DB} {m : Contents} (h : db.InService m) (sync : Bool) {batch : WriteBatch}
    (hw : ∀ e ∈ batch, e.Fits ∧ Token e.key) (hl : db.options.vlogFileSizeLimit < 2 ^ 64)
    (hs : (db.write sync batch {}).1.Small) :
    (db.write sync batch {}).2 = .ok () ∧ (db.write sync batch {}).1.options = db.options ∧
      (db.write sync batch {}).1.InService (WriteBatch.apply m batch) := by
  have hfits : ∀ e ∈ batch, e.Fits := fun e he => (hw e he).1
  have htoken : ∀ e ∈ batch, Token e.key := fun e he => (hw e he).2
  obtain ⟨db', he, hk⟩ := write_spec h.alive.inv h.refines sync hfits
  obtain ⟨-, hbatch, hact⟩ := h.alive.logged.write h.alive.active sync (continues_of_ready h.alive.ready.offset batch) hfits
    htoken hl {} hs
  obtain ⟨hlogged, -, hactive⟩ := hact rfl
  have hok : (db.write sync batch {}).2 = .ok () := by rw [he]
  have hmirrors : (db.write sync batch {}).1.Mirrors := by
    obtain ⟨db₁, he₁, -⟩ := writeEntries_spec (f := {}) (fun _ => rfl) (fun _ => rfl) batch 0 db m h.alive.inv h.refines hfits
    have hwrite : (db.write sync batch {}).1 = ((if sync then db₁.syncLogs else db₁).maybeScheduleFlush .none).1 := by
      rw [DB.write, he₁]
    rw [hwrite] at hs ⊢
    have hs₁ : (DB.writeEntries {} 0 batch db).1.Small := by
      rw [he₁]
      exact hs.of_grows (grows_endWrite db₁ sync .none)
    have hm₁ := Mirrors.writeEntries batch 0 db h.mirrors h.alive hfits htoken hl hs₁
    have hl₁ := (Logged.writeEntries {} batch 0 db h.alive.logged h.alive.active
      (continues_of_ready h.alive.ready.offset batch) hfits htoken hl hs₁).1
    rw [he₁] at hm₁ hl₁
    exact hm₁.endWrite hl₁ sync
  refine ⟨hok, ?_, ⟨hlogged, hactive hok, ?_⟩, ?_, ?_, hbatch.all hok m h.tells, hmirrors⟩
  · rw [he]
    exact hk.options
  · rw [he]
    exact hk.inv.vlog.ready
  · rw [he]
    exact hk.settled h.settled
  · rw [he]
    exact hk.refines

/-! ## The index -/

/-- A step of the index that keeps what is visible. -/
theorem InService.reindexed {db db' : DB} {m : Contents} (h : db.InService m) (hr : db.Reindexed db')
    (hs : db'.Settled) (hv : ∀ key, db'.visible key = db.visible key) : db'.InService m := by
  refine ⟨hr.alive h.alive, hs, h.refines.mono hv ?_, ?_, h.mirrors.congr hv ?_⟩
  · rw [hr.sameLogs.vlog]
    exact VLog.Extends.refl _
  · rw [hr.sameLogs.vlog, hr.sameLogs.wal]
    exact h.tells
  · rw [hr.sameLogs.wal]

/-- **A flush** without faults. -/
theorem InService.flushFront {db : DB} {m : Contents} (h : db.InService m) : (db.flushFront {}).InService m := by
  have hk := flushFront_spec h.alive.inv h.refines (f := {}) fun m _ => Or.inr ⟨rfl, fun _ _ => rfl, rfl, rfl⟩
  obtain ⟨-, hv, -⟩ := versions_flushFront h.alive.logged.wf (f := {}) fun m _ => Or.inr ⟨rfl, fun _ _ => rfl, rfl, rfl⟩
  exact h.reindexed ((h.alive.logged.flushFront {}).2 rfl) (hk.settled h.settled)
    fun key => congrArg (shown InternalEntry.Gone) (hv key)

/-- **A compaction** without faults. -/
theorem InService.compactLevel {db : DB} {m : Contents} (h : db.InService m) (lvl : Int) :
    (db.compactLevel lvl .none).1.InService m := by
  have hc := compactLevel_spec h.alive.logged.wf h.settled lvl
  exact h.reindexed ((h.alive.logged.compactLevel lvl .none).2 rfl) hc.settled hc.visible

/-! ## Openings -/

/-- **An opened database** is in service. -/
theorem Opened.inService {o : Options} {d : Disk} {db : DB} (h : Opened o d db) {m : Contents}
    (hm : Tells db.vlog.files (WAL.log db.wal.files) m) : db.InService m := by
  refine ⟨h.alive, h.settled, h.refines hm, hm, fun key => ?_⟩
  rw [h.log]
  cases hr : WAL.lastRecord (WAL.log d.wal) key with
  | none =>
    -- every version would be a record
    have hnil : db.versions key = [] := by
      apply List.eq_nil_iff_forall_not_mem.mpr
      intro e he
      obtain ⟨r, hmem, hk, -⟩ := h.logged.versions he
      rw [h.log] at hmem
      exact WAL.lastRecord_eq_none.mp hr r hmem hk
    rw [visible, hnil]
    rfl
  | some r =>
    rw [visible, shown, h.head key r hr]
    rfl

end DB

end SplitKV
