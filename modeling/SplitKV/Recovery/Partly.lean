import SplitKV.Recovery.Write
import SplitKV.Session
import SplitKV.VLog.Synced

/-!
# Parts of a write

What a write leaves that fails, or whose process crashes: the entries whose versions are in the memtable, and the entries
whose records are whole in the log (`DB.Partly`). An entry that fails leaves no version, but its record when all bytes of
it were written.
-/

namespace SplitKV

open Assoc

/-! ## Records that are cut -/

/-- The length of the WAL record of an entry. -/
def BatchEntry.recordLength : BatchEntry → Nat
  | put key _ => 37 + key.length
  | delete key => 21 + key.length

namespace WAL

/-- **An append to the log that fails** behind `n` bytes adds the record when all its bytes are there. -/
theorem Active.addRecord_cut {w : WAL} (ha : Active w) (h : Logs w.files) {r : WALRecord} (hr : Fits r) (n : Nat) :
    log (w.addRecord r (some n)).1.files = log w.files ++ if (encodeRecord r).length ≤ n then [r] else [] := by
  obtain ⟨older, hd⟩ := ha.last
  obtain ⟨rs, hrs⟩ := ha.whole
  have hadd : (w.addRecord r (some n)).1 = w.extend ((encodeRecord r).take n) := by rw [WAL.addRecord, ha.writer]
  rw [hadd]
  split
  · rename_i hn
    rw [List.take_of_length_le hn]
    exact (log_extend h hd _ hrs (Or.inl (hrs.append hr))).2
  · rename_i hn
    have ht : Torn (w.files.data w.currentId ++ (encodeRecord r).take n) (rs ++ []) := by
      rw [List.append_nil]
      exact Or.inr ⟨hrs.1, r, n, hr, by omega, by rw [hrs.2]⟩
    exact (log_extend h hd _ hrs ht).2

end WAL

/-- Extending the value log keeps what a record is. -/
theorem BatchEntry.RecordOf.mono {v v' : VLog} {e : BatchEntry} {r : WALRecord} (h : e.RecordOf v.files r) (ht : v.Tidy)
    (he : v.Extends v') : e.RecordOf v'.files r := by
  cases e with
  | put key value => exact ⟨h.1, h.2.1, h.2.2.1.mono ht he, he.dir _ h.2.2.2⟩
  | delete key => exact h

/-- The records of some entries apply them to the contents. -/
theorem Tells.appendAll {vlog : Folder Bytes} {entries : WriteBatch} {new : List WALRecord}
    (hr : List.Forall₂ (fun e r => BatchEntry.RecordOf vlog e r) entries new) : ∀ {rs : List WALRecord} {m : Contents},
      Tells vlog rs m → Tells vlog (rs ++ new) (WriteBatch.apply m entries) := by
  induction hr with
  | nil =>
    intro rs m h
    rw [List.append_nil]
    exact h
  | cons hr _ ih =>
    intro rs m h
    rw [List.append_cons]
    exact ih (h.append hr)

namespace DB

variable {db : DB}

/-- The value of the record was synced. -/
def Secured (vlog : Folder Bytes) (r : WALRecord) : Prop :=
  r.type = .value → vlog.FirstSynced r.vlogPtr.fileId (r.vlogPtr.offset + 13 + r.key.length + r.vlogPtr.valueSize)

/-- The record is the one of the entry, and its value was synced when `sync_writes` is set. -/
structure Written (o : Options) (vlog : Folder Bytes) (e : BatchEntry) (r : WALRecord) : Prop where
  record : e.RecordOf vlog r
  secured : o.syncWrites = true → Secured vlog r

theorem Written.mono {o : Options} {v v' : VLog} {e : BatchEntry} {r : WALRecord} (h : Written o v.files e r)
    (ht : v.Tidy) (he : v.Extends v') (hk : v.KeepsSynced v') : Written o v'.files e r := by
  refine ⟨h.record.mono ht he, fun hs hv => hk.kept _ ?_ _ (h.secured hs hv)⟩
  have hr := h.record
  cases e with
  | put key value => exact ht.newest _ hr.2.2.2
  | delete key =>
    rw [hr.1] at hv
    cases hv

/-- What a part of a write leaves: the entries `shown` in the memtable, and the records of the entries `logged` in the
log. -/
structure Partly (db db' : DB) (shown logged : WriteBatch) : Prop where
  shown : ∀ m, db.Refines m → db'.Refines (WriteBatch.apply m shown)
  options : db'.options = db.options
  extended : db.vlog.Extends db'.vlog
  tidy : db'.vlog.Tidy
  synced : db.vlog.KeepsSynced db'.vlog
  logged : ∃ new, WAL.log db'.wal.files = WAL.log db.wal.files ++ new ∧
    List.Forall₂ (Written db.options db'.vlog.files) logged new

/-- Nothing is logged. -/
theorem Partly.of_log {db db' : DB} (hs : ∀ m, db.Refines m → db'.Refines m) (ho : db'.options = db.options)
    (he : db.vlog.Extends db'.vlog) (ht : db'.vlog.Tidy) (hk : db.vlog.KeepsSynced db'.vlog)
    (hl : WAL.log db'.wal.files = WAL.log db.wal.files) : Partly db db' [] [] :=
  ⟨hs, ho, he, ht, hk, [], by rw [hl, List.append_nil], List.Forall₂.nil⟩

theorem Partly.refl {db : DB} (ht : db.vlog.Tidy) : Partly db db [] [] :=
  Partly.of_log (fun _ h => h) rfl (VLog.Extends.refl _) ht (VLog.KeepsSynced.refl _) rfl

theorem Partly.trans {db' db'' : DB} {a b c d : WriteBatch} (h : Partly db db' a b) (h' : Partly db' db'' c d) :
    Partly db db'' (a ++ c) (b ++ d) := by
  obtain ⟨new, hlog, hnew⟩ := h.logged
  obtain ⟨new', hlog', hnew'⟩ := h'.logged
  refine ⟨fun m hm => (WriteBatch.apply_append m a c) ▸ h'.shown _ (h.shown m hm), h'.options.trans h.options,
    h.extended.trans h'.extended, h'.tidy, h.synced.trans h'.synced, new ++ new', ?_, ?_⟩
  · rw [hlog', hlog, List.append_assoc]
  · rw [h.options] at hnew'
    exact List.rel_append (hnew.imp fun e r hr => hr.mono h.tidy h'.extended h'.synced) hnew'

/-- **The contents** that the log stands for. -/
theorem Partly.told {db' : DB} {a b : WriteBatch} (h : Partly db db' a b) (ht : db.vlog.Tidy) {m : Contents}
    (hm : Tells db.vlog.files (WAL.log db.wal.files) m) :
    Tells db'.vlog.files (WAL.log db'.wal.files) (WriteBatch.apply m b) := by
  obtain ⟨new, hlog, hnew⟩ := h.logged
  rw [hlog]
  exact (hm.mono ht h.extended).appendAll (hnew.imp fun e r hr => hr.record)

/-- An entry whose value does not reach the value log leaves nothing. -/
theorem Logged.partly_vlog (h : db.Logged) {key value : Bytes} {fv : AppendFault} {s : Status}
    (hv : (db.vlog.append db.options key value .value fv).2 = .error s) (fw : Option Nat) :
    Partly db (db.writeEntry (.put key value) fv fw).1 [] [] := by
  have hext := VLog.extends_append db.options db.vlog key value .value fv
  have htidy := h.vlog.append db.options key value .value fv
  have hsync := VLog.keepsSynced_append db.options db.vlog key value .value fv
  have he : (db.writeEntry (.put key value) fv fw).1 = { db with
      vlog := (db.vlog.append db.options key value .value fv).1, sequenceNumber := db.sequenceNumber + 1 } := by
    rw [DB.writeEntry]
    generalize db.vlog.append db.options key value .value fv = x at hv
    obtain ⟨v, r⟩ := x
    cases hv
    rfl
  rw [he]
  exact Partly.of_log (fun m hm => hm.mono (fun _ => rfl) hext) rfl hext htidy hsync rfl

/-- What the entry sends to the WAL: its value is stored, and its record can be encoded. -/
structure Sends (db : DB) (e : BatchEntry) (fv : AppendFault) (vlog : VLog) (r : WALRecord) : Prop where
  extended : db.vlog.Extends vlog
  tidy : vlog.Tidy
  synced : db.vlog.KeepsSynced vlog
  written : Written db.options vlog.files e r
  fits : WAL.Fits r
  length : (WAL.encodeRecord r).length = e.recordLength
  holds : ∀ key value, e = .put key value → vlog.Holds r.vlogPtr key value
  writes : ∀ fw, db.writeEntry e fv fw =
    match db.wal.addRecord r fw with
    | (wal, .error s) => ({ db with vlog := vlog, wal := wal, sequenceNumber := db.sequenceNumber + 1 }, .error s)
    | (wal, .ok ()) => ({ db with vlog := vlog, wal := wal }.addVersion r.key r.entry, .ok ())

/-- **An entry** whose value reaches the value log sends a record to the WAL. -/
theorem Logged.sends (h : db.Logged) {e : BatchEntry} {rest : WriteBatch} (hc : Continues db.options db.vlog (e :: rest))
    (hf : e.Fits) (hl : db.options.vlogFileSizeLimit < 2 ^ 64) {fv : AppendFault} {fw : Option Nat}
    (hs : (db.writeEntry e fv fw).1.Small)
    (hv : ∀ key value, e = .put key value → ∀ s, (db.vlog.append db.options key value .value fv).2 ≠ .error s) :
    ∃ vlog r, Sends db e fv vlog r := by
  have hseq : db.sequenceNumber < 2 ^ 64 := by
    have := hs.sequence
    rw [sequence_writeEntry] at this
    omega
  cases e with
  | delete key =>
    refine ⟨db.vlog, ⟨.deletion, db.sequenceNumber, key, ⟨0, 0, 0⟩⟩, VLog.Extends.refl _, h.vlog,
      VLog.KeepsSynced.refl _, ⟨⟨rfl, rfl⟩, fun _ hv => (by cases hv)⟩,
      ⟨Or.inr ⟨rfl, rfl⟩, hseq, hf, Nat.two_pow_pos 32, Nat.two_pow_pos 64, Nat.two_pow_pos 32⟩, ?_,
      fun _ _ he => (by cases he), fun fw => ?_⟩
    · rw [WAL.length_encodeRecord]
      simp [WAL.encodeInner, BatchEntry.recordLength]
      omega
    · rw [DB.writeEntry]
      generalize db.wal.addRecord ⟨.deletion, db.sequenceNumber, key, ⟨0, 0, 0⟩⟩ fw = x
      obtain ⟨wal, r⟩ := x
      cases r <;> rfl
  | put key value =>
    have hext := VLog.extends_append db.options db.vlog key value .value fv
    have htidy := h.vlog.append db.options key value .value fv
    have hsync := VLog.keepsSynced_append db.options db.vlog key value .value fv
    cases happ : db.vlog.append db.options key value .value fv with
    | mk vlog res =>
      rw [happ] at hext htidy hsync
      cases res with
      | error s => exact absurd (by rw [happ]) (hv key value rfl s)
      | ok ptr =>
        obtain ⟨hsize, hap⟩ := h.vlog.appended hc happ
        have hdir : ptr.fileId ∈ vlog.files.dir := (hap.dir _).mpr (Or.inl hap.fileId)
        have hholds := hap.holds hf.1 hsize
        have hst : Stored vlog.files ptr key value := hholds.stored hap.ready.exists_
        have hwrites : ∀ fw, db.writeEntry (.put key value) fv fw =
            match db.wal.addRecord ⟨.value, db.sequenceNumber, key, ptr⟩ fw with
            | (wal, .error s) => ({ db with vlog := vlog, wal := wal, sequenceNumber := db.sequenceNumber + 1 }, .error s)
            | (wal, .ok ()) => ({ db with vlog := vlog, wal := wal }.addVersion key ⟨ptr, db.sequenceNumber, .value⟩, .ok ()) := by
          intro fw
          simp only [DB.writeEntry, happ]
          generalize db.wal.addRecord ⟨.value, db.sequenceNumber, key, ptr⟩ fw = x
          obtain ⟨wal, r⟩ := x
          cases r <;> rfl
        have hid : ptr.fileId < 100000 := by
          refine hs.vlog _ ?_
          rw [hwrites]
          split <;> exact hdir
        have hoffset := (VLog.append_offset_le happ).trans_lt hl
        refine ⟨vlog, ⟨.value, db.sequenceNumber, key, ptr⟩, hext, htidy, hsync,
          ⟨⟨rfl, rfl, hst, hdir⟩, fun hs _ => hholds.firstSynced ?_⟩,
          ⟨Or.inl rfl, hseq, hf.2, hid.trans (by omega), hoffset, ?_⟩, ?_, fun k v he => ?_, hwrites⟩
        · rw [hap.fileId]
          exact (VLog.synced_append hs happ).ge
        · show ptr.valueSize < 2 ^ 32
          rw [hsize]
          exact Nat.mod_lt _ (by omega)
        · rw [WAL.length_encodeRecord]
          simp [WAL.encodeInner, BatchEntry.recordLength]
          omega
        · cases he
          exact hholds

/-- An entry whose record is cut leaves nothing in the memtable, and its record when all of its bytes are there. -/
theorem Logged.partly_cut (h : db.Logged) (ha : db.wal.Active) {e : BatchEntry} {fv : AppendFault} {vlog : VLog}
    {r : WALRecord} (hr : Sends db e fv vlog r) (n : Nat) :
    Partly db (db.writeEntry e fv (some n)).1 [] (if e.recordLength ≤ n then [e] else []) ∧
      (db.writeEntry e fv (some n)).2 ≠ .ok () := by
  have hlog := ha.addRecord_cut h.logs hr.fits n
  obtain ⟨s, hres⟩ := (ha.addRecord h.logs hr.fits (some n)).2.2.2 (Option.some_ne_none n)
  rw [hr.writes]
  generalize db.wal.addRecord r (some n) = x at hlog hres
  obtain ⟨wal, res⟩ := x
  cases hres
  refine ⟨⟨fun m hm => hm.mono (fun _ => rfl) hr.extended, rfl, hr.extended, hr.tidy, hr.synced, _, hlog, ?_⟩,
    fun he => by cases he⟩
  rw [hr.length]
  by_cases hn : e.recordLength ≤ n
  · rw [if_pos hn, if_pos hn]
    exact List.Forall₂.cons hr.written List.Forall₂.nil
  · rw [if_neg hn, if_neg hn]
    exact List.Forall₂.nil

/-- An entry that is written is in the memtable and in the log. -/
theorem Logged.partly_entry (h : db.Logged) (ha : db.wal.Active) {e : BatchEntry} {fv : AppendFault} {vlog : VLog}
    {r : WALRecord} (hr : Sends db e fv vlog r) : Partly db (db.writeEntry e fv none).1 [e] [e] ∧
      (db.writeEntry e fv none).2 = .ok () := by
  obtain ⟨-, hlog, hok, -⟩ := ha.addRecord h.logs hr.fits none
  have hlog := hlog.resolve_right fun hn => hn.1 rfl
  obtain ⟨hres, -⟩ := hok rfl
  rw [hr.writes]
  generalize db.wal.addRecord r none = x at hlog hres
  obtain ⟨wal, res⟩ := x
  cases hres
  refine ⟨⟨fun m hm => ?_, rfl, hr.extended, hr.tidy, hr.synced, [r], hlog,
    List.Forall₂.cons hr.written List.Forall₂.nil⟩, rfl⟩
  have hm : ({ db with vlog := vlog, wal := wal } : DB).Refines m := hm.mono (fun _ => rfl) hr.extended
  have hw : ({ db with vlog := vlog, wal := wal } : DB).Wf := ⟨h.wf.memtables, h.wf.levels, h.wf.ids⟩
  have hrec := hr.written.record
  obtain ⟨type, seq, key, ptr⟩ := r
  cases e with
  | put k v =>
    obtain ⟨rfl, rfl, -, hdir⟩ := hrec
    exact hm.addVersion hw (hr.holds _ _ rfl) (VLog.canOpen_of_mem hdir)
  | delete k =>
    obtain ⟨rfl, rfl⟩ := hrec
    exact hm.addTombstone hw

/-- A value that does not reach the value log fails its entry. -/
theorem writeEntry_vlog {key value : Bytes} {fv : AppendFault} {s : Status}
    (hv : (db.vlog.append db.options key value .value fv).2 = .error s) (fw : Option Nat) :
    (db.writeEntry (.put key value) fv fw).2 = .error s := by
  rw [DB.writeEntry]
  generalize db.vlog.append db.options key value .value fv = x at hv
  obtain ⟨v, r⟩ := x
  cases hv
  rfl

/-- An entry without a failure. -/
theorem Logged.partly_ok (h : db.Logged) (ha : db.wal.Active) {e : BatchEntry} {rest : WriteBatch}
    (hc : Continues db.options db.vlog (e :: rest)) (hf : e.Fits) (hl : db.options.vlogFileSizeLimit < 2 ^ 64)
    {fv : AppendFault} {fw : Option Nat} (hs : (db.writeEntry e fv fw).1.Small) (hok : (db.writeEntry e fv fw).2 = .ok ()) :
    Partly db (db.writeEntry e fv fw).1 [e] [e] := by
  obtain ⟨vlog, r, hr⟩ := h.sends hc hf hl hs fun key value he s hv => by
    rw [he, writeEntry_vlog hv] at hok
    cases hok
  cases fw with
  | none => exact (h.partly_entry ha hr).1
  | some n => exact absurd hok (h.partly_cut ha hr n).2

theorem writeEntries_append (f : WriteFaults) : ∀ (a b : WriteBatch) (i : Nat) (db : DB),
    DB.writeEntries f i (a ++ b) db =
      match DB.writeEntries f i a db with
      | (db, .error s) => (db, .error s)
      | (db, .ok ()) => DB.writeEntries f (i + a.length) b db
  | [], _, _, _ => rfl
  | e :: a, b, i, db => by
    rw [List.cons_append, DB.writeEntries, DB.writeEntries]
    generalize db.writeEntry e (f.vlog i) (f.wal i) = x
    obtain ⟨db₁, r⟩ := x
    cases r with
    | error s => rfl
    | ok u =>
      simp only
      rw [writeEntries_append f a b (i + 1) db₁, List.length_cons, Nat.add_right_comm, Nat.add_assoc]

/-- **The entries before a failure.** -/
theorem Logged.partly_entries (f : WriteFaults) : ∀ (a rest : WriteBatch) (i : Nat) (db : DB), db.Logged → db.wal.Active →
    Continues db.options db.vlog (a ++ rest) → (∀ e ∈ a, e.Fits ∧ Token e.key) → db.options.vlogFileSizeLimit < 2 ^ 64 →
    (DB.writeEntries f i a db).1.Small → (DB.writeEntries f i a db).2 = .ok () →
    (DB.writeEntries f i a db).1.Logged ∧ (DB.writeEntries f i a db).1.wal.Active ∧
      Continues (DB.writeEntries f i a db).1.options (DB.writeEntries f i a db).1.vlog rest ∧
      (DB.writeEntries f i a db).1.options = db.options ∧ Partly db (DB.writeEntries f i a db).1 a a
  | [], _, _, db, h, ha, hc, _, _, _, _ => ⟨h, ha, hc, rfl, Partly.refl h.vlog⟩
  | e :: a, rest, i, db, h, ha, hc, hf, hl, hs, hok => by
    obtain ⟨hfit, htok⟩ := hf e List.mem_cons_self
    have hgrow : (db.writeEntry e (f.vlog i) (f.wal i)).1.Small := hs.of_grows (grows_first f e a i db)
    have hentry := h.writeEntry ha hc hfit htok hl (f.vlog i) (f.wal i) hgrow
    have hpart := h.partly_ok ha hc hfit hl hgrow
    rw [DB.writeEntries] at hs hok ⊢
    generalize db.writeEntry e (f.vlog i) (f.wal i) = x at hs hok hentry hpart ⊢
    obtain ⟨db₁, r⟩ := x
    cases r with
    | error s => cases hok
    | ok u =>
      obtain ⟨h₁, h₂, h₃, h₄, h₅⟩ := Logged.partly_entries f a rest (i + 1) db₁ hentry.logged (hentry.active rfl)
        (hentry.continues rfl) (fun e he => hf e (List.mem_cons_of_mem _ he)) (hentry.options ▸ hl) hs hok
      exact ⟨h₁, h₂, h₃, h₄.trans hentry.options, (hpart rfl).trans h₅⟩

/-- The syncs. -/
theorem Logged.partly_syncLogs (h : db.Logged) : Partly db db.syncLogs [] [] := by
  have hv : ∀ key, db.syncLogs.visible key = db.visible key := fun _ => rfl
  exact Partly.of_log (fun m hm => hm.mono hv (VLog.extends_sync db.vlog)) rfl (VLog.extends_sync db.vlog)
    (tidy_sync h.vlog) (VLog.keepsSynced_sync db.vlog) h.syncLogs.2

/-- `MaybeScheduleFlush`, wherever it fails. -/
theorem Logged.partly_maybeScheduleFlush (h : db.Logged) (fault : CreateFault) :
    Partly db (db.maybeScheduleFlush fault).1 [] [] := by
  have hlog := (h.sameLog_maybeScheduleFlush fault).log
  have hsame : (db.maybeScheduleFlush fault).1.options = db.options ∧ (db.maybeScheduleFlush fault).1.vlog = db.vlog ∧
      ∀ key, (db.maybeScheduleFlush fault).1.visible key = db.visible key := by
    unfold DB.maybeScheduleFlush
    split
    · exact ⟨rfl, rfl, fun key => congrArg _ (versions_rotate db key)⟩
    · exact ⟨rfl, rfl, fun _ => rfl⟩
  obtain ⟨ho, hv, hvis⟩ := hsame
  refine Partly.of_log (fun m hm => hm.mono hvis ?_) ho ?_ ?_ ?_ hlog
  · exact hv ▸ VLog.Extends.refl _
  · exact hv ▸ VLog.Extends.refl _
  · exact hv ▸ h.vlog
  · exact hv ▸ VLog.KeepsSynced.refl _

/-- The end of a write leaves nothing of its own. -/
theorem Logged.partly_endWrite (h : db.Logged) (sync : Bool) (fault : CreateFault) :
    Partly db ((if sync then db.syncLogs else db).maybeScheduleFlush fault).1 [] [] := by
  split
  · exact h.partly_syncLogs.trans (h.syncLogs.1.partly_maybeScheduleFlush fault)
  · exact h.partly_maybeScheduleFlush fault

end DB

end SplitKV
