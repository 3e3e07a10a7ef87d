import SplitKV.PowerLoss.Machine
import SplitKV.Recovery.Write

/-!
# What a write leaves in the logs

A write, wherever it stops, adds some of its records to the newest WAL file, each with a new sequence number, and perhaps
the first bytes of one more (`DB.writeEntries_writes`). A record of a put points at the record of its value.
-/

namespace SplitKV

namespace WAL

/-- The newest file of the WAL gains the records, and perhaps some bytes behind them; when the appends succeed, it
gains the records only. -/
structure Gains (w w' : WAL) (new : List WALRecord) (ok : Prop) : Prop where
  dir : w'.files.dir = w.files.dir
  synced : w'.files.synced = w.files.synced
  currentId : w'.currentId = w.currentId
  older : ∀ id ≠ w.currentId, w'.files.data id = w.files.data id
  grows : w.files.data w.currentId <+: w'.files.data w.currentId
  torn : ∀ rs, Holds (w.files.data w.currentId) rs → Torn (w'.files.data w.currentId) (rs ++ new)
  whole : ok → w'.writer = w.writer ∧
    ∀ rs, Holds (w.files.data w.currentId) rs → Holds (w'.files.data w.currentId) (rs ++ new)

theorem Gains.refl (w : WAL) (ok : Prop) : Gains w w [] ok :=
  ⟨rfl, rfl, rfl, fun _ _ => rfl, List.prefix_refl _, fun rs h => by rw [List.append_nil]; exact Or.inl h,
    fun _ => ⟨rfl, fun rs h => by rw [List.append_nil]; exact h⟩⟩

theorem Gains.trans {w₁ w₂ w₃ : WAL} {new new' : List WALRecord} {ok : Prop} (h : Gains w₁ w₂ new True)
    (h' : Gains w₂ w₃ new' ok) : Gains w₁ w₃ (new ++ new') ok := by
  obtain ⟨hw, hwhole⟩ := h.whole trivial
  have hid := h.currentId
  refine ⟨h'.dir.trans h.dir, h'.synced.trans h.synced, h'.currentId.trans hid, fun id hne => ?_, ?_, fun rs hrs => ?_,
    fun hok => ⟨(h'.whole hok).1.trans hw, fun rs hrs => ?_⟩⟩
  · rw [h'.older id (hid.symm ▸ hne), h.older id hne]
  · exact h.grows.trans (hid ▸ h'.grows)
  · rw [← List.append_assoc, ← hid]
    exact h'.torn _ (hid.symm ▸ hwhole rs hrs)
  · rw [← List.append_assoc, ← hid]
    exact (h'.whole hok).2 _ (hid.symm ▸ hwhole rs hrs)

theorem Gains.imp {w w' : WAL} {new : List WALRecord} {ok ok' : Prop} (h : Gains w w' new ok) (hi : ok' → ok) :
    Gains w w' new ok' :=
  ⟨h.dir, h.synced, h.currentId, h.older, h.grows, h.torn, fun hok => h.whole (hi hok)⟩

/-- Other bytes of the newest file. -/
theorem gains_extend {w : WAL} {bytes : Bytes} {new : List WALRecord} {ok : Prop}
    (ht : ∀ rs, Holds (w.files.data w.currentId) rs → Torn (w.files.data w.currentId ++ bytes) (rs ++ new))
    (hw : ok → ∀ rs, Holds (w.files.data w.currentId) rs → Holds (w.files.data w.currentId ++ bytes) (rs ++ new)) :
    Gains w (w.extend bytes) new ok := by
  have hself : (w.extend bytes).files.data w.currentId = w.files.data w.currentId ++ bytes := Folder.data_write_self ..
  refine ⟨rfl, rfl, rfl, fun id hne => Folder.data_write_of_ne _ hne _, ?_, fun rs hrs => ?_, fun hok => ⟨rfl, fun rs hrs => ?_⟩⟩
  · rw [hself]
    exact List.prefix_append _ _
  · rw [hself]
    exact ht rs hrs
  · rw [hself]
    exact hw hok rs hrs

/-- **One record** is gained, or only some of its first bytes. -/
theorem gains_addRecord {w : WAL} (hw : w.writer = .opened) {rs : List WALRecord}
    (hrs : Holds (w.files.data w.currentId) rs) {r : WALRecord} (hr : Fits r) (fault : Option Nat) :
    ∃ new, (new = [r] ∨ fault ≠ none ∧ new = []) ∧
      Gains w (w.addRecord r fault).1 new ((w.addRecord r fault).2 = .ok ()) ∧
      (fault = none ↔ (w.addRecord r fault).2 = .ok ()) := by
  have huniq : ∀ rs', Holds (w.files.data w.currentId) rs' → rs' = rs := fun rs' h => h.recover.symm.trans hrs.recover
  unfold WAL.addRecord
  rw [hw]
  cases fault with
  | none =>
    refine ⟨[r], Or.inl rfl, gains_extend (fun rs' h => Or.inl (h.append hr)) (fun _ rs' h => h.append hr), ?_⟩
    exact ⟨fun _ => rfl, fun _ => rfl⟩
  | some n =>
    have hno : ∀ new : List WALRecord, Torn (w.files.data w.currentId ++ (encodeRecord r).take n) (rs ++ new) →
        Gains w (w.extend ((encodeRecord r).take n)) new
          ((.error (.IOError "fwrite") : Except Status Unit) = .ok ()) := fun new ht =>
      gains_extend (fun rs' h => huniq rs' h ▸ ht) (by intro h; cases h)
    have hiff : some n = none ↔ (.error (.IOError "fwrite") : Except Status Unit) = .ok () :=
      ⟨(by intro h; cases h), (by intro h; cases h)⟩
    rcases hrs.append_take hr n with ht | ht
    · exact ⟨[], Or.inr ⟨Option.some_ne_none n, rfl⟩, hno [] (by rw [List.append_nil]; exact ht), hiff⟩
    · exact ⟨[r], Or.inl rfl, hno [r] (Or.inl ht), hiff⟩

end WAL

namespace DB

/-- The record is the one of an entry of the batch. -/
def RecordIn (vlog : VLog) (batch : WriteBatch) (r : WALRecord) : Prop :=
  r.type = .deletion ∧ .delete r.key ∈ batch ∨
    r.type = .value ∧ ∃ value, .put r.key value ∈ batch ∧ vlog.Holds r.vlogPtr r.key value ∧
      r.vlogPtr.fileId ∈ vlog.files.dir

theorem RecordIn.mono {vlog vlog' : VLog} {batch batch' : WriteBatch} {r : WALRecord} (h : RecordIn vlog batch r)
    (he : vlog.Extends vlog') (hb : ∀ e ∈ batch, e ∈ batch') : RecordIn vlog' batch' r := by
  rcases h with ⟨ht, hm⟩ | ⟨ht, value, hm, hh, hd⟩
  · exact Or.inl ⟨ht, hb _ hm⟩
  · exact Or.inr ⟨ht, value, hb _ hm, hh.mono he, he.dir _ hd⟩

theorem RecordIn.key_mem {vlog : VLog} {batch : WriteBatch} {r : WALRecord} (h : RecordIn vlog batch r) :
    ∃ e ∈ batch, e.key = r.key := by
  rcases h with ⟨-, hm⟩ | ⟨-, value, hm, -⟩
  · exact ⟨_, hm, rfl⟩
  · exact ⟨_, hm, rfl⟩

/-- What the records of a write are. -/
structure NewRecords (db db' : DB) (batch : WriteBatch) (new : List WALRecord) : Prop where
  of : ∀ r ∈ new, RecordIn db'.vlog batch r
  fits : ∀ r ∈ new, WAL.Fits r
  range : ∀ r ∈ new, db.sequenceNumber ≤ r.sequence ∧ r.sequence < db'.sequenceNumber
  ordered : new.Pairwise (fun a b => a.sequence < b.sequence)
  memtable : ∀ p ∈ db'.memtable.getSortedEntries, p ∈ db.memtable.getSortedEntries ∨ ∃ r ∈ new, p = (r.key, r.entry)

/-- A step that tries to write some entries. -/
structure Writes (db db' : DB) (batch : WriteBatch) (new : List WALRecord) (ok : Prop) : Prop where
  same : db' = { db with
    vlog := db'.vlog, wal := db'.wal, memtable := db'.memtable, sequenceNumber := db'.sequenceNumber }
  sequence : db.sequenceNumber ≤ db'.sequenceNumber
  extended : db.vlog.Extends db'.vlog
  tidy : db'.vlog.Tidy
  ready : ok → db'.vlog.Ready
  wal : WAL.Gains db.wal db'.wal new ok
  records : NewRecords db db' batch new

theorem Writes.imp {db db' : DB} {batch : WriteBatch} {new : List WALRecord} {ok ok' : Prop}
    (h : Writes db db' batch new ok) (hi : ok' → ok) : Writes db db' batch new ok' :=
  ⟨h.same, h.sequence, h.extended, h.tidy, fun hok => h.ready (hi hok), h.wal.imp hi, h.records⟩

/-- One step behind another. -/
theorem Writes.trans {a b c : DB} {batch batch' : WriteBatch} {new new' : List WALRecord} {ok : Prop}
    (h : Writes a b batch new True) (h' : Writes b c batch' new' ok) : Writes a c (batch ++ batch') (new ++ new') ok := by
  refine ⟨by rw [h'.same, h.same], h.sequence.trans h'.sequence, h.extended.trans h'.extended, h'.tidy, h'.ready,
    h.wal.trans h'.wal, ?_⟩
  constructor
  · intro r hr
    rcases List.mem_append.mp hr with hr | hr
    · exact (h.records.of r hr).mono h'.extended fun e he => List.mem_append_left _ he
    · exact (h'.records.of r hr).mono (VLog.Extends.refl _) fun e he => List.mem_append_right _ he
  · intro r hr
    exact (List.mem_append.mp hr).elim (h.records.fits r) (h'.records.fits r)
  · intro r hr
    rcases List.mem_append.mp hr with hr | hr
    · exact ⟨(h.records.range r hr).1, (h.records.range r hr).2.trans_le h'.sequence⟩
    · exact ⟨h.sequence.trans (h'.records.range r hr).1, (h'.records.range r hr).2⟩
  · rw [List.pairwise_append]
    refine ⟨h.records.ordered, h'.records.ordered, fun x hx y hy => ?_⟩
    exact (h.records.range x hx).2.trans_le (h'.records.range y hy).1
  · intro p hp
    rcases h'.records.memtable p hp with hp | ⟨r, hr, he⟩
    · rcases h.records.memtable p hp with hp | ⟨r, hr, he⟩
      · exact Or.inl hp
      · exact Or.inr ⟨r, List.mem_append_left _ hr, he⟩
    · exact Or.inr ⟨r, List.mem_append_right _ hr, he⟩

/-- The value log and the WAL are open. -/
structure Writable (db : DB) : Prop where
  tidy : db.vlog.Tidy
  ready : db.vlog.Ready
  writer : db.wal.writer = .opened
  whole : ∃ rs, WAL.Holds (db.wal.files.data db.wal.currentId) rs

theorem Writable.syncLogs {db : DB} (h : db.Writable) : db.syncLogs.Writable := by
  obtain ⟨rs, hrs⟩ := h.whole
  obtain ⟨hdata, -, hid, hwriter⟩ := WAL.sync_files db.wal
  refine ⟨tidy_sync h.tidy, h.ready.sameFiles (VLog.sameFiles_sync db.vlog), hwriter.trans h.writer, rs, ?_⟩
  show WAL.Holds (db.wal.sync.files.data db.wal.sync.currentId) rs
  rw [hdata, hid]
  exact hrs

/-- The counters of the logs are within their bounds. -/
structure Bounded (db : DB) : Prop where
  vlog : ∀ id ∈ db.vlog.files.dir, id < 100000
  sequence : db.sequenceNumber ≤ 2 ^ 64

theorem Small.bounded {db : DB} (h : db.Small) : db.Bounded := ⟨h.vlog, h.sequence⟩

theorem Bounded.of_grows {db db' : DB} (h : db'.Bounded) (hg : db.Grows db') : db.Bounded :=
  ⟨fun id hid => h.vlog id (hg.vlog id hid), hg.sequence.trans h.sequence⟩

theorem Writes.writable {db db' : DB} {batch : WriteBatch} {new : List WALRecord} (h : Writes db db' batch new True)
    (hw : db.Writable) : db'.Writable := by
  obtain ⟨h₁, h₂⟩ := h.wal.whole trivial
  obtain ⟨rs, hrs⟩ := hw.whole
  refine ⟨h.tidy, h.ready trivial, h₁.trans hw.writer, rs ++ new, ?_⟩
  rw [h.wal.currentId]
  exact h₂ rs hrs

theorem NewRecords.nil {db : DB} (batch : WriteBatch) (vlog : VLog) (n : Nat) :
    NewRecords db { db with vlog := vlog, sequenceNumber := n } batch [] :=
  ⟨fun _ hr => absurd hr List.not_mem_nil, fun _ hr => absurd hr List.not_mem_nil, fun _ hr => absurd hr List.not_mem_nil,
    List.Pairwise.nil, fun _ hp => Or.inl hp⟩

/-- The record of an entry with the next sequence number, which becomes a version in the memtable `m` or does not. -/
theorem newRecords_one {db : DB} {batch : WriteBatch} {r : WALRecord} {vlog : VLog} {wal : WAL} {m : MemTable}
    {new : List WALRecord} (hr : RecordIn vlog batch r) (hf : WAL.Fits r) (hs : r.sequence = db.sequenceNumber)
    (hnew : new = [r] ∨ new = [])
    (hm : m = db.memtable ∨ m = db.memtable.add r.key r.entry ∧ new = [r]) :
    NewRecords db { db with vlog := vlog, wal := wal, memtable := m, sequenceNumber := db.sequenceNumber + 1 } batch new := by
  have hmem : ∀ a ∈ new, a = r := by
    intro a ha
    rcases hnew with rfl | rfl
    · exact List.mem_singleton.mp ha
    · cases ha
  refine ⟨fun a ha => hmem a ha ▸ hr, fun a ha => hmem a ha ▸ hf, fun a ha => ?_, ?_, fun p hp => ?_⟩
  · rw [hmem a ha]
    exact ⟨hs.ge, hs.le.trans_lt (Nat.lt_succ_self _)⟩
  · rcases hnew with rfl | rfl
    · exact List.pairwise_singleton _ _
    · exact List.Pairwise.nil
  · rcases hm with rfl | ⟨rfl, rfl⟩
    · exact Or.inl hp
    · rcases MemTable.mem_add hp with hp | hp
      · exact Or.inr ⟨r, List.mem_singleton.mpr rfl, hp⟩
      · exact Or.inl hp

/-- A record that is appended to the WAL, behind other bytes of the value log. -/
theorem writes_record {db : DB} (hw : db.Writable) {batch : WriteBatch} {r : WALRecord} {vlog : VLog}
    (hext : db.vlog.Extends vlog) (htidy : vlog.Tidy) (hready : vlog.Ready) (hr : RecordIn vlog batch r)
    (hf : WAL.Fits r) (hs : r.sequence = db.sequenceNumber) (fw : Option Nat) : ∃ new,
      ((db.wal.addRecord r fw).2 = .ok () → Writes db { db with
          vlog := vlog, wal := (db.wal.addRecord r fw).1, memtable := db.memtable.add r.key r.entry
          sequenceNumber := db.sequenceNumber + 1 } batch new True) ∧
        ((db.wal.addRecord r fw).2 ≠ .ok () → Writes db { db with
          vlog := vlog, wal := (db.wal.addRecord r fw).1, sequenceNumber := db.sequenceNumber + 1 } batch new False) := by
  obtain ⟨rs, hrs⟩ := hw.whole
  obtain ⟨new, hnew, hg, hiff⟩ := WAL.gains_addRecord hw.writer hrs hf fw
  refine ⟨new, fun hok => ?_, fun hne => ?_⟩
  · have hn : new = [r] := hnew.resolve_right fun h => h.1 (hiff.mpr hok)
    exact ⟨rfl, Nat.le_succ _, hext, htidy, fun _ => hready, hg.imp fun _ => hok,
      newRecords_one hr hf hs (Or.inl hn) (Or.inr ⟨rfl, hn⟩)⟩
  · exact ⟨rfl, Nat.le_succ _, hext, htidy, False.elim, hg.imp False.elim,
      newRecords_one hr hf hs (hnew.imp_right And.right) (Or.inl rfl)⟩

/-- **One entry**, wherever its records stop. -/
theorem writeEntry_writes {db : DB} (hw : db.Writable) {e : BatchEntry} (hf : e.Fits)
    (hl : db.options.vlogFileSizeLimit < 2 ^ 64) (fv : AppendFault) (fw : Option Nat)
    (hb : (db.writeEntry e fv fw).1.Bounded) :
    ∃ new, Writes db (db.writeEntry e fv fw).1 [e] new ((db.writeEntry e fv fw).2 = .ok ()) := by
  have hseq : db.sequenceNumber < 2 ^ 64 := by
    have := hb.sequence
    rw [sequence_writeEntry] at this
    omega
  cases e with
  | put key value =>
    have hext := VLog.extends_append db.options db.vlog key value .value fv
    have htidy := hw.tidy.append db.options key value .value fv
    unfold DB.writeEntry at hb ⊢
    simp only at hb ⊢
    cases hv : db.vlog.append db.options key value .value fv with
    | mk vlog res =>
      rw [hv] at hext htidy
      cases res with
      | error s =>
        exact ⟨[], rfl, Nat.le_succ _, hext, htidy, (by intro h; cases h), WAL.Gains.refl _ _, NewRecords.nil _ _ _⟩
      | ok ptr =>
        simp only [hv] at hb ⊢
        obtain ⟨hsize, happ⟩ := hw.tidy.appended (fun _ => hw.ready.offset) hv
        have hdir : ptr.fileId ∈ vlog.files.dir := (happ.dir _).mpr (Or.inl happ.fileId)
        have hid : ptr.fileId < 100000 := by
          refine hb.vlog _ ?_
          split <;> exact hdir
        have hfits : WAL.Fits ⟨.value, db.sequenceNumber, key, ptr⟩ :=
          ⟨Or.inl rfl, hseq, hf.2, hid.trans (by omega), (VLog.append_offset_le hv).trans_lt hl, by
            rw [hsize]
            exact Nat.mod_lt _ (by omega)⟩
        have hrec : RecordIn vlog [.put key value] ⟨.value, db.sequenceNumber, key, ptr⟩ :=
          Or.inr ⟨rfl, value, List.mem_singleton.mpr rfl, happ.holds hf.1 hsize, hdir⟩
        obtain ⟨new, h₁, h₂⟩ := writes_record hw hext htidy happ.ready hrec hfits rfl fw
        refine ⟨new, ?_⟩
        generalize db.wal.addRecord ⟨.value, db.sequenceNumber, key, ptr⟩ fw = x at h₁ h₂ ⊢
        obtain ⟨wal, res⟩ := x
        cases res with
        | ok u =>
          exact (h₁ rfl).imp fun _ => trivial
        | error s =>
          exact (h₂ (by intro h; cases h)).imp (by intro h; cases h)
  | delete key =>
    have hfits : WAL.Fits ⟨.deletion, db.sequenceNumber, key, ⟨0, 0, 0⟩⟩ :=
      ⟨Or.inr ⟨rfl, rfl⟩, hseq, hf, Nat.two_pow_pos 32, Nat.two_pow_pos 64, Nat.two_pow_pos 32⟩
    have hrec : RecordIn db.vlog [.delete key] ⟨.deletion, db.sequenceNumber, key, ⟨0, 0, 0⟩⟩ :=
      Or.inl ⟨rfl, List.mem_singleton.mpr rfl⟩
    obtain ⟨new, h₁, h₂⟩ := writes_record hw (VLog.Extends.refl _) hw.tidy hw.ready hrec hfits rfl fw
    refine ⟨new, ?_⟩
    unfold DB.writeEntry
    simp only
    generalize db.wal.addRecord ⟨.deletion, db.sequenceNumber, key, ⟨0, 0, 0⟩⟩ fw = x at h₁ h₂ ⊢
    obtain ⟨wal, res⟩ := x
    cases res with
    | ok u =>
      exact (h₁ rfl).imp fun _ => trivial
    | error s =>
      exact (h₂ (by intro h; cases h)).imp (by intro h; cases h)

/-- **The entries of a batch**, wherever their records stop. -/
theorem writeEntries_writes (f : WriteFaults) : ∀ (batch : WriteBatch) (i : Nat) (db : DB), db.Writable →
    (∀ e ∈ batch, e.Fits) → db.options.vlogFileSizeLimit < 2 ^ 64 → (DB.writeEntries f i batch db).1.Bounded →
    ∃ new, Writes db (DB.writeEntries f i batch db).1 batch new ((DB.writeEntries f i batch db).2 = .ok ())
  | [], _, db, hw, _, _, _ =>
    ⟨[], rfl, Nat.le_refl _, VLog.Extends.refl _, hw.tidy, fun _ => hw.ready, WAL.Gains.refl _ _, NewRecords.nil _ _ _⟩
  | e :: batch, i, db, hw, hf, hl, hb => by
    have hgrow : (db.writeEntry e (f.vlog i) (f.wal i)).1.Bounded := hb.of_grows (grows_first f e batch i db)
    obtain ⟨new, h⟩ := writeEntry_writes hw (hf e List.mem_cons_self) hl (f.vlog i) (f.wal i) hgrow
    rw [DB.writeEntries] at hb ⊢
    generalize db.writeEntry e (f.vlog i) (f.wal i) = x at h hb ⊢
    obtain ⟨db₁, x⟩ := x
    cases x with
    | error s =>
      refine ⟨new, ?_⟩
      have h' : Writes db db₁ [e] new ((.error s : Except Status Unit) = .ok ()) := h
      exact ⟨h'.same, h'.sequence, h'.extended, h'.tidy, h'.ready, h'.wal,
        ⟨fun r hr => (h'.records.of r hr).mono (VLog.Extends.refl _)
          (fun a ha => (List.mem_singleton.mp ha) ▸ List.mem_cons_self),
          h'.records.fits, h'.records.range, h'.records.ordered, h'.records.memtable⟩⟩
    | ok u =>
      have h₁ : Writes db db₁ [e] new True := h.imp fun _ => rfl
      have hopt : db₁.options = db.options := by rw [h₁.same]
      obtain ⟨new', h'⟩ := writeEntries_writes f batch (i + 1) db₁ (h₁.writable hw)
        (fun a ha => hf a (List.mem_cons_of_mem _ ha)) (hopt.symm ▸ hl) hb
      exact ⟨new ++ new', h₁.trans h'⟩

end DB

end SplitKV
