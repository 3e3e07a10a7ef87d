import SplitKV.PowerLoss.Acknowledged
import SplitKV.PowerLoss.Pointers
import SplitKV.Recovery.Lifetime

/-!
# Value logs without parts of records

As long as no crash leaves a part of a record in the value log, its files consist of whole records, and the scan of a file
delivers every record that the WAL points at (`Unharmed`). Then every collection finds what is visible in its segment, and
nothing is lost over the lifetime of a directory (`Machine.lifetime_clean`).
-/

namespace SplitKV

open Assoc

/-- The fault leaves no part of a record. -/
def AppendFault.Clean : AppendFault → Prop
  | .write n => n = 0
  | .flush n => n = 0
  | _ => True

instance : (f : AppendFault) → Decidable f.Clean
  | .write n => inferInstanceAs (Decidable (n = 0))
  | .flush n => inferInstanceAs (Decidable (n = 0))
  | .none | .rotateSync | .rotateClose | .rotateOpen | .sync => inferInstanceAs (Decidable True)

namespace VLog

/-! ## Steps of the value log -/

/-- The log grows, by whole records only. -/
structure Harmless (v v' : VLog) : Prop extends Extends v v' where
  whole : (∀ id, Whole (v.files.data id)) → ∀ id, Whole (v'.files.data id)
  scans : (∀ id, Whole (v.files.data id)) → ∀ id ≤ v.currentFileId,
    scanFile (v.files.data id) 0 ⊆ scanFile (v'.files.data id) 0

theorem Harmless.of_data {v v' : VLog} (he : Extends v v') (hd : v'.files.data = v.files.data) : Harmless v v' :=
  ⟨he, fun h id => hd ▸ h id, fun _ id _ => by rw [hd]; exact List.Subset.refl _⟩

theorem Harmless.trans {a b c : VLog} (h : Harmless a b) (h' : Harmless b c) : Harmless a c :=
  ⟨h.toExtends.trans h'.toExtends, fun hw => h'.whole (h.whole hw), fun hw id hid =>
    List.Subset.trans (h.scans hw id hid) (h'.scans (h.whole hw) id (hid.trans h.current))⟩

theorem harmless_openReader (v : VLog) (id : Nat) : Harmless v (v.openReader id) :=
  .of_data (extends_openReader v id) (sameFiles_openReader v id).data

theorem harmless_sync (v : VLog) : Harmless v v.sync := .of_data (extends_sync v) (sameFiles_sync v).data

/-- A rotation, wherever it fails, creates an empty file at most. -/
theorem data_rotateFile (v : VLog) (fault : AppendFault) (id : Nat) :
    (v.rotateFile fault).1.files.data id = v.files.data id ∨
      v.currentFileId < id ∧ (v.rotateFile fault).1.files.data id = [] := by
  have hcreate : ∀ u : VLog, u.files.data = v.files.data → u.currentFileId = v.currentFileId →
      (u.files.create (u.currentFileId + 1) []).data id = v.files.data id ∨
        v.currentFileId < id ∧ (u.files.create (u.currentFileId + 1) []).data id = [] := by
    intro u hd hc
    by_cases hid : id = u.currentFileId + 1
    · subst hid
      exact Or.inr ⟨by omega, Folder.data_create_self ..⟩
    · rw [Folder.data_create_of_ne _ hid, hd]
      exact Or.inl rfl
  unfold rotateFile
  split
  · exact Or.inl rfl
  · split
    · exact Or.inl rfl
    · split
      · exact Or.inl rfl
      · have hsame : (if v.writer = .opened then v.syncFile else v).files.data = v.files.data ∧
            (if v.writer = .opened then v.syncFile else v).currentFileId = v.currentFileId := by
          split <;> exact ⟨rfl, rfl⟩
        generalize (if v.writer = .opened then v.syncFile else v) = u at hsame ⊢
        simp only
        split
        · exact Or.inl (congrFun hsame.1 id)
        · exact hcreate u hsame.1 hsame.2

/-- The record is written, or nothing of it. -/
theorem data_appendRecord (o : Options) (v : VLog) (key value : Bytes) {fault : AppendFault} (hf : fault.Clean) (id : Nat) :
    (v.appendRecord o key value .value fault).1.files.data id = v.files.data id ∨
      id = v.currentFileId ∧
        (v.appendRecord o key value .value fault).1.files.data id = v.files.data id ++ encodeRecord .value key value := by
  have hextend : ∀ bytes, (v.extend bytes).files.data id = v.files.data id ∨
      id = v.currentFileId ∧ (v.extend bytes).files.data id = v.files.data id ++ bytes := by
    intro bytes
    by_cases hid : id = v.currentFileId
    · subst hid
      exact Or.inr ⟨rfl, Folder.data_write_self ..⟩
    · exact Or.inl (Folder.data_write_of_ne _ hid _)
  have hnone : (v.extend ((encodeRecord .value key value).take 0)).files.data id = v.files.data id := by
    rcases hextend ((encodeRecord .value key value).take 0) with he | ⟨-, he⟩
    · exact he
    · rw [he, List.take_zero, List.append_nil]
  unfold appendRecord
  simp only
  split
  · exact Or.inl rfl
  · cases fault with
    | write n =>
      have hn : n = 0 := hf
      subst hn
      exact Or.inl hnone
    | flush n =>
      have hn : n = 0 := hf
      subst hn
      exact Or.inl hnone
    | none | rotateSync | rotateClose | rotateOpen | sync =>
      simp only
      split
      · split <;> exact hextend _
      · exact hextend _

/-- **An append** that leaves no part of a record, whether it fails or not. -/
theorem harmless_append (o : Options) (v : VLog) {key value : Bytes} (hfits : Fits key value) {fault : AppendFault}
    (hf : fault.Clean) : Harmless v (v.append o key value .value fault).1 := by
  have hext := extends_append o v key value .value fault
  have hdata : ∀ id, (v.append o key value .value fault).1.files.data id = v.files.data id ∨
      (v.append o key value .value fault).1.files.data id = v.files.data id ++ encodeRecord .value key value ∨
        v.currentFileId < id ∧ ((v.append o key value .value fault).1.files.data id = [] ∨
          (v.append o key value .value fault).1.files.data id = [] ++ encodeRecord .value key value) := by
    intro id
    unfold append
    split
    · exact Or.inl rfl
    · split
      · have hrot := data_rotateFile v fault id
        generalize v.rotateFile fault = x at hrot ⊢
        obtain ⟨u, st⟩ := x
        cases st with
        | error s => exact hrot.imp_right fun h => Or.inr ⟨h.1, Or.inl h.2⟩
        | ok x =>
          have hrec := data_appendRecord o u key value hf id
          rcases hrot with hrot | ⟨hlt, hrot⟩
          · rw [hrot] at hrec
            exact hrec.imp_right fun h => Or.inl h.2
          · rw [hrot] at hrec
            exact Or.inr (Or.inr ⟨hlt, hrec.imp_right And.right⟩)
      · exact (data_appendRecord o v key value hf id).imp_right fun h => Or.inl h.2
  refine ⟨hext, fun hw id => ?_, fun hw id hid => ?_⟩
  · rcases hdata id with he | he | ⟨-, he | he⟩
    · exact he ▸ hw id
    · exact he ▸ (hw id).append hfits
    · exact he ▸ whole_nil
    · exact he ▸ whole_nil.append hfits
  · rcases hdata id with he | he | ⟨hlt, -⟩
    · rw [he]
      exact List.Subset.refl _
    · rw [he, scanFile_append (hw id) hfits]
      exact List.subset_append_left _ _
    · omega

end VLog

/-! ## Records -/

/-- The files consist of whole records, and their scans deliver the records that the log points at. -/
structure Unharmed (files : Folder Bytes) (rs : List WALRecord) : Prop where
  whole : ∀ id, VLog.Whole (files.data id)
  scanned : ∀ r ∈ rs, r.type = .deletion ∨ ∃ value, Stored files r.vlogPtr r.key value ∧
    ⟨r.key, value, .value, r.vlogPtr.offset⟩ ∈ VLog.scanFile (files.data r.vlogPtr.fileId) 0

theorem Unharmed.mono {v v' : VLog} {rs : List WALRecord} (h : Unharmed v.files rs) (ht : v.Tidy) (hv : v.Harmless v') :
    Unharmed v'.files rs := by
  refine ⟨hv.whole h.whole, fun r hr => (h.scanned r hr).imp_right fun ⟨value, hs, hsc⟩ => ⟨value, ?_, ?_⟩⟩
  · exact hs.mono ht hv.toExtends
  · exact hv.scans h.whole _ (hs.holds ht).fileId hsc

/-- One more record. -/
theorem Unharmed.add {files : Folder Bytes} {rs rs' : List WALRecord} (h : Unharmed files rs) {r : WALRecord}
    (hr : r.type = .deletion ∨ ∃ value, Stored files r.vlogPtr r.key value ∧
      ⟨r.key, value, .value, r.vlogPtr.offset⟩ ∈ VLog.scanFile (files.data r.vlogPtr.fileId) 0)
    (hrs : rs' = rs ++ [r] ∨ rs' = rs) : Unharmed files rs' := by
  rcases hrs with rfl | rfl
  · refine ⟨h.whole, fun a ha => ?_⟩
    rcases List.mem_append.mp ha with ha | ha
    · exact h.scanned a ha
    · rw [List.mem_singleton.mp ha]
      exact hr
  · exact h

namespace DB

/-- The value log and the log that points at it. -/
def Unharmed (db : DB) : Prop := SplitKV.Unharmed db.vlog.files (WAL.log db.wal.files)

variable {db : DB}

/-- The value log grows alone. -/
theorem Unharmed.vlog (h : db.Unharmed) (ht : db.vlog.Tidy) {v : VLog} (hv : db.vlog.Harmless v) :
    ({ db with vlog := v } : DB).Unharmed := SplitKV.Unharmed.mono h ht hv

/-- A record that is written behind its value, or not. -/
theorem Unharmed.addRecord (h : db.Unharmed) (ha : db.wal.Active) (hl : WAL.Logs db.wal.files) {r : WALRecord}
    (hr : r.type = .deletion ∨ ∃ value, Stored db.vlog.files r.vlogPtr r.key value ∧
      ⟨r.key, value, .value, r.vlogPtr.offset⟩ ∈ VLog.scanFile (db.vlog.files.data r.vlogPtr.fileId) 0)
    (hf : WAL.Fits r) (fw : Option Nat) :
    SplitKV.Unharmed db.vlog.files (WAL.log (db.wal.addRecord r fw).1.files) := by
  obtain ⟨-, hlog, -⟩ := ha.addRecord hl hf fw
  exact SplitKV.Unharmed.add h hr (hlog.imp_right And.right)

/-- **One entry**, wherever its records fail. -/
theorem Unharmed.writeEntry (h : db.Unharmed) (ha : db.Alive) {e : BatchEntry} (hf : e.Fits)
    (hl : db.options.vlogFileSizeLimit < 2 ^ 64) {fv : AppendFault} (hfv : fv.Clean) (fw : Option Nat)
    (hs : (db.writeEntry e fv fw).1.Small) : (db.writeEntry e fv fw).1.Unharmed ∧
      ((db.writeEntry e fv fw).2 = .ok () → (db.writeEntry e fv fw).1.vlog.Ready) := by
  have hseq : db.sequenceNumber < 2 ^ 64 := by
    have := hs.sequence
    rw [sequence_writeEntry] at this
    omega
  cases e with
  | put key value =>
    have hharm := VLog.harmless_append db.options db.vlog hf.1 hfv
    unfold DB.writeEntry at hs ⊢
    simp only at hs ⊢
    cases hv : db.vlog.append db.options key value .value fv with
    | mk v st =>
      rw [hv] at hharm
      have h₁ := h.vlog ha.logged.vlog hharm
      cases st with
      | error s => exact ⟨h₁, fun hok => (by cases hok)⟩
      | ok ptr =>
        simp only [hv] at hs ⊢
        obtain ⟨hsize, happ⟩ := ha.logged.vlog.appended (fun _ => ha.ready.offset) hv
        have hdir : ptr.fileId ∈ v.files.dir := (happ.dir _).mpr (Or.inl happ.fileId)
        have hid : ptr.fileId < 100000 := by
          refine hs.vlog _ ?_
          split <;> exact hdir
        have hst : Stored v.files ptr key value := (happ.holds hf.1 hsize).stored happ.ready.exists_
        have hscan := happ.scanned (fun id _ => h.whole id) hf.1
        have hrec := h₁.addRecord (r := ⟨.value, db.sequenceNumber, key, ptr⟩) ha.active ha.logged.logs
          (Or.inr ⟨value, hst, hscan⟩) (fits_put hv hl hseq hf.2 hid hsize) fw
        generalize db.wal.addRecord ⟨.value, db.sequenceNumber, key, ptr⟩ fw = x at hrec ⊢
        obtain ⟨wal, res⟩ := x
        cases res with
        | error s => exact ⟨hrec, fun hok => (by cases hok)⟩
        | ok u => exact ⟨hrec, fun _ => happ.ready⟩
  | delete key =>
    have hrec := h.addRecord (r := ⟨.deletion, db.sequenceNumber, key, ⟨0, 0, 0⟩⟩) ha.active ha.logged.logs (Or.inl rfl)
      ⟨Or.inr ⟨rfl, rfl⟩, hseq, hf, Nat.two_pow_pos 32, Nat.two_pow_pos 64, Nat.two_pow_pos 32⟩ fw
    unfold DB.writeEntry
    simp only
    generalize db.wal.addRecord ⟨.deletion, db.sequenceNumber, key, ⟨0, 0, 0⟩⟩ fw = x at hrec ⊢
    obtain ⟨wal, res⟩ := x
    cases res with
    | error s => exact ⟨hrec, fun hok => (by cases hok)⟩
    | ok u => exact ⟨hrec, fun _ => ha.ready⟩

/-- **The entries of a batch**, wherever their records fail. -/
theorem Unharmed.writeEntries (f : WriteFaults) (hv : ∀ i, (f.vlog i).Clean) : ∀ (batch : WriteBatch) (i : Nat) (db : DB),
    db.Unharmed → db.Alive → (∀ e ∈ batch, e.Fits ∧ Token e.key) → db.options.vlogFileSizeLimit < 2 ^ 64 →
    (DB.writeEntries f i batch db).1.Small → (DB.writeEntries f i batch db).1.Unharmed
  | [], _, _, h, _, _, _, _ => h
  | e :: batch, i, db, h, ha, hf, hl, hs => by
    have hgrow : (db.writeEntry e (f.vlog i) (f.wal i)).1.Small := hs.of_grows (grows_first f e batch i db)
    obtain ⟨hfits, htoken⟩ := hf e List.mem_cons_self
    have hentry := ha.logged.writeEntry ha.active (continues_of_ready ha.ready.offset (e :: batch)) hfits htoken hl (f.vlog i)
      (f.wal i) hgrow
    obtain ⟨hun, hready⟩ := h.writeEntry ha hfits hl (hv i) (f.wal i) hgrow
    rw [DB.writeEntries] at hs ⊢
    generalize db.writeEntry e (f.vlog i) (f.wal i) = x at hs hentry hun hready ⊢
    obtain ⟨db₁, st⟩ := x
    cases st with
    | error s => exact hun
    | ok u =>
      have hopt := hentry.options
      exact Unharmed.writeEntries f hv batch (i + 1) db₁ hun ⟨hentry.logged, hentry.active rfl, hready rfl⟩
        (fun e he => hf e (List.mem_cons_of_mem _ he)) (hopt ▸ hl) hs

/-- **A write**, wherever it fails. -/
theorem Unharmed.write (h : db.Unharmed) (ha : db.Alive) (sync : Bool) {batch : WriteBatch}
    (hf : ∀ e ∈ batch, e.Fits ∧ Token e.key) (hl : db.options.vlogFileSizeLimit < 2 ^ 64) {f : WriteFaults}
    (hv : ∀ i, (f.vlog i).Clean) (hs : (db.write sync batch f).1.Small) : (db.write sync batch f).1.Unharmed := by
  have hentries := Unharmed.writeEntries f hv batch 0 db h ha hf hl
  have hlogged := Logged.writeEntries f batch 0 db ha.logged ha.active (continues_of_ready ha.ready.offset batch)
    (fun e he => (hf e he).1) (fun e he => (hf e he).2) hl
  rw [DB.write] at hs ⊢
  generalize DB.writeEntries f 0 batch db = x at hentries hlogged hs ⊢
  obtain ⟨db₁, st⟩ := x
  cases st with
  | error s => exact hentries hs
  | ok u =>
    have hs₁ := hs.of_grows (grows_endWrite db₁ sync f.create)
    have hl₁ := (hlogged hs₁).1
    -- the syncs and the new WAL change nothing that is read
    have hsync : (if sync then db₁.syncLogs else db₁).Unharmed ∧ (if sync then db₁.syncLogs else db₁).Logged := by
      split
      · refine ⟨?_, hl₁.syncLogs.1⟩
        have hmono := SplitKV.Unharmed.mono (hentries hs₁) hl₁.vlog (VLog.harmless_sync db₁.vlog)
        rw [DB.Unharmed, hl₁.syncLogs.2]
        exact hmono
      · exact ⟨hentries hs₁, hl₁⟩
    show ((if sync then db₁.syncLogs else db₁).maybeScheduleFlush f.create).1.Unharmed
    generalize (if sync then db₁.syncLogs else db₁) = db₂ at hsync ⊢
    have hsame := hsync.2.sameLog_maybeScheduleFlush f.create
    rw [DB.Unharmed, hsame.disk.1, hsame.log]
    exact hsync.1

/-- A step of the index. -/
theorem Unharmed.sameLogs {db' : DB} (h : db.Unharmed) (hs : db.SameLogs db') : db'.Unharmed := by
  rw [DB.Unharmed, hs.vlog, hs.wal]
  exact h

/-! ## Collections -/

variable {m : Contents}

/-- A step that keeps the bytes of the value log and what records point at, though their files may be gone. -/
theorem Unharmed.of_holds {db' : DB} (h : db.Unharmed) (ht : db.vlog.Tidy)
    (hh : ∀ ptr key value, db.vlog.Holds ptr key value → db'.vlog.Holds ptr key value)
    (hcur : db'.vlog.currentFileId ∈ db'.vlog.files.dir) (hdata : db'.vlog.files.data = db.vlog.files.data)
    (hlog : WAL.log db'.wal.files = WAL.log db.wal.files) : db'.Unharmed := by
  rw [DB.Unharmed, hlog]
  refine ⟨fun id => ?_, fun r hr => (h.scanned r hr).imp_right fun ⟨value, hs, hsc⟩ => ⟨value, ?_, ?_⟩⟩
  · rw [hdata]
    exact h.whole id
  · exact (hh _ _ _ (hs.holds ht)).stored hcur
  · rw [hdata]
    exact hsc

/-- The log behind a swap. -/
theorem InService.log_gcSwap (h : db.InService m) {seg : Nat} {r : LiveRecord} {newPtr : VLogPointer} {value : Bytes}
    (hn : db.vlog.Holds newPtr r.key value) (hd : newPtr.fileId ∈ db.vlog.files.dir) (hl : newPtr.offset < 2 ^ 64)
    (fw : Option Nat) (hs : (db.gcSwap noFails fw seg r newPtr).Small) :
    WAL.log (db.gcSwap noFails fw seg r newPtr).wal.files =
        WAL.log db.wal.files ++ [⟨.value, db.sequenceNumber, r.key, newPtr⟩] ∨
      WAL.log (db.gcSwap noFails fw seg r newPtr).wal.files = WAL.log db.wal.files := by
  by_cases hp : db.pointsTo noFails seg r.key r.offset = true
  · obtain ⟨e, he, -⟩ := h.alive.inv.pointsTo_iff.mp hp
    obtain ⟨-, hlog, -⟩ := h.alive.active.addRecord h.alive.logged.logs (h.fits_swap he hp hn hd hl hs) fw
    have hlog := hlog.imp_right And.right
    rw [DB.gcSwap, if_pos hp]
    simp only
    generalize db.wal.addRecord ⟨.value, db.sequenceNumber, r.key, newPtr⟩ fw = y at hlog ⊢
    obtain ⟨wal, res⟩ := y
    cases res with
    | error s => exact hlog
    | ok u => exact hlog
  · rw [DB.gcSwap, if_neg hp]
    exact Or.inr rfl

/-- **The swap** of a key to a copy that the scan of its file delivers, wherever its record fails. -/
theorem Unharmed.gcSwap (h : db.Unharmed) (hi : db.InService m) {seg : Nat} {r : LiveRecord} {newPtr : VLogPointer}
    {value : Bytes} (hn : db.vlog.Holds newPtr r.key value) (hsc : db.vlog.Scanned newPtr r.key value)
    (hd : newPtr.fileId ∈ db.vlog.files.dir) (hl : newPtr.offset < 2 ^ 64) (fw : Option Nat)
    (hs : (db.gcSwap noFails fw seg r newPtr).Small) : (db.gcSwap noFails fw seg r newPtr).Unharmed := by
  rw [DB.Unharmed, (gcSwap_spec hi.alive.inv noFails fw seg r hn).vlog]
  exact SplitKV.Unharmed.add (r := ⟨.value, db.sequenceNumber, r.key, newPtr⟩) h
    (Or.inr ⟨value, hn.stored hi.alive.ready.exists_, hsc⟩) (hi.log_gcSwap hn hd hl fw hs)

/-- **One live record**, wherever its copy fails. -/
theorem Unharmed.gcRecord (h : db.Unharmed) (hi : db.InService m) {seg : Nat} {r : LiveRecord}
    (hr : LiveIn db.vlog seg [r]) (hl : db.options.vlogFileSizeLimit < 2 ^ 64) {f : GcFaults} {i : Nat}
    (hf : (f.append i).Clean) (hcas : f.cas i = noFails) (hs : (DB.gcRewrite f seg i [r] db).1.Small) :
    (DB.gcRewrite f seg i [r] db).1.Unharmed := by
  obtain ⟨hsize, ptr, value, hid, ho, hh⟩ := hr r List.mem_cons_self
  have hopen := VLog.sameFiles_openReader db.vlog seg
  have hext₀ := VLog.extends_openReader db.vlog seg
  have htidy₀ := hopen.tidy hi.alive.logged.vlog
  have h₀ := h.vlog hi.alive.logged.vlog (VLog.harmless_openReader db.vlog seg)
  rw [DB.gcRewrite, show db.gcRead (f.read i) seg r =
    ({ db with vlog := db.vlog.openReader seg }, gcValue (f.read i) seg r db.vlog) from rfl] at hs ⊢
  cases hv : gcValue (f.read i) seg r db.vlog with
  | error s => exact h₀
  | ok x =>
    simp only [hv, gcAppend] at hs ⊢
    have hext := VLog.extends_append db.options (db.vlog.openReader seg) r.key x .value (f.append i)
    have htidy := htidy₀.append db.options r.key x .value (f.append i)
    have hx : x = value := by
      obtain ⟨k, hread⟩ := gcValue_ok hv
      obtain ⟨-, hkv⟩ := hh.read_eq hsize (by rw [hid, ho]; exact hread)
      exact congrArg Prod.snd hkv
    have hharm := VLog.harmless_append db.options (db.vlog.openReader seg) (hx ▸ hh.fits) hf
    cases ha : (db.vlog.openReader seg).append db.options r.key x .value (f.append i) with
    | mk v st =>
      rw [ha] at hext htidy hharm
      simp only [ha] at hs ⊢
      have h₁ := h.vlog hi.alive.logged.vlog ((VLog.harmless_openReader db.vlog seg).trans hharm)
      cases st with
      | error s => exact h₁
      | ok newPtr =>
        obtain ⟨rfl, happ, hnew⟩ := gcAppend_spec hi.alive.inv hid ho hh hsize hv ha
        have hi₁ := (hi.copied_vlog (hext₀.trans hext) htidy True fun _ => happ.ready).inService trivial
        have hdir : newPtr.fileId ∈ v.files.dir := (happ.dir _).mpr (Or.inl happ.fileId)
        have hscan := happ.scanned (fun id _ => by rw [hopen.data]; exact h.whole id) hh.fits
        simp only [DB.gcRewrite, hcas] at hs ⊢
        exact h₁.gcSwap hi₁ hnew hscan hdir ((VLog.append_offset_le ha).trans_lt hl) (f.wal i) hs

/-- All live records. -/
theorem Unharmed.gcRewrite {seg : Nat} : ∀ (rs : List LiveRecord) (i : Nat) (db : DB), db.Unharmed → db.InService m →
    LiveIn db.vlog seg rs → db.options.vlogFileSizeLimit < 2 ^ 64 → (DB.gcRewrite .none seg i rs db).1.Small →
    (DB.gcRewrite .none seg i rs db).1.Unharmed
  | [], _, _, h, _, _, _, _ => h
  | r :: rs, i, db, h, hi, hr, hl, hs => by
    have hone : LiveIn db.vlog seg [r] := fun x hx => List.mem_singleton.mp hx ▸ hr r List.mem_cons_self
    have hs₁ := hs.of_grows (grows_gcRewrite_cons .none seg i r rs db)
    have h₁ := h.gcRecord hi hone hl (f := .none) (i := i) trivial rfl hs₁
    obtain ⟨hc, hok⟩ := hi.gcRecord hone hl (f := .none) (i := i) rfl hs₁
    have hok := hok rfl
    rw [gcRewrite_cons .none seg i r rs db] at hs ⊢
    generalize DB.gcRewrite .none seg i [r] db = x at h₁ hc hok hs ⊢
    obtain ⟨db₁, st⟩ := x
    cases hok
    exact Unharmed.gcRewrite rs (i + 1) db₁ h₁ (hc.inService ⟨rfl, rfl⟩) (hr.mono hc.extends_) (hc.options ▸ hl) hs

/-- **A collection**, wherever it is interrupted. -/
theorem Unharmed.gcStopped (h : db.Unharmed) (hi : db.InService m) (hl : db.options.vlogFileSizeLimit < 2 ^ 64) {n : Nat}
    {fv : AppendFault} (hf : fv.Clean) {fw : Option Nat} (hs : (db.gcStopped n fv fw).Small) :
    (db.gcStopped n fv fw).Unharmed := by
  unfold DB.gcStopped at hs ⊢
  cases hc : db.gcChoose with
  | none => exact h
  | some seg =>
    simp only [hc] at hs ⊢
    by_cases hdec : db.gcDecide (db.gcScanned .none seg) = true
    · rw [if_pos hdec] at hs ⊢
      have hlive := hi.liveIn seg
      generalize (db.gcScanned .none seg).liveRecords = live at hlive hs ⊢
      have hfirst : LiveIn db.vlog seg (live.take n) := fun r hr => hlive r (List.mem_of_mem_take hr)
      obtain ⟨hd, hseg⟩ := gcChoose_spec hc
      have hok := hi.alive.inv.gcRewrite_ok hd hseg hfirst
      have hrun := InService.gcRewrite (live.take n) 0 db hi hfirst hl
      have hrun' := Unharmed.gcRewrite (live.take n) 0 db h hi hfirst hl
      generalize DB.gcRewrite .none seg 0 (live.take n) db = x at hok hrun hrun' hs ⊢
      obtain ⟨db₁, st⟩ := x
      cases hok
      simp only at hs hrun hrun' ⊢
      have hs₁ := hs.of_grows (grows_gcRewrite _ seg live[n]?.toList n db₁)
      obtain ⟨hc₁, -⟩ := hrun hs₁
      cases hn : live[n]? with
      | none => exact hrun' hs₁
      | some r =>
        rw [hn] at hs
        have hone : LiveIn db₁.vlog seg [r] := by
          intro x hx
          obtain ⟨h₁, p, y, h₂, h₃, h₄⟩ := hlive r (List.mem_of_getElem? hn)
          exact List.mem_singleton.mp hx ▸ ⟨h₁, p, y, h₂, h₃, h₄.mono hc₁.extends_⟩
        exact (hrun' hs₁).gcRecord (hc₁.inService trivial) hone (hc₁.options ▸ hl) hf rfl hs
    · rw [if_neg hdec]
      exact h

/-- The end of a collection. -/
theorem Unharmed.gcFinish (h : db.Unharmed) (hi : db.InService m) {seg : Nat} (hseg : seg < db.vlog.currentFileId) :
    (db.gcFinish .none seg).Unharmed := by
  have hf := finished_gcFinish db .none seg
  have hready := (hi.alive.inv.gcFinish .none hseg).vlog.ready
  exact h.of_holds hi.alive.logged.vlog (fun _ _ _ => hf.holds) hready.exists_ hf.data (log_gcFinish db .none seg).2.2.1

/-- **A collection** without faults. -/
theorem Unharmed.runGC (h : db.Unharmed) (hi : db.InService m) (hl : db.options.vlogFileSizeLimit < 2 ^ 64)
    (hs : (db.runGC .none).1.Small) : (db.runGC .none).1.Unharmed := by
  unfold DB.runGC at hs ⊢
  cases hc : db.gcChoose with
  | none => exact h
  | some seg =>
    obtain ⟨hd, hseg⟩ := gcChoose_spec hc
    simp only [hc] at hs ⊢
    cases hdec : db.gcDecide (db.gcScanned .none seg) with
    | false =>
      rw [gcSegment_undecided hd hdec]
      exact h
    | true =>
      obtain ⟨he, hs₁, hcur⟩ := hi.gcSegment_eq hd hseg hdec hs
      rw [he]
      obtain ⟨hc₁, -⟩ := InService.gcRewrite _ 0 db hi (hi.liveIn seg) hl hs₁
      exact (Unharmed.gcRewrite _ 0 db h hi (hi.liveIn seg) hl hs₁).gcFinish (hc₁.inService trivial) hcur

/-- **The scan of every segment** delivers what is visible in it. -/
theorem Unharmed.collectable (h : db.Unharmed) (hi : db.InService m) : db.Collectable := by
  intro seg _ _ key e he hse
  obtain ⟨r, hr, rfl⟩ := hi.mirrors.lastRecord he
  obtain ⟨hmem, rfl⟩ := WAL.mem_of_lastRecord hr
  rcases h.scanned r hmem with hd | ⟨value, hst, hsc⟩
  · exact absurd hd (visible_eq_some.mp he).2
  · have hh := hst.holds hi.alive.logged.vlog
    have hf := hh.fits
    unfold VLog.Fits at hf
    rw [show r.vlogPtr.fileId = seg from hse] at hsc
    refine ⟨_, hsc, rfl, rfl, rfl, ?_⟩
    show value.length % 2 ^ 32 = r.vlogPtr.valueSize
    rw [hh.valueSize, Nat.mod_eq_of_lt (by omega)]

end DB

/-! ## Openings -/

theorem Unharmed.openLog {files : Folder Bytes} {rs : List WALRecord} (h : Unharmed files rs)
    (hids : ∀ id ∈ files.dir, 1 ≤ id ∧ id < 100000) : Unharmed (VLog.openLog files).files rs := by
  by_cases hdir : files.dir = []
  · refine ⟨fun id => ?_, fun r hr => (h.scanned r hr).imp_right fun ⟨value, ⟨i, hi, _⟩, _⟩ => ?_⟩
    · unfold VLog.openLog
      simp only
      split
      · exact h.whole id
      · by_cases hid : id = VLog.recoverFileIds files
        · rw [hid, Folder.data_create_self]
          exact VLog.whole_nil
        · rw [Folder.data_create_of_ne _ hid]
          exact h.whole id
    · rw [hdir] at hi
      cases hi
  · rw [(VLog.openLog_spec hids).2.2.1 hdir]
    exact h

/-- **An opening**, wherever it fails. -/
theorem unharmed_openDB {o : Options} {d : Disk} (hd : d.Recoverable o) (h : Unharmed d.vlog (WAL.log d.wal))
    (f : OpenFaults) : (DB.openDB o d f).1.Unharmed := by
  obtain ⟨-, hlog, -⟩ := DB.openDB_wal hd.logs hd.walIds o f
  obtain ⟨-, -, hv, -⟩ := @DB.openDB_traced (fun _ _ => True) d (fun _ _ _ _ _ _ => trivial)
    (fun id hid => (hd.logs.torn id hid).imp fun _ ht => ⟨ht, fun _ _ => trivial⟩) o f
  rw [DB.Unharmed, hlog]
  rcases hv with hv | hv
  · rw [hv]
    exact h
  · rw [hv]
    exact h.openLog hd.vlogIds

/-! ## Lifetimes -/

namespace Happening

/-- A crash that leaves no part of a record in the value log. -/
def Clean : Happening → Prop
  | event (.crash (.write _ _ f)) => ∀ i, (f.vlog i).Clean
  | crashGC _ vlog _ => vlog.Clean
  | _ => True

end Happening

namespace Machine

/-- The files of a machine are unharmed. -/
def Unharmed : Machine → Prop
  | .off d => SplitKV.Unharmed d.vlog (WAL.log d.wal)
  | .on db => db.Unharmed

variable {o : Options} {db : DB} {m : Contents}

/-- **An event.** -/
theorem Unharmed.event {mach : Machine} {ev : Event} (hu : o.Usable) (hw : ev.Writes) (hf : ev.Faultless)
    (hc : (Happening.event ev).Clean) (hl : mach.Lives o m) (h : mach.Unharmed) (hb : mach.Bounded o ev) :
    (mach.next o ev).Unharmed := by
  cases mach with
  | off d =>
    cases ev with
    | crashOpening f => exact unharmed_openDB hl.1 h f
    | reopen =>
      have hok := (DB.openDB_spec hl.1 hu.levels .none hb).2 rfl
      rw [next_reopen hok]
      exact unharmed_openDB hl.1 h .none
    | write _ _ _ _ | flush | compactLevel _ | crash _ => exact h
  | on db =>
    obtain ⟨rfl, hi⟩ := hl
    cases ev with
    | write sync batch vlog wal =>
      obtain ⟨rfl, rfl⟩ := hf
      exact DB.Unharmed.write h hi.alive sync hw hu.limit (fun _ => trivial) hb
    | flush => exact DB.Unharmed.sameLogs h (hi.alive.logged.flushFront_files {}).1
    | compactLevel lvl => exact DB.Unharmed.sameLogs h (DB.onlyIndex_compact db lvl .none).sameLogs
    | crash during =>
      cases during with
      | nothing => exact h
      | write sync batch f => exact DB.Unharmed.write h hi.alive sync hw hu.limit hc hb
      | flush f => exact DB.Unharmed.sameLogs h (hi.alive.logged.flushFront_files f).1
      | compactLevel lvl f => exact DB.Unharmed.sameLogs h (DB.onlyIndex_compact db lvl f).sameLogs
    | crashOpening _ | reopen => exact h

theorem Unharmed.collects {mach : Machine} (h : mach.Unharmed) (hl : mach.Lives o m) (x : Happening) : mach.Collects x := by
  cases mach with
  | off d => cases x <;> trivial
  | on db =>
    cases x with
    | runGC => exact DB.Unharmed.collectable h hl.2
    | event _ | get _ | crashGC _ _ _ | close | crashClosing _ _ => trivial

/-- **A happening.** -/
theorem Unharmed.live {mach : Machine} {x : Happening} (hu : o.Usable) (hw : x.Writes) (hc : x.Clean)
    (hl : mach.Lives o m) (h : mach.Unharmed) (hb : mach.LiveBounded o x) : (mach.live o x).Unharmed := by
  cases mach with
  | off d =>
    cases x with
    | event ev => exact Unharmed.event hu hw.1 hw.2 hc hl h hb
    | get _ | runGC | crashGC _ _ _ | close | crashClosing _ _ => exact h
  | on db =>
    cases x with
    | event ev => exact Unharmed.event hu hw.1 hw.2 hc hl h hb
    | get key =>
      obtain ⟨rfl, hi⟩ := hl
      show (db.afterGet key).Unharmed
      unfold DB.afterGet DB.openFound
      split
      · split
        · exact h
        · exact DB.Unharmed.vlog h hi.alive.logged.vlog (VLog.harmless_openReader _ _)
      · exact h
    | runGC =>
      obtain ⟨rfl, hi⟩ := hl
      exact DB.Unharmed.runGC h hi hu.limit hb
    | crashGC n vlog wal =>
      obtain ⟨rfl, hi⟩ := hl
      exact DB.Unharmed.gcStopped h hi hu.limit hc hb
    | close =>
      obtain ⟨rfl, hi⟩ := hl
      exact DB.Unharmed.sameLogs h (DB.drained_destroy hi.alive.logged.wf).onlyIndex.sameLogs
    | crashClosing k f =>
      obtain ⟨rfl, hi⟩ := hl
      exact DB.Unharmed.sameLogs h (DB.onlyIndex_destroyStopped hi.alive.logged.wf k f).sameLogs

/-- Unharmed machines keep what they stand for: their collections find what is visible. -/
theorem Unharmed.keeps (hu : o.Usable) : Ledger.Keeps (Machine.live o) LiveLeaves WriteBatch.apply
    (fun mach m => mach.Lives o m ∧ mach.Unharmed) (fun mach x => (x.Writes ∧ x.Clean) ∧ mach.LiveBounded o x) := by
  rintro mach x m ⟨hl, h⟩ ⟨⟨hw, hc⟩, hb⟩
  obtain ⟨es, hes, hl'⟩ := Lives.keeps hu mach x m hl ⟨hw, hb, h.collects hl x⟩
  exact ⟨es, hes, hl', h.live hu hw hc hl hb⟩

end Machine

end SplitKV
