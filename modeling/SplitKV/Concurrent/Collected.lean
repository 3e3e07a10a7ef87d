import SplitKV.Concurrent.CollectSteps

/-!
# Collections keep what is visible

The versions that point into the segment of a collection are among the records it has still to visit
(`Collecting.Inv.among`), so that none is left when it removes the file. A copy that was appended but not swapped in yet
lies in a file that no collection can choose before the segment of the copy's own collection is gone
(`GcSys.Inv.copies`): a collection takes the oldest file of its listing.
-/

namespace SplitKV

open Assoc

/-- A scanned record as a record to rewrite. -/
def ScanRecord.live (s : ScanRecord) : LiveRecord := ⟨s.key, s.offset, s.value.length % 2 ^ 32⟩

/-- The records of a scan that hold values. -/
def scannedValues (rest : List ScanRecord) : List LiveRecord :=
  (rest.filter (fun s => decide (s.type = .value))).map ScanRecord.live

theorem mem_scannedValues {rest : List ScanRecord} {r : LiveRecord} :
    r ∈ scannedValues rest ↔ ∃ s ∈ rest, s.type = .value ∧ s.live = r := by
  simp only [scannedValues, List.mem_map, List.mem_filter, decide_eq_true_eq, and_assoc]

namespace Collecting

/-- The records a collection has still to visit, from its scan on. -/
def left : Collecting → Option (List LiveRecord)
  | .chosen => none
  | .scanning rest acc => some (acc.liveRecords ++ scannedValues rest)
  | .rewriting rest => some rest
  | .read r _ rest => some (r :: rest)
  | .appended r _ rest => some (r :: rest)
  | .synced => some []
  | .unread => some []

/-- The records it has found live, and not rewritten. -/
def found : Collecting → List LiveRecord
  | .scanning _ acc => acc.liveRecords
  | .rewriting rest => rest
  | .read _ _ rest => rest
  | .appended _ _ rest => rest
  | _ => []

end Collecting

namespace DB

/-- The versions in the segment are among the records. -/
def Among (db : DB) (seg : Nat) (rs : List LiveRecord) : Prop :=
  ∀ key e, db.visible key = some e → e.vlogPtr.fileId = seg → ⟨key, e.vlogPtr.offset, e.vlogPtr.valueSize⟩ ∈ rs

/-- The record in the segment holds the value. -/
def Found (db : DB) (seg : Nat) (r : LiveRecord) (value : Bytes) : Prop :=
  ∃ ptr, ptr.fileId = seg ∧ ptr.offset = r.offset ∧ db.vlog.Holds ptr r.key value

end DB

/-- What it carries from one section to the next: the value it read, or a copy of the record in a newer file. -/
def Collecting.Carries (db : DB) (seg : Nat) : Collecting → Prop
  | .read r value _ => db.Found seg r value
  | .appended r newPtr _ => seg < newPtr.fileId ∧ ∃ value, db.Found seg r value ∧ db.vlog.Holds newPtr r.key value ∧
      db.vlog.Scanned newPtr r.key value
  | _ => True

/-- What a collection of a segment relies on. -/
structure Collecting.Inv (db : DB) (seg : Nat) (p : Collecting) : Prop where
  among : ∀ rs, p.left = some rs → db.Among seg rs
  found : DB.LiveIn db.vlog seg p.found
  carries : p.Carries db seg

/-- The next section starts from a copy only if the copy's file is on disk and not older than the current one was. -/
def Collecting.Placed (v v' : VLog) : Option Collecting → Prop
  | some (.appended _ newPtr _) => newPtr.fileId ∈ v'.files.dir ∧ v.currentFileId ≤ newPtr.fileId
  | _ => True

section Passes

variable {db db' : DB} {seg : Nat}

theorem DB.Found.passes {r : LiveRecord} {value : Bytes} (h : db.Found seg r value) (hp : db.vlog.Passes db'.vlog) :
    db'.Found seg r value := by
  obtain ⟨ptr, hid, ho, hh⟩ := h
  exact ⟨ptr, hid, ho, hp.holds _ _ _ hh⟩

theorem DB.LiveIn.passes {v v' : VLog} {rs : List LiveRecord} (h : DB.LiveIn v seg rs) (hp : v.Passes v') :
    DB.LiveIn v' seg rs := by
  intro r hr
  obtain ⟨hs, ptr, value, hid, ho, hh⟩ := h r hr
  exact ⟨hs, ptr, value, hid, ho, hp.holds _ _ _ hh⟩

/-- **Steps of other threads**, and of other collections, keep what a collection relies on. -/
theorem Collecting.Inv.passes {p : Collecting} (h : p.Inv db seg) (hw : db.vlog.AllWhole)
    (hp : db.vlog.Passes db'.vlog)
    (hvis : ∀ key e, db'.visible key = some e → e.vlogPtr.fileId = seg → db.visible key = some e) : p.Inv db' seg where
  among := fun rs hrs key e he hs => h.among rs hrs key e (hvis key e he hs) hs
  found := h.found.passes hp
  carries := by
    have hc := h.carries
    cases p with
    | read r value rest => exact DB.Found.passes hc hp
    | appended r newPtr rest =>
      obtain ⟨hlt, value, hf, hh, hs⟩ := hc
      exact ⟨hlt, value, hf.passes hp, hp.holds _ _ _ hh, hp.scanned _ _ _ hw hh hs⟩
    | _ => trivial

end Passes

/-! ## The sections of a collection -/

/-- What the next section of a collection does. -/
structure Collects (db : DB) (m : Contents) (seg : Nat) (p : Collecting) (db' : DB) (p' : Option Collecting) : Prop where
  reliable : db'.Reliable m
  logs : DB.LogSteps db db'
  queue : db'.immutableMemtables = db.immutableMemtables
  vlog : db.vlog.Passes db'.vlog
  visible : ∀ key e, db'.visible key = some e → db.visible key = some e ∨
    seg ∈ db.vlog.files.dir ∧ ∃ r newPtr rest, p = .appended r newPtr rest ∧ e.vlogPtr = newPtr
  dir : ∀ id ∈ db.vlog.files.dir, id ∈ db'.vlog.files.dir ∨ p = .unread ∧ id = seg
  next : ∀ q, p' = some q → q.Inv db' seg
  placed : Collecting.Placed db.vlog db'.vlog p'

namespace DB

variable {db db' : DB} {m : Contents} {seg : Nat}

/-- A section that only looks at the database. -/
theorem Reliable.looks (h : db.Reliable m) {p : Collecting} {p' : Option Collecting}
    (hn : ∀ q, p' = some q → q.Inv db seg) (hc : Collecting.Placed db.vlog db.vlog p') : Collects db m seg p db p' where
  reliable := h
  logs := .refl
  queue := rfl
  vlog := VLog.Passes.refl db.vlog
  visible := fun _ _ he => Or.inl he
  dir := fun _ hid => Or.inl hid
  next := hn
  placed := hc

/-- Other caches, and synced logs. -/
theorem Reliable.sameFiles (h : db.Reliable m) {v : VLog} {wal : WAL} (hv : VLog.SameFiles db.vlog v)
    (hw : wal.writer = .opened) : { db with vlog := v, wal := wal }.Reliable m := by
  have hl : { db with vlog := v, wal := wal }.Live := fun key e he => hv.dir.symm ▸ h.live key e he
  have hin := h.intact.sameFiles hv
  exact ⟨(h.inv.sameFiles hv).setWal hw, ⟨hin.whole, hin.scanned⟩, hl, h.refines.passes hv.passes (fun _ => rfl) hl⟩

/-- A section that changes caches, or syncs. -/
theorem Reliable.caches (h : db.Reliable m) {v : VLog} {wal : WAL} (hv : VLog.SameFiles db.vlog v)
    (hw : wal.writer = .opened) {p : Collecting} {p' : Option Collecting} (hn : ∀ q, p' = some q → q.Inv db seg)
    (hc : Collecting.Placed db.vlog v p') : Collects db m seg p { db with vlog := v, wal := wal } p' where
  reliable := h.sameFiles hv hw
  logs := LogSteps.refl.logs v wal db.walId db.sequenceNumber (Nat.le_refl _)
  queue := rfl
  vlog := hv.passes
  visible := fun _ _ he => Or.inl he
  dir := fun _ hid => Or.inl (hv.dir.symm ▸ hid)
  next := fun q hq => (hn q hq).passes h.intact.whole hv.passes fun _ _ he _ => he
  placed := hc

/-- The start of the scan. -/
theorem Reliable.scan (h : db.Reliable m) (seg : Nat) :
    (Collecting.scanning (VLog.scanFile (db.vlog.files.data seg) 0) {}).Inv db seg := by
  refine ⟨fun rs hrs key e he hs => ?_, fun r hr => ?_, trivial⟩
  · cases hrs
    obtain ⟨s, hsm, ht, hk, ho, hz⟩ := h.intact.delivers seg key e he hs
    refine List.mem_append_right _ (mem_scannedValues.mpr ⟨s, hsm, ht, ?_⟩)
    rw [ScanRecord.live, hk, ho, hz]
  · cases hr

/-- The check of a scanned record. -/
theorem Reliable.callback (h : db.Reliable m) {r : ScanRecord} {rest : List ScanRecord} {acc : GcScan}
    (hp : (Collecting.scanning (r :: rest) acc).Inv db seg) :
    (Collecting.scanning rest (db.gcCallback noFails seg acc r)).Inv db seg := by
  refine ⟨fun rs hrs key e he hs => ?_, fun lr hlr => ?_, trivial⟩
  · cases hrs
    rcases List.mem_append.mp (hp.among _ rfl key e he hs) with hm | hm
    · exact List.mem_append_left _ (mem_gcCallback.mpr (Or.inl hm))
    · obtain ⟨s, hsm, ht, hl⟩ := mem_scannedValues.mp hm
      rcases List.mem_cons.mp hsm with rfl | hsm
      · -- the record that is checked: the version still points at it
        have hkey : s.key = key := congrArg LiveRecord.key hl
        have hoff : s.offset = e.vlogPtr.offset := congrArg LiveRecord.offset hl
        have hpt : db.pointsTo noFails seg s.key s.offset = true :=
          h.inv.pointsTo_iff.mpr ⟨e, hkey ▸ he, hs, hoff.symm⟩
        exact List.mem_append_left _ (mem_gcCallback.mpr (Or.inr ⟨ht, hpt, hl.symm⟩))
      · exact List.mem_append_right _ (mem_scannedValues.mpr ⟨s, hsm, ht, hl⟩)
  · rcases mem_gcCallback.mp hlr with hm | ⟨-, hpt, hl⟩
    · exact hp.found lr hm
    · obtain ⟨e, he, hid, ho⟩ := h.inv.pointsTo_iff.mp hpt
      obtain ⟨-, value, hh⟩ := h.inv.visible_holds he
      rw [hl]
      exact ⟨Nat.mod_lt _ (by omega), e.vlogPtr, value, hid, ho, hh⟩

/-- A version that points at a record of the segment has the value that is found there. -/
theorem Reliable.found (h : db.Reliable m) {r : LiveRecord} {value : Bytes} (hf : db.Found seg r value)
    (hp : db.pointsTo noFails seg r.key r.offset = true) :
    ∃ e, db.visible r.key = some e ∧ e.vlogPtr.fileId = seg ∧ e.vlogPtr.offset = r.offset ∧ m r.key = some value := by
  obtain ⟨e, he, hid, ho⟩ := h.inv.pointsTo_iff.mp hp
  obtain ⟨ptr, hid', ho', hh⟩ := hf
  refine ⟨e, he, hid, ho, ?_⟩
  have hs := h.refines r.key
  cases hm : m r.key with
  | none =>
    rw [hm] at hs
    have hnone : db.visible r.key = none := hs
    rw [hnone] at he
    cases he
  | some x =>
    rw [hm] at hs
    obtain ⟨e', he', hh', -⟩ := hs
    cases he.symm.trans he'
    rw [(hh.unique hh' (hid.trans hid'.symm) (ho.trans ho'.symm)).2.2]

/-- The read of a live record. -/
theorem Reliable.read (h : db.Reliable m) {r : LiveRecord} {rest : List LiveRecord}
    (hp : (Collecting.rewriting (r :: rest)).Inv db seg) :
    (∀ s, gcValue false seg r db.vlog = .error s → (Collecting.rewriting rest).Inv db seg) ∧
    ∀ x, gcValue false seg r db.vlog = .ok x → (Collecting.read r x rest).Inv db seg := by
  obtain ⟨hsize, ptr, value, hid, ho, hh⟩ := hp.found r List.mem_cons_self
  have hrest : LiveIn db.vlog seg rest := fun lr hlr => hp.found lr (List.mem_cons_of_mem _ hlr)
  refine ⟨fun s hs => ⟨fun rs hrs key e he hse => ?_, hrest, trivial⟩, fun x hx => ⟨hp.among, hrest, ?_⟩⟩
  · cases hrs
    rcases List.mem_cons.mp (hp.among _ rfl key e he hse) with hl | hm
    · -- a version that points at the record can be read
      exfalso
      obtain ⟨-, v, hv⟩ := h.inv.visible_holds he
      have hptr : e.vlogPtr = ⟨seg, r.offset, r.valSize⟩ := by
        rw [← hl, ← hse]
      have hread := hv.read (VLog.canOpen_of_mem (h.live key e he))
      rw [hptr] at hread
      simp only [gcValue, Bool.false_eq_true, if_false, hread, reduceCtorEq] at hs
    · exact hm
  · obtain ⟨k, hread⟩ := gcValue_ok hx
    obtain ⟨-, hkv⟩ := hh.read_eq hsize (by rw [hid, ho]; exact hread)
    cases hkv
    exact ⟨ptr, hid, ho, hh⟩

/-- The append of a copy. -/
theorem Reliable.append (h : db.Reliable m) (hseg : seg < db.vlog.currentFileId) {r : LiveRecord} {value : Bytes}
    {rest : List LiveRecord} (hp : (Collecting.read r value rest).Inv db seg) : ∃ v newPtr,
    db.gcAppend .none r value = ({ db with vlog := v }, .ok newPtr) ∧
      Collects db m seg (.read r value rest) { db with vlog := v } (some (.appended r newPtr rest)) := by
  obtain ⟨ptr, hid, ho, hh⟩ := hp.carries
  obtain ⟨v, newPtr, hv, hsize, ha⟩ := VLog.appended_append db.options h.inv.vlog.ready r.key value .value
  have hpass := ha.passes h.inv.vlog.ready hh.fits
  have hle : db.vlog.currentFileId ≤ newPtr.fileId := ha.fileId ▸ ha.current_le
  have hl : { db with vlog := v }.Live := fun key e he => (ha.dir _).mpr (Or.inr (h.live key e he))
  refine ⟨v, newPtr, ?_, ⟨⟨h.inv.append ha, h.intact.append hh.fits ha, hl, h.refines.passes hpass (fun _ => rfl) hl⟩,
    LogSteps.refl.logs v db.wal db.walId db.sequenceNumber (Nat.le_refl _), rfl, hpass, fun _ _ he => Or.inl he,
    fun id hid => Or.inl ((ha.dir id).mpr (Or.inr hid)), fun q hq => ?_, ?_⟩⟩
  · rw [gcAppend, hv]
  · cases hq
    refine ⟨hp.among, hp.found.passes hpass, ?_⟩
    have hf : db.Found seg r value := ⟨ptr, hid, ho, hh⟩
    exact ⟨hseg.trans_le hle, value, hf.passes hpass, ha.holds hh.fits hsize, ha.scanned h.intact.whole hh.fits⟩
  · exact ⟨(ha.dir _).mpr (Or.inl ha.fileId), hle⟩

theorem immutableMemtables_gcSwap (db : DB) (fails : Nat → Option Status) (fw : Option Nat) (seg : Nat) (r : LiveRecord)
    (newPtr : VLogPointer) : (db.gcSwap fails fw seg r newPtr).immutableMemtables = db.immutableMemtables := by
  unfold gcSwap
  split
  · simp only
    split <;> rfl
  · rfl

/-- **The swap** of a copy whose file is on disk. -/
theorem Reliable.swap (h : db.Reliable m) {r : LiveRecord} {newPtr : VLogPointer} {rest : List LiveRecord}
    (hp : (Collecting.appended r newPtr rest).Inv db seg)
    (hfile : seg ∈ db.vlog.files.dir → newPtr.fileId ∈ db.vlog.files.dir) :
    Collects db m seg (.appended r newPtr rest) (db.gcSwap noFails none seg r newPtr) (some (.rewriting rest)) := by
  obtain ⟨hlt, value, hf, hh, hsc⟩ := hp.carries
  have hs := gcSwap_spec h.inv noFails none seg r hh
  have hlogs := gcSwap_logSteps db noFails none seg r newPtr
  have hqueue := immutableMemtables_gcSwap db noFails none seg r newPtr
  generalize db.gcSwap noFails none seg r newPtr = db' at hs hlogs hqueue ⊢
  have hpass : db.vlog.Passes db'.vlog := hs.vlog ▸ VLog.Passes.refl db.vlog
  -- a version that is visible now was visible before, or it is the copy
  have hvis : ∀ key e, db'.visible key = some e →
      (db.visible key = some e ∧ (key = r.key → ¬db.pointsTo noFails seg r.key r.offset = true)) ∨
        key = r.key ∧ db.pointsTo noFails seg r.key r.offset = true ∧ e.vlogPtr = newPtr := by
    intro key e he
    by_cases hgo : key = r.key ∧ db.pointsTo noFails seg r.key r.offset = true
    · obtain ⟨rfl, hpt⟩ := hgo
      rw [(hs.moved ⟨hpt, rfl⟩).1] at he
      cases he
      exact Or.inr ⟨rfl, hpt, rfl⟩
    · have hsame := hs.versions key fun hk hg => hgo ⟨hk, hg.1⟩
      rw [visible, hsame] at he
      exact Or.inl ⟨he, fun hk hpt => hgo ⟨hk, hpt⟩⟩
  have hdir : db.pointsTo noFails seg r.key r.offset = true → seg ∈ db.vlog.files.dir := by
    intro hpt
    obtain ⟨e, he, hid, -⟩ := h.found hf hpt
    exact hid ▸ h.live r.key e he
  have hl : db'.Live := by
    intro key e he
    rw [hs.vlog]
    rcases hvis key e he with ⟨he, -⟩ | ⟨-, hpt, hptr⟩
    · exact h.live key e he
    · exact hptr ▸ hfile (hdir hpt)
  have href : db'.Refines m := by
    intro key
    by_cases hgo : key = r.key ∧ db.pointsTo noFails seg r.key r.offset = true
    · obtain ⟨rfl, hpt⟩ := hgo
      obtain ⟨-, -, -, -, hm⟩ := h.found hf hpt
      rw [hm]
      have hmoved := (hs.moved ⟨hpt, rfl⟩).1
      exact ⟨_, hmoved, hs.vlog ▸ hh, VLog.canOpen_of_mem (hl _ _ hmoved)⟩
    · have hsame := hs.versions key fun hk hg => hgo ⟨hk, hg.1⟩
      exact (h.refines key).mono (congrArg _ hsame) (hs.vlog ▸ VLog.Extends.refl db.vlog)
  refine ⟨⟨hs.inv, hs.intact h.intact (Or.inr ⟨value, hh, hsc⟩), hl, href⟩, hlogs, hqueue, hpass, fun key e he => ?_,
    fun id hid => Or.inl (hs.vlog.symm ▸ hid), fun q hq => ?_, trivial⟩
  · rcases hvis key e he with ⟨he, -⟩ | ⟨-, hpt, hptr⟩
    · exact Or.inl he
    · exact Or.inr ⟨hdir hpt, r, newPtr, rest, rfl, hptr⟩
  · cases hq
    refine ⟨fun rs hrs key e he hid => ?_, hp.found.passes hpass, trivial⟩
    cases hrs
    rcases hvis key e he with ⟨he, hstay⟩ | ⟨-, -, hptr⟩
    · rcases List.mem_cons.mp (hp.among _ rfl key e he hid) with hl | hm
      · have hkey : key = r.key := congrArg LiveRecord.key hl
        have hoff : e.vlogPtr.offset = r.offset := congrArg LiveRecord.offset hl
        exact absurd (h.inv.pointsTo_iff.mpr ⟨e, hkey ▸ he, hid, hoff⟩) (hstay hkey)
      · exact hm
    · rw [hptr] at hid
      omega

/-- The removal of the file. -/
theorem Reliable.delete (h : db.Reliable m) (hseg : seg < db.vlog.currentFileId) (hp : Collecting.unread.Inv db seg) :
    Collects db m seg .unread (db.gcDelete false seg) none := by
  have hne : ∀ key e, db.visible key = some e → e.vlogPtr.fileId ≠ seg := fun key e he hs => by
    cases hp.among _ rfl key e he hs
  have hpass := VLog.passes_remove db.vlog seg
  have hl : (db.gcDelete false seg).Live := fun key e he => Folder.mem_dir_remove.mpr ⟨h.live key e he, hne key e he⟩
  have hsound : { db.vlog with files := db.vlog.files.remove seg }.Sound :=
    ⟨⟨h.inv.vlog.ready.writer, h.inv.vlog.ready.offset,
      Folder.mem_dir_remove.mpr ⟨h.inv.vlog.ready.exists_, hseg.ne'⟩⟩,
      fun id hid => h.inv.vlog.newest id (Folder.mem_dir_remove.mp hid).1⟩
  have hin : (db.gcDelete false seg).Intact := ⟨h.intact.whole, fun key e he => (h.intact.scanned key e he).imp_right
    fun ⟨value, hh, hs⟩ => ⟨value, hpass.holds _ _ _ hh, hs⟩⟩
  refine ⟨⟨h.inv.of_vlog hsound hpass.holds, hin, hl, h.refines.passes hpass (fun _ => rfl) hl⟩,
    LogSteps.refl.logs _ db.wal db.walId db.sequenceNumber (Nat.le_refl _), rfl, hpass, fun _ _ he => Or.inl he,
    fun id hid => ?_, fun q hq => (by cases hq), trivial⟩
  by_cases he : id = seg
  · exact Or.inr ⟨rfl, he⟩
  · exact Or.inl (Folder.mem_dir_remove.mpr ⟨hid, he⟩)

/-- **The next section of a collection** keeps the contents, and what the collection relies on. -/
theorem collectStep_spec (h : db.Reliable m) (hseg : seg < db.vlog.currentFileId) {p : Collecting} (hp : p.Inv db seg)
    (hfile : ∀ r newPtr rest, p = .appended r newPtr rest → seg ∈ db.vlog.files.dir →
      newPtr.fileId ∈ db.vlog.files.dir) :
    Collects db m seg p (db.collectStep seg p).1 (db.collectStep seg p).2 := by
  cases p with
  | chosen =>
    by_cases hf : db.vlog.files.has seg = true
    · have hstep : db.collectStep seg .chosen =
          (db, some (.scanning (VLog.scanFile (db.vlog.files.data seg) 0) {})) := by
        simp only [collectStep, VLog.newReader, if_pos hf]
      rw [hstep]
      exact h.looks (fun q hq => by cases hq; exact h.scan seg) trivial
    · have hstep : db.collectStep seg .chosen = (db, none) := by
        simp only [collectStep, VLog.newReader, if_neg hf]
      rw [hstep]
      exact h.looks (fun q hq => by cases hq) trivial
  | scanning rest acc =>
    cases rest with
    | cons r rest => exact h.looks (fun q hq => by cases hq; exact h.callback hp) trivial
    | nil =>
      have hall : (Collecting.rewriting acc.liveRecords).Inv db seg :=
        ⟨fun rs hrs => by cases hrs; exact List.append_nil acc.liveRecords ▸ hp.among _ rfl, hp.found, trivial⟩
      rw [collectStep]
      split
      · exact h.looks (fun q hq => by cases hq; exact hall) trivial
      · exact h.looks (fun q hq => by cases hq) trivial
  | rewriting rest =>
    cases rest with
    | cons r rest =>
      have hread : db.gcRead false seg r =
        ({ db with vlog := db.vlog.openReader seg }, gcValue false seg r db.vlog) := rfl
      obtain ⟨herror, hok⟩ := h.read hp
      simp only [collectStep, hread]
      cases hv : gcValue false seg r db.vlog with
      | error s =>
        exact h.caches (VLog.sameFiles_openReader db.vlog seg) h.inv.wal (fun q hq => by cases hq; exact herror s hv) trivial
      | ok x =>
        exact h.caches (VLog.sameFiles_openReader db.vlog seg) h.inv.wal (fun q hq => by cases hq; exact hok x hv) trivial
    | nil =>
      have hw : db.wal.sync.writer = .opened := by
        rw [WAL.sync, if_pos h.inv.wal]
        exact h.inv.wal
      have hnone : Collecting.synced.Inv db seg := ⟨hp.among, hp.found, trivial⟩
      exact h.caches (VLog.sameFiles_sync db.vlog) hw (fun q hq => by cases hq; exact hnone) trivial
  | read r value rest =>
    obtain ⟨v, newPtr, ha, hc⟩ := h.append hseg hp
    simp only [collectStep, ha]
    exact hc
  | appended r newPtr rest => exact h.swap hp (hfile r newPtr rest rfl)
  | synced =>
    have hnone : Collecting.unread.Inv db seg := ⟨hp.among, hp.found, trivial⟩
    have hremove : VLog.SameFiles db.vlog (db.vlog.removeReader seg) := ⟨rfl, rfl, rfl, rfl, rfl⟩
    have hc : Collects db m seg .synced { db with vlog := db.vlog.removeReader seg, wal := db.wal } (some .unread) :=
      h.caches hremove h.inv.wal (fun q hq => by cases hq; exact hnone) trivial
    exact hc
  | unread => exact h.delete hseg hp

end DB

end SplitKV
