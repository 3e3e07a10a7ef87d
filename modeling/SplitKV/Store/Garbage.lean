import SplitKV.Session
import Mathlib.Algebra.BigOperators.Group.Finset.Basic
import Mathlib.Logic.Function.Iterate

/-!
# What collections free

The garbage of a file of the value log are its records that no visible version points at. A collection that rewrites its
segment frees the garbage of that segment, and leaves the garbage of every other file as it is (`runGC_frees`): no copy of
a record is garbage. So collections one after the other, with nothing written between them, clean the oldest files, and
then change nothing any more (`collections_settle`).
-/

namespace SplitKV

open Assoc Versions

namespace VLog

/-- The bytes of all files. -/
def bytes (v : VLog) : Nat := ∑ id ∈ v.files.dir.toFinset, (v.files.data id).length

/-- The records of a file, as a collection finds them. -/
def records (v : VLog) (id : Nat) : List ScanRecord := scanFile (v.files.data id) 0

/-! ## Records -/

theorem recSize_eq {key value : Bytes} (h : Fits key value) (type : ValueType) (offset : Nat) :
    ScanRecord.recSize ⟨key, value, type, offset⟩ = 13 + key.length + value.length := by
  unfold Fits at h
  rw [ScanRecord.recSize, Nat.mod_eq_of_lt (by simp only; omega)]
  simp only
  omega

/-- The records of a list that starts at `offset`: where they lie, and their bytes. -/
theorem scanned_places : ∀ (rs : List (Bytes × Bytes)) (offset : Nat), (∀ r ∈ rs, Fits r.1 r.2) →
    (∀ s ∈ scanned offset (rs.map fun r => (.value, r.1, r.2)), s.type = .value ∧ Fits s.key s.value ∧ offset ≤ s.offset ∧
      s.offset < offset + (encodeRecords (rs.map fun r => (.value, r.1, r.2))).length) ∧
    (scanned offset (rs.map fun r => (.value, r.1, r.2))).Pairwise (fun s t => s.offset < t.offset) ∧
    ((scanned offset (rs.map fun r => (.value, r.1, r.2))).map ScanRecord.recSize).sum =
      (encodeRecords (rs.map fun r => (.value, r.1, r.2))).length
  | [], _, _ => ⟨fun s hs => absurd hs List.not_mem_nil, List.Pairwise.nil, rfl⟩
  | r :: rs, offset, h => by
    have hr := h r List.mem_cons_self
    obtain ⟨h₁, h₂, h₃⟩ := scanned_places rs (offset + (13 + r.1.length + r.2.length))
      fun r' hr' => h r' (List.mem_cons_of_mem _ hr')
    have hlen : (encodeRecords ((r :: rs).map fun r => (.value, r.1, r.2))).length =
        13 + r.1.length + r.2.length + (encodeRecords (rs.map fun r => (.value, r.1, r.2))).length := by
      rw [List.map_cons, encodeRecords_cons, List.length_append, length_encodeRecord]
    rw [hlen, List.map_cons, scanned]
    refine ⟨fun s hs => ?_, List.pairwise_cons.mpr ⟨fun s hs => ?_, h₂⟩, ?_⟩
    · rcases List.mem_cons.mp hs with rfl | hs
      · exact ⟨rfl, hr, Nat.le_refl _, by simp only; omega⟩
      · obtain ⟨k₁, k₂, k₃, k₄⟩ := h₁ s hs
        exact ⟨k₁, k₂, by omega, by omega⟩
    · obtain ⟨-, -, k₃, -⟩ := h₁ s hs
      simp only
      omega
    · rw [List.map_cons, List.sum_cons, h₃, recSize_eq hr]

/-- The records of a file of whole records. -/
structure Places (file : Bytes) : Prop where
  record : ∀ s ∈ scanFile file 0, s.type = .value ∧ Fits s.key s.value ∧ s.offset < file.length
  offsets : (scanFile file 0).Pairwise (fun s t => s.offset < t.offset)
  size : ((scanFile file 0).map ScanRecord.recSize).sum = file.length

theorem Whole.places {file : Bytes} (h : Whole file) : Places file := by
  obtain ⟨rs, hrs, rfl⟩ := h
  have hfits : ∀ r ∈ rs.map (fun r => (ValueType.value, r.1, r.2)), Fits r.2.1 r.2.2 := by
    intro r hr
    obtain ⟨r', hr', rfl⟩ := List.mem_map.mp hr
    exact hrs r' hr'
  obtain ⟨h₁, h₂, h₃⟩ := scanned_places rs 0 hrs
  have hs := scanFile_encode hfits
  refine ⟨fun s hm => ?_, ?_, ?_⟩
  · rw [hs] at hm
    obtain ⟨k₁, k₂, -, k₄⟩ := h₁ s hm
    exact ⟨k₁, k₂, by omega⟩
  · rw [hs]
    exact h₂
  · rw [hs]
    exact h₃

/-- One record lies at an offset. -/
theorem Places.unique {file : Bytes} (h : Places file) {s t : ScanRecord} (hs : s ∈ scanFile file 0)
    (ht : t ∈ scanFile file 0) (ho : s.offset = t.offset) : s = t := by
  have hn : ((scanFile file 0).map ScanRecord.offset).Nodup := List.pairwise_map.mpr (h.offsets.imp fun hlt => Nat.ne_of_lt hlt)
  exact List.inj_on_of_nodup_map hn hs ht ho

/-! ## Bytes -/

/-- **An append** adds the bytes of its record. -/
theorem Appended.bytes {v v' : VLog} {record : Bytes} {ptr : VLogPointer} (h : Appended v record v' ptr) (hv : v.Sound) :
    v'.bytes = v.bytes + record.length := by
  obtain ⟨base, hb, -, hbase⟩ := h.new
  have hdir : v'.files.dir.toFinset = insert v'.currentFileId v.files.dir.toFinset := by
    ext id
    rw [Finset.mem_insert, List.mem_toFinset, List.mem_toFinset]
    exact h.dir id
  have hrest : ∀ s : Finset Nat, v'.currentFileId ∉ s →
      ∑ id ∈ s, (v'.files.data id).length = ∑ id ∈ s, (v.files.data id).length := by
    intro s hs
    refine Finset.sum_congr rfl fun id hid => ?_
    rw [h.old id fun he => hs (he ▸ hid)]
  rw [VLog.bytes, VLog.bytes, hdir]
  rcases hbase with ⟨hc, rfl⟩ | ⟨hc, rfl⟩
  · have hmem : v'.currentFileId ∈ v.files.dir.toFinset := List.mem_toFinset.mpr (hc ▸ hv.ready.exists_)
    rw [Finset.insert_eq_of_mem hmem, ← Finset.add_sum_erase _ _ hmem, ← Finset.add_sum_erase _ _ hmem,
      hrest _ (Finset.notMem_erase _ _), hb, List.length_append, hc]
    omega
  · have hmem : v'.currentFileId ∉ v.files.dir.toFinset := by
      intro hm
      have := hv.newest _ (List.mem_toFinset.mp hm)
      omega
    rw [Finset.sum_insert hmem, hrest _ hmem, hb, List.nil_append]
    omega

end VLog

namespace DB

/-! ## The scan -/

/-- The record is a value that the latest entry of its key points at. -/
def liveIn (db : DB) (seg : Nat) (r : ScanRecord) : Bool :=
  decide (r.type = .value) && db.pointsTo noFails seg r.key r.offset

/-- The bytes of the live records of a file. -/
def liveBytes (db : DB) (seg : Nat) : Nat := (((db.vlog.records seg).filter (db.liveIn seg)).map ScanRecord.recSize).sum

/-- The bytes of the other records of a file. -/
def garbage (db : DB) (seg : Nat) : Nat :=
  if seg ∈ db.vlog.files.dir then
    (((db.vlog.records seg).filter fun r => !db.liveIn seg r).map ScanRecord.recSize).sum
  else 0

/-- **What the scan adds up**, when no lookup fails. -/
theorem gcScan_none (db : DB) (seg : Nat) : ∀ (rs : List ScanRecord) (i : Nat) (acc : GcScan),
    db.gcScan .none seg i rs acc =
      { totalBytes := acc.totalBytes + (rs.map ScanRecord.recSize).sum
        liveBytes := acc.liveBytes + ((rs.filter (db.liveIn seg)).map ScanRecord.recSize).sum
        liveRecords := acc.liveRecords ++
          (rs.filter (db.liveIn seg)).map fun r => ⟨r.key, r.offset, r.value.length % 2 ^ 32⟩ }
  | [], _, acc => by simp [gcScan]
  | r :: rs, i, acc => by
    rw [gcScan, gcScan_none db seg rs (i + 1)]
    unfold gcCallback
    by_cases hl : db.liveIn seg r = true
    · have hif : r.type = .value ∧ db.pointsTo noFails seg r.key r.offset = true := by simpa [liveIn] using hl
      rw [List.filter_cons_of_pos hl]
      simp [show GcFaults.none.scan i = noFails from rfl, hif, Nat.add_assoc]
    · have hif : ¬(r.type = .value ∧ db.pointsTo noFails seg r.key r.offset = true) := by simpa [liveIn] using hl
      rw [List.filter_cons_of_neg hl]
      simp [show GcFaults.none.scan i = noFails from rfl, hif, Nat.add_assoc]

/-- A record is live when the visible version of its key points at it. -/
theorem Inv.liveIn_iff {db : DB} (h : db.Inv) {seg : Nat} {r : ScanRecord} : db.liveIn seg r = true ↔
    r.type = .value ∧ ∃ e, db.visible r.key = some e ∧ e.vlogPtr.fileId = seg ∧ e.vlogPtr.offset = r.offset := by
  rw [liveIn, Bool.and_eq_true, decide_eq_true_eq, h.pointsTo_iff]

/-- A file is its live records and its garbage. -/
theorem liveBytes_add_garbage {db : DB} (hi : db.Intact) {seg : Nat} (hd : seg ∈ db.vlog.files.dir)
    (hle : seg ≤ db.vlog.currentFileId) : db.liveBytes seg + db.garbage seg = (db.vlog.files.data seg).length := by
  rw [← (hi.whole seg hle).places.size, garbage, if_pos hd, liveBytes, VLog.records]
  generalize VLog.scanFile (db.vlog.files.data seg) 0 = rs
  induction rs with
  | nil => rfl
  | cons r rs ih =>
    rw [List.map_cons, List.sum_cons, ← ih]
    by_cases hl : db.liveIn seg r = true
    · rw [List.filter_cons_of_pos hl, List.filter_cons_of_neg (by simp [hl]), List.map_cons, List.sum_cons]
      omega
    · rw [List.filter_cons_of_neg hl, List.filter_cons_of_pos (by simpa using hl), List.map_cons, List.sum_cons]
      omega

/-- A collection rewrites its segment when the records are enough, and enough of them are garbage. -/
theorem gcDecide_none {db : DB} (hi : db.Intact) {seg : Nat} (hle : seg ≤ db.vlog.currentFileId) :
    db.gcDecide (db.gcScanned .none seg) = (decide ((db.vlog.files.data seg).length ≠ 0) &&
      db.options.gcTest (db.liveBytes seg) (db.vlog.files.data seg).length) := by
  have hsize := (hi.whole seg hle).places.size
  rw [gcDecide, gcScanned, gcScan_none]
  simp only [Nat.zero_add, hsize]
  rfl

/-- The file a collection takes is the oldest one that was completed and has an id of five digits. -/
theorem gcChoose_eq_some {db : DB} {seg : Nat} : db.gcChoose = some seg ↔ seg ∈ db.vlog.files.dir ∧ seg < 100000 ∧
    seg < db.vlog.currentFileId ∧ ∀ id ∈ db.vlog.files.dir, id < 100000 → id < db.vlog.currentFileId → seg ≤ id := by
  have hmem : ∀ id, id ∈ db.vlogIds ↔ id ∈ db.vlog.files.dir ∧ id < 100000 := by
    intro id
    rw [vlogIds, List.mem_insertionSort, List.mem_filterMap]
    constructor
    · rintro ⟨id', hid, he⟩
      rw [gcFileId_vlogFileName] at he
      split at he
      · cases he
        exact ⟨hid, ‹_›⟩
      · cases he
    · rintro ⟨hid, hlt⟩
      exact ⟨id, hid, by rw [gcFileId_vlogFileName, if_pos hlt]⟩
  have hsorted : db.vlogIds.Pairwise (· ≤ ·) := List.pairwise_insertionSort (· ≤ ·) _
  rw [gcChoose, List.find?_eq_some_iff_append]
  constructor
  · rintro ⟨hlt, before, later, he, hbefore⟩
    obtain ⟨hd, h5⟩ := (hmem seg).mp (he ▸ List.mem_append_right _ List.mem_cons_self)
    refine ⟨hd, h5, of_decide_eq_true hlt, fun id hid hid5 hc => ?_⟩
    have hin := (hmem id).mpr ⟨hid, hid5⟩
    rw [he] at hin hsorted
    rcases List.mem_append.mp hin with hb | hl
    · have := hbefore id hb
      simp only [Bool.not_eq_true', decide_eq_false_iff_not] at this
      exact absurd hc this
    · rcases List.mem_cons.mp hl with rfl | hl
      · exact Nat.le_refl _
      · exact (List.pairwise_cons.mp (List.pairwise_append.mp hsorted).2.1).1 id hl
  · rintro ⟨hd, h5, hlt, hmin⟩
    obtain ⟨before, later, he, hn⟩ := List.eq_append_cons_of_mem ((hmem seg).mpr ⟨hd, h5⟩)
    refine ⟨decide_eq_true hlt, before, later, he, fun id hb => ?_⟩
    simp only [Bool.not_eq_true', decide_eq_false_iff_not]
    intro hc
    obtain ⟨hid, hid5⟩ := (hmem id).mp (he ▸ List.mem_append_left _ hb)
    rw [he] at hsorted
    have hle := (List.pairwise_append.mp hsorted).2.2 id hb seg List.mem_cons_self
    have := hmin id hid hid5 hc
    exact hn ((Nat.le_antisymm this hle) ▸ hb)

/-! ## Copies -/

/-- What the copying of `n` bytes of records of a segment leaves: the segment itself, the garbage of all other files, and
new files behind the old ones. -/
structure Copies (db db' : DB) (seg n : Nat) : Prop where
  inv : db'.Inv
  intact : db'.Intact
  options : db'.options = db.options
  current : db.vlog.currentFileId ≤ db'.vlog.currentFileId
  data : ∀ id < db.vlog.currentFileId, db'.vlog.files.data id = db.vlog.files.data id
  dir : ∀ id ∈ db.vlog.files.dir, id ∈ db'.vlog.files.dir
  newer : ∀ id ∈ db'.vlog.files.dir, id ∈ db.vlog.files.dir ∨ db.vlog.currentFileId < id
  garbage : ∀ id ≠ seg, db'.garbage id = db.garbage id
  bytes : db'.vlog.bytes = db.vlog.bytes + n

theorem Copies.refl {db : DB} (h : db.Inv) (hi : db.Intact) (seg : Nat) : Copies db db seg 0 :=
  ⟨h, hi, rfl, Nat.le_refl _, fun _ _ => rfl, fun _ hid => hid, fun _ hid => Or.inl hid, fun _ _ => rfl, rfl⟩

theorem Copies.trans {a b c : DB} {seg n m : Nat} (h : Copies a b seg n) (h' : Copies b c seg m) :
    Copies a c seg (n + m) := by
  refine ⟨h'.inv, h'.intact, h'.options.trans h.options, h.current.trans h'.current,
    fun id hid => (h'.data id (Nat.lt_of_lt_of_le hid h.current)).trans (h.data id hid),
    fun id hid => h'.dir id (h.dir id hid), fun id hid => ?_, fun id hne => (h'.garbage id hne).trans (h.garbage id hne), ?_⟩
  · rcases h'.newer id hid with hid | hlt
    · exact h.newer id hid
    · exact Or.inr (Nat.lt_of_le_of_lt h.current hlt)
  · rw [h'.bytes, h.bytes, Nat.add_assoc]

/-- Opening a reader copies nothing. -/
theorem Copies.openReader {db : DB} (h : db.Inv) (hi : db.Intact) (seg : Nat) :
    Copies db { db with vlog := db.vlog.openReader seg } seg 0 := by
  have hs := VLog.sameFiles_openReader db.vlog seg
  have hdir := hs.dir
  refine ⟨h.sameFiles hs, hi.sameFiles hs, rfl, hs.current.ge, fun id _ => congrFun hs.data id, fun id hid => hdir ▸ hid,
    fun id hid => Or.inl (hdir ▸ hid), fun id _ => ?_, ?_⟩
  · rw [DB.garbage, DB.garbage, VLog.records, VLog.records]
    simp only [hdir, hs.data]
    rfl
  · rw [VLog.bytes, VLog.bytes]
    simp only [hdir, hs.data, Nat.add_zero]

/-- Whether the records of other files are live does not change when a live record of the segment has moved. -/
theorem Swapped.liveIn {db db' : DB} (h : db.Inv) {seg : Nat} {r : LiveRecord} {newPtr : VLogPointer}
    {goes : Prop} (hp : db.pointsTo noFails seg r.key r.offset = true) (hs : db.Swapped db' r.key newPtr goes) (hg : goes)
    {id : Nat} (hne : id ≠ seg) {s : ScanRecord} (ho : id = newPtr.fileId → s.offset ≠ newPtr.offset) :
    db'.liveIn id s = db.liveIn id s := by
  by_cases hk : s.key = r.key
  · -- the version of the key lay in the segment, and now lies where the copy is
    obtain ⟨e, he, hid, -⟩ := h.pointsTo_iff.mp hp
    obtain ⟨hvis, -⟩ := hs.moved hg
    have hold : ¬db.liveIn id s = true := by
      rw [h.liveIn_iff]
      rintro ⟨-, e', he', hid', -⟩
      rw [hk, he] at he'
      cases he'
      exact hne (hid'.symm.trans hid)
    have hnew : ¬db'.liveIn id s = true := by
      rw [hs.inv.liveIn_iff]
      rintro ⟨-, e', he', hid', ho'⟩
      rw [hk, hvis] at he'
      cases he'
      exact ho hid'.symm ho'.symm
    rw [Bool.eq_false_iff.mpr hold, Bool.eq_false_iff.mpr hnew]
  · rw [DB.liveIn, DB.liveIn, DB.pointsTo, DB.pointsTo, hs.findLatest noFails s.key fun he => absurd he hk]

/-- **A copy** of a live record, and its swap, leave no new garbage in other files. -/
theorem copy_spec {db : DB} (h : db.Inv) (hi : db.Intact) {seg : Nat} {r : LiveRecord} {value : Bytes} {v : VLog}
    {newPtr : VLogPointer} (hf : VLog.Fits r.key value)
    (hp : db.pointsTo noFails seg r.key r.offset = true)
    (ha : VLog.Appended db.vlog (VLog.encodeRecord .value r.key value) v newPtr) (hn : v.Holds newPtr r.key value) :
    Copies db ({ db with vlog := v }.gcSwap noFails none seg r newPtr) seg (13 + r.key.length + value.length) ∧
      ∀ key ≠ r.key, ∀ offset, ({ db with vlog := v }.gcSwap noFails none seg r newPtr).pointsTo noFails seg key offset =
        db.pointsTo noFails seg key offset := by
  have hi₁ : { db with vlog := v }.Inv := h.append ha
  have hs := gcSwap_spec hi₁ noFails none seg r hn
  have hp₁ : { db with vlog := v }.pointsTo noFails seg r.key r.offset = true := hp
  have hsc : EntryScanned v r.key ⟨newPtr, db.sequenceNumber, .value⟩ :=
    Or.inr ⟨value, hn, ha.scanned hi.whole hf⟩
  generalize { db with vlog := v }.gcSwap noFails none seg r newPtr = db' at hs
  have hv : db'.vlog = v := hs.vlog
  refine ⟨⟨hs.inv, hs.intact (hi.append hf ha) hsc, hs.options, ?_, fun id hid => ?_, fun id hid => ?_, fun id hid => ?_,
    fun id hne => ?_, ?_⟩, fun key hk offset => ?_⟩
  · rw [hv]
    exact ha.current_le
  · rw [hv]
    exact ha.old id (Nat.lt_of_lt_of_le hid ha.current_le).ne
  · rw [hv, ha.dir]
    exact Or.inr hid
  · rw [hv, ha.dir] at hid
    obtain ⟨-, -, -, ⟨hc, -⟩ | ⟨hc, -⟩⟩ := ha.new
    · exact Or.inl (hid.elim (fun he => he ▸ hc ▸ h.vlog.ready.exists_) fun hid => hid)
    · exact hid.symm.imp_right fun he => by omega
  · have hlive : ∀ s : ScanRecord, (id = newPtr.fileId → s.offset ≠ newPtr.offset) → db'.liveIn id s = db.liveIn id s :=
      fun s ho => hs.liveIn hi₁ hp₁ ⟨hp₁, rfl⟩ hne ho
    obtain ⟨base, hb, ho, hbase⟩ := ha.new
    by_cases hid : id = v.currentFileId
    · -- the copy lies behind the records of the file, and is live
      subst hid
      have hw : VLog.Whole base := by
        rcases hbase with ⟨hc, rfl⟩ | ⟨-, rfl⟩
        · exact hi.whole _ (Nat.le_refl _)
        · exact VLog.whole_nil
      have hnew : db'.liveIn v.currentFileId ⟨r.key, value, .value, base.length⟩ = true := by
        obtain ⟨hvis, -⟩ := hs.moved ⟨hp₁, rfl⟩
        exact hs.inv.liveIn_iff.mpr ⟨rfl, _, hvis, ha.fileId, ho⟩
      have hrec : (db'.vlog.records v.currentFileId).filter (fun s => !db'.liveIn v.currentFileId s) =
          (VLog.scanFile base 0).filter fun s => !db.liveIn v.currentFileId s := by
        rw [hv, VLog.records, hb, VLog.scanFile_append hw hf, List.filter_append,
          List.filter_cons_of_neg (by simp [hnew]), List.filter_nil, List.append_nil]
        refine List.filter_congr fun s hm => ?_
        rw [hlive s fun _ => ?_]
        rw [ho]
        exact Nat.ne_of_lt (hw.places.record s hm).2.2
      rw [DB.garbage, if_pos (by rw [hv]; exact (ha.dir _).mpr (Or.inl rfl)), hrec, DB.garbage]
      rcases hbase with ⟨hc, rfl⟩ | ⟨hc, rfl⟩
      · rw [if_pos (hc ▸ h.vlog.ready.exists_), VLog.records, hc]
      · rw [if_neg fun hm => by have := h.vlog.newest _ hm; omega]
        rfl
    · have hrec : (db'.vlog.records id).filter (fun s => !db'.liveIn id s) =
          (db.vlog.records id).filter fun s => !db.liveIn id s := by
        rw [hv, VLog.records, VLog.records, ha.old id hid]
        refine List.filter_congr fun s _ => ?_
        rw [hlive s fun he => absurd (he.trans ha.fileId) hid]
      have hdir : id ∈ db'.vlog.files.dir ↔ id ∈ db.vlog.files.dir := by
        rw [hv, ha.dir, or_iff_right hid]
      rw [DB.garbage, DB.garbage, hrec]
      simp only [hdir]
  · rw [hv, ha.bytes h.vlog, VLog.length_encodeRecord]
  · rw [DB.pointsTo, DB.pointsTo, hs.findLatest noFails key fun he => absurd he hk]
    rfl

/-- The records are live, each of its own key, and their values can be read. -/
structure Movable (db : DB) (seg : Nat) (rs : List LiveRecord) : Prop where
  live : ∀ r ∈ rs, db.pointsTo noFails seg r.key r.offset = true
  holds : ∀ r ∈ rs, ∃ value, db.vlog.Holds ⟨seg, r.offset, r.valSize⟩ r.key value
  keys : (rs.map LiveRecord.key).Nodup

/-- **The rewriting** copies every record once, and every copy is live. -/
theorem gcRewrite_copies (seg : Nat) : ∀ (rs : List LiveRecord) (i : Nat) (db : DB), db.Inv → db.Intact →
    seg ∈ db.vlog.files.dir → db.Movable seg rs →
    Copies db (gcRewrite .none seg i rs db).1 seg ((rs.map fun r => 13 + r.key.length + r.valSize).sum) ∧
      (gcRewrite .none seg i rs db).2 = .ok ()
  | [], _, db, h, hi, _, _ => ⟨.refl h hi seg, rfl⟩
  | r :: rs, i, db, h, hi, hd, hm => by
    obtain ⟨value, hh⟩ := hm.holds r List.mem_cons_self
    have hp := hm.live r List.mem_cons_self
    have hval : value.length = r.valSize := hh.valueSize.symm
    have hread : gcValue (GcFaults.none.read i) seg r db.vlog = .ok value := by
      have hr := hh.read (VLog.canOpen_of_mem hd)
      simp only [gcValue, GcFaults.none, Bool.false_eq_true, if_false, hr]
    have h₀ := Copies.openReader h hi seg
    have hready : (db.vlog.openReader seg).Ready := h₀.inv.vlog.ready
    obtain ⟨v, newPtr, ha, hs, happ⟩ := VLog.appended_append db.options hready r.key value .value
    have hn := happ.holds hh.fits hs
    obtain ⟨h₁, hfind⟩ := copy_spec h₀.inv h₀.intact hh.fits hp happ hn
    have hstep : gcRewrite .none seg i (r :: rs) db =
        gcRewrite .none seg (i + 1) rs ({ db with vlog := v }.gcSwap noFails none seg r newPtr) := by
      rw [gcRewrite]
      have hgr : db.gcRead (GcFaults.none.read i) seg r =
          ({ db with vlog := db.vlog.openReader seg }, .ok value) := by
        rw [← hread]
        rfl
      rw [hgr]
      simp only [gcAppend, show GcFaults.none.append i = .none from rfl, ha]
      rfl
    rw [hstep]
    -- the keys of the other records still have their versions
    have hm₁ : ({ db with vlog := v }.gcSwap noFails none seg r newPtr).Movable seg rs := by
      have hkeys := hm.keys
      rw [List.map_cons, List.nodup_cons] at hkeys
      refine ⟨fun r' hr' => ?_, fun r' hr' => ?_, hkeys.2⟩
      · rw [hfind r'.key (fun he => hkeys.1 (he ▸ List.mem_map_of_mem hr')) r'.offset]
        exact hm.live r' (List.mem_cons_of_mem _ hr')
      · obtain ⟨x, hx⟩ := hm.holds r' (List.mem_cons_of_mem _ hr')
        have hi₁ : { db with vlog := v }.Inv := h₀.inv.append happ
        have hsw := gcSwap_spec hi₁ noFails none seg r hn
        exact ⟨x, by rw [hsw.vlog]; exact (hx.mono (VLog.extends_openReader db.vlog seg)).mono happ.extends⟩
    obtain ⟨hrest, hok⟩ := gcRewrite_copies seg rs (i + 1) _ h₁.inv h₁.intact (h₁.dir _ (h₀.dir _ hd)) hm₁
    refine ⟨?_, hok⟩
    rw [List.map_cons, List.sum_cons, ← hval]
    have := (h₀.trans h₁).trans hrest
    rw [Nat.zero_add] at this
    exact this

/-! ## Collections -/

/-- The live records of the scan can be moved. -/
theorem Inv.movable {db : DB} (h : db.Inv) (hi : db.Intact) (seg : Nat) (hle : seg ≤ db.vlog.currentFileId) :
    db.Movable seg (db.gcScanned .none seg).liveRecords := by
  have hpl := (hi.whole seg hle).places
  refine ⟨fun r hr => ?_, fun r hr => ?_, ?_⟩
  · obtain ⟨s, -, -, rfl, e, he⟩ := h.mem_live.mp hr
    exact h.pointsTo_iff.mpr ⟨e, he⟩
  · obtain ⟨s, hs, -, rfl, e, he, hid, ho⟩ := h.mem_live.mp hr
    obtain ⟨ht, -⟩ := h.visible_holds he
    rcases hi.scanned s.key e (List.mem_of_mem_head? (visible_eq_some.mp he).1) with hd | ⟨value, hh, hsc⟩
    · rw [ht] at hd
      cases hd
    · unfold VLog.Scanned at hsc
      rw [hid] at hsc
      have heq := hpl.unique hs hsc ho.symm
      have hlt := hh.fits
      unfold VLog.Fits at hlt
      refine ⟨value, ?_⟩
      have hsv : s.value = value := by rw [heq]
      have hptr : (⟨seg, s.offset, s.value.length % 2 ^ 32⟩ : VLogPointer) = e.vlogPtr := by
        rw [hsv, Nat.mod_eq_of_lt (by omega), ← hh.valueSize, ← hid, ← ho]
      rw [hptr]
      exact hh
  · rw [gcScanned, gcScan_none]
    simp only [List.nil_append, List.map_map]
    refine List.Nodup.map_on (fun s hs t ht hk => ?_) ?_
    · obtain ⟨hsm, hsl⟩ := List.mem_filter.mp hs
      obtain ⟨htm, htl⟩ := List.mem_filter.mp ht
      obtain ⟨-, e, he, -, ho⟩ := h.liveIn_iff.mp hsl
      obtain ⟨-, e', he', -, ho'⟩ := h.liveIn_iff.mp htl
      have hk : s.key = t.key := hk
      rw [hk, he'] at he
      cases he
      exact hpl.unique hsm htm (ho.symm.trans ho')
    · exact (hpl.offsets.imp fun hlt he => by rw [he] at hlt; exact absurd hlt (Nat.lt_irrefl _)).filter _

/-- The bytes that the scan counts as live are the ones the rewriting copies. -/
theorem Intact.liveBytes_eq {db : DB} (hi : db.Intact) {seg : Nat} (hle : seg ≤ db.vlog.currentFileId) :
    ((db.gcScanned .none seg).liveRecords.map fun r => 13 + r.key.length + r.valSize).sum = db.liveBytes seg := by
  rw [gcScanned, gcScan_none, liveBytes]
  simp only [List.nil_append, List.map_map]
  refine congrArg List.sum (List.map_congr_left fun s hs => ?_)
  have hf := ((hi.whole seg hle).places.record s (List.mem_of_mem_filter hs)).2.1
  have hlt := hf
  unfold VLog.Fits at hlt
  rw [VLog.recSize_eq hf s.type s.offset]
  show 13 + s.key.length + s.value.length % 2 ^ 32 = _
  rw [Nat.mod_eq_of_lt (by omega)]

/-- The end of a collection removes the segment, and changes no other file. -/
theorem garbage_gcFinish {db : DB} (h : db.Inv) {seg : Nat} (hseg : seg < db.vlog.currentFileId) {id : Nat}
    (hne : id ≠ seg) : (db.gcFinish .none seg).garbage id = db.garbage id := by
  have hf := finished_gcFinish db .none seg
  have hrec : ((db.gcFinish .none seg).vlog.records id).filter (fun s => !(db.gcFinish .none seg).liveIn id s) =
      (db.vlog.records id).filter fun s => !db.liveIn id s := by
    rw [VLog.records, VLog.records, hf.data]
    refine List.filter_congr fun s _ => ?_
    rw [Bool.eq_iff_iff, Bool.not_eq_true', Bool.not_eq_true', ← Bool.not_eq_true, ← Bool.not_eq_true,
      (h.gcFinish .none hseg).liveIn_iff, h.liveIn_iff, visible_gcFinish]
  have hdir : id ∈ (db.gcFinish .none seg).vlog.files.dir ↔ id ∈ db.vlog.files.dir := by
    rw [hf.dir]
    exact and_iff_left fun _ => hne
  rw [garbage, garbage, hrec]
  simp only [hdir]

theorem bytes_gcFinish (db : DB) {seg : Nat} (hd : seg ∈ db.vlog.files.dir) :
    (db.gcFinish .none seg).vlog.bytes + (db.vlog.files.data seg).length = db.vlog.bytes := by
  have hf := finished_gcFinish db .none seg
  have hdir : (db.gcFinish .none seg).vlog.files.dir.toFinset = db.vlog.files.dir.toFinset.erase seg := by
    ext id
    rw [Finset.mem_erase, List.mem_toFinset, List.mem_toFinset, hf.dir, and_comm]
    exact and_congr_left fun _ => ⟨fun h => h rfl, fun h _ => h⟩
  rw [VLog.bytes, VLog.bytes, hdir, hf.data, Nat.add_comm]
  exact Finset.add_sum_erase _ (fun id => (db.vlog.files.data id).length) (List.mem_toFinset.mpr hd)

/-- What a collection that rewrites its segment frees. -/
structure Frees (db db' : DB) (seg : Nat) : Prop where
  inv : db'.Inv
  intact : db'.Intact
  options : db'.options = db.options
  removed : seg ∉ db'.vlog.files.dir
  garbage : ∀ id ≠ seg, db'.garbage id = db.garbage id
  bytes : db'.vlog.bytes + db.garbage seg = db.vlog.bytes
  newer : ∀ id ∈ db'.vlog.files.dir, id ∈ db.vlog.files.dir ∨ seg < id
  later : ∀ seg', db'.gcChoose = some seg' → seg < seg'

/-- **A collection** that rewrites its segment frees the garbage in it, and the rest of the log is as it was. -/
theorem runGC_frees {db : DB} (h : db.Inv) (hi : db.Intact) {seg : Nat} (hc : db.gcChoose = some seg)
    (hdec : db.gcDecide (db.gcScanned .none seg) = true) : Frees db (db.runGC .none).1 seg := by
  obtain ⟨hd, h5, hseg, hmin⟩ := gcChoose_eq_some.mp hc
  obtain ⟨hcopies, hok⟩ := gcRewrite_copies seg _ 0 db h hi hd (h.movable hi seg hseg.le)
  rw [hi.liveBytes_eq hseg.le] at hcopies
  have hrun : (db.runGC .none).1 =
      (gcRewrite .none seg 0 (db.gcScanned .none seg).liveRecords db).1.gcFinish .none seg := by
    rw [runGC, hc]
    simp only
    rw [gcSegment, VLog.newReader, if_pos (Folder.has_iff.mpr hd)]
    simp only
    rw [show db.gcScan .none seg 0 (VLog.scanFile (db.vlog.files.data seg) 0) {} = db.gcScanned .none seg from rfl, hdec,
      if_pos rfl]
    generalize gcRewrite .none seg 0 (db.gcScanned .none seg).liveRecords db = x at hok
    obtain ⟨db₁, r⟩ := x
    have hok : r = .ok () := hok
    subst hok
    rfl
  rw [hrun]
  generalize (gcRewrite .none seg 0 (db.gcScanned .none seg).liveRecords db).1 = db₁ at hcopies
  have hseg₁ : seg < db₁.vlog.currentFileId := Nat.lt_of_lt_of_le hseg hcopies.current
  have hf := finished_gcFinish db₁ .none seg
  have hremoved : seg ∉ (db₁.gcFinish .none seg).vlog.files.dir := fun hm => ((hf.dir seg).mp hm).2 rfl rfl
  have hnewer : ∀ id ∈ (db₁.gcFinish .none seg).vlog.files.dir, id ∈ db.vlog.files.dir ∨ seg < id := by
    intro id hid
    rcases hcopies.newer id ((hf.dir id).mp hid).1 with hid | hlt
    · exact Or.inl hid
    · exact Or.inr (hseg.trans hlt)
  have hdata : (db₁.vlog.files.data seg).length = db.liveBytes seg + db.garbage seg := by
    rw [hcopies.data seg hseg, liveBytes_add_garbage hi hd hseg.le]
  refine ⟨hcopies.inv.gcFinish .none hseg₁, hcopies.intact.gcFinish .none seg, ?_, hremoved, fun id hne => ?_, ?_, hnewer,
    fun seg' hc' => ?_⟩
  · rw [← hcopies.options]
    unfold gcFinish gcDelete
    split <;> rfl
  · rw [garbage_gcFinish hcopies.inv hseg₁ hne, hcopies.garbage id hne]
  · have hb := bytes_gcFinish db₁ (hcopies.dir seg hd)
    have := hcopies.bytes
    omega
  · obtain ⟨hd', h5', hlt', -⟩ := gcChoose_eq_some.mp hc'
    rcases hnewer seg' hd' with hin | hlt
    · rcases Nat.lt_or_ge seg' db.vlog.currentFileId with hcur | hcur
      · exact Nat.lt_of_le_of_ne (hmin seg' hin h5' hcur) fun he => hremoved (he ▸ hd')
      · exact Nat.lt_of_lt_of_le hseg hcur
    · exact hlt

/-- A collection that does not rewrite its segment changes nothing. -/
theorem runGC_idle {db : DB} (h : ∀ seg, db.gcChoose = some seg → db.gcDecide (db.gcScanned .none seg) = false) :
    (db.runGC .none).1 = db := by
  rw [runGC]
  cases hc : db.gcChoose with
  | none => rfl
  | some seg =>
    simp only
    rw [gcSegment_undecided (gcChoose_spec hc).1 (h seg hc)]

/-- A segment that is rewritten has garbage, when the test does not hold for segments without any. -/
theorem garbage_pos {db : DB} (hi : db.Intact) (ht : ∀ n, 0 < n → db.options.gcTest n n = false) {seg : Nat}
    (hc : db.gcChoose = some seg) (hdec : db.gcDecide (db.gcScanned .none seg) = true) : 0 < db.garbage seg := by
  obtain ⟨hd, -, hseg, -⟩ := gcChoose_eq_some.mp hc
  have hsum := liveBytes_add_garbage hi hd hseg.le
  rw [gcDecide_none hi hseg.le, Bool.and_eq_true, decide_eq_true_eq] at hdec
  obtain ⟨hne, htest⟩ := hdec
  rw [Nat.pos_iff_ne_zero]
  intro hz
  rw [hz, Nat.add_zero] at hsum
  rw [hsum, ht _ (Nat.pos_of_ne_zero hne)] at htest
  cases htest

/-! ## Collections one after the other -/

/-- The database behind `n` collections. -/
def collected (n : Nat) (db : DB) : DB := (fun db => (db.runGC .none).1)^[n] db

theorem collected_idle {db : DB} (h : (db.runGC .none).1 = db) (n : Nat) : collected n db = db :=
  Function.iterate_fixed h n

/-- The segments were removed, and nothing else of the log changed. -/
structure Cleaned (db db' : DB) (segs : List Nat) : Prop where
  removed : ∀ seg ∈ segs, seg ∉ db'.vlog.files.dir
  garbage : ∀ id ∉ segs, db'.garbage id = db.garbage id
  bytes : db'.vlog.bytes + (segs.map db.garbage).sum = db.vlog.bytes
  newer : ∀ id ∈ db'.vlog.files.dir, id ∈ db.vlog.files.dir ∨ ∃ seg ∈ segs, seg < id

theorem Cleaned.refl (db : DB) : Cleaned db db [] :=
  ⟨fun _ hs => absurd hs List.not_mem_nil, fun _ _ => rfl, rfl, fun _ hid => Or.inl hid⟩

/-- One more segment in front. -/
theorem Cleaned.cons {db db₁ db' : DB} {seg : Nat} {segs : List Nat} (hf : Frees db db₁ seg) (h : Cleaned db₁ db' segs)
    (hlt : ∀ s ∈ segs, seg < s) : Cleaned db db' (seg :: segs) := by
  have hnew : ∀ id ∈ db'.vlog.files.dir, id ∈ db₁.vlog.files.dir ∨ seg < id := by
    intro id hid
    refine (h.newer id hid).imp_right ?_
    rintro ⟨s, hs, hsid⟩
    exact (hlt s hs).trans hsid
  refine ⟨fun s hs => ?_, fun id hid => ?_, ?_, fun id hid => ?_⟩
  · rcases List.mem_cons.mp hs with rfl | hs
    · intro hm
      rcases hnew s hm with hm | hm
      · exact hf.removed hm
      · exact Nat.lt_irrefl _ hm
    · exact h.removed s hs
  · rw [List.mem_cons, not_or] at hid
    rw [h.garbage id hid.2, hf.garbage id hid.1]
  · have hmap : segs.map db.garbage = segs.map db₁.garbage :=
      List.map_congr_left fun s hs => (hf.garbage s (hlt s hs).ne').symm
    have h₁ := h.bytes
    have h₂ := hf.bytes
    rw [List.map_cons, List.sum_cons, hmap]
    omega
  · rcases hnew id hid with hid | hlt
    · exact (hf.newer id hid).imp_right fun hlt => ⟨seg, List.mem_cons_self, hlt⟩
    · exact Or.inr ⟨seg, List.mem_cons_self, hlt⟩

/-- The files with garbage. -/
def dirty (db : DB) : Finset Nat := db.vlog.files.dir.toFinset.filter fun id => 0 < db.garbage id

/-- The segments that collections one after the other remove. -/
structure Settles (db : DB) (segs : List Nat) : Prop where
  first : ∀ seg, segs.head? = some seg → db.gcChoose = some seg
  oldest : segs.Pairwise (· < ·)
  garbage : ∀ seg ∈ segs, 0 < db.garbage seg
  cleaned : ∀ n, Cleaned db (collected n db) (segs.take n)
  settled : ∀ n, segs.length ≤ n → collected n db = collected segs.length db

/-- **Collections one after the other**, by the number of the files with garbage. -/
theorem exists_settles : ∀ (k : Nat) (db : DB), db.Inv → db.Intact → (∀ n, 0 < n → db.options.gcTest n n = false) →
    (dirty db).card < k → ∃ segs, Settles db segs
  | 0, _, _, _, _, hk => absurd hk (Nat.not_lt_zero _)
  | k + 1, db, h, hi, ht, hk => by
    by_cases hidle : ∀ seg, db.gcChoose = some seg → db.gcDecide (db.gcScanned .none seg) = false
    · have hsame := collected_idle (runGC_idle hidle)
      refine ⟨[], fun seg hs => (by cases hs), List.Pairwise.nil, fun seg hs => absurd hs List.not_mem_nil, fun n => ?_,
        fun n _ => (hsame n).trans (hsame 0).symm⟩
      rw [hsame, List.take_nil]
      exact .refl db
    · simp only [not_forall, Bool.not_eq_false] at hidle
      obtain ⟨seg, hc, hdec⟩ := hidle
      have hf := runGC_frees h hi hc hdec
      have hpos := garbage_pos hi ht hc hdec
      have hd := (gcChoose_eq_some.mp hc).1
      -- the segment is not among the files with garbage any more
      have hdirty : (dirty (db.runGC .none).1).card < k := by
        have hsub : dirty (db.runGC .none).1 ⊆ (dirty db).erase seg := by
          intro id hid
          obtain ⟨hin, hg⟩ := Finset.mem_filter.mp hid
          have hne : id ≠ seg := fun he => hf.removed (he ▸ List.mem_toFinset.mp hin)
          rw [hf.garbage id hne] at hg
          refine Finset.mem_erase.mpr ⟨hne, Finset.mem_filter.mpr ⟨List.mem_toFinset.mpr ?_, hg⟩⟩
          by_contra hnot
          rw [DB.garbage, if_neg hnot] at hg
          exact Nat.lt_irrefl _ hg
        have hmem : seg ∈ dirty db := Finset.mem_filter.mpr ⟨List.mem_toFinset.mpr hd, hpos⟩
        have := Finset.card_le_card hsub
        have := Finset.card_erase_add_one hmem
        omega
      obtain ⟨segs, hs⟩ := exists_settles k _ hf.inv hf.intact (by rw [hf.options]; exact ht) hdirty
      have hlt : ∀ s ∈ segs, seg < s := by
        cases segs with
        | nil => exact fun s hs => absurd hs List.not_mem_nil
        | cons t segs =>
          have hfirst := hf.later t (hs.first t rfl)
          intro s hm
          rcases List.mem_cons.mp hm with rfl | hm
          · exact hfirst
          · exact hfirst.trans ((List.pairwise_cons.mp hs.oldest).1 s hm)
      refine ⟨seg :: segs, fun s he => ?_, List.pairwise_cons.mpr ⟨hlt, hs.oldest⟩, fun s hm => ?_, fun n => ?_,
        fun n hn => ?_⟩
      · cases he
        exact hc
      · rcases List.mem_cons.mp hm with rfl | hm
        · exact hpos
        · rw [← hf.garbage s (hlt s hm).ne']
          exact hs.garbage s hm
      · cases n with
        | zero => exact .refl db
        | succ n => exact (hs.cleaned n).cons hf fun s hm => hlt s (List.mem_of_mem_take hm)
      · cases n with
        | zero => exact absurd hn (Nat.not_succ_le_zero _)
        | succ n => exact hs.settled n (Nat.le_of_succ_le_succ hn)

/-- **Collections settle**: with nothing written between them, collections one after the other free the garbage of some
files, the oldest first and each of them wholly, and from then on change nothing. -/
theorem collections_settle {db : DB} (h : db.Inv) (hi : db.Intact) (ht : ∀ n, 0 < n → db.options.gcTest n n = false) :
    ∃ segs, Settles db segs := exists_settles _ db h hi ht (Nat.lt_succ_self _)

/-- Two segments, one of them with garbage only. -/
theorem collections_settle_sample : ∃ segs, Settles
    ((fresh { vlogFileSizeLimit := 1 }).run [.write false [.put [1] [7], .put [1] [8]], .write false [.put [2] [9]]]) segs := by
  have hk := run_spec [.write false [.put [1] [7], .put [1] [8]], .write false [.put [2] [9]]]
    (fresh { vlogFileSizeLimit := 1 }) _ (inv_fresh (by decide)) (settled_fresh _) (intact_fresh _) (refines_fresh _) (by decide)
  refine collections_settle hk.inv (hk.intact (intact_fresh _)) fun n hn => ?_
  rw [hk.options]
  simp [fresh_eq]
  omega

end DB

end SplitKV
