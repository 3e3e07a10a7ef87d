import SplitKV.VLog.Pointers

/-!
# The files of a log that was only appended to

Every file of such a log consists of the records appended to it, in order, and the pointer of every one of them has the
length of those in front of it as its offset (`Run.Complete`). So `NewReader` calls its callback with exactly these
records, from the beginning or from any of them, at the offsets that `Append` returned (`Run.scan_agrees`).
-/

namespace SplitKV

namespace VLog

/-! ## The scan with its callback -/

/-- The loop of `NewReader`. The callback has a state of its own; its first failure ends the scan. -/
def scanWith {σ : Type} (callback : ScanRecord → σ → Except Status Unit × σ) (fileSize : Nat) :
    Nat → Nat → Bytes → σ → Except Status Unit × σ
  | 0, _, _, s => (.ok (), s)
  | fuel + 1, offset, rest, s =>
    if offset < fileSize then
      if fileSize < offset + kRecordHeaderSize then (.ok (), s)
      else
        let header := rest.take kRecordHeaderSize
        if header.length < kRecordHeaderSize then (.ok (), s)
        else
          let keyLen := decodeFixed32 (header.drop 5)
          let rest := rest.drop kRecordHeaderSize
          let key := rest.take keyLen
          if key.length < keyLen then (.ok (), s)
          else
            let rest := rest.drop keyLen
            let vlen := rest.take 4
            if vlen.length < 4 then (.ok (), s)
            else
              let valLen := decodeFixed32 vlen
              let rest := rest.drop 4
              let value := rest.take valLen
              if value.length < valLen then (.ok (), s)
              else if crc32 (header.drop 4 ++ key ++ vlen ++ value) ≠ decodeFixed32 header then (.ok (), s)
              else
                match callback ⟨key, value, .ofByte (header.getD 4 0), offset⟩ s with
                | (.error e, s) => (.error e, s)
                | (.ok (), s) => scanWith callback fileSize fuel (offset + recordSize keyLen valLen) (rest.drop valLen) s
    else (.ok (), s)

/-- `NewReader` with its callback. -/
def newReaderWith {σ : Type} (v : VLog) (fileId start : Nat) (callback : ScanRecord → σ → Except Status Unit × σ) (s : σ) :
    Except Status Unit × σ :=
  if v.files.has fileId then
    let file := v.files.data fileId
    scanWith callback file.length (file.length + 1) start (file.drop start) s
  else (.error (.IOError "Cannot open file for reading"), s)

/-- The callback is called with one record after the other, until it fails. -/
def deliver {σ : Type} (callback : ScanRecord → σ → Except Status Unit × σ) : List ScanRecord → σ → Except Status Unit × σ
  | [], s => (.ok (), s)
  | r :: rs, s =>
    match callback r s with
    | (.error e, s) => (.error e, s)
    | (.ok (), s) => deliver callback rs s

/-- A callback that does not fail is called with all of them. -/
theorem deliver_ok {σ : Type} {callback : ScanRecord → σ → Except Status Unit × σ} (h : ∀ r s, (callback r s).1 = .ok ())
    (rs : List ScanRecord) (s : σ) : deliver callback rs s = (.ok (), rs.foldl (fun s r => (callback r s).2) s) := by
  induction rs generalizing s with
  | nil => rfl
  | cons r rs ih =>
    have hr := h r s
    rw [deliver, List.foldl_cons]
    cases hc : callback r s with
    | mk st s' =>
      rw [hc] at hr
      cases hr
      exact ih s'

/-- **The scan delivers what it finds.** -/
theorem scanWith_eq {σ : Type} (callback : ScanRecord → σ → Except Status Unit × σ) (fileSize fuel offset : Nat)
    (rest : Bytes) (s : σ) :
    scanWith callback fileSize fuel offset rest s = deliver callback (scanLoop fileSize fuel offset rest) s := by
  induction fuel generalizing offset rest s with
  | zero => rfl
  | succ fuel ih =>
    rw [scanWith, scanLoop]
    simp only
    split
    · split
      · rfl
      split
      · rfl
      split
      · rfl
      split
      · rfl
      split
      · rfl
      split
      · rfl
      rw [deliver]
      split
      · rfl
      · exact ih _ _ _
    · rfl

theorem newReaderWith_eq {σ : Type} {v : VLog} {fileId : Nat} (h : fileId ∈ v.files.dir) (start : Nat)
    (callback : ScanRecord → σ → Except Status Unit × σ) (s : σ) :
    v.newReaderWith fileId start callback s = deliver callback (scanFile (v.files.data fileId) start) s := by
  rw [newReaderWith, if_pos (Folder.has_iff.mpr h), scanWith_eq]
  rfl

/-! ## Scanning from a record -/

/-- **The scan from the end of some records** delivers the others. -/
theorem scanFile_from {rs rs' : List (ValueType × Bytes × Bytes)} (h : ∀ r ∈ rs', Fits r.2.1 r.2.2) :
    scanFile (encodeRecords (rs ++ rs')) (encodeRecords rs).length = scanned (encodeRecords rs).length rs' := by
  have hl := length_le_encodeRecords rs'
  have he : (encodeRecords (rs ++ rs')).length = (encodeRecords rs).length + (encodeRecords rs').length := by
    rw [encodeRecords_append, List.length_append]
  have hscan := scanLoop_encode (encodeRecords (rs ++ rs')).length rs' ((encodeRecords (rs ++ rs')).length + 1)
    (encodeRecords rs).length [] h (by omega) (by omega)
  have hend : ∀ fuel, scanLoop (encodeRecords (rs ++ rs')).length fuel
      ((encodeRecords rs).length + (encodeRecords rs').length) [] = [] := by
    intro fuel
    cases fuel with
    | zero => rfl
    | succ fuel => simp [scanLoop, he]
  rw [List.append_nil, hend, List.append_nil] at hscan
  rw [scanFile]
  nth_rewrite 3 [encodeRecords_append]
  rw [List.drop_left, hscan]

/-! ## Appends only -/

/-- What an append was given. -/
def Acked.record (a : Acked) : ValueType × Bytes × Bytes := (a.type, a.key, a.value)

/-- What was given and what was returned, as the callback of a scan is to get it. -/
def Acked.scan (a : Acked) : ScanRecord := ⟨a.key, a.value, a.type, a.ptr.offset⟩

namespace Run

/-- The appends to a file, in order. -/
def inFile (s : Run) (id : Nat) : List Acked := s.acked.filter (fun a => a.ptr.fileId = id)

/-- The records are appended to a new log. -/
def appendAll (o : Options) (rs : List (ValueType × Bytes × Bytes)) : Run :=
  (start o).run (rs.map fun r => .append r.2.1 r.2.2 r.1)

/-- Every file holds the records that were appended to it, and nothing else. -/
structure Complete (s : Run) : Prop where
  inv : s.Inv
  ready : s.vlog.Ready
  data : ∀ id, s.vlog.files.data id = encodeRecords ((s.inFile id).map Acked.record)
  offset : ∀ id before a later, s.inFile id = before ++ a :: later →
    a.ptr.offset = (encodeRecords (before.map Acked.record)).length

theorem complete_start (o : Options) : (start o).Complete := by
  have hinv := inv_start o
  have hfiles : (start o).vlog.files = (Folder.empty []).create 1 [] := rfl
  refine ⟨hinv, hinv.writer.resolve_left fun hn => (by cases hn), fun id => ?_, fun id before a later he => ?_⟩
  · rw [hfiles]
    by_cases hid : id = 1
    · rw [hid]
      rfl
    · rw [Folder.data_create_of_ne _ hid]
      rfl
  · cases before <;> cases he

/-- The files of a log behind an append. -/
theorem inFile_append (s : Run) (v : VLog) (a : Acked) (id : Nat) :
    inFile { s with vlog := v, acked := s.acked ++ [a] } id =
      s.inFile id ++ if a.ptr.fileId = id then [a] else [] := by
  rw [inFile, List.filter_append]
  congr 1
  by_cases h : a.ptr.fileId = id
  · rw [if_pos h, List.filter_cons_of_pos (by simpa using h), List.filter_nil]
  · rw [if_neg h, List.filter_cons_of_neg (by simpa using h), List.filter_nil]

/-- **An append** succeeds, and goes behind the records of its file. -/
theorem Complete.append {s : Run} (h : s.Complete) {key value : Bytes} (type : ValueType) (hf : VLog.Fits key value) :
    (s.step (.append key value type)).Complete ∧
      (s.step (.append key value type)).acked.map Acked.record = s.acked.map Acked.record ++ [(type, key, value)] := by
  obtain ⟨v, ptr, he, -, ha⟩ := appended_append s.options h.ready key value type
  have hinv : (s.step (.append key value type)).Inv := h.inv.append hf
  obtain ⟨base, hb, ho, hbase⟩ := ha.new
  have hstep : s.step (.append key value type) = { s with vlog := v, acked := s.acked ++ [⟨type, key, value, ptr⟩] } := by
    rw [step, he]
  rw [hstep] at hinv ⊢
  -- what the file held before
  have hold : base = encodeRecords ((s.inFile ptr.fileId).map Acked.record) := by
    rw [← h.data, ha.fileId]
    rcases hbase with ⟨hc, hd⟩ | ⟨hc, rfl⟩
    · rw [hc, hd]
    · rw [h.data]
      have hnil : s.inFile v.currentFileId = [] := by
        rw [inFile, List.filter_eq_nil_iff]
        intro a hm hid
        have := h.inv.tidy.newest _ (h.inv.acked a hm).file
        simp only [decide_eq_true_eq] at hid
        omega
      rw [hnil]
      rfl
  refine ⟨⟨hinv, ha.ready, fun id => ?_, fun id before a later hsplit => ?_⟩, by simp [Acked.record]⟩
  · rw [inFile_append]
    by_cases hid : ptr.fileId = id
    · subst hid
      rw [if_pos rfl, List.map_append, encodeRecords_append, ← hold, ha.fileId, hb]
      simp [encodeRecords, Acked.record]
    · rw [if_neg hid, List.append_nil, ← h.data, ha.old id (fun hc => hid (by rw [ha.fileId, hc]))]
  · rw [inFile_append] at hsplit
    by_cases hid : ptr.fileId = id
    · subst hid
      rw [if_pos rfl] at hsplit
      rcases List.eq_nil_or_concat later with rfl | ⟨later, b, rfl⟩
      · obtain ⟨h₁, h₂⟩ := List.append_inj' hsplit rfl
        cases h₂
        rw [ho, hold, h₁]
      · have hcut : s.inFile ptr.fileId = before ++ a :: later := by
          rw [List.concat_eq_append, ← List.cons_append, ← List.append_assoc] at hsplit
          exact (List.append_inj' hsplit rfl).1
        exact h.offset _ before a later hcut
    · rw [if_neg hid, List.append_nil] at hsplit
      exact h.offset id before a later hsplit

theorem Complete.appends {s : Run} (h : s.Complete) (rs : List (ValueType × Bytes × Bytes))
    (hf : ∀ r ∈ rs, VLog.Fits r.2.1 r.2.2) :
    (s.run (rs.map fun r => .append r.2.1 r.2.2 r.1)).Complete ∧
      (s.run (rs.map fun r => .append r.2.1 r.2.2 r.1)).acked.map Acked.record = s.acked.map Acked.record ++ rs := by
  induction rs generalizing s with
  | nil => exact ⟨h, (List.append_nil _).symm⟩
  | cons r rs ih =>
    obtain ⟨hc, hacked⟩ := h.append r.1 (hf r List.mem_cons_self)
    obtain ⟨hc', hacked'⟩ := ih hc fun r' hr => hf r' (List.mem_cons_of_mem _ hr)
    refine ⟨hc', hacked'.trans ?_⟩
    rw [hacked, List.append_assoc]
    rfl

/-- **The log behind any appends.** -/
theorem complete_appendAll (o : Options) {rs : List (ValueType × Bytes × Bytes)} (hf : ∀ r ∈ rs, VLog.Fits r.2.1 r.2.2) :
    (appendAll o rs).Complete ∧ (appendAll o rs).acked.map Acked.record = rs :=
  (complete_start o).appends rs hf

/-- What a scan makes of the later records of a file. -/
theorem Complete.scanned {s : Run} (h : s.Complete) (hc : ∀ a ∈ s.acked, a.type.Canonical) {id : Nat} :
    ∀ {before later : List Acked}, s.inFile id = before ++ later →
      VLog.scanned (encodeRecords (before.map Acked.record)).length (later.map Acked.record) = later.map Acked.scan
  | _, [], _ => rfl
  | before, a :: later, he => by
    have ha : a ∈ s.inFile id := he ▸ List.mem_append_right _ List.mem_cons_self
    have htype : ValueType.ofByte a.type.toByte = a.type := hc a (List.mem_filter.mp ha).1
    have he' : s.inFile id = (before ++ [a]) ++ later := by rw [he, List.append_assoc, List.singleton_append]
    have hrest := h.scanned hc he'
    rw [List.map_append, encodeRecords_append, List.length_append] at hrest
    have hlen : (encodeRecords ([a].map Acked.record)).length = 13 + a.key.length + a.value.length := by
      simp [encodeRecords, Acked.record, length_encodeRecord]
    rw [hlen] at hrest
    rw [List.map_cons, List.map_cons, VLog.scanned, ← hrest, Acked.scan, h.offset id before a later he]
    simp only [Acked.record, htype]

/-- **The scan and the pointers agree**: from the beginning of a file, or from any of its records, `NewReader` calls its
callback with the records appended from there on, as they were appended and at the offsets of their pointers, and each of
these pointers reads its record. -/
theorem scan_agrees (o : Options) {rs : List (ValueType × Bytes × Bytes)} (hf : ∀ r ∈ rs, VLog.Fits r.2.1 r.2.2)
    (hc : ∀ r ∈ rs, r.1.Canonical) :
    let s := appendAll o rs
    s.acked.map Acked.record = rs ∧
      (∀ id ∈ s.vlog.files.dir, ∀ before later, s.inFile id = before ++ later → ∀ start,
        start = 0 ∧ before = [] ∨ (∃ a, later.head? = some a ∧ start = a.ptr.offset) →
        ∀ (σ : Type) (callback : ScanRecord → σ → Except Status Unit × σ) (t : σ),
          s.vlog.newReaderWith id start callback t = deliver callback (later.map Acked.scan) t ∧
            ((∀ r t, (callback r t).1 = .ok ()) → s.vlog.newReaderWith id start callback t =
              (.ok (), (later.map Acked.scan).foldl (fun t r => (callback r t).2) t))) ∧
      ∀ a ∈ s.acked, a.ptr.fileId ∈ s.vlog.files.dir ∧
        s.vlog.read ⟨a.ptr.fileId, a.ptr.offset, a.value.length⟩ = .ok (a.key, a.value) := by
  intro s
  obtain ⟨h, hacked⟩ := complete_appendAll o hf
  refine ⟨hacked, fun id hid before later he start hstart σ callback t => ?_, fun a ha => ?_⟩
  · have hrec : ∀ a ∈ s.acked, a.record ∈ rs := fun a ha => hacked ▸ List.mem_map_of_mem ha
    have hstart' : start = (encodeRecords (before.map Acked.record)).length := by
      rcases hstart with ⟨rfl, rfl⟩ | ⟨a, ha, rfl⟩
      · rfl
      · cases later with
        | nil => cases ha
        | cons b later =>
          cases ha
          exact h.offset id before _ later he
    have hlater : ∀ r ∈ later.map Acked.record, VLog.Fits r.2.1 r.2.2 := by
      intro r hr
      obtain ⟨a, ha, rfl⟩ := List.mem_map.mp hr
      have hm : a ∈ s.inFile id := he ▸ List.mem_append_right _ ha
      exact hf _ (hrec a (List.mem_filter.mp hm).1)
    have hscan : scanFile (s.vlog.files.data id) start = later.map Acked.scan := by
      rw [h.data id, he, List.map_append, hstart', scanFile_from hlater]
      exact h.scanned (fun a ha => hc _ (hrec a ha)) he
    have hread : s.vlog.newReaderWith id start callback t = deliver callback (later.map Acked.scan) t := by
      rw [newReaderWith_eq hid, hscan]
    exact ⟨hread, fun hok => by rw [hread, deliver_ok hok]⟩
  · have hin := h.inv.acked a ha
    refine ⟨hin.file, ?_⟩
    rw [← hin.valueSize]
    exact hin.read

/-- Three records in two files, one of them a tombstone with an empty value. -/
theorem scan_agrees_sample :
    let s := appendAll { vlogFileSizeLimit := 30 } [(.value, [1], [7]), (.deletion, [2], []), (.value, [], [8])]
    s.acked.map Acked.record = [(.value, [1], [7]), (.deletion, [2], []), (.value, [], [8])] ∧
      (∀ id ∈ s.vlog.files.dir, ∀ before later, s.inFile id = before ++ later → ∀ start,
        start = 0 ∧ before = [] ∨ (∃ a, later.head? = some a ∧ start = a.ptr.offset) →
        ∀ (σ : Type) (callback : ScanRecord → σ → Except Status Unit × σ) (t : σ),
          s.vlog.newReaderWith id start callback t = deliver callback (later.map Acked.scan) t ∧
            ((∀ r t, (callback r t).1 = .ok ()) → s.vlog.newReaderWith id start callback t =
              (.ok (), (later.map Acked.scan).foldl (fun t r => (callback r t).2) t))) ∧
      ∀ a ∈ s.acked, a.ptr.fileId ∈ s.vlog.files.dir ∧
        s.vlog.read ⟨a.ptr.fileId, a.ptr.offset, a.value.length⟩ = .ok (a.key, a.value) :=
  scan_agrees { vlogFileSizeLimit := 30 } (by decide) (by decide)

end Run

end VLog

end SplitKV
