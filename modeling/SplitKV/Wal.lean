import SplitKV.Crc32
import SplitKV.VLog

/-!
# The write-ahead log (`wal.cpp`)

Recovery of a file of whole records, followed by the first bytes of one more, returns exactly the whole records
(`recoverFile_torn`). So it returns from a file that was cut anywhere the records that lie before the cut
(`recover_truncated`).
-/

namespace SplitKV

/-- `WALRecord`. -/
structure WALRecord where
  type : ValueType
  sequence : Nat
  key : Key
  vlogPtr : VLogPointer
  deriving DecidableEq

/-- `WAL`, with its files. -/
structure WAL where
  files : Folder Bytes
  currentId : Nat := 0
  writer : FileWriter := .null

/-- Where `Create` fails: closing the old file or opening the new one. -/
inductive CreateFault
  | none | close | open_
  deriving DecidableEq

namespace WAL

/-- Type, sequence number and payload of a record. -/
def encodeInner (r : WALRecord) : Bytes :=
  r.type.toByte :: (encodeFixed64 r.sequence ++ encodeFixed32 r.key.length ++ r.key ++
    if r.type = .value then
      encodeFixed32 r.vlogPtr.fileId ++ encodeFixed64 r.vlogPtr.offset ++ encodeFixed32 r.vlogPtr.valueSize
    else [])

/-- The length and the inner content, as they are checksummed. -/
def encodeChecksummed (r : WALRecord) : Bytes := encodeFixed32 (encodeInner r).length ++ encodeInner r

/-- The record `AddRecord` writes. -/
def encodeRecord (r : WALRecord) : Bytes := encodeFixed32 (crc32 (encodeChecksummed r)) ++ encodeChecksummed r

/-- `Create`. -/
def create (w : WAL) (walId : Nat) (fault : CreateFault) : WAL × Except Status Unit :=
  if w.writer ≠ .null ∧ fault = .close then ({ w with writer := .closed }, .error (.IOError "fclose"))
  else if fault = .open_ then
    ({ w with currentId := walId, writer := .null }, .error (.IOError "Cannot open file for writing"))
  else ({ w with files := w.files.create walId [], currentId := walId, writer := .opened }, .ok ())

/-- Bytes that reach the current file. -/
def extend (w : WAL) (bytes : Bytes) : WAL :=
  { w with files := w.files.write w.currentId (w.files.data w.currentId ++ bytes) }

/-- `AddRecord`; with `fault = some n` the write or the flush fails after `n` bytes reached the file. -/
def addRecord (w : WAL) (r : WALRecord) (fault : Option Nat) : WAL × Except Status Unit :=
  match w.writer with
  | .null => (w, .error (.IOError "WAL not open for writing"))
  | .closed => (w, .error (.IOError "File not open"))
  | .opened =>
    match fault with
    | some n => (w.extend ((encodeRecord r).take n), .error (.IOError "fwrite"))
    | none => (w.extend (encodeRecord r), .ok ())

/-- `Sync`. -/
def sync (w : WAL) : WAL :=
  if w.writer = .opened then { w with files := w.files.sync w.currentId (w.files.data w.currentId).length } else w

/-- The inner content of a record, when it parses. -/
def parseInner (inner : Bytes) : Option WALRecord :=
  if inner.length < 1 then none
  else
    let p := inner.drop 1
    if p.length < 8 then none
    else
      let seq := decodeFixed64 p
      let p := p.drop 8
      if p.length < 4 then none
      else
        let keyLen := decodeFixed32 p
        let p := p.drop 4
        if p.length < keyLen then none
        else
          let key := p.take keyLen
          let p := p.drop keyLen
          let type := ValueType.ofByte (inner.getD 0 0)
          if type = .value then
            if p.length < 16 then none
            else some ⟨type, seq, key, ⟨decodeFixed32 p, decodeFixed64 (p.drop 4), decodeFixed32 (p.drop 12)⟩⟩
          else some ⟨type, seq, key, ⟨0, 0, 0⟩⟩

/-- The loop of `Recover`: `rest` is what the sequential reader has not read; every iteration reads a header. -/
def recoverLoop (fileSize : Nat) : Nat → Nat → Bytes → List WALRecord
  | 0, _, _ => []
  | fuel + 1, offset, rest =>
    if offset < fileSize then
      if fileSize < offset + 8 then []
      else
        let crcBuf := rest.take 4
        if crcBuf.length < 4 then []
        else
          let lenBuf := (rest.drop 4).take 4
          if lenBuf.length < 4 then []
          else
            let len := decodeFixed32 lenBuf
            if len = 0 ∨ fileSize < offset + 8 + len then []
            else
              let inner := (rest.drop 8).take len
              if inner.length < len then []
              else if crc32 (encodeFixed32 len ++ inner) ≠ decodeFixed32 crcBuf then []
              else
                match parseInner inner with
                | none => []
                | some r => r :: recoverLoop fileSize fuel (offset + 8 + len) (rest.drop (8 + len))
    else []

/-- The records `Recover` reads from the contents of a file. -/
def recoverFile (file : Bytes) : List WALRecord := recoverLoop file.length (file.length + 1) 0 file

/-- `Recover`. -/
def recover (files : Folder Bytes) (walId : Nat) : Except Status (List WALRecord) :=
  if files.has walId then .ok (recoverFile (files.data walId)) else .error (.NotFound "WAL file not found: ")

/-! ## Recovery of whole records -/

/-- A value, or a deletion with the zero pointer, whose fields and whose inner content fit their encodings. -/
structure Encodable (r : WALRecord) : Prop where
  kind : r.type = .value ∨ r.type = .deletion ∧ r.vlogPtr = ⟨0, 0, 0⟩
  sequence : r.sequence < 2 ^ 64
  inner : (encodeInner r).length < 2 ^ 32
  fileId : r.vlogPtr.fileId < 2 ^ 32
  offset : r.vlogPtr.offset < 2 ^ 64
  valueSize : r.vlogPtr.valueSize < 2 ^ 32

/-- A record of `Write` or `RunGC` whose fields fit their encodings. -/
structure Fits (r : WALRecord) : Prop where
  kind : r.type = .value ∨ r.type = .deletion ∧ r.vlogPtr = ⟨0, 0, 0⟩
  sequence : r.sequence < 2 ^ 64
  key : 29 + r.key.length < 2 ^ 32
  fileId : r.vlogPtr.fileId < 2 ^ 32
  offset : r.vlogPtr.offset < 2 ^ 64
  valueSize : r.vlogPtr.valueSize < 2 ^ 32

theorem length_encodeInner_le (r : WALRecord) : (encodeInner r).length ≤ 29 + r.key.length := by
  unfold encodeInner
  simp only [List.length_cons, List.length_append, length_encodeFixed64, length_encodeFixed32]
  split
  · simp only [List.length_append, length_encodeFixed64, length_encodeFixed32]
    omega
  · simp only [List.length_nil]
    omega

theorem length_key_lt (r : WALRecord) : r.key.length < (encodeInner r).length := by
  unfold encodeInner
  simp only [List.length_cons, List.length_append, length_encodeFixed64, length_encodeFixed32]
  omega

theorem Fits.encodable {r : WALRecord} (h : Fits r) : Encodable r :=
  ⟨h.kind, h.sequence, lt_of_le_of_lt (length_encodeInner_le r) h.key, h.fileId, h.offset, h.valueSize⟩

theorem parseInner_encode {r : WALRecord} (h : Encodable r) : parseInner (encodeInner r) = some r := by
  have hkey : r.key.length < 2 ^ 32 := (length_key_lt r).trans h.inner
  obtain ⟨type, seq, key, ptr⟩ := r
  obtain ⟨hk, hs, -, hf, ho, hv⟩ := h
  simp only at hk hs hkey hf ho hv
  rcases hk with rfl | ⟨rfl, rfl⟩
  · have hp : encodeInner ⟨.value, seq, key, ptr⟩ = (0x01 : Byte) :: (encodeFixed64 seq ++ (encodeFixed32 key.length ++
        (key ++ (encodeFixed32 ptr.fileId ++ (encodeFixed64 ptr.offset ++ encodeFixed32 ptr.valueSize))))) := by
      simp [encodeInner, ValueType.toByte]
    have h12 : (encodeFixed32 ptr.fileId ++ (encodeFixed64 ptr.offset ++ encodeFixed32 ptr.valueSize)).drop 12 =
        encodeFixed32 ptr.valueSize := by
      rw [← List.append_assoc]
      exact List.drop_left' rfl
    rw [hp, parseInner]
    simp only [List.length_cons, List.drop_succ_cons, List.drop_zero, drop_encodeFixed64, drop_encodeFixed32, List.take_left, List.drop_left,
      decodeFixed64_encode hs, decodeFixed64_encode ho, decodeFixed32_encode hkey,
      decodeFixed32_encode hf, decodeFixed32_encode' hv, h12, List.length_append, length_encodeFixed32, length_encodeFixed64,
      List.getD_cons_zero, show ValueType.ofByte 0x01 = .value from rfl, if_true]
    rw [if_neg (by omega), if_neg (by omega), if_neg (by omega), if_neg (by omega), if_neg (by omega)]
  · have hp : encodeInner ⟨.deletion, seq, key, ⟨0, 0, 0⟩⟩ =
        (0x02 : Byte) :: (encodeFixed64 seq ++ (encodeFixed32 key.length ++ (key ++ []))) := by
      simp [encodeInner, ValueType.toByte]
    rw [hp, parseInner]
    simp only [List.length_cons, List.drop_succ_cons, List.drop_zero, drop_encodeFixed64, drop_encodeFixed32, List.take_left, List.drop_left,
      decodeFixed64_encode hs, decodeFixed32_encode hkey,
      List.length_append, length_encodeFixed32, length_encodeFixed64, List.getD_cons_zero,
      show ValueType.ofByte 0x02 = .deletion from rfl, reduceCtorEq, if_false]
    rw [if_neg (by omega), if_neg (by omega), if_neg (by omega), if_neg (by omega)]

theorem length_encodeInner_pos (r : WALRecord) : 0 < (encodeInner r).length := by simp [encodeInner]

theorem length_encodeRecord (r : WALRecord) : (encodeRecord r).length = 8 + (encodeInner r).length := by
  simp [encodeRecord, encodeChecksummed]
  omega

theorem encodeRecord_eq (r : WALRecord) : encodeRecord r =
    encodeFixed32 (crc32 (encodeChecksummed r)) ++ (encodeFixed32 (encodeInner r).length ++ encodeInner r) := rfl

/-- One iteration of the recovery over a whole record. -/
theorem recoverLoop_record {r : WALRecord} (h : Encodable r) (fileSize fuel offset : Nat) (post : Bytes)
    (hsize : offset + (encodeRecord r).length ≤ fileSize) :
    recoverLoop fileSize (fuel + 1) offset (encodeRecord r ++ post) =
      r :: recoverLoop fileSize fuel (offset + (encodeRecord r).length) post := by
  have hlt := h.inner
  have hpos := length_encodeInner_pos r
  have htake : (encodeRecord r ++ post).take 4 = encodeFixed32 (crc32 (encodeChecksummed r)) := by
    rw [encodeRecord_eq, List.append_assoc]
    exact List.take_left' rfl
  have hlen : ((encodeRecord r ++ post).drop 4).take 4 = encodeFixed32 (encodeInner r).length := by
    rw [encodeRecord_eq, List.append_assoc, drop_encodeFixed32, List.append_assoc, take_encodeFixed32]
  have hd8 : (encodeRecord r ++ post).drop 8 = encodeInner r ++ post := by
    rw [encodeRecord_eq, ← List.append_assoc, List.append_assoc]
    exact List.drop_left' rfl
  have hdrop : (encodeRecord r ++ post).drop (8 + (encodeInner r).length) = post :=
    List.drop_left' (length_encodeRecord r)
  have hc := decodeFixed32_encode' (crc32_lt (encodeChecksummed r))
  have hl := decodeFixed32_encode' hlt
  rw [length_encodeRecord] at hsize
  rw [recoverLoop]
  simp only [htake, hlen, hd8, hl, hc, List.take_left, hdrop, parseInner_encode h, length_encodeFixed32, Nat.lt_irrefl,
    if_false]
  rw [if_pos (by omega), if_neg (by omega), if_neg (by omega), if_neg (fun hne => hne rfl), length_encodeRecord,
    Nat.add_assoc]

/-- The first bytes of a record are not read. -/
theorem recoverLoop_torn {r : WALRecord} (h : Encodable r) (fuel offset n : Nat) (hn : n < (encodeRecord r).length) :
    recoverLoop (offset + n) fuel offset ((encodeRecord r).take n) = [] := by
  have hlt := h.inner
  rw [length_encodeRecord] at hn
  cases fuel with
  | zero => rfl
  | succ fuel =>
    rw [recoverLoop]
    split
    · split
      · rfl
      · rename_i _ h8
        have hn8 : 8 ≤ n := by omega
        have hlen : (((encodeRecord r).take n).drop 4).take 4 = encodeFixed32 (encodeInner r).length := by
          rw [List.drop_take, List.take_take, Nat.min_eq_left (by omega), encodeRecord_eq, drop_encodeFixed32,
            take_encodeFixed32]
        simp only [hlen, decodeFixed32_encode' hlt]
        split
        · rfl
        · split
          · rfl
          · rw [if_pos (Or.inr (by omega))]
    · rfl

/-- The records of a list, one behind the other. -/
def encodeRecords (rs : List WALRecord) : Bytes := (rs.map encodeRecord).flatten

theorem encodeRecords_append (rs rs' : List WALRecord) :
    encodeRecords (rs ++ rs') = encodeRecords rs ++ encodeRecords rs' := by
  simp [encodeRecords]

theorem recoverLoop_encode (fileSize : Nat) (post : Bytes) : ∀ (rs : List WALRecord) (fuel offset : Nat),
    (∀ r ∈ rs, Encodable r) → offset + (encodeRecords rs).length ≤ fileSize → rs.length ≤ fuel →
    recoverLoop fileSize fuel offset (encodeRecords rs ++ post) =
      rs ++ recoverLoop fileSize (fuel - rs.length) (offset + (encodeRecords rs).length) post
  | [], _, _, _, _, _ => rfl
  | r :: rs, 0, _, _, _, hf => by simp at hf
  | r :: rs, fuel + 1, offset, hr, hs, hf => by
    have hcons : encodeRecords (r :: rs) = encodeRecord r ++ encodeRecords rs := rfl
    rw [hcons, List.length_append] at hs
    rw [hcons, List.append_assoc, recoverLoop_record (hr r List.mem_cons_self) fileSize fuel offset _ (by omega),
      recoverLoop_encode fileSize post rs fuel _ (fun r' h => hr r' (List.mem_cons_of_mem _ h)) (by omega)
        (by simpa using hf), List.cons_append, List.length_append]
    simp [Nat.add_assoc]

theorem length_le_encodeRecords (rs : List WALRecord) : rs.length ≤ (encodeRecords rs).length := by
  induction rs with
  | nil => exact Nat.le_refl _
  | cons r rs ih =>
    have := length_encodeRecord r
    simp only [encodeRecords, List.map_cons, List.flatten_cons, List.length_append, List.length_cons] at ih ⊢
    omega

/-- **Recovery of whole records and the first bytes of one more** returns the whole records. -/
theorem recoverFile_torn {rs : List WALRecord} {r : WALRecord} (hrs : ∀ r ∈ rs, Encodable r) (hr : Encodable r) {n : Nat}
    (hn : n < (encodeRecord r).length) : recoverFile (encodeRecords rs ++ (encodeRecord r).take n) = rs := by
  have hl := length_le_encodeRecords rs
  have hlen : (encodeRecords rs ++ (encodeRecord r).take n).length = 0 + (encodeRecords rs).length + n := by
    rw [List.length_append, List.length_take_of_le hn.le, Nat.zero_add]
  rw [recoverFile, hlen, recoverLoop_encode _ _ rs _ 0 hrs (by omega) (by omega), recoverLoop_torn hr _ _ _ hn,
    List.append_nil]

/-- **Recovery of whole records** returns them. -/
theorem recoverFile_encode {rs : List WALRecord} (hrs : ∀ r ∈ rs, Encodable r) : recoverFile (encodeRecords rs) = rs := by
  have hl := length_le_encodeRecords rs
  have := recoverLoop_encode (encodeRecords rs).length [] rs ((encodeRecords rs).length + 1) 0 hrs (by omega) (by omega)
  rw [List.append_nil] at this
  have hend : ∀ fuel, recoverLoop (encodeRecords rs).length fuel (0 + (encodeRecords rs).length) [] = [] := by
    intro fuel
    cases fuel with
    | zero => rfl
    | succ fuel => simp [recoverLoop]
  rw [recoverFile, this, hend, List.append_nil]

/-! ## Truncated files -/

/-- The records are appended one by one. -/
def addRecords (w : WAL) (rs : List WALRecord) : WAL := rs.foldl (fun w r => (w.addRecord r none).1) w

/-- The file of an open WAL holds the records it was given. -/
theorem data_addRecords : ∀ (rs : List WALRecord) (w : WAL), w.writer = .opened →
    (w.addRecords rs).files.data w.currentId = w.files.data w.currentId ++ encodeRecords rs ∧
      (w.addRecords rs).files.dir = w.files.dir
  | [], w, _ => ⟨(List.append_nil _).symm, rfl⟩
  | r :: rs, w, hw => by
    have hadd : (w.addRecord r none).1 = w.extend (encodeRecord r) := by rw [addRecord, hw]
    obtain ⟨h₁, h₂⟩ := data_addRecords rs (w.extend (encodeRecord r)) hw
    have hself : (w.extend (encodeRecord r)).files.data w.currentId = w.files.data w.currentId ++ encodeRecord r :=
      Folder.data_write_self ..
    have hcons : encodeRecords (r :: rs) = encodeRecord r ++ encodeRecords rs := rfl
    have hstep : w.addRecords (r :: rs) = (w.extend (encodeRecord r)).addRecords rs := by
      rw [addRecords, List.foldl_cons, hadd]
      rfl
    rw [hstep, hcons, ← List.append_assoc, ← hself]
    exact ⟨h₁, h₂⟩

/-- A cut lies behind the last record, or within one record behind whole ones. -/
theorem encodeRecords_take (n : Nat) : ∀ rs : List WALRecord, (encodeRecords rs).length ≤ n ∨
    ∃ kept r rest m, rs = kept ++ r :: rest ∧ m < (encodeRecord r).length ∧ n = (encodeRecords kept).length + m ∧
      (encodeRecords rs).take n = encodeRecords kept ++ (encodeRecord r).take m
  | [] => Or.inl (Nat.zero_le n)
  | r :: rs => by
    have hcons : encodeRecords (r :: rs) = encodeRecord r ++ encodeRecords rs := rfl
    by_cases hn : n < (encodeRecord r).length
    · refine Or.inr ⟨[], r, rs, n, rfl, hn, (Nat.zero_add n).symm, ?_⟩
      rw [hcons, List.take_append_of_le_length hn.le]
      rfl
    · obtain ⟨m, rfl⟩ := Nat.exists_eq_add_of_le (Nat.le_of_not_lt hn)
      rw [hcons, List.length_append]
      rcases encodeRecords_take m rs with hle | ⟨kept, r', rest, k, rfl, hk, rfl, he⟩
      · exact Or.inl (Nat.add_le_add_left hle _)
      · refine Or.inr ⟨r :: kept, r', rest, k, rfl, hk, ?_, ?_⟩
        · rw [show encodeRecords (r :: kept) = encodeRecord r ++ encodeRecords kept from rfl, List.length_append,
            Nat.add_assoc]
        · rw [List.take_length_add_append, he, ← List.append_assoc]
          rfl

/-- The file of some records, and what recovery reads from it, and from other contents of it. -/
theorem recover_written (w : WAL) (walId : Nat) (rs : List WALRecord) :
    let written := ((w.create walId .none).1.addRecords rs).files
    written.data walId = encodeRecords rs ∧ recover written walId = .ok (recoverFile (encodeRecords rs)) ∧
      ∀ bytes, recover (written.write walId bytes) walId = .ok (recoverFile bytes) := by
  intro written
  obtain ⟨hdata, hdir⟩ := data_addRecords rs (w.create walId .none).1 (by simp [create])
  have hcreate : (w.create walId .none).1 =
      { w with files := w.files.create walId [], currentId := walId, writer := .opened } := by simp [create]
  rw [hcreate] at hdata hdir
  simp only [Folder.data_create_self, List.nil_append] at hdata
  have hfile : written.data walId = encodeRecords rs := by
    rw [← hdata, ← hcreate]
  have hhas : written.has walId = true := by
    rw [Folder.has_iff, show written.dir = (w.files.create walId []).dir by rw [← hdir, ← hcreate]]
    exact Folder.mem_dir_create.mpr (Or.inl rfl)
  refine ⟨hfile, by rw [recover, hhas, if_pos rfl, hfile], fun bytes => ?_⟩
  have hhas' : (written.write walId bytes).has walId = true := hhas
  rw [recover, hhas', if_pos rfl, Folder.data_write_self]

/-- **Recovery of a file that was cut anywhere** succeeds with the records that lie before the cut: `kept` ends before
it, and the first of the `rest` does not. -/
theorem recover_truncated (w : WAL) (walId : Nat) {rs : List WALRecord} (hrs : ∀ r ∈ rs, Encodable r) (n : Nat) :
    let written := ((w.create walId .none).1.addRecords rs).files
    ∃ kept rest, rs = kept ++ rest ∧ recover (written.write walId ((written.data walId).take n)) walId = .ok kept ∧
      (encodeRecords kept).length ≤ n ∧ (∀ r ∈ rest.head?, n < (encodeRecords (kept ++ [r])).length) ∧
      recover written walId = .ok rs := by
  intro written
  obtain ⟨hfile, hread, hrec⟩ := recover_written w walId rs
  have hall : recover written walId = .ok rs := by rw [hread, recoverFile_encode hrs]
  rw [hfile, hrec]
  rcases encodeRecords_take n rs with hle | ⟨kept, r, rest, m, rfl, hm, rfl, he⟩
  · refine ⟨rs, [], (List.append_nil rs).symm, ?_, hle, fun r hr => (by cases hr), hall⟩
    rw [List.take_of_length_le hle, recoverFile_encode hrs]
  · refine ⟨kept, r :: rest, rfl, ?_, Nat.le_add_right _ _, fun a ha => ?_, hall⟩
    · have hkept : ∀ a ∈ kept, Encodable a := fun a ha => hrs a (List.mem_append_left _ ha)
      have hr : Encodable r := hrs r (List.mem_append_right _ List.mem_cons_self)
      rw [he, recoverFile_torn hkept hr hm]
    · cases ha
      rw [encodeRecords_append, List.length_append]
      simp only [encodeRecords, List.map_cons, List.map_nil, List.flatten_cons, List.flatten_nil, List.append_nil]
      omega

/-- A file of a value and a deletion, cut within the deletion. -/
theorem recover_truncated_sample :
    let rs : List WALRecord := [⟨.value, 1, [7], ⟨1, 0, 3⟩⟩, ⟨.deletion, 2, [7], ⟨0, 0, 0⟩⟩]
    let written := (((⟨.empty [], 0, .null⟩ : WAL).create 1 .none).1.addRecords rs).files
    ∃ kept rest, rs = kept ++ rest ∧ recover (written.write 1 ((written.data 1).take 50)) 1 = .ok kept ∧
      (encodeRecords kept).length ≤ 50 ∧ (∀ r ∈ rest.head?, 50 < (encodeRecords (kept ++ [r])).length) ∧
      recover written 1 = .ok rs := by
  refine recover_truncated ⟨.empty [], 0, .null⟩ 1 (fun r hr => ?_) 50
  simp only [List.mem_cons, List.not_mem_nil, or_false] at hr
  rcases hr with rfl | rfl
  · exact ⟨Or.inl rfl, by decide, by decide, by decide, by decide, by decide⟩
  · exact ⟨Or.inr ⟨rfl, rfl⟩, by decide, by decide, by decide, by decide, by decide⟩

end WAL

end SplitKV
