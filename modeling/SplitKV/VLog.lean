import SplitKV.Crc32
import SplitKV.Disk

/-!
# The value log (`vlog.cpp`)

Values live in numbered files of records, each with a checksum over everything behind it. A pointer to a record reads
its key and value back (`readRecord_encode`), wherever the record lies and whatever follows it; a scan of a file of
whole records delivers all of them (`scanLoop_encode`), and stops at the first bytes that are not a whole record.
-/

namespace SplitKV

/-- A `SequentialFileWriter` behind a pointer: the null pointer, a closed file, or an open one. -/
inductive FileWriter
  | null | closed | opened
  deriving DecidableEq

/-- `VLog`, with its files. `readers` are the ids of the cached readers. -/
structure VLog where
  files : Folder Bytes
  currentFileId : Nat := 0
  currentOffset : Nat := 0
  writer : FileWriter := .null
  readers : List Nat := []

/-- Where an append fails: in the sync, the close or the open of a rotation, in the write or the flush of the record
after `n` bytes reached the file, or in the sync of the record. -/
inductive AppendFault
  | none
  | rotateSync
  | rotateClose
  | rotateOpen
  | write (n : Nat)
  | flush (n : Nat)
  | sync
  deriving DecidableEq

/-- `FileSize(path)` bytes from `offset` on, at most `n`. -/
def slice (file : Bytes) (offset n : Nat) : Bytes := (file.drop offset).take n

/-- A record as `NewReader` hands it to its callback. -/
structure ScanRecord where
  key : Bytes
  value : Bytes
  type : ValueType
  offset : Nat
  deriving DecidableEq

namespace VLog

/-- `kRecordHeaderSize`. -/
abbrev kRecordHeaderSize : Nat := 9

/-- `RecordSize`, in `uint32_t`. -/
def recordSize (keyLen valueLen : Nat) : Nat := (4 + 1 + 4 + keyLen + 4 + valueLen) % 2 ^ 32

/-- The record without its checksum. -/
def encodePayload (type : ValueType) (key value : Bytes) : Bytes :=
  type.toByte :: (encodeFixed32 key.length ++ key ++ encodeFixed32 value.length ++ value)

/-- The record `Append` writes. -/
def encodeRecord (type : ValueType) (key value : Bytes) : Bytes :=
  encodeFixed32 (crc32 (encodePayload type key value)) ++ encodePayload type key value

/-- `RecoverFileIds`: the greatest id in the listing, 1 when there is none. -/
def recoverFileIds (files : Folder Bytes) : Nat :=
  let maxId := (files.dir.filterMap (fun id => recoverFileId (vlogFileName id))).foldl max 0
  if maxId = 0 then 1 else maxId

/-- `Open`: the newest file is continued at its end. -/
def openLog (files : Folder Bytes) : VLog :=
  let id := recoverFileIds files
  if files.has id then
    { files := files, currentFileId := id, currentOffset := (files.data id).length, writer := .opened }
  else { files := files.create id [], currentFileId := id, currentOffset := 0, writer := .opened }

/-- The sync of the current file. -/
def syncFile (v : VLog) : VLog :=
  { v with files := v.files.sync v.currentFileId (v.files.data v.currentFileId).length }

/-- `RotateFile`. -/
def rotateFile (v : VLog) (fault : AppendFault) : VLog × Except Status Unit :=
  if v.writer = .closed then (v, .error (.IOError "fsync"))
  else if v.writer = .opened ∧ fault = .rotateSync then (v, .error (.IOError "fsync"))
  else if v.writer = .opened ∧ fault = .rotateClose then
    ({ v.syncFile with writer := .closed }, .error (.IOError "fclose"))
  else
    let v := if v.writer = .opened then v.syncFile else v
    let id := v.currentFileId + 1
    if fault = .rotateOpen then
      ({ v with currentFileId := id, currentOffset := 0, writer := .null },
        .error (.IOError "Cannot open file for writing"))
    else ({ v with files := v.files.create id [], currentFileId := id, currentOffset := 0, writer := .opened }, .ok ())

/-- Bytes that reach the current file. -/
def extend (v : VLog) (bytes : Bytes) : VLog :=
  { v with files := v.files.write v.currentFileId (v.files.data v.currentFileId ++ bytes) }

/-- The part of `Append` behind the rotation. -/
def appendRecord (o : Options) (v : VLog) (key value : Bytes) (type : ValueType) (fault : AppendFault) :
    VLog × Except Status VLogPointer :=
  let record := encodeRecord type key value
  let ptr : VLogPointer := ⟨v.currentFileId, v.currentOffset, value.length % 2 ^ 32⟩
  if v.writer = .closed then (v, .error (.IOError "File not open"))
  else
    match fault with
    | .write n => (v.extend (record.take n), .error (.IOError "fwrite"))
    | .flush n =>
      ({ v.extend (record.take n) with currentOffset := v.currentOffset + record.length }, .error (.IOError "fflush"))
    | fault =>
      let v := { v.extend record with currentOffset := v.currentOffset + record.length }
      if o.syncWrites then
        if fault = .sync then (v, .error (.IOError "fsync")) else (v.syncFile, .ok ptr)
      else (v, .ok ptr)

/-- `Append` starts a new file when the record does not fit into the current one. -/
def mustRotate (o : Options) (v : VLog) (key value : Bytes) : Bool :=
  decide (o.vlogFileSizeLimit < v.currentOffset + recordSize (key.length % 2 ^ 32) (value.length % 2 ^ 32)) &&
    decide (0 < v.currentOffset)

/-- `Append`. -/
def append (o : Options) (v : VLog) (key value : Bytes) (type : ValueType) (fault : AppendFault) :
    VLog × Except Status VLogPointer :=
  if v.writer = .null then (v, .error (.IOError "VLog not open for writing"))
  else if v.mustRotate o key value then
    match v.rotateFile fault with
    | (v, .error s) => (v, .error s)
    | (v, .ok ()) => v.appendRecord o key value type fault
  else v.appendRecord o key value type fault

/-- `Read` once the file is open: key and value of the record. -/
def readRecord (file : Bytes) (ptr : VLogPointer) : Except Status (Bytes × Bytes) :=
  let header := slice file ptr.offset kRecordHeaderSize
  if header.length < kRecordHeaderSize then .error (.Corruption "VLog record header truncated")
  else
    let storedCrc := decodeFixed32 header
    let keyLen := decodeFixed32 (header.drop 5)
    let remaining := (keyLen + 4 + ptr.valueSize) % 2 ^ 32
    let data := slice file (ptr.offset + kRecordHeaderSize) remaining
    if data.length < remaining then .error (.Corruption "VLog record data truncated")
    else
      let valLen := decodeFixed32 (data.drop keyLen)
      if valLen ≠ ptr.valueSize then .error (.Corruption "VLog value size mismatch")
      else if crc32 (header.drop 4 ++ data) ≠ storedCrc then .error (.Corruption "VLog CRC mismatch")
      else .ok (data.take keyLen, (data.drop (keyLen + 4)).take valLen)

/-- `OpenReader` succeeds: the reader is cached, or the file exists. -/
def canOpen (v : VLog) (fileId : Nat) : Bool := v.readers.contains fileId || v.files.has fileId

/-- `OpenReader`. -/
def openReader (v : VLog) (fileId : Nat) : VLog :=
  if v.readers.contains fileId then v
  else if v.files.has fileId then { v with readers := v.readers ++ [fileId] } else v

/-- `Read`. -/
def read (v : VLog) (ptr : VLogPointer) : Except Status (Bytes × Bytes) :=
  if v.canOpen ptr.fileId then readRecord (v.files.data ptr.fileId) ptr
  else .error (.IOError "Cannot open file for reading")

/-- The loop of `NewReader`: `rest` is what the sequential reader has not read; every iteration reads a header. -/
def scanLoop (fileSize : Nat) : Nat → Nat → Bytes → List ScanRecord
  | 0, _, _ => []
  | fuel + 1, offset, rest =>
    if offset < fileSize then
      if fileSize < offset + kRecordHeaderSize then []
      else
        let header := rest.take kRecordHeaderSize
        if header.length < kRecordHeaderSize then []
        else
          let keyLen := decodeFixed32 (header.drop 5)
          let rest := rest.drop kRecordHeaderSize
          let key := rest.take keyLen
          if key.length < keyLen then []
          else
            let rest := rest.drop keyLen
            let vlen := rest.take 4
            if vlen.length < 4 then []
            else
              let valLen := decodeFixed32 vlen
              let rest := rest.drop 4
              let value := rest.take valLen
              if value.length < valLen then []
              else if crc32 (header.drop 4 ++ key ++ vlen ++ value) ≠ decodeFixed32 header then []
              else ⟨key, value, .ofByte (header.getD 4 0), offset⟩ ::
                scanLoop fileSize fuel (offset + recordSize keyLen valLen) (rest.drop valLen)
    else []

/-- The records of a file from `start` on, as `NewReader` finds them. -/
def scanFile (file : Bytes) (start : Nat) : List ScanRecord :=
  scanLoop file.length (file.length + 1) start (file.drop start)

/-- `NewReader`: the records the callback is called with. -/
def newReader (v : VLog) (fileId start : Nat) : Except Status (List ScanRecord) :=
  if v.files.has fileId then .ok (scanFile (v.files.data fileId) start)
  else .error (.IOError "Cannot open file for reading")

/-- `Sync`. -/
def sync (v : VLog) : VLog := if v.writer = .opened then v.syncFile else v

/-- `Close`; without a fault, a writer that is set gets reset, and all readers are closed. -/
def close (v : VLog) : VLog := { v.sync with writer := .null, readers := [] }

/-- `RemoveReader`. -/
def removeReader (v : VLog) (fileId : Nat) : VLog := { v with readers := v.readers.filter (· != fileId) }

/-! ## Records -/

/-- The record is smaller than 4 GiB. -/
def Fits (key value : Bytes) : Prop := 13 + key.length + value.length < 2 ^ 32

instance (key value : Bytes) : Decidable (Fits key value) := inferInstanceAs (Decidable (_ < _))

/-- The first nine bytes of a record. -/
def encodeHeader (type : ValueType) (key value : Bytes) : Bytes :=
  encodeFixed32 (crc32 (encodePayload type key value)) ++ type.toByte :: encodeFixed32 key.length

/-- The bytes behind the header. -/
def encodeData (key value : Bytes) : Bytes := key ++ (encodeFixed32 value.length ++ value)

theorem encodeRecord_eq (type : ValueType) (key value : Bytes) :
    encodeRecord type key value = encodeHeader type key value ++ encodeData key value := by
  simp [encodeRecord, encodeHeader, encodeData, encodePayload]

@[simp] theorem length_encodeHeader (type : ValueType) (key value : Bytes) :
    (encodeHeader type key value).length = kRecordHeaderSize := by
  simp [encodeHeader]

@[simp] theorem length_encodeData (key value : Bytes) : (encodeData key value).length = key.length + 4 + value.length := by
  simp [encodeData]
  omega

theorem length_encodeRecord (type : ValueType) (key value : Bytes) :
    (encodeRecord type key value).length = 13 + key.length + value.length := by
  rw [encodeRecord_eq, List.length_append, length_encodeHeader, length_encodeData, kRecordHeaderSize]
  omega

theorem recordSize_eq {key value : Bytes} (h : Fits key value) :
    recordSize key.length value.length = 13 + key.length + value.length := by
  unfold Fits at h
  rw [recordSize, Nat.mod_eq_of_lt (by omega)]
  omega

theorem decode_header_crc (type : ValueType) (key value : Bytes) :
    decodeFixed32 (encodeHeader type key value) = crc32 (encodePayload type key value) :=
  decodeFixed32_encode (crc32_lt _) _

theorem decode_header_key {type : ValueType} {key value : Bytes} (h : Fits key value) :
    decodeFixed32 ((encodeHeader type key value).drop 5) = key.length := by
  have hd : (encodeHeader type key value).drop 5 = encodeFixed32 key.length ++ [] := by
    rw [encodeHeader, List.append_nil, List.append_cons]
    exact List.drop_left' (by simp)
  unfold Fits at h
  rw [hd, decodeFixed32_encode (by omega)]

theorem header_payload (type : ValueType) (key value : Bytes) :
    (encodeHeader type key value).drop 4 ++ encodeData key value = encodePayload type key value := by
  rw [encodeHeader, List.drop_left' (length_encodeFixed32 _)]
  simp [encodeData, encodePayload]

theorem slice_append (pre mid post : Bytes) : slice (pre ++ (mid ++ post)) pre.length mid.length = mid := by
  rw [slice, List.drop_left, List.take_left]

/-- **A pointer to a record reads it back**, wherever the record lies and whatever follows it. -/
theorem readRecord_encode {type : ValueType} {key value : Bytes} (h : Fits key value) (pre post : Bytes) (fileId : Nat) :
    readRecord (pre ++ (encodeRecord type key value ++ post)) ⟨fileId, pre.length, value.length⟩ = .ok (key, value) := by
  have hf := h
  unfold Fits at hf
  have hheader : slice (pre ++ (encodeRecord type key value ++ post)) pre.length kRecordHeaderSize =
      encodeHeader type key value := by
    rw [encodeRecord_eq, List.append_assoc, ← length_encodeHeader type key value]
    exact slice_append _ _ _
  have hdata : slice (pre ++ (encodeRecord type key value ++ post)) (pre.length + kRecordHeaderSize)
      (key.length + 4 + value.length) = encodeData key value := by
    rw [encodeRecord_eq, List.append_assoc, ← List.append_assoc pre, ← length_encodeData,
      show pre.length + kRecordHeaderSize = (pre ++ encodeHeader type key value).length by simp]
    exact slice_append _ _ _
  have hval : decodeFixed32 ((encodeData key value).drop key.length) = value.length := by
    rw [encodeData, List.drop_left, decodeFixed32_encode (by omega)]
  have hrem : (key.length + 4 + value.length) % 2 ^ 32 = key.length + 4 + value.length := Nat.mod_eq_of_lt (by omega)
  unfold readRecord
  simp only [hheader, decode_header_key h, hrem, hdata, hval, header_payload, decode_header_crc, length_encodeHeader,
    length_encodeData, Nat.lt_irrefl, if_false, ne_eq, not_true_eq_false]
  congr 2
  · rw [encodeData, List.take_left]
  · rw [encodeData, ← List.append_assoc, show key.length + 4 = (key ++ encodeFixed32 value.length).length by simp,
      List.drop_left, List.take_length]

/-- **A pointer with another value size** does not read the record. -/
theorem readRecord_size {type : ValueType} {key value : Bytes} (h : Fits key value) (pre post : Bytes) {ptr : VLogPointer}
    (ho : ptr.offset = pre.length) (hn : ptr.valueSize < 2 ^ 32) {kv : Bytes × Bytes}
    (hr : readRecord (pre ++ (encodeRecord type key value ++ post)) ptr = .ok kv) : ptr.valueSize = value.length := by
  have hf := h
  unfold Fits at hf
  have hheader : slice (pre ++ (encodeRecord type key value ++ post)) ptr.offset kRecordHeaderSize =
      encodeHeader type key value := by
    rw [ho, encodeRecord_eq, List.append_assoc, ← length_encodeHeader type key value]
    exact slice_append _ _ _
  have hdata : ∀ n, slice (pre ++ (encodeRecord type key value ++ post)) (ptr.offset + kRecordHeaderSize) n =
      (encodeData key value ++ post).take n := by
    intro n
    rw [slice, ho, encodeRecord_eq, List.append_assoc, ← List.append_assoc pre,
      show pre.length + kRecordHeaderSize = (pre ++ encodeHeader type key value).length by simp, List.drop_left]
  unfold readRecord at hr
  simp only [hheader, hdata, decode_header_key h] at hr
  split at hr
  · cases hr
  · split at hr
    · cases hr
    · rename_i hlen
      split at hr
      · cases hr
      · rename_i hval
        rw [Nat.not_lt] at hlen
        rw [ne_eq, not_not] at hval
        rw [← hval]
        by_cases hw : key.length + 4 + ptr.valueSize < 2 ^ 32
        · rw [Nat.mod_eq_of_lt hw, encodeData, List.drop_take, List.append_assoc, List.drop_left,
            show key.length + 4 + ptr.valueSize - key.length = 4 + ptr.valueSize by omega, List.append_assoc,
            show 4 + ptr.valueSize = (encodeFixed32 value.length).length + ptr.valueSize from rfl,
            List.take_length_add_append, decodeFixed32_encode (by omega)]
        · -- the number of bytes to read wraps around, so that they end before the value size
          exfalso
          generalize hrem : (key.length + 4 + ptr.valueSize) % 2 ^ 32 = remaining at hval
          have hsum : remaining + 2 ^ 32 = key.length + 4 + ptr.valueSize := by omega
          have hpl : (((encodeData key value ++ post).take remaining).drop key.length).length ≤
              remaining - key.length := by
            rw [List.length_drop]
            exact Nat.sub_le_sub_right (List.length_take_le _ _) _
          generalize ((encodeData key value ++ post).take remaining).drop key.length = p at hval hpl
          cases p with
          | nil =>
            rw [show decodeFixed32 [] = 0 from rfl] at hval
            omega
          | cons b p =>
            have hs := decodeFixed32_short (show (b :: p).length < 4 by omega)
            rw [List.length_cons] at hpl
            omega

/-- **A record that is cut** cannot be read: the header is short, or the header is whole and the data is short. -/
theorem readRecord_cut {file more pre : Bytes} {type : ValueType} {key value : Bytes} {ptr : VLogPointer} (hf : Fits key value)
    (ho : ptr.offset = pre.length) (hs : ptr.valueSize = value.length)
    (hp : pre ++ encodeRecord type key value <+: file ++ more)
    (hlt : file.length < ptr.offset + 13 + key.length + ptr.valueSize) : ∃ msg, readRecord file ptr = .error (.Corruption msg) := by
  obtain ⟨post, hpost⟩ := hp
  unfold readRecord
  simp only
  by_cases hheader : (slice file ptr.offset kRecordHeaderSize).length < kRecordHeaderSize
  · rw [if_pos hheader]
    exact ⟨_, rfl⟩
  · rw [if_neg hheader]
    have hlen : ptr.offset + 9 ≤ file.length := by
      simp only [slice, List.length_take, List.length_drop, kRecordHeaderSize] at hheader
      omega
    -- the header of the file is the header of the record
    have hslice : slice file ptr.offset kRecordHeaderSize = encodeHeader type key value := by
      have h₁ : slice (file ++ more) ptr.offset kRecordHeaderSize = slice file ptr.offset kRecordHeaderSize := by
        rw [slice, slice, List.drop_append_of_le_length (by omega),
          List.take_append_of_le_length (by rw [List.length_drop, kRecordHeaderSize]; omega)]
      rw [← h₁, ← hpost, List.append_assoc, ho, encodeRecord_eq, List.append_assoc,
        ← length_encodeHeader type key value]
      exact slice_append _ _ _
    have hfits := hf
    unfold Fits at hfits
    rw [hslice, decode_header_key hf, hs, Nat.mod_eq_of_lt (by omega)]
    have hshort : (slice file (ptr.offset + kRecordHeaderSize) (key.length + 4 + value.length)).length <
        key.length + 4 + value.length := by
      simp only [slice, List.length_take, List.length_drop, kRecordHeaderSize]
      omega
    rw [if_pos hshort]
    exact ⟨_, rfl⟩

/-! ## The scan -/

/-- One iteration of the scan over a whole record. -/
theorem scanLoop_record {type : ValueType} {key value : Bytes} (h : Fits key value) (fileSize fuel offset : Nat)
    (post : Bytes) (hsize : offset + (13 + key.length + value.length) ≤ fileSize) :
    scanLoop fileSize (fuel + 1) offset (encodeRecord type key value ++ post) =
      ⟨key, value, .ofByte type.toByte, offset⟩ ::
        scanLoop fileSize fuel (offset + (13 + key.length + value.length)) post := by
  have hf := h
  unfold Fits at hf
  have htake : (encodeRecord type key value ++ post).take kRecordHeaderSize = encodeHeader type key value := by
    rw [encodeRecord_eq, List.append_assoc]
    exact List.take_left' (length_encodeHeader _ _ _)
  have hdrop : (encodeRecord type key value ++ post).drop kRecordHeaderSize =
      key ++ (encodeFixed32 value.length ++ (value ++ post)) := by
    rw [encodeRecord_eq, List.append_assoc, List.drop_left' (length_encodeHeader _ _ _), encodeData]
    simp
  have htype : (encodeHeader type key value).getD 4 0 = type.toByte := by
    rw [encodeHeader, List.getD_eq_getElem?_getD, List.getElem?_append_right (by simp)]
    rfl
  have hlen : decodeFixed32 (encodeFixed32 value.length) = value.length := decodeFixed32_encode' (by omega)
  have hcrc : crc32 ((encodeHeader type key value).drop 4 ++ key ++ encodeFixed32 value.length ++ value) =
      crc32 (encodePayload type key value) := by
    rw [← header_payload, encodeData]
    simp
  rw [scanLoop]
  simp only [htake, hdrop, decode_header_key h, List.take_left, List.drop_left, take_encodeFixed32,
    drop_encodeFixed32, hlen, hcrc,
    decode_header_crc, htype, length_encodeHeader, length_encodeFixed32, Nat.lt_irrefl, if_false, ne_eq,
    not_true_eq_false, recordSize_eq h]
  rw [if_pos (by omega), if_neg (by rw [kRecordHeaderSize]; omega)]

/-- The records of a list, one behind the other. -/
def encodeRecords (rs : List (ValueType × Bytes × Bytes)) : Bytes :=
  (rs.map (fun r => encodeRecord r.1 r.2.1 r.2.2)).flatten

/-- What the scan delivers for the records of a list that starts at `offset`. -/
def scanned : Nat → List (ValueType × Bytes × Bytes) → List ScanRecord
  | _, [] => []
  | offset, r :: rs =>
    ⟨r.2.1, r.2.2, .ofByte r.1.toByte, offset⟩ :: scanned (offset + (13 + r.2.1.length + r.2.2.length)) rs

theorem encodeRecords_cons (r : ValueType × Bytes × Bytes) (rs : List (ValueType × Bytes × Bytes)) :
    encodeRecords (r :: rs) = encodeRecord r.1 r.2.1 r.2.2 ++ encodeRecords rs := rfl

/-- **The scan of whole records** delivers all of them, and goes on with what follows. -/
theorem scanLoop_encode (fileSize : Nat) : ∀ (rs : List (ValueType × Bytes × Bytes)) (fuel offset : Nat) (post : Bytes),
    (∀ r ∈ rs, Fits r.2.1 r.2.2) → offset + (encodeRecords rs).length ≤ fileSize → rs.length ≤ fuel →
    scanLoop fileSize fuel offset (encodeRecords rs ++ post) =
      scanned offset rs ++ scanLoop fileSize (fuel - rs.length) (offset + (encodeRecords rs).length) post
  | [], fuel, offset, post, _, _, _ => rfl
  | r :: rs, 0, offset, post, _, _, hf => by simp at hf
  | r :: rs, fuel + 1, offset, post, hr, hs, hf => by
    have hfits := hr r List.mem_cons_self
    rw [encodeRecords_cons, List.length_append, length_encodeRecord] at hs
    rw [encodeRecords_cons, List.append_assoc, scanLoop_record hfits fileSize fuel offset _ (by omega),
      scanLoop_encode fileSize rs fuel _ post (fun r' h => hr r' (List.mem_cons_of_mem _ h)) (by omega) (by simpa using hf),
      scanned, List.cons_append, List.length_append, length_encodeRecord]
    simp [Nat.add_assoc]

/-! ## What an append does -/

/-- The steps of an append, wherever it fails: bytes that reach the current file, a sync, a close that fails, a next file
that cannot be created, and one that can. -/
inductive AppendSteps (v : VLog) : VLog → Prop
  | refl : AppendSteps v v
  | write {u : VLog} (h : AppendSteps v u) (bytes : Bytes) (n : Nat) :
      AppendSteps v { u.extend bytes with currentOffset := n }
  | sync {u : VLog} (h : AppendSteps v u) : AppendSteps v u.syncFile
  | close {u : VLog} (h : AppendSteps v u) : AppendSteps v { u with writer := .closed }
  | next {u : VLog} (h : AppendSteps v u) :
      AppendSteps v { u with currentFileId := u.currentFileId + 1, currentOffset := 0, writer := .null }
  | create {u : VLog} (h : AppendSteps v u) :
      AppendSteps v { u with
        files := u.files.create (u.currentFileId + 1) [], currentFileId := u.currentFileId + 1, currentOffset := 0,
        writer := .opened }

theorem AppendSteps.rotateFile {v u : VLog} (h : AppendSteps v u) (fault : AppendFault) :
    AppendSteps v (u.rotateFile fault).1 := by
  have hsync : AppendSteps v (if u.writer = .opened then u.syncFile else u) := by
    split
    · exact h.sync
    · exact h
  unfold VLog.rotateFile
  split
  · exact h
  split
  · exact h
  split
  · exact h.sync.close
  simp only
  split
  · exact hsync.next
  · exact hsync.create

theorem AppendSteps.appendRecord {v u : VLog} (h : AppendSteps v u) (o : Options) (key value : Bytes) (type : ValueType)
    (fault : AppendFault) : AppendSteps v (u.appendRecord o key value type fault).1 := by
  unfold VLog.appendRecord
  simp only
  split
  · exact h
  · split
    · exact h.write _ u.currentOffset
    · exact h.write _ _
    · split
      · split
        · exact h.write _ _
        · exact (h.write _ _).sync
      · exact h.write _ _

/-- **An append**, wherever it fails. -/
theorem appendSteps_append (o : Options) (v : VLog) (key value : Bytes) (type : ValueType) (fault : AppendFault) :
    AppendSteps v (v.append o key value type fault).1 := by
  unfold append
  split
  · exact AppendSteps.refl
  · split
    · have h := AppendSteps.refl.rotateFile fault (u := v)
      split
      · rename_i he
        rw [he] at h
        exact h
      · rename_i he
        rw [he] at h
        exact h.appendRecord ..
    · exact AppendSteps.refl.appendRecord ..

/-! ## Files only grow -/

/-- The files up to the current one keep what they hold, and no file and no cached reader disappears. -/
structure Extends (v v' : VLog) : Prop where
  current : v.currentFileId ≤ v'.currentFileId
  data : ∀ id ≤ v.currentFileId, v.files.data id <+: v'.files.data id
  dir : ∀ id ∈ v.files.dir, id ∈ v'.files.dir
  readers : ∀ id ∈ v.readers, id ∈ v'.readers

theorem Extends.refl (v : VLog) : Extends v v := ⟨Nat.le_refl _, fun _ _ => List.prefix_refl _, fun _ h => h, fun _ h => h⟩

theorem Extends.trans {v₁ v₂ v₃ : VLog} (h : Extends v₁ v₂) (h' : Extends v₂ v₃) : Extends v₁ v₃ where
  current := h.current.trans h'.current
  data := fun id hid => (h.data id hid).trans (h'.data id (hid.trans h.current))
  dir := fun id hid => h'.dir id (h.dir id hid)
  readers := fun id hid => h'.readers id (h.readers id hid)

theorem canOpen_of_mem {v : VLog} {id : Nat} (h : id ∈ v.files.dir) : v.canOpen id = true := by
  rw [canOpen, Folder.has_iff.mpr h, Bool.or_true]

theorem Extends.canOpen {v v' : VLog} (h : Extends v v') {id : Nat} (hc : v.canOpen id = true) : v'.canOpen id = true := by
  rw [VLog.canOpen, Bool.or_eq_true, List.contains_iff_mem, Folder.has_iff] at hc ⊢
  exact hc.imp (h.readers id) (h.dir id)

theorem extends_syncFile (v : VLog) : Extends v v.syncFile :=
  ⟨Nat.le_refl _, fun _ _ => List.prefix_refl _, fun _ h => h, fun _ h => h⟩

theorem extends_sync (v : VLog) : Extends v v.sync := by
  unfold sync
  split
  · exact extends_syncFile v
  · exact Extends.refl v

theorem extends_openReader (v : VLog) (id : Nat) : Extends v (v.openReader id) := by
  unfold openReader
  split
  · exact Extends.refl v
  · split
    · exact ⟨Nat.le_refl _, fun _ _ => List.prefix_refl _, fun _ h => h, fun _ h => List.mem_append_left _ h⟩
    · exact Extends.refl v

theorem extends_extend (v : VLog) (bytes : Bytes) : Extends v (v.extend bytes) := by
  refine ⟨Nat.le_refl _, fun id _ => ?_, fun _ h => h, fun _ h => h⟩
  unfold extend
  by_cases hid : id = v.currentFileId
  · subst hid
    simp
  · simp [Folder.data_write_of_ne _ hid]

theorem AppendSteps.extends {v u : VLog} (h : AppendSteps v u) : Extends v u := by
  induction h with
  | refl => exact Extends.refl v
  | write _ bytes n ih =>
    obtain ⟨h₁, h₂, h₃, h₄⟩ := ih.trans (extends_extend _ bytes)
    exact ⟨h₁, h₂, h₃, h₄⟩
  | sync _ ih => exact ih.trans (extends_syncFile _)
  | close _ ih => exact ⟨ih.current, ih.data, ih.dir, ih.readers⟩
  | next _ ih => exact ⟨ih.current.trans (Nat.le_succ _), ih.data, ih.dir, ih.readers⟩
  | create _ ih =>
    have hcur := ih.current
    refine ⟨hcur.trans (Nat.le_succ _), fun id hle => ?_, fun id h => Folder.mem_dir_create.mpr (Or.inr (ih.dir id h)),
      ih.readers⟩
    rw [Folder.data_create_of_ne _ (by omega)]
    exact ih.data id hle

/-- **An append only extends the log**, wherever it fails. -/
theorem extends_append (o : Options) (v : VLog) (key value : Bytes) (type : ValueType) (fault : AppendFault) :
    Extends v (v.append o key value type fault).1 := (appendSteps_append o v key value type fault).extends

/-! ## What a pointer denotes -/

/-- The pointer denotes a record of `key` and `value` in a file that was written. -/
structure Holds (v : VLog) (ptr : VLogPointer) (key value : Bytes) : Prop where
  fileId : ptr.fileId ≤ v.currentFileId
  valueSize : ptr.valueSize = value.length
  fits : Fits key value
  record : ∃ pre post, v.files.data ptr.fileId = pre ++ (encodeRecord .value key value ++ post) ∧ ptr.offset = pre.length

/-- **Extending the log keeps what pointers denote.** -/
theorem Holds.mono {v v' : VLog} {ptr : VLogPointer} {key value : Bytes} (h : Holds v ptr key value)
    (he : Extends v v') : Holds v' ptr key value := by
  obtain ⟨pre, post, hd, ho⟩ := h.record
  obtain ⟨more, hm⟩ := he.data ptr.fileId h.fileId
  exact ⟨h.fileId.trans he.current, h.valueSize, h.fits, pre, post ++ more, by rw [← hm, hd]; simp, ho⟩

/-- **Reading a pointer** whose file can be opened. -/
theorem Holds.read {v : VLog} {ptr : VLogPointer} {key value : Bytes} (h : Holds v ptr key value)
    (hc : v.canOpen ptr.fileId = true) : v.read ptr = .ok (key, value) := by
  obtain ⟨pre, post, hd, ho⟩ := h.record
  rw [VLog.read, if_pos hc, hd]
  have hread : readRecord (pre ++ (encodeRecord .value key value ++ post)) ⟨ptr.fileId, pre.length, value.length⟩ =
      .ok (key, value) := readRecord_encode h.fits pre post ptr.fileId
  rwa [← ho, ← h.valueSize] at hread

/-- Whatever a pointer to the place of a record reads is the record. -/
theorem Holds.read_eq {v : VLog} {ptr : VLogPointer} {key value : Bytes} (h : Holds v ptr key value) {n : Nat}
    (hn : n < 2 ^ 32) {kv : Bytes × Bytes} (hr : v.read ⟨ptr.fileId, ptr.offset, n⟩ = .ok kv) :
    n = value.length ∧ kv = (key, value) := by
  obtain ⟨pre, post, hd, ho⟩ := h.record
  have hc : v.canOpen ptr.fileId = true := by
    by_contra hc
    rw [VLog.read, if_neg hc] at hr
    cases hr
  have hsize : n = value.length := by
    have hr' := hr
    rw [VLog.read, if_pos hc, hd] at hr'
    have hs : (⟨ptr.fileId, ptr.offset, n⟩ : VLogPointer).valueSize = value.length :=
      readRecord_size h.fits pre post ho hn hr'
    exact hs
  refine ⟨hsize, ?_⟩
  have hread := h.read hc
  rw [hsize, ← h.valueSize] at hr
  rw [hr] at hread
  exact Except.ok.inj hread

/-- A place holds one record. -/
theorem Holds.unique {v : VLog} {ptr ptr' : VLogPointer} {key value key' value' : Bytes} (h : Holds v ptr key value)
    (h' : Holds v ptr' key' value') (hid : ptr'.fileId = ptr.fileId) (ho : ptr'.offset = ptr.offset) :
    ptr' = ptr ∧ key' = key ∧ value' = value := by
  have hf := h.fits
  have hf' := h'.fits
  obtain ⟨pre, post, hd, hp⟩ := h.record
  obtain ⟨pre', post', hd', hp'⟩ := h'.record
  have hdrop : encodeRecord .value key value ++ post = encodeRecord .value key' value' ++ post' := by
    have h₁ : (v.files.data ptr.fileId).drop ptr.offset = encodeRecord .value key value ++ post := by
      rw [hd, hp, List.drop_left]
    have h₂ : (v.files.data ptr.fileId).drop ptr.offset = encodeRecord .value key' value' ++ post' := by
      rw [← hid, ← ho, hd', hp', List.drop_left]
    rw [← h₁, h₂]
  have hscan : ∀ n, 0 + (13 + key.length + value.length) ≤ n → 0 + (13 + key'.length + value'.length) ≤ n →
      key' = key ∧ value' = value := by
    intro n hn hn'
    have h₁ := (scanLoop_record hf n 0 0 post hn).symm.trans
      (congrArg (scanLoop n 1 0) hdrop |>.trans (scanLoop_record hf' n 0 0 post' hn'))
    have h₂ := (List.cons.inj h₁).1
    exact ⟨(congrArg ScanRecord.key h₂).symm, (congrArg ScanRecord.value h₂).symm⟩
  obtain ⟨hk, hv⟩ := hscan (0 + (13 + key.length + value.length) + (13 + key'.length + value'.length)) (by omega) (by omega)
  have hs : ptr'.valueSize = ptr.valueSize := by rw [h'.valueSize, h.valueSize, hv]
  refine ⟨?_, hk, hv⟩
  cases ptr
  cases ptr'
  simp only at hid ho hs
  rw [hid, ho, hs]

/-- The writer is open at the end of the current file, which exists. -/
structure Ready (v : VLog) : Prop where
  writer : v.writer = .opened
  offset : v.currentOffset = (v.files.data v.currentFileId).length
  exists_ : v.currentFileId ∈ v.files.dir

/-- What a successful append of a record leaves: it lies at the end of the current file, which is the old one or a
new one. -/
structure Appended (v : VLog) (record : Bytes) (v' : VLog) (ptr : VLogPointer) : Prop where
  ready : Ready v'
  fileId : ptr.fileId = v'.currentFileId
  old : ∀ id ≠ v'.currentFileId, v'.files.data id = v.files.data id
  new : ∃ base, v'.files.data v'.currentFileId = base ++ record ∧ ptr.offset = base.length ∧
    (v'.currentFileId = v.currentFileId ∧ base = v.files.data v.currentFileId ∨
      v'.currentFileId = v.currentFileId + 1 ∧ base = [])
  dir : ∀ id, id ∈ v'.files.dir ↔ id = v'.currentFileId ∨ id ∈ v.files.dir
  readers : v'.readers = v.readers

/-- The append behind a rotation. -/
theorem appended_appendRecord (o : Options) {v : VLog} (h : Ready v) (key value : Bytes) (type : ValueType) :
    ∃ v' ptr, v.appendRecord o key value type .none = (v', .ok ptr) ∧ ptr.valueSize = value.length % 2 ^ 32 ∧
      v'.currentFileId = v.currentFileId ∧ Appended v (encodeRecord type key value) v' ptr := by
  have hdir : ∀ id, id ∈ v.files.dir ↔ id = v.currentFileId ∨ id ∈ v.files.dir :=
    fun id => ⟨Or.inr, fun hid => hid.elim (fun he => he ▸ h.exists_) (fun h => h)⟩
  unfold appendRecord
  simp only [h.writer, reduceCtorEq, if_false]
  split
  · refine ⟨_, _, rfl, rfl, rfl, ⟨⟨h.writer, ?_, h.exists_⟩, rfl, fun id hid => ?_, ?_, hdir, rfl⟩⟩
    · simp [syncFile, extend, h.offset]
    · exact Folder.data_write_of_ne _ hid _
    · exact ⟨_, by simp [syncFile, extend], h.offset, Or.inl ⟨rfl, rfl⟩⟩
  · refine ⟨_, _, rfl, rfl, rfl, ⟨⟨h.writer, ?_, h.exists_⟩, rfl, fun id hid => ?_, ?_, hdir, rfl⟩⟩
    · simp [extend, h.offset]
    · exact Folder.data_write_of_ne _ hid _
    · exact ⟨_, by simp [extend], h.offset, Or.inl ⟨rfl, rfl⟩⟩

/-- **An append without a fault** to an open log succeeds; when it does not start a new file, the log must be ready. -/
theorem appended_append_opened (o : Options) {v : VLog} (hw : v.writer = .opened) (key value : Bytes) (type : ValueType)
    (h : v.mustRotate o key value = false → Ready v) :
    ∃ v' ptr, v.append o key value type .none = (v', .ok ptr) ∧ ptr.valueSize = value.length % 2 ^ 32 ∧
      Appended v (encodeRecord type key value) v' ptr := by
  unfold append
  simp only [hw, reduceCtorEq, if_false]
  split
  · -- the record starts a new file
    have hrot : v.rotateFile .none = ({ v.syncFile with
        files := v.syncFile.files.create (v.currentFileId + 1) [], currentFileId := v.currentFileId + 1,
        currentOffset := 0, writer := .opened }, .ok ()) := by
      simp [rotateFile, hw, syncFile]
    rw [hrot]
    simp only
    generalize hu : ({ v.syncFile with
        files := v.syncFile.files.create (v.currentFileId + 1) [], currentFileId := v.currentFileId + 1,
        currentOffset := 0, writer := .opened } : VLog) = u
    have hready : Ready u := by
      subst hu
      exact ⟨rfl, by simp, Folder.mem_dir_create.mpr (Or.inl rfl)⟩
    obtain ⟨v', ptr, he, hv, hc, ha⟩ := appended_appendRecord o hready key value type
    have huc : u.currentFileId = v.currentFileId + 1 := by subst hu; rfl
    refine ⟨v', ptr, he, hv, ha.ready, ha.fileId, fun id hid => ?_, ?_, fun id => ?_, ?_⟩
    · rw [ha.old id hid]
      subst hu
      exact Folder.data_create_of_ne _ (by rw [hc] at hid; exact hid) _
    · obtain ⟨base, hb, ho, hbase⟩ := ha.new
      have hbase : base = u.files.data u.currentFileId := by
        rcases hbase with ⟨-, hb⟩ | ⟨h', -⟩
        · exact hb
        · omega
      refine ⟨base, hb, ho, Or.inr ⟨hc.trans huc, ?_⟩⟩
      rw [hbase]
      subst hu
      simp
    · rw [ha.dir id]
      subst hu
      rw [Folder.mem_dir_create, hc]
      simp [syncFile]
    · rw [ha.readers]
      subst hu
      rfl
  · rename_i hr
    obtain ⟨v', ptr, he, hv, -, ha⟩ := appended_appendRecord o (h (by simpa using hr)) key value type
    exact ⟨v', ptr, he, hv, ha⟩

/-- **An append without a fault** succeeds. -/
theorem appended_append (o : Options) {v : VLog} (h : Ready v) (key value : Bytes) (type : ValueType) :
    ∃ v' ptr, v.append o key value type .none = (v', .ok ptr) ∧ ptr.valueSize = value.length % 2 ^ 32 ∧
      Appended v (encodeRecord type key value) v' ptr :=
  appended_append_opened o h.writer key value type fun _ => h

/-- A fault that did not strike changes nothing: the rotation. -/
theorem rotateFile_of_ok {v : VLog} {fault : AppendFault} (h : (v.rotateFile fault).2 = .ok ()) :
    v.rotateFile fault = v.rotateFile .none := by
  revert h
  unfold rotateFile
  cases hw : v.writer <;> cases fault <;> simp

/-- A fault that did not strike changes nothing: the record. -/
theorem appendRecord_of_ok {o : Options} {v : VLog} {key value : Bytes} {type : ValueType} {fault : AppendFault}
    {ptr : VLogPointer} (h : (v.appendRecord o key value type fault).2 = .ok ptr) :
    v.appendRecord o key value type fault = v.appendRecord o key value type .none := by
  revert h
  unfold appendRecord
  simp only
  split
  · exact fun h => by cases h
  · cases fault <;> cases o.syncWrites <;> simp

/-- **A fault that did not strike changes nothing.** -/
theorem append_of_ok {o : Options} {v : VLog} {key value : Bytes} {type : ValueType} {fault : AppendFault}
    {ptr : VLogPointer} (h : (v.append o key value type fault).2 = .ok ptr) :
    v.append o key value type fault = v.append o key value type .none := by
  revert h
  unfold append
  split
  · exact fun h => by cases h
  · split
    · cases hr : v.rotateFile fault with
      | mk u st =>
        cases st with
        | error s => exact fun h => by cases h
        | ok x =>
          intro h
          have hok : v.rotateFile fault = v.rotateFile .none := rotateFile_of_ok (by rw [hr])
          rw [← hok, hr]
          exact appendRecord_of_ok h
    · exact appendRecord_of_ok

/-- **The pointer of a successful append** denotes what was appended. -/
theorem Appended.holds {v v' : VLog} {key value : Bytes} {ptr : VLogPointer}
    (h : Appended v (encodeRecord .value key value) v' ptr) (hf : Fits key value)
    (hs : ptr.valueSize = value.length % 2 ^ 32) : Holds v' ptr key value := by
  have hlt : value.length < 2 ^ 32 := by
    unfold Fits at hf
    omega
  obtain ⟨base, hb, ho, -⟩ := h.new
  exact ⟨h.fileId.le, hs.trans (Nat.mod_eq_of_lt hlt), hf, base, [], by rw [h.fileId, hb]; simp, ho⟩

theorem Appended.extends {v v' : VLog} {record : Bytes} {ptr : VLogPointer} (h : Appended v record v' ptr) :
    Extends v v' := by
  obtain ⟨base, hb, -, hbase⟩ := h.new
  refine ⟨by omega, fun id hid => ?_, fun id hid => (h.dir id).mpr (Or.inr hid), fun id hid => h.readers ▸ hid⟩
  by_cases he : id = v'.currentFileId
  · rcases hbase with ⟨hc, rfl⟩ | ⟨hc, -⟩
    · rw [he, hb, hc]
      exact List.prefix_append _ _
    · omega
  · rw [h.old id he]

/-- The ids of the files: the current file exists while it is open, and none is newer than it. -/
structure Tidy (v : VLog) : Prop where
  newest : ∀ id ∈ v.files.dir, id ≤ v.currentFileId
  pos : ∀ id ∈ v.files.dir, 1 ≤ id
  opened : v.writer = .opened → v.currentFileId ∈ v.files.dir

theorem Tidy.ready {v : VLog} (h : Tidy v) (hw : v.writer = .opened)
    (ho : v.currentOffset = (v.files.data v.currentFileId).length) : Ready v := ⟨hw, ho, h.opened hw⟩

theorem AppendSteps.tidy {v u : VLog} (h : AppendSteps v u) (ht : Tidy v) : Tidy u := by
  induction h with
  | refl => exact ht
  | write _ _ _ ih => exact ⟨ih.newest, ih.pos, ih.opened⟩
  | sync _ ih => exact ⟨ih.newest, ih.pos, ih.opened⟩
  | close _ ih => exact ⟨ih.newest, ih.pos, fun ho => by cases ho⟩
  | next _ ih => exact ⟨fun id hid => (ih.newest id hid).trans (Nat.le_succ _), ih.pos, fun ho => by cases ho⟩
  | create _ ih =>
    refine ⟨fun id hid => ?_, fun id hid => ?_, fun _ => Folder.mem_dir_create.mpr (Or.inl rfl)⟩
    · rcases Folder.mem_dir_create.mp hid with rfl | hid
      · exact Nat.le_refl _
      · exact (ih.newest id hid).trans (Nat.le_succ _)
    · rcases Folder.mem_dir_create.mp hid with rfl | hid
      · exact Nat.le_add_left 1 _
      · exact ih.pos id hid

/-- **An append keeps the ids of the files in order**, wherever it fails. -/
theorem Tidy.append {v : VLog} (h : Tidy v) (o : Options) (key value : Bytes) (type : ValueType) (fault : AppendFault) :
    Tidy (v.append o key value type fault).1 := (appendSteps_append o v key value type fault).tidy h

/-- **What a successful append leaves** of a log that was at the end of its file, or started a new one. -/
theorem Tidy.appended {o : Options} {v v' : VLog} (h : Tidy v) {key value : Bytes} {type : ValueType} {fault : AppendFault}
    {ptr : VLogPointer} (ho : v.mustRotate o key value = false → v.currentOffset = (v.files.data v.currentFileId).length)
    (ha : v.append o key value type fault = (v', .ok ptr)) :
    ptr.valueSize = value.length % 2 ^ 32 ∧ Appended v (encodeRecord type key value) v' ptr := by
  have hnone := append_of_ok (show (v.append o key value type fault).2 = .ok ptr by rw [ha])
  rw [ha] at hnone
  have hw : v.writer = .opened := by
    cases hw : v.writer with
    | null => simp [VLog.append, hw] at ha
    | closed =>
      exfalso
      unfold VLog.append at ha
      simp only [hw, reduceCtorEq, if_false] at ha
      split at ha
      · simp [VLog.rotateFile, hw] at ha
      · simp [VLog.appendRecord, hw] at ha
    | opened => rfl
  obtain ⟨v₁, ptr₁, he, hs, happ⟩ := appended_append_opened o hw key value type fun hr => h.ready hw (ho hr)
  rw [he] at hnone
  cases hnone
  exact ⟨hs, happ⟩

/-- A record starts within the size limit of a file. -/
theorem append_offset_le {o : Options} {v v' : VLog} {key value : Bytes} {type : ValueType} {fault : AppendFault}
    {ptr : VLogPointer} (ha : v.append o key value type fault = (v', .ok ptr)) : ptr.offset ≤ o.vlogFileSizeLimit := by
  have hrec : ∀ (u u' : VLog), u.appendRecord o key value type fault = (u', .ok ptr) → ptr.offset = u.currentOffset := by
    intro u u' he
    unfold VLog.appendRecord at he
    simp only at he
    split at he
    · cases he
    · split at he
      · cases he
      · cases he
      · split at he
        · split at he
          · cases he
          · cases he
            rfl
        · cases he
          rfl
  unfold VLog.append at ha
  split at ha
  · cases ha
  · split at ha
    · split at ha
      · cases ha
      · rename_i u hr
        rw [hrec u v' ha]
        have h0 : u.currentOffset = 0 := by
          have hok := rotateFile_of_ok (show (v.rotateFile fault).2 = .ok () by rw [hr])
          rw [hr] at hok
          cases hw : v.writer <;> simp [VLog.rotateFile, hw] at hok <;> rw [hok]
        rw [h0]
        exact Nat.zero_le _
    · rename_i hm
      rw [hrec v v' ha]
      simp only [mustRotate, Bool.and_eq_true, decide_eq_true_eq] at hm
      omega

/-! ## Files of whole records -/

/-- The file consists of whole records of values. -/
def Whole (file : Bytes) : Prop :=
  ∃ rs : List (Bytes × Bytes), (∀ r ∈ rs, Fits r.1 r.2) ∧ file = encodeRecords (rs.map (fun r => (.value, r.1, r.2)))

theorem whole_nil : Whole [] := ⟨[], by simp, rfl⟩

theorem encodeRecords_append (rs rs' : List (ValueType × Bytes × Bytes)) :
    encodeRecords (rs ++ rs') = encodeRecords rs ++ encodeRecords rs' := by
  simp [encodeRecords]

theorem Whole.append {file : Bytes} (h : Whole file) {key value : Bytes} (hf : Fits key value) :
    Whole (file ++ encodeRecord .value key value) := by
  obtain ⟨rs, hrs, rfl⟩ := h
  refine ⟨rs ++ [(key, value)], fun r hr => ?_, ?_⟩
  · rcases List.mem_append.mp hr with hr | hr
    · exact hrs r hr
    · rw [List.mem_singleton.mp hr]
      exact hf
  · rw [List.map_append, encodeRecords_append]
    simp [encodeRecords]

theorem length_le_encodeRecords (rs : List (ValueType × Bytes × Bytes)) : rs.length ≤ (encodeRecords rs).length := by
  induction rs with
  | nil => exact Nat.le_refl _
  | cons r rs ih =>
    rw [encodeRecords_cons, List.length_append, List.length_cons, length_encodeRecord]
    omega

/-- The scan of whole records from the start. -/
theorem scanFile_encode {rs : List (ValueType × Bytes × Bytes)} (h : ∀ r ∈ rs, Fits r.2.1 r.2.2) :
    scanFile (encodeRecords rs) 0 = scanned 0 rs := by
  have hl := length_le_encodeRecords rs
  have := scanLoop_encode (encodeRecords rs).length rs ((encodeRecords rs).length + 1) 0 [] h (by omega) (by omega)
  rw [List.append_nil] at this
  have hend : ∀ fuel, scanLoop (encodeRecords rs).length fuel (0 + (encodeRecords rs).length) [] = [] := by
    intro fuel
    cases fuel with
    | zero => rfl
    | succ fuel => simp [scanLoop]
  rw [scanFile, List.drop_zero, this, hend, List.append_nil]

theorem scanned_append (offset : Nat) (rs rs' : List (ValueType × Bytes × Bytes)) :
    scanned offset (rs ++ rs') = scanned offset rs ++ scanned (offset + (encodeRecords rs).length) rs' := by
  induction rs generalizing offset with
  | nil => rfl
  | cons r rs ih =>
    rw [List.cons_append, scanned, ih, scanned, encodeRecords_cons, List.length_append, length_encodeRecord]
    simp [Nat.add_assoc]

/-- **Appending a record to whole records** adds it to what the scan delivers. -/
theorem scanFile_append {file : Bytes} (h : Whole file) {key value : Bytes} (hf : Fits key value) :
    scanFile (file ++ encodeRecord .value key value) 0 = scanFile file 0 ++ [⟨key, value, .value, file.length⟩] := by
  obtain ⟨rs, hrs, rfl⟩ := h
  have hfits : ∀ r ∈ rs.map (fun r => (ValueType.value, r.1, r.2)), Fits r.2.1 r.2.2 := by
    intro r hr
    obtain ⟨r', hr', rfl⟩ := List.mem_map.mp hr
    exact hrs r' hr'
  have he : encodeRecords (rs.map (fun r => (ValueType.value, r.1, r.2))) ++ encodeRecord .value key value =
      encodeRecords (rs.map (fun r => (ValueType.value, r.1, r.2)) ++ [(.value, key, value)]) := by
    rw [encodeRecords_append]
    simp [encodeRecords]
  rw [he, scanFile_encode hfits, scanFile_encode, scanned_append]
  · simp [scanned]
  · intro r hr
    rcases List.mem_append.mp hr with hr | hr
    · exact hfits r hr
    · rw [List.mem_singleton.mp hr]
      exact hf

end VLog

end SplitKV
