import SplitKV.VLog.Appends

/-!
# The sizes of a record in 32 bits

`Append` narrows the lengths of key and value to 32 bits, and all sums of them are taken in 32 bits. They are the true
ones exactly for the records smaller than 4 GiB (`true_sums_iff`).
-/

namespace SplitKV

namespace VLog

/-- `payload_size`, in `Append`, `Read` and `NewReader`. -/
def payloadSize (keyLen valLen : Nat) : Nat := (1 + 4 + keyLen + 4 + valLen) % 2 ^ 32

/-- `remaining`, in `Read`. -/
def remaining (keyLen valueSize : Nat) : Nat := (keyLen + 4 + valueSize) % 2 ^ 32

/-- **A record is read as it was appended**, and every sum on the way is the true one: `v` before the append, `v'` behind
it. -/
structure TrueSums (o : Options) (v : VLog) (key value : Bytes) (type : ValueType) (v' : VLog) (ptr : VLogPointer) :
    Prop where
  keyLen : decodeFixed32 (((v'.files.data ptr.fileId).drop ptr.offset).drop 5) = key.length
  valLen : decodeFixed32 (((v'.files.data ptr.fileId).drop ptr.offset).drop (kRecordHeaderSize + key.length)) =
    value.length
  recordSize : recordSize (key.length % 2 ^ 32) (value.length % 2 ^ 32) =
    ((v'.files.data ptr.fileId).drop ptr.offset).length
  rotates : v.mustRotate o key value = true ↔ 0 < v.currentOffset ∧
    o.vlogFileSizeLimit < v.currentOffset + ((v'.files.data ptr.fileId).drop ptr.offset).length
  appendPayload : payloadSize (key.length % 2 ^ 32) (value.length % 2 ^ 32) = 9 + key.length + value.length
  remaining : remaining (decodeFixed32 (((v'.files.data ptr.fileId).drop ptr.offset).drop 5)) ptr.valueSize =
    key.length + 4 + value.length
  readPayload : payloadSize (decodeFixed32 (((v'.files.data ptr.fileId).drop ptr.offset).drop 5))
      (decodeFixed32 (((v'.files.data ptr.fileId).drop ptr.offset).drop (kRecordHeaderSize + key.length))) =
    9 + key.length + value.length
  scanSize : VLog.recordSize (decodeFixed32 (((v'.files.data ptr.fileId).drop ptr.offset).drop 5))
      (decodeFixed32 (((v'.files.data ptr.fileId).drop ptr.offset).drop (kRecordHeaderSize + key.length))) =
    ((v'.files.data ptr.fileId).drop ptr.offset).length
  read : ∀ later, readRecord (v'.files.data ptr.fileId ++ later) ptr = .ok (key, value)
  scan : ∀ later, scanFile (v'.files.data ptr.fileId ++ later) ptr.offset =
    ⟨key, value, .ofByte type.toByte, ptr.offset⟩ ::
      scanFile (v'.files.data ptr.fileId ++ later) (v'.files.data ptr.fileId).length

/-- Every iteration of the scan consumes a header, so that it never runs out of fuel. -/
theorem scanLoop_fuel (fileSize : Nat) (fuel fuel' offset : Nat) (rest : Bytes) (h : rest.length < fuel)
    (h' : rest.length < fuel') : scanLoop fileSize fuel offset rest = scanLoop fileSize fuel' offset rest := by
  induction fuel generalizing fuel' offset rest with
  | zero => omega
  | succ fuel ih =>
    cases fuel' with
    | zero => omega
    | succ fuel' =>
      rw [scanLoop, scanLoop]
      simp only
      split
      · split
        · rfl
        split
        · rfl
        rename_i hheader
        rw [List.length_take, kRecordHeaderSize] at hheader
        split
        · rfl
        split
        · rfl
        split
        · rfl
        split
        · rfl
        rw [ih fuel' _ _ (by simp only [List.length_drop]; omega) (by simp only [List.length_drop]; omega)]
      · rfl

/-- **The scan from the place of a record** goes on behind it. -/
theorem scanFile_record {type : ValueType} {key value : Bytes} (h : Fits key value) (pre post : Bytes) :
    scanFile (pre ++ (encodeRecord type key value ++ post)) pre.length =
      ⟨key, value, .ofByte type.toByte, pre.length⟩ ::
        scanFile (pre ++ (encodeRecord type key value ++ post)) (pre ++ encodeRecord type key value).length := by
  have hlen : (pre ++ (encodeRecord type key value ++ post)).length =
      pre.length + (13 + key.length + value.length + post.length) := by
    rw [List.length_append, List.length_append, length_encodeRecord]
  have hstop : (pre ++ encodeRecord type key value).length = pre.length + (13 + key.length + value.length) := by
    rw [List.length_append, length_encodeRecord]
  have hpost : (pre ++ (encodeRecord type key value ++ post)).drop (pre ++ encodeRecord type key value).length = post := by
    rw [← List.append_assoc, List.drop_left]
  rw [scanFile, scanFile, List.drop_left, hpost, hstop, scanLoop_record h _ _ _ _ (by omega)]
  congr 1
  exact scanLoop_fuel _ _ _ _ _ (by omega) (by omega)

/-- **The sums are the true ones** for the records smaller than 4 GiB. -/
theorem Appended.true_sums {o : Options} {v v' : VLog} {key value : Bytes} {type : ValueType} {ptr : VLogPointer}
    (h : Appended v (encodeRecord type key value) v' ptr) (hs : ptr.valueSize = value.length % 2 ^ 32)
    (hf : Fits key value) : TrueSums o v key value type v' ptr := by
  have hfits := hf
  unfold Fits at hfits
  obtain ⟨base, hb, ho, -⟩ := h.new
  have hk : key.length % 2 ^ 32 = key.length := Nat.mod_eq_of_lt (by omega)
  have hv : value.length % 2 ^ 32 = value.length := Nat.mod_eq_of_lt (by omega)
  have hdata : v'.files.data ptr.fileId = base ++ encodeRecord type key value := by rw [h.fileId, hb]
  have hdrop : (v'.files.data ptr.fileId).drop ptr.offset = encodeRecord type key value := by
    rw [hdata, ho, List.drop_left]
  have hptr : ptr = ⟨ptr.fileId, base.length, value.length⟩ := by rw [← ho, ← hv, ← hs]
  have hkey : decodeFixed32 ((encodeRecord type key value).drop 5) = key.length := by
    have hd : (encodeRecord type key value).drop 5 = encodeFixed32 key.length ++ encodeData key value := by
      rw [encodeRecord_eq, encodeHeader, List.append_cons, List.append_assoc]
      exact List.drop_left' (by simp)
    rw [hd, decodeFixed32_encode (by omega)]
  have hval : decodeFixed32 ((encodeRecord type key value).drop (kRecordHeaderSize + key.length)) = value.length := by
    rw [encodeRecord_eq, ← List.drop_drop, List.drop_left' (length_encodeHeader type key value), encodeData, List.drop_left,
      decodeFixed32_encode (by omega)]
  have hpayload : payloadSize key.length value.length = 9 + key.length + value.length := by
    rw [payloadSize, Nat.mod_eq_of_lt (by omega)]
    omega
  refine ⟨?_, ?_, ?_, ?_, ?_, ?_, ?_, ?_, fun later => ?_, fun later => ?_⟩
  · rw [hdrop, hkey]
  · rw [hdrop, hval]
  · rw [hdrop, hk, hv, recordSize_eq hf, length_encodeRecord]
  · rw [hdrop, mustRotate, hk, hv, recordSize_eq hf, length_encodeRecord, Bool.and_eq_true, decide_eq_true_eq,
      decide_eq_true_eq, and_comm]
  · rw [hk, hv, hpayload]
  · rw [hdrop, hkey, hs, hv, VLog.remaining, Nat.mod_eq_of_lt (by omega)]
  · rw [hdrop, hkey, hval, hpayload]
  · rw [hdrop, hkey, hval, recordSize_eq hf, length_encodeRecord]
  · rw [hdata, hptr, List.append_assoc]
    exact readRecord_encode hf base later ptr.fileId
  · rw [hdata, ho, List.append_assoc]
    exact scanFile_record hf base later

/-- The sum that decides: the size of the record. -/
theorem TrueSums.fits {o : Options} {v v' : VLog} {key value : Bytes} {type : ValueType} {ptr : VLogPointer}
    (h : TrueSums o v key value type v' ptr) (ha : Appended v (encodeRecord type key value) v' ptr) : Fits key value := by
  obtain ⟨base, hb, ho, -⟩ := ha.new
  have hsize := h.recordSize
  rw [ha.fileId, hb, ho, List.drop_left, length_encodeRecord, VLog.recordSize] at hsize
  unfold Fits
  rw [← hsize]
  exact Nat.mod_lt _ (by decide)

/-- **When the sums are the true ones**: exactly when the record is smaller than 4 GiB. -/
theorem true_sums_iff {o : Options} {v v' : VLog} {key value : Bytes} {type : ValueType} {fault : AppendFault}
    {ptr : VLogPointer} (ht : v.Tidy)
    (ho : v.mustRotate o key value = false → v.currentOffset = (v.files.data v.currentFileId).length)
    (ha : v.append o key value type fault = (v', .ok ptr)) :
    TrueSums o v key value type v' ptr ↔ 13 + key.length + value.length < 2 ^ 32 := by
  obtain ⟨hs, happ⟩ := ht.appended ho ha
  exact ⟨fun h => h.fits happ, fun hf => happ.true_sums hs hf⟩

/-- A new log is ready. -/
theorem opened_empty : (openLog (.empty [])).Ready ∧ (openLog (.empty [])).Tidy := by
  have hnone : ∀ id ∈ (Folder.empty ([] : Bytes)).dir, 1 ≤ id ∧ id < 100000 := fun id hid => absurd hid List.not_mem_nil
  obtain ⟨hr, ht, -⟩ := openLog_spec hnone
  exact ⟨hr, ht⟩

/-- The first record of a new log. -/
theorem true_sums_sample :
    TrueSums {} (openLog (.empty [])) [1] [7] .value ((openLog (.empty [])).append {} [1] [7] .value .none).1 ⟨1, 0, 1⟩ ↔
      13 + [(1 : Byte)].length + [(7 : Byte)].length < 2 ^ 32 := by
  have ha : (openLog (.empty [])).append {} [1] [7] .value .none =
      (((openLog (.empty [])).append {} [1] [7] .value .none).1, .ok ⟨1, 0, 1⟩) := rfl
  exact true_sums_iff opened_empty.2 (fun _ => rfl) ha

/-- **A value of 2^32 - 4 bytes** under the empty key is accepted, and the size of its record wraps to 9. -/
theorem sums_wrap :
    ∃ v' ptr, (openLog (.empty [])).append {} [] (List.replicate (2 ^ 32 - 4) 0) .value .none = (v', .ok ptr) ∧
      recordSize (([] : Bytes).length % 2 ^ 32) ((List.replicate (2 ^ 32 - 4) (0 : Byte)).length % 2 ^ 32) = 9 ∧
      remaining ([] : Bytes).length ptr.valueSize = 0 ∧
      ¬TrueSums {} (openLog (.empty [])) [] (List.replicate (2 ^ 32 - 4) 0) .value v' ptr := by
  obtain ⟨v', ptr, he, hs, ha⟩ := appended_append {} opened_empty.1 []
    (List.replicate (2 ^ 32 - 4) 0) .value
  rw [List.length_replicate] at hs
  refine ⟨v', ptr, he, ?_, ?_, fun h => ?_⟩
  · rw [List.length_replicate]
    rfl
  · rw [hs]
    rfl
  · have hf := h.fits ha
    unfold Fits at hf
    rw [List.length_replicate] at hf
    exact absurd hf (by decide)

end VLog

end SplitKV
