import SplitKV.VLog.Appends

/-!
# Records that were altered or cut

`Read` takes the lengths from the header and from the pointer. When the header and the place of the record are those of
the record, what it returns is decided by the value length in front of the value, and by the checksum over everything
behind it (`readRecord_fields`). A change of at most four bytes there is seen by one of the two (`Acked.In.read_altered`).
-/

namespace SplitKV

namespace VLog

/-- **What decides a read** behind a header with the key length of the record. -/
theorem readRecord_fields {pre post crc : Bytes} {b : Byte} {data : Bytes} {keyLen valueSize : Nat} (hcrc : crc.length = 4)
    (hfit : keyLen + 4 + valueSize < 2 ^ 32) (hdata : data.length = keyLen + 4 + valueSize) (fileId : Nat) :
    readRecord (pre ++ (crc ++ b :: encodeFixed32 keyLen ++ (data ++ post))) ⟨fileId, pre.length, valueSize⟩ =
      if decodeFixed32 (data.drop keyLen) ≠ valueSize then .error (.Corruption "VLog value size mismatch")
      else if crc32 (b :: encodeFixed32 keyLen ++ data) ≠ decodeFixed32 crc then .error (.Corruption "VLog CRC mismatch")
      else .ok (data.take keyLen, (data.drop (keyLen + 4)).take (decodeFixed32 (data.drop keyLen))) := by
  have hlen : (crc ++ b :: encodeFixed32 keyLen).length = kRecordHeaderSize := by simp [hcrc]
  have hheader : slice (pre ++ (crc ++ b :: encodeFixed32 keyLen ++ (data ++ post))) pre.length kRecordHeaderSize =
      crc ++ b :: encodeFixed32 keyLen := by
    rw [← hlen]
    exact slice_append _ _ _
  have hslice : slice (pre ++ (crc ++ b :: encodeFixed32 keyLen ++ (data ++ post))) (pre.length + kRecordHeaderSize)
      (keyLen + 4 + valueSize) = data := by
    rw [← hlen, ← List.append_assoc, ← List.length_append, ← hdata]
    exact slice_append _ _ _
  have hkey : decodeFixed32 ((crc ++ b :: encodeFixed32 keyLen).drop 5) = keyLen := by
    have hd : (crc ++ b :: encodeFixed32 keyLen).drop 5 = encodeFixed32 keyLen := by
      rw [List.append_cons]
      exact List.drop_left' (by simp [hcrc])
    rw [hd, decodeFixed32_encode' (by omega)]
  have hstored : decodeFixed32 (crc ++ b :: encodeFixed32 keyLen) = decodeFixed32 crc := by
    have h := encodeFixed32_decode hcrc
    have hlt := decodeFixed32_lt crc
    rw [← h, decodeFixed32_encode hlt, decodeFixed32_encode' hlt]
  have hdrop : (crc ++ b :: encodeFixed32 keyLen).drop 4 = b :: encodeFixed32 keyLen := List.drop_left' hcrc
  unfold readRecord
  simp only [hheader, hlen, Nat.lt_irrefl, if_false, hkey, Nat.mod_eq_of_lt hfit, hslice, hdata, hstored, hdrop]

/-- At most four consecutive bytes of a file are changed: in the type of the record, or behind its key length. -/
def Altered (a : Acked) (file file' : Bytes) : Prop :=
  Crc.BurstIn 4 (a.ptr.offset + 4) (a.ptr.offset + 5) file file' ∨
    Crc.BurstIn 4 (a.ptr.offset + kRecordHeaderSize) a.stop file file'

/-- **A burst in the type, or behind the key length**, makes the read fail. -/
theorem Acked.In.read_altered {files : Folder Bytes} {a : Acked} (h : a.In files) {file' : Bytes}
    (hb : Altered a (files.data a.ptr.fileId) file') : ∃ msg, readRecord file' a.ptr = .error (.Corruption msg) := by
  obtain ⟨-, hsize, hfits, pre, post, hd, ho⟩ := h
  have hf := hfits
  unfold Fits at hf
  have hptr : a.ptr = ⟨a.ptr.fileId, pre.length, a.value.length⟩ := by rw [← ho, ← hsize]
  have hcrc := length_encodeFixed32 (crc32 (encodePayload a.type a.key a.value))
  have hstored := decodeFixed32_encode' (crc32_lt (encodePayload a.type a.key a.value))
  have hpayload : encodePayload a.type a.key a.value =
      a.type.toByte :: encodeFixed32 a.key.length ++ encodeData a.key a.value := by
    simp [encodePayload, encodeData]
  rw [hptr]
  rcases hb with hb | hb
  · -- the type: the value length is as it was, so that the checksum is compared
    have hfile : files.data a.ptr.fileId = (pre ++ encodeFixed32 (crc32 (encodePayload a.type a.key a.value))) ++
        ([a.type.toByte] ++ (encodeFixed32 a.key.length ++ (encodeData a.key a.value ++ post))) := by
      rw [hd, encodeRecord, hpayload]
      simp
    rw [hfile, ho, show pre.length + 4 =
        (pre ++ encodeFixed32 (crc32 (encodePayload a.type a.key a.value))).length by simp,
      show pre.length + 5 = (pre ++ encodeFixed32 (crc32 (encodePayload a.type a.key a.value))).length +
        [a.type.toByte].length by simp] at hb
    obtain ⟨m, rfl, hm⟩ := hb.middle
    obtain ⟨b, rfl⟩ := List.length_eq_one_iff.mp (hm.length_eq.trans rfl)
    have hne : crc32 (encodePayload a.type a.key a.value) ≠
        crc32 (b :: encodeFixed32 a.key.length ++ encodeData a.key a.value) := by
      rw [hpayload]
      exact crc32_burst (hm.append_right (encodeFixed32 a.key.length ++ encodeData a.key a.value))
    have hread := @readRecord_fields pre post _ b (encodeData a.key a.value) a.key.length a.value.length hcrc
      (by omega) (length_encodeData _ _) a.ptr.fileId
    simp only [List.append_assoc, List.cons_append, List.nil_append] at hread ⊢
    rw [hread]
    split
    · exact ⟨_, rfl⟩
    · rw [hstored, if_pos (fun he => hne he.symm)]
      exact ⟨_, rfl⟩
  · have hfile : files.data a.ptr.fileId =
        (pre ++ encodeHeader a.type a.key a.value) ++ (encodeData a.key a.value ++ post) := by
      rw [hd, encodeRecord_eq]
      simp
    have hstop : a.stop = (pre ++ encodeHeader a.type a.key a.value).length + (encodeData a.key a.value).length := by
      rw [Acked.stop, ho, encodeRecord_eq]
      simp [Nat.add_assoc]
    rw [hfile, hstop, ho, show pre.length + kRecordHeaderSize = (pre ++ encodeHeader a.type a.key a.value).length by simp]
      at hb
    obtain ⟨m, rfl, hm⟩ := hb.middle
    have hne : crc32 (encodePayload a.type a.key a.value) ≠ crc32 (a.type.toByte :: encodeFixed32 a.key.length ++ m) := by
      rw [hpayload]
      exact crc32_burst (hm.append_left _)
    have hread := @readRecord_fields pre post _ a.type.toByte m a.key.length a.value.length hcrc
      (by omega) (hm.length_eq.trans (length_encodeData _ _)) a.ptr.fileId
    rw [encodeHeader]
    simp only [List.append_assoc, List.cons_append] at hread ⊢
    rw [hread]
    split
    · exact ⟨_, rfl⟩
    · rw [hstored, if_pos (fun he => hne he.symm)]
      exact ⟨_, rfl⟩

/-- **A record that was cut** makes the read fail. -/
theorem Acked.In.read_cut {files : Folder Bytes} {a : Acked} (h : a.In files) {n : Nat} (hn : n < a.stop) :
    ∃ msg, readRecord ((files.data a.ptr.fileId).take n) a.ptr = .error (.Corruption msg) := by
  have hstop := h.stop_le
  obtain ⟨-, hsize, hfits, pre, post, hd, ho⟩ := h
  have hp : pre ++ encodeRecord a.type a.key a.value <+:
      (files.data a.ptr.fileId).take n ++ (files.data a.ptr.fileId).drop n := by
    rw [List.take_append_drop, hd, ← List.append_assoc]
    exact List.prefix_append _ _
  refine readRecord_cut hfits ho hsize hp ?_
  rw [List.length_take_of_le (by omega), hsize]
  rw [Acked.stop, length_encodeRecord] at hn
  omega

namespace Run

/-- **`Read` never returns a corrupted record**: a change of at most four consecutive bytes in the type of a record, or
among its key, value length and value, is reported, and so is a cut within the record. -/
theorem read_corrupted (o : Options) {rs : List (ValueType × Bytes × Bytes)} (hf : ∀ r ∈ rs, VLog.Fits r.2.1 r.2.2) :
    let s := appendAll o rs
    s.acked.map Acked.record = rs ∧
      ∀ a ∈ s.acked, ∀ file',
        (Altered a (s.vlog.files.data a.ptr.fileId) file' →
          ∃ msg, VLog.read { s.vlog with files := s.vlog.files.write a.ptr.fileId file' } a.ptr =
            .error (.Corruption msg)) ∧
        ((∃ n, a.ptr.offset ≤ n ∧ n < a.stop ∧ file' = (s.vlog.files.data a.ptr.fileId).take n) →
          ∃ st, VLog.read { s.vlog with files := s.vlog.files.write a.ptr.fileId file' } a.ptr = .error st) := by
  intro s
  obtain ⟨h, hacked⟩ := complete_appendAll o hf
  refine ⟨hacked, fun a ha file' => ?_⟩
  have hin := h.inv.acked a ha
  have hread : VLog.read { s.vlog with files := s.vlog.files.write a.ptr.fileId file' } a.ptr = readRecord file' a.ptr := by
    have hc : VLog.canOpen { s.vlog with files := s.vlog.files.write a.ptr.fileId file' } a.ptr.fileId = true :=
      canOpen_of_mem hin.file
    rw [VLog.read, if_pos hc]
    simp only [Folder.data_write_self]
  rw [hread]
  constructor
  · exact hin.read_altered
  · rintro ⟨n, -, hn, rfl⟩
    obtain ⟨msg, hmsg⟩ := hin.read_cut hn
    exact ⟨_, hmsg⟩

/-- A value and a tombstone. -/
theorem read_corrupted_sample :
    let s := appendAll {} [(.value, [1], [7, 8]), (.deletion, [2], [])]
    s.acked.map Acked.record = [(.value, [1], [7, 8]), (.deletion, [2], [])] ∧
      ∀ a ∈ s.acked, ∀ file',
        (Altered a (s.vlog.files.data a.ptr.fileId) file' →
          ∃ msg, VLog.read { s.vlog with files := s.vlog.files.write a.ptr.fileId file' } a.ptr =
            .error (.Corruption msg)) ∧
        ((∃ n, a.ptr.offset ≤ n ∧ n < a.stop ∧ file' = (s.vlog.files.data a.ptr.fileId).take n) →
          ∃ st, VLog.read { s.vlog with files := s.vlog.files.write a.ptr.fileId file' } a.ptr = .error st) :=
  read_corrupted {} (by decide)

end Run

end VLog

end SplitKV
