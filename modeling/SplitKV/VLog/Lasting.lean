import SplitKV.VLog

/-!
# Pointers whose bytes are there

Reading a pointer looks at a header and at as many bytes behind it as the header and the pointer say. When all of them
are in the file, later appends change nothing about what is read (`Lasting.read`). The pointer of an append is such a
pointer, whatever the size of its record (`Appended.lasting`).
-/

namespace SplitKV

namespace VLog

/-- The file holds all bytes that reading the pointer looks at. -/
structure Covers (file : Bytes) (ptr : VLogPointer) : Prop where
  header : ptr.offset + kRecordHeaderSize ≤ file.length
  data : ptr.offset + kRecordHeaderSize +
    (decodeFixed32 ((slice file ptr.offset kRecordHeaderSize).drop 5) + 4 + ptr.valueSize) % 2 ^ 32 ≤ file.length

theorem slice_append_left {file : Bytes} {offset n : Nat} (h : offset + n ≤ file.length) (more : Bytes) :
    slice (file ++ more) offset n = slice file offset n := by
  rw [slice, slice, List.drop_append_of_le_length (by omega), List.take_append_of_le_length (by rw [List.length_drop]; omega)]

theorem Covers.append {file : Bytes} {ptr : VLogPointer} (h : Covers file ptr) (more : Bytes) : Covers (file ++ more) ptr := by
  have hd := h.data
  have hh := h.header
  refine ⟨?_, ?_⟩
  · rw [List.length_append]
    omega
  · rw [slice_append_left hh, List.length_append]
    omega

/-- **Appended bytes change nothing** about what is read. -/
theorem Covers.readRecord {file : Bytes} {ptr : VLogPointer} (h : Covers file ptr) (more : Bytes) :
    VLog.readRecord (file ++ more) ptr = VLog.readRecord file ptr := by
  unfold VLog.readRecord
  simp only [slice_append_left h.header, slice_append_left h.data]

/-- The log grew: besides what `Extends` says, the same files up to the current one can be opened. -/
structure Grew (v v' : VLog) : Prop extends Extends v v' where
  canOpen : ∀ id ≤ v.currentFileId, v'.canOpen id = v.canOpen id

theorem Grew.refl (v : VLog) : Grew v v := ⟨Extends.refl v, fun _ _ => rfl⟩

theorem Grew.trans {v₁ v₂ v₃ : VLog} (h : Grew v₁ v₂) (h' : Grew v₂ v₃) : Grew v₁ v₃ :=
  ⟨h.toExtends.trans h'.toExtends, fun id hid => (h'.canOpen id (hid.trans h.current)).trans (h.canOpen id hid)⟩

theorem Appended.grew {v v' : VLog} {record : Bytes} {ptr : VLogPointer} (h : Appended v record v' ptr) (hr : v.Ready) :
    Grew v v' := by
  refine ⟨h.extends, fun id hid => ?_⟩
  have hdir : id ∈ v'.files.dir ↔ id ∈ v.files.dir := by
    rw [h.dir]
    refine ⟨fun hm => hm.elim (fun he => ?_) fun hm => hm, Or.inr⟩
    have hc : v'.currentFileId = v.currentFileId := by
      have := h.extends.current
      omega
    rw [he, hc]
    exact hr.exists_
  have hhas : v'.files.has id = v.files.has id := by
    rw [Bool.eq_iff_iff, Folder.has_iff, Folder.has_iff, hdir]
  rw [VLog.canOpen, VLog.canOpen, h.readers, hhas]

theorem grew_sync (v : VLog) : Grew v v.sync := by
  refine ⟨extends_sync v, fun id _ => ?_⟩
  unfold sync
  split <;> rfl

/-- Everything that reading the pointer looks at was written. -/
structure Lasting (v : VLog) (ptr : VLogPointer) : Prop where
  fileId : ptr.fileId ≤ v.currentFileId
  covers : Covers (v.files.data ptr.fileId) ptr

theorem Lasting.mono {v v' : VLog} {ptr : VLogPointer} (h : Lasting v ptr) (he : Extends v v') : Lasting v' ptr := by
  obtain ⟨more, hm⟩ := he.data ptr.fileId h.fileId
  exact ⟨h.fileId.trans he.current, hm ▸ h.covers.append more⟩

/-- **What is read stays the same** while the log grows. -/
theorem Lasting.read {v v' : VLog} {ptr : VLogPointer} (h : Lasting v ptr) (hg : Grew v v') : v'.read ptr = v.read ptr := by
  obtain ⟨more, hm⟩ := hg.data ptr.fileId h.fileId
  rw [VLog.read, VLog.read, hg.canOpen _ h.fileId, ← hm, h.covers.readRecord]

theorem decodeFixed32_encode_le (n : Nat) (rest : Bytes) : decodeFixed32 (encodeFixed32 n ++ rest) ≤ n := by
  have hmod : encodeFixed32 n = encodeFixed32 (n % 2 ^ 32) := by
    simp only [encodeFixed32, List.cons.injEq, and_true]
    refine ⟨Fin.ext ?_, Fin.ext ?_, Fin.ext ?_, Fin.ext ?_⟩ <;>
      simp only [val_byte, Nat.shiftRight_eq_div_pow] <;> omega
  rw [hmod, decodeFixed32_encode (Nat.mod_lt _ (Nat.two_pow_pos 32))]
  exact Nat.mod_le _ _

/-- A record covers its pointer. -/
theorem covers_record (type : ValueType) (key value pre post : Bytes) (fileId : Nat) {n : Nat} (hn : n ≤ value.length) :
    Covers (pre ++ (encodeRecord type key value ++ post)) ⟨fileId, pre.length, n⟩ := by
  have hlen := length_encodeRecord type key value
  have hheader : slice (pre ++ (encodeRecord type key value ++ post)) pre.length kRecordHeaderSize =
      encodeHeader type key value := by
    rw [encodeRecord_eq, List.append_assoc, ← length_encodeHeader type key value]
    exact slice_append _ _ _
  have hkey : decodeFixed32 ((encodeHeader type key value).drop 5) ≤ key.length := by
    have hd : (encodeHeader type key value).drop 5 = encodeFixed32 key.length ++ [] := by
      rw [encodeHeader, List.append_nil, List.append_cons]
      exact List.drop_left' (by simp)
    rw [hd]
    exact decodeFixed32_encode_le _ _
  constructor
  · simp only [List.length_append, hlen, kRecordHeaderSize]
    omega
  · simp only [hheader, List.length_append, hlen, kRecordHeaderSize]
    have := Nat.mod_le (decodeFixed32 ((encodeHeader type key value).drop 5) + 4 + n) (2 ^ 32)
    omega

/-- **The pointer of an append** is lasting. -/
theorem Appended.lasting {v v' : VLog} {type : ValueType} {key value : Bytes} {ptr : VLogPointer}
    (h : Appended v (encodeRecord type key value) v' ptr) (hs : ptr.valueSize = value.length % 2 ^ 32) : Lasting v' ptr := by
  obtain ⟨base, hb, ho, -⟩ := h.new
  have hc := covers_record type key value base [] ptr.fileId (hs.le.trans (Nat.mod_le _ _))
  rw [List.append_nil, ← ho] at hc
  exact ⟨h.fileId.le, by rw [h.fileId, hb]; exact hc⟩

theorem Holds.lasting {v : VLog} {ptr : VLogPointer} {key value : Bytes} (h : Holds v ptr key value) : Lasting v ptr := by
  obtain ⟨pre, post, hd, ho⟩ := h.record
  have hc := covers_record .value key value pre post ptr.fileId h.valueSize.le
  rw [← ho] at hc
  exact ⟨h.fileId, hd ▸ hc⟩

end VLog

end SplitKV
