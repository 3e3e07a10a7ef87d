import SplitKV.Wal

/-!
# Altered records in the write-ahead log

A change of at most four consecutive bytes in the body of a record changes its checksum, so that recovery stops in front
of it. The records in front of it are recovered unless the length of one of them does not fit its field, which no
recovered record can have (`small_of_mem`).
-/

namespace SplitKV

/-- The fields of a record fit their types in the source, and the type is one of the two of the format. -/
structure WALRecord.Typed (r : WALRecord) : Prop where
  kind : r.type = .value ∨ r.type = .deletion
  sequence : r.sequence < 2 ^ 64
  fileId : r.vlogPtr.fileId < 2 ^ 32
  offset : r.vlogPtr.offset < 2 ^ 64
  valueSize : r.vlogPtr.valueSize < 2 ^ 32

/-- What a record says: its pointer is only valid for a `Put`. -/
def WALRecord.content (r : WALRecord) : WALRecord := if r.type = .value then r else { r with vlogPtr := ⟨0, 0, 0⟩ }

namespace WAL

theorem encodeInner_content (r : WALRecord) : encodeInner r.content = encodeInner r := by
  unfold WALRecord.content
  split
  · rfl
  · rename_i h
    simp [encodeInner, h]

theorem encodeRecord_content (r : WALRecord) : encodeRecord r.content = encodeRecord r := by
  rw [encodeRecord, encodeRecord, encodeChecksummed, encodeChecksummed, encodeInner_content]

theorem encodeRecords_content (rs : List WALRecord) : encodeRecords (rs.map WALRecord.content) = encodeRecords rs := by
  simp [encodeRecords, Function.comp_def, encodeRecord_content]

/-- A record whose body is shorter than 4 GiB is read back. -/
theorem encodable_content {r : WALRecord} (h : r.Typed) (hs : (encodeInner r).length < 2 ^ 32) : Encodable r.content := by
  refine ⟨?_, ?_, encodeInner_content r ▸ hs, ?_, ?_, ?_⟩ <;> unfold WALRecord.content <;> split
  · rename_i hv
    exact Or.inl hv
  · rename_i hv
    exact Or.inr ⟨h.kind.resolve_left hv, rfl⟩
  · exact h.sequence
  · exact h.sequence
  · exact h.fileId
  · exact Nat.two_pow_pos 32
  · exact h.offset
  · exact Nat.two_pow_pos 64
  · exact h.valueSize
  · exact Nat.two_pow_pos 32

/-! ## What recovery returns fits its length field -/

theorem length_encodeInner (r : WALRecord) :
    (encodeInner r).length = 13 + r.key.length + if r.type = .value then 16 else 0 := by
  unfold encodeInner
  split <;> simp only [List.length_cons, List.length_append, length_encodeFixed64, length_encodeFixed32, List.length_nil] <;>
    omega

/-- A body that parses holds the whole record. -/
theorem length_of_parseInner {inner : Bytes} {r : WALRecord} (h : parseInner inner = some r) :
    (encodeInner r).length ≤ inner.length := by
  rw [length_encodeInner]
  unfold parseInner at h
  split at h
  · cases h
  simp only [List.drop_drop, List.length_drop] at h
  split at h
  · cases h
  split at h
  · cases h
  split at h
  · cases h
  rename_i hkey
  split at h
  · rename_i htype
    split at h
    · cases h
    · cases h
      rw [if_pos htype]
      simp only [List.length_take, List.length_drop]
      omega
  · rename_i htype
    cases h
    rw [if_neg htype]
    simp only [List.length_take, List.length_drop]
    omega

/-- **Every recovered record** has a body shorter than 4 GiB. -/
theorem small_of_mem {fileSize fuel offset : Nat} {rest : Bytes} {r : WALRecord}
    (h : r ∈ recoverLoop fileSize fuel offset rest) : (encodeInner r).length < 2 ^ 32 := by
  induction fuel generalizing offset rest with
  | zero => cases h
  | succ fuel ih =>
    rw [recoverLoop] at h
    simp only at h
    split at h
    · split at h
      · cases h
      split at h
      · cases h
      split at h
      · cases h
      split at h
      · cases h
      split at h
      · cases h
      split at h
      · cases h
      split at h
      · cases h
      · rename_i r' hp
        rcases List.mem_cons.mp h with rfl | h
        · have hlen := length_of_parseInner hp
          rw [List.length_take] at hlen
          exact lt_of_le_of_lt (hlen.trans (Nat.min_le_left _ _)) (decodeFixed32_lt _)
        · exact ih h
    · cases h

/-! ## One altered record -/

/-- The header of a record: the checksum and the length. -/
def encodeHeader (r : WALRecord) : Bytes :=
  encodeFixed32 (crc32 (encodeChecksummed r)) ++ encodeFixed32 (encodeInner r).length

theorem encodeRecord_header (r : WALRecord) : encodeRecord r = encodeHeader r ++ encodeInner r := by
  rw [encodeRecord_eq, encodeHeader, List.append_assoc]

/-- The length field delimits a body that has the stored checksum and parses. -/
def Passes (r : WALRecord) (body : Bytes) : Prop :=
  let len := (encodeInner r).length % 2 ^ 32
  len ≠ 0 ∧ crc32 (encodeFixed32 len ++ body.take len) = crc32 (encodeChecksummed r) ∧
    (parseInner (body.take len)).isSome

theorem encodeFixed32_mod (v : Nat) : encodeFixed32 (v % 2 ^ 32) = encodeFixed32 v := by
  simp only [encodeFixed32, List.cons.injEq, and_true]
  refine ⟨?_, ?_, ?_, ?_⟩ <;> apply Fin.ext <;> simp only [val_byte, Nat.shiftRight_eq_div_pow] <;> omega

theorem decodeFixed32_encode_mod (v : Nat) : decodeFixed32 (encodeFixed32 v) = v % 2 ^ 32 := by
  rw [← encodeFixed32_mod, decodeFixed32_encode' (Nat.mod_lt _ (by decide))]

/-- **One iteration over a record with another body** stops there, unless the body passes. -/
theorem recoverLoop_altered {r : WALRecord} {body : Bytes} (hl : body.length = (encodeInner r).length)
    (fileSize fuel offset : Nat) (post : Bytes) (hsize : offset + 8 + body.length ≤ fileSize) :
    recoverLoop fileSize (fuel + 1) offset (encodeHeader r ++ (body ++ post)) = [] ↔ ¬Passes r body := by
  have htake : (encodeHeader r ++ (body ++ post)).take 4 = encodeFixed32 (crc32 (encodeChecksummed r)) := by
    rw [encodeHeader, List.append_assoc]
    exact List.take_left' rfl
  have hlen : ((encodeHeader r ++ (body ++ post)).drop 4).take 4 = encodeFixed32 (encodeInner r).length := by
    rw [encodeHeader, List.append_assoc, drop_encodeFixed32, take_encodeFixed32]
  have hd8 : (encodeHeader r ++ (body ++ post)).drop 8 = body ++ post := List.drop_left' rfl
  have hle : (encodeInner r).length % 2 ^ 32 ≤ body.length := hl ▸ Nat.mod_le _ _
  rw [recoverLoop]
  simp only [htake, hlen, hd8, decodeFixed32_encode_mod, decodeFixed32_encode' (crc32_lt (encodeChecksummed r)),
    length_encodeFixed32, Nat.lt_irrefl, if_false, List.take_append_of_le_length hle, List.length_take, Passes,
    Nat.min_eq_left hle]
  rw [if_pos (by omega), if_neg (by omega)]
  by_cases h0 : (encodeInner r).length % 2 ^ 32 = 0
  · rw [if_pos (Or.inl h0)]
    exact iff_of_true rfl fun h => h.1 h0
  · rw [if_neg (fun h => h.elim h0 fun hlt => by omega)]
    by_cases hc : crc32 (encodeFixed32 ((encodeInner r).length % 2 ^ 32) ++
        body.take ((encodeInner r).length % 2 ^ 32)) = crc32 (encodeChecksummed r)
    · rw [if_neg (fun h => h hc)]
      cases hp : parseInner (body.take ((encodeInner r).length % 2 ^ 32)) with
      | none => exact iff_of_true rfl fun h => by simp at h
      | some r' => exact iff_of_false (by simp) fun h => h ⟨h0, hc, rfl⟩
    · rw [if_pos hc]
      exact iff_of_true rfl fun h => hc h.2.1

/-- A burst in a body whose length fits its field does not pass. -/
theorem not_passes {r : WALRecord} {body : Bytes} (hs : (encodeInner r).length < 2 ^ 32)
    (hb : Crc.Burst 4 (encodeInner r) body) : ¬Passes r body := by
  rintro ⟨-, hc, -⟩
  rw [Nat.mod_eq_of_lt hs, List.take_of_length_le hb.length_eq.le] at hc
  exact crc32_burst (hb.append_left (encodeFixed32 (encodeInner r).length)) hc.symm

/-- The file behind the records in front of the altered one. -/
theorem recoverFile_altered {pre post : List WALRecord} {r : WALRecord} {body : Bytes} (hpre : ∀ x ∈ pre, x.Typed)
    (hl : body.length = (encodeInner r).length) (hs : ∀ x ∈ pre, (encodeInner x).length < 2 ^ 32) :
    recoverFile (encodeRecords pre ++ (encodeHeader r ++ (body ++ encodeRecords post))) =
      pre.map WALRecord.content ↔ ¬Passes r body := by
  have hhead : (encodeHeader r).length = 8 := rfl
  have hfuel := length_le_encodeRecords pre
  have hlen : (encodeRecords pre ++ (encodeHeader r ++ (body ++ encodeRecords post))).length =
      (encodeRecords pre).length + 8 + body.length + (encodeRecords post).length := by
    simp only [List.length_append, hhead]
    omega
  have henc : ∀ x ∈ pre.map WALRecord.content, Encodable x := by
    intro x hx
    obtain ⟨y, hy, rfl⟩ := List.mem_map.mp hx
    exact encodable_content (hpre y hy) (hs y hy)
  have hloop := recoverLoop_encode (encodeRecords pre ++ (encodeHeader r ++ (body ++ encodeRecords post))).length
    (encodeHeader r ++ (body ++ encodeRecords post)) (pre.map WALRecord.content)
    ((encodeRecords pre ++ (encodeHeader r ++ (body ++ encodeRecords post))).length + 1) 0 henc
    (by rw [encodeRecords_content]; omega) (by rw [List.length_map]; omega)
  rw [encodeRecords_content, List.length_map, Nat.zero_add] at hloop
  obtain ⟨n, hn⟩ : ∃ n, (encodeRecords pre ++ (encodeHeader r ++ (body ++ encodeRecords post))).length + 1 - pre.length =
      n + 1 := ⟨(encodeRecords pre ++ (encodeHeader r ++ (body ++ encodeRecords post))).length - pre.length, by omega⟩
  have halt : recoverLoop (encodeRecords pre ++ (encodeHeader r ++ (body ++ encodeRecords post))).length (n + 1)
      (encodeRecords pre).length (encodeHeader r ++ (body ++ encodeRecords post)) = [] ↔ ¬Passes r body :=
    recoverLoop_altered hl _ n _ _ (by omega)
  rw [recoverFile, hloop, hn, ← halt]
  exact List.append_right_eq_self

/-- **A burst in the body of a record**: recovery returns exactly the records in front of it, if and only if the bodies of
these are shorter than 4 GiB, and so is its own or else the shorter body that its length field delimits does not pass. -/
theorem recover_burst_iff (w : WAL) (walId : Nat) {pre post : List WALRecord} {r : WALRecord} {file' : Bytes}
    (ht : ∀ x ∈ pre ++ r :: post, x.Typed)
    (hb : Crc.BurstIn 4 ((encodeRecords pre).length + 8) ((encodeRecords pre).length + 8 + (encodeInner r).length)
      (((w.create walId .none).1.addRecords (pre ++ r :: post)).files.data walId) file') :
    recover (((w.create walId .none).1.addRecords (pre ++ r :: post)).files.write walId file') walId =
        .ok (pre.map WALRecord.content) ↔
      (∀ x ∈ pre, (encodeInner x).length < 2 ^ 32) ∧
        ((encodeInner r).length < 2 ^ 32 ∨
          ¬Passes r (slice file' ((encodeRecords pre).length + 8) (encodeInner r).length)) := by
  obtain ⟨hfile, -, hrec⟩ := recover_written w walId (pre ++ r :: post)
  have hsplit : encodeRecords (pre ++ r :: post) =
      (encodeRecords pre ++ encodeHeader r) ++ (encodeInner r ++ encodeRecords post) := by
    rw [encodeRecords_append, show encodeRecords (r :: post) = encodeRecord r ++ encodeRecords post from rfl,
      encodeRecord_header]
    simp
  rw [hfile, hsplit, show (encodeRecords pre).length + 8 = (encodeRecords pre ++ encodeHeader r).length by
    rw [List.length_append]; rfl] at hb
  obtain ⟨body, rfl, hbody⟩ := hb.middle
  have hl := hbody.length_eq
  have hslice : slice ((encodeRecords pre ++ encodeHeader r) ++ (body ++ encodeRecords post))
      ((encodeRecords pre).length + 8) (encodeInner r).length = body := by
    rw [← hl, show (encodeRecords pre).length + 8 = (encodeRecords pre ++ encodeHeader r).length by
      rw [List.length_append]; rfl]
    exact VLog.slice_append _ _ _
  have hpre : ∀ x ∈ pre, x.Typed := fun x hx => ht x (List.mem_append_left _ hx)
  rw [hrec, hslice, List.append_assoc, Except.ok.injEq]
  constructor
  · intro h
    have hsmall : ∀ x ∈ pre, (encodeInner x).length < 2 ^ 32 := by
      intro x hx
      have hm : x.content ∈ recoverFile (encodeRecords pre ++ (encodeHeader r ++ (body ++ encodeRecords post))) :=
        h ▸ List.mem_map_of_mem hx
      have hlt := small_of_mem hm
      rwa [encodeInner_content] at hlt
    exact ⟨hsmall, Or.inr ((recoverFile_altered hpre hl hsmall).mp h)⟩
  · rintro ⟨hsmall, hr⟩
    refine (recoverFile_altered hpre hl hsmall).mpr ?_
    rcases hr with hr | hr
    · exact not_passes hr hbody
    · exact hr

/-- A value and a deletion, whose last byte is changed. -/
theorem recover_burst_sample :
    let w : WAL := ⟨.empty [], 0, .null⟩
    let first : WALRecord := ⟨.value, 1, [7], ⟨1, 0, 3⟩⟩
    let second : WALRecord := ⟨.deletion, 2, [7], ⟨0, 0, 0⟩⟩
    let file' := (encodeRecords [first, second]).take 59 ++ [8]
    recover (((w.create 1 .none).1.addRecords ([first] ++ second :: [])).files.write 1 file') 1 =
        .ok ([first].map WALRecord.content) ↔
      (∀ x ∈ [first], (encodeInner x).length < 2 ^ 32) ∧
        ((encodeInner second).length < 2 ^ 32 ∨
          ¬Passes second (slice file' ((encodeRecords [first]).length + 8) (encodeInner second).length)) := by
  refine recover_burst_iff ⟨.empty [], 0, .null⟩ 1 (fun r hr => ?_)
    ⟨(encodeRecords [⟨.value, 1, [7], ⟨1, 0, 3⟩⟩, ⟨.deletion, 2, [7], ⟨0, 0, 0⟩⟩]).take 59, [7], [8], [],
      by decide +kernel, by decide +kernel, rfl, by decide, by decide, by decide +kernel, by decide +kernel⟩
  simp only [List.mem_append, List.mem_cons, List.not_mem_nil, or_false] at hr
  rcases hr with rfl | rfl
  · exact ⟨Or.inl rfl, by decide, by decide, by decide, by decide⟩
  · exact ⟨Or.inr rfl, by decide, by decide, by decide, by decide⟩

/-- **Behind a key of 4 GiB** recovery returns nothing: the record in front of the altered one is lost. -/
theorem huge_record_lost :
    let w : WAL := ⟨.empty [], 0, .null⟩
    let first : WALRecord := ⟨.deletion, 1, List.replicate (2 ^ 32) 0, ⟨0, 0, 0⟩⟩
    let second : WALRecord := ⟨.deletion, 2, [7], ⟨0, 0, 0⟩⟩
    let written := ((w.create 1 .none).1.addRecords ([first] ++ second :: [])).files
    ∃ file', Crc.BurstIn 4 ((encodeRecords [first]).length + 8)
        ((encodeRecords [first]).length + 8 + (encodeInner second).length) (written.data 1) file' ∧
      recover (written.write 1 file') 1 ≠ .ok ([first].map WALRecord.content) := by
  intro w first second written
  obtain ⟨hfile, -, hrec⟩ := recover_written w 1 ([first] ++ second :: [])
  have hinner : encodeInner second = (encodeInner second).take 13 ++ [7] := by decide
  have hsplit : encodeRecords ([first] ++ second :: []) =
      (encodeRecords [first] ++ encodeHeader second ++ (encodeInner second).take 13) ++ ([7] ++ []) := by
    rw [encodeRecords_append, show encodeRecords [second] = encodeRecord second ++ [] from rfl, encodeRecord_header,
      List.append_nil]
    nth_rewrite 1 [hinner]
    simp
  refine ⟨(encodeRecords [first] ++ encodeHeader second ++ (encodeInner second).take 13) ++ ([8] ++ []),
    ⟨_, [7], [8], [], hfile.trans hsplit, rfl, rfl, by decide, by decide, ?_, ?_⟩, fun h => ?_⟩
  · rw [List.length_append, List.length_append]
    exact Nat.le_add_right _ _
  · generalize encodeRecords [first] = before
    rw [List.length_append, List.length_append, show (encodeHeader second).length = 8 from rfl,
      show ((encodeInner second).take 13).length = 13 from rfl, show (encodeInner second).length = 14 from rfl,
      List.length_singleton]
  · rw [hrec, Except.ok.injEq] at h
    have hm : first.content ∈ [first].map WALRecord.content := List.mem_cons_self
    rw [← h] at hm
    have hlt := small_of_mem hm
    rw [encodeInner_content, length_encodeInner, List.length_replicate] at hlt
    omega

end WAL

end SplitKV
