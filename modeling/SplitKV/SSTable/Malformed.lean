import SplitKV.SSTable.RoundTrip

/-!
# Opening a file that need not be a table (`sstable.cpp`, `file_util.cpp`)

`RandomAccessFileReader::Read` returns fewer bytes than it was asked for at the end of the file, and the loaders of the
sparse index and of the filter go on to the size they asked for, which the footer says. Here each byte that they examine
is looked up in the buffer that was read, and a call ends at the first one outside (`Stop.outside`). On a file whose
sections lie in it that is the reader of bytes (`openAt_eq_openFile`); `open_safe_iff` says for every file how it ends.
-/

namespace SplitKV

namespace Format

/-! ## The loaders -/

/-- What the platform takes: the longest `std::string`, and the largest offset of a seek. -/
structure Platform where
  maxString : Nat
  maxOffset : Nat
  footer_le : 48 ≤ maxString
  maxOffset_lt : maxOffset < 2 ^ 63

/-- What ends a call early: it returns a status, a string would be too long (`std::length_error`), or it examines a byte
outside the buffer. -/
inductive Stop where
  | status (s : Status)
  | lengthError
  | outside
  deriving DecidableEq

/-- `RandomAccessFileReader::Read`: the string gets its size first, and the bytes of the file that there are. -/
def Platform.read (pl : Platform) (file : Bytes) (offset n : Nat) : Except Stop Bytes :=
  if pl.maxString < n then .error .lengthError
  else if pl.maxOffset < offset then .error (.status (.IOError "fseeko: Invalid argument"))
  else .ok (slice file offset n)

/-- The byte at an index of the buffer. -/
def examine (buf : Bytes) (i : Nat) : Except Stop Byte := if h : i < buf.length then .ok buf[i] else .error .outside

/-- The `n` bytes from an index of the buffer on, one after the other. -/
def examineAll (buf : Bytes) : Nat → Nat → Except Stop Bytes
  | _, 0 => .ok []
  | p, n + 1 =>
    match examine buf p with
    | .error s => .error s
    | .ok b =>
      match examineAll buf (p + 1) n with
      | .error s => .error s
      | .ok bs => .ok (b :: bs)

/-- The loop of `DecodeVarint32` from index `p`: the value, and the index behind it. -/
def decodeVarintLoopAt (buf : Bytes) (limit : Nat) : Nat → Nat → Nat → Nat → Except Stop (Option (Nat × Nat))
  | 0, _, _, _ => .ok none
  | n + 1, shift, result, p =>
    if p < limit then
      match examine buf p with
      | .error s => .error s
      | .ok b =>
        let result := result ||| ((b.val &&& 0x7F) <<< shift) % 2 ^ 32
        if b.val &&& 0x80 = 0 then .ok (some (result, p + 1))
        else decodeVarintLoopAt buf limit n (shift + 7) result (p + 1)
    else .ok none

/-- `DecodeVarint32` from index `p` to `limit`. -/
def decodeVarint32At (buf : Bytes) (limit p : Nat) : Except Stop (Option (Nat × Nat)) :=
  if p = limit then .ok none
  else
    match examine buf p with
    | .error s => .error s
    | .ok b => if b.val &&& 0x80 = 0 then .ok (some (b.val, p + 1)) else decodeVarintLoopAt buf limit 5 0 0 p

/-- The loop of `LoadSparseIndex` from index `p` to `limit`; every iteration takes at least nine bytes. -/
def sparseIndexLoopAt (buf : Bytes) (limit : Nat) : Nat → Nat → Except Stop (List SparseIndexEntry)
  | 0, _ => .ok []
  | n + 1, p =>
    if p < limit then
      match decodeVarint32At buf limit p with
      | .error s => .error s
      | .ok none => .error (.status (.Corruption "Truncated sparse index key"))
      | .ok (some (keyLen, p)) =>
        if limit < p + keyLen then .error (.status (.Corruption "Truncated sparse index key"))
        else
          match examineAll buf p keyLen with
          | .error s => .error s
          | .ok key =>
            let p := p + keyLen
            if limit < p + 8 then .error (.status (.Corruption "Truncated sparse index offset"))
            else
              match examineAll buf p 8 with
              | .error s => .error s
              | .ok dataOffset =>
                match sparseIndexLoopAt buf limit n (p + 8) with
                | .error s => .error s
                | .ok index => .ok (⟨key, decodeFixed64 dataOffset⟩ :: index)
    else .ok []

namespace SSTableReader

/-- `LoadSparseIndex`; the loop runs to the size that was asked for. -/
def loadSparseIndexAt (pl : Platform) (r : SSTableReader) (offset size : Nat) : Except Stop SSTableReader :=
  if size = 0 then .ok r
  else
    match pl.read r.file offset size with
    | .error s => .error s
    | .ok buf =>
      match sparseIndexLoopAt buf size size 0 with
      | .error s => .error s
      | .ok index =>
        match index.head?, index.getLast? with
        | some a, some b => .ok { r with sparseIndex := index, smallestKey := a.key, largestKey := b.key }
        | _, _ => .ok { r with sparseIndex := index }

/-- `LoadBloomFilter`; it copies the size that was asked for. -/
def loadBloomFilterAt (pl : Platform) (r : SSTableReader) (offset size : Nat) : Except Stop SSTableReader :=
  if size < 4 then .ok r
  else
    match pl.read r.file offset size with
    | .error s => .error s
    | .ok buf =>
      match examineAll buf 0 4 with
      | .error s => .error s
      | .ok numHashes =>
        match examineAll buf 4 (size - 4) with
        | .error s => .error s
        | .ok rawData => .ok { r with bloom := r.bloom.setRawData rawData (decodeFixed32 numHashes) }

/-- `LoadFooter`. -/
def loadFooterAt (pl : Platform) (r : SSTableReader) : Except Stop SSTableReader :=
  if r.file.length < 48 then .error (.status (.Corruption "File too short to be an SSTable"))
  else
    match pl.read r.file (r.file.length - 48) 48 with
    | .error s => .error s
    | .ok buf =>
      match examineAll buf 0 48 with
      | .error s => .error s
      | .ok p =>
        let sparseIndexOffset := decodeFixed64 p
        let sparseIndexSize := decodeFixed64 (p.drop 8)
        let bloomOffset := decodeFixed64 (p.drop 16)
        let bloomSize := decodeFixed64 (p.drop 24)
        let numEntries := decodeFixed64 (p.drop 32)
        let magic := decodeFixed64 (p.drop 40)
        if magic ≠ kMagicNumber then .error (.status (.Corruption "Not an SSTable (magic number mismatch)"))
        else
          match { r with numEntries := numEntries, dataEndOffset := sparseIndexOffset }.loadSparseIndexAt pl
            sparseIndexOffset sparseIndexSize with
          | .error s => .error s
          | .ok r => r.loadBloomFilterAt pl bloomOffset bloomSize

/-- `Open`. -/
def openAt (pl : Platform) (file : Bytes) : Except Stop SSTableReader := loadFooterAt pl { file := file }

end SSTableReader

/-! ## What is examined -/

theorem examineAll_eq (buf : Bytes) : ∀ (p n : Nat),
    examineAll buf p n = if n = 0 ∨ p + n ≤ buf.length then .ok (slice buf p n) else .error .outside
  | p, 0 => by
    rw [examineAll, if_pos (Or.inl rfl), slice, List.take_zero]
  | p, n + 1 => by
    rw [examineAll, examineAll_eq buf (p + 1) n]
    by_cases hp : p < buf.length
    · rw [examine, dif_pos hp]
      by_cases hn : p + (n + 1) ≤ buf.length
      · rw [if_pos (Or.inr hn), if_pos (Or.inr (by omega))]
        simp only [slice]
        rw [List.drop_eq_getElem_cons hp, List.take_succ_cons]
      · rw [if_neg (by omega), if_neg (by omega)]
    · have hn : ¬(n + 1 = 0 ∨ p + (n + 1) ≤ buf.length) := by omega
      rw [examine, dif_neg hp, if_neg hn]

/-- The loop of `DecodeVarint32` with a limit that may lie behind the buffer. -/
theorem decodeVarintLoopAt_eq {buf : Bytes} {limit : Nat} (hl : buf.length ≤ limit) : ∀ (n shift result p : Nat),
    p ≤ buf.length → decodeVarintLoopAt buf limit n shift result p =
      match decodeVarintLoop 32 n shift result (buf.drop p) with
      | some (v, q) => .ok (some (v, buf.length - q.length))
      | none => if buf.length = limit ∨ n ≤ buf.length - p then .ok none else .error .outside
  | 0, shift, result, p, _ => by
    rw [decodeVarintLoopAt, decodeVarintLoop, if_pos (Or.inr (Nat.zero_le _))]
  | n + 1, shift, result, p, hp => by
    rw [decodeVarintLoopAt]
    by_cases hlt : p < buf.length
    · rw [if_pos (by omega), examine, dif_pos hlt, List.drop_eq_getElem_cons hlt, decodeVarintLoop]
      simp only
      split
      · simp only [List.length_drop]
        congr 3
        omega
      · rw [decodeVarintLoopAt_eq hl n _ _ (p + 1) (by omega)]
        have hcount : n ≤ buf.length - (p + 1) ↔ n + 1 ≤ buf.length - p := by omega
        simp only [hcount]
    · have hend : p = buf.length := by omega
      have hnil : buf.drop p = [] := List.drop_eq_nil_of_le (by omega)
      rw [hnil, decodeVarintLoop]
      by_cases hlim : p < limit
      · rw [if_pos hlim, examine, dif_neg hlt]
        simp only
        rw [if_neg (by omega)]
      · rw [if_neg hlim]
        simp only
        rw [if_pos (Or.inl (by omega))]

/-- **`DecodeVarint32`** examines bytes of the buffer only, or stops outside. -/
theorem decodeVarint32At_eq {buf : Bytes} {limit p : Nat} (hl : buf.length ≤ limit) (hp : p ≤ buf.length) (hlt : p < limit) :
    decodeVarint32At buf limit p =
      match decodeVarint32 (buf.drop p) with
      | some (v, q) => .ok (some (v, buf.length - q.length))
      | none => if p < buf.length ∧ (buf.length = limit ∨ 5 ≤ buf.length - p) then .ok none else .error .outside := by
  rw [decodeVarint32At, if_neg (by omega)]
  by_cases hin : p < buf.length
  · rw [examine, dif_pos hin, decodeVarintLoopAt_eq hl 5 0 0 p hp, List.drop_eq_getElem_cons hin, decodeVarint32]
    simp only
    split
    · simp only [List.length_drop]
      congr 3
      omega
    · simp only [hin, true_and]
  · have hnil : buf.drop p = [] := List.drop_eq_nil_of_le (by omega)
    rw [examine, dif_neg hin, hnil, decodeVarint32]
    simp only
    rw [if_neg (by omega)]

/-- What is left of a buffer behind a varint. -/
theorem decodeVarint32_rest {buf q : Bytes} {p v : Nat} (h : decodeVarint32 (buf.drop p) = some (v, q)) :
    p < buf.length - q.length ∧ q.length ≤ buf.length ∧ ∀ k, buf.drop (buf.length - q.length + k) = q.drop k := by
  obtain ⟨pre, hpre, hpos, -⟩ := decodeVarint32_some h
  have hlen := congrArg List.length hpre
  rw [List.length_drop, List.length_append] at hlen
  have hat : buf.length - q.length = p + pre.length := by omega
  refine ⟨by omega, by omega, fun k => ?_⟩
  rw [hat, ← List.drop_drop, ← List.drop_drop, hpre, List.drop_left]

/-- **An iteration of `LoadSparseIndex`** behind a length: what is compared with the limit, and what is examined. -/
theorem sparseIndexLoopAt_step {buf q : Bytes} {limit p keyLen : Nat} (hl : buf.length ≤ limit) (n : Nat)
    (hp : p ≤ buf.length) (hlt : p < limit) (hv : decodeVarint32 (buf.drop p) = some (keyLen, q)) :
    sparseIndexLoopAt buf limit (n + 1) p =
      if q.length + (limit - buf.length) < keyLen then .error (.status (.Corruption "Truncated sparse index key"))
      else if q.length < keyLen then .error .outside
      else if q.length + (limit - buf.length) < keyLen + 8 then
        .error (.status (.Corruption "Truncated sparse index offset"))
      else if q.length < keyLen + 8 then .error .outside
      else
        match sparseIndexLoopAt buf limit n (buf.length - q.length + (keyLen + 8)) with
        | .error s => .error s
        | .ok index => .ok (⟨q.take keyLen, decodeFixed64 (q.drop keyLen)⟩ :: index) := by
  obtain ⟨-, hq, hdrop⟩ := decodeVarint32_rest hv
  rw [sparseIndexLoopAt, if_pos hlt, decodeVarint32At_eq hl hp hlt, hv]
  simp only
  by_cases hlong : q.length + (limit - buf.length) < keyLen
  · rw [if_pos hlong, if_pos (by omega)]
  rw [if_neg hlong, if_neg (by omega), examineAll_eq]
  by_cases hkey : q.length < keyLen
  · rw [if_pos hkey, if_neg (by omega)]
  rw [if_neg hkey, if_pos (Or.inr (by omega))]
  simp only
  by_cases hshort : q.length + (limit - buf.length) < keyLen + 8
  · rw [if_pos hshort, if_pos (by omega)]
  rw [if_neg hshort, if_neg (by omega), examineAll_eq]
  by_cases hoffset : q.length < keyLen + 8
  · rw [if_pos hoffset, if_neg (by omega)]
  rw [if_neg hoffset, if_pos (Or.inr (by omega)), Nat.add_assoc]
  -- the key and the offset are the bytes behind the length
  have hkeyAt : slice buf (buf.length - q.length) keyLen = q.take keyLen := by
    have := hdrop 0
    rw [Nat.add_zero, List.drop_zero] at this
    rw [slice, this]
  have hoffsetAt : decodeFixed64 (slice buf (buf.length - q.length + keyLen) 8) = decodeFixed64 (q.drop keyLen) := by
    rw [slice, hdrop]
    exact @decodeFixed64_take (q.drop keyLen) 0 8 (Nat.le_refl 8)
  simp only [hkeyAt, hoffsetAt]

/-! ## The bytes of an index -/

/-- The bytes are those of an index: lengths, keys and offsets. -/
inductive Decodes : Bytes → List SparseIndexEntry → Prop
  | nil : Decodes [] []
  | cons {p q : Bytes} {keyLen : Nat} {index : List SparseIndexEntry} (length : decodeVarint32 p = some (keyLen, q))
      (fits : keyLen + 8 ≤ q.length) (rest : Decodes (q.drop (keyLen + 8)) index) :
      Decodes p (⟨q.take keyLen, decodeFixed64 (q.drop keyLen)⟩ :: index)

/-- The bytes, of which `missing` more were asked for, hold something that is no entry of an index in front of their end:
a length of more than five bytes, or one that the size asked for does not hold; before it come whole entries. -/
inductive Refused (missing : Nat) : Bytes → Prop
  | length {p : Bytes} (ne : p ≠ []) (length : decodeVarint32 p = none) (seen : missing = 0 ∨ 5 ≤ p.length) :
      Refused missing p
  | key {p q : Bytes} {keyLen : Nat} (length : decodeVarint32 p = some (keyLen, q)) (long : q.length + missing < keyLen) :
      Refused missing p
  | offset {p q : Bytes} {keyLen : Nat} (length : decodeVarint32 p = some (keyLen, q)) (key : keyLen ≤ q.length)
      (short : q.length + missing < keyLen + 8) : Refused missing p
  | next {p q : Bytes} {keyLen : Nat} (length : decodeVarint32 p = some (keyLen, q)) (fits : keyLen + 8 ≤ q.length)
      (rest : Refused missing (q.drop (keyLen + 8))) : Refused missing p

theorem refused_of_none {missing : Nat} {p : Bytes} (h : decodeVarint32 p = none) :
    Refused missing p ↔ p ≠ [] ∧ (missing = 0 ∨ 5 ≤ p.length) := by
  constructor
  · intro hr
    cases hr with
    | length ne _ seen => exact ⟨ne, seen⟩
    | key length _ => simp [h] at length
    | offset length _ _ => simp [h] at length
    | next length _ _ => simp [h] at length
  · rintro ⟨ne, seen⟩
    exact Refused.length ne h seen

theorem refused_of_some {missing keyLen : Nat} {p q : Bytes} (h : decodeVarint32 p = some (keyLen, q)) :
    Refused missing p ↔ q.length + missing < keyLen ∨ (keyLen ≤ q.length ∧ q.length + missing < keyLen + 8) ∨
      (keyLen + 8 ≤ q.length ∧ Refused missing (q.drop (keyLen + 8))) := by
  constructor
  · intro hr
    cases hr with
    | length _ length _ => simp [h] at length
    | key length long =>
      cases h.symm.trans length
      exact Or.inl long
    | offset length key short =>
      cases h.symm.trans length
      exact Or.inr (Or.inl ⟨key, short⟩)
    | next length fits rest =>
      cases h.symm.trans length
      exact Or.inr (Or.inr ⟨fits, rest⟩)
  · rintro (long | ⟨key, short⟩ | ⟨fits, rest⟩)
    · exact Refused.key h long
    · exact Refused.offset h key short
    · exact Refused.next h fits rest

theorem not_refused_nil (missing : Nat) : ¬Refused missing [] := by
  intro h
  exact ((refused_of_none rfl).mp h).1 rfl

/-- How the loop ends on the bytes `p`. -/
inductive IndexOutcome (missing : Nat) (p : Bytes) : Except Stop (List SparseIndexEntry) → Prop
  | refused {s : Status} (refused : Refused missing p) : IndexOutcome missing p (.error (.status s))
  | decoded {index : List SparseIndexEntry} (taken : ¬Refused missing p) (whole : missing = 0) (decodes : Decodes p index) :
      IndexOutcome missing p (.ok index)
  | outside (taken : ¬Refused missing p) (cut : 0 < missing) : IndexOutcome missing p (.error .outside)

/-- **The loop of `LoadSparseIndex`** on a buffer that may end in front of the limit. -/
theorem sparseIndexLoopAt_outcome {buf : Bytes} {limit : Nat} (hl : buf.length ≤ limit) : ∀ (n p : Nat),
    p ≤ buf.length → limit - p ≤ n →
    IndexOutcome (limit - buf.length) (buf.drop p) (sparseIndexLoopAt buf limit n p)
  | 0, p, hp, hn => by
    have hnil : buf.drop p = [] := List.drop_eq_nil_of_le (by omega)
    rw [hnil, sparseIndexLoopAt]
    exact IndexOutcome.decoded (not_refused_nil _) (by omega) Decodes.nil
  | n + 1, p, hp, hn => by
    by_cases hlt : p < limit
    · cases hv : decodeVarint32 (buf.drop p) with
      | none =>
        rw [sparseIndexLoopAt, if_pos hlt, decodeVarint32At_eq hl hp hlt, hv]
        have hiff := @refused_of_none (limit - buf.length) _ hv
        rw [List.length_drop, ne_eq, List.drop_eq_nil_iff] at hiff
        by_cases hseen : p < buf.length ∧ (buf.length = limit ∨ 5 ≤ buf.length - p)
        · simp only
          rw [if_pos hseen]
          exact IndexOutcome.refused (hiff.mpr (by omega))
        · simp only
          rw [if_neg hseen]
          exact IndexOutcome.outside (fun h => hseen (by have := hiff.mp h; omega)) (by omega)
      | some x =>
        obtain ⟨keyLen, q⟩ := x
        obtain ⟨hpos, hq, hdrop⟩ := decodeVarint32_rest hv
        have hiff := @refused_of_some (limit - buf.length) _ _ _ hv
        rw [sparseIndexLoopAt_step hl n hp hlt hv]
        by_cases hlong : q.length + (limit - buf.length) < keyLen
        · rw [if_pos hlong]
          exact IndexOutcome.refused (Refused.key hv hlong)
        rw [if_neg hlong]
        by_cases hkey : q.length < keyLen
        · rw [if_pos hkey]
          exact IndexOutcome.outside (fun h => by have := hiff.mp h; omega) (by omega)
        rw [if_neg hkey]
        by_cases hshort : q.length + (limit - buf.length) < keyLen + 8
        · rw [if_pos hshort]
          exact IndexOutcome.refused (Refused.offset hv (by omega) hshort)
        rw [if_neg hshort]
        by_cases hoffset : q.length < keyLen + 8
        · rw [if_pos hoffset]
          exact IndexOutcome.outside (fun h => by have := hiff.mp h; omega) (by omega)
        rw [if_neg hoffset]
        -- a whole entry: the rest decides
        have ih := sparseIndexLoopAt_outcome hl n (buf.length - q.length + (keyLen + 8)) (by omega) (by omega)
        rw [hdrop] at ih
        generalize sparseIndexLoopAt buf limit n (buf.length - q.length + (keyLen + 8)) = x at ih
        have hfits : keyLen + 8 ≤ q.length := by omega
        have htaken : ¬Refused (limit - buf.length) (q.drop (keyLen + 8)) →
            ¬Refused (limit - buf.length) (buf.drop p) := by
          intro hno h
          rcases hiff.mp h with h | h | h
          · exact hlong h
          · exact hshort h.2
          · exact hno h.2
        cases ih with
        | refused h => exact IndexOutcome.refused (Refused.next hv hfits h)
        | decoded hno whole decodes => exact IndexOutcome.decoded (htaken hno) whole (Decodes.cons hv hfits decodes)
        | outside hno cut => exact IndexOutcome.outside (htaken hno) cut
    · have hnil : buf.drop p = [] := List.drop_eq_nil_of_le (by omega)
      rw [sparseIndexLoopAt, if_neg hlt, hnil]
      exact IndexOutcome.decoded (not_refused_nil _) (by omega) Decodes.nil

/-! ## The loaders, case by case -/

theorem length_slice (file : Bytes) (offset n : Nat) : (slice file offset n).length = min n (file.length - offset) := by
  rw [slice, List.length_take, List.length_drop]

/-- The bytes that the footer takes for the index are refused before their end, or the seek to them is. -/
def IndexRefused (pl : Platform) (file : Bytes) (offset size : Nat) : Prop :=
  size ≠ 0 ∧ (pl.maxOffset < offset ∨
    Refused (size - (slice file offset size).length) (slice file offset size))

/-- How `LoadSparseIndex` ends. -/
inductive IndexLoad (pl : Platform) (r : SSTableReader) (offset size : Nat) : Except Stop SSTableReader → Prop
  | tooLong (long : pl.maxString < size) : IndexLoad pl r offset size (.error .lengthError)
  | refused {s : Status} (fits : size ≤ pl.maxString) (refused : IndexRefused pl r.file offset size) :
      IndexLoad pl r offset size (.error (.status s))
  | outside (taken : ¬IndexRefused pl r.file offset size) (some : size ≠ 0) (cut : r.file.length < offset + size) :
      IndexLoad pl r offset size (.error .outside)
  | loaded {r' : SSTableReader} (fits : size ≤ pl.maxString) (taken : ¬IndexRefused pl r.file offset size)
      (whole : size = 0 ∨ offset + size ≤ r.file.length) (file : r'.file = r.file)
      (decodes : r'.sparseIndex = r.sparseIndex ∨ Decodes (slice r.file offset size) r'.sparseIndex) :
      IndexLoad pl r offset size (.ok r')

/-- **`LoadSparseIndex`** of any section. -/
theorem SSTableReader.loadSparseIndexAt_cases (pl : Platform) (r : SSTableReader) (offset size : Nat) :
    IndexLoad pl r offset size (r.loadSparseIndexAt pl offset size) := by
  rw [SSTableReader.loadSparseIndexAt]
  by_cases h0 : size = 0
  · rw [if_pos h0]
    exact IndexLoad.loaded (by omega) (fun h => h.1 h0) (Or.inl h0) rfl (Or.inl rfl)
  rw [if_neg h0, Platform.read]
  by_cases hlong : pl.maxString < size
  · rw [if_pos hlong]
    exact IndexLoad.tooLong hlong
  rw [if_neg hlong]
  by_cases hseek : pl.maxOffset < offset
  · rw [if_pos hseek]
    exact IndexLoad.refused (by omega) ⟨h0, Or.inl hseek⟩
  rw [if_neg hseek]
  have hlen := length_slice r.file offset size
  have hout := sparseIndexLoopAt_outcome (show (slice r.file offset size).length ≤ size by omega) size 0
    (Nat.zero_le _) (Nat.sub_le _ _)
  rw [List.drop_zero] at hout
  have htaken : ¬Refused (size - (slice r.file offset size).length) (slice r.file offset size) →
      ¬IndexRefused pl r.file offset size := by
    rintro hno ⟨-, h | h⟩
    · exact hseek h
    · exact hno h
  simp only
  generalize sparseIndexLoopAt (slice r.file offset size) size size 0 = x at hout
  cases hout with
  | refused h => exact IndexLoad.refused (by omega) ⟨h0, Or.inr h⟩
  | outside hno cut => exact IndexLoad.outside (htaken hno) h0 (by omega)
  | decoded hno whole decodes =>
    simp only
    split
    · exact IndexLoad.loaded (by omega) (htaken hno) (by omega) rfl (Or.inr decodes)
    · exact IndexLoad.loaded (by omega) (htaken hno) (by omega) rfl (Or.inr decodes)

/-- **`LoadBloomFilter`** of any section. -/
theorem SSTableReader.loadBloomFilterAt_eq (pl : Platform) (r : SSTableReader) (offset size : Nat) :
    r.loadBloomFilterAt pl offset size =
      if size < 4 then .ok r
      else if pl.maxString < size then .error .lengthError
      else if pl.maxOffset < offset then .error (.status (.IOError "fseeko: Invalid argument"))
      else if offset + size ≤ r.file.length then .ok (r.loadBloomFilter offset size)
      else .error .outside := by
  rw [SSTableReader.loadBloomFilterAt, Platform.read]
  by_cases h4 : size < 4
  · rw [if_pos h4, if_pos h4]
  rw [if_neg h4, if_neg h4]
  by_cases hlong : pl.maxString < size
  · rw [if_pos hlong, if_pos hlong]
  rw [if_neg hlong, if_neg hlong]
  by_cases hseek : pl.maxOffset < offset
  · rw [if_pos hseek, if_pos hseek]
  rw [if_neg hseek, if_neg hseek]
  have hlen := length_slice r.file offset size
  simp only
  rw [examineAll_eq, examineAll_eq]
  by_cases hwhole : offset + size ≤ r.file.length
  · rw [if_pos hwhole, if_pos (Or.inr (by omega)), if_pos (Or.inr (by omega))]
    have hnum : decodeFixed32 (slice (slice r.file offset size) 0 4) = decodeFixed32 (slice r.file offset size) :=
      decodeFixed32_take (Nat.le_refl 4)
    have hraw : slice (slice r.file offset size) 4 (size - 4) = (slice r.file offset size).drop 4 := by
      rw [slice, List.take_of_length_le]
      rw [List.length_drop]
      omega
    simp only [hnum, hraw]
    rw [SSTableReader.loadBloomFilter, if_neg h4]
  · rw [if_neg hwhole]
    by_cases hfour : 4 ≤ (slice r.file offset size).length
    · rw [if_pos (Or.inr (by omega)), if_neg (by omega)]
    · rw [if_neg (by omega)]

/-- What the footer says. -/
structure Footer where
  sparseIndexOffset : Nat
  sparseIndexSize : Nat
  bloomOffset : Nat
  bloomSize : Nat
  numEntries : Nat
  magic : Nat

/-- The footer in the last 48 bytes of a file. -/
def footerOf (file : Bytes) : Footer :=
  let p := slice file (file.length - 48) 48
  { sparseIndexOffset := decodeFixed64 p
    sparseIndexSize := decodeFixed64 (p.drop 8)
    bloomOffset := decodeFixed64 (p.drop 16)
    bloomSize := decodeFixed64 (p.drop 24)
    numEntries := decodeFixed64 (p.drop 32)
    magic := decodeFixed64 (p.drop 40) }

/-- **`LoadFooter`**: the footer is in the file. -/
theorem SSTableReader.openAt_eq (pl : Platform) {file : Bytes} (h48 : 48 ≤ file.length) (hsize : file.length ≤ pl.maxOffset) :
    SSTableReader.openAt pl file =
      if (footerOf file).magic ≠ kMagicNumber then
        .error (.status (.Corruption "Not an SSTable (magic number mismatch)"))
      else
        match ({ file := file, numEntries := (footerOf file).numEntries,
                 dataEndOffset := (footerOf file).sparseIndexOffset } : SSTableReader).loadSparseIndexAt pl
            (footerOf file).sparseIndexOffset (footerOf file).sparseIndexSize with
        | .error s => .error s
        | .ok r => r.loadBloomFilterAt pl (footerOf file).bloomOffset (footerOf file).bloomSize := by
  have hread : pl.read file (file.length - 48) 48 = .ok (slice file (file.length - 48) 48) := by
    have := pl.footer_le
    rw [Platform.read, if_neg (by omega), if_neg (by omega)]
  have hexamine : examineAll (slice file (file.length - 48) 48) 0 48 = .ok (slice file (file.length - 48) 48) := by
    have hlen := length_slice file (file.length - 48) 48
    rw [examineAll_eq, if_pos (Or.inr (by omega))]
    simp only [slice, List.drop_zero, List.take_take, Nat.min_self]
  rw [SSTableReader.openAt, SSTableReader.loadFooterAt, if_neg (by simpa using h48)]
  simp only [hread, hexamine]
  rfl

/-! ## Tables -/

/-- A status that is returned. -/
def returned {α : Type} : Except Status α → Except Stop α
  | .error s => .error (.status s)
  | .ok a => .ok a

/-- On a buffer of the size that was asked for, the loop is the one that looks at the rest of the buffer. -/
theorem sparseIndexLoopAt_whole (buf : Bytes) : ∀ (n p : Nat), p ≤ buf.length →
    sparseIndexLoopAt buf buf.length n p = returned (SSTableReader.sparseIndexLoop n (buf.drop p))
  | 0, p, _ => rfl
  | n + 1, p, hp => by
    by_cases hlt : p < buf.length
    · rw [SSTableReader.sparseIndexLoop, if_neg (by rw [List.drop_eq_nil_iff]; omega)]
      cases hv : decodeVarint32 (buf.drop p) with
      | none =>
        rw [sparseIndexLoopAt, if_pos hlt, decodeVarint32At_eq (Nat.le_refl _) hp hlt, hv]
        simp only [hlt, true_or, and_self, if_true, returned]
      | some x =>
        obtain ⟨keyLen, q⟩ := x
        obtain ⟨hpos, hq, hdrop⟩ := decodeVarint32_rest hv
        rw [sparseIndexLoopAt_step (Nat.le_refl _) n hp hlt hv, Nat.sub_self, Nat.add_zero]
        simp only [List.length_drop]
        by_cases hlong : q.length < keyLen
        · rw [if_pos hlong, if_pos hlong]
          rfl
        rw [if_neg hlong, if_neg hlong, if_neg hlong]
        by_cases hshort : q.length < keyLen + 8
        · rw [if_pos hshort, if_pos (by omega)]
          rfl
        rw [if_neg hshort, if_neg hshort, if_neg (by omega), List.drop_drop,
          sparseIndexLoopAt_whole buf n (buf.length - q.length + (keyLen + 8)) (by omega), hdrop]
        cases SSTableReader.sparseIndexLoop n (q.drop (keyLen + 8)) with
        | error s => rfl
        | ok index => rfl
    · rw [sparseIndexLoopAt, SSTableReader.sparseIndexLoop, if_neg hlt, if_pos (List.drop_eq_nil_of_le (by omega))]
      rfl

/-- `LoadSparseIndex` of a section in the file. -/
theorem SSTableReader.loadSparseIndexAt_whole (pl : Platform) (r : SSTableReader) {offset size : Nat}
    (hstring : r.file.length ≤ pl.maxString) (hoffset : r.file.length ≤ pl.maxOffset)
    (hwhole : offset + size ≤ r.file.length) :
    r.loadSparseIndexAt pl offset size = returned (r.loadSparseIndex offset size) := by
  rw [SSTableReader.loadSparseIndexAt, SSTableReader.loadSparseIndex]
  by_cases h0 : size = 0
  · rw [if_pos h0, if_pos h0]
    rfl
  rw [if_neg h0, if_neg h0, Platform.read, if_neg (by omega), if_neg (by omega)]
  have hlen : (slice r.file offset size).length = size := by
    rw [length_slice]
    omega
  have hloop := sparseIndexLoopAt_whole (slice r.file offset size) size 0 (Nat.zero_le _)
  rw [hlen, List.drop_zero] at hloop
  simp only [hloop]
  cases SSTableReader.sparseIndexLoop size (slice r.file offset size) with
  | error s => rfl
  | ok index =>
    simp only [returned]
    generalize index.head? = first
    generalize index.getLast? = last
    cases first <;> cases last <;> rfl

theorem SSTableReader.file_loadSparseIndex {r r' : SSTableReader} {offset size : Nat}
    (h : r.loadSparseIndex offset size = .ok r') : r'.file = r.file := by
  rw [SSTableReader.loadSparseIndex] at h
  split at h
  · cases h
    rfl
  split at h
  · cases h
  split at h
  · cases h
    rfl
  · cases h
    rfl

/-- **A file whose sections lie in it** is opened as the bytes that are read say. -/
theorem SSTableReader.openAt_eq_openFile (pl : Platform) {file : Bytes} (hsize : file.length ≤ pl.maxOffset)
    (hstring : file.length ≤ pl.maxString)
    (hindex : (footerOf file).sparseIndexOffset + (footerOf file).sparseIndexSize ≤ file.length)
    (hbloom : (footerOf file).bloomOffset + (footerOf file).bloomSize ≤ file.length) :
    SSTableReader.openAt pl file = returned (SSTableReader.openFile file) := by
  by_cases h48 : file.length < 48
  · rw [SSTableReader.openAt, SSTableReader.loadFooterAt, SSTableReader.openFile, SSTableReader.loadFooter, if_pos h48,
      if_pos h48]
    rfl
  have hopen : SSTableReader.openFile file =
      if (footerOf file).magic ≠ kMagicNumber then .error (.Corruption "Not an SSTable (magic number mismatch)")
      else (({ file := file, numEntries := (footerOf file).numEntries,
               dataEndOffset := (footerOf file).sparseIndexOffset } : SSTableReader).loadSparseIndex
          (footerOf file).sparseIndexOffset (footerOf file).sparseIndexSize).map
        fun r => r.loadBloomFilter (footerOf file).bloomOffset (footerOf file).bloomSize := by
    rw [SSTableReader.openFile, SSTableReader.loadFooter, if_neg h48]
    simp only [footerOf]
    generalize SSTableReader.loadSparseIndex _ _ _ = x
    cases x with
    | error s => rfl
    | ok r => rfl
  rw [SSTableReader.openAt_eq pl (by omega) hsize, hopen]
  generalize footerOf file = f at hindex hbloom ⊢
  by_cases hmagic : f.magic ≠ kMagicNumber
  · rw [if_pos hmagic, if_pos hmagic]
    rfl
  rw [if_neg hmagic, if_neg hmagic, SSTableReader.loadSparseIndexAt_whole pl _ hstring hsize hindex]
  generalize hr : SSTableReader.loadSparseIndex _ f.sparseIndexOffset f.sparseIndexSize = x
  cases x with
  | error s => rfl
  | ok r =>
    have hfile : r.file = file := SSTableReader.file_loadSparseIndex hr
    simp only [returned, Except.map]
    rw [SSTableReader.loadBloomFilterAt_eq, hfile]
    by_cases h4 : f.bloomSize < 4
    · rw [if_pos h4, SSTableReader.loadBloomFilter, if_pos h4]
    · rw [if_neg h4, if_neg (by omega), if_neg (by omega), if_pos hbloom]

/-- **A file that was written** is opened without a byte outside. -/
theorem Written.openAt {o : Options} {l : List (Key × InternalEntry)} {wl : SplitKV.SSTableWriter} {file : Bytes}
    (h : Written o l wl file) (pl : Platform) (hsize : file.length ≤ pl.maxOffset) (hstring : file.length ≤ pl.maxString)
    (hn : l.length < 2 ^ 64) : SSTableReader.openAt pl file = returned (SSTableReader.openFile file) := by
  have hlt := pl.maxOffset_lt
  have hlen := length_encodeFile (encodeEntries l) wl.sparseIndex wl.bloom l.length
  have hfooter := slice_footer (encodeEntries l) wl.sparseIndex wl.bloom l.length
  rw [← h.file] at hlen hfooter
  obtain ⟨d₁, d₂, d₃, d₄, -, -⟩ := decode_footer (show (encodeEntries l).length < 2 ^ 64 by omega)
    (show (encodeIndex wl.sparseIndex).length < 2 ^ 64 by omega)
    (show (encodeEntries l).length + (encodeIndex wl.sparseIndex).length < 2 ^ 64 by omega)
    (show (encodeBloom wl.bloom).length < 2 ^ 64 by omega) hn
  refine SSTableReader.openAt_eq_openFile pl hsize hstring ?_ ?_
  · simp only [footerOf, hfooter, d₁, d₂]
    omega
  · simp only [footerOf, hfooter, d₃, d₄]
    omega

/-! ## When a file is opened safely -/

/-- An end without a byte outside the buffer: a status, or a reader whose index was decoded from bytes of the file. -/
inductive EndsSafely (file : Bytes) : Except Stop SSTableReader → Prop
  | status (s : Status) : EndsSafely file (.error (.status s))
  | opened {r : SSTableReader} {bytes : Bytes} (inFile : bytes <:+: file) (decodes : Decodes bytes r.sparseIndex) :
      EndsSafely file (.ok r)

/-- `Open` examines bytes of its buffers only, and ends. -/
def OpensSafely (pl : Platform) (file : Bytes) : Prop := EndsSafely file (SSTableReader.openAt pl file)

/-- The sections that the footer tells of lie in the file, as far as they are loaded. -/
def SectionsFit (pl : Platform) (file : Bytes) (f : Footer) : Prop :=
  f.sparseIndexSize ≤ pl.maxString ∧
    (IndexRefused pl file f.sparseIndexOffset f.sparseIndexSize ∨
      (f.sparseIndexSize = 0 ∨ f.sparseIndexOffset + f.sparseIndexSize ≤ file.length) ∧
      (f.bloomSize < 4 ∨
        f.bloomSize ≤ pl.maxString ∧ (pl.maxOffset < f.bloomOffset ∨ f.bloomOffset + f.bloomSize ≤ file.length)))

theorem slice_infix (file : Bytes) (offset n : Nat) : slice file offset n <:+: file :=
  (List.take_prefix n (file.drop offset)).isInfix.trans (List.drop_suffix offset file).isInfix

theorem SSTableReader.sparseIndex_loadBloomFilter (r : SSTableReader) (offset size : Nat) :
    (r.loadBloomFilter offset size).sparseIndex = r.sparseIndex := by
  rw [SSTableReader.loadBloomFilter]
  split <;> rfl

/-- **Opening any file** is safe exactly when its sections fit, or it has no footer. -/
theorem open_safe_iff (pl : Platform) {file : Bytes} (hsize : file.length ≤ pl.maxOffset) :
    OpensSafely pl file ↔
      file.length < 48 ∨ (footerOf file).magic ≠ kMagicNumber ∨ SectionsFit pl file (footerOf file) := by
  by_cases h48 : file.length < 48
  · rw [OpensSafely, SSTableReader.openAt, SSTableReader.loadFooterAt, if_pos h48]
    exact iff_of_true (EndsSafely.status _) (Or.inl h48)
  rw [OpensSafely, SSTableReader.openAt_eq pl (by omega) hsize]
  by_cases hmagic : (footerOf file).magic ≠ kMagicNumber
  · rw [if_pos hmagic]
    exact iff_of_true (EndsSafely.status _) (Or.inr (Or.inl hmagic))
  rw [if_neg hmagic]
  simp only [h48, hmagic, false_or]
  generalize footerOf file = f
  have hindex := SSTableReader.loadSparseIndexAt_cases pl
    { file := file, numEntries := f.numEntries, dataEndOffset := f.sparseIndexOffset } f.sparseIndexOffset f.sparseIndexSize
  generalize SSTableReader.loadSparseIndexAt pl
    { file := file, numEntries := f.numEntries, dataEndOffset := f.sparseIndexOffset } f.sparseIndexOffset
    f.sparseIndexSize = x at hindex
  cases hindex with
  | tooLong long => exact iff_of_false nofun (fun h => absurd h.1 (by omega))
  | refused fits refused => exact iff_of_true (EndsSafely.status _) ⟨fits, Or.inl refused⟩
  | outside taken some cut =>
    refine iff_of_false nofun ?_
    rintro ⟨-, h | ⟨h | h, -⟩⟩
    · exact taken h
    · exact some h
    · exact absurd cut (Nat.not_lt.mpr h)
  | loaded fits taken whole hfile decodes =>
    rename_i r
    simp only at hfile whole decodes ⊢
    obtain ⟨bytes, hbytes, hdecoded⟩ : ∃ bytes, bytes <:+: file ∧ Decodes bytes r.sparseIndex := by
      rcases decodes with h | h
      · rw [h]
        exact ⟨[], List.nil_infix, Decodes.nil⟩
      · exact ⟨_, slice_infix _ _ _, h⟩
    have hfit : SectionsFit pl file f ↔ f.bloomSize < 4 ∨
        f.bloomSize ≤ pl.maxString ∧ (pl.maxOffset < f.bloomOffset ∨ f.bloomOffset + f.bloomSize ≤ file.length) :=
      ⟨fun h => h.2.elim (fun hr => absurd hr taken) And.right, fun h => ⟨fits, Or.inr ⟨whole, h⟩⟩⟩
    rw [hfit, SSTableReader.loadBloomFilterAt_eq, hfile]
    by_cases h4 : f.bloomSize < 4
    · rw [if_pos h4]
      exact iff_of_true (EndsSafely.opened hbytes hdecoded) (Or.inl h4)
    rw [if_neg h4]
    by_cases hlong : pl.maxString < f.bloomSize
    · rw [if_pos hlong]
      exact iff_of_false nofun (by omega)
    rw [if_neg hlong]
    by_cases hseek : pl.maxOffset < f.bloomOffset
    · rw [if_pos hseek]
      exact iff_of_true (EndsSafely.status _) (Or.inr ⟨by omega, Or.inl hseek⟩)
    rw [if_neg hseek]
    by_cases hwhole : f.bloomOffset + f.bloomSize ≤ file.length
    · rw [if_pos hwhole]
      refine iff_of_true (EndsSafely.opened hbytes ?_) (Or.inr ⟨by omega, Or.inr hwhole⟩)
      rwa [SSTableReader.sparseIndex_loadBloomFilter]
    · rw [if_neg hwhole]
      exact iff_of_false nofun (by omega)

/-- Platforms of 64 bits. -/
def Platform.lp64 : Platform := ⟨2 ^ 63 - 2, 2 ^ 63 - 1, by decide, by decide⟩

/-- A footer that tells of an index of no bytes. -/
theorem open_safe_sample :
    let file := encodeFooter 0 0 0 0 0
    OpensSafely .lp64 file ↔
      file.length < 48 ∨ (footerOf file).magic ≠ kMagicNumber ∨ SectionsFit .lp64 file (footerOf file) :=
  open_safe_iff .lp64 (show (encodeFooter 0 0 0 0 0).length ≤ 2 ^ 63 - 1 by decide)

/-- **A footer that tells of an index behind the end of the file**: the bytes of an empty buffer are examined. -/
theorem open_examines_outside :
    SSTableReader.openAt .lp64 (encodeFooter 48 9 0 0 0) = .error .outside ∧
      ¬OpensSafely .lp64 (encodeFooter 48 9 0 0 0) := by
  have hout : SSTableReader.openAt .lp64 (encodeFooter 48 9 0 0 0) = .error .outside := rfl
  refine ⟨hout, ?_⟩
  rw [OpensSafely, hout]
  exact nofun

end Format

end SplitKV
