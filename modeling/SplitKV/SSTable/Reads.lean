import SplitKV.SSTable.Format

/-!
# Reads of a table that fail

`RandomAccessFileReader::Read` resizes its buffer before it can fail, and `ReadEntryAt` takes a first read that fails for
one at the end of the file. It hands out what is in the file exactly when that read succeeds, or what it leaves in the
buffer is an entry whose rest cannot be read (`entry_reads_iff`). The lookups and the iterator then report entries of the
file only.
-/

namespace SplitKV

namespace Format

/-- What fails in a call of `RandomAccessFileReader::Read`: the seek, or the read behind `k` bytes. -/
inductive ReadFault where
  | none
  | seek
  | read (k : Nat)
  deriving DecidableEq

/-- `resize` of a string. -/
def resize (s : Bytes) (n : Nat) : Bytes := s.take n ++ List.replicate (n - s.length) 0

/-- `RandomAccessFileReader::Read`: what it leaves in `result`, and its status. A read that fails has read less than `n`
bytes. -/
def readBytes (file : Bytes) (offset n : Nat) (result : Bytes) : ReadFault → Bytes × Except Status Unit
  | .none => (slice file offset n, .ok ())
  | .seek => (resize result n, .error (.IOError "fseeko"))
  | .read k =>
    let got := slice file offset (min k (n - 1))
    (got ++ (resize result n).drop got.length, .error (.IOError "fread"))

/-- What fails in the reads of one entry: the first one, the one with a longer buffer, the one of the whole entry. -/
structure EntryFaults where
  probe : ReadFault := .none
  retry : ReadFault := .none
  rest : ReadFault := .none

namespace SSTableReader

/-- The entry in the buffer, and the offset of the next one. -/
def entryIn (buf : Bytes) (offset varintLen keyLen : Nat) : Except Status (Key × InternalEntry × Nat) :=
  match parseEntry buf varintLen keyLen with
  | .error s => .error s
  | .ok (key, entry) => .ok (key, entry, offset + (varintLen + keyLen + 1 + 8 + 16))

/-- `readRest`, and the outcomes of the reads it made. -/
def readRestWith (file : Bytes) (offset : Nat) (buf q : Bytes) (keyLen : Nat) (fault : ReadFault) :
    Except Status (Key × InternalEntry × Nat) × List ReadFault :=
  let varintLen := buf.length - q.length
  let totalLen := varintLen + keyLen + 1 + 8 + 16
  if buf.length < totalLen then
    match readBytes file offset totalLen buf fault with
    | (_, .error s) => (.error s, [fault])
    | (buf, .ok ()) => (entryIn buf offset varintLen keyLen, [fault])
  else (entryIn buf offset varintLen keyLen, [])

/-- `ReadEntryAt`, and the outcomes of the reads it made; an `IOError` of the first read is passed over. -/
def readEntryAtWith (r : SSTableReader) (offset : Nat) (f : EntryFaults) :
    Except Status (Key × InternalEntry × Nat) × List ReadFault :=
  match readBytes r.file offset 64 [] f.probe with
  | (buf, s) =>
    match s with
    | .error e => if e.code ≠ .ioError then (.error e, [f.probe]) else afterProbe buf
    | .ok () => afterProbe buf
where
  /-- Behind the first read. -/
  afterProbe (buf : Bytes) : Except Status (Key × InternalEntry × Nat) × List ReadFault :=
    if buf = [] then (.error (.NotFound "EOF reached"), [f.probe])
    else
      match decodeVarint32 buf with
      | some (keyLen, q) =>
        let (x, made) := readRestWith r.file offset buf q keyLen f.rest
        (x, f.probe :: made)
      | none =>
        match readBytes r.file offset 128 buf f.retry with
        | (_, .error s) => (.error s, [f.probe, f.retry])
        | (buf, .ok ()) =>
          match decodeVarint32 buf with
          | some (keyLen, q) =>
            let (x, made) := readRestWith r.file offset buf q keyLen f.rest
            (x, f.probe :: f.retry :: made)
          | none => (.error (.Corruption "Truncated key length varint"), [f.probe, f.retry])

/-- The linear scan of `Get`; it reads no offset twice, so that `f` says what fails at each. -/
def scanWith (r : SSTableReader) (f : Nat → EntryFaults) (key : Key) (endOffset : Nat) :
    Nat → Nat → Except Status InternalEntry
  | 0, _ => .error (.NotFound "Key not found in block")
  | n + 1, offset =>
    if offset < endOffset then
      match (r.readEntryAtWith offset (f offset)).1 with
      | .error s => .error s
      | .ok (parsedKey, parsedEntry, nextOffset) =>
        if parsedKey = key then .ok parsedEntry
        else if key < parsedKey then .error (.NotFound "Key not found in block")
        else r.scanWith f key endOffset n nextOffset
    else .error (.NotFound "Key not found in block")

/-- `Get`. -/
def getWith (r : SSTableReader) (f : Nat → EntryFaults) (key : Key) : Except Status InternalEntry :=
  if !r.bloom.data.isEmpty && !r.bloom.mayContain key then .error (.NotFound "Not in bloom filter")
  else if r.sparseIndex.isEmpty then .error (.NotFound "Empty sparse index")
  else
    let block := SplitKV.SSTableReader.searchBlock r.sparseIndex key r.sparseIndex.length 0
      (toInt r.sparseIndex.length - 1) 0
    let endOffset := if block + 1 < r.sparseIndex.length then (r.sparseIndex.getD (block + 1) ⟨[], 0⟩).dataOffset
      else r.dataEndOffset
    r.scanWith f key endOffset endOffset (r.sparseIndex.getD block ⟨[], 0⟩).dataOffset

end SSTableReader

namespace Iterator

/-- `ReadEntryAt` of the iterator. -/
def readEntryAtWith (it : Iterator) (f : Nat → EntryFaults) (offset : Nat) : Iterator × Except Status Unit :=
  if it.reader.dataEndOffset ≤ offset then
    ({ it with valid := false }, .error (.NotFound "Reached end of data blocks"))
  else
    match (it.reader.readEntryAtWith offset (f offset)).1 with
    | .error s => ({ it with valid := false }, .error s)
    | .ok (key, entry, nextOffset) =>
      ({ it with currentKey := key, currentEntry := entry, currentOffset := nextOffset, valid := true }, .ok ())

/-- `SeekToFirst`. -/
def seekToFirstWith (it : Iterator) (f : Nat → EntryFaults) : Iterator × Except Status Unit :=
  { it with currentOffset := 0 }.readEntryAtWith f 0

/-- `Next`. -/
def nextWith (it : Iterator) (f : Nat → EntryFaults) : Iterator × Except Status Unit :=
  if it.valid then it.readEntryAtWith f it.currentOffset else (it, .error (.NotFound "Invalid iterator"))

/-- The iterator behind `n` calls of `Next`. -/
def advanceWith (it : Iterator) (f : Nat → EntryFaults) : Nat → Iterator
  | 0 => it
  | n + 1 => ((it.advanceWith f n).nextWith f).1

end Iterator

/-! ## The entry in the file -/

/-- The entry that the bytes of the file from the offset on encode, and the offset of the next one. -/
def storedEntry (file : Bytes) (offset : Nat) : Option (Key × InternalEntry × Nat) :=
  match decodeVarint32 (file.drop offset) with
  | none => none
  | some (keyLen, q) =>
    (SSTableReader.entryIn (file.drop offset) offset ((file.drop offset).length - q.length) keyLen).toOption

/-- An entry is parsed from its own bytes. -/
theorem parseEntry_take {p : Bytes} {n varintLen keyLen : Nat} (h : varintLen + keyLen + 25 ≤ n) :
    SSTableReader.parseEntry (p.take n) varintLen keyLen = SSTableReader.parseEntry p varintLen keyLen := by
  have hq : (p.take n).drop varintLen = (p.drop varintLen).take (n - varintLen) := List.drop_take
  unfold SSTableReader.parseEntry
  simp only [hq]
  generalize p.drop varintLen = q
  have hkey : (q.take (n - varintLen)).take keyLen = q.take keyLen := by
    rw [List.take_take, Nat.min_eq_left (by omega)]
  have htail : (q.take (n - varintLen)).drop keyLen = (q.drop keyLen).take (n - varintLen - keyLen) := List.drop_take
  have hlen : (q.take (n - varintLen)).length < keyLen ↔ q.length < keyLen := by
    rw [List.length_take]
    omega
  rw [hkey, htail]
  generalize q.drop keyLen = t
  have hlen' : (t.take (n - varintLen - keyLen)).length < 25 ↔ t.length < 25 := by
    rw [List.length_take]
    omega
  have htype : (t.take (n - varintLen - keyLen)).getD 0 0 = t.getD 0 0 := by
    rw [List.getD_eq_getElem?_getD, List.getD_eq_getElem?_getD, List.getElem?_take, if_pos (by omega)]
  rw [htype, decodeFixed64_take (by omega), decodeFixed32_take (by omega), decodeFixed64_take (by omega),
    decodeFixed32_take (by omega)]
  simp only [hlen, hlen']

/-- It is parsed when they are there. -/
theorem parseEntry_ok_iff {p : Bytes} {varintLen keyLen : Nat} :
    (∃ x, SSTableReader.parseEntry p varintLen keyLen = .ok x) ↔ varintLen + keyLen + 25 ≤ p.length := by
  unfold SSTableReader.parseEntry
  simp only
  split
  · rename_i h
    rw [List.length_drop] at h
    exact ⟨fun ⟨x, hx⟩ => (by cases hx), fun _ => by omega⟩
  · rename_i h
    split
    · rename_i h'
      rw [List.length_drop, List.length_drop] at h'
      exact ⟨fun ⟨x, hx⟩ => (by cases hx), fun _ => by omega⟩
    · rename_i h'
      rw [List.length_drop] at h
      rw [List.length_drop, List.length_drop] at h'
      exact ⟨fun _ => by omega, fun _ => ⟨_, rfl⟩⟩

theorem entryIn_ok_iff {buf : Bytes} {offset varintLen keyLen : Nat} :
    (∃ x, SSTableReader.entryIn buf offset varintLen keyLen = .ok x) ↔ varintLen + keyLen + 25 ≤ buf.length := by
  rw [← parseEntry_ok_iff]
  unfold SSTableReader.entryIn
  cases SSTableReader.parseEntry buf varintLen keyLen with
  | error s => simp
  | ok x => simp

theorem entryIn_next {buf : Bytes} {offset varintLen keyLen : Nat} {x : Key × InternalEntry × Nat}
    (h : SSTableReader.entryIn buf offset varintLen keyLen = .ok x) : x.2.2 = offset + (varintLen + keyLen + 25) := by
  unfold SSTableReader.entryIn at h
  cases hp : SSTableReader.parseEntry buf varintLen keyLen with
  | error s =>
    rw [hp] at h
    cases h
  | ok y =>
    rw [hp] at h
    cases h
    rfl

/-- The entry lies in the file, and the next one behind it. -/
theorem storedEntry_next {file : Bytes} {offset : Nat} {x : Key × InternalEntry × Nat}
    (h : storedEntry file offset = some x) : offset < x.2.2 ∧ x.2.2 ≤ file.length := by
  unfold storedEntry at h
  cases hv : decodeVarint32 (file.drop offset) with
  | none =>
    rw [hv] at h
    cases h
  | some a =>
    rw [hv] at h
    simp only at h
    generalize (file.drop offset).length - a.2.length = varintLen at h
    cases hx : SSTableReader.entryIn (file.drop offset) offset varintLen a.1 with
    | error s =>
      rw [hx] at h
      cases h
    | ok y =>
      rw [hx] at h
      cases h
      have hnext := entryIn_next hx
      have hfits := entryIn_ok_iff.mp ⟨_, hx⟩
      rw [List.length_drop] at hfits
      omega

/-- What a buffer with the start of the file shows is the entry in the file. -/
theorem entryIn_stored {file : Bytes} {offset n m keyLen : Nat} {q : Bytes} {x : Key × InternalEntry × Nat}
    (hv : decodeVarint32 (slice file offset n) = some (keyLen, q))
    (hm : (slice file offset n).length - q.length + keyLen + 25 ≤ m)
    (hx : SSTableReader.entryIn (slice file offset m) offset ((slice file offset n).length - q.length) keyLen = .ok x) :
    storedEntry file offset = some x := by
  obtain ⟨q', hq', hlen⟩ := decodeVarint32_of_take hv
  unfold storedEntry
  rw [hq']
  simp only
  unfold slice at hx hm
  rw [hlen]
  unfold SSTableReader.entryIn at hx ⊢
  rw [parseEntry_take hm] at hx
  rw [hx]
  rfl

/-! ## One entry -/

namespace SSTableReader

variable {r : SSTableReader} {offset : Nat} {f : EntryFaults} {x : Key × InternalEntry × Nat}

/-- The part behind the length, when it was read from the file: the entry is the stored one, and the read did not fail. -/
theorem readRestWith_stored {file : Bytes} {n keyLen : Nat} {q : Bytes} {fault : ReadFault}
    (hv : decodeVarint32 (slice file offset n) = some (keyLen, q))
    (hx : (readRestWith file offset (slice file offset n) q keyLen fault).1 = .ok x) :
    storedEntry file offset = some x ∧
      ∀ o ∈ (readRestWith file offset (slice file offset n) q keyLen fault).2, o = .none := by
  unfold readRestWith at hx ⊢
  simp only at hx ⊢
  split at hx
  · rename_i hlt
    rw [if_pos hlt]
    cases fault with
    | none => exact ⟨entryIn_stored hv (Nat.le_refl _) hx, fun o ho => List.mem_singleton.mp ho⟩
    | seek => cases hx
    | read k => cases hx
  · rename_i hge
    rw [if_neg hge]
    have hlen : (slice file offset n).length ≤ n := List.length_take_le _ _
    exact ⟨entryIn_stored hv (by omega) hx, fun o ho => by cases ho⟩

/-- Whether it hands out an entry. -/
theorem readRestWith_ok_iff {file buf q : Bytes} {keyLen : Nat} {fault : ReadFault} :
    (∃ x, (readRestWith file offset buf q keyLen fault).1 = .ok x) ↔
      (buf.length < buf.length - q.length + keyLen + 25 →
        fault = .none ∧ offset + (buf.length - q.length + keyLen + 25) ≤ file.length) := by
  unfold readRestWith
  simp only
  split
  · rename_i hlt
    cases fault with
    | none =>
      have hlen : ∀ n, (slice file offset (n + 25)).length = min (n + 25) (file.length - offset) := fun n => by
        rw [slice, List.length_take, List.length_drop]
      show (∃ x, entryIn (slice file offset _) offset _ _ = .ok x) ↔ _
      rw [entryIn_ok_iff, hlen]
      simp only [true_and]
      omega
    | seek =>
      constructor
      · rintro ⟨x, hx⟩
        cases hx
      · intro h
        cases (h hlt).1
    | read k =>
      constructor
      · rintro ⟨x, hx⟩
        cases hx
      · intro h
        cases (h hlt).1
  · rename_i hge
    show (∃ x, entryIn buf offset _ _ = .ok x) ↔ _
    rw [entryIn_ok_iff]
    omega

/-- An `IOError` of the first read is passed over. -/
theorem readEntryAtWith_eq : r.readEntryAtWith offset f = readEntryAtWith.afterProbe r offset f
    (readBytes r.file offset 64 [] f.probe).1 := by
  unfold readEntryAtWith
  cases f.probe <;> rfl

/-- Behind a first read that shows the length. -/
theorem afterProbe_some {buf q : Bytes} {keyLen : Nat} (hv : decodeVarint32 buf = some (keyLen, q)) :
    readEntryAtWith.afterProbe r offset f buf = ((readRestWith r.file offset buf q keyLen f.rest).1,
      f.probe :: (readRestWith r.file offset buf q keyLen f.rest).2) := by
  have hne : buf ≠ [] := fun h => by
    rw [h] at hv
    cases hv
  unfold readEntryAtWith.afterProbe
  rw [if_neg hne, hv]

/-- Behind one that does not, an entry takes a second read of the length. -/
theorem afterProbe_none {buf : Bytes} (hv : decodeVarint32 buf = none)
    (hx : (readEntryAtWith.afterProbe r offset f buf).1 = .ok x) :
    f.retry = .none ∧ ∃ keyLen q, decodeVarint32 (slice r.file offset 128) = some (keyLen, q) := by
  unfold readEntryAtWith.afterProbe at hx
  by_cases hne : buf = []
  · rw [if_pos hne] at hx
    cases hx
  · rw [if_neg hne, hv] at hx
    cases hr : f.retry with
    | seek => rw [hr] at hx; cases hx
    | read k => rw [hr] at hx; cases hx
    | none =>
      refine ⟨rfl, ?_⟩
      cases hv' : decodeVarint32 (slice r.file offset 128) with
      | some a => exact ⟨a.1, a.2, rfl⟩
      | none =>
        rw [hr] at hx
        simp only [readBytes, hv'] at hx
        cases hx

/-- A buffer of 64 bytes of the file shows the length when a longer one does. -/
theorem decodeVarint32_slice {file : Bytes} {n m keyLen : Nat} {q : Bytes} (hn : 5 ≤ n)
    (hv : decodeVarint32 (slice file offset m) = some (keyLen, q)) :
    ∃ q', decodeVarint32 (slice file offset n) = some (keyLen, q') := by
  obtain ⟨q', hq', -⟩ := decodeVarint32_of_take hv
  obtain ⟨q'', hq'', -⟩ := decodeVarint32_take hn hq'
  exact ⟨q'', hq''⟩

/-- **When the first read succeeds**, what is handed out is stored, and no read failed. -/
theorem readEntryAtWith_stored (hf : f.probe = .none) (hx : (r.readEntryAtWith offset f).1 = .ok x) :
    storedEntry r.file offset = some x ∧ ∀ o ∈ (r.readEntryAtWith offset f).2, o = .none := by
  have hprobe : (readBytes r.file offset 64 [] f.probe).1 = slice r.file offset 64 := by rw [hf]; rfl
  rw [readEntryAtWith_eq, hprobe] at hx ⊢
  cases hv : decodeVarint32 (slice r.file offset 64) with
  | some a =>
    obtain ⟨keyLen, q⟩ := a
    rw [afterProbe_some hv] at hx ⊢
    obtain ⟨hs, hm⟩ := readRestWith_stored hv hx
    exact ⟨hs, fun o ho => (List.mem_cons.mp ho).elim (fun h => h.trans hf) (hm o)⟩
  | none =>
    obtain ⟨-, keyLen, q, hv'⟩ := afterProbe_none hv hx
    obtain ⟨q', hq'⟩ := decodeVarint32_slice (n := 64) (by omega) hv'
    rw [hv] at hq'
    cases hq'

/-! ## A first read that fails -/

/-- What it leaves in the buffer: a part of the file shorter than the buffer, and zeros. -/
theorem probe_buffer (file : Bytes) (offset : Nat) {fault : ReadFault} (h : fault ≠ .none) :
    ∃ k, (slice file offset k).length ≤ 63 ∧ (readBytes file offset 64 [] fault).1 =
      slice file offset k ++ 0 :: List.replicate (63 - (slice file offset k).length) 0 := by
  cases fault with
  | none => exact absurd rfl h
  | seek => exact ⟨0, Nat.zero_le _, rfl⟩
  | read k =>
    have hlen : (slice file offset (min k 63)).length ≤ 63 := (List.length_take_le _ _).trans (Nat.min_le_right _ _)
    have hres : resize [] 64 = List.replicate 64 0 := rfl
    refine ⟨min k 63, hlen, ?_⟩
    show slice file offset (min k 63) ++ (resize [] 64).drop (slice file offset (min k 63)).length = _
    rw [hres, List.drop_replicate, show ∀ m, m ≤ 63 → 64 - m = (63 - m) + 1 by omega, List.replicate_succ]
    exact hlen

theorem length_probe (file : Bytes) (offset : Nat) {fault : ReadFault} (h : fault ≠ .none) :
    (readBytes file offset 64 [] fault).1.length = 64 := by
  obtain ⟨k, hlen, hk⟩ := probe_buffer file offset h
  rw [hk, List.length_append, List.length_cons, List.length_replicate]
  omega

/-- When no length is in the buffer, no longer one shows it. -/
theorem probe_none {file : Bytes} {fault : ReadFault} (h : fault ≠ .none) {m keyLen : Nat} {q : Bytes}
    (hv : decodeVarint32 (readBytes file offset 64 [] fault).1 = none) :
    decodeVarint32 (slice file offset m) ≠ some (keyLen, q) := by
  intro hm
  obtain ⟨k, -, hk⟩ := probe_buffer file offset h
  rw [hk] at hv
  by_cases hlen : (slice file offset k).length < 5
  · have := decodeVarint32_zero (List.replicate (63 - (slice file offset k).length) 0) hlen
    rw [hv] at this
    cases this
  · have hk5 : 5 ≤ k := (Nat.not_lt.mp hlen).trans (List.length_take_le _ _)
    obtain ⟨q', hq'⟩ := decodeVarint32_slice hk5 hm
    obtain ⟨pre, hp, -, -, hq⟩ := decodeVarint32_some hq'
    rw [hp, List.append_assoc, hq] at hv
    cases hv

/-- An entry is handed out all the same when the buffer shows a length with which the entry is in the buffer, or can be
read from the file. -/
theorem readEntryAtWith_failed_iff (hf : f.probe ≠ .none) :
    (∃ x, (r.readEntryAtWith offset f).1 = .ok x) ↔
      ∃ keyLen q, decodeVarint32 (readBytes r.file offset 64 [] f.probe).1 = some (keyLen, q) ∧
        (64 < 64 - q.length + keyLen + 25 → f.rest = .none ∧ offset + (64 - q.length + keyLen + 25) ≤ r.file.length) := by
  rw [readEntryAtWith_eq]
  have hlen := length_probe r.file offset hf
  constructor
  · rintro ⟨x, hx⟩
    cases hv : decodeVarint32 (readBytes r.file offset 64 [] f.probe).1 with
    | none =>
      obtain ⟨-, keyLen, q, hv'⟩ := afterProbe_none hv hx
      exact absurd hv' (probe_none hf hv)
    | some a =>
      obtain ⟨keyLen, q⟩ := a
      rw [afterProbe_some hv] at hx
      have := readRestWith_ok_iff.mp ⟨x, hx⟩
      rw [hlen] at this
      exact ⟨keyLen, q, rfl, this⟩
  · rintro ⟨keyLen, q, hv, h⟩
    rw [afterProbe_some hv]
    refine readRestWith_ok_iff.mpr ?_
    rw [hlen]
    exact h

/-- What is handed out is stored in the file, and no read of it failed. -/
def Truthful (r : SSTableReader) (offset : Nat) (f : EntryFaults) : Prop :=
  ∀ x, (r.readEntryAtWith offset f).1 = .ok x →
    storedEntry r.file offset = some x ∧ ∀ o ∈ (r.readEntryAtWith offset f).2, o = .none

/-- The first read succeeds; or what it leaves in the buffer starts with no length, or with one whose entry does not fit
into the buffer, while the read of the whole entry fails or ends before it. -/
def Harmless (r : SSTableReader) (offset : Nat) (f : EntryFaults) : Prop :=
  f.probe = .none ∨ ∀ keyLen q, decodeVarint32 (readBytes r.file offset 64 [] f.probe).1 = some (keyLen, q) →
    64 < 64 - q.length + keyLen + 25 ∧ (f.rest = .none → r.file.length < offset + (64 - q.length + keyLen + 25))

/-- A first read that failed is among the reads made. -/
theorem probe_mem : f.probe ∈ (r.readEntryAtWith offset f).2 := by
  rw [readEntryAtWith_eq]
  unfold readEntryAtWith.afterProbe
  generalize (readBytes r.file offset 64 [] f.probe).1 = buf
  by_cases hne : buf = []
  · rw [if_pos hne]
    exact List.mem_singleton_self _
  · rw [if_neg hne]
    cases decodeVarint32 buf with
    | some a => exact List.mem_cons_self
    | none =>
      simp only
      generalize readBytes r.file offset 128 buf f.retry = y
      obtain ⟨buf', s⟩ := y
      cases s with
      | error e => exact List.mem_cons_self
      | ok u =>
        simp only
        cases decodeVarint32 buf' with
        | none => exact List.mem_cons_self
        | some a => exact List.mem_cons_self

/-- **One entry is read truthfully** exactly when its first read is harmless. -/
theorem truthful_iff : r.Truthful offset f ↔ r.Harmless offset f := by
  by_cases hf : f.probe = .none
  · exact ⟨fun _ => Or.inl hf, fun _ x hx => readEntryAtWith_stored hf hx⟩
  · have hiff := @readEntryAtWith_failed_iff r offset f hf
    constructor
    · refine fun h => Or.inr fun keyLen q hv => ?_
      by_contra hc
      obtain ⟨x, hx⟩ := hiff.mpr ⟨keyLen, q, hv, fun hlt => by
        by_contra hn
        exact hc ⟨hlt, fun hr => Nat.lt_of_not_le fun hle => hn ⟨hr, hle⟩⟩⟩
      exact hf ((h x hx).2 _ probe_mem)
    · rintro (h | h) x hx
      · exact absurd h hf
      · obtain ⟨keyLen, q, hv, hr⟩ := hiff.mp ⟨x, hx⟩
        obtain ⟨hlt, hrest⟩ := h keyLen q hv
        have := hrest (hr hlt).1
        have := (hr hlt).2
        omega

/-! ## Reads without a failure -/

theorem readRestWith_none (file : Bytes) (offset : Nat) (buf q : Bytes) (keyLen : Nat) :
    (readRestWith file offset buf q keyLen .none).1 = readRest file offset buf q keyLen := by
  unfold readRestWith readRest entryIn
  simp only
  split <;> rfl

/-- They are those of `ReadEntryAt`. -/
theorem readEntryAtWith_none (r : SSTableReader) (offset : Nat) : (r.readEntryAtWith offset {}).1 = r.readEntryAt offset := by
  rw [readEntryAtWith_eq]
  show (readEntryAtWith.afterProbe r offset {} (slice r.file offset 64)).1 = _
  unfold readEntryAt readEntryAtWith.afterProbe
  simp only [readBytes]
  by_cases hne : slice r.file offset 64 = []
  · rw [if_pos hne, if_pos hne]
  · rw [if_neg hne, if_neg hne]
    cases decodeVarint32 (slice r.file offset 64) with
    | some a => exact readRestWith_none _ _ _ _ _
    | none =>
      simp only
      cases decodeVarint32 (slice r.file offset 128) with
      | some a => exact readRestWith_none _ _ _ _ _
      | none => rfl

theorem scanWith_none (r : SSTableReader) (key : Key) (endOffset : Nat) :
    ∀ n offset, r.scanWith (fun _ => {}) key endOffset n offset = r.scan key endOffset n offset
  | 0, _ => rfl
  | n + 1, offset => by
    rw [scanWith, scan, readEntryAtWith_none]
    split
    · cases r.readEntryAt offset with
      | error s => rfl
      | ok x =>
        simp only
        rw [scanWith_none r key endOffset n]
    · rfl

theorem getWith_none (r : SSTableReader) (key : Key) : r.getWith (fun _ => {}) key = r.get key := by
  unfold getWith get
  simp only [scanWith_none]

/-! ## Lookups and the iterator -/

/-- Every entry of the file is read truthfully. -/
theorem scanWith_stored {f : Nat → EntryFaults} (h : ∀ offset, r.Harmless offset (f offset)) {key : Key} {endOffset : Nat}
    {e : InternalEntry} : ∀ (n offset : Nat), r.scanWith f key endOffset n offset = .ok e →
      ∃ offset next, storedEntry r.file offset = some (key, e, next)
  | 0, _, he => by cases he
  | n + 1, offset, he => by
    rw [scanWith] at he
    split at he
    · cases hx : (r.readEntryAtWith offset (f offset)).1 with
      | error s => rw [hx] at he; cases he
      | ok x =>
        obtain ⟨k, e', next⟩ := x
        rw [hx] at he
        simp only at he
        split at he
        · rename_i hk
          cases he
          exact ⟨offset, next, by rw [← hk]; exact (truthful_iff.mpr (h offset) _ hx).1⟩
        · split at he
          · cases he
          · exact scanWith_stored h n next he
    · cases he

/-- **A lookup** reports an entry of the file. -/
theorem getWith_stored {f : Nat → EntryFaults} (h : ∀ offset, r.Harmless offset (f offset)) {key : Key} {e : InternalEntry}
    (he : r.getWith f key = .ok e) : ∃ offset next, storedEntry r.file offset = some (key, e, next) := by
  unfold getWith at he
  split at he
  · cases he
  · split at he
    · cases he
    · exact scanWith_stored h _ _ he

end SSTableReader

namespace Iterator

/-- The iterator is over the table, and stands on an entry of the file or is invalid. -/
structure OnStored (r : SSTableReader) (it : Iterator) : Prop where
  reader : it.reader = r
  head : ∀ p, it.head = some p → ∃ offset next, storedEntry r.file offset = some (p.1, p.2, next)

theorem readEntryAtWith_onStored {r : SSTableReader} {f : Nat → EntryFaults} (h : ∀ offset, r.Harmless offset (f offset))
    {it : Iterator} (hr : it.reader = r) (offset : Nat) : OnStored r (it.readEntryAtWith f offset).1 := by
  unfold Iterator.readEntryAtWith
  split
  · exact ⟨hr, fun p hp => by cases hp⟩
  · cases hx : (it.reader.readEntryAtWith offset (f offset)).1 with
    | error s => exact ⟨hr, fun p hp => by cases hp⟩
    | ok x =>
      obtain ⟨k, e, next⟩ := x
      refine ⟨hr, fun p hp => ⟨offset, next, ?_⟩⟩
      rw [← Option.some.inj hp]
      rw [hr] at hx
      exact (SSTableReader.truthful_iff.mpr (h offset) _ hx).1

/-- **The iterator** reports entries of the file. -/
theorem advanceWith_onStored {r : SSTableReader} {f : Nat → EntryFaults} (h : ∀ offset, r.Harmless offset (f offset)) :
    ∀ n, OnStored r ((Iterator.seekToFirstWith { reader := r } f).1.advanceWith f n)
  | 0 => readEntryAtWith_onStored h rfl 0
  | n + 1 => by
    have ih := advanceWith_onStored h n
    rw [advanceWith, nextWith]
    split
    · exact readEntryAtWith_onStored h ih.reader _
    · exact ih

end Iterator

/-! ## The reads of a table -/

/-- **The reads of a table.** An entry is read truthfully, from every place of every file and whatever fails, exactly when
its first read is harmless; when all of them are, the lookups and the iterator report entries of the file only. -/
theorem entry_reads_iff (r : SSTableReader) :
    (∀ offset f, r.Truthful offset f ↔ r.Harmless offset f) ∧
      ∀ f : Nat → EntryFaults, (∀ offset, r.Harmless offset (f offset)) →
        (∀ key e, r.getWith f key = .ok e → ∃ offset next, storedEntry r.file offset = some (key, e, next)) ∧
        ∀ n p, ((Iterator.seekToFirstWith { reader := r } f).1.advanceWith f n).head = some p →
          ∃ offset next, storedEntry r.file offset = some (p.1, p.2, next) :=
  ⟨fun _ _ => SSTableReader.truthful_iff, fun _ h => ⟨fun _ _ he => SSTableReader.getWith_stored h he,
    fun n => (Iterator.advanceWith_onStored h n).head⟩⟩

/-- The table with one entry, as the writer leaves it and the reader opens it. -/
def oneEntry : Except Status SSTableReader :=
  match SSTableWriter.writeFile { bloomBitsPerKey := 0 } [([1], ⟨⟨1, 0, 1⟩, 2, .deletion⟩)] with
  | some (.ok file) => SSTableReader.openFile file
  | _ => .error (.IOError "fwrite")

/-- **A seek that fails**: the entry of sixty-four zeros is handed out, and the iterator reports it. -/
theorem seek_fabricates :
    (oneEntry.toOption.map fun r => (storedEntry r.file 0, (r.readEntryAtWith 0 { probe := .seek }).1.toOption,
      (Iterator.seekToFirstWith { reader := r } fun _ => { probe := .seek }).1.head)) =
        some (some ([1], ⟨⟨1, 0, 1⟩, 2, .deletion⟩, 27), some ([], ⟨⟨0, 0, 0⟩, 0, .other 0⟩, 26),
          some ([], ⟨⟨0, 0, 0⟩, 0, .other 0⟩)) ∧
      ∃ r, oneEntry.toOption = some r ∧ ¬r.Truthful 0 { probe := .seek } := by
  have heval : (oneEntry.toOption.map fun r => (storedEntry r.file 0, (r.readEntryAtWith 0 { probe := .seek }).1.toOption,
      (Iterator.seekToFirstWith { reader := r } fun _ => { probe := .seek }).1.head)) =
        some (some ([1], ⟨⟨1, 0, 1⟩, 2, .deletion⟩, 27), some ([], ⟨⟨0, 0, 0⟩, 0, .other 0⟩, 26),
          some ([], ⟨⟨0, 0, 0⟩, 0, .other 0⟩)) := by rfl
  refine ⟨heval, ?_⟩
  cases h : oneEntry.toOption with
  | none => rw [h] at heval; cases heval
  | some r =>
    rw [h] at heval
    obtain ⟨hstored, hrest⟩ := Prod.mk.inj (Option.some.inj heval)
    refine ⟨r, rfl, fun ht => ?_⟩
    cases hx : (r.readEntryAtWith 0 { probe := .seek }).1 with
    | error e => rw [hx] at hrest; cases hrest
    | ok x => exact absurd ((ht x hx).2 _ SSTableReader.probe_mem) (by decide)

end Format

end SplitKV
