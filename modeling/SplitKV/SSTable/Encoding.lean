import SplitKV.SSTable.Format

/-!
# What was written is read back

An entry is read back wherever it lies in the data section (`readEntryAt_encode`), although the first read of 64 bytes may
end inside it; the index, the filter and the footer are read back from the end of the file (`openFile_encode`). The
writer of bytes simulates the writer of entries (`Simulates.add`), and so writes every sorted list (`writeFile_spec`).
-/

namespace SplitKV

open Assoc

namespace Format

/-! ## One entry -/

/-- The fields of an entry have their types. -/
structure Fits (p : Key × InternalEntry) : Prop where
  key : p.1.length < 2 ^ 32
  type : ValueType.ofByte p.2.type.toByte = p.2.type
  sequence : p.2.sequence < 2 ^ 64
  fileId : p.2.vlogPtr.fileId < 2 ^ 32
  offset : p.2.vlogPtr.offset < 2 ^ 64
  valueSize : p.2.vlogPtr.valueSize < 2 ^ 32

instance (p : Key × InternalEntry) : Decidable (Fits p) :=
  decidable_of_iff (p.1.length < 2 ^ 32 ∧ ValueType.ofByte p.2.type.toByte = p.2.type ∧ p.2.sequence < 2 ^ 64 ∧
      p.2.vlogPtr.fileId < 2 ^ 32 ∧ p.2.vlogPtr.offset < 2 ^ 64 ∧ p.2.vlogPtr.valueSize < 2 ^ 32)
    ⟨fun ⟨h₁, h₂, h₃, h₄, h₅, h₆⟩ => ⟨h₁, h₂, h₃, h₄, h₅, h₆⟩, fun ⟨h₁, h₂, h₃, h₄, h₅, h₆⟩ => ⟨h₁, h₂, h₃, h₄, h₅, h₆⟩⟩

/-- Type, sequence number and pointer of an entry. -/
def encodeTail (entry : InternalEntry) : Bytes :=
  entry.type.toByte :: (encodeFixed64 entry.sequence ++ encodePointer entry.vlogPtr)

@[simp] theorem length_encodeTail (entry : InternalEntry) : (encodeTail entry).length = 25 := by
  simp [encodeTail, encodePointer]

theorem encodeEntry_eq {key : Key} (h : key.length < 2 ^ 32) (entry : InternalEntry) :
    encodeEntry key entry = encodeVarint32 key.length ++ (key ++ encodeTail entry) := by
  rw [encodeEntry, Nat.mod_eq_of_lt h]
  rfl

theorem length_encodeEntry {key : Key} (h : key.length < 2 ^ 32) (entry : InternalEntry) :
    (encodeEntry key entry).length = entrySize key := by
  rw [encodeEntry_eq h, entrySize]
  simp
  omega

/-- The fields behind the key. -/
theorem decode_tail {p : Key × InternalEntry} (h : Fits p) (rest : Bytes) :
    ValueType.ofByte ((encodeTail p.2 ++ rest).getD 0 0) = p.2.type ∧
      decodeFixed64 ((encodeTail p.2 ++ rest).drop 1) = p.2.sequence ∧
      decodeFixed32 ((encodeTail p.2 ++ rest).drop 9) = p.2.vlogPtr.fileId ∧
      decodeFixed64 ((encodeTail p.2 ++ rest).drop 13) = p.2.vlogPtr.offset ∧
      decodeFixed32 ((encodeTail p.2 ++ rest).drop 21) = p.2.vlogPtr.valueSize := by
  have h₁ : (encodeTail p.2 ++ rest).drop 1 = encodeFixed64 p.2.sequence ++ (encodePointer p.2.vlogPtr ++ rest) := by
    simp [encodeTail]
  have h₂ : (encodeTail p.2 ++ rest).drop 9 = encodeFixed32 p.2.vlogPtr.fileId ++
      (encodeFixed64 p.2.vlogPtr.offset ++ (encodeFixed32 p.2.vlogPtr.valueSize ++ rest)) := by
    rw [show 9 = 1 + 8 from rfl, ← List.drop_drop, h₁, drop_encodeFixed64]
    simp [encodePointer]
  have h₃ : (encodeTail p.2 ++ rest).drop 13 =
      encodeFixed64 p.2.vlogPtr.offset ++ (encodeFixed32 p.2.vlogPtr.valueSize ++ rest) := by
    rw [show 13 = 9 + 4 from rfl, ← List.drop_drop, h₂, drop_encodeFixed32]
  have h₄ : (encodeTail p.2 ++ rest).drop 21 = encodeFixed32 p.2.vlogPtr.valueSize ++ rest := by
    rw [show 21 = 13 + 8 from rfl, ← List.drop_drop, h₃, drop_encodeFixed64]
  refine ⟨h.type, ?_, ?_, ?_, ?_⟩
  · rw [h₁, decodeFixed64_encode h.sequence]
  · rw [h₂, decodeFixed32_encode h.fileId]
  · rw [h₃, decodeFixed64_encode h.offset]
  · rw [h₄, decodeFixed32_encode h.valueSize]

/-- A buffer that starts with an entry is parsed to the entry. -/
theorem parseEntry_encode {p : Key × InternalEntry} (h : Fits p) (rest : Bytes) :
    SSTableReader.parseEntry (encodeEntry p.1 p.2 ++ rest) (encodeVarint32 p.1.length).length p.1.length = .ok p := by
  obtain ⟨h₁, h₂, h₃, h₄, h₅⟩ := decode_tail h rest
  have hq : (encodeEntry p.1 p.2 ++ rest).drop (encodeVarint32 p.1.length).length = p.1 ++ (encodeTail p.2 ++ rest) := by
    rw [encodeEntry_eq h.key, List.append_assoc, List.drop_left, List.append_assoc]
  unfold SSTableReader.parseEntry
  simp only [hq, List.drop_left, List.take_left, h₁, h₂, h₃, h₄, h₅]
  rw [if_neg (by simp), if_neg (by simp)]

/-- **An entry is read back** wherever it lies, and whatever follows it. -/
theorem readEntryAt_encode {r : SSTableReader} {p : Key × InternalEntry} (h : Fits p) {pre post : Bytes}
    (hr : r.file = pre ++ (encodeEntry p.1 p.2 ++ post)) :
    r.readEntryAt pre.length = .ok (p.1, p.2, pre.length + entrySize p.1) := by
  have hlen := length_encodeEntry h.key p.2
  have hslice : ∀ n, slice r.file pre.length n = (encodeEntry p.1 p.2 ++ post).take n := by
    intro n
    rw [hr, slice, List.drop_left]
  have hv := length_encodeVarint32_le h.key
  -- the first read holds the whole length
  have hbuf : slice r.file pre.length 64 = encodeVarint32 p.1.length ++
      (p.1 ++ (encodeTail p.2 ++ post)).take (64 - (encodeVarint32 p.1.length).length) := by
    rw [hslice, encodeEntry_eq h.key, List.append_assoc, List.append_assoc, List.take_append,
      List.take_of_length_le (by omega)]
  have hdec : decodeVarint32 (slice r.file pre.length 64) = some (p.1.length,
      (p.1 ++ (encodeTail p.2 ++ post)).take (64 - (encodeVarint32 p.1.length).length)) := by
    rw [hbuf, decodeVarint32_encode h.key]
  have hne : slice r.file pre.length 64 ≠ [] := by
    rw [hbuf]
    exact List.append_ne_nil_of_left_ne_nil (encodeVarint32_ne_nil _) _
  have hlen' : (slice r.file pre.length 64).length -
      ((p.1 ++ (encodeTail p.2 ++ post)).take (64 - (encodeVarint32 p.1.length).length)).length =
      (encodeVarint32 p.1.length).length := by
    rw [hbuf, List.length_append]
    omega
  have htotal : (encodeVarint32 p.1.length).length + p.1.length + 1 + 8 + 16 = entrySize p.1 := rfl
  -- the buffer that is parsed starts with the entry
  have hstart : ∃ rest, (if (slice r.file pre.length 64).length < entrySize p.1
      then slice r.file pre.length (entrySize p.1) else slice r.file pre.length 64) = encodeEntry p.1 p.2 ++ rest := by
    split
    · refine ⟨[], ?_⟩
      rw [hslice, ← hlen, List.take_left, List.append_nil]
    · rename_i hle
      refine ⟨post.take (64 - (encodeEntry p.1 p.2).length), ?_⟩
      rw [hslice] at hle ⊢
      have h64 : (encodeEntry p.1 p.2).length ≤ 64 := by
        have := List.length_take_le 64 (encodeEntry p.1 p.2 ++ post)
        omega
      rw [List.take_append, List.take_of_length_le h64]
  obtain ⟨rest, hstart⟩ := hstart
  unfold SSTableReader.readEntryAt
  simp only [hne, if_false, hdec]
  unfold SSTableReader.readRest
  simp only [hlen', htotal, hstart, parseEntry_encode h rest]

/-! ## The trailer -/

/-- The fields of an index entry have their types. -/
def IndexFits (e : SparseIndexEntry) : Prop := e.key.length < 2 ^ 32 ∧ e.dataOffset < 2 ^ 64

theorem encodeIndex_cons {e : SparseIndexEntry} (h : IndexFits e) (index : List SparseIndexEntry) :
    encodeIndex (e :: index) =
      encodeVarint32 e.key.length ++ (e.key ++ (encodeFixed64 e.dataOffset ++ encodeIndex index)) := by
  rw [encodeIndex, List.flatMap_cons, Nat.mod_eq_of_lt h.1, ← encodeIndex, List.append_assoc, List.append_assoc]

/-- The index takes the bytes that are counted for it. -/
theorem length_encodeIndex {index : List SparseIndexEntry} (h : ∀ e ∈ index, IndexFits e) :
    (encodeIndex index).length = indexSize index := by
  induction index with
  | nil => rfl
  | cons e index ih =>
    rw [encodeIndex_cons (h e List.mem_cons_self), indexSize, List.map_cons, List.sum_cons, ← indexSize,
      ← ih fun e he => h e (List.mem_cons_of_mem _ he)]
    simp
    omega

theorem length_le_encodeIndex (index : List SparseIndexEntry) : index.length ≤ (encodeIndex index).length := by
  induction index with
  | nil => exact Nat.le_refl _
  | cons e index ih =>
    rw [encodeIndex, List.flatMap_cons, ← encodeIndex]
    simp only [List.length_append, List.length_cons, length_encodeFixed64]
    omega

/-- **The index is read back.** -/
theorem sparseIndexLoop_encode : ∀ (index : List SparseIndexEntry) (n : Nat), (∀ e ∈ index, IndexFits e) →
    index.length ≤ n → SSTableReader.sparseIndexLoop n (encodeIndex index) = .ok index
  | [], 0, _, _ => rfl
  | [], n + 1, _, _ => rfl
  | e :: index, 0, _, hn => absurd hn (by simp)
  | e :: index, n + 1, h, hn => by
    have he := h e List.mem_cons_self
    have hne : encodeIndex (e :: index) ≠ [] := by
      rw [encodeIndex_cons he]
      exact List.append_ne_nil_of_left_ne_nil (encodeVarint32_ne_nil _) _
    have ih := sparseIndexLoop_encode index n (fun e he => h e (List.mem_cons_of_mem _ he)) (by simpa using hn)
    rw [SSTableReader.sparseIndexLoop, if_neg hne, encodeIndex_cons he]
    simp only [decodeVarint32_encode he.1, List.drop_left, List.take_left, drop_encodeFixed64, ih,
      decodeFixed64_encode he.2]
    rw [if_neg (by simp), if_neg (by simp)]

/-- The reader of a table with this index and this filter. -/
def readerOf (file : Bytes) (dataSize : Nat) (index : List SparseIndexEntry) (bloom : BloomFilter) (numEntries : Nat) :
    SSTableReader :=
  { file := file
    bloom := (BloomFilter.new 0).setRawData bloom.data bloom.numHashes
    sparseIndex := index
    numEntries := numEntries
    dataEndOffset := dataSize
    smallestKey := (index.head?.map SparseIndexEntry.key).getD []
    largestKey := (index.getLast?.map SparseIndexEntry.key).getD [] }

/-- The file that `Finish` leaves. -/
def encodeFile (data : Bytes) (index : List SparseIndexEntry) (bloom : BloomFilter) (numEntries : Nat) : Bytes :=
  data ++ encodeIndex index ++ encodeBloom bloom ++ encodeFooter data.length (encodeIndex index).length
    (data.length + (encodeIndex index).length) (encodeBloom bloom).length numEntries

theorem encodeFile_start (data : Bytes) (index : List SparseIndexEntry) (bloom : BloomFilter) (numEntries : Nat) :
    ∃ trailer, encodeFile data index bloom numEntries = data ++ trailer := by
  rw [encodeFile, List.append_assoc, List.append_assoc]
  exact ⟨_, rfl⟩

theorem length_encodeFooter (a b c d e : Nat) : (encodeFooter a b c d e).length = 48 := rfl

/-- The fields of the footer. -/
theorem decode_footer {a b c d e : Nat} (ha : a < 2 ^ 64) (hb : b < 2 ^ 64) (hc : c < 2 ^ 64) (hd : d < 2 ^ 64)
    (he : e < 2 ^ 64) :
    decodeFixed64 (encodeFooter a b c d e) = a ∧ decodeFixed64 ((encodeFooter a b c d e).drop 8) = b ∧
      decodeFixed64 ((encodeFooter a b c d e).drop 16) = c ∧ decodeFixed64 ((encodeFooter a b c d e).drop 24) = d ∧
      decodeFixed64 ((encodeFooter a b c d e).drop 32) = e ∧
      decodeFixed64 ((encodeFooter a b c d e).drop 40) = kMagicNumber := by
  have h₁ : (encodeFooter a b c d e).drop 8 = encodeFixed64 b ++ (encodeFixed64 c ++ (encodeFixed64 d ++
      (encodeFixed64 e ++ encodeFixed64 kMagicNumber))) := rfl
  have h₂ : (encodeFooter a b c d e).drop 16 = encodeFixed64 c ++ (encodeFixed64 d ++
      (encodeFixed64 e ++ encodeFixed64 kMagicNumber)) := rfl
  have h₃ : (encodeFooter a b c d e).drop 24 = encodeFixed64 d ++ (encodeFixed64 e ++ encodeFixed64 kMagicNumber) := rfl
  have h₄ : (encodeFooter a b c d e).drop 32 = encodeFixed64 e ++ encodeFixed64 kMagicNumber := rfl
  have h₅ : (encodeFooter a b c d e).drop 40 = encodeFixed64 kMagicNumber ++ [] := rfl
  rw [h₁, h₂, h₃, h₄, h₅, encodeFooter]
  exact ⟨decodeFixed64_encode ha _, decodeFixed64_encode hb _, decodeFixed64_encode hc _, decodeFixed64_encode hd _,
    decodeFixed64_encode he _, decodeFixed64_encode (by decide) _⟩

theorem loadSparseIndex_encode {index : List SparseIndexEntry} (hi : ∀ e ∈ index, IndexFits e) {r : SSTableReader}
    {pre post : Bytes} (hr : r.file = pre ++ (encodeIndex index ++ post)) (h₀ : r.sparseIndex = [])
    (h₁ : r.smallestKey = []) (h₂ : r.largestKey = []) :
    r.loadSparseIndex pre.length (encodeIndex index).length = .ok { r with
      sparseIndex := index
      smallestKey := (index.head?.map SparseIndexEntry.key).getD []
      largestKey := (index.getLast?.map SparseIndexEntry.key).getD [] } := by
  have hslice : slice r.file pre.length (encodeIndex index).length = encodeIndex index := by
    rw [hr]
    exact VLog.slice_append pre (encodeIndex index) post
  unfold SSTableReader.loadSparseIndex
  cases index with
  | nil =>
    rw [if_pos (show (encodeIndex []).length = 0 from rfl)]
    cases r
    simp only at h₀ h₁ h₂
    subst h₀ h₁ h₂
    rfl
  | cons e index =>
    have hpos : (encodeIndex (e :: index)).length ≠ 0 := by
      have := length_le_encodeIndex (e :: index)
      simp only [List.length_cons] at this
      omega
    rw [if_neg hpos, hslice, sparseIndexLoop_encode _ _ hi (length_le_encodeIndex _)]
    obtain ⟨b, hb⟩ : ∃ b, (e :: index).getLast? = some b := ⟨_, List.getLast?_eq_some_getLast (by simp)⟩
    simp only [List.head?_cons, hb, Option.map_some, Option.getD_some]

theorem loadBloomFilter_encode {bloom : BloomFilter} (hn : bloom.numHashes < 2 ^ 32) {r : SSTableReader}
    {pre post : Bytes} (hr : r.file = pre ++ (encodeBloom bloom ++ post)) :
    r.loadBloomFilter pre.length (encodeBloom bloom).length =
      { r with bloom := r.bloom.setRawData bloom.data bloom.numHashes } := by
  have hslice : slice r.file pre.length (encodeBloom bloom).length = encodeBloom bloom := by
    rw [hr]
    exact VLog.slice_append pre (encodeBloom bloom) post
  unfold SSTableReader.loadBloomFilter
  rw [if_neg (by simp [encodeBloom]), hslice]
  simp only [encodeBloom, drop_encodeFixed32, decodeFixed32_encode hn]

theorem length_encodeFile (data : Bytes) (index : List SparseIndexEntry) (bloom : BloomFilter) (numEntries : Nat) :
    (encodeFile data index bloom numEntries).length =
      data.length + (encodeIndex index).length + (encodeBloom bloom).length + 48 := by
  simp only [encodeFile, List.length_append, length_encodeFooter]

/-- The last 48 bytes are the footer. -/
theorem slice_footer (data : Bytes) (index : List SparseIndexEntry) (bloom : BloomFilter) (numEntries : Nat) :
    slice (encodeFile data index bloom numEntries) ((encodeFile data index bloom numEntries).length - 48) 48 =
      encodeFooter data.length (encodeIndex index).length (data.length + (encodeIndex index).length)
        (encodeBloom bloom).length numEntries := by
  rw [length_encodeFile, Nat.add_sub_cancel, slice, encodeFile, ← List.length_append, ← List.length_append, List.drop_left]
  exact List.take_of_length_le (Nat.le_of_eq (length_encodeFooter _ _ _ _ _))

/-- **The trailer is read back** from the end of the file. -/
theorem openFile_encode {data : Bytes} {index : List SparseIndexEntry} {bloom : BloomFilter} {numEntries : Nat}
    (hi : ∀ e ∈ index, IndexFits e) (hb : bloom.numHashes < 2 ^ 32) (hn : numEntries < 2 ^ 64)
    (hl : (encodeFile data index bloom numEntries).length < 2 ^ 64) :
    SSTableReader.openFile (encodeFile data index bloom numEntries) =
      .ok (readerOf (encodeFile data index bloom numEntries) data.length index bloom numEntries) := by
  have hlen := length_encodeFile data index bloom numEntries
  have hfooter := slice_footer data index bloom numEntries
  obtain ⟨d₁, d₂, d₃, d₄, d₅, d₆⟩ := decode_footer (show data.length < 2 ^ 64 by omega)
    (show (encodeIndex index).length < 2 ^ 64 by omega) (show data.length + (encodeIndex index).length < 2 ^ 64 by omega)
    (show (encodeBloom bloom).length < 2 ^ 64 by omega) hn
  have hfile : encodeFile data index bloom numEntries = data ++ (encodeIndex index ++ (encodeBloom bloom ++
      encodeFooter data.length (encodeIndex index).length (data.length + (encodeIndex index).length)
        (encodeBloom bloom).length numEntries)) := by
    rw [encodeFile, List.append_assoc, List.append_assoc]
  have hfile' : encodeFile data index bloom numEntries = (data ++ encodeIndex index) ++ (encodeBloom bloom ++
      encodeFooter data.length (encodeIndex index).length (data.length + (encodeIndex index).length)
        (encodeBloom bloom).length numEntries) := by
    rw [encodeFile, List.append_assoc]
  unfold SSTableReader.openFile SSTableReader.loadFooter
  simp only [hfooter, d₁, d₂, d₃, d₄, d₅, d₆]
  rw [if_neg (by omega), if_neg (by simp), loadSparseIndex_encode hi hfile rfl rfl rfl]
  simp only
  rw [← List.length_append, loadBloomFilter_encode hb hfile']
  rfl

/-! ## The writer -/

/-- The data section. -/
def encodeEntries (l : List (Key × InternalEntry)) : Bytes := l.flatMap fun p => encodeEntry p.1 p.2

theorem length_encodeEntries {l : List (Key × InternalEntry)} (h : ∀ p ∈ l, p.1.length < 2 ^ 32) :
    (encodeEntries l).length = dataSize l := by
  induction l with
  | nil => rfl
  | cons p l ih =>
    rw [encodeEntries, List.flatMap_cons, ← encodeEntries, List.length_append, dataSize_cons,
      length_encodeEntry (h p List.mem_cons_self), ih fun q hq => h q (List.mem_cons_of_mem _ hq)]

/-- The writer of bytes has written what the writer of entries has written. -/
structure Simulates (w : SSTableWriter) (wl : SplitKV.SSTableWriter) : Prop where
  sparseIndexInterval : w.sparseIndexInterval = wl.sparseIndexInterval
  bloomBitsPerKey : w.bloomBitsPerKey = wl.bloomBitsPerKey
  file : w.file = encodeEntries wl.entries
  numEntries : w.numEntries = wl.numEntries
  dataOffset : w.dataOffset = wl.dataOffset
  smallestKey : w.smallestKey = wl.smallestKey
  largestKey : w.largestKey = wl.largestKey
  sparseIndex : w.sparseIndex = wl.sparseIndex
  entriesSinceLastIndex : w.entriesSinceLastIndex = wl.entriesSinceLastIndex
  keyStorage : w.keyStorage = wl.keyStorage
  finished : w.finished = wl.finished

theorem simulates_new (o : Options) : Simulates (.new o) (.new o) := ⟨rfl, rfl, rfl, rfl, rfl, rfl, rfl, rfl, rfl, rfl, rfl⟩

/-- `Add` on both sides. -/
theorem Simulates.add {w : SSTableWriter} {wl wl' : SplitKV.SSTableWriter} (h : Simulates w wl) {key : Key}
    (hk : key.length < 2 ^ 32) {entry : InternalEntry} (ha : wl.add key entry = .ok wl') :
    ∃ w', w.add key entry = .ok w' ∧ Simulates w' wl' := by
  unfold SplitKV.SSTableWriter.add at ha
  split at ha
  · cases ha
  · rename_i hf
    cases ha
    have hfile : encodeEntries (wl.entries ++ [(key, entry)]) = encodeEntries wl.entries ++ encodeEntry key entry := by
      simp [encodeEntries]
    have hnew : (w.numEntries == 0 || decide (w.sparseIndexInterval ≤ w.entriesSinceLastIndex)) = wl.newBlock := by
      rw [h.numEntries, h.sparseIndexInterval, h.entriesSinceLastIndex, SplitKV.SSTableWriter.newBlock]
    refine ⟨_, if_neg (by rwa [h.finished]), ?_⟩
    refine ⟨h.sparseIndexInterval, h.bloomBitsPerKey, ?_, ?_, ?_, ?_, rfl, ?_, ?_, ?_, h.finished⟩
    · rw [hfile, ← h.file]
    · exact congrArg (· + 1) h.numEntries
    · rw [h.dataOffset, length_encodeEntry hk]
    · simp only [h.numEntries, h.smallestKey]
    · simp only [hnew, h.sparseIndex, h.dataOffset]
    · simp only [hnew]
      rw [h.entriesSinceLastIndex]
    · simp only [h.keyStorage]

/-- The blocks of the sparse index hold an interval of entries each, the last one up to an interval. -/
structure Blocks (o : Options) (w : SplitKV.SSTableWriter) : Prop where
  interval : w.sparseIndexInterval = o.sparseIndexInterval
  bitsPerKey : w.bloomBitsPerKey = o.bloomBitsPerKey
  empty : w.numEntries = 0 → w.sparseIndex = []
  count : w.numEntries ≠ 0 → ∃ b, w.sparseIndex.length = b + 1 ∧
    w.numEntries = b * max 1 w.sparseIndexInterval + w.entriesSinceLastIndex ∧ 1 ≤ w.entriesSinceLastIndex ∧
    w.entriesSinceLastIndex ≤ max 1 w.sparseIndexInterval

theorem blocks_new (o : Options) : Blocks o (.new o) := ⟨rfl, rfl, fun _ => rfl, fun h => absurd rfl h⟩

theorem Blocks.add {o : Options} {w w' : SplitKV.SSTableWriter} (h : Blocks o w) {key : Key} {entry : InternalEntry}
    (ha : w.add key entry = .ok w') : Blocks o w' := by
  unfold SplitKV.SSTableWriter.add at ha
  split at ha
  · cases ha
  cases ha
  refine ⟨h.interval, h.bitsPerKey, fun he => absurd he (Nat.succ_ne_zero _), fun _ => ?_⟩
  by_cases h0 : w.numEntries = 0
  · have hnew : w.newBlock = true := by simp [SplitKV.SSTableWriter.newBlock, h0]
    refine ⟨0, ?_, ?_, ?_, ?_⟩
    · simp [hnew, h.empty h0]
    · simp [hnew, h0]
    · simp [hnew]
    · simp [hnew]
  · obtain ⟨b, hb, hn, h₁, h₂⟩ := h.count h0
    cases hnew : w.newBlock with
    | true =>
      have hfull : w.entriesSinceLastIndex = max 1 w.sparseIndexInterval := by
        have hle : w.sparseIndexInterval ≤ w.entriesSinceLastIndex := by
          simpa [SplitKV.SSTableWriter.newBlock, h0] using hnew
        omega
      refine ⟨b + 1, ?_, ?_, ?_, ?_⟩
      · simp [hb]
      · simp only [if_true, Nat.add_mul, Nat.one_mul]
        omega
      · simp
      · simp
    | false =>
      have hlt : w.entriesSinceLastIndex < w.sparseIndexInterval := by
        simpa [SplitKV.SSTableWriter.newBlock, h0] using hnew
      refine ⟨b, ?_, ?_, ?_, ?_⟩
      · simp [hb]
      · simp only [Bool.false_eq_true, if_false]
        omega
      · simp
      · simp only [Bool.false_eq_true, if_false]
        omega

/-- The number of blocks is bounded by the number of entries. -/
theorem Blocks.length_le_iff {o : Options} {w : SplitKV.SSTableWriter} (h : Blocks o w) (n : Nat) :
    w.sparseIndex.length ≤ n ↔ w.numEntries ≤ n * max 1 o.sparseIndexInterval := by
  rw [← h.interval]
  by_cases h0 : w.numEntries = 0
  · simp [h.empty h0, h0]
  · obtain ⟨b, hb, hn, h₁, h₂⟩ := h.count h0
    rw [hb, hn]
    constructor
    · intro hle
      have := Nat.mul_le_mul_right (max 1 w.sparseIndexInterval) hle
      rw [Nat.add_mul, Nat.one_mul] at this
      omega
    · intro hle
      by_contra hlt
      have := Nat.mul_le_mul_right (max 1 w.sparseIndexInterval) (show n ≤ b by omega)
      omega

/-- The calls of `Add` for a sorted list succeed on both sides. -/
theorem addAll_spec (o : Options) : ∀ (rest : List (Key × InternalEntry)) (w : SSTableWriter) (wl : SplitKV.SSTableWriter)
    (l : List (Key × InternalEntry)), Simulates w wl → wl.Wrote l → Blocks o wl → Sorted (l ++ rest) →
    (∀ p ∈ rest, p.1.length < 2 ^ 32) →
    ∃ w' wl', SSTableWriter.addAll rest w = .ok w' ∧ Simulates w' wl' ∧ wl'.Wrote (l ++ rest) ∧ Blocks o wl'
  | [], w, wl, l, h, hw, hb, _, _ => ⟨w, wl, rfl, h, by rwa [List.append_nil], hb⟩
  | p :: rest, w, wl, l, h, hw, hb, hs, hk => by
    rw [List.append_cons] at hs
    obtain ⟨wl₁, ha, hw₁⟩ := hw.add (sorted_append.mp hs).1
    obtain ⟨w₁, ha', h₁⟩ := h.add (hk p List.mem_cons_self) ha
    obtain ⟨w', wl', he, h', hw', hb'⟩ := addAll_spec o rest w₁ wl₁ (l ++ [p]) h₁ hw₁ (hb.add ha) hs
      (fun q hq => hk q (List.mem_cons_of_mem _ hq))
    refine ⟨w', wl', ?_, h', by rwa [List.append_cons], hb'⟩
    rw [SSTableWriter.addAll, ha']
    exact he

/-- The filter of some keys cannot be made: its size in bits is rounded up beyond the greatest `size_t`. -/
def NoBits (o : Options) (l : List (Key × InternalEntry)) : Prop :=
  l ≠ [] ∧ 2 ^ 64 ≤ l.length * o.bloomBitsPerKey % 2 ^ 64 + 7

/-- The writer's filter is the one of the keys it stored. -/
theorem SSTableWriter.createFilter_eq (w : SSTableWriter) :
    w.createFilter = (BloomFilter.new w.bloomBitsPerKey).createFilterChecked w.keyStorage := rfl

/-- The file that is written for a list, and the writer of entries behind its last `Add`. -/
structure Written (o : Options) (l : List (Key × InternalEntry)) (wl : SplitKV.SSTableWriter) (file : Bytes) : Prop where
  wrote : wl.Wrote l
  blocks : Blocks o wl
  file : file = encodeFile (encodeEntries l) wl.sparseIndex wl.bloom l.length

/-- **A sorted list is written**, unless its filter cannot be made. -/
theorem writeFile_spec (o : Options) {l : List (Key × InternalEntry)} (hs : Sorted l)
    (hk : ∀ p ∈ l, p.1.length < 2 ^ 32) :
    (NoBits o l → SSTableWriter.writeFile o l = none) ∧
    (¬NoBits o l → ∃ wl file, Written o l wl file ∧ SSTableWriter.writeFile o l = some (.ok file)) := by
  obtain ⟨w, wl, ha, h, hw, hb⟩ := addAll_spec o l (.new o) (.new o) [] (simulates_new o)
    (SplitKV.SSTableWriter.wrote_new o) (blocks_new o) hs hk
  rw [List.nil_append] at hw
  have hf : w.finished = false := by rw [h.finished, hw.notFinished]
  have hkeys : w.keyStorage = l.map Prod.fst := by rw [h.keyStorage, hw.keyStorage]
  have hbits : w.bloomBitsPerKey = o.bloomBitsPerKey := by rw [h.bloomBitsPerKey, hb.bitsPerKey]
  have hnil : w.keyStorage ≠ [] ↔ l ≠ [] := by
    rw [hkeys, ne_eq, List.map_eq_nil_iff]
  have hcond : (w.keyStorage ≠ [] ∧ BloomFilter.numBytes w.keyStorage.length w.bloomBitsPerKey = 0) ↔ NoBits o l := by
    rw [hnil, BloomFilter.numBytes_eq_zero, hkeys, List.length_map, hbits]
    rfl
  have hfinish : SSTableWriter.writeFile o l = w.finish.map fun r => r.map SSTableWriter.file := by
    rw [SSTableWriter.writeFile, ha]
  rw [hfinish, SSTableWriter.finish, hf]
  refine ⟨fun hn => ?_, fun hn => ⟨wl, _, ⟨hw, hb, rfl⟩, ?_⟩⟩
  · simp [SSTableWriter.createFilter, if_pos (hcond.mpr hn)]
  · have hbloom : w.createFilter = some wl.bloom := by
      rw [SSTableWriter.createFilter, if_neg (hn ∘ hcond.mp), h.bloomBitsPerKey, h.keyStorage]
      rfl
    have hoff : w.dataOffset = (encodeEntries l).length := by
      rw [h.dataOffset, hw.dataOffset, length_encodeEntries hk]
    have hfile : w.file = encodeEntries l := by rw [h.file, hw.entries]
    have hnum : w.numEntries = l.length := by rw [h.numEntries, hw.numEntries]
    simp only [hbloom, hoff, hfile, hnum, h.sparseIndex, Bool.false_eq_true, if_false, Option.map_some, Except.map]
    rfl

end Format

end SplitKV
