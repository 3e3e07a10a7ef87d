import SplitKV.BloomFilter
import SplitKV.Lib.Assoc

/-!
# Sorted tables (`sstable.cpp`)

A table file is its data section, a list of entries at byte offsets, with the sparse index and the Bloom filter of its
trailer. A table written from a sorted list answers every lookup as the list does, for every index interval and every
filter size (`SSTableReader.get_toOption`), and its iterator delivers the list from the front (`Iterator.view_seek`,
`Iterator.view_next`); an iterator whose reads fail delivers the entries before the failing read (`delivered`).
-/

namespace SplitKV

open Assoc

/-- The bytes of one encoded entry: varint key length, key, type, sequence and pointer. -/
def entrySize (key : Key) : Nat := (encodeVarint32 key.length).length + key.length + 1 + 8 + 16

/-- The bytes of a data section. -/
def dataSize (l : List (Key × InternalEntry)) : Nat := (l.map (fun p => entrySize p.1)).sum

/-- The entry that starts `offset` bytes into a data section. -/
def entryAt : List (Key × InternalEntry) → Nat → Option (Key × InternalEntry)
  | [], _ => none
  | p :: _, 0 => some p
  | p :: l, offset + 1 => if entrySize p.1 ≤ offset + 1 then entryAt l (offset + 1 - entrySize p.1) else none

/-- `SparseIndexEntry`. -/
structure SparseIndexEntry where
  key : Key
  dataOffset : Nat
  deriving DecidableEq

/-- `SSTableMeta`. -/
structure SSTableMeta where
  fileId : Nat
  level : Nat
  smallestKey : Key
  largestKey : Key
  numEntries : Nat
  fileSize : Nat
  deriving DecidableEq

/-- A finished table file. -/
structure SSTableFile where
  entries : List (Key × InternalEntry)
  sparseIndexOffset : Nat
  sparseIndex : List SparseIndexEntry
  bloomNumHashes : Nat
  bloomData : Bytes
  numEntries : Nat
  deriving DecidableEq

/-- The bytes of an encoded sparse index. -/
def indexSize (index : List SparseIndexEntry) : Nat :=
  (index.map (fun e => (encodeVarint32 e.key.length).length + e.key.length + 8)).sum

/-- `FileSize` of a table file: data, index, filter and footer. -/
def SSTableFile.size (f : SSTableFile) : Nat :=
  f.sparseIndexOffset + indexSize f.sparseIndex + (4 + f.bloomData.length) + 48

/-- `SSTableWriter`; `offset` is what the file writer has counted, `entries` the data section written so far. -/
structure SSTableWriter where
  sparseIndexInterval : Nat
  bloomBitsPerKey : Nat
  entries : List (Key × InternalEntry) := []
  numEntries : Nat := 0
  dataOffset : Nat := 0
  smallestKey : Key := []
  largestKey : Key := []
  sparseIndex : List SparseIndexEntry := []
  entriesSinceLastIndex : Nat := 0
  keyStorage : List Key := []
  offset : Nat := 0
  finished : Bool := false

namespace SSTableWriter

/-- The constructor, followed by `Open`. -/
def new (o : Options) : SSTableWriter := { sparseIndexInterval := o.sparseIndexInterval, bloomBitsPerKey := o.bloomBitsPerKey }

/-- `Add` opens a new block of the sparse index. -/
def newBlock (w : SSTableWriter) : Bool :=
  w.numEntries == 0 || decide (w.sparseIndexInterval ≤ w.entriesSinceLastIndex)

/-- `Add`. -/
def add (w : SSTableWriter) (key : Key) (entry : InternalEntry) : Except Status SSTableWriter :=
  if w.finished then .error (.InvalidArgument "SSTableWriter already finished")
  else .ok { w with
    keyStorage := w.keyStorage ++ [key]
    smallestKey := if w.numEntries = 0 then key else w.smallestKey
    largestKey := key
    sparseIndex := if w.newBlock then w.sparseIndex ++ [⟨key, w.dataOffset⟩] else w.sparseIndex
    entriesSinceLastIndex := (if w.newBlock then 0 else w.entriesSinceLastIndex) + 1
    entries := w.entries ++ [(key, entry)]
    offset := w.offset + entrySize key
    dataOffset := w.dataOffset + entrySize key
    numEntries := w.numEntries + 1 }

/-- The filter `Finish` writes. -/
def bloom (w : SSTableWriter) : BloomFilter := (BloomFilter.new w.bloomBitsPerKey).createFilter w.keyStorage

/-- `Finish`: index, filter and footer are appended. -/
def finish (w : SSTableWriter) : Except Status (SSTableWriter × SSTableFile) :=
  if w.finished then .error (.InvalidArgument "SSTableWriter already finished")
  else .ok ({ w with finished := true, offset := w.offset + indexSize w.sparseIndex + (4 + w.bloom.data.length) + 48 },
    { entries := w.entries
      sparseIndexOffset := w.dataOffset
      sparseIndex := w.sparseIndex
      bloomNumHashes := w.bloom.numHashes
      bloomData := w.bloom.data
      numEntries := w.numEntries })

/-- What the callers record about a finished table. -/
def tableMeta (w : SSTableWriter) (fileId level : Nat) : SSTableMeta :=
  { fileId := fileId, level := level, smallestKey := w.smallestKey, largestKey := w.largestKey,
    numEntries := w.numEntries, fileSize := w.offset }

end SSTableWriter

/-- `SSTableReader`: the index and the filter in memory, and the data section of the open file. -/
structure SSTableReader where
  entries : List (Key × InternalEntry)
  dataEndOffset : Nat
  sparseIndex : List SparseIndexEntry
  bloom : BloomFilter
  numEntries : Nat
  deriving DecidableEq

namespace SSTableReader

/-- `Open` of a finished table file: `LoadFooter`, `LoadSparseIndex` and `LoadBloomFilter`. -/
def openFile (f : SSTableFile) : SSTableReader :=
  { entries := f.entries
    dataEndOffset := f.sparseIndexOffset
    sparseIndex := f.sparseIndex
    bloom := (BloomFilter.new 0).setRawData f.bloomData f.bloomNumHashes
    numEntries := f.numEntries }

/-- `ReadEntryAt`: key, entry and the offset of the next entry. -/
def readEntryAt (r : SSTableReader) (offset : Nat) : Except Status (Key × InternalEntry × Nat) :=
  match entryAt r.entries offset with
  | some p => .ok (p.1, p.2, offset + entrySize p.1)
  | none => .error (.Corruption "Truncated entry metadata")

/-- The key of block `i`. -/
def blockKey (index : List SparseIndexEntry) (i : Nat) : Key := (index.getD i ⟨[], 0⟩).key

/-- The binary search of `Get` and `Seek`; an iteration shrinks the interval, so `n` iterations suffice for `n`
blocks. -/
def searchBlock (index : List SparseIndexEntry) (key : Key) : Nat → Int → Int → Nat → Nat
  | 0, _, _, block => block
  | n + 1, left, right, block =>
    if left ≤ right then
      let mid := left + (right - left) / 2
      if blockKey index mid.toNat = key then mid.toNat
      else if blockKey index mid.toNat < key then searchBlock index key n (mid + 1) right mid.toNat
      else searchBlock index key n left (mid - 1) block
    else block

/-- The linear scan of `Get`; every iteration reads one entry. -/
def scan (r : SSTableReader) (key : Key) (endOffset : Nat) : Nat → Nat → Except Status InternalEntry
  | 0, _ => .error (.NotFound "Key not found in block")
  | n + 1, offset =>
    if offset < endOffset then
      match r.readEntryAt offset with
      | .error s => .error s
      | .ok (parsedKey, parsedEntry, nextOffset) =>
        if parsedKey = key then .ok parsedEntry
        else if key < parsedKey then .error (.NotFound "Key not found in block")
        else r.scan key endOffset n nextOffset
    else .error (.NotFound "Key not found in block")

/-- `Get`. -/
def get (r : SSTableReader) (key : Key) : Except Status InternalEntry :=
  if !r.bloom.data.isEmpty && !r.bloom.mayContain key then .error (.NotFound "Not in bloom filter")
  else if r.sparseIndex.isEmpty then .error (.NotFound "Empty sparse index")
  else
    let block := searchBlock r.sparseIndex key r.sparseIndex.length 0 (r.sparseIndex.length - 1) 0
    let endOffset := if block + 1 < r.sparseIndex.length then (r.sparseIndex.getD (block + 1) ⟨[], 0⟩).dataOffset
      else r.dataEndOffset
    r.scan key endOffset r.entries.length (r.sparseIndex.getD block ⟨[], 0⟩).dataOffset

end SSTableReader

/-- `SSTableReader::Iterator`; `fault n` is the status its read number `n` fails with, `reads` counts the reads. -/
structure Iterator where
  reader : SSTableReader
  currentKey : Key := []
  currentEntry : InternalEntry := ⟨⟨0, 0, 0⟩, 0, .value⟩
  currentOffset : Nat := 0
  valid : Bool := false
  fault : Nat → Option Status
  reads : Nat := 0

namespace Iterator

/-- `ReadEntryAt` of the iterator. -/
def readEntryAt (it : Iterator) (offset : Nat) : Iterator × Except Status Unit :=
  if it.reader.dataEndOffset ≤ offset then
    ({ it with valid := false }, .error (.NotFound "Reached end of data blocks"))
  else
    match it.fault it.reads with
    | some s => ({ it with valid := false, reads := it.reads + 1 }, .error s)
    | none =>
      match it.reader.readEntryAt offset with
      | .error s => ({ it with valid := false, reads := it.reads + 1 }, .error s)
      | .ok (key, entry, nextOffset) =>
        ({ it with currentKey := key, currentEntry := entry, currentOffset := nextOffset, valid := true,
                   reads := it.reads + 1 }, .ok ())

/-- `SeekToFirst`. -/
def seekToFirst (it : Iterator) : Iterator × Except Status Unit :=
  { it with currentOffset := 0 }.readEntryAt 0

/-- `Next`; the merge ignores the status. -/
def next (it : Iterator) : Iterator := if it.valid then (it.readEntryAt it.currentOffset).1 else it

/-- The binding a valid iterator stands on. -/
def head (it : Iterator) : Option (Key × InternalEntry) := if it.valid then some (it.currentKey, it.currentEntry) else none

end Iterator

/-! ## The data section -/

theorem entrySize_pos (key : Key) : 0 < entrySize key := by
  unfold entrySize
  omega

@[simp] theorem dataSize_nil : dataSize [] = 0 := rfl

@[simp] theorem dataSize_cons (p : Key × InternalEntry) (l : List (Key × InternalEntry)) :
    dataSize (p :: l) = entrySize p.1 + dataSize l := rfl

@[simp] theorem dataSize_append (l₁ l₂ : List (Key × InternalEntry)) :
    dataSize (l₁ ++ l₂) = dataSize l₁ + dataSize l₂ := by
  simp [dataSize]

theorem entryAt_zero (l : List (Key × InternalEntry)) : entryAt l 0 = l.head? := by cases l <;> rfl

/-- Past a whole prefix, reading continues with the rest. -/
theorem entryAt_append (pre rest : List (Key × InternalEntry)) : entryAt (pre ++ rest) (dataSize pre) = rest.head? := by
  induction pre with
  | nil => exact entryAt_zero rest
  | cons p pre ih =>
    have hp := entrySize_pos p.1
    obtain ⟨n, hn⟩ : ∃ n, dataSize (p :: pre) = n + 1 := ⟨entrySize p.1 + dataSize pre - 1, by simp; omega⟩
    have hs : n + 1 = entrySize p.1 + dataSize pre := by rw [← hn, dataSize_cons]
    rw [hn, List.cons_append, entryAt, if_pos (by omega), show n + 1 - entrySize p.1 = dataSize pre by omega]
    exact ih

/-! ## What the writer leaves -/

/-- An index entry points at an entry of the data section. -/
def PointsAt (l : List (Key × InternalEntry)) (x : SparseIndexEntry) : Prop :=
  ∃ pre p post, l = pre ++ p :: post ∧ x.key = p.1 ∧ x.dataOffset = dataSize pre

/-- A sparse index of the data section: its entries point into it, their keys increase, and the first one points at
the first entry. -/
structure IndexOf (index : List SparseIndexEntry) (l : List (Key × InternalEntry)) : Prop where
  pointsAt : ∀ x ∈ index, PointsAt l x
  sorted : index.Pairwise (fun x y => x.key < y.key)
  first : ∀ p, l.head? = some p → index.head? = some ⟨p.1, 0⟩

theorem IndexOf.ne_nil {index : List SparseIndexEntry} {l : List (Key × InternalEntry)} (h : IndexOf index l)
    (hl : l ≠ []) : index ≠ [] := by
  intro hi
  obtain ⟨p, l', rfl⟩ := List.exists_cons_of_ne_nil hl
  have := h.first p rfl
  rw [hi] at this
  cases this

theorem IndexOf.mem_keys {index : List SparseIndexEntry} {l : List (Key × InternalEntry)} (h : IndexOf index l)
    {x : SparseIndexEntry} (hx : x ∈ index) : ∃ p ∈ l, x.key = p.1 := by
  obtain ⟨pre, p, post, rfl, hk, -⟩ := h.pointsAt x hx
  exact ⟨p, by simp, hk⟩

theorem PointsAt.append {l : List (Key × InternalEntry)} {x : SparseIndexEntry} (h : PointsAt l x)
    (l' : List (Key × InternalEntry)) : PointsAt (l ++ l') x := by
  obtain ⟨pre, p, post, rfl, hk, ho⟩ := h
  exact ⟨pre, p, post ++ l', by simp, hk, ho⟩

/-- The writer has added the entries of `l` to a table that is not finished. -/
structure SSTableWriter.Wrote (w : SSTableWriter) (l : List (Key × InternalEntry)) : Prop where
  entries : w.entries = l
  notFinished : w.finished = false
  numEntries : w.numEntries = l.length
  dataOffset : w.dataOffset = dataSize l
  offset : w.offset = dataSize l
  keyStorage : w.keyStorage = l.map Prod.fst
  smallest : ∀ p, l.head? = some p → w.smallestKey = p.1
  largest : ∀ p, l.getLast? = some p → w.largestKey = p.1
  index : IndexOf w.sparseIndex l

theorem SSTableWriter.wrote_new (o : Options) : Wrote (new o) [] where
  entries := rfl
  notFinished := rfl
  numEntries := rfl
  dataOffset := rfl
  offset := rfl
  keyStorage := rfl
  smallest := fun _ h => by cases h
  largest := fun _ h => by cases h
  index := ⟨fun x hx => absurd hx List.not_mem_nil, List.Pairwise.nil, fun _ h => by cases h⟩

/-- `Add` extends the index by at most the new entry. -/
theorem SSTableWriter.Wrote.index_add {w : SSTableWriter} {l : List (Key × InternalEntry)} (h : Wrote w l)
    {p : Key × InternalEntry} (hs : Sorted (l ++ [p])) :
    IndexOf (if w.newBlock then w.sparseIndex ++ [⟨p.1, w.dataOffset⟩] else w.sparseIndex) (l ++ [p]) := by
  have hlt : ∀ x ∈ w.sparseIndex, x.key < p.1 := by
    intro x hx
    obtain ⟨q, hq, hk⟩ := h.index.mem_keys hx
    rw [hk]
    exact (sorted_append.mp hs).2.2 q hq p (by simp)
  refine ⟨fun x hx => ?_, ?_, fun q hq => ?_⟩
  · split at hx
    · rcases List.mem_append.mp hx with hx | hx
      · exact (h.index.pointsAt x hx).append [p]
      · rw [List.mem_singleton.mp hx]
        exact ⟨l, p, [], rfl, rfl, h.dataOffset⟩
    · exact (h.index.pointsAt x hx).append [p]
  · split
    · rw [List.pairwise_append]
      refine ⟨h.index.sorted, List.pairwise_singleton _ _, fun x hx y hy => ?_⟩
      rw [List.mem_singleton.mp hy]
      exact hlt x hx
    · exact h.index.sorted
  · cases l with
    | nil =>
      have hnew : w.newBlock = true := by simp [newBlock, h.numEntries]
      have hnil : w.sparseIndex = [] := by
        refine List.eq_nil_iff_forall_not_mem.mpr fun x hx => ?_
        obtain ⟨q, hq, -⟩ := h.index.mem_keys hx
        cases hq
      cases hq
      simp [hnew, hnil, h.dataOffset]
    | cons a l =>
      have hf := h.index.first a rfl
      have he : q = a := by simpa [eq_comm] using hq
      subst he
      split
      · rw [List.head?_append, hf]
        rfl
      · exact hf

/-- **`Add` succeeds** and the writer has one more entry. -/
theorem SSTableWriter.Wrote.add {w : SSTableWriter} {l : List (Key × InternalEntry)} (h : Wrote w l)
    {p : Key × InternalEntry} (hs : Sorted (l ++ [p])) : ∃ w', w.add p.1 p.2 = .ok w' ∧ Wrote w' (l ++ [p]) := by
  refine ⟨_, if_neg (by simp [h.notFinished]), ?_⟩
  refine ⟨by simp [h.entries], h.notFinished, by simp [h.numEntries], by simp [h.dataOffset], by simp [h.offset],
    by simp [h.keyStorage], fun q hq => ?_, fun q hq => ?_, h.index_add hs⟩
  · cases l with
    | nil => cases hq; simp [h.numEntries]
    | cons a l =>
      simp only [h.numEntries, List.length_cons, Nat.succ_ne_zero, if_false]
      exact h.smallest q hq
  · simp only [List.getLast?_append, List.getLast?_singleton, Option.some_or, Option.some.injEq] at hq
    rw [hq]

/-! ## What the reader finds -/

/-- The file of a table written from a sorted list. -/
structure SSTableFile.Wf (f : SSTableFile) : Prop where
  sorted : Sorted f.entries
  dataEnd : f.sparseIndexOffset = dataSize f.entries
  index : IndexOf f.sparseIndex f.entries
  filter : f.bloomData ≠ [] → ∀ p ∈ f.entries,
    ((BloomFilter.new 0).setRawData f.bloomData f.bloomNumHashes).mayContain p.1 = true

/-- **`Finish` succeeds** and leaves a well-formed file of the entries added. -/
theorem SSTableWriter.Wrote.finish {w : SSTableWriter} {l : List (Key × InternalEntry)} (h : Wrote w l)
    (hs : Sorted l) : ∃ w' f, w.finish = .ok (w', f) ∧ f.Wf ∧ f.entries = l ∧
      ∀ fileId level, w'.tableMeta fileId level =
        { fileId := fileId, level := level, smallestKey := w.smallestKey, largestKey := w.largestKey,
          numEntries := l.length, fileSize := f.size } := by
  refine ⟨_, _, if_neg (by simp [h.notFinished]), ⟨?_, ?_, ?_, fun hd p hp => ?_⟩, h.entries, fun _ _ => ?_⟩
  · exact h.entries ▸ hs
  · exact h.dataOffset.trans (by rw [h.entries])
  · exact h.entries.symm ▸ h.index
  · refine BloomFilter.mayContain_createFilter _ _ ?_ hd
    rw [h.keyStorage]
    exact List.mem_map_of_mem (h.entries ▸ hp)
  · simp [tableMeta, h.numEntries, SSTableFile.size, h.offset, h.dataOffset]

namespace SSTableReader

/-- A reader of a well-formed file. -/
def Wf (r : SSTableReader) : Prop := ∃ f : SSTableFile, f.Wf ∧ r = openFile f

theorem Wf.sorted {r : SSTableReader} (h : Wf r) : Sorted r.entries := by
  obtain ⟨f, hf, rfl⟩ := h
  exact hf.sorted

theorem wf_openFile {f : SSTableFile} (h : f.Wf) : Wf (openFile f) := ⟨f, h, rfl⟩

theorem Wf.index {r : SSTableReader} (h : Wf r) : IndexOf r.sparseIndex r.entries := by
  obtain ⟨f, hf, rfl⟩ := h
  exact hf.index

theorem Wf.dataEnd {r : SSTableReader} (h : Wf r) : r.dataEndOffset = dataSize r.entries := by
  obtain ⟨f, hf, rfl⟩ := h
  exact hf.dataEnd

theorem blockKey_lt {index : List SparseIndexEntry} (h : index.Pairwise (fun x y => x.key < y.key)) {i j : Nat}
    (hij : i < j) (hj : j < index.length) : blockKey index i < blockKey index j := by
  rw [List.pairwise_iff_getElem] at h
  have := h i j (hij.trans hj) hj hij
  simpa [blockKey, List.getD_eq_getElem?_getD, List.getElem?_eq_getElem hj, List.getElem?_eq_getElem (hij.trans hj)]
    using this

/-- **The binary search** ends at the last block whose first key is not above the key, or at block 0. -/
theorem searchBlock_spec {index : List SparseIndexEntry} (hs : index.Pairwise (fun x y => x.key < y.key)) (key : Key) :
    ∀ (n : Nat) (left right : Int) (block : Nat), 0 ≤ left → right < index.length → left ≤ right + 1 →
      right - left < n → (left = 0 ∧ block = 0 ∨ (block : Int) = left - 1 ∧ blockKey index block < key) →
      (∀ i : Nat, right < i → i < index.length → key < blockKey index i) → block < index.length →
      searchBlock index key n left right block < index.length ∧
        (searchBlock index key n left right block = 0 ∨
          blockKey index (searchBlock index key n left right block) ≤ key) ∧
        ∀ i : Nat, searchBlock index key n left right block < i → i < index.length → key < blockKey index i
  | 0, left, right, block, _, _, hlr, hn, hb, hr, hl => by
    refine ⟨hl, ?_, fun i hi => hr i (by rw [searchBlock] at hi; omega)⟩
    rcases hb with ⟨-, hb⟩ | ⟨-, hb⟩
    · exact Or.inl hb
    · exact Or.inr hb.le
  | n + 1, left, right, block, h0, hrl, hlr, hn, hb, hr, hl => by
    rw [searchBlock]
    by_cases hle : left ≤ right
    · rw [if_pos hle]
      have hmid : left ≤ left + (right - left) / 2 ∧ left + (right - left) / 2 ≤ right := by omega
      generalize left + (right - left) / 2 = mid at hmid ⊢
      have hcast : (mid.toNat : Int) = mid := Int.toNat_of_nonneg (by omega)
      have hml : mid.toNat < index.length := by omega
      simp only
      split
      · rename_i he
        refine ⟨hml, Or.inr he.le, fun i hi hil => ?_⟩
        rw [← he]
        exact blockKey_lt hs hi hil
      · split
        · rename_i hlt
          exact searchBlock_spec hs key n (mid + 1) right mid.toNat (by omega) hrl (by omega) (by omega)
            (Or.inr ⟨by omega, hlt⟩) hr hml
        · rename_i hne hnlt
          have hgt : key < blockKey index mid.toNat := lt_of_le_of_ne (not_lt.mp hnlt) (Ne.symm hne)
          refine searchBlock_spec hs key n left (mid - 1) block h0 (by omega) (by omega) (by omega) hb ?_ hl
          intro i hi hil
          rcases Nat.lt_or_ge mid.toNat i with h | h
          · exact hgt.trans (blockKey_lt hs h hil)
          · rw [show i = mid.toNat by omega]
            exact hgt
    · rw [if_neg hle]
      refine ⟨hl, ?_, fun i hi => hr i (by omega)⟩
      rcases hb with ⟨-, hb⟩ | ⟨-, hb⟩
      · exact Or.inl hb
      · exact Or.inr hb.le

/-- **The scan** of the entries `mid` finds what they bind the key to; the entries behind the end offset lie above
the key. -/
theorem scan_spec {r : SSTableReader} (key : Key) (hs : Sorted r.entries) :
    ∀ (mid pre post : List (Key × InternalEntry)) (n : Nat), r.entries = pre ++ mid ++ post → mid.length ≤ n →
      (r.scan key (dataSize (pre ++ mid)) n (dataSize pre)).toOption = lookup key mid
  | [], pre, post, n, _, _ => by
    cases n with
    | zero => rfl
    | succ n => simp [scan, Except.toOption]
  | p :: mid, pre, post, 0, _, hn => by simp at hn
  | p :: mid, pre, post, n + 1, he, hn => by
    have hat : entryAt r.entries (dataSize pre) = some p := by
      rw [he, List.append_assoc, entryAt_append]
      rfl
    have hp := entrySize_pos p.1
    have hlt : dataSize pre < dataSize (pre ++ p :: mid) := by simp; omega
    rw [scan, if_pos hlt, readEntryAt, hat]
    simp only
    by_cases hk : p.1 = key
    · rw [if_pos hk, lookup_cons, if_pos hk]
      rfl
    · rw [if_neg hk, lookup_cons_of_ne hk]
      split
      · rename_i hgt
        refine (lookup_of_lt fun q hq => hgt.trans ?_).symm
        rw [he] at hs
        have := (sorted_append.mp (sorted_append.mp hs).1).2.1
        exact (sorted_cons.mp this).1 q hq
      · have ih := scan_spec key hs mid (pre ++ [p]) post n (by rw [he]; simp) (by simpa using hn)
        simpa [Nat.add_assoc] using ih

theorem getD_eq (index : List SparseIndexEntry) {i : Nat} (h : i < index.length) : index.getD i ⟨[], 0⟩ = index[i] := by
  rw [List.getD_eq_getElem?_getD, List.getElem?_eq_getElem h]
  rfl

/-- The place of a block in the data section. -/
theorem block_at {index : List SparseIndexEntry} {l : List (Key × InternalEntry)} (h : IndexOf index l) {i : Nat}
    (hi : i < index.length) : ∃ pre p post, l = pre ++ p :: post ∧ blockKey index i = p.1 ∧
      (index.getD i ⟨[], 0⟩).dataOffset = dataSize pre := by
  rw [blockKey, getD_eq index hi]
  exact h.pointsAt _ (List.getElem_mem hi)

/-- Block 0 starts the data section. -/
theorem block_zero {index : List SparseIndexEntry} {l pre post : List (Key × InternalEntry)} {p : Key × InternalEntry}
    (h : IndexOf index l) (hl : l = pre ++ p :: post) (hz : (index.getD 0 ⟨[], 0⟩).dataOffset = dataSize pre) :
    pre = [] := by
  cases pre with
  | nil => rfl
  | cons q pre =>
    have hf := h.first q (by rw [hl]; rfl)
    cases index with
    | nil => cases hf
    | cons x index =>
      cases hf
      have := entrySize_pos q.1
      simp only [List.getD_cons_zero, dataSize_cons] at hz
      omega

/-- A block that is not the last one ends where the next one starts. -/
theorem block_split {index : List SparseIndexEntry} {l : List (Key × InternalEntry)} (h : IndexOf index l) (hs : Sorted l)
    {b : Nat} (hb : b + 1 < index.length) : ∃ pre p mid p' post, l = pre ++ p :: mid ++ p' :: post ∧
      (index.getD b ⟨[], 0⟩).dataOffset = dataSize pre ∧
      (index.getD (b + 1) ⟨[], 0⟩).dataOffset = dataSize (pre ++ p :: mid) ∧
      blockKey index b = p.1 ∧ blockKey index (b + 1) = p'.1 := by
  obtain ⟨pre, p, post, hl, hk, ho⟩ := block_at h (Nat.lt_of_succ_lt hb)
  obtain ⟨pre', p', post', hl', hk', ho'⟩ := block_at h hb
  have hlt : p.1 < p'.1 := hk ▸ hk' ▸ blockKey_lt h.sorted (Nat.lt_succ_self b) hb
  obtain ⟨mid, rfl⟩ := Sorted.split_lt (hl ▸ hs) (hl.symm.trans hl') hlt
  exact ⟨pre, p, mid, p', post', hl', ho, ho', hk, hk'⟩

/-- **The block of the binary search**: what lies before it and behind it does not bind the key. -/
theorem block_spec {index : List SparseIndexEntry} {l : List (Key × InternalEntry)} (h : IndexOf index l)
    (hs : Sorted l) {key : Key} {b : Nat} (hb : b < index.length) (hle : b = 0 ∨ blockKey index b ≤ key)
    (habove : ∀ i : Nat, b < i → i < index.length → key < blockKey index i) :
    ∃ pre mid post, l = pre ++ mid ++ post ∧ (index.getD b ⟨[], 0⟩).dataOffset = dataSize pre ∧
      (if b + 1 < index.length then (index.getD (b + 1) ⟨[], 0⟩).dataOffset else dataSize l) = dataSize (pre ++ mid) ∧
      lookup key pre = none ∧ lookup key post = none := by
  have hpre : ∀ {pre p post}, l = pre ++ p :: post → blockKey index b = p.1 →
      (index.getD b ⟨[], 0⟩).dataOffset = dataSize pre → lookup key pre = none := by
    intro pre p post hl hk ho
    rcases hle with rfl | hle
    · rw [block_zero h hl ho]
      rfl
    · refine lookup_of_gt fun q hq => lt_of_lt_of_le ?_ (hk ▸ hle)
      exact (sorted_append.mp (hl ▸ hs)).2.2 q hq p List.mem_cons_self
  by_cases hlast : b + 1 < index.length
  · obtain ⟨pre, p, mid, p', post, hl, ho, ho', hk, hk'⟩ := block_split h hs hlast
    have hl₁ : l = pre ++ p :: (mid ++ p' :: post) := by
      rw [hl]
      simp
    refine ⟨pre, p :: mid, p' :: post, hl, ho, by rw [if_pos hlast, ho'], hpre hl₁ hk ho, ?_⟩
    have hkey : key < p'.1 := hk' ▸ habove (b + 1) (Nat.lt_succ_self b) hlast
    refine lookup_of_lt fun q hq => ?_
    rcases List.mem_cons.mp hq with rfl | hq
    · exact hkey
    · exact hkey.trans ((sorted_cons.mp (sorted_append.mp (hl ▸ hs)).2.1).1 q hq)
  · obtain ⟨pre, p, post, hl, hk, ho⟩ := block_at h hb
    exact ⟨pre, p :: post, [], by simp [hl], ho, by rw [if_neg hlast, hl], hpre hl hk ho, rfl⟩

/-- **A lookup in a table** answers as the list of its entries. -/
theorem get_toOption {r : SSTableReader} (h : Wf r) (key : Key) : (r.get key).toOption = lookup key r.entries := by
  have hs := h.sorted
  have hi := h.index
  unfold get
  split
  · -- the filter excludes the key
    rename_i hb
    refine (lookup_eq_none fun p hp he => ?_).symm
    obtain ⟨f, hf, rfl⟩ := h
    simp only [Bool.and_eq_true, Bool.not_eq_true', List.isEmpty_eq_false_iff] at hb
    have := hf.filter hb.1 p hp
    rw [he] at this
    exact Bool.false_ne_true (hb.2.symm.trans this)
  · split
    · rename_i he
      have hl : r.entries = [] := by
        by_contra hne
        exact hi.ne_nil hne (List.isEmpty_iff.mp he)
      rw [hl]
      rfl
    · rename_i hne
      have hpos : 0 < r.sparseIndex.length := List.length_pos_iff.mpr (fun h0 => hne (by rw [h0]; rfl))
      obtain ⟨hlt, hle, habove⟩ := searchBlock_spec hi.sorted key r.sparseIndex.length 0 (r.sparseIndex.length - 1) 0
        (Int.le_refl 0) (by omega) (by omega) (by omega) (Or.inl ⟨rfl, rfl⟩) (fun i h₁ h₂ => by omega) hpos
      obtain ⟨pre, mid, post, hl, ho, he, hpre, hpost⟩ := block_spec hi hs hlt hle habove
      simp only
      rw [h.dataEnd, he, ho, scan_spec key hs mid pre post _ hl (by simp [hl]; omega), hl, lookup_append, lookup_append,
        hpre, hpost, Option.none_or, Option.or_none]

end SSTableReader

/-! ## What the iterator delivers -/

/-- The entries the reads number `n`, `n + 1`, … return before one of them fails. -/
def delivered (fault : Nat → Option Status) : Nat → List (Key × InternalEntry) → List (Key × InternalEntry)
  | _, [] => []
  | n, p :: l => if (fault n).isSome then [] else p :: delivered fault (n + 1) l

theorem delivered_none (n : Nat) (l : List (Key × InternalEntry)) : delivered (fun _ => none) n l = l := by
  induction l generalizing n with
  | nil => rfl
  | cons p l ih => simp [delivered, ih]

theorem delivered_isInitial (fault : Nat → Option Status) (n : Nat) (l : List (Key × InternalEntry)) :
    delivered fault n l <+: l := by
  induction l generalizing n with
  | nil => exact List.prefix_refl _
  | cons p l ih =>
    rw [delivered]
    split
    · exact List.nil_prefix
    · exact List.cons_prefix_cons.mpr ⟨rfl, ih (n + 1)⟩

/-- The entries that start `offset` bytes into a data section or later. -/
def entriesFrom : List (Key × InternalEntry) → Nat → List (Key × InternalEntry)
  | [], _ => []
  | p :: l, 0 => p :: l
  | p :: l, offset + 1 => if entrySize p.1 ≤ offset + 1 then entriesFrom l (offset + 1 - entrySize p.1) else []

theorem entriesFrom_append (pre rest : List (Key × InternalEntry)) :
    entriesFrom (pre ++ rest) (dataSize pre) = rest := by
  induction pre with
  | nil => cases rest <;> rfl
  | cons p pre ih =>
    have hp := entrySize_pos p.1
    obtain ⟨n, hn⟩ : ∃ n, dataSize (p :: pre) = n + 1 := ⟨entrySize p.1 + dataSize pre - 1, by simp; omega⟩
    have hs : n + 1 = entrySize p.1 + dataSize pre := by rw [← hn, dataSize_cons]
    rw [hn, List.cons_append, entriesFrom, if_pos (by omega), show n + 1 - entrySize p.1 = dataSize pre by omega]
    exact ih

namespace Iterator

/-- What the iterator still delivers: the entry it stands on, and what it reads behind it. -/
def view (it : Iterator) : List (Key × InternalEntry) :=
  if it.valid then
    (it.currentKey, it.currentEntry) :: delivered it.fault it.reads (entriesFrom it.reader.entries it.currentOffset)
  else []

/-- The iterator's offset is the start of an entry or the end of the data section. -/
structure Aligned (it : Iterator) : Prop where
  dataEnd : it.reader.dataEndOffset = dataSize it.reader.entries
  split : ∃ pre rest, it.reader.entries = pre ++ rest ∧ it.currentOffset = dataSize pre

theorem head_view (it : Iterator) : it.head = it.view.head? := by
  unfold head view
  split <;> rfl

/-- Reading at the offset makes the iterator stand on the first entry from there on, or become invalid. -/
theorem readEntryAt_spec {it : Iterator} (h : Aligned it) :
    (it.readEntryAt it.currentOffset).1.view =
        delivered it.fault it.reads (entriesFrom it.reader.entries it.currentOffset) ∧
      Aligned (it.readEntryAt it.currentOffset).1 := by
  obtain ⟨pre, rest, he, ho⟩ := h.split
  have hfrom : entriesFrom it.reader.entries it.currentOffset = rest := by rw [he, ho, entriesFrom_append]
  have hat : entryAt it.reader.entries it.currentOffset = rest.head? := by rw [he, ho, entryAt_append]
  have hend := h.dataEnd
  rw [he, dataSize_append, ← ho] at hend
  rw [hfrom]
  unfold readEntryAt
  cases rest with
  | nil =>
    rw [if_pos (by simp [hend])]
    exact ⟨rfl, h.dataEnd, h.split⟩
  | cons p rest =>
    have hp := entrySize_pos p.1
    rw [if_neg (by rw [hend, dataSize_cons]; omega), delivered]
    cases hf : it.fault it.reads with
    | some s => exact ⟨rfl, h.dataEnd, h.split⟩
    | none =>
      rw [SSTableReader.readEntryAt, hat]
      have hsplit : it.reader.entries = (pre ++ [p]) ++ rest ∧
          it.currentOffset + entrySize p.1 = dataSize (pre ++ [p]) := ⟨by simp [he], by simp [ho]⟩
      refine ⟨?_, h.dataEnd, _, _, hsplit⟩
      simp only [List.head?_cons, view, if_true, Option.isSome_none, Bool.false_eq_true, if_false]
      rw [hsplit.1, hsplit.2, entriesFrom_append]

/-- **`Next` moves to the next entry.** -/
theorem view_next {it : Iterator} (h : Aligned it) : it.next.view = it.view.tail := by
  unfold next
  cases hv : it.valid with
  | false => simp [view, hv]
  | true =>
    rw [if_pos rfl, (readEntryAt_spec h).1]
    simp [view, hv]

theorem aligned_next {it : Iterator} (h : Aligned it) : Aligned it.next := by
  unfold next
  split
  · exact (readEntryAt_spec h).2
  · exact h

theorem aligned_start {r : SSTableReader} (h : r.Wf) (fault : Nat → Option Status) :
    Aligned { reader := r, fault := fault } := ⟨h.dataEnd, [], r.entries, rfl, rfl⟩

/-- **`SeekToFirst` starts at the first entry.** -/
theorem view_seekToFirst {r : SSTableReader} (h : r.Wf) (fault : Nat → Option Status) :
    (seekToFirst { reader := r, fault := fault }).1.view = delivered fault 0 r.entries ∧
      Aligned (seekToFirst { reader := r, fault := fault }).1 := by
  have := readEntryAt_spec (aligned_start h fault)
  rwa [show entriesFrom r.entries 0 = r.entries by cases r.entries <;> rfl] at this

/-- The status of `SeekToFirst`: an empty table is not found, a failing read is reported. -/
theorem seekToFirst_status {r : SSTableReader} (h : r.Wf) (fault : Nat → Option Status) :
    (seekToFirst { reader := r, fault := fault }).2 =
      if r.entries = [] then .error (.NotFound "Reached end of data blocks")
      else match fault 0 with
        | some s => .error s
        | none => .ok () := by
  unfold seekToFirst readEntryAt
  simp only [h.dataEnd]
  cases hl : r.entries with
  | nil => simp
  | cons p l =>
    have hp := entrySize_pos p.1
    rw [if_neg (by simp; omega), if_neg (by simp)]
    cases fault 0 with
    | some s => rfl
    | none => simp [SSTableReader.readEntryAt, hl, entryAt]

end Iterator

end SplitKV
