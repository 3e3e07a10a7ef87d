import SplitKV.SSTable
import SplitKV.VLog

/-!
# The bytes of a table file (`sstable.cpp`)

The writer appends varint-framed entries, the sparse index, the Bloom filter and a footer of 48 bytes; the reader finds
them again from the end of the file. `Format.SSTableWriter` and `Format.SSTableReader` work on these bytes; in
`SplitKV.SSTable` the data section is the list of its entries. `SSTable.Encoding` relates the two.
-/

namespace SplitKV

namespace Format

/-- `kMagicNumber`. -/
def kMagicNumber : Nat := 0x53706C69744B5600

/-- `VLogPointer::Encode`. -/
def encodePointer (ptr : VLogPointer) : Bytes :=
  encodeFixed32 ptr.fileId ++ encodeFixed64 ptr.offset ++ encodeFixed32 ptr.valueSize

/-- The entry `Add` writes. -/
def encodeEntry (key : Key) (entry : InternalEntry) : Bytes :=
  encodeVarint32 (key.length % 2 ^ 32) ++
    (key ++ entry.type.toByte :: (encodeFixed64 entry.sequence ++ encodePointer entry.vlogPtr))

/-- The index that `Finish` writes. -/
def encodeIndex (index : List SparseIndexEntry) : Bytes :=
  index.flatMap fun e => encodeVarint32 (e.key.length % 2 ^ 32) ++ (e.key ++ encodeFixed64 e.dataOffset)

/-- The filter that `Finish` writes: the number of hashes, then the bits. -/
def encodeBloom (bloom : BloomFilter) : Bytes := encodeFixed32 bloom.numHashes ++ bloom.data

/-- The footer. -/
def encodeFooter (sparseIndexOffset sparseIndexSize bloomOffset bloomSize numEntries : Nat) : Bytes :=
  encodeFixed64 sparseIndexOffset ++ (encodeFixed64 sparseIndexSize ++ (encodeFixed64 bloomOffset ++
    (encodeFixed64 bloomSize ++ (encodeFixed64 numEntries ++ encodeFixed64 kMagicNumber))))

/-! ## The writer -/

/-- `SSTableWriter`; `file` is what was appended to the file. -/
structure SSTableWriter where
  sparseIndexInterval : Nat
  bloomBitsPerKey : Nat
  file : Bytes := []
  numEntries : Nat := 0
  dataOffset : Nat := 0
  smallestKey : Key := []
  largestKey : Key := []
  sparseIndex : List SparseIndexEntry := []
  entriesSinceLastIndex : Nat := 0
  keyStorage : List Key := []
  finished : Bool := false

namespace SSTableWriter

/-- The constructor, followed by `Open`. -/
def new (o : Options) : SSTableWriter := { sparseIndexInterval := o.sparseIndexInterval, bloomBitsPerKey := o.bloomBitsPerKey }

/-- `Add`. -/
def add (w : SSTableWriter) (key : Key) (entry : InternalEntry) : Except Status SSTableWriter :=
  if w.finished then .error (.InvalidArgument "SSTableWriter already finished")
  else
    let newBlock := w.numEntries == 0 || decide (w.sparseIndexInterval ≤ w.entriesSinceLastIndex)
    let buf := encodeEntry key entry
    .ok { w with
      keyStorage := w.keyStorage ++ [key]
      smallestKey := if w.numEntries = 0 then key else w.smallestKey
      largestKey := key
      sparseIndex := if newBlock then w.sparseIndex ++ [⟨key, w.dataOffset⟩] else w.sparseIndex
      file := w.file ++ buf
      dataOffset := w.dataOffset + buf.length
      numEntries := w.numEntries + 1
      entriesSinceLastIndex := (if newBlock then 0 else w.entriesSinceLastIndex) + 1 }

/-- The calls of `Add` for a list of entries. -/
def addAll : List (Key × InternalEntry) → SSTableWriter → Except Status SSTableWriter
  | [], w => .ok w
  | p :: l, w =>
    match w.add p.1 p.2 with
    | .error s => .error s
    | .ok w => addAll l w

/-- `CreateFilter` of the keys; it divides by the number of bits, which is zero when the sum that rounds it up to whole
bytes overflows. -/
def createFilter (w : SSTableWriter) : Option BloomFilter :=
  if w.keyStorage ≠ [] ∧ BloomFilter.numBytes w.keyStorage.length w.bloomBitsPerKey = 0 then none
  else some ((BloomFilter.new w.bloomBitsPerKey).createFilter w.keyStorage)

/-- `Finish`; `none` stands for the division by zero. -/
def finish (w : SSTableWriter) : Option (Except Status SSTableWriter) :=
  if w.finished then some (.error (.InvalidArgument "SSTableWriter already finished"))
  else
    let indexBuf := encodeIndex w.sparseIndex
    match w.createFilter with
    | none => none
    | some bloom =>
      let bloomBuf := encodeBloom bloom
      let footer := encodeFooter w.dataOffset indexBuf.length (w.dataOffset + indexBuf.length) bloomBuf.length w.numEntries
      some (.ok { w with file := w.file ++ indexBuf ++ bloomBuf ++ footer, finished := true })

/-- `Open`, the calls of `Add`, and `Finish`: the file they leave. -/
def writeFile (o : Options) (l : List (Key × InternalEntry)) : Option (Except Status Bytes) :=
  match addAll l (new o) with
  | .error s => some (.error s)
  | .ok w => w.finish.map fun r => r.map SSTableWriter.file

end SSTableWriter

/-! ## The reader -/

/-- `SSTableReader`; `file` is what `file_` reads. -/
structure SSTableReader where
  file : Bytes
  bloom : BloomFilter := .new 0
  sparseIndex : List SparseIndexEntry := []
  numEntries : Nat := 0
  dataEndOffset : Nat := 0
  smallestKey : Key := []
  largestKey : Key := []

namespace SSTableReader

/-- The loop of `LoadSparseIndex` over the rest `p` of the buffer; every iteration takes at least nine bytes. -/
def sparseIndexLoop : Nat → Bytes → Except Status (List SparseIndexEntry)
  | 0, _ => .ok []
  | n + 1, p =>
    if p = [] then .ok []
    else
      match decodeVarint32 p with
      | none => .error (.Corruption "Truncated sparse index key")
      | some (keyLen, p) =>
        if p.length < keyLen then .error (.Corruption "Truncated sparse index key")
        else
          let key := p.take keyLen
          let p := p.drop keyLen
          if p.length < 8 then .error (.Corruption "Truncated sparse index offset")
          else
            match sparseIndexLoop n (p.drop 8) with
            | .error s => .error s
            | .ok index => .ok (⟨key, decodeFixed64 p⟩ :: index)

/-- `LoadSparseIndex`. -/
def loadSparseIndex (r : SSTableReader) (offset size : Nat) : Except Status SSTableReader :=
  if size = 0 then .ok r
  else
    match sparseIndexLoop size (slice r.file offset size) with
    | .error s => .error s
    | .ok index =>
      match index.head?, index.getLast? with
      | some a, some b => .ok { r with sparseIndex := index, smallestKey := a.key, largestKey := b.key }
      | _, _ => .ok { r with sparseIndex := index }

/-- `LoadBloomFilter`. -/
def loadBloomFilter (r : SSTableReader) (offset size : Nat) : SSTableReader :=
  if size < 4 then r
  else
    let buf := slice r.file offset size
    { r with bloom := r.bloom.setRawData (buf.drop 4) (decodeFixed32 buf) }

/-- `LoadFooter`. -/
def loadFooter (r : SSTableReader) : Except Status SSTableReader :=
  if r.file.length < 48 then .error (.Corruption "File too short to be an SSTable")
  else
    let p := slice r.file (r.file.length - 48) 48
    let sparseIndexOffset := decodeFixed64 p
    let sparseIndexSize := decodeFixed64 (p.drop 8)
    let bloomOffset := decodeFixed64 (p.drop 16)
    let bloomSize := decodeFixed64 (p.drop 24)
    let numEntries := decodeFixed64 (p.drop 32)
    let magic := decodeFixed64 (p.drop 40)
    if magic ≠ kMagicNumber then .error (.Corruption "Not an SSTable (magic number mismatch)")
    else
      match { r with numEntries := numEntries, dataEndOffset := sparseIndexOffset }.loadSparseIndex sparseIndexOffset
        sparseIndexSize with
      | .error s => .error s
      | .ok r => .ok (r.loadBloomFilter bloomOffset bloomSize)

/-- `Open`. -/
def openFile (file : Bytes) : Except Status SSTableReader := loadFooter { file := file }

/-- The part of `ReadEntryAt` behind the reads: `buf` starts with a length of `varintLen` bytes. -/
def parseEntry (buf : Bytes) (varintLen keyLen : Nat) : Except Status (Key × InternalEntry) :=
  let q := buf.drop varintLen
  if q.length < keyLen then .error (.Corruption "Truncated key data")
  else
    let key := q.take keyLen
    let q := q.drop keyLen
    if q.length < 25 then .error (.Corruption "Truncated entry metadata")
    else
      .ok (key,
        { type := .ofByte (q.getD 0 0)
          sequence := decodeFixed64 (q.drop 1)
          vlogPtr := ⟨decodeFixed32 (q.drop 9), decodeFixed64 (q.drop 13), decodeFixed32 (q.drop 21)⟩ })

/-- `ReadEntryAt` once the length is known: more is read when the buffer does not hold the whole entry. -/
def readRest (file : Bytes) (offset : Nat) (buf q : Bytes) (keyLen : Nat) : Except Status (Key × InternalEntry × Nat) :=
  let varintLen := buf.length - q.length
  let totalLen := varintLen + keyLen + 1 + 8 + 16
  let buf := if buf.length < totalLen then slice file offset totalLen else buf
  match parseEntry buf varintLen keyLen with
  | .error s => .error s
  | .ok (key, entry) => .ok (key, entry, offset + totalLen)

/-- `ReadEntryAt`: key, entry and the offset of the next entry. -/
def readEntryAt (r : SSTableReader) (offset : Nat) : Except Status (Key × InternalEntry × Nat) :=
  let buf := slice r.file offset 64
  if buf = [] then .error (.NotFound "EOF reached")
  else
    match decodeVarint32 buf with
    | some (keyLen, q) => readRest r.file offset buf q keyLen
    | none =>
      let buf := slice r.file offset 128
      match decodeVarint32 buf with
      | some (keyLen, q) => readRest r.file offset buf q keyLen
      | none => .error (.Corruption "Truncated key length varint")

/-- The linear scan of `Get`; every iteration moves the offset on. -/
def scan (r : SSTableReader) (key : Key) (endOffset : Nat) : Nat → Nat → Except Status InternalEntry
  | 0, _ => .error (.NotFound "Key not found in block")
  | n + 1, offset =>
    if offset < endOffset then
      match r.readEntryAt offset with
      | .error s => .error s
      | .ok (parsedKey, parsedEntry, nextOffset) =>
        if parsedKey = key then .ok parsedEntry
        else if key < parsedKey then .error (.NotFound "Key not found in block")
        else r.scan key endOffset n nextOffset
    else .error (.NotFound "Key not found in block")

/-- `static_cast<int>` of a size. -/
def toInt (n : Nat) : Int := if n % 2 ^ 32 < 2 ^ 31 then (n % 2 ^ 32 : Nat) else (n % 2 ^ 32 : Nat) - 2 ^ 32

/-- `Get`. -/
def get (r : SSTableReader) (key : Key) : Except Status InternalEntry :=
  if !r.bloom.data.isEmpty && !r.bloom.mayContain key then .error (.NotFound "Not in bloom filter")
  else if r.sparseIndex.isEmpty then .error (.NotFound "Empty sparse index")
  else
    let block := SplitKV.SSTableReader.searchBlock r.sparseIndex key r.sparseIndex.length 0
      (toInt r.sparseIndex.length - 1) 0
    let endOffset := if block + 1 < r.sparseIndex.length then (r.sparseIndex.getD (block + 1) ⟨[], 0⟩).dataOffset
      else r.dataEndOffset
    r.scan key endOffset endOffset (r.sparseIndex.getD block ⟨[], 0⟩).dataOffset

end SSTableReader

/-! ## The iterator -/

/-- `SSTableReader::Iterator`. -/
structure Iterator where
  reader : SSTableReader
  currentKey : Key := []
  currentEntry : InternalEntry := ⟨⟨0, 0, 0⟩, 0, .value⟩
  currentOffset : Nat := 0
  valid : Bool := false

namespace Iterator

/-- `ReadEntryAt` of the iterator. -/
def readEntryAt (it : Iterator) (offset : Nat) : Iterator × Except Status Unit :=
  if it.reader.dataEndOffset ≤ offset then
    ({ it with valid := false }, .error (.NotFound "Reached end of data blocks"))
  else
    match it.reader.readEntryAt offset with
    | .error s => ({ it with valid := false }, .error s)
    | .ok (key, entry, nextOffset) =>
      ({ it with currentKey := key, currentEntry := entry, currentOffset := nextOffset, valid := true }, .ok ())

/-- `SeekToFirst`. -/
def seekToFirst (it : Iterator) : Iterator × Except Status Unit := { it with currentOffset := 0 }.readEntryAt 0

/-- `Next`. -/
def next (it : Iterator) : Iterator × Except Status Unit :=
  if it.valid then it.readEntryAt it.currentOffset else (it, .error (.NotFound "Invalid iterator"))

/-- `Key` and `Entry`, while the iterator is `Valid`. -/
def head (it : Iterator) : Option (Key × InternalEntry) := if it.valid then some (it.currentKey, it.currentEntry) else none

/-- The iterator behind `n` calls of `Next`. -/
def advance (it : Iterator) : Nat → Iterator
  | 0 => it
  | n + 1 => (it.advance n).next.1

end Iterator

end Format

end SplitKV
