import SplitKV.Coding

/-!
# The Bloom filter (`bloom_filter.cpp`)

Every key a filter was created from may be contained in it (`mayContain_createFilter`): the bits of a key are set when
the key is added (`testBit_setBit_self`), later keys only set bits (`testBit_setBit_of`), and the reading side computes
the same positions, since it derives the number of bits from the length of the same bit array. A filter is created unless
the number of its bits is rounded up beyond the greatest `size_t` (`createFilter_sound_iff`).
-/

namespace SplitKV

/-- `BloomFilter`. -/
structure BloomFilter where
  bitsPerKey : Nat
  numHashes : Nat
  data : Bytes
  deriving DecidableEq

namespace BloomFilter

/-- The constructor: `k = bits_per_key * ln(2)`, between 1 and 30. -/
def new (bitsPerKey : Nat) : BloomFilter :=
  let k := bitsPerKey * 6931471805599453 / 10 ^ 16
  ⟨bitsPerKey, if k < 1 then 1 else if 30 < k then 30 else k, []⟩

/-- `(k << r) | (k >> (32 - r))`. -/
def rotl (k : BitVec 32) (r : Nat) : BitVec 32 := (k <<< r) ||| (k >>> (32 - r))

/-- The mixing of one block into the hash. -/
def mixBlock (k : BitVec 32) : BitVec 32 := rotl (k * 0xcc9e2d51#32) 15 * 0x1b873593#32

/-- The body and the tail of `Hash`. -/
def hashLoop : BitVec 32 → Bytes → BitVec 32
  | h, a :: b :: c :: d :: rest =>
    hashLoop (rotl (h ^^^ mixBlock (BitVec.ofNat 32 (decodeFixed32 [a, b, c, d]))) 13 * 5#32 + 0xe6546b64#32) rest
  | h, [] => h
  | h, tail =>
    h ^^^ mixBlock (BitVec.ofNat 32 (byteAt tail 2 <<< 16 ^^^ byteAt tail 1 <<< 8 ^^^ byteAt tail 0))

/-- `Hash`. -/
def hash (key : Bytes) (seed : BitVec 32) : BitVec 32 :=
  let h := hashLoop seed key ^^^ BitVec.ofNat 32 key.length
  let h := (h ^^^ (h >>> 16)) * 0x85ebca6b#32
  let h := (h ^^^ (h >>> 13)) * 0xc2b2ae35#32
  h ^^^ (h >>> 16)

/-- The bit position of the `i`-th hash of a key: double hashing in 64 bits, narrowed to 32. -/
def bitPos (key : Bytes) (numBits i : Nat) : Nat :=
  ((hash key 0xbc9f1d34#32).toNat + i * (hash key 0xef017832#32).toNat) % 2 ^ 64 % numBits % 2 ^ 32

/-- `data_[bit_pos / 8] |= 1 << (bit_pos % 8)`. -/
def setBit (data : Bytes) (pos : Nat) : Bytes := data.modify (pos / 8) (fun b => byte (b.val ||| 1 <<< (pos % 8)))

/-- `data_[bit_pos / 8] & (1 << (bit_pos % 8))` is not zero. -/
def testBit (data : Bytes) (pos : Nat) : Bool := (byteAt data (pos / 8) &&& 1 <<< (pos % 8)) != 0

/-- Sets the bits of one key. -/
def addKey (numHashes numBits : Nat) (data : Bytes) (key : Bytes) : Bytes :=
  (List.range numHashes).foldl (fun data i => setBit data (bitPos key numBits i)) data

/-- The number of bytes of a filter for `n` keys, in `size_t` arithmetic. -/
def numBytes (n bitsPerKey : Nat) : Nat :=
  let numBits := n * bitsPerKey % 2 ^ 64
  ((if numBits < 64 then 64 else numBits) + 7) % 2 ^ 64 / 8

/-- `CreateFilter`. -/
def createFilter (f : BloomFilter) (keys : List Bytes) : BloomFilter :=
  if keys.isEmpty then { f with data := [] }
  else
    let bytes := numBytes keys.length f.bitsPerKey
    { f with data := keys.foldl (addKey f.numHashes (bytes * 8)) (List.replicate bytes 0) }

/-- `SetRawData`. -/
def setRawData (f : BloomFilter) (data : Bytes) (numHashes : Nat) : BloomFilter :=
  { f with data := data, numHashes := numHashes }

/-- `MayContain`. -/
def mayContain (f : BloomFilter) (key : Bytes) : Bool :=
  !f.data.isEmpty && (List.range f.numHashes).all (fun i => testBit f.data (bitPos key (f.data.length * 8) i))

/-! ## No false negatives -/

theorem testBit_eq (data : Bytes) (pos : Nat) : testBit data pos = (byteAt data (pos / 8)).testBit (pos % 8) := by
  unfold testBit
  cases h : (byteAt data (pos / 8)).testBit (pos % 8) with
  | true =>
    have : ((byteAt data (pos / 8)) &&& 1 <<< (pos % 8)).testBit (pos % 8) = true := by
      simp [h, Nat.testBit_and, Nat.testBit_shiftLeft]
    simp only [bne_iff_ne, ne_eq]
    intro h0
    rw [h0] at this
    simp at this
  | false =>
    rw [bne_eq_false_iff_eq]
    refine Nat.eq_of_testBit_eq fun j => ?_
    rw [Nat.testBit_and, Nat.zero_testBit, Nat.one_shiftLeft, Nat.testBit_two_pow]
    by_cases hj : pos % 8 = j
    · simp [← hj, h]
    · simp [hj]

theorem length_setBit (data : Bytes) (pos : Nat) : (setBit data pos).length = data.length := by simp [setBit]

theorem byteAt_setBit_self {data : Bytes} {pos : Nat} (h : pos / 8 < data.length) :
    byteAt (setBit data pos) (pos / 8) = (byteAt data (pos / 8) ||| 1 <<< (pos % 8)) % 256 := by
  unfold byteAt setBit
  simp only [List.getD_eq_getElem?_getD, List.getElem?_modify, if_true, List.getElem?_eq_getElem h, Option.getD_some]
  rfl

theorem byteAt_setBit_of_ne {data : Bytes} {pos i : Nat} (h : pos / 8 ≠ i) : byteAt (setBit data pos) i = byteAt data i := by
  unfold byteAt setBit
  simp [List.getD_eq_getElem?_getD, h]

/-- Setting a bit sets it. -/
theorem testBit_setBit_self {data : Bytes} {pos : Nat} (h : pos / 8 < data.length) :
    testBit (setBit data pos) pos = true := by
  have h8 : pos % 8 < 8 := Nat.mod_lt _ (by decide)
  rw [testBit_eq, byteAt_setBit_self h, show 256 = 2 ^ 8 from rfl, Nat.testBit_mod_two_pow, Nat.testBit_or,
    Nat.one_shiftLeft, Nat.testBit_two_pow]
  simp [h8]

/-- Setting a bit clears none. -/
theorem testBit_setBit_of {data : Bytes} {pos p : Nat} (h : testBit data p = true) :
    testBit (setBit data pos) p = true := by
  by_cases hp : pos / 8 = p / 8
  · have h8 : p % 8 < 8 := Nat.mod_lt _ (by decide)
    rw [testBit_eq] at h ⊢
    by_cases hl : pos / 8 < data.length
    · rw [← hp] at h ⊢
      rw [byteAt_setBit_self hl, show 256 = 2 ^ 8 from rfl, Nat.testBit_mod_two_pow, Nat.testBit_or, h]
      simp [h8]
    · have : byteAt data (p / 8) = 0 := by
        unfold byteAt
        rw [List.getD_eq_getElem?_getD, List.getElem?_eq_none (by omega)]
        rfl
      rw [this] at h
      simp at h
  · rw [testBit_eq] at h ⊢
    rw [byteAt_setBit_of_ne hp, h]

theorem length_addKey (n m : Nat) (data key : Bytes) : (addKey n m data key).length = data.length := by
  unfold addKey
  induction List.range n generalizing data with
  | nil => rfl
  | cons i is ih => rw [List.foldl_cons, ih, length_setBit]

theorem testBit_foldl_setBit (f : Nat → Nat) (is : List Nat) {data : Bytes} {p : Nat} (h : testBit data p = true) :
    testBit (is.foldl (fun data i => setBit data (f i)) data) p = true := by
  induction is generalizing data with
  | nil => exact h
  | cons i is ih => exact ih (testBit_setBit_of h)

theorem testBit_foldl_setBit_mem (f : Nat → Nat) {is : List Nat} {i : Nat} (hi : i ∈ is) {data : Bytes}
    (h : f i / 8 < data.length) : testBit (is.foldl (fun data i => setBit data (f i)) data) (f i) = true := by
  induction is generalizing data with
  | nil => cases hi
  | cons j is ih =>
    rw [List.foldl_cons]
    rcases List.mem_cons.mp hi with rfl | hi
    · exact testBit_foldl_setBit f is (testBit_setBit_self h)
    · exact ih hi (by rwa [length_setBit])

theorem length_foldl_addKey (n m : Nat) (keys : List Bytes) (data : Bytes) :
    (keys.foldl (addKey n m) data).length = data.length := by
  induction keys generalizing data with
  | nil => rfl
  | cons key keys ih => rw [List.foldl_cons, ih, length_addKey]

/-- The keys that are added clear no bit. -/
theorem testBit_foldl_addKey_of (n m : Nat) (keys : List Bytes) {data : Bytes} {p : Nat} (h : testBit data p = true) :
    testBit (keys.foldl (addKey n m) data) p = true := by
  induction keys generalizing data with
  | nil => exact h
  | cons key keys ih => exact ih (testBit_foldl_setBit _ _ h)

/-- Every bit of a key is set once the key was added, and stays so. -/
theorem testBit_foldl_addKey {n m : Nat} {keys : List Bytes} {key : Bytes} (hk : key ∈ keys) {data : Bytes} {i : Nat}
    (hi : i < n) (h : bitPos key m i / 8 < data.length) : testBit (keys.foldl (addKey n m) data) (bitPos key m i) = true := by
  induction keys generalizing data with
  | nil => cases hk
  | cons key' keys ih =>
    rw [List.foldl_cons]
    rcases List.mem_cons.mp hk with rfl | hk
    · exact testBit_foldl_addKey_of n m keys (testBit_foldl_setBit_mem (bitPos key m) (List.mem_range.mpr hi) h)
    · exact ih hk (by rwa [length_addKey])

/-- The data of a filter for some keys. -/
theorem createFilter_data (f : BloomFilter) {keys : List Bytes} (hne : keys ≠ []) :
    (f.createFilter keys).data = keys.foldl (addKey f.numHashes (numBytes keys.length f.bitsPerKey * 8))
      (List.replicate (numBytes keys.length f.bitsPerKey) 0) := by
  have he : keys.isEmpty = false := by simpa using hne
  simp only [createFilter, he, Bool.false_eq_true, if_false]

theorem length_createFilter (f : BloomFilter) {keys : List Bytes} (hne : keys ≠ []) :
    (f.createFilter keys).data.length = numBytes keys.length f.bitsPerKey := by
  rw [createFilter_data f hne, length_foldl_addKey, List.length_replicate]

@[simp] theorem numHashes_createFilter (f : BloomFilter) (keys : List Bytes) :
    (f.createFilter keys).numHashes = f.numHashes := by
  unfold createFilter
  split <;> rfl

/-- **No false negatives**: a key of a filter that has bits may be contained in it, also after the bits and the number
of hashes were copied into another filter. -/
theorem mayContain_createFilter (f g : BloomFilter) {keys : List Bytes} {key : Bytes} (hk : key ∈ keys)
    (hd : (f.createFilter keys).data ≠ []) :
    (g.setRawData (f.createFilter keys).data (f.createFilter keys).numHashes).mayContain key = true := by
  have hne : keys ≠ [] := List.ne_nil_of_mem hk
  have hlen := length_createFilter f hne
  have hpos : 0 < numBytes keys.length f.bitsPerKey := hlen ▸ List.length_pos_iff.mpr hd
  unfold mayContain setRawData
  simp only [Bool.and_eq_true, Bool.not_eq_true', List.isEmpty_eq_false_iff, List.all_eq_true, List.mem_range]
  refine ⟨hd, fun i hi => ?_⟩
  rw [numHashes_createFilter] at hi
  rw [hlen, createFilter_data f hne]
  refine testBit_foldl_addKey hk hi ?_
  rw [List.length_replicate, bitPos]
  generalize numBytes keys.length f.bitsPerKey = n at hpos
  have := Nat.mod_lt (((hash key 0xbc9f1d34#32).toNat + i * (hash key 0xef017832#32).toNat) % 2 ^ 64)
    (show 0 < n * 8 by omega)
  have := Nat.mod_le (((hash key 0xbc9f1d34#32).toNat + i * (hash key 0xef017832#32).toNat) % 2 ^ 64 % (n * 8)) (2 ^ 32)
  omega

/-! ## Filters that can be created -/

/-- `CreateFilter`, where it ends: it takes every position modulo the number of bits, and `none` stands for the division by
zero. -/
def createFilterChecked (f : BloomFilter) (keys : List Bytes) : Option BloomFilter :=
  if keys ≠ [] ∧ numBytes keys.length f.bitsPerKey = 0 then none else some (f.createFilter keys)

/-- `SetRawData` of what another filter hands out, where the number of hashes was stored in 32 bits. -/
def copy (g f : BloomFilter) : BloomFilter := g.setRawData f.data (decodeFixed32 (encodeFixed32 f.numHashes))

/-- The number of hashes lies between 1 and 30. -/
theorem numHashes_new (bitsPerKey : Nat) : 1 ≤ (new bitsPerKey).numHashes ∧ (new bitsPerKey).numHashes ≤ 30 := by
  unfold new
  simp only
  split
  · omega
  · split <;> omega

/-- There are no bits when the sum that rounds them up to whole bytes overflows. -/
theorem numBytes_eq_zero (n bitsPerKey : Nat) : numBytes n bitsPerKey = 0 ↔ 2 ^ 64 ≤ n * bitsPerKey % 2 ^ 64 + 7 := by
  unfold numBytes
  have := Nat.mod_lt (n * bitsPerKey) (show 0 < 2 ^ 64 by decide)
  generalize n * bitsPerKey % 2 ^ 64 = bits at this
  simp only
  split <;> omega

/-- `created` is a filter of the keys: its copies may contain each of them, and the bits that the first keys set are still
set behind the others. -/
structure Sound (f : BloomFilter) (keys : List Bytes) (created : BloomFilter) : Prop where
  contains : ∀ g : BloomFilter, ∀ key ∈ keys, (g.copy created).mayContain key = true
  kept : ∀ first later, keys = first ++ later → ∀ pos,
    testBit (first.foldl (addKey f.numHashes (created.data.length * 8)) (List.replicate created.data.length 0)) pos = true →
      testBit created.data pos = true

theorem testBit_replicate (n pos : Nat) : testBit (List.replicate n 0) pos = false := by
  have hz : byteAt (List.replicate n 0) (pos / 8) = 0 := by
    unfold byteAt
    rw [List.getD_eq_getElem?_getD, List.getElem?_replicate]
    split <;> rfl
  rw [testBit_eq, hz, Nat.zero_testBit]

/-- A filter with bits is a filter of its keys. -/
theorem sound_createFilter {f : BloomFilter} (hn : f.numHashes < 2 ^ 32) {keys : List Bytes}
    (hpos : numBytes keys.length f.bitsPerKey ≠ 0) : Sound f keys (f.createFilter keys) := by
  refine ⟨fun g key hk => ?_, fun first later he pos hp => ?_⟩
  · have hne : keys ≠ [] := List.ne_nil_of_mem hk
    have hd : (f.createFilter keys).data ≠ [] := by
      intro hnil
      have hlen := length_createFilter f hne
      rw [hnil] at hlen
      exact hpos hlen.symm
    have h := mayContain_createFilter f g hk hd
    rw [numHashes_createFilter] at h
    rwa [copy, numHashes_createFilter, decodeFixed32_encode' hn]
  · by_cases hne : keys = []
    · subst hne
      obtain ⟨rfl, -⟩ := List.append_eq_nil_iff.mp he.symm
      rw [List.foldl_nil, testBit_replicate] at hp
      cases hp
    · rw [length_createFilter f hne] at hp
      rw [createFilter_data f hne]
      generalize numBytes keys.length f.bitsPerKey = n at hp
      rw [he, List.foldl_append]
      exact testBit_foldl_addKey_of f.numHashes (n * 8) later hp

/-- **`CreateFilter` makes a filter of its keys** unless the number of bits, rounded up to whole bytes, overflows. -/
theorem createFilter_sound_iff (f : BloomFilter) (hn : f.numHashes < 2 ^ 32) (keys : List Bytes) :
    (∃ created, f.createFilterChecked keys = some created ∧ Sound f keys created) ↔
      keys = [] ∨ keys.length * f.bitsPerKey % 2 ^ 64 ≤ 2 ^ 64 - 8 := by
  have hzero := numBytes_eq_zero keys.length f.bitsPerKey
  constructor
  · rintro ⟨created, hc, -⟩
    by_contra hno
    obtain ⟨hne, hlarge⟩ := not_or.mp hno
    rw [createFilterChecked, if_pos ⟨hne, hzero.mpr (by omega)⟩] at hc
    cases hc
  · rintro (rfl | hle)
    · have hpos : numBytes ([] : List Bytes).length f.bitsPerKey ≠ 0 := by
        rw [ne_eq, numBytes_eq_zero]
        simp
      exact ⟨_, if_neg fun h => h.1 rfl, sound_createFilter hn hpos⟩
    · have hpos : numBytes keys.length f.bitsPerKey ≠ 0 := fun h0 => by
        have := hzero.mp h0
        omega
      exact ⟨_, if_neg fun h => hpos h.2, sound_createFilter hn hpos⟩

/-- A filter of ten bits a key. -/
theorem createFilter_sound_sample :
    ∃ created, (new 10).createFilterChecked [[1], [2, 3]] = some created ∧ Sound (new 10) [[1], [2, 3]] created :=
  (createFilter_sound_iff (new 10) ((numHashes_new 10).2.trans_lt (by decide)) [[1], [2, 3]]).mpr (Or.inr (by decide))

/-- **The greatest number of bits a key** makes none: the division by the number of bits fails. -/
theorem createFilter_divides_by_zero : (new (2 ^ 64 - 1)).createFilterChecked [[1]] = none ∧
    ¬∃ created, (new (2 ^ 64 - 1)).createFilterChecked [[1]] = some created ∧ Sound (new (2 ^ 64 - 1)) [[1]] created := by
  have hnone : (new (2 ^ 64 - 1)).createFilterChecked [[1]] = none := if_pos (by decide)
  refine ⟨hnone, ?_⟩
  rintro ⟨created, hc, -⟩
  rw [hnone] at hc
  cases hc

end BloomFilter

end SplitKV
