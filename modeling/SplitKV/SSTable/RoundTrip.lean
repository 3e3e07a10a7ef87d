import SplitKV.SSTable.Encoding

/-!
# The round trip of a table

The file of a sorted list answers every lookup as the list does and enumerates the list (`Opened.get_answers`,
`Opened.head_advance`), unless the size of its filter overflows or its blocks are more than an `int` counts
(`roundTrip_iff`). It then answers as the reader of entries that the database works on (`Written.refines`).
-/

namespace SplitKV

open Assoc

namespace Format

/-- The data section of the reader's file, its index and its filter are those of the list. -/
structure Opened (l : List (Key × InternalEntry)) (r : SSTableReader) : Prop where
  sorted : Sorted l
  fits : ∀ p ∈ l, Fits p
  file : ∃ trailer, r.file = encodeEntries l ++ trailer
  dataEnd : r.dataEndOffset = dataSize l
  index : IndexOf r.sparseIndex l
  filter : r.bloom.data ≠ [] → ∀ p ∈ l, r.bloom.mayContain p.1 = true

section

variable {l : List (Key × InternalEntry)} {r : SSTableReader}

/-- The entry at its place in the data section. -/
theorem Opened.readEntryAt (h : Opened l r) {pre rest : List (Key × InternalEntry)} {p : Key × InternalEntry}
    (hl : l = pre ++ p :: rest) : r.readEntryAt (dataSize pre) = .ok (p.1, p.2, dataSize (pre ++ [p])) := by
  obtain ⟨trailer, hf⟩ := h.file
  have hpre : ∀ q ∈ pre, q.1.length < 2 ^ 32 := fun q hq => (h.fits q (by rw [hl]; simp [hq])).key
  have hfile : r.file = encodeEntries pre ++ (encodeEntry p.1 p.2 ++ (encodeEntries rest ++ trailer)) := by
    rw [hf, hl]
    simp [encodeEntries]
  have := readEntryAt_encode (h.fits p (by rw [hl]; simp)) hfile
  rw [length_encodeEntries hpre] at this
  rw [this, dataSize_append, dataSize_cons, dataSize_nil, Nat.add_zero]

/-! ## Lookups -/

/-- The result of a lookup is the entry, or `NotFound`. -/
def Answers (result : Except Status InternalEntry) (found : Option InternalEntry) : Prop :=
  match found with
  | some e => result = .ok e
  | none => ∃ msg, result = .error (.NotFound msg)

theorem length_le_dataSize (l : List (Key × InternalEntry)) : l.length ≤ dataSize l := by
  induction l with
  | nil => exact Nat.le_refl _
  | cons p l ih =>
    have := entrySize_pos p.1
    rw [dataSize_cons, List.length_cons]
    omega

/-- **The scan** of the entries `mid` finds what they bind the key to. -/
theorem Opened.scan_answers (h : Opened l r) (key : Key) : ∀ (mid pre post : List (Key × InternalEntry)) (n : Nat),
    l = pre ++ mid ++ post → mid.length ≤ n →
      Answers (r.scan key (dataSize (pre ++ mid)) n (dataSize pre)) (lookup key mid)
  | [], pre, post, n, _, _ => by
    refine ⟨"Key not found in block", ?_⟩
    cases n with
    | zero => rfl
    | succ n => rw [SSTableReader.scan, if_neg (by simp)]
  | p :: mid, pre, post, 0, _, hn => absurd hn (by simp)
  | p :: mid, pre, post, n + 1, hl, hn => by
    have hp := entrySize_pos p.1
    have hlt : dataSize pre < dataSize (pre ++ p :: mid) := by
      simp only [dataSize_append, dataSize_cons]
      omega
    have hl' : l = pre ++ p :: (mid ++ post) := by
      rw [hl]
      simp
    have hread := h.readEntryAt hl'
    rw [SSTableReader.scan, if_pos hlt, hread]
    simp only
    by_cases hk : p.1 = key
    · rw [if_pos hk, lookup_cons, if_pos hk]
      rfl
    · rw [if_neg hk, lookup_cons_of_ne hk]
      split
      · rename_i hgt
        have hs := h.sorted
        rw [hl] at hs
        have hmid := (sorted_append.mp (sorted_append.mp hs).1).2.1
        rw [lookup_of_lt fun q hq => hgt.trans ((sorted_cons.mp hmid).1 q hq)]
        exact ⟨_, rfl⟩
      · have ih := h.scan_answers key mid (pre ++ [p]) post n (by rw [hl]; simp) (by simpa using hn)
        rwa [List.append_assoc] at ih

/-- The filter lets every key of the list pass. -/
theorem Opened.filtered (h : Opened l r) {key : Key} (hb : (!r.bloom.data.isEmpty && !r.bloom.mayContain key) = true) :
    lookup key l = none := by
  simp only [Bool.and_eq_true, Bool.not_eq_true', List.isEmpty_eq_false_iff] at hb
  refine lookup_eq_none fun p hp he => ?_
  have := h.filter hb.1 p hp
  rw [he, hb.2] at this
  cases this

theorem toInt_of_lt {n : Nat} (h : n < 2 ^ 31) : SSTableReader.toInt n = n := by
  rw [SSTableReader.toInt, Nat.mod_eq_of_lt (by omega), if_pos h]

theorem toInt_lt (n : Nat) : SSTableReader.toInt n < 2 ^ 31 := by
  unfold SSTableReader.toInt
  split <;> omega

/-- **A lookup** answers as the list. -/
theorem Opened.get_answers (h : Opened l r) (hn : r.sparseIndex.length < 2 ^ 31) (key : Key) :
    Answers (r.get key) (lookup key l) := by
  unfold SSTableReader.get
  split
  · rename_i hb
    rw [h.filtered hb]
    exact ⟨_, rfl⟩
  · split
    · rename_i he
      have hl : l = [] := by
        by_contra hne
        exact h.index.ne_nil hne (List.isEmpty_iff.mp he)
      rw [hl]
      exact ⟨_, rfl⟩
    · rename_i hne
      have hpos : 0 < r.sparseIndex.length := List.length_pos_iff.mpr (fun h0 => hne (by rw [h0]; rfl))
      rw [toInt_of_lt hn]
      obtain ⟨hlt, hle, habove⟩ := SplitKV.SSTableReader.searchBlock_spec h.index.sorted key r.sparseIndex.length 0
        (r.sparseIndex.length - 1) 0 (Int.le_refl 0) (by omega) (by omega) (by omega) (Or.inl ⟨rfl, rfl⟩)
        (fun i h₁ h₂ => by omega) hpos
      obtain ⟨pre, mid, post, hl, ho, he, hpre, hpost⟩ :=
        SplitKV.SSTableReader.block_spec h.index h.sorted hlt hle habove
      simp only
      have hlen : mid.length ≤ dataSize (pre ++ mid) := by
        have := length_le_dataSize mid
        rw [dataSize_append]
        omega
      have hscan := h.scan_answers key mid pre post _ hl hlen
      rw [h.dataEnd, he, ho]
      rwa [hl, lookup_append, lookup_append, hpre, hpost, Option.none_or, Option.or_none]

/-- The binary search stays below its right end. -/
theorem searchBlock_le (index : List SparseIndexEntry) (key : Key) : ∀ (n : Nat) (left right : Int) (block : Nat),
    0 ≤ left → SplitKV.SSTableReader.searchBlock index key n left right block ≤ max block right.toNat
  | 0, left, right, block, _ => Nat.le_max_left _ _
  | n + 1, left, right, block, h0 => by
    rw [SplitKV.SSTableReader.searchBlock]
    split
    · have hmid : left ≤ left + (right - left) / 2 ∧ left + (right - left) / 2 ≤ right := by omega
      simp only
      generalize left + (right - left) / 2 = mid at hmid ⊢
      split
      · omega
      · split
        · have := searchBlock_le index key n (mid + 1) right mid.toNat (by omega)
          omega
        · have := searchBlock_le index key n left (mid - 1) block h0
          omega
    · exact Nat.le_max_left _ _

/-- **With more blocks than an `int` counts**, the first key of the last block is not found. -/
theorem Opened.get_lost (h : Opened l r) (hn : 2 ^ 31 ≤ r.sparseIndex.length) :
    ∃ p ∈ l, r.get p.1 ≠ .ok p.2 := by
  obtain ⟨pre', p', post', hl', hk', -⟩ :=
    SplitKV.SSTableReader.block_at h.index (show r.sparseIndex.length - 1 < r.sparseIndex.length by omega)
  refine ⟨p', by rw [hl']; simp, fun hget => ?_⟩
  unfold SSTableReader.get at hget
  split at hget
  · cases hget
  split at hget
  · cases hget
  simp only at hget
  have hle := searchBlock_le r.sparseIndex p'.1 r.sparseIndex.length 0 (SSTableReader.toInt r.sparseIndex.length - 1) 0
    (Int.le_refl 0)
  have hint := toInt_lt r.sparseIndex.length
  generalize SplitKV.SSTableReader.searchBlock r.sparseIndex p'.1 r.sparseIndex.length 0
    (SSTableReader.toInt r.sparseIndex.length - 1) 0 = b at hle hget
  have hb : b + 1 < r.sparseIndex.length := by omega
  obtain ⟨pre, p, mid, q, post, hl, ho, ho', hk, hkq⟩ := SplitKV.SSTableReader.block_split h.index h.sorted hb
  rw [if_pos hb, ho, ho'] at hget
  -- the entries of the block that is scanned lie below the next block, and so below the last one
  have hq : q.1 ≤ p'.1 := by
    rw [← hkq, ← hk']
    rcases Nat.lt_or_ge (b + 1) (r.sparseIndex.length - 1) with hlt | hge
    · exact (SplitKV.SSTableReader.blockKey_lt h.index.sorted hlt (by omega)).le
    · rw [show b + 1 = r.sparseIndex.length - 1 by omega]
  have hnone : lookup p'.1 (p :: mid) = none := by
    have hs := h.sorted
    rw [hl] at hs
    refine lookup_of_gt fun x hx => lt_of_lt_of_le ?_ hq
    exact (sorted_append.mp hs).2.2 x (List.mem_append_right _ hx) q List.mem_cons_self
  have hlen : (p :: mid).length ≤ dataSize (pre ++ p :: mid) := by
    have := length_le_dataSize (p :: mid)
    rw [dataSize_append]
    omega
  have hscan := h.scan_answers p'.1 (p :: mid) pre (q :: post) _ hl hlen
  rw [hnone] at hscan
  obtain ⟨msg, hm⟩ := hscan
  rw [hm] at hget
  cases hget

/-! ## Enumeration -/

/-- The iterator stands on entry number `i` of the list, or is invalid when there is none. -/
structure StandsOn (r : SSTableReader) (l : List (Key × InternalEntry)) (i : Nat) (it : Iterator) : Prop where
  reader : it.reader = r
  head : it.head = l[i]?
  offset : it.valid = true → it.currentOffset = dataSize (l.take (i + 1))

/-- A read at the place of entry number `i`. -/
theorem Opened.readEntryAt_standsOn (h : Opened l r) {it : Iterator} (hr : it.reader = r) (i : Nat) :
    StandsOn r l i (it.readEntryAt (dataSize (l.take i))).1 := by
  unfold Iterator.readEntryAt
  rw [hr]
  by_cases hi : i < l.length
  · have hl : l = l.take i ++ l[i] :: l.drop (i + 1) := by rw [List.getElem_cons_drop, List.take_append_drop]
    have hsucc : l.take (i + 1) = l.take i ++ [l[i]] := (List.take_append_getElem hi).symm
    have hread := h.readEntryAt hl
    have hlt : ¬r.dataEndOffset ≤ dataSize (l.take i) := by
      have hp := entrySize_pos l[i].1
      have hsize := congrArg dataSize hl
      rw [dataSize_append, dataSize_cons] at hsize
      rw [h.dataEnd]
      omega
    rw [if_neg hlt, hread]
    exact ⟨rfl, by simp [Iterator.head, hi], fun _ => by rw [hsucc]⟩
  · have hend : r.dataEndOffset ≤ dataSize (l.take i) := by
      rw [h.dataEnd, List.take_of_length_le (by omega)]
    rw [if_pos hend]
    refine ⟨rfl, ?_, fun hv => by cases hv⟩
    rw [List.getElem?_eq_none (by omega)]
    rfl

/-- `Next` moves to the next entry. -/
theorem Opened.next_standsOn (h : Opened l r) {it : Iterator} {i : Nat} (hi : StandsOn r l i it) :
    StandsOn r l (i + 1) it.next.1 := by
  unfold Iterator.next
  split
  · rename_i hv
    rw [hi.offset hv]
    exact h.readEntryAt_standsOn hi.reader (i + 1)
  · rename_i hv
    have hnone : l[i]? = none := by rw [← hi.head, Iterator.head, if_neg hv]
    refine ⟨hi.reader, ?_, fun hv' => absurd hv' hv⟩
    rw [List.getElem?_eq_none_iff] at hnone
    rw [hi.head, List.getElem?_eq_none hnone, List.getElem?_eq_none (by omega)]

/-- **The iterator** enumerates the list. -/
theorem Opened.head_advance (h : Opened l r) (n : Nat) :
    ((Iterator.seekToFirst { reader := r }).1.advance n).head = l[n]? := by
  have hall : ∀ n, StandsOn r l n ((Iterator.seekToFirst { reader := r }).1.advance n) := by
    intro n
    induction n with
    | zero => exact h.readEntryAt_standsOn rfl 0
    | succ n ih => exact h.next_standsOn ih
  exact (hall n).head

end

/-! ## The round trip -/

/-- The list is written, and the file is opened; then every lookup answers as the list does, and the iterator enumerates
the list and becomes invalid behind it. -/
def RoundTrip (o : Options) (l : List (Key × InternalEntry)) : Prop :=
  ∃ file r, SSTableWriter.writeFile o l = some (.ok file) ∧ SSTableReader.openFile file = .ok r ∧
    (∀ key, Answers (r.get key) (lookup key l)) ∧
    ∀ n, ((Iterator.seekToFirst { reader := r }).1.advance n).head = l[n]?

/-- The index entries have their types. -/
theorem Written.indexFits {o : Options} {l : List (Key × InternalEntry)} {wl : SplitKV.SSTableWriter} {file : Bytes}
    (h : Written o l wl file) (hk : ∀ p ∈ l, p.1.length < 2 ^ 32) (hsize : dataSize l < 2 ^ 64) :
    ∀ e ∈ wl.sparseIndex, IndexFits e := by
  intro e he
  obtain ⟨pre, p, post, hl, hkey, ho⟩ := h.wrote.index.pointsAt e he
  have hle : dataSize pre ≤ dataSize l := by
    rw [hl, dataSize_append]
    omega
  refine ⟨?_, by omega⟩
  rw [hkey]
  exact hk p (by rw [hl]; simp)

theorem Written.dataSize_le {o : Options} {l : List (Key × InternalEntry)} {wl : SplitKV.SSTableWriter} {file : Bytes}
    (h : Written o l wl file) (hk : ∀ p ∈ l, p.1.length < 2 ^ 32) : dataSize l ≤ file.length := by
  rw [h.file, encodeFile, ← length_encodeEntries hk]
  simp only [List.length_append]
  omega

/-- The file of a sorted list is opened. -/
theorem Written.opened {o : Options} {l : List (Key × InternalEntry)} {wl : SplitKV.SSTableWriter} {file : Bytes}
    (h : Written o l wl file) (hs : Sorted l) (hf : ∀ p ∈ l, Fits p) (hsize : file.length < 2 ^ 64) :
    ∃ r, SSTableReader.openFile file = .ok r ∧ Opened l r ∧ r.sparseIndex = wl.sparseIndex := by
  have hk : ∀ p ∈ l, p.1.length < 2 ^ 32 := fun p hp => (hf p hp).key
  have hdata := length_encodeEntries hk
  have hlen := h.dataSize_le hk
  have hindex := h.indexFits hk (by omega)
  have hhashes : wl.bloom.numHashes < 2 ^ 32 := by
    have hnew : (BloomFilter.new wl.bloomBitsPerKey).numHashes ≤ 30 := by
      unfold BloomFilter.new
      simp only
      split
      · omega
      · split <;> omega
    have : wl.bloom.numHashes = (BloomFilter.new wl.bloomBitsPerKey).numHashes := by
      unfold SplitKV.SSTableWriter.bloom BloomFilter.createFilter
      split <;> rfl
    omega
  have hcount : l.length < 2 ^ 64 := by
    have := length_le_dataSize l
    omega
  have hopen : SSTableReader.openFile file =
      .ok (readerOf file (encodeEntries l).length wl.sparseIndex wl.bloom l.length) := by
    rw [h.file] at hsize ⊢
    exact openFile_encode hindex hhashes hcount hsize
  refine ⟨_, hopen, ⟨hs, hf, ?_, hdata, h.wrote.index, fun hne p hp => ?_⟩, rfl⟩
  · show ∃ trailer, file = _
    rw [h.file]
    exact encodeFile_start _ _ _ _
  · refine BloomFilter.mayContain_createFilter _ _ ?_ hne
    rw [h.wrote.keyStorage]
    exact List.mem_map_of_mem hp

/-- **The round trip of a table**: the file of a sorted list can be written, and gives back the list, exactly when the
size of its filter does not overflow and its blocks are counted by an `int`. -/
theorem roundTrip_iff (o : Options) {l : List (Key × InternalEntry)} (hs : Sorted l) (hf : ∀ p ∈ l, Fits p)
    (hsize : ∀ file, SSTableWriter.writeFile o l = some (.ok file) → file.length < 2 ^ 64) :
    RoundTrip o l ↔ (l = [] ∨ l.length * o.bloomBitsPerKey % 2 ^ 64 + 7 < 2 ^ 64) ∧
      l.length ≤ (2 ^ 31 - 1) * max 1 o.sparseIndexInterval := by
  have hk : ∀ p ∈ l, p.1.length < 2 ^ 32 := fun p hp => (hf p hp).key
  obtain ⟨hnone, hsome⟩ := writeFile_spec o hs hk
  have hbits : (l = [] ∨ l.length * o.bloomBitsPerKey % 2 ^ 64 + 7 < 2 ^ 64) ↔ ¬NoBits o l := by
    rw [NoBits, not_and_or, not_not, Nat.not_le]
  rw [hbits]
  by_cases hn : NoBits o l
  · refine ⟨fun ⟨file, r, hw, _⟩ => ?_, fun h => absurd hn h.1⟩
    rw [hnone hn] at hw
    cases hw
  · obtain ⟨wl, file, hwritten, hw⟩ := hsome hn
    obtain ⟨r, hr, hopened, hindex⟩ := hwritten.opened hs hf (hsize file hw)
    have hblocks := hwritten.blocks.length_le_iff (2 ^ 31 - 1)
    rw [hwritten.wrote.numEntries, ← hindex] at hblocks
    rw [← hblocks]
    constructor
    · rintro ⟨file', r', hw', hr', hget, -⟩
      rw [hw] at hw'
      cases hw'
      rw [hr] at hr'
      cases hr'
      refine ⟨hn, ?_⟩
      by_contra hgt
      obtain ⟨p, hp, hlost⟩ := hopened.get_lost (by omega)
      have hans := hget p.1
      rw [hs.lookup_eq_some_iff.mpr hp] at hans
      exact hlost hans
    · rintro ⟨-, hle⟩
      exact ⟨file, r, hw, hr, fun key => hopened.get_answers (by omega) key, hopened.head_advance⟩

/-- Two entries, of which the index samples each. -/
theorem roundTrip_sample : RoundTrip { sparseIndexInterval := 1, bloomBitsPerKey := 0 }
    [([1], ⟨⟨1, 0, 1⟩, 2, .value⟩), ([2], ⟨⟨0, 0, 0⟩, 3, .deletion⟩)] := by
  have hlen : ((SSTableWriter.writeFile { sparseIndexInterval := 1, bloomBitsPerKey := 0 }
      [([1], ⟨⟨1, 0, 1⟩, 2, .value⟩), ([2], ⟨⟨0, 0, 0⟩, 3, .deletion⟩)]).bind Except.toOption).map List.length =
      some 134 := by decide +kernel
  have hs : Sorted [(([1] : Key), (⟨⟨1, 0, 1⟩, 2, .value⟩ : InternalEntry)), ([2], ⟨⟨0, 0, 0⟩, 3, .deletion⟩)] := by
    unfold Sorted
    decide
  refine (roundTrip_iff _ hs (by decide) fun file hw => ?_).mpr (by decide)
  rw [hw] at hlen
  have hlen' : some file.length = some 134 := hlen
  have := Option.some.inj hlen'
  omega

/-- A filter of `2 ^ 64 - 1` bits for one key: the number of bits is rounded up to zero, and `CreateFilter` divides by
it. -/
theorem roundTrip_overflow : SSTableWriter.writeFile { bloomBitsPerKey := 2 ^ 64 - 1 } [([1], ⟨⟨1, 0, 1⟩, 2, .value⟩)] =
    none ∧ ¬RoundTrip { bloomBitsPerKey := 2 ^ 64 - 1 } [([1], ⟨⟨1, 0, 1⟩, 2, .value⟩)] := by
  have hnone : SSTableWriter.writeFile { bloomBitsPerKey := 2 ^ 64 - 1 } [([1], ⟨⟨1, 0, 1⟩, 2, .value⟩)] = none :=
    Option.isNone_iff_eq_none.mp (by decide +kernel)
  refine ⟨hnone, fun ⟨file, r, hw, _⟩ => ?_⟩
  rw [hnone] at hw
  cases hw

/-- **The readers agree**: the reader of the bytes answers as the reader of the entries that the writer of entries
finished, and the file has the size that is recorded for it. -/
theorem Written.refines {o : Options} {l : List (Key × InternalEntry)} {wl : SplitKV.SSTableWriter} {file : Bytes}
    (h : Written o l wl file) (hs : Sorted l) (hf : ∀ p ∈ l, Fits p) (hsize : file.length < 2 ^ 64)
    (hn : wl.sparseIndex.length < 2 ^ 31) :
    ∃ r wl' f, SSTableReader.openFile file = .ok r ∧ wl.finish = .ok (wl', f) ∧ file.length = f.size ∧
      ∀ key, (r.get key).toOption = ((SplitKV.SSTableReader.openFile f).get key).toOption := by
  obtain ⟨r, hr, hopened, hindex⟩ := h.opened hs hf hsize
  obtain ⟨wl', f, hfin, hwf, hent, -⟩ := h.wrote.finish hs
  refine ⟨r, wl', f, hr, hfin, ?_, fun key => ?_⟩
  · have hk : ∀ p ∈ l, p.1.length < 2 ^ 32 := fun p hp => (hf p hp).key
    have hkeys := h.indexFits hk ((h.dataSize_le hk).trans_lt hsize)
    unfold SplitKV.SSTableWriter.finish at hfin
    rw [if_neg (by simp [h.wrote.notFinished])] at hfin
    cases hfin
    rw [h.file, encodeFile]
    simp only [List.length_append, length_encodeFooter, length_encodeEntries hk, length_encodeIndex hkeys,
      SSTableFile.size, h.wrote.dataOffset, encodeBloom, length_encodeFixed32]
  · have hans := hopened.get_answers (by rw [hindex]; exact hn) key
    rw [SplitKV.SSTableReader.get_toOption (SplitKV.SSTableReader.wf_openFile hwf)]
    show _ = lookup key f.entries
    rw [hent]
    cases hl : lookup key l with
    | none =>
      rw [hl] at hans
      obtain ⟨msg, hm⟩ := hans
      rw [hm]
      rfl
    | some e =>
      rw [hl] at hans
      rw [show r.get key = .ok e from hans]
      rfl

end Format

end SplitKV
