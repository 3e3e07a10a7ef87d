import SplitKV.SSTable.RoundTrip

/-!
# `Seek` of the iterator (`sstable.cpp`)

`Seek` takes the block that the binary search finds, as `Get` does, but scans from there to the end of the data. So it
needs less of the search than `Get`: that nothing in front of the block is wanted (`searchBlock_floor`). It then finds
the first entry that is not below the target, and `Next` the rest (`Opened.seek_spec`).
-/

namespace SplitKV

open Assoc

namespace Format

namespace Iterator

/-- The linear scan of `Seek`; every iteration moves the offset on. -/
def seekLoop (target : Key) : Nat → Iterator → Iterator × Except Status Unit
  | 0, it => ({ it with valid := false }, .error (.NotFound "Reached EOF"))
  | n + 1, it =>
    if it.currentOffset < it.reader.dataEndOffset then
      match it.readEntryAt it.currentOffset with
      | (it, .error s) => (it, .error s)
      | (it, .ok ()) => if target ≤ it.currentKey then (it, .ok ()) else seekLoop target n it
    else ({ it with valid := false }, .error (.NotFound "Reached EOF"))

/-- `Seek`. -/
def seek (it : Iterator) (target : Key) : Iterator × Except Status Unit :=
  if it.reader.sparseIndex.isEmpty then ({ it with valid := false }, .error (.NotFound "Empty index"))
  else
    let block := SplitKV.SSTableReader.searchBlock it.reader.sparseIndex target it.reader.sparseIndex.length 0
      (SSTableReader.toInt it.reader.sparseIndex.length - 1) 0
    seekLoop target it.reader.dataEndOffset
      { it with currentOffset := (it.reader.sparseIndex.getD block ⟨[], 0⟩).dataOffset }

end Iterator

/-- **`Seek` is a lower bound**: whatever the iterator did before, it stands on the first entry that is not below the
target and enumerates the rest, or is invalid; a target of the list is found by `Get`, too. -/
def SeeksLowerBound (l : List (Key × InternalEntry)) (r : SSTableReader) : Prop :=
  ∀ it : Iterator, it.reader = r → ∀ target,
    (l.dropWhile (fun p => p.1 < target) ≠ [] → (it.seek target).2 = .ok ()) ∧
    (l.dropWhile (fun p => p.1 < target) = [] →
      (it.seek target).1.valid = false ∧ ∃ msg, (it.seek target).2 = .error (.NotFound msg)) ∧
    (∀ n, ((it.seek target).1.advance n).head = (l.dropWhile (fun p => p.1 < target))[n]?) ∧
    ∀ e, lookup target l = some e → (it.seek target).1.head = some (target, e) ∧ r.get target = .ok e

/-- **The binary search**, from any right end: the block it finds does not lie above the key. -/
theorem searchBlock_floor (index : List SparseIndexEntry) (key : Key) : ∀ (n : Nat) (left right : Int) (block : Nat),
    0 ≤ left → right < index.length →
    (block = 0 ∨ block < index.length ∧ SplitKV.SSTableReader.blockKey index block ≤ key) →
    SplitKV.SSTableReader.searchBlock index key n left right block = 0 ∨
      SplitKV.SSTableReader.searchBlock index key n left right block < index.length ∧
        SplitKV.SSTableReader.blockKey index (SplitKV.SSTableReader.searchBlock index key n left right block) ≤ key
  | 0, _, _, _, _, _, hb => hb
  | n + 1, left, right, block, h0, hr, hb => by
    rw [SplitKV.SSTableReader.searchBlock]
    split
    · have hmid : left ≤ left + (right - left) / 2 ∧ left + (right - left) / 2 ≤ right := by omega
      simp only
      generalize left + (right - left) / 2 = mid at hmid ⊢
      have hml : mid.toNat < index.length := by omega
      split
      · rename_i he
        exact Or.inr ⟨hml, he.le⟩
      · split
        · rename_i hlt
          exact searchBlock_floor index key n (mid + 1) right mid.toNat (by omega) hr (Or.inr ⟨hml, hlt.le⟩)
        · exact searchBlock_floor index key n left (mid - 1) block h0 (by omega) hb
    · exact hb

theorem toInt_le (n : Nat) : SSTableReader.toInt n ≤ n := by
  unfold SSTableReader.toInt
  split <;> omega

section

variable {l : List (Key × InternalEntry)} {r : SSTableReader}

/-- `ReadEntryAt` of the iterator at the place of an entry. -/
theorem Opened.iterator_readEntryAt (h : Opened l r) {it : Iterator} (hr : it.reader = r)
    {pre rest : List (Key × InternalEntry)} {p : Key × InternalEntry} (hl : l = pre ++ p :: rest) :
    it.readEntryAt (dataSize pre) = ({ it with
      currentKey := p.1, currentEntry := p.2, currentOffset := dataSize (pre ++ [p]), valid := true }, .ok ()) := by
  have hp := entrySize_pos p.1
  have hlt : ¬r.dataEndOffset ≤ dataSize pre := by
    rw [h.dataEnd, hl, dataSize_append, dataSize_cons]
    omega
  rw [Iterator.readEntryAt, hr, if_neg hlt, h.readEntryAt hl]

/-- Where `Seek` leaves the iterator: on the entry behind those below the target, or invalid. -/
inductive Sought (r : SSTableReader) (l : List (Key × InternalEntry)) (target : Key) :
    Iterator × Except Status Unit → Prop
  | found {pre rest : List (Key × InternalEntry)} {p : Key × InternalEntry} {it : Iterator} (hl : l = pre ++ p :: rest)
      (below : ∀ q ∈ pre, q.1 < target) (reached : target ≤ p.1) (stands : StandsOn r l pre.length it)
      (head : it.head = some p) : Sought r l target (it, .ok ())
  | none {it : Iterator} {msg : String} (below : ∀ q ∈ l, q.1 < target) (reader : it.reader = r)
      (invalid : it.valid = false) : Sought r l target (it, .error (.NotFound msg))

/-- **The scan of `Seek`** from behind entries that are below the target. -/
theorem Opened.seekLoop_sought (h : Opened l r) {target : Key} : ∀ (mid pre : List (Key × InternalEntry)) (n : Nat)
    (it : Iterator), l = pre ++ mid → it.reader = r → it.currentOffset = dataSize pre → (∀ q ∈ pre, q.1 < target) →
    mid.length ≤ n → Sought r l target (Iterator.seekLoop target n it)
  | [], pre, n, it, hl, hr, ho, hb, _ => by
    rw [List.append_nil] at hl
    subst hl
    cases n with
    | zero => exact Sought.none hb hr rfl
    | succ n =>
      have hend : ¬it.currentOffset < it.reader.dataEndOffset := by
        rw [hr, h.dataEnd, ho]
        exact Nat.lt_irrefl _
      rw [Iterator.seekLoop, if_neg hend]
      exact Sought.none hb hr rfl
  | p :: mid, pre, 0, it, _, _, _, _, hn => absurd hn (by simp)
  | p :: mid, pre, n + 1, it, hl, hr, ho, hb, hn => by
    have hread := h.iterator_readEntryAt hr hl
    have hp := entrySize_pos p.1
    have hlt : it.currentOffset < it.reader.dataEndOffset := by
      rw [hr, h.dataEnd, ho, hl, dataSize_append, dataSize_cons]
      omega
    rw [Iterator.seekLoop, if_pos hlt, ho, hread]
    simp only
    split
    · rename_i hle
      refine Sought.found hl hb hle ⟨hr, ?_, fun _ => ?_⟩ rfl
      · rw [hl, List.getElem?_append_right (Nat.le_refl _), Nat.sub_self]
        rfl
      · have htake : l.take (pre.length + 1) = pre ++ [p] := by
          rw [hl, List.append_cons]
          exact List.take_left' (by simp)
        rw [htake]
    · rename_i hnle
      refine h.seekLoop_sought mid (pre ++ [p]) n _ (by rw [hl]; simp) hr rfl (fun q hq => ?_) (by simpa using hn)
      rcases List.mem_append.mp hq with hq | hq
      · exact hb q hq
      · rw [List.mem_singleton.mp hq]
        exact not_le.mp hnle

/-- The iterator stands on later entries behind calls of `Next`. -/
theorem Opened.advance_standsOn (h : Opened l r) {it : Iterator} {i : Nat} (hi : StandsOn r l i it) (n : Nat) :
    StandsOn r l (i + n) (it.advance n) := by
  induction n with
  | zero => exact hi
  | succ n ih => exact h.next_standsOn ih

/-- An invalid iterator stays invalid. -/
theorem advance_invalid {it : Iterator} (h : it.valid = false) (n : Nat) : (it.advance n).valid = false := by
  induction n with
  | zero => exact h
  | succ n ih =>
    rw [Iterator.advance, Iterator.next, ih]
    exact ih

/-- **`Seek`** on the file of a list. -/
theorem Opened.seek_sought (h : Opened l r) {it : Iterator} (hr : it.reader = r) (target : Key) :
    Sought r l target (it.seek target) := by
  subst hr
  unfold Iterator.seek
  split
  · rename_i he
    have hl : l = [] := by
      by_contra hne
      exact h.index.ne_nil hne (List.isEmpty_iff.mp he)
    subst hl
    exact Sought.none (fun q hq => by cases hq) rfl rfl
  · rename_i hne
    have hpos : 0 < it.reader.sparseIndex.length := List.length_pos_iff.mpr (fun h0 => hne (by rw [h0]; rfl))
    simp only
    have hint := toInt_le it.reader.sparseIndex.length
    have hfloor := searchBlock_floor it.reader.sparseIndex target it.reader.sparseIndex.length 0
      (SSTableReader.toInt it.reader.sparseIndex.length - 1) 0 (Int.le_refl 0) (by omega) (Or.inl rfl)
    generalize SplitKV.SSTableReader.searchBlock it.reader.sparseIndex target it.reader.sparseIndex.length 0
      (SSTableReader.toInt it.reader.sparseIndex.length - 1) 0 = b at hfloor
    have hb : b < it.reader.sparseIndex.length := by omega
    obtain ⟨pre, p, post, hl, hk, ho⟩ := SplitKV.SSTableReader.block_at h.index hb
    have hbelow : ∀ q ∈ pre, q.1 < target := by
      rcases hfloor with rfl | ⟨-, hle⟩
      · rw [SplitKV.SSTableReader.block_zero h.index hl ho]
        exact fun q hq => absurd hq List.not_mem_nil
      · intro q hq
        have hs := h.sorted
        rw [hl] at hs
        exact ((sorted_append.mp hs).2.2 q hq p List.mem_cons_self).trans_le (hk ▸ hle)
    have hlen : (p :: post).length ≤ it.reader.dataEndOffset := by
      have := length_le_dataSize (p :: post)
      rw [h.dataEnd, hl, dataSize_append]
      omega
    exact h.seekLoop_sought (p :: post) pre _ { it with currentOffset := (it.reader.sparseIndex.getD b ⟨[], 0⟩).dataOffset } hl rfl ho
      hbelow hlen

/-- **`Seek` is a lower bound** as long as `Get` finds its block. -/
theorem Opened.seeksLowerBound (h : Opened l r) (hn : r.sparseIndex.length < 2 ^ 31) : SeeksLowerBound l r := by
  intro it hr target
  have hget := fun e (he : lookup target l = some e) => he ▸ h.get_answers hn target
  have hs := h.seek_sought hr target
  generalize it.seek target = x at hs ⊢
  cases hs with
  | @found pre rest p it hl below reached stands head =>
    have hdrop : l.dropWhile (fun p => p.1 < target) = p :: rest := by
      rw [hl, List.dropWhile_append_of_pos (fun q hq => by simpa using below q hq),
        List.dropWhile_cons_of_neg (by simpa using reached)]
    rw [hdrop]
    refine ⟨fun _ => rfl, fun h0 => absurd h0 (List.cons_ne_nil _ _), fun n => ?_, fun e he => ⟨?_, hget e he⟩⟩
    · rw [(h.advance_standsOn stands n).head, hl, List.getElem?_append_right (Nat.le_add_right _ _),
        Nat.add_sub_cancel_left]
    · -- the entry of the target is the first one that is not below it
      have hm := mem_of_lookup he
      rw [hl, List.mem_append, List.mem_cons] at hm
      have hsorted := h.sorted
      rw [hl, sorted_append, sorted_cons] at hsorted
      rcases hm with hm | hm | hm
      · exact absurd (below _ hm) (lt_irrefl _)
      · rw [head, ← hm]
      · exact absurd reached (not_le.mpr (hsorted.2.1.1 _ hm))
  | @none it msg below reader invalid =>
    have hdrop : l.dropWhile (fun p => p.1 < target) = [] :=
      List.dropWhile_eq_nil_iff.mpr fun q hq => by simpa using below q hq
    rw [hdrop]
    refine ⟨fun h0 => absurd rfl h0, fun _ => ⟨invalid, msg, rfl⟩, fun n => ?_, fun e he => ?_⟩
    · rw [Iterator.head, advance_invalid invalid]
      rfl
    · exact absurd (below _ (mem_of_lookup he)) (lt_irrefl _)

end

/-! ## Keys of 4 GiB -/

/-- A key that was read is shorter than 4 GiB. -/
theorem readEntryAt_key_lt {r : SSTableReader} {offset : Nat} {x : Key × InternalEntry × Nat}
    (h : r.readEntryAt offset = .ok x) : x.1.length < 2 ^ 32 := by
  have hparse : ∀ {buf : Bytes} {varintLen keyLen : Nat} {y : Key × InternalEntry}, keyLen < 2 ^ 32 →
      SSTableReader.parseEntry buf varintLen keyLen = .ok y → y.1.length < 2 ^ 32 := by
    intro buf varintLen keyLen y hk hy
    unfold SSTableReader.parseEntry at hy
    simp only at hy
    split at hy
    · cases hy
    split at hy
    · cases hy
    · cases hy
      exact lt_of_le_of_lt (List.length_take_le _ _) hk
  have hrest : ∀ {buf q : Bytes} {keyLen : Nat}, keyLen < 2 ^ 32 →
      SSTableReader.readRest r.file offset buf q keyLen = .ok x → x.1.length < 2 ^ 32 := by
    intro buf q keyLen hk hx
    unfold SSTableReader.readRest at hx
    simp only at hx
    split at hx
    · cases hx
    · rename_i hp
      cases hx
      exact hparse hk hp
  unfold SSTableReader.readEntryAt at h
  simp only at h
  split at h
  · cases h
  split at h
  · rename_i hv
    exact hrest (decodeVarint32_lt hv) h
  · split at h
    · rename_i hv
      exact hrest (decodeVarint32_lt hv) h
    · cases h

/-- Behind a scan the iterator is invalid or has a key that was read. -/
theorem seekLoop_key_lt {target : Key} : ∀ (n : Nat) (it : Iterator),
    (Iterator.seekLoop target n it).1.valid = true → (Iterator.seekLoop target n it).1.currentKey.length < 2 ^ 32
  | 0, it, hv => by cases hv
  | n + 1, it, hv => by
    rw [Iterator.seekLoop] at hv ⊢
    split at hv
    · rename_i hlt
      rw [if_pos hlt]
      cases hr : it.readEntryAt it.currentOffset with
      | mk it' st =>
        rw [hr] at hv
        unfold Iterator.readEntryAt at hr
        rw [if_neg (by omega)] at hr
        cases hx : it.reader.readEntryAt it.currentOffset with
        | error s =>
          rw [hx] at hr
          cases hr
          cases hv
        | ok x =>
          rw [hx] at hr
          cases hr
          simp only at hv ⊢
          split at hv
          · rename_i hle
            rw [if_pos hle]
            exact readEntryAt_key_lt hx
          · rename_i hle
            rw [if_neg hle]
            exact seekLoop_key_lt n _ hv
    · cases hv

/-- **An entry that `Seek` reaches** has a key shorter than 4 GiB. -/
theorem seek_key_lt {it : Iterator} {target key : Key} {e : InternalEntry} (h : (it.seek target).1.head = some (key, e)) :
    key.length < 2 ^ 32 := by
  unfold Iterator.head at h
  split at h
  · rename_i hv
    cases h
    unfold Iterator.seek at hv ⊢
    split at hv
    · cases hv
    · rename_i hne
      rw [if_neg hne]
      exact seekLoop_key_lt _ _ hv
  · cases h

theorem SeeksLowerBound.key_lt {l : List (Key × InternalEntry)} {r : SSTableReader} (h : SeeksLowerBound l r)
    (hs : Sorted l) : ∀ p ∈ l, p.1.length < 2 ^ 32 := by
  intro p hp
  exact seek_key_lt ((h { reader := r } rfl p.1).2.2.2 p.2 (hs.lookup_eq_some_iff.mpr hp)).1

/-! ## When `Seek` is a lower bound -/

/-- The fields of an entry have their types; its key may have any length. -/
def EntryFits (e : InternalEntry) : Prop := Fits ([], e)

instance : DecidablePred EntryFits := fun e => inferInstanceAs (Decidable (Fits ([], e)))

/-- **`Seek`, `Next` and `Get` on a table that was written**: they agree with the list exactly when its keys are shorter
than 4 GiB and its blocks are counted by an `int`. -/
theorem seek_iff {o : Options} {l : List (Key × InternalEntry)} {file : Bytes} (hs : Sorted l)
    (hf : ∀ p ∈ l, EntryFits p.2) (hw : SSTableWriter.writeFile o l = some (.ok file)) (hsize : file.length < 2 ^ 64) :
    (∃ r, SSTableReader.openFile file = .ok r ∧ SeeksLowerBound l r) ↔
      (∀ p ∈ l, p.1.length < 2 ^ 32) ∧ l.length ≤ (2 ^ 31 - 1) * max 1 o.sparseIndexInterval := by
  -- a table of keys shorter than 4 GiB is opened, with as many blocks as the list has
  have hopen : (∀ p ∈ l, p.1.length < 2 ^ 32) → ∃ r, SSTableReader.openFile file = .ok r ∧ Opened l r ∧
      (r.sparseIndex.length ≤ 2 ^ 31 - 1 ↔ l.length ≤ (2 ^ 31 - 1) * max 1 o.sparseIndexInterval) := by
    intro hk
    have hfits : ∀ p ∈ l, Fits p := fun p hp => { hf p hp with key := hk p hp }
    obtain ⟨hnone, hsome⟩ := writeFile_spec o hs hk
    have hn : ¬NoBits o l := fun hn => by
      rw [hnone hn] at hw
      cases hw
    obtain ⟨wl, file', hwritten, hw'⟩ := hsome hn
    rw [hw] at hw'
    cases hw'
    obtain ⟨r, hr, hopened, hindex⟩ := hwritten.opened hs hfits hsize
    have hblocks := hwritten.blocks.length_le_iff (2 ^ 31 - 1)
    rw [hwritten.wrote.numEntries, ← hindex] at hblocks
    exact ⟨r, hr, hopened, hblocks⟩
  constructor
  · rintro ⟨r, hr, hseek⟩
    have hk := hseek.key_lt hs
    obtain ⟨r', hr', hopened, hblocks⟩ := hopen hk
    rw [hr] at hr'
    cases hr'
    refine ⟨hk, hblocks.mp ?_⟩
    by_contra hgt
    obtain ⟨p, hp, hlost⟩ := hopened.get_lost (by omega)
    exact hlost ((hseek { reader := r } rfl p.1).2.2.2 p.2 (hs.lookup_eq_some_iff.mpr hp)).2
  · rintro ⟨hk, hle⟩
    obtain ⟨r, hr, hopened, hblocks⟩ := hopen hk
    exact ⟨r, hr, hopened.seeksLowerBound (by have := hblocks.mpr hle; omega)⟩

/-- Two entries, of which the index samples each. -/
theorem seek_sample :
    let l : List (Key × InternalEntry) := [([1], ⟨⟨1, 0, 1⟩, 2, .value⟩), ([2], ⟨⟨0, 0, 0⟩, 3, .deletion⟩)]
    ∃ file, (∃ r, SSTableReader.openFile file = .ok r ∧ SeeksLowerBound l r) ↔
      (∀ p ∈ l, p.1.length < 2 ^ 32) ∧ l.length ≤ (2 ^ 31 - 1) * max 1 1 := by
  have hlen : ((SSTableWriter.writeFile { sparseIndexInterval := 1, bloomBitsPerKey := 0 }
      [([1], ⟨⟨1, 0, 1⟩, 2, .value⟩), ([2], ⟨⟨0, 0, 0⟩, 3, .deletion⟩)]).bind Except.toOption).map List.length =
      some 134 := by decide +kernel
  have hs : Sorted [(([1] : Key), (⟨⟨1, 0, 1⟩, 2, .value⟩ : InternalEntry)), ([2], ⟨⟨0, 0, 0⟩, 3, .deletion⟩)] := by
    unfold Sorted
    decide
  obtain ⟨file, hw⟩ : ∃ file, SSTableWriter.writeFile { sparseIndexInterval := 1, bloomBitsPerKey := 0 }
      [([1], ⟨⟨1, 0, 1⟩, 2, .value⟩), ([2], ⟨⟨0, 0, 0⟩, 3, .deletion⟩)] = some (.ok file) := ⟨_, rfl⟩
  refine ⟨file, seek_iff hs (by decide) hw ?_⟩
  rw [hw] at hlen
  have hlen' : some file.length = some 134 := hlen
  have := Option.some.inj hlen'
  omega

/-- **A table of one key of 4 GiB** is written, and `Seek` cannot stand on its entry. -/
theorem seek_misses :
    ∃ file, SSTableWriter.writeFile { bloomBitsPerKey := 0 } [(List.replicate (2 ^ 32) 0, ⟨⟨1, 0, 1⟩, 2, .value⟩)] =
        some (.ok file) ∧
      ¬∃ r, SSTableReader.openFile file = .ok r ∧
        SeeksLowerBound [(List.replicate (2 ^ 32) 0, ⟨⟨1, 0, 1⟩, 2, .value⟩)] r := by
  have hwrite : ∀ key : Key, ∃ file,
      SSTableWriter.writeFile { bloomBitsPerKey := 0 } [(key, ⟨⟨1, 0, 1⟩, 2, .value⟩)] = some (.ok file) := by
    intro key
    have hbits : BloomFilter.numBytes 1 0 ≠ 0 := by decide
    simp [SSTableWriter.writeFile, SSTableWriter.addAll, SSTableWriter.add, SSTableWriter.new, SSTableWriter.finish,
      SSTableWriter.createFilter, hbits, Except.map]
  obtain ⟨file, hw⟩ := hwrite (List.replicate (2 ^ 32) 0)
  refine ⟨file, hw, ?_⟩
  rintro ⟨r, -, h⟩
  have hlt := h.key_lt (List.pairwise_singleton _ _) _ (List.mem_singleton.mpr rfl)
  rw [List.length_replicate] at hlt
  exact lt_irrefl _ hlt

end Format

end SplitKV
