import Mathlib.Algebra.Order.BigOperators.Group.List
import SplitKV.Lib.KMerge
import SplitKV.Lib.Loop
import SplitKV.SSTable.Malformed
import SplitKV.SSTable.Positioned
import SplitKV.SSTable.Reads
import SplitKV.SSTable.Seek

/-!
# The loops over tables (`sstable.cpp`, `db_impl.cpp`)

The scans of `Get` and `Seek` go on by lengths that the file says, up to an offset that the index or the footer says, and
an offset is a `uint64_t`. Where the platform cannot seek, `ReadEntryAt` still hands out an entry, of zeros
(`readEntryAtWith_seek`); the scan goes on by 26 bytes and comes back to the start of the file, but from there on it is in
the file until it ends. So every entry that is handed out lowers a rank of the offset (`readEntryOn_rank`), which ends the
scans; the sum over the iterators ends the merge (`scans_and_merge_end`).
-/

namespace SplitKV

open Loop

namespace Format

/-- What fails in the reads of the entry at an offset: every seek, when the platform cannot seek there. -/
def Platform.faultsAt (pl : Platform) (offset : Nat) : EntryFaults :=
  if pl.maxOffset < offset then ⟨.seek, .seek, .seek⟩ else {}

namespace SSTableReader

/-- `ReadEntryAt`; `offset + total_len` has 64 bits. -/
def readEntryOn (pl : Platform) (r : SSTableReader) (offset : Nat) : Except Status (Key × InternalEntry × Nat) :=
  match (r.readEntryAtWith offset (pl.faultsAt offset)).1 with
  | .error s => .error s
  | .ok (key, entry, nextOffset) => .ok (key, entry, nextOffset % 2 ^ 64)

/-- A turn of the linear scan of `Get`. -/
def scanTurn (pl : Platform) (r : SSTableReader) (key : Key) (endOffset offset : Nat) :
    Turn Nat (Except Status InternalEntry) :=
  if offset < endOffset then
    match r.readEntryOn pl offset with
    | .error s => .done (.error s)
    | .ok (parsedKey, parsedEntry, nextOffset) =>
      if parsedKey = key then .done (.ok parsedEntry)
      else if key < parsedKey then .done (.error (.NotFound "Key not found in block"))
      else .next nextOffset
  else .done (.error (.NotFound "Key not found in block"))

end SSTableReader

namespace Iterator

/-- `ReadEntryAt` of the iterator. -/
def readEntryOn (pl : Platform) (it : Iterator) (offset : Nat) : Iterator × Except Status Unit :=
  if it.reader.dataEndOffset ≤ offset then
    ({ it with valid := false }, .error (.NotFound "Reached end of data blocks"))
  else
    match it.reader.readEntryOn pl offset with
    | .error s => ({ it with valid := false }, .error s)
    | .ok (key, entry, nextOffset) =>
      ({ it with currentKey := key, currentEntry := entry, currentOffset := nextOffset, valid := true }, .ok ())

/-- `Next`. -/
def nextOn (pl : Platform) (it : Iterator) : Iterator × Except Status Unit :=
  if it.valid then it.readEntryOn pl it.currentOffset else (it, .error (.NotFound "Invalid iterator"))

/-- A turn of the linear scan of `Seek`. -/
def seekTurn (pl : Platform) (target : Key) (it : Iterator) : Turn Iterator (Iterator × Except Status Unit) :=
  if it.currentOffset < it.reader.dataEndOffset then
    match it.readEntryOn pl it.currentOffset with
    | (it, .error s) => .done (it, .error s)
    | (it, .ok ()) => if target ≤ it.currentKey then .done (it, .ok ()) else .next it
  else .done ({ it with valid := false }, .error (.NotFound "Reached EOF"))

end Iterator

/-- A round of the merge loop of `CompactLevel`. What it does with the entry it picked (the lookups of a tombstone in the
deeper levels, the writer, the end of an output) is `put`: it moves no iterator, and may fail. -/
def mergeTurn {ω : Type} (pl : Platform) (put : ω → Key → InternalEntry → Except Status ω) (s : List Iterator × ω) :
    Turn (List Iterator × ω) (Except Status ω) :=
  match KMerge.minKey Iterator.head s.1 with
  | none => .done (.ok s.2)
  | some key =>
    match KMerge.winner Iterator.head InternalEntry.sequence key s.1 with
    | none => .done (.ok s.2)
    | some e =>
      match put s.2 key e with
      | .error status => .done (.error status)
      | .ok out => .next (KMerge.advance Iterator.head (fun it => (it.nextOn pl).1) key s.1, out)

/-! ## Where the next entry is -/

/-- A table that could be opened: its file has a footer, and the platform can seek to its end. -/
structure OnPlatform (pl : Platform) (r : SSTableReader) : Prop where
  footer : 48 ≤ r.file.length
  seekable : r.file.length ≤ pl.maxOffset

theorem SSTableReader.file_loadBloomFilter (r : SSTableReader) (offset size : Nat) :
    (r.loadBloomFilter offset size).file = r.file := by
  rw [SSTableReader.loadBloomFilter]
  split <;> rfl

/-- Whatever the file of a table holds, and whatever its footer says. -/
theorem onPlatform_of_openAt {pl : Platform} {file : Bytes} {r : SSTableReader} (hsize : file.length ≤ pl.maxOffset)
    (h : SSTableReader.openAt pl file = .ok r) : OnPlatform pl r := by
  have h48 : 48 ≤ file.length := by
    by_contra hshort
    rw [SSTableReader.openAt, SSTableReader.loadFooterAt, if_pos (Nat.lt_of_not_le hshort)] at h
    cases h
  suffices hfile : r.file = file by
    constructor
    · rw [hfile]
      exact h48
    · rw [hfile]
      exact hsize
  rw [SSTableReader.openAt_eq pl h48 hsize] at h
  generalize footerOf file = f at h
  split at h
  · cases h
  · have hindex := SSTableReader.loadSparseIndexAt_cases pl
      { file := file, numEntries := f.numEntries, dataEndOffset := f.sparseIndexOffset } f.sparseIndexOffset
      f.sparseIndexSize
    split at h
    · cases h
    · rename_i r₁ hr₁
      rw [hr₁] at hindex
      cases hindex with
      | loaded _ _ _ hfile _ =>
        rw [SSTableReader.loadBloomFilterAt_eq] at h
        split at h
        · cases h
          exact hfile
        · split at h
          · cases h
          · split at h
            · cases h
            · split at h
              · cases h
                exact (SSTableReader.file_loadBloomFilter _ _ _).trans hfile
              · cases h

section

variable {pl : Platform} {r : SSTableReader} {offset : Nat} {key : Key} {entry : InternalEntry} {next : Nat}

/-- Where the platform cannot seek, the entry of sixty-four zeros is handed out. -/
theorem readEntryAtWith_seek (r : SSTableReader) (offset : Nat) :
    (r.readEntryAtWith offset ⟨.seek, .seek, .seek⟩).1 = .ok ([], ⟨⟨0, 0, 0⟩, 0, .other 0⟩, offset + 26) := by
  rfl

theorem SSTableReader.readEntryOn_seek (h : pl.maxOffset < offset) :
    r.readEntryOn pl offset = .ok ([], ⟨⟨0, 0, 0⟩, 0, .other 0⟩, (offset + 26) % 2 ^ 64) := by
  rw [SSTableReader.readEntryOn, Platform.faultsAt, if_pos h, readEntryAtWith_seek]

/-- An entry that is read ends in the file. -/
theorem SSTableReader.readEntryAt_next {x : Key × InternalEntry × Nat} (hx : r.readEntryAt offset = .ok x) :
    offset < x.2.2 ∧ x.2.2 ≤ r.file.length := by
  rw [← SSTableReader.readEntryAtWith_none] at hx
  exact storedEntry_next (SSTableReader.readEntryAtWith_stored rfl hx).1

/-- Where the platform can seek, it is read. -/
theorem SSTableReader.readEntryOn_eq (h : OnPlatform pl r) (hoffset : offset ≤ pl.maxOffset) :
    r.readEntryOn pl offset = r.readEntryAt offset := by
  rw [SSTableReader.readEntryOn, Platform.faultsAt, if_neg (Nat.not_lt.mpr hoffset), SSTableReader.readEntryAtWith_none]
  cases hx : r.readEntryAt offset with
  | error s => rfl
  | ok x =>
    have hnext := (SSTableReader.readEntryAt_next hx).2
    have hseek := h.seekable
    have hlt := pl.maxOffset_lt
    simp only [Nat.mod_eq_of_lt (show x.2.2 < 2 ^ 64 by omega)]

/-- How far an offset is from the end: the offsets of the file lie behind those without a seek, which come round to
them. -/
def Platform.rank (pl : Platform) (offset : Nat) : Nat :=
  if offset ≤ pl.maxOffset then pl.maxOffset - offset
  else if offset < 2 ^ 64 then pl.maxOffset + 1 + (2 ^ 64 - offset)
  else pl.maxOffset + 2 + 2 ^ 64

theorem Platform.rank_lt (pl : Platform) (offset : Nat) : pl.rank offset < 2 ^ 65 := by
  have := pl.maxOffset_lt
  rw [Platform.rank]
  split
  · omega
  · split <;> omega

/-- **An entry that is handed out** lowers the rank. -/
theorem SSTableReader.readEntryOn_rank (h : OnPlatform pl r) (hx : r.readEntryOn pl offset = .ok (key, entry, next)) :
    pl.rank next < pl.rank offset := by
  have hlt := pl.maxOffset_lt
  have hfile := h.footer
  have hseek := h.seekable
  by_cases hoffset : offset ≤ pl.maxOffset
  · rw [SSTableReader.readEntryOn_eq h hoffset] at hx
    obtain ⟨hnext, hend⟩ := SSTableReader.readEntryAt_next hx
    simp only at hnext hend
    rw [Platform.rank, Platform.rank, if_pos (by omega), if_pos hoffset]
    omega
  · rw [SSTableReader.readEntryOn_seek (by omega)] at hx
    cases hx
    by_cases hround : (offset + 26) % 2 ^ 64 ≤ pl.maxOffset
    · -- it came round to the start of the file
      rw [Platform.rank, Platform.rank, if_pos hround, if_neg hoffset]
      split <;> omega
    · -- it is still behind the file, and nearer to the end of the 64 bits
      rw [Platform.rank, Platform.rank, if_neg hround, if_neg hoffset, if_pos (Nat.mod_lt _ (by decide))]
      split <;> omega

/-! ## The scans -/

theorem SSTableReader.scanTurn_ranked (h : OnPlatform pl r) (key : Key) (endOffset : Nat) :
    Ranked (r.scanTurn pl key endOffset) (fun _ => True) pl.rank := by
  intro offset next _ hturn
  rw [SSTableReader.scanTurn] at hturn
  split at hturn
  · cases hx : r.readEntryOn pl offset with
    | error s =>
      rw [hx] at hturn
      cases hturn
    | ok x =>
      obtain ⟨parsedKey, parsedEntry, nextOffset⟩ := x
      rw [hx] at hturn
      simp only at hturn
      split at hturn
      · cases hturn
      split at hturn
      · cases hturn
      · cases hturn
        exact ⟨trivial, SSTableReader.readEntryOn_rank h hx⟩
  · cases hturn

/-- Up to an offset that the platform can seek to, the turns are the scan of `Get`. -/
theorem SSTableReader.run_scanTurn (h : OnPlatform pl r) {endOffset : Nat} (hend : endOffset ≤ pl.maxOffset)
    (key : Key) : ∀ n offset, endOffset - offset ≤ n →
      run (r.scanTurn pl key endOffset) (n + 1) offset = some (r.scan key endOffset n offset)
  | 0, offset, hn => by
    refine run_done ?_ 0
    rw [SSTableReader.scanTurn, if_neg (by omega)]
    rfl
  | n + 1, offset, hn => by
    rw [run, SSTableReader.scanTurn, SSTableReader.scan]
    by_cases hlt : offset < endOffset
    · rw [if_pos hlt, if_pos hlt, SSTableReader.readEntryOn_eq h (by omega)]
      cases hx : r.readEntryAt offset with
      | error s => rfl
      | ok x =>
        obtain ⟨parsedKey, parsedEntry, nextOffset⟩ := x
        have hnext := (SSTableReader.readEntryAt_next hx).1
        simp only at hnext ⊢
        by_cases hk : parsedKey = key
        · rw [if_pos hk, if_pos hk]
        rw [if_neg hk, if_neg hk]
        by_cases hpast : key < parsedKey
        · rw [if_pos hpast, if_pos hpast]
        rw [if_neg hpast, if_neg hpast]
        exact SSTableReader.run_scanTurn h hend key n nextOffset (by omega)
    · rw [if_neg hlt, if_neg hlt]

/-- What is left of an iterator: nothing when it is invalid, else the rank of its offset. -/
def Iterator.rank (pl : Platform) (it : Iterator) : Nat := if it.valid then pl.rank it.currentOffset + 1 else 0

theorem Iterator.rank_le (pl : Platform) (it : Iterator) : it.rank pl ≤ 2 ^ 65 := by
  have := pl.rank_lt it.currentOffset
  rw [Iterator.rank]
  split <;> omega

theorem Iterator.reader_readEntryOn (it : Iterator) (offset : Nat) : (it.readEntryOn pl offset).1.reader = it.reader := by
  rw [Iterator.readEntryOn]
  split
  · rfl
  · split <;> rfl

/-- A read of the iterator makes it invalid, or lowers the rank of its offset. -/
theorem Iterator.readEntryOn_rank {it : Iterator} (h : OnPlatform pl it.reader) :
    (it.readEntryOn pl it.currentOffset).1.rank pl ≤ pl.rank it.currentOffset := by
  rw [Iterator.readEntryOn]
  split
  · exact Nat.zero_le _
  · cases hx : it.reader.readEntryOn pl it.currentOffset with
    | error s => exact Nat.zero_le _
    | ok x =>
      obtain ⟨key, entry, nextOffset⟩ := x
      exact SSTableReader.readEntryOn_rank h hx

theorem Iterator.valid_of_ok {it it' : Iterator} {offset : Nat} {u : Unit}
    (h : it.readEntryOn pl offset = (it', .ok u)) : it'.valid = true := by
  rw [Iterator.readEntryOn] at h
  split at h
  · cases h
  · split at h
    · cases h
    · cases h
      rfl

theorem Iterator.seekTurn_ranked (pl : Platform) (target : Key) :
    Ranked (Iterator.seekTurn pl target) (fun it => OnPlatform pl it.reader) (fun it => pl.rank it.currentOffset) := by
  intro it it' h hturn
  have hreader := @Iterator.reader_readEntryOn pl it it.currentOffset
  have hrank := Iterator.readEntryOn_rank h
  rw [Iterator.seekTurn] at hturn
  split at hturn
  · cases hx : it.readEntryOn pl it.currentOffset with
    | mk it₁ status =>
      rw [hx] at hturn hreader hrank
      cases status with
      | error s => cases hturn
      | ok u =>
        simp only at hturn hreader hrank
        split at hturn
        · cases hturn
        · cases hturn
          rw [Iterator.rank, if_pos (Iterator.valid_of_ok hx)] at hrank
          refine ⟨?_, hrank⟩
          show OnPlatform pl it'.reader
          rw [hreader]
          exact h
  · cases hturn

/-- Where the platform can seek, the iterator reads as it does from the bytes of the file. -/
theorem Iterator.readEntryOn_eq {it : Iterator} (h : OnPlatform pl it.reader)
    (hend : it.reader.dataEndOffset ≤ pl.maxOffset) (offset : Nat) : it.readEntryOn pl offset = it.readEntryAt offset := by
  rw [Iterator.readEntryOn, Iterator.readEntryAt]
  by_cases hlt : it.reader.dataEndOffset ≤ offset
  · rw [if_pos hlt, if_pos hlt]
  · have hread := @SSTableReader.readEntryOn_eq pl it.reader offset h (by omega)
    cases hx : it.reader.readEntryAt offset with
    | error s => simp only [hread, hx, hlt, if_false]
    | ok x => simp only [hread, hx, hlt, if_false]

/-- The turns are then the scan of `Seek`. -/
theorem Iterator.run_seekTurn (target : Key) : ∀ (n : Nat) (it : Iterator), OnPlatform pl it.reader →
    it.reader.dataEndOffset ≤ pl.maxOffset → it.reader.dataEndOffset - it.currentOffset ≤ n →
      run (Iterator.seekTurn pl target) (n + 1) it = some (Iterator.seekLoop target n it)
  | 0, it, _, _, hn => by
    refine run_done ?_ 0
    rw [Iterator.seekTurn, if_neg (by omega)]
    rfl
  | n + 1, it, h, hend, hn => by
    rw [run, Iterator.seekTurn, Iterator.seekLoop]
    by_cases hlt : it.currentOffset < it.reader.dataEndOffset
    · have hreader := @Iterator.reader_readEntryOn pl it it.currentOffset
      rw [Iterator.readEntryOn_eq h hend] at hreader
      rw [if_pos hlt, if_pos hlt, Iterator.readEntryOn_eq h hend]
      cases hx : it.readEntryAt it.currentOffset with
      | mk it₁ status =>
        rw [hx] at hreader
        cases status with
        | error s => rfl
        | ok u =>
          simp only at hreader ⊢
          by_cases hk : target ≤ it₁.currentKey
          · rw [if_pos hk, if_pos hk]
          rw [if_neg hk, if_neg hk]
          have hnext : it.currentOffset < it₁.currentOffset := by
            rw [Iterator.readEntryAt, if_neg (by omega)] at hx
            cases hy : it.reader.readEntryAt it.currentOffset with
            | error s =>
              rw [hy] at hx
              cases hx
            | ok y =>
              rw [hy] at hx
              cases hx
              exact (SSTableReader.readEntryAt_next hy).1
          refine Iterator.run_seekTurn target n it₁ ?_ ?_ ?_
          · rw [hreader]
            exact h
          · rw [hreader]
            exact hend
          · rw [hreader]
            omega
    · rw [if_neg hlt, if_neg hlt]

/-! ## The merge -/

theorem Iterator.nextOn_rank {it : Iterator} (h : OnPlatform pl it.reader) (hv : it.head ≠ none) :
    (it.nextOn pl).1.rank pl < it.rank pl := by
  have hvalid : it.valid = true := by
    by_contra hinvalid
    exact hv (by rw [Iterator.head, if_neg hinvalid])
  have hold : it.rank pl = pl.rank it.currentOffset + 1 := by rw [Iterator.rank, if_pos hvalid]
  rw [Iterator.nextOn, if_pos hvalid, hold]
  exact Nat.lt_succ_of_le (Iterator.readEntryOn_rank h)

theorem Iterator.reader_nextOn (it : Iterator) : (it.nextOn pl).1.reader = it.reader := by
  rw [Iterator.nextOn]
  split
  · exact Iterator.reader_readEntryOn it it.currentOffset
  · rfl

theorem mergeTurn_ranked {ω : Type} (pl : Platform) (put : ω → Key → InternalEntry → Except Status ω) :
    Ranked (mergeTurn pl put) (fun s => ∀ it ∈ s.1, OnPlatform pl it.reader)
      (fun s => (s.1.map (Iterator.rank pl)).sum) := by
  rintro ⟨its, out⟩ s' h hturn
  simp only [mergeTurn] at hturn
  cases hm : KMerge.minKey Iterator.head its with
  | none =>
    rw [hm] at hturn
    cases hturn
  | some key =>
    rw [hm] at hturn
    simp only at hturn
    cases hw : KMerge.winner Iterator.head InternalEntry.sequence key its with
    | none =>
      rw [hw] at hturn
      cases hturn
    | some e =>
      rw [hw] at hturn
      simp only at hturn
      cases hp : put out key e with
      | error status =>
        rw [hp] at hturn
        cases hturn
      | ok out' =>
        rw [hp] at hturn
        cases hturn
        refine ⟨?_, ?_⟩
        · refine KMerge.forall_advance (fun it hit => ?_) h key
          rwa [Iterator.reader_nextOn]
        · exact KMerge.sum_advance_lt (fun it hit hv => Iterator.nextOn_rank (h it hit) hv) (KMerge.minKey_spec hm).1

/-- **The merge loop ends.** -/
theorem mergeTurn_ends {ω : Type} {its : List Iterator} (h : ∀ it ∈ its, OnPlatform pl it.reader)
    (put : ω → Key → InternalEntry → Except Status ω) (out : ω) :
    EndsWithin (mergeTurn pl put) (its.length * 2 ^ 65 + 1) (its, out) := by
  refine (mergeTurn_ranked pl put).endsWithin h (Nat.lt_succ_of_le ?_)
  have hsum := List.sum_le_card_nsmul (its.map (Iterator.rank pl)) (2 ^ 65) fun n hn => by
    obtain ⟨it, -, rfl⟩ := List.mem_map.mp hn
    exact it.rank_le pl
  rwa [List.length_map, Nat.nsmul_eq_mul] at hsum

/-! ## The merge that reads the tables -/

theorem Iterator.reader_readEntryAt (it : Iterator) (offset : Nat) : (it.readEntryAt offset).1.reader = it.reader := by
  rw [Iterator.readEntryAt]
  split
  · rfl
  · split <;> rfl

theorem Iterator.reader_next (it : Iterator) : it.next.1.reader = it.reader := by
  rw [Iterator.next]
  split
  · exact Iterator.reader_readEntryAt it it.currentOffset
  · rfl

theorem Iterator.nextOn_eq {it : Iterator} (h : OnPlatform pl it.reader)
    (hend : it.reader.dataEndOffset ≤ pl.maxOffset) : it.nextOn pl = it.next := by
  rw [Iterator.nextOn, Iterator.next, Iterator.readEntryOn_eq h hend]

/-- The tables could be opened, and their data lies where the platform can seek. -/
def AllSeekable (pl : Platform) (tables : Nat → SSTableReader) : Prop :=
  ∀ t, OnPlatform pl (tables t) ∧ (tables t).dataEndOffset ≤ pl.maxOffset

variable {tables : Nat → SSTableReader} {deeper : Key → List Nat}

/-- The iterators of cursors move as the cursors do. -/
theorem advance_cursors (hs : AllSeekable pl tables) {cs : List Cursor} (hcs : ∀ c ∈ cs, c.2.reader = tables c.1)
    (key : Key) : KMerge.advance Iterator.head (fun it => (it.nextOn pl).1) key (cs.map Prod.snd) =
      (KMerge.advance Cursor.head Cursor.next key cs).map Prod.snd := by
  rw [KMerge.advance, KMerge.advance, List.map_map, List.map_map]
  refine List.map_congr_left fun c hc => ?_
  obtain ⟨hfile, hend⟩ := hs c.1
  rw [← hcs c hc] at hfile hend
  simp only [Function.comp, KMerge.moveOn, Cursor.head]
  cases c.2.head with
  | none => rfl
  | some p =>
    simp only
    split
    · rw [Iterator.nextOn_eq hfile hend]
      rfl
    · rfl

/-- What the merge does with an entry: it is written unless it is dropped. -/
def write (tables : Nat → SSTableReader) (deeper : Key → List Nat) (out : List (Key × InternalEntry)) (key : Key)
    (e : InternalEntry) : Except Status (List (Key × InternalEntry)) :=
  .ok (if drops tables deeper key e then out else out ++ [(key, e)])

/-- The turns of a merge that ends are the merge that reads the tables. -/
theorem run_mergeTurn (hs : AllSeekable pl tables) : ∀ (n : Nat) (cs : List Cursor) (out : List (Key × InternalEntry))
    {result : Except Status (List (Key × InternalEntry))}, (∀ c ∈ cs, c.2.reader = tables c.1) →
      run (mergeTurn pl (write tables deeper)) n (cs.map Prod.snd, out) = some result →
        result = .ok ((mergeProgram tables deeper n cs out).run (filesOf tables))
  | 0, _, _, _, _, hrun => by cases hrun
  | n + 1, cs, out, result, hcs, hrun => by
    have hmin : KMerge.minKey Iterator.head (cs.map Prod.snd) = KMerge.minKey Cursor.head cs := by
      rw [KMerge.minKey, KMerge.minKey, List.foldl_map]
      rfl
    have hwin : ∀ key, KMerge.winner Iterator.head InternalEntry.sequence key (cs.map Prod.snd) =
        KMerge.winner Cursor.head InternalEntry.sequence key cs := fun key => by
      rw [KMerge.winner, KMerge.winner, List.map_map]
      rfl
    rw [run, mergeTurn, hmin] at hrun
    rw [mergeProgram]
    cases hm : KMerge.minKey Cursor.head cs with
    | none =>
      rw [hm] at hrun
      cases hrun
      rfl
    | some key =>
      rw [hm] at hrun
      simp only [hwin] at hrun ⊢
      cases hw : KMerge.winner Cursor.head InternalEntry.sequence key cs with
      | none =>
        rw [hw] at hrun
        cases hrun
        rfl
      | some e =>
        rw [hw] at hrun
        simp only [write, advance_cursors hs hcs key] at hrun
        simp only
        rw [SharedReads.Program.run_bind, run_dropProgram, SharedReads.Program.run_bind, run_advanceProgram key cs hcs]
        refine run_mergeTurn hs n _ _ (KMerge.forall_advance (fun c hc => ?_) hcs key) hrun
        exact (Iterator.reader_next c.2).trans hc

/-- **The merge that reads the tables** is the whole loop once it has the rounds. -/
theorem merge_run (hs : AllSeekable pl tables) {cs : List Cursor} (hcs : ∀ c ∈ cs, c.2.reader = tables c.1)
    (out : List (Key × InternalEntry)) : ∃ result, ∀ n, cs.length * 2 ^ 65 < n →
      run (mergeTurn pl (write tables deeper)) n (cs.map Prod.snd, out) = some (.ok result) ∧
        (mergeProgram tables deeper n cs out).run (filesOf tables) = result := by
  have hits : ∀ it ∈ cs.map Prod.snd, OnPlatform pl it.reader := by
    intro it hit
    obtain ⟨c, hc, rfl⟩ := List.mem_map.mp hit
    rw [hcs c hc]
    exact (hs c.1).1
  have hends := mergeTurn_ends hits (write tables deeper) out
  rw [List.length_map] at hends
  obtain ⟨result, hrun⟩ := Option.isSome_iff_exists.mp hends
  refine ⟨(mergeProgram tables deeper (cs.length * 2 ^ 65 + 1) cs out).run (filesOf tables), fun n hn => ?_⟩
  have hrounds := run_mergeTurn hs _ cs out hcs hrun
  have hmore := run_mono hrun hn
  have hsame := run_mergeTurn hs n cs out hcs hmore
  rw [hmore, hrounds]
  exact ⟨rfl, Except.ok.inj (hsame.symm.trans hrounds)⟩

end

/-! ## The loops end -/

/-- **The loops over tables end.** Whatever is in the files, and whatever offsets their indexes and footers say, the scan
of `Get` ends from every offset and up to every offset, and so does the scan of `Seek`; the merge loop ends over any number
of iterators, wherever they stand. -/
theorem scans_and_merge_end {pl : Platform} {its : List Iterator} (h : ∀ it ∈ its, OnPlatform pl it.reader) :
    (∀ it ∈ its,
      (∀ key endOffset offset, EndsWithin (it.reader.scanTurn pl key endOffset) (2 ^ 65) offset) ∧
      ∀ target, EndsWithin (Iterator.seekTurn pl target) (2 ^ 65) it) ∧
    ∀ {ω : Type} (put : ω → Key → InternalEntry → Except Status ω) (out : ω),
      EndsWithin (mergeTurn pl put) (its.length * 2 ^ 65 + 1) (its, out) := by
  refine ⟨fun it hit => ⟨fun key endOffset offset => ?_, fun target => ?_⟩, fun put out => mergeTurn_ends h put out⟩
  · exact (SSTableReader.scanTurn_ranked (h it hit) key endOffset).endsWithin trivial (pl.rank_lt offset)
  · exact (Iterator.seekTurn_ranked pl target).endsWithin (h it hit) (pl.rank_lt it.currentOffset)

/-- The file of a footer, whose index and whose data end at the last offset of 64 bits; an iterator without a seek. -/
theorem scans_and_merge_end_sample :
    let r : SSTableReader :=
      { file := encodeFooter 0 0 0 0 0, sparseIndex := [⟨[1], 2 ^ 64 - 1⟩], dataEndOffset := 2 ^ 64 - 1 }
    let its : List Iterator := [{ reader := r }, { reader := r, currentOffset := 2 ^ 64 - 27, valid := true }]
    (∀ it ∈ its,
      (∀ key endOffset offset, EndsWithin (it.reader.scanTurn .lp64 key endOffset) (2 ^ 65) offset) ∧
      ∀ target, EndsWithin (Iterator.seekTurn .lp64 target) (2 ^ 65) it) ∧
    ∀ {ω : Type} (put : ω → Key → InternalEntry → Except Status ω) (out : ω),
      EndsWithin (mergeTurn .lp64 put) (its.length * 2 ^ 65 + 1) (its, out) :=
  scans_and_merge_end fun it hit => by
    have hfile : it.reader.file = encodeFooter 0 0 0 0 0 := by
      rcases List.mem_cons.mp hit with rfl | hit
      · rfl
      · rw [List.mem_singleton.mp hit]
    constructor
    · rw [hfile]
      decide
    · rw [hfile]
      exact show (encodeFooter 0 0 0 0 0).length ≤ 2 ^ 63 - 1 by decide

end Format

end SplitKV
