import SplitKV.Index.Compaction
import SplitKV.Lib.SharedReads
import SplitKV.SSTable.Reads
import SplitKV.SSTable.RoundTrip

/-!
# Lookups beside a compaction

The lookups and the compaction read the same table files through one position each, and only the lookups hold a lock.
While no step moves the position between the two steps of a read of the other side, every read gets the bytes of its
place, the lookups answer as they do alone, and the merge writes the newest entries of its inputs (`reads_isolated`).
-/

namespace SplitKV

open Assoc SharedReads SharedReads.Program

namespace Format

/-- A program that reads table files, which are numbered. -/
abbrev Reads (α : Type) := Program Nat Byte α

namespace SSTableReader

/-- `readRest`. -/
def readRestProgram (table offset : Nat) (buf q : Bytes) (keyLen : Nat) :
    Reads (Except Status (Key × InternalEntry × Nat)) :=
  let varintLen := buf.length - q.length
  let totalLen := varintLen + keyLen + 1 + 8 + 16
  if buf.length < totalLen then .read table offset totalLen fun buf => .done (entryIn buf offset varintLen keyLen)
  else .done (entryIn buf offset varintLen keyLen)

/-- `ReadEntryAt`. -/
def readEntryProgram (table offset : Nat) : Reads (Except Status (Key × InternalEntry × Nat)) :=
  .read table offset 64 fun buf =>
    if buf = [] then .done (.error (.NotFound "EOF reached"))
    else
      match decodeVarint32 buf with
      | some (keyLen, q) => readRestProgram table offset buf q keyLen
      | none => .read table offset 128 fun buf =>
        match decodeVarint32 buf with
        | some (keyLen, q) => readRestProgram table offset buf q keyLen
        | none => .done (.error (.Corruption "Truncated key length varint"))

/-- The linear scan of `Get`. -/
def scanProgram (table : Nat) (key : Key) (endOffset : Nat) : Nat → Nat → Reads (Except Status InternalEntry)
  | 0, _ => .done (.error (.NotFound "Key not found in block"))
  | n + 1, offset =>
    if offset < endOffset then
      (readEntryProgram table offset).bind fun
        | .error s => .done (.error s)
        | .ok (parsedKey, parsedEntry, nextOffset) =>
          if parsedKey = key then .done (.ok parsedEntry)
          else if key < parsedKey then .done (.error (.NotFound "Key not found in block"))
          else scanProgram table key endOffset n nextOffset
    else .done (.error (.NotFound "Key not found in block"))

/-- `Get` of a table. -/
def getProgram (r : SSTableReader) (table : Nat) (key : Key) : Reads (Except Status InternalEntry) :=
  if !r.bloom.data.isEmpty && !r.bloom.mayContain key then .done (.error (.NotFound "Not in bloom filter"))
  else if r.sparseIndex.isEmpty then .done (.error (.NotFound "Empty sparse index"))
  else
    let block := SplitKV.SSTableReader.searchBlock r.sparseIndex key r.sparseIndex.length 0
      (toInt r.sparseIndex.length - 1) 0
    let endOffset := if block + 1 < r.sparseIndex.length then (r.sparseIndex.getD (block + 1) ⟨[], 0⟩).dataOffset
      else r.dataEndOffset
    scanProgram table key endOffset endOffset (r.sparseIndex.getD block ⟨[], 0⟩).dataOffset

end SSTableReader

namespace Iterator

/-- `ReadEntryAt` of the iterator. -/
def readProgram (table : Nat) (it : Iterator) (offset : Nat) : Reads (Iterator × Except Status Unit) :=
  if it.reader.dataEndOffset ≤ offset then
    .done ({ it with valid := false }, .error (.NotFound "Reached end of data blocks"))
  else
    (SSTableReader.readEntryProgram table offset).bind fun
      | .error s => .done ({ it with valid := false }, .error s)
      | .ok (key, entry, nextOffset) =>
        .done ({ it with currentKey := key, currentEntry := entry, currentOffset := nextOffset, valid := true }, .ok ())

/-- `SeekToFirst`. -/
def seekToFirstProgram (table : Nat) (it : Iterator) : Reads (Iterator × Except Status Unit) :=
  { it with currentOffset := 0 }.readProgram table 0

/-- `Next`. -/
def nextProgram (table : Nat) (it : Iterator) : Reads (Iterator × Except Status Unit) :=
  if it.valid then it.readProgram table it.currentOffset else .done (it, .error (.NotFound "Invalid iterator"))

end Iterator

/-! ## The two threads -/

/-- A search of `DBImpl::Get` through tables, in its order: the first one that has the key answers. -/
def searchProgram (tables : Nat → SSTableReader) (key : Key) : List Nat → Reads (Option InternalEntry)
  | [] => .done none
  | t :: ts =>
    ((tables t).getProgram t key).bind fun
      | .ok e => .done (some e)
      | .error _ => searchProgram tables key ts

/-- The searches that are made, one after the other. -/
def searchesProgram (tables : Nat → SSTableReader) : List (Key × List Nat) → Reads (List (Option InternalEntry))
  | [] => .done []
  | (key, ts) :: rest =>
    (searchProgram tables key ts).bind fun found => (searchesProgram tables rest).bind fun l => .done (found :: l)

/-- An iterator over a table. -/
abbrev Cursor := Nat × Iterator

/-- The entry the iterator stands on. -/
def Cursor.head (c : Cursor) : Option (Key × InternalEntry) := c.2.head

/-- The iterators of `CompactLevel`; an input that is empty at its start is left out. -/
def openProgram (tables : Nat → SSTableReader) : List Nat → Reads (Except Status (List Cursor))
  | [] => .done (.ok [])
  | t :: ts =>
    (Iterator.seekToFirstProgram t { reader := tables t }).bind fun
      | (it, .ok ()) => (openProgram tables ts).bind fun
        | .ok cs => .done (.ok ((t, it) :: cs))
        | .error s => .done (.error s)
      | (_, .error s) => if s.isNotFound then openProgram tables ts else .done (.error s)

/-- Every iterator that stands on the key moves on. -/
def advanceProgram (key : Key) : List Cursor → Reads (List Cursor)
  | [] => .done []
  | c :: cs =>
    (match c.head with
      | some p => if p.1 = key then (c.2.nextProgram c.1).bind fun r => .done (c.1, r.1) else .done c
      | none => .done c : Reads Cursor).bind fun c => (advanceProgram key cs).bind fun cs => .done (c :: cs)

/-- `drop`: a tombstone for which no deeper table, of those that cover the key, has an entry. -/
def dropProgram (tables : Nat → SSTableReader) (deeper : Key → List Nat) (key : Key) (e : InternalEntry) : Reads Bool :=
  if e.type = .deletion then (searchProgram tables key (deeper key)).bind fun found => .done found.isNone else .done false

/-- The merge loop: the entries it writes. -/
def mergeProgram (tables : Nat → SSTableReader) (deeper : Key → List Nat) :
    Nat → List Cursor → List (Key × InternalEntry) → Reads (List (Key × InternalEntry))
  | 0, _, out => .done out
  | n + 1, cs, out =>
    match KMerge.minKey Cursor.head cs with
    | none => .done out
    | some key =>
      match KMerge.winner Cursor.head InternalEntry.sequence key cs with
      | none => .done out
      | some e =>
        (dropProgram tables deeper key e).bind fun drop => (advanceProgram key cs).bind fun cs =>
          mergeProgram tables deeper n cs (if drop then out else out ++ [(key, e)])

/-- The merge of `CompactLevel`: the iterators, and the loop. -/
def compactProgram (tables : Nat → SSTableReader) (deeper : Key → List Nat) (rounds : Nat) (inputs : List Nat) :
    Reads (Except Status (List (Key × InternalEntry))) :=
  (openProgram tables inputs).bind fun
    | .error s => .done (.error s)
    | .ok cs => (mergeProgram tables deeper rounds cs []).bind fun out => .done (.ok out)

/-! ## The programs alone -/

section

variable {files : Nat → Bytes} {r : SSTableReader} {table : Nat}

theorem bytesAt_eq (hf : files table = r.file) (offset n : Nat) : bytesAt files table offset n = slice r.file offset n := by
  rw [bytesAt, hf]
  rfl

theorem run_readRestProgram (hf : files table = r.file) (offset : Nat) (buf q : Bytes) (keyLen : Nat) :
    (SSTableReader.readRestProgram table offset buf q keyLen).run files =
      SSTableReader.readRest r.file offset buf q keyLen := by
  unfold SSTableReader.readRestProgram SSTableReader.readRest SSTableReader.entryIn
  simp only
  split
  · rw [run_read, bytesAt_eq hf]
    rfl
  · rfl

theorem run_readEntryProgram (hf : files table = r.file) (offset : Nat) :
    (SSTableReader.readEntryProgram table offset).run files = r.readEntryAt offset := by
  unfold SSTableReader.readEntryProgram SSTableReader.readEntryAt
  rw [run_read, bytesAt_eq hf]
  simp only
  by_cases hne : slice r.file offset 64 = []
  · rw [if_pos hne, if_pos hne]
    rfl
  · rw [if_neg hne, if_neg hne]
    cases decodeVarint32 (slice r.file offset 64) with
    | some a => exact run_readRestProgram hf offset _ a.2 a.1
    | none =>
      simp only
      rw [run_read, bytesAt_eq hf]
      cases decodeVarint32 (slice r.file offset 128) with
      | some a => exact run_readRestProgram hf offset _ a.2 a.1
      | none => rfl

theorem run_scanProgram (hf : files table = r.file) (key : Key) (endOffset : Nat) : ∀ n offset,
    (SSTableReader.scanProgram table key endOffset n offset).run files = r.scan key endOffset n offset
  | 0, _ => rfl
  | n + 1, offset => by
    rw [SSTableReader.scanProgram, SSTableReader.scan]
    split
    · rw [run_bind, run_readEntryProgram hf]
      cases r.readEntryAt offset with
      | error s => rfl
      | ok x =>
        simp only
        split
        · rfl
        · split
          · rfl
          · exact run_scanProgram hf key endOffset n _
    · rfl

theorem run_getProgram (hf : files table = r.file) (key : Key) : (r.getProgram table key).run files = r.get key := by
  unfold SSTableReader.getProgram SSTableReader.get
  split
  · rfl
  · split
    · rfl
    · exact run_scanProgram hf key _ _ _

theorem run_readProgram {it : Iterator} (hf : files table = it.reader.file) (offset : Nat) :
    (it.readProgram table offset).run files = it.readEntryAt offset := by
  unfold Iterator.readProgram Iterator.readEntryAt
  split
  · rfl
  · rw [run_bind, run_readEntryProgram hf]
    cases it.reader.readEntryAt offset with
    | error s => rfl
    | ok x => rfl

theorem run_seekToFirstProgram {it : Iterator} (hf : files table = it.reader.file) :
    (it.seekToFirstProgram table).run files = it.seekToFirst :=
  @run_readProgram files table { it with currentOffset := 0 } hf 0

theorem run_nextProgram {it : Iterator} (hf : files table = it.reader.file) :
    (it.nextProgram table).run files = it.next := by
  unfold Iterator.nextProgram Iterator.next
  split
  · exact run_readProgram hf _
  · rfl

end

/-! ## The searches -/

/-- The files of some tables. -/
def filesOf (tables : Nat → SSTableReader) : Nat → Bytes := fun t => (tables t).file

section

variable {tables : Nat → SSTableReader}

/-- A search answers with the first table that has the key. -/
theorem run_searchProgram (key : Key) : ∀ ts : List Nat, (searchProgram tables key ts).run (filesOf tables) =
    ts.findSome? fun t => ((tables t).get key).toOption
  | [] => rfl
  | t :: ts => by
    rw [searchProgram, run_bind, run_getProgram (r := tables t) rfl, List.findSome?_cons]
    cases (tables t).get key with
    | ok e => rfl
    | error s => exact run_searchProgram key ts

theorem run_searchesProgram : ∀ searches : List (Key × List Nat),
    (searchesProgram tables searches).run (filesOf tables) =
      searches.map fun s => s.2.findSome? fun t => ((tables t).get s.1).toOption
  | [] => rfl
  | (key, ts) :: rest => by
    rw [searchesProgram, run_bind, run_bind, run_searchesProgram rest, run_searchProgram]
    rfl

/-- Whether the merge drops an entry. -/
def drops (tables : Nat → SSTableReader) (deeper : Key → List Nat) (key : Key) (e : InternalEntry) : Bool :=
  decide (e.type = .deletion) && ((deeper key).findSome? fun t => ((tables t).get key).toOption).isNone

theorem run_dropProgram (deeper : Key → List Nat) (key : Key) (e : InternalEntry) :
    (dropProgram tables deeper key e).run (filesOf tables) = drops tables deeper key e := by
  unfold dropProgram drops
  split
  · rename_i h
    rw [run_bind, run_searchProgram, decide_eq_true h]
    rfl
  · rename_i h
    rw [decide_eq_false h]
    rfl

end

/-! ## The merge -/

/-- Two places of a sorted list with the same entry have the same entries behind them. -/
theorem drop_of_getElem? {l : List (Key × InternalEntry)} (hs : Sorted l) {i j : Nat} (h : l[i]? = l[j]?) :
    l.drop i = l.drop j := by
  rcases Nat.lt_or_ge i l.length with hi | hi
  · have hne : l.Nodup := (List.Pairwise.imp (fun hlt he => absurd hlt (by rw [he]; exact lt_irrefl _)) hs)
    have := (List.getElem?_inj hi hne).mp h
    rw [this]
  · rw [List.getElem?_eq_none hi, eq_comm, List.getElem?_eq_none_iff] at h
    rw [List.drop_of_length_le hi, List.drop_of_length_le h]

section

variable {tables : Nat → SSTableReader} {lists : Nat → List (Key × InternalEntry)} {inputs : List Nat} {cs : List Cursor}

/-- The cursor is over an input, which is the table of its list, and stands at a place of it. -/
def Standing (tables : Nat → SSTableReader) (lists : Nat → List (Key × InternalEntry)) (c : Cursor) : Prop :=
  Opened (lists c.1) (tables c.1) ∧ ∃ i, StandsOn (tables c.1) (lists c.1) i c.2

open Classical in
/-- What the cursor still delivers. -/
noncomputable def Cursor.view (tables : Nat → SSTableReader) (lists : Nat → List (Key × InternalEntry)) (c : Cursor) :
    List (Key × InternalEntry) :=
  if h : ∃ i, StandsOn (tables c.1) (lists c.1) i c.2 then (lists c.1).drop h.choose else []

theorem Cursor.view_eq {c : Cursor} (hs : Sorted (lists c.1)) {i : Nat} (h : StandsOn (tables c.1) (lists c.1) i c.2) :
    c.view tables lists = (lists c.1).drop i := by
  have hex : ∃ i, StandsOn (tables c.1) (lists c.1) i c.2 := ⟨i, h⟩
  rw [Cursor.view, dif_pos hex]
  exact drop_of_getElem? hs (hex.choose_spec.head.symm.trans h.head)

theorem Standing.head_view {c : Cursor} (h : Standing tables lists c) : c.head = (c.view tables lists).head? := by
  obtain ⟨ho, i, hi⟩ := h
  rw [Cursor.view_eq ho.sorted hi, List.head?_drop]
  exact hi.head

/-- `Next` on a cursor. -/
def Cursor.next (c : Cursor) : Cursor := (c.1, c.2.next.1)

theorem Standing.next {c : Cursor} (h : Standing tables lists c) :
    Standing tables lists c.next ∧ c.next.view tables lists = (c.view tables lists).tail := by
  obtain ⟨ho, i, hi⟩ := h
  have hi' : StandsOn (tables c.next.1) (lists c.next.1) (i + 1) c.next.2 := ho.next_standsOn hi
  refine ⟨⟨ho, i + 1, hi'⟩, ?_⟩
  rw [Cursor.view_eq ho.sorted hi, Cursor.view_eq (show Sorted (lists c.next.1) from ho.sorted) hi', List.tail_drop]
  rfl

theorem Standing.reader {c : Cursor} (h : Standing tables lists c) : c.2.reader = tables c.1 := by
  obtain ⟨-, i, hi⟩ := h
  exact hi.reader

theorem run_advanceProgram (key : Key) : ∀ cs : List Cursor, (∀ c ∈ cs, c.2.reader = tables c.1) →
    (advanceProgram key cs).run (filesOf tables) = KMerge.advance Cursor.head Cursor.next key cs
  | [], _ => rfl
  | c :: cs, h => by
    have hc := h c List.mem_cons_self
    have hone : (match c.head with
        | some p => if p.1 = key then (c.2.nextProgram c.1).bind fun r => .done (c.1, r.1) else .done c
        | none => .done c : Reads Cursor).run (filesOf tables) = KMerge.moveOn Cursor.head Cursor.next key c := by
      unfold KMerge.moveOn
      cases c.head with
      | none => rfl
      | some p =>
        simp only
        split
        · have hfile : filesOf tables c.1 = c.2.reader.file := by rw [hc]; rfl
          rw [run_bind, run_nextProgram hfile]
          rfl
        · rfl
    rw [advanceProgram, run_bind, hone, run_bind, run_advanceProgram key cs fun c hc' => h c (List.mem_cons_of_mem _ hc')]
    rfl

/-- The merge of `runs`: `cs` is left, `out` was written, the keys in `dropped` were left out. -/
structure Merging (tables : Nat → SSTableReader) (lists : Nat → List (Key × InternalEntry)) (deeper : Key → List Nat)
    (runs : List (List (Key × InternalEntry))) (cs : List Cursor) (out : List (Key × InternalEntry)) (dropped : Set Key) :
    Prop where
  standing : ∀ c ∈ cs, Standing tables lists c
  progress : KMerge.Progress InternalEntry.sequence InternalEntry.Gone runs (cs.map (Cursor.view tables lists)) out dropped
  kept : ∀ p ∈ out, drops tables deeper p.1 p.2 = false
  gone : ∀ key ∈ dropped, ∀ e, KMerge.best InternalEntry.sequence runs key = some e → drops tables deeper key e = true

/-- The newest entries of the runs, less those that are dropped. -/
def Merged (tables : Nat → SSTableReader) (deeper : Key → List Nat) (runs : List (List (Key × InternalEntry)))
    (out : List (Key × InternalEntry)) : Prop :=
  Sorted out ∧ ∀ key, lookup key out =
    (KMerge.best InternalEntry.sequence runs key).filter fun e => !drops tables deeper key e

variable {deeper : Key → List Nat} {runs : List (List (Key × InternalEntry))} {out : List (Key × InternalEntry)}
  {dropped : Set Key}

/-- The end of the loop. -/
theorem Merging.merged (h : Merging tables lists deeper runs cs out dropped)
    (hend : KMerge.minKey List.head? (cs.map (Cursor.view tables lists)) = none) : Merged tables deeper runs out := by
  refine ⟨h.progress.sorted_out, fun key => ?_⟩
  rcases h.progress.lookup_out hend key with ⟨hl, -⟩ | ⟨hl, hd, e, he, -⟩
  · rw [hl]
    cases hb : KMerge.best InternalEntry.sequence runs key with
    | none => rfl
    | some e =>
      rw [hb] at hl
      have hk : drops tables deeper key e = false := h.kept (key, e) (mem_of_lookup hl)
      rw [Option.filter_some, hk]
      rfl
  · rw [hl, he, Option.filter_some, h.gone key hd e he]
    rfl

/-- The cursors and the key of a round. -/
theorem Merging.round (h : Merging tables lists deeper runs cs out dropped) {key : Key}
    (hm : KMerge.minKey List.head? (cs.map (Cursor.view tables lists)) = some key) :
    ∃ e, KMerge.winner List.head? InternalEntry.sequence key (cs.map (Cursor.view tables lists)) = some e ∧
      Merging tables lists deeper runs (KMerge.advance Cursor.head Cursor.next key cs)
        (if drops tables deeper key e then out else out ++ [(key, e)])
        (if drops tables deeper key e then insert key dropped else dropped) := by
  obtain ⟨e, he⟩ : ∃ e, KMerge.best InternalEntry.sequence (cs.map (Cursor.view tables lists)) key = some e :=
    KMerge.best_isSome hm
  have hw := (KMerge.winner_eq_best h.progress.sorted hm).trans he
  have hbest := (h.progress.best_min hm).symm.trans he
  have hview := KMerge.advance_view (fun c hc => (h.standing c hc).head_view) (fun c hc => (h.standing c hc).next.2) key
  have hstanding : ∀ c ∈ KMerge.advance Cursor.head Cursor.next key cs, Standing tables lists c :=
    KMerge.forall_advance (fun _ hc => hc.next.1) h.standing key
  refine ⟨e, hw, hstanding, ?_, fun p hp => ?_, fun k hk a ha => ?_⟩
  · rw [hview]
    cases hd : drops tables deeper key e with
    | true =>
      have hgone : e.Gone := by
        unfold drops at hd
        exact of_decide_eq_true (Bool.and_eq_true_iff.mp hd).1
      exact h.progress.drop hm hw hgone
    | false => exact h.progress.emit hm hw
  · cases hd : drops tables deeper key e with
    | true =>
      rw [hd] at hp
      exact h.kept p hp
    | false =>
      rw [hd] at hp
      rcases List.mem_append.mp hp with hp | hp
      · exact h.kept p hp
      · rw [List.mem_singleton.mp hp]
        exact hd
  · cases hd : drops tables deeper key e with
    | true =>
      rw [hd] at hk
      rcases hk with rfl | hk
      · rw [hbest] at ha
        cases ha
        exact hd
      · exact h.gone k hk a ha
    | false =>
      rw [hd] at hk
      exact h.gone k hk a ha

/-- **The loop** writes the newest entries. -/
theorem Merging.run : ∀ (n : Nat) (cs : List Cursor) (out : List (Key × InternalEntry)) (dropped : Set Key),
    Merging tables lists deeper runs cs out dropped → KMerge.size (cs.map (Cursor.view tables lists)) < n →
    Merged tables deeper runs ((mergeProgram tables deeper n cs out).run (filesOf tables))
  | 0, _, _, _, _, hn => absurd hn (Nat.not_lt_zero _)
  | n + 1, cs, out, dropped, h, hn => by
    have hmin : KMerge.minKey Cursor.head cs = KMerge.minKey List.head? (cs.map (Cursor.view tables lists)) :=
      KMerge.minKey_view fun c hc => (h.standing c hc).head_view
    rw [mergeProgram, hmin]
    cases hm : KMerge.minKey List.head? (cs.map (Cursor.view tables lists)) with
    | none => exact h.merged hm
    | some key =>
      obtain ⟨e, hw, hnext⟩ := h.round hm
      have hwin : KMerge.winner Cursor.head InternalEntry.sequence key cs = some e :=
        (KMerge.winner_view (fun c hc => (h.standing c hc).head_view) key).trans hw
      simp only [hwin]
      rw [run_bind, run_dropProgram, run_bind, run_advanceProgram key cs fun c hc => (h.standing c hc).reader]
      refine Merging.run n _ _ _ hnext ?_
      have hview := KMerge.advance_view (fun c hc => (h.standing c hc).head_view) (fun c hc => (h.standing c hc).next.2) key
      rw [hview]
      have := KMerge.size_advance_lt (KMerge.minKey_spec hm).1
      omega

/-- `SeekToFirst` fails with `NotFound` on an empty table only. -/
theorem Opened.seekToFirst_status {l : List (Key × InternalEntry)} {r : SSTableReader} (h : Opened l r) :
    (Iterator.seekToFirst { reader := r }).2 =
      if l = [] then .error (.NotFound "Reached end of data blocks") else .ok () := by
  unfold Iterator.seekToFirst Iterator.readEntryAt
  simp only
  cases hl : l with
  | nil =>
    have hend : r.dataEndOffset ≤ 0 := by rw [h.dataEnd, hl]; exact Nat.le_refl _
    rw [if_pos hend, if_pos rfl]
  | cons p rest =>
    have hread := @Opened.readEntryAt l r h [] rest p hl
    have hend : ¬r.dataEndOffset ≤ 0 := by
      have := entrySize_pos p.1
      rw [h.dataEnd, hl, dataSize_cons]
      omega
    rw [if_neg hend, if_neg (List.cons_ne_nil _ _), show (0 : Nat) = dataSize [] from rfl, hread]

/-- The iterators that are opened deliver the inputs that are not empty. -/
theorem run_openProgram : ∀ inputs : List Nat, (∀ t ∈ inputs, Opened (lists t) (tables t)) →
    ∃ cs, (openProgram tables inputs).run (filesOf tables) = .ok cs ∧ (∀ c ∈ cs, Standing tables lists c) ∧
      cs.map (Cursor.view tables lists) = (inputs.map lists).filter fun l => !l.isEmpty
  | [], _ => ⟨[], rfl, fun _ hc => absurd hc List.not_mem_nil, rfl⟩
  | t :: ts, h => by
    have ht := h t List.mem_cons_self
    obtain ⟨cs, hrun, hstanding, hview⟩ := run_openProgram ts fun t' ht' => h t' (List.mem_cons_of_mem _ ht')
    have hseek : ((Iterator.seekToFirstProgram t { reader := tables t }).run (filesOf tables)) =
        Iterator.seekToFirst { reader := tables t } := run_seekToFirstProgram rfl
    have hstands : StandsOn (tables t) (lists t) 0 (Iterator.seekToFirst { reader := tables t }).1 :=
      ht.readEntryAt_standsOn rfl 0
    have hstatus := ht.seekToFirst_status
    rw [openProgram, run_bind, hseek, List.map_cons, List.filter_cons]
    generalize Iterator.seekToFirst { reader := tables t } = x at hstands hstatus
    obtain ⟨it, st⟩ := x
    simp only at hstands hstatus
    by_cases hnil : lists t = []
    · rw [if_pos hnil] at hstatus
      subst hstatus
      refine ⟨cs, hrun, hstanding, ?_⟩
      rw [hview, hnil]
      rfl
    · rw [if_neg hnil] at hstatus
      subst hstatus
      refine ⟨(t, it) :: cs, ?_, fun c hc => ?_, ?_⟩
      · simp only [run_bind, hrun]
        rfl
      · rcases List.mem_cons.mp hc with rfl | hc
        · exact ⟨ht, 0, hstands⟩
        · exact hstanding c hc
      · have hfirst : Cursor.view tables lists (t, it) = lists t := Cursor.view_eq (c := (t, it)) ht.sorted hstands
        rw [List.map_cons, hview, hfirst, List.isEmpty_eq_false_iff.mpr hnil]
        rfl

/-- **The merge** of the inputs writes their newest entries. -/
theorem run_compactProgram (h : ∀ t ∈ inputs, Opened (lists t) (tables t)) {rounds : Nat}
    (hn : KMerge.size (inputs.map lists) < rounds) :
    ∃ out, (compactProgram tables deeper rounds inputs).run (filesOf tables) = .ok out ∧
      Merged tables deeper (inputs.map lists) out := by
  obtain ⟨cs, hrun, hstanding, hview⟩ := run_openProgram inputs h
  have hsorted : ∀ l ∈ cs.map (Cursor.view tables lists), Sorted l := by
    intro l hl
    rw [hview] at hl
    obtain ⟨t, ht, rfl⟩ := List.mem_map.mp (List.mem_filter.mp hl).1
    exact (h t ht).sorted
  have hstart : Merging tables lists deeper (cs.map (Cursor.view tables lists)) cs [] ∅ :=
    ⟨hstanding, KMerge.Progress.start hsorted, fun p hp => absurd hp List.not_mem_nil, fun k hk => hk.elim⟩
  have hsize : KMerge.size (cs.map (Cursor.view tables lists)) < rounds := by
    rw [hview]
    exact (size_filter_le _).trans_lt hn
  obtain ⟨hs, hl⟩ := Merging.run rounds cs [] ∅ hstart hsize
  refine ⟨_, ?_, hs, fun key => ?_⟩
  · rw [compactProgram, run_bind, hrun]
    simp only [run_bind, run_done]
  · rw [hl key, hview, best_filter]

end

/-! ## The two threads -/

/-- The threads that read tables: the lookups, which hold `sstable_mutex_` one after the other, and a compaction. -/
inductive Side where
  | lookups
  | compaction
  deriving DecidableEq

/-- What they end with. -/
def Side.Result : Side → Type
  | lookups => List (Option InternalEntry)
  | compaction => Except Status (List (Key × InternalEntry))

/-- Their programs: some searches, and the merge of some inputs. -/
def programs (tables : Nat → SSTableReader) (searches : List (Key × List Nat)) (deeper : Key → List Nat) (rounds : Nat)
    (inputs : List Nat) : (side : Side) → Reads side.Result
  | .lookups => searchesProgram tables searches
  | .compaction => compactProgram tables deeper rounds inputs

/-- **Positioned reads**, in every interleaving of the seeks and the reads of lookups and a compaction in which no step
moves the position of a table between the seek and the read of the other side: every read gets the bytes of its place, the
lookups find what they find alone, and the compaction writes the newest entries of its inputs. -/
theorem reads_isolated {tables : Nat → SSTableReader} {lists : Nat → List (Key × InternalEntry)} {inputs : List Nat}
    (h : ∀ t ∈ inputs, Opened (lists t) (tables t)) {rounds : Nat} (hn : KMerge.size (inputs.map lists) < rounds)
    (searches : List (Key × List Nat)) (deeper : Key → List Nat) (position : Nat → Nat) (schedule : List Side)
    (hq : (System.start position (programs tables searches deeper rounds inputs)).AllQuiet (filesOf tables) schedule) :
    let s := (System.start position (programs tables searches deeper rounds inputs)).after (filesOf tables) schedule
    (∀ m ∈ s.made, m.Right (filesOf tables)) ∧
      (∀ found, (s.threads .lookups).program.result = some found →
        found = searches.map fun q => q.2.findSome? fun t => ((tables t).get q.1).toOption) ∧
      ∀ written, (s.threads .compaction).program.result = some written →
        ∃ out, written = .ok out ∧ Merged tables deeper (inputs.map lists) out := by
  have hrun := System.Run.after schedule _ (System.run_start (filesOf tables) position
    (programs tables searches deeper rounds inputs)) hq
  refine ⟨hrun.right, fun found hf => ?_, fun written hw => ?_⟩
  · rw [hrun.result hf]
    exact run_searchesProgram searches
  · obtain ⟨out, ho, hm⟩ := @run_compactProgram tables lists inputs deeper h rounds hn
    exact ⟨out, (hrun.result hw).trans ho, hm⟩

/-- The table with two entries, as the writer leaves it and the reader opens it. -/
def twoEntries : SSTableReader :=
  match SSTableWriter.writeFile { bloomBitsPerKey := 0 } [([1], ⟨⟨1, 0, 1⟩, 2, .value⟩), ([2], ⟨⟨1, 15, 1⟩, 3, .value⟩)] with
  | some (.ok file) =>
    match SSTableReader.openFile file with
    | .ok r => r
    | .error _ => { file := file }
  | _ => { file := [] }

theorem opened_twoEntries : Opened [([1], ⟨⟨1, 0, 1⟩, 2, .value⟩), ([2], ⟨⟨1, 15, 1⟩, 3, .value⟩)] twoEntries := by
  have hs : Sorted [(([1] : Key), (⟨⟨1, 0, 1⟩, 2, .value⟩ : InternalEntry)), ([2], ⟨⟨1, 15, 1⟩, 3, .value⟩)] := by
    unfold Sorted
    decide
  have hbits : ¬NoBits { bloomBitsPerKey := 0 }
      [(([1] : Key), (⟨⟨1, 0, 1⟩, 2, .value⟩ : InternalEntry)), ([2], ⟨⟨1, 15, 1⟩, 3, .value⟩)] := by
    rw [NoBits]
    decide
  have hlen : ((SSTableWriter.writeFile { bloomBitsPerKey := 0 }
      [([1], ⟨⟨1, 0, 1⟩, 2, .value⟩), ([2], ⟨⟨1, 15, 1⟩, 3, .value⟩)]).bind Except.toOption).map List.length = some 124 := by
    decide +kernel
  obtain ⟨wl, file, hwritten, hw⟩ := (writeFile_spec { bloomBitsPerKey := 0 } hs (by decide)).2 hbits
  have hfile : file.length < 2 ^ 64 := by
    rw [hw] at hlen
    have : file.length = 124 := Option.some.inj hlen
    omega
  obtain ⟨r, hr, hopened, -⟩ := hwritten.opened hs (by decide) hfile
  have he : twoEntries = r := by
    unfold twoEntries
    simp only [hw, hr]
  exact he ▸ hopened

/-- A compaction and a lookup that take turns, one whole read each. -/
theorem reads_isolated_sample : ∃ out,
    (((System.start (fun _ => 0) (programs (fun _ => twoEntries) [([2], [0])] (fun _ => []) 3 [0])).after
      (filesOf fun _ => twoEntries) ([Side.compaction, .lookups, .compaction, .lookups].flatMap fun t => [t, t])).threads
        .compaction).program.result = some (.ok out) ∧
    Merged (fun _ => twoEntries) (fun _ => []) [[([1], ⟨⟨1, 0, 1⟩, 2, .value⟩), ([2], ⟨⟨1, 15, 1⟩, 3, .value⟩)]] out := by
  have hquiet := System.allQuiet_pairs (filesOf fun _ => twoEntries) [.compaction, .lookups, .compaction, .lookups]
    (System.start (fun _ => 0) (programs (fun _ => twoEntries) [([2], [0])] (fun _ => []) 3 [0])) fun _ => rfl
  have h := @reads_isolated (fun _ => twoEntries) (fun _ => [([1], ⟨⟨1, 0, 1⟩, 2, .value⟩), ([2], ⟨⟨1, 15, 1⟩, 3, .value⟩)])
    [0] (fun _ _ => opened_twoEntries) 3 (by decide) [([2], [0])] (fun _ => []) (fun _ => 0) _ hquiet
  have hdone : (((System.start (fun _ => 0) (programs (fun _ => twoEntries) [([2], [0])] (fun _ => []) 3 [0])).after
      (filesOf fun _ => twoEntries) ([Side.compaction, .lookups, .compaction, .lookups].flatMap fun t => [t, t])).threads
        .compaction).program.result.isSome = true := by
    decide +kernel
  obtain ⟨written, hw⟩ := Option.isSome_iff_exists.mp hdone
  obtain ⟨out, rfl, hm⟩ := h.2.2 written hw
  exact ⟨out, hw, hm⟩

/-- **A lookup between the two steps of a read of the compaction**: the compaction reads behind the lookup, and writes an
entry that is in no input. -/
theorem lookup_misplaces_read :
    let s := (System.start (fun _ => 0) (programs (fun _ => twoEntries) [([2], [0])] (fun _ => []) 3 [0])).after
      (filesOf fun _ => twoEntries) [.compaction, .lookups, .lookups, .compaction, .compaction, .compaction]
    (∃ m ∈ s.made, ¬m.Right (filesOf fun _ => twoEntries)) ∧
      ∃ written, (s.threads .compaction).program.result = some written ∧
        written.toOption = some [([0], ⟨⟨13824, 10995116277760, 0⟩, 17179934720, .other 0⟩), ([2], ⟨⟨1, 15, 1⟩, 3, .value⟩)] := by
  intro s
  have hresult : (s.threads .compaction).program.result.bind Except.toOption =
      some [([0], ⟨⟨13824, 10995116277760, 0⟩, 17179934720, .other 0⟩), ([2], ⟨⟨1, 15, 1⟩, 3, .value⟩)] := by
    decide +kernel
  have hread : s.made.map (fun m => (m.offset, m.n, m.bytes.length)) = [(0, 64, 64), (0, 64, 60), (27, 64, 64)] := by
    decide +kernel
  refine ⟨?_, Option.bind_eq_some_iff.mp hresult⟩
  -- the second read got sixty bytes, and there are sixty-four at its place
  obtain ⟨m, hm, he⟩ := List.mem_map.mp (show (0, 64, 60) ∈ s.made.map fun m => (m.offset, m.n, m.bytes.length) by
    rw [hread]; decide)
  refine ⟨m, hm, fun hr => ?_⟩
  have hbytes : m.bytes.length = 64 := by
    have hfile : (filesOf (fun _ => twoEntries) m.file).length = 124 := by
      show twoEntries.file.length = 124
      decide +kernel
    rw [hr, bytesAt, List.length_take, List.length_drop, hfile]
    rw [(Prod.mk.inj he).1, (Prod.mk.inj (Prod.mk.inj he).2).1]
    rfl
  have := (Prod.mk.inj (Prod.mk.inj he).2).2
  omega

end Format

end SplitKV
