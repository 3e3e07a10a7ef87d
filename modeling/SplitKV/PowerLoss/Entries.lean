import SplitKV.PowerLoss.Machine
import SplitKV.Recovery.Index
import SplitKV.Store.Steps

/-!
# Where entries come from

Whatever holds of every entry that a database holds, and of every entry of its table files, holds still behind a flush or a
compaction, whether or not its tables are well formed: these only copy entries.
-/

namespace SplitKV

open Levels

variable {P Q : Key → InternalEntry → Prop}

/-- `P` holds of every entry of the list. -/
def AllEntries (P : Key → InternalEntry → Prop) (l : List (Key × InternalEntry)) : Prop := ∀ p ∈ l, P p.1 p.2

theorem allEntries_nil : AllEntries P [] := fun _ hp => absurd hp List.not_mem_nil

theorem AllEntries.append {l l' : List (Key × InternalEntry)} (h : AllEntries P l) (h' : AllEntries P l') :
    AllEntries P (l ++ l') := fun p hp => (List.mem_append.mp hp).elim (h p) (h' p)

/-- `P` holds of every entry of the table files. -/
def AllFiles (P : Key → InternalEntry → Prop) (sst : Folder (Option SSTableFile)) : Prop :=
  ∀ id ∈ sst.dir, ∀ file, sst.data id = some file → AllEntries P file.entries

/-- `P` holds of every entry of the tables. -/
def AllTables (P : Key → InternalEntry → Prop) (tables : List SSTableInfo) : Prop :=
  ∀ info ∈ tables, AllEntries P info.reader.entries

theorem AllTables.append {a b : List SSTableInfo} (h : AllTables P a) (h' : AllTables P b) : AllTables P (a ++ b) :=
  fun info hi => (List.mem_append.mp hi).elim (h info) (h' info)

theorem AllTables.mono {a b : List SSTableInfo} (h : AllTables P a) (hs : ∀ info ∈ b, info ∈ a) : AllTables P b :=
  fun info hi => h info (hs info hi)

theorem AllFiles.write {sst : Folder (Option SSTableFile)} (h : AllFiles P sst) (id : Nat) (file : Option SSTableFile)
    (hf : ∀ x, file = some x → AllEntries P x.entries) : AllFiles P (sst.write id file) := by
  intro i hi x hx
  rcases setAt_cases hx with ⟨-, rfl⟩ | ⟨-, hx⟩
  · exact hf x rfl
  · exact h i hi x hx

theorem AllFiles.create {sst : Folder (Option SSTableFile)} (h : AllFiles P sst) (id : Nat) :
    AllFiles P (sst.create id none) := by
  intro i hi x hx
  rcases setAt_cases hx with ⟨-, hn⟩ | ⟨hne, hx⟩
  · cases hn
  · exact h i ((Folder.mem_dir_create.mp hi).resolve_left hne) x hx

theorem AllFiles.mono {R : Key → InternalEntry → Prop} {sst : Folder (Option SSTableFile)} (h : AllFiles P sst)
    (hr : ∀ key e, P key e → R key e) : AllFiles R sst := fun id hid file hf p hp => hr _ _ (h id hid file hf p hp)

namespace DB

/-- `P` holds of every entry the database holds. -/
structure Holding (P : Key → InternalEntry → Prop) (db : DB) : Prop where
  memtables : ∀ m ∈ db.memtables, AllEntries P m.getSortedEntries
  levels : ∀ l, AllTables P (db.levels l)

theorem Holding.mono {Q : Key → InternalEntry → Prop} {db : DB} (h : db.Holding P) (hq : ∀ key e, P key e → Q key e) :
    db.Holding Q :=
  ⟨fun m hm p hp => hq _ _ (h.memtables m hm p hp), fun l info hi p hp => hq _ _ (h.levels l info hi p hp)⟩

/-- Other logs. -/
theorem Holding.setLogs {db : DB} (h : db.Holding P) (vlog : VLog) (wal : WAL) (walId n : Nat) :
    { db with vlog := vlog, wal := wal, walId := walId, sequenceNumber := n }.Holding P := ⟨h.memtables, h.levels⟩

theorem Holding.addVersion {db : DB} (h : db.Holding P) {key : Key} {e : InternalEntry} (he : P key e) :
    (db.addVersion key e).Holding P := by
  refine ⟨fun m hm p hp => ?_, h.levels⟩
  rcases List.mem_cons.mp hm with rfl | hm
  · rcases MemTable.mem_add hp with rfl | hp
    · exact he
    · exact h.memtables _ List.mem_cons_self p hp
  · exact h.memtables m (List.mem_cons_of_mem _ hm) p hp

theorem Holding.rotate {db : DB} (h : db.Holding P) : db.rotate.Holding P := by
  refine ⟨fun m hm p hp => ?_, h.levels⟩
  rcases List.mem_cons.mp hm with rfl | hm
  · cases hp
  · have hm' : m ∈ db.memtables := by
      simp only [DB.rotate, List.reverse_append, List.reverse_singleton, List.singleton_append] at hm
      exact hm
    exact h.memtables m hm' p hp

/-! ## Flushes -/

theorem entries_addAll (fault : Nat → Bool) : ∀ (l : List (Key × InternalEntry)) (i : Nat) (w w' : SSTableWriter),
    SSTableWriter.addAll fault i l w = .ok w' → w'.entries = w.entries ++ l
  | [], i, w, w', h => by
    cases h
    exact (List.append_nil _).symm
  | p :: l, i, w, w', h => by
    rw [SSTableWriter.addAll] at h
    split at h
    · cases h
    · split at h
      · cases h
      · rename_i w₁ hw
        rw [entries_addAll fault l (i + 1) w₁ w' h]
        unfold SSTableWriter.add at hw
        split at hw
        · cases hw
        · cases hw
          rw [List.append_assoc, List.singleton_append]

theorem entries_finish {w w' : SSTableWriter} {file : SSTableFile} (h : w.finish = .ok (w', file)) :
    file.entries = w.entries := by
  unfold SSTableWriter.finish at h
  split at h
  · cases h
  · cases h
    rfl

/-- The table file of a memtable has its entries. -/
theorem entries_writeTable {o : Options} {l : List (Key × InternalEntry)} {f : FlushFaults} {w : SSTableWriter}
    {file : SSTableFile} (h : writeTable o l f = .ok (w, file)) : file.entries = l := by
  unfold writeTable at h
  split at h
  · cases h
  · rename_i w₁ hw
    split at h
    · cases h
    · rw [entries_finish h, entries_addAll f.add l 0 _ _ hw]
      rfl

theorem allTables_setAt {levels : Levels} (h : ∀ l, AllTables P (levels l)) {lvl : Nat} {tables : List SSTableInfo}
    (ht : AllTables P tables) (l : Nat) : AllTables P (setAt levels lvl tables l) := by
  unfold setAt
  split
  · exact ht
  · exact h l

/-- `P` holds of the entries of the tables, and `Q` of those of their files and of all others. -/
structure Indexed (P Q : Key → InternalEntry → Prop) (db : DB) : Prop where
  levels : ∀ l, AllTables P (db.levels l)
  files : AllFiles Q db.sst
  imp : ∀ key e, P key e → Q key e

theorem Indexed.saveManifest {db : DB} (h : db.Indexed P Q) (fault : Bool) : (db.saveManifest fault).1.Indexed P Q := by
  unfold DB.saveManifest
  split
  · exact h
  · exact ⟨h.levels, h.files, h.imp⟩

theorem Indexed.createTable {db : DB} (h : db.Indexed P Q) (n id : Nat) :
    { db with nextSstableId := n, sst := db.sst.create id none }.Indexed P Q := ⟨h.levels, h.files.create id, h.imp⟩

/-- **A flush** copies the entries of the memtable. -/
theorem Indexed.flushMemTable {db : DB} (h : db.Indexed P Q) {m : MemTable} (hm : AllEntries P m.getSortedEntries)
    (f : FlushFaults) : (db.flushMemTable m f).1.Indexed P Q := by
  unfold DB.flushMemTable
  split
  · exact h
  simp only
  split
  · exact ⟨h.levels, h.files, h.imp⟩
  have hc := h.createTable (db.nextSstableId + 1) db.nextSstableId
  split
  · exact hc
  rename_i w file hw
  have hfile : AllEntries P file.entries := by
    rw [entries_writeTable hw]
    exact hm
  have hfiles := hc.files.write db.nextSstableId (some file) fun x hx => by
    cases hx
    exact fun p hp => h.imp _ _ (hfile p hp)
  split
  · exact ⟨h.levels, hfiles, h.imp⟩
  refine Indexed.saveManifest ⟨allTables_setAt h.levels ((h.levels 0).append fun info hi => ?_), hfiles, h.imp⟩
    f.manifest
  rw [List.mem_singleton.mp hi]
  exact hfile

/-- A flush removes no table. -/
theorem mem_levels_flush (db : DB) (m : MemTable) (f : FlushFaults) {l : Nat} {info : SSTableInfo}
    (hi : info ∈ db.levels l) : info ∈ (db.flushMemTable m f).1.levels l := by
  unfold DB.flushMemTable
  split
  · exact hi
  simp only
  split
  · exact hi
  split
  · exact hi
  split
  · exact hi
  rw [(saveManifest_spec _ f.manifest).2.1]
  simp only [setAt]
  split
  · rename_i hl
    exact List.mem_append_left _ (hl ▸ hi)
  · exact hi

/-- What a database holds behind a step of the index that drops no more than memtables. -/
theorem Holding.of_index {db db' : DB} (h : db.Holding P) (hl : ∀ l, AllTables P (db'.levels l))
    (hm : ∀ m ∈ db'.memtables, m ∈ db.memtables) : db'.Holding P := ⟨fun m hx => h.memtables m (hm m hx), hl⟩

theorem mem_memtables_popFront {db : DB} {m : MemTable} (h : m ∈ db.popFront.memtables) : m ∈ db.memtables := by
  rcases List.mem_cons.mp h with rfl | h
  · exact List.mem_cons_self
  · exact List.mem_cons_of_mem _ (List.mem_reverse.mpr (List.mem_of_mem_tail (List.mem_reverse.mp h)))

/-- **The flush of the oldest memtable.** -/
theorem Holding.flushFront {db : DB} (h : db.Holding P) (hf : AllFiles Q db.sst) (hpq : ∀ key e, P key e → Q key e)
    (f : FlushFaults) : (db.flushFront f).Holding P ∧ AllFiles Q (db.flushFront f).sst := by
  unfold DB.flushFront
  split
  · exact ⟨h, hf⟩
  · rename_i m ms hq
    have hm : m ∈ db.memtables := by
      refine List.mem_cons_of_mem _ (List.mem_reverse.mpr ?_)
      rw [hq]
      exact List.mem_cons_self
    have hi := Indexed.flushMemTable ⟨h.levels, hf, hpq⟩ (h.memtables m hm) f
    refine ⟨h.of_index hi.levels fun x hx => ?_, hi.files⟩
    have hx' := mem_memtables_popFront hx
    rw [(onlyIndex_flush db m f).memtables] at hx'
    exact hx'

/-! ## Compactions -/

end DB

theorem mem_of_entryAt : ∀ (l : List (Key × InternalEntry)) (offset : Nat) {p : Key × InternalEntry},
    entryAt l offset = some p → p ∈ l
  | [], _, _, h => by cases h
  | q :: l, 0, p, h => by
    cases h
    exact List.mem_cons_self
  | q :: l, offset + 1, p, h => by
    rw [entryAt] at h
    split at h
    · exact List.mem_cons_of_mem _ (mem_of_entryAt l _ h)
    · cases h

theorem SSTableReader.mem_of_readEntryAt {r : SSTableReader} {offset next : Nat} {key : Key} {e : InternalEntry}
    (h : r.readEntryAt offset = .ok (key, e, next)) : (key, e) ∈ r.entries := by
  unfold SSTableReader.readEntryAt at h
  split at h
  · rename_i p hp
    cases h
    exact mem_of_entryAt _ _ hp
  · cases h

namespace Iterator

/-- The iterator stands on an entry of its table. -/
def Within (it : Iterator) : Prop := it.valid = true → (it.currentKey, it.currentEntry) ∈ it.reader.entries

theorem within_readEntryAt (it : Iterator) (offset : Nat) :
    (it.readEntryAt offset).1.Within ∧ (it.readEntryAt offset).1.reader = it.reader := by
  unfold readEntryAt
  split
  · exact ⟨(by intro h; cases h), rfl⟩
  · split
    · exact ⟨(by intro h; cases h), rfl⟩
    · split
      · exact ⟨(by intro h; cases h), rfl⟩
      · rename_i hr
        exact ⟨fun _ => SSTableReader.mem_of_readEntryAt hr, rfl⟩

theorem Within.next {it : Iterator} (h : it.Within) : it.next.Within ∧ it.next.reader = it.reader := by
  unfold Iterator.next
  split
  · exact within_readEntryAt it _
  · exact ⟨h, rfl⟩

theorem Within.head {it : Iterator} (h : it.Within) {key : Key} {e : InternalEntry} (hh : it.head = some (key, e)) :
    (key, e) ∈ it.reader.entries := by
  unfold Iterator.head at hh
  split at hh
  · rename_i hv
    cases hh
    exact h hv
  · cases hh

end Iterator

/-- The iterators of the inputs stand on their entries. -/
def AllIterators (P : Key → InternalEntry → Prop) (iters : List Iterator) : Prop :=
  ∀ it ∈ iters, it.Within ∧ AllEntries P it.reader.entries

theorem allIterators_open (read : Nat → Nat → Option Status) : ∀ (infos : List SSTableInfo) (i : Nat) (its : List Iterator),
    AllTables P infos → openIterators read i infos = .ok its → AllIterators P its
  | [], _, _, _, h => by
    cases h
    exact fun it hi => absurd hi List.not_mem_nil
  | info :: infos, i, its, ht, h => by
    have hrest := ht.mono fun a ha => List.mem_cons_of_mem info ha
    rw [openIterators] at h
    have hw := Iterator.within_readEntryAt { ({ reader := info.reader, fault := read i } : Iterator) with currentOffset := 0 } 0
    split at h
    · rename_i it hs
      rw [Iterator.seekToFirst] at hs
      rw [hs] at hw
      split at h
      · rename_i its' hi
        cases h
        intro x hx
        rcases List.mem_cons.mp hx with rfl | hx
        · exact ⟨hw.1, hw.2 ▸ ht info List.mem_cons_self⟩
        · exact allIterators_open read infos (i + 1) its' hrest hi x hx
      · cases h
    · split at h
      · exact allIterators_open read infos (i + 1) its hrest h
      · cases h

namespace MergeState

/-- `P` holds of the entries a merge has read, and of those it has written. -/
structure Holding (P : Key → InternalEntry → Prop) (st : MergeState) : Prop where
  iters : AllIterators P st.iters
  writer : ∀ fileId w, st.writer = some (fileId, w) → AllEntries P w.entries
  outputs : AllTables P st.outputs

theorem Holding.pick {st : MergeState} (h : st.Holding P) {key : Key} {e : InternalEntry} (hp : st.pick = some (key, e)) :
    P key e := by
  unfold MergeState.pick at hp
  split at hp
  · cases hp
  split at hp
  · cases hp
  rename_i k _ _ hw
  cases hp
  obtain ⟨hmem, -⟩ := Versions.bestOf_spec hw
  obtain ⟨it, hit, hc⟩ := List.mem_map.mp hmem
  obtain ⟨hwithin, hall⟩ := h.iters it hit
  unfold KMerge.candidate at hc
  split at hc
  · split at hc
    · rename_i hh hk
      cases hc
      subst hk
      exact hall _ (hwithin.head hh)
    · cases hc
  · cases hc

theorem Holding.advance {st : MergeState} (h : st.Holding P) (key : Key) : (st.advance key).Holding P := by
  refine ⟨KMerge.forall_advance (fun it hit => ?_) h.iters key, h.writer, h.outputs⟩
  obtain ⟨hw, ha⟩ := hit
  exact ⟨hw.next.1, hw.next.2 ▸ ha⟩

end MergeState

namespace DB

theorem Indexed.finishOutput {db : DB} (h : db.Indexed P Q) (f : CompactFaults) (lvl : Nat) {st : MergeState}
    (hs : st.Holding P) (fileId : Nat) {w : SSTableWriter} (hw : AllEntries P w.entries) :
    (db.finishOutput f lvl st fileId w).1.Indexed P Q ∧ ∀ st', (db.finishOutput f lvl st fileId w).2 = .ok st' →
      st'.Holding P := by
  unfold DB.finishOutput
  split
  · exact ⟨h, (by intro st' he; cases he)⟩
  split
  · exact ⟨h, (by intro st' he; cases he)⟩
  rename_i w' file hf
  have hfile : AllEntries P file.entries := by
    rw [entries_finish hf]
    exact hw
  have hfiles := h.files.write fileId (some file) fun x hx => by
    cases hx
    exact fun p hp => h.imp _ _ (hfile p hp)
  simp only
  split
  · exact ⟨⟨h.levels, hfiles, h.imp⟩, (by intro st' he; cases he)⟩
  refine ⟨⟨h.levels, hfiles, h.imp⟩, fun st' he => ?_⟩
  cases he
  refine ⟨hs.iters, (by intro fileId w hn; cases hn), hs.outputs.append fun info hi => ?_⟩
  rw [List.mem_singleton.mp hi]
  exact hfile

theorem Indexed.putEntry {db : DB} (h : db.Indexed P Q) (f : CompactFaults) (lvl : Nat) {st : MergeState}
    (hs : st.Holding P) {key : Key} {e : InternalEntry} (he : P key e) :
    (db.putEntry f lvl st key e).1.Indexed P Q ∧ ∀ st', (db.putEntry f lvl st key e).2 = .ok st' → st'.Holding P := by
  have hcur : (db.currentWriter f st).1.Indexed P Q ∧ ∀ fileId w, (db.currentWriter f st).2 = .ok (fileId, w) →
      AllEntries P w.entries := by
    unfold DB.currentWriter
    split
    · rename_i x hx
      exact ⟨h, fun fileId w hw => by cases hw; exact hs.writer _ _ hx⟩
    · simp only
      split
      · exact ⟨⟨h.levels, h.files, h.imp⟩, (by intro fileId w hw; cases hw)⟩
      · exact ⟨h.createTable _ _, fun fileId w hw => by cases hw; exact allEntries_nil⟩
  unfold DB.putEntry
  generalize db.currentWriter f st = c at hcur
  obtain ⟨db₁, r⟩ := c
  cases r with
  | error s => exact ⟨hcur.1, (by intro st' hr; cases hr)⟩
  | ok x =>
    obtain ⟨fileId, w⟩ := x
    obtain ⟨hi, hw⟩ := hcur
    simp only at hi hw ⊢
    split
    · exact ⟨hi, (by intro st' hr; cases hr)⟩
    split
    · exact ⟨hi, (by intro st' hr; cases hr)⟩
    rename_i w' ha
    have hw' : AllEntries P w'.entries := by
      unfold SSTableWriter.add at ha
      split at ha
      · cases ha
      · cases ha
        refine (hw _ _ rfl).append fun p hp => ?_
        rw [List.mem_singleton.mp hp]
        exact he
    split
    · exact hi.finishOutput f lvl hs fileId hw'
    · refine ⟨hi, fun st' hr => ?_⟩
      cases hr
      refine ⟨hs.iters, fun id w₂ hn => ?_, hs.outputs⟩
      cases hn
      exact hw'

/-- **The merge loop** writes entries it has read. -/
theorem Indexed.mergeLoop (f : CompactFaults) (lvl : Nat) : ∀ (n : Nat) (db : DB) (st : MergeState), db.Indexed P Q →
    st.Holding P → (DB.mergeLoop f lvl n db st).1.Indexed P Q ∧ ∀ st', (DB.mergeLoop f lvl n db st).2 = .ok st' →
      st'.Holding P
  | 0, db, st, h, hs => ⟨h, fun st' he => by cases he; exact hs⟩
  | n + 1, db, st, h, hs => by
    rw [DB.mergeLoop]
    split
    · unfold DB.mergeEnd
      split
      · exact ⟨h, fun st' he => by cases he; exact hs⟩
      · rename_i fileId w hw
        exact h.finishOutput f lvl hs fileId (hs.writer _ _ hw)
    · rename_i key e hp
      have hround : (db.mergeRound f lvl st key e (db.dropEntry f lvl key e)).1.Indexed P Q ∧ ∀ st',
          (db.mergeRound f lvl st key e (db.dropEntry f lvl key e)).2 = .ok st' → st'.Holding P := by
        unfold DB.mergeRound
        split
        · exact ⟨h, fun st' he => by cases he; exact hs.advance key⟩
        · have hput := h.putEntry f lvl hs (hs.pick hp)
          split
          · rename_i hr
            rw [hr] at hput
            exact ⟨hput.1, (by intro st' he; cases he)⟩
          · rename_i hr
            rw [hr] at hput
            exact ⟨hput.1, fun st' he => by cases he; exact (hput.2 _ rfl).advance key⟩
      split
      · rename_i hr
        rw [hr] at hround
        exact ⟨hround.1, (by intro st' he; cases he)⟩
      · rename_i db₁ st₁ hr
        rw [hr] at hround
        exact Indexed.mergeLoop f lvl n db₁ st₁ hround.1 (hround.2 st₁ rfl)

/-- The deletion of files. -/
theorem AllFiles.deleteInputs (f : CompactFaults) : ∀ (inputs : List SSTableInfo) (sst : Folder (Option SSTableFile)),
    AllFiles P sst → AllFiles P (inputs.foldl (fun sst info =>
      if f.remove info.tableMeta.fileId then sst else sst.remove info.tableMeta.fileId) sst)
  | [], _, h => h
  | info :: inputs, sst, h => by
    refine AllFiles.deleteInputs f inputs _ ?_
    simp only
    split
    · exact h
    · exact fun id hid file hf => h id (Folder.mem_dir_remove.mp hid).1 file hf

/-- **A compaction** copies the entries of its inputs. -/
theorem Indexed.compactLevel {db : DB} (h : db.Indexed P Q) (lvl : Int) (f : CompactFaults) :
    (db.compactLevel lvl f).1.Indexed P Q := by
  unfold DB.compactLevel
  split
  · exact h
  have hinputs : AllTables P (db.levels lvl.toNat ++ db.inputsNext lvl.toNat (db.levels lvl.toNat)) :=
    (h.levels _).append ((h.levels _).mono fun info hi => (List.mem_filter.mp hi).1)
  have hloop : ∀ {its db₁ r}, openIterators f.read 0
      (db.levels lvl.toNat ++ db.inputsNext lvl.toNat (db.levels lvl.toNat)) = .ok its → DB.mergeLoop f lvl.toNat
      (MergeState.rounds (db.levels lvl.toNat ++ db.inputsNext lvl.toNat (db.levels lvl.toNat))) db { iters := its } =
        (db₁, r) → db₁.Indexed P Q ∧ ∀ st, r = .ok st → st.Holding P := by
    intro its db₁ r hits hm
    have hloop := Indexed.mergeLoop f lvl.toNat
      (MergeState.rounds (db.levels lvl.toNat ++ db.inputsNext lvl.toNat (db.levels lvl.toNat))) db { iters := its } h
      ⟨allIterators_open f.read _ 0 its hinputs hits, (by intro fileId w hn; cases hn),
        fun info hi => absurd hi List.not_mem_nil⟩
    rw [hm] at hloop
    exact hloop
  -- the installed tables are old ones and outputs
  have hinstall : ∀ {db₁ : DB} {st : MergeState}, db₁.Indexed P Q → st.Holding P → { db₁ with
      levels := db₁.levels.install lvl.toNat (db.levels lvl.toNat) (db.inputsNext lvl.toNat (db.levels lvl.toNat))
        st.outputs }.Indexed P Q := by
    intro db₁ st hi hst
    refine ⟨fun l info hx => ?_, hi.files, h.imp⟩
    rcases mem_install_or hx with hold | ⟨-, ho⟩
    · exact hi.levels l info hold
    · exact hst.outputs info ho
  have hcourse := compactTables_course db lvl.toNat f
  generalize db.compactTables lvl.toNat f = x at hcourse ⊢
  cases hcourse with
  | empty => exact h
  | unopened => exact h
  | stopped hne ho hm => exact (hloop ho hm).1
  | unsaved hne ho hm =>
    obtain ⟨hi, hst⟩ := hloop ho hm
    exact hinstall hi (hst _ rfl)
  | @installed its db₁ db₂ st hne ho hm hf hs =>
    obtain ⟨hi, hst⟩ := hloop ho hm
    have hsaved : db₂.Indexed P Q := hs ▸ (hinstall hi (hst _ rfl)).saveManifest false
    exact ⟨hsaved.levels, AllFiles.deleteInputs f _ _ hsaved.files, h.imp⟩

/-- **`CompactLevel`.** -/
theorem Holding.compactLevel {db : DB} (h : db.Holding P) (hf : AllFiles Q db.sst) (hpq : ∀ key e, P key e → Q key e)
    (lvl : Int) (f : CompactFaults) :
    (db.compactLevel lvl f).1.Holding P ∧ AllFiles Q (db.compactLevel lvl f).1.sst := by
  have hi := Indexed.compactLevel ⟨h.levels, hf, hpq⟩ lvl f
  refine ⟨h.of_index hi.levels fun m hm => ?_, hi.files⟩
  rw [(onlyIndex_compact db lvl f).memtables] at hm
  exact hm

end DB

end SplitKV
