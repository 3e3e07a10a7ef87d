import SplitKV.Recovery.Disk
import SplitKV.Store.Compact

/-!
# Flushes and compactions keep the manifest right

Wherever a flush or a compaction fails, its files describe the old levels or the new ones: new tables get new ids, the
manifest is replaced in one step, and the inputs of a compaction are deleted behind it (`flushMemTable_described`,
`compactTables_described`).
-/

namespace SplitKV

open Assoc

/-- The table files with ids below `lo` are still there. -/
def KeepsBelow (lo : Nat) (sst sst' : Folder (Option SSTableFile)) : Prop :=
  ∀ id < lo, (id ∈ sst.dir → id ∈ sst'.dir) ∧ sst'.data id = sst.data id

section

variable {lo : Nat} {sst sst' sst'' : Folder (Option SSTableFile)}

theorem KeepsBelow.refl (lo : Nat) (sst : Folder (Option SSTableFile)) : KeepsBelow lo sst sst :=
  fun _ _ => ⟨fun h => h, rfl⟩

theorem KeepsBelow.trans (h : KeepsBelow lo sst sst') (h' : KeepsBelow lo sst' sst'') : KeepsBelow lo sst sst'' := by
  intro id hid
  obtain ⟨h₁, h₂⟩ := h id hid
  obtain ⟨h₃, h₄⟩ := h' id hid
  exact ⟨fun hd => h₃ (h₁ hd), h₄.trans h₂⟩

theorem keepsBelow_create {id : Nat} (hid : lo ≤ id) (file : Option SSTableFile) :
    KeepsBelow lo sst (sst.create id file) := by
  intro i hi
  exact ⟨fun hd => Folder.mem_dir_create.mpr (Or.inr hd), Folder.data_create_of_ne _ (by omega) _⟩

theorem keepsBelow_write {id : Nat} (hid : lo ≤ id) (file : Option SSTableFile) : KeepsBelow lo sst (sst.write id file) := by
  intro i hi
  exact ⟨fun hd => hd, Folder.data_write_of_ne _ (by omega) _⟩

end

/-- A table stays on disk while its file does. -/
theorem OnDisk.congr {sst sst' : Folder (Option SSTableFile)} {lvl : Nat} {info : SSTableInfo} (h : OnDisk sst lvl info)
    (hd : info.tableMeta.fileId ∈ sst'.dir) (he : sst'.data info.tableMeta.fileId = sst.data info.tableMeta.fileId) :
    OnDisk sst' lvl info := by
  obtain ⟨file, -, hf, hr, hs⟩ := h.file
  exact ⟨⟨file, hd, he.trans hf, hr, hs⟩, h.level, h.numEntries⟩

theorem OnDisk.mem {sst : Folder (Option SSTableFile)} {lvl : Nat} {info : SSTableInfo} (h : OnDisk sst lvl info) :
    info.tableMeta.fileId ∈ sst.dir := by
  obtain ⟨file, hd, -⟩ := h.file
  exact hd

theorem OnDisk.keep {lo : Nat} {sst sst' : Folder (Option SSTableFile)} {lvl : Nat} {info : SSTableInfo}
    (h : OnDisk sst lvl info) (hk : KeepsBelow lo sst sst') (hlt : info.tableMeta.fileId < lo) : OnDisk sst' lvl info := by
  obtain ⟨h₁, h₂⟩ := hk _ hlt
  exact h.congr (h₁ h.mem) h₂

/-- The files still describe the levels while the manifest and the old tables are there. -/
theorem Described.keep {o : Options} {d d' : Disk} {levels : Levels} {next : Nat} (h : Described o d levels next)
    (hm : d'.manifest = d.manifest) (hk : KeepsBelow next d.sst d'.sst) : Described o d' levels next where
  manifest := by rw [hm]; exact h.manifest
  onDisk := fun l info hi => (h.onDisk l info hi).keep hk (h.ids l info hi)
  wf := h.wf
  ids := h.ids
  unique := h.unique

/-- The writer has counted what it wrote. -/
def SSTableWriter.Counts (w : SSTableWriter) : Prop := w.numEntries = w.entries.length ∧ w.offset = w.dataOffset

theorem SSTableWriter.Counts.add {w w' : SSTableWriter} (h : w.Counts) {key : Key} {e : InternalEntry}
    (ha : w.add key e = .ok w') : w'.Counts := by
  unfold SSTableWriter.add at ha
  split at ha
  · cases ha
  · cases ha
    exact ⟨by simp [h.1], by simp [h.2]⟩

/-- What `Finish` leaves in the file is the table its caller registers. -/
theorem SSTableWriter.Counts.onDisk {w w' : SSTableWriter} (h : w.Counts) {file : SSTableFile}
    (hf : w.finish = .ok (w', file)) {sst : Folder (Option SSTableFile)} {fileId : Nat} (hd : fileId ∈ sst.dir) (lvl : Nat) :
    OnDisk (sst.write fileId (some file)) lvl ⟨w'.tableMeta fileId lvl, .openFile file⟩ := by
  unfold SSTableWriter.finish at hf
  split at hf
  · cases hf
  · cases hf
    refine ⟨⟨_, hd, Folder.data_write_self .., rfl, ?_⟩, rfl, h.1⟩
    simp [SSTableWriter.tableMeta, SSTableFile.size, h.2]

namespace DB

/-! ## Flushes -/

/-- The levels that a manifest may describe behind a flush of the memtable: the old tables, or one more. -/
def FlushedLevels (levels levels' : Levels) (m : MemTable) : Prop :=
  ∀ l, ∀ info ∈ levels' l, info ∈ levels l ∨ info.reader.entries = m.getSortedEntries

/-- A disk with the file of the table that a flush registered, and with its manifest. -/
theorem Flushed.described {db db' : DB} {m : MemTable} {info : SSTableInfo} (hfl : Flushed db m db' info)
    (h : Described db.options db.disk db.levels db.nextSstableId) {d : Disk}
    (hm : d.manifest = some (encodeManifest db'.nextSstableId (DB.manifestLines db'.levels db.options.maxSstableLevels)))
    (hk : KeepsBelow db.nextSstableId db.sst d.sst) (hdisk : OnDisk d.sst 0 info) :
    Described db.options d db'.levels db'.nextSstableId := by
  have hids : ∀ l, ∀ i ∈ db.levels l, i.tableMeta.fileId ≠ db.nextSstableId := fun l i hi => (h.ids l i hi).ne
  refine ⟨Or.inr hm, fun l i hi => ?_, hfl.wf_levels h.wf h.ids, fun l i hi => ?_, fun l l' a b ha hb he => ?_⟩
  · rcases hfl.mem_levels hi with hi | ⟨rfl, rfl⟩
    · exact (h.onDisk l i hi).keep hk (h.ids l i hi)
    · exact hdisk
  · rw [hfl.next]
    rcases hfl.mem_levels hi with hi | ⟨-, rfl⟩
    · exact (h.ids l i hi).trans (Nat.lt_succ_self _)
    · rw [hfl.fileId]
      exact Nat.lt_succ_self _
  · rcases hfl.mem_levels ha with ha' | ⟨hl, ha'⟩ <;> rcases hfl.mem_levels hb with hb' | ⟨hl', hb'⟩
    · exact h.unique l l' a b ha' hb' he
    · rw [hb', hfl.fileId] at he
      exact absurd he (hids l a ha')
    · rw [ha', hfl.fileId] at he
      exact absurd he.symm (hids l' b hb')
    · rw [hl, hl']

/-- **A flush**, wherever it fails, leaves files that describe the old levels or the new ones. -/
theorem flushMemTable_describes {db : DB} (h : Described db.options db.disk db.levels db.nextSstableId) {m : MemTable}
    (hm : m.Valid) (f : FlushFaults) : ∃ levels next,
      Described db.options (db.flushMemTable m f).1.disk levels next ∧ next ≤ (db.flushMemTable m f).1.nextSstableId ∧
      (levels = db.levels ∨ levels = (db.flushMemTable m f).1.levels) ∧
      ((db.flushMemTable m f).2 = .ok () → levels = (db.flushMemTable m f).1.levels ∧
        next = (db.flushMemTable m f).1.nextSstableId) := by
  have hkeep : ∀ d : Disk, d.manifest = db.manifest → KeepsBelow db.nextSstableId db.sst d.sst →
      Described db.options d db.levels db.nextSstableId := fun d hm hk => h.keep hm hk
  by_cases hc : m.count = 0
  · have he : db.flushMemTable m f = (db, .ok ()) := if_pos hc
    rw [he]
    exact ⟨_, _, h, Nat.le_refl _, Or.inl rfl, fun _ => ⟨rfl, rfl⟩⟩
  unfold flushMemTable
  simp only [hc, if_false]
  split
  · exact ⟨_, _, hkeep _ rfl (KeepsBelow.refl _ _), Nat.le_succ _, Or.inl rfl, fun he => by cases he⟩
  · have hcreate : KeepsBelow db.nextSstableId db.sst (db.sst.create db.nextSstableId none) :=
      keepsBelow_create (Nat.le_refl _) none
    have hwtable := writeTable_spec db.options hm.sorted f
    split
    · exact ⟨_, _, hkeep _ rfl hcreate, Nat.le_succ _, Or.inl rfl, fun he => by cases he⟩
    · rename_i w' file he
      have hwrite : KeepsBelow db.nextSstableId db.sst
          ((db.sst.create db.nextSstableId none).write db.nextSstableId (some file)) :=
        hcreate.trans (keepsBelow_write (Nat.le_refl _) _)
      split
      · exact ⟨_, _, hkeep _ rfl hwrite, Nat.le_succ _, Or.inl rfl, fun he => by cases he⟩
      · -- the table is registered
        have hok : (∀ i < m.getSortedEntries.length, f.add i = false) ∧ f.finish = false := by
          by_contra hn
          obtain ⟨s, hs⟩ := hwtable.2 hn
          rw [he] at hs
          cases hs
        obtain ⟨w, w₁, file₁, he₁, hw, hfin⟩ := hwtable.1 hok
        rw [he] at he₁
        cases he₁
        have hnil : m.getSortedEntries ≠ [] := fun h => hc (hm.count_eq_zero.mpr h)
        have hdir : db.nextSstableId ∈ (db.sst.create db.nextSstableId none).dir :=
          Folder.mem_dir_create.mpr (Or.inl rfl)
        have hcounts : w.Counts := ⟨by rw [hw.numEntries, hw.entries], by rw [hw.offset, hw.dataOffset]⟩
        have hdisk := hcounts.onDisk hfin hdir 0
        obtain ⟨w₂, file₂, hfin₁, -, hent, hwf, hid, -⟩ := wf_of_finish hw hm.sorted hnil db.nextSstableId 0
        rw [hfin] at hfin₁
        cases hfin₁
        unfold saveManifest
        split
        · exact ⟨_, _, hkeep _ rfl hwrite, Nat.le_succ _, Or.inl rfl, fun he => by cases he⟩
        · generalize hinfo : (⟨w'.tableMeta db.nextSstableId 0, .openFile file⟩ : SSTableInfo) = info at hdisk hwf
          have hid' : info.tableMeta.fileId = db.nextSstableId := by rw [← hinfo]; exact hid
          have hent' : info.reader.entries = m.getSortedEntries := by rw [← hinfo]; exact hent
          have hfl : Flushed db m { db with
              nextSstableId := db.nextSstableId + 1
              levels := setAt db.levels 0 (db.levels 0 ++ [info]) } info :=
            ⟨⟨rfl, Nat.le_succ _⟩, rfl, rfl, hwf, hid', hent'⟩
          exact ⟨_, _, hfl.described h rfl hwrite hdisk, Nat.le_refl _, Or.inr rfl, fun _ => ⟨rfl, rfl⟩⟩

/-- The levels behind a flush are the old ones, or it registered the table of the memtable. -/
theorem flushMemTable_levels (db : DB) {m : MemTable} (hm : m.Valid) (f : FlushFaults) :
    FlushedLevels db.levels (db.flushMemTable m f).1.levels m := by
  by_cases hc : m.count = 0
  · have he : db.flushMemTable m f = (db, .ok ()) := if_pos hc
    rw [he]
    exact fun l info hi => Or.inl hi
  · by_cases hreg : f.Registers m
    · obtain ⟨⟨info, hfl⟩, -⟩ := flushMemTable_registers db hm hc hreg
      intro l i hi
      rcases hfl.mem_levels hi with hi | ⟨-, rfl⟩
      · exact Or.inl hi
      · exact Or.inr hfl.entries
    · rw [(flushMemTable_fails db hm hc hreg).2.1]
      exact fun l info hi => Or.inl hi

/-- Wherever a flush fails, its files describe the old tables, or one more. -/
theorem flushMemTable_described {db : DB} (h : Described db.options db.disk db.levels db.nextSstableId) {m : MemTable}
    (hm : m.Valid) (f : FlushFaults) : ∃ levels next,
      Described db.options (db.flushMemTable m f).1.disk levels next ∧ next ≤ (db.flushMemTable m f).1.nextSstableId ∧
      FlushedLevels db.levels levels m ∧
      ((db.flushMemTable m f).2 = .ok () → levels = (db.flushMemTable m f).1.levels ∧
        next = (db.flushMemTable m f).1.nextSstableId) := by
  obtain ⟨levels, next, hd, hle, hl, hok⟩ := flushMemTable_describes h hm f
  refine ⟨levels, next, hd, hle, ?_, hok⟩
  rcases hl with rfl | rfl
  · exact fun l info hi => Or.inl hi
  · exact flushMemTable_levels db hm f

/-! ## The outputs of a merge -/

/-- Only new table files were written since `db₀`. -/
structure NewTables (db₀ db : DB) : Prop where
  tables : db₀.OnlyTables db
  keeps : KeepsBelow db₀.nextSstableId db₀.sst db.sst

/-- The tables and the writer of a merge that started in `db₀`. -/
structure Filed (db₀ : DB) (lvl : Nat) (db : DB) (st : MergeState) : Prop extends NewTables db₀ db where
  outputs : ∀ info ∈ st.outputs, OnDisk db.sst (lvl + 1) info ∧ db₀.nextSstableId ≤ info.tableMeta.fileId ∧
    info.tableMeta.fileId < db.nextSstableId
  writer : ∀ fileId w, st.writer = some (fileId, w) → db₀.nextSstableId ≤ fileId ∧ fileId < db.nextSstableId ∧
    fileId ∈ db.sst.dir ∧ w.Counts ∧ ∀ info ∈ st.outputs, info.tableMeta.fileId ≠ fileId

section Merge

variable {db₀ db : DB} {lvl : Nat} {st : MergeState}

/-- A table file behind the old ones. -/
theorem NewTables.write (h : NewTables db₀ db) {fileId : Nat} (hid : db₀.nextSstableId ≤ fileId)
    (file : Option SSTableFile) : NewTables db₀ { db with sst := db.sst.write fileId file } :=
  ⟨h.tables.trans ⟨rfl, Nat.le_refl _⟩, h.keeps.trans (keepsBelow_write hid _)⟩

/-- A new table id. -/
theorem NewTables.allocate (h : NewTables db₀ db) : NewTables db₀ { db with nextSstableId := db.nextSstableId + 1 } :=
  ⟨h.tables.trans ⟨rfl, Nat.le_succ _⟩, h.keeps⟩

/-- A new table file. -/
theorem NewTables.create (h : NewTables db₀ db) : NewTables db₀ { db with
    nextSstableId := db.nextSstableId + 1, sst := db.sst.create db.nextSstableId none } :=
  ⟨h.tables.trans ⟨rfl, Nat.le_succ _⟩, h.keeps.trans (keepsBelow_create h.tables.next _)⟩

theorem Filed.setIters (h : Filed db₀ lvl db st) (iters : List Iterator) :
    Filed db₀ lvl db { st with iters := iters } := ⟨h.toNewTables, h.outputs, h.writer⟩

/-- The end of an output table. -/
theorem Filed.finishOutput (h : Filed db₀ lvl db st) (f : CompactFaults) {fileId : Nat} {w : SSTableWriter}
    (hlo : db₀.nextSstableId ≤ fileId) (hlt : fileId < db.nextSstableId) (hd : fileId ∈ db.sst.dir) (hw : w.Counts)
    (hne : ∀ info ∈ st.outputs, info.tableMeta.fileId ≠ fileId) :
    NewTables db₀ (db.finishOutput f lvl st fileId w).1 ∧ ∀ st',
      (db.finishOutput f lvl st fileId w).2 = .ok st' →
        Filed db₀ lvl (db.finishOutput f lvl st fileId w).1 st' ∧ st'.writer = none := by
  unfold DB.finishOutput
  split
  · exact ⟨h.toNewTables, fun st' he => by cases he⟩
  · split
    · exact ⟨h.toNewTables, fun st' he => by cases he⟩
    · rename_i w' file hf
      have hnew := h.toNewTables.write hlo (some file)
      have hold : ∀ info ∈ st.outputs, OnDisk (db.sst.write fileId (some file)) (lvl + 1) info := by
        intro info hi
        have hdisk := (h.outputs info hi).1
        exact hdisk.congr hdisk.mem (Folder.data_write_of_ne _ (hne info hi) _)
      split
      · exact ⟨hnew, fun st' he => by cases he⟩
      · refine ⟨hnew, fun st' he => ?_⟩
        cases he
        refine ⟨⟨hnew, fun info hi => ?_, fun fileId w he => by cases he⟩, rfl⟩
        rcases List.mem_append.mp hi with hi | hi
        · exact ⟨hold info hi, (h.outputs info hi).2⟩
        · rw [List.mem_singleton.mp hi]
          exact ⟨hw.onDisk hf hd (lvl + 1), hlo, hlt⟩

/-- An entry goes to the output. -/
theorem Filed.putEntry (h : Filed db₀ lvl db st) (f : CompactFaults) (key : Key) (e : InternalEntry) :
    NewTables db₀ (db.putEntry f lvl st key e).1 ∧ ∀ st', (db.putEntry f lvl st key e).2 = .ok st' →
      Filed db₀ lvl (db.putEntry f lvl st key e).1 st' := by
  -- the current writer: an open one, or a new one in a new file
  have hcur : NewTables db₀ (db.currentWriter f st).1 ∧ ∀ fileId w,
      (db.currentWriter f st).2 = .ok (fileId, w) → Filed db₀ lvl (db.currentWriter f st).1
        { st with writer := some (fileId, w) } := by
    unfold currentWriter
    split
    · rename_i x hx
      refine ⟨h.toNewTables, fun fileId w he => ?_⟩
      cases he
      have hst : ({ st with writer := some (fileId, w) } : MergeState) = st := by rw [← hx]
      rw [hst]
      exact h
    · simp only
      split
      · exact ⟨h.toNewTables.allocate, fun fileId w he => by cases he⟩
      · refine ⟨h.toNewTables.create, fun fileId w he => ?_⟩
        cases he
        refine ⟨h.toNewTables.create, fun info hi => ?_, fun fileId w he => ?_⟩
        · obtain ⟨hdisk, h₁, h₂⟩ := h.outputs info hi
          have hne : info.tableMeta.fileId ≠ db.nextSstableId := h₂.ne
          exact ⟨hdisk.congr (Folder.mem_dir_create.mpr (Or.inr hdisk.mem)) (Folder.data_create_of_ne _ hne _), h₁,
            h₂.trans (Nat.lt_succ_self _)⟩
        · cases he
          exact ⟨h.tables.next, Nat.lt_succ_self _, Folder.mem_dir_create.mpr (Or.inl rfl), ⟨rfl, rfl⟩,
            fun info hi => (h.outputs info hi).2.2.ne⟩
  unfold DB.putEntry
  generalize db.currentWriter f st = c at hcur
  obtain ⟨db₁, r⟩ := c
  obtain ⟨hrest, hok⟩ := hcur
  cases r with
  | error s => exact ⟨hrest, fun st' he => by cases he⟩
  | ok x =>
    obtain ⟨fileId, w⟩ := x
    have hfiled := hok fileId w rfl
    obtain ⟨h₁, h₂, h₃, h₄, h₅⟩ := hfiled.writer fileId w rfl
    simp only
    split
    · exact ⟨hrest, fun st' he => by cases he⟩
    · split
      · exact ⟨hrest, fun st' he => by cases he⟩
      · rename_i w' ha
        split
        · have hst : Filed db₀ lvl db₁ { st with writer := none } :=
            ⟨hfiled.toNewTables, hfiled.outputs, fun fileId w he => by cases he⟩
          have hfin := hst.finishOutput f h₁ h₂ h₃ (h₄.add ha) h₅
          have heq : db₁.finishOutput f lvl { st with writer := none } fileId w' = db₁.finishOutput f lvl st fileId w' := by
            unfold DB.finishOutput
            rfl
          rw [heq] at hfin
          exact ⟨hfin.1, fun st' he => (hfin.2 st' he).1⟩
        · refine ⟨hrest, fun st' he => ?_⟩
          cases he
          refine ⟨hfiled.toNewTables, hfiled.outputs, fun fileId w he => ?_⟩
          cases he
          exact ⟨h₁, h₂, h₃, h₄.add ha, h₅⟩

/-- **The merge loop** files its outputs, and leaves the older files alone. -/
theorem Filed.mergeLoop (f : CompactFaults) : ∀ (n : Nat) (db : DB) (st : MergeState), Filed db₀ lvl db st →
    NewTables db₀ (DB.mergeLoop f lvl n db st).1 ∧ ∀ st', (DB.mergeLoop f lvl n db st).2 = .ok st' →
      Filed db₀ lvl (DB.mergeLoop f lvl n db st).1 st'
  | 0, db, st, h => ⟨h.toNewTables, fun st' he => by cases he; exact h⟩
  | n + 1, db, st, h => by
    rw [DB.mergeLoop]
    split
    · -- the end of the merge
      unfold mergeEnd
      split
      · exact ⟨h.toNewTables, fun st' he => by cases he; exact h⟩
      · rename_i fileId w hw
        obtain ⟨h₁, h₂, h₃, h₄, h₅⟩ := h.writer fileId w hw
        obtain ⟨g₁, g₂⟩ := h.finishOutput f h₁ h₂ h₃ h₄ h₅
        exact ⟨g₁, fun st' he => (g₂ st' he).1⟩
    · rename_i key e _
      have hround : NewTables db₀ (db.mergeRound f lvl st key e (db.dropEntry f lvl key e)).1 ∧ ∀ st',
          (db.mergeRound f lvl st key e (db.dropEntry f lvl key e)).2 = .ok st' →
            Filed db₀ lvl (db.mergeRound f lvl st key e (db.dropEntry f lvl key e)).1 st' := by
        unfold mergeRound
        split
        · refine ⟨h.toNewTables, fun st' he => ?_⟩
          cases he
          exact h.setIters _
        · obtain ⟨g₁, g₂⟩ := h.putEntry f key e
          generalize db.putEntry f lvl st key e = r at g₁ g₂
          obtain ⟨db₁, r⟩ := r
          cases r with
          | error s => exact ⟨g₁, fun st' he => by cases he⟩
          | ok st₁ =>
            refine ⟨g₁, fun st' he => ?_⟩
            cases he
            exact (g₂ st₁ rfl).setIters _
      generalize db.mergeRound f lvl st key e (db.dropEntry f lvl key e) = r at hround
      obtain ⟨db₁, r⟩ := r
      cases r with
      | error s => exact ⟨hround.1, fun st' he => by cases he⟩
      | ok st₁ => exact Filed.mergeLoop f n db₁ st₁ (hround.2 st₁ rfl)

/-- The merge of a compaction writes new table files, and ends with the outputs on disk. -/
theorem filed_merge {db : DB} {lvl n : Nat} {f : CompactFaults} {its : List Iterator} {db₁ : DB}
    {r : Except Status MergeState} (hm : mergeLoop f lvl n db { iters := its } = (db₁, r)) :
    NewTables db db₁ ∧ ∀ st, r = .ok st → Filed db lvl db₁ st := by
  have hstart : Filed db lvl db { iters := its } :=
    ⟨⟨OnlyTables.refl db, KeepsBelow.refl _ _⟩, fun info hi => absurd hi List.not_mem_nil, fun fileId w he => by cases he⟩
  have hloop := hstart.mergeLoop f n
  rw [hm] at hloop
  exact hloop

end Merge

/-- A compaction changes the index at most. -/
theorem onlyIndex_compact (db : DB) (lvl : Int) (f : CompactFaults) : db.OnlyIndex (db.compactLevel lvl f).1 := by
  unfold DB.compactLevel
  split
  · exact OnlyIndex.refl db
  have hcourse := compactTables_course db lvl.toNat f
  generalize db.compactTables lvl.toNat f = x at hcourse ⊢
  cases hcourse with
  | empty => exact OnlyIndex.refl db
  | unopened => exact OnlyIndex.refl db
  | stopped h ho hm => exact (filed_merge hm).1.tables.onlyIndex
  | unsaved h ho hm => exact (filed_merge hm).1.tables.setLevels _
  | @installed its db₁ db₂ st h ho hm hf hs =>
    have hinst := (filed_merge hm).1.tables.setLevels
      (db₁.levels.install lvl.toNat (db.levels lvl.toNat) (db.inputsNext lvl.toNat (db.levels lvl.toNat)) st.outputs)
    have hsaved : db.OnlyIndex db₂ := hs ▸ hinst.trans (saveManifest_spec _ false).1
    exact hsaved.trans ⟨rfl, Nat.le_refl _⟩

/-! ## Compactions -/

/-- The levels behind a compaction hold old entries only. -/
theorem compactTables_levels {db : DB} (hw : db.levels.Wf db.options.maxSstableLevels)
    (hids : ∀ l, ∀ info ∈ db.levels l, info.tableMeta.fileId < db.nextSstableId) {lvl : Nat}
    (hlt : lvl + 1 < db.options.maxSstableLevels) (f : CompactFaults) :
    (db.compactTables lvl f).1.levels.Wf db.options.maxSstableLevels ∧
      ∀ l, ∀ info ∈ (db.compactTables lvl f).1.levels l, ∀ p ∈ info.reader.entries,
        ∃ l', ∃ info' ∈ db.levels l', p ∈ info'.reader.entries := by
  obtain ⟨-, hres, -⟩ := compactTables_spec hw hids hlt f
  split at hres
  · obtain ⟨outputs, hr⟩ := hres
    have hwf := hr.installs.wf hw
    rw [hr.levels]
    refine ⟨hwf, fun l info hi p hp => ?_⟩
    rcases Levels.mem_install hw hi with ⟨hm, -⟩ | ⟨-, hm⟩
    · exact ⟨l, info, hm, hp⟩
    · -- an entry of an output is the newest one that the inputs deliver
      have hl : lookup p.1 (Levels.entriesOf outputs) = some p.2 :=
        hr.done.sorted.lookup_eq_some_iff.mpr (List.mem_flatMap.mpr ⟨info, hm, hp⟩)
      rcases hr.done.keys p.1 with ⟨hk, -⟩ | ⟨hk, -⟩
      · obtain ⟨hin, -⟩ := Versions.bestOf_spec (hk.symm.trans hl)
        obtain ⟨info', hi', he⟩ := mem_deliveredRuns 0 hin (mem_inputs hw rfl lvl)
        have hp' : p ∈ info'.reader.entries := mem_of_lookup he
        rcases List.mem_append.mp hi' with hi' | hi'
        · exact ⟨lvl, info', hi', hp'⟩
        · exact ⟨lvl + 1, info', (List.mem_filter.mp hi').1, hp'⟩
      · rw [hl] at hk
        cases hk
  · rw [hres]
    exact ⟨hw, fun l info hi p hp => ⟨l, info, hi, hp⟩⟩

theorem mem_dir_deleteInputs (db : DB) (f : CompactFaults) (inputs : List SSTableInfo) {id : Nat}
    (hid : id ∈ db.sst.dir) (hne : ∀ input ∈ inputs, id ≠ input.tableMeta.fileId) :
    id ∈ (db.deleteInputs f inputs).sst.dir ∧ (db.deleteInputs f inputs).sst.data = db.sst.data := by
  unfold deleteInputs
  simp only
  generalize db.sst = sst at hid
  induction inputs generalizing sst with
  | nil => exact ⟨hid, rfl⟩
  | cons input inputs ih =>
    rw [List.foldl_cons]
    have ih := ih (fun i hi => hne i (List.mem_cons_of_mem _ hi))
    split
    · exact ih sst hid
    · exact ih _ (Folder.mem_dir_remove.mpr ⟨hid, hne input List.mem_cons_self⟩)

/-- The installed levels are described when the manifest is replaced, and while the inputs are deleted. -/
theorem described_install {db db₁ : DB} (h : Described db.options db.disk db.levels db.nextSstableId) {lvl : Nat}
    {st : MergeState} (hf : Filed db lvl db₁ st) {levels : Levels}
    (hl : levels = db.levels.install lvl (db.levels lvl) (db.inputsNext lvl (db.levels lvl)) st.outputs)
    (hwf : levels.Wf db.options.maxSstableLevels) (f : CompactFaults) {db₂ : DB} (hs : db₂.sst = db₁.sst)
    (hm : db₂.manifest = some (encodeManifest db₁.nextSstableId (manifestLines levels db.options.maxSstableLevels))) :
    Described db.options (db₂.deleteInputs f (db.levels lvl ++ db.inputsNext lvl (db.levels lvl))).disk levels
      db₁.nextSstableId := by
  -- an old table that is left has an id of its own, and the outputs have new ones
  have hmem : ∀ l, ∀ info ∈ levels l, OnDisk db₁.sst l info ∧ info.tableMeta.fileId < db₁.nextSstableId ∧
      (∀ input ∈ db.levels lvl ++ db.inputsNext lvl (db.levels lvl),
        info.tableMeta.fileId ≠ input.tableMeta.fileId) ∧
      (info ∈ db.levels l ∨ l = lvl + 1 ∧ db.nextSstableId ≤ info.tableMeta.fileId) := by
    intro l info hi
    rw [hl] at hi
    have hinput : ∀ input ∈ db.levels lvl ++ db.inputsNext lvl (db.levels lvl),
        input ∈ db.levels lvl ∨ input ∈ db.levels (lvl + 1) := by
      intro input hin
      exact (List.mem_append.mp hin).imp_right fun hin => (List.mem_filter.mp hin).1
    rcases Levels.mem_install h.wf hi with ⟨hold, hn₁, hn₂⟩ | ⟨rfl, ho⟩
    · have hid := h.ids l info hold
      refine ⟨(h.onDisk l info hold).keep hf.keeps hid, hid.trans_le hf.tables.next, fun input hin he => ?_, Or.inl hold⟩
      have hnot : ∀ inputs : List SSTableInfo, input ∈ inputs → Levels.notInput inputs info ≠ true := by
        intro inputs hin hn
        have := List.all_eq_true.mp hn input hin
        rw [bne_iff_ne] at this
        exact this he
      rcases List.mem_append.mp hin with hin | hin
      · exact hnot _ hin (hn₁ (h.unique l lvl info input hold hin he))
      · have hl' := h.unique l (lvl + 1) info input hold (List.mem_filter.mp hin).1 he
        exact hnot _ hin (hn₂ hl')
    · obtain ⟨hd, hlo, hlt⟩ := hf.outputs info ho
      refine ⟨hd, hlt, fun input hin => ?_, Or.inr ⟨rfl, hlo⟩⟩
      rcases hinput input hin with hin | hin
      · have := h.ids _ input hin
        omega
      · have := h.ids _ input hin
        omega
  refine ⟨Or.inr hm, fun l info hi => ?_, hwf, fun l info hi => (hmem l info hi).2.1, fun l l' a b ha hb he => ?_⟩
  · obtain ⟨hd, -, hne, -⟩ := hmem l info hi
    have hdir : info.tableMeta.fileId ∈ db₂.sst.dir := by
      rw [hs]
      exact hd.mem
    obtain ⟨h₁, h₂⟩ := mem_dir_deleteInputs db₂ f _ hdir hne
    refine hd.congr h₁ ?_
    rw [← hs]
    exact congrFun h₂ _
  · obtain ⟨-, -, -, ha'⟩ := hmem l a ha
    obtain ⟨-, -, -, hb'⟩ := hmem l' b hb
    rcases ha' with ha' | ⟨hla, ha'⟩ <;> rcases hb' with hb' | ⟨hlb, hb'⟩
    · exact h.unique l l' a b ha' hb' he
    · have := h.ids l a ha'
      omega
    · have := h.ids l' b hb'
      omega
    · rw [hla, hlb]

/-- **A compaction**, wherever it fails, leaves files that describe the old levels or the new ones. -/
theorem compactTables_describes {db : DB} (h : Described db.options db.disk db.levels db.nextSstableId) {lvl : Nat}
    (hlt : lvl + 1 < db.options.maxSstableLevels) (f : CompactFaults) : ∃ levels next,
      Described db.options (db.compactTables lvl f).1.disk levels next ∧
      next ≤ (db.compactTables lvl f).1.nextSstableId ∧
      (levels = db.levels ∨ levels = (db.compactTables lvl f).1.levels) ∧
      ((db.compactTables lvl f).2 = .ok () → levels = (db.compactTables lvl f).1.levels ∧
        next = (db.compactTables lvl f).1.nextSstableId) := by
  obtain ⟨hwf, -⟩ := compactTables_levels h.wf h.ids hlt f
  have hcourse := compactTables_course db lvl f
  generalize db.compactTables lvl f = x at hwf hcourse ⊢
  -- until the manifest is replaced, the files describe the old levels
  have hold : ∀ {db₁ : DB}, NewTables db db₁ → Described db.options db₁.disk db.levels db.nextSstableId := by
    intro db₁ hnew
    have hman : db₁.manifest = db.manifest := by rw [hnew.tables.same]
    exact h.keep hman hnew.keeps
  cases hcourse with
  | empty => exact ⟨_, _, h, Nat.le_refl _, Or.inl rfl, fun _ => ⟨rfl, rfl⟩⟩
  | unopened => exact ⟨_, _, h, Nat.le_refl _, Or.inl rfl, fun he => by cases he⟩
  | stopped hne hits hm =>
    obtain ⟨hnew, -⟩ := filed_merge hm
    exact ⟨_, _, hold hnew, hnew.tables.next, Or.inl rfl, fun he => by cases he⟩
  | unsaved hne hits hm =>
    obtain ⟨hnew, -⟩ := filed_merge hm
    have hdesc := hold hnew
    exact ⟨_, _, hdesc, hnew.tables.next, Or.inl rfl, fun he => by cases he⟩
  | @installed its db₁ db₂ st hne hits hm hf hs =>
    obtain ⟨hnew, hfiled⟩ := filed_merge hm
    have hl : db₁.levels = db.levels := hnew.tables.levels
    have ho : db₁.options = db.options := hnew.tables.options
    subst hs
    refine ⟨_, _, described_install h (hfiled st rfl) ?_ hwf f rfl ?_, Nat.le_refl _, Or.inr rfl, fun _ => ⟨rfl, rfl⟩⟩
    · exact congrArg (fun L : Levels => L.install lvl (db.levels lvl) (db.inputsNext lvl (db.levels lvl)) st.outputs) hl
    · rw [← ho]
      rfl

/-- Wherever a compaction fails, its files describe tables with old entries. -/
theorem compactTables_described {db : DB} (h : Described db.options db.disk db.levels db.nextSstableId) {lvl : Nat}
    (hlt : lvl + 1 < db.options.maxSstableLevels) (f : CompactFaults) : ∃ levels next,
      Described db.options (db.compactTables lvl f).1.disk levels next ∧
      next ≤ (db.compactTables lvl f).1.nextSstableId ∧
      (∀ l, ∀ info ∈ levels l, ∀ p ∈ info.reader.entries, ∃ l', ∃ info' ∈ db.levels l', p ∈ info'.reader.entries) ∧
      ((db.compactTables lvl f).2 = .ok () → levels = (db.compactTables lvl f).1.levels ∧
        next = (db.compactTables lvl f).1.nextSstableId) := by
  obtain ⟨levels, next, hd, hle, hl, hok⟩ := compactTables_describes h hlt f
  refine ⟨levels, next, hd, hle, ?_, hok⟩
  rcases hl with rfl | rfl
  · exact fun l info hi p hp => ⟨l, info, hi, hp⟩
  · exact (compactTables_levels h.wf h.ids hlt f).2

end DB

end SplitKV
