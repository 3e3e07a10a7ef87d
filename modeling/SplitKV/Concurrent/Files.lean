import SplitKV.Concurrent.Run

/-!
# The table files of the threads

Every table id belongs to one thread, from its allocation to its registration, and the ids of the inputs of a compaction
to the compaction, from its installation on. A section of a thread only writes, registers and deletes tables with its own
ids or new ones (`Sys.Section`, `Sys.Files.step`), so that the files of all registered tables stay on disk.
-/

namespace SplitKV

open Assoc Levels

/-- The files with ids below `next` are still there, except those with the ids `ids`. -/
def KeepsOthers (next : Nat) (ids : List Nat) (sst sst' : Folder (Option SSTableFile)) : Prop :=
  ∀ id < next, id ∉ ids → id ∈ sst.dir → id ∈ sst'.dir ∧ sst'.data id = sst.data id

section

variable {next : Nat} {ids : List Nat} {sst sst' : Folder (Option SSTableFile)}

theorem KeepsOthers.refl (next : Nat) (ids : List Nat) (sst : Folder (Option SSTableFile)) : KeepsOthers next ids sst sst :=
  fun _ _ _ h => ⟨h, rfl⟩

theorem OnDisk.keepOthers {lvl : Nat} {info : SSTableInfo} (h : OnDisk sst lvl info) (hk : KeepsOthers next ids sst sst')
    (hlt : info.tableMeta.fileId < next) (hid : info.tableMeta.fileId ∉ ids) : OnDisk sst' lvl info := by
  obtain ⟨h₁, h₂⟩ := hk _ hlt hid h.mem
  exact h.congr h₁ h₂

end

/-- No table of the levels has the id. -/
def Levels.Free (levels : Levels) (id : Nat) : Prop := ∀ l, ∀ info ∈ levels l, info.tableMeta.fileId ≠ id

/-! ## The files of a merge -/

/-- The outputs of a merge are on disk, and so is the file that is being written. -/
structure Pending (sst : Folder (Option SSTableFile)) (lvl : Nat) (st : MergeState) : Prop where
  outputs : ∀ info ∈ st.outputs, OnDisk sst (lvl + 1) info
  writer : ∀ fileId w, st.writer = some (fileId, w) → fileId ∈ sst.dir ∧ w.Counts

section

variable {db : DB} {lvl : Nat} {st : MergeState}

theorem MergeState.mem_ids_output {info : SSTableInfo} (h : info ∈ st.outputs) : info.tableMeta.fileId ∈ st.ids :=
  List.mem_append_left _ (List.mem_map_of_mem h)

theorem MergeState.mem_ids_writer {fileId : Nat} {w : SSTableWriter} (h : st.writer = some (fileId, w)) :
    fileId ∈ st.ids := by
  rw [MergeState.ids, h]
  exact List.mem_append_right _ (List.mem_singleton.mpr rfl)

theorem Pending.keepOthers {sst sst' : Folder (Option SSTableFile)} (h : Pending sst lvl st) {next : Nat} {ids : List Nat}
    (hk : KeepsOthers next ids sst sst') (hlt : ∀ id ∈ st.ids, id < next) (hid : ∀ id ∈ st.ids, id ∉ ids) :
    Pending sst' lvl st := by
  refine ⟨fun info hi => ?_, fun fileId w he => ⟨?_, (h.writer fileId w he).2⟩⟩
  · have hm := MergeState.mem_ids_output hi
    exact (h.outputs info hi).keepOthers hk (hlt _ hm) (hid _ hm)
  · have hm := MergeState.mem_ids_writer he
    exact (hk _ (hlt _ hm) (hid _ hm) (h.writer fileId w he).1).1

/-- A merge with its files, as one that started when the least of its ids was the next one. -/
theorem Pending.filed (h : Pending db.sst lvl st) {lo : Nat} (hi : IdsFrom lo db st.ids) :
    DB.Filed { db with nextSstableId := lo } lvl db st := by
  obtain ⟨hpair, hrange, hlo⟩ := hi
  refine ⟨⟨⟨rfl, hlo⟩, .refl _ _⟩, fun info hm => ⟨h.outputs info hm, hrange _ (MergeState.mem_ids_output hm)⟩,
    fun fileId w he => ?_⟩
  have hw := hrange _ (MergeState.mem_ids_writer he)
  refine ⟨hw.1, hw.2, (h.writer fileId w he).1, (h.writer fileId w he).2, fun info hm => ?_⟩
  rw [MergeState.ids, he] at hpair
  exact ((List.pairwise_append.mp hpair).2.2 _ (List.mem_map_of_mem hm) _ (List.mem_singleton.mpr rfl)).ne

theorem DB.Filed.pending {db₀ : DB} (h : db₀.Filed lvl db st) : Pending db.sst lvl st :=
  ⟨fun info hi => (h.outputs info hi).1, fun fileId w he =>
    ⟨(h.writer fileId w he).2.2.1, (h.writer fileId w he).2.2.2.1⟩⟩

/-- The end of an output only writes its file. -/
theorem DB.finishOutput_keeps (db : DB) (f : CompactFaults) (lvl : Nat) (st : MergeState) {fileId : Nat} (w : SSTableWriter)
    {next : Nat} {ids : List Nat} (hid : next ≤ fileId ∨ fileId ∈ ids) :
    KeepsOthers next ids db.sst (db.finishOutput f lvl st fileId w).1.sst := by
  unfold DB.finishOutput
  split
  · exact .refl _ _ _
  · split
    · exact .refl _ _ _
    · rename_i w' file hf
      have hwrite : KeepsOthers next ids db.sst (db.sst.write fileId (some file)) := by
        intro id hlt hn hd
        have hne : id ≠ fileId := by
          rintro rfl
          exact hid.elim (fun h => absurd hlt (by omega)) hn
        exact ⟨hd, Folder.data_write_of_ne _ hne _⟩
      split
      · exact hwrite
      · exact hwrite

/-- An entry that goes to the output changes the files of the merge only. -/
theorem DB.putEntry_keeps (db : DB) (lvl : Nat) (st : MergeState) (key : Key) (e : InternalEntry) :
    KeepsOthers db.nextSstableId st.ids db.sst (db.putEntry .none lvl st key e).1.sst := by
  have hcur : KeepsOthers db.nextSstableId st.ids db.sst (db.currentWriter .none st).1.sst ∧ ∀ fileId w,
      (db.currentWriter .none st).2 = .ok (fileId, w) → db.nextSstableId ≤ fileId ∨ fileId ∈ st.ids := by
    unfold DB.currentWriter
    split
    · rename_i x hx
      refine ⟨.refl _ _ _, fun fileId w he => ?_⟩
      cases he
      exact Or.inr (MergeState.mem_ids_writer hx)
    · refine ⟨fun id hlt _ hd => ?_, fun fileId w he => ?_⟩
      · exact ⟨Folder.mem_dir_create.mpr (Or.inr hd), Folder.data_create_of_ne _ hlt.ne _⟩
      · cases he
        exact Or.inl (Nat.le_refl _)
  unfold DB.putEntry
  generalize db.currentWriter .none st = c at hcur
  obtain ⟨db₁, r⟩ := c
  obtain ⟨hkeep, hok⟩ := hcur
  cases r with
  | error s => exact hkeep
  | ok x =>
    obtain ⟨fileId, w⟩ := x
    simp only
    split
    · exact hkeep
    · split
      · exact hkeep
      · rename_i w' ha
        split
        · intro id hlt hn hd
          obtain ⟨hd₁, he₁⟩ := hkeep id hlt hn hd
          obtain ⟨hd₂, he₂⟩ := db₁.finishOutput_keeps .none lvl st w' (hok fileId w rfl) id hlt hn hd₁
          exact ⟨hd₂, he₂.trans he₁⟩
        · exact hkeep

/-- A round of a merge. -/
theorem Pending.round (h : Pending db.sst lvl st) {lo : Nat} (hi : IdsFrom lo db st.ids) (key : Key) (e : InternalEntry)
    (drop : Bool) : KeepsOthers db.nextSstableId st.ids db.sst (db.mergeRound .none lvl st key e drop).1.sst ∧
      ∀ st', (db.mergeRound .none lvl st key e drop).2 = .ok st' →
        Pending (db.mergeRound .none lvl st key e drop).1.sst lvl st' := by
  unfold DB.mergeRound
  cases drop with
  | true =>
    refine ⟨.refl _ _ _, fun st' he => ?_⟩
    cases he
    exact ⟨h.outputs, h.writer⟩
  | false =>
    have hkeep := db.putEntry_keeps lvl st key e
    have hok := ((h.filed hi).putEntry .none key e).2
    simp only [Bool.false_eq_true, if_false]
    generalize db.putEntry .none lvl st key e = r at hkeep hok
    obtain ⟨db', r⟩ := r
    cases r with
    | error s => exact ⟨hkeep, fun st' he => by cases he⟩
    | ok st₁ =>
      refine ⟨hkeep, fun st' he => ?_⟩
      cases he
      have hp := (hok st₁ rfl).pending
      exact ⟨hp.outputs, hp.writer⟩

/-- The end of a merge. -/
theorem Pending.finish (h : Pending db.sst lvl st) {lo : Nat} (hi : IdsFrom lo db st.ids) :
    KeepsOthers db.nextSstableId st.ids db.sst (db.mergeEnd .none lvl st).1.sst ∧
      ∀ st', (db.mergeEnd .none lvl st).2 = .ok st' →
        ∀ info ∈ st'.outputs, OnDisk (db.mergeEnd .none lvl st).1.sst (lvl + 1) info := by
  unfold DB.mergeEnd
  cases hw : st.writer with
  | none =>
    refine ⟨.refl _ _ _, fun st' he => ?_⟩
    cases he
    exact h.outputs
  | some x =>
    obtain ⟨fileId, w⟩ := x
    have hfiled := h.filed hi
    obtain ⟨h₁, h₂, h₃, h₄, h₅⟩ := hfiled.writer fileId w hw
    refine ⟨db.finishOutput_keeps .none lvl st w (Or.inr (MergeState.mem_ids_writer hw)), fun st' he => ?_⟩
    exact ((hfiled.finishOutput .none h₁ h₂ h₃ h₄ h₅).2 st' he).1.pending.outputs

end

/-! ## The ids of the threads -/

/-- A thread that changes tables. -/
inductive Worker
  | flusher
  | compaction (t : Nat)
  deriving DecidableEq

/-- The thread whose section it is, if it changes tables. -/
def Act.worker : Act → Option Worker
  | write _ _ => none
  | flush => some .flusher
  | startCompact t _ => some (.compaction t)
  | compact t => some (.compaction t)

namespace Flusher

/-- The table id that is allocated. -/
def owned : Flusher → List Nat
  | allocated _ fileId => [fileId]
  | _ => []

/-- The section takes the lock of the tables. -/
def locks : Flusher → Bool
  | taken m => decide (m.count ≠ 0)
  | allocated _ _ => true
  | _ => false

/-- The section saves the manifest. -/
def saves : Flusher → Bool
  | registered _ => true
  | _ => false

end Flusher

namespace Compaction

/-- The ids of the outputs, until they are installed, and of the inputs from then on. -/
def owned (c : Compaction) : List Nat :=
  match c.phase with
  | .selected => []
  | .merging _ st => st.ids
  | .checked _ st _ _ _ => st.ids
  | .merged _ outputs => outputs.map fun info => info.tableMeta.fileId
  | .installed inputsNext => (c.inputsLvl ++ inputsNext).map fun info => info.tableMeta.fileId
  | .saved inputsNext => (c.inputsLvl ++ inputsNext).map fun info => info.tableMeta.fileId

/-- The ids whose files the compaction writes or deletes, before it saves the manifest and behind that. -/
def touched (c : Compaction) : List Nat :=
  match c.phase with
  | .installed _ => []
  | _ => c.owned

/-- What the compaction wrote is on disk. -/
def Filed (c : Compaction) (sst : Folder (Option SSTableFile)) : Prop :=
  match c.phase with
  | .merging _ st => Pending sst c.lvl st
  | .checked _ st _ _ _ => Pending sst c.lvl st
  | .merged _ outputs => ∀ info ∈ outputs, OnDisk sst (c.lvl + 1) info
  | _ => True

/-- The tables that the section registers. -/
def registers (c : Compaction) : List Nat :=
  match c.phase with
  | .merged _ outputs => outputs.map fun info => info.tableMeta.fileId
  | _ => []

/-- The section takes the lock of the tables. -/
def locks (c : Compaction) : Bool :=
  match c.phase with
  | .selected => true
  | .merging _ st => match st.pick with | some (_, e) => decide (e.type = .deletion) | none => false
  | .checked _ st _ _ drop => !drop && st.writer.isNone
  | .merged _ _ => true
  | _ => false

/-- The section saves the manifest. -/
def saves (c : Compaction) : Bool :=
  match c.phase with
  | .installed _ => true
  | _ => false

theorem mem_owned_of_touched {c : Compaction} {id : Nat} (h : id ∈ c.touched) : id ∈ c.owned := by
  unfold touched at h
  split at h
  · exact absurd h List.not_mem_nil
  · exact h

theorem Filed.keepOthers {c : Compaction} {sst sst' : Folder (Option SSTableFile)} (h : c.Filed sst) {next : Nat}
    {ids : List Nat} (hk : KeepsOthers next ids sst sst') (hlt : ∀ id ∈ c.owned, id < next)
    (hid : ∀ id ∈ c.owned, id ∉ ids) : c.Filed sst' := by
  obtain ⟨lvl, inputsLvl, phase⟩ := c
  cases phase with
  | merging inputsNext st => exact Pending.keepOthers h hk hlt hid
  | checked inputsNext st key e drop => exact Pending.keepOthers h hk hlt hid
  | merged inputsNext outputs =>
    intro info hi
    have hm : info.tableMeta.fileId ∈ (⟨lvl, inputsLvl, .merged inputsNext outputs⟩ : Compaction).owned :=
      List.mem_map_of_mem hi
    exact OnDisk.keepOthers (h info hi) hk (hlt _ hm) (hid _ hm)
  | _ => trivial

end Compaction

namespace Sys

/-- The table ids that belong to a thread. -/
def owned (s : Sys) : Worker → List Nat
  | .flusher => s.flusher.owned
  | .compaction t => match s.compactions t with | some c => c.owned | none => []

/-- The ids whose files the sections of a thread change, before the manifest is saved and behind that. -/
def touched (s : Sys) : Worker → List Nat
  | .flusher => s.flusher.owned
  | .compaction t => match s.compactions t with | some c => c.touched | none => []

/-- What a thread wrote is on disk. -/
def Filed (s : Sys) : Worker → Prop
  | .flusher => True
  | .compaction t => ∀ c, s.compactions t = some c → c.Filed s.db.sst

/-- The section saves the manifest. -/
def saves (s : Sys) : Act → Bool
  | .flush => s.flusher.saves
  | .compact t => match s.compactions t with | some c => c.saves | none => false
  | _ => false

/-- The tables that the section registers. -/
def registers (s : Sys) : Act → List Nat
  | .flush => s.flusher.owned
  | .compact t => match s.compactions t with | some c => c.registers | none => []
  | _ => []

/-- The section takes the lock of the tables. -/
def locks (s : Sys) : Act → Bool
  | .write _ _ => false
  | .flush => s.flusher.locks
  | .startCompact _ _ => true
  | .compact t => match s.compactions t with | some c => c.locks | none => false

section

variable {s s' : Sys} {a : Act}

theorem mem_owned_of_touched {w : Worker} {id : Nat} (h : id ∈ s.touched w) : id ∈ s.owned w := by
  cases w with
  | flusher => exact h
  | compaction t =>
    cases hc : s.compactions t with
    | none =>
      simp only [touched, hc] at h
      exact absurd h List.not_mem_nil
    | some c =>
      simp only [touched, owned, hc] at h ⊢
      exact Compaction.mem_owned_of_touched h

/-- A section that registers tables takes the lock. -/
theorem locks_of_registers {id : Nat} (h : id ∈ s.registers a) : s.locks a = true := by
  cases a with
  | write sync batch => exact absurd h List.not_mem_nil
  | startCompact t lvl => rfl
  | flush =>
    have h : id ∈ s.flusher.owned := h
    show s.flusher.locks = true
    cases hf : s.flusher with
    | allocated m fileId => rfl
    | _ =>
      rw [hf] at h
      exact absurd h List.not_mem_nil
  | compact t =>
    cases hc : s.compactions t with
    | none =>
      simp only [registers, hc] at h
      exact absurd h List.not_mem_nil
    | some c =>
      simp only [registers, locks, hc] at h ⊢
      unfold Compaction.registers at h
      unfold Compaction.locks
      split at h
      · rename_i hp
        simp only [hp]
      · exact absurd h List.not_mem_nil

end

/-! ## A section -/

/-- The state of the thread is the same. -/
def Same (s s' : Sys) : Worker → Prop
  | .flusher => s'.flusher = s.flusher
  | .compaction t => s'.compactions t = s.compactions t

theorem Same.refl (s : Sys) (w : Worker) : Same s s w := by cases w <;> exact rfl

/-- The ids whose files the section may change. -/
def changed (s : Sys) (a : Act) : List Nat := match a.worker with | some w => s.touched w | none => []

/-- What a section does to tables: it changes files of its thread, and registers tables of its thread; the ids the thread
has behind it were its own, are new, or belonged to tables that it removed. -/
structure Section (s : Sys) (a : Act) (s' : Sys) : Prop where
  options : s'.db.options = s.db.options
  manifest : s'.db.manifest = s.db.manifest
  next : s.db.nextSstableId ≤ s'.db.nextSstableId
  keeps : KeepsOthers s.db.nextSstableId (s.changed a) s.db.sst s'.db.sst
  levels : ∃ lvl, ∀ l, ∀ info ∈ s'.db.levels l, info ∈ s.db.levels l ∨
    l = lvl ∧ info.tableMeta.fileId ∈ s.registers a ∧ info.tableMeta.fileId ∈ s.changed a ∧ OnDisk s'.db.sst l info
  others : ∀ w, a.worker ≠ some w → Same s s' w
  owned : ∀ w, a.worker = some w → ∀ id ∈ s'.owned w, id < s'.db.nextSstableId ∧ s'.db.levels.Free id ∧
    (id ∈ s.owned w ∨ s.db.nextSstableId ≤ id ∨
      s.locks a = true ∧ ∃ l, ∃ info ∈ s.db.levels l, info.tableMeta.fileId = id)
  touched : ∀ w, a.worker = some w → ∀ id ∈ s'.touched w, id ∈ s.touched w ∨ s.db.nextSstableId ≤ id
  filed : ∀ w, a.worker = some w → s'.Filed w

/-- The table files of the threads. -/
structure Files (s : Sys) : Prop where
  onDisk : ∀ l, ∀ info ∈ s.db.levels l, OnDisk s.db.sst l info
  unique : ∀ l l' a b, a ∈ s.db.levels l → b ∈ s.db.levels l' → a.tableMeta.fileId = b.tableMeta.fileId → l = l'
  owned : ∀ w, ∀ id ∈ s.owned w, id < s.db.nextSstableId ∧ s.db.levels.Free id
  disjoint : ∀ w w', w ≠ w' → ∀ id ∈ s.owned w, id ∉ s.owned w'
  filed : ∀ w, s.Filed w

variable {s s' : Sys} {a : Act} {w : Worker}

theorem Same.owned (h : Same s s' w) : s'.owned w = s.owned w := by
  cases w with
  | flusher =>
    have h : s'.flusher = s.flusher := h
    simp only [Sys.owned, h]
  | compaction t =>
    have h : s'.compactions t = s.compactions t := h
    simp only [Sys.owned, h]

theorem Same.touched (h : Same s s' w) : s'.touched w = s.touched w := by
  cases w with
  | flusher => exact Same.owned (w := .flusher) h
  | compaction t =>
    have h : s'.compactions t = s.compactions t := h
    simp only [Sys.touched, h]

theorem mem_changed {id : Nat} (h : id ∈ s.changed a) : ∃ w, a.worker = some w ∧ id ∈ s.touched w := by
  unfold changed at h
  cases hw : a.worker with
  | none =>
    simp only [hw] at h
    exact absurd h List.not_mem_nil
  | some w =>
    simp only [hw] at h
    exact ⟨w, rfl, h⟩

/-- A table that is none of the thread's own stays on disk. -/
theorem Section.onDisk (h : Section s a s') {l : Nat} {info : SSTableInfo} (hd : OnDisk s.db.sst l info)
    (hlt : info.tableMeta.fileId < s.db.nextSstableId)
    (hw : ∀ w, a.worker = some w → info.tableMeta.fileId ∉ s.touched w) : OnDisk s'.db.sst l info := by
  refine hd.keepOthers h.keeps hlt fun hc => ?_
  obtain ⟨w, ha, hm⟩ := mem_changed hc
  exact hw w ha hm

/-- The ids of the tables behind a section. -/
theorem Section.mem_levels (h : Section s a s') {l : Nat} {info : SSTableInfo} (hi : info ∈ s'.db.levels l) :
    info ∈ s.db.levels l ∨ ∃ w, a.worker = some w ∧ info.tableMeta.fileId ∈ s.owned w := by
  obtain ⟨lvl, hl⟩ := h.levels
  rcases hl l info hi with hi | ⟨-, -, hc, -⟩
  · exact Or.inl hi
  · obtain ⟨w, ha, hm⟩ := mem_changed hc
    exact Or.inr ⟨w, ha, mem_owned_of_touched hm⟩

/-- **A section** keeps the table files. -/
theorem Files.step (h : Files s) (hw : s.db.Wf) (hs : Section s a s') : Files s' := by
  have hfree : ∀ {l : Nat} {info : SSTableInfo}, info ∈ s.db.levels l → ∀ w, info.tableMeta.fileId ∉ s.owned w :=
    fun hi w hm => (h.owned w _ hm).2 _ _ hi rfl
  have hfresh : ∀ {w : Worker}, a.worker ≠ some w → ∀ id ∈ s'.owned w, id ∈ s.owned w := fun ha id hm => by
    rwa [(hs.others _ ha).owned] at hm
  refine ⟨fun l info hi => ?_, fun l l' i i' hi hi' he => ?_, fun w id hm => ?_, fun w w' hne id hm hm' => ?_, fun w => ?_⟩
  · obtain ⟨lvl, hl⟩ := hs.levels
    rcases hl l info hi with hi | ⟨-, -, -, hd⟩
    · exact hs.onDisk (h.onDisk l info hi) (hw.ids l info hi) fun w _ hm => hfree hi w (mem_owned_of_touched hm)
    · exact hd
  · -- a registered table has an id that no other table has
    have hcases : ∀ {l : Nat} {info : SSTableInfo}, info ∈ s'.db.levels l → info ∉ s.db.levels l →
        ∀ {l' : Nat} {info' : SSTableInfo}, info' ∈ s.db.levels l' → info.tableMeta.fileId ≠ info'.tableMeta.fileId := by
      intro l info hi hn l' info' hi' he
      rcases hs.mem_levels hi with hi | ⟨w, -, hm⟩
      · exact hn hi
      · exact hfree hi' w (he ▸ hm)
    obtain ⟨lvl, hl⟩ := hs.levels
    by_cases h₁ : i ∈ s.db.levels l
    · by_cases h₂ : i' ∈ s.db.levels l'
      · exact h.unique l l' i i' h₁ h₂ he
      · exact absurd he.symm (hcases hi' h₂ h₁)
    · by_cases h₂ : i' ∈ s.db.levels l'
      · exact absurd he (hcases hi h₁ h₂)
      · rw [((hl l i hi).resolve_left h₁).1, ((hl l' i' hi').resolve_left h₂).1]
  · by_cases ha : a.worker = some w
    · exact ⟨(hs.owned w ha id hm).1, (hs.owned w ha id hm).2.1⟩
    · have hm := hfresh ha id hm
      refine ⟨(h.owned w id hm).1.trans_le hs.next, fun l info hi he => ?_⟩
      rcases hs.mem_levels hi with hi | ⟨w', ha', hm'⟩
      · exact (h.owned w id hm).2 l info hi he
      · exact h.disjoint w w' (fun e => ha (e ▸ ha')) id hm (he ▸ hm')
  · -- an id that the thread gets belongs to no other thread
    have hnew : ∀ {w w' : Worker}, w ≠ w' → a.worker = some w → ∀ id ∈ s'.owned w, id ∉ s.owned w' := by
      intro w w' hne ha id hm hm'
      rcases (hs.owned w ha id hm).2.2 with ho | hn | ⟨-, l, info, hi, rfl⟩
      · exact h.disjoint w w' hne id ho hm'
      · exact absurd (h.owned w' id hm').1 (by omega)
      · exact hfree hi w' hm'
    by_cases ha : a.worker = some w
    · have ha' : a.worker ≠ some w' := fun e => hne (Option.some.inj (ha.symm.trans e))
      exact hnew hne ha id hm (hfresh ha' id hm')
    · by_cases ha' : a.worker = some w'
      · exact hnew (Ne.symm hne) ha' id hm' (hfresh ha id hm)
      · exact h.disjoint w w' hne id (hfresh ha id hm) (hfresh ha' id hm')
  · by_cases ha : a.worker = some w
    · exact hs.filed w ha
    · cases w with
      | flusher => trivial
      | compaction t =>
        intro c hc
        have hsame : s'.compactions t = s.compactions t := hs.others _ ha
        rw [hsame] at hc
        have hown : s.owned (.compaction t) = c.owned := by simp only [Sys.owned, hc]
        refine Compaction.Filed.keepOthers (h.filed (.compaction t) c hc) hs.keeps
          (fun id hm => (h.owned (.compaction t) id (hown ▸ hm)).1) fun id hm hc => ?_
        obtain ⟨w', ha', hm'⟩ := mem_changed hc
        exact h.disjoint (.compaction t) w' (fun e => ha (e ▸ ha')) id (hown ▸ hm) (mem_owned_of_touched hm')

end Sys

end SplitKV
