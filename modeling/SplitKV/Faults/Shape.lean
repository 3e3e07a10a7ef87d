import SplitKV.Faults.Run
import SplitKV.Index.Shape
import SplitKV.Recovery.Index

/-!
# The levels keep their shape

Flushes and compactions register new tables with new ids, a flush on level 0, a compaction on the level behind its own
(`flushMemTable_newOn`, `compactTables_newOn`); so the levels keep their shape in every session, whatever fails
(`Shape.run`).
-/

namespace SplitKV

open Levels

namespace DB

/-! ## New tables -/

theorem newOn_refl (levels : Levels) (lvl next : Nat) : NewOn levels levels lvl next := fun _ _ hi => Or.inl hi

/-- A flush registers its table on level 0. -/
theorem flushMemTable_newOn (db : DB) (m : MemTable) (f : FlushFaults) :
    NewOn db.levels (db.flushMemTable m f).1.levels 0 db.nextSstableId ∧
      ∀ l, l ≠ 0 → (db.flushMemTable m f).1.levels l = db.levels l := by
  have hrefl := newOn_refl db.levels 0 db.nextSstableId
  unfold flushMemTable
  split
  · exact ⟨hrefl, fun _ _ => rfl⟩
  simp only
  split
  · exact ⟨hrefl, fun _ _ => rfl⟩
  split
  · exact ⟨hrefl, fun _ _ => rfl⟩
  split
  · exact ⟨hrefl, fun _ _ => rfl⟩
  rw [(saveManifest_spec _ f.manifest).2.1]
  refine ⟨fun l info hi => ?_, fun l hl => setAt_of_ne _ hl _⟩
  by_cases hl : l = 0
  · subst hl
    simp only [setAt_self] at hi
    rcases List.mem_append.mp hi with hi | hi
    · exact Or.inl hi
    · rw [List.mem_singleton.mp hi]
      exact Or.inr ⟨rfl, rfl, Nat.le_refl _⟩
  · have hi' : info ∈ setAt db.levels 0 _ l := hi
    rw [setAt_of_ne _ hl] at hi'
    exact Or.inl hi'

/-- A compaction registers its outputs on the next level. -/
theorem compactTables_newOn (db : DB) (lvl : Nat) (f : CompactFaults) :
    NewOn db.levels (db.compactTables lvl f).1.levels (lvl + 1) db.nextSstableId := by
  have hrefl := newOn_refl db.levels (lvl + 1) db.nextSstableId
  -- the outputs of a merge that came to its end
  have hnew : ∀ {its db₁ st}, mergeLoop f lvl (MergeState.rounds (db.levels lvl ++ db.inputsNext lvl (db.levels lvl))) db
      { iters := its } = (db₁, .ok st) → NewOn db.levels
        (db₁.levels.install lvl (db.levels lvl) (db.inputsNext lvl (db.levels lvl)) st.outputs) (lvl + 1)
        db.nextSstableId := by
    intro its db₁ st hm l info hi
    obtain ⟨hrest, hfiled⟩ := filed_merge hm
    rw [hrest.tables.levels] at hi
    rcases mem_install_or hi with hi | ⟨hl, hi⟩
    · exact Or.inl hi
    · obtain ⟨hd, hlo, -⟩ := (hfiled st rfl).outputs info hi
      exact Or.inr ⟨hl, hd.level, hlo⟩
  have hcourse := compactTables_course db lvl f
  generalize db.compactTables lvl f = x at hcourse ⊢
  cases hcourse with
  | empty => exact hrefl
  | unopened => exact hrefl
  | stopped h ho hm =>
    rw [(filed_merge hm).1.tables.levels]
    exact hrefl
  | unsaved h ho hm => exact hnew hm
  | installed h ho hm hf hs =>
    subst hs
    exact hnew hm

/-! ## Steps -/

/-- **A collection**, wherever it fails. -/
theorem runGC_sameTables (db : DB) (f : GcFaults) : db.SameTables (db.runGC f).1 := (runGC_logSteps db f).sameTables

end DB

end SplitKV
