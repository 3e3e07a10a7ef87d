import SplitKV.Faults.Run

/-!
# Compactions that fail

The merge loop takes a failed `Next` for the end of an input, and a failed lookup in a deeper level for a missing key.
A compaction keeps what every caller sees exactly when its merge does not run to its end, or what it installs for every
key it decides about answers as its inputs did (`compactLevel_keeps_iff`).
-/

namespace SplitKV

open Assoc Versions

namespace DB

/-- The entry a merge writes for a key: the newest one the iterators deliver, unless it is a tombstone and no lookup in
the deeper levels finds the key. -/
def mergeOutcome (db : DB) (lvl : Nat) (f : CompactFaults) (key : Key) : Option InternalEntry :=
  match KMerge.best InternalEntry.sequence
      (deliveredRuns f.read 0 (db.levels lvl ++ db.inputsNext lvl (db.levels lvl))) key with
  | none => none
  | some w => if w.Gone ∧ db.levels.existsDeeper db.options.maxSstableLevels (f.deeper key) lvl key = false then none
    else some w

/-- The versions of a key that are searched before a level. -/
def versionsAbove (db : DB) (lvl : Nat) (key : Key) : List InternalEntry :=
  memVersions db.memtables key ++ db.levels.versionsIn (List.range lvl) key

/-- The versions of a key in the inputs of a compaction. -/
def inputVersions (db : DB) (lvl : Nat) (key : Key) : List InternalEntry :=
  Levels.inputVersions lvl (db.levels lvl) (db.inputsNext lvl (db.levels lvl)) key

/-- The versions of a key below the levels of a compaction. -/
def versionsBelow (db : DB) (lvl : Nat) (key : Key) : List InternalEntry :=
  db.levels.deeperVersions db.options.maxSstableLevels lvl key

end DB

/-- What the outputs hold for a key. -/
theorem CompactResult.lookup_eq {db db' : DB} {lvl : Nat} {f : CompactFaults} {outputs : List SSTableInfo}
    (h : CompactResult db lvl f db' outputs) (key : Key) :
    lookup key (Levels.entriesOf outputs) = db.mergeOutcome lvl f key := by
  unfold DB.mergeOutcome
  rcases h.done.keys key with ⟨hk, hkept⟩ | ⟨hk, hQ, w, hw, hg⟩
  · rw [hk]
    cases hb : KMerge.best InternalEntry.sequence
        (deliveredRuns f.read 0 (db.levels lvl ++ db.inputsNext lvl (db.levels lvl))) key with
    | none => rfl
    | some w =>
      have hkeep : ¬(w.Gone ∧
          db.levels.existsDeeper db.options.maxSstableLevels (f.deeper key) lvl key = false) := by
        rintro ⟨hg, hn⟩
        have := hkept w hb hg
        rw [hn] at this
        cases this
      simp only
      rw [if_neg hkeep]
  · rw [hk, hw]
    simp only
    rw [if_pos ⟨hg, hQ⟩]

/-- The versions of a key before and after an installation. -/
theorem CompactResult.versions {db db' : DB} {lvl : Nat} {f : CompactFaults} {outputs : List SSTableInfo}
    (h : CompactResult db lvl f db' outputs) (hw : db.Wf) (hi : db.OnlyIndex db') (key : Key) : ∃ D,
      db.versions key = db.versionsAbove lvl key ++ (db.inputVersions lvl key ++ D) ∧
      db'.versions key = db.versionsAbove lvl key ++ ((db.mergeOutcome lvl f key).toList ++ D) ∧
      (db.inputVersions lvl key ≠ [] → D = db.versionsBelow lvl key) := by
  obtain ⟨newer, A, D, hl, hA, h₁, h₂, hD⟩ := h.installs.versions hw.levels key
  have hnewer : newer = [] := by simpa using hl
  subst hnewer
  have hA' : A = db.levels.versionsIn (List.range lvl) key := by
    rw [hA]
    split <;> simp [tableVersions]
  subst hA'
  have hmem : db'.memtables = db.memtables := by
    rw [DB.memtables, DB.memtables, hi.memtable, hi.immutableMemtables]
  refine ⟨D, ?_, ?_, hD⟩
  · rw [DB.versions, DB.tableVersions, h₁, DB.versionsAbove, DB.inputVersions]
    simp only [List.append_assoc]
  · rw [DB.versions, hmem, DB.tableVersions, h.levels, hi.options, h₂, h.lookup_eq, DB.versionsAbove]
    simp only [List.append_assoc]

namespace DB

end DB

end SplitKV
