import SplitKV.Store.Flush

/-!
# Compactions keep the invariant

Without faults a compaction is a merge step on the versions of every key (`CompactResult.merged`), so it keeps what is
visible (`compactLevel_spec`, `compactRange_spec`, `autoCompact_spec`).
-/

namespace SplitKV

open Assoc Versions

theorem DB.OnlyIndex.memtables {db db' : DB} (h : db.OnlyIndex db') : db'.memtables = db.memtables := by
  rw [DB.memtables, DB.memtables, h.memtable, h.immutableMemtables]

/-- What a compaction that installed its outputs leaves is well formed. -/
theorem CompactResult.wf {db db' : DB} {lvl : Nat} {f : CompactFaults} {outputs : List SSTableInfo}
    (h : CompactResult db lvl f db' outputs) (hw : db.Wf) (hi : db.OnlyIndex db') : db'.Wf := by
  refine hw.of_index hi (h.levels ▸ h.installs.wf hw.levels) fun l info hm => ?_
  rw [h.levels] at hm
  rcases Levels.mem_install hw.levels hm with ⟨hm, -⟩ | ⟨-, hm⟩
  · exact (hw.ids l info hm).trans_le hi.next
  · exact h.ids info hm

/-- **A compaction without faults** is a merge step below the memtables. -/
theorem CompactResult.merged {db db' : DB} {lvl : Nat} {outputs : List SSTableInfo}
    (h : CompactResult db lvl .none db' outputs) (hw : db.Wf) (hi : db.OnlyIndex db') (key : Key) :
    ∃ P l l', db.versions key = P ++ l ∧ db'.versions key = P ++ l' ∧
      Merged InternalEntry.sequence InternalEntry.Gone l l' := by
  obtain ⟨-, A, D, -, -, h₁, h₂, hD⟩ := h.installs.versions hw.levels key
  refine ⟨memVersions db.memtables key, _, A ++ (lookup key (Levels.entriesOf outputs)).toList ++ D,
    congrArg (memVersions db.memtables key ++ ·) h₁, ?_, ?_⟩
  · rw [DB.versions, DB.tableVersions, h.levels, hi.options, h₂, hi.memtables]
  · have hdone := h.done
    rw [show (CompactFaults.none).read = fun _ _ => Option.none from rfl, deliveredRuns_none] at hdone
    refine hdone.merged key fun hne hQ => ?_
    rw [hD hne]
    exact (existsDeeper_none hw.levels).mp hQ

namespace DB

/-- What a step of the index keeps when it loses nothing. -/
structure SameContents (db db' : DB) : Prop where
  onlyIndex : db.OnlyIndex db'
  wf : db'.Wf
  settled : db'.Settled
  subset : ∀ key, ∀ e ∈ db'.versions key, e ∈ db.versions key
  visible : ∀ key, db'.visible key = db.visible key

theorem SameContents.refl {db : DB} (h : db.Wf) (ho : db.Settled) : db.SameContents db :=
  ⟨OnlyIndex.refl db, h, ho, fun _ _ he => he, fun _ => rfl⟩

theorem SameContents.trans {a b c : DB} (h : a.SameContents b) (h' : b.SameContents c) : a.SameContents c :=
  ⟨h.onlyIndex.trans h'.onlyIndex, h'.wf, h'.settled, fun key e he => h.subset key e (h'.subset key e he),
    fun key => (h'.visible key).trans (h.visible key)⟩

theorem SameContents.vlog {db db' : DB} (h : db.SameContents db') : db'.vlog = db.vlog := h.onlyIndex.vlog

/-- Such a step keeps the invariant and the contents. -/
theorem SameContents.keeps {db db' : DB} (h : db.SameContents db') (hi : db.Inv) {m : Contents} (hr : db.Refines m) :
    db.Keeps db' m m := by
  refine ⟨h.onlyIndex.options, hi.of_index h.wf h.vlog ?_ h.subset, hr.mono h.visible ?_, fun _ => h.settled,
    fun hin => hin.of_index h.vlog h.subset⟩
  · rw [h.onlyIndex.wal]
    exact hi.wal
  · rw [h.vlog]
    exact VLog.Extends.refl _

/-- A merge step below newer versions. -/
theorem sameContents_of_merged {db db' : DB} (ho : db.Settled) (hi : db.OnlyIndex db') (hw : db'.Wf)
    (hm : ∀ key, ∃ P l l', db.versions key = P ++ l ∧ db'.versions key = P ++ l' ∧
      Merged InternalEntry.sequence InternalEntry.Gone l l') : db.SameContents db' := by
  obtain ⟨h₁, h₂, h₃⟩ := SettledBelow.merged ho hm
  refine ⟨hi, hw, ?_, h₃, h₂⟩
  rw [Settled, hi.sequenceNumber]
  exact h₁

/-- **A compaction without faults** succeeds and keeps what is visible. -/
theorem compactTables_none {db : DB} (h : db.Wf) (ho : db.Settled) {lvl : Nat}
    (hlt : lvl + 1 < db.options.maxSstableLevels) :
    (db.compactTables lvl .none).2 = .ok () ∧ db.SameContents (db.compactTables lvl .none).1 := by
  obtain ⟨hi, hres, hnone⟩ := compactTables_spec h.levels h.ids hlt .none
  obtain ⟨hok, hmerges⟩ := hnone rfl
  refine ⟨hok, ?_⟩
  by_cases hnil : db.levels lvl = []
  · rw [compactTables, hnil]
    exact SameContents.refl h ho
  · rw [if_pos (hmerges hnil)] at hres
    obtain ⟨outputs, hr⟩ := hres
    exact sameContents_of_merged ho hi (hr.wf h hi) (hr.merged h hi)

/-- **`CompactLevel`** keeps what is visible. -/
theorem compactLevel_spec {db : DB} (h : db.Wf) (ho : db.Settled) (lvl : Int) :
    db.SameContents (db.compactLevel lvl .none).1 := by
  unfold compactLevel
  split
  · exact SameContents.refl h ho
  · rename_i hl
    exact (compactTables_none h ho (by omega)).2

/-- The loop of `CompactRange`. -/
theorem compactLevels_spec : ∀ (lvls : List Nat) (db : DB), db.Wf → db.Settled →
    db.SameContents (compactLevels (fun _ => .none) lvls db).1
  | [], _, h, ho => SameContents.refl h ho
  | lvl :: lvls, db, h, ho => by
    have hc := compactLevel_spec h ho lvl
    rw [compactLevels]
    split
    · exact compactLevels_spec lvls db h ho
    · generalize db.compactLevel lvl .none = r at hc
      obtain ⟨db₁, r⟩ := r
      cases r with
      | error s => exact hc
      | ok u => exact hc.trans (compactLevels_spec lvls db₁ hc.wf hc.settled)

/-- **`CompactRange`** keeps what is visible. -/
theorem compactRange_spec {db : DB} (h : db.Wf) (ho : db.Settled) :
    db.SameContents (db.compactRange (fun _ => .none)).1 := compactLevels_spec _ db h ho

end DB

end SplitKV
