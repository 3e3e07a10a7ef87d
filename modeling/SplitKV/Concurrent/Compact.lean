import SplitKV.Concurrent.System

/-!
# The sections of a compaction

A compaction relies on little between its sections: its inputs stay on their levels, where level 0 may get newer tables,
and a key without a version below the next level does not get one (`DB.Undisturbed`). Then every section is a merge step
on the versions of every key, or changes no version (`DB.MergeStep`, `DB.compactStep_spec`). `Compaction.Inv` says what a
running compaction has read so far.
-/

namespace SplitKV

open Assoc Levels Versions

namespace DB

/-- The state is well formed and its versions are settled. -/
structure Steady (db : DB) : Prop where
  wf : db.Wf
  settled : db.Settled

theorem Steady.logSteps {db db' : DB} (h : db.Steady) (hs : LogSteps db db') : db'.Steady :=
  ⟨hs.wf h.wf, hs.settled h.wf h.settled⟩

theorem Good.steady {db : DB} (h : db.Good) : db.Steady := ⟨h.wf, h.ordered.settled⟩

/-! ## Merge steps -/

/-- A step that merges versions of the tables, and leaves the logs and the memtables alone. -/
structure MergeStep (db db' : DB) : Prop where
  onlyIndex : db.OnlyIndex db'
  wf : db'.Wf
  merged : ∀ key, Merged InternalEntry.sequence InternalEntry.Gone (db.tableVersions key) (db'.tableVersions key)
  level0 : ∀ info ∈ db'.levels 0, info ∈ db.levels 0

variable {db db' : DB}

theorem tableVersions_congr (hl : db'.levels = db.levels) (ho : db'.options = db.options) (key : Key) :
    db'.tableVersions key = db.tableVersions key := by rw [tableVersions, tableVersions, hl, ho]

/-- A step that leaves the levels alone. -/
theorem mergeStep_of_levels (hw : db.Wf) (hi : db.OnlyIndex db') (hl : db'.levels = db.levels) : db.MergeStep db' where
  onlyIndex := hi
  wf := hw.sameLevels hi hl
  merged := fun key => by
    rw [tableVersions_congr hl hi.options]
    exact Merged.refl _
  level0 := fun info h => by rwa [hl] at h

/-- **A merge step** keeps what is visible. -/
theorem MergeStep.sameContents (h : db.MergeStep db') (hs : db.Settled) : db.SameContents db' := by
  refine sameContents_of_merged hs h.onlyIndex h.wf fun key => ?_
  refine ⟨memVersions db.memtables key, _, _, rfl, ?_, h.merged key⟩
  rw [versions, h.onlyIndex.memtables]

theorem MergeStep.steady (h : db.MergeStep db') (hs : db.Steady) : db'.Steady :=
  ⟨h.wf, (h.sameContents hs.settled).settled⟩

/-- What a compaction of the level needs of the steps of other threads. -/
structure Undisturbed (lvl : Nat) (db db' : DB) : Prop where
  options : db'.options = db.options
  next : db.nextSstableId ≤ db'.nextSstableId
  level : ∃ newer, db'.levels lvl = db.levels lvl ++ newer ∧ (lvl ≠ 0 → newer = [])
  nextLevel : db'.levels (lvl + 1) = db.levels (lvl + 1)
  deeper : ∀ key, db.levels.deeperVersions db.options.maxSstableLevels lvl key = [] →
    db'.levels.deeperVersions db.options.maxSstableLevels lvl key = []

theorem undisturbed_of_levels (ho : db'.options = db.options) (hn : db.nextSstableId ≤ db'.nextSstableId)
    (hl : db'.levels = db.levels) (lvl : Nat) : Undisturbed lvl db db' where
  options := ho
  next := hn
  level := ⟨[], by rw [hl, List.append_nil], fun _ => rfl⟩
  nextLevel := by rw [hl]
  deeper := fun key h => by rwa [hl]

end DB

/-! ## The invariant of a compaction -/

/-- The runs that the iterators of the inputs deliver. -/
def inputRuns (inputs : List SSTableInfo) : List (List (Key × InternalEntry)) :=
  (inputs.map (fun info => info.reader.entries)).filter (fun l => !l.isEmpty)

/-- No level below the next one has a version of the key. -/
def DB.NoneDeeper (db : DB) (lvl : Nat) (key : Key) : Prop :=
  db.levels.deeperVersions db.options.maxSstableLevels lvl key = []

/-- The chosen inputs are still on their level. -/
structure Selected (db : DB) (lvl : Nat) (inputsLvl : List SSTableInfo) : Prop where
  lt : lvl + 1 < db.options.maxSstableLevels
  lvlTables : ∃ newer, db.levels lvl = inputsLvl ++ newer ∧ (lvl ≠ 0 → newer = [])

/-- The inputs of the next level are still the ones that overlap. -/
structure Overlaps (db : DB) (lvl : Nat) (inputsLvl inputsNext : List SSTableInfo) : Prop extends
    Selected db lvl inputsLvl where
  next : inputsNext = overlapping (db.levels (lvl + 1)) (keyRange inputsLvl)

/-- The table ids of the outputs are newer than the tables of the next level. -/
def FreshIds (db : DB) (lvl : Nat) (ids : List Nat) : Prop :=
  ∃ lo, IdsFrom lo db ids ∧ ∀ info ∈ db.levels (lvl + 1), info.tableMeta.fileId < lo

/-- A merge is in progress. -/
structure Merging (db : DB) (lvl : Nat) (inputsLvl inputsNext : List SSTableInfo) (st : MergeState) : Prop extends
    Overlaps db lvl inputsLvl inputsNext where
  merge : ∃ dropped, MergeInv (inputRuns (inputsLvl ++ inputsNext)) (db.NoneDeeper lvl) (fun _ => True) st dropped
  ids : FreshIds db lvl st.ids

/-- The outputs wait for their installation. -/
structure Installable (db : DB) (lvl : Nat) (inputsLvl inputsNext outputs : List SSTableInfo) : Prop extends
    Overlaps db lvl inputsLvl inputsNext where
  done : MergeDone (inputRuns (inputsLvl ++ inputsNext)) (db.NoneDeeper lvl) (fun _ => True) outputs
  ids : FreshIds db lvl (outputs.map (fun info => info.tableMeta.fileId))

namespace Compaction

/-- What a running compaction has read is still right. -/
def Inv (c : Compaction) (db : DB) : Prop :=
  match c.phase with
  | .selected => Selected db c.lvl c.inputsLvl
  | .merging inputsNext st => Merging db c.lvl c.inputsLvl inputsNext st
  | .checked inputsNext st key e drop =>
    Merging db c.lvl c.inputsLvl inputsNext st ∧ st.pick = some (key, e) ∧
      (drop = true → e.Gone ∧ db.NoneDeeper c.lvl key)
  | .merged inputsNext outputs => Installable db c.lvl c.inputsLvl inputsNext outputs
  | .installed _ => True
  | .saved _ => True

/-- The outputs are not installed yet. -/
def active (c : Compaction) : Bool :=
  match c.phase with
  | .installed _ => false
  | .saved _ => false
  | _ => true

end Compaction

/-! ## Steps of other threads -/

section Undisturbed

variable {db db' : DB} {lvl : Nat} {inputsLvl inputsNext outputs : List SSTableInfo}

theorem Selected.undisturbed (h : Selected db lvl inputsLvl) (hu : db.Undisturbed lvl db') : Selected db' lvl inputsLvl := by
  obtain ⟨newer, hl, hn⟩ := h.lvlTables
  obtain ⟨newer', hl', hn'⟩ := hu.level
  refine ⟨hu.options ▸ h.lt, newer ++ newer', ?_, fun h0 => ?_⟩
  · rw [hl', hl, List.append_assoc]
  · rw [hn h0, hn' h0]
    rfl

theorem Overlaps.undisturbed (h : Overlaps db lvl inputsLvl inputsNext) (hu : db.Undisturbed lvl db') :
    Overlaps db' lvl inputsLvl inputsNext :=
  ⟨h.toSelected.undisturbed hu, by rw [hu.nextLevel]; exact h.next⟩

theorem DB.NoneDeeper.undisturbed (hu : db.Undisturbed lvl db') {key : Key} (h : db.NoneDeeper lvl key) :
    db'.NoneDeeper lvl key := by
  rw [DB.NoneDeeper, hu.options]
  exact hu.deeper key h

theorem IdsFrom.mono {lo : Nat} {ids : List Nat} (h : IdsFrom lo db ids) (hn : db.nextSstableId ≤ db'.nextSstableId) :
    IdsFrom lo db' ids :=
  ⟨h.1, fun id hid => ⟨(h.2.1 id hid).1, (h.2.1 id hid).2.trans_le hn⟩, h.2.2.trans hn⟩

theorem FreshIds.undisturbed {ids : List Nat} (h : FreshIds db lvl ids) (hu : db.Undisturbed lvl db') :
    FreshIds db' lvl ids := by
  obtain ⟨lo, hi, hlo⟩ := h
  exact ⟨lo, hi.mono hu.next, by rw [hu.nextLevel]; exact hlo⟩

theorem Merging.undisturbed {st : MergeState} (h : Merging db lvl inputsLvl inputsNext st) (hu : db.Undisturbed lvl db') :
    Merging db' lvl inputsLvl inputsNext st := by
  obtain ⟨dropped, hm⟩ := h.merge
  exact ⟨h.toOverlaps.undisturbed hu, ⟨dropped, hm.mono (fun _ => DB.NoneDeeper.undisturbed hu) (fun _ h => h)⟩,
    h.ids.undisturbed hu⟩

theorem MergeDone.mono {runs : List (List (Key × InternalEntry))} {Q Q' K : Key → Prop}
    (h : MergeDone runs Q K outputs) (hQ : ∀ key, Q key → Q' key) : MergeDone runs Q' K outputs :=
  ⟨h.outputsWf, h.sorted, fun key => (h.keys key).imp_right fun ⟨h₁, h₂, h₃⟩ => ⟨h₁, hQ key h₂, h₃⟩⟩

theorem Installable.undisturbed (h : Installable db lvl inputsLvl inputsNext outputs) (hu : db.Undisturbed lvl db') :
    Installable db' lvl inputsLvl inputsNext outputs :=
  ⟨h.toOverlaps.undisturbed hu, h.done.mono fun _ => DB.NoneDeeper.undisturbed hu, h.ids.undisturbed hu⟩

/-- **A compaction keeps its invariant** while the other threads leave its levels alone. -/
theorem Compaction.Inv.undisturbed {c : Compaction} (h : c.Inv db) (hu : db.Undisturbed c.lvl db') : c.Inv db' := by
  unfold Compaction.Inv at h ⊢
  split at h
  · exact h.undisturbed hu
  · exact h.undisturbed hu
  · exact ⟨h.1.undisturbed hu, h.2.1, fun hd => ⟨(h.2.2 hd).1, (h.2.2 hd).2.undisturbed hu⟩⟩
  · exact h.undisturbed hu
  · trivial
  · trivial

end Undisturbed

/-! ## The sections -/

/-- Compactions of these levels have no level in common. -/
def ApartLevels (l l' : Nat) : Prop := l + 1 < l' ∨ l' + 1 < l

instance (l l' : Nat) : Decidable (ApartLevels l l') := inferInstanceAs (Decidable (_ ∨ _))

theorem ApartLevels.symm {l l' : Nat} (h : ApartLevels l l') : ApartLevels l' l := h.elim Or.inr Or.inl

/-- What a section of a compaction leaves: a merge step, the compaction behind the section, and the levels of other
compactions as they were. -/
structure Stepped (db : DB) (c : Compaction) (db' : DB) (c' : Option Compaction) : Prop where
  merge : db.MergeStep db'
  inv : ∀ c₁, c' = some c₁ → c₁.Inv db'
  lvl : ∀ c₁, c' = some c₁ → c₁.lvl = c.lvl
  active : ∀ c₁, c' = some c₁ → c₁.active = true → c.active = true
  ends : c' = none → ∃ inputsNext, c.phase = .saved inputsNext
  others : ∀ l, (c.active = true → ApartLevels c.lvl l) → db.Undisturbed l db'

section Sections

variable {db db' : DB} {lvl : Nat} {inputsLvl inputsNext outputs : List SSTableInfo}

theorem Overlaps.wf (h : Overlaps db lvl inputsLvl inputsNext) (hw : db.Wf) : ∀ info ∈ inputsLvl ++ inputsNext, info.Wf := by
  obtain ⟨newer, hl, -⟩ := h.lvlTables
  intro info hi
  rcases List.mem_append.mp hi with hi | hi
  · exact hw.levels.tables lvl info (hl ▸ List.mem_append_left _ hi)
  · rw [h.next] at hi
    exact hw.levels.tables (lvl + 1) info (List.mem_filter.mp hi).1

/-- A section that leaves the levels alone, behind which the compaction goes on. -/
theorem stepped_of_levels {c c' : Compaction} (hw : db.Wf) (hi : db.OnlyIndex db') (hl : db'.levels = db.levels)
    (hinv : c'.Inv db') (hlvl : c'.lvl = c.lvl) (ha : c'.active = true → c.active = true) :
    Stepped db c db' (some c') := by
  refine ⟨DB.mergeStep_of_levels hw hi hl, ?_, ?_, ?_, (fun h => by cases h),
    fun l _ => DB.undisturbed_of_levels hi.options hi.next hl l⟩
  · rintro _ ⟨⟩
    exact hinv
  · rintro _ ⟨⟩
    exact hlvl
  · rintro _ ⟨⟩
    exact ha

/-- The iterators of the inputs are opened. -/
theorem Selected.open (h : Selected db lvl inputsLvl) (hw : db.Wf) :
    ∃ its, openIterators (fun _ _ => none) 0 (inputsLvl ++ db.inputsNext lvl inputsLvl) = .ok its ∧
      Merging db lvl inputsLvl (db.inputsNext lvl inputsLvl) { iters := its } := by
  have ho : Overlaps db lvl inputsLvl (db.inputsNext lvl inputsLvl) := ⟨h, rfl⟩
  have hwf := ho.wf hw
  obtain ⟨its, hits⟩ := openIterators_none hwf 0
  obtain ⟨ha, hv⟩ := openIterators_ok hwf 0 its hits
  rw [deliveredRuns_none] at hv
  have hsorted : ∀ l ∈ its.map Iterator.view, Sorted l := by
    intro l hl
    rw [hv] at hl
    obtain ⟨info, hi, rfl⟩ := List.mem_map.mp (List.mem_filter.mp hl).1
    exact (hwf info hi).reader.sorted
  refine ⟨its, hits, ho, ⟨∅, ?_⟩, db.nextSstableId, ⟨List.Pairwise.nil, fun id hid => ?_, Nat.le_refl _⟩, ?_⟩
  · have hstart := MergeInv.start (Q := db.NoneDeeper lvl) (K := fun _ => True) ha hsorted
    rwa [hv] at hstart
  · exact absurd hid List.not_mem_nil
  · exact hw.ids (lvl + 1)

/-- A tombstone is only dropped when no deeper level has a version of its key. -/
theorem noneDeeper_of_drop (hw : db.Wf) {key : Key} {e : InternalEntry} (h : db.dropEntry .none lvl key e = true) :
    e.Gone ∧ db.NoneDeeper lvl key := by
  simp only [DB.dropEntry, Bool.and_eq_true, decide_eq_true_eq, Bool.not_eq_true'] at h
  exact ⟨h.1, (existsDeeper_none hw.levels).mp h.2⟩

/-- A round of the merge. -/
theorem Merging.round {st : MergeState} (h : Merging db lvl inputsLvl inputsNext st) {key : Key} {e : InternalEntry}
    (hp : st.pick = some (key, e)) {drop : Bool} (hd : drop = true → e.Gone ∧ db.NoneDeeper lvl key) :
    ∃ st', db.mergeRound .none lvl st key e drop = ((db.mergeRound .none lvl st key e drop).1, .ok st') ∧
      db.OnlyTables (db.mergeRound .none lvl st key e drop).1 ∧
      Merging (db.mergeRound .none lvl st key e drop).1 lvl inputsLvl inputsNext st' := by
  obtain ⟨dropped, hm⟩ := h.merge
  obtain ⟨ht, hok, hsome⟩ := hm.round db .none lvl hp hd (fun _ _ => trivial)
  obtain ⟨st', hst⟩ := hsome rfl
  obtain ⟨⟨dropped', hm'⟩, hids, -⟩ := hok st' hst
  have hu := DB.undisturbed_of_levels ht.options ht.next ht.levels lvl
  obtain ⟨lo, hlo, hbound⟩ := h.ids
  refine ⟨st', Prod.ext rfl hst, ht, h.toOverlaps.undisturbed hu, ⟨dropped', ?_⟩, lo, hlo.step ht.next hids, ?_⟩
  · exact hm'.mono (fun _ => DB.NoneDeeper.undisturbed hu) (fun _ h => h)
  · rw [ht.levels]
    exact hbound

/-- The end of the merge. -/
theorem Merging.finish {st : MergeState} (h : Merging db lvl inputsLvl inputsNext st) (hp : st.pick = none) :
    ∃ st', db.mergeEnd .none lvl st = ((db.mergeEnd .none lvl st).1, .ok st') ∧
      db.OnlyTables (db.mergeEnd .none lvl st).1 ∧
      Installable (db.mergeEnd .none lvl st).1 lvl inputsLvl inputsNext st'.outputs := by
  obtain ⟨dropped, hm⟩ := h.merge
  obtain ⟨ht, hok, hsome⟩ := hm.finish hp db .none lvl
  obtain ⟨st', hst⟩ := hsome rfl
  obtain ⟨hdone, hids⟩ := hok st' hst
  have hu := DB.undisturbed_of_levels ht.options ht.next ht.levels lvl
  refine ⟨st', Prod.ext rfl hst, ht, h.toOverlaps.undisturbed hu, ?_, ?_⟩
  · exact hdone.mono fun _ => DB.NoneDeeper.undisturbed hu
  · rw [hids]
    exact h.ids.undisturbed hu

/-- The outputs can be installed. -/
theorem Installable.installs (h : Installable db lvl inputsLvl inputsNext outputs) (hw : db.Wf) :
    Installs db.levels db.options.maxSstableLevels lvl inputsLvl inputsNext outputs ∧
      MergeDone ((inputsLvl ++ inputsNext).map (fun info => info.reader.entries)) (db.NoneDeeper lvl) (fun _ => True)
        outputs := by
  have hdone := h.done.congr fun key => (best_filter _ key).symm
  obtain ⟨lo, ⟨hpair, hrange, -⟩, hlo⟩ := h.ids
  refine ⟨?_, hdone⟩
  rw [← deliveredRuns_none 0] at hdone
  refine hdone.installs hw.levels h.lt h.lvlTables h.next hpair fun o ho info hi => ?_
  have h₁ := (hrange o.tableMeta.fileId (List.mem_map_of_mem ho)).1
  have h₂ := hlo info hi
  omega

/-- The state behind the installation. -/
def DB.installed (db : DB) (lvl : Nat) (inputsLvl inputsNext outputs : List SSTableInfo) : DB :=
  { db with levels := db.levels.install lvl inputsLvl inputsNext outputs }

/-- **The installation** is a merge step. -/
theorem Installable.mergeStep (h : Installable db lvl inputsLvl inputsNext outputs) (hw : db.Wf) :
    db.MergeStep (db.installed lvl inputsLvl inputsNext outputs) := by
  obtain ⟨hinst, hdone⟩ := h.installs hw
  have hi : db.OnlyIndex (db.installed lvl inputsLvl inputsNext outputs) := ⟨rfl, Nat.le_refl _⟩
  have hids : ∀ l, ∀ info ∈ (db.installed lvl inputsLvl inputsNext outputs).levels l,
      info.tableMeta.fileId < db.nextSstableId := by
    obtain ⟨lo, ⟨-, hrange, -⟩, -⟩ := h.ids
    intro l info hm
    rcases mem_install hw.levels hm with ⟨hm, -⟩ | ⟨-, hm⟩
    · exact hw.ids l info hm
    · exact (hrange _ (List.mem_map_of_mem hm)).2
  refine ⟨hi, hw.of_index hi (hinst.wf hw.levels) hids, fun key => ?_, fun info hm => ?_⟩
  · obtain ⟨-, A, D, -, -, h₁, h₂, hD⟩ := hinst.versions hw.levels key
    rw [DB.tableVersions, DB.tableVersions, h₁]
    show Merged _ _ _ ((db.levels.install lvl inputsLvl inputsNext outputs).versions db.options.maxSstableLevels key)
    rw [h₂]
    exact hdone.merged key fun hne hQ => (hD hne).trans hQ
  · have hm : info ∈ db.levels.install lvl inputsLvl inputsNext outputs 0 := hm
    rcases mem_install hw.levels hm with ⟨hm, -⟩ | ⟨h0, -⟩
    · exact hm
    · omega

/-- The installation leaves the levels of other compactions alone. -/
theorem Installable.others (h : Installable db lvl inputsLvl inputsNext outputs) (hw : db.Wf) {l : Nat} (hl : ApartLevels lvl l) :
    db.Undisturbed l (db.installed lvl inputsLvl inputsNext outputs) := by
  obtain ⟨hinst, hdone⟩ := h.installs hw
  have hlt := h.lt
  have hne : ∀ k, k ≠ lvl → k ≠ lvl + 1 →
      (db.installed lvl inputsLvl inputsNext outputs).levels k = db.levels k := fun k h₁ h₂ => install_of_ne h₁ h₂
  refine ⟨rfl, Nat.le_refl _, ⟨[], ?_, fun _ => rfl⟩, ?_, fun key hnone => ?_⟩
  · rw [hne l (by rcases hl with hl | hl <;> omega) (by rcases hl with hl | hl <;> omega), List.append_nil]
  · exact hne (l + 1) (by rcases hl with hl | hl <;> omega) (by rcases hl with hl | hl <;> omega)
  · -- what the outputs hold was in the inputs
    refine List.flatMap_eq_nil_iff.mpr fun d hd => ?_
    have hdr := mem_drop_range hd
    have hs : ∀ L : Levels, L.searched d = L d := fun L => if_neg (by omega)
    have hold : ∀ k, l + 2 ≤ k → k < db.options.maxSstableLevels → tableVersions (db.levels k) key = [] := by
      intro k h₁ h₂
      have hk : k ∈ (List.range db.options.maxSstableLevels).drop (l + 2) := by
        rw [List.range_eq_range', List.drop_range', List.mem_range'_1]
        omega
      have := List.flatMap_eq_nil_iff.mp hnone k hk
      rwa [show db.levels.searched k = db.levels k from if_neg (by omega)] at this
    rw [hs]
    refine tableVersions_eq_nil.mpr fun info hi => ?_
    rcases mem_install hw.levels hi with ⟨hi, -⟩ | ⟨hd', hi⟩
    · exact tableVersions_eq_nil.mp (hold d hdr.1 hdr.2) info hi
    · have hnil : inputVersions lvl inputsLvl inputsNext key = [] := by
        refine List.eq_nil_iff_forall_not_mem.mpr fun e he => ?_
        obtain ⟨input, hin, hv⟩ := mem_inputVersions.mp he
        obtain ⟨newer, hlv, -⟩ := h.lvlTables
        rcases List.mem_append.mp hin with hin | hin
        · have := tableVersions_eq_nil.mp (hold lvl (by rcases hl with hl | hl <;> omega) (by omega)) input
            (hlv ▸ List.mem_append_left _ hin)
          rw [hv] at this
          cases this
        · rw [h.next] at hin
          have := tableVersions_eq_nil.mp (hold (lvl + 1) (by rcases hl with hl | hl <;> omega) (by omega)) input
            (List.mem_filter.mp hin).1
          rw [hv] at this
          cases this
      have hout := hinst.keys key hnil
      have := tableVersions_sorted h.done.sorted key
      rw [hout] at this
      exact tableVersions_eq_nil.mp this info hi

/-- **A section of a compaction** is a merge step, and the compaction keeps its invariant. -/
theorem DB.compactStep_spec (hw : db.Wf) {c : Compaction} (h : c.Inv db) :
    Stepped db c (db.compactStep c).1 (db.compactStep c).2 := by
  obtain ⟨lvl, inputsLvl, phase⟩ := c
  cases phase with
  | selected =>
    obtain ⟨its, hits, hm⟩ := Selected.open h hw
    simp only [DB.compactStep, hits]
    exact stepped_of_levels hw (DB.OnlyIndex.refl db) rfl hm rfl fun _ => rfl
  | merging inputsNext st =>
    have h : Merging db lvl inputsLvl inputsNext st := h
    cases hp : st.pick with
    | some x =>
      obtain ⟨key, e⟩ := x
      simp only [DB.compactStep, hp]
      exact stepped_of_levels hw (DB.OnlyIndex.refl db) rfl ⟨h, hp, noneDeeper_of_drop hw⟩ rfl fun _ => rfl
    | none =>
      obtain ⟨st', hst, ht, hf⟩ := h.finish hp
      simp only [DB.compactStep, hp]
      rw [hst]
      exact stepped_of_levels hw ht.onlyIndex ht.levels hf rfl fun _ => rfl
  | checked inputsNext st key e drop =>
    obtain ⟨h, hp, hd⟩ := (h : Merging db lvl inputsLvl inputsNext st ∧ _)
    obtain ⟨st', hst, ht, hm⟩ := h.round hp hd
    simp only [DB.compactStep]
    rw [hst]
    exact stepped_of_levels hw ht.onlyIndex ht.levels hm rfl fun _ => rfl
  | merged inputsNext outputs =>
    have h : Installable db lvl inputsLvl inputsNext outputs := h
    refine ⟨h.mergeStep hw, ?_, ?_, ?_, (fun h => by cases h), fun l hl => h.others hw (hl rfl)⟩
    · rintro _ ⟨⟩
      trivial
    · rintro _ ⟨⟩
      rfl
    · rintro _ ⟨⟩ ha
      cases ha
  | installed inputsNext =>
    obtain ⟨hi, hl, -⟩ := DB.saveManifest_spec db false
    exact stepped_of_levels hw hi hl trivial rfl fun ha => by cases ha
  | saved inputsNext =>
    have hi : db.OnlyIndex (db.compactStep ⟨lvl, inputsLvl, .saved inputsNext⟩).1 := ⟨rfl, Nat.le_refl _⟩
    refine ⟨DB.mergeStep_of_levels hw hi rfl, ?_, ?_, ?_, fun _ => ⟨inputsNext, rfl⟩,
      fun l _ => DB.undisturbed_of_levels hi.options hi.next rfl l⟩
    · rintro _ ⟨⟩
    · rintro _ ⟨⟩
    · rintro _ ⟨⟩

/-- **The first section** of a compaction. -/
theorem DB.startCompact_spec {l : Int} {c : Compaction} (h : db.startCompact l = some c) :
    c.Inv db ∧ c.lvl = l.toNat ∧ c.inputsLvl = db.levels c.lvl ∧ c.active = true := by
  unfold DB.startCompact at h
  split at h
  · cases h
  · rename_i hl
    split at h
    · cases h
    · cases h
      have hlt : l.toNat + 1 < db.options.maxSstableLevels := by omega
      exact ⟨⟨hlt, [], (List.append_nil _).symm, fun _ => rfl⟩, rfl, rfl, rfl⟩

end Sections

end SplitKV
