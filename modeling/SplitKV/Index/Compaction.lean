import SplitKV.Index.Merge

/-!
# What a compaction does to the levels

A compaction installs a finished merge of what its iterators delivered, or leaves the levels alone
(`compactTables_spec`). When no read fails, what it does to the versions of a key is a merge of version lists
(`MergeDone.merged`).
-/

namespace SplitKV

open Assoc Levels

namespace DB

/-- Only the tables, the table ids and the manifest changed. -/
structure OnlyIndex (db db' : DB) : Prop where
  same : db' = { db with
    sst := db'.sst, nextSstableId := db'.nextSstableId, levels := db'.levels, manifest := db'.manifest }
  next : db.nextSstableId ≤ db'.nextSstableId

theorem OnlyIndex.refl (db : DB) : OnlyIndex db db := ⟨rfl, Nat.le_refl _⟩

theorem OnlyIndex.trans {a b c : DB} (h : OnlyIndex a b) (h' : OnlyIndex b c) : OnlyIndex a c :=
  ⟨by rw [h'.same, h.same], h.next.trans h'.next⟩

theorem OnlyTables.onlyIndex {db db' : DB} (h : OnlyTables db db') : OnlyIndex db db' :=
  ⟨by rw [h.same], h.next⟩

theorem OnlyTables.setLevels {db db' : DB} (h : OnlyTables db db') (levels : Levels) :
    OnlyIndex db { db' with levels := levels } := ⟨by rw [h.same], h.next⟩

section

variable {db db' : DB}

theorem OnlyIndex.options (h : OnlyIndex db db') : db'.options = db.options := by rw [h.same]
theorem OnlyIndex.vlog (h : OnlyIndex db db') : db'.vlog = db.vlog := by rw [h.same]
theorem OnlyIndex.wal (h : OnlyIndex db db') : db'.wal = db.wal := by rw [h.same]
theorem OnlyIndex.walId (h : OnlyIndex db db') : db'.walId = db.walId := by rw [h.same]
theorem OnlyIndex.memtable (h : OnlyIndex db db') : db'.memtable = db.memtable := by rw [h.same]
theorem OnlyIndex.sequenceNumber (h : OnlyIndex db db') : db'.sequenceNumber = db.sequenceNumber := by rw [h.same]

theorem OnlyIndex.immutableMemtables (h : OnlyIndex db db') : db'.immutableMemtables = db.immutableMemtables := by
  rw [h.same]

end

/-- `SaveManifest` changes the manifest at most. -/
theorem saveManifest_spec (db : DB) (fault : Bool) :
    db.OnlyIndex (db.saveManifest fault).1 ∧ (db.saveManifest fault).1.levels = db.levels ∧
      (db.saveManifest fault).1.nextSstableId = db.nextSstableId := by
  unfold saveManifest
  split
  · exact ⟨OnlyIndex.refl db, rfl, rfl⟩
  · exact ⟨⟨rfl, Nat.le_refl _⟩, rfl, rfl⟩

/-- **The courses of a compaction**: there is nothing to compact, an iterator does not open, the merge stops, the
manifest is not saved, or the inputs are deleted behind it. -/
inductive CompactCourse (db : DB) (lvl : Nat) (f : CompactFaults) : DB × Except Status Unit → Prop
  | empty (h : db.levels lvl = []) : CompactCourse db lvl f (db, .ok ())
  | unopened {s : Status} (h : db.levels lvl ≠ [])
    (ho : openIterators f.read 0 (db.levels lvl ++ db.inputsNext lvl (db.levels lvl)) = .error s) :
    CompactCourse db lvl f (db, .error s)
  | stopped {its : List Iterator} {db₁ : DB} {s : Status} (h : db.levels lvl ≠ [])
    (ho : openIterators f.read 0 (db.levels lvl ++ db.inputsNext lvl (db.levels lvl)) = .ok its)
    (hm : mergeLoop f lvl (MergeState.rounds (db.levels lvl ++ db.inputsNext lvl (db.levels lvl))) db { iters := its } =
      (db₁, .error s)) : CompactCourse db lvl f (db₁, .error s)
  | unsaved {its : List Iterator} {db₁ : DB} {st : MergeState} {s : Status} (h : db.levels lvl ≠ [])
    (ho : openIterators f.read 0 (db.levels lvl ++ db.inputsNext lvl (db.levels lvl)) = .ok its)
    (hm : mergeLoop f lvl (MergeState.rounds (db.levels lvl ++ db.inputsNext lvl (db.levels lvl))) db { iters := its } =
      (db₁, .ok st)) (hf : f.manifest = true) :
    CompactCourse db lvl f ({ db₁ with
      levels := db₁.levels.install lvl (db.levels lvl) (db.inputsNext lvl (db.levels lvl)) st.outputs }, .error s)
  | installed {its : List Iterator} {db₁ db₂ : DB} {st : MergeState} (h : db.levels lvl ≠ [])
    (ho : openIterators f.read 0 (db.levels lvl ++ db.inputsNext lvl (db.levels lvl)) = .ok its)
    (hm : mergeLoop f lvl (MergeState.rounds (db.levels lvl ++ db.inputsNext lvl (db.levels lvl))) db { iters := its } =
      (db₁, .ok st)) (hf : f.manifest = false)
    (hs : db₂ = ({ db₁ with
      levels := db₁.levels.install lvl (db.levels lvl) (db.inputsNext lvl (db.levels lvl)) st.outputs }.saveManifest
      false).1) :
    CompactCourse db lvl f (db₂.deleteInputs f (db.levels lvl ++ db.inputsNext lvl (db.levels lvl)), .ok ())

theorem compactTables_course (db : DB) (lvl : Nat) (f : CompactFaults) :
    CompactCourse db lvl f (db.compactTables lvl f) := by
  unfold compactTables
  by_cases h : db.levels lvl = []
  · simp only [h, if_true]
    exact .empty h
  · simp only [h, if_false]
    cases ho : openIterators f.read 0 (db.levels lvl ++ db.inputsNext lvl (db.levels lvl)) with
    | error s => exact .unopened h ho
    | ok its =>
      simp only
      cases hm : mergeLoop f lvl (MergeState.rounds (db.levels lvl ++ db.inputsNext lvl (db.levels lvl))) db
        { iters := its } with
      | mk db₁ r =>
        cases r with
        | error s => exact .stopped h ho hm
        | ok st =>
          simp only
          cases hf : f.manifest with
          | true => exact .unsaved h ho hm hf
          | false => exact .installed h ho hm hf rfl

end DB

/-! ## The runs of the inputs -/

theorem size_deliveredRuns_le (read : Nat → Nat → Option Status) (infos : List SSTableInfo) :
    ∀ i, KMerge.size (deliveredRuns read i infos) ≤ (infos.map (fun info => info.reader.entries.length)).sum := by
  induction infos with
  | nil => exact fun _ => Nat.le_refl _
  | cons info infos ih =>
    intro i
    have h₁ := (delivered_isInitial (read i) 0 info.reader.entries).length_le
    have h₂ := ih (i + 1)
    simp only [KMerge.size, deliveredRuns, List.map_cons, List.sum_cons] at h₂ ⊢
    omega

theorem size_filter_le (runs : List (List (Key × InternalEntry))) :
    KMerge.size (runs.filter (fun l => !l.isEmpty)) ≤ KMerge.size runs := by
  induction runs with
  | nil => exact Nat.le_refl _
  | cons l runs ih =>
    rw [List.filter_cons]
    split
    · simpa [KMerge.size] using ih
    · simp only [KMerge.size, List.map_cons, List.sum_cons] at ih ⊢
      omega

/-- A delivered entry is an entry of an input. -/
theorem mem_deliveredRuns {read : Nat → Nat → Option Status} {infos : List SSTableInfo} {key : Key} {e : InternalEntry} :
    ∀ i, some e ∈ (deliveredRuns read i infos).map (lookup key) → (∀ info ∈ infos, info.Wf) →
      ∃ info ∈ infos, info.version key = some e := by
  induction infos with
  | nil => exact fun i h => absurd h List.not_mem_nil
  | cons info infos ih =>
    intro i h hw
    rw [deliveredRuns, List.map_cons] at h
    rcases List.mem_cons.mp h with h | h
    · refine ⟨info, List.mem_cons_self, ?_⟩
      have hs := (hw info List.mem_cons_self).reader.sorted
      exact hs.lookup_eq_some_iff.mpr ((delivered_isInitial _ _ _).subset (mem_of_lookup h.symm))
    · obtain ⟨j, hj, he⟩ := ih (i + 1) h (fun j hj => hw j (List.mem_cons_of_mem _ hj))
      exact ⟨j, List.mem_cons_of_mem _ hj, he⟩

theorem mem_inputVersions {lvl : Nat} {inputsLvl inputsNext : List SSTableInfo} {key : Key} {e : InternalEntry} :
    e ∈ inputVersions lvl inputsLvl inputsNext key ↔
      ∃ info ∈ inputsLvl ++ inputsNext, info.version key = some e := by
  rw [inputVersions, List.mem_append, mem_inputVersions_lvl, mem_tableVersions]
  simp only [List.mem_append]
  constructor
  · rintro (⟨i, hi, he⟩ | ⟨i, hi, he⟩)
    · exact ⟨i, Or.inl hi, he⟩
    · exact ⟨i, Or.inr hi, he⟩
  · rintro ⟨i, hi | hi, he⟩
    · exact Or.inl ⟨i, hi, he⟩
    · exact Or.inr ⟨i, hi, he⟩

theorem MergeDone.congr {runs runs' : List (List (Key × InternalEntry))} {Q K : Key → Prop} {outputs : List SSTableInfo}
    (h : MergeDone runs Q K outputs)
    (he : ∀ key, KMerge.best InternalEntry.sequence runs' key = KMerge.best InternalEntry.sequence runs key) :
    MergeDone runs' Q K outputs :=
  ⟨h.outputsWf, h.sorted, fun key => by rw [he]; exact h.keys key⟩

/-- The newest entry that the inputs hold for a key. -/
theorem best_spec {infos : List SSTableInfo} {key : Key} {w : InternalEntry}
    (h : KMerge.best InternalEntry.sequence (infos.map (fun info => info.reader.entries)) key = some w) :
    (∃ info ∈ infos, info.version key = some w) ∧
      ∀ info ∈ infos, ∀ b, info.version key = some b → b.sequence ≤ w.sequence := by
  have hm : (infos.map (fun info => info.reader.entries)).map (lookup key) = infos.map (fun info => info.version key) := by
    rw [List.map_map]
    rfl
  rw [KMerge.best, hm] at h
  obtain ⟨h₁, h₂⟩ := Versions.bestOf_spec h
  obtain ⟨info, hi, he⟩ := List.mem_map.mp h₁
  exact ⟨⟨info, hi, he⟩, fun j hj b hb => h₂ b (hb ▸ List.mem_map_of_mem hj)⟩

/-- **Merging complete inputs** is a merge step on the versions of every key. -/
theorem MergeDone.merged {lvl : Nat} {inputsLvl inputsNext outputs : List SSTableInfo} {Q K : Key → Prop}
    (h : MergeDone ((inputsLvl ++ inputsNext).map (fun info => info.reader.entries)) Q K outputs) (key : Key)
    {A D : List InternalEntry} (hD : inputVersions lvl inputsLvl inputsNext key ≠ [] → Q key → D = []) :
    Versions.Merged InternalEntry.sequence InternalEntry.Gone
      (A ++ inputVersions lvl inputsLvl inputsNext key ++ D) (A ++ (lookup key (entriesOf outputs)).toList ++ D) := by
  have hmax : ∀ w, KMerge.best InternalEntry.sequence ((inputsLvl ++ inputsNext).map (fun info => info.reader.entries)) key =
      some w → w ∈ inputVersions lvl inputsLvl inputsNext key ∧
        ∀ b ∈ inputVersions lvl inputsLvl inputsNext key, b.sequence ≤ w.sequence := by
    intro w hw
    obtain ⟨h₁, h₂⟩ := best_spec hw
    refine ⟨mem_inputVersions.mpr h₁, fun b hb => ?_⟩
    obtain ⟨info, hi, he⟩ := mem_inputVersions.mp hb
    exact h₂ info hi b he
  rcases h.keys key with ⟨hk, -⟩ | ⟨hk, hQ, w, hw, hg⟩
  · cases hb : KMerge.best InternalEntry.sequence ((inputsLvl ++ inputsNext).map (fun info => info.reader.entries)) key with
    | none =>
      have hnil : inputVersions lvl inputsLvl inputsNext key = [] := by
        refine List.eq_nil_iff_forall_not_mem.mpr fun e he => ?_
        obtain ⟨info, hi, hv⟩ := mem_inputVersions.mp he
        have := Versions.bestOf_eq_none.mp hb (some e)
          (List.mem_map.mpr ⟨info.reader.entries, List.mem_map.mpr ⟨info, hi, rfl⟩, hv⟩)
        cases this
      rw [hk, hb, hnil]
      simp only [Option.toList_none]
      exact Versions.Merged.refl _
    | some w =>
      obtain ⟨hm, hle⟩ := hmax w hb
      rw [hk, hb, Option.toList_some, List.append_assoc _ [w] D, List.singleton_append]
      exact Versions.Merged.keep A _ D w hm hle
  · obtain ⟨hm, hle⟩ := hmax w hw
    have hnil := hD (List.ne_nil_of_mem hm) hQ
    subst hnil
    rw [hk, Option.toList_none, List.append_nil, List.append_nil, List.append_nil]
    exact Versions.Merged.drop A _ w hm hle hg

/-- A key without an older version in a deeper level. -/
theorem existsDeeper_none {levels : Levels} {maxLevels : Nat} (hw : levels.Wf maxLevels) {lvl : Nat} {key : Key} :
    levels.existsDeeper maxLevels noFails lvl key = false ↔ levels.deeperVersions maxLevels lvl key = [] := by
  rw [existsDeeper, deeperVersions, versionsIn, List.any_eq_false, List.flatMap_eq_nil_iff]
  refine forall₂_congr fun d hd => ?_
  have hd' := mem_drop_range hd
  have hs : levels.searched d = levels d := if_neg (by omega)
  rw [hs, tableVersions_eq_nil, Bool.not_eq_true, List.any_eq_false]
  refine forall₂_congr fun info hi => ?_
  rw [(hw.tables d info hi).lookupTable]
  cases he : info.version key with
  | none => simp
  | some e => simp [(hw.tables d info hi).covers he]

/-! ## The compaction -/

/-- What a compaction of the level installs, when it installs anything. -/
structure CompactResult (db : DB) (lvl : Nat) (f : CompactFaults) (db' : DB) (outputs : List SSTableInfo) : Prop where
  installs : Installs db.levels db.options.maxSstableLevels lvl (db.levels lvl) (db.inputsNext lvl (db.levels lvl)) outputs
  levels : db'.levels = db.levels.install lvl (db.levels lvl) (db.inputsNext lvl (db.levels lvl)) outputs
  done : MergeDone (deliveredRuns f.read 0 (db.levels lvl ++ db.inputsNext lvl (db.levels lvl)))
    (fun key => db.levels.existsDeeper db.options.maxSstableLevels (f.deeper key) lvl key = false)
    (fun key => db.levels.existsDeeper db.options.maxSstableLevels (f.deeper key) lvl key = true) outputs
  ids : ∀ info ∈ outputs, info.tableMeta.fileId < db'.nextSstableId

/-- Finished outputs with fresh table ids can be installed. -/
theorem MergeDone.installs {levels : Levels} {maxLevels lvl : Nat} {read : Nat → Nat → Option Status}
    {inputsLvl inputsNext outputs : List SSTableInfo} {Q K : Key → Prop}
    (h : MergeDone (deliveredRuns read 0 (inputsLvl ++ inputsNext)) Q K outputs) (hw : levels.Wf maxLevels)
    (hlt : lvl + 1 < maxLevels) (hlvl : ∃ newer, levels lvl = inputsLvl ++ newer ∧ (lvl ≠ 0 → newer = []))
    (hnext : inputsNext = overlapping (levels (lvl + 1)) (keyRange inputsLvl))
    (hids : (outputs.map (fun info => info.tableMeta.fileId)).Pairwise (· < ·))
    (hfresh : ∀ o ∈ outputs, ∀ info ∈ levels (lvl + 1), o.tableMeta.fileId ≠ info.tableMeta.fileId) :
    Installs levels maxLevels lvl inputsLvl inputsNext outputs := by
  have hwf : ∀ info ∈ inputsLvl ++ inputsNext, info.Wf := by
    obtain ⟨newer, hl, -⟩ := hlvl
    intro info hi
    rcases List.mem_append.mp hi with hi | hi
    · exact hw.tables lvl info (hl ▸ List.mem_append_left _ hi)
    · rw [hnext] at hi
      exact hw.tables (lvl + 1) info (List.mem_filter.mp hi).1
  refine ⟨hlt, hlvl, hnext, h.outputsWf, h.sorted, ?_, hfresh, fun key hnil => ?_⟩
  · rw [List.pairwise_map] at hids
    exact hids.imp fun hlt => Nat.ne_of_lt hlt
  · rcases h.keys key with ⟨hk, -⟩ | ⟨hk, -⟩
    · rw [hk, KMerge.best, Versions.bestOf_eq_none]
      intro c hc
      cases c with
      | none => rfl
      | some e =>
        obtain ⟨info, hi, he⟩ := mem_deliveredRuns 0 hc hwf
        have hmem : e ∈ inputVersions lvl inputsLvl inputsNext key := mem_inputVersions.mpr ⟨info, hi, he⟩
        rw [hnil] at hmem
        cases hmem
    · exact hk

theorem mem_inputs {levels : Levels} {maxLevels : Nat} (hw : levels.Wf maxLevels) {db : DB} (hl : db.levels = levels)
    (lvl : Nat) : ∀ info ∈ db.levels lvl ++ db.inputsNext lvl (db.levels lvl), info.Wf := by
  intro info hi
  subst hl
  rcases List.mem_append.mp hi with hi | hi
  · exact hw.tables lvl info hi
  · exact hw.tables (lvl + 1) info (List.mem_filter.mp hi).1

/-- The merge of a compaction runs to its end: there are inputs, their iterators open, and no write fails. -/
def DB.merges (db : DB) (lvl : Nat) (f : CompactFaults) : Bool :=
  let inputs := db.levels lvl ++ db.inputsNext lvl (db.levels lvl)
  !(db.levels lvl).isEmpty &&
    match openIterators f.read 0 inputs with
    | .error _ => false
    | .ok its =>
      match DB.mergeLoop f lvl (MergeState.rounds inputs) db { iters := its } with
      | (_, .error _) => false
      | (_, .ok _) => true

/-- **The merge of a compaction** leaves table files behind, and at its end outputs that can be installed. Without faults
it comes to its end. -/
theorem mergeLoop_result {db : DB} (hw : db.levels.Wf db.options.maxSstableLevels)
    (hids : ∀ l, ∀ info ∈ db.levels l, info.tableMeta.fileId < db.nextSstableId) {lvl : Nat}
    (hlt : lvl + 1 < db.options.maxSstableLevels) {f : CompactFaults} {its : List Iterator}
    (ho : openIterators f.read 0 (db.levels lvl ++ db.inputsNext lvl (db.levels lvl)) = .ok its) {db₁ : DB}
    {r : Except Status MergeState} (hm : DB.mergeLoop f lvl
      (MergeState.rounds (db.levels lvl ++ db.inputsNext lvl (db.levels lvl))) db { iters := its } = (db₁, r)) :
    db.OnlyTables db₁ ∧ (∀ st, r = .ok st → ∀ db' : DB,
        db'.levels = db₁.levels.install lvl (db.levels lvl) (db.inputsNext lvl (db.levels lvl)) st.outputs →
        db'.nextSstableId = db₁.nextSstableId → CompactResult db lvl f db' st.outputs) ∧
      (f = .none → ∃ st, r = .ok st) := by
  have hwf := mem_inputs hw rfl lvl
  obtain ⟨ha, hv⟩ := openIterators_ok hwf 0 its ho
  have hsorted : ∀ l ∈ its.map Iterator.view, Sorted l := by
    intro l hl
    rw [hv] at hl
    exact sorted_delivered hwf 0 l (List.mem_filter.mp hl).1
  have hsize : KMerge.size (its.map Iterator.view) <
      MergeState.rounds (db.levels lvl ++ db.inputsNext lvl (db.levels lvl)) := by
    have h₁ := size_filter_le (deliveredRuns f.read 0 (db.levels lvl ++ db.inputsNext lvl (db.levels lvl)))
    have h₂ := size_deliveredRuns_le f.read (db.levels lvl ++ db.inputsNext lvl (db.levels lvl)) 0
    rw [hv, MergeState.rounds]
    omega
  obtain ⟨h₁, h₂, h₃⟩ := mergeLoop_spec f lvl db.levels db.options.maxSstableLevels
    (Q := fun key => db.levels.existsDeeper db.options.maxSstableLevels (f.deeper key) lvl key = false)
    (K := fun key => db.levels.existsDeeper db.options.maxSstableLevels (f.deeper key) lvl key = true)
    (fun _ h => h) (fun _ h => h) db.nextSstableId _ db { iters := its } ∅ rfl rfl
    (MergeInv.start ha hsorted) ⟨List.Pairwise.nil, fun id hid => absurd hid List.not_mem_nil, Nat.le_refl _⟩ hsize
  rw [hm] at h₁ h₂ h₃
  refine ⟨h₁, fun st hr db' hl hn => ?_, h₃⟩
  obtain ⟨hdone, hpair, hrange, -⟩ := h₂ st hr
  rw [hv] at hdone
  have hdone := hdone.congr (fun key => (best_filter _ key).symm)
  have hinst := hdone.installs hw hlt ⟨[], (List.append_nil _).symm, fun _ => rfl⟩ rfl hpair (by
    intro o ho info hi
    have h₁ := hrange o.tableMeta.fileId (List.mem_map_of_mem ho)
    have h₂ := hids (lvl + 1) info hi
    omega)
  refine ⟨hinst, hl.trans (by rw [h₁.levels]), hdone, fun info hi => ?_⟩
  rw [hn]
  exact (hrange _ (List.mem_map_of_mem hi)).2

/-- **A compaction** whose merge runs to its end installs a merge of what the iterators delivered; otherwise it leaves
the levels alone. Without faults it succeeds. -/
theorem compactTables_spec {db : DB} (hw : db.levels.Wf db.options.maxSstableLevels)
    (hids : ∀ l, ∀ info ∈ db.levels l, info.tableMeta.fileId < db.nextSstableId) {lvl : Nat}
    (hlt : lvl + 1 < db.options.maxSstableLevels) (f : CompactFaults) :
    db.OnlyIndex (db.compactTables lvl f).1 ∧
      (if db.merges lvl f = true then ∃ outputs, CompactResult db lvl f (db.compactTables lvl f).1 outputs
        else (db.compactTables lvl f).1.levels = db.levels) ∧
      (f = .none → (db.compactTables lvl f).2 = .ok () ∧ (db.levels lvl ≠ [] → db.merges lvl f = true)) := by
  have hcourse := DB.compactTables_course db lvl f
  generalize db.compactTables lvl f = x at hcourse ⊢
  cases hcourse with
  | empty h =>
    have hno : db.merges lvl f = false := by simp [DB.merges, h]
    rw [if_neg (by simp [hno])]
    exact ⟨DB.OnlyIndex.refl db, rfl, fun _ => ⟨rfl, fun hne => absurd h hne⟩⟩
  | unopened h ho =>
    have hno : db.merges lvl f = false := by simp [DB.merges, ho]
    rw [if_neg (by simp [hno])]
    refine ⟨DB.OnlyIndex.refl db, rfl, fun hf => ?_⟩
    obtain ⟨its, hits⟩ := openIterators_none (mem_inputs hw rfl lvl) 0
    rw [hf] at ho
    exact absurd (ho.symm.trans hits) (by simp)
  | stopped h ho hm =>
    have hno : db.merges lvl f = false := by simp [DB.merges, ho, hm]
    obtain ⟨h₁, -, h₃⟩ := mergeLoop_result hw hids hlt ho hm
    rw [if_neg (by simp [hno])]
    refine ⟨h₁.onlyIndex, h₁.levels, fun hf => ?_⟩
    obtain ⟨st', hst⟩ := h₃ hf
    cases hst
  | unsaved h ho hm hf =>
    have hyes : db.merges lvl f = true := by simp [DB.merges, h, ho, hm]
    obtain ⟨h₁, h₂, -⟩ := mergeLoop_result hw hids hlt ho hm
    rw [if_pos hyes]
    refine ⟨h₁.setLevels _, ⟨_, h₂ _ rfl _ rfl rfl⟩, fun hf' => ?_⟩
    rw [hf'] at hf
    cases hf
  | @installed its db₁ db₂ st h ho hm hf hs =>
    have hyes : db.merges lvl f = true := by simp [DB.merges, h, ho, hm]
    obtain ⟨h₁, h₂, -⟩ := mergeLoop_result hw hids hlt ho hm
    obtain ⟨s₁, s₂, s₃⟩ := DB.saveManifest_spec { db₁ with
      levels := db₁.levels.install lvl (db.levels lvl) (db.inputsNext lvl (db.levels lvl)) st.outputs } false
    rw [← hs] at s₁ s₂ s₃
    have hdel : db₂.OnlyIndex (db₂.deleteInputs f (db.levels lvl ++ db.inputsNext lvl (db.levels lvl))) :=
      ⟨rfl, Nat.le_refl _⟩
    rw [if_pos hyes]
    exact ⟨((h₁.setLevels _).trans s₁).trans hdel, ⟨_, h₂ st rfl _ s₂ s₃⟩, fun _ => ⟨rfl, fun _ => hyes⟩⟩

end SplitKV
