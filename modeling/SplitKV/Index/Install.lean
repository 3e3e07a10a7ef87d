import SplitKV.DBImpl.Compact
import SplitKV.Index.Tables

/-!
# The installation of a compaction

The outputs of a compaction replace its inputs. For one key, the inputs hold a contiguous block of its versions, and
the installation replaces the block by what the outputs hold (`Installs.versions`): the tables that are older than the
inputs on level 0, and the tables of the next level that do not overlap, hold no version inside the block. The levels
stay well formed (`Installs.wf`).
-/

namespace SplitKV

open Assoc

namespace Levels

/-! ## The key range of the inputs -/

theorem keyRange_foldl (infos : List SSTableInfo) : ∀ r : Key × Key,
    let s := infos.foldl (fun r i =>
      (if i.tableMeta.smallestKey < r.1 then i.tableMeta.smallestKey else r.1,
        if r.2 < i.tableMeta.largestKey then i.tableMeta.largestKey else r.2)) r
    (s.1 ≤ r.1 ∧ r.2 ≤ s.2) ∧ ∀ i ∈ infos, s.1 ≤ i.tableMeta.smallestKey ∧ i.tableMeta.largestKey ≤ s.2 := by
  induction infos with
  | nil => exact fun r => ⟨⟨le_refl _, le_refl _⟩, fun i hi => absurd hi List.not_mem_nil⟩
  | cons info infos ih =>
    intro r
    have hs : (if info.tableMeta.smallestKey < r.1 then info.tableMeta.smallestKey else r.1) ≤ r.1 ∧
        (if info.tableMeta.smallestKey < r.1 then info.tableMeta.smallestKey else r.1) ≤ info.tableMeta.smallestKey := by
      split
      · rename_i h
        exact ⟨h.le, le_refl _⟩
      · rename_i h
        exact ⟨le_refl _, not_lt.mp h⟩
    have hl : r.2 ≤ (if r.2 < info.tableMeta.largestKey then info.tableMeta.largestKey else r.2) ∧
        info.tableMeta.largestKey ≤ (if r.2 < info.tableMeta.largestKey then info.tableMeta.largestKey else r.2) := by
      split
      · rename_i h
        exact ⟨h.le, le_refl _⟩
      · rename_i h
        exact ⟨le_refl _, not_lt.mp h⟩
    obtain ⟨⟨h₁, h₂⟩, hall⟩ := ih
      (if info.tableMeta.smallestKey < r.1 then info.tableMeta.smallestKey else r.1,
        if r.2 < info.tableMeta.largestKey then info.tableMeta.largestKey else r.2)
    refine ⟨⟨h₁.trans hs.1, hl.1.trans h₂⟩, fun i hi => ?_⟩
    rcases List.mem_cons.mp hi with rfl | hi
    · exact ⟨h₁.trans hs.2, hl.2.trans h₂⟩
    · exact hall i hi

/-- The key range contains the range of every table. -/
theorem keyRange_mem {infos : List SSTableInfo} {info : SSTableInfo} (h : info ∈ infos) :
    (keyRange infos).1 ≤ info.tableMeta.smallestKey ∧ info.tableMeta.largestKey ≤ (keyRange infos).2 := by
  cases infos with
  | nil => cases h
  | cons a infos =>
    obtain ⟨⟨h₁, h₂⟩, hall⟩ := keyRange_foldl infos (a.tableMeta.smallestKey, a.tableMeta.largestKey)
    rcases List.mem_cons.mp h with rfl | h
    · exact ⟨h₁, h₂⟩
    · exact hall info h

/-- A table that holds a key of the inputs overlaps them. -/
theorem mem_overlapping {tables inputs : List SSTableInfo} {info input : SSTableInfo} {key : Key}
    (hinfo : info ∈ tables) (hw : info.Wf) (hk : info.version key ≠ none) (hinput : input ∈ inputs) (hwi : input.Wf)
    (hki : input.version key ≠ none) : info ∈ overlapping tables (keyRange inputs) := by
  obtain ⟨e, he⟩ := Option.ne_none_iff_exists'.mp hk
  obtain ⟨e', he'⟩ := Option.ne_none_iff_exists'.mp hki
  have h₁ := hw.le (mem_of_lookup he)
  have h₂ := hwi.le (mem_of_lookup he')
  have hr := keyRange_mem hinput
  refine List.mem_filter.mpr ⟨hinfo, ?_⟩
  simp only [Bool.and_eq_true, decide_eq_true_eq]
  exact ⟨h₁.1.trans (h₂.2.trans hr.2), hr.1.trans (h₂.1.trans h₁.2)⟩

/-! ## Removing the inputs -/

/-- A table is none of the inputs. -/
def notInput (inputs : List SSTableInfo) (info : SSTableInfo) : Bool :=
  inputs.all (fun input => info.tableMeta.fileId != input.tableMeta.fileId)

/-- A table is known by its id. -/
theorem eq_of_fileId {tables : List SSTableInfo}
    (h : tables.Pairwise (fun a b => a.tableMeta.fileId ≠ b.tableMeta.fileId)) {a b : SSTableInfo} (ha : a ∈ tables)
    (hb : b ∈ tables) (he : a.tableMeta.fileId = b.tableMeta.fileId) : a = b := by
  induction tables with
  | nil => cases ha
  | cons info tables ih =>
    obtain ⟨hne, ht⟩ := List.pairwise_cons.mp h
    rcases List.mem_cons.mp ha with ha' | ha' <;> rcases List.mem_cons.mp hb with hb' | hb'
    · rw [ha', hb']
    · exact absurd (ha' ▸ he) (hne b hb')
    · exact absurd (hb' ▸ he.symm) (hne a ha')
    · exact ih ht ha' hb'

theorem eraseInput_eq {tables : List SSTableInfo}
    (h : tables.Pairwise (fun a b => a.tableMeta.fileId ≠ b.tableMeta.fileId)) (input : SSTableInfo) :
    eraseInput tables input = tables.filter (fun info => info.tableMeta.fileId != input.tableMeta.fileId) := by
  induction tables with
  | nil => rfl
  | cons info tables ih =>
    obtain ⟨hne, ht⟩ := List.pairwise_cons.mp h
    rw [eraseInput, List.eraseP_cons, List.filter_cons]
    by_cases he : info.tableMeta.fileId = input.tableMeta.fileId
    · simp only [he, BEq.rfl, cond_true, bne_self_eq_false, Bool.false_eq_true, if_false]
      refine (List.filter_eq_self.mpr fun i hi => ?_).symm
      rw [bne_iff_ne, ← he]
      exact (hne i hi).symm
    · have hb : (info.tableMeta.fileId == input.tableMeta.fileId) = false := by simpa using he
      have hb' : (info.tableMeta.fileId != input.tableMeta.fileId) = true := by simpa using he
      rw [hb, cond_false, if_pos hb', ← ih ht, eraseInput]

/-- Removing the inputs one by one selects the other tables. -/
theorem foldl_eraseInput {tables : List SSTableInfo}
    (h : tables.Pairwise (fun a b => a.tableMeta.fileId ≠ b.tableMeta.fileId)) (inputs : List SSTableInfo) :
    inputs.foldl eraseInput tables = tables.filter (notInput inputs) := by
  induction inputs generalizing tables with
  | nil => exact (List.filter_eq_self.mpr fun _ _ => rfl).symm
  | cons input inputs ih =>
    rw [List.foldl_cons, eraseInput_eq h, ih (h.sublist List.filter_sublist), List.filter_filter]
    refine List.filter_congr fun info _ => ?_
    rw [notInput, notInput, List.all_cons, Bool.and_comm]

theorem perm_sortBySmallest (tables : List SSTableInfo) : (sortBySmallest tables).Perm tables :=
  List.perm_insertionSort _ _

/-- A list of at most one element has no other order. -/
theorem eq_of_perm_of_length_le {α : Type*} {l l' : List α} (h : l.Perm l') (hl : l'.length ≤ 1) : l = l' := by
  rcases Nat.le_one_iff_eq_zero_or_eq_one.mp hl with h0 | h1
  · rw [List.length_eq_zero_iff.mp h0] at h ⊢
    exact h.eq_nil
  · obtain ⟨e, rfl⟩ := List.length_eq_one_iff.mp h1
    exact List.perm_singleton.mp h

/-- When a key has at most one version, the order of the tables does not matter. -/
theorem tableVersions_perm {a b : List SSTableInfo} (h : a.Perm b) {key : Key} (hl : (tableVersions b key).length ≤ 1) :
    tableVersions a key = tableVersions b key := eq_of_perm_of_length_le (h.filterMap _) hl

/-- The entries of some tables, one table behind the other. -/
def entriesOf (tables : List SSTableInfo) : List (Key × InternalEntry) := tables.flatMap (fun info => info.reader.entries)

/-- Tables whose entries form one sorted list hold at most one version of a key. -/
theorem tableVersions_sorted {tables : List SSTableInfo} (h : Sorted (entriesOf tables)) (key : Key) :
    tableVersions tables key = (lookup key (entriesOf tables)).toList := by
  induction tables with
  | nil => rfl
  | cons info tables ih =>
    have h' : Sorted (info.reader.entries ++ entriesOf tables) := h
    obtain ⟨-, ht, hlt⟩ := sorted_append.mp h'
    have ih := ih ht
    rw [show entriesOf (info :: tables) = info.reader.entries ++ entriesOf tables from rfl, lookup_append, tableVersions,
      List.filterMap_cons, ← tableVersions, SSTableInfo.version]
    cases he : lookup key info.reader.entries with
    | none => simpa using ih
    | some e =>
      have hnone : lookup key (entriesOf tables) = none :=
        lookup_eq_none fun p hp => (hlt _ (mem_of_lookup he) p hp).ne'
      rw [ih, hnone]
      rfl

/-! ## The inputs and the outputs of a compaction -/

/-- The versions of a key in the inputs, in search order. -/
def inputVersions (lvl : Nat) (inputsLvl inputsNext : List SSTableInfo) (key : Key) : List InternalEntry :=
  tableVersions (if lvl = 0 then inputsLvl.reverse else inputsLvl) key ++ tableVersions inputsNext key

/-- Inputs and outputs that can be installed. Level 0 may have got newer tables behind the inputs. -/
structure Installs (levels : Levels) (maxLevels lvl : Nat) (inputsLvl inputsNext outputs : List SSTableInfo) : Prop where
  lt : lvl + 1 < maxLevels
  lvlTables : ∃ newer, levels lvl = inputsLvl ++ newer ∧ (lvl ≠ 0 → newer = [])
  next : inputsNext = overlapping (levels (lvl + 1)) (keyRange inputsLvl)
  outputsWf : ∀ info ∈ outputs, info.Wf
  sorted : Sorted (entriesOf outputs)
  ids : outputs.Pairwise (fun a b => a.tableMeta.fileId ≠ b.tableMeta.fileId)
  fresh : ∀ o ∈ outputs, ∀ info ∈ levels (lvl + 1), o.tableMeta.fileId ≠ info.tableMeta.fileId
  keys : ∀ key, inputVersions lvl inputsLvl inputsNext key = [] → lookup key (entriesOf outputs) = none

section Install

variable {levels : Levels} {maxLevels lvl : Nat} {inputsLvl inputsNext outputs : List SSTableInfo}

theorem install_lvl (levels : Levels) (lvl : Nat) (inputsLvl inputsNext outputs : List SSTableInfo) :
    levels.install lvl inputsLvl inputsNext outputs lvl = inputsLvl.foldl eraseInput (levels lvl) := by
  simp [install, setAt]

theorem install_next (levels : Levels) (lvl : Nat) (inputsLvl inputsNext outputs : List SSTableInfo) :
    levels.install lvl inputsLvl inputsNext outputs (lvl + 1) =
      sortBySmallest (inputsNext.foldl eraseInput (levels (lvl + 1)) ++ outputs) := by
  simp [install, setAt]

theorem install_of_ne {l : Nat} (h : l ≠ lvl) (h' : l ≠ lvl + 1) :
    levels.install lvl inputsLvl inputsNext outputs l = levels l := by
  simp [install, setAt, h, h']

/-- The level loses its inputs and keeps the newer tables. -/
theorem install_lvl_eq (hw : levels.Wf maxLevels) {newer : List SSTableInfo} (hl : levels lvl = inputsLvl ++ newer) :
    levels.install lvl inputsLvl inputsNext outputs lvl = newer := by
  have hid := hw.ids lvl
  rw [install_lvl, foldl_eraseInput hid, hl, List.filter_append]
  rw [hl, List.pairwise_append] at hid
  have h₁ : inputsLvl.filter (notInput inputsLvl) = [] := by
    refine List.filter_eq_nil_iff.mpr fun info hi hn => ?_
    have := List.all_eq_true.mp hn info hi
    simp at this
  have h₂ : newer.filter (notInput inputsLvl) = newer := by
    refine List.filter_eq_self.mpr fun info hi => List.all_eq_true.mpr fun i hi' => ?_
    rw [bne_iff_ne]
    exact (hid.2.2 i hi' info hi).symm
  rw [h₁, h₂, List.nil_append]

/-- The tables behind an installation: the old ones that are not inputs, and the outputs on the next level. -/
theorem mem_install (hw : levels.Wf maxLevels) {l : Nat} {info : SSTableInfo}
    (h : info ∈ levels.install lvl inputsLvl inputsNext outputs l) :
    info ∈ levels l ∧ (l = lvl → notInput inputsLvl info = true) ∧ (l = lvl + 1 → notInput inputsNext info = true) ∨
      l = lvl + 1 ∧ info ∈ outputs := by
  by_cases h₁ : l = lvl
  · subst h₁
    rw [install_lvl, foldl_eraseInput (hw.ids l)] at h
    obtain ⟨hm, hn⟩ := List.mem_filter.mp h
    exact Or.inl ⟨hm, fun _ => hn, fun he => by omega⟩
  · by_cases h₂ : l = lvl + 1
    · subst h₂
      rw [install_next, foldl_eraseInput (hw.ids (lvl + 1))] at h
      rcases List.mem_append.mp ((perm_sortBySmallest _).mem_iff.mp h) with h | h
      · obtain ⟨hm, hn⟩ := List.mem_filter.mp h
        exact Or.inl ⟨hm, fun he => by omega, fun _ => hn⟩
      · exact Or.inr ⟨rfl, h⟩
    · rw [install_of_ne h₁ h₂] at h
      exact Or.inl ⟨h, fun he => absurd he h₁, fun he => absurd he h₂⟩

theorem mem_foldl_eraseInput {info : SSTableInfo} : ∀ (inputs tables : List SSTableInfo),
    info ∈ inputs.foldl eraseInput tables → info ∈ tables
  | [], _, h => h
  | _ :: inputs, _, h => List.mem_of_mem_eraseP (mem_foldl_eraseInput inputs _ h)

/-- Whatever the levels are, what an installation leaves was there before, or is an output. -/
theorem mem_install_or {l : Nat} {info : SSTableInfo} (h : info ∈ levels.install lvl inputsLvl inputsNext outputs l) :
    info ∈ levels l ∨ l = lvl + 1 ∧ info ∈ outputs := by
  by_cases h₁ : l = lvl
  · subst h₁
    rw [install_lvl] at h
    exact Or.inl (mem_foldl_eraseInput _ _ h)
  · by_cases h₂ : l = lvl + 1
    · subst h₂
      rw [install_next] at h
      rcases List.mem_append.mp ((perm_sortBySmallest _).mem_iff.mp h) with h | h
      · exact Or.inl (mem_foldl_eraseInput _ _ h)
      · exact Or.inr ⟨rfl, h⟩
    · rw [install_of_ne h₁ h₂] at h
      exact Or.inl h

/-- The tables of the next level that are not inputs do not overlap. -/
theorem notInput_overlapping (hid : (levels (lvl + 1)).Pairwise (fun a b => a.tableMeta.fileId ≠ b.tableMeta.fileId))
    (hn : inputsNext = overlapping (levels (lvl + 1)) (keyRange inputsLvl)) :
    (levels (lvl + 1)).filter (notInput inputsNext) =
      (levels (lvl + 1)).filter (fun info =>
        !(decide (info.tableMeta.smallestKey ≤ (keyRange inputsLvl).2) &&
          decide ((keyRange inputsLvl).1 ≤ info.tableMeta.largestKey))) := by
  refine List.filter_congr fun info hi => ?_
  rw [Bool.eq_iff_iff, Bool.not_eq_true', notInput, List.all_eq_true]
  constructor
  · intro h
    by_contra hne
    have hmem : info ∈ inputsNext := hn ▸ List.mem_filter.mpr ⟨hi, by simpa using hne⟩
    simpa using h info hmem
  · intro h i hi'
    rw [hn] at hi'
    obtain ⟨him, hp⟩ := List.mem_filter.mp hi'
    rw [bne_iff_ne]
    intro he
    rw [eq_of_fileId hid hi him he, hp] at h
    cases h

theorem Installs.inputLvl_mem (h : Installs levels maxLevels lvl inputsLvl inputsNext outputs) {info : SSTableInfo}
    (hi : info ∈ inputsLvl) : info ∈ levels lvl := by
  obtain ⟨newer, hl, -⟩ := h.lvlTables
  rw [hl]
  exact List.mem_append_left _ hi

theorem mem_inputVersions_lvl {key : Key} {e : InternalEntry} :
    e ∈ tableVersions (if lvl = 0 then inputsLvl.reverse else inputsLvl) key ↔
      ∃ info ∈ inputsLvl, info.version key = some e := by
  rw [mem_tableVersions]
  split <;> simp

/-- The next level holds the inputs and the rest of it. -/
theorem Installs.perm_next (h : Installs levels maxLevels lvl inputsLvl inputsNext outputs) (hw : levels.Wf maxLevels)
    (key : Key) : (tableVersions inputsNext key ++ tableVersions ((levels (lvl + 1)).filter (notInput inputsNext)) key).Perm
      (tableVersions (levels (lvl + 1)) key) := by
  rw [notInput_overlapping (hw.ids (lvl + 1)) h.next, ← tableVersions_append, h.next]
  exact (List.filter_append_perm _ _).filterMap _

/-- What the inputs leave in the next level. -/
theorem Installs.rest (h : Installs levels maxLevels lvl inputsLvl inputsNext outputs) (hw : levels.Wf maxLevels)
    (key : Key) : tableVersions ((levels (lvl + 1)).filter (notInput inputsNext)) key =
      if inputVersions lvl inputsLvl inputsNext key = [] then tableVersions (levels (lvl + 1)) key else [] := by
  have hpart := h.perm_next hw key
  split
  · rename_i hnil
    rw [inputVersions, List.append_eq_nil_iff] at hnil
    rw [hnil.2, List.nil_append] at hpart
    refine tableVersions_filter fun info hi hne => ?_
    rw [tableVersions_eq_nil] at hnil
    refine List.all_eq_true.mpr fun i hi' => ?_
    rw [bne_iff_ne]
    intro he
    have him : i ∈ levels (lvl + 1) := by
      rw [h.next] at hi'
      exact (List.mem_filter.mp hi').1
    exact hne (eq_of_fileId (hw.ids (lvl + 1)) hi him he ▸ tableVersions_eq_nil.mp hnil.2 i hi')
  · rename_i hne
    refine tableVersions_eq_nil.mpr fun info hi => ?_
    obtain ⟨him, hnot⟩ := List.mem_filter.mp hi
    by_contra hk
    by_cases hlvl : tableVersions (if lvl = 0 then inputsLvl.reverse else inputsLvl) key = []
    · -- the key is only in an input of the next level, and no other table of that level holds it
      have hnext : tableVersions inputsNext key ≠ [] := fun h0 => hne (by rw [inputVersions, hlvl, h0]; rfl)
      have h₁ := hpart.length_eq
      have h₂ := hw.unique (lvl + 1) (by omega) key
      rw [List.length_append] at h₁
      have h₃ := List.length_pos_iff.mpr hnext
      obtain ⟨e, he⟩ := Option.ne_none_iff_exists'.mp hk
      have h₄ := List.length_pos_of_mem (mem_tableVersions.mpr ⟨info, hi, he⟩)
      omega
    · obtain ⟨e, he⟩ := List.exists_mem_of_ne_nil _ hlvl
      obtain ⟨input, hinput, hie⟩ := mem_inputVersions_lvl.mp he
      have hov := mem_overlapping him (hw.tables _ info him) hk hinput (hw.tables _ input (h.inputLvl_mem hinput))
        (by rw [hie]; simp)
      have := List.all_eq_true.mp hnot info (h.next ▸ hov)
      simp at this

/-- A key of the inputs is in no other table of the next level. -/
theorem Installs.next_inputs (h : Installs levels maxLevels lvl inputsLvl inputsNext outputs) (hw : levels.Wf maxLevels)
    {key : Key} (hne : inputVersions lvl inputsLvl inputsNext key ≠ []) :
    tableVersions (levels (lvl + 1)) key = tableVersions inputsNext key := by
  have hpart := h.perm_next hw key
  have hr := h.rest hw key
  rw [if_neg hne] at hr
  rw [hr, List.append_nil] at hpart
  exact (eq_of_perm_of_length_le hpart (hw.unique (lvl + 1) (by omega) key)).symm

/-- The next level after the installation, for one key. -/
theorem Installs.next_versions (h : Installs levels maxLevels lvl inputsLvl inputsNext outputs) (hw : levels.Wf maxLevels)
    (key : Key) : tableVersions (levels.install lvl inputsLvl inputsNext outputs (lvl + 1)) key =
      if inputVersions lvl inputsLvl inputsNext key = [] then tableVersions (levels (lvl + 1)) key
      else (lookup key (entriesOf outputs)).toList := by
  have happ : tableVersions ((levels (lvl + 1)).filter (notInput inputsNext) ++ outputs) key =
      if inputVersions lvl inputsLvl inputsNext key = [] then tableVersions (levels (lvl + 1)) key
      else (lookup key (entriesOf outputs)).toList := by
    rw [tableVersions_append, h.rest hw, tableVersions_sorted h.sorted]
    split
    · rename_i hnil
      rw [h.keys key hnil]
      simp
    · simp
  rw [install_next, foldl_eraseInput (hw.ids (lvl + 1)), tableVersions_perm (perm_sortBySmallest _), happ]
  rw [happ]
  split
  · exact hw.unique (lvl + 1) (by omega) key
  · cases lookup key (entriesOf outputs) <;> simp

/-- The levels above, at, next to and below a level. -/
theorem range_split (h : lvl + 1 < maxLevels) :
    List.range maxLevels = List.range lvl ++ (lvl :: (lvl + 1) :: (List.range maxLevels).drop (lvl + 2)) := by
  have htake : (List.range maxLevels).take (lvl + 2) = List.range lvl ++ [lvl, lvl + 1] := by
    rw [List.take_range, Nat.min_eq_left (by omega), List.range_succ, List.range_succ, List.append_assoc]
    rfl
  conv_lhs => rw [← List.take_append_drop (lvl + 2) (List.range maxLevels), htake, List.append_assoc]
  rfl

theorem versionsIn_congr {levels levels' : Levels} {lvls : List Nat} (h : ∀ l ∈ lvls, levels' l = levels l) (key : Key) :
    levels'.versionsIn lvls key = levels.versionsIn lvls key := by
  refine List.flatMap_congr fun l hl => ?_
  simp only [searched]
  split
  · rename_i h0
    rw [← h0, h l hl]
  · rw [h l hl]

/-- The versions of a key in the levels below the next one. -/
def deeperVersions (levels : Levels) (maxLevels lvl : Nat) (key : Key) : List InternalEntry :=
  levels.versionsIn ((List.range maxLevels).drop (lvl + 2)) key

theorem mem_drop_range {n l m : Nat} (h : l ∈ (List.range n).drop m) : m ≤ l ∧ l < n := by
  rw [List.range_eq_range', List.drop_range', List.mem_range'_1] at h
  omega

/-- **The installation replaces the block of the inputs** by what the outputs hold. -/
theorem Installs.versions (h : Installs levels maxLevels lvl inputsLvl inputsNext outputs) (hw : levels.Wf maxLevels)
    (key : Key) : ∃ newer A D, levels lvl = inputsLvl ++ newer ∧
      A = levels.versionsIn (List.range lvl) key ++ tableVersions (if lvl = 0 then newer.reverse else newer) key ∧
      levels.versions maxLevels key = A ++ inputVersions lvl inputsLvl inputsNext key ++ D ∧
      (levels.install lvl inputsLvl inputsNext outputs).versions maxLevels key =
        A ++ (lookup key (entriesOf outputs)).toList ++ D ∧
      (inputVersions lvl inputsLvl inputsNext key ≠ [] → D = levels.deeperVersions maxLevels lvl key) := by
  obtain ⟨newer, hl, hnew⟩ := h.lvlTables
  have hsplit : ∀ L : Levels, L.versions maxLevels key = L.versionsIn (List.range lvl) key ++
      (tableVersions (L.searched lvl) key ++ (tableVersions (L.searched (lvl + 1)) key ++
        L.deeperVersions maxLevels lvl key)) := by
    intro L
    rw [Levels.versions, range_split h.lt, versionsIn, List.flatMap_append]
    rfl
  have habove : (levels.install lvl inputsLvl inputsNext outputs).versionsIn (List.range lvl) key =
      levels.versionsIn (List.range lvl) key := by
    refine versionsIn_congr (fun l hl => ?_) key
    have := List.mem_range.mp hl
    exact install_of_ne (by omega) (by omega)
  have hbelow : (levels.install lvl inputsLvl inputsNext outputs).deeperVersions maxLevels lvl key =
      levels.deeperVersions maxLevels lvl key := by
    refine versionsIn_congr (fun l hl => ?_) key
    have := mem_drop_range hl
    exact install_of_ne (by omega) (by omega)
  have hnext : ∀ L : Levels, L.searched (lvl + 1) = L (lvl + 1) := fun L => if_neg (by omega)
  -- the level itself: the newer tables are searched first
  have hlvl : tableVersions (levels.searched lvl) key = tableVersions (if lvl = 0 then newer.reverse else newer) key ++
      tableVersions (if lvl = 0 then inputsLvl.reverse else inputsLvl) key := by
    rw [← tableVersions_append, searched]
    by_cases h0 : lvl = 0
    · subst h0
      rw [if_pos rfl, if_pos rfl, if_pos rfl, hl, List.reverse_append]
    · rw [if_neg h0, if_neg h0, if_neg h0, hl, hnew h0]
      simp
  have hlvl' : tableVersions ((levels.install lvl inputsLvl inputsNext outputs).searched lvl) key =
      tableVersions (if lvl = 0 then newer.reverse else newer) key := by
    have hi : levels.install lvl inputsLvl inputsNext outputs lvl = newer := install_lvl_eq hw hl
    rw [searched]
    by_cases h0 : lvl = 0
    · subst h0
      rw [if_pos rfl, if_pos rfl, hi]
    · rw [if_neg h0, if_neg h0, hi]
  by_cases hnil : inputVersions lvl inputsLvl inputsNext key = []
  · refine ⟨newer, levels.versionsIn (List.range lvl) key ++ tableVersions (if lvl = 0 then newer.reverse else newer) key,
      tableVersions (levels (lvl + 1)) key ++ levels.deeperVersions maxLevels lvl key, hl, rfl, ?_, ?_,
      fun hne => absurd hnil hne⟩
    · have := (List.append_eq_nil_iff.mp hnil).1
      rw [hsplit, hlvl, hnil, this, hnext]
      simp
    · rw [hsplit, habove, hbelow, hlvl', hnext, h.next_versions hw, if_pos hnil, h.keys key hnil]
      simp
  · refine ⟨newer, levels.versionsIn (List.range lvl) key ++ tableVersions (if lvl = 0 then newer.reverse else newer) key,
      levels.deeperVersions maxLevels lvl key, hl, rfl, ?_, ?_, fun _ => rfl⟩
    · rw [hsplit, hlvl, hnext, h.next_inputs hw hnil, inputVersions]
      simp
    · rw [hsplit, habove, hbelow, hlvl', hnext, h.next_versions hw, if_neg hnil]
      simp

/-- **The levels stay well formed.** -/
theorem Installs.wf (h : Installs levels maxLevels lvl inputsLvl inputsNext outputs) (hw : levels.Wf maxLevels) :
    (levels.install lvl inputsLvl inputsNext outputs).Wf maxLevels := by
  obtain ⟨newer, hl, hnew⟩ := h.lvlTables
  have hlt := h.lt
  have hi : levels.install lvl inputsLvl inputsNext outputs lvl = newer := install_lvl_eq hw hl
  have hperm : (levels.install lvl inputsLvl inputsNext outputs (lvl + 1)).Perm
      ((levels (lvl + 1)).filter (notInput inputsNext) ++ outputs) := by
    rw [install_next, foldl_eraseInput (hw.ids (lvl + 1))]
    exact perm_sortBySmallest _
  refine ⟨hw.pos, fun l info hm => ?_, fun l => ?_, fun l h0 key => ?_, fun l hle => ?_⟩
  · by_cases h₁ : l = lvl
    · subst h₁
      rw [hi] at hm
      exact hw.tables l info (hl ▸ List.mem_append_right _ hm)
    · by_cases h₂ : l = lvl + 1
      · subst h₂
        rcases List.mem_append.mp (hperm.mem_iff.mp hm) with hm | hm
        · exact hw.tables _ info (List.mem_filter.mp hm).1
        · exact h.outputsWf info hm
      · rw [install_of_ne h₁ h₂] at hm
        exact hw.tables l info hm
  · by_cases h₁ : l = lvl
    · subst h₁
      rw [hi]
      have := hw.ids l
      rw [hl, List.pairwise_append] at this
      exact this.2.1
    · by_cases h₂ : l = lvl + 1
      · subst h₂
        rw [hperm.pairwise_iff (fun h => h.symm), List.pairwise_append]
        refine ⟨(hw.ids (lvl + 1)).sublist List.filter_sublist, h.ids, fun a ha b hb => ?_⟩
        exact (h.fresh b hb a (List.mem_filter.mp ha).1).symm
      · rw [install_of_ne h₁ h₂]
        exact hw.ids l
  · by_cases h₁ : l = lvl
    · subst h₁
      rw [hi, hnew h0]
      simp [tableVersions]
    · by_cases h₂ : l = lvl + 1
      · subst h₂
        rw [h.next_versions hw]
        split
        · exact hw.unique _ h0 key
        · cases lookup key (entriesOf outputs) <;> simp
      · rw [install_of_ne h₁ h₂]
        exact hw.unique l h0 key
  · rw [install_of_ne (by omega) (by omega)]
    exact hw.empty l hle

end Install

end Levels

end SplitKV
