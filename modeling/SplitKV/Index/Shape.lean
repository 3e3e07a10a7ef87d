import Mathlib.Data.List.Pairwise
import SplitKV.Index.Compaction

/-!
# The shape of the levels

Every table knows its level, a table id is registered once, and the tables of the levels below level 0 are sorted and
have disjoint key ranges (`Levels.Shape`). A compaction merges a whole level with the tables of the next one that overlap
it: a table that is left out lies on one side of all inputs, although an input may stick out of the merged range
(`Installs.ranges`).
-/

namespace SplitKV

open Assoc

/-- The key ranges of two tables lie apart. -/
def SSTableInfo.Apart (a b : SSTableInfo) : Prop :=
  a.tableMeta.largestKey < b.tableMeta.smallestKey ∨ b.tableMeta.largestKey < a.tableMeta.smallestKey

/-- The first table lies before the second one. -/
def SSTableInfo.Before (a b : SSTableInfo) : Prop := a.tableMeta.largestKey < b.tableMeta.smallestKey

theorem SSTableInfo.Apart.symm {a b : SSTableInfo} (h : a.Apart b) : b.Apart a := Or.symm h

instance : Std.Symm SSTableInfo.Apart := ⟨fun _ _ h => h.symm⟩

/-- A well-formed table has a first key. -/
theorem SSTableInfo.Wf.smallest_mem {info : SSTableInfo} (h : info.Wf) :
    ∃ p ∈ info.reader.entries, info.tableMeta.smallestKey = p.1 := by
  obtain ⟨p, hp, he⟩ := h.smallest
  exact ⟨p, List.mem_of_mem_head? hp, he⟩

/-- A well-formed table has a last key. -/
theorem SSTableInfo.Wf.largest_mem {info : SSTableInfo} (h : info.Wf) :
    ∃ p ∈ info.reader.entries, info.tableMeta.largestKey = p.1 := by
  obtain ⟨p, hp, he⟩ := h.largest
  exact ⟨p, List.mem_of_mem_getLast? hp, he⟩

theorem SSTableInfo.Wf.smallest_le {info : SSTableInfo} (h : info.Wf) :
    info.tableMeta.smallestKey ≤ info.tableMeta.largestKey := by
  obtain ⟨p, hp, he⟩ := h.smallest_mem
  rw [he]
  exact (h.le hp).2

namespace Levels

/-- The shape of the levels. -/
structure Shape (levels : Levels) : Prop where
  level : ∀ l, ∀ info ∈ levels l, info.tableMeta.level = l
  unique : ∀ l l' a b, a ∈ levels l → b ∈ levels l' → a.tableMeta.fileId = b.tableMeta.fileId → l = l'
  ranges : ∀ l, l ≠ 0 → (levels l).Pairwise SSTableInfo.Before

/-- Tables whose ranges lie apart are sorted by their smallest keys into one order. -/
theorem sortBySmallest_before {tables : List SSTableInfo} (hw : ∀ info ∈ tables, info.Wf)
    (h : tables.Pairwise SSTableInfo.Apart) : (sortBySmallest tables).Pairwise SSTableInfo.Before := by
  have hperm := perm_sortBySmallest tables
  have hsorted : (sortBySmallest tables).Pairwise fun a b => a.tableMeta.smallestKey ≤ b.tableMeta.smallestKey :=
    @List.pairwise_insertionSort _ (fun a b : SSTableInfo => a.tableMeta.smallestKey ≤ b.tableMeta.smallestKey) _
      ⟨fun a b => le_total _ _⟩ ⟨fun a b c => le_trans⟩ tables
  have hapart : (sortBySmallest tables).Pairwise SSTableInfo.Apart := (hperm.pairwise_iff fun h => h.symm).mpr h
  refine (hsorted.and hapart).imp_of_mem fun {a b} ha hb hab => ?_
  obtain ⟨hle, hlt | hlt⟩ := hab
  · exact hlt
  · -- the second table cannot end before the first one starts
    have hb' := (hw b (hperm.mem_iff.mp hb)).smallest_le
    exact absurd (hle.trans hb') (not_le.mpr hlt)

/-- Two different tables of a level lie apart. -/
theorem apart_of_before {tables : List SSTableInfo} (h : tables.Pairwise SSTableInfo.Before) {a b : SSTableInfo}
    (ha : a ∈ tables) (hb : b ∈ tables) (hne : a ≠ b) : a.Apart b := by
  have hapart : tables.Pairwise SSTableInfo.Apart := h.imp Or.inl
  exact hapart.forall ha hb hne

/-- Tables whose entries form one sorted list lie one behind the other. -/
theorem before_of_sorted {tables : List SSTableInfo} (hw : ∀ info ∈ tables, info.Wf) (h : Sorted (entriesOf tables)) :
    tables.Pairwise SSTableInfo.Before := by
  induction tables with
  | nil => exact List.Pairwise.nil
  | cons t tables ih =>
    have h' : Sorted (t.reader.entries ++ entriesOf tables) := h
    obtain ⟨-, ht, hlt⟩ := sorted_append.mp h'
    refine List.pairwise_cons.mpr ⟨fun b hb => ?_, ih (fun i hi => hw i (List.mem_cons_of_mem _ hi)) ht⟩
    obtain ⟨p, hp, hpe⟩ := (hw t List.mem_cons_self).largest_mem
    obtain ⟨q, hq, hqe⟩ := (hw b (List.mem_cons_of_mem _ hb)).smallest_mem
    show t.tableMeta.largestKey < b.tableMeta.smallestKey
    rw [hpe, hqe]
    exact hlt p hp q (List.mem_flatMap.mpr ⟨b, hb, hq⟩)

section Install

variable {levels : Levels} {maxLevels lvl : Nat} {inputsLvl inputsNext outputs : List SSTableInfo}

/-- A key of the outputs lies in an input. -/
theorem Installs.mem_outputs (h : Installs levels maxLevels lvl inputsLvl inputsNext outputs) {o : SSTableInfo}
    (ho : o ∈ outputs) {p : Key × InternalEntry} (hp : p ∈ o.reader.entries) :
    ∃ input ∈ inputsLvl ++ inputsNext, input.version p.1 ≠ none := by
  have hl : lookup p.1 (entriesOf outputs) = some p.2 :=
    h.sorted.lookup_eq_some_iff.mpr (List.mem_flatMap.mpr ⟨o, ho, hp⟩)
  have hne : inputVersions lvl inputsLvl inputsNext p.1 ≠ [] := by
    intro hnil
    rw [h.keys p.1 hnil] at hl
    cases hl
  obtain ⟨e, he⟩ := List.exists_mem_of_ne_nil _ hne
  obtain ⟨input, hi, hv⟩ := mem_inputVersions.mp he
  refine ⟨input, hi, ?_⟩
  rw [hv]
  exact Option.some_ne_none e

/-- A table of the next level that does not overlap lies on one side of all inputs. -/
theorem Installs.side (h : Installs levels maxLevels lvl inputsLvl inputsNext outputs) (hw : levels.Wf maxLevels)
    (hr : (levels (lvl + 1)).Pairwise SSTableInfo.Before) {t : SSTableInfo} (ht : t ∈ levels (lvl + 1))
    (hn : notInput inputsNext t = true) :
    (∀ input ∈ inputsLvl ++ inputsNext, t.tableMeta.largestKey < input.tableMeta.smallestKey) ∨
      ∀ input ∈ inputsLvl ++ inputsNext, input.tableMeta.largestKey < t.tableMeta.smallestKey := by
  have hout : t.tableMeta.largestKey < (keyRange inputsLvl).1 ∨ (keyRange inputsLvl).2 < t.tableMeta.smallestKey := by
    have hmem := List.mem_filter.mpr ⟨ht, hn⟩
    rw [notInput_overlapping (hw.ids (lvl + 1)) h.next] at hmem
    have hp := (List.mem_filter.mp hmem).2
    simp only [Bool.not_eq_true', Bool.and_eq_false_iff, decide_eq_false_iff_not, not_le] at hp
    exact hp.symm
  have hle := (hw.tables _ t ht).smallest_le
  -- an input of the next level overlaps the range, and lies apart from the table
  have hnext : ∀ input ∈ inputsNext, t.Apart input ∧ input.tableMeta.smallestKey ≤ (keyRange inputsLvl).2 ∧
      (keyRange inputsLvl).1 ≤ input.tableMeta.largestKey := by
    intro input hi
    have hself := List.all_eq_true.mp hn input hi
    rw [h.next] at hi
    obtain ⟨him, hov⟩ := List.mem_filter.mp hi
    simp only [Bool.and_eq_true, decide_eq_true_eq] at hov
    refine ⟨apart_of_before hr ht him ?_, hov⟩
    rintro rfl
    simp at hself
  rcases hout with hlt | hlt
  · refine Or.inl fun input hi => ?_
    rcases List.mem_append.mp hi with hi | hi
    · exact hlt.trans_le (keyRange_mem hi).1
    · obtain ⟨hap, -, hhi⟩ := hnext input hi
      rcases hap with hap | hap
      · exact hap
      · exact absurd (hap.trans_le hle) (not_lt.mpr (hlt.le.trans hhi))
  · refine Or.inr fun input hi => ?_
    rcases List.mem_append.mp hi with hi | hi
    · exact (keyRange_mem hi).2.trans_lt hlt
    · obtain ⟨hap, hlo, -⟩ := hnext input hi
      rcases hap with hap | hap
      · exact absurd (hle.trans_lt hap) (not_lt.mpr (hlo.trans hlt.le))
      · exact hap

/-- A table that is left in the next level lies apart from the outputs. -/
theorem Installs.apart (h : Installs levels maxLevels lvl inputsLvl inputsNext outputs) (hw : levels.Wf maxLevels)
    (hr : (levels (lvl + 1)).Pairwise SSTableInfo.Before) {t o : SSTableInfo} (ht : t ∈ levels (lvl + 1))
    (hn : notInput inputsNext t = true) (ho : o ∈ outputs) : t.Apart o := by
  have hwf : ∀ input ∈ inputsLvl ++ inputsNext, input.Wf := by
    intro input hi
    rcases List.mem_append.mp hi with hi | hi
    · exact hw.tables lvl input (h.inputLvl_mem hi)
    · rw [h.next] at hi
      exact hw.tables (lvl + 1) input (List.mem_filter.mp hi).1
  have hkey : ∀ p ∈ o.reader.entries, ∃ input ∈ inputsLvl ++ inputsNext,
      input.tableMeta.smallestKey ≤ p.1 ∧ p.1 ≤ input.tableMeta.largestKey := by
    intro p hp
    obtain ⟨input, hi, hv⟩ := h.mem_outputs ho hp
    obtain ⟨e, he⟩ := Option.ne_none_iff_exists'.mp hv
    have hle := (hwf input hi).le (show (p.1, e) ∈ input.reader.entries from mem_of_lookup he)
    exact ⟨input, hi, hle⟩
  rcases h.side hw hr ht hn with hside | hside
  · obtain ⟨p, hp, he⟩ := (h.outputsWf o ho).smallest_mem
    obtain ⟨input, hi, hlo, -⟩ := hkey p hp
    left
    rw [he]
    exact (hside input hi).trans_le hlo
  · obtain ⟨p, hp, he⟩ := (h.outputsWf o ho).largest_mem
    obtain ⟨input, hi, -, hhi⟩ := hkey p hp
    right
    rw [he]
    exact hhi.trans_lt (hside input hi)

/-- **The next level stays sorted, and its ranges stay disjoint.** -/
theorem Installs.ranges (h : Installs levels maxLevels lvl inputsLvl inputsNext outputs) (hw : levels.Wf maxLevels)
    (hr : (levels (lvl + 1)).Pairwise SSTableInfo.Before) :
    (levels.install lvl inputsLvl inputsNext outputs (lvl + 1)).Pairwise SSTableInfo.Before := by
  rw [install_next, foldl_eraseInput (hw.ids (lvl + 1))]
  apply sortBySmallest_before
  · intro info hi
    rcases List.mem_append.mp hi with hi | hi
    · exact hw.tables _ info (List.mem_filter.mp hi).1
    · exact h.outputsWf info hi
  · rw [List.pairwise_append]
    refine ⟨(hr.sublist List.filter_sublist).imp Or.inl, (before_of_sorted h.outputsWf h.sorted).imp Or.inl, ?_⟩
    intro t ht o ho
    obtain ⟨htm, hn⟩ := List.mem_filter.mp ht
    exact h.apart hw hr htm hn ho

end Install

/-- The tables of the new levels are old ones, or new ones on the level `lvl`. -/
def NewOn (levels levels' : Levels) (lvl next : Nat) : Prop :=
  ∀ l, ∀ info ∈ levels' l, info ∈ levels l ∨ l = lvl ∧ info.tableMeta.level = lvl ∧ next ≤ info.tableMeta.fileId

/-- New tables with new ids keep the levels and the ids of the tables apart. -/
theorem Shape.of_new {levels levels' : Levels} {lvl next : Nat} (h : levels.Shape) (hn : NewOn levels levels' lvl next)
    (hids : ∀ l, ∀ info ∈ levels l, info.tableMeta.fileId < next)
    (hr : ∀ l, l ≠ 0 → (levels' l).Pairwise SSTableInfo.Before) : levels'.Shape := by
  refine ⟨fun l info hi => ?_, fun l l' a b ha hb he => ?_, hr⟩
  · rcases hn l info hi with hi | ⟨hl, hlevel, -⟩
    · exact h.level l info hi
    · exact hlevel.trans hl.symm
  · rcases hn l a ha with ha | ⟨hl, -, ha⟩ <;> rcases hn l' b hb with hb | ⟨hl', -, hb⟩
    · exact h.unique l l' a b ha hb he
    · have := hids l a ha
      omega
    · have := hids l' b hb
      omega
    · rw [hl, hl']

/-- **All table ids are different.** -/
theorem Shape.ids {levels : Levels} {maxLevels : Nat} (h : levels.Shape) (hw : levels.Wf maxLevels) (lvls : List Nat)
    (hl : lvls.Nodup) :
    (lvls.flatMap levels).Pairwise (fun a b => a.tableMeta.fileId ≠ b.tableMeta.fileId) := by
  induction lvls with
  | nil => exact List.Pairwise.nil
  | cons l lvls ih =>
    obtain ⟨hnot, hl⟩ := List.nodup_cons.mp hl
    rw [List.flatMap_cons, List.pairwise_append]
    refine ⟨hw.ids l, ih hl, fun a ha b hb he => ?_⟩
    obtain ⟨l', hl', hb⟩ := List.mem_flatMap.mp hb
    exact hnot (h.unique l l' a b ha hb he ▸ hl')

end Levels

end SplitKV
