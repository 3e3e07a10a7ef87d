import SplitKV.DBImpl.State
import SplitKV.Lib.Versions

/-!
# The versions of a key in the levels

Every lookup is the head of a list: the entries the tables hold for the key, in search order (`Levels.find_eq`). A
table is well formed when its reader is, and its metadata are its first and its last key.
-/

namespace SplitKV

open Assoc

/-- The reader is a reader of a table written from a sorted list, which is not empty, and the metadata are right. -/
structure SSTableInfo.Wf (info : SSTableInfo) : Prop where
  reader : info.reader.Wf
  smallest : ∃ p, info.reader.entries.head? = some p ∧ info.tableMeta.smallestKey = p.1
  largest : ∃ p, info.reader.entries.getLast? = some p ∧ info.tableMeta.largestKey = p.1

namespace SSTableInfo

/-- What the table holds for a key. -/
def version (info : SSTableInfo) (key : Key) : Option InternalEntry := lookup key info.reader.entries

theorem Wf.le {info : SSTableInfo} (h : info.Wf) {p : Key × InternalEntry} (hp : p ∈ info.reader.entries) :
    info.tableMeta.smallestKey ≤ p.1 ∧ p.1 ≤ info.tableMeta.largestKey := by
  obtain ⟨a, ha, hs⟩ := h.smallest
  obtain ⟨b, hb, hl⟩ := h.largest
  rw [hs, hl]
  exact ⟨h.reader.sorted.head_le ha p hp, h.reader.sorted.le_getLast hb p hp⟩

/-- The range of a table covers its keys. -/
theorem Wf.covers {info : SSTableInfo} (h : info.Wf) {key : Key} {e : InternalEntry} (he : info.version key = some e) :
    info.covers key = true := by
  have := h.le (mem_of_lookup he)
  simp [SSTableInfo.covers, this]

theorem Wf.lookupTable {info : SSTableInfo} (h : info.Wf) (key : Key) :
    (info.lookupTable noFails key).toOption = info.version key :=
  SSTableReader.get_toOption h.reader key

/-- The test of the range changes nothing. -/
theorem Wf.lookup_covered {info : SSTableInfo} (h : info.Wf) (key : Key) :
    (if info.covers key then (info.lookupTable noFails key).toOption else none) = info.version key := by
  rw [h.lookupTable]
  cases he : info.version key with
  | none => simp
  | some e => rw [h.covers he, if_pos rfl]

end SSTableInfo

/-- The versions of a key in some tables, searched from the first one on. -/
def tableVersions (tables : List SSTableInfo) (key : Key) : List InternalEntry :=
  tables.filterMap (fun info => info.version key)

theorem tableVersions_append (a b : List SSTableInfo) (key : Key) :
    tableVersions (a ++ b) key = tableVersions a key ++ tableVersions b key := List.filterMap_append

theorem mem_tableVersions {tables : List SSTableInfo} {key : Key} {e : InternalEntry} :
    e ∈ tableVersions tables key ↔ ∃ info ∈ tables, info.version key = some e := List.mem_filterMap

theorem tableVersions_eq_nil {tables : List SSTableInfo} {key : Key} :
    tableVersions tables key = [] ↔ ∀ info ∈ tables, info.version key = none := List.filterMap_eq_nil_iff

theorem tableVersions_reverse (tables : List SSTableInfo) (key : Key) :
    tableVersions tables.reverse key = (tableVersions tables key).reverse := List.filterMap_reverse

/-- The versions of a key in a selection of tables that leaves none of its tables out. -/
theorem tableVersions_filter {tables : List SSTableInfo} {key : Key} {p : SSTableInfo → Bool}
    (h : ∀ info ∈ tables, info.version key ≠ none → p info = true) :
    tableVersions (tables.filter p) key = tableVersions tables key := by
  induction tables with
  | nil => rfl
  | cons info tables ih =>
    have ih := ih (fun i hi => h i (List.mem_cons_of_mem _ hi))
    rw [List.filter_cons]
    split
    · rw [tableVersions, tableVersions, List.filterMap_cons, List.filterMap_cons]
      split
      · exact ih
      · exact congrArg _ ih
    · rename_i hp
      have hnone : info.version key = none := by
        by_contra hne
        exact hp (h info List.mem_cons_self hne)
      rw [ih, tableVersions, tableVersions, List.filterMap_cons, hnone]

namespace Levels

/-- The tables of a level in search order. -/
def searched (levels : Levels) (lvl : Nat) : List SSTableInfo := if lvl = 0 then (levels 0).reverse else levels lvl

/-- The versions of a key in the levels `lvls`. -/
def versionsIn (levels : Levels) (lvls : List Nat) (key : Key) : List InternalEntry :=
  lvls.flatMap (fun lvl => tableVersions (levels.searched lvl) key)

/-- The versions of a key in all levels. -/
def versions (levels : Levels) (maxLevels : Nat) (key : Key) : List InternalEntry :=
  levels.versionsIn (List.range maxLevels) key

/-- The tables of every level are well formed and have different ids, and no key is in two tables of one of the levels
below level 0. -/
structure Wf (levels : Levels) (maxLevels : Nat) : Prop where
  pos : 1 ≤ maxLevels
  tables : ∀ lvl, ∀ info ∈ levels lvl, info.Wf
  ids : ∀ lvl, (levels lvl).Pairwise (fun a b => a.tableMeta.fileId ≠ b.tableMeta.fileId)
  unique : ∀ lvl, lvl ≠ 0 → ∀ key, (tableVersions (levels lvl) key).length ≤ 1
  empty : ∀ lvl, maxLevels ≤ lvl → levels lvl = []

theorem mem_searched {levels : Levels} {lvl : Nat} {info : SSTableInfo} :
    info ∈ levels.searched lvl ↔ info ∈ levels lvl := by
  unfold searched
  split
  · rename_i h
    rw [h, List.mem_reverse]
  · rfl

theorem findSome_eq_head (tables : List SSTableInfo) (f : SSTableInfo → Option InternalEntry) (key : Key)
    (h : ∀ info ∈ tables, f info = info.version key) : tables.findSome? f = (tableVersions tables key).head? := by
  rw [tableVersions, List.head?_filterMap]
  induction tables with
  | nil => rfl
  | cons info tables ih =>
    rw [List.findSome?_cons, List.findSome?_cons, h info List.mem_cons_self,
      ih (fun i hi => h i (List.mem_cons_of_mem _ hi))]

theorem find0_eq {tables : List SSTableInfo} (h : ∀ info ∈ tables, info.Wf) (key : Key) :
    find0 noFails tables key = (tableVersions tables.reverse key).head? :=
  findSome_eq_head _ _ key fun info hi => (h info (List.mem_reverse.mp hi)).lookupTable key

theorem findDeep_eq {tables : List SSTableInfo} (h : ∀ info ∈ tables, info.Wf) (key : Key) :
    findDeep noFails tables key = (tableVersions tables key).head? :=
  findSome_eq_head _ _ key fun info hi => (h info hi).lookup_covered key

theorem range_eq_cons {n : Nat} (h : 1 ≤ n) : List.range n = 0 :: (List.range n).drop 1 := by
  obtain ⟨n, rfl⟩ : ∃ m, n = m + 1 := ⟨n - 1, by omega⟩
  rw [List.range_succ_eq_map]
  rfl

/-- **A search of the levels** finds the first version. -/
theorem find_eq {levels : Levels} {maxLevels : Nat} (h : levels.Wf maxLevels) (key : Key) :
    levels.find noFails maxLevels key = (levels.versions maxLevels key).head? := by
  have hdeep : ∀ lvls : List Nat, (∀ l ∈ lvls, l ≠ 0) →
      lvls.findSome? (fun lvl => findDeep noFails (levels lvl) key) = (levels.versionsIn lvls key).head? := by
    intro lvls hne
    induction lvls with
    | nil => rfl
    | cons lvl lvls ih =>
      have hs : levels.searched lvl = levels lvl := if_neg (hne lvl List.mem_cons_self)
      rw [List.findSome?_cons, findDeep_eq (h.tables lvl), ih (fun l hl => hne l (List.mem_cons_of_mem _ hl)),
        versionsIn, versionsIn, List.flatMap_cons, List.head?_append, hs]
      cases (tableVersions (levels lvl) key).head? <;> rfl
  rw [find, versions, range_eq_cons h.pos, versionsIn, List.flatMap_cons, List.head?_append, ← versionsIn,
    find0_eq (h.tables 0), List.drop_one, List.tail_cons, hdeep]
  · rfl
  · intro l hl
    rw [List.drop_one, List.range_eq_range', List.tail_range', List.mem_range'_1] at hl
    omega

end Levels

end SplitKV
