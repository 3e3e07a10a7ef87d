import SplitKV.Manifest.Fields
import SplitKV.Recovery.Listing

/-!
# The levels that `LoadManifest` indexes

`LoadManifest` takes the level of a table from the text and indexes `levels_` with it, which has as many levels as the
options of the new session say. The text in front of the first table with a boundary key that `>>` cannot read says what
was saved; from there on it divides into other groups (`DB.indexes_inside_iff`).
-/

namespace SplitKV

open Levels

/-- The boundary keys of a line can be read. -/
def ManifestLine.KeysReadable (l : ManifestLine) : Prop := Token l.smallestKey ∧ Token l.largestKey

instance : DecidablePred ManifestLine.KeysReadable :=
  fun l => inferInstanceAs (Decidable (Token l.smallestKey ∧ Token l.largestKey))

namespace DB

/-- The table file with an id, when it is there and opens. -/
def tableAt (sst : Folder (Option SSTableFile)) (id : Nat) : Option SSTableFile := if sst.has id then sst.data id else none

/-- What the loop of `LoadManifest` indexes `levels_` with. -/
def levelAccesses (sst : Folder (Option SSTableFile)) : List ManifestLine → List Int
  | [] => []
  | l :: lines =>
    match tableAt sst l.fileId with
    | none => levelAccesses sst lines
    | some _ => l.level :: levelAccesses sst lines

/-- What `LoadManifest` indexes `levels_` with. -/
def manifestAccesses (d : Disk) : List Int :=
  match d.manifest with
  | none => []
  | some content => levelAccesses d.sst (parseManifest content).2

/-- `LoadManifest` stays inside `levels_`. -/
def IndexesInside (d : Disk) (maxLevels : Nat) : Prop :=
  ∀ level ∈ manifestAccesses d, 0 ≤ level ∧ level < maxLevels

instance (d : Disk) (maxLevels : Nat) : Decidable (IndexesInside d maxLevels) :=
  inferInstanceAs (Decidable (∀ level ∈ manifestAccesses d, 0 ≤ level ∧ level < maxLevels))

theorem mem_levelAccesses {sst : Folder (Option SSTableFile)} {level : Int} : ∀ {lines : List ManifestLine},
    level ∈ levelAccesses sst lines ↔ ∃ line ∈ lines, (tableAt sst line.fileId).isSome ∧ line.level = level
  | [] => iff_of_false List.not_mem_nil (fun h => by simp at h)
  | l :: lines => by
    have ih := @mem_levelAccesses sst level lines
    rw [levelAccesses]
    cases hfile : tableAt sst l.fileId with
    | none => simp only [List.mem_cons, or_and_right, exists_or, exists_eq_left, hfile, ih, Option.isSome_none,
        Bool.false_eq_true, false_and, false_or]
    | some file =>
      simp only [List.mem_cons, or_and_right, exists_or, exists_eq_left, hfile, ih, Option.isSome_some, true_and]
      rw [eq_comm]

/-- The loop is defined as long as it stays inside. -/
theorem loadTables_defined_iff {sst : Folder (Option SSTableFile)} {maxLevels : Nat} : ∀ {lines : List ManifestLine}
    {levels : Levels}, (∃ levels', loadTables sst maxLevels lines levels = .ok levels') ↔
      ∀ level ∈ levelAccesses sst lines, 0 ≤ level ∧ level < maxLevels
  | [], levels => iff_of_true ⟨levels, rfl⟩ (fun _ h => absurd h List.not_mem_nil)
  | l :: lines, levels => by
    rw [loadTables, levelAccesses, tableAt]
    generalize (if sst.has l.fileId then sst.data l.fileId else none) = found
    cases found with
    | none => exact loadTables_defined_iff
    | some file =>
      simp only [List.forall_mem_cons]
      by_cases hl : 0 ≤ l.level ∧ l.level < maxLevels
      · simp only [hl, true_and, and_self]
        exact loadTables_defined_iff
      · rw [if_neg hl]
        refine iff_of_false ?_ (fun h => hl h.1)
        rintro ⟨levels', h⟩
        cases h

/-- **`LoadManifest`** is defined exactly when it stays inside `levels_`. -/
theorem loadManifest_defined_iff {d : Disk} {maxLevels : Nat} :
    (∃ x, loadManifest d maxLevels = .ok x) ↔ IndexesInside d maxLevels := by
  rw [IndexesInside, manifestAccesses, loadManifest]
  cases d.manifest with
  | none => exact iff_of_true ⟨_, rfl⟩ (fun _ h => absurd h List.not_mem_nil)
  | some content =>
    simp only
    rw [← @loadTables_defined_iff d.sst maxLevels (parseManifest content).2 fun _ => []]
    cases loadTables d.sst maxLevels (parseManifest content).2 (fun _ => []) with
    | error s =>
      refine iff_of_false ?_ ?_
      · rintro ⟨x, h⟩
        cases h
      · rintro ⟨x, h⟩
        cases h
    | ok levels => exact iff_of_true ⟨_, rfl⟩ ⟨_, rfl⟩

/-! ## What was saved, and what is read -/

/-- The lines that are saved in front of the first one with a key that cannot be read. -/
def frontLines (db : DB) : List ManifestLine :=
  (manifestLines db.levels db.options.maxSstableLevels).takeWhile fun l => decide l.KeysReadable

/-- The text of the lines from the first one with a key that cannot be read on. -/
def backText (db : DB) : Bytes :=
  (((manifestLines db.levels db.options.maxSstableLevels).dropWhile fun l => decide l.KeysReadable).map encodeLine).flatten

theorem readLines_newline (fuel : Nat) (s : Bytes) : readLines fuel (newline :: s) = readLines fuel s := by
  have hskip : (newline :: s).dropWhile isSpace = s.dropWhile isSpace := List.dropWhile_cons_of_pos rfl
  have hnumber : readNumber (newline :: s) = readNumber s := by rw [readNumber, readNumber, hskip]
  cases fuel with
  | zero => rfl
  | succ fuel => rw [readLines, readLines, readLine, readLine, readUnsigned, readUnsigned, hnumber]

/-- A line of a reached database has a level, and its numbers have their types. -/
theorem Reached.manifestLine_bounds {db : DB} (h : db.Reached) (hn : db.NumbersFit) {line : ManifestLine}
    (hl : line ∈ manifestLines db.levels db.options.maxSstableLevels) :
    line.fileId < 2 ^ 32 ∧ (0 ≤ line.level ∧ line.level < 2 ^ 31) ∧ line.numEntries < 2 ^ 64 := by
  obtain ⟨l, -, hl⟩ := List.mem_flatMap.mp hl
  obtain ⟨info, hi, rfl⟩ := List.mem_map.mp hl
  obtain ⟨hlevel, hlt⟩ := h.arrayed.placed l info hi
  have hmax := hn.levels
  refine ⟨hn.fileId l info hi, ?_, hn.numEntries l info hi⟩
  simp only [hlevel]
  omega

/-- **What is read back**: the lines in front, and the groups into which the rest of the text divides. -/
theorem Reached.mem_parseManifest {db : DB} (h : db.Reached) (hn : db.NumbersFit) (line : ManifestLine) :
    line ∈ (parseManifest (encodeManifest db.nextSstableId
        (manifestLines db.levels db.options.maxSstableLevels))).2 ↔
      line ∈ db.frontLines ∨ ∃ lines rest, Divides db.backText (lines ++ [line]) rest := by
  have hfront : ∀ l ∈ db.frontLines, l.Readable := by
    intro l hl
    rw [frontLines] at hl
    have hkeys := List.mem_takeWhile_imp hl
    rw [decide_eq_true_eq] at hkeys
    obtain ⟨hid, hlevel, hnum⟩ := h.manifestLine_bounds hn ((List.takeWhile_prefix _).subset hl)
    exact ⟨hid, hlevel, hnum, hkeys.1, hkeys.2⟩
  have htext : ((manifestLines db.levels db.options.maxSstableLevels).map encodeLine).flatten =
      (db.frontLines.map encodeLine).flatten ++ db.backText := by
    rw [frontLines, backText, ← List.flatten_append, ← List.map_append, List.takeWhile_append_dropWhile]
  have hlen := length_encodeLines db.frontLines
  rw [parseManifest_lines hn.next, htext]
  simp only
  rw [readLines_append _ _ _ hfront (by rw [List.length_append]; omega), readLines_newline, List.mem_append,
    mem_readLines_iff (by rw [List.length_append]; omega)]

/-- **`LoadManifest` stays inside `levels_`** exactly when the tables whose lines are read back have levels of the new
session, and the text behind them does not divide into groups with other levels. -/
theorem indexes_inside_iff {db : DB} (h : db.Reached) (hn : db.NumbersFit) {d : Disk}
    (hd : d.manifest = (db.saveManifest false).1.disk.manifest) (maxLevels : Nat) :
    IndexesInside d maxLevels ↔
      (∀ line ∈ db.frontLines, (tableAt d.sst line.fileId).isSome → line.level < maxLevels) ∧
      ∀ (lines : List ManifestLine) (line : ManifestLine) (rest : Bytes), Divides db.backText (lines ++ [line]) rest →
        (tableAt d.sst line.fileId).isSome → 0 ≤ line.level ∧ line.level < maxLevels := by
  have hcontent : d.manifest = some (encodeManifest db.nextSstableId
      (manifestLines db.levels db.options.maxSstableLevels)) := hd
  have hmem := h.mem_parseManifest hn
  rw [IndexesInside, manifestAccesses, hcontent]
  simp only [mem_levelAccesses]
  constructor
  · intro hin
    refine ⟨fun line hline hfile => ?_, fun lines line rest hdiv hfile => ?_⟩
    · exact (hin _ ⟨line, (hmem line).mpr (Or.inl hline), hfile, rfl⟩).2
    · exact hin _ ⟨line, (hmem line).mpr (Or.inr ⟨lines, rest, hdiv⟩), hfile, rfl⟩
  · rintro ⟨hfront, hback⟩ level ⟨line, hline, hfile, rfl⟩
    rcases (hmem line).mp hline with hl | ⟨lines, rest, hdiv⟩
    · exact ⟨(h.manifestLine_bounds hn ((List.takeWhile_prefix _).subset hl)).2.1.1, hfront line hl hfile⟩
    · exact hback lines line rest hdiv hfile

/-- A table whose keys can be read, on level 0 of two. -/
theorem indexes_inside_sample :
    let db := listed [97]
    IndexesInside (db.saveManifest false).1.disk 2 ↔
      (∀ line ∈ db.frontLines, (tableAt (db.saveManifest false).1.disk.sst line.fileId).isSome → line.level < 2) ∧
      ∀ (lines : List ManifestLine) (line : ManifestLine) (rest : Bytes), Divides db.backText (lines ++ [line]) rest →
        (tableAt (db.saveManifest false).1.disk.sst line.fileId).isSome → 0 ≤ line.level ∧ line.level < 2 :=
  indexes_inside_iff (reached_listed [97]) numbersFit_listed rfl 2

/-- **A table on level 6**, opened with six levels; and the key `a b 1 99 1`, whose numbers are read as a file id and a
level. -/
theorem indexes_outside :
    let deep := (listed [97]).execFaulty (.compactRange fun _ => .none)
    let split := listed [97, 32, 98, 32, 49, 32, 57, 57, 32, 49]
    manifestAccesses (deep.saveManifest false).1.disk = [6] ∧ ¬IndexesInside (deep.saveManifest false).1.disk 6 ∧
      manifestAccesses (split.saveManifest false).1.disk = [0, 99] ∧
      ¬IndexesInside (split.saveManifest false).1.disk 7 := by
  decide +kernel

end DB

end SplitKV
