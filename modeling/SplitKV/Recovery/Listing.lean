import SplitKV.Faults.Shape
import SplitKV.Recovery.Disk

/-!
# The round trip of the manifest

In every state that the calls of the interface lead to, whatever fails and whatever the directories hold that are opened,
`LoadManifest` reads back what `SaveManifest` writes exactly when no boundary key of a table is empty or contains
whitespace (`DB.manifest_roundTrip_iff`).
-/

namespace SplitKV

open Levels

/-- A line of the manifest is read back only with keys that `>>` can read. -/
theorem token_of_readString {s w rest : Bytes} (h : readString s = some (w, rest)) : Token w := by
  unfold readString at h
  simp only at h
  split at h
  · cases h
  · rename_i hne
    cases h
    refine ⟨hne, fun b hb => ?_⟩
    have hall := List.mem_takeWhile_imp hb
    simpa using hall

theorem tokens_of_readLine {s rest : Bytes} {line : ManifestLine} (h : readLine s = some (line, rest)) :
    Token line.smallestKey ∧ Token line.largestKey := by
  unfold readLine at h
  split at h
  · cases h
  split at h
  · cases h
  split at h
  · cases h
  split at h
  · cases h
  rename_i hsmall
  split at h
  · cases h
  rename_i hlarge
  cases h
  exact ⟨token_of_readString hsmall, token_of_readString hlarge⟩

theorem tokens_of_readLines : ∀ (fuel : Nat) (s : Bytes), ∀ line ∈ readLines fuel s,
    Token line.smallestKey ∧ Token line.largestKey
  | 0, _, line, hl => by cases hl
  | fuel + 1, s, line, hl => by
    rw [readLines] at hl
    split at hl
    · cases hl
    · rename_i hr
      rcases List.mem_cons.mp hl with rfl | hl
      · exact tokens_of_readLine hr
      · exact tokens_of_readLines fuel _ line hl

theorem tokens_of_parseManifest (content : Bytes) : ∀ line ∈ (parseManifest content).2,
    Token line.smallestKey ∧ Token line.largestKey := by
  intro line hl
  unfold parseManifest at hl
  split at hl
  · cases hl
  · exact tokens_of_readLines _ _ line hl

namespace DB

/-- The tables know their level, and it is one of the levels. -/
def Placed (levels : Levels) (maxLevels : Nat) : Prop :=
  ∀ l, ∀ info ∈ levels l, info.tableMeta.level = l ∧ l < maxLevels

/-! ## Loading lines -/

/-- Every table that is loaded is listed, on its level. -/
theorem mem_of_loadTables {sst : Folder (Option SSTableFile)} {maxLevels : Nat} : ∀ {lines : List ManifestLine}
    {levels levels' : Levels}, loadTables sst maxLevels lines levels = .ok levels' → ∀ l, ∀ info ∈ levels' l,
      info ∈ levels l ∨ info.tableMeta.level = l ∧ l < maxLevels ∧ manifestLine info ∈ lines
  | [], levels, levels', h, l, info, hi => by
    cases h
    exact Or.inl hi
  | line :: lines, levels, levels', h, l, info, hi => by
    rw [loadTables] at h
    split at h
    · rcases mem_of_loadTables h l info hi with hi | ⟨h₁, h₂, h₃⟩
      · exact Or.inl hi
      · exact Or.inr ⟨h₁, h₂, List.mem_cons_of_mem _ h₃⟩
    · split at h
      · rename_i hlvl
        rcases mem_of_loadTables h l info hi with hi | ⟨h₁, h₂, h₃⟩
        · rcases setAt_cases (f := levels) (b := setAt levels line.level.toNat _ l) rfl with ⟨rfl, he⟩ | ⟨-, he⟩
          · rw [← he] at hi
            rcases List.mem_append.mp hi with hi | hi
            · exact Or.inl hi
            · rw [List.mem_singleton.mp hi]
              refine Or.inr ⟨rfl, by omega, List.mem_cons.mpr (Or.inl ?_)⟩
              show ManifestLine.mk line.fileId (line.level.toNat : Int) line.numEntries line.smallestKey
                line.largestKey = line
              rw [Int.toNat_of_nonneg hlvl.1]
          · rw [← he] at hi
            exact Or.inl hi
        · exact Or.inr ⟨h₁, h₂, List.mem_cons_of_mem _ h₃⟩
      · cases h

/-- **Lines of tables that are there** are all loaded, each on its level. -/
theorem loadTables_present {sst : Folder (Option SSTableFile)} {maxLevels : Nat} : ∀ (lines : List ManifestLine)
    (levels : Levels), (∀ line ∈ lines, (0 ≤ line.level ∧ line.level < maxLevels) ∧ line.fileId ∈ sst.dir ∧
      sst.data line.fileId ≠ none) → ∃ levels', loadTables sst maxLevels lines levels = .ok levels' ∧
        ∀ l : Nat, (levels' l).map manifestLine = (levels l).map manifestLine ++
          lines.filter (fun line => decide (line.level = (l : Int)))
  | [], levels, _ => ⟨levels, rfl, fun l => by simp⟩
  | line :: lines, levels, h => by
    obtain ⟨hlvl, hd, hne⟩ := h line List.mem_cons_self
    obtain ⟨file, hfile⟩ := Option.ne_none_iff_exists'.mp hne
    obtain ⟨levels', hload, hlines⟩ := loadTables_present lines
      (setAt levels line.level.toNat (levels line.level.toNat ++ [⟨{
        fileId := line.fileId, level := line.level.toNat, smallestKey := line.smallestKey, largestKey := line.largestKey,
        numEntries := line.numEntries, fileSize := file.size }, .openFile file⟩]))
      fun line' h' => h line' (List.mem_cons_of_mem _ h')
    refine ⟨levels', ?_, fun l => ?_⟩
    · rw [loadTables, if_pos (Folder.has_iff.mpr hd), hfile]
      simp only
      rw [if_pos hlvl]
      exact hload
    · rw [hlines l, List.filter_cons]
      by_cases hl : l = line.level.toNat
      · subst hl
        have hpos : line.level = (line.level.toNat : Int) := (Int.toNat_of_nonneg hlvl.1).symm
        have hline : (⟨line.fileId, (line.level.toNat : Int), line.numEntries, line.smallestKey, line.largestKey⟩ :
            ManifestLine) = line := by rw [← hpos]
        rw [setAt_self, if_pos (decide_eq_true hpos), List.map_append, List.append_assoc]
        congr 1
        show [_] ++ _ = _
        rw [List.singleton_append]
        congr 1
      · rw [setAt_of_ne _ hl, if_neg]
        simp only [decide_eq_true_eq]
        omega

/-- The lines of a level of a manifest. -/
theorem filter_manifestLines {levels : Levels} {maxLevels : Nat} (h : Placed levels maxLevels) (l : Nat) :
    (manifestLines levels maxLevels).filter (fun line => decide (line.level = (l : Int))) =
      (levels l).map manifestLine := by
  have hone : ∀ i, ((levels i).map manifestLine).filter (fun line => decide (line.level = (l : Int))) =
      if i = l then (levels l).map manifestLine else [] := by
    intro i
    split
    · rename_i hi
      subst hi
      refine List.filter_eq_self.mpr fun line hline => ?_
      obtain ⟨info, hinfo, rfl⟩ := List.mem_map.mp hline
      exact decide_eq_true (congrArg Int.ofNat (h i info hinfo).1)
    · rename_i hi
      refine List.filter_eq_nil_iff.mpr fun line hline => ?_
      obtain ⟨info, hinfo, rfl⟩ := List.mem_map.mp hline
      have hlvl : (manifestLine info).level = (i : Int) := congrArg Int.ofNat (h i info hinfo).1
      simp only [hlvl, decide_eq_true_eq]
      omega
  have hflat : ∀ n, (List.range n).flatMap (fun i => if i = l then (levels l).map manifestLine else []) =
      if l < n then (levels l).map manifestLine else [] := by
    intro n
    induction n with
    | zero => rfl
    | succ n ih =>
      rw [List.range_succ, List.flatMap_append, ih, List.flatMap_singleton]
      rcases Nat.lt_trichotomy l n with hl | rfl | hl
      · rw [if_pos hl, if_neg (by omega), if_pos (by omega), List.append_nil]
      · rw [if_neg (by omega), if_pos rfl, if_pos (by omega), List.nil_append]
      · rw [if_neg (by omega), if_neg (by omega), if_neg (by omega)]
        rfl
  rw [show manifestLines levels maxLevels = (List.range maxLevels).flatMap fun i => (levels i).map manifestLine from rfl,
    List.filter_flatMap]
  simp only [hone]
  rw [hflat]
  split
  · rfl
  · rename_i hl
    have hnil : levels l = [] := by
      refine List.eq_nil_iff_forall_not_mem.mpr fun info hi => hl (h l info hi).2
    rw [hnil]
    rfl

/-! ## The states of the interface -/

/-- The states that calls lead to, whatever fails in them, from any directory that can be opened. -/
inductive Reached : DB → Prop
  | opens {o : Options} (ho : 1 ≤ o.maxSstableLevels) (d : Disk) (f : OpenFaults) (hok : (openDB o d f).2 = .ok ()) :
      Reached (openDB o d f).1
  | exec {db : DB} (h : Reached db) (op : FaultyOp) : Reached (db.execFaulty op)

/-- What a step that registers new tables on a level keeps. -/
theorem Placed.of_new {levels levels' : Levels} {maxLevels lvl next : Nat} (h : Placed levels maxLevels)
    (hn : NewOn levels levels' lvl next) (hl : lvl < maxLevels) : Placed levels' maxLevels := by
  intro l info hi
  rcases hn l info hi with hi | ⟨rfl, hlvl, -⟩
  · exact h l info hi
  · exact ⟨hlvl, hl⟩

/-- The tables are placed, in at least one level. -/
structure Arrayed (db : DB) : Prop where
  pos : 1 ≤ db.options.maxSstableLevels
  placed : Placed db.levels db.options.maxSstableLevels

theorem Arrayed.flushMemTable {db : DB} (h : db.Arrayed) (m : MemTable) (f : FlushFaults) :
    (db.flushMemTable m f).1.Arrayed := by
  have ho : (db.flushMemTable m f).1.options = db.options := (onlyIndex_flush db m f).options
  exact ⟨ho ▸ h.pos, ho ▸ h.placed.of_new (flushMemTable_newOn db m f).1 h.pos⟩

theorem Arrayed.flushFront {db : DB} (h : db.Arrayed) (f : FlushFaults) : (db.flushFront f).Arrayed := by
  unfold DB.flushFront
  split
  · exact h
  · rename_i m ms _
    have hm := h.flushMemTable m f
    exact ⟨hm.pos, hm.placed⟩

theorem Arrayed.compactLevel {db : DB} (h : db.Arrayed) (lvl : Int) (f : CompactFaults) : (db.compactLevel lvl f).1.Arrayed := by
  have ho : (db.compactLevel lvl f).1.options = db.options := (onlyIndex_compact db lvl f).options
  refine ⟨ho ▸ h.pos, ho ▸ ?_⟩
  unfold DB.compactLevel
  split
  · exact h.placed
  · exact h.placed.of_new (compactTables_newOn db lvl.toNat f) (by omega)

theorem Arrayed.compactLevels (f : Nat → CompactFaults) : ∀ (lvls : List Nat) (db : DB), db.Arrayed →
    (DB.compactLevels f lvls db).1.Arrayed
  | [], _, h => h
  | lvl :: lvls, db, h => by
    have hc := h.compactLevel lvl (f lvl)
    rw [DB.compactLevels]
    split
    · exact Arrayed.compactLevels f lvls db h
    · split
      · rename_i hr
        rw [hr] at hc
        exact hc
      · rename_i hr
        rw [hr] at hc
        exact Arrayed.compactLevels f lvls _ hc

theorem Arrayed.exec {db : DB} (h : db.Arrayed) : ∀ op : FaultyOp, (db.execFaulty op).Arrayed
  | .write sync batch f => by
    have hs := (write_logSteps db sync batch f).sameTables
    exact ⟨hs.options ▸ h.pos, hs.options ▸ hs.levels ▸ h.placed⟩
  | .flush f => h.flushFront f
  | .compactLevel lvl f => h.compactLevel lvl f
  | .compactRange f => Arrayed.compactLevels f _ db h
  | .runGC f => by
    have hs := runGC_sameTables db f
    exact ⟨hs.options ▸ h.pos, hs.options ▸ hs.levels ▸ h.placed⟩

/-- The replay of an opening. -/
theorem Arrayed.replayWals (f : OpenFaults) : ∀ (ids : List Nat) (i : Nat) (db : DB), db.Arrayed →
    (DB.replayWals f i ids db).1.Arrayed
  | [], _, _, h => h
  | id :: ids, i, db, h => by
    rw [DB.replayWals]
    split
    · exact h
    · rename_i records _
      simp only
      split
      · have hf := @Arrayed.flushMemTable { db with
          memtable := records.foldl replayRecord db.memtable
          sequenceNumber := records.foldl (fun (n : Nat) (r : WALRecord) => max n r.sequence) db.sequenceNumber }
          ⟨h.pos, h.placed⟩ (records.foldl replayRecord db.memtable) (f.flush i)
        split
        · rename_i he
          rw [he] at hf
          exact hf
        · rename_i he
          rw [he] at hf
          exact Arrayed.replayWals f ids (i + 1) _ ⟨hf.pos, hf.placed⟩
      · exact Arrayed.replayWals f ids (i + 1) _ ⟨h.pos, h.placed⟩

/-- **An opening**, of any directory. -/
theorem arrayed_openDB {o : Options} (ho : 1 ≤ o.maxSstableLevels) (d : Disk) (f : OpenFaults) :
    (openDB o d f).1.Arrayed := by
  have hnone : ∀ next, (openState o d next fun _ => []).Arrayed := fun next =>
    ⟨ho, fun l info hi => absurd hi List.not_mem_nil⟩
  unfold openDB
  split
  · exact ⟨ho, (hnone 1).placed⟩
  split
  · exact hnone 1
  rename_i next levels hload
  have hstart : (openState o d next levels).Arrayed := by
    refine ⟨ho, fun l info hi => ?_⟩
    unfold loadManifest at hload
    split at hload
    · cases hload
      exact absurd hi List.not_mem_nil
    · split at hload
      · cases hload
      · rename_i hl
        cases hload
        exact (mem_of_loadTables hl l info hi).elim (fun hn => absurd hn List.not_mem_nil) fun ⟨h₁, h₂, _⟩ => ⟨h₁, h₂⟩
  have hr := hstart.replayWals f (walIds d.wal) 0
  unfold recoverFromWAL
  simp only
  split
  · rename_i he
    have hr' : (DB.replayWals f 0 (walIds d.wal) (openState o d next levels)).1.Arrayed := hr
    rw [show (openState o d next levels).wal.files = d.wal from rfl] at he
    rw [he] at hr'
    exact hr'
  · rename_i he
    have hr' : (DB.replayWals f 0 (walIds d.wal) (openState o d next levels)).1.Arrayed := hr
    rw [show (openState o d next levels).wal.files = d.wal from rfl] at he
    rw [he] at hr'
    exact ⟨hr'.pos, hr'.placed⟩

theorem Reached.arrayed {db : DB} (h : db.Reached) : db.Arrayed := by
  induction h with
  | opens ho d f _ => exact arrayed_openDB ho d f
  | exec _ op ih => exact ih.exec op

/-! ## The round trip -/

/-- The table files are there, and can be opened. -/
def TablesPresent (db : DB) : Prop :=
  ∀ l, ∀ info ∈ db.levels l, info.tableMeta.fileId ∈ db.sst.dir ∧ db.sst.data info.tableMeta.fileId ≠ none

/-- The numbers of the manifest have the types they have in the source: `uint32_t`, `int` and `uint64_t`. -/
structure NumbersFit (db : DB) : Prop where
  next : db.nextSstableId < 2 ^ 32
  levels : db.options.maxSstableLevels ≤ 2 ^ 31
  fileId : ∀ l, ∀ info ∈ db.levels l, info.tableMeta.fileId < 2 ^ 32
  numEntries : ∀ l, ∀ info ∈ db.levels l, info.tableMeta.numEntries < 2 ^ 64

/-- `LoadManifest` on what `SaveManifest` writes gives the next table id and, in the same levels and the same order, the
tables with their numbers of entries and their boundary keys. -/
def RoundTrips (db : DB) : Prop :=
  ∃ levels', loadManifest (db.saveManifest false).1.disk db.options.maxSstableLevels = .ok (db.nextSstableId, levels') ∧
    ∀ l, (levels' l).map manifestLine = (db.levels l).map manifestLine

/-- No boundary key is empty or contains whitespace. -/
def KeysReadable (db : DB) : Prop :=
  ∀ l, ∀ info ∈ db.levels l, Token info.tableMeta.smallestKey ∧ Token info.tableMeta.largestKey

/-- What is loaded has boundary keys that can be read. -/
theorem RoundTrips.keysReadable {db : DB} (h : db.RoundTrips) : db.KeysReadable := by
  obtain ⟨levels', hload, hlines⟩ := h
  intro l info hi
  have hline : manifestLine info ∈ (levels' l).map manifestLine := by
    rw [hlines l]
    exact List.mem_map_of_mem hi
  obtain ⟨info', hi', he⟩ := List.mem_map.mp hline
  have hmem : manifestLine info' ∈ (parseManifest (encodeManifest db.nextSstableId
      (manifestLines db.levels db.options.maxSstableLevels))).2 := by
    have hsave : (db.saveManifest false).1.disk.manifest =
        some (encodeManifest db.nextSstableId (manifestLines db.levels db.options.maxSstableLevels)) := rfl
    rw [loadManifest, hsave] at hload
    simp only at hload
    split at hload
    · cases hload
    · rename_i hl
      simp only [Except.ok.injEq, Prod.mk.injEq] at hload
      obtain ⟨-, rfl⟩ := hload
      exact (mem_of_loadTables hl l info' hi').elim (fun hn => absurd hn List.not_mem_nil) fun ⟨_, _, hm⟩ => hm
  have htok := tokens_of_parseManifest _ _ hmem
  rw [he] at htok
  exact htok

/-- A manifest with keys that can be read gives the tables back. -/
theorem Arrayed.roundTrips {db : DB} (h : db.Arrayed) (hp : db.TablesPresent) (hn : db.NumbersFit) (hk : db.KeysReadable) :
    db.RoundTrips := by
  have hlines : ∀ line ∈ manifestLines db.levels db.options.maxSstableLevels,
      ∃ l, ∃ info ∈ db.levels l, manifestLine info = line := by
    intro line hline
    obtain ⟨l, -, hl⟩ := List.mem_flatMap.mp hline
    obtain ⟨info, hi, he⟩ := List.mem_map.mp hl
    exact ⟨l, info, hi, he⟩
  have hlevel : ∀ l, ∀ info ∈ db.levels l, (manifestLine info).level = (l : Int) := fun l info hi =>
    congrArg Int.ofNat (h.placed l info hi).1
  have hread := parseManifest_encode hn.next fun line hline => by
    obtain ⟨l, info, hi, rfl⟩ := hlines line hline
    have hl := hlevel l info hi
    have hlt := (h.placed l info hi).2
    have hmax := hn.levels
    exact ⟨hn.fileId l info hi, ⟨by omega, by omega⟩, hn.numEntries l info hi, (hk l info hi).1, (hk l info hi).2⟩
  obtain ⟨levels', hload, hmap⟩ := @loadTables_present db.sst db.options.maxSstableLevels
    (manifestLines db.levels db.options.maxSstableLevels) (fun _ => []) fun line hline => by
      obtain ⟨l, info, hi, rfl⟩ := hlines line hline
      have hl := hlevel l info hi
      have hlt := (h.placed l info hi).2
      exact ⟨⟨by omega, by omega⟩, hp l info hi⟩
  refine ⟨levels', ?_, fun l => ?_⟩
  · have hsave : (db.saveManifest false).1.disk.manifest =
        some (encodeManifest db.nextSstableId (manifestLines db.levels db.options.maxSstableLevels)) := rfl
    rw [loadManifest, hsave]
    simp only
    rw [hread]
    have hload' : loadTables (db.saveManifest false).1.disk.sst db.options.maxSstableLevels
        (manifestLines db.levels db.options.maxSstableLevels) (fun _ => []) = .ok levels' := hload
    rw [hload']
  · rw [hmap l, filter_manifestLines h.placed l]
    rfl

/-- **The manifest is read back** exactly when no boundary key is empty or contains whitespace. -/
theorem manifest_roundTrip_iff {db : DB} (h : db.Reached) (hp : db.TablesPresent) (hn : db.NumbersFit) :
    db.RoundTrips ↔ db.KeysReadable :=
  ⟨RoundTrips.keysReadable, h.arrayed.roundTrips hp hn⟩

/-- A table with one key. -/
def listed (key : Key) : DB := ((fresh { memtableSizeLimit := 1 }).execFaulty (.write false [.put key [7]] {})).execFaulty (.flush {})

theorem reached_listed (key : Key) : (listed key).Reached :=
  ((Reached.opens (by decide) .empty .none rfl).exec _).exec _

theorem numbersFit_listed : (listed [97]).NumbersFit := by
  have placed := (reached_listed [97]).arrayed.placed
  have hid : ∀ l < 7, ∀ info ∈ (listed [97]).levels l, info.tableMeta.fileId < 2 ^ 32 := by decide +kernel
  have hnum : ∀ l < 7, ∀ info ∈ (listed [97]).levels l, info.tableMeta.numEntries < 2 ^ 64 := by decide +kernel
  exact {
    next := by decide +kernel
    levels := by decide +kernel
    fileId := fun l info hi => hid l (placed l info hi).2 info hi
    numEntries := fun l info hi => hnum l (placed l info hi).2 info hi }

/-- A key without whitespace. -/
theorem manifest_roundTrip_sample : (listed [97]).RoundTrips := by
  have placed := (reached_listed [97]).arrayed.placed
  have hpresent : ∀ l < 7, ∀ info ∈ (listed [97]).levels l,
      info.tableMeta.fileId ∈ (listed [97]).sst.dir ∧ (listed [97]).sst.data info.tableMeta.fileId ≠ none := by
    decide +kernel
  have htoken : ∀ l < 7, ∀ info ∈ (listed [97]).levels l,
      Token info.tableMeta.smallestKey ∧ Token info.tableMeta.largestKey := by decide +kernel
  exact (manifest_roundTrip_iff (reached_listed [97]) (fun l info hi => hpresent l (placed l info hi).2 info hi)
    numbersFit_listed).mpr fun l info hi => htoken l (placed l info hi).2 info hi

/-- **The key `a b`** comes back as `a`, and its second half as the largest key of the table. -/
theorem manifest_splits_key :
    (((listed [97, 32, 98]).levels 0).map fun info => (info.tableMeta.smallestKey, info.tableMeta.largestKey)) =
      [([97, 32, 98], [97, 32, 98])] ∧
    (loadManifest ((listed [97, 32, 98]).saveManifest false).1.disk 7).toOption.map (fun r =>
      (r.2 0).map fun info => (info.tableMeta.smallestKey, info.tableMeta.largestKey)) = some [([97], [98])] ∧
    ¬(listed [97, 32, 98]).RoundTrips := by
  refine ⟨by decide +kernel, by decide +kernel, fun h => ?_⟩
  have hkeys : ∃ info ∈ (listed [97, 32, 98]).levels 0, ∃ b ∈ info.tableMeta.smallestKey, isSpace b = true := by
    decide +kernel
  obtain ⟨info, hi, b, hb, hs⟩ := hkeys
  have htok := (h.keysReadable 0 info hi).1.2 b hb
  rw [hs] at htok
  cases htok

end DB

end SplitKV
