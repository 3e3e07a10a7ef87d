import SplitKV.Faults.Run
import SplitKV.PowerLoss.Write
import SplitKV.PowerLoss.Pointers
import SplitKV.Recovery.Open

/-!
# Records that last, and the order of the tables

A record among the synced bytes of a WAL file survives every power loss (`WAL.Survives`, `WAL.Durable`). Flushes and
compactions, wherever they fail, leave tables in which the versions of a key are some of those before, in the same order
(`DB.flushFront_layers`, `DB.compactLevel_layers`); so does a replay, for the keys of which it reads no record
(`DB.replayWals_layers`).
-/

namespace SplitKV

open Assoc Versions

namespace WAL

/-- Files are only added, and what was synced stays. -/
structure Lasts (files files' : Folder Bytes) : Prop where
  dir : ∀ id ∈ files.dir, id ∈ files'.dir
  synced : ∀ id ∈ files.dir, (files.data id).take (files.synced id) <+: (files'.data id).take (files'.synced id)

theorem Lasts.refl (files : Folder Bytes) : Lasts files files := ⟨fun _ h => h, fun _ _ => List.prefix_refl _⟩

theorem Lasts.trans {a b c : Folder Bytes} (h : Lasts a b) (h' : Lasts b c) : Lasts a c :=
  ⟨fun id hid => h'.dir id (h.dir id hid), fun id hid => (h.synced id hid).trans (h'.synced id (h.dir id hid))⟩

/-- The record lies among the bytes of its file that were synced. -/
def Survives (files : Folder Bytes) (r : WALRecord) : Prop :=
  ∃ id ∈ files.dir, r ∈ recoverFile ((files.data id).take (files.synced id))

theorem Survives.mono {files files' : Folder Bytes} {r : WALRecord} (h : Survives files r) (hl : Lasts files files')
    (ht : Logs files') : Survives files' r := by
  obtain ⟨id, hid, hr⟩ := h
  obtain ⟨rs, hrs⟩ := ht.torn id (hl.dir id hid)
  obtain ⟨rs', htake, -⟩ := hrs.take (files'.synced id)
  exact ⟨id, hl.dir id hid, (htake.recover_mono (hl.synced id hid)).subset hr⟩

theorem Survives.mem_log {files : Folder Bytes} {r : WALRecord} (h : Survives files r) (ht : Logs files) :
    r ∈ log files := by
  obtain ⟨id, hid, hr⟩ := h
  obtain ⟨rs, hrs⟩ := ht.torn id hid
  exact List.mem_flatMap.mpr ⟨id, hid, (hrs.recover_mono (List.take_prefix _ _)).subset hr⟩

/-- A record of the key lies among the bytes that were synced. -/
def Durable (files : Folder Bytes) (key : Key) : Prop :=
  ∃ id ∈ files.dir, ∃ r ∈ recoverFile ((files.data id).take (files.synced id)), r.key = key

theorem durable_iff {files : Folder Bytes} {key : Key} : Durable files key ↔ ∃ r, Survives files r ∧ r.key = key := by
  constructor
  · rintro ⟨id, hid, r, hr, hk⟩
    exact ⟨r, ⟨id, hid, hr⟩, hk⟩
  · rintro ⟨r, ⟨id, hid, hr⟩, hk⟩
    exact ⟨id, hid, r, hr, hk⟩

/-- **Durable records stay.** -/
theorem Durable.mono {files files' : Folder Bytes} {key : Key} (h : Durable files key) (hl : Lasts files files')
    (ht : Logs files') : Durable files' key := by
  obtain ⟨r, hr, hk⟩ := durable_iff.mp h
  exact durable_iff.mpr ⟨r, hr.mono hl ht, hk⟩

/-- A durable record is a record. -/
theorem Durable.mem_log {files : Folder Bytes} {key : Key} (h : Durable files key) (ht : Logs files) :
    ∃ r ∈ log files, r.key = key := by
  obtain ⟨r, hr, hk⟩ := durable_iff.mp h
  exact ⟨r, hr.mem_log ht, hk⟩

/-- All bytes of the files were synced. -/
def AllSynced (files : Folder Bytes) : Prop := ∀ id ∈ files.dir, (files.data id).length ≤ files.synced id

theorem AllSynced.durable {files : Folder Bytes} (h : AllSynced files) {r : WALRecord} (hr : r ∈ log files) :
    Durable files r.key := by
  obtain ⟨id, hid, hr⟩ := List.mem_flatMap.mp hr
  refine ⟨id, hid, r, ?_, rfl⟩
  rw [List.take_of_length_le (h id hid)]
  exact hr

/-- **A power loss** leaves logs with the first records of every file, and all of their bytes are on the device. -/
theorem Logs.lose {files : Folder Bytes} (h : Logs files) (kept : Nat → Nat) :
    Logs (files.lose kept) ∧ AllSynced (files.lose kept) ∧ Lasts files (files.lose kept) ∧
      (log (files.lose kept)).Sublist (log files) := by
  have htake : ∀ id ∈ files.dir, ∃ rs rs', Torn (files.data id) rs ∧ Torn ((files.lose kept).data id) rs' ∧ rs' <+: rs := by
    intro id hid
    obtain ⟨rs, ht⟩ := h.torn id hid
    obtain ⟨rs', ht', hsub⟩ := ht.take (max (files.synced id) (kept id))
    exact ⟨rs, rs', ht, ht', hsub⟩
  refine ⟨⟨h.sorted, fun id hid => ?_⟩, fun id _ => Nat.le_refl _, ⟨fun id hid => hid, fun id hid => ?_⟩, ?_⟩
  · obtain ⟨-, rs', -, ht', -⟩ := htake id hid
    exact ⟨rs', ht'⟩
  · have hself : ((files.lose kept).data id).take ((files.lose kept).synced id) = (files.lose kept).data id :=
      List.take_of_length_le (Nat.le_refl _)
    rw [hself]
    exact List.take_prefix_take_left (Nat.le_max_left _ _)
  · have hsub : ∀ ids : List Nat, (∀ id ∈ ids, id ∈ files.dir) →
        (ids.flatMap fun id => recoverFile ((files.lose kept).data id)).Sublist
          (ids.flatMap fun id => recoverFile (files.data id)) := by
      intro ids
      induction ids with
      | nil => exact fun _ => List.Sublist.refl _
      | cons id ids ih =>
        intro hids
        obtain ⟨rs, rs', ht, ht', hp⟩ := htake id (hids id List.mem_cons_self)
        rw [List.flatMap_cons, List.flatMap_cons, ht.recover, ht'.recover]
        exact hp.sublist.append (ih fun i hi => hids i (List.mem_cons_of_mem _ hi))
    exact hsub files.dir fun id hid => hid

/-- A new file behind the others. -/
theorem lasts_create {files : Folder Bytes} {id : Nat} (hid : ∀ i ∈ files.dir, i < id) :
    Lasts files (files.create id []) := by
  refine ⟨fun i hi => Folder.mem_dir_create.mpr (Or.inr hi), fun i hi => ?_⟩
  have hne : i ≠ id := (hid i hi).ne
  rw [Folder.data_create_of_ne _ hne]
  show _ <+: (files.data i).take (setAt files.synced id 0 i)
  rw [setAt_of_ne _ hne]

theorem lasts_sync (w : WAL) : Lasts w.files w.sync.files := by
  unfold sync
  split
  · refine ⟨fun id hid => hid, fun id hid => ?_⟩
    show _ <+: (w.files.data id).take (setAt w.files.synced w.currentId _ id)
    by_cases hc : id = w.currentId
    · subst hc
      rw [setAt_self, List.take_length]
      exact List.take_prefix _ _
    · rw [setAt_of_ne _ hc]
  · exact Lasts.refl _

theorem Gains.lasts {w w' : WAL} {new : List WALRecord} {ok : Prop} (h : Gains w w' new ok) : Lasts w.files w'.files := by
  refine ⟨fun id hid => h.dir.symm ▸ hid, fun id hid => ?_⟩
  rw [h.synced]
  by_cases hc : id = w.currentId
  · subst hc
    exact List.IsPrefix.take h.grows _
  · rw [h.older id hc]

/-- **The log behind a write.** -/
theorem Gains.logs {w w' : WAL} {new : List WALRecord} {ok : Prop} (h : Gains w w' new ok) (ha : Active w)
    (hl : Logs w.files) : Logs w'.files ∧ log w'.files = log w.files ++ new ∧ (ok → Active w') := by
  obtain ⟨older, hd⟩ := ha.last
  obtain ⟨rs, hrs⟩ := ha.whole
  obtain ⟨h₁, h₂⟩ := log_newest hl hd h.dir h.older hrs (h.torn rs hrs)
  refine ⟨h₁, h₂, fun hok => ?_⟩
  obtain ⟨g₁, g₂⟩ := h.whole hok
  refine ⟨g₁.trans ha.writer, ⟨older, ?_⟩, rs ++ new, ?_⟩
  · rw [h.dir, h.currentId, hd]
  · rw [h.currentId]
    exact g₂ rs hrs

end WAL

namespace DB

/-! ## Tables -/

/-- The files describe tables in which the versions of a key are some of `vs`, in the same order. -/
def Below (o : Options) (d : Disk) (bound : Nat) (vs : Key → List InternalEntry) : Prop :=
  ∃ levels next, next ≤ bound ∧ Described o d levels next ∧
    ∀ key, (levels.versions o.maxSstableLevels key).Sublist (vs key)

theorem tableVersions_sublist (db : DB) (key : Key) : (db.tableVersions key).Sublist (db.versions key) :=
  List.sublist_append_right _ _

/-- **A flush**, wherever it fails. -/
theorem flushFront_layers {db : DB} (hw : db.Wf) (h : Described db.options db.disk db.levels db.nextSstableId)
    (f : FlushFaults) : Below db.options (db.flushFront f).disk (db.flushFront f).nextSstableId db.versions := by
  have hvers := versions_flushFront_sublist hw f
  cases hq : db.immutableMemtables with
  | nil =>
    have he : db.flushFront f = db := by rw [DB.flushFront, hq]
    rw [he]
    exact ⟨db.levels, db.nextSstableId, Nat.le_refl _, h, tableVersions_sublist db⟩
  | cons m ms =>
    have hm : m.Valid := by
      refine hw.memtables m (List.mem_cons_of_mem _ (List.mem_reverse.mpr ?_))
      rw [hq]
      exact List.mem_cons_self
    obtain ⟨-, hi, -⟩ := flushFront_cases hw f hq
    have hopt : (db.flushFront f).options = db.options := hi.options
    have he : db.flushFront f = (db.flushMemTable m f).1.popFront := by rw [DB.flushFront, hq]
    obtain ⟨levels, next, hd, hle, hl, -⟩ := flushMemTable_describes h hm f
    refine ⟨levels, next, ?_, ?_, fun key => ?_⟩
    · rw [he]
      exact hle
    · rw [he]
      exact hd
    · rcases hl with rfl | rfl
      · exact tableVersions_sublist db key
      · have ht := (tableVersions_sublist (db.flushFront f) key).trans (hvers key)
        rw [tableVersions, hopt, he] at ht
        exact ht

/-- **A compaction**, wherever it fails. -/
theorem compactLevel_layers {db : DB} (hw : db.Wf) (h : Described db.options db.disk db.levels db.nextSstableId)
    (lvl : Int) (f : CompactFaults) :
    Below db.options (db.compactLevel lvl f).1.disk (db.compactLevel lvl f).1.nextSstableId db.versions := by
  obtain ⟨-, hvers⟩ := compactLevel_sublist hw lvl f
  have hopt := (onlyIndex_compact db lvl f).options
  unfold DB.compactLevel at hvers hopt ⊢
  split
  · exact ⟨db.levels, db.nextSstableId, Nat.le_refl _, h, tableVersions_sublist db⟩
  · rename_i hl
    rw [if_neg hl] at hvers hopt
    have hlt : lvl.toNat + 1 < db.options.maxSstableLevels := by omega
    obtain ⟨levels, next, hd, hle, hl, -⟩ := compactTables_describes h hlt f
    refine ⟨levels, next, hle, hd, fun key => ?_⟩
    rcases hl with rfl | rfl
    · exact tableVersions_sublist db key
    · have ht := (tableVersions_sublist _ key).trans (hvers key)
      rw [tableVersions, hopt] at ht
      exact ht

end DB

/-! ## Options -/

namespace Levels

theorem flatMap_range {α : Type} {g : Nat → List α} {m n : Nat} (hm : ∀ l, m ≤ l → g l = []) (hle : m ≤ n) :
    (List.range n).flatMap g = (List.range m).flatMap g := by
  obtain ⟨k, rfl⟩ := Nat.exists_eq_add_of_le hle
  rw [List.range_add, List.flatMap_append]
  have hnil : ((List.range k).map (m + ·)).flatMap g = [] := by
    rw [List.flatMap_eq_nil_iff]
    intro l hl
    obtain ⟨i, -, rfl⟩ := List.mem_map.mp hl
    exact hm _ (Nat.le_add_right m i)
  rw [hnil, List.append_nil]

/-- Two bounds behind which there are no tables. -/
theorem flatMap_range_eq {α : Type} {g : Nat → List α} {m n : Nat} (hm : ∀ l, m ≤ l → g l = [])
    (hn : ∀ l, n ≤ l → g l = []) : (List.range n).flatMap g = (List.range m).flatMap g := by
  rcases Nat.le_total m n with hle | hle
  · exact flatMap_range hm hle
  · exact (flatMap_range hn hle).symm

/-- The versions in levels of which only some hold tables. -/
theorem versions_maxLevels {levels : Levels} {m n : Nat} (hm : ∀ l, m ≤ l → levels l = [])
    (hn : ∀ l, n ≤ l → levels l = []) (key : Key) : levels.versions n key = levels.versions m key := by
  have hnil : ∀ l, levels l = [] → tableVersions (levels.searched l) key = [] := by
    intro l hl
    unfold Levels.searched
    split
    · rename_i h0
      rw [h0] at hl
      rw [hl]
      rfl
    · rw [hl]
      rfl
  exact flatMap_range_eq (fun l hge => hnil l (hm l hge)) fun l hge => hnil l (hn l hge)

end Levels

/-- The lines that are loaded name levels that there are. -/
theorem DB.level_of_loadTables {sst : Folder (Option SSTableFile)} {maxLevels : Nat} :
    ∀ {lines : List ManifestLine} {levels levels' : Levels}, DB.loadTables sst maxLevels lines levels = .ok levels' →
      ∀ line ∈ lines, ∀ file, line.fileId ∈ sst.dir → sst.data line.fileId = some file → line.level < maxLevels
  | [], _, _, _, line, hl, _, _, _ => absurd hl List.not_mem_nil
  | a :: lines, levels, levels', h, line, hl, file, hd, hf => by
    rw [DB.loadTables] at h
    rcases List.mem_cons.mp hl with rfl | hl
    · rw [Folder.has_iff.mpr hd, if_pos rfl, hf] at h
      simp only at h
      split at h
      · rename_i hlt
        exact hlt.2
      · cases h
    · split at h
      · exact DB.level_of_loadTables h line hl file hd hf
      · split at h
        · exact DB.level_of_loadTables h line hl file hd hf
        · cases h

/-- **Other options.** When the manifest is loaded with other options, it describes the levels for these. -/
theorem Described.retarget {o o' : Options} {d : Disk} {levels : Levels} {next : Nat} (h : Described o d levels next)
    (hn : next < 2 ^ 32) (hl : o.maxSstableLevels < 2 ^ 31) (hpos : 1 ≤ o'.maxSstableLevels) (hr : Listable levels)
    {next' : Nat} {levels' : Levels} (hload : DB.loadManifest d o'.maxSstableLevels = .ok (next', levels')) :
    levels' = levels ∧ next' = next ∧ Described o' d levels next ∧
      ∀ key, levels.versions o'.maxSstableLevels key = levels.versions o.maxSstableLevels key := by
  rcases h.manifest with ⟨he, rfl, rfl⟩ | he
  · rw [DB.loadManifest, he] at hload
    cases hload
    refine ⟨rfl, rfl, ⟨Or.inl ⟨he, rfl, rfl⟩, h.onDisk, ⟨hpos, h.wf.tables, h.wf.ids, h.wf.unique, fun _ _ => rfl⟩, h.ids,
      h.unique⟩, Levels.versions_maxLevels (fun _ _ => rfl) fun _ _ => rfl⟩
  · -- the levels that the new options leave out hold no table
    have hempty : ∀ l, o'.maxSstableLevels ≤ l → levels l = [] := by
      intro l hge
      by_contra hne
      obtain ⟨info, hi⟩ := List.exists_mem_of_ne_nil _ hne
      obtain ⟨file, hdir, hdata, -, -⟩ := (h.onDisk l info hi).file
      have hlt : l < o.maxSstableLevels := by
        by_contra hge
        rw [h.wf.empty l (not_lt.mp hge)] at hne
        exact hne rfl
      rw [DB.loadManifest, he] at hload
      simp only at hload
      rw [parseManifest_encode hn (h.readable hn hl hr)] at hload
      split at hload
      · cases hload
      · rename_i hok
        have hline : manifestLine info ∈ DB.manifestLines levels o.maxSstableLevels :=
          List.mem_flatMap.mpr ⟨l, List.mem_range.mpr hlt, List.mem_map.mpr ⟨info, hi, rfl⟩⟩
        have hlevel := DB.level_of_loadTables hok _ hline file hdir hdata
        rw [show (manifestLine info).level = (info.tableMeta.level : Int) from rfl, (h.onDisk l info hi).level] at hlevel
        omega
    have hlines : DB.manifestLines levels o'.maxSstableLevels = DB.manifestLines levels o.maxSstableLevels :=
      Levels.flatMap_range_eq (fun l hge => by rw [h.wf.empty l hge]; rfl) fun l hge => by rw [hempty l hge]; rfl
    have hd : Described o' d levels next := ⟨Or.inr (hlines ▸ he), h.onDisk,
      ⟨hpos, h.wf.tables, h.wf.ids, h.wf.unique, hempty⟩, h.ids, h.unique⟩
    have hself := hd.loadTables
    rw [DB.loadManifest, he] at hload
    simp only at hload
    rw [parseManifest_encode hn (h.readable hn hl hr)] at hload
    simp only at hload
    rw [← hlines, hself] at hload
    cases hload
    exact ⟨rfl, rfl, hd, Levels.versions_maxLevels h.wf.empty hempty⟩

/-! ## The replay -/

namespace DB

/-- Records of other keys. -/
theorem versions_replayRecords {key : Key} : ∀ (rs : List WALRecord) (db : DB) (n : Nat),
    (∀ r ∈ rs, WAL.Fits r ∧ r.key ≠ key) →
    { db with memtable := rs.foldl replayRecord db.memtable, sequenceNumber := n }.versions key = db.versions key
  | [], _, _, _ => rfl
  | r :: rs, db, n, h => by
    obtain ⟨hf, hk⟩ := h r List.mem_cons_self
    have hone : (db.addEntry r.key r.entry).versions key = db.versions key :=
      versions_addEntry_of_ne db (Ne.symm hk) r.entry
    rw [← hone, ← versions_replayRecords rs (db.addEntry r.key r.entry) n fun a ha => h a (List.mem_cons_of_mem _ ha),
      List.foldl_cons, replayRecord_eq hf]
    rfl

/-- A replay that started in `db₀` has read the records `done` of `rs`. -/
structure Layering (rs done : List WALRecord) (db₀ db : DB) : Prop extends Replaying rs done db where
  wal : db.wal = db₀.wal
  options : db.options = db₀.options
  untouched : ∀ key, (∀ r ∈ done, r.key ≠ key) → db.versions key = db₀.versions key

/-- **The tables of a replay**, wherever it fails, hold some of the versions of a state in which the keys without a record
have the versions they had; when it succeeds, it ends in such a state. It fails only where a flush does. -/
theorem replayWals_layers {rs : List WALRecord} {db : DB} (h : Replaying rs [] db) (f : OpenFaults) {ids : List Nat}
    (hd : ∀ id ∈ ids, id ∈ db.wal.files.dir)
    (hrs : ∀ id ∈ db.wal.files.dir, ∀ r ∈ WAL.recoverFile (db.wal.files.data id), r ∈ rs ∧ WAL.Fits r)
    {log : List WALRecord} (hlog : ∀ r, r ∈ log ↔ ∃ id ∈ db.wal.files.dir, r ∈ WAL.recoverFile (db.wal.files.data id)) :
    (∃ vs, Below db.options (replayWals f 0 ids db).1.disk (replayWals f 0 ids db).1.nextSstableId vs ∧
      ∀ key, (∀ r ∈ log, r.key ≠ key) → vs key = db.versions key) ∧
    ((replayWals f 0 ids db).2 = .ok () →
      Layering rs (recordsOf db.wal.files ids) db (replayWals f 0 ids db).1) ∧
    ((∀ i, f.flush i = {}) → (replayWals f 0 ids db).2 = .ok ()) := by
  -- the records that were read are records of the log
  have hrule := replayWals_induct (I := fun done db' => Layering rs done db db' ∧ ∀ r ∈ done, r ∈ log)
    (J := fun db' => (∃ vs, Below db.options db'.disk db'.nextSstableId vs ∧
      ∀ key, (∀ r ∈ log, r.key ≠ key) → vs key = db.versions key) ∧ ∃ i, f.flush i ≠ {}) db.wal.files f ids
    (fun done db' hI => by rw [hI.1.wal]) ?_ (fun done db' _ id hid hno => absurd (hd id hid) hno) ?_ ?_ ids 0 [] db
    ⟨⟨h, rfl, rfl, fun _ _ => rfl⟩, fun r hr => absurd hr List.not_mem_nil⟩ fun id hid => hid
  · generalize replayWals f 0 ids db = x at hrule ⊢
    obtain ⟨db', r⟩ := x
    cases r with
    | error s =>
      obtain ⟨hbelow, i, hi⟩ := hrule
      exact ⟨hbelow, (by intro he; cases he), fun hf => absurd (hf i) hi⟩
    | ok u =>
      obtain ⟨hI, hsub⟩ := hrule
      rw [List.nil_append] at hI hsub
      refine ⟨⟨db'.versions, ⟨db'.levels, db'.nextSstableId, Nat.le_refl _, hI.options ▸ hI.described, fun key => ?_⟩,
        fun key hk => hI.untouched key fun r hr => hk r (hsub r hr)⟩, fun _ => hI, fun _ => rfl⟩
      rw [← hI.options]
      exact tableVersions_sublist db' key
  · rintro done db' ⟨hI, hsub⟩ id - hid
    have hnew := hrs id hid
    refine ⟨⟨hI.toReplaying.records _ done db' hnew, hI.wal, hI.options, fun key hk => ?_⟩, fun r hr => ?_⟩
    · rw [versions_replayRecords _ db' _ fun r hr => ⟨(hnew r hr).2, hk r (List.mem_append_right _ hr)⟩]
      exact hI.untouched key fun r hr => hk r (List.mem_append_left _ hr)
    · rcases List.mem_append.mp hr with hr | hr
      · exact hsub r hr
      · exact (hlog r).mpr ⟨id, hid, hr⟩
  · rintro done db' i n ⟨hI, hsub⟩ hok
    have hi := onlyIndex_flush db' db'.memtable (f.flush i)
    refine ⟨⟨hI.toReplaying.flush (f.flush i) hok n, hi.wal.trans hI.wal, hi.options.trans hI.options, fun key hk => ?_⟩,
      hsub⟩
    rw [versions_flushMemTable hI.toReplaying.wf hI.immutable (f.flush i) hok]
    exact hI.untouched key hk
  · rintro done db' i ⟨hI, hsub⟩ hfails
    refine ⟨?_, i, fun hf => hfails (hf ▸ flushMemTable_ok db' hI.memtable)⟩
    have hi := onlyIndex_flush db' db'.memtable (f.flush i)
    obtain ⟨levels, next, hdesc, hle, hl, -⟩ := flushMemTable_describes hI.described hI.memtable (f.flush i)
    refine ⟨db'.versions, ⟨levels, next, hle, hI.options ▸ hdesc, fun key => ?_⟩,
      fun key hk => hI.untouched key fun r hr => hk r (hsub r hr)⟩
    rcases hl with rfl | rfl
    · rw [← hI.options]
      exact tableVersions_sublist db' key
    · have ht := tableVersions_flushMemTable hI.toReplaying.wf hI.immutable (f.flush i) key
      rw [tableVersions, hi.options, hI.options] at ht
      exact ht

end DB

end SplitKV
