import SplitKV.PowerLoss.Opening
import SplitKV.Recovery.Open

/-!
# File ids and file names

Names have at least five digits, and the three listings of the directory read five. A directory is opened as it was left,
and no file is truncated from then on, exactly when its WAL and value-log files have ids of at most five digits
(`DB.ids_survive_iff`).
-/

namespace SplitKV

/-! ## What the listings read -/

theorem digitsValue_lt : ∀ ds : Bytes, (∀ d ∈ ds, isDigit d = true) → digitsValue ds < 10 ^ ds.length := by
  intro ds
  induction ds using List.reverseRecOn with
  | nil => exact fun _ => Nat.one_pos
  | append_singleton ds d ih =>
    intro h
    have hds := ih fun x hx => h x (List.mem_append_left _ hx)
    have hd := h d (List.mem_append_right _ (List.mem_singleton.mpr rfl))
    simp only [isDigit, decide_eq_true_eq] at hd
    rw [digitsValue_append, List.length_append, List.length_singleton, Nat.pow_succ]
    simp only [List.foldl_cons, List.foldl_nil]
    omega

/-- Five characters are a number below 100000. -/
theorem stoul_take_lt (s : Bytes) : stoul (s.take 5) < 100000 := by
  have hdigits : ∀ d ∈ (s.take 5).takeWhile isDigit, isDigit d = true := fun d hd => List.mem_takeWhile_imp hd
  have hlt := digitsValue_lt _ hdigits
  have hlen : ((s.take 5).takeWhile isDigit).length ≤ 5 :=
    (List.takeWhile_sublist _).length_le.trans (List.length_take_le _ _)
  exact hlt.trans_le (Nat.pow_le_pow_right (by omega) hlen)

theorem walFileId_lt {name : Bytes} {id : Nat} (h : walFileId name = some id) : id < 100000 := by
  unfold walFileId at h
  split at h
  · cases h
    exact stoul_take_lt _
  · cases h

namespace DB

/-- The ids that `RecoverFromWAL` lists. -/
theorem mem_walIds_lt {wal : Folder Bytes} {id : Nat} (h : id ∈ walIds wal) : id < 100000 := by
  rw [walIds, List.mem_insertionSort, List.mem_filterMap] at h
  obtain ⟨i, -, he⟩ := h
  exact walFileId_lt he

/-- An id of five digits is listed. -/
theorem mem_walIds {wal : Folder Bytes} {id : Nat} (hd : id ∈ wal.dir) (h : id < 100000) : id ∈ walIds wal := by
  rw [walIds, List.mem_insertionSort, List.mem_filterMap]
  exact ⟨id, hd, walFileId_walFileName h⟩

/-- The listing of the WAL files, when all have ids of five digits. -/
theorem walIds_small {wal : Folder Bytes} (hn : wal.dir.Nodup) (h : ∀ id ∈ wal.dir, id < 100000) :
    (walIds wal).Pairwise (· < ·) ∧ ∀ id, id ∈ walIds wal ↔ id ∈ wal.dir := by
  have hids : wal.dir.filterMap (fun id => walFileId (walFileName id)) = wal.dir := by
    have hsome : ∀ id ∈ wal.dir, walFileId (walFileName id) = some id := fun id hid => walFileId_walFileName (h id hid)
    rw [List.filterMap_congr hsome, List.filterMap_some]
  rw [walIds, hids]
  have hsorted := List.pairwise_insertionSort (· ≤ · : Nat → Nat → Prop) wal.dir
  have hnodup : (wal.dir.insertionSort (· ≤ ·)).Nodup := (List.perm_insertionSort _ _).nodup_iff.mpr hn
  exact ⟨(hsorted.and hnodup).imp fun h => Nat.lt_of_le_of_ne h.1 h.2, fun id => List.mem_insertionSort _⟩

/-! ## Sessions only add newer files -/

end DB

namespace VLog

/-- No file is newer than the current one. -/
def Newest (v : VLog) : Prop := ∀ id ∈ v.files.dir, id ≤ v.currentFileId

theorem AppendSteps.newest {v u : VLog} (h : AppendSteps v u) (hn : v.Newest) : u.Newest := by
  induction h with
  | refl => exact hn
  | write _ _ _ ih => exact ih
  | sync _ ih => exact ih
  | close _ ih => exact ih
  | next _ ih => exact fun id hid => (ih id hid).trans (Nat.le_succ _)
  | create _ ih =>
    intro id hid
    rcases Folder.mem_dir_create.mp hid with rfl | hid
    · exact Nat.le_refl _
    · exact (ih id hid).trans (Nat.le_succ _)

/-- **An append**, wherever it fails. -/
theorem Newest.append {v : VLog} (h : v.Newest) (o : Options) (key value : Bytes) (type : ValueType) (fault : AppendFault) :
    (v.append o key value type fault).1.Newest := (appendSteps_append o v key value type fault).newest h

end VLog

namespace DB

/-- All files have ids up to the current ones, so that the next ones are new. -/
structure NextNew (db : DB) : Prop where
  vlog : db.vlog.Newest
  wal : ∀ id ∈ db.wal.files.dir, id ≤ db.walId

theorem NextNew.of_index {db db' : DB} (h : db.NextNew) (hi : db.OnlyIndex db') : db'.NextNew :=
  ⟨hi.vlog.symm ▸ h.vlog, hi.wal.symm ▸ hi.walId.symm ▸ h.wal⟩

theorem NextNew.writeEntry {db : DB} (h : db.NextNew) (e : BatchEntry) (fv : AppendFault) (fw : Option Nat) :
    (db.writeEntry e fv fw).1.NextNew := by
  constructor
  · rcases vlog_writeEntry db e fv fw with hv | ⟨key, value, hv⟩
    · rw [hv]
      exact h.vlog
    · rw [hv]
      exact h.vlog.append db.options key value .value fv
  · rw [congrArg DB.walId (writeEntry_frame db e fv fw)]
    rcases wal_writeEntry db e fv fw with hw | ⟨r, hw⟩
    · rw [hw]
      exact h.wal
    · rw [hw, dir_addRecord]
      exact h.wal

theorem NextNew.writeEntries {db : DB} (h : db.NextNew) (f : WriteFaults) (batch : WriteBatch) (i : Nat) :
    (DB.writeEntries f i batch db).1.NextNew :=
  @writeEntries_induct (fun db db' => db.NextNew → db'.NextNew) (fun _ => id) (fun h₁ h₂ h => h₂ (h₁ h))
    (fun _ e fv fw h => h.writeEntry e fv fw) f batch i db h

theorem NextNew.maybeScheduleFlush {db : DB} (h : db.NextNew) (fault : CreateFault) :
    (db.maybeScheduleFlush fault).1.NextNew := by
  have hdir : ∀ id ∈ (db.wal.create (db.walId + 1) fault).1.files.dir, id ≤ db.walId + 1 := by
    intro id hid
    unfold WAL.create at hid
    split at hid
    · exact (h.wal id hid).trans (Nat.le_succ _)
    split at hid
    · exact (h.wal id hid).trans (Nat.le_succ _)
    · rcases Folder.mem_dir_create.mp hid with rfl | hid
      · exact Nat.le_refl _
      · exact (h.wal id hid).trans (Nat.le_succ _)
  unfold DB.maybeScheduleFlush
  split
  · exact ⟨h.vlog, hdir⟩
  · exact h

theorem NextNew.write {db : DB} (h : db.NextNew) (sync : Bool) (batch : WriteBatch) (f : WriteFaults) :
    (db.write sync batch f).1.NextNew := by
  have he := h.writeEntries f batch 0
  have hsync : ∀ db : DB, db.NextNew → db.syncLogs.NextNew := by
    intro db h
    refine ⟨fun id hid => ?_, fun id hid => ?_⟩
    · have hs := VLog.sameFiles_sync db.vlog
      have hid' : id ∈ db.vlog.sync.files.dir := hid
      rw [hs.dir] at hid'
      exact (h.vlog id hid').trans hs.current.ge
    · have hid' : id ∈ db.wal.sync.files.dir := hid
      unfold WAL.sync at hid'
      split at hid'
      · exact h.wal id hid'
      · exact h.wal id hid'
  unfold DB.write
  split
  · rename_i hr
    rw [hr] at he
    exact he
  · rename_i hr
    rw [hr] at he
    refine NextNew.maybeScheduleFlush ?_ f.create
    split
    · exact hsync _ he
    · exact he

/-! ## Collections -/

theorem NextNew.gcSwap {db : DB} (h : db.NextNew) (fails : Nat → Option Status) (fw : Option Nat) (seg : Nat)
    (r : LiveRecord) (newPtr : VLogPointer) : (db.gcSwap fails fw seg r newPtr).NextNew := by
  have hd := dir_addRecord db.wal ⟨.value, db.sequenceNumber, r.key, newPtr⟩ fw
  unfold DB.gcSwap
  split
  · simp only
    split
    · rename_i hw
      rw [hw] at hd
      exact ⟨h.vlog, fun id hid => h.wal id (hd ▸ hid)⟩
    · rename_i hw
      rw [hw] at hd
      exact ⟨h.vlog, fun id hid => h.wal id (hd ▸ hid)⟩
  · exact h

theorem NextNew.gcRead {db : DB} (h : db.NextNew) (fault : Bool) (seg : Nat) (r : LiveRecord) :
    (db.gcRead fault seg r).1.NextNew := by
  have hs := VLog.sameFiles_openReader db.vlog seg
  refine ⟨fun id hid => ?_, h.wal⟩
  have hid' : id ∈ (db.vlog.openReader seg).files.dir := hid
  rw [hs.dir] at hid'
  exact (h.vlog id hid').trans hs.current.ge

theorem NextNew.gcAppend {db : DB} (h : db.NextNew) (fault : AppendFault) (r : LiveRecord) (value : Bytes) :
    (db.gcAppend fault r value).1.NextNew := ⟨h.vlog.append db.options r.key value .value fault, h.wal⟩

theorem NextNew.gcRewrite (f : GcFaults) (seg : Nat) : ∀ (rs : List LiveRecord) (i : Nat) (db : DB), db.NextNew →
    (DB.gcRewrite f seg i rs db).1.NextNew
  | [], _, _, h => h
  | r :: rs, i, db, h => by
    have hread := h.gcRead (f.read i) seg r
    rw [DB.gcRewrite]
    split
    · rename_i hr
      rw [hr] at hread
      exact NextNew.gcRewrite f seg rs (i + 1) _ hread
    · rename_i db₁ value hr
      rw [hr] at hread
      have happ := hread.gcAppend (f.append i) r value
      split
      · rename_i ha
        rw [ha] at happ
        exact happ
      · rename_i db₂ newPtr ha
        rw [ha] at happ
        exact NextNew.gcRewrite f seg rs (i + 1) _ (NextNew.gcSwap happ _ _ _ _ _)

theorem NextNew.gcFinish {db : DB} (h : db.NextNew) (f : GcFaults) (seg : Nat) : (db.gcFinish f seg).NextNew := by
  have hf := finished_gcFinish db f seg
  refine ⟨fun id hid => (h.vlog id ((hf.dir id).mp hid).1).trans hf.current.ge, fun id hid => ?_⟩
  have hdir : (db.gcFinish f seg).wal.files.dir = db.wal.files.dir := by
    unfold DB.gcFinish gcDelete gcRemoveReader gcSync WAL.sync
    cases f.remove with
    | true =>
      simp only [if_true]
      split
      · rfl
      · split
        · rfl
        · rfl
    | false =>
      simp only [Bool.false_eq_true, if_false]
      split
      · rfl
      · split
        · rfl
        · rfl
  rw [hdir] at hid
  refine (h.wal id hid).trans ?_
  unfold DB.gcFinish gcDelete
  split
  · exact Nat.le_refl _
  · exact Nat.le_refl _

theorem NextNew.runGC {db : DB} (h : db.NextNew) (f : GcFaults) : (db.runGC f).1.NextNew := by
  unfold DB.runGC
  split
  · exact h
  unfold gcSegment
  split
  · exact h
  rename_i seg _ _ records _
  simp only
  split
  · have hr := NextNew.gcRewrite f seg (db.gcScan f seg 0 records {}).liveRecords 0 db h
    split
    · rename_i he
      rw [he] at hr
      exact hr
    · rename_i db₁ he
      rw [he] at hr
      exact hr.gcFinish f seg
  · exact h

/-! ## Sessions -/

theorem NextNew.compactLevels (f : Nat → CompactFaults) : ∀ (lvls : List Nat) (db : DB), db.NextNew →
    (DB.compactLevels f lvls db).1.NextNew
  | [], _, h => h
  | lvl :: lvls, db, h => by
    have hc := h.of_index (onlyIndex_compact db lvl (f lvl))
    rw [DB.compactLevels]
    split
    · exact NextNew.compactLevels f lvls db h
    · split
      · rename_i hr
        rw [hr] at hc
        exact hc
      · rename_i hr
        rw [hr] at hc
        exact NextNew.compactLevels f lvls _ hc

theorem NextNew.exec {db : DB} (h : db.NextNew) : ∀ op : FaultyOp, (db.execFaulty op).NextNew
  | .write sync batch f => h.write sync batch f
  | .flush f => by
    rw [execFaulty]
    unfold DB.flushFront
    split
    · exact h
    · rename_i m ms _
      have hm := h.of_index (onlyIndex_flush db m f)
      exact ⟨hm.vlog, hm.wal⟩
  | .compactLevel lvl f => h.of_index (onlyIndex_compact db lvl f)
  | .compactRange f => NextNew.compactLevels f _ db h
  | .runGC f => h.runGC f

/-- **No file of a session is older than the next ones**, whatever fails. -/
theorem NextNew.run : ∀ (ops : List FaultyOp) (db : DB), db.NextNew → (db.runFaulty ops).NextNew
  | [], _, h => h
  | op :: ops, db, h => NextNew.run ops (db.execFaulty op) (h.exec op)

/-! ## Openings -/

/-- The id of the WAL that an opening creates. -/
def nextWalId (wal : Folder Bytes) : Nat :=
  match (walIds wal).getLast? with
  | none => 1
  | some id => id + 1

/-- **An opening** that succeeds continues the value log and creates a WAL. -/
theorem openDB_ids {o : Options} {d : Disk} {f : OpenFaults} (hok : (openDB o d f).2 = .ok ()) :
    (openDB o d f).1.vlog = VLog.openLog d.vlog ∧ (openDB o d f).1.walId = nextWalId d.wal ∧
      (openDB o d f).1.wal.files = d.wal.create (nextWalId d.wal) [] := by
  unfold openDB at hok ⊢
  split at hok
  · cases hok
  rename_i hv
  rw [if_neg hv]
  split at hok
  · cases hok
  rename_i next levels _
  obtain ⟨hr, -⟩ := replayWals_holding f (walIds d.wal) 0 (openState o d next levels)
  unfold recoverFromWAL at hok ⊢
  simp only at hok ⊢
  rw [show (openState o d next levels).wal.files = d.wal from rfl] at hok ⊢
  generalize replayWals f 0 (walIds d.wal) (openState o d next levels) = x at hok hr ⊢
  obtain ⟨db, r⟩ := x
  cases r with
  | error s => cases hok
  | ok u =>
    simp only at hok hr ⊢
    refine ⟨hr.vlog, rfl, ?_⟩
    change (db.wal.create (nextWalId d.wal) f.create).2 = .ok () at hok
    show (db.wal.create (nextWalId d.wal) f.create).1.files = _
    have hw : db.wal = { files := d.wal } := hr.wal
    rw [hw] at hok ⊢
    unfold WAL.create at hok ⊢
    split at hok
    · cases hok
    rename_i h₁
    split at hok
    · cases hok
    rename_i h₂
    rw [if_neg h₁, if_neg h₂]

/-- The new WAL is newer than all others, when these have ids of five digits. -/
theorem lt_nextWalId {wal : Folder Bytes} (hn : wal.dir.Nodup) (h : ∀ id ∈ wal.dir, id < 100000) :
    ∀ id ∈ wal.dir, id < nextWalId wal := by
  obtain ⟨hs, hm⟩ := walIds_small hn h
  intro id hid
  unfold nextWalId
  split
  · rename_i hl
    have hnil := List.getLast?_eq_none_iff.mp hl
    have hid' := (hm id).mpr hid
    rw [hnil] at hid'
    cases hid'
  · rename_i last hl
    exact lt_of_getLast? hs hl id ((hm id).mpr hid)

end DB

/-- Files as the program numbers them: every id is listed once, and value-log ids start at 1. -/
structure Disk.Numbered (d : Disk) : Prop where
  wal : d.wal.dir.Nodup
  vlog : d.vlog.dir.Nodup
  pos : ∀ id ∈ d.vlog.dir, 1 ≤ id

/-- What is to hold of the file names of a directory: an opening replays every WAL file once, in the order of the ids; the
value log is continued at its highest id; neither the opening nor any WAL or value-log file that a session on it creates
takes a path that exists; and `RunGC` chooses among all ids below the active one, in their order. -/
structure Disk.IdsSurvive (d : Disk) : Prop where
  replayed : (DB.walIds d.wal).Pairwise (· < ·) ∧ ∀ id, id ∈ DB.walIds d.wal ↔ id ∈ d.wal.dir
  continued : ∀ id ∈ d.vlog.dir, (VLog.openLog d.vlog).currentFileId ∈ d.vlog.dir ∧
    id ≤ (VLog.openLog d.vlog).currentFileId
  created : ∀ o f, (DB.openDB o d f).2 = .ok () → (DB.openDB o d f).1.walId ∉ d.wal.dir
  next : ∀ o f ops, (DB.openDB o d f).2 = .ok () →
    ((DB.openDB o d f).1.runFaulty ops).walId + 1 ∉ ((DB.openDB o d f).1.runFaulty ops).wal.files.dir ∧
    ((DB.openDB o d f).1.runFaulty ops).vlog.currentFileId + 1 ∉ ((DB.openDB o d f).1.runFaulty ops).vlog.files.dir
  collected : ∀ db : DB, db.vlog.files.dir = d.vlog.dir →
    (db.vlogIds.filter fun id => decide (id < db.vlog.currentFileId)).Pairwise (· < ·) ∧
    ∀ id, id ∈ db.vlogIds.filter (fun id => decide (id < db.vlog.currentFileId)) ↔
      id ∈ d.vlog.dir ∧ id < db.vlog.currentFileId

namespace DB

/-- The ids that the value log finds have five digits. -/
theorem currentFileId_openLog_lt (files : Folder Bytes) : (VLog.openLog files).currentFileId < 100000 := by
  have hid : VLog.recoverFileIds files < 100000 := by
    unfold VLog.recoverFileIds
    simp only
    split
    · omega
    · refine (VLog.foldl_max_mem _ 0).elim (fun h => by rw [h]; omega) fun hm => ?_
      obtain ⟨id, -, he⟩ := List.mem_filterMap.mp hm
      rw [recoverFileId_vlogFileName] at he
      split at he
      · cases he
        assumption
      · cases he
  unfold VLog.openLog
  simp only
  split
  · exact hid
  · exact hid

/-- The ids that `RunGC` lists, when all have five digits. -/
theorem vlogIds_small {db : DB} (hn : db.vlog.files.dir.Nodup) (h : ∀ id ∈ db.vlog.files.dir, id < 100000) :
    db.vlogIds.Pairwise (· < ·) ∧ ∀ id, id ∈ db.vlogIds ↔ id ∈ db.vlog.files.dir := by
  have hids : db.vlog.files.dir.filterMap (fun id => gcFileId (vlogFileName id)) = db.vlog.files.dir := by
    have hsome : ∀ id ∈ db.vlog.files.dir, gcFileId (vlogFileName id) = some id := by
      intro id hid
      rw [gcFileId_vlogFileName, if_pos (h id hid)]
    rw [List.filterMap_congr hsome, List.filterMap_some]
  rw [vlogIds, hids]
  have hsorted := List.pairwise_insertionSort (· ≤ · : Nat → Nat → Prop) db.vlog.files.dir
  have hnodup : (db.vlog.files.dir.insertionSort (· ≤ ·)).Nodup := (List.perm_insertionSort _ _).nodup_iff.mpr hn
  exact ⟨(hsorted.and hnodup).imp fun h => Nat.lt_of_le_of_ne h.1 h.2, fun id => List.mem_insertionSort _⟩

/-- **File ids survive the file names** exactly when they have at most five digits. -/
theorem ids_survive_iff {d : Disk} (h : d.Numbered) :
    d.IdsSurvive ↔ (∀ id ∈ d.wal.dir, id < 100000) ∧ ∀ id ∈ d.vlog.dir, id < 100000 := by
  constructor
  · intro hs
    refine ⟨fun id hid => mem_walIds_lt ((hs.replayed.2 id).mpr hid), fun id hid => ?_⟩
    exact (hs.continued id hid).2.trans_lt (currentFileId_openLog_lt d.vlog)
  · rintro ⟨hw, hv⟩
    obtain ⟨-, htidy, hsame, -⟩ := VLog.openLog_spec fun id hid => ⟨h.pos id hid, hv id hid⟩
    have hlt := lt_nextWalId h.wal hw
    refine ⟨walIds_small h.wal hw, fun id hid => ?_, fun o f hok hmem => ?_, fun o f ops hok => ?_, fun db hdb => ?_⟩
    · have hf := hsame (List.ne_nil_of_mem hid)
      refine ⟨?_, htidy.newest id (hf.symm ▸ hid)⟩
      have hopen : (VLog.openLog d.vlog).writer = .opened := by
        unfold VLog.openLog
        simp only
        split
        · rfl
        · rfl
      have hcur := htidy.opened hopen
      rw [hf] at hcur
      exact hcur
    · rw [(openDB_ids hok).2.1] at hmem
      exact absurd (hlt _ hmem) (Nat.lt_irrefl _)
    · obtain ⟨h₁, h₂, h₃⟩ := openDB_ids hok
      have hstart : (openDB o d f).1.NextNew := by
        refine ⟨h₁.symm ▸ htidy.newest, fun id hid => ?_⟩
        rw [h₃] at hid
        rw [h₂]
        rcases Folder.mem_dir_create.mp hid with rfl | hid
        · exact Nat.le_refl _
        · exact (hlt id hid).le
      have hrun := NextNew.run ops _ hstart
      exact ⟨fun hid => absurd (hrun.wal _ hid) (by omega), fun hid => absurd (hrun.vlog _ hid) (by omega)⟩
    · obtain ⟨h₁, h₂⟩ := @vlogIds_small db (hdb.symm ▸ h.vlog) (hdb.symm ▸ hv)
      refine ⟨List.Pairwise.sublist List.filter_sublist h₁, fun id => ?_⟩
      rw [List.mem_filter, h₂ id, hdb, decide_eq_true_eq]

/-- Files with short names. -/
theorem ids_survive_sample : (⟨⟨fun _ => [], [2, 1], fun _ => 0⟩, ⟨fun _ => [], [3, 1, 2], fun _ => 0⟩, .empty none, none⟩ :
    Disk).IdsSurvive :=
  (ids_survive_iff (d := ⟨⟨fun _ => [], [2, 1], fun _ => 0⟩, ⟨fun _ => [], [3, 1, 2], fun _ => 0⟩, .empty none, none⟩)
    ⟨by decide, by decide, by decide⟩).mpr ⟨by decide, by decide⟩

/-! ## The hundred thousandth WAL -/

/-- Empty WAL files are replayed without an effect. -/
theorem replayWals_blank {db : DB} (hfull : db.memtable.shouldFlush = false) (f : OpenFaults) : ∀ (ids : List Nat) (i : Nat),
    (∀ id ∈ ids, id ∈ db.wal.files.dir ∧ db.wal.files.data id = []) → replayWals f i ids db = (db, .ok ())
  | [], _, _ => rfl
  | id :: ids, i, h => by
    obtain ⟨hd, hdata⟩ := h id List.mem_cons_self
    have hread : WAL.recover db.wal.files id = .ok [] := by
      rw [WAL.recover, Folder.has_iff.mpr hd, hdata]
      rfl
    rw [replayWals, hread]
    simp only [List.foldl_nil, hfull, Bool.false_eq_true, if_false]
    exact replayWals_blank hfull f ids (i + 1) fun id' h' => h id' (List.mem_cons_of_mem _ h')

/-- A directory with WAL files up to a number. -/
def walsUpTo (n : Nat) : Disk :=
  ⟨⟨fun _ => [], [1], fun _ => 0⟩, ⟨fun _ => [], List.range' 1 n, fun _ => 0⟩, .empty none, none⟩

section WalsUpTo

variable {n : Nat} (hn : n = 100000)

theorem mem_walsUpTo {id : Nat} : id ∈ (walsUpTo n).wal.dir ↔ 1 ≤ id ∧ id < 1 + n := by
  rw [show (walsUpTo n).wal.dir = List.range' 1 n from rfl, List.mem_range'_1]

include hn

/-- The last file is listed under a name that is cut off. -/
theorem mem_dir_walsUpTo {id : Nat} (h : id ∈ walIds (walsUpTo n).wal) : id ∈ (walsUpTo n).wal.dir := by
  rw [walIds, List.mem_insertionSort, List.mem_filterMap] at h
  obtain ⟨i, hi, he⟩ := h
  have hle := mem_walsUpTo.mp hi
  by_cases hlt : i < 100000
  · rw [walFileId_walFileName hlt] at he
    cases he
    exact hi
  · obtain rfl : i = 100000 := by omega
    rw [show walFileId (walFileName 100000) = some 10000 by decide +kernel] at he
    cases he
    exact mem_walsUpTo.mpr (by omega)

theorem nextWalId_walsUpTo : nextWalId (walsUpTo n).wal = 100000 := by
  have hmem : 99999 ∈ walIds (walsUpTo n).wal := mem_walIds (mem_walsUpTo.mpr (by omega)) (by omega)
  have hsorted : (walIds (walsUpTo n).wal).Pairwise (· ≤ ·) := List.pairwise_insertionSort _ _
  unfold nextWalId
  split
  · rename_i hl
    rw [List.getLast?_eq_none_iff.mp hl] at hmem
    cases hmem
  · rename_i last hl
    obtain ⟨init, he⟩ := List.getLast?_eq_some_iff.mp hl
    have hlast : last < 100000 := mem_walIds_lt (he ▸ List.mem_append_right _ (List.mem_singleton.mpr rfl))
    have hge : 99999 ≤ last := by
      rw [he] at hmem hsorted
      rcases List.mem_append.mp hmem with hm | hm
      · exact (List.pairwise_append.mp hsorted).2.2 _ hm last (List.mem_singleton.mpr rfl)
      · exact (List.mem_singleton.mp hm).le
    omega

theorem openDB_walsUpTo : (openDB {} (walsUpTo n) .none).2 = .ok () := by
  have hreplay := @replayWals_blank (openState {} (walsUpTo n) 1 fun _ => [])
    (show (MemTable.new (4 * 1024 * 1024)).shouldFlush = false by decide) OpenFaults.none
    (walIds (walsUpTo n).wal) 0 fun id hid => ⟨mem_dir_walsUpTo hn hid, rfl⟩
  rw [openDB, if_neg (by decide), show loadManifest (walsUpTo n) _ = .ok (1, fun _ => []) from rfl]
  simp only
  rw [recoverFromWAL]
  simp only
  rw [show (openState {} (walsUpTo n) 1 fun _ => []).wal.files = (walsUpTo n).wal from rfl, hreplay]
  rfl

theorem walId_walsUpTo : (openDB {} (walsUpTo n) .none).1.walId ∈ (walsUpTo n).wal.dir := by
  rw [(openDB_ids (openDB_walsUpTo hn)).2.1, nextWalId_walsUpTo hn]
  exact mem_walsUpTo.mpr (by omega)

end WalsUpTo

/-- **With a hundred thousand WAL files** the opening succeeds, lists the last one as number 10000, and truncates it. -/
theorem last_wal_truncated : (walsUpTo 100000).Numbered ∧ walFileId (walFileName 100000) = some 10000 ∧
    (openDB {} (walsUpTo 100000) .none).2 = .ok () ∧
    (openDB {} (walsUpTo 100000) .none).1.walId ∈ (walsUpTo 100000).wal.dir ∧ ¬(walsUpTo 100000).IdsSurvive :=
  ⟨⟨List.nodup_range', (List.nodup_singleton 1), fun id hid => (List.mem_singleton.mp hid).ge⟩, by decide +kernel,
    openDB_walsUpTo rfl, walId_walsUpTo rfl, fun hs => hs.created {} .none (openDB_walsUpTo rfl) (walId_walsUpTo rfl)⟩

end DB

end SplitKV
