import SplitKV.Recovery.Replay
import SplitKV.VLog.Open

/-!
# Opening a recoverable directory

Wherever `Open` fails, the files can be recovered again, with the same log. When it succeeds, the contents of the
opened database are what the log stands for, and its versions are settled (`DB.openDB_spec`, `DB.Opened.refines`,
`DB.Opened.settled`).
-/

namespace SplitKV

open Assoc Versions

theorem Stored.openLog {files : Folder Bytes} {ptr : VLogPointer} {key value : Bytes} (h : Stored files ptr key value)
    (hids : ∀ id ∈ files.dir, 1 ≤ id ∧ id < 100000) : Stored (VLog.openLog files).files ptr key value := by
  have hne : files.dir ≠ [] := by
    obtain ⟨id, hid, -⟩ := h
    exact List.ne_nil_of_mem hid
  rw [(VLog.openLog_spec hids).2.2.1 hne]
  exact h

theorem Records.openLog {files : Folder Bytes} {rs : List WALRecord} (h : Records files rs)
    (hids : ∀ id ∈ files.dir, 1 ≤ id ∧ id < 100000) : Records (VLog.openLog files).files rs :=
  ⟨fun r hr => (h.holds r hr).imp_right fun ⟨ht, value, hs⟩ => ⟨ht, value, hs.openLog hids⟩, h.ordered, h.pos, h.token⟩

theorem Tells.openLog {files : Folder Bytes} {rs : List WALRecord} {m : Contents} (h : Tells files rs m)
    (hids : ∀ id ∈ files.dir, 1 ≤ id ∧ id < 100000) : Tells (VLog.openLog files).files rs m := by
  intro key
  have hk := h key
  cases hr : WAL.lastRecord rs key with
  | none =>
    rw [hr] at hk
    exact hk
  | some r =>
    rw [hr] at hk
    cases hm : m key with
    | none =>
      rw [hm] at hk
      exact hk
    | some value =>
      rw [hm] at hk
      obtain ⟨h₁, h₂, h₃⟩ := hk
      refine ⟨h₁, h₂.openLog hids, ?_⟩
      rw [(VLog.openLog_spec hids).2.2.1 (List.ne_nil_of_mem h₃)]
      exact h₃

namespace DB

/-! ## Opening the database -/

/-- The listing of the WAL files, in the order of their ids. -/
theorem walIds_eq {files : Folder Bytes} (hs : files.dir.Pairwise (· < ·)) (h : ∀ id ∈ files.dir, id < 100000) :
    walIds files = files.dir := by
  have hids : files.dir.filterMap (fun id => walFileId (walFileName id)) = files.dir := by
    have hsome : ∀ id ∈ files.dir, walFileId (walFileName id) = some id := fun id hid => walFileId_walFileName (h id hid)
    rw [List.filterMap_congr hsome, List.filterMap_some]
  rw [walIds, hids]
  exact List.Pairwise.insertionSort_eq (hs.imp fun hlt => hlt.le)

/-- A database that was opened from the files `d`. -/
structure Opened (o : Options) (d : Disk) (db : DB) : Prop where
  logged : db.Logged
  active : db.wal.Active
  ready : db.vlog.Ready
  options : db.options = o
  log : WAL.log db.wal.files = WAL.log d.wal
  head : ∀ key r, WAL.lastRecord (WAL.log d.wal) key = some r → (db.versions key).head? = some r.entry

/-- What opening the files `d` leaves, and what it leads to when it succeeds. -/
structure OpenResult (o : Options) (d : Disk) (db : DB) (ok : Prop) : Prop where
  recoverable : db.disk.Recoverable o
  tells : ∀ m, Tells d.vlog (WAL.log d.wal) m → Tells db.vlog.files (WAL.log db.wal.files) m
  opened : ok → Opened o d db

/-- The newest WAL is older than the next one. -/
theorem lt_of_getLast? {l : List Nat} (hs : l.Pairwise (· < ·)) {last : Nat} (hl : l.getLast? = some last) :
    ∀ id ∈ l, id < last + 1 := by
  obtain ⟨init, rfl⟩ := List.getLast?_eq_some_iff.mp hl
  intro id hid
  rcases List.mem_append.mp hid with hid | hid
  · have := (List.pairwise_append.mp hs).2.2 id hid last (List.mem_singleton.mpr rfl)
    omega
  · rw [List.mem_singleton.mp hid]
    omega

/-- A replay that succeeds is followed by a WAL that is newer than all others. -/
theorem recoverFromWAL_ok {db db₁ : DB} {f : OpenFaults} (hs : (walIds db.wal.files).Pairwise (· < ·))
    (h : replayWals f 0 (walIds db.wal.files) db = (db₁, .ok ())) : ∃ walId, (∀ id ∈ walIds db.wal.files, id < walId) ∧
      db.recoverFromWAL f = ({ db₁ with
        sequenceNumber := db₁.sequenceNumber + 1, walId := walId, wal := (db₁.wal.create walId f.create).1 },
        (db₁.wal.create walId f.create).2) := by
  rw [recoverFromWAL, h]
  cases hl : (walIds db.wal.files).getLast? with
  | none =>
    refine ⟨1, ?_, rfl⟩
    rw [List.getLast?_eq_none_iff.mp hl]
    exact fun id hid => absurd hid List.not_mem_nil
  | some last => exact ⟨last + 1, lt_of_getLast? hs hl, rfl⟩

section Open

variable {o : Options} {d : Disk}

/-- The state before the replay. -/
theorem replaying_openState {levels : Levels} {next : Nat} (hd : Described o d levels next)
    (ht : TablesRecorded (WAL.log d.wal) levels) : Replaying (WAL.log d.wal) [] (openState o d next levels) := by
  refine ⟨MemTable.valid_new _, rfl, described_congr hd rfl rfl, fun p hp => ?_, ht, fun key r hr => ?_, fun r hr => ?_⟩
  · cases hp
  · cases hr
  · cases hr

/-- The files behind a replay. -/
theorem Replayed.recoverable (h : d.Recoverable o) {next : Nat} {levels : Levels} {db : DB} {ok : Prop}
    (hr : Replayed (WAL.log d.wal) (openState o d next levels) db ok) {files : Folder Bytes} (hl : WAL.Logs files)
    (hlog : WAL.log files = WAL.log d.wal) (hids : ∀ id ∈ files.dir, id < 100000) (hs : db.nextSstableId ≤ 100000) :
    (⟨db.vlog.files, files, db.sst, db.manifest⟩ : Disk).Recoverable o := by
  obtain ⟨hv, -⟩ := hr.onlyLogs
  obtain ⟨levels', next', hle, hd, ht⟩ := hr.files
  have hvlog : db.vlog.files = (VLog.openLog d.vlog).files := congrArg VLog.files hv
  obtain ⟨-, htidy, -, hsmall⟩ := VLog.openLog_spec h.vlogIds
  constructor
  · exact hl
  · simp only [hlog, hvlog]
    exact h.records.openLog h.vlogIds
  · refine ⟨levels', next', by omega, described_congr hd rfl rfl, ?_⟩
    simp only [hlog]
    exact ht
  · intro id hid
    simp only [hvlog] at hid
    exact ⟨htidy.pos id hid, hsmall id hid⟩
  · exact hids

/-- A replay that succeeds ends in a database that a new WAL completes. -/
theorem Replayed.opened (h : d.Recoverable o) {next : Nat} {levels : Levels} {db : DB} {ok : Prop}
    (hr : Replayed (WAL.log d.wal) (openState o d next levels) db ok) (hok : ok) {walId : Nat}
    (hid : ∀ id ∈ d.wal.dir, id < walId) : Opened o d { db with
      sequenceNumber := db.sequenceNumber + 1, walId := walId, wal := (db.wal.create walId .none).1 } := by
  obtain ⟨hv, hw, ho, -⟩ := hr.onlyLogs
  have hrep := hr.replaying hok
  have hwal : db.wal.files = d.wal := congrArg WAL.files hw
  obtain ⟨hready, htidy, -, -⟩ := VLog.openLog_spec h.vlogIds
  obtain ⟨h₁, h₂, h₃⟩ := h.logs.create hid
  have hact : (db.wal.create walId .none).1.Active := WAL.Logs.create_active (hwal ▸ h.logs) (hwal ▸ hid)
  rw [WAL.create_none, hwal] at hact
  have hrecords : Records db.vlog.files (WAL.log d.wal) := by
    rw [hv]
    exact h.records.openLog h.vlogIds
  rw [WAL.create_none, hwal]
  constructor
  · constructor
    · exact ⟨hrep.wf.memtables, hrep.wf.levels, hrep.wf.ids⟩
    · exact described_congr hrep.described rfl rfl
    · exact h₁
    · simp only [h₂]
      exact hrecords
    · intro r hr
      rw [h₂] at hr
      exact Nat.lt_succ_of_le (hrep.bound r hr)
    · intro m hm
      rw [memtables, hrep.immutable] at hm
      rw [List.mem_singleton.mp hm]
      simp only [h₂]
      exact hrep.recorded
    · simp only [h₂]
      exact hrep.tables
    · simp only [hv]
      exact htidy
    · intro id hm
      simp only [h₃] at hm
      rcases List.mem_append.mp hm with hm | hm
      · exact (hid id hm).le
      · exact (List.mem_singleton.mp hm).le
    · exact Nat.le_add_left 1 _
  · exact hact
  · simp only [hv]
    exact hready
  · exact ho
  · exact h₂
  · intro key r hl
    exact hrep.head key r hl

/-- **Opening** files that can be recovered, wherever it fails, leaves files that can be recovered with the same log.
Without a fault it succeeds. -/
theorem openDB_spec (h : d.Recoverable o) (hl : o.maxSstableLevels < 2 ^ 31) (f : OpenFaults)
    (hs : (openDB o d f).1.Small) :
    OpenResult o d (openDB o d f).1 ((openDB o d f).2 = .ok ()) ∧ (f = .none → (openDB o d f).2 = .ok ()) := by
  by_cases hv : f.vlog = true
  · have he : openDB o d f = ({ openState o d 1 (fun _ => []) with vlog := { files := d.vlog } },
        .error (.IOError "Cannot open file for writing")) := if_pos hv
    rw [he]
    refine ⟨⟨h, fun m hm => hm, fun he => by cases he⟩, fun hf => ?_⟩
    rw [hf] at hv
    cases hv
  obtain ⟨levels, next, hn, hd, ht⟩ := h.tables
  have hload := hd.loadManifest hn hl h.records (fun r hr => (h.logs.fits hr).sequence) ht
  have hids := walIds_eq h.logs.sorted h.walIds
  have he : openDB o d f = (openState o d next levels).recoverFromWAL f := by
    rw [openDB, if_neg hv, hload]
  obtain ⟨hr, hok⟩ := @replayWals_spec (openState o d next levels) d.wal.dir (replaying_openState hd ht) f (fun _ hid => hid)
    fun r hr => h.logs.fits hr
  have htells : ∀ db : DB, db.vlog = VLog.openLog d.vlog → ∀ files, WAL.log files = WAL.log d.wal →
      ∀ m, Tells d.vlog (WAL.log d.wal) m → Tells db.vlog.files (WAL.log files) m := by
    intro db hv files hf m hm
    rw [hv, hf]
    exact hm.openLog h.vlogIds
  have hids' : walIds (openState o d next levels).wal.files = d.wal.dir := hids
  rw [he] at hs ⊢
  cases hx : replayWals f 0 d.wal.dir (openState o d next levels) with
  | mk db r =>
  rw [hx] at hr hok
  obtain ⟨hvlog, hwal, -⟩ := hr.onlyLogs
  have hfiles : db.wal.files = d.wal := congrArg WAL.files hwal
  cases r with
  | error s =>
    have hrec : (openState o d next levels).recoverFromWAL f = (db, .error s) := by
      rw [recoverFromWAL, hids', hx]
    rw [hrec] at hs ⊢
    refine ⟨⟨?_, htells db hvlog _ (by rw [hfiles]), fun he => by cases he⟩, fun hf => ?_⟩
    · exact hr.recoverable h (hfiles ▸ h.logs) (by rw [hfiles]) (hfiles ▸ h.walIds) hs.sst
    · have := hok fun i => by rw [hf]; rfl
      cases this
  | ok x =>
    rw [← hids'] at hx
    obtain ⟨walId, hlt, hrec⟩ := recoverFromWAL_ok (hids'.symm ▸ h.logs.sorted) hx
    rw [hids'] at hlt
    rw [hrec] at hs ⊢
    have hopened := hr.opened h rfl hlt
    have hcreate : db.wal.create walId f.create = db.wal.create walId .none ∨
        (∃ s, db.wal.create walId f.create = ({ db.wal with currentId := walId, writer := .null }, .error s)) ∧
          f.create ≠ .none := by
      have hnull : db.wal.writer = .null := by rw [hwal]; rfl
      cases hc : f.create with
      | none => exact Or.inl rfl
      | close => exact Or.inl (by simp [WAL.create, hnull])
      | open_ => exact Or.inr ⟨⟨_, by simp [WAL.create, hnull]; rfl⟩, by decide⟩
    rcases hcreate with hc | ⟨⟨s, hc⟩, hne⟩
    · rw [hc] at hs ⊢
      refine ⟨⟨?_, ?_, fun _ => hopened⟩, fun _ => by rw [WAL.create_none]⟩
      · exact hopened.options ▸ hopened.logged.recoverable hs
      · exact htells _ hvlog _ hopened.log
    · rw [hc] at hs ⊢
      refine ⟨⟨?_, htells _ hvlog _ (by rw [hfiles]), fun he => by cases he⟩, fun hf => absurd (by rw [hf]; rfl) hne⟩
      exact hr.recoverable h (hfiles ▸ h.logs) (by rw [hfiles]) (hfiles ▸ h.walIds) hs.sst

end Open

/-! ## Open databases -/

/-- The database agrees with its files, and its logs are open. -/
structure Alive (db : DB) : Prop where
  logged : db.Logged
  active : db.wal.Active
  ready : db.vlog.Ready

/-- The versions of a database that agrees with its files are tombstones, or point at records of their keys. -/
theorem Logged.holds {db : DB} (h : db.Logged) {key : Key} {e : InternalEntry} (he : e ∈ db.versions key) :
    EntryHolds db.vlog key e := by
  obtain ⟨r, hr, rfl, rfl⟩ := h.versions he
  rcases h.records.holds r hr with hd | ⟨ht, value, hs⟩
  · exact Or.inl hd
  · exact Or.inr ⟨ht, value, hs.holds h.vlog⟩

theorem Alive.inv {db : DB} (h : db.Alive) : db.Inv :=
  ⟨h.logged.wf, ⟨h.ready, h.logged.vlog.newest⟩, h.active.writer, fun _ _ he => h.logged.holds he⟩

theorem Opened.alive {o : Options} {d : Disk} {db : DB} (h : Opened o d db) : db.Alive := ⟨h.logged, h.active, h.ready⟩

/-- The versions of an opened database are settled: the last record is the newest one. -/
theorem Opened.settled {o : Options} {d : Disk} {db : DB} (h : Opened o d db) : db.Settled := by
  intro key
  have hord := h.logged.records.ordered
  refine ⟨fun a ha b hb => ?_, fun a ha b hb he => ?_, fun e he => ?_⟩
  · obtain ⟨r, hr, hk, rfl⟩ := h.logged.versions hb
    rw [h.log] at hr hord
    cases hl : WAL.lastRecord (WAL.log d.wal) key with
    | none => exact absurd hk (WAL.lastRecord_eq_none.mp hl r hr)
    | some last =>
      have hlast := h.head key last hl
      rw [ha] at hlast
      cases hlast
      exact WAL.lastRecord_newest hord hl r hr hk
  · obtain ⟨r, hr, -, rfl⟩ := h.logged.versions ha
    obtain ⟨r', hr', -, rfl⟩ := h.logged.versions hb
    have hsame : r = r' := WAL.eq_of_sequence hord hr hr' he
    rw [hsame]
  · obtain ⟨r, hr, -, rfl⟩ := h.logged.versions he
    exact h.logged.bound r hr

/-- **The contents of an opened database** are what the log stands for. -/
theorem Opened.refines {o : Options} {d : Disk} {db : DB} (h : Opened o d db) {m : Contents}
    (hm : Tells db.vlog.files (WAL.log db.wal.files) m) : db.Refines m := by
  intro key
  have hk := hm key
  rw [h.log] at hk
  cases hr : WAL.lastRecord (WAL.log d.wal) key with
  | none =>
    -- every version would be a record
    have hnil : db.versions key = [] := by
      apply List.eq_nil_iff_forall_not_mem.mpr
      intro e he
      obtain ⟨r, hmem, hkey, -⟩ := h.logged.versions he
      rw [h.log] at hmem
      exact WAL.lastRecord_eq_none.mp hr r hmem hkey
    rw [hr] at hk
    rw [show m key = none from hk]
    show shown InternalEntry.Gone (db.versions key) = none
    rw [hnil]
    rfl
  | some r =>
    have hhead := h.head key r hr
    rw [hr] at hk
    cases hv : m key with
    | none =>
      rw [hv] at hk
      have hgone : r.entry.Gone := hk
      show shown InternalEntry.Gone (db.versions key) = none
      rw [shown, hhead]
      exact if_pos hgone
    | some value =>
      rw [hv] at hk
      obtain ⟨ht, hs, hd⟩ := hk
      have hlive : ¬r.entry.Gone := by
        intro hg
        have : r.type = .deletion := hg
        rw [ht] at this
        cases this
      exact ⟨r.entry, visible_eq_some.mpr ⟨hhead, hlive⟩, hs.holds h.logged.vlog, VLog.canOpen_of_mem hd⟩

end DB

end SplitKV
