import SplitKV.PowerLoss.Acknowledged

/-!
# Synced writes and `sync_writes`

What is left of a synced write: its record survives, and when a later record of the key survives, too, it stands for an
entry that was issued since. But the value of a later record may be lost (`Machine.synced_read_iff`). With `sync_writes`, no
value of a record that survives is lost, but the records themselves are (`Machine.sync_writes_read_iff`).
-/

namespace SplitKV

variable {o : Options}

/-- The version is the one of the entry. -/
def BatchEntry.VersionOf (vlog : Folder Bytes) : BatchEntry → InternalEntry → Prop
  | put key value, x => x.type = .value ∧ Stored vlog x.vlogPtr key value ∧ x.vlogPtr.fileId ∈ vlog.dir
  | delete _, x => x.type = .deletion

theorem BatchEntry.RecordOf.versionOf {vlog : Folder Bytes} {e : BatchEntry} {r : WALRecord} (h : e.RecordOf vlog r) :
    e.VersionOf vlog r.entry := by
  cases e with
  | put key value => exact ⟨h.1, h.2.2⟩
  | delete key => exact h.1

/-- An opening behind the power loss reads what one of the entries leaves. -/
def Disk.Reads (o : Options) (d : Disk) (key : Key) (es : WriteBatch) : Prop :=
  ∃ e ∈ es, (DB.openDB o d .none).1.result key = DB.answer e.value

/-! ## Values behind a power loss -/

section

variable {d : Disk} {loss : Loss}

/-- A value that is stored is cut at most. -/
theorem Stored.lose {ptr : VLogPointer} {key value : Bytes} (h : Stored d.vlog ptr key value)
    (hf : ptr.fileId ∈ d.vlog.dir) : VLog.Cut (d.lose loss).vlog ptr key value := by
  obtain ⟨id, -, hh⟩ := h
  have hkept : VLog.Cut d.vlog ptr key value := ⟨[], hh.kept hf⟩
  exact hkept.shorten (fun i hi => hi) (Folder.data_lose d.vlog loss.vlog)

/-- A value that was synced is whole. -/
theorem DB.Secured.within {r : WALRecord} (h : DB.Secured d.vlog r) (ht : r.type = .value) :
    VLog.Within (d.lose loss).vlog r.vlogPtr r.key := by
  obtain ⟨h₁, h₂⟩ := h ht
  show _ ≤ ((d.vlog.data r.vlogPtr.fileId).take _).length
  rw [List.length_take]
  omega

namespace DB

variable {db : DB} {key : Key} {x : InternalEntry}

theorem Selects.result_none (hs : Selects o (d.lose loss) db) (hx : (d.lose loss).newest o key = none) :
    db.result key = answer none := by
  rw [hs.result, hx]
  rfl

theorem Selects.result_deletion (hs : Selects o (d.lose loss) db) (hx : (d.lose loss).newest o key = some x)
    (ht : x.type = .deletion) : db.result key = answer none := by
  rw [hs.result, hx, resolve, if_pos ht]
  rfl

/-- A value that is whole is read. -/
theorem Selects.result_within (hs : Selects o (d.lose loss) db) (hids : ∀ id ∈ d.vlog.dir, 1 ≤ id ∧ id < 100000)
    (hx : (d.lose loss).newest o key = some x) {value : Bytes} (he : (BatchEntry.put key value).VersionOf d.vlog x)
    (hw : VLog.Within (d.lose loss).vlog x.vlogPtr key) : db.result key = answer (some value) := by
  obtain ⟨ht, hst, hf⟩ := he
  have hfiles : (VLog.openLog (d.lose loss).vlog).files = (d.lose loss).vlog :=
    (@VLog.openLog_spec (d.lose loss).vlog hids).2.2.1 (List.ne_nil_of_mem hf)
  have hread : (VLog.openLog (d.lose loss).vlog).read x.vlogPtr = .ok (key, value) := by
    refine VLog.Kept.read ?_
    rw [hfiles]
    exact (hst.lose hf).kept hw
  rw [hs.result, hx, resolve, if_neg (by rw [ht]; decide), hread]
  rfl

/-- A value that is cut cannot be read. -/
theorem Selects.result_cut (hs : Selects o (d.lose loss) db) (hids : ∀ id ∈ d.vlog.dir, 1 ≤ id ∧ id < 100000)
    (hx : (d.lose loss).newest o key = some x) {value : Bytes} (he : (BatchEntry.put key value).VersionOf d.vlog x)
    (hw : ¬VLog.Within (d.lose loss).vlog x.vlogPtr key) : db.result key = .error .corruption := by
  obtain ⟨ht, hst, hf⟩ := he
  have hfiles : (VLog.openLog (d.lose loss).vlog).files = (d.lose loss).vlog :=
    (@VLog.openLog_spec (d.lose loss).vlog hids).2.2.1 (List.ne_nil_of_mem hf)
  have hcut : VLog.Cut (VLog.openLog (d.lose loss).vlog).files x.vlogPtr key value := by
    rw [hfiles]
    exact hst.lose hf
  obtain ⟨msg, hmsg⟩ := hcut.read_short (hfiles.symm ▸ hw)
  rw [hs.result, hx, resolve, if_neg (by rw [ht]; decide), hmsg]
  rfl

end DB

end

/-! ## Synced writes -/

/-- The value is there that the last record of the key points at. -/
def Disk.Resolves (d : Disk) (key : Key) : Prop :=
  ∀ r, WAL.lastRecord d.records key = some r → r.type = .value → VLog.Within d.vlog r.vlogPtr key

section

variable {d : Disk} {h : History}

/-- **The last record that survives** is one of the entries that may be read. -/
theorem Remembers.lastRecord (hr : Remembers o True d.vlog d.wal h) (hd : d.Recoverable o) (loss : Loss) {key : Key}
    {es : WriteBatch} (hs : h.since key = some es) :
    ∃ r, WAL.lastRecord (d.lose loss).records key = some r ∧ ∃ e ∈ es, e.RecordOf d.vlog r := by
  obtain ⟨hlogs, -, hlasts, hsub⟩ := hd.logs.lose loss.wal
  rw [(hd.openable loss).records]
  obtain ⟨g, hg⟩ := hr.guarded key es hs
  have hmem := ((hg.lasts trivial).mono hlasts hlogs).mem_log hlogs
  cases hlast : WAL.lastRecord (WAL.log (d.wal.lose loss.wal)) key with
  | none => exact absurd hg.keyed (WAL.lastRecord_eq_none.mp hlast g hmem)
  | some r =>
    obtain ⟨hrm, hk⟩ := WAL.mem_of_lastRecord hlast
    have hle := WAL.lastRecord_newest (hd.records.ordered.sublist hsub) hlast g hmem hg.keyed
    exact ⟨r, hlast, hg.covers r (hsub.subset hrm) hk hle⟩

/-- **What is read of a synced write** is its value or that of a later entry exactly when the value is there that the last
record points at. -/
theorem Remembers.reads_iff (hr : Remembers o True d.vlog d.wal h) (hd : d.Recoverable o) (hu : o.Usable) (loss : Loss)
    {key : Key} {es : WriteBatch} (hs : h.since key = some es) :
    (d.lose loss).Reads o key es ↔ (d.lose loss).Resolves key := by
  obtain ⟨-, hsel⟩ := DB.openDB_newest (hd.openable loss) hu.levels
  obtain ⟨r, hlast, e, he, hrec⟩ := hr.lastRecord hd loss hs
  have hnewest : (d.lose loss).newest o key = some r.entry := by rw [Disk.newest, hlast]
  have hk : r.key = key := (WAL.mem_of_lastRecord hlast).2
  have hver := hrec.versionOf
  constructor
  · rintro ⟨e', -, hread⟩ r' hlast' ht
    rw [hlast] at hlast'
    cases hlast'
    by_contra hw
    -- a value that is cut is an error
    cases e with
    | put key' value =>
      obtain rfl : key' = key := hrec.key.symm.trans hk
      rw [hsel.result_cut hd.vlogIds hnewest hver hw] at hread
      cases hv : e'.value with
      | none => rw [hv] at hread; cases hread
      | some v => rw [hv] at hread; cases hread
    | delete key' =>
      rw [hrec.1] at ht
      cases ht
  · intro hw
    refine ⟨e, he, ?_⟩
    cases e with
    | put key' value =>
      obtain rfl : key' = key := hrec.key.symm.trans hk
      exact hsel.result_within hd.vlogIds hnewest hver (hw r hlast hrec.1)
    | delete key' => exact hsel.result_deletion hnewest hver

end

namespace Machine

/-- **Synced writes and power losses.** Behind every run in which entries are written behind whole records, and every power
loss, an opening succeeds; and `Get` of a key with an acknowledged synced entry returns what the last one or a later entry
leaves, exactly when the value is there that the last record of the key points at. -/
theorem synced_read_iff {o : Options} (hu : o.Usable) {events : List Event} (hw : ∀ ev ∈ events, ev.Writes)
    (hb : start.Throughout o (Bounded o) events) (hc : start.Throughout o BehindWhole events) {d : Disk}
    (hd : start.after o events = .off d) (loss : Loss) : (DB.openDB o (d.lose loss) .none).2 = .ok () ∧
      ∀ key es, (start.issued id o events).since key = some es →
        ((d.lose loss).Reads o key es ↔ (d.lose loss).Resolves key) := by
  obtain ⟨⟨m, hl⟩, hr⟩ := remembers_after hu (fun b hb _ => hb) hw (logs_start hu) (@remembers_start o True) hb hc
  rw [hd] at hl hr
  rw [List.nil_append] at hr
  exact ⟨(DB.openDB_newest (hl.1.openable loss) hu.levels).1, fun key es hs => hr.reads_iff hl.1 hu loss hs⟩

/-- A synced put, another one that is not synced, and a crash. -/
def syncedThenNot : List Event := [.reopen, sure true [.put [1] [7]], sure false [.put [1] [8]], .crash .nothing]

/-- The files of both puts. -/
def bothPuts : Disk := (((DB.fresh {}).write true [.put [1] [7]] {}).1.write false [.put [1] [8]] {}).1.disk

theorem after_syncedThenNot : start.after {} syncedThenNot = .off bothPuts := by
  rw [after, syncedThenNot, List.foldl_cons, next_start]
  rfl

theorem since_syncedThenNot :
    (start.issued id {} syncedThenNot).since [1] = some [.put [1] [7], .put [1] [8]] := by
  rw [syncedThenNot, issued, next_start]
  decide +kernel

/-- A power loss that leaves everything. -/
theorem synced_read_iff_sample :
    (bothPuts.lose ⟨fun _ => 1000, fun _ => 1000⟩).Reads {} [1] [.put [1] [7], .put [1] [8]] := by
  have hu : ({} : Options).Usable := ⟨by decide, by decide, by decide⟩
  have hall : ∀ ev ∈ syncedThenNot, ∀ e ∈ ev.entries, e.Fits ∧ e.key ≠ [] ∧ ∀ b ∈ e.key, isSpace b = false := by
    decide +kernel
  have hb : start.Throughout {} (Bounded {}) syncedThenNot := by
    refine ⟨small_of (by decide +kernel) (by decide +kernel) (by decide +kernel) (by decide +kernel), ?_⟩
    rw [next_start]
    exact ⟨small_of (by decide +kernel) (by decide +kernel) (by decide +kernel) (by decide +kernel),
      small_of (by decide +kernel) (by decide +kernel) (by decide +kernel) (by decide +kernel),
      small_of (by decide +kernel) (by decide +kernel) (by decide +kernel) (by decide +kernel), trivial⟩
  have hfaultless : ∀ ev ∈ syncedThenNot, ev.Faultless := by
    intro ev hev
    simp only [syncedThenNot, List.mem_cons, List.not_mem_nil, or_false] at hev
    rcases hev with rfl | rfl | rfl | rfl
    · trivial
    · exact ⟨rfl, rfl⟩
    · exact ⟨rfl, rfl⟩
    · trivial
  have hc := Serves.throughout hu (fun ev hev => ⟨hall ev hev, hfaultless ev hev⟩) (logs_start hu) trivial hb
  refine ((synced_read_iff hu hall hb hc after_syncedThenNot _).2 _ _ since_syncedThenNot).mpr fun r hr _ => ?_
  have hrec : (WAL.lastRecord (bothPuts.lose ⟨fun _ => 1000, fun _ => 1000⟩).records [1]).map (·.vlogPtr) =
      some ⟨1, 15, 1⟩ := by decide +kernel
  rw [hr] at hrec
  rw [VLog.Within, show r.vlogPtr = ⟨1, 15, 1⟩ from Option.some.inj hrec]
  decide +kernel

/-- **A synced value is hidden** by a record whose value is lost. -/
theorem synced_hidden : start.after {} syncedThenNot = .off bothPuts ∧
    (start.issued id {} syncedThenNot).since [1] = some [.put [1] [7], .put [1] [8]] ∧
      (DB.openDB {} (bothPuts.lose ⟨fun _ => 0, fun _ => 1000⟩) .none).2 = .ok () ∧
      (DB.openDB {} (bothPuts.lose ⟨fun _ => 0, fun _ => 1000⟩) .none).1.result [1] = .error .corruption :=
  ⟨after_syncedThenNot, since_syncedThenNot, by decide +kernel, by decide +kernel⟩

end Machine

/-! ## `sync_writes` -/

/-- The version that is left for the key is the one of one of the entries: that of the last record that survives, or else
the one in the tables; and when none is left, one of the entries deletes the key. -/
def Disk.Leaves (o : Options) (d : Disk) (loss : Loss) (key : Key) (es : WriteBatch) : Prop :=
  match (d.lose loss).newest o key with
  | some x => ∃ e ∈ es, e.VersionOf d.vlog x
  | none => ∃ e ∈ es, e.value = none

section

variable {d : Disk} {h : History} {durable : Prop}

/-- Whatever is left was logged. -/
theorem Disk.Recoverable.newest (hd : d.Recoverable o) (hl : o.maxSstableLevels < 2 ^ 31) (loss : Loss) {key : Key}
    {x : InternalEntry} (hx : (d.lose loss).newest o key = some x) :
    ∃ r ∈ WAL.log d.wal, r.key = key ∧ r.entry = x := by
  obtain ⟨-, -, -, hsub⟩ := hd.logs.lose loss.wal
  rw [Disk.newest, (hd.openable loss).records] at hx
  cases hlast : WAL.lastRecord (WAL.log (d.lose loss).wal) key with
  | some r =>
    rw [hlast] at hx
    obtain ⟨hrm, hk⟩ := WAL.mem_of_lastRecord hlast
    exact ⟨r, hsub.subset hrm, hk, Option.some.inj hx⟩
  | none =>
    obtain ⟨levels, next, hn, hdesc, ht⟩ := hd.tables
    have hdesc' : Described o (d.lose loss) levels next := DB.described_congr hdesc rfl rfl
    have hload := hdesc'.loadManifest_listable hn hl
      (hdesc.listable hd.records (fun r hr => (hd.logs.fits hr).sequence) ht)
    rw [hlast] at hx
    simp only [Disk.tableEntry, hload] at hx
    obtain ⟨l, -, hlv⟩ := List.mem_flatMap.mp (List.mem_of_head? hx)
    obtain ⟨info, hi, hv⟩ := mem_tableVersions.mp hlv
    exact ht l info (Levels.mem_searched.mp hi) (key, x) (Assoc.mem_of_lookup hv)

/-- **What is read with `sync_writes`** is the value of an acknowledged entry or of a later one exactly when the version
that is left is the one of such an entry: its value is there. -/
theorem Remembers.reads_iff_leaves (hr : Remembers o durable d.vlog d.wal h) (hd : d.Recoverable o) (hu : o.Usable)
    (ho : o.syncWrites = true) (loss : Loss) {key : Key} {es : WriteBatch} (hs : h.since key = some es) :
    (d.lose loss).Reads o key es ↔ d.Leaves o loss key es := by
  obtain ⟨-, hsel⟩ := DB.openDB_newest (hd.openable loss) hu.levels
  rw [Disk.Leaves]
  cases hx : (d.lose loss).newest o key with
  | none =>
    have hnone := hsel.result_none hx
    constructor
    · rintro ⟨e, he, hread⟩
      refine ⟨e, he, ?_⟩
      rw [hnone] at hread
      cases hv : e.value with
      | none => rfl
      | some v => rw [hv] at hread; cases hread
    · rintro ⟨e, he, hv⟩
      exact ⟨e, he, by rw [hv]; exact hnone⟩
  | some x =>
    obtain ⟨r, hrm, rfl, rfl⟩ := hd.newest hu.levels loss hx
    obtain ⟨e', hw⟩ := hr.written r hrm
    have hver := hw.record.versionOf
    have hkey : r.key = e'.key := hw.record.key
    constructor
    · rintro ⟨e, he, hread⟩
      have hke : e.key = r.key := History.keyed hs e he
      refine ⟨e, he, ?_⟩
      cases e' with
      | put key' value =>
        obtain rfl : r.key = key' := hkey
        have hres := hsel.result_within hd.vlogIds hx hver ((hw.secured ho).within hver.1)
        rw [hres] at hread
        cases e with
        | put k v =>
          obtain rfl : k = r.key := hke
          obtain rfl : value = v := Except.ok.inj hread
          exact hver
        | delete k => cases hread
      | delete key' =>
        have hres := hsel.result_deletion hx hver
        rw [hres] at hread
        cases e with
        | put k v => cases hread
        | delete k => exact hver
    · rintro ⟨e, he, hev⟩
      have hke : e.key = r.key := History.keyed hs e he
      refine ⟨e, he, ?_⟩
      cases e with
      | put k v =>
        obtain rfl : k = r.key := hke
        exact hsel.result_within hd.vlogIds hx hev ((hw.secured ho).within hev.1)
      | delete k => exact hsel.result_deletion hx hev

end

namespace Machine

/-- **`sync_writes` and power losses.** Behind every run in which entries are written behind whole records, and every power
loss, an opening succeeds; and `Get` of a key with an acknowledged entry returns what the last one or a later entry leaves,
exactly when the version that is left is the one of such an entry. -/
theorem sync_writes_read_iff {o : Options} (hu : o.Usable) (ho : o.syncWrites = true) {events : List Event}
    (hw : ∀ ev ∈ events, ev.Writes) (hb : start.Throughout o (Bounded o) events)
    (hc : start.Throughout o BehindWhole events) {d : Disk} (hd : start.after o events = .off d) (loss : Loss) :
    (DB.openDB o (d.lose loss) .none).2 = .ok () ∧
      ∀ key es, (start.issued (fun _ => true) o events).since key = some es →
        ((d.lose loss).Reads o key es ↔ d.Leaves o loss key es) := by
  have hall : ∀ b : Bool, (fun _ => true) b = true → False → b = true := fun _ _ hf => hf.elim
  obtain ⟨⟨m, hl⟩, hr⟩ := remembers_after hu hall hw (logs_start hu) (@remembers_start o False) hb hc
  rw [hd] at hl hr
  rw [List.nil_append] at hr
  exact ⟨(DB.openDB_newest (hl.1.openable loss) hu.levels).1, fun key es hs => hr.reads_iff_leaves hl.1 hu ho loss hs⟩

/-- All writes are to be synced. -/
abbrev syncing : Options := { syncWrites := true }

/-- A put, and a crash. -/
def putThenCrash : List Event := [.reopen, sure false [.put [1] [7]], .crash .nothing]

/-- The files of the put. -/
def putAndSynced : Disk := ((DB.fresh syncing).write false [.put [1] [7]] {}).1.disk

theorem next_syncing : start.next syncing .reopen = .on (DB.fresh syncing) := next_reopen (by decide +kernel)

theorem after_putThenCrash : start.after syncing putThenCrash = .off putAndSynced := by
  rw [after, putThenCrash, List.foldl_cons, next_syncing]
  rfl

theorem since_putThenCrash : (start.issued (fun _ => true) syncing putThenCrash).since [1] = some [.put [1] [7]] := by
  rw [putThenCrash, issued, next_syncing]
  decide +kernel

/-- A power loss that leaves the WAL, and of the value log what was synced. -/
theorem sync_writes_read_iff_sample :
    (putAndSynced.lose ⟨fun _ => 0, fun _ => 1000⟩).Reads syncing [1] [.put [1] [7]] := by
  have hu : syncing.Usable := ⟨by decide, by decide, by decide⟩
  have hall : ∀ ev ∈ putThenCrash, ∀ e ∈ ev.entries, e.Fits ∧ e.key ≠ [] ∧ ∀ b ∈ e.key, isSpace b = false := by
    decide +kernel
  have hb : start.Throughout syncing (Bounded syncing) putThenCrash := by
    refine ⟨small_of (by decide +kernel) (by decide +kernel) (by decide +kernel) (by decide +kernel), ?_⟩
    rw [next_syncing]
    exact ⟨small_of (by decide +kernel) (by decide +kernel) (by decide +kernel) (by decide +kernel),
      small_of (by decide +kernel) (by decide +kernel) (by decide +kernel) (by decide +kernel), trivial⟩
  have hfaultless : ∀ ev ∈ putThenCrash, ev.Faultless := by
    intro ev hev
    simp only [putThenCrash, List.mem_cons, List.not_mem_nil, or_false] at hev
    rcases hev with rfl | rfl | rfl
    · trivial
    · exact ⟨rfl, rfl⟩
    · trivial
  have hc := Serves.throughout hu (fun ev hev => ⟨hall ev hev, hfaultless ev hev⟩) (logs_start hu) trivial hb
  refine ((sync_writes_read_iff hu rfl hall hb hc after_putThenCrash _).2 _ _ since_putThenCrash).mpr ?_
  have hnewest : (putAndSynced.lose ⟨fun _ => 0, fun _ => 1000⟩).newest syncing [1] = some ⟨⟨1, 0, 1⟩, 2, .value⟩ := by
    decide +kernel
  rw [Disk.Leaves, hnewest]
  refine ⟨_, List.mem_singleton.mpr rfl, rfl, ⟨1, by decide +kernel, Nat.le_refl 1, rfl, by decide +kernel, [], [], ?_, rfl⟩,
    by decide +kernel⟩
  decide +kernel

/-- **An acknowledged put is lost** with `sync_writes`: its record was not synced. -/
theorem sync_writes_lost : start.after syncing putThenCrash = .off putAndSynced ∧
    (start.issued (fun _ => true) syncing putThenCrash).since [1] = some [.put [1] [7]] ∧
      (DB.openDB syncing (putAndSynced.lose ⟨fun _ => 1000, fun _ => 0⟩) .none).2 = .ok () ∧
      (DB.openDB syncing (putAndSynced.lose ⟨fun _ => 1000, fun _ => 0⟩) .none).1.result [1] = .error .notFound :=
  ⟨after_putThenCrash, since_putThenCrash, by decide +kernel, by decide +kernel⟩

end Machine

end SplitKV
