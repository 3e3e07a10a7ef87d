import SplitKV.PowerLoss.Newest

/-!
# What an opening selects

Whatever is left of the WAL files, an opening selects for a key the version of its last record, and when no record of it
is left, the first version in the tables (`DB.openDB_newest`).
-/

namespace SplitKV

open Versions

/-- The first entry of the key in the tables that the manifest registers. -/
def Disk.tableEntry (o : Options) (d : Disk) (key : Key) : Option InternalEntry :=
  match DB.loadManifest d o.maxSstableLevels with
  | .ok (_, levels) => (levels.versions o.maxSstableLevels key).head?
  | .error _ => none

/-- The version of the key that comes first among what is left: that of its last record, or the one in the tables. -/
def Disk.newest (o : Options) (d : Disk) (key : Key) : Option InternalEntry :=
  match WAL.lastRecord d.records key with
  | some r => some r.entry
  | none => d.tableEntry o key

/-- The files can be opened, whatever records are left. -/
structure Disk.Openable (o : Options) (d : Disk) : Prop where
  logs : WAL.Logs d.wal
  walIds : ∀ id ∈ d.wal.dir, id < 100000
  tables : ∃ levels next, next < 2 ^ 32 ∧ Described o d levels next ∧ Listable levels

theorem Disk.Openable.records {o : Options} {d : Disk} (h : d.Openable o) : d.records = WAL.log d.wal := by
  rw [Disk.records, DB.walIds_eq h.logs.sorted h.walIds]
  rfl

/-- **A power loss** leaves files that can be opened. -/
theorem Disk.Recoverable.openable {o : Options} {d : Disk} (h : d.Recoverable o) (loss : Loss) : (d.lose loss).Openable o := by
  obtain ⟨levels, next, hn, hd, ht⟩ := h.tables
  exact ⟨(h.logs.lose loss.wal).1, h.walIds, levels, next, hn, DB.described_congr hd rfl rfl,
    hd.listable h.records (fun r hr => (h.logs.fits hr).sequence) ht⟩

namespace DB

/-- What an opening that succeeds leads to. -/
structure Selects (o : Options) (d : Disk) (db : DB) : Prop where
  wf : db.Wf
  vlog : db.vlog = VLog.openLog d.vlog
  head : ∀ key, (db.versions key).head? = d.newest o key

/-- **An opening** without a fault succeeds, and selects the newest versions that are left. -/
theorem openDB_newest {o : Options} {d : Disk} (h : d.Openable o) (hl : o.maxSstableLevels < 2 ^ 31) :
    (openDB o d .none).2 = .ok () ∧ Selects o d (openDB o d .none).1 := by
  obtain ⟨levels, next, hn, hd, hlist⟩ := h.tables
  have hload := hd.loadManifest_listable hn hl hlist
  have hids := walIds_eq h.logs.sorted h.walIds
  have hmem : ∀ r, r ∈ WAL.log d.wal ↔ ∃ id ∈ d.wal.dir, r ∈ WAL.recoverFile (d.wal.data id) := fun r => List.mem_flatMap
  obtain ⟨-, hlay, hok⟩ := replayWals_layers (replaying_tables hd (WAL.log d.wal)) .none (fun id hid => hids ▸ hid)
    (fun id hid r hr => ⟨List.mem_append_right _ ((hmem r).mpr ⟨id, hid, hr⟩), h.logs.fits ((hmem r).mpr ⟨id, hid, hr⟩)⟩) hmem
  have hrec : recordsOf (openState o d next levels).wal.files (walIds d.wal) = WAL.log d.wal := by
    rw [show (openState o d next levels).wal.files = d.wal from rfl, hids]
    rfl
  rw [hrec] at hlay
  have hreplay := replayWals_holding .none (walIds d.wal) 0 (openState o d next levels)
  have he : openDB o d .none = (openState o d next levels).recoverFromWAL .none := by
    rw [openDB, if_neg (by decide), hload]
  cases hx : replayWals .none 0 (walIds d.wal) (openState o d next levels) with
  | mk db r =>
    rw [hx] at hlay hok hreplay
    obtain rfl : r = .ok () := hok fun _ => rfl
    have hlayer := hlay rfl
    obtain ⟨walId, -, hrecover⟩ := @recoverFromWAL_ok (openState o d next levels) _ _ (hids.symm ▸ h.logs.sorted) hx
    rw [he, hrecover, show OpenFaults.none.create = CreateFault.none from rfl, WAL.create_none]
    have hwf := hlayer.toReplaying.wf
    refine ⟨rfl, ⟨hwf.memtables, hwf.levels, hwf.ids⟩, hreplay.1.vlog, fun key => ?_⟩
    show (db.versions key).head? = _
    rw [Disk.newest, h.records]
    cases hlast : WAL.lastRecord (WAL.log d.wal) key with
    | some r => exact hlayer.head key r hlast
    | none =>
      rw [hlayer.untouched key (WAL.lastRecord_eq_none.mp hlast), Disk.tableEntry, hload]
      rfl

/-- What `Get` returns behind an opening. -/
theorem Selects.result {o : Options} {d : Disk} {db : DB} (h : Selects o d db) (key : Key) :
    db.result key = observe (resolve (VLog.openLog d.vlog) (d.newest o key)) := by
  rw [DB.result, get, getWith, findLatest_eq h.wf, h.head, h.vlog]

end DB

end SplitKV
