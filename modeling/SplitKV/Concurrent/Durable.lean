import SplitKV.Concurrent.Manifest
import SplitKV.Recovery.Lifetime

/-!
# Crashes among the threads

Writers, the flush thread and compactions take turns, section by section, and the process dies in between, or in the middle
of a write, while tables are half written or half deleted. The manifest on disk then lists the tables of some earlier moment,
but the log has all records. An opening succeeds, and `Get` answers for the entries that were left (`Host.threads_durable`),
over any number of crashes.
-/

namespace SplitKV

open Assoc Levels

/-! ## Other tables under the same logs -/

/-- What a database knows of its tables. -/
structure Index where
  sst : Folder (Option SSTableFile)
  manifest : Option Bytes
  nextSstableId : Nat
  levels : Levels

namespace DB

def index (db : DB) : Index := ⟨db.sst, db.manifest, db.nextSstableId, db.levels⟩

def withIndex (db : DB) (ix : Index) : DB :=
  { db with sst := ix.sst, manifest := ix.manifest, nextSstableId := ix.nextSstableId, levels := ix.levels }

section

variable (db : DB) (ix : Index)

theorem writeEntry_withIndex (e : BatchEntry) (fv : AppendFault) (fw : Option Nat) :
    (db.withIndex ix).writeEntry e fv fw = ((db.writeEntry e fv fw).1.withIndex ix, (db.writeEntry e fv fw).2) := by
  cases e with
  | put key value =>
    simp only [writeEntry, withIndex]
    split
    · rfl
    · split <;> rfl
  | delete key =>
    simp only [writeEntry, withIndex]
    split <;> rfl

theorem writeEntries_withIndex (f : WriteFaults) (batch : WriteBatch) (i : Nat) (db : DB) :
    writeEntries f i batch (db.withIndex ix) =
      ((writeEntries f i batch db).1.withIndex ix, (writeEntries f i batch db).2) := by
  induction batch generalizing i db with
  | nil => rfl
  | cons e batch ih =>
    rw [writeEntries, writeEntries, writeEntry_withIndex]
    generalize db.writeEntry e (f.vlog i) (f.wal i) = y
    obtain ⟨db₁, r⟩ := y
    cases r with
    | error s => rfl
    | ok u => exact ih (i + 1) db₁

theorem maybeScheduleFlush_withIndex (fault : CreateFault) : (db.withIndex ix).maybeScheduleFlush fault =
    ((db.maybeScheduleFlush fault).1.withIndex ix, (db.maybeScheduleFlush fault).2) := by
  unfold maybeScheduleFlush
  by_cases hs : db.memtable.shouldFlush = true
  · have hs' : (db.withIndex ix).memtable.shouldFlush = true := hs
    rw [if_pos hs, if_pos hs']
    rfl
  · have hs' : ¬(db.withIndex ix).memtable.shouldFlush = true := hs
    rw [if_neg hs, if_neg hs']

/-- **A write** takes no part in the tables. -/
theorem write_withIndex (sync : Bool) (batch : WriteBatch) (f : WriteFaults) : (db.withIndex ix).write sync batch f =
    ((db.write sync batch f).1.withIndex ix, (db.write sync batch f).2) := by
  rw [write, write, writeEntries_withIndex]
  generalize writeEntries f 0 batch db = y
  obtain ⟨db₁, r⟩ := y
  cases r with
  | error s => rfl
  | ok u =>
    cases sync with
    | false => exact maybeScheduleFlush_withIndex db₁ ix f.create
    | true => exact maybeScheduleFlush_withIndex db₁.syncLogs ix f.create

theorem index_write (sync : Bool) (batch : WriteBatch) (f : WriteFaults) : (db.write sync batch f).1.index = db.index :=
  congrArg (fun x => x.1.index) (write_withIndex db db.index sync batch f)

end

/-- The tables, as if a manifest of them was saved just now. -/
def listing (db : DB) (p : Nat × Levels) : DB := db.withIndex ⟨db.sst, some (SaveSys.text db.options p), p.1, p.2⟩

/-- The state as if its manifest was saved just now. -/
def asListed (db : DB) : DB := db.listing (db.nextSstableId, db.levels)

/-- Tables on disk whose versions are in the log. -/
theorem Logged.listing {db : DB} (h : db.asListed.Logged) {next : Nat} {levels : Levels} (hl : SaveSys.Lists db next levels)
    (ht : TablesRecorded (WAL.log db.wal.files) levels) : (db.listing (next, levels)).Logged where
  wf := ⟨h.wf.memtables, hl.wf, hl.ids⟩
  described := ⟨Or.inr rfl, hl.onDisk, hl.wf, hl.ids, hl.unique⟩
  logs := h.logs
  records := h.records
  bound := h.bound
  memtables := h.memtables
  tables := ht
  vlog := h.vlog
  walId := h.walId
  pos := h.pos

/-- When all versions of the tables are in the log, so are the tables. -/
theorem recorded_of_versions {db : DB} (hw : db.Wf) {rs : List WALRecord}
    (h : ∀ key, ∀ e ∈ db.versions key, ∃ r ∈ rs, r.key = key ∧ r.entry = e) : TablesRecorded rs db.levels := by
  intro l info hi p hp
  have hlt : l < db.options.maxSstableLevels := by
    by_contra hge
    rw [hw.levels.empty l (by omega)] at hi
    exact absurd hi List.not_mem_nil
  have hv : info.version p.1 = some p.2 := (hw.levels.tables l info hi).reader.sorted.lookup_eq_some_iff.mpr hp
  refine h p.1 p.2 (List.mem_append_right _ (List.mem_flatMap.mpr ⟨l, List.mem_range.mpr hlt, ?_⟩))
  exact mem_tableVersions.mpr ⟨info, Levels.mem_searched.mpr hi, hv⟩

end DB

/-! ## Sections that are no writes -/

namespace Sys

variable {s : Sys} {a : Act}

/-- What a section of the flush or of a compaction does to the logs and the memtables: nothing, or it pops the oldest
memtable. -/
theorem Inv.sameLogs (h : s.Inv) (ha : s.Apart a) (hw : a.isWrite = false) :
    s.db.SameLogs (s.step a).db ∧ ∀ m ∈ (s.step a).db.memtables, m ∈ s.db.memtables := by
  have honly : s.db.OnlyIndex (s.step a).db →
      s.db.SameLogs (s.step a).db ∧ ∀ m ∈ (s.step a).db.memtables, m ∈ s.db.memtables := by
    intro hi
    refine ⟨hi.sameLogs, fun m hm => ?_⟩
    rwa [DB.memtables, hi.memtable, hi.immutableMemtables] at hm
  cases a with
  | write sync batch => cases hw
  | startCompact t lvl =>
    rw [(h.startCompact ha).2] at honly ⊢
    exact honly (DB.OnlyIndex.refl _)
  | compact t => exact honly (h.compact t).2.onlyIndex
  | flush =>
    cases h.flush.2 with
    | quiet hi _ => exact honly hi
    | register _ _ _ hr => exact honly hr.onlyIndex
    | pop m hq _ he =>
      rw [he]
      refine ⟨⟨rfl, rfl, rfl, rfl, rfl⟩, fun m hm => ?_⟩
      rcases List.mem_cons.mp hm with rfl | hm
      · exact List.mem_cons_self
      · exact List.mem_cons_of_mem _ (List.mem_reverse.mpr (List.mem_of_mem_tail (List.mem_reverse.mp hm)))

/-- **A section that is no write** changes the tables only. -/
theorem Inv.reindexed (h : s.Inv) (ha : s.Apart a) (hw : a.isWrite = false) (hl : s.db.asListed.Logged)
    (hdisk : ∀ l, ∀ info ∈ (s.step a).db.levels l, OnDisk (s.step a).db.sst l info)
    (hu : ∀ l l' x y, x ∈ (s.step a).db.levels l → y ∈ (s.step a).db.levels l' →
      x.tableMeta.fileId = y.tableMeta.fileId → l = l') : s.db.asListed.Reindexed (s.step a).db.asListed := by
  obtain ⟨hsame, hmem⟩ := h.sameLogs ha hw
  have hq := h.quiet ha hw
  have hwf := (h.step ha).steady.wf
  have hlogs : s.db.asListed.SameLogs (s.step a).db.asListed :=
    ⟨hsame.vlog, hsame.wal, hsame.walId, hsame.options, hsame.sequenceNumber⟩
  refine ⟨hlogs, hl.index hlogs ⟨hwf.memtables, hwf.levels, hwf.ids⟩ ⟨?_, Nat.le_refl _, ?_⟩ hmem⟩
  · have hd : Described (s.step a).db.options (s.step a).db.asListed.disk (s.step a).db.levels (s.step a).db.nextSstableId :=
      ⟨Or.inr rfl, hdisk, hwf.levels, hwf.ids, hu⟩
    exact hsame.options ▸ hd
  · exact DB.recorded_of_versions hwf fun key e he => hl.versions (hq.subset key e he)

end Sys

theorem DB.Small.withIndex {db : DB} (h : db.Small) {ix : Index} (hn : ix.nextSstableId ≤ 100000) :
    (db.withIndex ix).Small := ⟨h.vlog, h.wal, hn, h.sequence⟩

theorem DB.Small.write_asListed {db : DB} {sync : Bool} {batch : WriteBatch} {f : WriteFaults}
    (h : (db.write sync batch f).1.Small) : (db.asListed.write sync batch f).1.Small := by
  rw [DB.asListed, DB.listing, DB.write_withIndex]
  exact h.withIndex ((congrArg Index.nextSstableId (DB.index_write db sync batch f)).ge.trans h.sst)

/-- A manifest that was saved just now says what is in service. -/
theorem DB.InService.asListed {db : DB} {m : Contents} (h : db.InService m) : db.asListed.InService m := by
  have hl := h.alive.logged
  have hsame : db.SameLogs db.asListed := ⟨rfl, rfl, rfl, rfl, rfl⟩
  have hd : Described db.options db.asListed.disk db.levels db.nextSstableId :=
    ⟨Or.inr rfl, hl.described.onDisk, hl.wf.levels, hl.wf.ids, hl.described.unique⟩
  refine h.reindexed ⟨hsame, hl.index hsame ⟨hl.wf.memtables, hl.wf.levels, hl.wf.ids⟩ ?_ fun _ hm => hm⟩ h.settled fun _ => rfl
  exact ⟨hd, Nat.le_refl _, hl.tables⟩

/-! ## The invariant -/

namespace SaveSys

/-- The database answers for the contents, and so will the tables of the manifests that are saved, and that are being saved,
with the log. -/
structure Durable (s : SaveSys) (m : Contents) : Prop where
  inv : s.Inv
  service : s.sys.db.asListed.InService m
  snapshot : ∀ w next levels, s.snapshot = some (w, next, levels) → TablesRecorded (WAL.log s.sys.db.wal.files) levels
  saved : ∀ next levels, s.saved = some (next, levels) → TablesRecorded (WAL.log s.sys.db.wal.files) levels

variable {s : SaveSys} {a : Act} {m : Contents}

/-- What a step does. -/
theorem step_cases (s : SaveSys) (a : Act) : s.step a = s ∨
    (∃ counted, s.step a = { s with counted := counted }) ∨
    (∃ w next, s.step a = { s with snapshot := some (w, next, s.sys.db.levels) }) ∨
    (∃ w p, s.sys.saves a = true ∧ s.snapshot = some (w, p) ∧ s.step a = {
      sys := (s.sys.step a).setManifest (text s.sys.db.options p)
      counted := Function.update s.counted w none
      snapshot := none
      saved := some p }) ∨
    s.sys.saves a = false ∧ (s.sys.locks a = true → s.snapshot = none) ∧ s.step a = { s with sys := s.sys.step a } := by
  unfold SaveSys.step
  split
  · rename_i hs
    split
    · rename_i w _
      unfold saveStep
      split
      · exact Or.inr (Or.inl ⟨_, rfl⟩)
      · rename_i next _
        split
        · exact Or.inr (Or.inr (Or.inl ⟨w, next, rfl⟩))
        · rename_i owner p hsnap
          split
          · rename_i hw
            subst hw
            exact Or.inr (Or.inr (Or.inr (Or.inl ⟨owner, p, hs, hsnap, rfl⟩)))
          · exact Or.inl rfl
    · exact Or.inl rfl
  · rename_i hs
    split
    · exact Or.inl rfl
    · rename_i hlock
      refine Or.inr (Or.inr (Or.inr (Or.inr ⟨Bool.not_eq_true _ ▸ hs, fun hl => ?_, rfl⟩)))
      rwa [hl, Bool.and_true, Bool.not_eq_true, Option.isSome_eq_false_iff, Option.isNone_iff_eq_none] at hlock

/-- The database behind a section that is no write. -/
theorem Durable.serviced (h : s.Durable m) (ht : s.Timely a) (hw : a.isWrite = false)
    (hd : ∀ l, ∀ info ∈ (s.sys.step a).db.levels l, OnDisk (s.sys.step a).db.sst l info)
    (hu : ∀ l l' x y, x ∈ (s.sys.step a).db.levels l → y ∈ (s.sys.step a).db.levels l' →
      x.tableMeta.fileId = y.tableMeta.fileId → l = l') : (s.sys.step a).db.asListed.InService m := by
  have hr := h.inv.sys.reindexed ht.1 hw h.service.alive.logged hd hu
  exact h.service.reindexed hr (h.inv.sys.step ht.1).steady.settled (h.inv.sys.quiet ht.1 hw).visible

/-- **A section that is no write.** -/
theorem Durable.section (h : s.Durable m) (ht : s.Timely a) (hw : a.isWrite = false) :
    (s.step a).Durable m ∧ (s.step a).sys.db.options = s.sys.db.options := by
  have hinv := h.inv.step ht
  have hlogs := (h.inv.sys.sameLogs ht.1 hw).1
  have hlog : WAL.log (s.sys.step a).db.wal.files = WAL.log s.sys.db.wal.files := by rw [hlogs.wal]
  rcases step_cases s a with he | ⟨counted, he⟩ | ⟨w, next, he⟩ | ⟨w, p, -, hsnap, he⟩ | ⟨-, -, he⟩ <;>
    rw [he] at hinv ⊢
  · exact ⟨h, rfl⟩
  · exact ⟨⟨hinv, h.service, h.snapshot, h.saved⟩, rfl⟩
  · refine ⟨⟨hinv, h.service, fun _ _ _ hs => ?_, h.saved⟩, rfl⟩
    cases hs
    exact h.service.alive.logged.tables
  · refine ⟨⟨hinv, h.serviced ht hw hinv.files.onDisk hinv.files.unique, fun _ _ _ hs => (by cases hs), fun next levels hs => ?_⟩,
      hlogs.options⟩
    cases hs
    show TablesRecorded (WAL.log (s.sys.step a).db.wal.files) levels
    rw [hlog]
    exact h.snapshot w next levels hsnap
  · refine ⟨⟨hinv, h.serviced ht hw hinv.files.onDisk hinv.files.unique, ?_, ?_⟩, hlogs.options⟩
    · show ∀ w next levels, _ → TablesRecorded (WAL.log (s.sys.step a).db.wal.files) levels
      rw [hlog]
      exact h.snapshot
    · show ∀ next levels, _ → TablesRecorded (WAL.log (s.sys.step a).db.wal.files) levels
      rw [hlog]
      exact h.saved

/-- The entries can be written. -/
def Writable (batch : WriteBatch) : Prop := ∀ e ∈ batch, e.Fits ∧ Token e.key

/-- Tables that are in the log are in the log behind a write. -/
theorem Durable.recorded_write (h : s.Durable m) {next : Nat} {levels : Levels} (hl : Lists s.sys.db next levels)
    (ht : TablesRecorded (WAL.log s.sys.db.wal.files) levels) (sync : Bool) {batch : WriteBatch} (hw : Writable batch)
    (hlim : s.sys.db.options.vlogFileSizeLimit < 2 ^ 64) (hs : (s.sys.db.write sync batch {}).1.Small) :
    TablesRecorded (WAL.log (s.sys.db.write sync batch {}).1.wal.files) levels := by
  have hview := h.service.alive.logged.listing hl ht
  have hnext : next ≤ (s.sys.db.write sync batch {}).1.nextSstableId :=
    hl.next_le.trans (congrArg Index.nextSstableId (DB.index_write s.sys.db sync batch {})).ge
  have hsmall : ((s.sys.db.listing (next, levels)).write sync batch {}).1.Small := by
    rw [DB.listing, DB.write_withIndex]
    exact hs.withIndex (hnext.trans hs.sst)
  have hlogged := ((hview.write h.service.alive.active sync (DB.continues_of_ready h.service.alive.ready.offset batch)
    (fun e he => (hw e he).1) (fun e he => (hw e he).2) hlim {} hsmall).2.2 rfl).1
  rw [DB.listing, DB.write_withIndex] at hlogged
  exact hlogged.tables

/-- **A write.** -/
theorem Durable.write (h : s.Durable m) (sync : Bool) {batch : WriteBatch} (hw : Writable batch)
    (hlim : s.sys.db.options.vlogFileSizeLimit < 2 ^ 64) (hs : (s.sys.db.write sync batch {}).1.Small) :
    (s.step (.write sync batch)).Durable (WriteBatch.apply m batch) ∧
      (s.step (.write sync batch)).sys.db.options = s.sys.db.options := by
  have hstep : s.step (.write sync batch) = { s with sys := s.sys.step (.write sync batch) } := by
    simp [SaveSys.step, Sys.saves, Sys.locks]
  have hinv : (s.step (.write sync batch)).Inv := h.inv.step ⟨trivial, fun _ _ hm => absurd hm List.not_mem_nil⟩
  have hindex := DB.index_write s.sys.db sync batch {}
  obtain ⟨-, hopt, hserv⟩ := h.service.write sync hw hlim hs.write_asListed
  rw [DB.asListed, DB.listing, DB.write_withIndex] at hopt hserv
  have hopt : (s.sys.db.write sync batch {}).1.options = s.sys.db.options := hopt
  rw [hstep] at hinv ⊢
  refine ⟨⟨hinv, ?_, fun w next levels he => ?_, fun next levels he => ?_⟩, hopt⟩
  · have hlisted : (s.sys.db.write sync batch {}).1.asListed = (s.sys.db.write sync batch {}).1.withIndex
        ⟨s.sys.db.sst, some (text s.sys.db.options (s.sys.db.nextSstableId, s.sys.db.levels)), s.sys.db.nextSstableId,
          s.sys.db.levels⟩ := by
      have h₁ : (s.sys.db.write sync batch {}).1.sst = s.sys.db.sst := congrArg Index.sst hindex
      have h₂ : (s.sys.db.write sync batch {}).1.nextSstableId = s.sys.db.nextSstableId :=
        congrArg Index.nextSstableId hindex
      have h₃ : (s.sys.db.write sync batch {}).1.levels = s.sys.db.levels := congrArg Index.levels hindex
      rw [DB.asListed, DB.listing, h₁, h₂, h₃, hopt]
    show (s.sys.db.write sync batch {}).1.asListed.InService _
    rw [hlisted]
    exact hserv
  · exact h.recorded_write (h.inv.snapshot w next levels he).1 (h.snapshot w next levels he) sync hw hlim hs
  · exact h.recorded_write (h.inv.saved next levels he).1 (h.saved next levels he) sync hw hlim hs

/-! ## Crashes -/

/-- A crash keeps the table files that no thread is writing or deleting. -/
def Tears (s : SaveSys) (torn : Folder (Option SSTableFile)) : Prop :=
  ∀ id ∈ s.sys.db.sst.dir, id < s.sys.db.nextSstableId → (∀ w, id ∉ s.sys.touched w) →
    id ∈ torn.dir ∧ torn.data id = s.sys.db.sst.data id

/-- A write that a crash interrupts, if there is one: how far its appends got. -/
abbrev Doing := Option (Bool × WriteBatch × WriteFaults)

/-- The state in the middle of a write. -/
def interrupt (s : SaveSys) : Doing → DB
  | none => s.sys.db
  | some (sync, batch, f) => (s.sys.db.write sync batch f).1

/-- The entries of the write. -/
def entries : Doing → WriteBatch
  | none => []
  | some (_, batch, _) => batch

/-- What a crash leaves: the logs, the last manifest, and some table files. -/
def crashed (s : SaveSys) (during : Doing) (torn : Folder (Option SSTableFile)) : Disk :=
  { (s.interrupt during).disk with sst := torn }

/-- The tables that the manifest on disk lists. -/
def savedTables (s : SaveSys) : Nat × Levels := s.saved.getD (1, fun _ => [])

/-- The state that the manifest on disk describes. -/
def onDisk (s : SaveSys) (torn : Folder (Option SSTableFile)) : DB :=
  s.sys.db.withIndex ⟨torn, s.sys.db.manifest, s.savedTables.1, s.savedTables.2⟩

/-- What a crash leaves can be recovered when the log has the versions of the tables and of the manifests. -/
theorem Inv.onDisk (h : s.Inv) (hl : s.sys.db.asListed.Logged)
    (hs : ∀ next levels, s.saved = some (next, levels) → TablesRecorded (WAL.log s.sys.db.wal.files) levels)
    {torn : Folder (Option SSTableFile)} (ht : s.Tears torn) :
    (s.onDisk torn).Logged ∧ s.savedTables.1 ≤ max 1 s.sys.db.nextSstableId := by
  cases hsaved : s.saved with
  | none =>
    have htables : s.savedTables = (1, fun _ => []) := by rw [savedTables, hsaved]; rfl
    have hm : s.sys.db.manifest = none := by rw [h.manifest, hsaved]; rfl
    have hnil : ∀ (l : Nat) (info : SSTableInfo), info ∉ (fun _ => [] : Levels) l := fun _ _ => List.not_mem_nil
    have hwf : Levels.Wf (fun _ => []) s.sys.db.options.maxSstableLevels := ⟨hl.wf.levels.pos,
      fun l info hi => absurd hi (hnil l info), fun _ => List.Pairwise.nil, fun _ _ _ => Nat.zero_le 1, fun _ _ => rfl⟩
    unfold SaveSys.onDisk
    rw [htables]
    refine ⟨⟨⟨hl.wf.memtables, hwf, fun l info hi => absurd hi (hnil l info)⟩, ⟨Or.inl ⟨hm, rfl, rfl⟩,
      fun l info hi => absurd hi (hnil l info), hwf, fun l info hi => absurd hi (hnil l info),
      fun l _ x _ hx => absurd hx (hnil l x)⟩, hl.logs, hl.records, hl.bound, hl.memtables,
      fun l info hi => absurd hi (hnil l info), hl.vlog, hl.walId, hl.pos⟩, le_max_left _ _⟩
  | some p =>
    obtain ⟨next, levels⟩ := p
    have htables : s.savedTables = (next, levels) := by rw [savedTables, hsaved]; rfl
    have hm : s.sys.db.manifest = some (text s.sys.db.options (next, levels)) := by rw [h.manifest, hsaved]; rfl
    obtain ⟨hlists, hfree⟩ := h.saved next levels hsaved
    unfold SaveSys.onDisk
    rw [htables]
    refine ⟨⟨⟨hl.wf.memtables, hlists.wf, hlists.ids⟩, ⟨Or.inr hm, fun l info hi => ?_, hlists.wf, hlists.ids, hlists.unique⟩,
      hl.logs, hl.records, hl.bound, hl.memtables, hs next levels hsaved, hl.vlog, hl.walId, hl.pos⟩,
      hlists.next_le.trans (le_max_right _ _)⟩
    have hdisk := hlists.onDisk l info hi
    obtain ⟨h₁, h₂⟩ := ht _ hdisk.mem ((hlists.ids l info hi).trans_le hlists.next_le)
      fun w hm => hfree w _ hm l info hi rfl
    exact hdisk.congr h₁ h₂

/-- **A crash** of a state whose log stands for the contents. -/
theorem Inv.crash (h : s.Inv) (hl : s.sys.db.asListed.Logged)
    (hs : ∀ next levels, s.saved = some (next, levels) → TablesRecorded (WAL.log s.sys.db.wal.files) levels)
    (hm : Tells s.sys.db.vlog.files (WAL.log s.sys.db.wal.files) m) {torn : Folder (Option SSTableFile)} (ht : s.Tears torn)
    (hsmall : s.sys.db.Small) : (Machine.off (s.crashed none torn)).Lives s.sys.db.options m := by
  obtain ⟨hlogged, hle⟩ := h.onDisk hl hs ht
  exact ⟨hlogged.recoverable (hsmall.withIndex (hle.trans (max_le (by decide) hsmall.sst))), hm⟩

/-- **A crash**, between two sections or in the middle of a write. -/
theorem Durable.crash (h : s.Durable m) (during : Doing) (hw : Writable (entries during))
    (hlim : s.sys.db.options.vlogFileSizeLimit < 2 ^ 64) {torn : Folder (Option SSTableFile)} (ht : s.Tears torn)
    (hs : (s.interrupt during).Small) : ∃ es, es <+: entries during ∧
      (Machine.off (s.crashed during torn)).Lives s.sys.db.options (WriteBatch.apply m es) := by
  cases during with
  | none => exact ⟨[], List.prefix_rfl, h.inv.crash h.service.alive.logged h.saved h.service.tells ht hs⟩
  | some during =>
    obtain ⟨hl, hle⟩ := h.inv.onDisk h.service.alive.logged h.saved ht
    obtain ⟨sync, batch, f⟩ := during
    have hindex := DB.index_write s.sys.db sync batch f
    have hsst : s.sys.db.nextSstableId ≤ 100000 := (congrArg Index.nextSstableId hindex).ge.trans hs.sst
    have hsmall : ((s.onDisk torn).write sync batch f).1.Small := by
      rw [SaveSys.onDisk, DB.write_withIndex]
      exact hs.withIndex (hle.trans (max_le (by decide) hsst))
    obtain ⟨hrec, hbatch, -⟩ := hl.write h.service.alive.active sync
      (DB.continues_of_ready h.service.alive.ready.offset batch) (fun e he => (hw e he).1) (fun e he => (hw e he).2) hlim f
      hsmall
    obtain ⟨n, hn⟩ := hbatch.told m h.service.tells
    have hdisk : ((s.onDisk torn).write sync batch f).1.disk = s.crashed (some (sync, batch, f)) torn := by
      have hm : (s.sys.db.write sync batch f).1.manifest = s.sys.db.manifest := congrArg Index.manifest hindex
      rw [SaveSys.onDisk, DB.write_withIndex, ← hm]
      rfl
    rw [hdisk] at hrec
    rw [SaveSys.onDisk, DB.write_withIndex] at hn
    exact ⟨batch.take n, List.take_prefix n batch, hrec, hn⟩

/-- **An opening.** -/
theorem durable_start {o : Options} {d : Disk} (hu : o.Usable) (h : (Machine.off d).Lives o m)
    (hs : (DB.openDB o d .none).1.Small) : (DB.openDB o d .none).2 = .ok () ∧ (DB.openDB o d .none).1.options = o ∧
      (start (DB.openDB o d .none).1).Durable m := by
  obtain ⟨hd, ht⟩ := h
  obtain ⟨hres, hok⟩ := DB.openDB_spec hd hu.levels .none hs
  have hopened := hres.opened (hok rfl)
  have hserv := hopened.inService (hres.tells m ht)
  refine ⟨hok rfl, hopened.options, inv_start (.reopened hd hu.levels .none hs (hok rfl)), hserv.asListed,
    fun _ _ _ he => (by cases he), fun next levels he => ?_⟩
  obtain ⟨-, -, hp⟩ := Option.map_eq_some_iff.mp he
  cases hp
  exact hserv.alive.logged.tables

end SaveSys

/-! ## Lifetimes -/

/-- A directory that is closed, or open with its threads at work. -/
inductive Host
  | off (d : Disk)
  | on (s : SaveSys)

/-- What happens to it: an opening, a crash during an opening, a section of a thread, a crash. -/
inductive Incident
  | opening
  | crashOpening (f : OpenFaults)
  | act (a : Act)
  | crash (during : SaveSys.Doing) (torn : Folder (Option SSTableFile))

namespace Host

def next (o : Options) : Host → Incident → Host
  | .off d, .opening =>
    match DB.openDB o d .none with
    | (db, .ok ()) => .on (SaveSys.start db)
    | (db, .error _) => .off db.disk
  | .off d, .crashOpening f => .off (DB.openDB o d f).1.disk
  | .on s, .act a => .on (s.step a)
  | .on s, .crash during torn => .off (s.crashed during torn)
  | h, _ => h

/-- The entries that an incident leaves: a batch that is written, and some of the first entries of one that is interrupted. -/
def Leaves : Host → Incident → WriteBatch → Prop
  | .on _, .act (.write _ batch), es => es = batch
  | .on _, .crash during _, es => es <+: SaveSys.entries during
  | _, _, es => es = []

/-- Entries can be written, ids and sequence numbers are within their bounds, the threads keep the rules under which the
manifest is sound, and a crash only harms the tables that a thread is at. -/
def Regular (o : Options) : Host → Incident → Prop
  | .off d, .opening => (DB.openDB o d .none).1.Small
  | .off d, .crashOpening f => (DB.openDB o d f).1.Small
  | .on s, .act a => s.Timely a ∧ ∀ sync batch, a = .write sync batch →
      SaveSys.Writable batch ∧ (s.sys.db.write sync batch {}).1.Small
  | .on s, .crash during torn => SaveSys.Writable (SaveSys.entries during) ∧ s.Tears torn ∧ (s.interrupt during).Small
  | _, _ => True

/-- The files can be recovered, or the threads are at work. -/
def Lives (o : Options) : Host → Contents → Prop
  | .off d, m => (Machine.off d).Lives o m
  | .on s, m => s.sys.db.options = o ∧ s.Durable m

/-- An empty directory. -/
def start : Host := .off .empty

variable {o : Options}

/-- An opening that succeeds. -/
theorem next_opening {d : Disk} (h : (DB.openDB o d .none).2 = .ok ()) :
    (Host.off d).next o .opening = .on (SaveSys.start (DB.openDB o d .none).1) := by
  rw [next, show DB.openDB o d .none = ((DB.openDB o d .none).1, .ok ()) from Prod.ext rfl h]

/-- **An incident.** -/
theorem Lives.keeps (hu : o.Usable) : Ledger.Keeps (next o) Leaves WriteBatch.apply (Lives o) (Regular o) := by
  rintro host x m h hr
  cases host with
  | off d =>
    cases x with
    | opening =>
      obtain ⟨hok, ho, hd⟩ := SaveSys.durable_start hu h hr
      rw [next_opening hok]
      exact ⟨[], rfl, ho, hd⟩
    | crashOpening f =>
      obtain ⟨hres, -⟩ := DB.openDB_spec h.1 hu.levels f hr
      exact ⟨[], rfl, hres.recoverable, hres.tells m h.2⟩
    | act a => exact ⟨[], rfl, h⟩
    | crash during torn => exact ⟨[], rfl, h⟩
  | on s =>
    obtain ⟨rfl, hd⟩ := h
    cases x with
    | opening => exact ⟨[], rfl, rfl, hd⟩
    | crashOpening f => exact ⟨[], rfl, rfl, hd⟩
    | act a =>
      obtain ⟨ht, hwrite⟩ := hr
      cases a with
      | write sync batch =>
        obtain ⟨hw, hs⟩ := hwrite sync batch rfl
        exact ⟨batch, rfl, (hd.write sync hw hu.limit hs).2, (hd.write sync hw hu.limit hs).1⟩
      | flush => exact ⟨[], rfl, (hd.section ht rfl).2, (hd.section ht rfl).1⟩
      | startCompact t lvl => exact ⟨[], rfl, (hd.section ht rfl).2, (hd.section ht rfl).1⟩
      | compact t => exact ⟨[], rfl, (hd.section ht rfl).2, (hd.section ht rfl).1⟩
    | crash during torn =>
      obtain ⟨hw, ht, hs⟩ := hr
      exact hd.crash during hw hu.limit ht hs

end Host

end SplitKV
