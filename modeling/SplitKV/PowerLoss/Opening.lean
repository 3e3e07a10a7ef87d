import SplitKV.PowerLoss.Entries
import SplitKV.Recovery.Replay

/-!
# Where the entries of an opened database come from

An opening takes its entries from the table files and from the records of the WAL files, and its next sequence number from
the records alone (`DB.openDB_holding`).
-/

namespace SplitKV

variable {P Q : Key → InternalEntry → Prop}

/-- The entry that a record becomes when it is replayed. -/
def WALRecord.Replays (r : WALRecord) (e : InternalEntry) : Prop :=
  r.type = .value ∧ e = ⟨r.vlogPtr, r.sequence, .value⟩ ∨ r.type = .deletion ∧ e = ⟨⟨0, 0, 0⟩, r.sequence, .deletion⟩

theorem WALRecord.Replays.sequence {r : WALRecord} {e : InternalEntry} (h : r.Replays e) : e.sequence = r.sequence := by
  rcases h with ⟨-, rfl⟩ | ⟨-, rfl⟩ <;> rfl

/-- `P` holds of every entry that the records are replayed into. -/
def AllRecords (P : Key → InternalEntry → Prop) (rs : List WALRecord) : Prop :=
  ∀ r ∈ rs, ∀ e, r.Replays e → P r.key e

/-- `P` holds of every entry that the WAL files are replayed into. -/
def AllReplayed (P : Key → InternalEntry → Prop) (wal : Folder Bytes) (ids : List Nat) : Prop :=
  ∀ id ∈ ids, id ∈ wal.dir → AllRecords P (WAL.recoverFile (wal.data id))

namespace DB

theorem mem_replayRecord {m : MemTable} {r : WALRecord} {p : Key × InternalEntry}
    (hp : p ∈ (replayRecord m r).getSortedEntries) : p ∈ m.getSortedEntries ∨ p.1 = r.key ∧ r.Replays p.2 := by
  unfold replayRecord at hp
  split at hp
  · rename_i ht
    rcases MemTable.mem_add hp with rfl | hp
    · exact Or.inr ⟨rfl, Or.inl ⟨ht, rfl⟩⟩
    · exact Or.inl hp
  · rename_i ht
    rcases MemTable.mem_add hp with rfl | hp
    · exact Or.inr ⟨rfl, Or.inr ⟨ht, rfl⟩⟩
    · exact Or.inl hp
  · exact Or.inl hp

theorem allEntries_replay : ∀ (rs : List WALRecord) (m : MemTable), AllEntries P m.getSortedEntries →
    AllRecords P rs → AllEntries P (rs.foldl replayRecord m).getSortedEntries
  | [], _, h, _ => h
  | r :: rs, m, h, hr => by
    refine allEntries_replay rs _ (fun p hp => ?_) fun r' hr' => hr r' (List.mem_cons_of_mem _ hr')
    rcases mem_replayRecord hp with hp | ⟨hk, he⟩
    · exact h p hp
    · rw [hk]
      exact hr r List.mem_cons_self p.2 he

/-- The tables of a manifest are taken from their files. -/
theorem allTables_loadTables {sst : Folder (Option SSTableFile)} (hf : AllFiles P sst) {maxLevels : Nat} :
    ∀ (lines : List ManifestLine) (levels levels' : Levels), (∀ l, AllTables P (levels l)) →
      loadTables sst maxLevels lines levels = .ok levels' → ∀ l, AllTables P (levels' l)
  | [], levels, levels', h, he => by
    cases he
    exact h
  | line :: lines, levels, levels', h, he => by
    rw [loadTables] at he
    split at he
    · exact allTables_loadTables hf lines levels levels' h he
    · rename_i file hfile
      split at he
      · refine allTables_loadTables hf lines _ levels' (allTables_setAt h ((h _).append fun info hi => ?_)) he
        rw [List.mem_singleton.mp hi]
        split at hfile
        · rename_i hh
          exact hf _ (Folder.has_iff.mp hh) file hfile
        · cases hfile
      · cases he

theorem allTables_loadManifest {d : Disk} (hf : AllFiles P d.sst) {maxLevels next : Nat} {levels : Levels}
    (h : loadManifest d maxLevels = .ok (next, levels)) (l : Nat) : AllTables P (levels l) := by
  unfold loadManifest at h
  split at h
  · cases h
    exact fun info hi => absurd hi List.not_mem_nil
  · split at h
    · cases h
    · rename_i hl
      cases h
      exact allTables_loadTables hf _ _ _ (fun _ info hi => absurd hi List.not_mem_nil) hl l

/-- What a replay leaves of the state it starts in. -/
structure Replays (db db' : DB) : Prop where
  vlog : db'.vlog = db.vlog
  wal : db'.wal = db.wal
  options : db'.options = db.options
  immutable : db'.immutableMemtables = db.immutableMemtables
  levels : ∀ l, ∀ info ∈ db.levels l, info ∈ db'.levels l

/-- The greatest sequence number of some records, or `n`. -/
def greatest (rs : List WALRecord) (n : Nat) : Nat := rs.foldl (fun (n : Nat) (r : WALRecord) => max n r.sequence) n

/-- **A replay** takes entries from the records; its next sequence number is their greatest one. -/
theorem replayWals_holding (f : OpenFaults) (ids : List Nat) (i : Nat) (db : DB) :
    db.Replays (replayWals f i ids db).1 ∧
      (∀ P Q, AllReplayed P db.wal.files ids → db.Indexed P Q → AllEntries P db.memtable.getSortedEntries →
        (replayWals f i ids db).1.Indexed P Q ∧ AllEntries P (replayWals f i ids db).1.memtable.getSortedEntries) ∧
      ((replayWals f i ids db).2 = .ok () →
        (replayWals f i ids db).1.sequenceNumber = greatest (recordsOf db.wal.files ids) db.sequenceNumber) := by
  have hrule := replayWals_induct
    (I := fun done db' => db.Replays db' ∧
      (∀ P Q, AllReplayed P db.wal.files ids → db.Indexed P Q → AllEntries P db.memtable.getSortedEntries →
        db'.Indexed P Q ∧ AllEntries P db'.memtable.getSortedEntries) ∧
      db'.sequenceNumber = greatest done db.sequenceNumber)
    (J := fun db' => db.Replays db' ∧
      ∀ P Q, AllReplayed P db.wal.files ids → db.Indexed P Q → AllEntries P db.memtable.getSortedEntries →
        db'.Indexed P Q ∧ AllEntries P db'.memtable.getSortedEntries) db.wal.files f ids
    (fun done db' hI => by rw [hI.1.wal]) ?_ (fun done db' hI _ _ _ => ⟨hI.1, hI.2.1⟩) ?_ ?_ ids i [] db
    ⟨⟨rfl, rfl, rfl, rfl, fun _ _ h => h⟩, fun _ _ _ h hm => ⟨h, hm⟩, rfl⟩ fun id hid => hid
  · generalize replayWals f i ids db = x at hrule ⊢
    obtain ⟨db', r⟩ := x
    cases r with
    | error s => exact ⟨hrule.1, hrule.2, fun he => by cases he⟩
    | ok u => exact ⟨hrule.1, hrule.2.1, fun _ => hrule.2.2⟩
  · rintro done db' ⟨hr, hi, hs⟩ id hid hd
    refine ⟨⟨hr.vlog, hr.wal, hr.options, hr.immutable, hr.levels⟩, fun P Q ha h hm => ?_, ?_⟩
    · obtain ⟨h₁, hm₁⟩ := hi P Q ha h hm
      exact ⟨⟨h₁.levels, h₁.files, h₁.imp⟩, allEntries_replay _ _ hm₁ (ha id hid hd)⟩
    · rw [greatest, List.foldl_append]
      exact congrArg (greatest _) hs
  · rintro done db' i n ⟨hr, hi, hs⟩ hok
    have ho := onlyIndex_flush db' db'.memtable (f.flush i)
    refine ⟨⟨ho.vlog.trans hr.vlog, ho.wal.trans hr.wal, ho.options.trans hr.options, ho.immutableMemtables.trans hr.immutable,
      fun l info hx => mem_levels_flush db' _ (f.flush i) (hr.levels l info hx)⟩, fun P Q ha h hm => ?_, ho.sequenceNumber.trans hs⟩
    obtain ⟨h₁, hm₁⟩ := hi P Q ha h hm
    have h₂ := h₁.flushMemTable hm₁ (f.flush i)
    exact ⟨⟨h₂.levels, h₂.files, h₂.imp⟩, allEntries_nil⟩
  · rintro done db' i ⟨hr, hi, -⟩ -
    have ho := onlyIndex_flush db' db'.memtable (f.flush i)
    refine ⟨⟨ho.vlog.trans hr.vlog, ho.wal.trans hr.wal, ho.options.trans hr.options, ho.immutableMemtables.trans hr.immutable,
      fun l info hx => mem_levels_flush db' _ (f.flush i) (hr.levels l info hx)⟩, fun P Q ha h hm => ?_⟩
    obtain ⟨h₁, hm₁⟩ := hi P Q ha h hm
    exact ⟨h₁.flushMemTable hm₁ (f.flush i), ho.memtable.symm ▸ hm₁⟩

/-- **An opening** that succeeds keeps the tables of the manifest, its next sequence number is behind the greatest one of the
records, and it holds what the tables and the records hold. -/
theorem openDB_holding {o : Options} {d : Disk} {f : OpenFaults} {db : DB} (h : openDB o d f = (db, .ok ())) :
    ∃ next levels, loadManifest d o.maxSstableLevels = .ok (next, levels) ∧
      (∀ l, ∀ info ∈ levels l, info ∈ db.levels l) ∧
      db.sequenceNumber = greatest (recordsOf d.wal (walIds d.wal)) 1 + 1 ∧
      ∀ P, AllReplayed P d.wal (walIds d.wal) → (∀ l, AllTables P (levels l)) → db.Holding P := by
  unfold openDB at h
  split at h
  · cases h
  split at h
  · cases h
  rename_i next levels hload
  refine ⟨next, levels, hload, ?_⟩
  have hr := replayWals_holding f (walIds d.wal) 0 (openState o d next levels)
  unfold recoverFromWAL at h
  simp only at h
  rw [show (openState o d next levels).wal.files = d.wal from rfl] at h
  generalize replayWals f 0 (walIds d.wal) (openState o d next levels) = x at h hr
  obtain ⟨db₁, x⟩ := x
  cases x with
  | error s => cases h
  | ok u =>
    obtain ⟨h₁, h₂, h₃⟩ := hr
    have hdb := congrArg Prod.fst h
    simp only at hdb h₁ h₂ h₃
    subst hdb
    refine ⟨h₁.levels, congrArg (· + 1) (h₃ trivial), fun P hrec ht => ?_⟩
    obtain ⟨hi, hm⟩ := h₂ P (fun _ _ => True) hrec ⟨ht, fun _ _ _ _ _ _ => trivial, fun _ _ _ => trivial⟩ allEntries_nil
    refine ⟨fun m hx => ?_, hi.levels⟩
    rw [memtables, h₁.immutable] at hx
    rw [List.mem_singleton.mp hx]
    exact hm

end DB

end SplitKV
