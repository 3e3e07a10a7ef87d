import SplitKV.PowerLoss.Opening

/-!
# Sequence numbers and power losses

The next sequence number of an opened database comes from the WAL records that were left, while its tables were synced. It
is behind all sequence numbers exactly when the records that were left reach those of the tables
(`Machine.stays_ahead_iff`); when the log of a flushed memtable is lost, it is not (`Machine.falls_behind`).
-/

namespace SplitKV

namespace DB

/-- The next sequence number is greater than that of every entry of the memtables and the tables. -/
def Ahead (db : DB) : Prop := db.Holding fun _ e => e.sequence < db.sequenceNumber

theorem ahead_of_holding {db db' : DB} (hs : db'.sequenceNumber = db.sequenceNumber)
    (hh : db'.Holding fun _ e => e.sequence < db.sequenceNumber) : db'.Ahead := by
  unfold Ahead
  rw [hs]
  exact hh

/-- Steps of the logs and the memtables stay ahead. -/
theorem Ahead.logSteps {db db' : DB} (h : db.Ahead) (hs : LogSteps db db') : db'.Ahead := by
  refine hs.keep h (fun a vlog wal walId n ha hn => ?_) (fun a key e ha he => ?_) fun a ha => ha.rotate
  · exact Holding.mono (ha.setLogs vlog wal walId n) fun _ e he => he.trans_le hn
  · have hle : ∀ (_ : Key) (x : InternalEntry), x.sequence < a.sequenceNumber → x.sequence < a.sequenceNumber + 1 :=
      fun _ _ hx => hx.trans (Nat.lt_succ_self _)
    exact Holding.addVersion (ha.mono hle) (he ▸ Nat.lt_succ_self _)

theorem Ahead.flushFront {db : DB} (h : db.Ahead) (f : FlushFaults) : (db.flushFront f).Ahead := by
  have hs : (db.flushFront f).sequenceNumber = db.sequenceNumber := by
    unfold DB.flushFront
    split
    · rfl
    · exact (onlyIndex_flush db _ f).sequenceNumber
  exact ahead_of_holding hs (Holding.flushFront (Q := fun _ _ => True) h (fun _ _ _ _ _ _ => trivial) (fun _ _ _ => trivial) f).1

theorem Ahead.compactLevel {db : DB} (h : db.Ahead) (lvl : Int) (f : CompactFaults) : (db.compactLevel lvl f).1.Ahead :=
  ahead_of_holding (onlyIndex_compact db lvl f).sequenceNumber
    (Holding.compactLevel (Q := fun _ _ => True) h (fun _ _ _ _ _ _ => trivial) (fun _ _ _ => trivial) lvl f).1

end DB

/-- The records that an opening reads from the WAL files. -/
def Disk.records (d : Disk) : List WALRecord := DB.recordsOf d.wal (DB.walIds d.wal)

/-- Every entry of the tables that the manifest registers has the sequence number 1, or one that some record which is left
reaches. -/
def Disk.Reaches (o : Options) (d : Disk) : Prop :=
  ∀ next levels, DB.loadManifest d o.maxSstableLevels = .ok (next, levels) →
    ∀ l, AllTables (fun _ e => e.sequence ≤ 1 ∨ ∃ r ∈ d.records, e.sequence ≤ r.sequence) (levels l)

namespace DB

theorem le_greatest (rs : List WALRecord) : ∀ n, n ≤ greatest rs n ∧ ∀ r ∈ rs, r.sequence ≤ greatest rs n := by
  induction rs with
  | nil => exact fun n => ⟨Nat.le_refl _, fun r hr => absurd hr List.not_mem_nil⟩
  | cons a rs ih =>
    intro n
    obtain ⟨h₁, h₂⟩ := ih (max n a.sequence)
    refine ⟨(Nat.le_max_left _ _).trans h₁, fun r hr => ?_⟩
    rcases List.mem_cons.mp hr with rfl | hr
    · exact (Nat.le_max_right _ _).trans h₁
    · exact h₂ r hr

/-- The greatest sequence number belongs to a record. -/
theorem greatest_mem (rs : List WALRecord) : ∀ n, greatest rs n = n ∨ ∃ r ∈ rs, greatest rs n = r.sequence := by
  induction rs with
  | nil => exact fun n => Or.inl rfl
  | cons a rs ih =>
    intro n
    rcases ih (max n a.sequence) with h | ⟨r, hr, h⟩
    · rcases Nat.le_total n a.sequence with hle | hle
      · exact Or.inr ⟨a, List.mem_cons_self, h.trans (Nat.max_eq_right hle)⟩
      · exact Or.inl (h.trans (Nat.max_eq_left hle))
    · exact Or.inr ⟨r, List.mem_cons_of_mem _ hr, h⟩

theorem lt_greatest_iff (rs : List WALRecord) (m n : Nat) :
    m < greatest rs n + 1 ↔ m ≤ n ∨ ∃ r ∈ rs, m ≤ r.sequence := by
  obtain ⟨h₁, h₂⟩ := le_greatest rs n
  constructor
  · intro h
    rcases greatest_mem rs n with he | ⟨r, hr, he⟩
    · exact Or.inl (by omega)
    · exact Or.inr ⟨r, hr, by omega⟩
  · rintro (h | ⟨r, hr, h⟩)
    · omega
    · have := h₂ r hr
      omega

/-- **An opened database is ahead** exactly when the records that are left reach the tables. -/
theorem openDB_ahead_iff {o : Options} {d : Disk} {f : OpenFaults} {db : DB} (h : openDB o d f = (db, .ok ())) :
    db.Ahead ↔ d.Reaches o := by
  obtain ⟨next, levels, hload, hlevels, hseq, hhold⟩ := openDB_holding h
  have hlt : ∀ m, m < db.sequenceNumber ↔ m ≤ 1 ∨ ∃ r ∈ d.records, m ≤ r.sequence := by
    intro m
    rw [hseq]
    exact lt_greatest_iff _ m 1
  constructor
  · intro ha next' levels' hl' l info hi p hp
    rw [hload] at hl'
    cases hl'
    exact (hlt _).mp (ha.levels l info (hlevels l info hi) p hp)
  · intro hr
    refine hhold _ (fun id hid _ r hrm e he => ?_) fun l info hi p hp => (hlt _).mpr (hr next levels hload l info hi p hp)
    rw [he.sequence]
    exact (hlt _).mpr (Or.inr ⟨r, List.mem_flatMap.mpr ⟨id, hid, hrm⟩, Nat.le_refl _⟩)

end DB

namespace Machine

/-- An opening finds records that reach the tables. -/
def Reaching : Machine → Step → Prop
  | .off d, .reopen o => d.Reaches o
  | _, _ => True

/-- A database that is open is ahead. -/
def Ahead : Machine → Prop
  | .off _ => True
  | .on db => db.Ahead

theorem Ahead.step {m : Machine} {s : Step} (h : m.Ahead) (hr : m.Reaching s) : (m.step s).Ahead := by
  cases m with
  | off d =>
    cases s with
    | reopen o =>
      rcases step_reopen (d := d) (o := o) with ⟨db, hopen, he⟩ | ⟨db, st, -, he⟩
      · rw [he]
        exact (DB.openDB_ahead_iff hopen).mpr hr
      · rw [he]
        trivial
    | write _ _ | flush | compactLevel _ | losePower _ _ | losePowerOpening _ _ _ => trivial
  | on db =>
    cases s with
    | write sync batch => exact DB.Ahead.logSteps h (DB.write_logSteps db sync batch {})
    | flush => exact DB.Ahead.flushFront h {}
    | compactLevel lvl => exact DB.Ahead.compactLevel h lvl .none
    | losePower _ _ => trivial
    | losePowerOpening _ _ _ | reopen _ => exact h

/-- **Sequence numbers and power losses.** Behind every run, an opening that succeeds leads to a database whose next
sequence number is greater than that of every entry it holds exactly when the records that are left reach the tables that
the manifest registers. In a run all of whose openings find such records, every open database is so in every state. -/
theorem stays_ahead_iff (steps : List Step) :
    (∀ o d db, (start.run steps).Opens o d db → (db.Ahead ↔ d.Reaches o)) ∧
      (Along Reaching start steps → ∀ db, start.run steps = .on db → db.Ahead) := by
  constructor
  · intro o d db h
    exact DB.openDB_ahead_iff h.2
  · intro hr db hdb
    have hinv := Along.inv (I := fun _ m => m.Ahead) (fun _ _ _ hi hq => Ahead.step hi hq) steps [] start trivial hr
    rw [hdb] at hinv
    exact hinv

/-- The files behind a write that was synced, and the loss of power. -/
def syncedDisk : Disk :=
  ((DB.fresh { memtableSizeLimit := 1 }).run [.write true [.put [1] [7]]]).disk.lose ⟨fun _ => 0, fun _ => 0⟩

/-- A database that is opened behind a write that was synced is ahead. -/
theorem stays_ahead_sample : (DB.openDB { memtableSizeLimit := 1 } syncedDisk .none).1.Ahead := by
  have hopen : (DB.openDB { memtableSizeLimit := 1 } syncedDisk .none).2 = .ok () := by decide +kernel
  refine ((stays_ahead_iff [.reopen { memtableSizeLimit := 1 }, .write true [.put [1] [7]],
    .losePower .nothing ⟨fun _ => 0, fun _ => 0⟩]).1 { memtableSizeLimit := 1 } syncedDisk _
    (opens_of_ok rfl hopen)).mpr ?_
  intro next levels h l info hi
  have hnone : syncedDisk.manifest = none := rfl
  rw [DB.loadManifest, hnone] at h
  cases h
  exact absurd hi List.not_mem_nil

/-- Two keys are flushed, and the power loss leaves nothing of the WAL files. -/
def flushedThenLost : List Step :=
  [.reopen { memtableSizeLimit := 1, bloomBitsPerKey := 0 }, .write false [.put [1] [7], .put [2] [8]], .flush,
    .losePower .nothing ⟨fun _ => 1000, fun _ => 0⟩]

/-- The files that are left. -/
def lostLog : Disk :=
  ((DB.fresh { memtableSizeLimit := 1, bloomBitsPerKey := 0 }).run
    [.write false [.put [1] [7], .put [2] [8]], .flush]).disk.lose ⟨fun _ => 1000, fun _ => 0⟩

/-- The database that is opened again. -/
def behind : DB := (DB.openDB { memtableSizeLimit := 1, bloomBitsPerKey := 0 } lostLog .none).1

/-- **The sequence numbers fall behind** when the log of flushed entries is lost: the next one is 2, while the table has an
entry with the number 3. A new value of the key then loses against it in a compaction. -/
theorem falls_behind : (start.run flushedThenLost).Opens { memtableSizeLimit := 1, bloomBitsPerKey := 0 } lostLog behind ∧
    ¬behind.Ahead ∧
    (behind.run [.write false [.put [2] [9]], .flush]).result [2] = .ok [9] ∧
    (behind.run [.write false [.put [2] [9]], .flush, .compactLevel 0]).result [2] = .ok [8] := by
  have hopen : (DB.openDB { memtableSizeLimit := 1, bloomBitsPerKey := 0 } lostLog .none).2 = .ok () := by decide +kernel
  have hentry : ∃ info ∈ behind.levels 0, ∃ p ∈ info.reader.entries, behind.sequenceNumber ≤ p.2.sequence := by
    decide +kernel
  refine ⟨opens_of_ok rfl hopen, fun ha => ?_, by decide +kernel, by decide +kernel⟩
  obtain ⟨info, hi, p, hp, hle⟩ := hentry
  have hlt : p.2.sequence < behind.sequenceNumber := ha.levels 0 info hi p hp
  omega

end Machine

end SplitKV
