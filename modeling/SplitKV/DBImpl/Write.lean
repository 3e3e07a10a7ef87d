import SplitKV.DBImpl.State

/-!
# Writes (`DBImpl::Write`, `DBImpl::MaybeScheduleFlush`)
-/

namespace SplitKV

/-- `WriteBatch::Entry`. -/
inductive BatchEntry
  | put (key value : Bytes)
  | delete (key : Bytes)
  deriving DecidableEq

/-- `WriteBatch`. -/
abbrev WriteBatch := List BatchEntry

/-- What goes wrong in a write: in the value log and the WAL at each entry of the batch, and when the WAL is replaced. -/
structure WriteFaults where
  vlog : Nat → AppendFault := fun _ => .none
  wal : Nat → Option Nat := fun _ => none
  create : CreateFault := .none

namespace DB

/-- One entry of a batch. -/
def writeEntry (db : DB) (e : BatchEntry) (fv : AppendFault) (fw : Option Nat) : DB × Except Status Unit :=
  let seq := db.sequenceNumber
  let db := { db with sequenceNumber := seq + 1 }
  match e with
  | .put key value =>
    match db.vlog.append db.options key value .value fv with
    | (vlog, .error s) => ({ db with vlog := vlog }, .error s)
    | (vlog, .ok ptr) =>
      match db.wal.addRecord ⟨.value, seq, key, ptr⟩ fw with
      | (wal, .error s) => ({ db with vlog := vlog, wal := wal }, .error s)
      | (wal, .ok ()) => ({ db with vlog := vlog, wal := wal, memtable := db.memtable.put key ptr seq }, .ok ())
  | .delete key =>
    match db.wal.addRecord ⟨.deletion, seq, key, ⟨0, 0, 0⟩⟩ fw with
    | (wal, .error s) => ({ db with wal := wal }, .error s)
    | (wal, .ok ()) => ({ db with wal := wal, memtable := db.memtable.delete key seq }, .ok ())

/-- The loop over the entries of a batch, from entry number `i` on. -/
def writeEntries (f : WriteFaults) : Nat → WriteBatch → DB → DB × Except Status Unit
  | _, [], db => (db, .ok ())
  | i, e :: batch, db =>
    match db.writeEntry e (f.vlog i) (f.wal i) with
    | (db, .error s) => (db, .error s)
    | (db, .ok ()) => writeEntries f (i + 1) batch db

/-- `MaybeScheduleFlush`. -/
def maybeScheduleFlush (db : DB) (fault : CreateFault) : DB × Except Status Unit :=
  if db.memtable.shouldFlush then
    match db.wal.create (db.walId + 1) fault with
    | (wal, r) =>
      ({ db with
          immutableMemtables := db.immutableMemtables ++ [db.memtable]
          memtable := .new db.options.memtableSizeLimit
          walId := db.walId + 1
          wal := wal }, r)
  else (db, .ok ())

/-- `wal_->Sync(); vlog_->Sync();` -/
def syncLogs (db : DB) : DB := { db with wal := db.wal.sync, vlog := db.vlog.sync }

/-- `Write`; `sync` is `WriteOptions.sync`. -/
def write (db : DB) (sync : Bool) (batch : WriteBatch) (f : WriteFaults) : DB × Except Status Unit :=
  match writeEntries f 0 batch db with
  | (db, .error s) => (db, .error s)
  | (db, .ok ()) => (if sync then db.syncLogs else db).maybeScheduleFlush f.create

/-! ## What an entry changes -/

section

variable (db : DB) (e : BatchEntry) (fv : AppendFault) (fw : Option Nat)

/-- Only the logs, the memtable and the sequence number. -/
theorem writeEntry_frame : (db.writeEntry e fv fw).1 = { db with
    vlog := (db.writeEntry e fv fw).1.vlog
    wal := (db.writeEntry e fv fw).1.wal
    memtable := (db.writeEntry e fv fw).1.memtable
    sequenceNumber := db.sequenceNumber + 1 } := by
  unfold writeEntry
  cases e with
  | put key value =>
    simp only
    split
    · rfl
    · split <;> rfl
  | delete key =>
    simp only
    split <;> rfl

/-- The value log by an append at most. -/
theorem vlog_writeEntry : (db.writeEntry e fv fw).1.vlog = db.vlog ∨ ∃ key value,
    (db.writeEntry e fv fw).1.vlog = (db.vlog.append db.options key value .value fv).1 := by
  unfold writeEntry
  cases e with
  | put key value =>
    refine Or.inr ⟨key, value, ?_⟩
    simp only
    split
    · rename_i hv
      rw [hv]
    · rename_i hv
      rw [hv]
      split <;> rfl
  | delete key =>
    left
    simp only
    split <;> rfl

/-- The WAL by a record at most. -/
theorem wal_writeEntry : (db.writeEntry e fv fw).1.wal = db.wal ∨ ∃ r,
    (db.writeEntry e fv fw).1.wal = (db.wal.addRecord r fw).1 := by
  unfold writeEntry
  cases e with
  | put key value =>
    simp only
    split
    · exact Or.inl rfl
    · split
      · rename_i hw
        exact Or.inr ⟨_, (congrArg Prod.fst hw).symm⟩
      · rename_i hw
        exact Or.inr ⟨_, (congrArg Prod.fst hw).symm⟩
  | delete key =>
    simp only
    split
    · rename_i hw
      exact Or.inr ⟨_, (congrArg Prod.fst hw).symm⟩
    · rename_i hw
      exact Or.inr ⟨_, (congrArg Prod.fst hw).symm⟩

theorem sequence_writeEntry : (db.writeEntry e fv fw).1.sequenceNumber = db.sequenceNumber + 1 :=
  congrArg DB.sequenceNumber (writeEntry_frame db e fv fw)

end

/-- What every entry of a batch keeps, wherever it fails, its loop keeps. -/
theorem writeEntries_induct {R : DB → DB → Prop} (refl : ∀ db, R db db) (trans : ∀ {a b c}, R a b → R b c → R a c)
    (step : ∀ db e fv fw, R db (db.writeEntry e fv fw).1) (f : WriteFaults) : ∀ (batch : WriteBatch) (i : Nat) (db : DB),
    R db (writeEntries f i batch db).1
  | [], _, db => refl db
  | e :: batch, i, db => by
    have he := step db e (f.vlog i) (f.wal i)
    rw [writeEntries]
    split
    · rename_i hr
      rw [hr] at he
      exact he
    · rename_i db₁ hr
      rw [hr] at he
      exact trans he (writeEntries_induct refl trans step f batch (i + 1) db₁)

end DB

end SplitKV
