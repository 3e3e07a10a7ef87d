import SplitKV.DBImpl.Gc
import SplitKV.Store.Write

/-!
# What writes and collections are made of

Whatever fails in them, a write and a collection are sequences of three kinds of steps: the logs change and the next
sequence number does not shrink, a version takes the next sequence number, the memtable moves to the queue
(`write_logSteps`, `runGC_logSteps`). The tables stay as they are, and a key that is in a memtable stays in one.
-/

namespace SplitKV

namespace DB

/-- Steps of the logs and the memtables. -/
inductive LogSteps (db : DB) : DB → Prop
  | refl : LogSteps db db
  | logs {db' : DB} (h : LogSteps db db') (vlog : VLog) (wal : WAL) (walId n : Nat) (hn : db'.sequenceNumber ≤ n) :
      LogSteps db { db' with vlog := vlog, wal := wal, walId := walId, sequenceNumber := n }
  | add {db' : DB} (h : LogSteps db db') (key : Key) (e : InternalEntry) (he : e.sequence = db'.sequenceNumber) :
      LogSteps db (db'.addVersion key e)
  | rotate {db' : DB} (h : LogSteps db db') : LogSteps db db'.rotate

variable {db db' db'' : DB}

theorem LogSteps.trans (h : LogSteps db db') (h' : LogSteps db' db'') : LogSteps db db'' := by
  induction h' with
  | refl => exact h
  | logs _ vlog wal walId n hn ih => exact ih.logs vlog wal walId n hn
  | add _ key e he ih => exact ih.add key e he
  | rotate _ ih => exact ih.rotate

/-- A property that each kind of step keeps. -/
theorem LogSteps.keep {P : DB → Prop} (h : LogSteps db db') (hP : P db)
    (logs : ∀ (a : DB) (vlog : VLog) (wal : WAL) (walId n : Nat), P a → a.sequenceNumber ≤ n →
      P { a with vlog := vlog, wal := wal, walId := walId, sequenceNumber := n })
    (add : ∀ (a : DB) (key : Key) (e : InternalEntry), P a → e.sequence = a.sequenceNumber → P (a.addVersion key e))
    (rotate : ∀ a : DB, P a → P a.rotate) : P db' := by
  induction h with
  | refl => exact hP
  | logs _ vlog wal walId n hn ih => exact logs _ vlog wal walId n ih hn
  | add _ key e he ih => exact add _ key e ih he
  | rotate _ ih => exact rotate _ ih

/-- The tables stay as they are. -/
structure SameTables (db db' : DB) : Prop where
  options : db'.options = db.options
  levels : db'.levels = db.levels
  sst : db'.sst = db.sst
  manifest : db'.manifest = db.manifest
  next : db'.nextSstableId = db.nextSstableId

theorem LogSteps.sameTables (h : LogSteps db db') : db.SameTables db' :=
  h.keep ⟨rfl, rfl, rfl, rfl, rfl⟩ (fun _ _ _ _ _ h _ => ⟨h.1, h.2, h.3, h.4, h.5⟩)
    (fun _ _ _ h _ => ⟨h.1, h.2, h.3, h.4, h.5⟩) (fun _ h => ⟨h.1, h.2, h.3, h.4, h.5⟩)

theorem LogSteps.wf (h : LogSteps db db') (hw : db.Wf) : db'.Wf := by
  refine h.keep hw (fun _ _ _ _ _ h _ => ⟨h.memtables, h.levels, h.ids⟩) (fun _ key e h _ => h.addVersion key e) ?_
  intro a ha
  refine ⟨fun m hm => ?_, ha.levels, ha.ids⟩
  rcases List.mem_cons.mp hm with rfl | hm
  · exact MemTable.valid_new _
  · rw [DB.rotate, List.reverse_append] at hm
    exact ha.memtables m hm

/-- Settled versions stay settled. -/
theorem LogSteps.settled (h : LogSteps db db') (hw : db.Wf) (hs : db.Settled) : db'.Settled := by
  induction h with
  | refl => exact hs
  | logs h vlog wal walId n hn ih => exact SettledBelow.mono ih hn
  | add h key e he ih => exact ih.addVersion ((h.wf hw).memtables _ List.mem_cons_self) he
  | rotate h ih => exact ih.rotate

/-- The queue grows at its back; a key of the memtable stays in the memtable or in what was added to the queue. -/
structure QueueGrows (db db' : DB) (new : List MemTable) : Prop where
  queue : db'.immutableMemtables = db.immutableMemtables ++ new
  kept : ∀ key, memVersions (db'.memtable :: new.reverse) key = [] → db.memtable.version key = none

theorem version_addVersion (h : db.memtable.Valid) (key : Key) (e : InternalEntry) {k : Key}
    (hk : (db.addVersion key e).memtable.version k = none) : db.memtable.version k = none := by
  by_cases he : k = key
  · subst he
    have hself : (db.addVersion k e).memtable.version k = some e := MemTable.lookup_add_self h k e
    rw [hself] at hk
    cases hk
  · have hne : (db.addVersion key e).memtable.version k = db.memtable.version k := MemTable.lookup_add_of_ne he e db.memtable
    rwa [hne] at hk

theorem LogSteps.queueGrows (h : LogSteps db db') (hw : db.Wf) : ∃ new, QueueGrows db db' new := by
  induction h with
  | refl =>
    refine ⟨[], (List.append_nil _).symm, fun key hk => ?_⟩
    have := List.filterMap_eq_nil_iff.mp hk db.memtable List.mem_cons_self
    exact this
  | logs _ _ _ _ _ _ ih =>
    obtain ⟨new, hq, hk⟩ := ih
    exact ⟨new, hq, hk⟩
  | @add a h key e _ ih =>
    obtain ⟨new, hq, hk⟩ := ih
    refine ⟨new, hq, fun k hnil => hk k ?_⟩
    rw [memVersions, List.filterMap_eq_nil_iff] at hnil ⊢
    intro m hm
    rcases List.mem_cons.mp hm with rfl | hm
    · exact version_addVersion ((h.wf hw).memtables _ List.mem_cons_self) key e (hnil _ List.mem_cons_self)
    · exact hnil m (List.mem_cons_of_mem _ hm)
  | @rotate a _ ih =>
    obtain ⟨new, hq, hk⟩ := ih
    refine ⟨new ++ [a.memtable], ?_, fun k hnil => hk k ?_⟩
    · rw [DB.rotate, hq, List.append_assoc]
    · rw [memVersions, List.filterMap_eq_nil_iff] at hnil ⊢
      intro m hm
      refine hnil m (List.mem_cons_of_mem _ ?_)
      rw [List.reverse_append]
      exact hm

/-! ## Writes -/

/-- One entry, wherever its records fail. -/
theorem writeEntry_logSteps (db : DB) (e : BatchEntry) (fv : AppendFault) (fw : Option Nat) :
    LogSteps db (db.writeEntry e fv fw).1 := by
  have hlogs : ∀ (vlog : VLog) (wal : WAL), LogSteps db { db with
      vlog := vlog, wal := wal, sequenceNumber := db.sequenceNumber + 1 } :=
    fun vlog wal => LogSteps.refl.logs vlog wal db.walId _ (Nat.le_succ _)
  have hadd : ∀ (vlog : VLog) (wal : WAL) (key : Key) (x : InternalEntry), x.sequence = db.sequenceNumber →
      LogSteps db (DB.addVersion { db with vlog := vlog, wal := wal } key x) :=
    fun vlog wal key x hx => (LogSteps.refl.logs vlog wal db.walId db.sequenceNumber (Nat.le_refl _)).add key x hx
  unfold DB.writeEntry
  cases e with
  | put key value =>
    simp only
    split
    · exact hlogs _ db.wal
    · split
      · exact hlogs _ _
      · exact hadd _ _ key ⟨_, db.sequenceNumber, .value⟩ rfl
  | delete key =>
    simp only
    split
    · exact hlogs db.vlog _
    · exact hadd db.vlog _ key ⟨⟨0, 0, 0⟩, db.sequenceNumber, .deletion⟩ rfl

theorem writeEntries_logSteps (f : WriteFaults) (batch : WriteBatch) (i : Nat) (db : DB) :
    LogSteps db (DB.writeEntries f i batch db).1 :=
  writeEntries_induct (fun _ => .refl) .trans writeEntry_logSteps f batch i db

theorem maybeScheduleFlush_logSteps (db : DB) (fault : CreateFault) : LogSteps db (db.maybeScheduleFlush fault).1 := by
  unfold DB.maybeScheduleFlush
  split
  · exact LogSteps.refl.rotate.logs _ _ _ _ (Nat.le_refl _)
  · exact .refl

/-- **A write**, wherever it fails. -/
theorem write_logSteps (db : DB) (sync : Bool) (batch : WriteBatch) (f : WriteFaults) :
    LogSteps db (db.write sync batch f).1 := by
  have he := writeEntries_logSteps f batch 0 db
  rw [DB.write]
  split
  · rename_i hr
    rw [hr] at he
    exact he
  · rename_i db₁ hr
    rw [hr] at he
    have hs : LogSteps db (if sync then db₁.syncLogs else db₁) := by
      split
      · exact he.logs _ _ _ _ (Nat.le_refl _)
      · exact he
    exact hs.trans (maybeScheduleFlush_logSteps _ f.create)

/-! ## Collections -/

theorem gcSwap_logSteps (db : DB) (fails : Nat → Option Status) (fw : Option Nat) (seg : Nat) (r : LiveRecord)
    (newPtr : VLogPointer) : LogSteps db (db.gcSwap fails fw seg r newPtr) := by
  unfold DB.gcSwap
  split
  · simp only
    split
    · exact LogSteps.refl.logs _ _ _ _ (Nat.le_succ _)
    · rename_i wal hr
      have h : LogSteps db { db with wal := wal } := LogSteps.refl.logs db.vlog wal db.walId db.sequenceNumber (Nat.le_refl _)
      exact h.add r.key ⟨newPtr, db.sequenceNumber, .value⟩ rfl
  · exact .refl

/-- **The rewriting** of live records, wherever it fails. -/
theorem gcRewrite_logSteps (f : GcFaults) (seg : Nat) : ∀ (rs : List LiveRecord) (i : Nat) (db : DB),
    LogSteps db (DB.gcRewrite f seg i rs db).1
  | [], _, _ => .refl
  | r :: rs, i, db => by
    have h₁ : ∀ vlog : VLog, LogSteps db { db with vlog := vlog } :=
      fun vlog => LogSteps.refl.logs vlog db.wal db.walId db.sequenceNumber (Nat.le_refl _)
    have hread : (db.gcRead (f.read i) seg r).1 = { db with vlog := db.vlog.openReader seg } := rfl
    rw [DB.gcRewrite]
    generalize db.gcRead (f.read i) seg r = x at hread
    obtain ⟨db₁, x⟩ := x
    have hread : db₁ = { db with vlog := db.vlog.openReader seg } := hread
    subst hread
    cases x with
    | error s => exact (h₁ _).trans (gcRewrite_logSteps f seg rs (i + 1) _)
    | ok x =>
      simp only [gcAppend]
      cases (db.vlog.openReader seg).append db.options r.key x .value (f.append i) with
      | mk v st =>
        cases st with
        | error s => exact h₁ v
        | ok newPtr =>
          exact ((h₁ v).trans (gcSwap_logSteps _ _ _ seg r newPtr)).trans (gcRewrite_logSteps f seg rs (i + 1) _)

/-- **A collection**, wherever it fails. -/
theorem runGC_logSteps (db : DB) (f : GcFaults) : LogSteps db (db.runGC f).1 := by
  unfold DB.runGC
  split
  · exact .refl
  · rename_i seg _
    unfold gcSegment
    split
    · exact .refl
    · rename_i records _
      simp only
      split
      · have hr := gcRewrite_logSteps f seg (db.gcScan f seg 0 records {}).liveRecords 0 db
        split
        · rename_i he
          rw [he] at hr
          exact hr
        · rename_i db₁ he
          rw [he] at hr
          unfold gcDelete
          split
          · exact hr.logs _ _ _ _ (Nat.le_refl _)
          · exact hr.logs _ _ _ _ (Nat.le_refl _)
      · exact .refl

end DB

end SplitKV
