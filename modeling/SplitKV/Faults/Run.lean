import SplitKV.Faults.Flush
import SplitKV.Store.Steps

/-!
# Sessions with faults

Whatever fails in the steps of a session, its states stay well formed, and the versions of every key stay in the order
of their sequence numbers (`wf_run`, `ordered_run`).
-/

namespace SplitKV

open Assoc Versions

/-- A step of a session, with its faults. -/
inductive FaultyOp
  | write (sync : Bool) (batch : WriteBatch) (f : WriteFaults)
  | flush (f : FlushFaults)
  | compactLevel (lvl : Int) (f : CompactFaults)
  | compactRange (f : Nat → CompactFaults)
  | runGC (f : GcFaults)

namespace DB

/-- A step, with its faults. -/
def execFaulty (db : DB) : FaultyOp → DB
  | .write sync batch f => (db.write sync batch f).1
  | .flush f => db.flushFront f
  | .compactLevel lvl f => (db.compactLevel lvl f).1
  | .compactRange f => (db.compactRange f).1
  | .runGC f => (db.runGC f).1

/-- A run, with its faults. -/
def runFaulty (db : DB) (ops : List FaultyOp) : DB := ops.foldl execFaulty db

/-- The state is well formed, and its versions are ordered. -/
structure Good (db : DB) : Prop where
  wf : db.Wf
  ordered : db.Ordered

/-- The next sequence number is not smaller, and nothing else of the index changed. -/
theorem Good.of_logs {db : DB} (h : db.Good) {vlog : VLog} {wal : WAL} {walId n : Nat} (hn : db.sequenceNumber ≤ n) :
    { db with vlog := vlog, wal := wal, walId := walId, sequenceNumber := n }.Good :=
  ⟨⟨h.wf.memtables, h.wf.levels, h.wf.ids⟩, OrderedBelow.sublist h.ordered (fun _ => List.Sublist.refl _) hn⟩

/-- A new version with the next sequence number is above the old versions of its key; the other keys keep theirs. -/
theorem versions_addVersion {db : DB} (hm : db.memtable.Valid) (key : Key) {e : InternalEntry}
    (he : e.sequence = db.sequenceNumber) {k : Key} (hb : ∀ b ∈ db.versions k, b.sequence < db.sequenceNumber) :
    (∀ b ∈ (db.addVersion key e).versions k, b.sequence < db.sequenceNumber + 1) ∧
      ((db.addVersion key e).versions k = db.versions k ∨
        ∃ rest, (db.addVersion key e).versions k = e :: rest ∧ rest.Sublist (db.versions k) ∧
          ∀ b ∈ rest, b.sequence < e.sequence) := by
  refine ⟨fun b hmem => ?_, ?_⟩
  · rcases mem_versions_addVersion hm hmem with ⟨-, rfl⟩ | hmem
    · omega
    · exact Nat.lt_succ_of_lt (hb b hmem)
  · by_cases hk : k = key
    · subst hk
      obtain ⟨rest, hv, hs⟩ := versions_addEntry_self hm k e
      exact Or.inr ⟨rest, hv, hs, fun b hmem => he ▸ hb b (hs.subset hmem)⟩
    · exact Or.inl (versions_addEntry_of_ne db hk e)

theorem Good.addVersion {db : DB} (h : db.Good) (key : Key) {e : InternalEntry} (he : e.sequence = db.sequenceNumber) :
    (db.addVersion key e).Good := by
  have hm := h.wf.memtables _ List.mem_cons_self
  refine ⟨h.wf.addVersion key e, fun k => ?_⟩
  obtain ⟨hd, hc, hb⟩ := h.ordered k
  obtain ⟨hbelow, hv⟩ := versions_addVersion hm key he hb
  rcases hv with hv | ⟨rest, hv, hs, hlt⟩
  · refine ⟨?_, ?_, hbelow⟩
    · rw [hv]
      exact hd
    · rw [hv]
      exact hc
  · refine ⟨?_, ?_, hbelow⟩
    · rw [hv]
      exact List.pairwise_cons.mpr ⟨fun b hb => (hlt b hb).le, hd.sublist hs⟩
    · rw [hv]
      exact (hc.mono fun a ha => hs.subset ha).cons hlt

/-! ## Writes -/

theorem Good.rotate {db : DB} (h : db.Good) : db.rotate.Good := by
  refine ⟨LogSteps.wf LogSteps.refl.rotate h.wf, fun key => ?_⟩
  rw [versions_rotate]
  exact h.ordered key

theorem Good.logSteps {db db' : DB} (h : db.Good) (hs : LogSteps db db') : db'.Good :=
  hs.keep h (fun _ _ _ _ _ h hn => h.of_logs hn) (fun _ key _ h he => h.addVersion key he) (fun _ h => h.rotate)

theorem Good.write {db : DB} (h : db.Good) (sync : Bool) (batch : WriteBatch) (f : WriteFaults) :
    (db.write sync batch f).1.Good := h.logSteps (write_logSteps db sync batch f)

/-! ## Compactions -/

/-- What a compaction installs, whatever its reads delivered, adds no version and keeps the order of the others. -/
theorem versions_compactResult {db db' : DB} {lvl : Nat} {f : CompactFaults} {outputs : List SSTableInfo}
    (hr : CompactResult db lvl f db' outputs) (hw : db.Wf) (hi : db.OnlyIndex db') (key : Key) :
    (db'.versions key).Sublist (db.versions key) := by
  obtain ⟨-, A, D, -, -, h₁, h₂, -⟩ := hr.installs.versions hw.levels key
  have hmem : db'.memtables = db.memtables := by rw [memtables, memtables, hi.memtable, hi.immutableMemtables]
  rw [versions, versions, hmem, tableVersions, tableVersions, hr.levels, hi.options, h₁, h₂]
  refine (List.Sublist.refl _).append (((List.Sublist.refl A).append ?_).append (List.Sublist.refl D))
  cases hl : lookup key (Levels.entriesOf outputs) with
  | none => exact List.nil_sublist _
  | some e =>
    rw [Option.toList_some, List.singleton_sublist]
    rcases hr.done.keys key with ⟨hk, -⟩ | ⟨hk, -⟩
    · rw [hl] at hk
      obtain ⟨hin, -⟩ := Versions.bestOf_spec hk.symm
      obtain ⟨info, hinfo, he⟩ := mem_deliveredRuns 0 hin (mem_inputs hw.levels rfl lvl)
      exact mem_inputVersions.mpr ⟨info, hinfo, he⟩
    · rw [hl] at hk
      cases hk

/-- **A compaction**, wherever it fails, adds no version and keeps the order of the others. -/
theorem compactLevel_sublist {db : DB} (hw : db.Wf) (lvl : Int) (f : CompactFaults) :
    (db.compactLevel lvl f).1.Wf ∧ ∀ key, ((db.compactLevel lvl f).1.versions key).Sublist (db.versions key) := by
  unfold DB.compactLevel
  split
  · exact ⟨hw, fun key => List.Sublist.refl _⟩
  · rename_i hl
    have hlt : lvl.toNat + 1 < db.options.maxSstableLevels := by omega
    obtain ⟨hi, hres, -⟩ := compactTables_spec hw.levels hw.ids hlt f
    split at hres
    · obtain ⟨outputs, hr⟩ := hres
      exact ⟨hr.wf hw hi, versions_compactResult hr hw hi⟩
    · refine ⟨hw.sameLevels hi hres, fun key => ?_⟩
      rw [versions_congr hi.memtable hi.immutableMemtables hres hi.options key]

theorem Good.compactLevel {db : DB} (h : db.Good) (lvl : Int) (f : CompactFaults) : (db.compactLevel lvl f).1.Good := by
  have hseq : (db.compactLevel lvl f).1.sequenceNumber = db.sequenceNumber := by
    unfold DB.compactLevel
    split
    · rfl
    · exact (compactTables_spec h.wf.levels h.wf.ids (by omega) f).1.sequenceNumber
  obtain ⟨hw, hs⟩ := compactLevel_sublist h.wf lvl f
  refine ⟨hw, ?_⟩
  rw [Ordered, hseq]
  exact OrderedBelow.sublist h.ordered hs (Nat.le_refl _)

theorem Good.compactLevels (f : Nat → CompactFaults) : ∀ (lvls : List Nat) (db : DB), db.Good →
    (DB.compactLevels f lvls db).1.Good
  | [], _, h => h
  | lvl :: lvls, db, h => by
    have hc := h.compactLevel lvl (f lvl)
    rw [DB.compactLevels]
    split
    · exact Good.compactLevels f lvls db h
    · split
      · rename_i hr
        rw [hr] at hc
        exact hc
      · rename_i hr
        rw [hr] at hc
        exact Good.compactLevels f lvls _ hc

theorem Good.flushFront {db : DB} (h : db.Good) (f : FlushFaults) : (db.flushFront f).Good := by
  refine ⟨?_, h.ordered.flushFront h.wf f⟩
  cases hq : db.immutableMemtables with
  | nil =>
    rw [DB.flushFront, hq]
    exact h.wf
  | cons m ms => exact (flushFront_cases h.wf f hq).1

/-! ## Collections -/

theorem Good.runGC {db : DB} (h : db.Good) (f : GcFaults) : (db.runGC f).1.Good := h.logSteps (runGC_logSteps db f)

/-! ## Runs -/

theorem Good.exec {db : DB} (h : db.Good) : ∀ op : FaultyOp, (db.execFaulty op).Good
  | .write sync batch f => h.write sync batch f
  | .flush f => h.flushFront f
  | .compactLevel lvl f => h.compactLevel lvl f
  | .compactRange f => Good.compactLevels f _ db h
  | .runGC f => h.runGC f

/-- **Every state of a session** is well formed and ordered, whatever fails. -/
theorem Good.run : ∀ (ops : List FaultyOp) (db : DB), db.Good → (db.runFaulty ops).Good
  | [], _, h => h
  | op :: ops, db, h => Good.run ops (db.execFaulty op) (h.exec op)

theorem good_fresh {o : Options} (ho : 1 ≤ o.maxSstableLevels) : (fresh o).Good := by
  refine ⟨(inv_fresh ho).wf, fun key => ?_⟩
  rw [versions_fresh]
  exact ⟨List.Pairwise.nil, fun a ha => absurd ha List.not_mem_nil, fun a ha => absurd ha List.not_mem_nil⟩

end DB

end SplitKV
