import SplitKV.Concurrent.Run
import SplitKV.Store.Gc

/-!
# Collections among other threads

`RunGC` takes a lock for one check, one read, one append or one swap at a time. `DB.gcStep` is the next section of a
collection; any number of them run beside the threads of `Sys` (`GcSys`). A collection that nothing interrupts is
`DB.runGC` (`GcSys.collect_alone`).
-/

namespace SplitKV

/-- Where a collection of a segment stands: the segment is chosen; it is scanned, and the live records are added up; the
live records are rewritten; a value was read; it was appended again; the logs are synced; the cached reader is gone. -/
inductive Collecting
  | chosen
  | scanning (rest : List ScanRecord) (acc : GcScan)
  | rewriting (rest : List LiveRecord)
  | read (r : LiveRecord) (value : Bytes) (rest : List LiveRecord)
  | appended (r : LiveRecord) (newPtr : VLogPointer) (rest : List LiveRecord)
  | synced
  | unread

/-- A running `RunGC`: it has listed the files, or it is at work on a segment. -/
inductive Collector
  | listed (ids : List Nat)
  | working (gcFileId : Nat) (phase : Collecting)

namespace DB

/-- The next section of a collection of a segment; it is over when there is none. -/
def collectStep (db : DB) (gcFileId : Nat) : Collecting → DB × Option Collecting
  | .chosen =>
    match db.vlog.newReader gcFileId 0 with
    | .error _ => (db, none)
    | .ok records => (db, some (.scanning records {}))
  | .scanning (r :: rest) acc => (db, some (.scanning rest (db.gcCallback noFails gcFileId acc r)))
  | .scanning [] acc => (db, if db.gcDecide acc then some (.rewriting acc.liveRecords) else none)
  | .rewriting (r :: rest) =>
    match db.gcRead false gcFileId r with
    | (db, .error _) => (db, some (.rewriting rest))
    | (db, .ok value) => (db, some (.read r value rest))
  | .read r value rest =>
    match db.gcAppend .none r value with
    | (db, .error _) => (db, none)
    | (db, .ok newPtr) => (db, some (.appended r newPtr rest))
  | .appended r newPtr rest => (db.gcSwap noFails none gcFileId r newPtr, some (.rewriting rest))
  | .rewriting [] => (db.gcSync .none, some .synced)
  | .synced => (db.gcRemoveReader gcFileId, some .unread)
  | .unread => (db.gcDelete false gcFileId, none)

/-- The next section of `RunGC`. -/
def gcStep (db : DB) : Collector → DB × Option Collector
  | .listed ids =>
    match ids.find? (fun id => decide (id < db.vlog.currentFileId)) with
    | none => (db, none)
    | some gcFileId => (db, some (.working gcFileId .chosen))
  | .working gcFileId phase =>
    match db.collectStep gcFileId phase with
    | (db, phase) => (db, phase.map (.working gcFileId))

end DB

/-- The database with its threads, and with collections, which are known by a number. -/
structure GcSys where
  sys : Sys
  collectors : Nat → Option Collector := fun _ => none

/-- A step of another thread, or the next section of a collection; `startGc t` is the first one of a new collection. -/
inductive GcAct
  | thread (a : Act)
  | startGc (t : Nat)
  | gc (t : Nat)

namespace GcSys

/-- The database. -/
abbrev db (s : GcSys) : DB := s.sys.db

/-- A step of the system. -/
def step (s : GcSys) : GcAct → GcSys
  | .thread a => { s with sys := s.sys.step a }
  | .startGc t =>
    match s.collectors t with
    | some _ => s
    | none => { s with collectors := setAt s.collectors t (some (.listed s.db.vlogIds)) }
  | .gc t =>
    match s.collectors t with
    | none => s
    | some c =>
      match s.db.gcStep c with
      | (db, c) => ⟨{ s.sys with db := db }, setAt s.collectors t c⟩

section

variable {s : GcSys} {t : Nat}

theorem step_startGc (h : s.collectors t = none) :
    s.step (.startGc t) = { s with collectors := setAt s.collectors t (some (.listed s.db.vlogIds)) } := by
  simp only [step, h]

theorem step_startGc_running {c : Collector} (h : s.collectors t = some c) : s.step (.startGc t) = s := by
  simp only [step, h]

theorem step_gc {c : Collector} (h : s.collectors t = some c) : s.step (.gc t) =
    ⟨{ s.sys with db := (s.db.gcStep c).1 }, setAt s.collectors t (s.db.gcStep c).2⟩ := by
  simp only [step, h]

theorem step_gc_none (h : s.collectors t = none) : s.step (.gc t) = s := by simp only [step, h]

end

/-- A run of the system. -/
def run (s : GcSys) (acts : List GcAct) : GcSys := acts.foldl step s

@[simp] theorem run_nil (s : GcSys) : s.run [] = s := rfl

@[simp] theorem run_cons (s : GcSys) (a : GcAct) (acts : List GcAct) : s.run (a :: acts) = (s.step a).run acts := rfl

theorem run_append (s : GcSys) (acts acts' : List GcAct) : s.run (acts ++ acts') = (s.run acts).run acts' :=
  List.foldl_append

/-- No thread is at work. -/
def start (db : DB) : GcSys := { sys := .start db }

end GcSys

/-! ## A collection alone -/

namespace DB

/-- The sections of a collection that nothing interrupts lead to the database. -/
inductive Ends : DB → Collector → DB → Prop
  | last {db db' : DB} {c : Collector} (h : db.gcStep c = (db', none)) : Ends db c db'
  | next {db db' : DB} {c : Collector} (db₁ : DB) (c₁ : Collector) (h : db.gcStep c = (db₁, some c₁))
      (hrest : Ends db₁ c₁ db') : Ends db c db'

variable {seg : Nat}

/-- The end of a collection. -/
theorem ends_rewritten (db : DB) (seg : Nat) : db.Ends (.working seg (.rewriting [])) (db.gcFinish .none seg) :=
  .next _ (.working seg .synced) rfl (.next _ (.working seg .unread) rfl (.last rfl))

/-- The rewriting of the live records. -/
theorem ends_rewriting : ∀ (rs : List LiveRecord) (i : Nat) (db : DB) (db₁ : DB) (r : Except Status Unit),
    gcRewrite .none seg i rs db = (db₁, r) →
    db.Ends (.working seg (.rewriting rs)) (if r = .ok () then db₁.gcFinish .none seg else db₁)
  | [], i, db, db₁, r, h => by
    cases h
    exact ends_rewritten db seg
  | lr :: rs, i, db, db₁, r, h => by
    have hread : db.gcRead false seg lr =
      ({ db with vlog := db.vlog.openReader seg }, gcValue false seg lr db.vlog) := rfl
    rw [gcRewrite, show GcFaults.none.read i = false from rfl, hread] at h
    cases hv : gcValue false seg lr db.vlog with
    | error s =>
      rw [hv] at h
      refine .next _ (.working seg (.rewriting rs)) ?_ (ends_rewriting rs (i + 1) _ db₁ r h)
      simp only [gcStep, collectStep, hread, hv, Option.map_some]
    | ok value =>
      rw [hv] at h
      refine .next { db with vlog := db.vlog.openReader seg } (.working seg (.read lr value rs)) ?_ ?_
      · simp only [gcStep, collectStep, hread, hv, Option.map_some]
      simp only [show GcFaults.none.append i = .none from rfl] at h
      generalize ha : ({ db with vlog := db.vlog.openReader seg } : DB).gcAppend .none lr value = x at h
      obtain ⟨db₂, st⟩ := x
      cases st with
      | error s =>
        cases h
        refine .last ?_
        simp only [gcStep, collectStep, ha, Option.map_none, reduceCtorEq, if_false]
      | ok newPtr =>
        refine .next db₂ (.working seg (.appended lr newPtr rs)) ?_ ?_
        · simp only [gcStep, collectStep, ha, Option.map_some]
        · exact .next _ (.working seg (.rewriting rs)) rfl (ends_rewriting rs (i + 1) _ db₁ r h)

/-- The scan. -/
theorem ends_scanning : ∀ (rest : List ScanRecord) (i : Nat) (acc : GcScan) (db db' : DB),
    (db.gcDecide (db.gcScan .none seg i rest acc) = true →
      db.Ends (.working seg (.rewriting (db.gcScan .none seg i rest acc).liveRecords)) db') →
    (db.gcDecide (db.gcScan .none seg i rest acc) = false → db' = db) →
    db.Ends (.working seg (.scanning rest acc)) db'
  | [], i, acc, db, db', hgo, hstop => by
    rw [gcScan] at hgo hstop
    cases hd : db.gcDecide acc with
    | true =>
      refine .next db (.working seg (.rewriting acc.liveRecords)) ?_ (hgo hd)
      simp only [gcStep, collectStep, hd, if_true, Option.map_some]
    | false =>
      rw [hstop hd]
      refine .last ?_
      simp only [gcStep, collectStep, hd, Bool.false_eq_true, if_false, Option.map_none]
  | r :: rest, i, acc, db, db', hgo, hstop =>
    .next db (.working seg (.scanning rest (db.gcCallback noFails seg acc r))) rfl
      (ends_scanning rest (i + 1) _ db db' hgo hstop)

/-- **The sections of a collection** that nothing interrupts make up `RunGC`. -/
theorem ends_runGC (db : DB) : db.Ends (.listed db.vlogIds) (db.runGC .none).1 := by
  unfold runGC gcChoose
  cases hc : db.vlogIds.find? (fun id => decide (id < db.vlog.currentFileId)) with
  | none =>
    refine .last ?_
    simp only [gcStep, hc]
  | some seg =>
    refine .next db (.working seg .chosen) (by simp only [gcStep, hc]) ?_
    simp only [gcSegment]
    cases hr : db.vlog.newReader seg 0 with
    | error s =>
      refine .last ?_
      simp only [gcStep, collectStep, hr, Option.map_none]
    | ok records =>
      refine .next db (.working seg (.scanning records {})) (by simp only [gcStep, collectStep, hr, Option.map_some]) ?_
      refine ends_scanning records 0 {} db _ (fun hd => ?_) fun hd => ?_
      · simp only [hd, if_true]
        generalize hw : gcRewrite .none seg 0 (db.gcScan .none seg 0 records {}).liveRecords db = x
        obtain ⟨db₁, r⟩ := x
        have hends := ends_rewriting _ 0 db db₁ r hw
        cases r with
        | error s => exact hends
        | ok u => exact hends
      · simp only [hd, Bool.false_eq_true, if_false]

end DB

namespace GcSys

theorem run_of_ends {db db' : DB} {c : Collector} (h : db.Ends c db') : ∀ (s : GcSys) (t : Nat), s.db = db →
    s.collectors t = some c →
    ∃ n, (s.run (List.replicate n (.gc t))).db = db' ∧ (s.run (List.replicate n (.gc t))).collectors t = none := by
  induction h with
  | last h =>
    intro s t hdb hc
    refine ⟨1, ?_, ?_⟩
    · rw [List.replicate_one, run_cons, step_gc hc, hdb, h]
      rfl
    · rw [List.replicate_one, run_cons, step_gc hc, hdb, h]
      exact setAt_self s.collectors t none
  | next _ _ h _ ih =>
    intro s t hdb hc
    have hstep : s.step (.gc t) = _ := step_gc hc
    rw [hdb, h] at hstep
    obtain ⟨n, h₁, h₂⟩ := ih (s.step (.gc t)) t (by rw [hstep]) (by rw [hstep]; exact setAt_self s.collectors t _)
    exact ⟨n + 1, h₁, h₂⟩

/-- **A collection that nothing interrupts** is `RunGC`. -/
theorem collect_alone (s : GcSys) {t : Nat} (h : s.collectors t = none) : ∃ n,
    (s.run (.startGc t :: List.replicate n (.gc t))).db = (s.db.runGC .none).1 ∧
      (s.run (.startGc t :: List.replicate n (.gc t))).collectors t = none := by
  refine run_of_ends (DB.ends_runGC s.db) (s.step (.startGc t)) t ?_ ?_
  · rw [step_startGc h]
  · rw [step_startGc h]
    exact setAt_self s.collectors t _

end GcSys

end SplitKV
