import SplitKV.Lib.Locks

/-!
# The mutexes of the database

Which mutexes the calls of `DBImpl` take, and what they access under them. A call is a skeleton of its function: the scopes of
its guards, its accesses to the fields that other threads access too, its status checks and its loops; every branch may go
either way. Whatever runs at the same time, no schedule leaves a call waiting (`calls_return`), and two calls can stand in
front of accesses that are not ordered by a mutex exactly for the fields and calls that are listed in `races` (`races_iff`).

Fields that are atomic (`sequence_number_`, `shutting_down_`, the memory count of a memtable) or that do not change after
`Open` (`options_`, `db_path_`) are left out. So is the destructor, which no call may overlap. The flush thread may wake up at
any time; whether somebody wakes it is the matter of `FlushThread.oversleeps_iff`.
-/

namespace SplitKV

open Locks

/-- The mutexes: `flush_mutex_`, `memtable_mutex_` and `sstable_mutex_` of the database, `reader_mutex_` of its value log, and
`mutex_` of a memtable. -/
inductive Mutex where
  | flush
  | memtable
  | sstable
  | reader
  | table (i : Nat)
  deriving DecidableEq

/-- What the threads share: fields of `DBImpl`; the writers of the logs, with their ids and offsets; the readers of the value
log; the tree of a memtable; the position in the file of a table reader; and the file that the manifest is written to. -/
inductive Shared where
  | memtable
  | immutableMemtables
  | walId
  | wal
  | vlog
  | readers
  | levels
  | nextSstableId
  | tree (i : Nat)
  | tableFile (i : Nat)
  | manifestTmp
  deriving DecidableEq

/-- The calls of the clients, and the loop of the flush thread. `Put` and `Delete` are calls of `Write`. -/
inductive Procedure where
  | write
  | get
  | compactRange
  | runGC
  | getStats
  | backgroundFlush
  deriving DecidableEq

instance : Fintype Procedure :=
  ⟨{.write, .get, .compactRange, .runGC, .getStats, .backgroundFlush}, fun f => by cases f <;> decide⟩

abbrev Body := Script Mutex Shared

namespace Body

/-! ## Statements -/

@[simp] def read (v : Shared) : Body := .access v false

@[simp] def update (v : Shared) : Body := .access v true

/-- A scope with a `lock_guard`. -/
@[simp] def guarded (m : Mutex) (a : Body) : Body := .locked m false a

/-- A scope with a `shared_lock`. -/
@[simp] def sharing (m : Mutex) (a : Body) : Body := .locked m true a

@[simp] def block (as : List Body) : Body := as.foldr .seq .skip

/-- An `if`, or a `break` in front of the statements. -/
@[simp] def maybe (a : Body) : Body := .choose .skip a

/-- `if (!s.ok()) return s;`. -/
@[simp] def check : Body := .choose .skip .ret

/-! ## The calls -/

/-- `MemTable::Put` and `MemTable::Delete` on the active memtable. -/
def memTablePut : Body :=
  block [read .memtable, .pick fun i => guarded (.table i) (block [read (.tree i), update (.tree i)])]

/-- `MemTable::Get`, `MemTable::Count` and `MemTable::GetSortedEntries`. -/
def memTableRead (i : Nat) : Body := sharing (.table i) (read (.tree i))

/-- `VLog::Append`, with the rotation. -/
def vlogAppend : Body := block [update .vlog, check]

/-- `VLog::Read`: the readers, and the position in the file of one of them. -/
def vlogRead : Body := guarded .reader (update .readers)

def vlogRemoveReader : Body := guarded .reader (update .readers)

/-- `WAL::AddRecord`, `WAL::Create`. -/
def walAddRecord : Body := block [update .wal, check]

def maybeScheduleFlush : Body :=
  block [read .memtable, maybe (block [read .memtable, update .immutableMemtables, update .memtable, update .walId,
    update .wal, check])]

def write : Body :=
  guarded .memtable (block [
    .loop (.choose (block [vlogAppend, walAddRecord, memTablePut]) (block [walAddRecord, memTablePut])),
    maybe (block [update .wal, update .vlog]),
    .call maybeScheduleFlush])

/-- The active memtable, then the queued ones. -/
def searchMemtables : Body :=
  block [read .memtable, .pick memTableRead, maybe (.loop (block [read .immutableMemtables, .pick memTableRead]))]

/-- The tables of the levels. A reader moves the position in its file; it does not when its filter says no. -/
def searchLevels : Body := block [read .levels, .loop (maybe (.pick fun i => update (.tableFile i)))]

def get : Body :=
  block [guarded .memtable searchMemtables, maybe (guarded .sstable searchLevels), check, vlogRead]

def saveManifest : Body :=
  block [update .manifestTmp, check, read .nextSstableId,
    guarded .sstable (block [.loop (read .levels), update .manifestTmp, check, update .manifestTmp, check,
      update .manifestTmp, check, update .manifestTmp])]

/-- `next_sstable_id_++`. -/
def nextId : Body := guarded .sstable (block [read .nextSstableId, update .nextSstableId])

def flushMemTable (i : Nat) : Body :=
  block [memTableRead i, check, nextId, check, memTableRead i, .loop check, check, check,
    guarded .sstable (update .levels), .call saveManifest]

/-- The iterators read their tables without a mutex. -/
def advanceIterators : Body := .loop (maybe (.pick fun i => update (.tableFile i)))

/-- One round of the merge: whether a tombstone is dropped, the output table, and the iterators. -/
def mergeRound : Body :=
  block [maybe (guarded .sstable searchLevels),
    maybe (block [maybe (block [nextId, check]), check, maybe (block [check, check])]), advanceIterators]

def compactLevel : Body :=
  block [check, guarded .sstable (block [read .levels, check]), guarded .sstable (read .levels),
    .loop (block [.pick fun i => update (.tableFile i), check]), .loop mergeRound, maybe (block [check, check]),
    guarded .sstable (update .levels), .call saveManifest, check]

def compactRange : Body :=
  .loop (block [guarded .sstable (read .levels), maybe (block [.call compactLevel, check])])

/-- The search for the newest version of a key. -/
def findLatest : Body := block [searchMemtables, maybe (guarded .sstable searchLevels)]

def runGC : Body :=
  block [check, check, read .vlog, check,
    -- the scan of the segment
    .loop (maybe (guarded .memtable findLatest)), check, check,
    maybe (block [
      .loop (block [vlogRead, maybe (block [vlogAppend,
        guarded .memtable (block [findLatest, maybe (block [update .wal, maybe memTablePut])])])]),
      update .vlog, update .wal, vlogRemoveReader])]

def getStats : Body :=
  block [read .vlog, read .vlog, read .memtable, .pick memTableRead, read .memtable, read .immutableMemtables,
    guarded .sstable (read .levels)]

/-- The condition that the flush thread waits for. -/
def wakeUp : Body := maybe (read .immutableMemtables)

def backgroundFlush : Body :=
  .loop (block [
    guarded .flush (block [.loop (block [wakeUp, .wait .flush]), wakeUp, maybe (block [read .immutableMemtables, check]),
      guarded .memtable (read .immutableMemtables)]),
    maybe (block [.pick fun i => .call (flushMemTable i), guarded .memtable (update .immutableMemtables),
      .loop (block [guarded .sstable (read .levels), maybe (.call compactLevel)])])])

end Body

def Procedure.body : Procedure → Body
  | .write => Body.write
  | .get => Body.get
  | .compactRange => Body.compactRange
  | .runGC => Body.runGC
  | .getStats => Body.getStats
  | .backgroundFlush => Body.backgroundFlush

/-- Thread 0 is the flush thread, the others are clients. -/
def crew (n : Nat) : Crew (Fin (n + 1)) Procedure Mutex Shared where
  script := Procedure.body
  may t f := t = 0 ↔ f = .backgroundFlush

/-- The order in which the mutexes are taken. -/
def Mutex.rank : Mutex → Nat
  | .flush => 0
  | .memtable => 1
  | .sstable | .reader | .table _ => 2

/-- The accesses of a call to a field: whether it writes, and the mutexes that it holds. -/
def Procedure.accesses : Procedure → Shared → List (Bool × Held Mutex)
  | .write, .memtable => [(false, [(.memtable, false)]), (true, [(.memtable, false)])]
  | .write, .immutableMemtables | .write, .walId | .write, .wal | .write, .vlog => [(true, [(.memtable, false)])]
  | .write, .tree i =>
    [(false, [(.table i, false), (.memtable, false)]), (true, [(.table i, false), (.memtable, false)])]
  | .get, .memtable | .get, .immutableMemtables => [(false, [(.memtable, false)])]
  | .get, .tree i => [(false, [(.table i, true), (.memtable, false)])]
  | .get, .levels => [(false, [(.sstable, false)])]
  | .get, .tableFile _ => [(true, [(.sstable, false)])]
  | .get, .readers => [(true, [(.reader, false)])]
  | .runGC, .memtable | .runGC, .immutableMemtables => [(false, [(.memtable, false)])]
  | .runGC, .wal => [(true, [(.memtable, false)]), (true, [])]
  | .runGC, .vlog => [(false, []), (true, [])]
  | .runGC, .readers => [(true, [(.reader, false)])]
  | .runGC, .levels => [(false, [(.sstable, false), (.memtable, false)])]
  | .runGC, .tableFile _ => [(true, [(.sstable, false), (.memtable, false)])]
  | .runGC, .tree i => [(false, [(.table i, true), (.memtable, false)]), (false, [(.table i, false), (.memtable, false)]),
      (true, [(.table i, false), (.memtable, false)])]
  | .getStats, .vlog | .getStats, .memtable | .getStats, .immutableMemtables => [(false, [])]
  | .getStats, .tree i => [(false, [(.table i, true)])]
  | .getStats, .levels => [(false, [(.sstable, false)])]
  | .backgroundFlush, .immutableMemtables =>
    [(false, [(.flush, false)]), (false, [(.memtable, false), (.flush, false)]), (true, [(.memtable, false)])]
  | .backgroundFlush, .tree i => [(false, [(.table i, true)])]
  | .compactRange, .levels | .backgroundFlush, .levels => [(false, [(.sstable, false)]), (true, [(.sstable, false)])]
  | .compactRange, .nextSstableId | .backgroundFlush, .nextSstableId =>
    [(false, []), (false, [(.sstable, false)]), (true, [(.sstable, false)])]
  | .compactRange, .tableFile _ | .backgroundFlush, .tableFile _ => [(true, []), (true, [(.sstable, false)])]
  | .compactRange, .manifestTmp | .backgroundFlush, .manifestTmp => [(true, []), (true, [(.sstable, false)])]
  | _, _ => []

/-- What the skeletons are checked for: mutexes in the order of their ranks, and the listed accesses. -/
def Procedure.Lawful (f : Procedure) (held : Held Mutex) : Op Mutex Shared → Prop
  | .acquire m _ => ∀ h ∈ held, h.1.rank < m.rank
  | .release _ _ => True
  | .access v w => (w, held) ∈ f.accesses v

theorem Procedure.lawful (f : Procedure) : f.body.All f.Lawful [] := by
  cases f with
  | write =>
    simp [body, Body.write, Body.vlogAppend, Body.walAddRecord, Body.memTablePut, Body.maybeScheduleFlush, Script.All, Lawful,
      accesses, Mutex.rank]
  | get =>
    simp [body, Body.get, Body.searchMemtables, Body.searchLevels, Body.memTableRead, Body.vlogRead, Script.All, Lawful,
      accesses, Mutex.rank]
  | compactRange =>
    simp [body, Body.compactRange, Body.compactLevel, Body.mergeRound, Body.advanceIterators, Body.nextId, Body.searchLevels,
      Body.saveManifest, Script.All, Lawful, accesses, Mutex.rank]
  | runGC =>
    simp [body, Body.runGC, Body.findLatest, Body.searchMemtables, Body.searchLevels, Body.memTableRead, Body.memTablePut,
      Body.vlogAppend, Body.vlogRead, Body.vlogRemoveReader, Script.All, Lawful, accesses, Mutex.rank]
  | getStats =>
    simp [body, Body.getStats, Body.memTableRead, Script.All, Lawful, accesses, Mutex.rank]
  | backgroundFlush =>
    simp [body, Body.backgroundFlush, Body.wakeUp, Body.flushMemTable, Body.memTableRead, Body.compactLevel, Body.mergeRound,
      Body.advanceIterators, Body.nextId, Body.searchLevels, Body.saveManifest, Script.All, Lawful, accesses, Mutex.rank]

theorem Mutex.rank_lt (m : Mutex) : m.rank < 3 := by
  cases m <;> simp [rank]

/-- **No deadlock among the calls**: in every interleaving of any number of clients with the flush thread, every schedule of
the calls that have begun comes to an end, and at its end all of them have returned. -/
theorem calls_return (n : Nat) {s : Threads (Fin (n + 1)) Procedure Mutex Shared} (h : (crew n).Reaches s) :
    Progress.Completes Threads.move Threads.Idle s :=
  Crew.completes (fun _ _ _ _ => trivial) Procedure.lawful (fun _ _ _ _ hl => hl) Mutex.rank_lt h

/-- A `Get` that finds its key in the active memtable. -/
def getRun : List (Op Mutex Shared) :=
  [.acquire .memtable false, .access .memtable false, .acquire (.table 0) true, .access (.tree 0) false,
    .release (.table 0) true, .release .memtable false, .acquire .reader false, .access .readers true, .release .reader false]

/-- A client is in a `Get`, another one in a `Get` of its own. -/
theorem calls_return_sample : Progress.Completes Threads.move Threads.Idle
    (Function.update (Function.update (fun _ : Fin 3 => ({} : Thread Procedure Mutex Shared)) 1 { call := some .get, todo := getRun })
      2 { call := some .get, todo := getRun }) := by
  have hread : (Body.memTableRead 0).Runs [.acquire (.table 0) true, .access (.tree 0) false, .release (.table 0) true] false :=
    .locked (.access _ _)
  have hfind : Body.searchMemtables.Runs [.access .memtable false, .acquire (.table 0) true, .access (.tree 0) false,
      .release (.table 0) true] false :=
    .seq (.access _ _) (.seq (@Script.Runs.pick _ _ Body.memTableRead _ _ 0 hread) (.seq (.left .skip) .skip))
  have hrun : Body.get.Runs getRun false :=
    .seq (.locked hfind) (.seq (.left .skip) (.seq (.left .skip) (.seq (.locked (.access _ _)) .skip)))
  have hclient (t : Fin 3) (ht : t ≠ 0) : (crew 2).may t .get := by simpa [crew] using ht
  exact calls_return 2 (.call (.call .start (hclient 1 (by decide)) rfl hrun) (hclient 2 (by decide)) rfl hrun)

/-! ## Races -/

/-- **The races**: the calls that access a field without a mutex in common, and one of which writes it. The first one of a
pair stands in front of its access with no mutex that the second one takes. -/
def races : Shared → List (Procedure × Procedure)
  | .memtable => [(.getStats, .write)]
  | .immutableMemtables => [(.getStats, .write), (.getStats, .backgroundFlush), (.backgroundFlush, .write)]
  | .wal => [(.runGC, .write), (.runGC, .runGC)]
  | .vlog => [(.runGC, .write), (.runGC, .runGC), (.getStats, .write), (.getStats, .runGC)]
  | .nextSstableId | .manifestTmp => [(.compactRange, .compactRange), (.compactRange, .backgroundFlush)]
  | .tableFile _ => [(.compactRange, .compactRange), (.compactRange, .backgroundFlush), (.compactRange, .get),
      (.compactRange, .runGC), (.backgroundFlush, .get), (.backgroundFlush, .runGC)]
  | .walId | .readers | .levels | .tree _ => []

/-- The mutex that orders all accesses to a field. -/
def Shared.guard : Shared → Option Mutex
  | .walId => some .memtable
  | .readers => some .reader
  | .levels => some .sstable
  | .tree i => some (.table i)
  | _ => none

/-- A guarded field is accessed under its mutex only, and written under it exclusively. -/
theorem Procedure.guarded (f : Procedure) {v : Shared} {m : Mutex} (h : v.guard = some m) :
    ∀ a ∈ f.accesses v, ∃ sh, (m, sh) ∈ a.2 ∧ (a.1 = true → sh = false) := by
  cases v <;> cases h <;> cases f <;> simp [accesses]

/-- The pairs of calls with accesses to the field that no mutex orders. -/
def Shared.Clash (v : Shared) : Prop :=
  ∀ f g : Procedure, ¬(f = .backgroundFlush ∧ g = .backgroundFlush) → ∀ a ∈ f.accesses v, ∀ b ∈ g.accesses v,
    (a.1 = true ∨ b.1 = true) → Compatible a.2 b.2 → (f, g) ∈ races v ∨ (g, f) ∈ races v

/-- Accesses that the mutexes do not order are listed. -/
theorem Shared.clash (v : Shared) : v.Clash := by
  cases hguard : v.guard with
  | some m =>
    intro f g _ a ha b hb hw hc
    obtain ⟨sh, hm, hsh⟩ := f.guarded hguard a ha
    obtain ⟨sh', hm', hsh'⟩ := g.guarded hguard b hb
    obtain ⟨rfl, rfl⟩ := hc _ hm _ hm' rfl
    rcases hw with hw | hw
    · cases hsh hw
    · cases hsh' hw
  | none =>
    have hfile (i : Nat) (f : Procedure) : f.accesses (.tableFile i) = f.accesses (.tableFile 0) := by cases f <;> rfl
    unfold Shared.Clash Compatible
    cases v with
    | walId | readers | levels | tree => cases hguard
    | memtable | immutableMemtables | wal | vlog | nextSstableId | manifestTmp => decide
    | tableFile i =>
      simp only [hfile i, show races (.tableFile i) = races (.tableFile 0) from rfl]
      decide

theorem Procedure.reaches (f : Procedure) (v : Shared) : ∀ a ∈ f.accesses v, f.body.Accesses v a.1 a.2 [] := by
  cases f with
  | write =>
    cases v <;> simp [accesses, body, Body.write, Body.vlogAppend, Body.walAddRecord, Body.memTablePut,
      Body.maybeScheduleFlush, Script.Accesses, Script.Passes]
  | get =>
    cases v <;> simp [accesses, body, Body.get, Body.searchMemtables, Body.searchLevels, Body.memTableRead, Body.vlogRead,
      Script.Accesses, Script.Passes]
  | compactRange =>
    cases v <;> simp [accesses, body, Body.compactRange, Body.compactLevel, Body.mergeRound, Body.advanceIterators, Body.nextId,
      Body.searchLevels, Body.saveManifest, Script.Accesses, Script.Passes]
  | runGC =>
    cases v <;> simp [accesses, body, Body.runGC, Body.findLatest, Body.searchMemtables, Body.searchLevels, Body.memTableRead,
      Body.memTablePut, Body.vlogAppend, Body.vlogRead, Body.vlogRemoveReader, Script.Accesses, Script.Passes]
  | getStats => cases v <;> simp [accesses, body, Body.getStats, Body.memTableRead, Script.Accesses, Script.Passes]
  | backgroundFlush =>
    cases v <;> simp [accesses, body, Body.backgroundFlush, Body.wakeUp, Body.flushMemTable, Body.memTableRead,
      Body.compactLevel, Body.mergeRound, Body.advanceIterators, Body.nextId, Body.searchLevels, Body.saveManifest,
      Script.Accesses, Script.Passes]

/-- Only the flush thread takes `flush_mutex_`. -/
theorem Procedure.not_takes_flush {f : Procedure} (h : f ≠ .backgroundFlush) : ¬f.body.Takes .flush := by
  cases f with
  | backgroundFlush => exact absurd rfl h
  | write =>
    simp [body, Body.write, Body.vlogAppend, Body.walAddRecord, Body.memTablePut, Body.maybeScheduleFlush, Script.Takes]
  | get =>
    simp [body, Body.get, Body.searchMemtables, Body.searchLevels, Body.memTableRead, Body.vlogRead, Script.Takes]
  | compactRange =>
    simp [body, Body.compactRange, Body.compactLevel, Body.mergeRound, Body.advanceIterators, Body.nextId, Body.searchLevels,
      Body.saveManifest, Script.Takes]
  | runGC =>
    simp [body, Body.runGC, Body.findLatest, Body.searchMemtables, Body.searchLevels, Body.memTableRead, Body.memTablePut,
      Body.vlogAppend, Body.vlogRead, Body.vlogRemoveReader, Script.Takes]
  | getStats => simp [body, Body.getStats, Body.memTableRead, Script.Takes]

/-- In a listed pair, the first call stands at its access with no mutex but `flush_mutex_`. -/
def Shared.Listed (v : Shared) : Prop :=
  ∀ p ∈ races v, ¬(p.1 = .backgroundFlush ∧ p.2 = .backgroundFlush) ∧ ∃ a ∈ p.1.accesses v, ∃ b ∈ p.2.accesses v,
    (a.1 = true ∨ b.1 = true) ∧ ∀ k ∈ a.2, k.1 = .flush ∧ p.2 ≠ .backgroundFlush

theorem Shared.listed (v : Shared) : v.Listed := by
  unfold Shared.Listed
  cases v with
  | tree i => simp [races]
  | tableFile i => simp [races, Procedure.accesses]
  | _ => decide

/-- Two threads of a crew of three that may run two calls. -/
theorem exists_threads {f g : Procedure} (hne : ¬(f = .backgroundFlush ∧ g = .backgroundFlush)) :
    ∃ t u : Fin 3, t ≠ u ∧ (crew 2).may t f ∧ (crew 2).may u g := by
  by_cases hf : f = .backgroundFlush
  · exact ⟨0, 1, by decide, by simp [crew, hf], by simpa [crew] using fun hg => hne ⟨hf, hg⟩⟩
  · by_cases hg : g = .backgroundFlush
    · exact ⟨1, 0, by decide, by simpa [crew] using hf, by simp [crew, hg]⟩
    · exact ⟨1, 2, by decide, by simpa [crew] using hf, by simpa [crew] using hg⟩

/-- **The races are exactly the listed ones**: in some interleaving of some number of clients with the flush thread, two
threads stand in front of accesses to a field in two calls, and one of the accesses writes, exactly when the calls are listed
for the field. -/
theorem races_iff (v : Shared) (f g : Procedure) :
    (∃ n, ∃ s : Threads (Fin (n + 1)) Procedure Mutex Shared, (crew n).Reaches s ∧ s.Races v f g) ↔
      (f, g) ∈ races v ∨ (g, f) ∈ races v := by
  have hrace (f g : Procedure) (h : (f, g) ∈ races v) :
      ∃ s : Threads (Fin 3) Procedure Mutex Shared, (crew 2).Reaches s ∧ s.Races v f g := by
    obtain ⟨hne, a, ha, b, hb, hw, hflush⟩ := v.listed (f, g) h
    obtain ⟨t, u, htu, hf, hg⟩ := exists_threads hne
    refine Crew.exists_race (fun _ _ _ _ => trivial) Procedure.lawful (fun _ _ _ _ hl => hl) htu hf hg (f.reaches v a ha)
      (g.reaches v b hb) hw fun k hk => ?_
    obtain ⟨he, hg'⟩ := hflush k hk
    rw [he]
    exact Procedure.not_takes_flush hg'
  constructor
  · rintro ⟨n, s, hs, hr⟩
    obtain ⟨t, u, hs', hs'', w, w', hne, hf, hg, ha, hb, hw, hc⟩ :=
      Crew.locks_of_race (fun _ _ _ _ => trivial) Procedure.lawful hs hr
    refine v.clash f g (fun hbg => hne ?_) _ ha _ hb hw hc
    rw [hf.mpr hbg.1, hg.mpr hbg.2]
  · rintro (h | h)
    · exact ⟨2, hrace f g h⟩
    · obtain ⟨s, hs, hr⟩ := hrace g f h
      exact ⟨2, s, hs, hr.symm⟩

end SplitKV
