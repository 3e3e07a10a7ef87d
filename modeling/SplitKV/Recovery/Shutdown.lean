import SplitKV.DBImpl.Close
import SplitKV.Faults.Run
import SplitKV.Recovery.Steps

/-!
# The shutdown

The destructor registers the active memtable before the queued ones, so that its table is searched behind theirs. The
tables then show the newest versions exactly when no key of the active memtable is queued (`shutdown_iff`). What the
shutdown leaves can be opened again (`Logged.destroy`).
-/

namespace SplitKV

open Versions

namespace DB

/-! ## The tables of the memtables -/

/-- The memtables became tables of level 0, one behind the other. -/
structure Drained (db db' : DB) (ms : List MemTable) : Prop where
  onlyIndex : db.OnlyIndex db'
  wf : db'.Wf
  levelZero : ∀ key, SplitKV.tableVersions (db'.levels 0) key =
    SplitKV.tableVersions (db.levels 0) key ++ memVersions ms key
  searched : ∀ key, db'.tableVersions key = memVersions ms.reverse key ++ db.tableVersions key

theorem memVersions_reverse (ms : List MemTable) (key : Key) : memVersions ms.reverse key = (memVersions ms key).reverse :=
  List.filterMap_reverse

theorem Drained.refl {db : DB} (h : db.Wf) : Drained db db [] :=
  ⟨OnlyIndex.refl db, h, fun _ => (List.append_nil _).symm, fun _ => rfl⟩

theorem Drained.trans {a b c : DB} {ms ms' : List MemTable} (h : Drained a b ms) (h' : Drained b c ms') :
    Drained a c (ms ++ ms') := by
  refine ⟨h.onlyIndex.trans h'.onlyIndex, h'.wf, fun key => ?_, fun key => ?_⟩
  · rw [h'.levelZero, h.levelZero, memVersions_append, List.append_assoc]
  · rw [h'.searched, h.searched, List.reverse_append, memVersions_append, List.append_assoc]

/-- **One memtable.** -/
theorem drained_flush {db : DB} (h : db.Wf) {m : MemTable} (hm : m.Valid) : Drained db (db.flushMemTable m {}).1 [m] := by
  by_cases hc : m.count = 0
  · have he : db.flushMemTable m {} = (db, .ok ()) := if_pos hc
    have hnone : m.version = fun _ => none := by
      funext key
      rw [MemTable.version, hm.count_eq_zero.mp hc]
      rfl
    rw [he]
    refine ⟨OnlyIndex.refl db, h, fun key => ?_, fun key => ?_⟩
    · rw [memVersions_singleton, hnone, Option.toList_none, List.append_nil]
    · rw [List.reverse_singleton, memVersions_singleton, hnone, Option.toList_none, List.nil_append]
  · obtain ⟨⟨info, hf⟩, -⟩ := flushMemTable_registers db hm hc (f := {}) ⟨rfl, fun _ _ => rfl, rfl, rfl⟩
    refine ⟨hf.onlyIndex, hf.wf_state h, fun key => ?_, fun key => ?_⟩
    · rw [hf.levels, setAt_self, tableVersions_append, memVersions_singleton, ← hf.version]
      congr 1
    · rw [List.reverse_singleton, memVersions_singleton]
      exact hf.tableVersions h.levels key

/-- Several of them. -/
theorem drained_flushAll : ∀ (ms : List MemTable) (i : Nat) (db : DB), db.Wf → (∀ m ∈ ms, m.Valid) →
    Drained db (flushAll (fun _ => {}) i ms db) ms
  | [], _, _, h, _ => .refl h
  | m :: ms, i, db, h, hm => by
    have h₁ := drained_flush h (hm m List.mem_cons_self)
    exact h₁.trans (drained_flushAll ms (i + 1) _ h₁.wf fun m hm' => hm m (List.mem_cons_of_mem _ hm'))

/-- **The destructor.** -/
theorem drained_destroy {db : DB} (h : db.Wf) :
    Drained db (db.destroy fun _ => {}) (db.memtable :: db.immutableMemtables) := by
  have hm := h.memtables _ List.mem_cons_self
  have hactive : (if 0 < db.memtable.count then (db.flushMemTable db.memtable {}).1 else db) =
      (db.flushMemTable db.memtable {}).1 := by
    split
    · rfl
    · rename_i hc
      have he : db.flushMemTable db.memtable {} = (db, .ok ()) := if_pos (by omega)
      rw [he]
  have h₁ := drained_flush h hm
  unfold destroy
  rw [hactive]
  exact h₁.trans (drained_flushAll _ 1 _ h₁.wf fun m hq =>
    h.memtables m (List.mem_cons_of_mem _ (List.mem_reverse.mpr hq)))

/-! ## The order of the tables -/

/-- The tables that the destructor saves show the newest version of every key. -/
def ClosesNewest (db : DB) : Prop :=
  ∀ key, ∀ a ∈ db.versions key, ∃ e ∈ db.versions key,
    (db.destroy fun _ => {}).findInTables noFails key = some e ∧ a.sequence ≤ e.sequence

/-- Of the tables of level 0 that it saves and that have a key, the later one has the greater sequence number. -/
def ClosesByAge (db : DB) : Prop :=
  ∀ key, (SplitKV.tableVersions ((db.destroy fun _ => {}).levels 0) key).Pairwise fun a b => a.sequence < b.sequence

/-- No key of the active memtable is in a queued one. -/
def NoneQueued (db : DB) : Prop :=
  ∀ key, db.memtable.version key ≠ none → memVersions db.immutableMemtables key = []

/-- Of the tables of level 0 and the memtables, the oldest first, that have a key, the later one has the greater sequence
number. -/
def ByAge (db : DB) : Prop :=
  ∀ key, (SplitKV.tableVersions (db.levels 0) key ++ memVersions (db.immutableMemtables ++ [db.memtable]) key).Pairwise
    fun a b => a.sequence < b.sequence

/-- The versions of every key are strictly below each other, and below the next sequence number. -/
def Strict (db : DB) : Prop :=
  ∀ key, ((db.versions key).Pairwise fun a b => b.sequence < a.sequence) ∧ ∀ e ∈ db.versions key, e.sequence < db.sequenceNumber

/-- The database without its tables. -/
def bare (db : DB) : DB := { db with levels := fun _ => [] }

/-- What every state of a session keeps: the versions are settled, and those in the memtables are strictly below each
other. -/
structure InOrder (db : DB) : Prop where
  wf : db.Wf
  settled : db.Settled
  memtables : db.bare.Strict

variable {db db' : DB}

theorem versions_bare (db : DB) (key : Key) : db.bare.versions key = memVersions db.memtables key := by
  have hnil : db.bare.tableVersions key = [] := by
    refine List.flatMap_eq_nil_iff.mpr fun l _ => ?_
    rw [show db.bare.levels.searched l = [] by rw [Levels.searched]; split <;> rfl]
    rfl
  rw [versions, hnil, List.append_nil]
  rfl

/-- With none of its keys queued, the active memtable may be searched behind the queue. -/
theorem NoneQueued.comm (h : db.NoneQueued) (key : Key) :
    memVersions db.immutableMemtables key ++ memVersions [db.memtable] key =
      memVersions [db.memtable] key ++ memVersions db.immutableMemtables key := by
  cases hv : db.memtable.version key with
  | none => rw [memVersions_singleton, hv, Option.toList_none, List.append_nil, List.nil_append]
  | some e => rw [h key (by rw [hv]; simp), List.append_nil, List.nil_append]

/-- The search behind the destructor. -/
theorem findInTables_destroy (h : db.Wf) (key : Key) : (db.destroy fun _ => {}).findInTables noFails key =
    ((memVersions db.immutableMemtables key).reverse ++ (memVersions [db.memtable] key ++ db.tableVersions key)).head? := by
  have hd := drained_destroy h
  have hs := hd.searched key
  rw [List.reverse_cons, memVersions_append, memVersions_reverse, List.append_assoc] at hs
  rw [findInTables, Levels.find_eq hd.wf.levels, ← hs]
  rfl

/-- The versions, the active memtable in front. -/
theorem versions_eq (db : DB) (key : Key) : db.versions key =
    memVersions [db.memtable] key ++ ((memVersions db.immutableMemtables key).reverse ++ db.tableVersions key) := by
  rw [versions, memtables, ← memVersions_reverse, ← List.append_assoc, ← memVersions_append]
  rfl

/-- **The newest versions** are shown exactly when no key of the active memtable is queued. -/
theorem InOrder.closesNewest_iff (h : db.InOrder) : db.ClosesNewest ↔ db.NoneQueued := by
  constructor
  · intro hc key hne
    obtain ⟨x, hx⟩ := Option.ne_none_iff_exists'.mp hne
    have hone : memVersions [db.memtable] key = [x] := by rw [memVersions_singleton, hx]; rfl
    by_contra hq
    obtain ⟨q, rest, hrev⟩ := List.exists_cons_of_ne_nil (List.reverse_ne_nil_iff.mpr hq)
    have hmem : x ∈ db.versions key := by
      rw [versions_eq, hone]
      exact List.mem_cons_self
    obtain ⟨e, -, hfind, hle⟩ := hc key x hmem
    rw [findInTables_destroy h.wf, hrev] at hfind
    cases hfind
    -- the version of the active memtable is newer than the queued one that is found
    have hlt := (h.memtables key).1
    rw [versions_bare, show db.memtables = [db.memtable] ++ db.immutableMemtables.reverse from rfl, memVersions_append, hone,
      memVersions_reverse, hrev] at hlt
    have := (List.pairwise_cons.mp hlt).1 q List.mem_cons_self
    omega
  · intro hn key a ha
    obtain ⟨hnew, -, -⟩ := h.settled key
    have hcomm : (memVersions db.immutableMemtables key).reverse ++ memVersions [db.memtable] key =
        memVersions [db.memtable] key ++ (memVersions db.immutableMemtables key).reverse := by
      have := congrArg List.reverse (hn.comm key)
      rw [List.reverse_append, List.reverse_append, memVersions_singleton] at this
      rw [memVersions_singleton]
      cases hv : db.memtable.version key with
      | none => simp
      | some e => rw [hv] at this; exact this.symm
    have hfind : (db.destroy fun _ => {}).findInTables noFails key = (db.versions key).head? := by
      rw [findInTables_destroy h.wf, versions_eq, ← List.append_assoc, hcomm, List.append_assoc]
    cases hv : db.versions key with
    | nil => rw [hv] at ha; cases ha
    | cons e rest =>
      rw [hv] at hnew ha hfind
      exact ⟨e, List.mem_cons_self, hfind, hnew e rfl a ha⟩

/-- **Level 0** is then in order when it and the memtables were. -/
theorem InOrder.closesByAge_iff (h : db.InOrder) (hn : db.NoneQueued) : db.ClosesByAge ↔ db.ByAge := by
  have hkey : ∀ key, SplitKV.tableVersions ((db.destroy fun _ => {}).levels 0) key =
      SplitKV.tableVersions (db.levels 0) key ++ memVersions (db.immutableMemtables ++ [db.memtable]) key := by
    intro key
    rw [(drained_destroy h.wf).levelZero, memVersions_append, hn.comm, ← memVersions_append]
    rfl
  unfold ClosesByAge ByAge
  simp only [hkey]

/-! ## Operations -/

theorem Strict.sublist (h : db.Strict) (hs : ∀ key, (db'.versions key).Sublist (db.versions key))
    (hn : db.sequenceNumber ≤ db'.sequenceNumber) : db'.Strict :=
  fun key => ⟨(h key).1.sublist (hs key), fun e he => ((h key).2 e ((hs key).subset he)).trans_le hn⟩

theorem Strict.addVersion (h : db.Strict) (hm : db.memtable.Valid) (key : Key) {e : InternalEntry}
    (he : e.sequence = db.sequenceNumber) : (db.addVersion key e).Strict := by
  intro k
  obtain ⟨hp, hb⟩ := h k
  obtain ⟨hbelow, hv⟩ := versions_addVersion hm key he hb
  refine ⟨?_, hbelow⟩
  rcases hv with hv | ⟨rest, hv, hs, hlt⟩
  · rw [hv]
    exact hp
  · rw [hv]
    exact List.pairwise_cons.mpr ⟨hlt, hp.sublist hs⟩

/-- **Steps of the logs** keep the versions strictly below each other. -/
theorem Strict.logSteps (h : db.Strict) (hw : db.Wf) (hs : LogSteps db db') : db'.Strict := by
  refine (hs.keep (P := fun a => a.Wf ∧ a.Strict) ⟨hw, h⟩ (fun a vlog wal walId n ha hn => ?_) (fun a key e ha he => ?_)
    fun a ha => ?_).2
  · exact ⟨LogSteps.wf (LogSteps.refl.logs vlog wal walId n hn) ha.1, ha.2.sublist (fun _ => List.Sublist.refl _) hn⟩
  · exact ⟨ha.1.addVersion key e, ha.2.addVersion (ha.1.memtables _ List.mem_cons_self) key he⟩
  · refine ⟨LogSteps.wf LogSteps.refl.rotate ha.1, fun key => ?_⟩
    rw [versions_rotate]
    exact ha.2 key

theorem Wf.bare (h : db.Wf) : db.bare.Wf :=
  ⟨h.memtables, ⟨h.levels.pos, fun _ _ hi => absurd hi List.not_mem_nil, fun _ => List.Pairwise.nil,
    fun _ _ _ => Nat.zero_le _, fun _ _ => rfl⟩, fun _ _ hi => absurd hi List.not_mem_nil⟩

theorem LogSteps.bare (h : LogSteps db db') : LogSteps db.bare db'.bare := by
  induction h with
  | refl => exact .refl
  | logs _ vlog wal walId n hn ih => exact ih.logs vlog wal walId n hn
  | add _ key e he ih => exact ih.add key e he
  | rotate _ ih => exact ih.rotate

theorem InOrder.logSteps (h : db.InOrder) (hs : LogSteps db db') : db'.InOrder :=
  ⟨hs.wf h.wf, hs.settled h.wf h.settled, h.memtables.logSteps h.wf.bare hs.bare⟩

/-- A step of the index: no version is new, and none changes its place. -/
structure Shrinks (db db' : DB) : Prop where
  contents : db.SameContents db'
  sublist : ∀ key, (db'.versions key).Sublist (db.versions key)

theorem Shrinks.trans {a b c : DB} (h : Shrinks a b) (h' : Shrinks b c) : Shrinks a c :=
  ⟨h.contents.trans h'.contents, fun key => (h'.sublist key).trans (h.sublist key)⟩

theorem shrinks_compactLevel (hw : db.Wf) (hs : db.Settled) (lvl : Int) : Shrinks db (db.compactLevel lvl .none).1 :=
  ⟨compactLevel_spec hw hs lvl, (compactLevel_sublist hw lvl .none).2⟩

theorem shrinks_compactLevels : ∀ (lvls : List Nat) (db : DB), db.Wf → db.Settled →
    Shrinks db (compactLevels (fun _ => .none) lvls db).1
  | [], db, hw, hs => ⟨.refl hw hs, fun _ => List.Sublist.refl _⟩
  | lvl :: lvls, db, hw, hs => by
    have hc := shrinks_compactLevel hw hs (lvl : Int)
    rw [compactLevels]
    split
    · exact shrinks_compactLevels lvls db hw hs
    · split
      · rename_i hr
        rw [hr] at hc
        exact hc
      · rename_i hr
        rw [hr] at hc
        exact hc.trans (shrinks_compactLevels lvls _ hc.contents.wf hc.contents.settled)

theorem InOrder.shrinks (h : db.InOrder) (hs : Shrinks db db') : db'.InOrder := by
  refine ⟨hs.contents.wf, hs.contents.settled, h.memtables.sublist (fun key => ?_) hs.contents.onlyIndex.sequenceNumber.ge⟩
  rw [versions_bare, versions_bare, hs.contents.onlyIndex.memtables]

/-- The flush of the oldest memtable. -/
theorem InOrder.flushFront (h : db.InOrder) : (db.flushFront {}).InOrder ∧
    (∀ key, (db.flushFront {}).versions key = db.versions key) ∧ (db.flushFront {}).sequenceNumber = db.sequenceNumber := by
  obtain ⟨hw, hv, hi⟩ := versions_flushFront h.wf (f := {}) fun m _ => Or.inr ⟨rfl, fun _ _ => rfl, rfl, rfl⟩
  have hseq : (db.flushFront {}).sequenceNumber = db.sequenceNumber := hi.sequenceNumber
  refine ⟨⟨hw, ?_, h.memtables.sublist (fun key => ?_) hseq.ge⟩, hv, hseq⟩
  · rw [Settled, hseq]
    exact h.settled.congr (fun k => by rw [hv]) fun k e he => by rwa [hv] at he
  · rw [versions_bare, versions_bare, hi.memtables]
    exact ((List.reverse_sublist.mpr (List.tail_sublist _)).cons_cons db.memtable).filterMap _

/-- **A step of a session.** -/
theorem InOrder.exec (h : db.InOrder) (op : Op) : (db.exec op).InOrder ∧ (db.Strict → (db.exec op).Strict) := by
  cases op with
  | write sync batch =>
    have hs := write_logSteps db sync batch {}
    exact ⟨h.logSteps hs, fun hst => hst.logSteps h.wf hs⟩
  | flush =>
    obtain ⟨ho, hv, hseq⟩ := h.flushFront
    exact ⟨ho, fun hst => hst.sublist (fun key => (hv key).subst (List.Sublist.refl _)) hseq.ge⟩
  | compactLevel lvl =>
    have hs := shrinks_compactLevel h.wf h.settled lvl
    exact ⟨h.shrinks hs, fun hst => hst.sublist hs.sublist hs.contents.onlyIndex.sequenceNumber.ge⟩
  | compactRange =>
    have hs := shrinks_compactLevels (List.range (db.options.maxSstableLevels - 1)) db h.wf h.settled
    exact ⟨h.shrinks hs, fun hst => hst.sublist hs.sublist hs.contents.onlyIndex.sequenceNumber.ge⟩
  | runGC =>
    have hs := runGC_logSteps db .none
    exact ⟨h.logSteps hs, fun hst => hst.logSteps h.wf hs⟩

/-- **A session.** -/
theorem InOrder.run : ∀ (ops : List Op) (db : DB), db.InOrder →
    (db.run ops).InOrder ∧ (db.Strict → (db.run ops).Strict)
  | [], _, h => ⟨h, id⟩
  | op :: ops, db, h => by
    obtain ⟨h₁, hs₁⟩ := h.exec op
    obtain ⟨h₂, hs₂⟩ := InOrder.run ops (db.exec op) h₁
    exact ⟨h₂, fun hst => hs₂ (hs₁ hst)⟩

/-- Strict versions lie by age. -/
theorem Strict.byAge (h : db.Strict) (hw : db.Wf) : db.ByAge := by
  intro key
  have hp := (h key).1
  have htables : db.tableVersions key = (SplitKV.tableVersions (db.levels 0) key).reverse ++
      db.levels.versionsIn ((List.range db.options.maxSstableLevels).drop 1) key := by
    conv_lhs => rw [tableVersions, Levels.versions, Levels.range_eq_cons hw.levels.pos, Levels.versionsIn, List.flatMap_cons]
    rw [← tableVersions_reverse]
    rfl
  rw [versions, htables, ← List.append_assoc] at hp
  have hrev : (SplitKV.tableVersions (db.levels 0) key ++ memVersions (db.immutableMemtables ++ [db.memtable]) key).reverse =
      memVersions db.memtables key ++ (SplitKV.tableVersions (db.levels 0) key).reverse := by
    rw [List.reverse_append, ← memVersions_reverse, List.reverse_append]
    rfl
  have := (List.pairwise_append.mp hp).1
  rw [← hrev, List.pairwise_reverse] at this
  exact this

/-! ## Openings -/

/-- The replay queues no memtable. -/
theorem queue_replayWals (f : OpenFaults) (ids : List Nat) (db : DB) :
    (replayWals f 0 ids db).1.immutableMemtables = db.immutableMemtables := by
  have hrule := replayWals_induct
    (I := fun _ db' => db'.immutableMemtables = db.immutableMemtables ∧ db'.wal = db.wal)
    (J := fun db' => db'.immutableMemtables = db.immutableMemtables) db.wal.files f ids (fun _ db' hI => by rw [hI.2])
    (fun _ _ hI _ _ _ => hI) (fun _ _ hI _ _ _ => hI.1) ?_ ?_ ids 0 [] db ⟨rfl, rfl⟩ fun _ hid => hid
  · generalize replayWals f 0 ids db = x at hrule ⊢
    obtain ⟨db', r⟩ := x
    cases r with
    | error s => exact hrule
    | ok u => exact hrule.1
  · intro done db' i n hI hok
    have ho := onlyIndex_flush db' db'.memtable (f.flush i)
    exact ⟨ho.immutableMemtables.trans hI.1, ho.wal.trans hI.2⟩
  · intro done db' i hI hne
    exact (onlyIndex_flush db' db'.memtable (f.flush i)).immutableMemtables.trans hI.1

/-- An opening queues no memtable. -/
theorem queue_openDB (o : Options) (d : Disk) (f : OpenFaults) : (openDB o d f).1.immutableMemtables = [] := by
  unfold openDB
  split
  · rfl
  · split
    · rfl
    · rename_i next levels _
      have hq := queue_replayWals f (walIds (openState o d next levels).wal.files) (openState o d next levels)
      unfold recoverFromWAL
      simp only
      split
      · rename_i hr
        rw [hr] at hq
        exact hq
      · rename_i hr
        rw [hr] at hq
        exact hq

/-- A database that a session starts with: on an empty directory, or on files that a process left. -/
inductive JustOpened (o : Options) : DB → Prop
  | fresh (ho : 1 ≤ o.maxSstableLevels) : JustOpened o (fresh o)
  | reopened {d : Disk} (h : d.Recoverable o) (hl : o.maxSstableLevels < 2 ^ 31) (hs : (openDB o d .none).1.Small) :
    JustOpened o (openDB o d .none).1

theorem strict_fresh (o : Options) : (fresh o).Strict := by
  intro key
  rw [versions_fresh]
  exact ⟨List.Pairwise.nil, fun e he => absurd he List.not_mem_nil⟩

theorem JustOpened.inOrder {o : Options} (h : JustOpened o db) : db.InOrder := by
  cases h with
  | fresh ho =>
    refine ⟨(inv_fresh ho).wf, settled_fresh o, fun key => ?_⟩
    exact ⟨((strict_fresh o key).1).sublist (by rw [versions_bare]; exact List.sublist_append_left _ _),
      fun e he => (strict_fresh o key).2 e (by rw [versions_bare] at he; exact List.mem_append_left _ he)⟩
  | @reopened d h hl hs =>
    obtain ⟨hres, hok⟩ := openDB_spec h hl .none hs
    have ho := hres.opened (hok rfl)
    have hset := ho.settled
    refine ⟨ho.alive.inv.wf, hset, fun key => ?_⟩
    rw [versions_bare]
    refine ⟨?_, fun e he => (hset key).2.2 e (List.mem_append_left _ he)⟩
    rw [memtables, queue_openDB, List.reverse_nil, memVersions_singleton]
    cases (openDB o d .none).1.memtable.version key with
    | none => exact List.Pairwise.nil
    | some e => exact List.pairwise_singleton _ e

/-- A flush of a memtable without faults leaves a database that agrees with its files. -/
theorem Logged.flushMemTable (h : db.Logged) {m : MemTable} (hm : m ∈ db.memtables) :
    (db.flushMemTable m {}).1.Logged := by
  have hv := h.wf.memtables m hm
  have hd := drained_flush h.wf hv
  obtain ⟨levels, next, hdesc, hle, -, hok⟩ := flushMemTable_describes h.described hv {}
  obtain ⟨rfl, rfl⟩ := hok (flushMemTable_ok db hv)
  refine h.index hd.onlyIndex.sameLogs hd.wf ⟨hdesc, hle, fun l info hi => ?_⟩ fun x hx => ?_
  · rcases flushMemTable_levels db hv {} l info hi with hold | hnew
    · exact h.tables l info hold
    · rw [hnew]
      exact h.memtables m hm
  · rwa [hd.onlyIndex.memtables] at hx

theorem Logged.flushAll : ∀ (ms : List MemTable) (i : Nat) (db : DB), db.Logged → (∀ m ∈ ms, m ∈ db.memtables) →
    (DB.flushAll (fun _ => {}) i ms db).Logged
  | [], _, _, h, _ => h
  | m :: ms, i, db, h, hm => by
    have hmem := (drained_flush h.wf (h.wf.memtables m (hm m List.mem_cons_self))).onlyIndex.memtables
    exact Logged.flushAll ms (i + 1) _ (h.flushMemTable (hm m List.mem_cons_self)) fun x hx => by
      rw [hmem]
      exact hm x (List.mem_cons_of_mem _ hx)

/-- **The files behind a shutdown** can be opened again: the manifest lists the tables. -/
theorem Logged.destroy (h : db.Logged) (hs : (db.destroy fun _ => {}).Small) :
    (db.destroy fun _ => {}).Logged ∧ (db.destroy fun _ => {}).disk.Recoverable db.options := by
  have hl : (db.destroy fun _ => {}).Logged := by
    unfold DB.destroy
    have hmem := (drained_flush h.wf (h.wf.memtables _ List.mem_cons_self)).onlyIndex.memtables
    split
    · refine Logged.flushAll _ 1 _ (h.flushMemTable List.mem_cons_self) fun m hm => ?_
      rw [hmem]
      exact List.mem_cons_of_mem _ (List.mem_reverse.mpr hm)
    · exact Logged.flushAll _ 1 _ h fun m hm => List.mem_cons_of_mem _ (List.mem_reverse.mpr hm)
  refine ⟨hl, ?_⟩
  have := hl.recoverable hs
  rwa [(drained_destroy h.wf).onlyIndex.options] at this

/-! ## The shutdown of a session -/

/-- **The shutdown** of a session, at any time: the tables show the newest version of every key exactly when no key of the
active memtable is queued; level 0 is in the order of the ages as well exactly when it and the memtables were so before.
In a session on an empty directory they always are. -/
theorem shutdown_iff {o : Options} {db₀ : DB} (h : JustOpened o db₀) (ops : List Op) :
    ((db₀.run ops).ClosesNewest ↔ (db₀.run ops).NoneQueued) ∧
      ((db₀.run ops).ClosesNewest ∧ (db₀.run ops).ClosesByAge ↔ (db₀.run ops).NoneQueued ∧ (db₀.run ops).ByAge) ∧
      (db₀ = fresh o → (db₀.run ops).ByAge) := by
  obtain ⟨ho, hstrict⟩ := InOrder.run ops db₀ h.inOrder
  have hiff := ho.closesNewest_iff
  refine ⟨hiff, ?_, fun hf => ?_⟩
  · rw [hiff]
    exact and_congr_right fun hn => ho.closesByAge_iff hn
  · exact (hstrict (by rw [hf]; exact strict_fresh o)).byAge ho.wf

/-- A shutdown behind a flush: a key of the active memtable is in a table as well, but not in the queue. -/
theorem shutdown_iff_sample :
    let db := (fresh { memtableSizeLimit := 150 }).run
      [.write false [.put [1] [7], .put [2] [8]], .flush, .write false [.put [1] [9]]]
    db.ClosesNewest ∧ db.ClosesByAge := by
  intro db
  have hq : db.immutableMemtables = [] := List.length_eq_zero_iff.mp (by decide +kernel)
  have h := shutdown_iff (.fresh (o := { memtableSizeLimit := 150 }) (by decide))
    [.write false [.put [1] [7], .put [2] [8]], .flush, .write false [.put [1] [9]]]
  refine h.2.1.mpr ⟨fun key _ => ?_, h.2.2 rfl⟩
  rw [show memVersions db.immutableMemtables key = memVersions [] key by rw [hq]]
  rfl

/-- **A shutdown with a key of the active memtable in the queue**: the tables show the older version. -/
theorem shutdown_hides :
    let db := (fresh { memtableSizeLimit := 150 }).run [.write false [.put [1] [7], .put [2] [8]], .write false [.put [1] [9]]]
    (db.findLatest noFails [1]).map InternalEntry.sequence = some 4 ∧
      ((db.destroy fun _ => {}).findInTables noFails [1]).map InternalEntry.sequence = some 2 ∧
      (SplitKV.tableVersions ((db.destroy fun _ => {}).levels 0) [1]).map InternalEntry.sequence = [4, 2] ∧
      ¬db.ClosesNewest ∧ ¬db.ClosesByAge := by
  intro db
  have hage : (SplitKV.tableVersions ((db.destroy fun _ => {}).levels 0) [1]).map InternalEntry.sequence = [4, 2] := by
    decide +kernel
  refine ⟨by decide +kernel, by decide +kernel, hage, fun hc => ?_, fun hc => ?_⟩
  · have ho := (InOrder.run [.write false [.put [1] [7], .put [2] [8]], .write false [.put [1] [9]]]
      (fresh { memtableSizeLimit := 150 }) (JustOpened.fresh (by decide)).inOrder).1
    have hempty := ho.closesNewest_iff.mp hc [1] (Option.isSome_iff_ne_none.mp (by decide +kernel))
    have hone : (memVersions db.immutableMemtables [1]).length = 1 := by decide +kernel
    rw [show memVersions db.immutableMemtables [1] = [] from hempty] at hone
    cases hone
  · have hp := List.pairwise_map.mpr (hc [1])
    rw [hage] at hp
    exact absurd hp (by decide)

end DB

end SplitKV
