import SplitKV.Concurrent.Flush
import SplitKV.Recovery.Open

/-!
# Runs of the threads

As long as no two compactions with a common level run at the same time, every step of a thread other than a write keeps
what `Get` returns for every key (`Sys.visible_by_writes`). A compaction of level 0 that checks the deeper levels just
before a compaction of level 1 moves an old version there brings the old version back (`Sys.compactions_resurrect`).
With one compaction at a time nothing of the kind happens, and its outputs are what they should be
(`Sys.compaction_keeps`).
-/

namespace SplitKV

open Assoc Levels Versions

namespace DB

/-- The state a session starts with: a new database, or a directory that was opened again. -/
inductive Opens : DB → Prop
  | fresh {o : Options} (ho : 1 ≤ o.maxSstableLevels) : Opens (fresh o)
  | reopened {o : Options} {d : Disk} (hd : d.Recoverable o) (hl : o.maxSstableLevels < 2 ^ 31) (f : OpenFaults)
      (hs : (openDB o d f).1.Small) (hok : (openDB o d f).2 = .ok ()) : Opens (openDB o d f).1

/-- The states of a running database: behind a session on an empty directory, whatever failed in it, or at the start of
any session. -/
inductive InSession : DB → Prop
  | session {o : Options} (ho : 1 ≤ o.maxSstableLevels) (ops : List FaultyOp) : InSession ((DB.fresh o).runFaulty ops)
  | opens {db : DB} (h : db.Opens) : InSession db

theorem Opens.spec {db : DB} (h : db.Opens) : db.Steady ∧ db.Inv := by
  cases h with
  | fresh ho => exact ⟨⟨(inv_fresh ho).wf, settled_fresh _⟩, inv_fresh ho⟩
  | reopened hd hl f hs hok =>
    have hopened := (openDB_spec hd hl f hs).1.opened hok
    exact ⟨⟨hopened.logged.wf, hopened.settled⟩, hopened.alive.inv⟩

theorem InSession.steady {db : DB} (h : db.InSession) : db.Steady := by
  cases h with
  | session ho ops => exact (Good.run ops _ (good_fresh ho)).steady
  | opens h => exact h.spec.1

end DB

namespace Act

/-- The step is a write. -/
def isWrite : Act → Bool
  | write _ _ => true
  | _ => false

/-- The step is one of a compaction. -/
def isCompaction : Act → Bool
  | startCompact _ _ => true
  | compact _ => true
  | _ => false

end Act

namespace Sys

/-- Every step of the run satisfies P in the state it is taken in. -/
def Along (P : Sys → Act → Prop) : Sys → List Act → Prop
  | _, [] => True
  | s, a :: acts => P s a ∧ Along P (s.step a) acts

/-- A compaction only starts while none with a common level waits for its installation. -/
def Apart (s : Sys) : Act → Prop
  | .startCompact _ lvl => ∀ t c, s.compactions t = some c → c.active = true → ApartLevels c.lvl lvl.toNat
  | _ => True

/-- A compaction only starts while no other one runs. -/
def Alone (s : Sys) : Act → Prop
  | .startCompact _ _ => ∀ t, s.compactions t = none
  | _ => True

theorem Alone.apart {s : Sys} {a : Act} (h : s.Alone a) : s.Apart a := by
  cases a with
  | startCompact t lvl =>
    intro t' c hc
    have hnone : s.compactions t' = none := h t'
    rw [hnone] at hc
    cases hc
  | _ => trivial

theorem Along.mono {P Q : Sys → Act → Prop} (hPQ : ∀ s a, P s a → Q s a) : ∀ (acts : List Act) (s : Sys),
    Along P s acts → Along Q s acts
  | [], _, _ => trivial
  | a :: acts, s, h => ⟨hPQ s a h.1, Along.mono hPQ acts (s.step a) h.2⟩

theorem along_append {P : Sys → Act → Prop} : ∀ (acts acts' : List Act) (s : Sys),
    Along P s (acts ++ acts') ↔ Along P s acts ∧ Along P (s.run acts) acts'
  | [], acts', s => ⟨fun h => ⟨trivial, h⟩, fun h => h.2⟩
  | a :: acts, acts', s => by
    have ih := along_append (P := P) acts acts' (s.step a)
    rw [List.cons_append, Along, Along, ih, run_cons, and_assoc]

/-! ## The invariant -/

/-- What the threads rely on. -/
structure Inv (s : Sys) : Prop where
  steady : s.db.Steady
  flusher : s.flusher.Inv s.db
  compactions : ∀ t c, s.compactions t = some c → c.Inv s.db
  apart : ∀ t t' c c', t ≠ t' → s.compactions t = some c → s.compactions t' = some c' → c.active = true →
    c'.active = true → ApartLevels c.lvl c'.lvl

/-- No thread is at work. -/
def start (db : DB) : Sys := { db := db }

theorem inv_start {db : DB} (h : db.Steady) : (start db).Inv := by
  refine ⟨h, trivial, fun t c hc => ?_, fun t t' c c' _ hc => ?_⟩
  · cases hc
  · cases hc

/-- Another compaction under the number `t`. -/
theorem Inv.apart_setAt {s : Sys} (h : s.Inv) {t : Nat} {c' : Option Compaction}
    (hnew : ∀ c, c' = some c → c.active = true → ∀ t' c₁, t' ≠ t → s.compactions t' = some c₁ → c₁.active = true →
      ApartLevels c₁.lvl c.lvl) {t₁ t₂ : Nat} {c₁ c₂ : Compaction} (hne : t₁ ≠ t₂)
    (hc₁ : setAt s.compactions t c' t₁ = some c₁) (hc₂ : setAt s.compactions t c' t₂ = some c₂) (h₁ : c₁.active = true)
    (h₂ : c₂.active = true) : ApartLevels c₁.lvl c₂.lvl := by
  rcases setAt_cases hc₁ with ⟨e₁, hc₁⟩ | ⟨n₁, hc₁⟩ <;> rcases setAt_cases hc₂ with ⟨e₂, hc₂⟩ | ⟨n₂, hc₂⟩
  · exact absurd (e₁.trans e₂.symm) hne
  · exact (hnew c₁ hc₁ h₁ t₂ c₂ n₂ hc₂ h₂).symm
  · exact hnew c₂ hc₂ h₂ t₁ c₁ n₁ hc₁ h₁
  · exact h.apart t₁ t₂ c₁ c₂ hne hc₁ hc₂ h₁ h₂

/-- **Steps of the logs and the memtables** keep the invariant. -/
theorem Inv.logSteps {s : Sys} (h : s.Inv) {db' : DB} (hl : DB.LogSteps s.db db') : ({ s with db := db' } : Sys).Inv := by
  have ht := hl.sameTables
  refine ⟨h.steady.logSteps hl, h.flusher.logSteps h.steady.wf hl, fun t c hc => ?_, h.apart⟩
  exact (h.compactions t c hc).undisturbed (DB.undisturbed_of_levels ht.options ht.next.ge ht.levels c.lvl)

/-- **A write** keeps the invariant. -/
theorem Inv.write {s : Sys} (h : s.Inv) (sync : Bool) (batch : WriteBatch) : (s.step (.write sync batch)).Inv :=
  h.logSteps (DB.write_logSteps s.db sync batch {})

/-- **A section of the flush** keeps the invariant. -/
theorem Inv.flush {s : Sys} (h : s.Inv) : (s.step .flush).Inv ∧ DB.FlushEffect s.db (s.step .flush).db := by
  obtain ⟨he, hf⟩ := DB.flushStep_spec h.steady h.flusher
  exact ⟨⟨(he.steady h.steady).1, hf, fun t c hc => (h.compactions t c hc).undisturbed (he.undisturbed c.lvl), h.apart⟩, he⟩

/-- **The start of a compaction** apart from the others keeps the invariant. -/
theorem Inv.startCompact {s : Sys} (h : s.Inv) {t : Nat} {lvl : Int} (ha : s.Apart (.startCompact t lvl)) :
    (s.step (.startCompact t lvl)).Inv ∧ (s.step (.startCompact t lvl)).db = s.db := by
  cases ht : s.compactions t with
  | some c =>
    rw [step_startCompact_running ht]
    exact ⟨h, rfl⟩
  | none =>
    rw [step_startCompact ht]
    refine ⟨⟨h.steady, h.flusher, fun t' c hc => ?_, fun t₁ t₂ c₁ c₂ => h.apart_setAt fun c hc _ t' c' _ hc' hact => ?_⟩, rfl⟩
    · rcases setAt_cases hc with ⟨-, hc⟩ | ⟨-, hc⟩
      · exact (DB.startCompact_spec hc).1
      · exact h.compactions t' c hc
    · rw [(DB.startCompact_spec hc).2.1]
      exact ha t' c' hc' hact

/-- Nothing is relied on behind the installation. -/
theorem inv_of_not_active {c : Compaction} (h : ¬c.active = true) (db : DB) : c.Inv db := by
  unfold Compaction.active at h
  unfold Compaction.Inv
  split at h <;> simp_all

/-- **A section of a compaction** keeps the invariant. -/
theorem Inv.compact {s : Sys} (h : s.Inv) (t : Nat) :
    (s.step (.compact t)).Inv ∧ s.db.MergeStep (s.step (.compact t)).db := by
  cases hc : s.compactions t with
  | none =>
    rw [step_compact_none hc]
    exact ⟨h, DB.mergeStep_of_levels h.steady.wf (DB.OnlyIndex.refl _) rfl⟩
  | some c =>
    obtain ⟨hm, hinv, hlvl, hact, -, hothers⟩ := DB.compactStep_spec h.steady.wf (h.compactions t c hc)
    rw [step_compact hc]
    refine ⟨⟨hm.steady h.steady, h.flusher.mergeStep h.steady.settled hm, fun t' c₁ hc₁ => ?_,
      fun t₁ t₂ c₁ c₂ => h.apart_setAt fun c₁ hc₁ h₁ t' c' hne hc' h' => ?_⟩, hm⟩
    · rcases setAt_cases hc₁ with ⟨-, hc₁⟩ | ⟨hne, hc₁⟩
      · exact hinv c₁ hc₁
      · by_cases ha : c₁.active = true
        · exact (h.compactions t' c₁ hc₁).undisturbed
            (hothers c₁.lvl fun hca => h.apart t t' c c₁ (Ne.symm hne) hc hc₁ hca ha)
        · exact inv_of_not_active ha _
    · rw [hlvl c₁ hc₁]
      exact h.apart t' t c' c hne hc' hc h' (hact c₁ hc₁ h₁)

theorem Inv.step {s : Sys} (h : s.Inv) {a : Act} (ha : s.Apart a) : (s.step a).Inv := by
  cases a with
  | write sync batch => exact h.write sync batch
  | flush => exact h.flush.1
  | startCompact t lvl => exact (h.startCompact ha).1
  | compact t => exact (h.compact t).1

theorem Inv.run : ∀ (acts : List Act) (s : Sys), s.Inv → Along Apart s acts → (s.run acts).Inv
  | [], _, h, _ => h
  | a :: acts, s, h, ha => Inv.run acts (s.step a) (h.step ha.1) ha.2

/-- What the steps of all threads but the writers keep. -/
structure Quiet (db db' : DB) : Prop where
  visible : ∀ key, db'.visible key = db.visible key
  subset : ∀ key, ∀ e ∈ db'.versions key, e ∈ db.versions key
  vlog : db'.vlog = db.vlog
  wal : db'.wal = db.wal

theorem Quiet.refl (db : DB) : Quiet db db := ⟨fun _ => rfl, fun _ _ he => he, rfl, rfl⟩

/-- A step that is no write keeps what is visible, and the logs. -/
theorem Inv.quiet {s : Sys} (h : s.Inv) {a : Act} (ha : s.Apart a) (hw : a.isWrite = false) :
    Quiet s.db (s.step a).db := by
  cases a with
  | write sync batch => cases hw
  | flush =>
    have he := h.flush.2
    exact ⟨(he.steady h.steady).2, he.subset h.steady, he.logs.1, he.logs.2⟩
  | startCompact t lvl =>
    rw [(h.startCompact ha).2]
    exact Quiet.refl s.db
  | compact t =>
    have hm := (h.compact t).2
    have hc := hm.sameContents h.steady.settled
    exact ⟨hc.visible, hc.subset, hm.onlyIndex.vlog, hm.onlyIndex.wal⟩

/-- A step that is no write keeps what `Get` returns. -/
theorem Inv.result {s : Sys} (h : s.Inv) {a : Act} (ha : s.Apart a) (hw : a.isWrite = false) (key : Key) :
    (s.step a).db.result key = s.db.result key := by
  have hq := h.quiet ha hw
  rw [DB.result_eq (h.step ha).steady.wf, DB.result_eq h.steady.wf, hq.visible, hq.vlog]

/-! ## Any number of compactions -/

/-- **Only writes change what `Get` returns**, as long as compactions with a common level do not overlap in time. -/
theorem visible_by_writes {db : DB} (h : db.InSession) (acts : List Act) (hs : Along Apart (start db) acts) {a : Act}
    (ha : ((start db).run acts).Apart a) (hw : a.isWrite = false) (key : Key) :
    (((start db).run acts).step a).db.result key = ((start db).run acts).db.result key :=
  (Inv.run acts _ (inv_start h.steady) hs).result ha hw key

/-- Compactions of the levels 0 and 2 side by side. -/
theorem visible_by_writes_sample : (((start (DB.fresh {})).run [.write true [.put [1] [7]], .startCompact 0 0,
    .startCompact 1 2, .flush]).step .flush).db.result [1] = ((start (DB.fresh {})).run [.write true [.put [1] [7]],
    .startCompact 0 0, .startCompact 1 2, .flush]).db.result [1] :=
  visible_by_writes (.session (by decide) []) [.write true [.put [1] [7]], .startCompact 0 0, .startCompact 1 2, .flush]
    ⟨trivial, fun _ _ hc => (by cases hc), fun t c hc _ => (by
      rcases setAt_cases hc with ⟨-, hc⟩ | ⟨-, hc⟩
      · rw [(DB.startCompact_spec hc).2.1]
        decide
      · cases hc), trivial, trivial⟩ (a := .flush) trivial rfl [1]

/-- A value at level 1 below a tombstone at level 0. -/
def deleted : List Act :=
  [.write false [.put [1] [7]], .flush, .flush, .flush, .flush, .flush, .startCompact 0 0, .compact 0, .compact 0,
    .compact 0, .compact 0, .compact 0, .compact 0, .compact 0, .write false [.delete [1]], .flush, .flush, .flush, .flush,
    .flush]

/-- A compaction of level 1 up to its installation, then one of level 0 up to its installation, then the installation of
the first one. -/
def race : List Act :=
  [.startCompact 1 1, .compact 1, .compact 1, .compact 1, .compact 1, .startCompact 0 0, .compact 0, .compact 0, .compact 0,
    .compact 0, .compact 1]

/-- **Two overlapping compactions** bring a deleted value back. -/
theorem compactions_resurrect :
    ((start (DB.fresh { memtableSizeLimit := 1, maxSstableLevels := 3, bloomBitsPerKey := 0 })).run
      (deleted ++ race)).db.result [1] = .error .notFound ∧
    (((start (DB.fresh { memtableSizeLimit := 1, maxSstableLevels := 3, bloomBitsPerKey := 0 })).run
      (deleted ++ race)).step (.compact 0)).db.result [1] = .ok [7] := by
  decide +kernel

/-! ## One compaction at a time -/

/-- The entry is the newest one that the inputs hold for the key. -/
def NewestInput (inputs : List SSTableInfo) (key : Key) (e : InternalEntry) : Prop :=
  (∃ info ∈ inputs, info.version key = some e) ∧
    ∀ info ∈ inputs, ∀ b, info.version key = some b → b.sequence ≤ e.sequence

/-- The outputs hold one entry of every key of the inputs, its newest one; only a tombstone without an older version in
a deeper level is left out. -/
structure OutputsRight (db : DB) (lvl : Nat) (inputs outputs : List SSTableInfo) : Prop where
  once : Sorted (entriesOf outputs)
  newest : ∀ p ∈ entriesOf outputs, NewestInput inputs p.1 p.2
  complete : ∀ info ∈ inputs, ∀ key, info.version key ≠ none → (∃ e, (key, e) ∈ entriesOf outputs) ∨
    ∃ e, NewestInput inputs key e ∧ e.Gone ∧ db.NoneDeeper lvl key

theorem newestInput_of_best {inputs : List SSTableInfo} {key : Key} {e : InternalEntry}
    (h : KMerge.best InternalEntry.sequence (inputs.map (fun info => info.reader.entries)) key = some e) :
    NewestInput inputs key e := best_spec h

theorem outputsRight {db : DB} (hw : db.Wf) {lvl : Nat} {inputsLvl inputsNext outputs : List SSTableInfo}
    (h : Installable db lvl inputsLvl inputsNext outputs) : OutputsRight db lvl (inputsLvl ++ inputsNext) outputs := by
  obtain ⟨-, hdone⟩ := h.installs hw
  refine ⟨hdone.sorted, fun p hp => ?_, fun info hi key hne => ?_⟩
  · have hl : lookup p.1 (entriesOf outputs) = some p.2 := hdone.sorted.lookup_eq_some_iff.mpr hp
    rcases hdone.keys p.1 with ⟨hk, -⟩ | ⟨hk, -⟩
    · exact newestInput_of_best (hk.symm.trans hl)
    · rw [hk] at hl
      cases hl
  · rcases hdone.keys key with ⟨hk, -⟩ | ⟨-, hnone, w, hw', hg⟩
    · cases hl : lookup key (entriesOf outputs) with
      | some e => exact Or.inl ⟨e, mem_of_lookup hl⟩
      | none =>
        rw [hl] at hk
        have hmem : info.version key ∈
            ((inputsLvl ++ inputsNext).map (fun info => info.reader.entries)).map (lookup key) :=
          List.mem_map.mpr ⟨info.reader.entries, List.mem_map_of_mem hi, rfl⟩
        exact absurd (Versions.bestOf_eq_none.mp hk.symm _ hmem) hne
    · exact Or.inr ⟨w, newestInput_of_best hw', hg, hnone⟩

/-- What a compaction is about to do is right. -/
structure CompactionRight (db : DB) (c : Compaction) : Prop where
  dropped : ∀ inputsNext st key e, c.phase = .checked inputsNext st key e true → e.Gone ∧ db.NoneDeeper c.lvl key
  outputs : ∀ inputsNext outputs, c.phase = .merged inputsNext outputs →
    OutputsRight db c.lvl (c.inputsLvl ++ inputsNext) outputs
  ends : (db.compactStep c).2 = none → ∃ inputsNext, c.phase = .saved inputsNext

theorem compactionRight {db : DB} (hw : db.Wf) {c : Compaction} (h : c.Inv db) : CompactionRight db c := by
  refine ⟨fun inputsNext st key e hp => ?_, fun inputsNext outputs hp => ?_, (DB.compactStep_spec hw h).ends⟩
  · unfold Compaction.Inv at h
    rw [hp] at h
    exact h.2.2 rfl
  · unfold Compaction.Inv at h
    rw [hp] at h
    exact outputsRight hw h

/-- **A compaction** keeps what `Get` returns at each of its steps, among any writes and flushes, and its outputs are
right. -/
theorem compaction_keeps {db : DB} (h : db.InSession) (acts : List Act) (hs : Along Alone (start db) acts) :
    (∀ a, a.isCompaction = true → ((start db).run acts).Alone a → ∀ key,
      (((start db).run acts).step a).db.result key = ((start db).run acts).db.result key) ∧
    ∀ t c, ((start db).run acts).compactions t = some c → CompactionRight ((start db).run acts).db c := by
  have hinv := Inv.run acts _ (inv_start h.steady) (Along.mono (fun _ _ => Alone.apart) acts _ hs)
  refine ⟨fun a ha hal key => ?_, fun t c hc => compactionRight hinv.steady.wf (hinv.compactions t c hc)⟩
  refine hinv.result hal.apart ?_ key
  cases a with
  | write sync batch => cases ha
  | flush => rfl
  | startCompact t lvl => rfl
  | compact t => rfl

/-- A compaction behind a write. -/
theorem compaction_keeps_sample : (((start (DB.fresh { memtableSizeLimit := 1 })).run
    [.write true [.put [1] [7]], .flush, .flush, .flush, .startCompact 0 0, .flush]).step (.compact 0)).db.result [1] =
    ((start (DB.fresh { memtableSizeLimit := 1 })).run
      [.write true [.put [1] [7]], .flush, .flush, .flush, .startCompact 0 0, .flush]).db.result [1] :=
  (compaction_keeps (.session (by decide) [])
    [.write true [.put [1] [7]], .flush, .flush, .flush, .startCompact 0 0, .flush]
    ⟨trivial, trivial, trivial, trivial, fun _ => rfl, trivial, trivial⟩).1 (.compact 0) rfl trivial [1]

end Sys

end SplitKV
