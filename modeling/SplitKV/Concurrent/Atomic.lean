import SplitKV.Concurrent.Run

/-!
# Threads that nothing interrupts

The sections of the background flush, one behind the other, are the flush of the front of the queue
(`Sys.flush_alone`), and those of a compaction are `CompactLevel` (`Sys.compact_alone`).
-/

namespace SplitKV

open Assoc Levels Versions

namespace Sys

/-- The run of one thread. -/
theorem run_replicate_succ (s : Sys) (a : Act) (n : Nat) :
    s.run (List.replicate (n + 1) a) = (s.step a).run (List.replicate n a) := rfl

theorem run_replicate_add (s : Sys) (a : Act) (n m : Nat) :
    s.run (List.replicate (n + m) a) = (s.run (List.replicate n a)).run (List.replicate m a) := by
  rw [List.replicate_add, run_append]

/-! ## The flush -/

/-- **The sections of a flush** are the flush of the front of the queue. -/
theorem flush_alone {db : DB} (hs : db.Steady) :
    ∃ n, (start db).run (List.replicate n .flush) = start (db.flushFront {}) := by
  cases hq : db.immutableMemtables with
  | nil =>
    refine ⟨0, ?_⟩
    rw [DB.flushFront, hq]
    rfl
  | cons m ms =>
    have hm : m.Valid := DB.valid_front hs.wf (by rw [hq]; rfl)
    have h₁ : (start db).step .flush = { db := db, flusher := .taken m } := by
      simp only [step, start, DB.flushStep, hq]
    by_cases hc : m.count = 0
    · refine ⟨3, ?_⟩
      have h₂ : ({ db := db, flusher := .taken m } : Sys).step .flush = { db := db, flusher := .flushed m } := by
        simp only [step, DB.flushStep, hc, if_true]
      rw [run_replicate_succ, h₁, run_replicate_succ, h₂]
      simp only [DB.flushFront, hq, DB.flushMemTable, hc, if_true]
      rfl
    · refine ⟨5, ?_⟩
      have h₂ : ({ db := db, flusher := .taken m } : Sys).step .flush =
          { db := { db with nextSstableId := db.nextSstableId + 1 }, flusher := .allocated m db.nextSstableId } := by
        simp only [step, DB.flushStep, hc, if_false]
      obtain ⟨w, w', file, he, -⟩ := (DB.writeTable_spec db.options hm.sorted {}).1 ⟨fun _ _ => rfl, rfl⟩
      rw [run_replicate_succ, h₁, run_replicate_succ, h₂, run_replicate_succ]
      simp only [step, DB.flushStep, he, DB.flushFront, hq, DB.flushMemTable, hc, if_false]
      rfl

/-! ## A compaction -/

section Compaction

variable {db : DB} {lvl : Nat} {inputsLvl inputsNext : List SSTableInfo}

/-- The system with one compaction. -/
def one (db : DB) (c : Compaction) : Sys := { start db with compactions := setAt (fun _ => none) 0 (some c) }

theorem setAt_setAt {α : Type} (f : Nat → α) (id : Nat) (a b : α) : setAt (setAt f id a) id b = setAt f id b := by
  funext i
  unfold setAt
  split <;> rfl

theorem step_one {c c' : Compaction} {db' : DB} (h : db.compactStep c = (db', some c')) :
    (one db c).step (.compact 0) = one db' c' := by
  have hc : (one db c).compactions 0 = some c := setAt_self (fun _ => none) 0 (some c)
  have hdb : (one db c).db = db := rfl
  rw [step_compact hc, hdb, h]
  simp only [one, setAt_setAt]
  rfl

theorem step_one_last {c : Compaction} {db' : DB} (h : db.compactStep c = (db', none)) :
    (one db c).step (.compact 0) = start db' := by
  have hc : (one db c).compactions 0 = some c := setAt_self (fun _ => none) 0 (some c)
  have hdb : (one db c).db = db := rfl
  have hnone : setAt (fun _ => (none : Option Compaction)) 0 none = fun _ => none := by
    funext i
    unfold setAt
    split <;> rfl
  rw [step_compact hc, hdb, h]
  simp only [one, start, setAt_setAt, hnone]

/-- **The rounds of the merge loop** are sections of the compaction. -/
theorem merge_alone : ∀ (n : Nat) (db : DB) (st : MergeState), db.Wf → Merging db lvl inputsLvl inputsNext st →
    KMerge.size (st.iters.map Iterator.view) < n → ∃ k db' st',
      DB.mergeLoop .none lvl n db st = (db', .ok st') ∧
        (one db ⟨lvl, inputsLvl, .merging inputsNext st⟩).run (List.replicate k (.compact 0)) =
          one db' ⟨lvl, inputsLvl, .merged inputsNext st'.outputs⟩
  | 0, _, _, _, _, hn => by omega
  | n + 1, db, st, hw, h, hn => by
    rw [DB.mergeLoop]
    cases hp : st.pick with
    | none =>
      obtain ⟨st', hst, -⟩ := h.finish hp
      refine ⟨1, _, st', hst, ?_⟩
      have hstep : db.compactStep ⟨lvl, inputsLvl, .merging inputsNext st⟩ =
          ((db.mergeEnd .none lvl st).1, some ⟨lvl, inputsLvl, .merged inputsNext st'.outputs⟩) := by
        simp only [DB.compactStep, hp]
        rw [hst]
      exact step_one hstep
    | some x =>
      obtain ⟨key, e⟩ := x
      obtain ⟨st₁, hst, ht, hm⟩ := h.round hp (noneDeeper_of_drop hw)
      obtain ⟨dropped, hinv⟩ := h.merge
      have hlt : KMerge.size (st₁.iters.map Iterator.view) < n := by
        have hround := (hinv.round db .none lvl hp (noneDeeper_of_drop hw) (fun _ _ => trivial)).2.1 st₁
          (congrArg Prod.snd hst)
        have := MergeInv.size_lt hinv hp hround.2.2
        omega
      obtain ⟨k, db', st', hloop, hrun⟩ :=
        merge_alone n _ st₁ (hw.sameLevels ht.onlyIndex ht.levels) hm hlt
      refine ⟨k + 2, db', st', ?_, ?_⟩
      · simp only
        rw [hst]
        exact hloop
      · rw [run_replicate_succ, run_replicate_succ]
        have h₁ : (one db ⟨lvl, inputsLvl, .merging inputsNext st⟩).step (.compact 0) =
            one db ⟨lvl, inputsLvl, .checked inputsNext st key e (db.dropEntry .none lvl key e)⟩ := by
          refine step_one ?_
          simp only [DB.compactStep, hp]
        have h₂ : (one db ⟨lvl, inputsLvl, .checked inputsNext st key e (db.dropEntry .none lvl key e)⟩).step (.compact 0) =
            one (db.mergeRound .none lvl st key e (db.dropEntry .none lvl key e)).1
              ⟨lvl, inputsLvl, .merging inputsNext st₁⟩ := by
          refine step_one ?_
          simp only [DB.compactStep]
          rw [hst]
        rw [h₁, h₂]
        exact hrun

/-- **The sections of a compaction** are `CompactLevel`. -/
theorem compact_alone (hw : db.Wf) (lvl : Int) : ∃ n,
    (start db).run (.startCompact 0 lvl :: List.replicate n (.compact 0)) = start (db.compactLevel lvl .none).1 := by
  have hnone : setAt (fun _ => (none : Option Compaction)) 0 none = fun _ => none := by
    funext i
    unfold setAt
    split <;> rfl
  have hstart : (start db).step (.startCompact 0 lvl) =
      { start db with compactions := setAt (fun _ => none) 0 (db.startCompact lvl) } := step_startCompact rfl
  rw [DB.compactLevel]
  unfold DB.startCompact at hstart
  split
  · rename_i hl
    refine ⟨0, ?_⟩
    rw [run_cons, hstart, if_pos hl, hnone]
    rfl
  · rename_i hl
    rw [if_neg hl] at hstart
    rw [DB.compactTables]
    simp only
    by_cases hnil : db.levels lvl.toNat = []
    · refine ⟨0, ?_⟩
      rw [run_cons, hstart, if_pos hnil, if_pos hnil, hnone]
      rfl
    · rw [if_neg hnil] at hstart
      have hsel : Selected db lvl.toNat (db.levels lvl.toNat) :=
        ⟨by omega, [], (List.append_nil _).symm, fun _ => rfl⟩
      obtain ⟨its, hits, hm⟩ := hsel.open hw
      have hsize : KMerge.size (its.map Iterator.view) <
          MergeState.rounds (db.levels lvl.toNat ++ db.inputsNext lvl.toNat (db.levels lvl.toNat)) := by
        obtain ⟨-, hv⟩ := openIterators_ok (hm.toOverlaps.wf hw) 0 its hits
        have h₁ := size_filter_le (deliveredRuns (fun _ _ => none) 0
          (db.levels lvl.toNat ++ db.inputsNext lvl.toNat (db.levels lvl.toNat)))
        have h₂ := size_deliveredRuns_le (fun _ _ => none)
          (db.levels lvl.toNat ++ db.inputsNext lvl.toNat (db.levels lvl.toNat)) 0
        rw [hv, MergeState.rounds]
        omega
      obtain ⟨k, db', st', hloop, hrun⟩ := merge_alone _ db _ hw hm hsize
      refine ⟨1 + k + 3, ?_⟩
      have hits' : openIterators CompactFaults.none.read 0
          (db.levels lvl.toNat ++ db.inputsNext lvl.toNat (db.levels lvl.toNat)) = .ok its := hits
      rw [if_neg hnil, hits', run_cons, hstart]
      simp only [hloop]
      rw [run_replicate_add, run_replicate_add]
      have hstep : db.compactStep ⟨lvl.toNat, db.levels lvl.toNat, .selected⟩ = (db, some ⟨lvl.toNat,
          db.levels lvl.toNat, .merging (db.inputsNext lvl.toNat (db.levels lvl.toNat)) { iters := its }⟩) := by
        simp only [DB.compactStep, hits]
      have hopen : (one db ⟨lvl.toNat, db.levels lvl.toNat, .selected⟩).run (List.replicate 1 (.compact 0)) =
          one db ⟨lvl.toNat, db.levels lvl.toNat,
            .merging (db.inputsNext lvl.toNat (db.levels lvl.toNat)) { iters := its }⟩ := step_one hstep
      have hone : ({ start db with
          compactions := setAt (fun _ => none) 0 (some ⟨lvl.toNat, db.levels lvl.toNat, .selected⟩) } : Sys) =
            one db ⟨lvl.toNat, db.levels lvl.toNat, .selected⟩ := rfl
      rw [hone, hopen, hrun, run_replicate_succ, run_replicate_succ, run_replicate_succ, step_one rfl, step_one rfl,
        step_one_last rfl]
      rfl

end Compaction

end Sys

end SplitKV
