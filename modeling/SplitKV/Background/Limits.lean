import SplitKV.Faults.Run

/-!
# The limits of the levels

`BackgroundFlush` looks at the levels once behind every flush, from level 0 on, and compacts those that are too large. One
pass is enough: a compaction empties its level, and what it adds to the next one is looked at later in the same pass
(`backgroundFlush_within`). Nothing else adds tables to a level above the last one, so the levels are within their limits
behind every call (`levels_within_limits`).
-/

namespace SplitKV

/-- A step of a database that is served by its background thread: a call of the interface, or an iteration of
`BackgroundFlush`. Its compactions do not fail. -/
inductive Call
  | write (sync : Bool) (batch : WriteBatch) (f : WriteFaults)
  | compactRange
  | runGC (f : GcFaults)
  | backgroundFlush (f : FlushFaults)

namespace DB

/-- One step. -/
def call (db : DB) : Call → DB
  | .write sync batch f => (db.write sync batch f).1
  | .compactRange => (db.compactRange fun _ => .none).1
  | .runGC f => (db.runGC f).1
  | .backgroundFlush f => db.backgroundFlush f

/-- A run. -/
def serve (db : DB) (calls : List Call) : DB := calls.foldl call db

/-- No level above the last one needs a compaction. -/
def WithinLimits (db : DB) : Prop := ∀ l, l + 1 < db.options.maxSstableLevels → db.needsCompaction l = false

variable {db db' : DB}

/-! ## One level -/

theorem needsCompaction_nil {l : Nat} (h : db.levels l = []) : db.needsCompaction l = false := by
  unfold needsCompaction
  split
  · rename_i h0
    subst h0
    rw [h]
    rfl
  · rw [h]
    exact decide_eq_false (Nat.not_lt_zero _)

theorem needsCompaction_congr {l : Nat} (h : db'.levels l = db.levels l) : db'.needsCompaction l = db.needsCompaction l := by
  unfold needsCompaction
  by_cases h0 : l = 0
  · subst h0
    rw [if_pos rfl, if_pos rfl, h]
  · rw [if_neg h0, if_neg h0, h]

/-- What a compaction of a level leaves: the level is empty, and only the next one has changed besides. -/
structure Emptied (db db' : DB) (lvl : Nat) : Prop where
  options : db'.options = db.options
  wf : db'.Wf
  empty : db'.levels lvl = []
  others : ∀ l, l ≠ lvl → l ≠ lvl + 1 → db'.levels l = db.levels l

/-- **A compaction without faults** empties its level. -/
theorem emptied_compactLevel (hw : db.Wf) {lvl : Nat} (hlt : lvl + 1 < db.options.maxSstableLevels) :
    Emptied db (db.compactLevel lvl .none).1 lvl := by
  have he : db.compactLevel lvl .none = db.compactTables lvl .none := by
    rw [compactLevel, if_neg (by omega), Int.toNat_natCast]
  obtain ⟨hi, hres, hnone⟩ := compactTables_spec hw.levels hw.ids hlt .none
  rw [he]
  by_cases hnil : db.levels lvl = []
  · have hsame : db.compactTables lvl .none = (db, .ok ()) := by
      unfold compactTables
      exact if_pos hnil
    rw [hsame]
    exact ⟨rfl, hw, hnil, fun _ _ _ => rfl⟩
  · rw [if_pos ((hnone rfl).2 hnil)] at hres
    obtain ⟨outputs, hr⟩ := hres
    refine ⟨hi.options, hr.wf hw hi, ?_, fun l h₁ h₂ => ?_⟩
    · rw [hr.levels]
      exact Levels.install_lvl_eq hw.levels (List.append_nil _).symm
    · rw [hr.levels]
      exact Levels.install_of_ne h₁ h₂

/-! ## The pass over the levels -/

/-- **One pass** over the first levels brings them within their limits. -/
theorem autoCompact_within (hw : db.Wf) : ∀ n, n + 1 ≤ db.options.maxSstableLevels →
    (autoCompact (List.range n) db).Wf ∧ (autoCompact (List.range n) db).options = db.options ∧
      ∀ l < n, (autoCompact (List.range n) db).needsCompaction l = false
  | 0, _ => ⟨hw, rfl, fun l hl => absurd hl (Nat.not_lt_zero l)⟩
  | n + 1, hn => by
    obtain ⟨hw', ho, hbelow⟩ := autoCompact_within hw n (by omega)
    have hstep : autoCompact (List.range (n + 1)) db = if (autoCompact (List.range n) db).needsCompaction n then
        ((autoCompact (List.range n) db).compactLevel n .none).1 else autoCompact (List.range n) db := by
      rw [autoCompact, List.range_succ, List.foldl_append]
      rfl
    rw [hstep]
    split
    · have he := @emptied_compactLevel _ hw' n (by rw [ho]; omega)
      refine ⟨he.wf, he.options.trans ho, fun l hl => ?_⟩
      by_cases hln : l = n
      · exact needsCompaction_nil (hln ▸ he.empty)
      · -- the levels above are not touched any more
        rw [needsCompaction_congr (he.others l hln (by omega))]
        exact hbelow l (by omega)
    · rename_i hneed
      refine ⟨hw', ho, fun l hl => ?_⟩
      by_cases hln : l = n
      · subst hln
        exact Bool.eq_false_iff.mpr hneed
      · exact hbelow l (by omega)

/-- **An iteration of `BackgroundFlush`** that finds a memtable leaves the levels within their limits, whatever they held
before, and whether the flush fails or not. -/
theorem backgroundFlush_within (h : db.Good) (hq : db.immutableMemtables ≠ []) (f : FlushFaults) :
    (db.backgroundFlush f).options = db.options ∧ (db.backgroundFlush f).WithinLimits := by
  obtain ⟨m, ms, hq⟩ := List.exists_cons_of_ne_nil hq
  have hopt : (db.flushFront f).options = db.options := by
    rw [flushFront, hq]
    exact (onlyIndex_flush db m f).options
  have hpos := h.wf.levels.pos
  obtain ⟨-, ho, hall⟩ := autoCompact_within (h.flushFront f).wf (db.options.maxSstableLevels - 1) (by rw [hopt]; omega)
  rw [backgroundFlush, hq]
  refine ⟨ho.trans hopt, fun l hl => ?_⟩
  rw [ho, hopt] at hl
  exact hall l (by omega)

/-- The loop of `CompactRange` from level `k` on empties the levels it visits. -/
theorem compactLevels_empties : ∀ (n k : Nat) (db : DB), db.Wf → k + n + 1 ≤ db.options.maxSstableLevels →
    (∀ l < k, db.levels l = []) → (compactLevels (fun _ => .none) (List.range' k n) db).2 = .ok () ∧
      (compactLevels (fun _ => .none) (List.range' k n) db).1.options = db.options ∧
      ∀ l < k + n, (compactLevels (fun _ => .none) (List.range' k n) db).1.levels l = []
  | 0, _, _, _, _, h => ⟨rfl, rfl, h⟩
  | n + 1, k, db, hw, hn, h => by
    have hsplit : k + (n + 1) = k + 1 + n := by omega
    rw [List.range'_succ, compactLevels, hsplit]
    split
    · rename_i hnil
      refine compactLevels_empties n (k + 1) db hw (by omega) fun l hl => ?_
      by_cases hlk : l = k
      · exact hlk ▸ hnil
      · exact h l (by omega)
    · have he := @emptied_compactLevel db hw k (by omega)
      have hok : (db.compactLevel k .none).2 = .ok () := by
        rw [compactLevel, if_neg (by omega), Int.toNat_natCast]
        exact ((compactTables_spec hw.levels hw.ids (by omega) .none).2.2 rfl).1
      split
      · rename_i hr
        rw [hr] at hok
        cases hok
      · rename_i db₁ hr
        rw [hr] at he
        have ho := he.options
        obtain ⟨h₁, h₂, h₃⟩ := compactLevels_empties n (k + 1) db₁ he.wf (by rw [ho]; omega) fun l hl => by
          by_cases hlk : l = k
          · exact hlk ▸ he.empty
          · rw [he.others l hlk (by omega)]
            exact h l (by omega)
        exact ⟨h₁, h₂.trans ho, h₃⟩

/-- **`CompactRange`** leaves tables on the last level only. -/
theorem compactRange_empties (hw : db.Wf) : (db.compactRange fun _ => .none).2 = .ok () ∧
    (db.compactRange fun _ => .none).1.options = db.options ∧
    ∀ l, l + 1 < db.options.maxSstableLevels → (db.compactRange fun _ => .none).1.levels l = [] := by
  have hpos := hw.levels.pos
  obtain ⟨h₁, h₂, h₃⟩ := compactLevels_empties (db.options.maxSstableLevels - 1) 0 db hw (by omega) fun l hl =>
    absurd hl (Nat.not_lt_zero l)
  rw [compactRange, List.range_eq_range']
  exact ⟨h₁, h₂, fun l hl => h₃ l (by omega)⟩

/-! ## Runs -/

/-- Steps that leave the levels alone. -/
theorem WithinLimits.sameTables (h : db.WithinLimits) (hs : SameTables db db') : db'.WithinLimits := by
  intro l hl
  rw [hs.options] at hl
  rw [needsCompaction_congr (congrFun hs.levels l)]
  exact h l hl

theorem Good.autoCompact : ∀ (lvls : List Nat) (db : DB), db.Good → (DB.autoCompact lvls db).Good
  | [], _, h => h
  | lvl :: lvls, db, h => by
    rw [DB.autoCompact, List.foldl_cons]
    split
    · exact Good.autoCompact lvls _ (h.compactLevel lvl .none)
    · exact Good.autoCompact lvls db h

theorem Good.backgroundFlush (h : db.Good) (f : FlushFaults) : (db.backgroundFlush f).Good := by
  unfold DB.backgroundFlush
  split
  · exact h
  · exact Good.autoCompact _ _ (h.flushFront f)

/-- What every step of a run keeps. -/
structure Limited (o : Options) (db : DB) : Prop where
  good : db.Good
  options : db.options = o
  within : db.WithinLimits

/-- **Every step** leaves the levels within their limits. -/
theorem Limited.call {o : Options} (h : db.Limited o) (c : Call) : (db.call c).Limited o := by
  obtain ⟨hg, ho, hl⟩ := h
  cases c with
  | write sync batch f =>
    have hs := (write_logSteps db sync batch f).sameTables
    exact ⟨hg.write sync batch f, hs.options.trans ho, hl.sameTables hs⟩
  | compactRange =>
    obtain ⟨-, hopt, hnil⟩ := compactRange_empties hg.wf
    exact ⟨Good.compactLevels _ _ db hg, hopt.trans ho, fun l hl => needsCompaction_nil (hnil l (hopt ▸ hl))⟩
  | runGC f =>
    have hs := (runGC_logSteps db f).sameTables
    exact ⟨hg.runGC f, hs.options.trans ho, hl.sameTables hs⟩
  | backgroundFlush f =>
    by_cases hq : db.immutableMemtables = []
    · rw [DB.call, DB.backgroundFlush, hq]
      exact ⟨hg, ho, hl⟩
    · obtain ⟨hopt, hwithin⟩ := backgroundFlush_within hg hq f
      exact ⟨hg.backgroundFlush f, hopt.trans ho, hwithin⟩

theorem Limited.serve {o : Options} : ∀ (calls : List Call) (db : DB), db.Limited o → (db.serve calls).Limited o
  | [], _, h => h
  | c :: calls, _, h => Limited.serve calls _ (h.call c)

end DB

end SplitKV
