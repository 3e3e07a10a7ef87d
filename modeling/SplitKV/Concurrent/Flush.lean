import SplitKV.Concurrent.Compact

/-!
# The sections of the background flush

Between the registration of a table and the pop of its memtable, other threads may write and compact. The memtable can
be popped when the tables answer for it wherever no newer memtable does (`DB.Covered`, `DB.Covered.popFront`).
-/

namespace SplitKV

open Assoc Levels Versions

namespace DB

variable {db db' : DB}

/-- Where no newer memtable has a key of the memtable, the tables answer like the memtable. -/
def Covered (db : DB) (m : MemTable) : Prop :=
  ∀ key e, m.version key = some e → memVersions (db.memtable :: db.immutableMemtables.tail.reverse) key = [] →
    NewestFirst InternalEntry.sequence (db.tableVersions key) ∧
      shown InternalEntry.Gone (db.tableVersions key) = shown InternalEntry.Gone [e]

/-- An empty memtable is covered. -/
theorem covered_empty {m : MemTable} (hm : m.Valid) (hc : m.count = 0) : db.Covered m := by
  intro key e he
  rw [MemTable.version, hm.count_eq_zero.mp hc] at he
  cases he

/-- Writes keep a memtable covered. -/
theorem Covered.logSteps {m : MemTable} (h : db.Covered m) (hw : db.Wf) (hq : db.immutableMemtables.head? = some m)
    (hs : LogSteps db db') : db'.Covered m := by
  intro key e he hnil
  have ht := hs.sameTables
  obtain ⟨new, hqueue, hkept⟩ := hs.queueGrows hw
  obtain ⟨ms, hms⟩ : ∃ ms, db.immutableMemtables = m :: ms := List.head?_eq_some_iff.mp hq
  rw [tableVersions_congr ht.levels ht.options]
  refine h key e he ?_
  rw [hqueue, hms, List.cons_append, List.tail_cons, List.reverse_append, ← List.cons_append, memVersions,
    List.filterMap_append, List.append_eq_nil_iff] at hnil
  rw [hms, List.tail_cons, memVersions, List.filterMap_cons, hkept key hnil.1]
  exact hnil.2

/-- Compactions keep a memtable covered. -/
theorem Covered.mergeStep {m : MemTable} (h : db.Covered m) (hs : db.Settled) (hm : db.MergeStep db') : db'.Covered m := by
  intro key e he hnil
  rw [hm.onlyIndex.memtable, hm.onlyIndex.immutableMemtables] at hnil
  obtain ⟨hn, hshown⟩ := h key e he hnil
  have hc : Coherent InternalEntry.sequence (db.tableVersions key) :=
    (hs key).2.1.mono fun a ha => List.mem_append_right _ ha
  have hmerged := hm.merged key
  exact ⟨hmerged.newestFirst (P := []) hn hc, (hmerged.shown_eq (P := []) hn hc).trans hshown⟩

theorem popFront_subset {m : MemTable} {ms : List MemTable} (hq : db.immutableMemtables = m :: ms) (key : Key) :
    ∀ e ∈ db.popFront.versions key, e ∈ db.versions key := by
  intro e he
  rw [versions_popFront hq] at he
  rw [versions_front hq, List.append_assoc]
  rcases List.mem_append.mp he with he | he
  · exact List.mem_append_left _ he
  · exact List.mem_append_right _ (List.mem_append_right _ he)

/-- **The pop of a covered memtable** keeps what is visible. -/
theorem Covered.popFront {m : MemTable} (h : db.Covered m) (hs : db.Steady) (hq : db.immutableMemtables.head? = some m) :
    db.popFront.Steady ∧ ∀ key, db.popFront.visible key = db.visible key := by
  obtain ⟨ms, hms⟩ : ∃ ms, db.immutableMemtables = m :: ms := List.head?_eq_some_iff.mp hq
  have hfront := versions_front hms
  have hpop := versions_popFront hms
  have hsub := popFront_subset hms
  have hboth : ∀ key, NewestFirst InternalEntry.sequence (db.popFront.versions key) ∧
      db.popFront.visible key = db.visible key := by
    intro key
    have hn := (hs.settled key).1
    rw [visible, visible, hpop]
    rw [hfront] at hn ⊢
    cases hv : m.version key with
    | none =>
      rw [hv, Option.toList_none, List.append_nil] at hn
      rw [Option.toList_none, List.append_nil]
      exact ⟨hn, rfl⟩
    | some e =>
      rw [hv] at hn
      cases hp : memVersions (db.memtable :: ms.reverse) key with
      | nil =>
        have hnil : memVersions (db.memtable :: db.immutableMemtables.tail.reverse) key = [] := by
          rw [hms]
          exact hp
        obtain ⟨h₁, h₂⟩ := h key e hv hnil
        exact ⟨h₁, h₂⟩
      | cons a l =>
        rw [hp] at hn
        refine ⟨hn.congr rfl fun b hb => ?_, rfl⟩
        rcases List.mem_append.mp hb with hb | hb
        · exact List.mem_append_left _ (List.mem_append_left _ hb)
        · exact List.mem_append_right _ hb
  refine ⟨⟨hs.wf.popFront, fun key => ⟨(hboth key).1, (hs.settled key).2.1.mono (hsub key), fun e he => ?_⟩⟩,
    fun key => (hboth key).2⟩
  exact (hs.settled key).2.2 e (hsub key e he)

/-! ## The registration -/

/-- A registered table with the versions of the oldest memtable. -/
structure Registers (db : DB) (m : MemTable) (info : SSTableInfo) (db' : DB) : Prop where
  onlyIndex : db.OnlyIndex db'
  levels : db'.levels = setAt db.levels 0 (db.levels 0 ++ [info])
  wf : info.Wf
  fresh : ∀ i ∈ db.levels 0, i.tableMeta.fileId ≠ info.tableMeta.fileId
  next : info.tableMeta.fileId < db.nextSstableId
  version : ∀ key, info.version key = m.version key

theorem Registers.level0 {m : MemTable} {info : SSTableInfo} (h : Registers db m info db') :
    db'.levels 0 = db.levels 0 ++ [info] := by rw [h.levels, setAt_self]

theorem Registers.levels_of_ne {m : MemTable} {info : SSTableInfo} (h : Registers db m info db') {l : Nat} (hl : l ≠ 0) :
    db'.levels l = db.levels l := by rw [h.levels, setAt_of_ne _ hl]

theorem Registers.toWf {m : MemTable} {info : SSTableInfo} (h : Registers db m info db') (hw : db.Wf) : db'.Wf := by
  have hmem : ∀ l, ∀ i ∈ db'.levels l, i ∈ db.levels l ∨ i = info := by
    intro l i hi
    by_cases hl : l = 0
    · subst hl
      rw [h.level0] at hi
      exact (List.mem_append.mp hi).imp_right List.mem_singleton.mp
    · rw [h.levels_of_ne hl] at hi
      exact Or.inl hi
  have hpos := hw.levels.pos
  refine hw.of_index h.onlyIndex ⟨hpos, fun l i hi => ?_, fun l => ?_, fun l hl key => ?_, fun l hl => ?_⟩ fun l i hi => ?_
  · rcases hmem l i hi with hi | rfl
    · exact hw.levels.tables l i hi
    · exact h.wf
  · by_cases hl : l = 0
    · subst hl
      rw [h.level0, List.pairwise_append]
      refine ⟨hw.levels.ids 0, List.pairwise_singleton _ _, fun a ha b hb => ?_⟩
      rw [List.mem_singleton.mp hb]
      exact h.fresh a ha
    · rw [h.levels_of_ne hl]
      exact hw.levels.ids l
  · rw [h.levels_of_ne hl]
    exact hw.levels.unique l hl key
  · rw [h.levels_of_ne (by omega)]
    exact hw.levels.empty l hl
  · rcases hmem l i hi with hi | rfl
    · exact (hw.ids l i hi).trans_le h.onlyIndex.next
    · exact h.next.trans_le h.onlyIndex.next

/-- The versions of a key in the tables behind a registration. -/
theorem Registers.tableVersions {m : MemTable} {info : SSTableInfo} (h : Registers db m info db') (hw : db.Wf) (key : Key) :
    db'.tableVersions key = (m.version key).toList ++ db.tableVersions key := by
  have hreg : db'.tableVersions key = (db.registerTable info).tableVersions key := by
    rw [DB.tableVersions, DB.tableVersions, h.levels, h.onlyIndex.options]
    rfl
  rw [hreg, tableVersions_registerTable hw.levels, h.version]

theorem Registers.undisturbed {m : MemTable} {info : SSTableInfo} (h : Registers db m info db') (l : Nat) :
    db.Undisturbed l db' := by
  refine ⟨h.onlyIndex.options, h.onlyIndex.next, ?_, h.levels_of_ne (Nat.succ_ne_zero l), fun key hnone => ?_⟩
  · by_cases hl : l = 0
    · subst hl
      exact ⟨[info], h.level0, fun h0 => absurd rfl h0⟩
    · exact ⟨[], by rw [h.levels_of_ne hl, List.append_nil], fun _ => rfl⟩
  · have hsame : db'.levels.deeperVersions db.options.maxSstableLevels l key =
        db.levels.deeperVersions db.options.maxSstableLevels l key := by
      refine versionsIn_congr (fun d hd => ?_) key
      have := mem_drop_range hd
      exact h.levels_of_ne (by omega)
    rw [hsame]
    exact hnone

/-- The versions of a key behind a registration: the table repeats the version of the memtable. -/
theorem Registers.versions {m : MemTable} {info : SSTableInfo} (h : Registers db m info db') (hw : db.Wf)
    {ms : List MemTable} (hq : db.immutableMemtables = m :: ms) (key : Key) :
    db'.versions key = memVersions (db.memtable :: ms.reverse) key ++ (m.version key).toList ++
      ((m.version key).toList ++ db.tableVersions key) := by
  rw [versions_front (h.onlyIndex.immutableMemtables.trans hq), h.onlyIndex.memtable, h.tableVersions hw]

theorem Registers.subset {m : MemTable} {info : SSTableInfo} (h : Registers db m info db') (hw : db.Wf)
    {ms : List MemTable} (hq : db.immutableMemtables = m :: ms) (key : Key) : ∀ e ∈ db'.versions key, e ∈ db.versions key := by
  intro e he
  rw [h.versions hw hq] at he
  rw [versions_front hq]
  simp only [List.mem_append] at he ⊢
  rcases he with he | he | he
  · exact Or.inl he
  · exact Or.inl (Or.inr he)
  · exact Or.inr he

/-- **The registration** keeps what is visible, and the memtable is covered. -/
theorem Registers.covered {m : MemTable} {info : SSTableInfo} (h : Registers db m info db') (hs : db.Steady)
    (hq : db.immutableMemtables.head? = some m) :
    db'.Steady ∧ (∀ key, db'.visible key = db.visible key) ∧ db'.Covered m := by
  obtain ⟨ms, hms⟩ : ∃ ms, db.immutableMemtables = m :: ms := List.head?_eq_some_iff.mp hq
  have hold := versions_front hms
  have hhead : ∀ key, (db'.versions key).head? = (db.versions key).head? := by
    intro key
    rw [h.versions hs.wf hms, hold]
    cases memVersions (db.memtable :: ms.reverse) key with
    | nil => cases m.version key <;> rfl
    | cons a l => rfl
  refine ⟨⟨h.toWf hs.wf, ?_⟩, fun key => by rw [visible, visible, shown, shown, hhead], fun key e he hnil => ?_⟩
  · rw [Settled, h.onlyIndex.sequenceNumber]
    exact SettledBelow.congr hs.settled hhead (h.subset hs.wf hms)
  · rw [h.onlyIndex.immutableMemtables, hms, List.tail_cons, h.onlyIndex.memtable] at hnil
    have hn := (hs.settled key).1
    rw [hold, hnil, he] at hn
    rw [h.tableVersions hs.wf, he]
    exact ⟨hn, rfl⟩

/-! ## The sections -/

/-- What a section of the flush does: it leaves the levels alone, registers the table of the oldest memtable, or pops
the oldest memtable. -/
inductive FlushEffect (db db' : DB) : Prop
  | quiet (h : db.OnlyIndex db') (hl : db'.levels = db.levels)
  | register (m : MemTable) (info : SSTableInfo) (hq : db.immutableMemtables.head? = some m) (h : Registers db m info db')
  | pop (m : MemTable) (hq : db.immutableMemtables.head? = some m) (hc : db.Covered m) (h : db' = db.popFront)

theorem FlushEffect.undisturbed (h : FlushEffect db db') (l : Nat) : db.Undisturbed l db' := by
  cases h with
  | quiet h hl => exact undisturbed_of_levels h.options h.next hl l
  | register m info _ h => exact h.undisturbed l
  | pop _ _ _ h =>
    subst h
    have ho : db.popFront.options = db.options := rfl
    have hl : db.popFront.levels = db.levels := rfl
    exact undisturbed_of_levels ho (Nat.le_refl _) hl l

theorem FlushEffect.steady (h : FlushEffect db db') (hs : db.Steady) : db'.Steady ∧ ∀ key, db'.visible key = db.visible key := by
  cases h with
  | quiet h hl =>
    have hm := mergeStep_of_levels hs.wf h hl
    exact ⟨hm.steady hs, (hm.sameContents hs.settled).visible⟩
  | register m info hq h => exact ⟨(h.covered hs hq).1, (h.covered hs hq).2.1⟩
  | pop m hq hc h =>
    subst h
    exact hc.popFront hs hq

theorem FlushEffect.logs (h : FlushEffect db db') : db'.vlog = db.vlog ∧ db'.wal = db.wal := by
  cases h with
  | quiet h _ => exact ⟨h.vlog, h.wal⟩
  | register _ _ _ h => exact ⟨h.onlyIndex.vlog, h.onlyIndex.wal⟩
  | pop _ _ _ h =>
    subst h
    exact ⟨rfl, rfl⟩

theorem FlushEffect.subset (h : FlushEffect db db') (hs : db.Steady) (key : Key) :
    ∀ e ∈ db'.versions key, e ∈ db.versions key := by
  cases h with
  | quiet h hl => exact ((mergeStep_of_levels hs.wf h hl).sameContents hs.settled).subset key
  | register m info hq h =>
    obtain ⟨ms, hms⟩ := List.head?_eq_some_iff.mp hq
    exact h.subset hs.wf hms key
  | pop m hq _ h =>
    subst h
    obtain ⟨ms, hms⟩ := List.head?_eq_some_iff.mp hq
    exact popFront_subset hms key

end DB

/-- What the background flush relies on. -/
def Flusher.Inv (db : DB) : Flusher → Prop
  | .idle => True
  | .taken m => db.immutableMemtables.head? = some m
  | .allocated m fileId => db.immutableMemtables.head? = some m ∧ m.count ≠ 0 ∧ fileId < db.nextSstableId ∧
      ∀ info ∈ db.levels 0, info.tableMeta.fileId ≠ fileId
  | .registered m => db.immutableMemtables.head? = some m ∧ db.Covered m
  | .flushed m => db.immutableMemtables.head? = some m ∧ db.Covered m

section

variable {db db' : DB} {f : Flusher}

theorem Flusher.Inv.logSteps (h : f.Inv db) (hw : db.Wf) (hs : DB.LogSteps db db') : f.Inv db' := by
  have ht := hs.sameTables
  obtain ⟨new, hqueue, -⟩ := hs.queueGrows hw
  have hhead : ∀ {m}, db.immutableMemtables.head? = some m → db'.immutableMemtables.head? = some m := by
    intro m hm
    rw [hqueue, List.head?_append, hm]
    rfl
  cases f with
  | idle => trivial
  | taken m => exact hhead h
  | allocated m fileId =>
    obtain ⟨h₁, h₂, h₃, h₄⟩ := h
    exact ⟨hhead h₁, h₂, by rw [ht.next]; exact h₃, by rw [ht.levels]; exact h₄⟩
  | registered m => exact ⟨hhead h.1, h.2.logSteps hw h.1 hs⟩
  | flushed m => exact ⟨hhead h.1, h.2.logSteps hw h.1 hs⟩

theorem Flusher.Inv.mergeStep (h : f.Inv db) (hs : db.Settled) (hm : db.MergeStep db') : f.Inv db' := by
  have hq := hm.onlyIndex.immutableMemtables
  cases f with
  | idle => trivial
  | taken m =>
    have h : db.immutableMemtables.head? = some m := h
    show db'.immutableMemtables.head? = some m
    rwa [hq]
  | allocated m fileId =>
    obtain ⟨h₁, h₂, h₃, h₄⟩ := h
    exact ⟨by rwa [hq], h₂, h₃.trans_le hm.onlyIndex.next, fun info hi => h₄ info (hm.level0 info hi)⟩
  | registered m => exact ⟨by rw [hq]; exact h.1, h.2.mergeStep hs hm⟩
  | flushed m => exact ⟨by rw [hq]; exact h.1, h.2.mergeStep hs hm⟩

theorem DB.valid_front (hw : db.Wf) {m : MemTable} (hq : db.immutableMemtables.head? = some m) : m.Valid :=
  hw.memtables m (List.mem_cons_of_mem _ (List.mem_reverse.mpr (List.mem_of_mem_head? hq)))

/-- **A section of the flush.** -/
theorem DB.flushStep_spec (hs : db.Steady) (h : f.Inv db) :
    DB.FlushEffect db (db.flushStep f).1 ∧ (db.flushStep f).2.Inv (db.flushStep f).1 := by
  have hquiet := DB.FlushEffect.quiet (DB.OnlyIndex.refl db) rfl
  cases f with
  | idle =>
    unfold DB.flushStep
    cases hq : db.immutableMemtables with
    | nil => exact ⟨hquiet, trivial⟩
    | cons m ms =>
      refine ⟨hquiet, ?_⟩
      show db.immutableMemtables.head? = some m
      rw [hq]
      rfl
  | taken m =>
    have hq : db.immutableMemtables.head? = some m := h
    unfold DB.flushStep
    simp only
    split
    · rename_i hc
      exact ⟨hquiet, hq, DB.covered_empty (DB.valid_front hs.wf hq) hc⟩
    · rename_i hc
      refine ⟨.quiet ⟨rfl, Nat.le_succ _⟩ rfl, hq, hc, Nat.lt_succ_self _, fun info hi => ?_⟩
      exact (hs.wf.ids 0 info hi).ne
  | allocated m fileId =>
    obtain ⟨hq, hc, hlt, hfresh⟩ := h
    have hm := DB.valid_front hs.wf hq
    obtain ⟨w, w', file, he, hw, hfin⟩ := (DB.writeTable_spec db.options hm.sorted {}).1 ⟨fun _ _ => rfl, rfl⟩
    have hnil : m.getSortedEntries ≠ [] := fun h => hc (hm.count_eq_zero.mpr h)
    obtain ⟨w₁, file₁, hfin₁, -, hent, hinfo, hid, -⟩ := wf_of_finish hw hm.sorted hnil fileId 0
    rw [hfin] at hfin₁
    cases hfin₁
    simp only [DB.flushStep, he]
    have hr : DB.Registers db m ⟨w'.tableMeta fileId 0, .openFile file⟩
        (DB.registerTable { db with sst := (db.sst.create fileId none).write fileId (some file) }
          ⟨w'.tableMeta fileId 0, .openFile file⟩) := by
      refine ⟨⟨rfl, Nat.le_refl _⟩, rfl, hinfo, fun i hi => ?_, ?_, fun key => ?_⟩
      · rw [hid]
        exact hfresh i hi
      · rw [hid]
        exact hlt
      · exact congrArg (lookup key) hent
    exact ⟨.register m _ hq hr, hq, (hr.covered hs hq).2.2⟩
  | registered m =>
    obtain ⟨hi, hl, -⟩ := DB.saveManifest_spec db false
    have hm := DB.mergeStep_of_levels hs.wf hi hl
    exact ⟨.quiet hi hl, Flusher.Inv.mergeStep (f := .flushed m) h hs.settled hm⟩
  | flushed m => exact ⟨.pop m h.1 h.2 rfl, trivial⟩

end

end SplitKV
