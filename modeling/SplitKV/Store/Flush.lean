import SplitKV.Store.Write

/-!
# Flushes keep the invariant

A flush registers one table with the entries of the memtable, unless a step before the registration fails
(`flushMemTable_registers`, `flushMemTable_fails`). The pop behind a flush that registered its table keeps what is
visible (`flushFront_spec`).
-/

namespace SplitKV

open Assoc

/-- Every step before the registration of the table succeeds. -/
def FlushFaults.Registers (f : FlushFaults) (m : MemTable) : Prop :=
  f.openFile = false ∧ (∀ i < m.getSortedEntries.length, f.add i = false) ∧ f.finish = false ∧ f.reader = false

instance (f : FlushFaults) (m : MemTable) : Decidable (f.Registers m) :=
  inferInstanceAs (Decidable (_ ∧ _ ∧ _ ∧ _))

/-- The entries are added one by one; the first append that fails ends the loop. -/
theorem SSTableWriter.Wrote.addAll (fault : Nat → Bool) : ∀ (rest : List (Key × InternalEntry)) (i : Nat)
    (w : SSTableWriter) (l : List (Key × InternalEntry)), w.Wrote l → Sorted (l ++ rest) →
      ((∀ j < rest.length, fault (i + j) = false) →
        ∃ w', SSTableWriter.addAll fault i rest w = .ok w' ∧ w'.Wrote (l ++ rest)) ∧
      ((∃ j < rest.length, fault (i + j) = true) → ∃ s, SSTableWriter.addAll fault i rest w = .error s)
  | [], i, w, l, hw, _ => by
    refine ⟨fun _ => ⟨w, rfl, by rw [List.append_nil]; exact hw⟩, fun ⟨j, hj, _⟩ => ?_⟩
    exact absurd hj (Nat.not_lt_zero j)
  | p :: rest, i, w, l, hw, hs => by
    rw [List.append_cons] at hs
    obtain ⟨w₁, ha, hw₁⟩ := hw.add (sorted_append.mp hs).1
    obtain ⟨h₁, h₂⟩ := addAll fault rest (i + 1) w₁ (l ++ [p]) hw₁ hs
    rw [SSTableWriter.addAll, ha]
    refine ⟨fun hf => ?_, fun ⟨j, hj, hf⟩ => ?_⟩
    · rw [show fault i = false from hf 0 (Nat.zero_lt_succ _), List.append_cons]
      exact h₁ fun j hj => by
        rw [Nat.add_right_comm]
        exact hf (j + 1) (Nat.succ_lt_succ hj)
    · cases h0 : fault i with
      | true => exact ⟨_, if_pos rfl⟩
      | false =>
        cases j with
        | zero => rw [Nat.add_zero, h0] at hf; cases hf
        | succ j => exact h₂ ⟨j, Nat.lt_of_succ_lt_succ hj, by rwa [Nat.add_right_comm]⟩

namespace DB

/-- The table file of a memtable. -/
theorem writeTable_spec (o : Options) {l : List (Key × InternalEntry)} (hs : Sorted l) (f : FlushFaults) :
    ((∀ i < l.length, f.add i = false) ∧ f.finish = false →
      ∃ (w w' : SSTableWriter) (file : SSTableFile), writeTable o l f = .ok (w', file) ∧ w.Wrote l ∧ w.finish = .ok (w', file)) ∧
    (¬((∀ i < l.length, f.add i = false) ∧ f.finish = false) → ∃ s, writeTable o l f = .error s) := by
  obtain ⟨h₁, h₂⟩ := SSTableWriter.Wrote.addAll f.add l 0 _ [] (SSTableWriter.wrote_new o) hs
  simp only [Nat.zero_add, List.nil_append] at h₁ h₂
  refine ⟨fun ⟨ha, hf⟩ => ?_, fun hn => ?_⟩
  · obtain ⟨w, he, hw⟩ := h₁ ha
    obtain ⟨w', file, hfin, -⟩ := hw.finish hs
    refine ⟨w, w', file, ?_, hw, hfin⟩
    simp [writeTable, he, hf, hfin]
  · by_cases ha : ∀ i < l.length, f.add i = false
    · obtain ⟨w, he, hw⟩ := h₁ ha
      have hf : f.finish = true := by
        by_contra h
        exact hn ⟨ha, by simpa using h⟩
      exact ⟨.IOError "fwrite", by simp [writeTable, he, hf]⟩
    · push Not at ha
      obtain ⟨i, hi, hf⟩ := ha
      obtain ⟨s, he⟩ := h₂ ⟨i, hi, by simpa using hf⟩
      exact ⟨s, by simp [writeTable, he]⟩

/-- A flush changes the index at most. -/
theorem onlyIndex_flush (db : DB) (m : MemTable) (f : FlushFaults) : db.OnlyIndex (db.flushMemTable m f).1 := by
  unfold DB.flushMemTable
  split
  · exact OnlyIndex.refl db
  simp only
  split
  · exact ⟨rfl, Nat.le_succ _⟩
  split
  · exact ⟨rfl, Nat.le_succ _⟩
  split
  · exact ⟨rfl, Nat.le_succ _⟩
  exact OnlyIndex.trans ⟨rfl, Nat.le_succ _⟩ (saveManifest_spec _ f.manifest).1

/-- What a flush that registers its table leaves. -/
structure Flushed (db : DB) (m : MemTable) (db' : DB) (info : SSTableInfo) : Prop where
  onlyIndex : db.OnlyIndex db'
  next : db'.nextSstableId = db.nextSstableId + 1
  levels : db'.levels = setAt db.levels 0 (db.levels 0 ++ [info])
  wf : info.Wf
  fileId : info.tableMeta.fileId = db.nextSstableId
  entries : info.reader.entries = m.getSortedEntries

/-- **A flush registers a table** with the entries of the memtable. -/
theorem flushMemTable_registers (db : DB) {m : MemTable} (hm : m.Valid) (hne : m.count ≠ 0) {f : FlushFaults}
    (hf : f.Registers m) : (∃ info, Flushed db m (db.flushMemTable m f).1 info) ∧
      (f.manifest = false → (db.flushMemTable m f).2 = .ok ()) := by
  obtain ⟨hopen, hadd, hfin, hreader⟩ := hf
  obtain ⟨w, w', file, he, hw, hfinish⟩ := (writeTable_spec db.options hm.sorted f).1 ⟨hadd, hfin⟩
  have hnil : m.getSortedEntries ≠ [] := fun h => hne (hm.count_eq_zero.mpr h)
  obtain ⟨w₁, file₁, hfinish₁, -, hent, hinfo, hid, -⟩ := wf_of_finish hw hm.sorted hnil db.nextSstableId 0
  rw [hfinish] at hfinish₁
  cases hfinish₁
  unfold flushMemTable
  simp only [hne, if_false, hopen, Bool.false_eq_true, he, hreader]
  generalize hd : ({ db with
    nextSstableId := db.nextSstableId + 1
    sst := (db.sst.create db.nextSstableId none).write db.nextSstableId (some file)
    levels := setAt db.levels 0 (db.levels 0 ++ [⟨w'.tableMeta db.nextSstableId 0, .openFile file⟩]) } : DB) = db₁
  have h₁ : db.OnlyIndex db₁ := by subst hd; exact ⟨rfl, Nat.le_succ _⟩
  obtain ⟨s₁, s₂, s₃⟩ := saveManifest_spec db₁ f.manifest
  refine ⟨⟨_, h₁.trans s₁, by rw [s₃, ← hd], by rw [s₂, ← hd], hinfo, hid, hent⟩, fun hmf => ?_⟩
  rw [saveManifest, hmf]
  rfl

/-- **A flush that fails before the registration** leaves the levels alone. -/
theorem flushMemTable_fails (db : DB) {m : MemTable} (hm : m.Valid) (hne : m.count ≠ 0) {f : FlushFaults}
    (hf : ¬f.Registers m) : db.OnlyIndex (db.flushMemTable m f).1 ∧ (db.flushMemTable m f).1.levels = db.levels ∧
      ∃ s, (db.flushMemTable m f).2 = .error s := by
  unfold flushMemTable
  simp only [hne, if_false]
  cases hopen : f.openFile with
  | true => exact ⟨⟨rfl, Nat.le_succ _⟩, rfl, _, rfl⟩
  | false =>
    simp only [Bool.false_eq_true, if_false]
    by_cases hw : (∀ i < m.getSortedEntries.length, f.add i = false) ∧ f.finish = false
    · obtain ⟨w, w', file, he, -⟩ := (writeTable_spec db.options hm.sorted f).1 hw
      have hr : f.reader = true := by
        by_contra h
        exact hf ⟨hopen, hw.1, hw.2, by simpa using h⟩
      simp only [he, hr, if_true]
      exact ⟨⟨rfl, Nat.le_succ _⟩, trivial, _, rfl⟩
    · obtain ⟨s, he⟩ := (writeTable_spec db.options hm.sorted f).2 hw
      simp only [he]
      exact ⟨⟨rfl, Nat.le_succ _⟩, trivial, _, rfl⟩

/-- A state in which only the index changed is well formed when its levels are, and its table ids are below the
next one. -/
theorem Wf.of_index {db db' : DB} (h : db.Wf) (hi : db.OnlyIndex db') (hl : db'.levels.Wf db.options.maxSstableLevels)
    (hids : ∀ l, ∀ info ∈ db'.levels l, info.tableMeta.fileId < db'.nextSstableId) : db'.Wf where
  memtables := by rw [DB.memtables, hi.memtable, hi.immutableMemtables]; exact h.memtables
  levels := by rw [hi.options]; exact hl
  ids := hids

theorem Wf.sameLevels {db db' : DB} (h : db.Wf) (hi : db.OnlyIndex db') (hl : db'.levels = db.levels) : db'.Wf :=
  h.of_index hi (hl ▸ h.levels) fun l info hm => (h.ids l info (hl ▸ hm)).trans_le hi.next

theorem Flushed.version {db db' : DB} {m : MemTable} {info : SSTableInfo} (h : Flushed db m db' info) (key : Key) :
    info.version key = m.version key := by
  rw [SSTableInfo.version, h.entries, MemTable.version]

/-- The tables behind a flush: the old ones, and the new one on level 0. -/
theorem Flushed.mem_levels {db db' : DB} {m : MemTable} {info : SSTableInfo} (h : Flushed db m db' info) {l : Nat}
    {i : SSTableInfo} (hi : i ∈ db'.levels l) : i ∈ db.levels l ∨ l = 0 ∧ i = info := by
  rw [h.levels] at hi
  unfold setAt at hi
  split at hi
  · rename_i hl
    subst hl
    rcases List.mem_append.mp hi with hi | hi
    · exact Or.inl hi
    · exact Or.inr ⟨rfl, List.mem_singleton.mp hi⟩
  · exact Or.inl hi

/-- The levels behind a flush are well formed. -/
theorem Flushed.wf_levels {db db' : DB} {m : MemTable} {info : SSTableInfo} (h : Flushed db m db' info)
    (hw : db.levels.Wf db.options.maxSstableLevels)
    (hids : ∀ l, ∀ info ∈ db.levels l, info.tableMeta.fileId < db.nextSstableId) :
    db'.levels.Wf db.options.maxSstableLevels := by
  have hne : ∀ {l : Nat}, l ≠ 0 → db'.levels l = db.levels l := fun hl => by rw [h.levels, setAt_of_ne _ hl]
  have h0 : db'.levels 0 = db.levels 0 ++ [info] := by rw [h.levels, setAt_self]
  refine ⟨hw.pos, fun l i hi => ?_, fun l => ?_, fun l hl key => ?_, fun l hl => ?_⟩
  · rcases h.mem_levels hi with hi | ⟨-, rfl⟩
    · exact hw.tables l i hi
    · exact h.wf
  · by_cases hl : l = 0
    · subst hl
      rw [h0, List.pairwise_append]
      refine ⟨hw.ids 0, List.pairwise_singleton _ _, fun a ha b hb => ?_⟩
      rw [List.mem_singleton.mp hb, h.fileId]
      exact Nat.ne_of_lt (hids 0 a ha)
    · rw [hne hl]
      exact hw.ids l
  · rw [hne hl]
    exact hw.unique l hl key
  · have hpos := hw.pos
    rw [hne (by omega)]
    exact hw.empty l hl

/-- A table is registered. -/
theorem Flushed.wf_state {db db' : DB} {m : MemTable} {info : SSTableInfo} (h : Flushed db m db' info) (hw : db.Wf) :
    db'.Wf := by
  refine hw.of_index h.onlyIndex (h.wf_levels hw.levels hw.ids) fun l i hi => ?_
  rw [h.next]
  rcases h.mem_levels hi with hi | ⟨-, rfl⟩
  · exact Nat.lt_succ_of_lt (hw.ids l i hi)
  · rw [h.fileId]
    exact Nat.lt_succ_self _

theorem Wf.popFront {db : DB} (h : db.Wf) : db.popFront.Wf := by
  refine ⟨fun m hm => ?_, h.levels, h.ids⟩
  rcases List.mem_cons.mp hm with rfl | hm
  · exact h.memtables _ List.mem_cons_self
  · exact h.memtables m (List.mem_cons_of_mem _ (List.mem_reverse.mpr (List.mem_of_mem_tail (List.mem_reverse.mp hm))))

/-- The versions of a key when the registered table replaces the front of the queue. -/
theorem Flushed.versions_popFront {db db' : DB} {m : MemTable} {ms : List MemTable} {info : SSTableInfo}
    (h : Flushed db m db' info) (hw : db.Wf) (hq : db.immutableMemtables = m :: ms) (key : Key) :
    db'.popFront.versions key = db.versions key := by
  have hq' : db'.immutableMemtables = m :: ms := h.onlyIndex.immutableMemtables.trans hq
  have ht : db'.tableVersions key = (info.version key).toList ++ db.tableVersions key := by
    rw [← tableVersions_registerTable hw.levels, tableVersions, tableVersions, h.levels, h.onlyIndex.options]
    rfl
  rw [DB.versions_popFront hq', versions_front hq, ht, h.version, h.onlyIndex.memtable, List.append_assoc]

/-- An empty memtable at the front is popped without a flush. -/
theorem versions_popFront_empty {db : DB} {m : MemTable} {ms : List MemTable} (hm : m.Valid) (hc : m.count = 0)
    (hq : db.immutableMemtables = m :: ms) (key : Key) : db.popFront.versions key = db.versions key := by
  have hv : m.version key = none := by
    rw [MemTable.version, hm.count_eq_zero.mp hc]
    rfl
  rw [versions_popFront hq, versions_front hq, hv]
  simp

/-- **A flush that is not lost** keeps the versions of every key. -/
theorem versions_flushFront {db : DB} (h : db.Wf) {f : FlushFaults}
    (hf : ∀ m ∈ db.immutableMemtables.head?, m.count = 0 ∨ f.Registers m) :
    (db.flushFront f).Wf ∧ (∀ key, (db.flushFront f).versions key = db.versions key) ∧
      db.popFront.OnlyIndex (db.flushFront f) := by
  unfold flushFront
  cases hq : db.immutableMemtables with
  | nil =>
    have : db.popFront = db := by
      cases db
      simp only at hq
      simp [popFront, hq]
    rw [this]
    exact ⟨h, fun _ => rfl, OnlyIndex.refl db⟩
  | cons m ms =>
    simp only
    have hm : m.Valid := by
      refine h.memtables m (List.mem_cons_of_mem _ (List.mem_reverse.mpr ?_))
      rw [hq]
      exact List.mem_cons_self
    by_cases hc : m.count = 0
    · have he : (db.flushMemTable m f).1 = db := by simp [flushMemTable, hc]
      rw [he]
      exact ⟨h.popFront, versions_popFront_empty hm hc hq, OnlyIndex.refl _⟩
    · have hreg := (hf m (by rw [hq]; rfl)).resolve_left hc
      obtain ⟨⟨info, hfl⟩, -⟩ := flushMemTable_registers db hm hc hreg
      have hsame := hfl.onlyIndex
      refine ⟨(hfl.wf_state h).popFront, hfl.versions_popFront h hq, ⟨?_, hsame.next⟩⟩
      simp only [popFront]
      rw [hsame.same]

theorem popFront_visible_congr {db : DB} {db' : DB} (h : ∀ key, db'.versions key = db.versions key) (key : Key) :
    db'.visible key = db.visible key := congrArg _ (h key)

/-- **A flush** keeps the invariant and the contents. -/
theorem flushFront_spec {db : DB} (h : db.Inv) {m : Contents} (hr : db.Refines m) {f : FlushFaults}
    (hf : ∀ m ∈ db.immutableMemtables.head?, m.count = 0 ∨ f.Registers m) : db.Keeps (db.flushFront f) m m := by
  obtain ⟨hw, hv, hi⟩ := versions_flushFront h.wf hf
  have hvis : ∀ key, (db.flushFront f).visible key = db.visible key := popFront_visible_congr hv
  have hlog : (db.flushFront f).vlog = db.vlog := hi.vlog
  refine ⟨hi.options, h.of_index hw hlog ?_ (fun key e he => hv key ▸ he), hr.mono hvis ?_, fun hs => ?_,
    fun hin => hin.of_index hlog fun key e he => hv key ▸ he⟩
  · rw [hi.wal]
    exact h.wal
  · rw [hlog]
    exact VLog.Extends.refl _
  · have := hs.congr (fun key => by rw [hv]) (fun key e he => hv key ▸ he)
    rwa [Settled, hi.sequenceNumber]

end DB

end SplitKV
