import SplitKV.Concurrent.Run
import SplitKV.VLog.Lasting

/-!
# Reads among other threads

A `Get` looks at the memtables first and at the tables later. When it misses in the memtables, every version that the
tables may show later was what the database showed at some moment since then: `DB.Tracked` says so of the tables below
every part of the queue, and each step keeps it (`Sys.Tracked.step`). What `Get` returns is therefore what a `Get`
without interruption would have returned at one moment of the call (`Sys.get_linearizable`).
-/

namespace SplitKV

open Assoc Levels Versions

namespace DB

variable {db db' : DB}

/-! ## Values that can be read later -/

/-- The value log is ready, and the bytes of every live version were written. -/
structure Durable (db : DB) : Prop where
  ready : db.vlog.Ready
  lasting : ∀ key, ∀ e ∈ db.versions key, e.Gone ∨ db.vlog.Lasting e.vlogPtr

theorem Durable.subset (h : db.Durable) (hv : db'.vlog = db.vlog) (hs : ∀ key, ∀ e ∈ db'.versions key, e ∈ db.versions key) :
    db'.Durable :=
  ⟨hv ▸ h.ready, fun key e he => hv ▸ h.lasting key e (hs key e he)⟩

theorem Durable.grew (h : db.Durable) {vlog : VLog} {wal : WAL} {n : Nat} (hr : vlog.Ready) (hg : db.vlog.Grew vlog) :
    { db with vlog := vlog, wal := wal, sequenceNumber := n }.Durable :=
  ⟨hr, fun key e he => (h.lasting key e he).imp_right fun hl => hl.mono hg.toExtends⟩

theorem Durable.addVersion (h : db.Durable) (hm : db.memtable.Valid) (key : Key) {e : InternalEntry}
    (he : e.Gone ∨ db.vlog.Lasting e.vlogPtr) : (db.addVersion key e).Durable := by
  refine ⟨h.ready, fun k a ha => ?_⟩
  rcases mem_versions_addVersion hm ha with ⟨-, rfl⟩ | ha
  · exact he
  · exact h.lasting k a ha

/-- One entry of a batch. -/
theorem Durable.writeEntry (h : db.Durable) (hm : db.memtable.Valid) (e : BatchEntry) :
    (db.writeEntry e .none none).1.Durable ∧ db.vlog.Grew (db.writeEntry e .none none).1.vlog := by
  unfold DB.writeEntry
  cases e with
  | put key value =>
    obtain ⟨v, ptr, hv, hs, ha⟩ := VLog.appended_append db.options h.ready key value .value
    have hg := ha.grew h.ready
    simp only [hv]
    split
    · exact ⟨h.grew ha.ready hg, hg⟩
    · rename_i wal _
      have h₁ : { db with vlog := v, wal := wal, sequenceNumber := db.sequenceNumber }.Durable := h.grew ha.ready hg
      exact ⟨h₁.addVersion hm key (e := ⟨ptr, db.sequenceNumber, .value⟩) (Or.inr (ha.lasting hs)), hg⟩
  | delete key =>
    have hg := VLog.Grew.refl db.vlog
    simp only
    split
    · exact ⟨h.grew h.ready hg, hg⟩
    · rename_i wal _
      have h₁ : { db with vlog := db.vlog, wal := wal, sequenceNumber := db.sequenceNumber }.Durable := h.grew h.ready hg
      exact ⟨h₁.addVersion hm key (e := ⟨⟨0, 0, 0⟩, db.sequenceNumber, .deletion⟩) (Or.inl rfl), hg⟩

theorem Durable.writeEntries : ∀ (batch : WriteBatch) (i : Nat) (db : DB), db.Wf → db.Durable →
    (DB.writeEntries {} i batch db).1.Durable ∧ db.vlog.Grew (DB.writeEntries {} i batch db).1.vlog
  | [], _, db, _, h => ⟨h, VLog.Grew.refl db.vlog⟩
  | e :: batch, i, db, hw, h => by
    obtain ⟨h₁, hg₁⟩ := h.writeEntry (hw.memtables _ List.mem_cons_self) e
    have hw₁ := (writeEntry_logSteps db e .none none).wf hw
    rw [DB.writeEntries]
    split
    · rename_i hr
      rw [hr] at h₁ hg₁
      exact ⟨h₁, hg₁⟩
    · rename_i hr
      rw [hr] at h₁ hg₁ hw₁
      obtain ⟨h₂, hg₂⟩ := Durable.writeEntries batch (i + 1) _ hw₁ h₁
      exact ⟨h₂, hg₁.trans hg₂⟩

theorem Durable.maybeScheduleFlush (h : db.Durable) :
    (db.maybeScheduleFlush .none).1.Durable ∧ (db.maybeScheduleFlush .none).1.vlog = db.vlog := by
  unfold DB.maybeScheduleFlush
  split
  · have hrot : db.rotate.Durable := h.subset rfl fun key e he => by rwa [versions_rotate] at he
    exact ⟨⟨hrot.ready, hrot.lasting⟩, rfl⟩
  · exact ⟨h, rfl⟩

/-- **A write** only lets the value log grow. -/
theorem Durable.write (h : db.Durable) (hw : db.Wf) (sync : Bool) (batch : WriteBatch) :
    (db.write sync batch {}).1.Durable ∧ db.vlog.Grew (db.write sync batch {}).1.vlog := by
  obtain ⟨h₁, hg₁⟩ := Durable.writeEntries batch 0 db hw h
  rw [DB.write]
  split
  · rename_i hr
    rw [hr] at h₁ hg₁
    exact ⟨h₁, hg₁⟩
  · rename_i db₁ hr
    rw [hr] at h₁ hg₁
    have h₂ : (if sync then db₁.syncLogs else db₁).Durable ∧ db.vlog.Grew (if sync then db₁.syncLogs else db₁).vlog := by
      split
      · have hs := VLog.grew_sync db₁.vlog
        exact ⟨h₁.grew (h₁.ready.sameFiles (VLog.sameFiles_sync db₁.vlog)) hs, hg₁.trans hs⟩
      · exact ⟨h₁, hg₁⟩
    obtain ⟨h₃, hv⟩ := h₂.1.maybeScheduleFlush
    exact ⟨h₃, hv ▸ h₂.2⟩

/-! ## What a miss in the memtables leaves -/

/-- Below every part of the queue, the tables are in order, and what they show was seen. -/
structure Tracked (db : DB) (key : Key) (Seen : Option InternalEntry → Prop) : Prop where
  newest : ∀ ms, ms <:+ db.immutableMemtables.reverse →
    NewestFirst InternalEntry.sequence (memVersions ms key ++ db.tableVersions key)
  seen : ∀ ms, ms <:+ db.immutableMemtables.reverse →
    Seen (shown InternalEntry.Gone (memVersions ms key ++ db.tableVersions key))

variable {key : Key} {Seen : Option InternalEntry → Prop}

theorem Tracked.congr (h : db.Tracked key Seen) (hi : db'.immutableMemtables = db.immutableMemtables)
    (ht : db'.tableVersions key = db.tableVersions key) : db'.Tracked key Seen :=
  ⟨by rw [hi, ht]; exact h.newest, by rw [hi, ht]; exact h.seen⟩

/-- A key that is in no memtable. -/
theorem tracked_of_miss (hs : db.Settled) (hmiss : memVersions db.memtables key = []) (hv : Seen (db.visible key)) :
    db.Tracked key Seen := by
  have hnil : ∀ ms, ms <:+ db.immutableMemtables.reverse → memVersions ms key = [] := by
    intro ms hms
    rw [memVersions, List.filterMap_eq_nil_iff] at hmiss ⊢
    exact fun m hm => hmiss m (List.mem_cons_of_mem _ (hms.subset hm))
  have hall : db.versions key = db.tableVersions key := by rw [versions, hmiss, List.nil_append]
  have hn := (hs key).1
  rw [visible, hall] at hv
  rw [hall] at hn
  refine ⟨fun ms hms => ?_, fun ms hms => ?_⟩
  · rw [hnil ms hms]
    exact hn
  · rw [hnil ms hms]
    exact hv

/-- The same first version, and no new one. -/
theorem Tracked.of_head {ms : List MemTable} (h : db.Tracked key Seen) (hms : ms <:+ db.immutableMemtables.reverse)
    {l : List InternalEntry} (hh : l.head? = (memVersions ms key ++ db.tableVersions key).head?)
    (hs : ∀ e ∈ l, e ∈ memVersions ms key ++ db.tableVersions key) :
    NewestFirst InternalEntry.sequence l ∧ Seen (shown InternalEntry.Gone l) := by
  refine ⟨(h.newest ms hms).congr hh hs, ?_⟩
  rw [shown, hh]
  exact h.seen ms hms

/-- A write: the memtable that may have moved to the queue holds what the database shows now. -/
theorem Tracked.write (h : db.Tracked key Seen) (hs : db'.Settled) (ht : db.SameTables db')
    (hq : db'.immutableMemtables = db.immutableMemtables ∨
      ∃ m n, db'.immutableMemtables = db.immutableMemtables ++ [m] ∧ db'.memtable = .new n)
    (hv : Seen (db'.visible key)) : db'.Tracked key Seen := by
  have htables := tableVersions_congr ht.levels ht.options key
  rcases hq with hq | ⟨m, n, hq, hm⟩
  · exact h.congr hq htables
  · have hall : db'.versions key = memVersions (m :: db.immutableMemtables.reverse) key ++ db'.tableVersions key := by
      have hnil : (MemTable.new n).version key = none := by
        rw [MemTable.version, MemTable.getSortedEntries_new]
        rfl
      rw [versions, memtables, hq, hm, memVersions, List.filterMap_cons, hnil, List.reverse_append]
      rfl
    have hrev : db'.immutableMemtables.reverse = m :: db.immutableMemtables.reverse := by
      rw [hq, List.reverse_append]
      rfl
    refine ⟨fun ms hms => ?_, fun ms hms => ?_⟩
    · rw [hrev, List.suffix_cons_iff] at hms
      rcases hms with rfl | hms
      · rw [← hall]
        exact (hs key).1
      · rw [htables]
        exact h.newest ms hms
    · rw [hrev, List.suffix_cons_iff] at hms
      rcases hms with rfl | hms
      · rw [← hall]
        exact hv
      · rw [htables]
        exact h.seen ms hms

/-- A merge step. -/
theorem Tracked.mergeStep (h : db.Tracked key Seen) (hs : db.Settled) (hm : db.MergeStep db') : db'.Tracked key Seen := by
  have hi := hm.onlyIndex.immutableMemtables
  have hmerged := hm.merged key
  have hc : ∀ ms, ms <:+ db.immutableMemtables.reverse →
      Coherent InternalEntry.sequence (memVersions ms key ++ db.tableVersions key) := by
    intro ms hms
    refine (hs key).2.1.mono fun e he => ?_
    rcases List.mem_append.mp he with he | he
    · obtain ⟨m, hmem, hv⟩ := List.mem_filterMap.mp he
      exact List.mem_append_left _ (List.mem_filterMap.mpr ⟨m, List.mem_cons_of_mem _ (hms.subset hmem), hv⟩)
    · exact List.mem_append_right _ he
  refine ⟨fun ms hms => ?_, fun ms hms => ?_⟩
  · rw [hi] at hms
    exact hmerged.newestFirst (h.newest ms hms) (hc ms hms)
  · rw [hi] at hms
    rw [hmerged.shown_eq (h.newest ms hms) (hc ms hms)]
    exact h.seen ms hms

/-- A registration. -/
theorem Tracked.registers (h : db.Tracked key Seen) (hw : db.Wf) {m : MemTable} {info : SSTableInfo}
    (hq : db.immutableMemtables.head? = some m) (hr : Registers db m info db') : db'.Tracked key Seen := by
  obtain ⟨rest, hrest⟩ : ∃ rest, db.immutableMemtables = m :: rest := List.head?_eq_some_iff.mp hq
  have hi := hr.onlyIndex.immutableMemtables
  have ht := hr.tableVersions hw key
  have hrev : db.immutableMemtables.reverse = rest.reverse ++ [m] := by rw [hrest, List.reverse_cons]
  have hboth : ∀ ms, ms <:+ db.immutableMemtables.reverse →
      NewestFirst InternalEntry.sequence (memVersions ms key ++ db'.tableVersions key) ∧
        Seen (shown InternalEntry.Gone (memVersions ms key ++ db'.tableVersions key)) := by
    intro ms hms
    rw [ht, ← memVersions_singleton]
    rcases List.eq_nil_or_concat ms with rfl | ⟨ms₀, a, hconcat⟩
    · -- the tables alone: what the oldest memtable and the tables showed
      have hone : [m] <:+ db.immutableMemtables.reverse := by
        rw [hrev]
        exact List.suffix_append _ _
      exact h.of_head hone rfl fun e he => he
    · rw [List.concat_eq_append] at hconcat
      subst hconcat
      have ha : a = m := by
        obtain ⟨pre, hpre⟩ := hms
        rw [hrev, ← List.append_assoc] at hpre
        exact (List.append_inj' hpre rfl).2 |> List.singleton_inj.mp
      subst ha
      refine h.of_head hms ?_ fun e he => ?_
      · rw [memVersions_append]
        cases memVersions ms₀ key with
        | nil => cases memVersions [a] key <;> rfl
        | cons x l => rfl
      · rw [memVersions_append] at he ⊢
        simp only [List.mem_append] at he ⊢
        tauto
  exact ⟨fun ms hms => (hboth ms (hi ▸ hms)).1, fun ms hms => (hboth ms (hi ▸ hms)).2⟩

/-- A pop. -/
theorem Tracked.popFront (h : db.Tracked key Seen) {m : MemTable} (hq : db.immutableMemtables.head? = some m) :
    db.popFront.Tracked key Seen := by
  obtain ⟨rest, hrest⟩ : ∃ rest, db.immutableMemtables = m :: rest := List.head?_eq_some_iff.mp hq
  have hi : db.popFront.immutableMemtables = rest := by rw [DB.popFront, hrest, List.tail_cons]
  have ht : db.popFront.tableVersions key = db.tableVersions key := rfl
  have hboth : ∀ ms, ms <:+ rest.reverse →
      NewestFirst InternalEntry.sequence (memVersions ms key ++ db.tableVersions key) ∧
        Seen (shown InternalEntry.Gone (memVersions ms key ++ db.tableVersions key)) := by
    intro ms hms
    have hlong : ms ++ [m] <:+ db.immutableMemtables.reverse := by
      obtain ⟨pre, hpre⟩ := hms
      exact ⟨pre, by rw [hrest, List.reverse_cons, ← hpre, List.append_assoc]⟩
    cases hp : memVersions ms key with
    | nil => exact h.of_head (List.nil_suffix) rfl fun e he => he
    | cons x l =>
      rw [← hp]
      refine h.of_head hlong ?_ fun e he => ?_
      · rw [memVersions_append, hp]
        rfl
      · rw [memVersions_append]
        simp only [List.mem_append] at he ⊢
        tauto
  exact ⟨fun ms hms => (hboth ms (hi ▸ hms)).1, fun ms hms => (hboth ms (hi ▸ hms)).2⟩

/-- A section of the flush. -/
theorem Tracked.flush (h : db.Tracked key Seen) (hs : db.Steady) (he : FlushEffect db db') : db'.Tracked key Seen := by
  cases he with
  | quiet hi hl => exact h.congr hi.immutableMemtables (tableVersions_congr hl hi.options key)
  | register m info hq hr => exact h.registers hs.wf hq hr
  | pop m hq _ he =>
    subst he
    exact h.popFront hq

/-- **The two searches** of a `Get` find the first of some versions that show what was seen. -/
theorem found_seen (hw : db.Wf) (hw' : db'.Wf) (hseen : Seen (db.visible key))
    (ht : memVersions db.memtables key = [] → db'.Tracked key Seen) : ∃ l,
      (db.findInMemtables key).or (db'.findInTables noFails key) = l.head? ∧ Seen (shown InternalEntry.Gone l) := by
  have hmem := findInMemtables_eq hw.memtables key
  cases hv : memVersions db.memtables key with
  | cons e l =>
    refine ⟨db.versions key, ?_, hseen⟩
    rw [hmem, versions, hv]
    rfl
  | nil =>
    have htab : db'.findInTables noFails key = (db'.tableVersions key).head? := Levels.find_eq hw'.levels key
    refine ⟨db'.tableVersions key, ?_, (ht hv).seen [] List.nil_suffix⟩
    rw [hmem, hv, htab]
    rfl

/-- What a write does to the queue. -/
theorem write_queue (db : DB) (sync : Bool) (batch : WriteBatch) :
    (db.write sync batch {}).1.immutableMemtables = db.immutableMemtables ∨
      ∃ m n, (db.write sync batch {}).1.immutableMemtables = db.immutableMemtables ++ [m] ∧
        (db.write sync batch {}).1.memtable = .new n := by
  have h₁ : (writeEntries {} 0 batch db).1.immutableMemtables = db.immutableMemtables :=
    @writeEntries_induct (fun db db' => db'.immutableMemtables = db.immutableMemtables) (fun _ => rfl)
      (fun h₁ h₂ => h₂.trans h₁) (fun db e fv fw => by rw [writeEntry_frame]) {} batch 0 db
  rw [write]
  split
  · rename_i hr
    rw [hr] at h₁
    exact Or.inl h₁
  · rename_i db₁ hr
    rw [hr] at h₁
    have h₂ : (if sync then db₁.syncLogs else db₁).immutableMemtables = db.immutableMemtables := by
      split <;> exact h₁
    generalize (if sync then db₁.syncLogs else db₁) = db₂ at h₂
    unfold maybeScheduleFlush
    split
    · exact Or.inr ⟨db₂.memtable, _, by rw [h₂], rfl⟩
    · exact Or.inl h₂

end DB

namespace Act

/-- The entries a step writes. -/
def entries : Act → WriteBatch
  | write _ batch => batch
  | _ => []

/-- Every record of the step is smaller than 4 GiB. -/
def Fits (a : Act) : Prop := ∀ e ∈ a.entries, e.Fits

instance (a : Act) : Decidable a.Fits := inferInstanceAs (Decidable (∀ e ∈ a.entries, e.Fits))

end Act

namespace Sys

/-! ## Runs -/

section Run

variable {s : Sys}

/-- A step lets the value log grow. -/
theorem Inv.durable (h : s.Inv) (hd : s.db.Durable) {a : Act} (ha : s.Apart a) :
    (s.step a).db.Durable ∧ s.db.vlog.Grew (s.step a).db.vlog := by
  cases hw : a.isWrite with
  | false =>
    have hq := h.quiet ha hw
    exact ⟨hd.subset hq.vlog hq.subset, hq.vlog ▸ VLog.Grew.refl s.db.vlog⟩
  | true =>
    cases a with
    | write sync batch => exact hd.write h.steady.wf sync batch
    | _ => cases hw

theorem Inv.durable_run : ∀ (acts : List Act) (s : Sys), s.Inv → s.db.Durable → Along Apart s acts →
    (s.run acts).db.Durable ∧ s.db.vlog.Grew (s.run acts).db.vlog
  | [], s, _, hd, _ => ⟨hd, VLog.Grew.refl s.db.vlog⟩
  | a :: acts, s, h, hd, ha => by
    obtain ⟨h₁, hg₁⟩ := h.durable hd ha.1
    obtain ⟨h₂, hg₂⟩ := Inv.durable_run acts (s.step a) (h.step ha.1) h₁ ha.2
    exact ⟨h₂, hg₁.trans hg₂⟩

variable {key : Key} {Seen : Option InternalEntry → Prop}

/-- **Every step** keeps what a miss in the memtables leaves. -/
theorem Inv.tracked (h : s.Inv) {a : Act} (ha : s.Apart a) (ht : s.db.Tracked key Seen)
    (hseen : Seen ((s.step a).db.visible key)) : (s.step a).db.Tracked key Seen := by
  cases a with
  | write sync batch =>
    have hl := DB.write_logSteps s.db sync batch {}
    exact ht.write (h.step ha).steady.settled hl.sameTables (DB.write_queue s.db sync batch) hseen
  | flush => exact ht.flush h.steady h.flush.2
  | startCompact t lvl =>
    rw [(h.startCompact ha).2]
    exact ht
  | compact t => exact ht.mergeStep h.steady.settled (h.compact t).2

theorem Inv.tracked_run : ∀ (acts : List Act) (s : Sys), s.Inv → Along Apart s acts → s.db.Tracked key Seen →
    (∀ n ≤ acts.length, Seen ((s.run (acts.take n)).db.visible key)) → (s.run acts).db.Tracked key Seen
  | [], _, _, _, ht, _ => ht
  | a :: acts, s, h, ha, ht, hseen => by
    have h₁ := h.tracked ha.1 ht (hseen 1 (Nat.le_add_left 1 _))
    refine Inv.tracked_run acts (s.step a) (h.step ha.1) ha.2 h₁ fun n hn => ?_
    exact hseen (n + 1) (Nat.succ_le_succ hn)

/-- What is seen for a visible version stays the same while the value log grows. -/
theorem seen_grew {db : DB} (h : db.Durable) {vlog : VLog} (hg : db.vlog.Grew vlog) (key : Key) :
    DB.seen vlog (db.visible key) = DB.seen db.vlog (db.visible key) := by
  cases hv : db.visible key with
  | none => rfl
  | some e =>
    obtain ⟨hh, hlive⟩ := DB.visible_eq_some.mp hv
    have hl := (h.lasting key e (List.mem_of_mem_head? hh)).resolve_left hlive
    rw [DB.seen, DB.seen, hl.read hg]

/-- **A `Get` among other threads** returns what it would have returned at one moment between its searches. -/
theorem Inv.readAt (h : s.Inv) (hd : s.db.Durable) (during later : List Act) (ha : Along Apart s (during ++ later))
    (key : Key) : ∃ n ≤ during.length,
      observe (s.db.readAt (s.run during).db (s.run (during ++ later)).db key) = (s.run (during.take n)).db.result key := by
  obtain ⟨ha₁, -⟩ := (along_append during later s).mp ha
  -- the moment n shows the versions that the searches found
  have hmoment : ∀ n ≤ during.length, ∀ l : List InternalEntry,
      (s.run (during.take n)).db.visible key = shown InternalEntry.Gone l →
      observe (DB.resolve (s.run (during ++ later)).db.vlog l.head?) = (s.run (during.take n)).db.result key := by
    intro n _ l hl
    have hsplit : during ++ later = during.take n ++ (during.drop n ++ later) := by
      rw [← List.append_assoc, List.take_append_drop]
    rw [hsplit] at ha
    obtain ⟨hfirst, hrest⟩ := (along_append _ _ s).mp ha
    have hi := Inv.run (during.take n) s h hfirst
    have hdn := (Inv.durable_run (during.take n) s h hd hfirst).1
    have hg := (Inv.durable_run _ _ hi hdn hrest).2
    rw [DB.observe_resolve, ← hl, hsplit, run_append, seen_grew hdn hg, DB.result_eq hi.steady.wf]
  have hall := Inv.run during s h ha₁
  obtain ⟨l, hfound, n, hn, hshown⟩ := @DB.found_seen s.db (s.run during).db key
    (fun o => ∃ n ≤ during.length, (s.run (during.take n)).db.visible key = o) h.steady.wf hall.steady.wf
    ⟨0, Nat.zero_le _, rfl⟩
    fun hmiss => Inv.tracked_run during s h ha₁ (DB.tracked_of_miss h.steady.settled hmiss ⟨0, Nat.zero_le _, rfl⟩)
      fun n hn => ⟨n, hn, rfl⟩
  refine ⟨n, hn, ?_⟩
  rw [DB.readAt, hfound]
  exact hmoment n hn l hshown

/-- A step applies its entries to the contents. -/
theorem Inv.contents (h : s.Inv) (hi : s.db.Inv) {m : Contents} (hr : s.db.Refines m) {a : Act} (ha : s.Apart a)
    (hf : a.Fits) : (s.step a).db.Inv ∧ (s.step a).db.Refines (WriteBatch.apply m a.entries) := by
  cases hw : a.isWrite with
  | false =>
    have hq := h.quiet ha hw
    have hnil : a.entries = [] := by
      cases a with
      | write sync batch => cases hw
      | _ => rfl
    rw [hnil]
    refine ⟨hi.of_index (h.step ha).steady.wf hq.vlog (by rw [hq.wal, hi.wal]) hq.subset, hr.mono hq.visible ?_⟩
    rw [hq.vlog]
    exact VLog.Extends.refl _
  | true =>
    cases a with
    | write sync batch =>
      have hb : ∀ e ∈ batch, e.Fits := hf
      obtain ⟨db', he, hk⟩ := DB.write_spec hi hr sync hb
      have hstep : (s.step (.write sync batch)).db = db' := congrArg Prod.fst he
      rw [hstep]
      exact ⟨hk.inv, hk.refines⟩
    | _ => cases hw

theorem Inv.contents_run : ∀ (acts : List Act) (s : Sys) (m : Contents), s.Inv → s.db.Inv → s.db.Refines m →
    Along Apart s acts → (∀ a ∈ acts, a.Fits) →
    (s.run acts).db.Inv ∧ (s.run acts).db.Refines (WriteBatch.apply m (acts.flatMap Act.entries))
  | [], _, _, _, hi, hr, _, _ => ⟨hi, hr⟩
  | a :: acts, s, m, h, hi, hr, ha, hf => by
    obtain ⟨hi₁, hr₁⟩ := h.contents hi hr ha.1 (hf a List.mem_cons_self)
    have hrest := Inv.contents_run acts (s.step a) _ (h.step ha.1) hi₁ hr₁ ha.2
      fun b hb => hf b (List.mem_cons_of_mem _ hb)
    rw [List.flatMap_cons, WriteBatch.apply_append]
    exact hrest

end Run

theorem durable_of_inv {db : DB} (h : db.Inv) : db.Durable :=
  ⟨h.vlog.ready, fun key e he => (h.holds key e he).imp_right fun ⟨_, _, hh⟩ => hh.lasting⟩

/-- **`Get` is linearizable** among writes, flushes and compactions, one at a time: it returns what a `Get` at one
moment of the call would have returned; and when every record is smaller than 4 GiB, that is what the writes up to that
moment left. -/
theorem get_linearizable {db : DB} (h : db.Opens) (before during later : List Act)
    (hs : Along Alone (start db) (before ++ (during ++ later))) (key : Key) : ∃ n ≤ during.length,
      observe (((start db).run before).db.readAt (((start db).run before).run during).db
        (((start db).run before).run (during ++ later)).db key) =
          (((start db).run before).run (during.take n)).db.result key ∧
      ∀ m, db.Refines m → (∀ a ∈ before ++ during, a.Fits) →
        (((start db).run before).run (during.take n)).db.result key =
          DB.answer (WriteBatch.apply m ((before ++ during.take n).flatMap Act.entries) key) := by
  obtain ⟨hsteady, hinv⟩ := h.spec
  have hap := Along.mono (fun _ _ => Alone.apart) _ _ hs
  obtain ⟨hbefore, hrest⟩ := (along_append before _ _).mp hap
  have hi := Inv.run before _ (inv_start hsteady) hbefore
  have hd := (Inv.durable_run before _ (inv_start hsteady) (durable_of_inv hinv) hbefore).1
  obtain ⟨n, hn, he⟩ := hi.readAt hd during later hrest key
  refine ⟨n, hn, he, fun m hm hf => ?_⟩
  have hprefix : Along Apart (start db) (before ++ during.take n) := by
    have hall : before ++ (during ++ later) = (before ++ during.take n) ++ (during.drop n ++ later) := by
      rw [List.append_assoc, ← List.append_assoc (during.take n), List.take_append_drop]
    rw [hall] at hap
    exact ((along_append _ _ _).mp hap).1
  have hcontents := Inv.contents_run (before ++ during.take n) _ m (inv_start hsteady) hinv hm hprefix fun a ha => by
    refine hf a ?_
    rcases List.mem_append.mp ha with ha | ha
    · exact List.mem_append_left _ ha
    · exact List.mem_append_right _ (List.mem_of_mem_take ha)
  rw [run_append] at hcontents
  exact hcontents.2.result hcontents.1 key

/-- A `Get` between whose searches the key is deleted and the memtable with its value is flushed. -/
theorem get_linearizable_sample : ∃ n ≤ 4,
    observe (((start (DB.fresh { memtableSizeLimit := 1 })).run [.write true [.put [1] [7]]]).db.readAt
      (((start (DB.fresh { memtableSizeLimit := 1 })).run [.write true [.put [1] [7]]]).run
        [.write false [.delete [1]], .flush, .flush, .flush]).db
      (((start (DB.fresh { memtableSizeLimit := 1 })).run [.write true [.put [1] [7]]]).run
        ([.write false [.delete [1]], .flush, .flush, .flush] ++ [.flush])).db [1]) =
    (((start (DB.fresh { memtableSizeLimit := 1 })).run [.write true [.put [1] [7]]]).run
      ([.write false [.delete [1]], .flush, .flush, .flush].take n)).db.result [1] := by
  obtain ⟨n, hn, h, -⟩ := get_linearizable (.fresh (o := { memtableSizeLimit := 1 }) (by decide)) [.write true [.put [1] [7]]]
    [.write false [.delete [1]], .flush, .flush, .flush] [.flush]
    ⟨trivial, trivial, trivial, trivial, trivial, trivial, trivial⟩ [1]
  exact ⟨n, hn, h⟩

end Sys

end SplitKV
