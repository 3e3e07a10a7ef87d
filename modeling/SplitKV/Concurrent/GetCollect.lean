import SplitKV.Concurrent.CollectRun

/-!
# Reads among collections

A `Get` holds no lock between its searches and its read of the value log. A collection that moves the version it found,
and removes the file, makes the read fail (`GcSys.get_loses_file`). When the file can still be opened, the `Get` returns
what the key held at one moment of the call (`GcSys.get_among_collections_iff`).
-/

namespace SplitKV

open Assoc Versions

namespace GcSys

theorem along_append {P : GcSys → GcAct → Prop} : ∀ (acts acts' : List GcAct) (s : GcSys),
    Along P s (acts ++ acts') ↔ Along P s acts ∧ Along P (s.run acts) acts'
  | [], acts', s => ⟨fun h => ⟨trivial, h⟩, fun h => h.2⟩
  | a :: acts, acts', s => by
    have ih := along_append (P := P) acts acts' (s.step a)
    rw [List.cons_append, Along, Along, ih, run_cons, and_assoc]

variable {s : GcSys} {m : Contents} {key : Key} {Seen : Option InternalEntry → Prop}

theorem db_startGc (s : GcSys) (t : Nat) : (s.step (.startGc t)).db = s.db := by
  cases ht : s.collectors t with
  | none => rw [step_startGc ht]
  | some c => rw [step_startGc_running ht]

/-- A section of a collection leaves the queue, the tables and the records alone. -/
theorem Inv.gc_same (h : s.Inv m) (t : Nat) : s.db.SameTables (s.step (.gc t)).db ∧
    (s.step (.gc t)).db.immutableMemtables = s.db.immutableMemtables ∧ s.db.vlog.Passes (s.step (.gc t)).db.vlog := by
  have hrefl : s.db.SameTables s.db := DB.LogSteps.refl.sameTables
  cases hc : s.collectors t with
  | none =>
    rw [step_gc_none hc]
    exact ⟨hrefl, rfl, VLog.Passes.refl _⟩
  | some c =>
    rw [step_gc hc]
    cases c with
    | listed ids =>
      have hdb : (s.db.gcStep (.listed ids)).1 = s.db := by
        simp only [DB.gcStep]
        split <;> rfl
      rw [hdb]
      exact ⟨hrefl, rfl, VLog.Passes.refl _⟩
    | working seg phase =>
      obtain ⟨hseg, -, hphase⟩ := h.collectors t _ hc
      have hstep := DB.collectStep_spec h.reliable hseg hphase fun r newPtr rest hp hd => by
        subst hp
        exact (h.copies t seg r newPtr rest hc hd).1
      exact ⟨hstep.logs.sameTables, hstep.queue, hstep.vlog⟩

/-- Every step keeps the records. -/
theorem Inv.passes (h : s.Inv m) {a : GcAct} (ha : s.Alone a) (hf : a.Fits) : s.db.vlog.Passes (s.step a).db.vlog := by
  cases a with
  | thread a => exact (h.sys.passes h.reliable ha.apart hf).2.vlog
  | startGc t =>
    rw [db_startGc]
    exact VLog.Passes.refl _
  | gc t => exact (h.gc_same t).2.2

theorem Inv.passes_run : ∀ (acts : List GcAct) (s : GcSys) (m : Contents), s.Inv m → Along Alone s acts →
    (∀ a ∈ acts, a.Fits) → s.db.vlog.Passes (s.run acts).db.vlog
  | [], s, _, _, _, _ => VLog.Passes.refl s.db.vlog
  | a :: acts, s, m, h, ha, hf => by
    have ha₁ := hf a List.mem_cons_self
    have hrest := Inv.passes_run acts (s.step a) _ (h.step ha.1 ha₁) ha.2 fun b hb => hf b (List.mem_cons_of_mem _ hb)
    exact (h.passes ha.1 ha₁).trans hrest

/-- **Every step** keeps what a miss in the memtables leaves. -/
theorem Inv.tracked (h : s.Inv m) {a : GcAct} (ha : s.Alone a) (ht : s.db.Tracked key Seen)
    (hseen : Seen ((s.step a).db.visible key)) : (s.step a).db.Tracked key Seen := by
  cases a with
  | thread a => exact h.sys.tracked ha.apart ht hseen
  | startGc t =>
    rw [db_startGc]
    exact ht
  | gc t =>
    obtain ⟨htables, hqueue, -⟩ := h.gc_same t
    exact ht.congr hqueue (DB.tableVersions_congr htables.levels htables.options key)

theorem Inv.tracked_run : ∀ (acts : List GcAct) (s : GcSys) (m : Contents), s.Inv m → Along Alone s acts →
    (∀ a ∈ acts, a.Fits) → s.db.Tracked key Seen →
    (∀ n ≤ acts.length, Seen ((s.run (acts.take n)).db.visible key)) → (s.run acts).db.Tracked key Seen
  | [], _, _, _, _, _, ht, _ => ht
  | a :: acts, s, m, h, ha, hf, ht, hseen => by
    have h₁ := h.tracked ha.1 ht (hseen 1 (Nat.le_add_left 1 _))
    refine Inv.tracked_run acts (s.step a) _ (h.step ha.1 (hf a List.mem_cons_self)) ha.2
      (fun b hb => hf b (List.mem_cons_of_mem _ hb)) h₁ fun n hn => ?_
    exact hseen (n + 1) (Nat.succ_le_succ hn)

/-- What the searches of a `Get` found at a moment is read as it was then, if its file can be opened. -/
theorem Inv.read_later (h : s.Inv m) {l : List InternalEntry} {vlog : VLog} (hp : s.db.vlog.Passes vlog)
    (hl : s.db.visible key = shown InternalEntry.Gone l) {v : Bytes} (hv : s.db.result key = .ok v) :
    ∃ e, l.head? = some e ∧ (vlog.canOpen e.vlogPtr.fileId = true → observe (DB.resolve vlog l.head?) = .ok v) ∧
      (vlog.canOpen e.vlogPtr.fileId = false → observe (DB.resolve vlog l.head?) = .error .ioError) := by
  have hm : m key = some v := by
    rw [h.reliable.refines.result h.reliable.inv key] at hv
    cases hk : m key with
    | none =>
      rw [hk] at hv
      cases hv
    | some x =>
      rw [hk] at hv
      cases hv
      rfl
  have hshow := h.reliable.refines key
  rw [hm] at hshow
  obtain ⟨e, he, hh, -⟩ := hshow
  have hhead : l.head? = some e := by
    rw [hl, shown] at he
    split at he
    · split at he
      · cases he
      · cases he
        assumption
    · cases he
  rw [DB.observe_resolve, ← hl, he]
  refine ⟨e, hhead, fun hc => ?_, fun hc => ?_⟩
  · rw [DB.seen, (hp.holds _ _ _ hh).read hc]
    rfl
  · rw [DB.seen, VLog.read, hc]
    rfl

/-- **A `Get` among collections**, of a key that is there all the time, returns what the key held at one moment of the
call if and only if the file of the version it found can still be opened when the value is read. -/
theorem get_among_collections_iff {db : DB} (h : db.Opens) (hi : db.Intact) (hl : db.Live) (hr : db.Refines m)
    (before during later : List GcAct) (hs : Along Alone (start db) (before ++ (during ++ later)))
    (hf : ∀ a ∈ before ++ (during ++ later), a.Fits) (key : Key)
    (hthere : ∀ n ≤ (during ++ later).length,
      ∃ v, (((start db).run before).run ((during ++ later).take n)).db.result key = .ok v) :
    (∃ n ≤ (during ++ later).length, ∃ v,
      observe (((start db).run before).db.readAt (((start db).run before).run during).db
        (((start db).run before).run (during ++ later)).db key) = .ok v ∧
      (((start db).run before).run ((during ++ later).take n)).db.result key = .ok v) ↔
    ∀ e, (((start db).run before).db.findInMemtables key).or
        ((((start db).run before).run during).db.findInTables noFails key) = some e →
      (((start db).run before).run (during ++ later)).db.vlog.canOpen e.vlogPtr.fileId = true := by
  obtain ⟨hbefore, hcall⟩ := (along_append before _ _).mp hs
  have hfcall : ∀ a ∈ during ++ later, a.Fits := fun a ha => hf a (List.mem_append_right _ ha)
  have h₀ := Inv.run before _ m (inv_start h hi hl hr) hbefore fun a ha => hf a (List.mem_append_left _ ha)
  generalize (start db).run before = s at h₀ hcall hthere ⊢
  obtain ⟨hduring, -⟩ := (along_append during later s).mp hcall
  have hfduring : ∀ a ∈ during, a.Fits := fun a ha => hfcall a (List.mem_append_left _ ha)
  have h₁ := Inv.run during s _ h₀ hduring hfduring
  -- the searches found the versions of one moment
  obtain ⟨l, hfound, n, hn, hshown⟩ := @DB.found_seen s.db (s.run during).db key
    (fun o => ∃ n ≤ during.length, (s.run (during.take n)).db.visible key = o) h₀.sys.steady.wf h₁.sys.steady.wf
    ⟨0, Nat.zero_le _, rfl⟩
    fun hmiss => Inv.tracked_run during s _ h₀ hduring hfduring
      (DB.tracked_of_miss h₀.sys.steady.settled hmiss ⟨0, Nat.zero_le _, rfl⟩) fun n hn => ⟨n, hn, rfl⟩
  have htake : (during ++ later).take n = during.take n := List.take_append_of_le_length hn
  have hn' : n ≤ (during ++ later).length := by
    rw [List.length_append]
    omega
  -- from then on, its record stays
  have hsplit : during ++ later = during.take n ++ (during.drop n ++ later) := by
    rw [← List.append_assoc, List.take_append_drop]
  obtain ⟨v, hv⟩ := hthere n hn'
  rw [htake] at hv
  have hcall' := hcall
  rw [hsplit] at hcall'
  obtain ⟨hfirst, hrest⟩ := (along_append _ _ s).mp hcall'
  have hₙ := Inv.run (during.take n) s _ h₀ hfirst fun a ha => hfduring a (List.mem_of_mem_take ha)
  have hp := Inv.passes_run (during.drop n ++ later) _ _ hₙ hrest fun a ha => by
    refine hfcall a ?_
    rw [hsplit]
    exact List.mem_append_right _ ha
  rw [← run_append, ← hsplit] at hp
  obtain ⟨e, he, hok, herror⟩ := hₙ.read_later hp hshown hv
  rw [DB.readAt, hfound, he]
  rw [he] at hok herror
  constructor
  · rintro ⟨n', -, v', hread, -⟩ e' he'
    cases he'
    by_contra hc
    rw [herror (by simpa using hc)] at hread
    cases hread
  · intro hc
    exact ⟨n, hn', v, hok (hc e rfl), by rw [htake]; exact hv⟩

/-- A new database whose segments take one record each, and are always rewritten. -/
def oneRecordSegments : DB := DB.fresh { vlogFileSizeLimit := 1, gcTest := fun _ _ => true }

/-- Two writes, and the sections of one collection. -/
def writesAndCollection (n : Nat) : List GcAct :=
  [.thread (.write false [.put [1] [7]]), .thread (.write false [.put [2] [8]]), .startGc 0] ++ List.replicate n (.gc 0)

/-- A `Get` that finds its value in the memtable; a collection of its segment starts before the value is read. -/
theorem get_among_collections_sample : ∃ n ≤ 4, ∃ v,
    observe (((start oneRecordSegments).run ((writesAndCollection 2).take 1)).db.readAt
      (((start oneRecordSegments).run ((writesAndCollection 2).take 1)).run []).db
      (((start oneRecordSegments).run ((writesAndCollection 2).take 1)).run ([] ++ (writesAndCollection 2).drop 1)).db
        [1]) = .ok v ∧
    (((start oneRecordSegments).run ((writesAndCollection 2).take 1)).run
      (([] ++ (writesAndCollection 2).drop 1).take n)).db.result [1] = .ok v := by
  have hthere : ∀ n ≤ 4, (((start oneRecordSegments).run ((writesAndCollection 2).take 1)).run
      (([] ++ (writesAndCollection 2).drop 1).take n)).db.result [1] = .ok [7] := by
    decide +kernel
  refine (get_among_collections_iff (.fresh (o := { vlogFileSizeLimit := 1, gcTest := fun _ _ => true }) (by decide))
    (DB.intact_fresh _) (DB.live_fresh _) (DB.refines_fresh _) ((writesAndCollection 2).take 1) []
    ((writesAndCollection 2).drop 1) ⟨trivial, trivial, trivial, trivial, trivial, trivial⟩ (by decide) [1]
    fun n hn => ⟨[7], hthere n hn⟩).mpr fun e he => ?_
  have hfound : (((start oneRecordSegments).run ((writesAndCollection 2).take 1)).db.findInMemtables [1]).or
      ((((start oneRecordSegments).run ((writesAndCollection 2).take 1)).run []).db.findInTables noFails [1]) =
        some ⟨⟨1, 0, 1⟩, 2, .value⟩ := by
    decide +kernel
  cases hfound.symm.trans he
  decide +kernel

/-- **A `Get` fails although its key is there all the time**: between its searches and its read, a collection moves the
value and removes the file. -/
theorem get_loses_file :
    (∀ n ≤ 10, (((start oneRecordSegments).run ((writesAndCollection 10).take 3)).run
      (([] ++ (writesAndCollection 10).drop 3).take n)).db.result [1] = .ok [7]) ∧
    observe (((start oneRecordSegments).run ((writesAndCollection 10).take 3)).db.readAt
      (((start oneRecordSegments).run ((writesAndCollection 10).take 3)).run []).db
      (((start oneRecordSegments).run ((writesAndCollection 10).take 3)).run ([] ++ (writesAndCollection 10).drop 3)).db
        [1]) = .error .ioError := by
  decide +kernel

end GcSys

end SplitKV
