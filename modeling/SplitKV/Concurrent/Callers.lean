import SplitKV.Concurrent.GetCollect
import SplitKV.Lib.Linearizable
import SplitKV.Recovery.Lifetime

/-!
# Callers

Any number of threads call `Write` and `Get`, while the flush thread, compactions and collections are at work. A `Write` is
called, does its section under the lock, and returns; a `Get` is called, searches the memtables, searches the tables if it
has to, and reads the value. The history of their calls and returns is one of a map (`CallSys.calls_linearizable`), as long as
the file of the version that a `Get` found can be opened when it reads; without collections it always can.
-/

namespace SplitKV

open Assoc Histories Versions

/-- What is called. -/
inductive Operation
  | write (batch : WriteBatch)
  | get (key : Key)

/-- What is returned. -/
inductive Reply
  | write (r : Except Status Unit)
  | get (r : Except Code Bytes)

/-- A map. -/
def kvObject : Object Contents Operation Reply where
  apply m
    | .write batch => WriteBatch.apply m batch
    | .get _ => m
  answer m
    | .write _ => .write (.ok ())
    | .get key => .get (DB.answer (m key))

/-- A caller at work: `Write` is called; it is about to return; `Get` is called; it has missed in the memtables; its searches
are over. -/
inductive Caller
  | writes (sync : Bool) (batch : WriteBatch)
  | wrote (r : Except Status Unit)
  | memtables (key : Key)
  | tables (key : Key)
  | reads (key : Key) (found : Option InternalEntry)

/-- The next section of a call, and what it returns. -/
def DB.callStep (db : DB) : Caller → DB × Option Caller × Option Reply
  | .writes sync batch => ((db.write sync batch {}).1, some (.wrote (db.write sync batch {}).2), none)
  | .wrote r => (db, none, some (.write r))
  | .memtables key =>
    match db.findInMemtables key with
    | some e => (db, some (.reads key (some e)), none)
    | none => (db, some (.tables key), none)
  | .tables key => (db, some (.reads key (db.findInTables noFails key)), none)
  | .reads _ found => (db.openFound found, none, some (.get (observe (DB.resolve db.vlog found))))

/-- A section of a thread that nobody waits for. -/
inductive Background
  | flush
  | startCompact (t : Nat) (lvl : Int)
  | compact (t : Nat)
  | startGc (t : Nat)
  | gc (t : Nat)

def Background.act : Background → GcAct
  | flush => .thread .flush
  | startCompact t lvl => .thread (.startCompact t lvl)
  | compact t => .thread (.compact t)
  | startGc t => .startGc t
  | gc t => .gc t

/-- The database with its threads and its callers. -/
structure CallSys where
  gc : GcSys
  callers : Nat → Option Caller := fun _ => none

/-- A call, the next section of a call, or a section of another thread. -/
inductive Turn
  | callWrite (t : Nat) (sync : Bool) (batch : WriteBatch)
  | callGet (t : Nat) (key : Key)
  | go (t : Nat)
  | background (b : Background)

namespace CallSys

/-- The database. -/
abbrev db (s : CallSys) : DB := s.gc.db

/-- The state with another database. -/
def setDb (s : CallSys) (db : DB) : GcSys := { s.gc with sys := { s.gc.sys with db := db } }

/-- A caller that is at work calls nothing. -/
def call (s : CallSys) (t : Nat) (c : Caller) : CallSys :=
  match s.callers t with
  | some _ => s
  | none => { s with callers := Function.update s.callers t (some c) }

/-- A step of the system. -/
def step (s : CallSys) : Turn → CallSys
  | .callWrite t sync batch => s.call t (.writes sync batch)
  | .callGet t key => s.call t (.memtables key)
  | .go t =>
    match s.callers t with
    | none => s
    | some c => ⟨s.setDb (s.db.callStep c).1, Function.update s.callers t (s.db.callStep c).2.1⟩
  | .background b => { s with gc := s.gc.step b.act }

/-- What the callers see of it. -/
def events (s : CallSys) : Turn → List (Histories.Event Nat Operation Reply)
  | .callWrite t _ batch => if (s.callers t).isSome then [] else [.call t (.write batch)]
  | .callGet t key => if (s.callers t).isSome then [] else [.call t (.get key)]
  | .go t =>
    match s.callers t with
    | none => []
    | some c => ((s.db.callStep c).2.2.map (Histories.Event.ret t)).toList
  | .background _ => []

/-- What the callers see of a run. -/
def history : CallSys → List Turn → List (Histories.Event Nat Operation Reply)
  | _, [] => []
  | s, turn :: turns => s.events turn ++ history (s.step turn) turns

/-- Every step of the run satisfies P in the state it is taken in. -/
def Along (P : CallSys → Turn → Prop) : CallSys → List Turn → Prop
  | _, [] => True
  | s, turn :: turns => P s turn ∧ Along P (s.step turn) turns

/-- No thread is at work. -/
def start (db : DB) : CallSys := { gc := .start db }

/-- Records are smaller than 4 GiB, compactions with a common level do not overlap, and the file of a version that a `Get`
found can be opened when there are collections. -/
def Regular (collects : Bool) (s : CallSys) : Turn → Prop
  | .callWrite _ _ batch => ∀ e ∈ batch, e.Fits
  | .callGet _ _ => True
  | .go t => ∀ key e, s.callers t = some (.reads key (some e)) → ¬e.Gone → collects = true →
      s.db.vlog.canOpen e.vlogPtr.fileId = true
  | .background (.startCompact t lvl) => s.gc.sys.Apart (.startCompact t lvl)
  | .background (.startGc _) => collects = true
  | .background _ => True

end CallSys

/-! ## What is known of a call -/

namespace DB

/-- What was visible may be answered, and can be read as long as its file is there. -/
def Kept (collects : Bool) (db : DB) (key : Key) (answers : Set Reply) : Option InternalEntry → Prop
  | none => Reply.get (.error .notFound) ∈ answers
  | some e => ∃ value, db.vlog.Holds e.vlogPtr key value ∧ Reply.get (.ok value) ∈ answers ∧
      (collects = false → e.vlogPtr.fileId ∈ db.vlog.files.dir)

variable {collects : Bool} {db db' : DB} {key : Key} {answers answers' : Set Reply} {o : Option InternalEntry} {m : Contents}

theorem Kept.mono (h : db.Kept collects key answers o) (hp : db.vlog.Passes db'.vlog)
    (hd : collects = false → ∀ id ∈ db.vlog.files.dir, id ∈ db'.vlog.files.dir) (ha : answers ⊆ answers') :
    db'.Kept collects key answers' o := by
  cases o with
  | none => exact ha h
  | some e =>
    obtain ⟨value, hh, hin, hfile⟩ := h
    exact ⟨value, hp.holds _ _ _ hh, ha hin, fun hc => hd hc _ (hfile hc)⟩

/-- What is visible now. -/
theorem Reliable.kept (h : db.Reliable m) (ha : Reply.get (answer (m key)) ∈ answers) :
    db.Kept collects key answers (db.visible key) := by
  have hshow := h.refines key
  cases hm : m key with
  | none =>
    rw [hm] at hshow ha
    have hnone : db.visible key = none := hshow
    rw [hnone]
    exact ha
  | some value =>
    rw [hm] at hshow ha
    obtain ⟨e, he, hh, -⟩ := hshow
    rw [he]
    exact ⟨value, hh, ha, fun _ => h.live key e he⟩

/-- What was found is read. -/
theorem Kept.read {l : List InternalEntry} (h : db.Kept collects key answers (shown InternalEntry.Gone l))
    (hopen : ∀ e, l.head? = some e → ¬e.Gone → collects = true → db.vlog.canOpen e.vlogPtr.fileId = true) :
    Reply.get (observe (resolve db.vlog l.head?)) ∈ answers := by
  rw [observe_resolve]
  cases hs : shown InternalEntry.Gone l with
  | none =>
    rw [hs] at h
    exact h
  | some e =>
    rw [hs] at h
    obtain ⟨value, hh, hin, hfile⟩ := h
    obtain ⟨hhead, hlive⟩ := shown_eq_some hs
    have hcan : db.vlog.canOpen e.vlogPtr.fileId = true := by
      cases hc : collects with
      | false => exact VLog.canOpen_of_mem (hfile hc)
      | true => exact hopen e hhead hlive hc
    rw [seen, hh.read hcan]
    exact hin

/-- Less was seen. -/
theorem Tracked.mono {Seen Seen' : Option InternalEntry → Prop} (h : db.Tracked key Seen) (hs : ∀ o, Seen o → Seen' o) :
    db.Tracked key Seen' := ⟨h.newest, fun ms hms => hs _ (h.seen ms hms)⟩

end DB

/-- What a caller at work goes with. -/
def Caller.Knows (collects : Bool) (db : DB) : Caller → View Operation Reply → Prop
  | .writes _ batch, .waits op => op = .write batch ∧ ∀ e ∈ batch, e.Fits
  | .wrote r, .answered r' => r' = .write r
  | .memtables key, .queries op answers => op = .get key ∧ db.Kept collects key answers (db.visible key)
  | .tables key, .queries op answers => op = .get key ∧ db.Tracked key (db.Kept collects key answers)
  | .reads key found, .queries op answers => op = .get key ∧
      ∃ l, found = l.head? ∧ db.Kept collects key answers (shown InternalEntry.Gone l)
  | _, _ => False

/-- A step of another thread, or of another caller. -/
theorem Caller.Knows.grow {collects : Bool} {db db' : DB} {c : Caller} {w : View Operation Reply} {m : Contents}
    (h : c.Knows collects db w) (hp : db.vlog.Passes db'.vlog)
    (hd : collects = false → ∀ id ∈ db.vlog.files.dir, id ∈ db'.vlog.files.dir) (hr : db'.Reliable m)
    (ht : ∀ key Seen, db.Tracked key Seen → Seen (db'.visible key) → db'.Tracked key Seen) :
    c.Knows collects db' (w.grow kvObject m) := by
  cases c with
  | writes sync batch =>
    cases w with
    | waits op => exact h
    | queries op answers | answered r => cases h
  | wrote r =>
    cases w with
    | answered r' => exact h
    | queries op answers | waits op => cases h
  | memtables key =>
    cases w with
    | queries op answers =>
      obtain ⟨rfl, -⟩ := h
      exact ⟨rfl, hr.kept (Set.mem_insert _ _)⟩
    | waits op | answered r => cases h
  | tables key =>
    cases w with
    | queries op answers =>
      obtain ⟨rfl, htracked⟩ := h
      exact ⟨rfl, ht key _ (htracked.mono fun o ho => ho.mono hp hd (Set.subset_insert _ _)) (hr.kept (Set.mem_insert _ _))⟩
    | waits op | answered r => cases h
  | reads key found =>
    cases w with
    | queries op answers =>
      obtain ⟨rfl, l, rfl, hkept⟩ := h
      exact ⟨rfl, l, rfl, hkept.mono hp hd (Set.subset_insert _ _)⟩
    | waits op | answered r => cases h

/-- Another reader is open. -/
theorem GcSys.Inv.openReader {s : GcSys} {m : Contents} (h : s.Inv m) (id : Nat) :
    ({ s with sys := { s.sys with db := { s.db with vlog := s.db.vlog.openReader id } } } : GcSys).Inv m := by
  have hsame := VLog.sameFiles_openReader s.db.vlog id
  have hr : ({ s.db with vlog := s.db.vlog.openReader id, wal := s.db.wal } : DB).Reliable m :=
    h.reliable.sameFiles hsame h.reliable.inv.wal
  refine ⟨h.sys.logSteps (DB.LogSteps.refl.logs _ s.db.wal s.db.walId s.db.sequenceNumber (Nat.le_refl _)), hr,
    fun t c hc => (h.collectors t c hc).passes h.reliable.intact.whole hsame.passes fun _ _ _ _ _ he _ => he,
    fun t seg r newPtr rest hc hdir => ?_⟩
  show newPtr.fileId ∈ (s.db.vlog.openReader id).files.dir ∧ _
  rw [hsame.dir]
  exact h.copies t seg r newPtr rest hc (hsame.dir ▸ hdir)

namespace CallSys

/-! ## Steps -/

/-- What is known of the callers. -/
structure Inv (collects : Bool) (s : CallSys) (m : Contents) (v : Nat → Option (View Operation Reply)) : Prop where
  gc : s.gc.Inv m
  calm : collects = false → ∀ t, s.gc.collectors t = none
  callers : ∀ t, (s.callers t = none ∧ v t = none) ∨
    ∃ c w, s.callers t = some c ∧ v t = some w ∧ c.Knows collects s.db w

variable {collects : Bool} {s : CallSys} {m : Contents} {v : Nat → Option (View Operation Reply)}

/-- A step of the threads. -/
theorem Inv.pass (h : s.Inv collects m v) {g : GcSys} {m' : Contents} (hg : g.Inv m')
    (hcalm : collects = false → ∀ t, g.collectors t = none) (hp : s.db.vlog.Passes g.db.vlog)
    (hd : collects = false → ∀ id ∈ s.db.vlog.files.dir, id ∈ g.db.vlog.files.dir)
    (ht : ∀ key Seen, s.db.Tracked key Seen → Seen (g.db.visible key) → g.db.Tracked key Seen) :
    ({ s with gc := g } : CallSys).Inv collects m' fun t => (v t).map (View.grow kvObject m') := by
  refine ⟨hg, hcalm, fun t => ?_⟩
  rcases h.callers t with ⟨hc, hv⟩ | ⟨c, w, hc, hv, hk⟩
  · exact Or.inl ⟨hc, by rw [hv]; rfl⟩
  · exact Or.inr ⟨c, w.grow kvObject m', hc, by rw [hv]; rfl, hk.grow hp hd hg.reliable ht⟩

/-- A step of a caller. -/
theorem Inv.update (h : s.Inv collects m v) (t : Nat) {c : Option Caller} {w : Option (View Operation Reply)}
    (hk : (c = none ∧ w = none) ∨ ∃ c' w', c = some c' ∧ w = some w' ∧ c'.Knows collects s.db w') :
    ({ s with callers := Function.update s.callers t c } : CallSys).Inv collects m (Function.update v t w) := by
  refine ⟨h.gc, h.calm, fun t' => ?_⟩
  show (Function.update s.callers t c t' = none ∧ _) ∨ ∃ c' w', Function.update s.callers t c t' = some c' ∧ _
  by_cases ht : t' = t
  · subst ht
    rw [Function.update_self, Function.update_self]
    exact hk
  · rw [Function.update_of_ne ht, Function.update_of_ne ht]
    exact h.callers t'

/-- A section of a caller that takes no effect. -/
theorem Inv.stay (h : s.Inv collects m v) {t : Nat} {c : Caller} {w : View Operation Reply} (hv : v t = some w)
    (hk : c.Knows collects s.db w) :
    ({ s with callers := Function.update s.callers t (some c) } : CallSys).Inv collects m v := by
  have hupdate := h.update t (Or.inr ⟨c, w, rfl, rfl, hk⟩)
  rwa [← hv, Function.update_eq_self] at hupdate

/-- A step of a thread. -/
theorem Inv.thread (h : s.Inv collects m v) {a : Act} (ha : s.gc.sys.Apart a) (hf : a.Fits) :
    ({ s with gc := s.gc.step (.thread a) } : CallSys).Inv collects (WriteBatch.apply m a.entries)
      fun t => (v t).map (View.grow kvObject (WriteBatch.apply m a.entries)) := by
  have hp := (h.gc.sys.passes h.gc.reliable ha hf).2
  exact h.pass (h.gc.thread ha hf) h.calm hp.vlog (fun _ => hp.dir) fun _ _ htracked hseen =>
    h.gc.sys.tracked ha htracked hseen

/-- A section of a collection. -/
theorem Inv.collect (h : s.Inv collects m v) (t : Nat) :
    ({ s with gc := s.gc.step (.gc t) } : CallSys).Inv collects m fun t => (v t).map (View.grow kvObject m) := by
  obtain ⟨htables, hqueue, hp⟩ := h.gc.gc_same t
  have hcalm : collects = false → s.gc.step (.gc t) = s.gc := fun hc => GcSys.step_gc_none (h.calm hc t)
  refine h.pass (h.gc.gc t) (fun hc => ?_) hp (fun hc => ?_) fun key Seen htracked _ => ?_
  · rw [hcalm hc]
    exact h.calm hc
  · rw [hcalm hc]
    exact fun _ hid => hid
  · exact htracked.congr hqueue (DB.tableVersions_congr htables.levels htables.options key)

/-- The reader that a `Get` opens. -/
theorem Inv.openFound (h : s.Inv collects m v) (found : Option InternalEntry) :
    ({ s with gc := s.setDb (s.db.openFound found) } : CallSys).Inv collects m
      fun t => (v t).map (View.grow kvObject m) := by
  have hsame : ({ s with gc := s.setDb s.db } : CallSys).Inv collects m fun t => (v t).map (View.grow kvObject m) :=
    h.pass h.gc h.calm (VLog.Passes.refl s.db.vlog) (fun _ _ hid => hid) fun _ _ htracked _ => htracked
  unfold DB.openFound
  split
  · rename_i e
    split
    · exact hsame
    · have hfiles := VLog.sameFiles_openReader s.db.vlog e.vlogPtr.fileId
      refine h.pass (h.gc.openReader e.vlogPtr.fileId) h.calm hfiles.passes (fun _ id hid => ?_) fun key Seen htracked _ =>
        htracked.congr rfl rfl
      exact hfiles.dir.symm ▸ hid
  · exact hsame

variable {m₀ : Contents} {hist : List (Histories.Event Nat Operation Reply)}

/-- **A call.** -/
theorem Inv.call (h : s.Inv collects m v) (hf : kvObject.Foreseen m₀ hist m v) {t : Nat} (hc : s.callers t = none)
    {c : Caller} {op : Operation} {w : View Operation Reply} (hw : w.Fresh op) (hs : w.Sound kvObject)
    (hk : c.Knows collects s.db (w.grow kvObject m)) : ∃ v',
    ({ s with callers := Function.update s.callers t (some c) } : CallSys).Inv collects m v' ∧
      kvObject.Foreseen m₀ (hist ++ [.call t op]) m v' := by
  have hv : v t = none := by
    rcases h.callers t with ⟨-, hv⟩ | ⟨c', w', hc', -⟩
    · exact hv
    · rw [hc] at hc'
      cases hc'
  have hgrown := h.pass h.gc h.calm (VLog.Passes.refl s.db.vlog) (fun _ _ hid => hid) fun _ _ htracked _ => htracked
  refine ⟨_, hgrown.update t (Or.inr ⟨c, _, rfl, rfl, hk⟩), ?_⟩
  have hcall := (hf.call hv hw hs).grow
  have hcomp := Function.comp_update (Option.map (View.grow kvObject m)) v t (some w)
  rw [Option.map_some] at hcomp
  exact hcomp ▸ hcall

/-- **A section of a caller.** -/
theorem Inv.section (h : s.Inv collects m v) (hf : kvObject.Foreseen m₀ hist m v) {t : Nat}
    (hr : s.Regular collects (.go t)) : ∃ m' v', (s.step (.go t)).Inv collects m' v' ∧
      kvObject.Foreseen m₀ (hist ++ s.events (.go t)) m' v' := by
  rw [CallSys.step, events]
  rcases h.callers t with ⟨hc, hv⟩ | ⟨c, w, hc, hv, hk⟩
  · simp only [hc]
    exact ⟨m, v, h, by rwa [List.append_nil]⟩
  · simp only [hc]
    cases c with
    | writes sync batch =>
      cases w with
      | queries op answers | answered r => cases hk
      | waits op =>
        obtain ⟨rfl, hfits⟩ := hk
        have hthread := h.thread (a := .write sync batch) trivial hfits
        obtain ⟨db', he, -⟩ := DB.write_spec h.gc.reliable.inv h.gc.reliable.refines sync hfits
        have hok : (s.db.write sync batch {}).2 = .ok () := congrArg Prod.snd he
        have hmoment := (hf.moment hv).grow
        have hcomp := Function.comp_update (Option.map (View.grow kvObject (WriteBatch.apply m batch))) v t
          (some (.answered (.write (.ok ()))))
        have hupdate := hthread.update t (c := some (.wrote (s.db.write sync batch {}).2))
          (w := some (.answered (.write (.ok ())))) (Or.inr ⟨_, _, rfl, rfl, by rw [hok]; rfl⟩)
        refine ⟨_, _, hupdate, ?_⟩
        rw [show ((s.db.callStep (.writes sync batch)).2.2.map (Histories.Event.ret t)).toList = [] from rfl, List.append_nil]
        exact hcomp ▸ hmoment
    | wrote r =>
      cases w with
      | queries op answers | waits op => cases hk
      | answered r' =>
        have hret := hf.ret hv (r := .write r) hk
        exact ⟨m, _, h.update t (Or.inl ⟨rfl, rfl⟩), hret⟩
    | memtables key =>
      cases w with
      | waits op | answered r => cases hk
      | queries op answers =>
        obtain ⟨rfl, hkept⟩ := hk
        have hwf := h.gc.reliable.inv.wf
        have hmem := DB.findInMemtables_eq hwf.memtables key
        rw [DB.callStep]
        cases hfind : s.db.findInMemtables key with
        | some e =>
          have hhead : some e = (s.db.versions key).head? := by
            rw [hfind] at hmem
            rw [DB.versions, List.head?_append, ← hmem]
            rfl
          exact ⟨m, v, h.stay (c := .reads key (some e)) hv ⟨rfl, s.db.versions key, hhead, hkept⟩, by simpa using hf⟩
        | none =>
          have hmiss : memVersions s.db.memtables key = [] := by
            rw [hfind] at hmem
            exact List.head?_eq_none_iff.mp hmem.symm
          have htracked := DB.tracked_of_miss h.gc.sys.steady.settled hmiss hkept
          exact ⟨m, v, h.stay (c := .tables key) hv ⟨rfl, htracked⟩, by simpa using hf⟩
    | tables key =>
      cases w with
      | waits op | answered r => cases hk
      | queries op answers =>
        obtain ⟨rfl, htracked⟩ := hk
        have htab : s.db.findInTables noFails key = (s.db.tableVersions key).head? :=
          Levels.find_eq h.gc.reliable.inv.wf.levels key
        have hseen := htracked.seen [] List.nil_suffix
        refine ⟨m, v, h.stay (c := .reads key (s.db.findInTables noFails key)) hv
          ⟨rfl, s.db.tableVersions key, htab, hseen⟩, ?_⟩
        simpa [DB.callStep] using hf
    | reads key found =>
      cases w with
      | waits op | answered r => cases hk
      | queries op answers =>
        obtain ⟨rfl, l, rfl, hkept⟩ := hk
        have hanswer := hkept.read fun e he hlive hcol => hr key e (by rw [hc, he]) hlive hcol
        have hret := (hf.ret hv (r := .get (observe (DB.resolve s.db.vlog l.head?))) hanswer).grow
        have hcomp := Function.comp_update (Option.map (View.grow kvObject m)) v t none
        exact ⟨m, _, (h.openFound l.head?).update t (Or.inl ⟨rfl, rfl⟩), hcomp ▸ hret⟩

/-- **A turn.** -/
theorem Inv.step (h : s.Inv collects m v) (hf : kvObject.Foreseen m₀ hist m v) {turn : Turn} (hr : s.Regular collects turn) :
    ∃ m' v', (s.step turn).Inv collects m' v' ∧ kvObject.Foreseen m₀ (hist ++ s.events turn) m' v' := by
  cases turn with
  | callWrite t sync batch =>
    rw [CallSys.step, CallSys.call, events]
    cases hc : s.callers t with
    | some c => exact ⟨m, v, h, by simpa using hf⟩
    | none =>
      have hfresh : (View.waits (.write batch) : View Operation Reply).Fresh (.write batch) := Or.inl rfl
      obtain ⟨v', hi, hf'⟩ := h.call hf hc (c := .writes sync batch) hfresh trivial ⟨rfl, hr⟩
      exact ⟨m, v', hi, hf'⟩
  | callGet t key =>
    rw [CallSys.step, CallSys.call, events]
    cases hc : s.callers t with
    | some c => exact ⟨m, v, h, by simpa using hf⟩
    | none =>
      have hfresh : (View.queries (.get key) ∅ : View Operation Reply).Fresh (.get key) := Or.inr rfl
      obtain ⟨v', hi, hf'⟩ := h.call hf hc (c := .memtables key) hfresh (fun _ => rfl)
        ⟨rfl, h.gc.reliable.kept (Set.mem_insert _ _)⟩
      exact ⟨m, v', hi, hf'⟩
  | go t => exact h.section hf hr
  | background b =>
    have hnil : hist ++ s.events (.background b) = hist := List.append_nil hist
    have hquiet : ∀ {a : Act}, a.entries = [] → a.Fits := fun he e hm => by
      rw [he] at hm
      cases hm
    rw [hnil]
    cases b with
    | flush => exact ⟨m, _, h.thread (a := .flush) trivial (hquiet rfl), hf.grow⟩
    | startCompact t lvl => exact ⟨m, _, h.thread (a := .startCompact t lvl) hr (hquiet rfl), hf.grow⟩
    | compact t => exact ⟨m, _, h.thread (a := .compact t) trivial (hquiet rfl), hf.grow⟩
    | gc t => exact ⟨m, _, h.collect t, hf.grow⟩
    | startGc t =>
      have hdb : (s.gc.step (.startGc t)).db = s.db := GcSys.db_startGc s.gc t
      refine ⟨m, _, h.pass (h.gc.startGc t) (fun hc => ?_) ?_ (fun _ id hid => ?_) fun key Seen htracked _ => ?_, hf.grow⟩
      · have hcol : collects = true := hr
        rw [hc] at hcol
        cases hcol
      · exact hdb.symm ▸ VLog.Passes.refl s.db.vlog
      · exact hdb.symm ▸ hid
      · exact hdb.symm ▸ htracked

/-- **A run.** -/
theorem Inv.run : ∀ (turns : List Turn) (s : CallSys) (m : Contents) (v : Nat → Option (View Operation Reply))
    (hist : List (Histories.Event Nat Operation Reply)), s.Inv collects m v → kvObject.Foreseen m₀ hist m v →
    Along (Regular collects) s turns → ∃ m' v', kvObject.Foreseen m₀ (hist ++ s.history turns) m' v'
  | [], s, m, v, hist, _, hf, _ => ⟨m, v, by simpa [history] using hf⟩
  | turn :: turns, s, m, v, hist, h, hf, hr => by
    obtain ⟨m₁, v₁, h₁, hf₁⟩ := h.step hf hr.1
    obtain ⟨m₂, v₂, hf₂⟩ := Inv.run turns (s.step turn) m₁ v₁ _ h₁ hf₁ hr.2
    refine ⟨m₂, v₂, ?_⟩
    rw [history, ← List.append_assoc]
    exact hf₂

/-- **Calls are linearizable.** In every interleaving of the sections of any number of callers of `Write` and `Get` with those
of the flush thread, of compactions and of collections: there is a moment of every call at which it takes effect, as on a
map, and the answer is the one of that moment. When there are collections, the file of the version that a `Get` found has to
be one that it can open. -/
theorem calls_linearizable {db : DB} (h : db.Opens) (hi : db.Intact) (hl : db.Live) (hr : db.Refines m) (collects : Bool)
    (turns : List Turn) (hs : Along (Regular collects) (start db) turns) :
    kvObject.Linearizable m ((start db).history turns) := by
  have hstart : (start db).Inv collects m fun _ => none :=
    ⟨GcSys.inv_start h hi hl hr, fun _ _ => rfl, fun _ => Or.inl ⟨rfl, rfl⟩⟩
  obtain ⟨m', v', hf⟩ := Inv.run turns (start db) m _ [] hstart (Object.foreseen_start kvObject m) hs
  exact hf.linearizable

/-- A `Get` finds a version; the key is deleted, and its table is flushed, before the value is read. -/
def deletedMeanwhile : List Turn :=
  [.callWrite 0 true [.put [1] [7]], .go 0, .go 0, .callGet 1 [1], .go 1, .callWrite 0 false [.delete [1]],
    .background .flush, .go 0, .background .flush, .background .flush, .go 0, .go 1]

/-- Its moment is before the deletion. -/
theorem calls_linearizable_sample : kvObject.Linearizable (fun _ => none)
    ((start (DB.fresh { memtableSizeLimit := 1 })).history deletedMeanwhile) := by
  refine calls_linearizable (.fresh (by decide)) (DB.intact_fresh _) (DB.live_fresh _) (DB.refines_fresh _) false
    deletedMeanwhile ⟨?_, ?_, ?_, trivial, ?_, ?_, trivial, ?_, trivial, trivial, ?_, ?_, trivial⟩
  · show ∀ e ∈ [BatchEntry.put [1] [7]], e.Fits
    decide
  · exact fun _ _ _ _ hc => by cases hc
  · exact fun _ _ _ _ hc => by cases hc
  · exact fun _ _ _ _ hc => by cases hc
  · show ∀ e ∈ [BatchEntry.delete [1]], e.Fits
    decide
  all_goals exact fun _ _ _ _ hc => by cases hc

end CallSys

end SplitKV
