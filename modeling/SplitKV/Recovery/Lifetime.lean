import SplitKV.Lib.Ledger
import SplitKV.Recovery.Collections
import SplitKV.Recovery.Crashes

/-!
# The lifetime of a directory

A directory lives through openings, sessions with collections and reads, clean shutdowns, and crashes of the process in the
middle of each of them. As long as the scan of every collection that rewrites its segment delivers what is visible in it,
an opening succeeds at any time, and `Get` answers for the entries that were left (`Machine.lifetime_durable`).
-/

namespace SplitKV

namespace DB

/-- `Get` opens the reader of the file that the value lies in. -/
def openFound (db : DB) (found : Option InternalEntry) : DB :=
  match found with
  | some e => if e.type = .deletion then db else { db with vlog := db.vlog.openReader e.vlogPtr.fileId }
  | none => db

/-- The state behind a `Get`. -/
def afterGet (db : DB) (key : Key) : DB := db.openFound (db.findLatest noFails key)

/-- The state in which the destructor is interrupted: it flushed the first `k` memtables, and the flush of the next one gets
as far as its faults let it. -/
def destroyStopped (db : DB) (k : Nat) (f : FlushFaults) : DB :=
  let ms := (if 0 < db.memtable.count then [db.memtable] else []) ++ db.immutableMemtables
  let db := flushAll (fun _ => {}) 0 (ms.take k) db
  match ms[k]? with
  | some m => (db.flushMemTable m f).1
  | none => db

/-- The destructor flushes memtables of the database. -/
theorem mem_destroyed {db : DB} {x : MemTable}
    (hx : x ∈ (if 0 < db.memtable.count then [db.memtable] else []) ++ db.immutableMemtables) : x ∈ db.memtables := by
  rcases List.mem_append.mp hx with hx | hx
  · split at hx
    · exact List.mem_singleton.mp hx ▸ List.mem_cons_self
    · cases hx
  · exact List.mem_cons_of_mem _ (List.mem_reverse.mpr hx)

theorem options_afterGet (db : DB) (key : Key) : (db.afterGet key).options = db.options := by
  unfold afterGet openFound
  split
  · split <;> rfl
  · rfl

theorem onlyIndex_destroyStopped {db : DB} (h : db.Wf) (k : Nat) (f : FlushFaults) :
    db.OnlyIndex (db.destroyStopped k f) := by
  unfold destroyStopped
  simp only
  have hms : ∀ x ∈ (if 0 < db.memtable.count then [db.memtable] else []) ++ db.immutableMemtables, x.Valid :=
    fun x hx => h.memtables x (mem_destroyed hx)
  generalize (if 0 < db.memtable.count then [db.memtable] else []) ++ db.immutableMemtables = ms at hms ⊢
  have hfirst := (drained_flushAll (ms.take k) 0 db h fun x hx => hms x (List.mem_of_mem_take hx)).onlyIndex
  split
  · exact hfirst.trans (onlyIndex_flush _ _ f)
  · exact hfirst

end DB

/-- What happens to a directory. -/
inductive Happening
  | event (ev : Event)
  | get (key : Key)
  | runGC
  | crashGC (n : Nat) (vlog : AppendFault) (wal : Option Nat)
  | close
  | crashClosing (k : Nat) (f : FlushFaults)

namespace Happening

/-- The entries that are written can be written, and no append of a write that returns fails. -/
def Writes : Happening → Prop
  | event ev => ev.Writes ∧ ev.Faultless
  | _ => True

end Happening

namespace Machine

/-- What a happening does, when all openings have the same options. -/
def live (o : Options) : Machine → Happening → Machine
  | m, .event ev => m.next o ev
  | .on db, .get key => .on (db.afterGet key)
  | .on db, .runGC => .on (db.runGC .none).1
  | .on db, .crashGC n vlog wal => .off (db.gcStopped n vlog wal).disk
  | .on db, .close => .off (db.destroy fun _ => {}).disk
  | .on db, .crashClosing k f => .off (db.destroyStopped k f).disk
  | m, _ => m

/-- The ids and the sequence numbers behind a happening are within their bounds. -/
def LiveBounded (o : Options) : Machine → Happening → Prop
  | m, .event ev => m.Bounded o ev
  | .on db, .runGC => (db.runGC .none).1.Small
  | .on db, .crashGC n vlog wal => (db.gcStopped n vlog wal).Small
  | .on db, .close => (db.destroy fun _ => {}).Small
  | .on db, .crashClosing k f => (db.destroyStopped k f).Small
  | _, _ => True

/-- The scan of a collection delivers what is visible in its segment. -/
def Collects : Machine → Happening → Prop
  | .on db, .runGC => db.Collectable
  | _, _ => True

/-- What a happening leaves: only events leave entries. -/
def LiveLeaves : Machine → Happening → WriteBatch → Prop
  | m, .event ev, es => m.Leaves ev es
  | _, _, es => es = []

/-- The files can be recovered, or the database is in service; the log stands for the contents. -/
def Lives (o : Options) : Machine → Contents → Prop
  | .off d, m => d.Recoverable o ∧ Tells d.vlog (WAL.log d.wal) m
  | .on db, m => db.options = o ∧ db.InService m

variable {o : Options} {db : DB} {m : Contents}

theorem Lives.logs {mach : Machine} (h : mach.Lives o m) : mach.Logs o m := by
  cases mach with
  | off d => exact h
  | on db => exact ⟨h.2.alive.logged, h.1, h.2.tells⟩

theorem Lives.serves {mach : Machine} (h : mach.Lives o m) : mach.Serves m := by
  cases mach with
  | off d => trivial
  | on db => exact ⟨h.2.alive, h.2.settled, h.2.refines⟩

/-! ## Steps -/

theorem inService_afterGet (h : db.InService m) (key : Key) : (db.afterGet key).InService m := by
  unfold DB.afterGet DB.openFound
  split
  · rename_i e he
    split
    · exact h
    · have hopen := VLog.sameFiles_openReader db.vlog e.vlogPtr.fileId
      exact (h.copied_vlog (VLog.extends_openReader db.vlog e.vlogPtr.fileId) (hopen.tidy h.alive.logged.vlog)
        True fun _ => h.alive.ready.sameFiles hopen).inService trivial
  · exact h

/-- The flush of a memtable, wherever it is interrupted. -/
theorem interrupted_flushMemTable (h : db.Logged) {x : MemTable} (hx : x ∈ db.memtables) (f : FlushFaults)
    (hs : (db.flushMemTable x f).1.Small) : db.Interrupted (db.flushMemTable x f).1 [] := by
  have hv := h.wf.memtables x hx
  obtain ⟨levels, next, hd, hle, hcases, -⟩ := DB.flushMemTable_describes h.described hv f
  refine h.interrupted_index (DB.onlyIndex_flush db x f).sameLogs ⟨hd, hle, ?_⟩ hs
  rcases hcases with rfl | rfl
  · exact h.tables
  · intro l info hi
    rcases DB.flushMemTable_levels db hv f l info hi with hold | hnew
    · exact h.tables l info hold
    · rw [hnew]
      exact h.memtables x hx

/-- **A shutdown**, wherever it is interrupted, leaves the log alone. -/
theorem lives_destroyStopped (h : db.InService m) (k : Nat) (f : FlushFaults) (hs : (db.destroyStopped k f).Small) :
    (Machine.off (db.destroyStopped k f).disk).Lives db.options m := by
  unfold DB.destroyStopped at hs ⊢
  simp only at hs ⊢
  have hms : ∀ x ∈ (if 0 < db.memtable.count then [db.memtable] else []) ++ db.immutableMemtables, x ∈ db.memtables :=
    fun _ hx => DB.mem_destroyed hx
  generalize (if 0 < db.memtable.count then [db.memtable] else []) ++ db.immutableMemtables = ms at hs hms ⊢
  have hfirst : ∀ x ∈ ms.take k, x ∈ db.memtables := fun x hx => hms x (List.mem_of_mem_take hx)
  have hl := DB.Logged.flushAll (ms.take k) 0 db h.alive.logged hfirst
  have hi := (DB.drained_flushAll (ms.take k) 0 db h.alive.logged.wf fun x hx =>
    h.alive.logged.wf.memtables x (hfirst x hx)).onlyIndex
  generalize DB.flushAll (fun _ => {}) 0 (ms.take k) db = db₁ at hs hl hi ⊢
  have ht : Tells db₁.vlog.files (WAL.log db₁.wal.files) m := by
    rw [hi.vlog, hi.wal]
    exact h.tells
  cases hk : ms[k]? with
  | none =>
    simp only [hk] at hs
    exact ⟨hi.options ▸ hl.recoverable hs, ht⟩
  | some x =>
    simp only [hk] at hs
    have hx : x ∈ db₁.memtables := by
      rw [hi.memtables]
      exact hms x (List.mem_of_getElem? hk)
    have hint := interrupted_flushMemTable hl hx f hs
    obtain ⟨n, hn⟩ := hint.told m ht
    rw [List.take_nil] at hn
    exact ⟨hi.options ▸ hint.recoverable, hn⟩

/-- **A shutdown** leaves the log alone. -/
theorem lives_destroy (h : db.InService m) (hs : (db.destroy fun _ => {}).Small) :
    (Machine.off (db.destroy fun _ => {}).disk).Lives db.options m := by
  have hi := (DB.drained_destroy h.alive.logged.wf).onlyIndex
  refine ⟨(h.alive.logged.destroy hs).2, ?_⟩
  show Tells (db.destroy fun _ => {}).vlog.files (WAL.log (db.destroy fun _ => {}).wal.files) m
  rw [hi.vlog, hi.wal]
  exact h.tells

/-- **An event.** -/
theorem Lives.event {mach : Machine} {ev : Event} (hu : o.Usable) (hw : ev.Writes) (hf : ev.Faultless)
    (h : mach.Lives o m) (hb : mach.Bounded o ev) :
    ∃ es, mach.Leaves ev es ∧ (mach.next o ev).Lives o (WriteBatch.apply m es) := by
  obtain ⟨es, hes, hl⟩ := h.logs.next hu hw hb (h.serves.behindWhole ev)
  cases mach with
  | off d =>
    have hnil : es = [] := by cases ev <;> exact hes
    subst hnil
    refine ⟨[], hes, ?_⟩
    cases ev with
    | reopen =>
      obtain ⟨hd, ht⟩ := h
      obtain ⟨hres, hok⟩ := DB.openDB_spec hd hu.levels .none hb
      have hopened := hres.opened (hok rfl)
      rw [next_reopen (hok rfl)]
      exact ⟨hopened.options, hopened.inService (hres.tells m ht)⟩
    | crashOpening _ | write _ _ _ _ | flush | compactLevel _ | crash _ => exact hl
  | on db =>
    obtain ⟨ho, hi⟩ := h
    cases ev with
    | write sync batch vlog wal =>
      obtain ⟨rfl, rfl⟩ := hf
      obtain ⟨hok, hopt, hi'⟩ := hi.write sync hw (ho.symm ▸ hu.limit) hb
      exact ⟨batch, ⟨List.prefix_rfl, fun _ => rfl⟩, hopt.trans ho, hi'⟩
    | flush => exact ⟨[], rfl, ((hi.alive.logged.flushFront {}).2 rfl).sameLogs.options.trans ho, hi.flushFront⟩
    | compactLevel lvl => exact ⟨[], rfl, (DB.onlyIndex_compact db lvl .none).options.trans ho, hi.compactLevel lvl⟩
    | crash _ => exact ⟨es, hes, hl⟩
    | crashOpening _ | reopen => exact ⟨[], rfl, ho, hi⟩

/-- **A happening.** -/
theorem Lives.keeps (hu : o.Usable) : Ledger.Keeps (live o) LiveLeaves WriteBatch.apply (Lives o)
    (fun mach x => x.Writes ∧ mach.LiveBounded o x ∧ mach.Collects x) := by
  rintro mach x m h ⟨hw, hb, hc⟩
  cases mach with
  | off d =>
    cases x with
    | event ev => exact h.event hu hw.1 hw.2 hb
    | get _ | runGC | crashGC _ _ _ | close | crashClosing _ _ => exact ⟨[], rfl, h⟩
  | on db =>
    obtain ⟨rfl, hi⟩ := h
    cases x with
    | event ev => exact Lives.event hu hw.1 hw.2 ⟨rfl, hi⟩ hb
    | get key => exact ⟨[], rfl, DB.options_afterGet db key, inService_afterGet hi key⟩
    | runGC =>
      obtain ⟨hi', ho⟩ := hi.runGC hc hu.limit hb
      exact ⟨[], rfl, ho, hi'⟩
    | crashGC n vlog wal =>
      have hcop := hi.gcStopped hu.limit hb
      exact ⟨[], rfl, hcop.options ▸ hcop.logged.recoverable hb, hcop.tells⟩
    | close => exact ⟨[], rfl, lives_destroy hi hb⟩
    | crashClosing k f => exact ⟨[], rfl, lives_destroyStopped hi k f hb⟩

theorem Lives.answers (h : (Machine.on db).Lives o m) (key : Key) : db.result key = DB.answer (m key) :=
  h.2.refines.result h.2.alive.inv key

end Machine

end SplitKV
