import SplitKV.PowerLoss.Machine
import SplitKV.Recovery.Steps

/-!
# Process crashes

When the process crashes, the files keep what was written to them: of an operation that is on its way, what it has done so
far. Without faults, `Get` answers for the batches that were acknowledged and, at every crash, for some of the first
entries of the batch that was being written (`Machine.crashes_durable`). An append that fails may leave a part of its
record behind. As long as nothing is written behind such a part, an opening still finds all batches that were acknowledged
(`Machine.appends_durable`).
-/

namespace SplitKV

/-- What happens to a directory: an operation, a crash of the process during an operation or during an opening, or an
opening. The appends of a write may fail. -/
inductive Event
  | write (sync : Bool) (batch : WriteBatch) (vlog : Nat → AppendFault) (wal : Nat → Option Nat)
  | flush
  | compactLevel (lvl : Int)
  | crash (during : Doing)
  | crashOpening (f : OpenFaults)
  | reopen

namespace Event

/-- The entries an event writes, or tries to write. -/
def entries : Event → WriteBatch
  | write _ batch _ _ => batch
  | crash (.write _ batch _) => batch
  | _ => []

/-- The entries can be written: their records are smaller than 4 GiB, and a manifest can hold their keys. -/
def Writes (ev : Event) : Prop := ∀ e ∈ ev.entries, e.Fits ∧ Token e.key

/-- No append fails. -/
def Faultless : Event → Prop
  | write _ _ vlog wal => vlog = (fun _ => .none) ∧ wal = (fun _ => none)
  | _ => True

end Event

/-- The options can be used: there is a level, and they fit their types. -/
structure Options.Usable (o : Options) : Prop where
  pos : 1 ≤ o.maxSstableLevels
  levels : o.maxSstableLevels < 2 ^ 31
  limit : o.vlogFileSizeLimit < 2 ^ 64

namespace Machine

/-- What an event does, when all openings have the same options. -/
def next (o : Options) : Machine → Event → Machine
  | .on db, .write sync batch vlog wal => .on (db.write sync batch { vlog := vlog, wal := wal }).1
  | .on db, .flush => .on (db.flushFront {})
  | .on db, .compactLevel lvl => .on (db.compactLevel lvl .none).1
  | .on db, .crash during => .off (db.interrupt during).disk
  | .off d, .crashOpening f => .off (DB.openDB o d f).1.disk
  | .off d, .reopen =>
    match DB.openDB o d .none with
    | (db, .ok ()) => .on db
    | (db, .error _) => .off db.disk
  | m, _ => m

/-- An opening that succeeds. -/
theorem next_reopen {o : Options} {d : Disk} (h : (DB.openDB o d .none).2 = .ok ()) :
    (Machine.off d).next o .reopen = .on (DB.openDB o d .none).1 := by
  rw [next, show DB.openDB o d .none = ((DB.openDB o d .none).1, .ok ()) from Prod.ext rfl h]

/-- The machine behind some events. -/
def after (o : Options) (m : Machine) (events : List Event) : Machine := events.foldl (next o) m

/-- Every event meets a condition, in the state it happens in. -/
def Throughout (o : Options) (Q : Machine → Event → Prop) : Machine → List Event → Prop
  | _, [] => True
  | m, ev :: events => Q m ev ∧ (m.next o ev).Throughout o Q events

/-- The ids and the sequence numbers behind an event are within their bounds. -/
def Bounded (o : Options) : Machine → Event → Prop
  | .on db, .write sync batch vlog wal => (db.write sync batch { vlog := vlog, wal := wal }).1.Small
  | .on db, .flush => (db.flushFront {}).Small
  | .on db, .compactLevel lvl => (db.compactLevel lvl .none).1.Small
  | .on db, .crash during => (db.interrupt during).Small
  | .off d, .crashOpening f => (DB.openDB o d f).1.Small
  | .off d, .reopen => (DB.openDB o d .none).1.Small
  | _, _ => True

/-- Entries are written behind whole records: the newest WAL file consists of them, and the value log is at the end of its
file, or starts a new one. -/
def BehindWhole : Machine → Event → Prop
  | .on db, ev => ev.entries ≠ [] → db.wal.Active ∧ DB.Continues db.options db.vlog ev.entries
  | .off _, _ => True

/-- The entries `es` are what an event leaves: a batch that is acknowledged, and some of the first entries of a batch that
is not. -/
def Leaves : Machine → Event → WriteBatch → Prop
  | .on db, .write sync batch vlog wal, es =>
    es <+: batch ∧ ((db.write sync batch { vlog := vlog, wal := wal }).2 = .ok () → es = batch)
  | .on _, .crash (.write _ batch _), es => es <+: batch
  | _, _, es => es = []

/-- The entries that the events of a run leave, one after the other. -/
def LeavesAll (o : Options) : Machine → List Event → WriteBatch → Prop
  | _, [], es => es = []
  | m, ev :: events, es => ∃ a b, es = a ++ b ∧ m.Leaves ev a ∧ (m.next o ev).LeavesAll o events b

/-! ## The log -/

/-- The files of the machine can be recovered, and its log stands for the contents. -/
def Logs (o : Options) : Machine → Contents → Prop
  | .off d, m => d.Recoverable o ∧ Tells d.vlog (WAL.log d.wal) m
  | .on db, m => db.Logged ∧ db.options = o ∧ Tells db.vlog.files (WAL.log db.wal.files) m

section

variable {o : Options} {db : DB} {m : Contents}

/-- A machine whose operation was interrupted. -/
theorem logs_interrupted {db' : DB} {batch : WriteBatch} (h : db.Interrupted db' batch) (ho : db.options = o)
    (ht : Tells db.vlog.files (WAL.log db.wal.files) m) :
    ∃ es, es <+: batch ∧ (Machine.off db'.disk).Logs o (WriteBatch.apply m es) := by
  obtain ⟨n, hn⟩ := h.told m ht
  exact ⟨batch.take n, List.take_prefix n batch, ho ▸ h.recoverable, hn⟩

/-- A machine whose index was changed. -/
theorem logs_reindexed {db' : DB} (h : db.Reindexed db') (ho : db.options = o)
    (ht : Tells db.vlog.files (WAL.log db.wal.files) m) : (Machine.on db').Logs o m := by
  refine ⟨h.logged, h.sameLogs.options.trans ho, ?_⟩
  rw [h.sameLogs.vlog, h.sameLogs.wal]
  exact ht

/-- **A write** behind whole records, wherever an append fails. -/
theorem logs_write (hu : o.Usable) (h : (Machine.on db).Logs o m) (sync : Bool) {batch : WriteBatch}
    (hw : ∀ e ∈ batch, e.Fits ∧ Token e.key)
    (hc : batch ≠ [] → db.wal.Active ∧ DB.Continues db.options db.vlog batch) (f : WriteFaults)
    (hs : (db.write sync batch f).1.Small) :
    (∃ es, es <+: batch ∧ (Machine.off (db.write sync batch f).1.disk).Logs o (WriteBatch.apply m es)) ∧
      (f.create = .none → ∃ es, es <+: batch ∧ ((db.write sync batch f).2 = .ok () → es = batch) ∧
        (Machine.on (db.write sync batch f).1).Logs o (WriteBatch.apply m es)) := by
  obtain ⟨hl, ho, ht⟩ := h
  by_cases hnil : batch = []
  · subst hnil
    have hend := hl.endWrite sync f.create
    refine ⟨⟨[], List.prefix_rfl, ho ▸ hend.recoverable hs, hend.told m ht⟩, fun hf => ?_⟩
    obtain ⟨h₁, h₂, -⟩ := hend.completed hf
    exact ⟨[], List.prefix_rfl, fun _ => rfl, h₁, h₂.trans ho, hend.told m ht⟩
  · obtain ⟨ha, hcont⟩ := hc hnil
    obtain ⟨h₁, ⟨h₂, h₃⟩, h₄⟩ := hl.write ha sync hcont (fun e he => (hw e he).1) (fun e he => (hw e he).2)
      (ho.symm ▸ hu.limit) f hs
    obtain ⟨n, hn⟩ := h₂ m ht
    refine ⟨⟨batch.take n, List.take_prefix n batch, ho ▸ h₁, hn⟩, fun hf => ?_⟩
    obtain ⟨g₁, g₂, -⟩ := h₄ hf
    by_cases hok : (db.write sync batch f).2 = .ok ()
    · exact ⟨batch, List.prefix_rfl, fun _ => rfl, g₁, g₂.trans ho, h₃ hok m ht⟩
    · exact ⟨batch.take n, List.take_prefix n batch, fun he => absurd he hok, g₁, g₂.trans ho, hn⟩

/-- **An opening.** -/
theorem logs_opening {d : Disk} {ev : Event} (hu : o.Usable) (h : (Machine.off d).Logs o m)
    (hb : (Machine.off d).Bounded o ev) : ((Machine.off d).next o ev).Logs o m := by
  obtain ⟨hd, ht⟩ := h
  cases ev with
  | crashOpening f =>
    obtain ⟨hres, -⟩ := DB.openDB_spec hd hu.levels f hb
    exact ⟨hres.recoverable, hres.tells m ht⟩
  | reopen =>
    obtain ⟨hres, hok⟩ := DB.openDB_spec hd hu.levels .none hb
    have hopened := hres.opened (hok rfl)
    rw [next_reopen (hok rfl)]
    exact ⟨hopened.logged, hopened.options, hres.tells m ht⟩
  | write _ _ _ _ | flush | compactLevel _ | crash _ => exact ⟨hd, ht⟩

/-- **An event.** -/
theorem Logs.next {mach : Machine} {ev : Event} (hu : o.Usable) (hw : ev.Writes) (h : mach.Logs o m)
    (hb : mach.Bounded o ev) (hc : mach.BehindWhole ev) :
    ∃ es, mach.Leaves ev es ∧ (mach.next o ev).Logs o (WriteBatch.apply m es) := by
  cases mach with
  | off d => exact ⟨[], by cases ev <;> rfl, logs_opening hu h hb⟩
  | on db =>
    obtain ⟨hl, ho, ht⟩ := h
    cases ev with
    | write sync batch vlog wal =>
      obtain ⟨es, h₁, h₂, h₃⟩ := (logs_write hu ⟨hl, ho, ht⟩ sync hw hc { vlog := vlog, wal := wal } hb).2 rfl
      exact ⟨es, ⟨h₁, h₂⟩, h₃⟩
    | flush => exact ⟨[], rfl, logs_reindexed ((hl.flushFront {}).2 rfl) ho ht⟩
    | compactLevel lvl => exact ⟨[], rfl, logs_reindexed ((hl.compactLevel lvl .none).2 rfl) ho ht⟩
    | crash during =>
      cases during with
      | nothing => exact ⟨[], rfl, ho ▸ hl.recoverable hb, ht⟩
      | write sync batch f => exact (logs_write hu ⟨hl, ho, ht⟩ sync hw hc f hb).1
      | flush f =>
        obtain ⟨es, he, hes⟩ := logs_interrupted ((hl.flushFront f).1 hb) ho ht
        exact ⟨es, List.prefix_nil.mp he, hes⟩
      | compactLevel lvl f =>
        obtain ⟨es, he, hes⟩ := logs_interrupted ((hl.compactLevel lvl f).1 hb) ho ht
        exact ⟨es, List.prefix_nil.mp he, hes⟩
    | crashOpening _ | reopen => exact ⟨[], rfl, hl, ho, ht⟩

end

/-- **A run.** -/
theorem Logs.after {o : Options} (hu : o.Usable) : ∀ {events : List Event} {mach : Machine} {m : Contents},
    (∀ ev ∈ events, ev.Writes) → mach.Logs o m → mach.Throughout o (Bounded o) events →
    mach.Throughout o BehindWhole events →
    ∃ es, mach.LeavesAll o events es ∧ (mach.after o events).Logs o (WriteBatch.apply m es)
  | [], mach, m, _, h, _, _ => ⟨[], rfl, h⟩
  | ev :: events, mach, m, hw, h, ⟨hb, hbs⟩, ⟨hc, hcs⟩ => by
    obtain ⟨a, ha, h'⟩ := h.next hu (hw ev List.mem_cons_self) hb hc
    obtain ⟨b, hb', h''⟩ := Logs.after hu (fun ev hev => hw ev (List.mem_cons_of_mem _ hev)) h' hbs hcs
    refine ⟨a ++ b, ⟨a, b, rfl, ha, hb'⟩, ?_⟩
    rw [WriteBatch.apply_append]
    exact h''

theorem logs_start {o : Options} (hu : o.Usable) : start.Logs o (fun _ => none) := by
  have hempty : Disk.empty.Recoverable o := by
    refine ⟨WAL.logs_empty, ⟨fun r hr => ?_, List.Pairwise.nil, fun r hr => ?_, fun r hr => ?_⟩, ?_, fun id hid => ?_,
      fun id hid => ?_⟩
    · cases hr
    · cases hr
    · cases hr
    · refine ⟨fun _ => [], 1, by decide, ⟨Or.inl ⟨rfl, rfl, rfl⟩, fun l info hi => ?_, ?_, fun l info hi => ?_,
        fun l l' a b ha => ?_⟩, fun l info hi => ?_⟩
      · cases hi
      · exact ⟨hu.pos, fun l info hi => absurd hi List.not_mem_nil, fun _ => List.Pairwise.nil, fun _ _ _ => Nat.zero_le 1,
          fun _ _ => rfl⟩
      · cases hi
      · cases ha
      · cases hi
    · cases hid
    · cases hid
  exact ⟨hempty, tells_nil _⟩

/-- What an opening finds. -/
theorem logs_found {o : Options} {d : Disk} {m : Contents} (hu : o.Usable) (h : (Machine.off d).Logs o m)
    (hs : (DB.openDB o d .none).1.Small) : (DB.openDB o d .none).2 = .ok () ∧ (DB.openDB o d .none).1.Alive ∧
      (DB.openDB o d .none).1.Settled ∧ (DB.openDB o d .none).1.Refines m := by
  obtain ⟨hd, ht⟩ := h
  obtain ⟨hres, hok⟩ := DB.openDB_spec hd hu.levels .none hs
  have hopened := hres.opened (hok rfl)
  exact ⟨hok rfl, hopened.alive, hopened.settled, hopened.refines (hres.tells m ht)⟩

/-- **Durability behind failed appends.** In every run of writes, flushes, compactions, crashes of the process and openings
in which appends may fail at any byte, but entries are only written behind whole records, an opening succeeds, and `Get`
answers for the entries that the events leave: those of every batch that was acknowledged, and some of the first entries
of every other batch. -/
theorem appends_durable {o : Options} (hu : o.Usable) {events : List Event} (hw : ∀ ev ∈ events, ev.Writes)
    (hb : start.Throughout o (Bounded o) events) (hc : start.Throughout o BehindWhole events) {d : Disk}
    (hd : start.after o events = .off d) (hs : (DB.openDB o d .none).1.Small) : (DB.openDB o d .none).2 = .ok () ∧
      ∃ es, start.LeavesAll o events es ∧
        ∀ key, (DB.openDB o d .none).1.result key = DB.answer (WriteBatch.apply (fun _ => none) es key) := by
  obtain ⟨es, hes, h⟩ := (logs_start hu).after hu hw hb hc
  rw [hd] at h
  obtain ⟨hok, ha, -, hr⟩ := logs_found hu h hs
  exact ⟨hok, es, hes, fun key => hr.result ha.inv key⟩

/-! ## No append fails -/

/-- The database that runs is alive, and shows the contents. -/
def Serves : Machine → Contents → Prop
  | .off _, _ => True
  | .on db, m => db.Alive ∧ db.Settled ∧ db.Refines m

/-- A database that is alive writes behind whole records. -/
theorem Serves.behindWhole {mach : Machine} {m : Contents} (h : mach.Serves m) (ev : Event) : mach.BehindWhole ev := by
  cases mach with
  | off d => trivial
  | on db => exact fun _ => ⟨h.1.active, DB.continues_of_ready h.1.ready.offset _⟩

/-- **An event without faults.** -/
theorem Serves.next {o : Options} {mach : Machine} {m : Contents} {ev : Event} (hu : o.Usable) (hw : ev.Writes)
    (hf : ev.Faultless) (hl : mach.Logs o m) (h : mach.Serves m) (hb : mach.Bounded o ev) :
    ∃ es, mach.Leaves ev es ∧ (mach.next o ev).Logs o (WriteBatch.apply m es) ∧
      (mach.next o ev).Serves (WriteBatch.apply m es) := by
  obtain ⟨es, hes, hl'⟩ := hl.next hu hw hb (h.behindWhole ev)
  refine ⟨es, hes, hl', ?_⟩
  cases mach with
  | off d =>
    have hnil : es = [] := by cases ev <;> exact hes
    subst hnil
    cases ev with
    | reopen =>
      obtain ⟨hok, ha, hset, hr⟩ := logs_found hu hl hb
      rw [next_reopen hok]
      exact ⟨ha, hset, hr⟩
    | crashOpening _ | write _ _ _ _ | flush | compactLevel _ | crash _ => trivial
  | on db =>
    obtain ⟨ha, hset, hr⟩ := h
    cases ev with
    | write sync batch vlog wal =>
      obtain ⟨rfl, rfl⟩ := hf
      have hfits : ∀ e ∈ batch, e.Fits := fun e he => (hw e he).1
      obtain ⟨db', he, hk⟩ := DB.write_spec ha.inv hr sync hfits
      obtain ⟨-, -, hact⟩ := ha.logged.write ha.active sync (DB.continues_of_ready ha.ready.offset batch) hfits
        (fun e he => (hw e he).2) (hl.2.1.symm ▸ hu.limit) {} hb
      obtain ⟨-, hall⟩ := hes
      have hactive := (hact rfl).2.2
      have hlogged := hl'.1
      rw [he] at hall hactive hlogged
      rw [hall rfl, Machine.next, he]
      exact ⟨⟨hlogged, hactive rfl, hk.inv.vlog.ready⟩, hk.settled hset, hk.refines⟩
    | flush =>
      subst hes
      have hk := DB.flushFront_spec ha.inv hr (f := {}) fun m _ => Or.inr ⟨rfl, fun _ _ => rfl, rfl, rfl⟩
      exact ⟨((ha.logged.flushFront {}).2 rfl).alive ha, hk.settled hset, hk.refines⟩
    | compactLevel lvl =>
      subst hes
      have hk := (DB.compactLevel_spec ha.logged.wf hset lvl).keeps ha.inv hr
      exact ⟨((ha.logged.compactLevel lvl .none).2 rfl).alive ha, hk.settled hset, hk.refines⟩
    | crash _ => trivial
    | crashOpening _ | reopen =>
      subst hes
      exact ⟨ha, hset, hr⟩

/-- **A run without faults.** -/
theorem Serves.after {o : Options} (hu : o.Usable) : ∀ {events : List Event} {mach : Machine} {m : Contents},
    (∀ ev ∈ events, ev.Writes ∧ ev.Faultless) → mach.Logs o m → mach.Serves m → mach.Throughout o (Bounded o) events →
    ∃ es, mach.LeavesAll o events es ∧ (mach.after o events).Logs o (WriteBatch.apply m es) ∧
      (mach.after o events).Serves (WriteBatch.apply m es)
  | [], mach, m, _, hl, h, _ => ⟨[], rfl, hl, h⟩
  | ev :: events, mach, m, hw, hl, h, ⟨hb, hbs⟩ => by
    obtain ⟨hw₁, hf₁⟩ := hw ev List.mem_cons_self
    obtain ⟨a, ha, hl', h'⟩ := h.next hu hw₁ hf₁ hl hb
    obtain ⟨b, hb', h''⟩ := Serves.after hu (fun ev hev => hw ev (List.mem_cons_of_mem _ hev)) hl' h' hbs
    refine ⟨a ++ b, ⟨a, b, rfl, ha, hb'⟩, ?_⟩
    rw [WriteBatch.apply_append]
    exact h''

/-- Without faults, entries are written behind whole records. -/
theorem Serves.throughout {o : Options} (hu : o.Usable) : ∀ {events : List Event} {mach : Machine} {m : Contents},
    (∀ ev ∈ events, ev.Writes ∧ ev.Faultless) → mach.Logs o m → mach.Serves m → mach.Throughout o (Bounded o) events →
    mach.Throughout o BehindWhole events
  | [], _, _, _, _, _, _ => trivial
  | ev :: _, _, _, hw, hl, h, ⟨hb, hbs⟩ => by
    obtain ⟨hw₁, hf₁⟩ := hw ev List.mem_cons_self
    obtain ⟨a, -, hl', h'⟩ := h.next hu hw₁ hf₁ hl hb
    exact ⟨h.behindWhole ev, Serves.throughout hu (fun ev hev => hw ev (List.mem_cons_of_mem _ hev)) hl' h' hbs⟩

/-- **Durability over process crashes.** Behind every run of writes, flushes, compactions, crashes of the process and
openings, an opening succeeds; and when a database is open, `Get` answers for the entries that the events leave: those of
every batch that was acknowledged, and some of the first entries of every batch that a crash interrupted. -/
theorem crashes_durable {o : Options} (hu : o.Usable) {events : List Event} (hw : ∀ ev ∈ events, ev.Writes ∧ ev.Faultless)
    (hb : start.Throughout o (Bounded o) events) :
    (∀ d, start.after o events = .off d → (DB.openDB o d .none).1.Small → (DB.openDB o d .none).2 = .ok ()) ∧
      ∀ db, start.after o events = .on db → ∃ es, start.LeavesAll o events es ∧
        ∀ key, db.result key = DB.answer (WriteBatch.apply (fun _ => none) es key) := by
  obtain ⟨es, hes, hl, h⟩ := Serves.after hu hw (logs_start hu) trivial hb
  constructor
  · intro d hd hs
    rw [hd] at hl
    exact (logs_found hu hl hs).1
  · intro db hdb
    rw [hdb] at h
    obtain ⟨ha, -, hr⟩ := h
    exact ⟨es, hes, fun key => hr.result ha.inv key⟩

/-- Nothing goes wrong in the appends. -/
abbrev sure (sync : Bool) (batch : WriteBatch) : Event := .write sync batch (fun _ => .none) (fun _ => none)

/-- A batch is acknowledged, the process crashes while it writes the record of the second entry of another one, and the
database is opened again. -/
def crashInBatch : List Event :=
  [.reopen, sure false [.put [1] [7]],
    .crash (.write false [.put [1] [8], .put [2] [9]] { wal := fun i => if i = 1 then some 3 else none }), .reopen]

/-- The files that the crash leaves. -/
def crashedInBatch : Disk :=
  (((DB.fresh {}).write false [.put [1] [7]] {}).1.interrupt
    (.write false [.put [1] [8], .put [2] [9]] { wal := fun i => if i = 1 then some 3 else none })).disk

theorem next_start : start.next {} .reopen = .on (DB.fresh {}) := next_reopen (by decide +kernel)

theorem small_of {db : DB} (h₁ : ∀ id ∈ db.vlog.files.dir, id < 100000) (h₂ : ∀ id ∈ db.wal.files.dir, id < 100000)
    (h₃ : db.nextSstableId ≤ 100000) (h₄ : db.sequenceNumber ≤ 2 ^ 64) : db.Small := ⟨h₁, h₂, h₃, h₄⟩

/-- What is read behind a crash in the middle of a batch. -/
theorem crashes_durable_sample : ∃ es, start.LeavesAll {} crashInBatch es ∧
    ∀ key, (DB.openDB {} crashedInBatch .none).1.result key = DB.answer (WriteBatch.apply (fun _ => none) es key) := by
  have hopen : (DB.openDB {} crashedInBatch .none).2 = .ok () := by decide +kernel
  refine (@crashes_durable {} ⟨by decide, by decide, by decide⟩ crashInBatch ?_ ?_).2 _ ?_
  · have hall : ∀ ev ∈ crashInBatch, ∀ e ∈ ev.entries, e.Fits ∧ e.key ≠ [] ∧ ∀ b ∈ e.key, isSpace b = false := by
      decide +kernel
    have hfaultless : ∀ ev ∈ crashInBatch, ev.Faultless := by
      intro ev hev
      simp only [crashInBatch, List.mem_cons, List.not_mem_nil, or_false] at hev
      rcases hev with rfl | rfl | rfl | rfl
      · trivial
      · exact ⟨rfl, rfl⟩
      · trivial
      · trivial
    exact fun ev hev => ⟨hall ev hev, hfaultless ev hev⟩
  · refine ⟨small_of (by decide +kernel) (by decide +kernel) (by decide +kernel) (by decide +kernel), ?_⟩
    rw [next_start]
    exact ⟨small_of (by decide +kernel) (by decide +kernel) (by decide +kernel) (by decide +kernel),
      small_of (by decide +kernel) (by decide +kernel) (by decide +kernel) (by decide +kernel),
      small_of (by decide +kernel) (by decide +kernel) (by decide +kernel) (by decide +kernel), trivial⟩
  · have hlast : (Machine.off crashedInBatch).next {} .reopen = .on (DB.openDB {} crashedInBatch .none).1 :=
      next_reopen hopen
    rw [after, crashInBatch, List.foldl_cons, next_start]
    simp only [List.foldl_cons, List.foldl_nil]
    exact hlast

/-- An append to the WAL that fails behind three bytes. -/
abbrev failing (batch : WriteBatch) : Event := .write false batch (fun _ => .none) (fun _ => some 3)

/-- A batch is acknowledged, an append of another one fails, and the process crashes. -/
def failThenCrash : List Event := [.reopen, sure false [.put [1] [7]], failing [.put [1] [8]], .crash .nothing]

/-- The files that are left. -/
def failedThenCrashed : Disk :=
  (((DB.fresh {}).write false [.put [1] [7]] {}).1.write false [.put [1] [8]] { wal := fun _ => some 3 }).1.disk

/-- What is read behind a failed append. -/
theorem appends_durable_sample : (DB.openDB {} failedThenCrashed .none).2 = .ok () ∧
    ∃ es, start.LeavesAll {} failThenCrash es ∧
      ∀ key, (DB.openDB {} failedThenCrashed .none).1.result key = DB.answer (WriteBatch.apply (fun _ => none) es key) := by
  have hu : ({} : Options).Usable := ⟨by decide, by decide, by decide⟩
  have hall : ∀ ev ∈ failThenCrash, ∀ e ∈ ev.entries, e.Fits ∧ e.key ≠ [] ∧ ∀ b ∈ e.key, isSpace b = false := by
    decide +kernel
  have hb : start.Throughout {} (Bounded {}) failThenCrash := by
    refine ⟨small_of (by decide +kernel) (by decide +kernel) (by decide +kernel) (by decide +kernel), ?_⟩
    rw [next_start]
    exact ⟨small_of (by decide +kernel) (by decide +kernel) (by decide +kernel) (by decide +kernel),
      small_of (by decide +kernel) (by decide +kernel) (by decide +kernel) (by decide +kernel),
      small_of (by decide +kernel) (by decide +kernel) (by decide +kernel) (by decide +kernel), trivial⟩
  have hc : start.Throughout {} BehindWhole failThenCrash := by
    -- nothing has failed before the second batch
    obtain ⟨_, -, hl₁, h₁⟩ := Serves.next (m := fun _ => none) hu (hall _ List.mem_cons_self) trivial (logs_start hu) trivial
      hb.1
    obtain ⟨_, -, -, h₂⟩ := h₁.next hu (hall _ (List.mem_cons_of_mem _ List.mem_cons_self)) ⟨rfl, rfl⟩ hl₁ hb.2.1
    exact ⟨trivial, h₁.behindWhole _, h₂.behindWhole _, fun h => absurd rfl h, trivial⟩
  refine appends_durable hu hall hb hc ?_
    (small_of (by decide +kernel) (by decide +kernel) (by decide +kernel) (by decide +kernel))
  rw [after, failThenCrash, List.foldl_cons, next_start]
  rfl

/-- **An acknowledged batch is lost** behind a record of which the log has only the first bytes. -/
theorem acknowledged_lost : ∃ db d,
    start.after {} [.reopen, failing [.put [1] [7]]] = .on db ∧ (db.write false [.put [2] [8]] {}).2 = .ok () ∧
      start.after {} [.reopen, failing [.put [1] [7]], sure false [.put [2] [8]], .crash .nothing] = .off d ∧
      (DB.openDB {} d .none).2 = .ok () ∧ (DB.openDB {} d .none).1.result [2] = .error .notFound := by
  refine ⟨((DB.fresh {}).write false [.put [1] [7]] { wal := fun _ => some 3 }).1,
    (((DB.fresh {}).write false [.put [1] [7]] { wal := fun _ => some 3 }).1.write false [.put [2] [8]] {}).1.disk, ?_,
    by decide +kernel, ?_, by decide +kernel, by decide +kernel⟩
  · rw [after, List.foldl_cons, next_start]
    rfl
  · rw [after, List.foldl_cons, next_start]
    rfl

end Machine

end SplitKV
