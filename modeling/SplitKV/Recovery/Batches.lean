import SplitKV.Recovery.Crashes
import SplitKV.Recovery.Partly

/-!
# Batches that are written in part

The entries of a batch are logged and applied one by one. When a write fails at an entry, the entries before it are
visible, and when the process crashes there, an opening replays the entries whose records are whole. So a batch is atomic
at a point exactly when the entries that were applied there change nothing, and the entries that were logged nothing
either, or as much as the whole batch (`Machine.write_atomic_iff`).
-/

namespace SplitKV

/-! ## What `Get` returns behind some entries -/

/-- What `Get` returns for every key. -/
abbrev Results := Key → Except Code Bytes

/-- What `Get` returns behind an entry. -/
def BatchEntry.behind (results : Results) : BatchEntry → Results
  | put key value => fun k => if k = key then .ok value else results k
  | delete key => fun k => if k = key then .error .notFound else results k

/-- What `Get` returns behind some entries, one after the other. -/
def WriteBatch.behind (results : Results) (entries : WriteBatch) : Results := entries.foldl BatchEntry.behind results

theorem BatchEntry.behind_answer (m : Contents) (e : BatchEntry) :
    e.behind (fun key => DB.answer (m key)) = fun key => DB.answer (e.apply m key) := by
  funext k
  cases e with
  | put key value =>
    simp only [behind, apply]
    split <;> rfl
  | delete key =>
    simp only [behind, apply]
    split <;> rfl

/-- The results for contents, behind some entries. -/
theorem WriteBatch.behind_answer : ∀ (entries : WriteBatch) (m : Contents),
    behind (fun key => DB.answer (m key)) entries = fun key => DB.answer (apply m entries key)
  | [], _ => rfl
  | e :: entries, m => by
    have hcons : behind (fun key => DB.answer (m key)) (e :: entries) =
        behind (e.behind fun key => DB.answer (m key)) entries := rfl
    rw [hcons, e.behind_answer]
    exact behind_answer entries (e.apply m)

/-! ## Points of failure -/

namespace DB

variable {db : DB}

/-- The entries in front of entry `k` are written, and lead to the state. -/
def Reaches (db : DB) (f : WriteFaults) (batch : WriteBatch) (k : Nat) (db₁ : DB) : Prop :=
  DB.writeEntries f 0 (batch.take k) db = (db₁, .ok ())

/-- What the write of an entry comes to: the entries behind it follow. -/
theorem Reaches.writeEntries {f : WriteFaults} {batch : WriteBatch} {k : Nat} {db₁ : DB} (h : db.Reaches f batch k db₁)
    {e : BatchEntry} (hk : batch[k]? = some e) : DB.writeEntries f 0 batch db =
      match db₁.writeEntry e (f.vlog k) (f.wal k) with
      | (db, .error s) => (db, .error s)
      | (db, .ok ()) => DB.writeEntries f (k + 1) (batch.drop (k + 1)) db := by
  obtain ⟨hlt, rfl⟩ := List.getElem?_eq_some_iff.mp hk
  have hsplit : batch = batch.take k ++ batch[k] :: batch.drop (k + 1) := by
    rw [← List.drop_eq_getElem_cons hlt, List.take_append_drop]
  have happ := writeEntries_append f (batch.take k) (batch[k] :: batch.drop (k + 1)) 0 db
  rw [← hsplit, List.length_take_of_le hlt.le, Nat.zero_add, h] at happ
  exact happ

/-- A write returns at the first entry that fails. -/
theorem Reaches.write {f : WriteFaults} {batch : WriteBatch} {k : Nat} {db₁ : DB} (h : db.Reaches f batch k db₁)
    {e : BatchEntry} (hk : batch[k]? = some e) (he : (db₁.writeEntry e (f.vlog k) (f.wal k)).2 ≠ .ok ()) (sync : Bool) :
    (db.write sync batch f).1 = (db₁.writeEntry e (f.vlog k) (f.wal k)).1 ∧ (db.write sync batch f).2 ≠ .ok () := by
  have hw := h.writeEntries hk
  rw [DB.write, hw]
  generalize db₁.writeEntry e (f.vlog k) (f.wal k) = x at he ⊢
  obtain ⟨db₂, r⟩ := x
  cases r with
  | error s => exact ⟨rfl, fun hs => by cases hs⟩
  | ok u => exact absurd rfl he

theorem Reaches.grows {f : WriteFaults} {batch : WriteBatch} {k : Nat} {db₁ : DB} (h : db.Reaches f batch k db₁)
    {e : BatchEntry} (hk : batch[k]? = some e) (sync : Bool) :
    (db₁.writeEntry e (f.vlog k) (f.wal k)).1.Grows (db.write sync batch f).1 := by
  have hw := h.writeEntries hk
  have hend : ∀ db₂, DB.writeEntries f 0 batch db = (db₂, .ok ()) → db₂.Grows (db.write sync batch f).1 := by
    intro db₂ he
    rw [DB.write, he]
    exact grows_endWrite db₂ sync f.create
  have herr : ∀ db₂ s, DB.writeEntries f 0 batch db = (db₂, .error s) → db₂.Grows (db.write sync batch f).1 := by
    intro db₂ s he
    rw [DB.write, he]
    exact Grows.refl db₂
  generalize db₁.writeEntry e (f.vlog k) (f.wal k) = x at hw ⊢
  obtain ⟨db₂, r⟩ := x
  cases r with
  | error s => exact herr db₂ s hw
  | ok u =>
    have hrest := grows_writeEntries f (batch.drop (k + 1)) (k + 1) db₂
    simp only at hw
    cases hr : DB.writeEntries f (k + 1) (batch.drop (k + 1)) db₂ with
    | mk db₃ r =>
      rw [hr] at hw hrest
      cases r with
      | error s => exact hrest.trans (herr db₃ s hw)
      | ok u => exact hrest.trans (hend db₃ hw)

/-- The entries are written, or one of them fails. -/
theorem writeEntries_stops (f : WriteFaults) : ∀ (batch : WriteBatch) (i : Nat) (db : DB),
    (DB.writeEntries f i batch db).2 = .ok () ∨ ∃ k db₁ e, DB.writeEntries f i (batch.take k) db = (db₁, .ok ()) ∧
      batch[k]? = some e ∧ (db₁.writeEntry e (f.vlog (i + k)) (f.wal (i + k))).2 ≠ .ok ()
  | [], _, _ => Or.inl rfl
  | e :: batch, i, db => by
    by_cases hok : (db.writeEntry e (f.vlog i) (f.wal i)).2 = .ok ()
    · have he : db.writeEntry e (f.vlog i) (f.wal i) = ((db.writeEntry e (f.vlog i) (f.wal i)).1, .ok ()) :=
        Prod.ext rfl hok
      rcases writeEntries_stops f batch (i + 1) (db.writeEntry e (f.vlog i) (f.wal i)).1 with h | ⟨k, db₁, e', h₁, h₂, h₃⟩
      · refine Or.inl ?_
        rw [DB.writeEntries, he]
        exact h
      · refine Or.inr ⟨k + 1, db₁, e', ?_, h₂, ?_⟩
        · rw [List.take_succ_cons, DB.writeEntries, he]
          exact h₁
        · rwa [Nat.add_right_comm] at h₃
    · exact Or.inr ⟨0, db, e, rfl, rfl, hok⟩

end DB

/-- A point at which a write stops, or the process crashes: the append of the value of entry `k` to the value log, the
append of its record to the WAL, behind `n` bytes, the replacement of the WAL, and the end of the write. -/
inductive Point
  | vlog (k : Nat)
  | wal (k n : Nat)
  | create
  | done

namespace Point

/-- The entries that were applied to the memtable. -/
def applied (batch : WriteBatch) : Point → WriteBatch
  | vlog k => batch.take k
  | wal k _ => batch.take k
  | create => batch
  | done => batch

/-- The entries whose records are whole. -/
def logged (batch : WriteBatch) : Point → WriteBatch
  | vlog k => batch.take k
  | wal k n =>
    batch.take k ++
      match batch[k]? with
      | some e => if e.recordLength ≤ n then [e] else []
      | none => []
  | create => batch
  | done => batch

/-- The write of the batch stops at the point. -/
def Stops (db : DB) (sync : Bool) (batch : WriteBatch) (f : WriteFaults) : Point → Prop
  | vlog k => ∃ db₁ key value s, db.Reaches f batch k db₁ ∧ batch[k]? = some (.put key value) ∧
      (db₁.vlog.append db₁.options key value .value (f.vlog k)).2 = .error s
  | wal k n => ∃ db₁ e, db.Reaches f batch k db₁ ∧ batch[k]? = some e ∧ f.wal k = some n ∧
      ∀ key value, e = .put key value → ∀ s, (db₁.vlog.append db₁.options key value .value (f.vlog k)).2 ≠ .error s
  | create => (DB.writeEntries f 0 batch db).2 = .ok () ∧ (db.write sync batch f).2 ≠ .ok ()
  | done => (db.write sync batch f).2 = .ok ()

end Point

namespace DB

variable {db : DB}

/-- The state that is reached. -/
theorem Logged.partly_reaches (h : db.Logged) {batch : WriteBatch}
    (hc : batch ≠ [] → db.wal.Active ∧ Continues db.options db.vlog batch) (hf : ∀ e ∈ batch, e.Fits ∧ Token e.key)
    (hl : db.options.vlogFileSizeLimit < 2 ^ 64) {f : WriteFaults} {k : Nat} {db₁ : DB} (hr : db.Reaches f batch k db₁)
    {e : BatchEntry} (hk : batch[k]? = some e) (hs : db₁.Small) :
    db₁.Logged ∧ db₁.wal.Active ∧ Continues db₁.options db₁.vlog (e :: batch.drop (k + 1)) ∧ db₁.options = db.options ∧
      Partly db db₁ (batch.take k) (batch.take k) := by
  obtain ⟨hlt, rfl⟩ := List.getElem?_eq_some_iff.mp hk
  obtain ⟨ha, hcont⟩ := hc (List.ne_nil_of_mem (List.getElem_mem hlt))
  have hent := Logged.partly_entries f (batch.take k) (batch.drop k) 0 db h ha (by rwa [List.take_append_drop])
    (fun e he => hf e (List.mem_of_mem_take he)) hl
  rw [show DB.writeEntries f 0 (batch.take k) db = (db₁, .ok ()) from hr, List.drop_eq_getElem_cons hlt] at hent
  exact hent hs rfl

/-- A write whose entries are all written. -/
theorem Logged.partly_whole (h : db.Logged) {batch : WriteBatch}
    (hc : batch ≠ [] → db.wal.Active ∧ Continues db.options db.vlog batch) (hf : ∀ e ∈ batch, e.Fits ∧ Token e.key)
    (hl : db.options.vlogFileSizeLimit < 2 ^ 64) {sync : Bool} {f : WriteFaults} (hs : (db.write sync batch f).1.Small)
    (hok : (DB.writeEntries f 0 batch db).2 = .ok ()) : Partly db (db.write sync batch f).1 batch batch := by
  have hent : (DB.writeEntries f 0 batch db).1.Small → (DB.writeEntries f 0 batch db).1.Logged ∧
      Partly db (DB.writeEntries f 0 batch db).1 batch batch := by
    intro hsmall
    by_cases hnil : batch = []
    · subst hnil
      exact ⟨h, Partly.refl h.vlog⟩
    · obtain ⟨ha, hcont⟩ := hc hnil
      obtain ⟨h₁, -, -, -, hpart⟩ := Logged.partly_entries f batch [] 0 db h ha ((List.append_nil batch).symm ▸ hcont) hf hl
        hsmall hok
      exact ⟨h₁, hpart⟩
  rw [DB.write] at hs ⊢
  generalize DB.writeEntries f 0 batch db = x at hok hent hs ⊢
  obtain ⟨db₁, r⟩ := x
  simp only at hok
  subst hok
  obtain ⟨h₁, hpart⟩ := hent (hs.of_grows (grows_endWrite db₁ sync f.create))
  have hend := hpart.trans (h₁.partly_endWrite sync f.create)
  rwa [List.append_nil] at hend

/-- A write that returns OK has written all its entries. -/
theorem writeEntries_of_write {sync : Bool} {batch : WriteBatch} {f : WriteFaults}
    (h : (db.write sync batch f).2 = .ok ()) : (DB.writeEntries f 0 batch db).2 = .ok () := by
  rw [DB.write] at h
  generalize DB.writeEntries f 0 batch db = x at h ⊢
  obtain ⟨db₁, r⟩ := x
  cases r with
  | error s => cases h
  | ok u => rfl

/-- **A write that stops at a point.** -/
theorem Logged.partly_write (h : db.Logged) {batch : WriteBatch}
    (hc : batch ≠ [] → db.wal.Active ∧ Continues db.options db.vlog batch) (hf : ∀ e ∈ batch, e.Fits ∧ Token e.key)
    (hl : db.options.vlogFileSizeLimit < 2 ^ 64) {sync : Bool} {f : WriteFaults} (hs : (db.write sync batch f).1.Small)
    {p : Point} (hp : p.Stops db sync batch f) :
    Partly db (db.write sync batch f).1 (p.applied batch) (p.logged batch) ∧
      ((db.write sync batch f).2 = .ok () ↔ p = .done) := by
  cases p with
  | vlog k =>
    obtain ⟨db₁, key, value, s, hr, hk, hv⟩ := hp
    have he := writeEntry_vlog hv (f.wal k)
    obtain ⟨hw, hne⟩ := hr.write hk (by rw [he]; exact fun hs => by cases hs) sync
    refine ⟨?_, fun hok => absurd hok hne, fun hd => by cases hd⟩
    rw [hw] at hs ⊢
    obtain ⟨h₁, -, -, -, hpart⟩ := h.partly_reaches hc hf hl hr hk (hs.of_grows (grows_writeEntry _ _ _ _))
    have := hpart.trans (h₁.partly_vlog hv (f.wal k))
    rwa [List.append_nil] at this
  | wal k n =>
    obtain ⟨db₁, e, hr, hk, hn, hv⟩ := hp
    have hmem := List.mem_of_getElem? hk
    have hsmall := hs.of_grows (hr.grows hk sync)
    obtain ⟨h₁, ha, hcont, ho, hpart⟩ := h.partly_reaches hc hf hl hr hk (hsmall.of_grows (grows_writeEntry _ _ _ _))
    obtain ⟨vlog, r, hsend⟩ := h₁.sends hcont (hf e hmem).1 (ho ▸ hl) hsmall hv
    obtain ⟨hcut, hne⟩ := h₁.partly_cut ha hsend n
    rw [← hn] at hcut hne
    obtain ⟨hw, hne⟩ := hr.write hk hne sync
    refine ⟨?_, fun hok => absurd hok hne, fun hd => by cases hd⟩
    rw [hw]
    have := hpart.trans hcut
    rw [List.append_nil] at this
    simpa only [Point.applied, Point.logged, hk] using this
  | create => exact ⟨h.partly_whole hc hf hl hs hp.1, fun hok => absurd hok hp.2, fun hd => by cases hd⟩
  | done => exact ⟨h.partly_whole hc hf hl hs (writeEntries_of_write hp), fun _ => rfl, fun _ => hp⟩

/-- **Every write stops at a point.** -/
theorem Logged.exists_stops (h : db.Logged) {batch : WriteBatch}
    (hc : batch ≠ [] → db.wal.Active ∧ Continues db.options db.vlog batch) (hf : ∀ e ∈ batch, e.Fits ∧ Token e.key)
    (hl : db.options.vlogFileSizeLimit < 2 ^ 64) {sync : Bool} {f : WriteFaults} (hs : (db.write sync batch f).1.Small) :
    ∃ p : Point, p.Stops db sync batch f := by
  by_cases hok : (db.write sync batch f).2 = .ok ()
  · exact ⟨.done, hok⟩
  · rcases writeEntries_stops f batch 0 db with hent | ⟨k, db₁, e, hr, hk, he⟩
    · exact ⟨.create, hent, hok⟩
    · rw [Nat.zero_add] at he
      by_cases hv : ∀ key value, e = .put key value → ∀ s,
          (db₁.vlog.append db₁.options key value .value (f.vlog k)).2 ≠ .error s
      · cases hn : f.wal k with
        | some n => exact ⟨.wal k n, db₁, e, hr, hk, hn, hv⟩
        | none =>
          -- a value that is stored and an append that does not fail make an entry that is written
          have hsmall := hs.of_grows (Reaches.grows hr hk sync)
          obtain ⟨h₁, ha, hcont, ho, -⟩ := h.partly_reaches hc hf hl hr hk (hsmall.of_grows (grows_writeEntry _ _ _ _))
          obtain ⟨vlog, r, hsend⟩ := h₁.sends hcont (hf e (List.mem_of_getElem? hk)).1 (ho ▸ hl) hsmall hv
          rw [hn] at he
          exact absurd (h₁.partly_entry ha hsend).2 he
      · push Not at hv
        obtain ⟨key, value, rfl, s, hv⟩ := hv
        exact ⟨.vlog k, db₁, key, value, s, hr, hk, hv⟩

end DB

/-! ## Runs -/

namespace Machine

/-- The database that runs shows some contents. -/
def Readable : Machine → Prop
  | .off _ => True
  | .on db => db.Settled ∧ ∃ m, db.Refines m

/-- **An event** behind whole records, wherever an append fails. -/
theorem Readable.next {o : Options} {mach : Machine} {m : Contents} {ev : Event} (hu : o.Usable) (hw : ev.Writes)
    (hl : mach.Logs o m) (h : mach.Readable) (hb : mach.Bounded o ev) (hc : mach.BehindWhole ev) :
    (mach.next o ev).Readable := by
  cases mach with
  | off d =>
    cases ev with
    | reopen =>
      obtain ⟨hok, -, hset, hr⟩ := logs_found hu hl hb
      rw [next_reopen hok]
      exact ⟨hset, m, hr⟩
    | crashOpening _ | write _ _ _ _ | flush | compactLevel _ | crash _ => trivial
  | on db =>
    obtain ⟨hset, shown, hr⟩ := h
    obtain ⟨hlogged, ho, -⟩ := hl
    cases ev with
    | write sync batch vlog wal =>
      have hlimit : db.options.vlogFileSizeLimit < 2 ^ 64 := ho.symm ▸ hu.limit
      obtain ⟨p, hp⟩ := hlogged.exists_stops hc hw hlimit hb
      have hpart := (hlogged.partly_write hc hw hlimit hb hp).1
      exact ⟨(DB.write_logSteps db sync batch _).settled hlogged.wf hset, _, hpart.shown shown hr⟩
    | flush =>
      obtain ⟨-, hv, hi⟩ := DB.versions_flushFront hlogged.wf (f := {}) fun m _ => Or.inr ⟨rfl, fun _ _ => rfl, rfl, rfl⟩
      have hset' := hset.congr (fun key => by rw [hv]) (fun key e he => hv key ▸ he)
      refine ⟨?_, shown, hr.mono (fun key => congrArg _ (hv key)) ?_⟩
      · show DB.SettledBelow _ (db.flushFront {}).sequenceNumber
        rw [hi.sequenceNumber]
        exact hset'
      · rw [hi.vlog]
        exact VLog.Extends.refl _
    | compactLevel lvl =>
      have hsame := DB.compactLevel_spec hlogged.wf hset lvl
      refine ⟨hsame.settled, shown, hr.mono hsame.visible ?_⟩
      rw [hsame.onlyIndex.vlog]
      exact VLog.Extends.refl _
    | crash _ => trivial
    | crashOpening _ | reopen => exact ⟨hset, shown, hr⟩

/-- **A run** whose entries are written behind whole records. -/
theorem Readable.after {o : Options} (hu : o.Usable) : ∀ {events : List Event} {mach : Machine} {m : Contents},
    (∀ ev ∈ events, ev.Writes) → mach.Logs o m → mach.Readable → mach.Throughout o (Bounded o) events →
    mach.Throughout o BehindWhole events → (∃ m', (mach.after o events).Logs o m') ∧ (mach.after o events).Readable
  | [], _, m, _, hl, h, _, _ => ⟨⟨m, hl⟩, h⟩
  | ev :: events, mach, m, hw, hl, h, ⟨hb, hbs⟩, ⟨hc, hcs⟩ => by
    obtain ⟨es, -, hl'⟩ := hl.next hu (hw ev List.mem_cons_self) hb hc
    have hrest := Readable.after hu (fun ev hev => hw ev (List.mem_cons_of_mem _ hev)) hl'
      (h.next hu (hw _ List.mem_cons_self) hl hb hc) hbs hcs
    exact hrest

/-- The process crashes between two operations. -/
theorem Logs.stop {o : Options} {db : DB} {m : Contents} (h : (Machine.on db).Logs o m) (hs : db.Small) :
    (Machine.off db.disk).Logs o m := ⟨h.2.1 ▸ h.1.recoverable hs, h.2.2⟩

end Machine

/-! ## Atomicity -/

/-- What `Get` returns when the files are opened. -/
def DB.reopened (db : DB) (o : Options) : Results := (DB.openDB o db.disk .none).1.result

/-- All entries of the batch take effect, or none: a write that returns OK applies them all, one that fails changes
nothing, and an opening behind a crash finds what was there before the write, or what is there behind the whole batch. -/
structure WriteAtomic (o : Options) (db : DB) (sync : Bool) (batch : WriteBatch) (f : WriteFaults) : Prop where
  returned : (db.write sync batch f).2 = .ok () → (db.write sync batch f).1.result = WriteBatch.behind db.result batch
  failed : (db.write sync batch f).2 ≠ .ok () → (db.write sync batch f).1.result = db.result
  opens : (DB.openDB o (db.write sync batch f).1.disk .none).2 = .ok ()
  crashed : (db.write sync batch f).1.reopened o = db.result ∨
    (db.write sync batch f).1.reopened o = WriteBatch.behind db.result batch

/-- What was applied changes nothing, unless the write ends, and what was logged changes nothing, or as much as the whole
batch. -/
structure Point.Harmless (o : Options) (db : DB) (batch : WriteBatch) (p : Point) : Prop where
  applied : p ≠ .done → WriteBatch.behind db.result (p.applied batch) = db.result
  logged : WriteBatch.behind (db.reopened o) (p.logged batch) = db.result ∨
    WriteBatch.behind (db.reopened o) (p.logged batch) = WriteBatch.behind db.result batch

namespace DB

theorem Refines.results {db : DB} (hw : db.Wf) {m : Contents} (hr : db.Refines m) :
    db.result = fun key => answer (m key) := funext fun key => (hr key).result hw

theorem grows_write (db : DB) (sync : Bool) (batch : WriteBatch) (f : WriteFaults) :
    db.Grows (db.write sync batch f).1 := by
  have h := grows_writeEntries f batch 0 db
  rw [DB.write]
  generalize DB.writeEntries f 0 batch db = x at h ⊢
  obtain ⟨db₁, r⟩ := x
  cases r with
  | error s => exact h
  | ok u => exact h.trans (grows_endWrite db₁ sync f.create)

/-- **A write at a point**, of a database that shows some contents and whose log stands for others. -/
theorem Logged.atomic_at {o : Options} (hu : o.Usable) {db : DB} {shown told : Contents} (hr : db.Refines shown)
    (hl : (Machine.on db).Logs o told) {sync : Bool} {batch : WriteBatch} {f : WriteFaults}
    (hc : batch ≠ [] → db.wal.Active ∧ Continues db.options db.vlog batch) (hf : ∀ e ∈ batch, e.Fits ∧ Token e.key)
    (hs : (db.write sync batch f).1.Small) (ho : (openDB o db.disk .none).1.Small)
    (ho' : (openDB o (db.write sync batch f).1.disk .none).1.Small) {p : Point} (hp : p.Stops db sync batch f) :
    WriteAtomic o db sync batch f ↔ p.Harmless o db batch := by
  obtain ⟨hlogged, hopt, htold⟩ := id hl
  obtain ⟨hpart, hdone⟩ := hlogged.partly_write hc hf (hopt.symm ▸ hu.limit) hs hp
  -- what is read before the write
  have hbefore := hr.results hlogged.wf
  obtain ⟨-, halive, -, hopened⟩ := Machine.logs_found hu (hl.stop (hs.of_grows (grows_write db sync batch f))) ho
  have hreopened : db.reopened o = _ := hopened.results halive.logged.wf
  -- what is read behind it
  have hafter := (hpart.shown shown hr).results ((write_logSteps db sync batch f).wf hlogged.wf)
  obtain ⟨⟨_, -, hrec, -⟩, -⟩ := Machine.logs_write hu hl sync hf hc f hs
  obtain ⟨hopens, halive', -, hopened'⟩ := Machine.logs_found hu ⟨hrec, hpart.told hlogged.vlog htold⟩ ho'
  have hcrashed : (db.write sync batch f).1.reopened o = _ := hopened'.results halive'.logged.wf
  rw [← WriteBatch.behind_answer, ← hbefore] at hafter
  rw [← WriteBatch.behind_answer, ← hreopened] at hcrashed
  constructor
  · intro h
    refine ⟨fun hne => ?_, ?_⟩
    · rw [← hafter]
      exact h.failed fun hok => hne (hdone.mp hok)
    · rw [← hcrashed]
      exact h.crashed
  · intro h
    refine ⟨fun hok => ?_, fun hne => ?_, hopens, ?_⟩
    · obtain rfl := hdone.mp hok
      exact hafter
    · rw [hafter]
      exact h.applied fun hd => hne (hdone.mpr hd)
    · rw [hcrashed]
      exact h.logged

end DB

namespace Machine

/-- **When a batch is atomic.** In every state of every run in which entries are written behind whole records, a write
stops at a point, whatever fails, and at every point its batch is atomic exactly when what was applied there changes
nothing, and what was logged there changes nothing, or as much as the whole batch. -/
theorem write_atomic_iff {o : Options} (hu : o.Usable) {events : List Event} (hw : ∀ ev ∈ events, ev.Writes)
    (hb : start.Throughout o (Bounded o) events) (hc : start.Throughout o BehindWhole events) {db : DB}
    (hdb : start.after o events = .on db) {sync : Bool} {batch : WriteBatch} {f : WriteFaults}
    (hcont : batch ≠ [] → db.wal.Active ∧ DB.Continues db.options db.vlog batch)
    (hf : ∀ e ∈ batch, e.Fits ∧ Token e.key) (hs : (db.write sync batch f).1.Small)
    (ho : (DB.openDB o db.disk .none).1.Small) (ho' : (DB.openDB o (db.write sync batch f).1.disk .none).1.Small) :
    (∃ p : Point, p.Stops db sync batch f) ∧
      ∀ p : Point, p.Stops db sync batch f → (WriteAtomic o db sync batch f ↔ p.Harmless o db batch) := by
  obtain ⟨⟨told, hl⟩, hread⟩ := Readable.after hu hw (logs_start hu) trivial hb hc
  rw [hdb] at hl hread
  obtain ⟨-, shown, hr⟩ := hread
  exact ⟨hl.1.exists_stops hcont hf (hl.2.1.symm ▸ hu.limit) hs,
    fun p hp => DB.Logged.atomic_at hu hr hl hcont hf hs ho ho' hp⟩

/-- Two puts. -/
def twoPuts : WriteBatch := [.put [1] [7], .put [2] [8]]

/-- The append to the WAL fails at the second entry. -/
def secondCut : WriteFaults := { wal := fun i => if i = 1 then some 3 else none }

/-- A database with the first put. -/
def firstPut : DB := ((DB.fresh {}).write false [.put [1] [7]] {}).1

/-- A batch that fails behind an entry that changes nothing is atomic. -/
theorem write_atomic_iff_sample : WriteAtomic {} firstPut false twoPuts secondCut := by
  have hu : ({} : Options).Usable := ⟨by decide, by decide, by decide⟩
  have hw : ∀ ev ∈ [Event.reopen, sure false [.put [1] [7]]], ev.Writes := by
    have hall : ∀ ev ∈ [Event.reopen, sure false [.put [1] [7]]], ∀ e ∈ ev.entries,
        e.Fits ∧ e.key ≠ [] ∧ ∀ b ∈ e.key, isSpace b = false := by decide +kernel
    exact hall
  have hb : start.Throughout {} (Bounded {}) [.reopen, sure false [.put [1] [7]]] := by
    refine ⟨small_of (by decide +kernel) (by decide +kernel) (by decide +kernel) (by decide +kernel), ?_⟩
    rw [next_start]
    exact ⟨small_of (by decide +kernel) (by decide +kernel) (by decide +kernel) (by decide +kernel), trivial⟩
  have hdb : start.after {} [.reopen, sure false [.put [1] [7]]] = .on firstPut := by
    rw [after, List.foldl_cons, next_start]
    rfl
  have hsmall : (DB.openDB {} firstPut.disk .none).1.Small :=
    small_of (by decide +kernel) (by decide +kernel) (by decide +kernel) (by decide +kernel)
  -- nothing has failed before
  obtain ⟨es₁, -, hl₁, h₁⟩ := Serves.next (m := fun _ => none) hu (hw _ List.mem_cons_self) trivial (logs_start hu) trivial
    hb.1
  obtain ⟨es₂, -, hl₂, h₂⟩ := h₁.next hu (hw _ (List.mem_cons_of_mem _ List.mem_cons_self)) ⟨rfl, rfl⟩ hl₁ hb.2.1
  have hc : start.Throughout {} BehindWhole [.reopen, sure false [.put [1] [7]]] :=
    ⟨trivial, h₁.behindWhole _, trivial⟩
  rw [next_start, show (Machine.on (DB.fresh {})).next {} (sure false [.put [1] [7]]) = .on firstPut from rfl] at hl₂ h₂
  obtain ⟨halive, -, hshown⟩ := h₂
  have hcont : DB.Continues firstPut.options firstPut.vlog twoPuts := DB.continues_of_ready halive.ready.offset _
  -- the opening finds the same
  obtain ⟨-, halive', -, hopened⟩ := logs_found hu (hl₂.stop (small_of (by decide +kernel) (by decide +kernel)
    (by decide +kernel) (by decide +kernel))) hsmall
  have hreopened : firstPut.reopened {} = firstPut.result := by
    rw [DB.reopened, hopened.results halive'.logged.wf, hshown.results halive.logged.wf]
  have hsame : WriteBatch.behind firstPut.result [.put [1] [7]] = firstPut.result := by
    funext k
    show (if k = [1] then .ok [7] else firstPut.result k) = _
    split
    · rename_i hk
      subst hk
      decide +kernel
    · rfl
  have hfits : ∀ e ∈ twoPuts, e.Fits ∧ e.key ≠ [] ∧ ∀ b ∈ e.key, isSpace b = false := by decide +kernel
  have hstops : (Point.wal 1 3).Stops firstPut false twoPuts secondCut := by
    refine ⟨(DB.writeEntries secondCut 0 (twoPuts.take 1) firstPut).1, .put [2] [8], Prod.ext rfl (by decide +kernel), rfl,
      rfl, fun key value he s hv => ?_⟩
    cases he
    have happ : (((DB.writeEntries secondCut 0 (twoPuts.take 1) firstPut).1.vlog.append {} [2] [8] .value .none).2.toOption.isSome
        = true) := by decide +kernel
    rw [show (DB.writeEntries secondCut 0 (twoPuts.take 1) firstPut).1.options = {} from rfl] at hv
    rw [show secondCut.vlog 1 = .none from rfl] at hv
    rw [hv] at happ
    cases happ
  refine ((write_atomic_iff hu hw hb hc hdb (fun _ => ⟨halive.active, hcont⟩) hfits
    (small_of (by decide +kernel) (by decide +kernel) (by decide +kernel) (by decide +kernel)) hsmall
    (small_of (by decide +kernel) (by decide +kernel) (by decide +kernel) (by decide +kernel))).2 _ hstops).mpr
    ⟨fun _ => hsame, Or.inl ?_⟩
  rw [hreopened]
  exact hsame

/-- **A batch that fails in the middle** is visible in part. -/
theorem visible_in_part : ¬WriteAtomic {} (DB.fresh {}) false twoPuts secondCut := by
  intro h
  have h₁ := h.failed (by decide +kernel)
  have h₂ := congrFun h₁ [1]
  revert h₂
  decide +kernel

end Machine

end SplitKV
