import SplitKV.PowerLoss.Durable
import SplitKV.PowerLoss.History

/-!
# Acknowledged entries and power losses

A run of writes, flushes, compactions, crashes of the process and openings keeps the records of its entries in the log: it
guards the history of the run (`Machine.Remembers.after`). When the power fails at its end, each file keeps a prefix.
-/

namespace SplitKV

/-- What is known of the logs: every record is that of an entry, and they guard the history. -/
structure Remembers (o : Options) (durable : Prop) (vlog wal : Folder Bytes) (h : History) : Prop where
  written : ∀ r ∈ WAL.log wal, ∃ e, DB.Written o vlog e r
  guarded : Guarded (fun r => durable → WAL.Survives wal r) vlog (WAL.log wal) h

variable {o : Options} {durable : Prop} {h : History}

namespace DB

variable {db : DB}

/-- Every new record is that of an entry. -/
theorem written_of_mem {vlog : Folder Bytes} {entries : WriteBatch} {new : List WALRecord}
    (hn : List.Forall₂ (Written o vlog) entries new) : ∀ r ∈ new, ∃ e, Written o vlog e r := by
  induction hn with
  | nil => exact fun r hr => absurd hr List.not_mem_nil
  | cons he _ ih =>
    intro r hr
    rcases List.mem_cons.mp hr with rfl | hr
    · exact ⟨_, he⟩
    · exact ih r hr

/-- The end of a write adds nothing to the log. -/
theorem Logged.log_endWrite (h : db.Logged) (sync : Bool) (fault : CreateFault) :
    WAL.log ((if sync then db.syncLogs else db).maybeScheduleFlush fault).1.wal.files = WAL.log db.wal.files := by
  obtain ⟨new, hlog, hnew⟩ := (h.partly_endWrite sync fault).logged
  cases hnew
  rw [hlog, List.append_nil]

/-- The WAL files behind a write: what was synced stays, and with `WriteOptions.sync` the new records survive. -/
theorem Logged.lasts_write (h : db.Logged) {batch : WriteBatch}
    (hc : batch ≠ [] → db.wal.Active ∧ Continues db.options db.vlog batch) (hf : ∀ e ∈ batch, e.Fits ∧ Token e.key)
    (hl : db.options.vlogFileSizeLimit < 2 ^ 64) {sync : Bool} {f : WriteFaults}
    (hs : (db.write sync batch f).1.Small) (ht : WAL.Logs (db.write sync batch f).1.wal.files) {new : List WALRecord}
    (hlog : WAL.log (db.write sync batch f).1.wal.files = WAL.log db.wal.files ++ new) :
    WAL.Lasts db.wal.files (db.write sync batch f).1.wal.files ∧
      ((db.write sync batch f).2 = .ok () → sync = true →
        ∀ r ∈ new, WAL.Survives (db.write sync batch f).1.wal.files r) := by
  have hnewest := onlyNewest_writeEntries f batch 0 db
  have hentries : (DB.writeEntries f 0 batch db).2 = .ok () → (DB.writeEntries f 0 batch db).1.Small →
      (DB.writeEntries f 0 batch db).1.Logged ∧ (batch ≠ [] → (DB.writeEntries f 0 batch db).1.wal.Active) := by
    intro hok hsmall
    by_cases hnil : batch = []
    · subst hnil
      exact ⟨h, fun hne => absurd rfl hne⟩
    · obtain ⟨ha, hcont⟩ := hc hnil
      obtain ⟨h₁, -, -, h₄⟩ := Logged.writeEntries f batch 0 db h ha hcont (fun e he => (hf e he).1) (fun e he => (hf e he).2)
        hl hsmall
      exact ⟨h₁, fun _ => h₄ hok⟩
  have hempty : batch = [] → (DB.writeEntries f 0 batch db).1 = db := by
    rintro rfl
    rfl
  rw [DB.write] at hs ht hlog ⊢
  generalize DB.writeEntries f 0 batch db = x at hnewest hentries hempty hs ht hlog ⊢
  obtain ⟨db₁, r⟩ := x
  cases r with
  | error s => exact ⟨hnewest.lasts, fun he => by cases he⟩
  | ok u =>
    obtain ⟨h₁, hact⟩ := hentries rfl (hs.of_grows (grows_endWrite db₁ sync f.create))
    have hend := h₁.lasts_endWrite sync f.create
    have hsync : WAL.Lasts db₁.wal.files (if sync then db₁.syncLogs else db₁).wal.files := by
      split
      · exact WAL.lasts_sync db₁.wal
      · exact WAL.Lasts.refl _
    refine ⟨(hnewest.lasts.trans hsync).trans hend, fun _ hsy r hr => ?_⟩
    subst hsy
    have hlog₁ : WAL.log db₁.wal.files = WAL.log db.wal.files ++ new := (h₁.log_endWrite true f.create).symm.trans hlog
    have hnil : batch ≠ [] := by
      intro hb
      rw [show db₁ = db from hempty hb, List.self_eq_append_right] at hlog₁
      rw [hlog₁] at hr
      cases hr
    have hmem := hnewest.mem_newest (hc hnil).1 h.logs hlog₁ r hr
    exact (WAL.survives_sync (hact hnil) hmem).mono hend ht

end DB

/-! ## The steps -/

/-- The records that are logged are those of the first entries. -/
theorem Point.logged_prefix (p : Point) (batch : WriteBatch) : p.logged batch <+: batch := by
  cases p with
  | vlog k => exact List.take_prefix k batch
  | wal k n =>
    have hsplit := List.take_prefix (k + 1) batch
    rw [List.take_add_one] at hsplit
    show batch.take k ++ _ <+: batch
    cases hk : batch[k]? with
    | none =>
      rw [List.append_nil]
      exact List.take_prefix k batch
    | some e =>
      rw [hk] at hsplit
      show batch.take k ++ (if e.recordLength ≤ n then [e] else []) <+: batch
      split
      · exact hsplit
      · rw [List.append_nil]
        exact List.take_prefix k batch
  | create => exact List.prefix_rfl
  | done => exact List.prefix_rfl

/-- **A write** behind whole records, wherever it fails. Its entries must last when it is acknowledged, and synced if that is
asked for. -/
theorem Remembers.write {db : DB} {m : Contents} (hu : o.Usable) (hl : (Machine.on db).Logs o m)
    (hr : Remembers o durable db.vlog.files db.wal.files h) {sync : Bool} {batch : WriteBatch}
    (hw : ∀ e ∈ batch, e.Fits ∧ Token e.key)
    (hc : batch ≠ [] → db.wal.Active ∧ DB.Continues db.options db.vlog batch) {f : WriteFaults}
    (hs : (db.write sync batch f).1.Small) {b : Bool}
    (hb : b = true → (db.write sync batch f).2 = .ok () ∧ (durable → sync = true)) :
    Remembers o durable (db.write sync batch f).1.vlog.files (db.write sync batch f).1.wal.files
      (h ++ batch.map (·, b)) := by
  obtain ⟨⟨es, -, hrec, -⟩, -⟩ := Machine.logs_write hu hl sync hw hc f hs
  obtain ⟨hlogged, rfl, -⟩ := hl
  obtain ⟨p, hp⟩ := hlogged.exists_stops hc hw hu.limit hs
  obtain ⟨hpart, hdone⟩ := hlogged.partly_write hc hw hu.limit hs hp
  obtain ⟨new, hlog, hnew⟩ := hpart.logged
  have hord : (WAL.log db.wal.files ++ new).Pairwise (fun a b => a.sequence < b.sequence) := hlog ▸ hrec.records.ordered
  obtain ⟨hlasts, hsurvive⟩ := hlogged.lasts_write hc hw hu.limit hs hrec.logs hlog
  refine ⟨fun r hmem => ?_, ?_⟩
  · rw [hlog] at hmem
    rcases List.mem_append.mp hmem with hmem | hmem
    · obtain ⟨e, he⟩ := hr.written r hmem
      exact ⟨e, he.mono hlogged.vlog hpart.extended hpart.synced⟩
    · exact DB.written_of_mem hnew r hmem
  · have hold : Guarded (fun r => durable → WAL.Survives (db.write sync batch f).1.wal.files r)
        (db.write sync batch f).1.vlog.files (WAL.log db.wal.files) h :=
      hr.guarded.imp (fun r _ hd hdur => (hd hdur).mono hlasts hrec.logs)
        fun a _ e he => he.mono hlogged.vlog hpart.extended
    have hall := hold.appendAll (hnew.imp fun e r hr => hr.record) (b := b)
      (fun hbt r hmem hdur => hsurvive (hb hbt).1 ((hb hbt).2 hdur) r hmem) hord
    rw [hlog]
    cases b with
    | true =>
      rw [hdone.mp (hb rfl).1] at hall
      exact hall
    | false =>
      -- the other entries left no records
      obtain ⟨rest, hrest⟩ := p.logged_prefix batch
      have hissued := @Guarded.issueAll _ _ _ rest _ hall
      rw [List.append_assoc, ← List.map_append, hrest] at hissued
      exact hissued

/-- The WAL files behind an opening, wherever it fails: at most an empty one is new. -/
theorem DB.openDB_wal {d : Disk} (hl : WAL.Logs d.wal) (hids : ∀ id ∈ d.wal.dir, id < 100000) (o : Options) (f : OpenFaults) :
    WAL.Logs (openDB o d f).1.wal.files ∧ WAL.log (openDB o d f).1.wal.files = WAL.log d.wal ∧
      WAL.Lasts d.wal (openDB o d f).1.wal.files := by
  have hsame : ∀ db : DB, db.wal.files = d.wal →
      WAL.Logs db.wal.files ∧ WAL.log db.wal.files = WAL.log d.wal ∧ WAL.Lasts d.wal db.wal.files := by
    intro db he
    rw [he]
    exact ⟨hl, rfl, WAL.Lasts.refl _⟩
  unfold openDB
  split
  · exact hsame _ rfl
  split
  · exact hsame _ rfl
  rename_i next levels _
  have hwids : walIds (openState o d next levels).wal.files = d.wal.dir := walIds_eq hl.sorted hids
  obtain ⟨hreplays, -⟩ := replayWals_holding f (walIds (openState o d next levels).wal.files) 0 (openState o d next levels)
  cases hx : replayWals f 0 (walIds (openState o d next levels).wal.files) (openState o d next levels) with
  | mk db r =>
    rw [hx] at hreplays
    have hfiles : db.wal.files = d.wal := congrArg WAL.files hreplays.wal
    cases r with
    | error s =>
      rw [recoverFromWAL, hx]
      exact hsame db hfiles
    | ok u =>
      obtain ⟨walId, hlt, he⟩ := recoverFromWAL_ok (hwids.symm ▸ hl.sorted) hx
      rw [hwids] at hlt
      rw [he]
      obtain ⟨h₁, h₂, h₃, -⟩ := create_logs (w := db.wal) (hfiles.symm ▸ hl) (hfiles.symm ▸ hlt) f.create
      rw [hfiles] at h₂ h₃
      exact ⟨h₁, h₂, h₃⟩

/-- The value log of an opening keeps the records. -/
theorem BatchEntry.RecordOf.reopen {vlog vlog' : Folder Bytes} (hv : vlog.dir ≠ [] → vlog' = vlog) {e : BatchEntry}
    {r : WALRecord} (h : e.RecordOf vlog r) : e.RecordOf vlog' r := by
  cases e with
  | put key value =>
    rw [hv (List.ne_nil_of_mem h.2.2.2)]
    exact h
  | delete key => exact h

theorem DB.Written.reopen {vlog vlog' : Folder Bytes} (hv : vlog.dir ≠ [] → vlog' = vlog) {e : BatchEntry} {r : WALRecord}
    (h : DB.Written o vlog e r) : DB.Written o vlog' e r := by
  refine ⟨h.record.reopen hv, fun hs => ?_⟩
  have hr := h.record
  cases e with
  | put key value =>
    rw [hv (List.ne_nil_of_mem hr.2.2.2)]
    exact h.secured hs
  | delete key => exact fun ht => by rw [hr.1] at ht; cases ht

/-- **An opening**, wherever it fails. -/
theorem Remembers.openDB {d : Disk} (hd : d.Recoverable o) (hr : Remembers o durable d.vlog d.wal h) (f : OpenFaults) :
    Remembers o durable (DB.openDB o d f).1.vlog.files (DB.openDB o d f).1.wal.files h := by
  obtain ⟨hl, hlog, hlasts⟩ := DB.openDB_wal hd.logs hd.walIds o f
  have hv : d.vlog.dir ≠ [] → (DB.openDB o d f).1.vlog.files = d.vlog := by
    intro hne
    obtain ⟨-, -, hvlog, -⟩ := DB.openDB_traced (P := fun _ _ => True) (fun _ _ _ _ _ _ => trivial)
      (fun id hid => (hd.logs.torn id hid).imp fun rs ht => ⟨ht, fun _ _ => trivial⟩) o f
    rcases hvlog with hvlog | hvlog
    · exact hvlog
    · rw [hvlog]
      exact (VLog.openLog_spec hd.vlogIds).2.2.1 hne
  refine ⟨fun r hmem => ?_, ?_⟩
  · rw [hlog] at hmem
    obtain ⟨e, he⟩ := hr.written r hmem
    exact ⟨e, he.reopen hv⟩
  · rw [hlog]
    exact hr.guarded.imp (fun r _ hs hdur => (hs hdur).mono hlasts hl) fun a _ e he => he.reopen hv

/-! ## Runs -/

namespace Machine

/-- The files of the value log. -/
def vlog : Machine → Folder Bytes
  | .off d => d.vlog
  | .on db => db.vlog.files

/-- The WAL files. -/
def wal : Machine → Folder Bytes
  | .off d => d.wal
  | .on db => db.wal.files

/-- The entries that an event issues. Those of a batch that is acknowledged must last, when `lasts` says so of the `sync`
that its caller asked for. -/
def issues (lasts : Bool → Bool) : Machine → Event → History
  | .on db, .write sync batch vlog wal =>
    batch.map (·, (db.write sync batch { vlog := vlog, wal := wal }).2.isOk && lasts sync)
  | .on _, .crash (.write _ batch _) => batch.map (·, false)
  | _, _ => []

/-- The entries that the events of a run issue. -/
def issued (lasts : Bool → Bool) (o : Options) : Machine → List Event → History
  | _, [] => []
  | m, ev :: events => m.issues lasts ev ++ (m.next o ev).issued lasts o events

/-- **An event.** -/
theorem remembers_next {lasts : Bool → Bool} {mach : Machine} {m : Contents} {ev : Event} (hu : o.Usable) (hw : ev.Writes)
    (hl : mach.Logs o m) (hb : mach.Bounded o ev) (hc : mach.BehindWhole ev) (hlasts : ∀ b, lasts b = true → durable → b = true)
    (hr : Remembers o durable mach.vlog mach.wal h) :
    Remembers o durable (mach.next o ev).vlog (mach.next o ev).wal (h ++ mach.issues lasts ev) := by
  have hnothing : ∀ mach' : Machine, mach'.vlog = mach.vlog → mach'.wal = mach.wal → mach.issues lasts ev = [] →
      Remembers o durable mach'.vlog mach'.wal (h ++ mach.issues lasts ev) := by
    intro mach' hvlog hwal hi
    rw [hvlog, hwal, hi, List.append_nil]
    exact hr
  cases mach with
  | off d =>
    have hopen : ∀ f, Remembers o durable (DB.openDB o d f).1.vlog.files (DB.openDB o d f).1.wal.files (h ++ []) := by
      intro f
      rw [List.append_nil]
      exact hr.openDB hl.1 f
    cases ev with
    | crashOpening f => exact hopen f
    | reopen =>
      have hok := (DB.openDB_spec hl.1 hu.levels .none hb).2 rfl
      rw [next_reopen hok]
      exact hopen .none
    | write _ _ _ _ | flush | compactLevel _ | crash _ => exact hnothing _ rfl rfl rfl
  | on db =>
    cases ev with
    | write sync batch vlog wal =>
      refine hr.write hu hl hw hc hb fun hlast => ?_
      obtain ⟨hok, hsync⟩ := Bool.and_eq_true_iff.mp hlast
      refine ⟨?_, hlasts sync hsync⟩
      show (db.write sync batch { vlog := vlog, wal := wal }).2 = _
      cases hres : (db.write sync batch { vlog := vlog, wal := wal }).2 with
      | ok u => rfl
      | error s =>
        rw [hres] at hok
        cases hok
    | flush =>
      obtain ⟨hvlog, hwal, -⟩ := DB.flushFront_logs db {}
      exact hnothing (.on (db.flushFront {})) (congrArg VLog.files hvlog) (congrArg WAL.files hwal) rfl
    | compactLevel lvl =>
      have hi := DB.onlyIndex_compact db lvl .none
      exact hnothing (.on (db.compactLevel lvl .none).1) (congrArg VLog.files hi.vlog) (congrArg WAL.files hi.wal) rfl
    | crash during =>
      cases during with
      | nothing => exact hnothing (.off db.disk) rfl rfl rfl
      | write sync batch f => exact hr.write hu hl hw hc hb fun hlast => by cases hlast
      | flush f =>
        obtain ⟨hvlog, hwal, -⟩ := DB.flushFront_logs db f
        exact hnothing (.off (db.flushFront f).disk) (congrArg VLog.files hvlog) (congrArg WAL.files hwal) rfl
      | compactLevel lvl f =>
        have hi := DB.onlyIndex_compact db lvl f
        exact hnothing (.off (db.compactLevel lvl f).1.disk) (congrArg VLog.files hi.vlog) (congrArg WAL.files hi.wal) rfl
    | crashOpening _ | reopen => exact hnothing (.on db) rfl rfl rfl

/-- **A run** in which entries are written behind whole records. -/
theorem remembers_after (hu : o.Usable) {lasts : Bool → Bool} (hlasts : ∀ b, lasts b = true → durable → b = true) :
    ∀ {events : List Event} {mach : Machine} {m : Contents} {h : History}, (∀ ev ∈ events, ev.Writes) → mach.Logs o m →
      Remembers o durable mach.vlog mach.wal h → mach.Throughout o (Bounded o) events →
      mach.Throughout o BehindWhole events → (∃ m', (mach.after o events).Logs o m') ∧
        Remembers o durable (mach.after o events).vlog (mach.after o events).wal (h ++ mach.issued lasts o events)
  | [], mach, m, h, _, hl, hr, _, _ => by
    rw [issued, List.append_nil]
    exact ⟨⟨m, hl⟩, hr⟩
  | ev :: events, mach, m, h, hw, hl, hr, ⟨hb, hbs⟩, ⟨hc, hcs⟩ => by
    have hnext := remembers_next hu (hw ev List.mem_cons_self) hl hb hc hlasts hr
    obtain ⟨es, -, hl'⟩ := hl.next hu (hw ev List.mem_cons_self) hb hc
    have hrun := remembers_after hu hlasts (fun ev hev => hw ev (List.mem_cons_of_mem _ hev)) hl' hnext hbs hcs
    rw [issued, ← List.append_assoc]
    exact hrun

theorem remembers_start : Remembers o durable start.vlog start.wal [] :=
  ⟨fun _ hr => absurd hr List.not_mem_nil, guarded_nil⟩

end Machine

end SplitKV
