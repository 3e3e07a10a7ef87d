import SplitKV.Concurrent.CollectRun
import SplitKV.Concurrent.Durable
import SplitKV.Recovery.Unharmed

/-!
# All threads, and crashes

Writers, the flush thread, compactions and collections take turns, section by section; the process dies in between, in the
middle of a write, or in the middle of an append of a collection; and the directory is opened again. Nothing that was
acknowledged is lost, and the openings succeed, over any number of crashes (`Site.everything_durable`), as long as no crash
leaves a part of a record in the value log.
-/

namespace SplitKV

open Assoc

/-- The database with all its threads: those of `SaveSys`, and collections. -/
structure FullSys where
  save : SaveSys
  collectors : Nat → Option Collector := fun _ => none

namespace FullSys

/-- The database. -/
abbrev db (s : FullSys) : DB := s.save.sys.db

/-- The threads without the steps of `SaveManifest`. -/
def gcSys (s : FullSys) : GcSys := ⟨s.save.sys, s.collectors⟩

/-- The threads behind a section of a collection. -/
def setGc (s : FullSys) (g : GcSys) : FullSys := ⟨{ s.save with sys := g.sys }, g.collectors⟩

/-- A step of the system. A section of a collection goes on while a manifest is saved: it only reads the tables. -/
def step (s : FullSys) : GcAct → FullSys
  | .thread a => { s with save := s.save.step a }
  | .startGc t => s.setGc (s.gcSys.step (.startGc t))
  | .gc t => s.setGc (s.gcSys.step (.gc t))

/-- No thread is at work. -/
def start (db : DB) : FullSys := { save := .start db }

end FullSys

/-! ## Sections of a collection -/

namespace SaveSys

variable {s : SaveSys} {m : Contents}

/-- Steps of the logs and the memtables keep what holds of the tables and of the manifest. -/
theorem Inv.logSteps (h : s.Inv) {db' : DB} (hl : DB.LogSteps s.sys.db db') :
    ({ s with sys := { s.sys with db := db' } } : SaveSys).Inv := by
  have ht := hl.sameTables
  have howned : ∀ w, ({ s.sys with db := db' } : Sys).owned w = s.sys.owned w := fun w => by cases w <;> rfl
  have htouched : ∀ w, ({ s.sys with db := db' } : Sys).touched w = s.sys.touched w := fun w => by cases w <;> rfl
  refine ⟨h.sys.logSteps hl, ⟨?_, ?_, fun w id hm => ?_, fun w w' hne id hm => ?_, fun w => ?_⟩, fun w next hn => ?_,
    fun w next levels he => ?_, fun next levels he => ?_, ?_⟩
  · show ∀ l, ∀ info ∈ db'.levels l, OnDisk db'.sst l info
    rw [ht.levels, ht.sst]
    exact h.files.onDisk
  · show ∀ l l' a b, a ∈ db'.levels l → b ∈ db'.levels l' → _
    rw [ht.levels]
    exact h.files.unique
  · rw [howned] at hm
    show id < db'.nextSstableId ∧ db'.levels.Free id
    rw [ht.next, ht.levels]
    exact h.files.owned w id hm
  · rw [howned] at hm ⊢
    exact h.files.disjoint w w' hne id hm
  · have hw := h.files.filed w
    cases w with
    | flusher => trivial
    | compaction t => exact fun c hc => ht.sst.symm ▸ hw c hc
  · show next ≤ db'.nextSstableId ∧ ∀ l, ∀ info ∈ db'.levels l, info.tableMeta.fileId < next
    rw [ht.next, ht.levels]
    exact h.counted w next hn
  · obtain ⟨hlists, hfree⟩ := h.snapshot w next levels he
    exact ⟨hlists.congr ht.options ht.sst ht.next.ge, fun w' id hm => hfree w' id (howned w' ▸ hm)⟩
  · obtain ⟨hlists, hfree⟩ := h.saved next levels he
    exact ⟨hlists.congr ht.options ht.sst ht.next.ge, fun w id hm => hfree w id (htouched w ▸ hm)⟩
  · show db'.manifest = s.saved.map (text db'.options)
    rw [ht.manifest, ht.options]
    exact h.manifest

end SaveSys

/-- A collection at work on a completed segment: its copy lies in a file that is on disk, within the bounds. -/
structure Collecting.AtWork (db : DB) (seg : Nat) (p : Collecting) : Prop where
  completed : seg < db.vlog.currentFileId
  inv : p.Inv db seg
  file : ∀ r newPtr rest, p = .appended r newPtr rest → seg ∈ db.vlog.files.dir → newPtr.fileId ∈ db.vlog.files.dir
  offset : ∀ r newPtr rest, p = .appended r newPtr rest → newPtr.offset < 2 ^ 64

namespace DB

variable {db db' : DB} {m : Contents} {seg : Nat} {p : Collecting}

/-- What is left of a database behind a step of a collection that was interrupted, or went through. -/
structure Survives (db db' : DB) (m : Contents) (ok : Prop) : Prop where
  logged : db'.asListed.Logged
  tells : Tells db'.vlog.files (WAL.log db'.wal.files) m
  unharmed : db'.Unharmed
  log : WAL.log db.wal.files ⊆ WAL.log db'.wal.files
  service : ok → db'.asListed.InService m

theorem survives_of_service (h : db'.asListed.InService m) (hu : db'.Unharmed)
    (hl : WAL.log db.wal.files ⊆ WAL.log db'.wal.files) (ok : Prop) : Survives db db' m ok :=
  ⟨h.alive.logged, h.tells, hu, hl, fun _ => h⟩

/-- **The append of a copy**, wherever it fails. -/
theorem survives_append (h : db.asListed.InService m) (hu : db.Unharmed) {r : LiveRecord} {value : Bytes}
    (hf : VLog.Fits r.key value) {fv : AppendFault} (hc : fv.Clean) :
    Survives db (db.gcAppend fv r value).1 m (fv = .none) := by
  have hext := VLog.extends_append db.options db.vlog r.key value .value fv
  have htidy := h.alive.logged.vlog.append db.options r.key value .value fv
  have hready : fv = .none → (db.vlog.append db.options r.key value .value fv).1.Ready := by
    rintro rfl
    obtain ⟨v, ptr, hv, -, ha⟩ := VLog.appended_append db.options h.alive.ready r.key value .value
    have hv : db.vlog.append db.options r.key value .value .none = (v, .ok ptr) := hv
    rw [hv]
    exact ha.ready
  have hcop := h.copied_vlog hext htidy (fv = .none) hready
  have hun := hu.vlog h.alive.logged.vlog (VLog.harmless_append db.options db.vlog hf hc)
  have he : (db.gcAppend fv r value).1 = { db with vlog := (db.vlog.append db.options r.key value .value fv).1 } := by
    unfold gcAppend
    generalize db.vlog.append db.options r.key value .value fv = x
    obtain ⟨v, st⟩ := x
    cases st <;> rfl
  rw [he]
  exact ⟨hcop.logged, hcop.tells, hun, List.Subset.refl _, hcop.inService⟩

/-- A swap takes no part in the tables. -/
theorem asListed_gcSwap (db : DB) (fw : Option Nat) (seg : Nat) (r : LiveRecord) (newPtr : VLogPointer) :
    (db.gcSwap noFails fw seg r newPtr).asListed = db.asListed.gcSwap noFails fw seg r newPtr := by
  have hsame : db.asListed.pointsTo noFails seg r.key r.offset = db.pointsTo noFails seg r.key r.offset := rfl
  unfold DB.gcSwap
  rw [hsame]
  split
  · generalize hx : db.wal.addRecord ⟨.value, db.sequenceNumber, r.key, newPtr⟩ fw = x
    have hx' : db.asListed.wal.addRecord ⟨.value, db.asListed.sequenceNumber, r.key, newPtr⟩ fw = x := hx
    simp only [hx, hx']
    obtain ⟨wal, res⟩ := x
    cases res <;> rfl
  · rfl

/-- Nothing points into a segment that is gone. -/
theorem Reliable.gcSwap_gone (h : db.Reliable m) (hgone : seg ∉ db.vlog.files.dir) (fw : Option Nat) (r : LiveRecord)
    (newPtr : VLogPointer) : db.gcSwap noFails fw seg r newPtr = db := by
  refine if_neg fun hp => hgone ?_
  obtain ⟨e, he, hid, -⟩ := h.inv.pointsTo_iff.mp hp
  exact hid ▸ h.live r.key e he

/-- **The swap** of a key to a copy, wherever its record fails. -/
theorem survives_swap (h : db.asListed.InService m) (hu : db.Unharmed) (hr : db.Reliable m) {r : LiveRecord}
    {newPtr : VLogPointer} {rest : List LiveRecord} (hw : (Collecting.appended r newPtr rest).AtWork db seg)
    (fw : Option Nat) (hs : (db.gcSwap noFails fw seg r newPtr).Small) :
    Survives db (db.gcSwap noFails fw seg r newPtr) m (fw = none) := by
  by_cases hd : seg ∈ db.vlog.files.dir
  · obtain ⟨-, value, ⟨ptr, hid, ho, hh⟩, hn, hsc⟩ := hw.inv.carries
    have hfile := hw.file r newPtr rest rfl hd
    have hoff := hw.offset r newPtr rest rfl
    have hsmall : (db.asListed.gcSwap noFails fw seg r newPtr).Small := by
      rw [← asListed_gcSwap]
      exact hs.withIndex hs.sst
    have hcop := h.gcSwap hid ho hh hn hfile hoff fw hsmall
    have hlisted : db.asListed.Unharmed := hu
    have hun := hlisted.gcSwap h hn hsc hfile hoff fw hsmall
    have hlog := h.log_gcSwap hn hfile hoff fw hsmall
    rw [← asListed_gcSwap] at hcop hun hlog
    refine ⟨hcop.logged, hcop.tells, hun, ?_, hcop.inService⟩
    rcases hlog with hlog | hlog
    · exact fun a ha => hlog ▸ List.mem_append_left _ ha
    · exact fun a ha => hlog ▸ ha
  · rw [hr.gcSwap_gone hd]
    exact survives_of_service h hu (List.Subset.refl _) _

/-- Every section of a collection but the append and the swap leaves the bytes of the value log alone, and the records of
the log. -/
theorem collectStep_frame (db : DB) (seg : Nat) (hread : ∀ r value rest, p ≠ .read r value rest)
    (happ : ∀ r newPtr rest, p ≠ .appended r newPtr rest) :
    ∃ v wal, (db.collectStep seg p).1 = { db with vlog := v, wal := wal } ∧ (wal = db.wal ∨ wal = db.wal.sync) ∧
      v.files.data = db.vlog.files.data := by
  cases p with
  | chosen =>
    refine ⟨db.vlog, db.wal, ?_, Or.inl rfl, rfl⟩
    simp only [collectStep]
    cases db.vlog.newReader seg 0 <;> rfl
  | scanning rest acc =>
    refine ⟨db.vlog, db.wal, ?_, Or.inl rfl, rfl⟩
    cases rest <;> rfl
  | rewriting rest =>
    cases rest with
    | nil => exact ⟨_, _, rfl, Or.inr rfl, (VLog.sameFiles_sync db.vlog).data⟩
    | cons r rest =>
      refine ⟨db.vlog.openReader seg, db.wal, ?_, Or.inl rfl, (VLog.sameFiles_openReader db.vlog seg).data⟩
      have hread : db.gcRead false seg r = ({ db with vlog := db.vlog.openReader seg }, gcValue false seg r db.vlog) := rfl
      simp only [collectStep, hread]
      cases gcValue false seg r db.vlog <;> rfl
  | read r value rest => exact absurd rfl (hread r value rest)
  | appended r newPtr rest => exact absurd rfl (happ r newPtr rest)
  | synced => exact ⟨_, db.wal, rfl, Or.inl rfl, rfl⟩
  | unread => exact ⟨_, db.wal, rfl, Or.inl rfl, rfl⟩

/-- A section of a collection that neither appends nor swaps. -/
theorem survives_other (h : db.asListed.InService m) (hu : db.Unharmed) (hr : db.Reliable m) (hw : p.AtWork db seg)
    (hread : ∀ r value rest, p ≠ .read r value rest) (happ : ∀ r newPtr rest, p ≠ .appended r newPtr rest) :
    Survives db (db.collectStep seg p).1 m True := by
  have hc := collectStep_spec hr hw.completed hw.inv hw.file
  obtain ⟨v, wal, he, hwal, hdata⟩ := collectStep_frame db seg hread happ
  generalize (db.collectStep seg p).1 = db' at hc he
  subst he
  have hready := hc.reliable.inv.vlog.ready
  have htidy : v.Tidy := by
    refine ⟨hc.reliable.inv.vlog.newest, fun id hid => ?_, fun _ => hready.exists_⟩
    rcases hc.vlog.dir id hid with hd | hnew
    · exact h.alive.logged.vlog.pos id hd
    · exact Nat.one_le_of_lt hnew
  have hfiles : wal.files.data = db.wal.files.data ∧ wal.files.dir = db.wal.files.dir ∧ wal.Active := by
    rcases hwal with rfl | rfl
    · exact ⟨rfl, rfl, h.alive.active⟩
    · obtain ⟨h₁, h₂, -⟩ := WAL.sync_files db.wal
      exact ⟨h₁, h₂, WAL.Active.sync h.alive.active⟩
  have hlog : WAL.log wal.files = WAL.log db.wal.files := WAL.log_congr hfiles.1 hfiles.2.1
  have hserv : ({ db.asListed with vlog := v, wal := wal } : DB).InService m :=
    h.of_holds hc.vlog.holds htidy hready hfiles.1 hfiles.2.1 hfiles.2.2 hc.reliable.refines fun key e he _ =>
      hc.reliable.live key e he
  have hun : ({ db with vlog := v, wal := wal } : DB).Unharmed :=
    hu.of_holds h.alive.logged.vlog hc.vlog.holds hready.exists_ hdata hlog
  exact survives_of_service hserv hun (fun a ha => hlog.symm ▸ ha) True

/-- **A section of a collection.** -/
theorem survives_collectStep (h : db.asListed.InService m) (hu : db.Unharmed) (hr : db.Reliable m) (hw : p.AtWork db seg)
    (hs : (db.collectStep seg p).1.Small) : Survives db (db.collectStep seg p).1 m True := by
  cases p with
  | read r value rest =>
    obtain ⟨ptr, -, -, hh⟩ := hw.inv.carries
    have hstep : (db.collectStep seg (.read r value rest)).1 = (db.gcAppend .none r value).1 := by
      simp only [collectStep]
      generalize db.gcAppend .none r value = x
      obtain ⟨db', st⟩ := x
      cases st <;> rfl
    have happ : Survives db (db.gcAppend .none r value).1 m (AppendFault.none = .none) :=
      survives_append h hu hh.fits trivial
    rw [hstep]
    exact ⟨happ.logged, happ.tells, happ.unharmed, happ.log, fun _ => happ.service rfl⟩
  | appended r newPtr rest =>
    have hswap := survives_swap h hu hr hw none hs
    exact ⟨hswap.logged, hswap.tells, hswap.unharmed, hswap.log, fun _ => hswap.service rfl⟩
  | chosen | scanning rest acc | rewriting rest | synced | unread =>
    exact survives_other h hu hr hw (fun _ _ _ he => by cases he) (fun _ _ _ he => by cases he)

/-- A copy starts within the size limit of a file. -/
theorem collectStep_offset {r : LiveRecord} {newPtr : VLogPointer} {rest : List LiveRecord}
    (h : (db.collectStep seg p).2 = some (.appended r newPtr rest)) : newPtr.offset ≤ db.options.vlogFileSizeLimit := by
  cases p with
  | read r' value rest' =>
    simp only [collectStep, gcAppend] at h
    cases ha : db.vlog.append db.options r'.key value .value .none with
    | mk v st =>
      rw [ha] at h
      cases st with
      | error s => cases h
      | ok ptr =>
        cases h
        exact VLog.append_offset_le ha
  | chosen =>
    simp only [collectStep] at h
    split at h <;> cases h
  | scanning rest' acc =>
    cases rest' with
    | nil =>
      simp only [collectStep] at h
      split at h <;> cases h
    | cons r' rest' => cases h
  | rewriting rest' =>
    cases rest' with
    | nil => cases h
    | cons r' rest' =>
      simp only [collectStep] at h
      split at h <;> cases h
  | appended r' newPtr' rest' => cases h
  | synced => cases h
  | unread => cases h

end DB

/-! ## Steps of the system -/

namespace SaveSys

variable {s : SaveSys} {m : Contents} {db' : DB} {ok : Prop}

/-- A section of a collection. -/
theorem Durable.survives (h : s.Durable m) (hl : DB.LogSteps s.sys.db db') (hs : DB.Survives s.sys.db db' m True) :
    ({ s with sys := { s.sys with db := db' } } : SaveSys).Durable m :=
  ⟨h.inv.logSteps hl, hs.service trivial,
    fun w next levels he l info hi => (h.snapshot w next levels he l info hi).mono fun _ hr => hs.log hr,
    fun next levels he l info hi => (h.saved next levels he l info hi).mono fun _ hr => hs.log hr⟩

/-- A write, wherever it is interrupted. -/
theorem Durable.unharmed_write (h : s.Durable m) (hu : s.sys.db.Unharmed) (sync : Bool) {batch : WriteBatch}
    (hw : Writable batch) (hlim : s.sys.db.options.vlogFileSizeLimit < 2 ^ 64) {f : WriteFaults}
    (hf : ∀ i, (f.vlog i).Clean) (hs : (s.sys.db.write sync batch f).1.Small) :
    (s.sys.db.write sync batch f).1.Unharmed := by
  have hlisted : s.sys.db.asListed.Unharmed := hu
  have hun := hlisted.write h.service.alive sync hw hlim hf hs.write_asListed
  rw [DB.asListed, DB.listing, DB.write_withIndex] at hun
  exact hun

/-- What a step does to the threads. -/
theorem step_sys (s : SaveSys) (a : Act) : (s.step a).sys = s.sys ∨ (s.step a).sys = s.sys.step a ∨
    ∃ text, (s.step a).sys = (s.sys.step a).setManifest text := by
  rcases step_cases s a with he | ⟨counted, he⟩ | ⟨w, next, he⟩ | ⟨w, p, -, -, he⟩ | ⟨-, -, he⟩
  · exact Or.inl (by rw [he])
  · exact Or.inl (by rw [he])
  · exact Or.inl (by rw [he])
  · exact Or.inr (Or.inr ⟨_, by rw [he]⟩)
  · exact Or.inr (Or.inl (by rw [he]))

end SaveSys

/-- Another manifest does not matter to collections. -/
theorem GcSys.Inv.setManifest {s : GcSys} {m : Contents} (h : s.Inv m) (text : Bytes) :
    (⟨s.sys.setManifest text, s.collectors⟩ : GcSys).Inv m := by
  have hr := h.reliable
  have hinv : (s.sys.setManifest text).db.Inv :=
    ⟨⟨hr.inv.wf.memtables, hr.inv.wf.levels, hr.inv.wf.ids⟩, hr.inv.vlog, hr.inv.wal, hr.inv.holds⟩
  refine ⟨h.sys.setManifest text, ⟨hinv, ⟨hr.intact.whole, hr.intact.scanned⟩, hr.live, hr.refines⟩, fun t c hc => ?_,
    h.copies⟩
  exact (h.collectors t c hc).passes hr.intact.whole (VLog.Passes.refl s.db.vlog) fun _ _ _ _ _ he _ => he

namespace FullSys

/-- What holds between the steps. -/
structure Inv (s : FullSys) (m : Contents) : Prop where
  durable : s.save.Durable m
  gc : s.gcSys.Inv m
  unharmed : s.db.Unharmed
  offsets : ∀ t seg r newPtr rest, s.collectors t = some (.working seg (.appended r newPtr rest)) → newPtr.offset < 2 ^ 64

variable {s : FullSys} {m : Contents}

/-- **A section that is no write.** -/
theorem Inv.section (h : s.Inv m) {a : Act} (ht : s.save.Timely a) (hw : a.isWrite = false) :
    (s.step (.thread a)).Inv m ∧ (s.step (.thread a)).db.options = s.db.options := by
  obtain ⟨hd, ho⟩ := h.durable.section ht hw
  have hsame := (h.durable.inv.sys.sameLogs ht.1 hw).1
  have hgc : (⟨s.save.sys.step a, s.collectors⟩ : GcSys).Inv m := by
    cases a with
    | write sync batch => cases hw
    | flush | startCompact t lvl | compact t => exact h.gc.thread ht.1 fun e he => absurd he List.not_mem_nil
  refine ⟨⟨hd, ?_, ?_, h.offsets⟩, ho⟩
  · show (⟨(s.save.step a).sys, s.collectors⟩ : GcSys).Inv m
    rcases s.save.step_sys a with he | he | ⟨text, he⟩ <;> rw [he]
    · exact h.gc
    · exact hgc
    · exact hgc.setManifest text
  · show (s.save.step a).sys.db.Unharmed
    rcases s.save.step_sys a with he | he | ⟨text, he⟩ <;> rw [he]
    · exact h.unharmed
    · exact h.unharmed.sameLogs hsame
    · exact h.unharmed.sameLogs ⟨hsame.vlog, hsame.wal, hsame.walId, hsame.options, hsame.sequenceNumber⟩

/-- **A write.** -/
theorem Inv.write (h : s.Inv m) (sync : Bool) {batch : WriteBatch} (hw : SaveSys.Writable batch)
    (hlim : s.db.options.vlogFileSizeLimit < 2 ^ 64) (hs : (s.db.write sync batch {}).1.Small) :
    (s.step (.thread (.write sync batch))).Inv (WriteBatch.apply m batch) ∧
      (s.step (.thread (.write sync batch))).db.options = s.db.options := by
  obtain ⟨hd, ho⟩ := h.durable.write sync hw hlim hs
  have hstep : s.save.step (.write sync batch) = { s.save with sys := s.save.sys.step (.write sync batch) } := by
    simp [SaveSys.step, Sys.saves, Sys.locks]
  have hgc := h.gc.thread (a := .write sync batch) trivial fun e he => (hw e he).1
  have hun := h.durable.unharmed_write h.unharmed sync hw hlim (f := {}) (fun _ => trivial) hs
  refine ⟨⟨hd, ?_, ?_, h.offsets⟩, ho⟩
  · show (⟨(s.save.step (.write sync batch)).sys, s.collectors⟩ : GcSys).Inv _
    rw [hstep]
    exact hgc
  · show (s.save.step (.write sync batch)).sys.db.Unharmed
    rw [hstep]
    exact hun

/-- **A new collection.** -/
theorem Inv.startGc (h : s.Inv m) (t : Nat) :
    (s.step (.startGc t)).Inv m ∧ (s.step (.startGc t)).db.options = s.db.options := by
  have hgc := h.gc.startGc t
  have hstep : s.step (.startGc t) = s.setGc (s.gcSys.step (.startGc t)) := rfl
  rw [hstep]
  cases hc : s.collectors t with
  | some c =>
    rw [GcSys.step_startGc_running (s := s.gcSys) hc]
    exact ⟨h, rfl⟩
  | none =>
    rw [GcSys.step_startGc (s := s.gcSys) hc] at hgc ⊢
    refine ⟨⟨h.durable, hgc, h.unharmed, fun t' seg r newPtr rest hc' => ?_⟩, rfl⟩
    rcases setAt_cases hc' with ⟨-, hc'⟩ | ⟨-, hc'⟩
    · cases hc'
    · exact h.offsets t' seg r newPtr rest hc'

/-- A collection at work. -/
theorem Inv.atWork (h : s.Inv m) {t seg : Nat} {p : Collecting} (hc : s.collectors t = some (.working seg p)) :
    p.AtWork s.db seg := by
  obtain ⟨hseg, -, hp⟩ := h.gc.collectors t _ hc
  refine ⟨hseg, hp, fun r newPtr rest he hd => ?_, fun r newPtr rest he => ?_⟩
  · subst he
    exact (h.gc.copies t seg r newPtr rest hc hd).1
  · subst he
    exact h.offsets t seg r newPtr rest hc

/-- **A section of a collection.** -/
theorem Inv.collect (h : s.Inv m) (hlim : s.db.options.vlogFileSizeLimit < 2 ^ 64) (t : Nat)
    (hs : (s.step (.gc t)).db.Small) :
    (s.step (.gc t)).Inv m ∧ (s.step (.gc t)).db.options = s.db.options := by
  have hgc := h.gc.gc t
  have hstep : s.step (.gc t) = s.setGc (s.gcSys.step (.gc t)) := rfl
  rw [hstep] at hs ⊢
  cases hc : s.collectors t with
  | none =>
    rw [GcSys.step_gc_none (s := s.gcSys) hc]
    exact ⟨h, rfl⟩
  | some c =>
    rw [GcSys.step_gc (s := s.gcSys) hc] at hs hgc ⊢
    cases c with
    | listed ids =>
      have hsame : (s.db.gcStep (.listed ids)).1 = s.db ∧
          ∀ seg p, (s.db.gcStep (.listed ids)).2 = some (.working seg p) → p = .chosen := by
        unfold DB.gcStep
        simp only
        split
        · exact ⟨rfl, fun seg p he => by cases he⟩
        · exact ⟨rfl, fun seg p he => by cases he; rfl⟩
      have hdb : s.gcSys.db.gcStep (.listed ids) = (s.db, (s.db.gcStep (.listed ids)).2) := Prod.ext hsame.1 rfl
      rw [hdb] at hs hgc ⊢
      refine ⟨⟨h.durable, hgc, h.unharmed, fun t' seg r newPtr rest hc' => ?_⟩, rfl⟩
      rcases setAt_cases hc' with ⟨-, hc'⟩ | ⟨-, hc'⟩
      · cases hsame.2 seg _ hc'
      · exact h.offsets t' seg r newPtr rest hc'
    | working seg p =>
      have hw := h.atWork hc
      have hsteps : s.db.LogSteps (s.db.collectStep seg p).1 :=
        (DB.collectStep_spec h.gc.reliable hw.completed hw.inv hw.file).logs
      have hsurvives := DB.survives_collectStep h.durable.service h.unharmed h.gc.reliable hw hs
      have hoff : ∀ r newPtr rest, (s.db.collectStep seg p).2 = some (.appended r newPtr rest) → newPtr.offset < 2 ^ 64 :=
        fun r newPtr rest he => (DB.collectStep_offset he).trans_lt hlim
      have hdb : s.gcSys.db.gcStep (.working seg p) =
          ((s.db.collectStep seg p).1, (s.db.collectStep seg p).2.map (.working seg)) := rfl
      rw [hdb] at hs hgc ⊢
      generalize s.db.collectStep seg p = x at hs hgc hsteps hsurvives hoff ⊢
      refine ⟨⟨h.durable.survives hsteps hsurvives, hgc, hsurvives.unharmed, fun t' seg' r newPtr rest hc' => ?_⟩,
        hsteps.sameTables.options⟩
      rcases setAt_cases hc' with ⟨-, hc'⟩ | ⟨-, hc'⟩
      · obtain ⟨q, hq, he⟩ := Option.map_eq_some_iff.mp hc'
        cases he
        exact hoff r newPtr rest hq
      · exact h.offsets t' seg' r newPtr rest hc'

end FullSys

/-! ## Crashes -/

/-- **A crash** in a state that survives. -/
theorem SaveSys.Durable.crashed {s : SaveSys} {m : Contents} {db' : DB} {ok : Prop} (h : s.Durable m)
    (hl : DB.LogSteps s.sys.db db') (hs : DB.Survives s.sys.db db' m ok) {torn : Folder (Option SSTableFile)}
    (ht : s.Tears torn) (hsmall : db'.Small) :
    (Machine.off { db'.disk with sst := torn }).Lives s.sys.db.options m := by
  have htables := hl.sameTables
  have htears : ({ s with sys := { s.sys with db := db' } } : SaveSys).Tears torn := by
    have htouched : ∀ w, ({ s.sys with db := db' } : Sys).touched w = s.sys.touched w := fun w => by cases w <;> rfl
    show ∀ id ∈ db'.sst.dir, id < db'.nextSstableId → _ → id ∈ torn.dir ∧ torn.data id = db'.sst.data id
    rw [htables.sst, htables.next]
    exact fun id hid hlt hfree => ht id hid hlt fun w => htouched w ▸ hfree w
  have hlives := (h.inv.logSteps hl).crash hs.logged
    (fun next levels he l info hi => (h.saved next levels he l info hi).mono fun _ hr => hs.log hr) hs.tells htears hsmall
  exact htables.options ▸ hlives

namespace FullSys

/-- What a crash interrupts, and how far it got: nothing, a write, or the append or the swap of a collection. -/
inductive Doing
  | nothing
  | write (sync : Bool) (batch : WriteBatch) (f : WriteFaults)
  | collect (t : Nat) (fv : AppendFault) (fw : Option Nat)

namespace Doing

/-- The entries that are being written. -/
def entries : Doing → WriteBatch
  | write _ batch _ => batch
  | _ => []

/-- No part of a record gets into the value log. -/
def Clean : Doing → Prop
  | nothing => True
  | write _ _ f => ∀ i, (f.vlog i).Clean
  | collect _ fv _ => fv.Clean

end Doing

/-- The state in the middle of it. -/
def interrupt (s : FullSys) : Doing → DB
  | .nothing => s.db
  | .write sync batch f => (s.db.write sync batch f).1
  | .collect t fv fw =>
    match s.collectors t with
    | some (.working _ (.read r value _)) => (s.db.gcAppend fv r value).1
    | some (.working gcFileId (.appended r newPtr _)) => s.db.gcSwap noFails fw gcFileId r newPtr
    | _ => s.db

/-- What a crash leaves: the logs, the last manifest, and some table files. -/
def crashed (s : FullSys) (during : Doing) (torn : Folder (Option SSTableFile)) : Disk :=
  { (s.interrupt during).disk with sst := torn }

variable {s : FullSys} {m : Contents}

/-- The append or the swap of a collection, wherever it is interrupted. -/
theorem Inv.interrupted (h : s.Inv m) {t : Nat} {fv : AppendFault} {fw : Option Nat} (hc : fv.Clean)
    (hs : (s.interrupt (.collect t fv fw)).Small) : DB.LogSteps s.db (s.interrupt (.collect t fv fw)) ∧
      DB.Survives s.db (s.interrupt (.collect t fv fw)) m False := by
  have hserv := h.durable.service
  have hsame : DB.LogSteps s.db s.db ∧ DB.Survives s.db s.db m False :=
    ⟨.refl, DB.survives_of_service hserv h.unharmed (List.Subset.refl _) False⟩
  unfold interrupt at hs ⊢
  simp only at hs ⊢
  split at hs
  · rename_i seg r value rest hcol
    obtain ⟨ptr, -, -, hh⟩ := (h.atWork hcol).inv.carries
    have happ := DB.survives_append hserv h.unharmed hh.fits hc
    have hsteps : DB.LogSteps s.db (s.db.gcAppend fv r value).1 := by
      rw [DB.gcAppend]
      exact DB.LogSteps.refl.logs _ s.db.wal s.db.walId s.db.sequenceNumber (Nat.le_refl _)
    exact ⟨hsteps, happ.logged, happ.tells, happ.unharmed, happ.log, False.elim⟩
  · rename_i seg r newPtr rest hcol
    have hswap := DB.survives_swap hserv h.unharmed h.gc.reliable (h.atWork hcol) fw hs
    exact ⟨DB.gcSwap_logSteps s.db noFails fw seg r newPtr, hswap.logged, hswap.tells, hswap.unharmed, hswap.log, False.elim⟩
  · exact hsame

/-- **A crash**, between two sections, in the middle of a write, or in the middle of an append or a swap of a collection. -/
theorem Inv.crash (h : s.Inv m) {during : Doing} (hw : SaveSys.Writable during.entries) (hc : during.Clean)
    (hlim : s.db.options.vlogFileSizeLimit < 2 ^ 64) {torn : Folder (Option SSTableFile)} (ht : s.save.Tears torn)
    (hs : (s.interrupt during).Small) : ∃ es, es <+: during.entries ∧
      (Machine.off (s.crashed during torn)).Lives s.db.options (WriteBatch.apply m es) ∧
      (Machine.off (s.crashed during torn)).Unharmed := by
  cases during with
  | nothing =>
    obtain ⟨es, hes, hl⟩ := h.durable.crash none hw hlim ht hs
    exact ⟨es, hes, hl, h.unharmed⟩
  | write sync batch f =>
    obtain ⟨es, hes, hl⟩ := h.durable.crash (some (sync, batch, f)) hw hlim ht hs
    exact ⟨es, hes, hl, h.durable.unharmed_write h.unharmed sync hw hlim hc hs⟩
  | collect t fv fw =>
    obtain ⟨hsteps, hsurvives⟩ := h.interrupted hc hs
    exact ⟨[], List.prefix_rfl, h.durable.crashed hsteps hsurvives ht hs, hsurvives.unharmed⟩

end FullSys

/-! ## Openings -/

namespace DB

variable {db : DB} {m : Contents}

/-- The files of what is visible are on disk. -/
theorem InService.live (h : db.InService m) : db.Live := by
  intro key e he
  obtain ⟨r, hr, rfl⟩ := h.mirrors.lastRecord he
  have htells := h.tells key
  have hshow := h.refines key
  rw [hr] at htells
  cases hm : m key with
  | none =>
    rw [hm] at hshow
    have hnone : db.visible key = none := hshow
    rw [he] at hnone
    cases hnone
  | some value =>
    rw [hm] at htells
    exact htells.2.2

/-- The scans of the files deliver all versions. -/
theorem InService.intact (h : db.InService m) (hu : db.Unharmed) : db.Intact := by
  refine ⟨fun id _ => hu.whole id, fun key e he => ?_⟩
  obtain ⟨r, hr, rfl, rfl⟩ := h.alive.logged.versions he
  exact (hu.scanned r hr).imp_right fun ⟨value, hst, hsc⟩ => ⟨value, hst.holds h.alive.logged.vlog, hsc⟩

end DB

/-- **An opening.** -/
theorem FullSys.inv_start {o : Options} {d : Disk} {m : Contents} (hu : o.Usable) (h : (Machine.off d).Lives o m)
    (hun : (Machine.off d).Unharmed) (hs : (DB.openDB o d .none).1.Small) : (DB.openDB o d .none).2 = .ok () ∧
      (DB.openDB o d .none).1.options = o ∧ (start (DB.openDB o d .none).1).Inv m := by
  obtain ⟨hok, ho, hd⟩ := SaveSys.durable_start hu h hs
  have hunharmed := unharmed_openDB h.1 hun .none
  have hserv : (DB.openDB o d .none).1.InService m := by
    obtain ⟨hres, hopen⟩ := DB.openDB_spec h.1 hu.levels .none hs
    exact (hres.opened hok).inService (hres.tells m h.2)
  refine ⟨hok, ho, hd, ?_, hunharmed, fun t seg r newPtr rest hc => by cases hc⟩
  exact GcSys.inv_start (.reopened h.1 hu.levels .none hs hok) (hserv.intact hunharmed) hserv.live hserv.refines

/-! ## Lifetimes -/

/-- A directory that is closed, or open with all its threads at work. -/
inductive Site
  | off (d : Disk)
  | on (s : FullSys)

/-- What happens to it: an opening, a crash during an opening, a section of a thread, a crash. -/
inductive SiteEvent
  | opening
  | crashOpening (f : OpenFaults)
  | act (a : GcAct)
  | crash (during : FullSys.Doing) (torn : Folder (Option SSTableFile))

namespace Site

def next (o : Options) : Site → SiteEvent → Site
  | .off d, .opening =>
    match DB.openDB o d .none with
    | (db, .ok ()) => .on (FullSys.start db)
    | (db, .error _) => .off db.disk
  | .off d, .crashOpening f => .off (DB.openDB o d f).1.disk
  | .on s, .act a => .on (s.step a)
  | .on s, .crash during torn => .off (s.crashed during torn)
  | x, _ => x

/-- The entries that an event leaves: a batch that is written, and some of the first entries of one that is interrupted. -/
def Leaves : Site → SiteEvent → WriteBatch → Prop
  | .on _, .act a, es => es = a.entries
  | .on _, .crash during _, es => es <+: during.entries
  | _, _, es => es = []

/-- Entries can be written, ids and sequence numbers are within their bounds, the threads keep the rules under which the
manifest is sound, and a crash only harms the tables that a thread is at, and leaves no part of a record in the value
log. -/
def Regular (o : Options) : Site → SiteEvent → Prop
  | .off d, .opening => (DB.openDB o d .none).1.Small
  | .off d, .crashOpening f => (DB.openDB o d f).1.Small
  | .on s, .act (.thread a) => s.save.Timely a ∧ ∀ sync batch, a = .write sync batch →
      SaveSys.Writable batch ∧ (s.db.write sync batch {}).1.Small
  | .on s, .act (.gc t) => (s.step (.gc t)).db.Small
  | .on s, .crash during torn =>
    SaveSys.Writable during.entries ∧ during.Clean ∧ s.save.Tears torn ∧ (s.interrupt during).Small
  | _, _ => True

/-- The files can be recovered, or the threads are at work. -/
def Lives (o : Options) : Site → Contents → Prop
  | .off d, m => (Machine.off d).Lives o m ∧ (Machine.off d).Unharmed
  | .on s, m => s.db.options = o ∧ s.Inv m

/-- An empty directory. -/
def start : Site := .off .empty

variable {o : Options}

/-- An opening that succeeds. -/
theorem next_opening {d : Disk} (h : (DB.openDB o d .none).2 = .ok ()) :
    (Site.off d).next o .opening = .on (FullSys.start (DB.openDB o d .none).1) := by
  rw [next, show DB.openDB o d .none = ((DB.openDB o d .none).1, .ok ()) from Prod.ext rfl h]

/-- **A step of a thread.** -/
theorem Lives.act {s : FullSys} {m : Contents} {a : GcAct} (hu : o.Usable) (h : (Site.on s).Lives o m)
    (hr : (Site.on s).Regular o (.act a)) : (Site.on (s.step a)).Lives o (WriteBatch.apply m a.entries) := by
  obtain ⟨rfl, hi⟩ := h
  cases a with
  | thread a =>
    obtain ⟨ht, hwrite⟩ := hr
    cases a with
    | write sync batch =>
      obtain ⟨hw, hs⟩ := hwrite sync batch rfl
      exact ⟨(hi.write sync hw hu.limit hs).2, (hi.write sync hw hu.limit hs).1⟩
    | flush => exact ⟨(hi.section ht rfl).2, (hi.section ht rfl).1⟩
    | startCompact t lvl => exact ⟨(hi.section ht rfl).2, (hi.section ht rfl).1⟩
    | compact t => exact ⟨(hi.section ht rfl).2, (hi.section ht rfl).1⟩
  | startGc t => exact ⟨(hi.startGc t).2, (hi.startGc t).1⟩
  | gc t => exact ⟨(hi.collect hu.limit t hr).2, (hi.collect hu.limit t hr).1⟩

/-- **An event.** -/
theorem Lives.keeps (hu : o.Usable) : Ledger.Keeps (next o) Leaves WriteBatch.apply (Lives o) (Regular o) := by
  rintro site x m h hr
  cases site with
  | off d =>
    cases x with
    | opening =>
      obtain ⟨hok, ho, hi⟩ := FullSys.inv_start hu h.1 h.2 hr
      rw [next_opening hok]
      exact ⟨[], rfl, ho, hi⟩
    | crashOpening f =>
      obtain ⟨hl, hun⟩ := h
      obtain ⟨hres, -⟩ := DB.openDB_spec hl.1 hu.levels f hr
      exact ⟨[], rfl, ⟨hres.recoverable, hres.tells m hl.2⟩, unharmed_openDB hl.1 hun f⟩
    | act a => exact ⟨[], rfl, h⟩
    | crash during torn => exact ⟨[], rfl, h⟩
  | on s =>
    cases x with
    | opening => exact ⟨[], rfl, h⟩
    | crashOpening f => exact ⟨[], rfl, h⟩
    | act a => exact ⟨a.entries, rfl, h.act hu hr⟩
    | crash during torn =>
      obtain ⟨rfl, hi⟩ := h
      obtain ⟨hw, hc, ht, hs⟩ := hr
      exact hi.crash hw hc hu.limit ht hs

end Site

end SplitKV
