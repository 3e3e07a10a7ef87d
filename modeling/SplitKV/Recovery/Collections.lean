import SplitKV.Recovery.Mirror
import SplitKV.Store.Gc

/-!
# Collections and the log

A collection writes the records of its copies to the log, as a write does. Wherever it is interrupted, the log stands for
the same contents (`DB.InService.gcStopped`). When it is completed, no last record points into the segment that it removes
(`DB.InService.runGC`).
-/

namespace SplitKV

open Assoc Versions

namespace DB

/-! ## One live record -/

/-- The rewriting goes on behind the first record when its append did not fail. -/
theorem gcRewrite_cons (f : GcFaults) (seg i : Nat) (r : LiveRecord) (rs : List LiveRecord) (db : DB) :
    gcRewrite f seg i (r :: rs) db =
      match gcRewrite f seg i [r] db with
      | (db, .error s) => (db, .error s)
      | (db, .ok ()) => gcRewrite f seg (i + 1) rs db := by
  rw [gcRewrite, gcRewrite]
  cases db.gcRead (f.read i) seg r with
  | mk db₁ x =>
    cases x with
    | error s => rfl
    | ok value =>
      simp only
      cases db₁.gcAppend (f.append i) r value with
      | mk db₂ y =>
        cases y with
        | error s => rfl
        | ok newPtr => rfl

/-- The state behind a record whose append failed, or whose copy was not swapped, and so on. -/
structure Copied (db db' : DB) (m : Contents) (ok : Prop) : Prop where
  logged : db'.Logged
  options : db'.options = db.options
  tells : Tells db'.vlog.files (WAL.log db'.wal.files) m
  inService : ok → db'.InService m
  extends_ : db.vlog.Extends db'.vlog

variable {db : DB} {m : Contents}

/-- The value log grows alone. -/
theorem InService.copied_vlog (h : db.InService m) {v : VLog} (hext : db.vlog.Extends v) (ht : v.Tidy) (ok : Prop)
    (hr : ok → v.Ready) : Copied db { db with vlog := v } m ok := by
  have hl := h.alive.logged.of_vlog hext ht (Nat.le_refl _)
  refine ⟨hl, rfl, h.tells.mono h.alive.logged.vlog hext, fun hok => ?_, hext⟩
  exact ⟨⟨hl, h.alive.active, hr hok⟩, h.settled, h.refines.mono (fun _ => rfl) hext,
    h.tells.mono h.alive.logged.vlog hext, h.mirrors⟩

/-- A value that is visible is the one of the contents. -/
theorem InService.value_eq (h : db.InService m) {key value : Bytes} {e : InternalEntry} (he : db.visible key = some e)
    {ptr : VLogPointer} (hid : ptr.fileId = e.vlogPtr.fileId) (ho : ptr.offset = e.vlogPtr.offset)
    (hh : db.vlog.Holds ptr key value) : m key = some value := by
  have hk := h.refines key
  cases hm : m key with
  | none =>
    rw [hm] at hk
    have hnone : db.visible key = none := hk
    rw [he] at hnone
    cases hnone
  | some x =>
    rw [hm] at hk
    obtain ⟨e', he', hh', -⟩ := hk
    rw [he] at he'
    cases he'
    rw [(hh.unique hh' hid.symm ho.symm).2.2]

/-- A key that is visible is one of the log. -/
theorem InService.key_logged (h : db.InService m) {key : Key} {e : InternalEntry} (he : db.visible key = some e) :
    29 + key.length < 2 ^ 32 ∧ Token key := by
  obtain ⟨last, hlast, -⟩ := h.mirrors.lastRecord he
  obtain ⟨hmem, rfl⟩ := WAL.mem_of_lastRecord hlast
  exact ⟨(h.alive.logged.logs.fits hmem).key, h.alive.logged.records.token last hmem⟩

/-- The record of a swap can be written. -/
theorem InService.fits_swap (h : db.InService m) {seg : Nat} {r : LiveRecord} {newPtr : VLogPointer} {value : Bytes}
    {e : InternalEntry} (he : db.visible r.key = some e) (hp : db.pointsTo noFails seg r.key r.offset = true)
    (hn : db.vlog.Holds newPtr r.key value) (hd : newPtr.fileId ∈ db.vlog.files.dir) (hl : newPtr.offset < 2 ^ 64)
    {fw : Option Nat} (hs : (db.gcSwap noFails fw seg r newPtr).Small) :
    WAL.Fits ⟨.value, db.sequenceNumber, r.key, newPtr⟩ := by
  have hv := (gcSwap_spec h.alive.inv noFails fw seg r hn).vlog
  have hseq : db.sequenceNumber < 2 ^ 64 := by
    have hb := hs.sequence
    unfold DB.gcSwap at hb
    rw [if_pos hp] at hb
    simp only at hb
    split at hb <;> exact hb
  have hnew : newPtr.fileId < 100000 := hs.vlog _ (hv.symm ▸ hd)
  have hsize : newPtr.valueSize < 2 ^ 32 := by
    rw [hn.valueSize]
    have := hn.fits
    unfold VLog.Fits at this
    omega
  exact ⟨Or.inl rfl, hseq, (h.key_logged he).1, hnew.trans (by decide), hl, hsize⟩

/-- A swap that goes through. -/
theorem gcSwap_added (hw : db.wal.writer = .opened) {seg : Nat} {r : LiveRecord} {newPtr : VLogPointer}
    (hp : db.pointsTo noFails seg r.key r.offset = true) : db.gcSwap noFails none seg r newPtr =
      DB.addVersion { db with wal := (db.wal.addRecord ⟨.value, db.sequenceNumber, r.key, newPtr⟩ none).1 } r.key
        ⟨newPtr, db.sequenceNumber, .value⟩ := by
  simp only [DB.gcSwap, if_pos hp, WAL.addRecord_opened hw]
  rfl

/-- **The swap** of a key to a copy of its value, wherever its record fails. -/
theorem InService.gcSwap (h : db.InService m) {seg : Nat} {r : LiveRecord} {newPtr ptr : VLogPointer} {value : Bytes}
    (hid : ptr.fileId = seg) (ho : ptr.offset = r.offset) (hh : db.vlog.Holds ptr r.key value)
    (hn : db.vlog.Holds newPtr r.key value) (hd : newPtr.fileId ∈ db.vlog.files.dir)
    (hl : newPtr.offset < 2 ^ 64) (fw : Option Nat) (hs : (db.gcSwap noFails fw seg r newPtr).Small) :
    Copied db (db.gcSwap noFails fw seg r newPtr) m (fw = none) := by
  have hinv := h.alive.inv
  by_cases hp : db.pointsTo noFails seg r.key r.offset = true
  · obtain ⟨e, he, hse, hoe⟩ := hinv.pointsTo_iff.mp hp
    obtain ⟨-, htoken⟩ := h.key_logged he
    have hm : m r.key = some value := h.value_eq he (hid.trans hse.symm) (ho.trans hoe.symm) hh
    have hsame : (BatchEntry.put r.key value).apply m = m := by
      funext k
      show (if k = r.key then some value else m k) = m k
      split
      · rename_i hk
        rw [hk, hm]
      · rfl
    have hst : Stored db.vlog.files newPtr r.key value := hn.stored h.alive.ready.exists_
    have hswap := gcSwap_spec hinv noFails fw seg r hn
    have hfits := h.fits_swap he hp hn hd hl hs
    have hsend := @Logged.sendRecord db h.alive.logged h.alive.active (.put r.key value) [] db.vlog
      ⟨.value, db.sequenceNumber, r.key, newPtr⟩ (VLog.Extends.refl _) h.alive.logged.vlog hfits ⟨rfl, rfl, hst, hd⟩
      ⟨rfl, Or.inr ⟨rfl, value, hst⟩, htoken⟩ trivial fw
      (db.gcSwap noFails fw seg r newPtr, (db.wal.addRecord ⟨.value, db.sequenceNumber, r.key, newPtr⟩ fw).2)
      (fun wal hw => by
        rw [hw, DB.gcSwap, if_pos hp]
        simp only [hw]
        rfl)
      (fun wal s hw => by
        rw [hw, DB.gcSwap, if_pos hp]
        simp only [hw])
    have hvlog : (db.gcSwap noFails fw seg r newPtr).vlog = db.vlog := hswap.vlog
    have hext : db.vlog.Extends (db.gcSwap noFails fw seg r newPtr).vlog := by
      rw [hvlog]
      exact VLog.Extends.refl _
    obtain ⟨-, hlog, hwal, herror⟩ := h.alive.active.addRecord h.alive.logged.logs hfits fw
    cases fw with
    | some n =>
      obtain ⟨s, hs⟩ := herror (Option.some_ne_none n)
      have ht := hsend.skipped (fun hok => by rw [hs] at hok; cases hok) m h.tells
      rw [hsame, or_self] at ht
      exact ⟨hsend.logged, hsend.options, ht, fun hn => (by cases hn), hext⟩
    | none =>
      obtain ⟨hok, -⟩ := hwal rfl
      have ht := hsend.told hok m h.tells
      rw [hsame] at ht
      refine ⟨hsend.logged, hsend.options, ht, fun _ => ⟨⟨hsend.logged, hsend.active hok, ?_⟩, hswap.settled h.settled, ?_, ht,
        ?_⟩, hext⟩
      · rw [hvlog]
        exact h.alive.ready
      · intro key
        by_cases hk : key = r.key
        · subst hk
          rw [hm]
          refine ⟨_, (hswap.moved ⟨hp, rfl⟩).1, ?_, ?_⟩
          · rw [hvlog]
            exact hn
          · rw [hvlog]
            exact VLog.canOpen_of_mem hd
        · exact (h.refines key).mono (congrArg (shown InternalEntry.Gone) (hswap.versions key fun he => absurd he hk)) hext
      · rw [gcSwap_added h.alive.active.writer hp]
        exact @Mirrors.addVersion db h.mirrors h.valid db.vlog _ ⟨.value, db.sequenceNumber, r.key, newPtr⟩
          (hlog.resolve_right fun hne => hne.1 rfl)
  · have he : db.gcSwap noFails fw seg r newPtr = db := if_neg hp
    rw [he]
    exact ⟨h.alive.logged, rfl, h.tells, fun _ => h, VLog.Extends.refl _⟩

/-- **One live record**, wherever its copy fails. -/
theorem InService.gcRecord (h : db.InService m) {seg : Nat} {r : LiveRecord} (hr : LiveIn db.vlog seg [r])
    (hl : db.options.vlogFileSizeLimit < 2 ^ 64) {f : GcFaults} {i : Nat} (hcas : f.cas i = noFails)
    (hs : (gcRewrite f seg i [r] db).1.Small) :
    Copied db (gcRewrite f seg i [r] db).1 m (f.append i = .none ∧ f.wal i = none) ∧
      (f.append i = .none → (gcRewrite f seg i [r] db).2 = .ok ()) := by
  obtain ⟨hsize, ptr, value, hid, ho, hh⟩ := hr r List.mem_cons_self
  have hopen := VLog.sameFiles_openReader db.vlog seg
  have hext₀ := VLog.extends_openReader db.vlog seg
  have h₀ := h.copied_vlog hext₀ (hopen.tidy h.alive.logged.vlog) True fun _ => h.alive.ready.sameFiles hopen
  have hread : db.gcRead (f.read i) seg r =
      ({ db with vlog := db.vlog.openReader seg }, gcValue (f.read i) seg r db.vlog) := rfl
  rw [gcRewrite, hread] at hs ⊢
  cases hv : gcValue (f.read i) seg r db.vlog with
  | error s => exact ⟨⟨h₀.logged, h₀.options, h₀.tells, fun _ => h₀.inService trivial, hext₀⟩, fun _ => rfl⟩
  | ok x =>
    simp only [hv, gcAppend] at hs ⊢
    have hext := VLog.extends_append db.options (db.vlog.openReader seg) r.key x .value (f.append i)
    have htidy := h₀.logged.vlog.append db.options r.key x .value (f.append i)
    cases ha : (db.vlog.openReader seg).append db.options r.key x .value (f.append i) with
    | mk v st =>
      simp only at htidy
      rw [ha] at hext htidy
      simp only [ha] at hs ⊢
      cases st with
      | error s =>
        -- without a fault the append succeeds
        have hfault : f.append i ≠ .none := by
          intro hok
          obtain ⟨v', ptr', he, -⟩ := VLog.appended_append db.options (h.alive.ready.sameFiles hopen) r.key x .value
          rw [hok, he] at ha
          cases ha
        exact ⟨h.copied_vlog (hext₀.trans hext) htidy _ fun hok => absurd hok.1 hfault, fun hok => absurd hok hfault⟩
      | ok newPtr =>
        obtain ⟨rfl, happ, hnew⟩ := gcAppend_spec h.alive.inv hid ho hh hsize hv ha
        have h₁ := h.copied_vlog (hext₀.trans hext) htidy True fun _ => happ.ready
        have hdir : newPtr.fileId ∈ v.files.dir := (happ.dir _).mpr (Or.inl happ.fileId)
        simp only [gcRewrite, hcas] at hs ⊢
        have hswap := (h₁.inService trivial).gcSwap hid ho (hh.mono (hext₀.trans hext)) hnew hdir
          ((VLog.append_offset_le ha).trans_lt hl) (f.wal i) hs
        exact ⟨⟨hswap.logged, hswap.options, hswap.tells, fun hok => hswap.inService hok.2,
          (hext₀.trans hext).trans hswap.extends_⟩, fun _ => trivial⟩

/-! ## All live records -/

theorem grows_gcSwap (db : DB) (fails : Nat → Option Status) (fw : Option Nat) (seg : Nat) (r : LiveRecord)
    (newPtr : VLogPointer) : db.Grows (db.gcSwap fails fw seg r newPtr) := by
  unfold DB.gcSwap
  split
  · have hdir := dir_addRecord db.wal ⟨.value, db.sequenceNumber, r.key, newPtr⟩ fw
    simp only
    split
    · rename_i wal s hw
      rw [hw] at hdir
      exact ⟨fun _ h => h, fun id hid => hdir.symm ▸ hid, Nat.le_refl _, Nat.le_succ _⟩
    · rename_i wal hw
      rw [hw] at hdir
      exact ⟨fun _ h => h, fun id hid => hdir.symm ▸ hid, Nat.le_refl _, Nat.le_succ _⟩
  · exact Grows.refl db

theorem grows_gcRewrite (f : GcFaults) (seg : Nat) : ∀ (rs : List LiveRecord) (i : Nat) (db : DB),
    db.Grows (gcRewrite f seg i rs db).1
  | [], _, db => Grows.refl db
  | r :: rs, i, db => by
    have hopen := VLog.extends_openReader db.vlog seg
    have h₀ : db.Grows { db with vlog := db.vlog.openReader seg } :=
      ⟨hopen.dir, fun _ h => h, Nat.le_refl _, Nat.le_refl _⟩
    rw [gcRewrite, show db.gcRead (f.read i) seg r =
      ({ db with vlog := db.vlog.openReader seg }, gcValue (f.read i) seg r db.vlog) from rfl]
    cases gcValue (f.read i) seg r db.vlog with
    | error s => exact h₀.trans (grows_gcRewrite f seg rs (i + 1) _)
    | ok x =>
      have hext := VLog.extends_append db.options (db.vlog.openReader seg) r.key x .value (f.append i)
      have h₁ : db.Grows { db with vlog :=
          ((db.vlog.openReader seg).append db.options r.key x .value (f.append i)).1 } :=
        ⟨(hopen.trans hext).dir, fun _ h => h, Nat.le_refl _, Nat.le_refl _⟩
      simp only [gcAppend]
      generalize (db.vlog.openReader seg).append db.options r.key x .value (f.append i) = y at h₁ ⊢
      obtain ⟨v, st⟩ := y
      cases st with
      | error s => exact h₁
      | ok newPtr => exact (h₁.trans (grows_gcSwap _ _ _ _ _ _)).trans (grows_gcRewrite f seg rs (i + 1) _)

theorem grows_gcRewrite_cons (f : GcFaults) (seg i : Nat) (r : LiveRecord) (rs : List LiveRecord) (db : DB) :
    (DB.gcRewrite f seg i [r] db).1.Grows (DB.gcRewrite f seg i (r :: rs) db).1 := by
  rw [gcRewrite_cons f seg i r rs db]
  cases DB.gcRewrite f seg i [r] db with
  | mk db₁ st =>
    cases st with
    | error s => exact Grows.refl db₁
    | ok u => exact grows_gcRewrite f seg rs (i + 1) db₁

/-- **All live records** are copied when nothing fails. -/
theorem InService.gcRewrite {seg : Nat} : ∀ (rs : List LiveRecord) (i : Nat) (db : DB), db.InService m →
    LiveIn db.vlog seg rs → db.options.vlogFileSizeLimit < 2 ^ 64 → (DB.gcRewrite .none seg i rs db).1.Small →
    Copied db (DB.gcRewrite .none seg i rs db).1 m True ∧ (DB.gcRewrite .none seg i rs db).2 = .ok ()
  | [], _, db, h, _, _, _ => ⟨⟨h.alive.logged, rfl, h.tells, fun _ => h, VLog.Extends.refl _⟩, rfl⟩
  | r :: rs, i, db, h, hr, hl, hs => by
    have hone : LiveIn db.vlog seg [r] := fun x hx => List.mem_singleton.mp hx ▸ hr r List.mem_cons_self
    obtain ⟨hc, hok⟩ := h.gcRecord hone hl (f := .none) (i := i) rfl
      (hs.of_grows (grows_gcRewrite_cons .none seg i r rs db))
    have hok := hok rfl
    rw [gcRewrite_cons .none seg i r rs db] at hs ⊢
    generalize DB.gcRewrite .none seg i [r] db = x at hc hok hs ⊢
    obtain ⟨db₁, st⟩ := x
    cases hok
    obtain ⟨hrest, hst⟩ := InService.gcRewrite rs (i + 1) db₁ (hc.inService ⟨rfl, rfl⟩) (hr.mono hc.extends_)
      (hc.options ▸ hl) hs
    exact ⟨⟨hrest.logged, hrest.options.trans hc.options, hrest.tells, hrest.inService, hc.extends_.trans hrest.extends_⟩,
      hst⟩

/-! ## The end of a collection -/

theorem gcFinish_frame (db : DB) (f : GcFaults) (seg : Nat) :
    db.gcFinish f seg = { db with vlog := (db.gcFinish f seg).vlog, wal := (db.gcFinish f seg).wal } := by
  unfold gcFinish gcDelete
  split <;> rfl

theorem wal_gcFinish (db : DB) (f : GcFaults) (seg : Nat) :
    (db.gcFinish f seg).wal = db.wal ∨ (db.gcFinish f seg).wal = db.wal.sync := by
  have hsync : (db.gcFinish f seg).wal = (db.gcSync f).wal := by
    unfold gcFinish gcDelete
    split <;> rfl
  rw [hsync, gcSync]
  simp only
  split
  · exact Or.inl rfl
  · exact Or.inr rfl

/-- The log at the end. -/
theorem log_gcFinish (db : DB) (f : GcFaults) (seg : Nat) :
    (db.gcFinish f seg).wal.files.data = db.wal.files.data ∧ (db.gcFinish f seg).wal.files.dir = db.wal.files.dir ∧
      WAL.log (db.gcFinish f seg).wal.files = WAL.log db.wal.files ∧
      (db.wal.Active → (db.gcFinish f seg).wal.Active) := by
  obtain ⟨h₁, h₂, -⟩ := WAL.sync_files db.wal
  rcases wal_gcFinish db f seg with hw | hw
  · rw [hw]
    exact ⟨rfl, rfl, rfl, id⟩
  · rw [hw]
    exact ⟨h₁, h₂, WAL.log_congr h₁ h₂, fun ha => ha.sync⟩

/-- A step of the value log that keeps what records point at, though their files may be gone, with a log that is synced at
most. -/
theorem Logged.of_holds (h : db.Logged) {v : VLog} {wal : WAL}
    (hh : ∀ ptr key value, db.vlog.Holds ptr key value → v.Holds ptr key value) (ht : v.Tidy)
    (hcur : v.currentFileId ∈ v.files.dir) (hdata : wal.files.data = db.wal.files.data)
    (hdir : wal.files.dir = db.wal.files.dir) : { db with vlog := v, wal := wal }.Logged := by
  have hlog : WAL.log wal.files = WAL.log db.wal.files := WAL.log_congr hdata hdir
  refine ⟨⟨h.wf.memtables, h.wf.levels, h.wf.ids⟩, described_congr h.described rfl rfl, h.logs.congr hdata hdir, ?_,
    fun r hr => h.bound r (hlog ▸ hr), fun m hm => (h.memtables m hm).mono fun r hr => hlog.symm ▸ hr,
    fun l info hi => (h.tables l info hi).mono fun r hr => hlog.symm ▸ hr, ht, fun id hid => h.walId id (hdir ▸ hid), h.pos⟩
  show Records v.files (WAL.log wal.files)
  rw [hlog]
  exact ⟨fun r hr => (h.records.holds r hr).imp_right fun ⟨ht, value, hs⟩ =>
    ⟨ht, value, (hh _ _ _ (hs.holds h.vlog)).stored hcur⟩, h.records.ordered, h.records.pos, h.records.token⟩

/-- What the log says of a key that has a value is what is visible. -/
theorem InService.visible_lastRecord (h : db.InService m) {key : Key} {r : WALRecord}
    (hr : WAL.lastRecord (WAL.log db.wal.files) key = some r) (ht : r.type = .value) : db.visible key = some r.entry := by
  have hmir := h.mirrors key
  rw [hr] at hmir
  refine hmir.trans (if_neg fun hg => ?_)
  have hdel : r.type = .deletion := hg
  rw [ht] at hdel
  cases hdel

/-- **A step of the value log** that keeps what is visible, and the files of it. -/
theorem InService.of_holds (h : db.InService m) {v : VLog} {wal : WAL}
    (hh : ∀ ptr key value, db.vlog.Holds ptr key value → v.Holds ptr key value) (ht : v.Tidy) (hready : v.Ready)
    (hdata : wal.files.data = db.wal.files.data) (hdir : wal.files.dir = db.wal.files.dir) (hact : wal.Active)
    (hr : { db with vlog := v, wal := wal }.Refines m)
    (hlive : ∀ key e, db.visible key = some e → e.vlogPtr.fileId ∈ db.vlog.files.dir → e.vlogPtr.fileId ∈ v.files.dir) :
    { db with vlog := v, wal := wal }.InService m := by
  have hlog : WAL.log wal.files = WAL.log db.wal.files := WAL.log_congr hdata hdir
  refine ⟨⟨h.alive.logged.of_holds hh ht hready.exists_ hdata hdir, hact, hready⟩, h.settled, hr, fun key => ?_,
    h.mirrors.congr (fun _ => rfl) hlog⟩
  have htells := h.tells key
  show RecordTells v.files key (WAL.lastRecord (WAL.log wal.files) key) (m key)
  rw [hlog]
  cases hrec : WAL.lastRecord (WAL.log db.wal.files) key with
  | none =>
    rw [hrec] at htells
    exact htells
  | some r =>
    rw [hrec] at htells
    cases hm : m key with
    | none =>
      rw [hm] at htells
      exact htells
    | some value =>
      rw [hm] at htells
      obtain ⟨htype, hstored, hd⟩ := htells
      exact ⟨htype, (hh _ _ _ (hstored.holds h.alive.logged.vlog)).stored hready.exists_,
        hlive key r.entry (h.visible_lastRecord hrec htype) hd⟩

/-- No last record points into the segment, when nothing visible does behind its removal. -/
theorem InService.gcFinish (h : db.InService m) {seg : Nat} (hseg : seg < db.vlog.currentFileId)
    (hr : (db.gcFinish .none seg).Refines m) : (db.gcFinish .none seg).InService m := by
  have hf := finished_gcFinish db .none seg
  obtain ⟨hdata, hdir, -, hact⟩ := log_gcFinish db .none seg
  have hready := (h.alive.inv.gcFinish .none hseg).vlog.ready
  have hlive : ∀ key e, db.visible key = some e → e.vlogPtr.fileId ∈ db.vlog.files.dir →
      e.vlogPtr.fileId ∈ (db.gcFinish .none seg).vlog.files.dir := by
    intro key e he hd
    refine (hf.dir _).mpr ⟨hd, fun _ heq => ?_⟩
    have hshow := hr key
    cases hm : m key with
    | none =>
      rw [hm] at hshow
      have hnone : (db.gcFinish .none seg).visible key = none := hshow
      rw [visible_gcFinish, he] at hnone
      cases hnone
    | some value =>
      -- the record is visible, and its file can be opened
      rw [hm] at hshow
      obtain ⟨e', he', -, hopen⟩ := hshow
      rw [visible_gcFinish, he] at he'
      cases he'
      rw [heq, VLog.canOpen, Bool.or_eq_true, Folder.has_iff, hf.dir] at hopen
      rcases hopen with hopen | hopen
      · exact ((hf.readers seg).mp (by simpa using hopen)).2 rfl
      · exact hopen.2 rfl rfl
  have htidy : (db.gcFinish .none seg).vlog.Tidy := by
    refine ⟨fun id hid => ?_, fun id hid => ?_, fun _ => hready.exists_⟩
    · rw [hf.current]
      exact h.alive.logged.vlog.newest id ((hf.dir id).mp hid).1
    · exact h.alive.logged.vlog.pos id ((hf.dir id).mp hid).1
  rw [gcFinish_frame] at hr ⊢
  exact h.of_holds (fun _ _ _ => hf.holds) htidy hready hdata hdir (hact h.alive.active) hr hlive

/-! ## The collection -/

/-- The scan of a collection that rewrites its segment delivers what is visible in it. -/
def Collectable (db : DB) : Prop :=
  ∀ seg, db.gcChoose = some seg → db.gcDecide (db.gcScanned .none seg) = true → db.Delivers seg

/-- The state in which a collection is interrupted: the first `n` live records are copied, and the appends of the next one
get as far as their faults let them. -/
def gcStopped (db : DB) (n : Nat) (fv : AppendFault) (fw : Option Nat) : DB :=
  match db.gcChoose with
  | none => db
  | some seg =>
    let acc := db.gcScanned .none seg
    if db.gcDecide acc then
      match DB.gcRewrite .none seg 0 (acc.liveRecords.take n) db with
      | (db, .error _) => db
      | (db, .ok ()) =>
        (DB.gcRewrite { append := fun _ => fv, wal := fun _ => fw } seg n acc.liveRecords[n]?.toList db).1
    else db

theorem InService.liveIn (h : db.InService m) (seg : Nat) : LiveIn db.vlog seg (db.gcScanned .none seg).liveRecords :=
  fun _ hr => h.alive.inv.live_holds hr

/-- Without faults all live records are rewritten. -/
theorem Inv.gcRewrite_ok (h : db.Inv) {seg : Nat} (hd : seg ∈ db.vlog.files.dir) (hseg : seg < db.vlog.currentFileId)
    {rs : List LiveRecord} (hr : LiveIn db.vlog seg rs) : (DB.gcRewrite .none seg 0 rs db).2 = .ok () :=
  ((gcRewrite_spec .none seg rs 0 db h hseg hr).ok (gcCopies_none db.options seg rs 0 db.vlog h.vlog.ready hd).1).2.1

/-- **A collection**, wherever it is interrupted: the log stands for the same contents. -/
theorem InService.gcStopped (h : db.InService m) (hl : db.options.vlogFileSizeLimit < 2 ^ 64) {n : Nat} {fv : AppendFault}
    {fw : Option Nat} (hs : (db.gcStopped n fv fw).Small) : Copied db (db.gcStopped n fv fw) m False := by
  have hsame : Copied db db m False := ⟨h.alive.logged, rfl, h.tells, False.elim, VLog.Extends.refl _⟩
  unfold DB.gcStopped at hs ⊢
  cases hc : db.gcChoose with
  | none => exact hsame
  | some seg =>
    simp only [hc] at hs ⊢
    by_cases hdec : db.gcDecide (db.gcScanned .none seg) = true
    · rw [if_pos hdec] at hs ⊢
      have hlive := h.liveIn seg
      generalize (db.gcScanned .none seg).liveRecords = live at hlive hs ⊢
      have hfirst : LiveIn db.vlog seg (live.take n) := fun r hr => hlive r (List.mem_of_mem_take hr)
      obtain ⟨hd, hseg⟩ := gcChoose_spec hc
      have hok := h.alive.inv.gcRewrite_ok hd hseg hfirst
      have hrun := InService.gcRewrite (live.take n) 0 db h hfirst hl
      generalize DB.gcRewrite .none seg 0 (live.take n) db = x at hok hrun hs ⊢
      obtain ⟨db₁, st⟩ := x
      cases hok
      simp only at hs hrun ⊢
      obtain ⟨hc₁, -⟩ := hrun (hs.of_grows (grows_gcRewrite _ seg live[n]?.toList n db₁))
      cases hn : live[n]? with
      | none => exact ⟨hc₁.logged, hc₁.options, hc₁.tells, False.elim, hc₁.extends_⟩
      | some r =>
        rw [hn] at hs
        have hone : LiveIn db₁.vlog seg [r] := by
          intro x hx
          obtain ⟨h₁, p, y, h₂, h₃, h₄⟩ := hlive r (List.mem_of_getElem? hn)
          exact List.mem_singleton.mp hx ▸ ⟨h₁, p, y, h₂, h₃, h₄.mono hc₁.extends_⟩
        obtain ⟨hc₂, -⟩ := (hc₁.inService trivial).gcRecord hone (hc₁.options ▸ hl) rfl hs
        exact ⟨hc₂.logged, hc₂.options.trans hc₁.options, hc₂.tells, False.elim, hc₁.extends_.trans hc₂.extends_⟩
    · rw [if_neg hdec]
      exact hsame

/-- A collection that rewrites its segment, and the bounds of what it rewrites. -/
theorem InService.gcSegment_eq (h : db.InService m) {seg : Nat} (hd : seg ∈ db.vlog.files.dir)
    (hseg : seg < db.vlog.currentFileId) (hdec : db.gcDecide (db.gcScanned .none seg) = true)
    (hs : (db.gcSegment .none seg).1.Small) :
    let db₁ := (DB.gcRewrite .none seg 0 (db.gcScanned .none seg).liveRecords db).1
    (db.gcSegment .none seg).1 = db₁.gcFinish .none seg ∧ db₁.Small ∧ seg < db₁.vlog.currentFileId := by
  have hlive := h.liveIn seg
  have hok := h.alive.inv.gcRewrite_ok hd hseg hlive
  have hspec := gcRewrite_spec .none seg _ 0 db h.alive.inv hseg hlive
  have hinv := (hspec.ok (gcCopies_none db.options seg _ 0 db.vlog h.alive.ready hd).1).1
  have hcur := hseg.trans_le hspec.extends_.current
  have he : (db.gcSegment .none seg).1 =
      ((DB.gcRewrite .none seg 0 (db.gcScanned .none seg).liveRecords db).1.gcFinish .none seg) := by
    rw [gcSegment, VLog.newReader, if_pos (Folder.has_iff.mpr hd)]
    simp only
    rw [show db.gcScan .none seg 0 (VLog.scanFile (db.vlog.files.data seg) 0) {} = db.gcScanned .none seg from rfl, hdec,
      if_pos rfl, show DB.gcRewrite .none seg 0 (db.gcScanned .none seg).liveRecords db =
        ((DB.gcRewrite .none seg 0 (db.gcScanned .none seg).liveRecords db).1, .ok ()) from Prod.ext rfl hok]
    rfl
  rw [he] at hs ⊢
  generalize (DB.gcRewrite .none seg 0 (db.gcScanned .none seg).liveRecords db).1 = db₁ at hs hinv hcur ⊢
  have hf := finished_gcFinish db₁ .none seg
  -- the segment is older than a file that stays
  have hlt := hs.vlog db₁.vlog.currentFileId ((hf.dir _).mpr ⟨hinv.vlog.ready.exists_, fun _ => by omega⟩)
  refine ⟨rfl, ⟨fun id hid => (hinv.vlog.newest id hid).trans_lt hlt, fun id hid => ?_, ?_, ?_⟩, hcur⟩
  · exact hs.wal id ((log_gcFinish db₁ .none seg).2.1.symm ▸ hid)
  · have := hs.sst
    rwa [gcFinish_frame] at this
  · have := hs.sequence
    rwa [gcFinish_frame] at this

/-- **A collection** without faults whose scan delivers what is visible in its segment. -/
theorem InService.runGC (h : db.InService m) (hcol : db.Collectable) (hl : db.options.vlogFileSizeLimit < 2 ^ 64)
    (hs : (db.runGC .none).1.Small) : (db.runGC .none).1.InService m ∧ (db.runGC .none).1.options = db.options := by
  unfold DB.runGC at hs ⊢
  cases hc : db.gcChoose with
  | none => exact ⟨h, rfl⟩
  | some seg =>
    obtain ⟨hd, hseg⟩ := gcChoose_spec hc
    have hkeeps := (gcSegment_spec h.alive.inv h.refines hd hseg (hcol seg hc)).2
    simp only [hc] at hs ⊢
    cases hdec : db.gcDecide (db.gcScanned .none seg) with
    | false =>
      rw [gcSegment_undecided hd hdec]
      exact ⟨h, rfl⟩
    | true =>
      obtain ⟨he, hs₁, hcur⟩ := h.gcSegment_eq hd hseg hdec hs
      obtain ⟨hc₁, -⟩ := InService.gcRewrite _ 0 db h (h.liveIn seg) hl hs₁
      rw [he] at hkeeps ⊢
      exact ⟨(hc₁.inService trivial).gcFinish hcur hkeeps.refines, hkeeps.options⟩

end DB

end SplitKV
