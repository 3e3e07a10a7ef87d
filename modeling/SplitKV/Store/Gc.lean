import SplitKV.DBImpl.Gc
import SplitKV.Store.Compact

/-!
# Garbage collection keeps what is visible

`gcCopies` are the live records a collection copies before its first failing append, and `gcMoved` is the value it moves
a key to. With any faults, a collection leaves every other key alone (`gcRewrite_spec`). Without faults it keeps the
contents when its scan delivers the records of all visible versions in its segment (`runGC_spec`).
-/

namespace SplitKV

open Assoc Versions

namespace Levels

/-- Whatever lookups fail, the search finds a version of the key. -/
theorem find_mem {levels : Levels} {maxLevels : Nat} (h : levels.Wf maxLevels) {fails : Nat → Option Status} {key : Key}
    {e : InternalEntry} (hf : levels.find fails maxLevels key = some e) : e ∈ levels.versions maxLevels key := by
  have htable : ∀ l, ∀ info ∈ levels l, (info.lookupTable fails key).toOption = some e → info.version key = some e := by
    intro l info hi he
    rw [← (h.tables l info hi).lookupTable]
    unfold SSTableInfo.lookupTable at he ⊢
    split at he
    · cases he
    · exact he
  have hmem : ∀ l < maxLevels, (∃ info ∈ levels l, (info.lookupTable fails key).toOption = some e) →
      e ∈ levels.versions maxLevels key := by
    rintro l hl ⟨info, hi, he⟩
    refine List.mem_flatMap.mpr ⟨l, List.mem_range.mpr hl, mem_tableVersions.mpr ⟨info, mem_searched.mpr hi, ?_⟩⟩
    exact htable l info hi he
  rcases Option.or_eq_some_iff.mp hf with h0 | ⟨-, hdeep⟩
  · obtain ⟨info, hi, he⟩ := List.exists_of_findSome?_eq_some h0
    exact hmem 0 h.pos ⟨info, List.mem_reverse.mp hi, he⟩
  · obtain ⟨l, hl, hfl⟩ := List.exists_of_findSome?_eq_some hdeep
    obtain ⟨info, hi, he⟩ := List.exists_of_findSome?_eq_some hfl
    split at he
    · exact hmem l (mem_drop_range hl).2 ⟨info, hi, he⟩
    · cases he

end Levels

namespace DB

/-- Whatever lookups fail, a lookup finds a version of the key. -/
theorem findLatest_mem {db : DB} (h : db.Wf) {fails : Nat → Option Status} {key : Key} {e : InternalEntry}
    (hf : db.findLatest fails key = some e) : e ∈ db.versions key := by
  rcases Option.or_eq_some_iff.mp hf with hm | ⟨-, ht⟩
  · rw [findInMemtables_eq h.memtables] at hm
    exact List.mem_append_left _ (List.mem_of_mem_head? hm)
  · exact List.mem_append_right _ (Levels.find_mem h.levels ht)

/-- Whatever lookups fail, a version in a memtable is found first. -/
theorem findLatest_memtable {db : DB} (h : db.Wf) (fails : Nat → Option Status) {key : Key} {e : InternalEntry}
    (he : db.memtable.version key = some e) : db.findLatest fails key = some e := by
  have hget := MemTable.get_toOption (h.memtables _ List.mem_cons_self) key
  rw [findLatest, findInMemtables, hget, show lookup key db.memtable.getSortedEntries = some e from he]
  rfl

/-- The lookup of another key does not see a new version. -/
theorem findLatest_addVersion_of_ne {db : DB} (h : db.Wf) (fails : Nat → Option Status) {key k : Key} (hk : k ≠ key)
    (e : InternalEntry) : (db.addVersion key e).findLatest fails k = db.findLatest fails k := by
  have h₁ := MemTable.get_toOption (h.memtables _ List.mem_cons_self) k
  have h₂ := MemTable.get_toOption ((h.addVersion key e).memtables _ List.mem_cons_self) k
  have h₃ : lookup k (db.memtable.add key e).getSortedEntries = lookup k db.memtable.getSortedEntries :=
    MemTable.lookup_add_of_ne hk e db.memtable
  rw [findLatest, findInMemtables, h₂]
  rw [findLatest, findInMemtables, h₁, ← h₃]
  rfl

/-- What the check of a record found. -/
theorem pointsTo_eq_true {db : DB} {fails : Nat → Option Status} {seg : Nat} {key : Key} {offset : Nat} :
    db.pointsTo fails seg key offset = true ↔ ∃ e, db.findLatest fails key = some e ∧ e.type = .value ∧
      e.vlogPtr.fileId = seg ∧ e.vlogPtr.offset = offset := by
  unfold pointsTo
  cases db.findLatest fails key with
  | none => simp
  | some e => simp

/-- **The check of a record**, when no lookup fails. -/
theorem Inv.pointsTo_iff {db : DB} (h : db.Inv) {seg : Nat} {key : Key} {offset : Nat} :
    db.pointsTo noFails seg key offset = true ↔ ∃ e, db.visible key = some e ∧ e.vlogPtr.fileId = seg ∧
      e.vlogPtr.offset = offset := by
  rw [pointsTo_eq_true, findLatest_eq h.wf]
  constructor
  · rintro ⟨e, he, ht, hs, ho⟩
    refine ⟨e, visible_eq_some.mpr ⟨he, ?_⟩, hs, ho⟩
    intro hg
    rw [InternalEntry.Gone, ht] at hg
    cases hg
  · rintro ⟨e, he, hs, ho⟩
    exact ⟨e, (visible_eq_some.mp he).1, (h.visible_holds he).1, hs, ho⟩

/-! ## The scan -/

/-- The records held for live behind one callback. -/
theorem mem_gcCallback {db : DB} {fails : Nat → Option Status} {seg : Nat} {acc : GcScan} {s : ScanRecord}
    {r : LiveRecord} : r ∈ (db.gcCallback fails seg acc s).liveRecords ↔ r ∈ acc.liveRecords ∨
      s.type = .value ∧ db.pointsTo fails seg s.key s.offset = true ∧
        r = ⟨s.key, s.offset, s.value.length % 2 ^ 32⟩ := by
  unfold gcCallback
  simp only
  split
  · rename_i hl
    simp [hl]
  · rename_i hl
    constructor
    · exact Or.inl
    · rintro (hr | ⟨h₁, h₂, -⟩)
      · exact hr
      · exact absurd ⟨h₁, h₂⟩ hl

/-- The records the scan holds for live. -/
theorem mem_gcScan (db : DB) (f : GcFaults) (seg : Nat) {r : LiveRecord} : ∀ (rs : List ScanRecord) (i : Nat)
    (acc : GcScan), r ∈ (db.gcScan f seg i rs acc).liveRecords ↔ r ∈ acc.liveRecords ∨
      ∃ j s, rs[j]? = some s ∧ s.type = .value ∧ db.pointsTo (f.scan (i + j)) seg s.key s.offset = true ∧
        r = ⟨s.key, s.offset, s.value.length % 2 ^ 32⟩
  | [], i, acc => by simp [gcScan]
  | s :: rs, i, acc => by
    rw [gcScan, mem_gcScan db f seg rs (i + 1), mem_gcCallback, or_assoc]
    refine or_congr_right ?_
    constructor
    · rintro (⟨h₁, h₂, h₃⟩ | ⟨j, t, h₁, h₂, h₃, h₄⟩)
      · exact ⟨0, s, rfl, h₁, h₂, h₃⟩
      · exact ⟨j + 1, t, h₁, h₂, by rwa [Nat.add_right_comm] at h₃, h₄⟩
    · rintro ⟨j, t, h₁, h₂, h₃, h₄⟩
      cases j with
      | zero =>
        cases h₁
        exact Or.inl ⟨h₂, h₃, h₄⟩
      | succ j => exact Or.inr ⟨j, t, h₁, h₂, by rwa [Nat.add_right_comm], h₄⟩

/-- Every live record lies where some version of its key points. -/
theorem Inv.live_holds {db : DB} (h : db.Inv) {f : GcFaults} {seg : Nat} {rs : List ScanRecord} {r : LiveRecord}
    (hr : r ∈ (db.gcScan f seg 0 rs {}).liveRecords) :
    r.valSize < 2 ^ 32 ∧ ∃ ptr value, ptr.fileId = seg ∧ ptr.offset = r.offset ∧ db.vlog.Holds ptr r.key value := by
  rcases (mem_gcScan db f seg rs 0 {}).mp hr with hr | ⟨j, s, -, -, hp, rfl⟩
  · cases hr
  · obtain ⟨e, he, ht, hs, ho⟩ := pointsTo_eq_true.mp hp
    rcases h.holds s.key e (findLatest_mem h.wf he) with hd | ⟨-, value, hv⟩
    · rw [ht] at hd
      cases hd
    · exact ⟨Nat.mod_lt _ (by omega), e.vlogPtr, value, hs, ho, hv⟩

/-! ## The rewriting -/

/-- What the read of a live record returns. -/
def gcValue (fault : Bool) (seg : Nat) (r : LiveRecord) (v : VLog) : Except Status Bytes :=
  if fault then .error (.IOError "fread")
  else match v.read ⟨seg, r.offset, r.valSize⟩ with
    | .ok kv => .ok kv.2
    | .error s => .error s

theorem gcValue_ok {fault : Bool} {seg : Nat} {r : LiveRecord} {v : VLog} {value : Bytes}
    (h : gcValue fault seg r v = .ok value) : ∃ key, v.read ⟨seg, r.offset, r.valSize⟩ = .ok (key, value) := by
  unfold gcValue at h
  split at h
  · cases h
  · split at h
    · rename_i kv hr
      cases h
      exact ⟨kv.1, hr⟩
    · cases h

/-- The live records that are copied, with their numbers and values, until an append fails; whether none fails. -/
def gcCopies (o : Options) (f : GcFaults) (seg : Nat) :
    Nat → List LiveRecord → VLog → List (Nat × LiveRecord × Bytes) × Bool
  | _, [], _ => ([], true)
  | i, r :: rs, v =>
    match gcValue (f.read i) seg r v with
    | .error _ => gcCopies o f seg (i + 1) rs (v.openReader seg)
    | .ok value =>
      match (v.openReader seg).append o r.key value .value (f.append i) with
      | (_, .error _) => ([], false)
      | (v, .ok _) => ((i, r, value) :: (gcCopies o f seg (i + 1) rs v).1, (gcCopies o f seg (i + 1) rs v).2)

/-- The value a key is moved to: the copy of its first record whose swap goes through. -/
def gcMoved (db : DB) (f : GcFaults) (seg : Nat) (key : Key) (copies : List (Nat × LiveRecord × Bytes)) : Option Bytes :=
  copies.findSome? (fun c =>
    if c.2.1.key = key ∧ db.pointsTo (f.cas c.1) seg key c.2.1.offset = true ∧ f.wal c.1 = none then some c.2.2 else none)

/-- Only the logs and the sequence number changed. -/
structure SameIndex (db db' : DB) : Prop where
  same : db' = { db with vlog := db'.vlog, wal := db'.wal, sequenceNumber := db'.sequenceNumber }

theorem SameIndex.versions {db db' : DB} (h : db.SameIndex db') (key : Key) : db'.versions key = db.versions key := by
  rw [h.same]
  rfl

theorem SameIndex.findLatest {db db' : DB} (h : db.SameIndex db') (fails : Nat → Option Status) (key : Key) :
    db'.findLatest fails key = db.findLatest fails key := by
  rw [h.same]
  rfl

theorem SameIndex.pointsTo {db db' : DB} (h : db.SameIndex db') (fails : Nat → Option Status) (seg : Nat) (key : Key)
    (offset : Nat) : db'.pointsTo fails seg key offset = db.pointsTo fails seg key offset := by
  rw [DB.pointsTo, DB.pointsTo, h.findLatest]

/-- The swap, by what it checks and whether its WAL record is written. -/
theorem gcSwap_cases {db : DB} (h : db.wal.writer = .opened) (fails : Nat → Option Status) (fw : Option Nat) (seg : Nat)
    (r : LiveRecord) (newPtr : VLogPointer) : ∃ wal : WAL, wal.writer = .opened ∧
      db.gcSwap fails fw seg r newPtr =
        if db.pointsTo fails seg r.key r.offset = true ∧ fw = none then
          { db with wal := wal }.addVersion r.key ⟨newPtr, db.sequenceNumber, .value⟩
        else if db.pointsTo fails seg r.key r.offset = true then
          { db with wal := wal, sequenceNumber := db.sequenceNumber + 1 }
        else db := by
  unfold gcSwap
  by_cases hp : db.pointsTo fails seg r.key r.offset = true
  · cases fw with
    | none =>
      refine ⟨db.wal.extend (WAL.encodeRecord ⟨.value, db.sequenceNumber, r.key, newPtr⟩), h, ?_⟩
      simp only [hp, if_true, WAL.addRecord_opened h, and_self]
      rfl
    | some n =>
      refine ⟨db.wal.extend ((WAL.encodeRecord ⟨.value, db.sequenceNumber, r.key, newPtr⟩).take n), h, ?_⟩
      simp only [hp, if_true, WAL.addRecord, h, reduceCtorEq, and_false, if_false]
  · exact ⟨db.wal, h, by simp [hp]⟩

/-- What a swap leaves: the key moved to the new pointer, or nothing visible changed. -/
structure Swapped (db db' : DB) (key : Key) (newPtr : VLogPointer) (goes : Prop) : Prop where
  inv : db'.Inv
  vlog : db'.vlog = db.vlog
  options : db'.options = db.options
  moved : goes → db'.visible key = some ⟨newPtr, db.sequenceNumber, .value⟩ ∧
    ∀ fails, db'.findLatest fails key = some ⟨newPtr, db.sequenceNumber, .value⟩
  versions : ∀ k, (k = key → ¬goes) → db'.versions k = db.versions k
  findLatest : ∀ fails k, (k = key → ¬goes) → db'.findLatest fails k = db.findLatest fails k
  settled : db.Settled → db'.Settled
  intact : db.Intact → EntryScanned db.vlog key ⟨newPtr, db.sequenceNumber, .value⟩ → db'.Intact

/-- **The swap** to a record of the key. -/
theorem gcSwap_spec {db : DB} (h : db.Inv) (fails : Nat → Option Status) (fw : Option Nat) (seg : Nat)
    (r : LiveRecord) {newPtr : VLogPointer} {value : Bytes} (hn : db.vlog.Holds newPtr r.key value) :
    db.Swapped (db.gcSwap fails fw seg r newPtr) r.key newPtr
      (db.pointsTo fails seg r.key r.offset = true ∧ fw = none) := by
  obtain ⟨wal, hw, he⟩ := gcSwap_cases h.wal fails fw seg r newPtr
  have hi := h.setWal hw
  rw [he]
  split
  · rename_i hm
    have hm₁ : { db with wal := wal }.memtable.Valid := h.wf.memtables _ List.mem_cons_self
    refine ⟨hi.addVersion (Or.inr ⟨rfl, value, hn⟩), rfl, rfl, fun _ => ⟨?_, fun fails => ?_⟩,
      fun k hk => ?_, fun fails k hk => ?_, fun hs => ?_, fun hin hs => ?_⟩
    · rw [visible_addVersion_self hm₁]
      rfl
    · exact findLatest_memtable (hi.wf.addVersion r.key _) fails (MemTable.lookup_add_self hm₁ r.key _)
    · exact versions_addEntry_of_ne { db with wal := wal } (fun he => hk he hm) _
    · exact findLatest_addVersion_of_ne hi.wf fails (fun he => hk he hm) _
    · have hs₁ : { db with wal := wal }.Settled := hs
      exact hs₁.addVersion hm₁ rfl
    · have hin₁ : { db with wal := wal }.Intact := ⟨hin.whole, hin.scanned⟩
      exact hin₁.addVersion hm₁ hs
  · rename_i hm
    split
    · exact ⟨⟨⟨h.wf.memtables, h.wf.levels, h.wf.ids⟩, hi.vlog, hw, hi.holds⟩, rfl, rfl, fun h => absurd h hm,
        fun _ _ => rfl, fun _ _ _ => rfl, fun hs => SettledBelow.mono hs (Nat.le_succ _),
        fun hin _ => ⟨hin.whole, hin.scanned⟩⟩
    · exact ⟨h, rfl, rfl, fun h => absurd h hm, fun _ _ => rfl, fun _ _ _ => rfl, fun hs => hs, fun hin _ => hin⟩

/-- What the rewriting leaves of a key that was moved to a value, or was not moved. -/
def Rewritten (db db' : DB) (seg : Nat) (key : Key) : Option Bytes → Prop
  | none => db'.versions key = db.versions key
  | some v => ∃ e, db'.visible key = some e ∧ db'.vlog.Holds e.vlogPtr key v ∧
      db'.vlog.canOpen e.vlogPtr.fileId = true ∧ e.vlogPtr.fileId ≠ seg

/-- The copy of a live record: the read and the append. -/
theorem gcAppend_spec {db : DB} (h : db.Inv) {seg : Nat} {r : LiveRecord} {ptr : VLogPointer} {value x : Bytes}
    {fault : Bool} {afault : AppendFault} {v : VLog} {newPtr : VLogPointer} (hid : ptr.fileId = seg)
    (ho : ptr.offset = r.offset) (hh : db.vlog.Holds ptr r.key value) (hs : r.valSize < 2 ^ 32)
    (hr : gcValue fault seg r db.vlog = .ok x)
    (ha : (db.vlog.openReader seg).append db.options r.key x .value afault = (v, .ok newPtr)) :
    x = value ∧ VLog.Appended (db.vlog.openReader seg) (VLog.encodeRecord .value r.key value) v newPtr ∧
      v.Holds newPtr r.key value := by
  obtain ⟨k, hread⟩ := gcValue_ok hr
  obtain ⟨-, hkv⟩ := hh.read_eq hs (by rw [hid, ho]; exact hread)
  cases hkv
  have hready := (h.sameFiles (VLog.sameFiles_openReader db.vlog seg)).vlog.ready
  obtain ⟨v', ptr', hv', hs', happ⟩ := VLog.appended_append db.options hready r.key value .value
  have hnone := VLog.append_of_ok
    (show ((db.vlog.openReader seg).append db.options r.key value .value afault).2 = .ok newPtr by rw [ha])
  rw [ha, hv'] at hnone
  cases hnone
  exact ⟨rfl, happ, happ.holds hh.fits hs'⟩

/-- What the rewriting from a state leaves, given its copies. -/
structure GcResult (db : DB) (f : GcFaults) (seg : Nat) (copies : List (Nat × LiveRecord × Bytes) × Bool) (db' : DB)
    (r : Except Status Unit) : Prop where
  extends_ : db.vlog.Extends db'.vlog
  wf : db'.Wf
  rewritten : ∀ key, Rewritten db db' seg key (db.gcMoved f seg key copies.1)
  ok : copies.2 = true → db'.Inv ∧ r = .ok () ∧ db'.options = db.options ∧ (db.Settled → db'.Settled) ∧
    (db.Intact → db'.Intact)
  error : copies.2 = false → ∃ s, r = .error s

/-- The live records lie in the segment. -/
def LiveIn (v : VLog) (seg : Nat) (rs : List LiveRecord) : Prop :=
  ∀ r ∈ rs, r.valSize < 2 ^ 32 ∧ ∃ ptr value, ptr.fileId = seg ∧ ptr.offset = r.offset ∧ v.Holds ptr r.key value

theorem LiveIn.mono {v v' : VLog} {seg : Nat} {r : LiveRecord} {rs : List LiveRecord} (h : LiveIn v seg (r :: rs))
    (he : v.Extends v') : LiveIn v' seg rs := by
  intro r' hr'
  obtain ⟨h₁, p, x, h₂, h₃, h₄⟩ := h r' (List.mem_cons_of_mem _ hr')
  exact ⟨h₁, p, x, h₂, h₃, h₄.mono he⟩

/-- The rewriting goes on after a record that was not copied. -/
theorem GcResult.skip {db db' : DB} {f : GcFaults} {seg : Nat} {copies : List (Nat × LiveRecord × Bytes) × Bool}
    {r : Except Status Unit} {v : VLog} (he : db.vlog.Extends v) (hv : VLog.SameFiles db.vlog v)
    (h : GcResult { db with vlog := v } f seg copies db' r) : GcResult db f seg copies db' r := by
  refine ⟨he.trans h.extends_, h.wf, h.rewritten, fun hc => ?_, h.error⟩
  obtain ⟨k₁, k₂, k₃, k₄, k₅⟩ := h.ok hc
  exact ⟨k₁, k₂, k₃, k₄, fun hin => k₅ (hin.sameFiles hv)⟩

/-- The rewriting goes on after an append and a swap. -/
theorem GcResult.swap {db db₁ db' : DB} {f : GcFaults} {seg i : Nat} {lr : LiveRecord} {value : Bytes} {v : VLog}
    {newPtr : VLogPointer} {copies : List (Nat × LiveRecord × Bytes) × Bool} {r : Except Status Unit}
    (he : db.vlog.Extends v) (hs : Swapped { db with vlog := v } db₁ lr.key newPtr
      (db.pointsTo (f.cas i) seg lr.key lr.offset = true ∧ f.wal i = none))
    (hn : v.Holds newPtr lr.key value) (hl : v.canOpen newPtr.fileId = true) (hne : newPtr.fileId ≠ seg)
    (hin : db.Intact → db₁.Intact) (h : GcResult db₁ f seg copies db' r) :
    GcResult db f seg ((i, lr, value) :: copies.1, copies.2) db' r := by
  have hv : db₁.vlog = v := hs.vlog
  have hext : v.Extends db'.vlog := hv ▸ h.extends_
  refine ⟨he.trans hext, h.wf, fun key => ?_, fun hc => ?_, h.error⟩
  · have hrest := h.rewritten key
    rw [gcMoved, List.findSome?_cons]
    split
    · rename_i hx
      split at hx
      · rename_i hg
        obtain ⟨hk, hg⟩ := hg
        cases hx
        -- the key moved here: no later record of it points into the segment
        obtain ⟨hvis, hfind⟩ := hs.moved (hk.symm ▸ hg)
        have hnone : db₁.gcMoved f seg key copies.1 = none := by
          refine List.findSome?_eq_none_iff.mpr fun c hc => if_neg fun hcc => ?_
          obtain ⟨e, he, -, hseg, -⟩ := pointsTo_eq_true.mp hcc.2.1
          rw [← hk, hfind] at he
          cases he
          exact hne hseg
        rw [hnone] at hrest
        refine ⟨⟨newPtr, db.sequenceNumber, .value⟩, ?_, hk ▸ hn.mono hext, hext.canOpen hl, hne⟩
        rw [← hk] at hrest ⊢
        exact (congrArg (shown InternalEntry.Gone) hrest).trans hvis
      · cases hx
    · rename_i hx
      have hngoes : key = lr.key → ¬(db.pointsTo (f.cas i) seg lr.key lr.offset = true ∧ f.wal i = none) := by
        intro hk hg
        rw [if_pos ⟨hk.symm, hk ▸ hg⟩] at hx
        cases hx
      have hp : ∀ fails off, db₁.pointsTo fails seg key off = db.pointsTo fails seg key off := by
        intro fails off
        have hf : db₁.findLatest fails key = db.findLatest fails key := hs.findLatest fails key hngoes
        rw [DB.pointsTo, DB.pointsTo, hf]
      have hm : db₁.gcMoved f seg key copies.1 = db.gcMoved f seg key copies.1 := by
        unfold gcMoved
        simp only [hp]
      rw [hm] at hrest
      unfold gcMoved at hrest
      unfold Rewritten at hrest ⊢
      split
      · rename_i hnone
        rw [hnone] at hrest
        exact hrest.trans (hs.versions key hngoes)
      · rename_i v hsome
        rw [hsome] at hrest
        exact hrest
  · obtain ⟨k₁, k₂, k₃, k₄, k₅⟩ := h.ok hc
    exact ⟨k₁, k₂, k₃.trans hs.options, fun hst => k₄ (hs.settled hst), fun hi => k₅ (hin hi)⟩

/-- **The rewriting**, with any faults. -/
theorem gcRewrite_spec (f : GcFaults) (seg : Nat) : ∀ (rs : List LiveRecord) (i : Nat) (db : DB), db.Inv →
    seg < db.vlog.currentFileId → LiveIn db.vlog seg rs →
    GcResult db f seg (gcCopies db.options f seg i rs db.vlog) (gcRewrite f seg i rs db).1 (gcRewrite f seg i rs db).2
  | [], i, db, h, _, _ =>
    ⟨VLog.Extends.refl _, h.wf, fun _ => rfl, fun _ => ⟨h, rfl, rfl, fun hs => hs, fun hi => hi⟩,
      fun hf => by cases hf⟩
  | r :: rs, i, db, h, hseg, hr => by
    obtain ⟨hsize, ptr, value, hid, ho, hh⟩ := hr r List.mem_cons_self
    -- the reader of the segment is opened, whatever comes of the read
    have hopen := VLog.sameFiles_openReader db.vlog seg
    have hi₀ : { db with vlog := db.vlog.openReader seg }.Inv := h.sameFiles hopen
    have hext₀ := VLog.extends_openReader db.vlog seg
    have hread : db.gcRead (f.read i) seg r =
        ({ db with vlog := db.vlog.openReader seg }, gcValue (f.read i) seg r db.vlog) := rfl
    rw [gcRewrite, gcCopies, hread]
    cases hv : gcValue (f.read i) seg r db.vlog with
    | error s =>
      have hrest := gcRewrite_spec f seg rs (i + 1) { db with vlog := db.vlog.openReader seg } hi₀
        (by rw [hopen.current]; exact hseg) (hr.mono hext₀)
      exact hrest.skip hext₀ hopen
    | ok x =>
      simp only [gcAppend]
      cases ha : (db.vlog.openReader seg).append db.options r.key x .value (f.append i) with
      | mk v st =>
        cases st with
        | error s =>
          have hext := VLog.extends_append db.options (db.vlog.openReader seg) r.key x .value (f.append i)
          rw [ha] at hext
          exact ⟨hext₀.trans hext, ⟨h.wf.memtables, h.wf.levels, h.wf.ids⟩, fun _ => rfl, fun hc => (by cases hc),
            fun _ => ⟨s, rfl⟩⟩
        | ok newPtr =>
          obtain ⟨rfl, happ, hnew⟩ := gcAppend_spec h hid ho hh hsize hv ha
          have hi₁ : { db with vlog := v }.Inv := hi₀.append happ
          have hl : v.canOpen newPtr.fileId = true := VLog.canOpen_of_mem ((happ.dir _).mpr (Or.inl happ.fileId))
          have hcur : seg < v.currentFileId := by
            have := happ.current_le
            rw [hopen.current] at this
            omega
          have hs := gcSwap_spec hi₁ (f.cas i) (f.wal i) seg r hnew
          have hrest := gcRewrite_spec f seg rs (i + 1) _ hs.inv (by rw [hs.vlog]; exact hcur)
            (by rw [hs.vlog]; exact hr.mono (hext₀.trans happ.extends))
          rw [hs.options, hs.vlog] at hrest
          have hne : newPtr.fileId ≠ seg := by
            rw [happ.fileId]
            omega
          have hin : db.Intact → ({ db with vlog := v }.gcSwap (f.cas i) (f.wal i) seg r newPtr).Intact := by
            intro hin
            have hin₀ : { db with vlog := db.vlog.openReader seg }.Intact := hin.sameFiles hopen
            have hin₁ : { db with vlog := v }.Intact := hin₀.append hh.fits happ
            exact hs.intact hin₁ (Or.inr ⟨_, hnew, happ.scanned hin₀.whole hh.fits⟩)
          exact hrest.swap (hext₀.trans happ.extends) hs hnew hl hne hin

/-! ## The end of a collection -/

/-- The syncs, and the removal of the segment. -/
def gcFinish (db : DB) (f : GcFaults) (seg : Nat) : DB := ((db.gcSync f).gcRemoveReader seg).gcDelete f.remove seg

/-- The value log at the end. -/
structure Finished (v v' : VLog) (removed : Bool) (seg : Nat) : Prop where
  data : v'.files.data = v.files.data
  dir : ∀ id, id ∈ v'.files.dir ↔ id ∈ v.files.dir ∧ (removed = true → id ≠ seg)
  current : v'.currentFileId = v.currentFileId
  offset : v'.currentOffset = v.currentOffset
  writer : v'.writer = v.writer
  readers : ∀ id, id ∈ v'.readers ↔ id ∈ v.readers ∧ id ≠ seg

theorem finished_gcFinish (db : DB) (f : GcFaults) (seg : Nat) :
    Finished db.vlog (db.gcFinish f seg).vlog (!f.remove) seg := by
  have hsync : VLog.SameFiles db.vlog (db.gcSync f).vlog := by
    unfold gcSync
    simp only
    split
    · exact ⟨rfl, rfl, rfl, rfl, rfl⟩
    · exact VLog.sameFiles_sync db.vlog
  have hreaders : ∀ id, id ∈ ((db.gcSync f).gcRemoveReader seg).vlog.readers ↔ id ∈ db.vlog.readers ∧ id ≠ seg := by
    intro id
    have hr : (db.gcSync f).vlog.readers = db.vlog.readers := by
      unfold gcSync VLog.sync VLog.syncFile
      simp only
      split
      · rfl
      · split <;> rfl
    simp [gcRemoveReader, VLog.removeReader, hr]
  unfold gcFinish gcDelete
  cases f.remove with
  | true =>
    simp only [if_true]
    refine ⟨hsync.data, fun id => ?_, hsync.current, hsync.offset, hsync.writer, hreaders⟩
    rw [show ((db.gcSync f).gcRemoveReader seg).vlog.files.dir = (db.gcSync f).vlog.files.dir from rfl, hsync.dir]
    simp
  | false =>
    simp only [Bool.false_eq_true, if_false]
    refine ⟨hsync.data, fun id => ?_, hsync.current, hsync.offset, hsync.writer, hreaders⟩
    rw [Folder.mem_dir_remove,
      show ((db.gcSync f).gcRemoveReader seg).vlog.files.dir = (db.gcSync f).vlog.files.dir from rfl, hsync.dir]
    simp

theorem versions_gcFinish (db : DB) (f : GcFaults) (seg : Nat) (key : Key) :
    (db.gcFinish f seg).versions key = db.versions key := by
  unfold gcFinish gcDelete
  split <;> rfl

theorem visible_gcFinish (db : DB) (f : GcFaults) (seg : Nat) (key : Key) :
    (db.gcFinish f seg).visible key = db.visible key := congrArg _ (versions_gcFinish db f seg key)

theorem Wf.gcFinish {db : DB} (h : db.Wf) (f : GcFaults) (seg : Nat) : (db.gcFinish f seg).Wf := by
  unfold DB.gcFinish gcDelete
  split <;> exact ⟨h.memtables, h.levels, h.ids⟩

theorem Finished.holds {v v' : VLog} {removed : Bool} {seg : Nat} (h : Finished v v' removed seg) {ptr : VLogPointer}
    {key value : Bytes} (hh : v.Holds ptr key value) : v'.Holds ptr key value :=
  ⟨by rw [h.current]; exact hh.fileId, hh.valueSize, hh.fits, by rw [h.data]; exact hh.record⟩

/-- A key is still shown when its version does not lie in a removed segment. -/
theorem Shows.gcFinish {db : DB} {key : Key} {o : Option Bytes} (hs : db.Shows key o) (f : GcFaults) {seg : Nat}
    (hseg : seg ∈ db.vlog.files.dir)
    (hne : f.remove = false → ∀ e, db.visible key = some e → e.vlogPtr.fileId ≠ seg) :
    (db.gcFinish f seg).Shows key o := by
  have hf := finished_gcFinish db f seg
  have hv := visible_gcFinish db f seg key
  cases o with
  | none => exact hv.trans hs
  | some v =>
    obtain ⟨e, he, hh, hc⟩ := hs
    refine ⟨e, hv.trans he, hf.holds hh, ?_⟩
    rw [VLog.canOpen, Bool.or_eq_true, List.contains_iff_mem, Folder.has_iff] at hc ⊢
    by_cases hs : e.vlogPtr.fileId = seg
    · -- the segment was not removed
      refine Or.inr ((hf.dir _).mpr ⟨hs ▸ hseg, fun hr => ?_⟩)
      exact hne (by simpa using hr) e he
    · exact hc.imp (fun h => (hf.readers _).mpr ⟨h, hs⟩) (fun h => (hf.dir _).mpr ⟨h, fun _ => hs⟩)

/-- **A version in a removed segment** cannot be read. -/
theorem result_gcFinish_lost {db : DB} (hw : db.Wf) {f : GcFaults} {seg : Nat} (hr : f.remove = false) {key : Key}
    {e : InternalEntry} (he : db.visible key = some e) (hs : e.vlogPtr.fileId = seg) :
    (db.gcFinish f seg).result key = .error .ioError := by
  have hf := finished_gcFinish db f seg
  have hc : (db.gcFinish f seg).vlog.canOpen e.vlogPtr.fileId = false := by
    rw [hs, VLog.canOpen, Bool.or_eq_false_iff]
    refine ⟨by simpa using fun h => ((hf.readers seg).mp h).2 rfl, ?_⟩
    rw [← Bool.not_eq_true, Folder.has_iff, hf.dir]
    exact fun h => h.2 (by rw [hr]; rfl) rfl
  rw [result_eq (hw.gcFinish f seg), visible_gcFinish, he, seen, VLog.read, hc]
  rfl

theorem sequenceNumber_gcFinish (db : DB) (f : GcFaults) (seg : Nat) :
    (db.gcFinish f seg).sequenceNumber = db.sequenceNumber := by
  unfold gcFinish gcDelete
  split <;> rfl

theorem Settled.gcFinish {db : DB} (h : db.Settled) (f : GcFaults) (seg : Nat) : (db.gcFinish f seg).Settled := by
  rw [Settled, sequenceNumber_gcFinish]
  exact h.congr (fun key => by rw [versions_gcFinish]) (fun key e he => versions_gcFinish db f seg key ▸ he)

/-- The invariant at the end. -/
theorem Inv.gcFinish {db : DB} (h : db.Inv) (f : GcFaults) {seg : Nat} (hseg : seg < db.vlog.currentFileId) :
    (db.gcFinish f seg).Inv := by
  have hf := finished_gcFinish db f seg
  refine ⟨h.wf.gcFinish f seg, ⟨⟨by rw [hf.writer]; exact h.vlog.ready.writer, ?_, ?_⟩, fun id hid => ?_⟩, ?_,
    fun key e he => ?_⟩
  · rw [hf.offset, hf.data, hf.current]
    exact h.vlog.ready.offset
  · rw [hf.current, hf.dir]
    exact ⟨h.vlog.ready.exists_, fun _ => by omega⟩
  · rw [hf.current]
    exact h.vlog.newest id ((hf.dir id).mp hid).1
  · have hwal : (db.gcFinish f seg).wal.writer = db.wal.writer := by
      unfold DB.gcFinish gcDelete gcRemoveReader gcSync
      cases f.remove <;> cases f.walSync <;> simp
    rw [hwal]
    exact h.wal
  · rw [versions_gcFinish] at he
    exact (h.holds key e he).imp_right fun ⟨ht, value, hh⟩ => ⟨ht, value, hf.holds hh⟩

theorem Intact.gcFinish {db : DB} (h : db.Intact) (f : GcFaults) (seg : Nat) : (db.gcFinish f seg).Intact := by
  have hf := finished_gcFinish db f seg
  refine ⟨fun id hid => ?_, fun key e he => ?_⟩
  · rw [hf.data]
    exact h.whole id (hf.current ▸ hid)
  · rw [versions_gcFinish] at he
    refine (h.scanned key e he).imp_right fun ⟨value, hh, hs⟩ => ⟨value, hf.holds hh, ?_⟩
    unfold VLog.Scanned
    rw [hf.data]
    exact hs

/-! ## The collection -/

/-- The segment a collection takes is a completed file that exists. -/
theorem gcChoose_spec {db : DB} {seg : Nat} (h : db.gcChoose = some seg) :
    seg ∈ db.vlog.files.dir ∧ seg < db.vlog.currentFileId := by
  have hm := List.mem_of_find?_eq_some h
  have hlt := List.find?_some h
  refine ⟨?_, of_decide_eq_true hlt⟩
  rw [vlogIds, List.mem_insertionSort, List.mem_filterMap] at hm
  obtain ⟨id, hid, he⟩ := hm
  rw [gcFileId_vlogFileName] at he
  split at he
  · cases he
    exact hid
  · cases he

/-- What the scan of a segment adds up. -/
def gcScanned (db : DB) (f : GcFaults) (seg : Nat) : GcScan :=
  db.gcScan f seg 0 (VLog.scanFile (db.vlog.files.data seg) 0) {}

/-- The copies of a collection of a segment. -/
def gcCopied (db : DB) (f : GcFaults) (seg : Nat) : List (Nat × LiveRecord × Bytes) × Bool :=
  gcCopies db.options f seg 0 (db.gcScanned f seg).liveRecords db.vlog

/-- A collection that rewrites nothing changes nothing. -/
theorem gcSegment_undecided {db : DB} {f : GcFaults} {seg : Nat} (hd : seg ∈ db.vlog.files.dir)
    (h : db.gcDecide (db.gcScanned f seg) = false) : db.gcSegment f seg = (db, .ok ()) := by
  rw [gcSegment, VLog.newReader, if_pos (Folder.has_iff.mpr hd)]
  simp only
  rw [show db.gcScan f seg 0 (VLog.scanFile (db.vlog.files.data seg) 0) {} = db.gcScanned f seg from rfl, h]
  rfl

/-- **A collection** rewrites its segment and removes it, unless an append fails. -/
theorem gcSegment_decided {db : DB} (h : db.Inv) {f : GcFaults} {seg : Nat} (hd : seg ∈ db.vlog.files.dir)
    (hseg : seg < db.vlog.currentFileId) (hdec : db.gcDecide (db.gcScanned f seg) = true) :
    ∃ db₁ r, GcResult db f seg (db.gcCopied f seg) db₁ r ∧
      ((db.gcCopied f seg).2 = true → db.gcSegment f seg = (db₁.gcFinish f seg, .ok ())) ∧
      ((db.gcCopied f seg).2 = false → ∃ s, db.gcSegment f seg = (db₁, .error s)) := by
  have hres := gcRewrite_spec f seg (db.gcScanned f seg).liveRecords 0 db h hseg fun r hr => h.live_holds hr
  rw [gcSegment, VLog.newReader, if_pos (Folder.has_iff.mpr hd)]
  simp only
  rw [show db.gcScan f seg 0 (VLog.scanFile (db.vlog.files.data seg) 0) {} = db.gcScanned f seg from rfl, hdec, if_pos rfl]
  generalize gcRewrite f seg 0 (db.gcScanned f seg).liveRecords db = x at hres ⊢
  obtain ⟨db₁, r⟩ := x
  refine ⟨db₁, r, hres, fun hc => ?_, fun hc => ?_⟩
  · obtain ⟨-, hr, -⟩ := hres.ok hc
    simp only at hr
    subst hr
    rfl
  · obtain ⟨s, hr⟩ := hres.error hc
    simp only at hr
    subst hr
    exact ⟨s, rfl⟩

/-- A copy is a copy of what its place holds. -/
theorem mem_gcCopies {o : Options} {f : GcFaults} {seg : Nat} {c : Nat × LiveRecord × Bytes} : ∀ (rs : List LiveRecord)
    (i : Nat) (v : VLog), (∀ r ∈ rs, r.valSize < 2 ^ 32) → c ∈ (gcCopies o f seg i rs v).1 → c.2.1 ∈ rs ∧
      ∀ ptr value, ptr.fileId = seg → ptr.offset = c.2.1.offset → v.Holds ptr c.2.1.key value →
        c.2.2 = value ∧ c.2.1.valSize = value.length
  | [], _, _, _, hc => by cases hc
  | r :: rs, i, v, hr, hc => by
    have hrest : ∀ v', v.Extends v' → c ∈ (gcCopies o f seg (i + 1) rs v').1 → c.2.1 ∈ r :: rs ∧
        ∀ ptr value, ptr.fileId = seg → ptr.offset = c.2.1.offset → v.Holds ptr c.2.1.key value →
          c.2.2 = value ∧ c.2.1.valSize = value.length := by
      intro v' he hc
      obtain ⟨h₁, h₂⟩ := mem_gcCopies rs (i + 1) v' (fun r hm => hr r (List.mem_cons_of_mem _ hm)) hc
      exact ⟨List.mem_cons_of_mem _ h₁, fun ptr value hid ho hh => h₂ ptr value hid ho (hh.mono he)⟩
    have hopen := VLog.extends_openReader v seg
    rw [gcCopies] at hc
    split at hc
    · exact hrest _ hopen hc
    · rename_i x hx
      have hext := VLog.extends_append o (v.openReader seg) r.key x .value (f.append i)
      split at hc
      · cases hc
      · rename_i v' ptr ha
        rw [ha] at hext
        rcases List.mem_cons.mp hc with rfl | hc
        · refine ⟨List.mem_cons_self, fun ptr value hid ho hh => ?_⟩
          obtain ⟨k, hread⟩ := gcValue_ok hx
          obtain ⟨hs, hkv⟩ := hh.read_eq (hr r List.mem_cons_self) (by rw [hid, ho]; exact hread)
          exact ⟨congrArg Prod.snd hkv, hs⟩
        · exact hrest v' (hopen.trans hext) hc

/-- **Without faults** every live record that can be read is copied. -/
theorem gcCopies_none (o : Options) (seg : Nat) : ∀ (rs : List LiveRecord) (i : Nat) (v : VLog), v.Ready →
    seg ∈ v.files.dir → (gcCopies o .none seg i rs v).2 = true ∧ ∀ r ∈ rs, ∀ value,
      v.Holds ⟨seg, r.offset, r.valSize⟩ r.key value → ∃ j, (j, r, value) ∈ (gcCopies o .none seg i rs v).1
  | [], _, _, _, _ => ⟨rfl, fun r hr => by cases hr⟩
  | r :: rs, i, v, hready, hd => by
    have hopen := VLog.sameFiles_openReader v seg
    have hext := VLog.extends_openReader v seg
    have hready' : (v.openReader seg).Ready := hready.sameFiles hopen
    have hc : v.canOpen seg = true := by rw [VLog.canOpen, Folder.has_iff.mpr hd, Bool.or_true]
    rw [gcCopies]
    cases hv : gcValue (GcFaults.none.read i) seg r v with
    | error s =>
      obtain ⟨h₁, h₂⟩ := gcCopies_none o seg rs (i + 1) (v.openReader seg) hready' (hext.dir _ hd)
      refine ⟨h₁, fun r' hr' value hh => ?_⟩
      rcases List.mem_cons.mp hr' with rfl | hr'
      · have hread := hh.read hc
        simp [gcValue, GcFaults.none, hread] at hv
      · exact h₂ r' hr' value (hh.mono hext)
    | ok x =>
      obtain ⟨v', ptr, ha, -, happ⟩ := VLog.appended_append o hready' r.key x .value
      simp only [show GcFaults.none.append i = .none from rfl, ha]
      obtain ⟨h₁, h₂⟩ := gcCopies_none o seg rs (i + 1) v' happ.ready (happ.extends.dir _ (hext.dir _ hd))
      refine ⟨h₁, fun r' hr' value hh => ?_⟩
      rcases List.mem_cons.mp hr' with rfl | hr'
      · have hread := hh.read hc
        simp only [gcValue, GcFaults.none, Bool.false_eq_true, if_false, hread, Except.ok.injEq] at hv
        exact ⟨i, by rw [← hv]; exact List.mem_cons_self⟩
      · obtain ⟨j, hj⟩ := h₂ r' hr' value (hh.mono (hext.trans happ.extends))
        exact ⟨j, List.mem_cons_of_mem _ hj⟩

/-- The scan of the segment delivers the record of every visible version in it. -/
def Delivers (db : DB) (seg : Nat) : Prop :=
  ∀ key e, db.visible key = some e → e.vlogPtr.fileId = seg → ∃ s ∈ VLog.scanFile (db.vlog.files.data seg) 0,
    s.type = .value ∧ s.key = key ∧ s.offset = e.vlogPtr.offset ∧ s.value.length % 2 ^ 32 = e.vlogPtr.valueSize

/-- The live records of a scan without faults. -/
theorem Inv.mem_live {db : DB} (h : db.Inv) {seg : Nat} {r : LiveRecord} :
    r ∈ (db.gcScanned .none seg).liveRecords ↔ ∃ s ∈ VLog.scanFile (db.vlog.files.data seg) 0, s.type = .value ∧
      r = ⟨s.key, s.offset, s.value.length % 2 ^ 32⟩ ∧ ∃ e, db.visible s.key = some e ∧ e.vlogPtr.fileId = seg ∧
        e.vlogPtr.offset = s.offset := by
  rw [gcScanned, mem_gcScan]
  simp only [List.not_mem_nil, false_or]
  constructor
  · rintro ⟨j, s, hs, ht, hp, rfl⟩
    exact ⟨s, List.mem_of_getElem? hs, ht, rfl, h.pointsTo_iff.mp hp⟩
  · rintro ⟨s, hs, ht, rfl, he⟩
    obtain ⟨j, hj, hsj⟩ := List.mem_iff_getElem.mp hs
    exact ⟨j, s, by rw [List.getElem?_eq_getElem hj, hsj], ht, h.pointsTo_iff.mpr he, rfl⟩

/-- The value a key is moved to without faults. -/
theorem Inv.gcMoved_none {db : DB} (h : db.Inv) {seg : Nat} (hd : seg ∈ db.vlog.files.dir) (key : Key) :
    (∀ v, db.gcMoved .none seg key (db.gcCopied .none seg).1 = some v → ∃ e, db.visible key = some e ∧
      e.vlogPtr.fileId = seg ∧ db.vlog.Holds e.vlogPtr key v ∧ ∃ s ∈ VLog.scanFile (db.vlog.files.data seg) 0,
        s.type = .value ∧ s.key = key ∧ s.offset = e.vlogPtr.offset ∧ s.value.length % 2 ^ 32 = e.vlogPtr.valueSize) ∧
    (db.gcMoved .none seg key (db.gcCopied .none seg).1 = none → ∀ e, db.visible key = some e →
      e.vlogPtr.fileId = seg → ¬∃ s ∈ VLog.scanFile (db.vlog.files.data seg) 0, s.type = .value ∧ s.key = key ∧
        s.offset = e.vlogPtr.offset ∧ s.value.length % 2 ^ 32 = e.vlogPtr.valueSize) := by
  have hlt : ∀ r ∈ (db.gcScanned .none seg).liveRecords, r.valSize < 2 ^ 32 := fun r hr => (h.live_holds hr).1
  refine ⟨fun v hv => ?_, fun hnone e he hs => ?_⟩
  · obtain ⟨c, hc, hcv⟩ := List.exists_of_findSome?_eq_some hv
    split at hcv
    · rename_i hg
      obtain ⟨hk, hp, -⟩ := hg
      cases hcv
      obtain ⟨e, he, hs, ho⟩ := h.pointsTo_iff.mp hp
      obtain ⟨-, value, hh⟩ := h.visible_holds he
      obtain ⟨hmem, hall⟩ := mem_gcCopies _ 0 db.vlog hlt hc
      obtain ⟨hval, hsize⟩ := hall e.vlogPtr value hs ho (hk.symm ▸ hh)
      refine ⟨e, he, hs, hval ▸ hh, ?_⟩
      obtain ⟨s, hsm, ht, hr, -⟩ := h.mem_live.mp hmem
      rw [hr] at hk ho hsize
      exact ⟨s, hsm, ht, hk, ho.symm, hsize.trans hh.valueSize.symm⟩
    · cases hcv
  · rintro ⟨s, hsm, ht, hk, ho, hsz⟩
    obtain ⟨-, value, hh⟩ := h.visible_holds he
    have hlive : (⟨key, e.vlogPtr.offset, e.vlogPtr.valueSize⟩ : LiveRecord) ∈ (db.gcScanned .none seg).liveRecords :=
      h.mem_live.mpr ⟨s, hsm, ht, by rw [hk, ho, hsz], e, hk ▸ he, hs, ho.symm⟩
    obtain ⟨-, hcopy⟩ := gcCopies_none db.options seg _ 0 db.vlog h.vlog.ready hd
    obtain ⟨j, hj⟩ := hcopy _ hlive value (by rw [← hs]; exact hh)
    have hx := List.findSome?_eq_none_iff.mp hnone _ hj
    rw [if_pos ⟨rfl, h.pointsTo_iff.mpr ⟨e, he, hs, rfl⟩, rfl⟩] at hx
    cases hx

/-- **A collection without faults** whose scan delivers what is visible in its segment keeps the contents. -/
theorem gcSegment_spec {db : DB} (h : db.Inv) {m : Contents} (hr : db.Refines m) {seg : Nat}
    (hd : seg ∈ db.vlog.files.dir) (hseg : seg < db.vlog.currentFileId)
    (hs : db.gcDecide (db.gcScanned .none seg) = true → db.Delivers seg) :
    (db.gcSegment .none seg).2 = .ok () ∧ db.Keeps (db.gcSegment .none seg).1 m m := by
  cases hdec : db.gcDecide (db.gcScanned .none seg) with
  | false =>
    rw [gcSegment_undecided hd hdec]
    exact ⟨rfl, rfl, h, hr, fun hs => hs, fun hi => hi⟩
  | true =>
    obtain ⟨db₁, r, hres, hok, -⟩ := gcSegment_decided h hd hseg hdec
    have hall : (db.gcCopied .none seg).2 = true := (gcCopies_none db.options seg _ 0 db.vlog h.vlog.ready hd).1
    obtain ⟨hi₁, -, ho₁, hs₁, hin₁⟩ := hres.ok hall
    -- every key whose version lay in the segment has moved, with its value
    have hkey : ∀ key, db₁.Shows key (m key) ∧ ∀ e, db₁.visible key = some e → e.vlogPtr.fileId ≠ seg := by
      intro key
      have hre := hres.rewritten key
      obtain ⟨hsome, hnone⟩ := h.gcMoved_none hd key
      unfold Rewritten at hre
      split at hre
      · rename_i hmv
        have hvis : db₁.visible key = db.visible key := congrArg _ hre
        refine ⟨(hr key).mono hvis hres.extends_, fun e he hse => ?_⟩
        rw [hvis] at he
        exact hnone hmv e he hse (hs hdec key e he hse)
      · rename_i v hmv
        obtain ⟨e, he, hse, hh, -⟩ := hsome v hmv
        obtain ⟨e', he', hh', hl', hne⟩ := hre
        have hm : m key = some v := by
          have hshow := hr key
          cases hmk : m key with
          | none =>
            rw [hmk] at hshow
            exact absurd (hshow.symm.trans he) (by simp)
          | some x =>
            rw [hmk] at hshow
            obtain ⟨e₂, he₂, hh₂, -⟩ := hshow
            rw [he] at he₂
            cases he₂
            rw [(hh.unique hh₂ rfl rfl).2.2]
        rw [hm]
        refine ⟨⟨e', he', hh', hl'⟩, fun a ha => ?_⟩
        rw [he'] at ha
        cases ha
        exact hne
    rw [hok hall]
    have hcur : seg < db₁.vlog.currentFileId := hseg.trans_le hres.extends_.current
    have hopt : (db₁.gcFinish .none seg).options = db₁.options := rfl
    refine ⟨rfl, ?_⟩
    show db.Keeps (db₁.gcFinish .none seg) m m
    refine ⟨hopt.trans ho₁, hi₁.gcFinish .none hcur, fun key => ?_, fun hs => (hs₁ hs).gcFinish .none seg,
      fun hin => (hin₁ hin).gcFinish .none seg⟩
    exact (hkey key).1.gcFinish .none (hres.extends_.dir _ hd) fun _ e he => (hkey key).2 e he

/-- The scan of an undamaged segment delivers what is visible in it. -/
theorem Intact.delivers {db : DB} (h : db.Intact) (seg : Nat) : db.Delivers seg := by
  intro key e he hs
  obtain ⟨hh, hg⟩ := visible_eq_some.mp he
  rcases h.scanned key e (List.mem_of_mem_head? hh) with hd | ⟨value, hho, hsc⟩
  · exact absurd hd hg
  · unfold VLog.Scanned at hsc
    rw [hs] at hsc
    refine ⟨_, hsc, rfl, rfl, rfl, ?_⟩
    have hf := hho.fits
    unfold VLog.Fits at hf
    rw [Nat.mod_eq_of_lt (by simp only; omega), hho.valueSize]

/-- **`RunGC` without faults** keeps the contents of an undamaged database. -/
theorem runGC_spec {db : DB} (h : db.Inv) (hi : db.Intact) {m : Contents} (hr : db.Refines m) :
    (db.runGC .none).2 = .ok () ∧ db.Keeps (db.runGC .none).1 m m := by
  unfold runGC
  cases hc : db.gcChoose with
  | none => exact ⟨rfl, rfl, h, hr, fun hs => hs, fun hi => hi⟩
  | some seg =>
    obtain ⟨hd, hseg⟩ := gcChoose_spec hc
    exact gcSegment_spec h hr hd hseg fun _ => hi.delivers seg

end DB

end SplitKV
