import SplitKV.Store.Garbage

/-!
# Collections that do nothing

A collection looks at the oldest completed file only. While the collections of a run do nothing, that file stays the
oldest one, and its live records are the ones that were live at the beginning and whose keys were not written since. So
these decide whether the next collection does anything, whatever the other files hold (`idle_iff`).
-/

namespace SplitKV

open Assoc Versions

namespace DB

/-- What steps leave alone that write some keys: the segment stays the oldest one, the other keys keep their versions,
and the written ones have none in the segment. -/
structure Untouched (db db' : DB) (seg : Nat) (keys : List Key) : Prop where
  options : db'.options = db.options
  current : db.vlog.currentFileId ≤ db'.vlog.currentFileId
  data : db'.vlog.files.data seg = db.vlog.files.data seg
  dir : seg ∈ db.vlog.files.dir → seg ∈ db'.vlog.files.dir
  newer : ∀ id ∈ db'.vlog.files.dir, id ∈ db.vlog.files.dir ∨ db.vlog.currentFileId ≤ id
  visible : ∀ key ∉ keys, db'.visible key = db.visible key
  moved : ∀ key ∈ keys, ∀ e, db'.visible key = some e → e.vlogPtr.fileId ≠ seg

theorem Untouched.refl (db : DB) (seg : Nat) : Untouched db db seg [] :=
  ⟨rfl, Nat.le_refl _, rfl, fun hd => hd, fun _ hid => Or.inl hid, fun _ _ => rfl, fun _ hk => absurd hk List.not_mem_nil⟩

theorem Untouched.trans {a b c : DB} {seg : Nat} {keys keys' : List Key} (h : Untouched a b seg keys)
    (h' : Untouched b c seg keys') : Untouched a c seg (keys ++ keys') := by
  refine ⟨h'.options.trans h.options, h.current.trans h'.current, h'.data.trans h.data, fun hd => h'.dir (h.dir hd),
    fun id hid => ?_, fun key hk => ?_, fun key hk e he => ?_⟩
  · rcases h'.newer id hid with hid | hle
    · exact h.newer id hid
    · exact Or.inr (h.current.trans hle)
  · rw [List.mem_append, not_or] at hk
    rw [h'.visible key hk.2, h.visible key hk.1]
  · by_cases hk' : key ∈ keys'
    · exact h'.moved key hk' e he
    · rw [h'.visible key hk'] at he
      exact h.moved key ((List.mem_append.mp hk).resolve_right hk') e he

/-- A step of the index, or of syncs. -/
theorem untouched_of_same (db db' : DB) (ho : db'.options = db.options) (hv : VLog.SameFiles db.vlog db'.vlog)
    (hs : ∀ key, db'.visible key = db.visible key) (seg : Nat) : Untouched db db' seg [] :=
  ⟨ho, hv.current.ge, congrFun hv.data seg, fun hd => hv.dir ▸ hd, fun _ hid => Or.inl (hv.dir ▸ hid), fun key _ => hs key,
    fun _ hk => absurd hk List.not_mem_nil⟩

/-- A new version that does not lie in the segment. -/
theorem untouched_addVersion (db : DB) (hm : db.memtable.Valid) {seg : Nat} (key : Key) {e : InternalEntry}
    (he : e.Gone ∨ e.vlogPtr.fileId ≠ seg) : Untouched db (db.addVersion key e) seg [key] := by
  refine ⟨rfl, Nat.le_refl _, rfl, fun hd => hd, fun id hid => Or.inl hid, fun k hk => ?_, fun k hk x hx => ?_⟩
  · exact visible_addVersion_of_ne _ (fun he => hk (List.mem_singleton.mpr he)) _
  · rw [List.mem_singleton.mp hk, visible_addVersion_self hm] at hx
    split at hx
    · cases hx
    · rename_i hg
      cases hx
      exact he.resolve_left hg

/-- One entry of a batch. -/
theorem untouched_writeEntry {db : DB} (h : db.Inv) {seg : Nat} (hseg : seg < db.vlog.currentFileId) (e : BatchEntry) :
    Untouched db (db.writeEntry e .none none).1 seg [e.key] := by
  have hm := h.wf.memtables _ List.mem_cons_self
  cases e with
  | put key value =>
    obtain ⟨v, ptr, hv, -, ha⟩ := VLog.appended_append db.options h.vlog.ready key value .value
    have he : (db.writeEntry (.put key value) .none none).1 = { db with
        vlog := v, wal := db.wal.extend (WAL.encodeRecord ⟨.value, db.sequenceNumber, key, ptr⟩) }.addVersion key
          ⟨ptr, db.sequenceNumber, .value⟩ := by
      simp only [writeEntry, hv, WAL.addRecord_opened h.wal]
      rfl
    have hlogs : Untouched db { db with
        vlog := v, wal := db.wal.extend (WAL.encodeRecord ⟨.value, db.sequenceNumber, key, ptr⟩) } seg [] := by
      have hcur := ha.current_le
      refine ⟨rfl, hcur, ha.old seg (Nat.lt_of_lt_of_le hseg hcur).ne, fun hd => (ha.dir seg).mpr (Or.inr hd),
        fun id hid => ?_, fun _ _ => rfl, fun _ hk => absurd hk List.not_mem_nil⟩
      rcases (ha.dir id).mp hid with rfl | hid
      · exact Or.inr hcur
      · exact Or.inl hid
    rw [he]
    have hne : ptr.fileId ≠ seg := by
      rw [ha.fileId]
      exact (Nat.lt_of_lt_of_le hseg ha.current_le).ne'
    refine hlogs.trans (untouched_addVersion _ ?_ key (Or.inr hne))
    exact hm
  | delete key =>
    have he : (db.writeEntry (.delete key) .none none).1 = { db with
        wal := db.wal.extend (WAL.encodeRecord ⟨.deletion, db.sequenceNumber, key, ⟨0, 0, 0⟩⟩) }.addVersion key
          ⟨⟨0, 0, 0⟩, db.sequenceNumber, .deletion⟩ := by
      simp only [writeEntry, WAL.addRecord_opened h.wal]
      rfl
    rw [he]
    have hlogs : Untouched db { db with
        wal := db.wal.extend (WAL.encodeRecord ⟨.deletion, db.sequenceNumber, key, ⟨0, 0, 0⟩⟩) } seg [] := by
      refine untouched_of_same _ _ ?_ ?_ ?_ seg
      · rfl
      · exact ⟨rfl, rfl, rfl, rfl, rfl⟩
      · exact fun _ => rfl
    refine hlogs.trans (untouched_addVersion _ ?_ key (Or.inl rfl))
    exact hm

/-- The entries of a batch. -/
theorem untouched_writeEntries {f : WriteFaults} (hv : ∀ i, f.vlog i = .none) (hw : ∀ i, f.wal i = none) {seg : Nat} :
    ∀ (batch : WriteBatch) (i : Nat) (db : DB) (m : Contents), db.Inv → db.Refines m → seg < db.vlog.currentFileId →
      (∀ e ∈ batch, e.Fits) → Untouched db (writeEntries f i batch db).1 seg (batch.map BatchEntry.key)
  | [], _, db, _, _, _, _, _ => .refl db seg
  | e :: batch, i, db, m, h, hr, hseg, hf => by
    obtain ⟨db₁, he, hk⟩ := writeEntry_spec h hr (hf e List.mem_cons_self)
    have h₁ := untouched_writeEntry h hseg e
    rw [he] at h₁
    have hrest := untouched_writeEntries hv hw batch (i + 1) db₁ (e.apply m) hk.inv hk.refines
      (Nat.lt_of_lt_of_le hseg h₁.current) fun e he => hf e (List.mem_cons_of_mem _ he)
    rw [writeEntries, hv, hw, he]
    exact h₁.trans hrest

/-- **A write** leaves the older segments alone. -/
theorem untouched_write {db : DB} (h : db.Inv) {m : Contents} (hr : db.Refines m) (sync : Bool) {batch : WriteBatch}
    (hf : ∀ e ∈ batch, e.Fits) {seg : Nat} (hseg : seg < db.vlog.currentFileId) :
    Untouched db (db.write sync batch {}).1 seg (batch.map BatchEntry.key) := by
  obtain ⟨db₁, he, hk⟩ := writeEntries_spec (f := {}) (fun _ => rfl) (fun _ => rfl) batch 0 db m h hr hf
  have h₁ := untouched_writeEntries (f := {}) (fun _ => rfl) (fun _ => rfl) batch 0 db m h hr hseg hf
  rw [he] at h₁
  have h₂ : Untouched db₁ (if sync then db₁.syncLogs else db₁) seg [] := by
    split
    · exact untouched_of_same db₁ db₁.syncLogs rfl (VLog.sameFiles_sync db₁.vlog) (fun _ => rfl) seg
    · exact .refl db₁ seg
  have h₃ : ∀ db₂ : DB, Untouched db₂ (db₂.maybeScheduleFlush .none).1 seg [] := by
    intro db₂
    unfold maybeScheduleFlush
    split
    · rw [WAL.create_none]
      have hs : ∀ key, db₂.rotate.visible key = db₂.visible key := fun key => congrArg _ (versions_rotate db₂ key)
      refine untouched_of_same _ _ ?_ ?_ ?_ seg
      · rfl
      · exact ⟨rfl, rfl, rfl, rfl, rfl⟩
      · exact hs
    · exact .refl db₂ seg
  rw [write, he]
  have := (h₁.trans h₂).trans (h₃ _)
  rw [List.append_nil, List.append_nil] at this
  exact this

/-- Every step of a session but a collection leaves the older segments alone. -/
theorem untouched_exec {db : DB} (h : db.Inv) (hs : db.Settled) {m : Contents} (hr : db.Refines m) {op : Op} (hf : op.Fits)
    {seg : Nat} (hseg : seg < db.vlog.currentFileId) (hidle : op = .runGC → db.exec .runGC = db) :
    Untouched db (db.exec op) seg (op.entries.map BatchEntry.key) := by
  have hindex : ∀ db' : DB, db'.options = db.options → db'.vlog = db.vlog → (∀ key, db'.visible key = db.visible key) →
      Untouched db db' seg [] := by
    intro db' ho hv hvis
    refine untouched_of_same db db' ho ?_ hvis seg
    rw [hv]
    exact ⟨rfl, rfl, rfl, rfl, rfl⟩
  cases op with
  | write sync batch => exact untouched_write h hr sync hf hseg
  | flush =>
    obtain ⟨-, hv, hi⟩ := versions_flushFront h.wf (f := {}) fun _ _ => Or.inr ⟨rfl, fun _ _ => rfl, rfl, rfl⟩
    exact hindex _ hi.options hi.vlog fun key => congrArg _ (hv key)
  | compactLevel lvl =>
    have hc := compactLevel_spec h.wf hs lvl
    exact hindex _ hc.onlyIndex.options hc.vlog hc.visible
  | compactRange =>
    have hc := compactRange_spec h.wf hs
    exact hindex _ hc.onlyIndex.options hc.vlog hc.visible
  | runGC =>
    rw [hidle rfl]
    exact .refl db seg

/-- Every collection of the run leaves the database as it is. -/
def Idle (db : DB) (ops : List Op) : Prop :=
  ∀ before later, ops = before ++ .runGC :: later → (db.run before).exec .runGC = db.run before

/-- The keys that steps write. -/
def written (ops : List Op) : List Key := (ops.flatMap Op.entries).map BatchEntry.key

theorem untouched_run {seg : Nat} : ∀ (ops : List Op) (db : DB) (m : Contents), db.Inv → db.Settled → db.Intact →
    db.Refines m → (∀ op ∈ ops, op.Fits) → seg < db.vlog.currentFileId → db.Idle ops →
    Untouched db (db.run ops) seg (written ops)
  | [], db, _, _, _, _, _, _, _, _ => .refl db seg
  | op :: ops, db, m, h, hs, hi, hr, hf, hseg, hidle => by
    have hf₁ := hf op List.mem_cons_self
    have hk := exec_spec h hs hi hr hf₁
    have h₁ := untouched_exec h hs hr hf₁ hseg fun ho => hidle [] ops (by rw [ho]; rfl)
    have hrest := untouched_run ops (db.exec op) _ hk.inv (hk.settled hs) (hk.intact hi) hk.refines
      (fun op ho => hf op (List.mem_cons_of_mem _ ho)) (Nat.lt_of_lt_of_le hseg h₁.current)
      fun before later he => hidle (op :: before) later (by rw [he]; rfl)
    rw [written, List.flatMap_cons, List.map_append]
    exact h₁.trans hrest

/-- The segment is still the one a collection takes. -/
theorem Untouched.chosen {db db' : DB} {seg : Nat} {keys : List Key} (h : Untouched db db' seg keys)
    (hc : db.gcChoose = some seg) : db'.gcChoose = some seg := by
  obtain ⟨hd, h5, hseg, hmin⟩ := gcChoose_eq_some.mp hc
  refine gcChoose_eq_some.mpr ⟨h.dir hd, h5, Nat.lt_of_lt_of_le hseg h.current, fun id hid h5' _ => ?_⟩
  rcases h.newer id hid with hid | hle
  · rcases Nat.lt_or_ge id db.vlog.currentFileId with hlt | hge
    · exact hmin id hid h5' hlt
    · exact hseg.le.trans hge
  · exact hseg.le.trans hle

/-- The bytes of the live records of a segment whose keys are not written. -/
def liveUnwritten (db : DB) (seg : Nat) (keys : List Key) : Nat :=
  (((db.vlog.records seg).filter fun r => db.liveIn seg r && !keys.contains r.key).map ScanRecord.recSize).sum

/-- The test of a collection behind steps that write the keys. -/
def rewritesBehind (db : DB) (seg : Nat) (keys : List Key) : Bool :=
  decide ((db.vlog.files.data seg).length ≠ 0) &&
    db.options.gcTest (db.liveUnwritten seg keys) (db.vlog.files.data seg).length

/-- **What a collection decides** behind steps that leave the segment alone. -/
theorem Untouched.gcDecide {db db' : DB} {seg : Nat} {keys : List Key} (h : Untouched db db' seg keys) (hinv : db.Inv)
    (hinv' : db'.Inv) (hi' : db'.Intact) (hseg : seg < db.vlog.currentFileId) :
    db'.gcDecide (db'.gcScanned .none seg) = db.rewritesBehind seg keys := by
  have hlive : db'.liveIn seg = fun r => db.liveIn seg r && !keys.contains r.key := by
    funext r
    rw [Bool.eq_iff_iff, Bool.and_eq_true, hinv'.liveIn_iff, hinv.liveIn_iff, Bool.not_eq_true',
      ← Bool.not_eq_true, List.contains_iff_mem]
    by_cases hk : r.key ∈ keys
    · constructor
      · rintro ⟨-, e, he, hid, -⟩
        exact absurd hid (h.moved r.key hk e he)
      · rintro ⟨-, hn⟩
        exact absurd hk hn
    · rw [h.visible r.key hk, and_iff_left hk]
  have hbytes : db'.liveBytes seg = db.liveUnwritten seg keys := by
    rw [liveBytes, liveUnwritten, VLog.records, VLog.records, h.data, hlive]
  rw [gcDecide_none hi' (hseg.le.trans h.current), rewritesBehind, h.data, h.options, hbytes]

/-- **When collections do nothing**: the collections of a run leave the database as it is exactly when, at each of them,
the test fails for the oldest completed file, of which the records count that were live at the beginning and whose keys
were not written since. -/
theorem idle_iff {db : DB} (h : db.Inv) (hs : db.Settled) (hi : db.Intact) {m : Contents} (hr : db.Refines m) {seg : Nat}
    (hc : db.gcChoose = some seg) (ops : List Op) (hf : ∀ op ∈ ops, op.Fits) :
    db.Idle ops ↔ ∀ before later, ops = before ++ .runGC :: later → db.rewritesBehind seg (written before) = false := by
  have hseg := (gcChoose_spec hc).2
  -- behind idle collections, the next one is idle exactly when the test fails
  have hnext : ∀ before later, ops = before ++ .runGC :: later → db.Idle before →
      ((db.run before).exec .runGC = db.run before ↔ db.rewritesBehind seg (written before) = false) := by
    intro before later he hidle
    have hf₁ : ∀ op ∈ before, op.Fits := fun op ho => hf op (he ▸ List.mem_append_left _ ho)
    have hu := untouched_run before db m h hs hi hr hf₁ hseg hidle
    have hk := run_spec before db m h hs hi hr hf₁
    have hi' := hk.intact hi
    have hc' := hu.chosen hc
    rw [← hu.gcDecide h hk.inv hi' hseg]
    constructor
    · intro hsame
      rw [← Bool.not_eq_true]
      intro hdec
      have hfrees := runGC_frees hk.inv hi' hc' hdec
      rw [show ((db.run before).runGC .none).1 = db.run before from hsame] at hfrees
      exact hfrees.removed (gcChoose_spec hc').1
    · intro hdec
      refine runGC_idle fun seg' hs' => ?_
      rw [hc'] at hs'
      cases hs'
      exact hdec
  have hearlier : ∀ {before later : List Op}, ops = before ++ .runGC :: later → db.Idle ops → db.Idle before := by
    intro before later he hidle b l hb
    exact hidle b (l ++ .runGC :: later) (by rw [he, hb, List.append_assoc, List.cons_append])
  constructor
  · intro hidle before later he
    exact (hnext before later he (hearlier he hidle)).mp (hidle before later he)
  · intro htest
    have hall : ∀ (n : Nat) (before later : List Op), before.length < n → ops = before ++ .runGC :: later →
        (db.run before).exec .runGC = db.run before := by
      intro n
      induction n with
      | zero => exact fun _ _ hn _ => absurd hn (Nat.not_lt_zero _)
      | succ n ih =>
        intro before later hn he
        refine (hnext before later he fun b l hb => ?_).mpr (htest before later he)
        refine ih b (l ++ .runGC :: later) ?_ (by rw [he, hb, List.append_assoc, List.cons_append])
        rw [hb, List.length_append, List.length_cons] at hn
        omega
    exact fun before later he => hall _ before later (Nat.lt_succ_self _) he

/-- A session whose oldest file is live, before a file of garbage. -/
def starved : DB :=
  (fresh { vlogFileSizeLimit := 1 }).run [.write false [.put [1] [7]], .write false [.put [2] [8], .put [2] [9]]]

/-- Collections of that session, before and behind a write. -/
theorem idle_iff_sample : starved.Idle [.runGC, .write false [.put [1] [8]], .runGC] ↔
    ∀ before later, [Op.runGC, .write false [.put [1] [8]], .runGC] = before ++ .runGC :: later →
      starved.rewritesBehind 1 (written before) = false := by
  have hk := run_spec [.write false [.put [1] [7]], .write false [.put [2] [8], .put [2] [9]]]
    (fresh { vlogFileSizeLimit := 1 }) _ (inv_fresh (by decide)) (settled_fresh _) (intact_fresh _) (refines_fresh _) (by decide)
  exact idle_iff hk.inv (hk.settled (settled_fresh _)) (hk.intact (intact_fresh _)) hk.refines (by decide +kernel) _ (by decide)

end DB

end SplitKV
