import SplitKV.Concurrent.Collected

/-!
# Runs with collections

Any number of collections run beside writers, the flush and one compaction at a time. No section of a collection changes
what the database holds, and when a collection removes a file, nothing visible points into it
(`GcSys.collections_keep`).
-/

namespace SplitKV

open Assoc

namespace DB

/-- The files a collection lists. -/
theorem mem_vlogIds {db : DB} {id : Nat} : id ∈ db.vlogIds ↔ id ∈ db.vlog.files.dir ∧ id < 100000 := by
  rw [vlogIds, List.mem_insertionSort, List.mem_filterMap]
  simp only [gcFileId_vlogFileName, Option.ite_none_right_eq_some, Option.some.injEq]
  constructor
  · rintro ⟨i, hi, hlt, rfl⟩
    exact ⟨hi, hlt⟩
  · rintro ⟨hi, hlt⟩
    exact ⟨id, hi, hlt, rfl⟩

/-- The file a collection takes from a sorted listing is the oldest one that is completed. -/
theorem choose_le {ids : List Nat} (hsorted : ids.Pairwise (· ≤ ·)) {current seg id : Nat}
    (hc : ids.find? (fun i => decide (i < current)) = some seg) (hid : id ∈ ids) (hlt : id < current) : seg ≤ id := by
  obtain ⟨-, before, rest, rfl, hbefore⟩ := List.find?_eq_some_iff_append.mp hc
  rcases List.mem_append.mp hid with hm | hm
  · have hno := hbefore id hm
    simp only [Bool.not_eq_true', decide_eq_false_iff_not] at hno
    exact absurd hlt hno
  · rcases List.mem_cons.mp hm with rfl | hm
    · exact Nat.le_refl _
    · exact (List.pairwise_cons.mp (List.pairwise_append.mp hsorted).2.1).1 id hm

end DB

/-! ## The invariant -/

/-- What a collection relies on: its listing has every file that is not newer than all of it; or its segment is
completed. -/
def Collector.Inv (db : DB) : Collector → Prop
  | .listed ids => ids.Pairwise (· ≤ ·) ∧ (∀ id ∈ ids, id ≤ db.vlog.currentFileId ∧ id < 100000) ∧
      ∀ id ∈ db.vlog.files.dir, id < 100000 → id ∈ ids ∨ ∀ i ∈ ids, i < id
  | .working gcFileId phase => gcFileId < db.vlog.currentFileId ∧ gcFileId < 100000 ∧ phase.Inv db gcFileId

/-- **Steps of other threads**, and of other collections, keep what a collection relies on. -/
theorem Collector.Inv.passes {db db' : DB} {c : Collector} (h : c.Inv db) (hw : db.vlog.AllWhole)
    (hp : db.vlog.Passes db'.vlog) (hvis : ∀ seg phase, c = .working seg phase → ∀ key e, db'.visible key = some e →
      e.vlogPtr.fileId = seg → db.visible key = some e) : c.Inv db' := by
  cases c with
  | listed ids =>
    obtain ⟨hsorted, hids, hall⟩ := h
    refine ⟨hsorted, fun id hid => ⟨(hids id hid).1.trans hp.current, (hids id hid).2⟩, fun id hid hlt => ?_⟩
    rcases hp.dir id hid with hid | hnew
    · exact hall id hid hlt
    · exact Or.inr fun i hi => (hids i hi).1.trans_lt hnew
  | working seg phase =>
    obtain ⟨hseg, hlt, hphase⟩ := h
    exact ⟨hseg.trans_le hp.current, hlt, hphase.passes hw hp (hvis seg phase rfl)⟩

namespace GcAct

/-- The entries a step writes. -/
def entries : GcAct → WriteBatch
  | thread a => a.entries
  | _ => []

/-- Every record of the step is smaller than 4 GiB. -/
def Fits : GcAct → Prop
  | thread a => a.Fits
  | _ => True

instance : (a : GcAct) → Decidable a.Fits
  | thread a => inferInstanceAs (Decidable a.Fits)
  | startGc _ => inferInstanceAs (Decidable True)
  | gc _ => inferInstanceAs (Decidable True)

end GcAct

namespace GcSys

/-- Every step of the run satisfies P in the state it is taken in. -/
def Along (P : GcSys → GcAct → Prop) : GcSys → List GcAct → Prop
  | _, [] => True
  | s, a :: acts => P s a ∧ Along P (s.step a) acts

/-- A compaction only starts while no other one runs. -/
def Alone (s : GcSys) : GcAct → Prop
  | .thread a => s.sys.Alone a
  | _ => True

/-- What the threads and the collections rely on. -/
structure Inv (s : GcSys) (m : Contents) : Prop where
  sys : s.sys.Inv
  reliable : s.db.Reliable m
  collectors : ∀ t c, s.collectors t = some c → c.Inv s.db
  copies : ∀ t seg r newPtr rest, s.collectors t = some (.working seg (.appended r newPtr rest)) →
    seg ∈ s.db.vlog.files.dir → newPtr.fileId ∈ s.db.vlog.files.dir ∧
      ∀ t' seg' phase, s.collectors t' = some (.working seg' phase) → seg' < newPtr.fileId

variable {s : GcSys} {m : Contents}

/-- **A step of another thread.** -/
theorem Inv.thread (h : s.Inv m) {a : Act} (ha : s.sys.Apart a) (hf : a.Fits) :
    (s.step (.thread a)).Inv (WriteBatch.apply m a.entries) := by
  obtain ⟨hr, hp⟩ := h.sys.passes h.reliable ha hf
  refine ⟨h.sys.step ha, hr, fun t c hc => (h.collectors t c hc).passes h.reliable.intact.whole hp.vlog
    fun seg phase hw key e he hs => ?_, fun t seg r newPtr rest hc hdir => ?_⟩
  · subst hw
    have hlt := (h.collectors t _ hc).1
    rcases hp.visible key e he with he | ⟨hle, -⟩
    · exact he
    · exact absurd (hs ▸ hle) hlt.not_ge
  · have hlt := (h.collectors t _ hc).1
    have hold : seg ∈ s.db.vlog.files.dir := by
      rcases hp.vlog.dir seg hdir with hd | hnew
      · exact hd
      · exact absurd hnew hlt.asymm
    obtain ⟨hfile, hall⟩ := h.copies t seg r newPtr rest hc hold
    exact ⟨hp.dir _ hfile, hall⟩

/-- **A new collection.** -/
theorem Inv.startGc (h : s.Inv m) (t : Nat) : (s.step (.startGc t)).Inv m := by
  cases ht : s.collectors t with
  | some c =>
    rw [step_startGc_running ht]
    exact h
  | none =>
    rw [step_startGc ht]
    have hnew : (Collector.listed s.db.vlogIds).Inv s.db := by
      refine ⟨List.pairwise_insertionSort _ _, fun id hid => ?_, fun id hid hlt => Or.inl (DB.mem_vlogIds.mpr ⟨hid, hlt⟩)⟩
      obtain ⟨hd, hlt⟩ := DB.mem_vlogIds.mp hid
      exact ⟨h.reliable.inv.vlog.newest id hd, hlt⟩
    have hworking : ∀ t' seg phase, setAt s.collectors t (some (.listed s.db.vlogIds)) t' = some (.working seg phase) →
        s.collectors t' = some (.working seg phase) := by
      intro t' seg phase hc
      rcases setAt_cases hc with ⟨-, hc⟩ | ⟨-, hc⟩
      · cases hc
      · exact hc
    refine ⟨h.sys, h.reliable, fun t' c hc => ?_, fun t' seg r newPtr rest hc hdir => ?_⟩
    · rcases setAt_cases hc with ⟨-, hc⟩ | ⟨-, hc⟩
      · cases hc
        exact hnew
      · exact h.collectors t' c hc
    · obtain ⟨hfile, hall⟩ := h.copies t' seg r newPtr rest (hworking _ _ _ hc) hdir
      exact ⟨hfile, fun t₁ seg₁ phase hc₁ => hall t₁ seg₁ phase (hworking _ _ _ hc₁)⟩

/-- The choice of a segment. -/
theorem Inv.choose (h : s.Inv m) {t : Nat} {ids : List Nat} (hc : s.collectors t = some (.listed ids)) :
    (s.step (.gc t)).Inv m := by
  obtain ⟨hsorted, hids, hall⟩ := h.collectors t _ hc
  rw [step_gc hc, DB.gcStep]
  cases hf : ids.find? (fun id => decide (id < s.db.vlog.currentFileId)) with
  | none =>
    have hworking : ∀ t' c, setAt s.collectors t none t' = some c → s.collectors t' = some c := by
      intro t' c hc'
      rcases setAt_cases hc' with ⟨-, hc'⟩ | ⟨-, hc'⟩
      · cases hc'
      · exact hc'
    refine ⟨h.sys, h.reliable, fun t' c hc' => h.collectors t' c (hworking t' c hc'),
      fun t' seg r newPtr rest hc' hdir => ?_⟩
    obtain ⟨hfile, hle⟩ := h.copies t' seg r newPtr rest (hworking _ _ hc') hdir
    exact ⟨hfile, fun t₁ seg₁ phase hc₁ => hle t₁ seg₁ phase (hworking _ _ hc₁)⟩
  | some seg =>
    have hfound := List.find?_some hf
    have hseg : seg < s.db.vlog.currentFileId := of_decide_eq_true hfound
    have hmem := List.mem_of_find?_eq_some hf
    refine ⟨h.sys, h.reliable, fun t' c hc' => ?_, fun t' seg' r newPtr rest hc' hdir => ?_⟩
    · rcases setAt_cases hc' with ⟨-, hc'⟩ | ⟨-, hc'⟩
      · cases hc'
        exact ⟨hseg, (hids seg hmem).2, ⟨fun rs hrs => (by cases hrs), fun r hr => (by cases hr), trivial⟩⟩
      · exact h.collectors t' c hc'
    · rcases setAt_cases hc' with ⟨-, hc'⟩ | ⟨-, hc'⟩
      · cases hc'
      · obtain ⟨hfile, hle⟩ := h.copies t' seg' r newPtr rest hc' hdir
        refine ⟨hfile, fun t₁ seg₁ phase hc₁ => ?_⟩
        rcases setAt_cases hc₁ with ⟨-, hc₁⟩ | ⟨-, hc₁⟩
        · -- the segment of the copy was listed, or is newer than the listing
          cases hc₁
          obtain ⟨hlt', hsmall, hphase⟩ := h.collectors t' _ hc'
          have hcopy := hphase.carries.1
          rcases hall seg' hdir hsmall with hin | hnewer
          · exact (DB.choose_le hsorted hf hin hlt').trans_lt hcopy
          · exact (hnewer seg hmem).trans hcopy
        · exact hle t₁ seg₁ phase hc₁

/-- **A section of a collection at work.** -/
theorem Inv.collect (h : s.Inv m) {t seg : Nat} {phase : Collecting}
    (hc : s.collectors t = some (.working seg phase)) : (s.step (.gc t)).Inv m := by
  obtain ⟨hseg, hsmall, hphase⟩ := h.collectors t _ hc
  have hstep := DB.collectStep_spec h.reliable hseg hphase fun r newPtr rest hp hd => by
    subst hp
    exact (h.copies t seg r newPtr rest hc hd).1
  rw [step_gc hc, DB.gcStep]
  generalize s.db.collectStep seg phase = x at hstep ⊢
  obtain ⟨db', phase'⟩ := x
  -- the collections behind the step
  have hcases : ∀ t' c, setAt s.collectors t (phase'.map (.working seg)) t' = some c →
      (t' = t ∧ ∃ q, phase' = some q ∧ c = .working seg q) ∨ t' ≠ t ∧ s.collectors t' = some c := by
    intro t' c hc'
    rcases setAt_cases hc' with ⟨ht, hc'⟩ | hold
    · obtain ⟨q, hq, rfl⟩ := Option.map_eq_some_iff.mp hc'
      exact Or.inl ⟨ht, q, hq, rfl⟩
    · exact Or.inr hold
  refine ⟨h.sys.logSteps hstep.logs, hstep.reliable, fun t' c hc' => ?_, fun t' seg' r newPtr rest hc' hdir => ?_⟩
  · rcases hcases t' c hc' with ⟨-, q, hq, rfl⟩ | ⟨-, hc'⟩
    · exact ⟨hseg.trans_le hstep.vlog.current, hsmall, hstep.next q hq⟩
    · refine (h.collectors t' c hc').passes h.reliable.intact.whole hstep.vlog fun seg' phase₁ hw key e he hs => ?_
      subst hw
      rcases hstep.visible key e he with he | ⟨hd, r, newPtr, rest, hp, hptr⟩
      · exact he
      · -- a copy does not lie in a segment that is collected
        subst hp
        have hlt := (h.copies t seg r newPtr rest hc hd).2 t' seg' phase₁ hc'
        rw [hptr] at hs
        omega
  · rcases hcases t' _ hc' with ⟨-, q, hq, hw⟩ | ⟨-, hc'⟩
    · cases hw
      subst hq
      obtain ⟨hfile, hle⟩ := hstep.placed
      refine ⟨hfile, fun t₁ seg₁ phase₁ hc₁ => ?_⟩
      rcases hcases t₁ _ hc₁ with ⟨-, q₁, -, hw₁⟩ | ⟨-, hc₁⟩
      · cases hw₁
        exact hseg.trans_le hle
      · exact ((h.collectors t₁ _ hc₁).1).trans_le hle
    · have hold : seg' ∈ s.db.vlog.files.dir := by
        rcases hstep.vlog.dir seg' hdir with hd | hnew
        · exact hd
        · exact absurd hnew (h.collectors t' _ hc').1.asymm
      obtain ⟨hfile, hlt⟩ := h.copies t' seg' r newPtr rest hc' hold
      refine ⟨?_, fun t₁ seg₁ phase₁ hc₁ => ?_⟩
      · rcases hstep.dir _ hfile with hd | ⟨-, he⟩
        · exact hd
        · exact absurd he (hlt t seg phase hc).ne'
      · rcases hcases t₁ _ hc₁ with ⟨-, q₁, -, hw₁⟩ | ⟨-, hc₁⟩
        · cases hw₁
          exact hlt t seg phase hc
        · exact hlt t₁ seg₁ phase₁ hc₁

/-- A section of a collection keeps the contents. -/
theorem Inv.gc (h : s.Inv m) (t : Nat) : (s.step (.gc t)).Inv m := by
  cases hc : s.collectors t with
  | none =>
    rw [step_gc_none hc]
    exact h
  | some c =>
    cases c with
    | listed ids => exact h.choose hc
    | working seg phase => exact h.collect hc

/-- **Every step** applies its entries to the contents. -/
theorem Inv.step (h : s.Inv m) {a : GcAct} (ha : s.Alone a) (hf : a.Fits) :
    (s.step a).Inv (WriteBatch.apply m a.entries) := by
  cases a with
  | thread a => exact h.thread ha.apart hf
  | startGc t => exact h.startGc t
  | gc t => exact h.gc t

/-- **Every run** applies its entries to the contents. -/
theorem Inv.run : ∀ (acts : List GcAct) (s : GcSys) (m : Contents), s.Inv m → Along Alone s acts →
    (∀ a ∈ acts, a.Fits) → (s.run acts).Inv (WriteBatch.apply m (acts.flatMap GcAct.entries))
  | [], _, _, h, _, _ => h
  | a :: acts, s, m, h, ha, hf => by
    have h₁ := h.step ha.1 (hf a List.mem_cons_self)
    have hrest := Inv.run acts (s.step a) _ h₁ ha.2 fun b hb => hf b (List.mem_cons_of_mem _ hb)
    rw [List.flatMap_cons, WriteBatch.apply_append]
    exact hrest

theorem inv_start {db : DB} (h : db.Opens) (hi : db.Intact) (hl : db.Live) (hr : db.Refines m) : (start db).Inv m :=
  ⟨Sys.inv_start h.spec.1, ⟨h.spec.2, hi, hl, hr⟩, fun t c hc => (by cases hc),
    fun t seg r newPtr rest hc => (by cases hc)⟩

/-- **Collections change nothing visible**: among writes, flushes and compactions, one at a time, every section of every
collection keeps what `Get` returns, which is what the writes so far left; and where a collection is about to remove its
segment, no visible version points into it. -/
theorem collections_keep {db : DB} (h : db.Opens) (hi : db.Intact) (hl : db.Live) (hr : db.Refines m)
    (acts : List GcAct) (hs : Along Alone (start db) acts) (hf : ∀ a ∈ acts, a.Fits) :
    (∀ a, (∀ b, a ≠ .thread b) → ∀ key,
      (((start db).run acts).step a).db.result key = ((start db).run acts).db.result key) ∧
    (∀ key, ((start db).run acts).db.result key = DB.answer (WriteBatch.apply m (acts.flatMap GcAct.entries) key)) ∧
    ∀ t seg, ((start db).run acts).collectors t = some (.working seg .unread) →
      ∀ key e, ((start db).run acts).db.visible key = some e → e.vlogPtr.fileId ≠ seg := by
  have hrun := Inv.run acts _ m (inv_start h hi hl hr) hs hf
  have hresult := fun key => hrun.reliable.refines.result hrun.reliable.inv key
  refine ⟨fun a ha key => ?_, hresult, fun t seg hc key e he hse => ?_⟩
  · rw [hresult key]
    cases a with
    | thread b => exact absurd rfl (ha b)
    | startGc t =>
      have h₁ := (hrun.startGc t).reliable
      exact h₁.refines.result h₁.inv key
    | gc t =>
      have h₁ := (hrun.gc t).reliable
      exact h₁.refines.result h₁.inv key
  · have hnone := (hrun.collectors t _ hc).2.2.among _ rfl key e he hse
    cases hnone

/-- A key is overwritten while a collection that found its record live is about to copy it. -/
theorem collections_keep_sample :
    ((start (DB.fresh { vlogFileSizeLimit := 1, gcTest := fun _ _ => true })).run
      [.thread (.write false [.put [1] [7]]), .thread (.write false [.put [2] [8]]), .startGc 0, .gc 0, .gc 0, .gc 0, .gc 0,
        .thread (.write true [.put [1] [9]])]).db.result [1] = .ok [9] ∧
    (((start (DB.fresh { vlogFileSizeLimit := 1, gcTest := fun _ _ => true })).run
      [.thread (.write false [.put [1] [7]]), .thread (.write false [.put [2] [8]]), .startGc 0, .gc 0, .gc 0, .gc 0, .gc 0,
        .thread (.write true [.put [1] [9]])]).step (.gc 0)).db.result [1] =
    ((start (DB.fresh { vlogFileSizeLimit := 1, gcTest := fun _ _ => true })).run
      [.thread (.write false [.put [1] [7]]), .thread (.write false [.put [2] [8]]), .startGc 0, .gc 0, .gc 0, .gc 0, .gc 0,
        .thread (.write true [.put [1] [9]])]).db.result [1] := by
  obtain ⟨hkeep, hall, -⟩ := collections_keep
    (.fresh (o := { vlogFileSizeLimit := 1, gcTest := fun _ _ => true }) (by decide)) (DB.intact_fresh _)
    (DB.live_fresh _) (DB.refines_fresh _)
    [.thread (.write false [.put [1] [7]]), .thread (.write false [.put [2] [8]]), .startGc 0, .gc 0, .gc 0, .gc 0, .gc 0,
      .thread (.write true [.put [1] [9]])]
    ⟨trivial, trivial, trivial, trivial, trivial, trivial, trivial, trivial, trivial⟩ (by decide)
  exact ⟨hall [1], hkeep (.gc 0) (fun b hb => by cases hb) [1]⟩

end GcSys

end SplitKV
