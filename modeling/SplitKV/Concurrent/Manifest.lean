import SplitKV.Concurrent.Sections

/-!
# The manifest and the threads

`SaveManifest` reads the id counter before it takes the lock. As long as no thread registers a table whose id is not below
a counter that another thread has read for a manifest it still has to write, the manifest describes tables that are on
disk, and its counter is above their ids (`SaveSys.manifest_sound`). A table that is registered in between gets into a
manifest whose counter will be given to another table (`SaveSys.stale_counter`).
-/

namespace SplitKV

open Assoc Levels

/-- The threads, when `SaveManifest` takes three steps: it reads the id counter, takes the lock and copies the tables, and
renames the new manifest, with which it gives the lock back. The counter and the tables of the manifest are kept. -/
structure SaveSys where
  sys : Sys
  counted : Worker → Option Nat := fun _ => none
  snapshot : Option (Worker × Nat × Levels) := none
  saved : Option (Nat × Levels)

namespace Sys

/-- The state with another manifest. -/
def setManifest (s : Sys) (text : Bytes) : Sys := { s with db := { s.db with manifest := some text } }

end Sys

namespace SaveSys

/-- The text for a counter and tables. -/
def text (o : Options) (p : Nat × Levels) : Bytes := encodeManifest p.1 (DB.manifestLines p.2 o.maxSstableLevels)

/-- The next step of `SaveManifest`. -/
def saveStep (s : SaveSys) (a : Act) (w : Worker) : SaveSys :=
  match s.counted w with
  | none => { s with counted := Function.update s.counted w (some s.sys.db.nextSstableId) }
  | some next =>
    match s.snapshot with
    | none => { s with snapshot := some (w, next, s.sys.db.levels) }
    | some (owner, p) =>
      if owner = w then
        { sys := (s.sys.step a).setManifest (text s.sys.db.options p)
          counted := Function.update s.counted w none
          snapshot := none
          saved := some p }
      else s

/-- A step of the system; a section that needs the lock waits while a thread saves the manifest. -/
def step (s : SaveSys) (a : Act) : SaveSys :=
  if s.sys.saves a then
    match a.worker with
    | some w => s.saveStep a w
    | none => s
  else if s.snapshot.isSome && s.sys.locks a then s
  else { s with sys := s.sys.step a }

/-- A run of the system. -/
def run (s : SaveSys) (acts : List Act) : SaveSys := acts.foldl step s

/-- Every step of the run satisfies P in the state it is taken in. -/
def Along (P : SaveSys → Act → Prop) : SaveSys → List Act → Prop
  | _, [] => True
  | s, a :: acts => P s a ∧ Along P (s.step a) acts

/-- No thread is at work; the manifest was written from the tables as they are. -/
def start (db : DB) : SaveSys :=
  { sys := Sys.start db, saved := db.manifest.map fun _ => (db.nextSstableId, db.levels) }

/-- Compactions with a common level do not overlap, and no table is registered whose id is not below a counter that another
thread has read for its next manifest. -/
def Timely (s : SaveSys) (a : Act) : Prop :=
  s.sys.Apart a ∧ (s.snapshot = none → ∀ id ∈ s.sys.registers a, ∀ w next, s.counted w = some next → id < next)

/-- The tables that a manifest lists are on disk, and their ids are below its counter. -/
structure Lists (db : DB) (next : Nat) (levels : Levels) : Prop where
  onDisk : ∀ l, ∀ info ∈ levels l, OnDisk db.sst l info
  wf : levels.Wf db.options.maxSstableLevels
  ids : ∀ l, ∀ info ∈ levels l, info.tableMeta.fileId < next
  unique : ∀ l l' a b, a ∈ levels l → b ∈ levels l' → a.tableMeta.fileId = b.tableMeta.fileId → l = l'
  next_le : next ≤ db.nextSstableId

/-- What the threads rely on, and what holds of the manifest. -/
structure Inv (s : SaveSys) : Prop where
  sys : s.sys.Inv
  files : s.sys.Files
  counted : ∀ w next, s.counted w = some next → next ≤ s.sys.db.nextSstableId ∧
    ∀ l, ∀ info ∈ s.sys.db.levels l, info.tableMeta.fileId < next
  snapshot : ∀ w next levels, s.snapshot = some (w, next, levels) → Lists s.sys.db next levels ∧
    ∀ w', ∀ id ∈ s.sys.owned w', levels.Free id
  saved : ∀ next levels, s.saved = some (next, levels) → Lists s.sys.db next levels ∧
    ∀ w, ∀ id ∈ s.sys.touched w, levels.Free id
  manifest : s.sys.db.manifest = s.saved.map (text s.sys.db.options)

variable {s : SaveSys} {a : Act} {w : Worker}

/-! ## The steps of `SaveManifest` -/

/-- The counter is read. -/
theorem Inv.count (h : s.Inv) (w : Worker) :
    ({ s with counted := Function.update s.counted w (some s.sys.db.nextSstableId) } : SaveSys).Inv := by
  refine ⟨h.sys, h.files, fun w' next hn => ?_, h.snapshot, h.saved, h.manifest⟩
  have hn : Function.update s.counted w (some s.sys.db.nextSstableId) w' = some next := hn
  by_cases hw : w' = w
  · subst hw
    rw [Function.update_self] at hn
    cases hn
    exact ⟨Nat.le_refl _, h.sys.steady.wf.ids⟩
  · rw [Function.update_of_ne hw] at hn
    exact h.counted w' next hn

/-- The tables are copied. -/
theorem Inv.copy (h : s.Inv) {next : Nat} (hn : s.counted w = some next) :
    ({ s with snapshot := some (w, next, s.sys.db.levels) } : SaveSys).Inv := by
  refine ⟨h.sys, h.files, h.counted, fun w' next' levels he => ?_, h.saved, h.manifest⟩
  cases he
  obtain ⟨hle, hids⟩ := h.counted w next hn
  exact ⟨⟨h.files.onDisk, h.sys.steady.wf.levels, hids, h.files.unique, hle⟩, fun w' id hm => (h.files.owned w' id hm).2⟩

end SaveSys

namespace Sys

variable {s : Sys} {a : Act}

/-- Another manifest does not matter to the threads. -/
theorem Inv.setManifest (h : s.Inv) (text : Bytes) : (s.setManifest text).Inv := by
  have hi : s.db.OnlyIndex (s.setManifest text).db := ⟨rfl, Nat.le_refl _⟩
  have hm := DB.mergeStep_of_levels h.steady.wf hi rfl
  refine ⟨hm.steady h.steady, h.flusher.mergeStep h.steady.settled hm, fun t c hc => ?_, h.apart⟩
  exact (h.compactions t c hc).undisturbed (DB.undisturbed_of_levels hi.options hi.next rfl c.lvl)

/-- The section that saves the manifest leaves the tables alone, and the ids that belong to the threads. -/
structure Saved (s s' : Sys) : Prop where
  options : s'.db.options = s.db.options
  sst : s'.db.sst = s.db.sst
  levels : s'.db.levels = s.db.levels
  next : s'.db.nextSstableId = s.db.nextSstableId
  owned : ∀ w, s'.owned w = s.owned w
  filed : ∀ w, s.Filed w → s'.Filed w

theorem saved_step (hs : s.saves a = true) : Saved s (s.step a) := by
  cases a with
  | write sync batch => cases hs
  | startCompact t lvl => cases hs
  | flush =>
    obtain ⟨db, f, cs⟩ := s
    cases f with
    | registered m => exact ⟨rfl, rfl, rfl, rfl, fun w => (by cases w <;> rfl), fun w h => (by cases w <;> exact h)⟩
    | _ => cases hs
  | compact t =>
    cases hc : s.compactions t with
    | none =>
      simp only [saves, hc] at hs
      cases hs
    | some c =>
      rw [step_compact hc]
      obtain ⟨lvl, inputsLvl, phase⟩ := c
      cases phase with
      | installed inputsNext =>
        have hothers := fun w => same_of_compact (s := s) (s.db.saveManifest false).1
          (some ⟨lvl, inputsLvl, .saved inputsNext⟩) (t := t) w
        refine ⟨rfl, rfl, rfl, rfl, fun w => ?_, fun w h => ?_⟩
        · by_cases hw : w = .compaction t
          · subst hw
            simp only [owned, setAt_self, hc, DB.compactStep]
            rfl
          · exact (hothers w hw).owned
        · cases w with
          | flusher => trivial
          | compaction t' =>
            intro c' hc'
            by_cases ht : t' = t
            · subst ht
              simp only [setAt_self, DB.compactStep] at hc'
              cases hc'
              trivial
            · have hc' : setAt s.compactions t _ t' = some c' := hc'
              rw [setAt_of_ne _ ht] at hc'
              exact h c' hc'
      | _ =>
        simp only [saves, hc] at hs
        cases hs

/-- The table files behind the section that saves the manifest. -/
theorem Files.saved {s' : Sys} (h : s.Files) (hs : Saved s s') (text : Bytes) : (s'.setManifest text).Files := by
  have hl : (s'.setManifest text).db.levels = s.db.levels := hs.levels
  have hd : (s'.setManifest text).db.sst = s.db.sst := hs.sst
  have hn : (s'.setManifest text).db.nextSstableId = s.db.nextSstableId := hs.next
  have ho : ∀ w, (s'.setManifest text).owned w = s.owned w := fun w => by
    rw [← hs.owned w]
    cases w <;> rfl
  refine ⟨?_, ?_, fun w id hm => ?_, fun w w' hne id hm => ?_, fun w => ?_⟩
  · rw [hl, hd]
    exact h.onDisk
  · rw [hl]
    exact h.unique
  · rw [ho] at hm
    rw [hl, hn]
    exact h.owned w id hm
  · rw [ho] at hm ⊢
    exact h.disjoint w w' hne id hm
  · have hw := hs.filed w (h.filed w)
    cases w with
    | flusher => trivial
    | compaction t => exact hw

end Sys

namespace SaveSys

variable {s : SaveSys} {a : Act} {w : Worker}

/-- The files of listed tables stay while the table files do. -/
theorem Lists.congr {db db' : DB} {next : Nat} {levels : Levels} (h : Lists db next levels)
    (ho : db'.options = db.options) (hd : db'.sst = db.sst) (hn : db.nextSstableId ≤ db'.nextSstableId) :
    Lists db' next levels :=
  ⟨hd ▸ h.onDisk, ho ▸ h.wf, h.ids, h.unique, h.next_le.trans hn⟩

/-- **The rename.** The tables of the snapshot are none of the inputs that are going to be deleted. -/
theorem Inv.rename (h : s.Inv) (hs : s.sys.saves a = true) (ha : s.sys.Apart a) {p : Nat × Levels}
    (hsnap : s.snapshot = some (w, p)) : ({
      sys := (s.sys.step a).setManifest (text s.sys.db.options p)
      counted := Function.update s.counted w none
      snapshot := none
      saved := some p } : SaveSys).Inv := by
  have hsv := Sys.saved_step hs
  obtain ⟨next, levels⟩ := p
  obtain ⟨hlists, hfree⟩ := h.snapshot w next levels hsnap
  have ho : (s.sys.step a).db.options = s.sys.db.options := hsv.options
  refine ⟨(h.sys.step ha).setManifest _, h.files.saved hsv _, fun w' next' hn => ?_, fun _ _ _ he => (by cases he),
    fun next' levels' he => ?_, ?_⟩
  · have hn : Function.update s.counted w none w' = some next' := hn
    by_cases hw : w' = w
    · subst hw
      rw [Function.update_self] at hn
      cases hn
    · rw [Function.update_of_ne hw] at hn
      show next' ≤ (s.sys.step a).db.nextSstableId ∧ ∀ l, ∀ info ∈ (s.sys.step a).db.levels l, info.tableMeta.fileId < next'
      rw [hsv.next, hsv.levels]
      exact h.counted w' next' hn
  · cases he
    refine ⟨hlists.congr hsv.options hsv.sst hsv.next.ge, fun w' id hm => hfree w' id ?_⟩
    have hm : id ∈ (s.sys.step a).touched w' := by
      cases w' <;> exact hm
    rw [← hsv.owned w']
    exact Sys.mem_owned_of_touched hm
  · show some (text s.sys.db.options (next, levels)) = some (text (s.sys.step a).db.options (next, levels))
    rw [ho]

/-- Listed tables behind a section that does not touch them. -/
theorem Lists.section {next : Nat} {levels : Levels} {s' : Sys} (h : Lists s.sys.db next levels)
    (hs : Sys.Section s.sys a s') (hfree : ∀ w, a.worker = some w → ∀ id ∈ s.sys.touched w, levels.Free id) :
    Lists s'.db next levels where
  onDisk := fun l info hi => hs.onDisk (h.onDisk l info hi) ((h.ids l info hi).trans_le h.next_le)
    fun w ha hm => hfree w ha _ hm l info hi rfl
  wf := hs.options ▸ h.wf
  ids := h.ids
  unique := h.unique
  next_le := h.next_le.trans hs.next

theorem Lists.free_of_le {db : DB} {next : Nat} {levels : Levels} (h : Lists db next levels) {id : Nat}
    (hid : db.nextSstableId ≤ id) : levels.Free id := by
  intro l info hi he
  have h₁ := h.ids l info hi
  have h₂ := h.next_le
  omega

/-- **A section** that takes its lock, if it needs one. -/
theorem Inv.section (h : s.Inv) (ht : s.Timely a) (hs : s.sys.saves a = false)
    (hlock : s.sys.locks a = true → s.snapshot = none) : ({ s with sys := s.sys.step a } : SaveSys).Inv := by
  have hsec := Sys.section_step h.sys h.files hs
  have hsame : ∀ w, a.worker ≠ some w → (s.sys.step a).owned w = s.sys.owned w ∧
      (s.sys.step a).touched w = s.sys.touched w := fun w ha => ⟨(hsec.others w ha).owned, (hsec.others w ha).touched⟩
  refine ⟨h.sys.step ht.1, h.files.step h.sys.steady.wf hsec, fun w next hn => ?_, fun w next levels he => ?_,
    fun next levels he => ?_, ?_⟩
  · -- the tables that are registered have ids below the counters that were read
    obtain ⟨hle, hids⟩ := h.counted w next hn
    refine ⟨hle.trans hsec.next, fun l info hi => ?_⟩
    obtain ⟨lvl, hl⟩ := hsec.levels
    rcases hl l info hi with hi | ⟨-, hreg, -, -⟩
    · exact hids l info hi
    · exact ht.2 (hlock (Sys.locks_of_registers hreg)) _ hreg w next hn
  · obtain ⟨hlists, hfree⟩ := h.snapshot w next levels he
    refine ⟨hlists.section hsec fun w' _ id hm => hfree w' id (Sys.mem_owned_of_touched hm), fun w' id hm => ?_⟩
    by_cases ha : a.worker = some w'
    · rcases (hsec.owned w' ha id hm).2.2 with hm | hm | ⟨hl, -⟩
      · exact hfree w' id hm
      · exact hlists.free_of_le hm
      · have he : s.snapshot = some (w, next, levels) := he
        rw [hlock hl] at he
        cases he
    · exact hfree w' id ((hsame w' ha).1 ▸ hm)
  · obtain ⟨hlists, hfree⟩ := h.saved next levels he
    refine ⟨hlists.section hsec fun w' _ => hfree w', fun w' id hm => ?_⟩
    by_cases ha : a.worker = some w'
    · rcases hsec.touched w' ha id hm with hm | hm
      · exact hfree w' id hm
      · exact hlists.free_of_le hm
    · exact hfree w' id ((hsame w' ha).2 ▸ hm)
  · show (s.sys.step a).db.manifest = s.saved.map (text (s.sys.step a).db.options)
    rw [hsec.manifest, hsec.options]
    exact h.manifest

/-- **A step.** -/
theorem Inv.step (h : s.Inv) (ht : s.Timely a) : (s.step a).Inv := by
  unfold SaveSys.step
  split
  · rename_i hs
    split
    · rename_i w ha
      unfold saveStep
      split
      · exact h.count w
      · rename_i next hn
        split
        · exact h.copy hn
        · rename_i owner p hsnap
          split
          · rename_i hw
            subst hw
            exact h.rename hs ht.1 hsnap
          · exact h
    · exact h
  · rename_i hs
    split
    · exact h
    · rename_i hlock
      refine h.section ht (Bool.not_eq_true _ ▸ hs) fun hl => ?_
      rw [hl, Bool.and_true, Bool.not_eq_true, Option.isSome_eq_false_iff, Option.isNone_iff_eq_none] at hlock
      exact hlock

theorem Inv.run : ∀ (acts : List Act) (s : SaveSys), s.Inv → Along Timely s acts → (s.run acts).Inv
  | [], _, h, _ => h
  | a :: acts, s, h, ha => Inv.run acts (s.step a) (h.step ha.1) ha.2

/-! ## Runs from an opening -/

/-- The manifest lists tables that are on disk, with ids below its counter, and reading it gives them back. -/
structure Sound (s : SaveSys) : Prop where
  manifest : s.sys.db.manifest = s.saved.map (text s.sys.db.options)
  lists : ∀ next levels, s.saved = some (next, levels) → Lists s.sys.db next levels
  loads : ∀ next levels, s.saved = some (next, levels) → Listable levels → next < 2 ^ 32 →
    s.sys.db.options.maxSstableLevels < 2 ^ 31 →
    DB.loadManifest s.sys.db.disk s.sys.db.options.maxSstableLevels = .ok (next, levels)

theorem Inv.sound (h : s.Inv) : s.Sound := by
  refine ⟨h.manifest, fun next levels he => (h.saved next levels he).1, fun next levels he hl hn hmax => ?_⟩
  have hlists := (h.saved next levels he).1
  have hd : Described s.sys.db.options s.sys.db.disk levels next :=
    ⟨Or.inr (h.manifest.trans (by rw [he]; rfl)), hlists.onDisk, hlists.wf, hlists.ids, hlists.unique⟩
  exact hd.loadManifest_listable hn hmax hl

/-- A directory that was opened is described by its manifest. -/
theorem described_of_opens {db : DB} (h : db.Opens) : Described db.options db.disk db.levels db.nextSstableId := by
  cases h with
  | @fresh o ho =>
    exact ⟨Or.inl ⟨rfl, rfl, rfl⟩, fun l info hi => absurd hi List.not_mem_nil, (DB.inv_fresh ho).wf.levels,
      fun l info hi => absurd hi List.not_mem_nil, fun l l' a b hi => absurd hi List.not_mem_nil⟩
  | reopened hd hl f hs hok => exact ((DB.openDB_spec hd hl f hs).1.opened hok).logged.described

theorem inv_start {db : DB} (h : db.Opens) : (start db).Inv := by
  have hd := described_of_opens h
  have hwf := h.spec.1.wf
  have hown : ∀ w id, id ∉ (start db).sys.owned w := fun w _ hm => by cases w <;> exact absurd hm List.not_mem_nil
  refine ⟨Sys.inv_start h.spec.1, ⟨hd.onDisk, hd.unique, fun w id hm => absurd hm (hown w id),
    fun w w' _ id hm => absurd hm (hown w id), fun w => ?_⟩, fun w next hn => (by cases hn), fun w next levels he => (by cases he),
    fun next levels he => ?_, ?_⟩
  · cases w with
    | flusher => trivial
    | compaction t =>
      intro c hc
      cases hc
  · have he : db.manifest.map (fun _ => (db.nextSstableId, db.levels)) = some (next, levels) := he
    obtain ⟨-, -, he⟩ := Option.map_eq_some_iff.mp he
    cases he
    exact ⟨⟨hd.onDisk, hd.wf, hd.ids, hd.unique, Nat.le_refl _⟩,
      fun w id hm => absurd (Sys.mem_owned_of_touched hm) (hown w id)⟩
  · show db.manifest = (db.manifest.map fun _ => (db.nextSstableId, db.levels)).map (text db.options)
    rcases hd.manifest with ⟨he, -, -⟩ | he
    · have he : db.manifest = none := he
      rw [he]
      rfl
    · have he : db.manifest = some _ := he
      rw [he]
      rfl

/-- **The manifest is sound** in every state of a run in which no table is registered whose id is not below a counter that
another thread has read for its next manifest. -/
theorem manifest_sound {db : DB} (h : db.Opens) (acts : List Act) (hs : Along Timely (start db) acts) :
    ((start db).run acts).Sound := (Inv.run acts _ (inv_start h) hs).sound

theorem timely_of_nil {s : SaveSys} {a : Act} (h : s.sys.registers a = []) (ha : s.sys.Apart a) : s.Timely a :=
  ⟨ha, fun _ _ hm => absurd hm (h ▸ List.not_mem_nil)⟩

/-- A flush that saves its table. -/
theorem manifest_sound_sample : ((start (DB.fresh { memtableSizeLimit := 1 })).run
    [.write true [.put [1] [7]], .flush, .flush, .flush, .flush, .flush, .flush]).Sound :=
  manifest_sound (.fresh (by decide)) _ ⟨timely_of_nil rfl trivial, timely_of_nil rfl trivial, timely_of_nil rfl trivial,
    ⟨trivial, fun _ _ _ _ _ hn => nomatch hn⟩, timely_of_nil rfl trivial, timely_of_nil rfl trivial,
    timely_of_nil rfl trivial, trivial⟩

/-- **A table between the counter and the snapshot**: a compaction reads the counter for its manifest, a flush allocates and
registers the table 3, and the manifest of the compaction lists the table 3 as well as the next id 3. -/
theorem stale_counter :
    let s := (start (DB.fresh { memtableSizeLimit := 1 })).run
      ([.write true [.put [1] [7]], .flush, .flush, .flush, .flush, .flush, .flush, .flush, .write true [.put [2] [8]],
        .startCompact 0 0, .compact 0, .compact 0, .compact 0, .compact 0, .compact 0, .compact 0, .flush, .flush, .flush,
        .compact 0, .compact 0])
    (s.saved.map fun p => (p.1, (p.2 0).map fun info => info.tableMeta.fileId)) = some (3, [3]) ∧ ¬s.Sound := by
  intro s
  have hsaved : (s.saved.map fun p => (p.1, (p.2 0).map fun info => info.tableMeta.fileId)) = some (3, [3]) := by
    decide +kernel
  refine ⟨hsaved, fun h => ?_⟩
  obtain ⟨⟨next, levels⟩, hs, he⟩ := Option.map_eq_some_iff.mp hsaved
  obtain ⟨hnext, htables⟩ := Prod.mk.inj he
  obtain ⟨info, hi, hid⟩ := List.mem_map.mp (htables ▸ List.mem_singleton.mpr rfl : 3 ∈ (levels 0).map fun info =>
    info.tableMeta.fileId)
  have hlt := (h.lists next levels hs).ids 0 info hi
  rw [hid] at hlt
  have hnext : next = 3 := hnext
  omega

end SaveSys

end SplitKV
