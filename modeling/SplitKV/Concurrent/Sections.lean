import SplitKV.Concurrent.Files

/-!
# The table files behind each section

Every section of the writers, the flush and the compactions but the one that saves the manifest is as `Sys.Section` says
(`Sys.section_step`).
-/

namespace SplitKV

open Assoc Levels

namespace Sys

variable {s s' : Sys} {a : Act}

/-- A section that neither registers nor removes tables. -/
theorem section_quiet (hf : s.Files) (hw : s.db.Wf) (ho : s'.db.options = s.db.options)
    (hm : s'.db.manifest = s.db.manifest) (hn : s.db.nextSstableId ≤ s'.db.nextSstableId)
    (hk : KeepsOthers s.db.nextSstableId (s.changed a) s.db.sst s'.db.sst) (hl : s'.db.levels = s.db.levels)
    (hothers : ∀ w, a.worker ≠ some w → Same s s' w)
    (howned : ∀ w, a.worker = some w → ∀ id ∈ s'.owned w, id ∈ s.owned w ∨
      s.db.nextSstableId ≤ id ∧ id < s'.db.nextSstableId)
    (htouched : ∀ w, a.worker = some w → ∀ id ∈ s'.touched w, id ∈ s.touched w ∨ s.db.nextSstableId ≤ id)
    (hfiled : ∀ w, a.worker = some w → s'.Filed w) : Section s a s' where
  options := ho
  manifest := hm
  next := hn
  keeps := hk
  levels := ⟨0, fun l info hi => Or.inl (hl ▸ hi)⟩
  others := hothers
  owned := fun w ha id hm => by
    rw [hl]
    rcases howned w ha id hm with hm | ⟨h₁, h₂⟩
    · exact ⟨(hf.owned w id hm).1.trans_le hn, (hf.owned w id hm).2, Or.inl hm⟩
    · exact ⟨h₂, fun l info hi => by have := hw.ids l info hi; omega, Or.inr (Or.inl h₁)⟩
  touched := htouched
  filed := hfiled

theorem section_write (hf : s.Files) (hw : s.db.Wf) (sync : Bool) (batch : WriteBatch) :
    Section s (.write sync batch) (s.step (.write sync batch)) := by
  have ht := (DB.write_logSteps s.db sync batch {}).sameTables
  have hsst : (s.step (.write sync batch)).db.sst = s.db.sst := ht.sst
  refine section_quiet hf hw ht.options ht.manifest ht.next.ge ?_ ht.levels ?_ (fun w h => by cases h) (fun w h => by cases h)
    fun w h => by cases h
  · rw [hsst]
    exact .refl _ _ _
  · intro w _
    cases w <;> exact rfl

/-- The other threads behind a section of the flush. -/
theorem same_of_flush (db : DB) (f : Flusher) (w : Worker) (h : Act.flush.worker ≠ some w) :
    Same s { s with db := db, flusher := f } w := by
  cases w with
  | flusher => exact absurd rfl h
  | compaction t => exact rfl

/-- The flush of a table that has its id: its file is written, and it is registered. -/
theorem section_register {db : DB} {m : MemTable} {fileId : Nat} {cs : Nat → Option Compaction}
    (hi : Inv ⟨db, .allocated m fileId, cs⟩) :
    Section ⟨db, .allocated m fileId, cs⟩ .flush (step ⟨db, .allocated m fileId, cs⟩ .flush) := by
  obtain ⟨hq, hc, hlt, -⟩ := hi.flusher
  have hm := DB.valid_front hi.steady.wf hq
  obtain ⟨w, w', file, he, hwrote, hfin⟩ := (DB.writeTable_spec db.options hm.sorted {}).1 ⟨fun _ _ => rfl, rfl⟩
  have hcounts : w.Counts := ⟨by rw [hwrote.numEntries, hwrote.entries], by rw [hwrote.offset, hwrote.dataOffset]⟩
  have hdisk := hcounts.onDisk hfin (show fileId ∈ (db.sst.create fileId none).dir from
    Folder.mem_dir_create.mpr (Or.inl rfl)) 0
  have hid : (w'.tableMeta fileId 0).fileId = fileId := rfl
  simp only [step, DB.flushStep, he]
  refine ⟨rfl, rfl, Nat.le_refl _, fun id hid hn hd => ?_, ⟨0, fun l info hinfo => ?_⟩, same_of_flush _ _, ?_, ?_, ?_⟩
  · have hne : id ≠ fileId := fun e => hn (e ▸ List.mem_singleton.mpr rfl)
    have hdir : id ∈ (db.sst.create fileId none).dir := Folder.mem_dir_create.mpr (Or.inr hd)
    exact ⟨hdir, (Folder.data_write_of_ne _ hne _).trans (Folder.data_create_of_ne _ hne _)⟩
  · have hinfo : info ∈ setAt db.levels 0 (db.levels 0 ++ [⟨w'.tableMeta fileId 0, .openFile file⟩]) l := hinfo
    by_cases hl : l = 0
    · subst hl
      rw [setAt_self] at hinfo
      rcases List.mem_append.mp hinfo with hinfo | hinfo
      · exact Or.inl hinfo
      · rw [List.mem_singleton.mp hinfo]
        exact Or.inr ⟨rfl, List.mem_singleton.mpr hid, List.mem_singleton.mpr hid, hdisk⟩
    · rw [setAt_of_ne _ hl] at hinfo
      exact Or.inl hinfo
  · rintro w ⟨⟩ id hm
    exact absurd hm List.not_mem_nil
  · rintro w ⟨⟩ id hm
    exact absurd hm List.not_mem_nil
  · rintro w ⟨⟩
    trivial

/-- **A section of the flush.** -/
theorem section_flush (hi : s.Inv) (hf : s.Files) (hs : s.saves .flush = false) :
    Section s .flush (s.step .flush) := by
  obtain ⟨db, f, cs⟩ := s
  have hw : db.Wf := hi.steady.wf
  have hquiet : ∀ (db' : DB) (f' : Flusher), db'.options = db.options → db'.manifest = db.manifest →
      db.nextSstableId ≤ db'.nextSstableId → db'.sst = db.sst → db'.levels = db.levels →
      (∀ id ∈ f'.owned, id ∈ f.owned ∨ db.nextSstableId ≤ id ∧ id < db'.nextSstableId) →
      Section ⟨db, f, cs⟩ .flush ⟨db', f', cs⟩ := by
    intro db' f' ho hm hn hsst hl hown
    refine section_quiet hf hw ho hm hn (hsst ▸ .refl _ _ _) hl (same_of_flush db' f') ?_ ?_ ?_
    · rintro w ⟨⟩
      exact hown
    · rintro w ⟨⟩ id hm
      exact (hown id hm).imp_right And.left
    · rintro w ⟨⟩
      trivial
  cases f with
  | idle =>
    simp only [step, DB.flushStep]
    cases db.immutableMemtables with
    | nil => exact hquiet db .idle rfl rfl (Nat.le_refl _) rfl rfl fun id hm => absurd hm List.not_mem_nil
    | cons m ms => exact hquiet db (.taken m) rfl rfl (Nat.le_refl _) rfl rfl fun id hm => absurd hm List.not_mem_nil
  | taken m =>
    simp only [step, DB.flushStep]
    split
    · exact hquiet db (.flushed m) rfl rfl (Nat.le_refl _) rfl rfl fun id hm => absurd hm List.not_mem_nil
    · refine hquiet _ (.allocated m db.nextSstableId) rfl rfl (Nat.le_succ _) rfl rfl fun id hm => ?_
      rw [List.mem_singleton.mp hm]
      exact Or.inr ⟨Nat.le_refl _, Nat.lt_succ_self _⟩
  | allocated m fileId => exact section_register hi
  | registered m => cases hs
  | flushed m =>
    exact hquiet db.popFront .idle rfl rfl (Nat.le_refl _) rfl rfl fun id hm => absurd hm List.not_mem_nil

/-! ## Compactions -/

/-- The other threads behind a section of a compaction. -/
theorem same_of_compact (db : DB) {t : Nat} (c : Option Compaction) (w : Worker) (h : w ≠ .compaction t) :
    Same s { s with db := db, compactions := setAt s.compactions t c } w := by
  cases w with
  | flusher => exact rfl
  | compaction t' =>
    have ht : t' ≠ t := fun e => h (e ▸ rfl)
    exact setAt_of_ne _ ht _

theorem mem_owned_setAt {db : DB} {t : Nat} {c : Option Compaction} {id : Nat}
    (h : id ∈ ({ s with db := db, compactions := setAt s.compactions t c } : Sys).owned (.compaction t)) :
    ∃ c₁, c = some c₁ ∧ id ∈ c₁.owned := by
  cases c with
  | none =>
    simp only [owned, setAt_self] at h
    exact absurd h List.not_mem_nil
  | some c =>
    simp only [owned, setAt_self] at h
    exact ⟨c, rfl, h⟩

theorem mem_touched_setAt {db : DB} {t : Nat} {c : Option Compaction} {id : Nat}
    (h : id ∈ ({ s with db := db, compactions := setAt s.compactions t c } : Sys).touched (.compaction t)) :
    ∃ c₁, c = some c₁ ∧ id ∈ c₁.touched := by
  cases c with
  | none =>
    simp only [touched, setAt_self] at h
    exact absurd h List.not_mem_nil
  | some c =>
    simp only [touched, setAt_self] at h
    exact ⟨c, rfl, h⟩

/-- A compaction that goes on with the tables as they are; what it has written is on disk. -/
theorem section_goes (hf : s.Files) (hw : s.db.Wf) {t : Nat} {c : Compaction} (hc : s.compactions t = some c) {db' : DB}
    {c' : Option Compaction} (ht : s.db.OnlyTables db') (hk : KeepsOthers s.db.nextSstableId c.touched s.db.sst db'.sst)
    (howned : ∀ c₁, c' = some c₁ → ∀ id ∈ c₁.owned, id ∈ c.touched ∨ s.db.nextSstableId ≤ id ∧ id < db'.nextSstableId)
    (hfiled : ∀ c₁, c' = some c₁ → c₁.Filed db'.sst) :
    Section s (.compact t) { s with db := db', compactions := setAt s.compactions t c' } := by
  have hown : s.owned (.compaction t) = c.owned := by simp only [owned, hc]
  have htou : s.touched (.compaction t) = c.touched := by simp only [touched, hc]
  have hmanifest : db'.manifest = s.db.manifest := by rw [ht.same]
  refine section_quiet hf hw ht.onlyIndex.options hmanifest ht.next ?_ ht.levels ?_ ?_ ?_ ?_
  · show KeepsOthers s.db.nextSstableId (s.touched (.compaction t)) s.db.sst db'.sst
    rw [htou]
    exact hk
  · exact fun w ha => same_of_compact db' c' w fun e => ha (congrArg some e.symm)
  · rintro w ⟨⟩ id hm
    obtain ⟨c₁, he, hm⟩ := mem_owned_setAt hm
    rw [hown]
    exact (howned c₁ he id hm).imp_left Compaction.mem_owned_of_touched
  · rintro w ⟨⟩ id hm
    obtain ⟨c₁, he, hm⟩ := mem_touched_setAt hm
    rw [htou]
    exact (howned c₁ he id (Compaction.mem_owned_of_touched hm)).imp_right And.left
  · rintro w ⟨⟩ c₁ he
    have he : setAt s.compactions t c' t = some c₁ := he
    rw [setAt_self] at he
    exact hfiled c₁ he

/-- The start of a compaction. -/
theorem section_startCompact (hf : s.Files) (hw : s.db.Wf) (t : Nat) (lvl : Int) :
    Section s (.startCompact t lvl) (s.step (.startCompact t lvl)) := by
  cases hc : s.compactions t with
  | some c =>
    rw [step_startCompact_running hc]
    exact section_quiet hf hw rfl rfl (Nat.le_refl _) (.refl _ _ _) rfl (fun w _ => .refl _ _) (fun w _ id hm => Or.inl hm)
      (fun w _ id hm => Or.inl hm) fun w _ => hf.filed w
  | none =>
    rw [step_startCompact hc]
    have hnew : ∀ c, s.db.startCompact lvl = some c → c.phase = .selected := by
      intro c h
      unfold DB.startCompact at h
      split at h
      · cases h
      · split at h
        · cases h
        · cases h
          rfl
    refine section_quiet hf hw rfl rfl (Nat.le_refl _) (.refl _ _ _) rfl
      (fun w ha => same_of_compact s.db _ w fun e => ha (congrArg some e.symm)) ?_ ?_ ?_
    · rintro w ⟨⟩ id hm
      obtain ⟨c, he, hm⟩ := mem_owned_setAt hm
      rw [Compaction.owned, hnew c he] at hm
      exact absurd hm List.not_mem_nil
    · rintro w ⟨⟩ id hm
      obtain ⟨c, he, hm⟩ := mem_touched_setAt hm
      have hm := Compaction.mem_owned_of_touched hm
      rw [Compaction.owned, hnew c he] at hm
      exact absurd hm List.not_mem_nil
    · rintro w ⟨⟩ c he
      have he : setAt s.compactions t (s.db.startCompact lvl) t = some c := he
      rw [setAt_self] at he
      rw [Compaction.Filed, hnew c he]
      trivial

/-- The installation: the outputs are registered, and the ids of the inputs belong to the compaction. -/
theorem section_install (hi : s.Inv) (hf : s.Files) {t lvl : Nat} {inputsLvl inputsNext outputs : List SSTableInfo}
    (hc : s.compactions t = some ⟨lvl, inputsLvl, .merged inputsNext outputs⟩) :
    Section s (.compact t) { s with
      db := s.db.installed lvl inputsLvl inputsNext outputs
      compactions := setAt s.compactions t (some ⟨lvl, inputsLvl, .installed inputsNext⟩) } := by
  have hw := hi.steady.wf
  have h : Installable s.db lvl inputsLvl inputsNext outputs := hi.compactions t _ hc
  have hdisk : ∀ info ∈ outputs, OnDisk s.db.sst (lvl + 1) info := hf.filed (.compaction t) _ hc
  have hown : s.owned (.compaction t) = outputs.map fun info => info.tableMeta.fileId := by
    simp only [owned, hc]
    rfl
  have hreg : s.registers (.compact t) = outputs.map fun info => info.tableMeta.fileId := by
    simp only [registers, hc]
    rfl
  have hchanged : s.changed (.compact t) = outputs.map fun info => info.tableMeta.fileId := by
    show s.touched (.compaction t) = _
    simp only [touched, hc]
    rfl
  obtain ⟨newer, hlvl, -⟩ := h.lvlTables
  have hinputs : ∀ input ∈ inputsLvl ++ inputsNext, (input ∈ inputsLvl ∧ input ∈ s.db.levels lvl) ∨
      (input ∈ inputsNext ∧ input ∈ s.db.levels (lvl + 1)) := by
    intro input hm
    rcases List.mem_append.mp hm with hm | hm
    · exact Or.inl ⟨hm, hlvl ▸ List.mem_append_left _ hm⟩
    · have hn := hm
      rw [h.next] at hn
      exact Or.inr ⟨hm, (List.mem_filter.mp hn).1⟩
  have hold : ∀ input ∈ inputsLvl ++ inputsNext, ∃ l, input ∈ s.db.levels l := fun input hm =>
    (hinputs input hm).elim (fun h => ⟨_, h.2⟩) fun h => ⟨_, h.2⟩
  refine ⟨rfl, rfl, Nat.le_refl _, .refl _ _ _, ⟨lvl + 1, fun l info hm => ?_⟩,
    fun w ha => same_of_compact _ _ w fun e => ha (congrArg some e.symm), ?_, ?_, ?_⟩
  · rcases mem_install_or hm with hm | ⟨hl, ho⟩
    · exact Or.inl hm
    · subst hl
      rw [hreg, hchanged]
      exact Or.inr ⟨rfl, List.mem_map_of_mem ho, List.mem_map_of_mem ho, hdisk info ho⟩
  · rintro w ⟨⟩ id hm
    obtain ⟨c₁, he, hm⟩ := mem_owned_setAt hm
    cases he
    obtain ⟨input, hin, rfl⟩ := List.mem_map.mp hm
    obtain ⟨l, hl⟩ := hold input hin
    refine ⟨hw.ids l input hl, fun l' info hinfo he => ?_, Or.inr (Or.inr ⟨?_, l, input, hl, rfl⟩)⟩
    · -- a table that is still there is none of the inputs
      rcases mem_install hw.levels hinfo with ⟨hinfo, h₁, h₂⟩ | ⟨-, ho⟩
      · have hno : ∀ inputs : List SSTableInfo, input ∈ inputs → notInput inputs info = true → False := by
          intro inputs hmem hno
          have := List.all_eq_true.mp hno input hmem
          rw [he] at this
          simp at this
        rcases hinputs input hin with ⟨hin, hl⟩ | ⟨hin, hl⟩
        · exact hno inputsLvl hin (h₁ (hf.unique l' lvl info input hinfo hl he))
        · exact hno inputsNext hin (h₂ (hf.unique l' (lvl + 1) info input hinfo hl he))
      · have howned : info.tableMeta.fileId ∈ s.owned (.compaction t) := hown ▸ List.mem_map_of_mem ho
        exact (hf.owned _ _ howned).2 l input hl he.symm
    · simp only [locks, hc]
      rfl
  · rintro w ⟨⟩ id hm
    obtain ⟨c₁, he, hm⟩ := mem_touched_setAt hm
    cases he
    exact absurd hm List.not_mem_nil
  · rintro w ⟨⟩ c₁ he
    have he : setAt s.compactions t (some ⟨lvl, inputsLvl, .installed inputsNext⟩) t = some c₁ := he
    rw [setAt_self] at he
    cases he
    trivial

/-- The end of the merge: the last table is finished. -/
theorem section_finish (hi : s.Inv) (hf : s.Files) {t lvl : Nat} {inputsLvl inputsNext : List SSTableInfo} {st : MergeState}
    (hc : s.compactions t = some ⟨lvl, inputsLvl, .merging inputsNext st⟩) (hpick : st.pick = none) :
    Section s (.compact t) (s.step (.compact t)) := by
  have hp : Pending s.db.sst lvl st := hf.filed (.compaction t) _ hc
  have hm : Merging s.db lvl inputsLvl inputsNext st := hi.compactions t _ hc
  obtain ⟨lo, hids, -⟩ := hm.ids
  rw [step_compact hc]
  obtain ⟨st', hst, ht, -⟩ := hm.finish hpick
  obtain ⟨hkeep, hout⟩ := hp.finish hids
  obtain ⟨dropped, hmerge⟩ := hm.merge
  have hend := ((hmerge.finish hpick s.db .none lvl).2.1 st' (by rw [hst])).2
  simp only [DB.compactStep, hpick]
  rw [hst] at hout ⊢
  refine section_goes hf hi.steady.wf hc ht hkeep ?_ ?_
  · rintro _ ⟨⟩ id hm
    have hm : id ∈ st'.outputs.map fun info => info.tableMeta.fileId := hm
    rw [hend] at hm
    exact Or.inl hm
  · rintro _ ⟨⟩
    exact hout st' rfl

/-- A round of the merge on the entry that was checked. -/
theorem section_round (hi : s.Inv) (hf : s.Files) {t lvl : Nat} {inputsLvl inputsNext : List SSTableInfo} {st : MergeState}
    {key : Key} {e : InternalEntry} {drop : Bool}
    (hc : s.compactions t = some ⟨lvl, inputsLvl, .checked inputsNext st key e drop⟩) :
    Section s (.compact t) (s.step (.compact t)) := by
  have hp : Pending s.db.sst lvl st := hf.filed (.compaction t) _ hc
  obtain ⟨hm, hpick, hd⟩ := (hi.compactions t _ hc : Merging s.db lvl inputsLvl inputsNext st ∧ _)
  obtain ⟨lo, hids, -⟩ := hm.ids
  rw [step_compact hc]
  obtain ⟨st', hst, ht, -⟩ := hm.round hpick hd
  obtain ⟨hkeep, hout⟩ := hp.round hids key e drop
  obtain ⟨dropped, hmerge⟩ := hm.merge
  have hstep := ((hmerge.round s.db .none lvl hpick hd fun _ _ => trivial).2.1 st' (by rw [hst])).2.1
  simp only [DB.compactStep]
  rw [hst] at hout ⊢
  refine section_goes hf hi.steady.wf hc ht hkeep ?_ ?_
  · rintro _ ⟨⟩ id hm
    have hm : id ∈ st'.ids := hm
    rcases hstep with he | ⟨he, hn⟩
    · rw [he] at hm
      exact Or.inl hm
    · rw [he] at hm
      rcases List.mem_append.mp hm with hm | hm
      · exact Or.inl hm
      · rw [List.mem_singleton.mp hm]
        exact Or.inr ⟨Nat.le_refl _, by rw [hn]; exact Nat.lt_succ_self _⟩
  · rintro _ ⟨⟩
    exact hout st' rfl

/-- **A section of a compaction.** -/
theorem section_compact (hi : s.Inv) (hf : s.Files) {t : Nat} (hs : s.saves (.compact t) = false) :
    Section s (.compact t) (s.step (.compact t)) := by
  have hw := hi.steady.wf
  cases hc : s.compactions t with
  | none =>
    rw [step_compact_none hc]
    exact section_quiet hf hw rfl rfl (Nat.le_refl _) (.refl _ _ _) rfl (fun w _ => .refl _ _) (fun w _ id hm => Or.inl hm)
      (fun w _ id hm => Or.inl hm) fun w _ => hf.filed w
  | some c =>
    rw [step_compact hc]
    have hinv := hi.compactions t c hc
    have hfiled := hf.filed (.compaction t) c hc
    obtain ⟨lvl, inputsLvl, phase⟩ := c
    cases phase with
    | selected =>
      obtain ⟨its, hits, -⟩ := Selected.open hinv hw
      simp only [DB.compactStep, hits]
      refine section_goes hf hw hc (.refl _) (.refl _ _ _) ?_ ?_
      · rintro _ ⟨⟩ id hm
        exact absurd hm List.not_mem_nil
      · rintro _ ⟨⟩
        refine ⟨fun info hm => absurd hm List.not_mem_nil, fun fileId w he => ?_⟩
        cases he
    | merging inputsNext st =>
      have hp : Pending s.db.sst lvl st := hfiled
      cases hpick : st.pick with
      | some x =>
        obtain ⟨key, e⟩ := x
        simp only [DB.compactStep, hpick]
        refine section_goes hf hw hc (.refl _) (.refl _ _ _) ?_ ?_
        · rintro _ ⟨⟩ id hm
          exact Or.inl hm
        · rintro _ ⟨⟩
          exact hp
      | none =>
        have hend := section_finish hi hf hc hpick
        rwa [step_compact hc] at hend
    | checked inputsNext st key e drop =>
      have hround := section_round hi hf hc
      rwa [step_compact hc] at hround
    | merged inputsNext outputs => exact section_install hi hf hc
    | installed inputsNext =>
      simp only [saves, hc] at hs
      cases hs
    | saved inputsNext =>
      simp only [DB.compactStep]
      refine section_goes hf hw hc ⟨rfl, Nat.le_refl _⟩ (fun id _ hn hd => ?_) ?_ ?_
      · have hdel := DB.mem_dir_deleteInputs s.db .none (inputsLvl ++ inputsNext) hd fun input hin he =>
          hn (he ▸ List.mem_map_of_mem hin)
        exact ⟨hdel.1, congrFun hdel.2 id⟩
      · rintro _ ⟨⟩
      · rintro _ ⟨⟩

/-- **Every section** but the one that saves the manifest. -/
theorem section_step (hi : s.Inv) (hf : s.Files) (hs : s.saves a = false) : Section s a (s.step a) := by
  cases a with
  | write sync batch => exact section_write hf hi.steady.wf sync batch
  | flush => exact section_flush hi hf hs
  | startCompact t lvl => exact section_startCompact hf hi.steady.wf t lvl
  | compact t => exact section_compact hi hf hs

end Sys

end SplitKV
