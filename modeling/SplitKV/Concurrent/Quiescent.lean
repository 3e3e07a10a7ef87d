import SplitKV.Concurrent.Durable

/-!
# No table file is left over

Every table file is registered, or belongs to a thread that is writing or deleting it, or nobody knew it when the database
was opened. When no thread is between the registration of tables and its manifest, the manifest on disk lists exactly the
registered tables (`SaveSys.tables_accounted`).
-/

namespace SplitKV

open Assoc Levels

/-- Some table has the id. -/
def Levels.Has (levels : Levels) (id : Nat) : Prop := ∃ l, ∃ info ∈ levels l, info.tableMeta.fileId = id

/-! ## Files and tables of a compaction -/

/-- A table that is installed away is an input. -/
theorem Levels.has_install {levels : Levels} {maxLevels : Nat} (hw : levels.Wf maxLevels) (lvl : Nat)
    (inputsLvl inputsNext outputs : List SSTableInfo) {id : Nat} (h : levels.Has id) :
    (levels.install lvl inputsLvl inputsNext outputs).Has id ∨
      id ∈ (inputsLvl ++ inputsNext).map fun info => info.tableMeta.fileId := by
  obtain ⟨l, info, hi, rfl⟩ := h
  have hinput : ∀ inputs : List SSTableInfo, notInput inputs info = false →
      info.tableMeta.fileId ∈ inputs.map fun info => info.tableMeta.fileId := by
    intro inputs hn
    obtain ⟨input, hm, he⟩ := List.all_eq_false.mp hn
    have he : info.tableMeta.fileId = input.tableMeta.fileId := by simpa using he
    exact he ▸ List.mem_map_of_mem hm
  rw [List.map_append, List.mem_append]
  by_cases h₁ : l = lvl
  · subst h₁
    cases hn : notInput inputsLvl info with
    | false => exact Or.inr (Or.inl (hinput inputsLvl hn))
    | true =>
      refine Or.inl ⟨l, info, ?_, rfl⟩
      rw [install_lvl, foldl_eraseInput (hw.ids l)]
      exact List.mem_filter.mpr ⟨hi, hn⟩
  · by_cases h₂ : l = lvl + 1
    · subst h₂
      cases hn : notInput inputsNext info with
      | false => exact Or.inr (Or.inr (hinput inputsNext hn))
      | true =>
        refine Or.inl ⟨lvl + 1, info, ?_, rfl⟩
        rw [install_next, foldl_eraseInput (hw.ids (lvl + 1))]
        exact (perm_sortBySmallest _).mem_iff.mpr (List.mem_append_left _ (List.mem_filter.mpr ⟨hi, hn⟩))
    · refine Or.inl ⟨l, info, ?_, rfl⟩
      rwa [install_of_ne h₁ h₂]

/-- The outputs are installed. -/
theorem Levels.has_outputs (levels : Levels) (lvl : Nat) (inputsLvl inputsNext : List SSTableInfo)
    {outputs : List SSTableInfo} {id : Nat} (h : id ∈ outputs.map fun info => info.tableMeta.fileId) :
    (levels.install lvl inputsLvl inputsNext outputs).Has id := by
  obtain ⟨info, ho, rfl⟩ := List.mem_map.mp h
  refine ⟨lvl + 1, info, ?_, rfl⟩
  rw [install_next]
  exact (perm_sortBySmallest _).mem_iff.mpr (List.mem_append_right _ ho)

namespace DB

variable {db : DB} {f : CompactFaults} {lvl : Nat} {st st' : MergeState}

theorem dir_finishOutput (db : DB) (f : CompactFaults) (lvl : Nat) (st : MergeState) (fileId : Nat) (w : SSTableWriter) :
    (db.finishOutput f lvl st fileId w).1.sst.dir = db.sst.dir := by
  unfold finishOutput
  split
  · rfl
  · split
    · rfl
    · simp only
      split <;> rfl

theorem ids_finishOutput {fileId : Nat} {w : SSTableWriter}
    (h : (db.finishOutput f lvl st fileId w).2 = .ok st') : fileId ∈ st'.ids := by
  unfold finishOutput at h
  split at h
  · cases h
  · split at h
    · cases h
    · simp only at h
      split at h
      · cases h
      · cases h
        simp [MergeState.ids, SSTableWriter.tableMeta]

/-- An entry goes to the file that is being written, or to a new one, which belongs to the merge. -/
theorem dir_putEntry {key : Key} {e : InternalEntry} (h : (db.putEntry f lvl st key e).2 = .ok st') {id : Nat}
    (hid : id ∈ (db.putEntry f lvl st key e).1.sst.dir) : id ∈ db.sst.dir ∨ id ∈ st'.ids := by
  have hcur : ∀ fileId w, (db.currentWriter f st).2 = .ok (fileId, w) → id ∈ (db.currentWriter f st).1.sst.dir →
      id ∈ db.sst.dir ∨ id = fileId := by
    intro fileId w
    unfold currentWriter
    split
    · exact fun _ hm => Or.inl hm
    · simp only
      split
      · intro h
        cases h
      · intro h hm
        cases h
        exact (Folder.mem_dir_create.mp hm).symm
  unfold putEntry at h hid
  generalize db.currentWriter f st = x at h hid hcur
  obtain ⟨db₁, r⟩ := x
  cases r with
  | error s => cases h
  | ok p =>
    obtain ⟨fileId, w⟩ := p
    simp only at h hid
    split at h
    · cases h
    · rename_i hadd
      rw [if_neg hadd] at hid
      cases hw : w.add key e with
      | error s =>
        rw [hw] at h
        cases h
      | ok w' =>
        simp only [hw] at h hid
        split at h
        · rename_i hfull
          rw [if_pos hfull, dir_finishOutput] at hid
          rcases hcur fileId w rfl hid with hold | rfl
          · exact Or.inl hold
          · exact Or.inr (ids_finishOutput h)
        · rename_i hfull
          rw [if_neg hfull] at hid
          cases h
          rcases hcur fileId w rfl hid with hold | rfl
          · exact Or.inl hold
          · exact Or.inr (MergeState.mem_ids_writer rfl)

/-- A round creates a file for the merge, at most. -/
theorem dir_mergeRound {key : Key} {e : InternalEntry} {drop : Bool} (h : (db.mergeRound f lvl st key e drop).2 = .ok st')
    {id : Nat} (hid : id ∈ (db.mergeRound f lvl st key e drop).1.sst.dir) : id ∈ db.sst.dir ∨ id ∈ st'.ids := by
  unfold mergeRound at h hid
  split at h
  · rename_i hdrop
    rw [if_pos hdrop] at hid
    exact Or.inl hid
  · rename_i hdrop
    rw [if_neg hdrop] at hid
    have hput : ∀ st₁, (db.putEntry f lvl st key e).2 = .ok st₁ → id ∈ (db.putEntry f lvl st key e).1.sst.dir →
        id ∈ db.sst.dir ∨ id ∈ st₁.ids := fun _ h hid => dir_putEntry h hid
    generalize db.putEntry f lvl st key e = x at h hid hput
    obtain ⟨db₁, r⟩ := x
    cases r with
    | error s => cases h
    | ok st₁ =>
      cases h
      exact hput st₁ rfl hid

/-- The inputs are deleted, and nothing else. -/
theorem mem_dir_deleteInputs_iff (db : DB) (inputs : List SSTableInfo) {id : Nat} :
    id ∈ (db.deleteInputs .none inputs).sst.dir ↔
      id ∈ db.sst.dir ∧ id ∉ inputs.map fun info => info.tableMeta.fileId := by
  show id ∈ (inputs.foldl (fun sst info => sst.remove info.tableMeta.fileId) db.sst).dir ↔ _
  generalize db.sst = sst
  induction inputs generalizing sst with
  | nil => simp
  | cons input inputs ih =>
    rw [List.foldl_cons, ih, Folder.mem_dir_remove, List.map_cons, List.mem_cons, not_or, and_assoc]

end DB

/-! ## Accounts -/

namespace Sys

/-- Every table file is registered, or belongs to a thread, or is one of `old`. -/
def Accounted (s : Sys) (old : Nat → Prop) : Prop :=
  ∀ id ∈ s.db.sst.dir, s.db.levels.Has id ∨ (∃ w, id ∈ s.owned w) ∨ old id

/-- What a section does to the accounts: a file that appears is the thread's own or registered, a table that disappears and a
file that the thread gives up are accounted for. -/
structure Accounts (s : Sys) (a : Act) (s' : Sys) : Prop where
  dir : ∀ id ∈ s'.db.sst.dir, id ∈ s.db.sst.dir ∨ s'.db.levels.Has id ∨ ∃ w, a.worker = some w ∧ id ∈ s'.owned w
  levels : ∀ id, s.db.levels.Has id → s'.db.levels.Has id ∨ ∃ w, a.worker = some w ∧ id ∈ s'.owned w
  owned : ∀ w, a.worker = some w → ∀ id ∈ s.owned w, id ∈ s'.owned w ∨ s'.db.levels.Has id ∨ id ∉ s'.db.sst.dir
  others : ∀ w, a.worker ≠ some w → Same s s' w

variable {s s' : Sys} {a : Act} {old : Nat → Prop}

theorem Accounted.step (h : s.Accounted old) (ha : Accounts s a s') : s'.Accounted old := by
  intro id hid
  have hown : (∃ w, a.worker = some w ∧ id ∈ s'.owned w) → ∃ w, id ∈ s'.owned w := fun ⟨w, _, hm⟩ => ⟨w, hm⟩
  rcases ha.dir id hid with hd | hl | ho
  · rcases h id hd with hl | ⟨w, hm⟩ | ho
    · rcases ha.levels id hl with hl | ho
      · exact Or.inl hl
      · exact Or.inr (Or.inl (hown ho))
    · by_cases hw : a.worker = some w
      · rcases ha.owned w hw id hm with hm | hl | hn
        · exact Or.inr (Or.inl ⟨w, hm⟩)
        · exact Or.inl hl
        · exact absurd hid hn
      · exact Or.inr (Or.inl ⟨w, (ha.others w hw).owned ▸ hm⟩)
    · exact Or.inr (Or.inr ho)
  · exact Or.inl hl
  · exact Or.inr (Or.inl (hown ho))

/-- A section that keeps the tables, and whose thread gives nothing up. -/
theorem accounts_quiet (hd : s'.db.sst.dir = s.db.sst.dir) (hl : s'.db.levels = s.db.levels)
    (ho : ∀ w, a.worker = some w → ∀ id ∈ s.owned w, id ∈ s'.owned w) (hs : ∀ w, a.worker ≠ some w → Same s s' w) :
    Accounts s a s' where
  dir := fun _ hid => Or.inl (hd ▸ hid)
  levels := fun _ h => Or.inl (hl ▸ h)
  owned := fun w hw id hm => Or.inl (ho w hw id hm)
  others := hs

theorem accounts_write (sync : Bool) (batch : WriteBatch) :
    Accounts s (.write sync batch) (s.step (.write sync batch)) := by
  have ht := (DB.write_logSteps s.db sync batch {}).sameTables
  have hsst : (s.step (.write sync batch)).db.sst = s.db.sst := ht.sst
  refine accounts_quiet (by rw [hsst]) ht.levels (fun w h => by cases h) fun w _ => ?_
  cases w <;> exact rfl

/-- **A section of the flush.** -/
theorem accounts_flush (hi : s.Inv) : Accounts s .flush (s.step .flush) := by
  obtain ⟨db, f, cs⟩ := s
  have hquiet : ∀ (db' : DB) (f' : Flusher), db'.sst.dir = db.sst.dir → db'.levels = db.levels → f.owned = [] →
      Accounts ⟨db, f, cs⟩ .flush ⟨db', f', cs⟩ := by
    intro db' f' hd hl hf
    refine accounts_quiet hd hl ?_ (same_of_flush db' f')
    rintro w ⟨⟩ id hm
    have hm : id ∈ f.owned := hm
    rw [hf] at hm
    cases hm
  cases f with
  | idle =>
    simp only [step, DB.flushStep]
    cases db.immutableMemtables with
    | nil => exact hquiet db .idle rfl rfl rfl
    | cons m ms => exact hquiet db (.taken m) rfl rfl rfl
  | taken m =>
    simp only [step, DB.flushStep]
    split
    · exact hquiet db (.flushed m) rfl rfl rfl
    · exact hquiet _ (.allocated m db.nextSstableId) rfl rfl rfl
  | allocated m fileId =>
    obtain ⟨hq, -⟩ := hi.flusher
    have hm := DB.valid_front hi.steady.wf hq
    obtain ⟨-, w', file, he, -⟩ := (DB.writeTable_spec db.options hm.sorted {}).1 ⟨fun _ _ => rfl, rfl⟩
    simp only [step, DB.flushStep, he]
    have hreg : Levels.Has (setAt db.levels 0 (db.levels 0 ++ [⟨w'.tableMeta fileId 0, .openFile file⟩])) fileId :=
      ⟨0, ⟨w'.tableMeta fileId 0, .openFile file⟩, by rw [setAt_self]; exact List.mem_append_right _ List.mem_cons_self, rfl⟩
    refine ⟨fun id hid => ?_, fun id hl => Or.inl ?_, ?_, same_of_flush _ _⟩
    · rcases Folder.mem_dir_create.mp (show id ∈ (db.sst.create fileId none).dir from hid) with rfl | hd
      · exact Or.inr (Or.inl hreg)
      · exact Or.inl hd
    · obtain ⟨l, info, hinfo, rfl⟩ := hl
      refine ⟨l, info, ?_, rfl⟩
      show info ∈ setAt db.levels 0 (db.levels 0 ++ [⟨w'.tableMeta fileId 0, .openFile file⟩]) l
      by_cases h0 : l = 0
      · subst h0
        rw [setAt_self]
        exact List.mem_append_left _ hinfo
      · rwa [setAt_of_ne _ h0]
    · rintro w ⟨⟩ id hm
      obtain rfl := List.mem_singleton.mp (show id ∈ [fileId] from hm)
      exact Or.inr (Or.inl hreg)
  | registered m => exact hquiet _ (.flushed m) rfl rfl rfl
  | flushed m => exact hquiet db.popFront .idle rfl rfl rfl

/-! ### Compactions -/

/-- A compaction that goes on with the tables as they are. -/
theorem accounts_goes {t : Nat} {c : Compaction} (hc : s.compactions t = some c) {db' : DB} {c' : Option Compaction}
    (hl : db'.levels = s.db.levels) (hd : ∀ id ∈ db'.sst.dir, id ∈ s.db.sst.dir ∨ ∃ c₁, c' = some c₁ ∧ id ∈ c₁.owned)
    (ho : ∀ id ∈ c.owned, (∃ c₁, c' = some c₁ ∧ id ∈ c₁.owned) ∨ id ∉ db'.sst.dir) :
    Accounts s (.compact t) { s with db := db', compactions := setAt s.compactions t c' } := by
  have howned : ∀ id, (∃ c₁, c' = some c₁ ∧ id ∈ c₁.owned) →
      id ∈ ({ s with db := db', compactions := setAt s.compactions t c' } : Sys).owned (.compaction t) := by
    rintro id ⟨c₁, rfl, hm⟩
    simpa only [owned, setAt_self] using hm
  refine ⟨fun id hid => ?_, fun _ h => Or.inl (hl ▸ h), ?_,
    fun w ha => same_of_compact db' c' w fun e => ha (congrArg some e.symm)⟩
  · rcases hd id hid with hd | hn
    · exact Or.inl hd
    · exact Or.inr (Or.inr ⟨.compaction t, rfl, howned id hn⟩)
  · rintro w ⟨⟩ id hm
    have hm : id ∈ c.owned := by simpa only [owned, hc] using hm
    rcases ho id hm with hm | hn
    · exact Or.inl (howned id hm)
    · exact Or.inr (Or.inr hn)

/-- **A section of a compaction.** -/
theorem accounts_compact (hi : s.Inv) (t : Nat) : Accounts s (.compact t) (s.step (.compact t)) := by
  have hw := hi.steady.wf
  cases hc : s.compactions t with
  | none =>
    rw [step_compact_none hc]
    exact accounts_quiet rfl rfl (fun _ _ _ hm => hm) fun w _ => .refl _ _
  | some c =>
    rw [step_compact hc]
    have hinv := hi.compactions t c hc
    obtain ⟨lvl, inputsLvl, phase⟩ := c
    cases phase with
    | selected =>
      obtain ⟨its, hits, -⟩ := Selected.open hinv hw
      simp only [DB.compactStep, hits]
      exact accounts_goes hc rfl (fun _ hid => Or.inl hid) fun _ hm => absurd hm List.not_mem_nil
    | merging inputsNext st =>
      have hm : Merging s.db lvl inputsLvl inputsNext st := hinv
      cases hpick : st.pick with
      | some x =>
        obtain ⟨key, e⟩ := x
        simp only [DB.compactStep, hpick]
        exact accounts_goes hc rfl (fun _ hid => Or.inl hid) fun _ hm => Or.inl ⟨_, rfl, hm⟩
      | none =>
        obtain ⟨st', hst, ht, -⟩ := hm.finish hpick
        obtain ⟨dropped, hmerge⟩ := hm.merge
        have hend := ((hmerge.finish hpick s.db .none lvl).2.1 st' (by rw [hst])).2
        have hdir : (s.db.mergeEnd .none lvl st).1.sst.dir = s.db.sst.dir := by
          unfold DB.mergeEnd
          split
          · rfl
          · exact DB.dir_finishOutput _ _ _ _ _ _
        simp only [DB.compactStep, hpick]
        rw [hst]
        refine accounts_goes hc ht.levels (fun _ hid => Or.inl (hdir ▸ hid)) fun id hm => Or.inl ⟨_, rfl, ?_⟩
        show id ∈ st'.outputs.map fun info => info.tableMeta.fileId
        rw [hend]
        exact hm
    | checked inputsNext st key e drop =>
      obtain ⟨hm, hpick, hd⟩ := (hinv : Merging s.db lvl inputsLvl inputsNext st ∧ _)
      obtain ⟨st', hst, ht, -⟩ := hm.round hpick hd
      obtain ⟨dropped, hmerge⟩ := hm.merge
      have hstep := ((hmerge.round s.db .none lvl hpick hd fun _ _ => trivial).2.1 st' (by rw [hst])).2.1
      have hdir : ∀ id ∈ (s.db.mergeRound .none lvl st key e drop).1.sst.dir, id ∈ s.db.sst.dir ∨ id ∈ st'.ids :=
        fun id hid => DB.dir_mergeRound (by rw [hst]) hid
      simp only [DB.compactStep]
      rw [hst] at hdir ⊢
      refine accounts_goes hc ht.levels (fun id hid => (hdir id hid).imp_right fun hm => ⟨_, rfl, hm⟩)
        fun id hm => Or.inl ⟨_, rfl, ?_⟩
      show id ∈ st'.ids
      rcases hstep with he | ⟨he, -⟩
      · rw [he]
        exact hm
      · rw [he]
        exact List.mem_append_left _ hm
    | merged inputsNext outputs =>
      refine ⟨fun _ hid => Or.inl hid, fun id hl => ?_, ?_, fun w ha => same_of_compact _ _ w fun e => ha (congrArg some e.symm)⟩
      · refine (Levels.has_install hw.levels lvl inputsLvl inputsNext outputs hl).imp_right fun hm => ⟨.compaction t, rfl, ?_⟩
        simpa only [owned, DB.compactStep, setAt_self, Compaction.owned] using hm
      · rintro w ⟨⟩ id hm
        have hm : id ∈ outputs.map fun info => info.tableMeta.fileId := by
          simpa only [owned, hc, Compaction.owned] using hm
        exact Or.inr (Or.inl (Levels.has_outputs s.db.levels lvl inputsLvl inputsNext hm))
    | installed inputsNext =>
      exact accounts_goes hc rfl (fun _ hid => Or.inl hid) fun _ hm => Or.inl ⟨_, rfl, hm⟩
    | saved inputsNext =>
      have hdir := fun id => @DB.mem_dir_deleteInputs_iff s.db (inputsLvl ++ inputsNext) id
      exact accounts_goes hc rfl (fun id hid => Or.inl ((hdir id).mp hid).1) fun id hm => Or.inr fun hid => ((hdir id).mp hid).2 hm

theorem accounts_startCompact (t : Nat) (lvl : Int) :
    Accounts s (.startCompact t lvl) (s.step (.startCompact t lvl)) := by
  cases hc : s.compactions t with
  | some c =>
    rw [step_startCompact_running hc]
    exact accounts_quiet rfl rfl (fun _ _ _ hm => hm) fun w _ => .refl _ _
  | none =>
    rw [step_startCompact hc]
    refine accounts_quiet rfl rfl ?_ fun w ha => same_of_compact s.db _ w fun e => ha (congrArg some e.symm)
    rintro w ⟨⟩ id hm
    have hm : id ∈ ([] : List Nat) := by simpa only [owned, hc] using hm
    cases hm

/-- **Every section.** -/
theorem accounts_step (hi : s.Inv) : Accounts s a (s.step a) := by
  cases a with
  | write sync batch => exact accounts_write sync batch
  | flush => exact accounts_flush hi
  | startCompact t lvl => exact accounts_startCompact t lvl
  | compact t => exact accounts_compact hi t

/-! ## Tables that are not in a manifest yet -/

/-- Another section leaves the thread in front of its manifest. -/
theorem saves_step (hi : s.Inv) {b : Act} (hb : s.saves b = true) (ha : s.saves a = false) :
    (s.step a).saves b = true := by
  have hothers := (accounts_step (a := a) hi).others
  cases b with
  | write sync batch => cases hb
  | startCompact t lvl => cases hb
  | flush =>
    have hne : a.worker ≠ some .flusher := by
      cases a with
      | flush => exact absurd (hb.symm.trans ha) (by simp)
      | _ => simp [Act.worker]
    have hsame : (s.step a).flusher = s.flusher := hothers .flusher hne
    show (s.step a).flusher.saves = true
    rw [hsame]
    exact hb
  | compact t =>
    have hsame : (s.step a).compactions t = s.compactions t := by
      cases a with
      | write sync batch => exact hothers (.compaction t) (by simp [Act.worker])
      | flush => exact hothers (.compaction t) (by simp [Act.worker])
      | startCompact t' lvl =>
        by_cases ht : t' = t
        · subst ht
          cases hc : s.compactions t' with
          | none =>
            simp only [saves, hc] at hb
            cases hb
          | some c => rw [step_startCompact_running hc, hc]
        · exact hothers (.compaction t) (by simp [Act.worker, ht])
      | compact t' =>
        by_cases ht : t' = t
        · subst ht
          exact absurd (hb.symm.trans ha) (by simp)
        · exact hothers (.compaction t) (by simp [Act.worker, ht])
    simp only [saves, hsame]
    exact hb

/-- A section that changes the levels takes the lock, and its thread is in front of its manifest behind it. -/
theorem levels_step (hi : s.Inv) (hs : s.saves a = false) : (s.step a).db.levels = s.db.levels ∨
    s.locks a = true ∧ ∃ b, (s.step a).saves b = true := by
  cases a with
  | write sync batch => exact Or.inl (DB.write_logSteps s.db sync batch {}).sameTables.levels
  | startCompact t lvl =>
    cases hc : s.compactions t with
    | none => exact Or.inl (by rw [step_startCompact hc])
    | some c => exact Or.inl (by rw [step_startCompact_running hc])
  | flush =>
    obtain ⟨db, f, cs⟩ := s
    cases f with
    | idle =>
      left
      simp only [step, DB.flushStep]
      split <;> rfl
    | taken m =>
      left
      simp only [step, DB.flushStep]
      split <;> rfl
    | allocated m fileId =>
      right
      obtain ⟨hq, -⟩ := hi.flusher
      have hm := DB.valid_front hi.steady.wf hq
      obtain ⟨-, w', file, he, -⟩ := (DB.writeTable_spec db.options hm.sorted {}).1 ⟨fun _ _ => rfl, rfl⟩
      refine ⟨rfl, .flush, ?_⟩
      simp only [step, DB.flushStep, he]
      rfl
    | registered m => cases hs
    | flushed m => exact Or.inl rfl
  | compact t =>
    cases hc : s.compactions t with
    | none => exact Or.inl (by rw [step_compact_none hc])
    | some c =>
      have hinv := hi.compactions t c hc
      rw [step_compact hc]
      obtain ⟨lvl, inputsLvl, phase⟩ := c
      cases phase with
      | selected =>
        left
        simp only [DB.compactStep]
        split <;> rfl
      | merging inputsNext st =>
        left
        have hm : Merging s.db lvl inputsLvl inputsNext st := hinv
        cases hpick : st.pick with
        | some x => simp only [DB.compactStep, hpick]
        | none =>
          obtain ⟨st', hst, ht, -⟩ := hm.finish hpick
          simp only [DB.compactStep, hpick]
          rw [hst]
          exact ht.levels
      | checked inputsNext st key e drop =>
        left
        obtain ⟨hm, hpick, hd⟩ := (hinv : Merging s.db lvl inputsLvl inputsNext st ∧ _)
        obtain ⟨st', hst, ht, -⟩ := hm.round hpick hd
        simp only [DB.compactStep]
        rw [hst]
        exact ht.levels
      | merged inputsNext outputs =>
        right
        refine ⟨by simp only [locks, hc]; rfl, .compact t, ?_⟩
        simp only [saves, DB.compactStep, setAt_self]
        rfl
      | installed inputsNext =>
        simp only [saves, hc] at hs
        cases hs
      | saved inputsNext => exact Or.inl rfl

end Sys

namespace SaveSys

variable {s : SaveSys} {a : Act}

/-- A manifest that is being saved lists the tables as they are, and so does the one on disk, unless a thread is in front of
its own. -/
structure Complete (s : SaveSys) : Prop where
  snapshot : ∀ w next levels, s.snapshot = some (w, next, levels) → levels = s.sys.db.levels
  saved : s.savedTables.2 = s.sys.db.levels ∨ ∃ a, s.sys.saves a = true

theorem Complete.step (h : s.Complete) (hi : s.sys.Inv) : (s.step a).Complete := by
  rcases step_cases s a with he | ⟨counted, he⟩ | ⟨w, next, he⟩ | ⟨w, p, hs, hsnap, he⟩ | ⟨hs, hlock, he⟩ <;> rw [he]
  · exact h
  · exact ⟨h.snapshot, h.saved⟩
  · refine ⟨fun _ _ _ hw => ?_, h.saved⟩
    cases hw
    rfl
  · refine ⟨fun _ _ _ hw => (by cases hw), Or.inl ?_⟩
    obtain ⟨next, levels⟩ := p
    show levels = (s.sys.step a).db.levels
    rw [(Sys.saved_step hs).levels]
    exact h.snapshot w next levels hsnap
  · rcases Sys.levels_step hi hs with hl | ⟨hl, hb⟩
    · refine ⟨fun w next levels hw => ?_, ?_⟩
      · exact (h.snapshot w next levels hw).trans hl.symm
      · rcases h.saved with hsaved | ⟨b, hb⟩
        · exact Or.inl (hsaved.trans hl.symm)
        · exact Or.inr ⟨b, Sys.saves_step hi hb hs⟩
    · refine ⟨fun w next levels hw => ?_, Or.inr hb⟩
      rw [hlock hl] at hw
      cases hw

theorem complete_start {db : DB} (h : db.Opens) : (start db).Complete := by
  refine ⟨fun _ _ _ hw => (by cases hw), Or.inl ?_⟩
  show ((db.manifest.map fun _ => (db.nextSstableId, db.levels)).getD (1, fun _ => [])).2 = db.levels
  rcases (described_of_opens h).manifest with ⟨he, hl, -⟩ | he
  · have he : db.manifest = none := he
    rw [he, hl]
    rfl
  · have he : db.manifest = some _ := he
    rw [he]
    rfl

end SaveSys

end SplitKV
