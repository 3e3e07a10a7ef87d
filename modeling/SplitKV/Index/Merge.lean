import SplitKV.Index.Install

/-!
# The merge loop of a compaction

`MergeInv` is the loop invariant: the iterators and the output so far are a merge in progress of the runs the input
iterators deliver, and the output tables are well formed. A round keeps it (`MergeInv.round`), whatever fails the
reads; at the end every key has its newest delivered entry in the output, or was dropped (`MergeInv.finish`). Q and K
are what is known about the dropped keys and about the keys of the tombstones that were kept.
-/

namespace SplitKV

open Assoc Levels

/-- Only the table files and the table ids changed. -/
structure DB.OnlyTables (db db' : DB) : Prop where
  same : db' = { db with sst := db'.sst, nextSstableId := db'.nextSstableId }
  next : db.nextSstableId ≤ db'.nextSstableId

theorem DB.OnlyTables.refl (db : DB) : OnlyTables db db := ⟨rfl, Nat.le_refl _⟩

theorem DB.OnlyTables.trans {a b c : DB} (h : OnlyTables a b) (h' : OnlyTables b c) : OnlyTables a c := by
  refine ⟨?_, h.next.trans h'.next⟩
  rw [h'.same, h.same]

theorem DB.OnlyTables.levels {db db' : DB} (h : OnlyTables db db') : db'.levels = db.levels := by rw [h.same]
theorem DB.OnlyTables.options {db db' : DB} (h : OnlyTables db db') : db'.options = db.options := by rw [h.same]

/-! ## The inputs -/

/-- The runs the input iterators deliver, from number `i` on. -/
def deliveredRuns (read : Nat → Nat → Option Status) : Nat → List SSTableInfo → List (List (Key × InternalEntry))
  | _, [] => []
  | i, info :: infos => delivered (read i) 0 info.reader.entries :: deliveredRuns read (i + 1) infos

theorem deliveredRuns_none (i : Nat) (infos : List SSTableInfo) :
    deliveredRuns (fun _ _ => none) i infos = infos.map (fun info => info.reader.entries) := by
  induction infos generalizing i with
  | nil => rfl
  | cons info infos ih => rw [deliveredRuns, delivered_none, ih, List.map_cons]

theorem sorted_delivered {read : Nat → Nat → Option Status} {infos : List SSTableInfo} (h : ∀ info ∈ infos, info.Wf) :
    ∀ i, ∀ l ∈ deliveredRuns read i infos, Sorted l := by
  induction infos with
  | nil => exact fun i l hl => absurd hl List.not_mem_nil
  | cons info infos ih =>
    intro i l hl
    rcases List.mem_cons.mp hl with rfl | hl
    · exact (h info List.mem_cons_self).reader.sorted.sublist (delivered_isInitial _ _ _).sublist
    · exact ih (fun i hi => h i (List.mem_cons_of_mem _ hi)) (i + 1) l hl

/-- The empty runs hold no newest binding. -/
theorem best_filter (runs : List (List (Key × InternalEntry))) (key : Key) :
    KMerge.best InternalEntry.sequence (runs.filter (fun l => !l.isEmpty)) key =
      KMerge.best InternalEntry.sequence runs key := by
  unfold KMerge.best Versions.bestOf
  generalize (none : Option InternalEntry) = m
  induction runs generalizing m with
  | nil => rfl
  | cons l runs ih =>
    rw [List.filter_cons]
    split
    · rw [List.map_cons, List.map_cons, List.foldl_cons, List.foldl_cons]
      exact ih _
    · rename_i h
      have hl : l = [] := by simpa using h
      rw [List.map_cons, List.foldl_cons, hl, lookup_nil]
      cases m <;> exact ih _

/-- **The iterators of the inputs** stand at the start of the runs that are not empty. -/
theorem openIterators_ok {read : Nat → Nat → Option Status} {infos : List SSTableInfo} (h : ∀ info ∈ infos, info.Wf) :
    ∀ (i : Nat) (its : List Iterator), openIterators read i infos = .ok its →
      (∀ it ∈ its, it.Aligned) ∧ its.map Iterator.view = (deliveredRuns read i infos).filter (fun l => !l.isEmpty) := by
  induction infos with
  | nil =>
    intro i its he
    cases he
    exact ⟨fun it hit => absurd hit List.not_mem_nil, rfl⟩
  | cons info infos ih =>
    intro i its he
    have hr := (h info List.mem_cons_self).reader
    have hview := Iterator.view_seekToFirst hr (read i)
    have hst := Iterator.seekToFirst_status hr (read i)
    have ih := ih (fun i hi => h i (List.mem_cons_of_mem _ hi)) (i + 1)
    rw [openIterators] at he
    rw [deliveredRuns, List.filter_cons]
    generalize hs : Iterator.seekToFirst { reader := info.reader, fault := read i } = s at he hview hst
    obtain ⟨it, st⟩ := s
    cases st with
    | ok x =>
      have hne : delivered (read i) 0 info.reader.entries ≠ [] := by
        simp only at hst
        cases hl : info.reader.entries with
        | nil => rw [hl] at hst; cases hst
        | cons p l =>
          rw [hl, if_neg (by simp)] at hst
          cases hf : read i 0 with
          | none => simp [delivered, hf]
          | some s => rw [hf] at hst; cases hst
      rw [if_pos (by simpa using hne)]
      simp only at he
      cases ho : openIterators read (i + 1) infos with
      | error s => rw [ho] at he; cases he
      | ok its' =>
        rw [ho] at he
        cases he
        obtain ⟨ha, hv⟩ := ih its' ho
        refine ⟨fun it' hit => ?_, by rw [List.map_cons, hv, hview.1]⟩
        rcases List.mem_cons.mp hit with rfl | hit
        · exact hview.2
        · exact ha it' hit
    | error s =>
      have hnil : delivered (read i) 0 info.reader.entries = [] := by
        simp only at hst
        cases hl : info.reader.entries with
        | nil => rfl
        | cons p l =>
          rw [hl, if_neg (by simp)] at hst
          cases hf : read i 0 with
          | none => rw [hf] at hst; cases hst
          | some s => simp [delivered, hf]
      simp only at he
      split at he
      · rw [if_neg (by simp [hnil])]
        exact ih its he
      · cases he

/-- Without faults the inputs can be opened. -/
theorem openIterators_none {infos : List SSTableInfo} (h : ∀ info ∈ infos, info.Wf) (i : Nat) :
    ∃ its, openIterators (fun _ _ => none) i infos = .ok its := by
  induction infos generalizing i with
  | nil => exact ⟨[], rfl⟩
  | cons info infos ih =>
    have hst := Iterator.seekToFirst_status (h info List.mem_cons_self).reader (fun _ => none)
    obtain ⟨its, hits⟩ := ih (fun i hi => h i (List.mem_cons_of_mem _ hi)) (i + 1)
    rw [openIterators]
    generalize hs : Iterator.seekToFirst { reader := info.reader, fault := fun _ => none } = s at hst
    obtain ⟨it, st⟩ := s
    simp only at hst
    split at hst
    · subst hst
      exact ⟨its, hits⟩
    · subst hst
      exact ⟨it :: its, by simp only [hits]⟩

/-! ## The output -/

namespace MergeState

/-- The entries that went to the output. -/
def written (st : MergeState) : List (Key × InternalEntry) :=
  entriesOf st.outputs ++ (match st.writer with | none => [] | some w => w.2.entries)

/-- The table ids the merge has allocated. -/
def ids (st : MergeState) : List Nat :=
  st.outputs.map (fun info => info.tableMeta.fileId) ++ (match st.writer with | none => [] | some w => [w.1])

/-- The output tables and the current writer are as the loop leaves them. -/
structure OutputOk (st : MergeState) : Prop where
  outputs : ∀ info ∈ st.outputs, info.Wf
  writer : ∀ w, st.writer = some w → w.2.Wrote w.2.entries ∧ w.2.entries ≠ []

end MergeState

open MergeState

/-- A finished writer gives a well-formed table. -/
theorem wf_of_finish {w : SSTableWriter} {l : List (Key × InternalEntry)} (hw : w.Wrote l) (hs : Sorted l) (hne : l ≠ [])
    (fileId lvl : Nat) : ∃ w' file, w.finish = .ok (w', file) ∧ file.Wf ∧ file.entries = l ∧
      SSTableInfo.Wf ⟨w'.tableMeta fileId lvl, .openFile file⟩ ∧ (w'.tableMeta fileId lvl).fileId = fileId ∧
      (w'.tableMeta fileId lvl).numEntries = l.length ∧ (w'.tableMeta fileId lvl).fileSize = file.size := by
  obtain ⟨w', file, he, hf, hl, hm⟩ := hw.finish hs
  refine ⟨w', file, he, hf, hl, ⟨SSTableReader.wf_openFile hf, ?_, ?_⟩, rfl, by rw [hm], by rw [hm]⟩
  · obtain ⟨p, hp⟩ : ∃ p, l.head? = some p := ⟨l.head hne, List.head?_eq_some_head hne⟩
    exact ⟨p, by simpa [SSTableReader.openFile, hl] using hp, by rw [hm]; exact hw.smallest p hp⟩
  · obtain ⟨p, hp⟩ : ∃ p, l.getLast? = some p := ⟨l.getLast hne, List.getLast?_eq_some_getLast hne⟩
    exact ⟨p, by simpa [SSTableReader.openFile, hl] using hp, by rw [hm]; exact hw.largest p hp⟩

/-- The merge allocated no table id, or the next one. -/
def IdsStep (db db' : DB) (st st' : MergeState) : Prop :=
  st'.ids = st.ids ∨ st'.ids = st.ids ++ [db.nextSstableId] ∧ db'.nextSstableId = db.nextSstableId + 1

/-- What an operation of the loop on the output leaves: the merge goes on from the same iterators with the entries
`l` written. -/
structure Output (db db' : DB) (st : MergeState) (l : List (Key × InternalEntry)) (st' : MergeState) : Prop where
  written : st'.written = l
  iters : st'.iters = st.iters
  ok : st'.OutputOk
  ids : IdsStep db db' st st'

/-- The end of an output table. -/
theorem finishOutput_spec (db : DB) (f : CompactFaults) (lvl : Nat) {st : MergeState} (ho : ∀ info ∈ st.outputs, info.Wf)
    (fileId : Nat) {w : SSTableWriter} {l : List (Key × InternalEntry)} (hw : w.Wrote l) (hs : Sorted l) (hne : l ≠ []) :
    db.OnlyTables (db.finishOutput f lvl st fileId w).1 ∧
      (db.finishOutput f lvl st fileId w).1.nextSstableId = db.nextSstableId ∧
      (∀ st', (db.finishOutput f lvl st fileId w).2 = .ok st' →
        st'.written = entriesOf st.outputs ++ l ∧ st'.iters = st.iters ∧ st'.writer = none ∧ st'.OutputOk ∧
          st'.ids = st.outputs.map (fun info => info.tableMeta.fileId) ++ [fileId]) ∧
      (f = .none → ∃ st', (db.finishOutput f lvl st fileId w).2 = .ok st') := by
  obtain ⟨w', file, he, hf, hl, hinfo, hid, -⟩ := wf_of_finish hw hs hne fileId (lvl + 1)
  unfold DB.finishOutput
  rw [he]
  split
  · refine ⟨DB.OnlyTables.refl db, rfl, fun st' h => (by cases h), fun h => ?_⟩
    rename_i hfin
    rw [h] at hfin
    cases hfin
  · simp only
    split
    · refine ⟨⟨rfl, Nat.le_refl _⟩, rfl, fun st' h => (by cases h), fun h => ?_⟩
      rename_i hr
      rw [h] at hr
      cases hr
    · refine ⟨⟨rfl, Nat.le_refl _⟩, rfl, fun st' h => ?_, fun _ => ⟨_, rfl⟩⟩
      cases h
      refine ⟨?_, rfl, rfl, ⟨fun info hi => ?_, fun w hw => by cases hw⟩, ?_⟩
      · simp [written, entriesOf, SSTableReader.openFile, hl]
      · rcases List.mem_append.mp hi with hi | hi
        · exact ho info hi
        · rw [List.mem_singleton.mp hi]
          exact hinfo
      · simp [ids, hid]

/-- The current writer: an open one, or a new one with a new table id. -/
theorem currentWriter_spec (db : DB) (f : CompactFaults) {st : MergeState} (ho : st.OutputOk) :
    db.OnlyTables (db.currentWriter f st).1 ∧
      (∀ fileId w, (db.currentWriter f st).2 = .ok (fileId, w) →
        st.written = entriesOf st.outputs ++ w.entries ∧ w.Wrote w.entries ∧
          (st.ids = st.outputs.map (fun info => info.tableMeta.fileId) ++ [fileId] ∨
            fileId = db.nextSstableId ∧ st.ids = st.outputs.map (fun info => info.tableMeta.fileId) ∧
              (db.currentWriter f st).1.nextSstableId = db.nextSstableId + 1)) ∧
      (f = .none → ∃ x, (db.currentWriter f st).2 = .ok x) := by
  unfold DB.currentWriter
  cases hw : st.writer with
  | some x =>
    refine ⟨DB.OnlyTables.refl db, fun fileId w h => ?_, fun _ => ⟨x, rfl⟩⟩
    cases h
    exact ⟨by simp [written, hw], (ho.writer _ hw).1, Or.inl (by simp [ids, hw])⟩
  | none =>
    simp only
    split
    · refine ⟨⟨rfl, Nat.le_succ _⟩, fun fileId w h => (by cases h), fun h => ?_⟩
      rename_i hopen
      rw [h] at hopen
      cases hopen
    · refine ⟨⟨rfl, Nat.le_succ _⟩, fun fileId w h => ?_, fun _ => ⟨_, rfl⟩⟩
      cases h
      refine ⟨?_, SSTableWriter.wrote_new db.options, Or.inr ⟨rfl, by simp [ids, hw], rfl⟩⟩
      simp [written, hw, SSTableWriter.new]

/-- **An entry goes to the output.** -/
theorem putEntry_spec (db : DB) (f : CompactFaults) (lvl : Nat) {st : MergeState} (ho : st.OutputOk) {key : Key}
    {e : InternalEntry} (hs : Sorted (st.written ++ [(key, e)])) :
    db.OnlyTables (db.putEntry f lvl st key e).1 ∧
      (∀ st', (db.putEntry f lvl st key e).2 = .ok st' →
        Output db (db.putEntry f lvl st key e).1 st (st.written ++ [(key, e)]) st') ∧
      (f = .none → ∃ st', (db.putEntry f lvl st key e).2 = .ok st') := by
  obtain ⟨hcur, hok, hnone⟩ := currentWriter_spec db f ho
  unfold DB.putEntry
  generalize db.currentWriter f st = c at hcur hok hnone
  obtain ⟨db₁, r⟩ := c
  cases r with
  | error s =>
    refine ⟨hcur, fun st' h => (by cases h), fun h => ?_⟩
    obtain ⟨x, hx⟩ := hnone h
    cases hx
  | ok x =>
    obtain ⟨fileId, w⟩ := x
    obtain ⟨hwr, hwrote, hids⟩ := hok fileId w rfl
    simp only
    split
    · refine ⟨hcur, fun st' h => (by cases h), fun h => ?_⟩
      rename_i hadd
      rw [h] at hadd
      cases hadd
    · rw [hwr, List.append_assoc] at hs
      have hsw := (sorted_append.mp hs).2.1
      obtain ⟨w', ha, hw'⟩ := hwrote.add hsw
      simp only at ha
      rw [ha, hwr, List.append_assoc]
      simp only
      split
      · obtain ⟨h₁, h₂, h₃, h₄⟩ := finishOutput_spec db₁ f lvl ho.outputs fileId hw' hsw (by simp)
        refine ⟨hcur.trans h₁, fun st' h => ?_, h₄⟩
        obtain ⟨hwr', hit, -, hok', hid'⟩ := h₃ st' h
        refine ⟨hwr', hit, hok', ?_⟩
        rw [IdsStep, hid', h₂]
        rcases hids with h | ⟨h, h', hn⟩
        · exact Or.inl h.symm
        · exact Or.inr ⟨by rw [h, h'], hn⟩
      · refine ⟨hcur, fun st' h => ?_, fun _ => ⟨_, rfl⟩⟩
        cases h
        have hent : w'.entries = w.entries ++ [(key, e)] := hw'.entries
        refine ⟨by simp [written, hent], rfl, ⟨ho.outputs, fun x hx => ?_⟩, ?_⟩
        · cases hx
          exact ⟨hent.symm ▸ hw', by simp [hent]⟩
        · rcases hids with h | ⟨h, h', hn⟩
          · exact Or.inl (by rw [h]; rfl)
          · exact Or.inr ⟨by rw [h', ← h]; rfl, hn⟩

/-! ## The loop -/

/-- The loop invariant. -/
structure MergeInv (runs₀ : List (List (Key × InternalEntry))) (Q K : Key → Prop) (st : MergeState) (dropped : Set Key) :
    Prop where
  aligned : ∀ it ∈ st.iters, it.Aligned
  progress : KMerge.Progress InternalEntry.sequence InternalEntry.Gone runs₀ (st.iters.map Iterator.view) st.written
    dropped
  output : st.OutputOk
  gone : ∀ key ∈ dropped, Q key
  kept : ∀ p ∈ st.written, p.2.Gone → K p.1

namespace MergeInv

variable {runs₀ : List (List (Key × InternalEntry))} {Q K : Key → Prop} {st : MergeState} {dropped : Set Key}

theorem start {its : List Iterator} (ha : ∀ it ∈ its, it.Aligned) (hs : ∀ l ∈ its.map Iterator.view, Sorted l) :
    MergeInv (its.map Iterator.view) Q K { iters := its } ∅ where
  aligned := ha
  progress := KMerge.Progress.start hs
  output := ⟨fun info hi => absurd hi List.not_mem_nil, fun w hw => (by cases hw)⟩
  gone := fun _ h => h.elim
  kept := fun p hp => absurd hp List.not_mem_nil

theorem mono {Q' K' : Key → Prop} (h : MergeInv runs₀ Q K st dropped) (hQ : ∀ key, Q key → Q' key)
    (hK : ∀ key, K key → K' key) : MergeInv runs₀ Q' K' st dropped :=
  ⟨h.aligned, h.progress, h.output, fun key hk => hQ key (h.gone key hk), fun p hp hg => hK p.1 (h.kept p hp hg)⟩

/-- What a round works on, in terms of the runs that are left. -/
theorem pick_view {key : Key} {e : InternalEntry} (hp : st.pick = some (key, e)) :
    KMerge.minKey List.head? (st.iters.map Iterator.view) = some key ∧
      KMerge.winner List.head? InternalEntry.sequence key (st.iters.map Iterator.view) = some e := by
  have hm : KMerge.minKey Iterator.head st.iters = KMerge.minKey List.head? (st.iters.map Iterator.view) :=
    KMerge.minKey_view fun it _ => it.head_view
  unfold MergeState.pick at hp
  rw [hm] at hp
  split at hp
  · cases hp
  · rename_i k hk
    have hw : KMerge.winner Iterator.head InternalEntry.sequence k st.iters =
        KMerge.winner List.head? InternalEntry.sequence k (st.iters.map Iterator.view) :=
      KMerge.winner_view (fun it _ => it.head_view) k
    rw [hw] at hp
    split at hp
    · cases hp
    · rename_i w hw'
      cases hp
      exact ⟨hk, hw'⟩

/-- The loop ends when every iterator is at its end. -/
theorem pick_none (hp : st.pick = none) : KMerge.minKey List.head? (st.iters.map Iterator.view) = none := by
  have hm : KMerge.minKey Iterator.head st.iters = KMerge.minKey List.head? (st.iters.map Iterator.view) :=
    KMerge.minKey_view fun it _ => it.head_view
  unfold MergeState.pick at hp
  rw [hm] at hp
  split at hp
  · assumption
  · rename_i k hk
    exfalso
    obtain ⟨⟨l, hl, a, ha⟩, -⟩ := KMerge.minKey_spec hk
    have hc : some a ∈ (st.iters.map Iterator.view).map (KMerge.candidate List.head? k) :=
      List.mem_map.mpr ⟨l, hl, by simp [KMerge.candidate, ha]⟩
    obtain ⟨w, hw⟩ : ∃ w, Versions.bestOf InternalEntry.sequence
        ((st.iters.map Iterator.view).map (KMerge.candidate List.head? k)) = some w := Versions.bestOf_isSome_of_mem hc
    have hv : KMerge.winner Iterator.head InternalEntry.sequence k st.iters =
        KMerge.winner List.head? InternalEntry.sequence k (st.iters.map Iterator.view) :=
      KMerge.winner_view (fun it _ => it.head_view) k
    rw [hv, KMerge.winner, hw] at hp
    cases hp

theorem advance_view (h : MergeInv runs₀ Q K st dropped) (key : Key) :
    (KMerge.advance Iterator.head Iterator.next key st.iters).map Iterator.view =
      KMerge.advance List.head? List.tail key (st.iters.map Iterator.view) :=
  KMerge.advance_view (fun it _ => it.head_view) (fun it hit => Iterator.view_next (h.aligned it hit)) key

theorem aligned_advance (h : MergeInv runs₀ Q K st dropped) (key : Key) :
    ∀ it ∈ KMerge.advance Iterator.head Iterator.next key st.iters, it.Aligned :=
  KMerge.forall_advance (fun _ ha => Iterator.aligned_next ha) h.aligned key

/-- A round that drops the key. -/
theorem drop (h : MergeInv runs₀ Q K st dropped) {key : Key} {e : InternalEntry} (hp : st.pick = some (key, e))
    (hg : e.Gone) (hQ : Q key) : MergeInv runs₀ Q K (st.advance key) (insert key dropped) where
  aligned := h.aligned_advance key
  progress := by
    have := h.progress.drop (pick_view hp).1 (pick_view hp).2 hg
    rwa [← h.advance_view] at this
  output := ⟨h.output.outputs, h.output.writer⟩
  gone := by
    rintro k (rfl | hk)
    · exact hQ
    · exact h.gone k hk
  kept := h.kept

/-- A round that writes the key. -/
theorem emit (h : MergeInv runs₀ Q K st dropped) {key : Key} {e : InternalEntry} (hp : st.pick = some (key, e))
    (hK : e.Gone → K key) {db db' : DB} {st' : MergeState} (ho : Output db db' st (st.written ++ [(key, e)]) st') :
    MergeInv runs₀ Q K (st'.advance key) dropped where
  aligned := by
    have := h.aligned_advance key
    rwa [← ho.iters] at this
  progress := by
    have := h.progress.emit (pick_view hp).1 (pick_view hp).2
    rw [← h.advance_view, ← ho.iters, ← ho.written] at this
    exact this
  output := ⟨ho.ok.outputs, ho.ok.writer⟩
  gone := h.gone
  kept := by
    intro p hp' hg
    rw [show (st'.advance key).written = st'.written from rfl, ho.written] at hp'
    rcases List.mem_append.mp hp' with hp' | hp'
    · exact h.kept p hp' hg
    · rw [List.mem_singleton.mp hp'] at hg ⊢
      exact hK hg

theorem sorted_emit (h : MergeInv runs₀ Q K st dropped) {key : Key} {e : InternalEntry} (hp : st.pick = some (key, e)) :
    Sorted (st.written ++ [(key, e)]) := (h.progress.emit (pick_view hp).1 (pick_view hp).2).sorted_out

/-- **A round of the loop** keeps the invariant, and only allocates table ids. -/
theorem round (h : MergeInv runs₀ Q K st dropped) (db : DB) (f : CompactFaults) (lvl : Nat) {key : Key}
    {e : InternalEntry} (hp : st.pick = some (key, e)) {drop : Bool} (hd : drop = true → e.Gone ∧ Q key)
    (hk : drop = false → e.Gone → K key) :
    db.OnlyTables (db.mergeRound f lvl st key e drop).1 ∧
      (∀ st', (db.mergeRound f lvl st key e drop).2 = .ok st' →
        (∃ dropped', MergeInv runs₀ Q K st' dropped') ∧
          IdsStep db (db.mergeRound f lvl st key e drop).1 st st' ∧
          st'.iters = KMerge.advance Iterator.head Iterator.next key st.iters) ∧
      (f = .none → ∃ st', (db.mergeRound f lvl st key e drop).2 = .ok st') := by
  unfold DB.mergeRound
  cases drop with
  | true =>
    refine ⟨DB.OnlyTables.refl db, fun st' hst => ?_, fun _ => ⟨_, rfl⟩⟩
    cases hst
    exact ⟨⟨_, h.drop hp (hd rfl).1 (hd rfl).2⟩, Or.inl rfl, rfl⟩
  | false =>
    obtain ⟨h₁, h₂, h₃⟩ := putEntry_spec db f lvl h.output (h.sorted_emit hp)
    generalize db.putEntry f lvl st key e = r at h₁ h₂ h₃
    obtain ⟨db', r⟩ := r
    cases r with
    | error s =>
      refine ⟨h₁, fun st' hst => (by cases hst), fun hf => ?_⟩
      obtain ⟨st', hst⟩ := h₃ hf
      cases hst
    | ok st₁ =>
      refine ⟨h₁, fun st' hst => ?_, fun _ => ⟨_, rfl⟩⟩
      cases hst
      have ho := h₂ st₁ rfl
      exact ⟨⟨dropped, h.emit hp (hk rfl) ho⟩, ho.ids, by rw [MergeState.advance, ho.iters]⟩

end MergeInv

/-- The outputs of a finished merge. -/
structure MergeDone (runs₀ : List (List (Key × InternalEntry))) (Q K : Key → Prop) (outputs : List SSTableInfo) : Prop where
  outputsWf : ∀ info ∈ outputs, info.Wf
  sorted : Sorted (entriesOf outputs)
  keys : ∀ key,
    lookup key (entriesOf outputs) = KMerge.best InternalEntry.sequence runs₀ key ∧
        (∀ w, KMerge.best InternalEntry.sequence runs₀ key = some w → w.Gone → K key) ∨
      lookup key (entriesOf outputs) = none ∧ Q key ∧
        ∃ w, KMerge.best InternalEntry.sequence runs₀ key = some w ∧ w.Gone

/-- **The end of the merge.** -/
theorem MergeInv.finish {runs₀ : List (List (Key × InternalEntry))} {Q K : Key → Prop} {st : MergeState}
    {dropped : Set Key} (h : MergeInv runs₀ Q K st dropped) (hp : st.pick = none) (db : DB) (f : CompactFaults) (lvl : Nat) :
    db.OnlyTables (db.mergeEnd f lvl st).1 ∧
      (∀ st', (db.mergeEnd f lvl st).2 = .ok st' → MergeDone runs₀ Q K st'.outputs ∧
        st'.outputs.map (fun info => info.tableMeta.fileId) = st.ids) ∧
      (f = .none → ∃ st', (db.mergeEnd f lvl st).2 = .ok st') := by
  have hend := MergeInv.pick_none hp
  have hdone : ∀ st' : MergeState, entriesOf st'.outputs = st.written → (∀ info ∈ st'.outputs, info.Wf) →
      MergeDone runs₀ Q K st'.outputs := by
    intro st' hw ho
    refine ⟨ho, hw ▸ h.progress.sorted_out, fun key => ?_⟩
    rw [hw]
    rcases h.progress.lookup_out hend key with ⟨h₁, -⟩ | ⟨h₁, h₂, h₃⟩
    · refine Or.inl ⟨h₁, fun w hb hg => ?_⟩
      exact h.kept (key, w) (mem_of_lookup (h₁.trans hb)) hg
    · exact Or.inr ⟨h₁, h.gone key h₂, h₃⟩
  unfold DB.mergeEnd
  cases hw : st.writer with
  | none =>
    refine ⟨DB.OnlyTables.refl db, fun st' hst => ?_, fun _ => ⟨_, rfl⟩⟩
    cases hst
    exact ⟨hdone st (by simp [written, hw]) h.output.outputs, by simp [ids, hw]⟩
  | some x =>
    obtain ⟨fileId, w⟩ := x
    obtain ⟨hwrote, hne⟩ := h.output.writer _ hw
    have hwr : st.written = entriesOf st.outputs ++ w.entries := by simp [written, hw]
    have hs : Sorted w.entries := (sorted_append.mp (hwr ▸ h.progress.sorted_out)).2.1
    obtain ⟨h₁, -, h₃, h₄⟩ := finishOutput_spec db f lvl h.output.outputs fileId hwrote hs hne
    refine ⟨h₁, fun st' hst => ?_, h₄⟩
    obtain ⟨hw', -, hnone, hok, hid⟩ := h₃ st' hst
    rw [written, hnone, List.append_nil] at hw'
    rw [MergeState.ids, hnone, List.append_nil] at hid
    exact ⟨hdone st' (hw'.trans hwr.symm) hok.outputs, by rw [hid, ids, hw]⟩

/-- The table ids of a merge were allocated, one after the other, from `lo` on. -/
def IdsFrom (lo : Nat) (db : DB) (ids : List Nat) : Prop :=
  ids.Pairwise (· < ·) ∧ (∀ id ∈ ids, lo ≤ id ∧ id < db.nextSstableId) ∧ lo ≤ db.nextSstableId

theorem IdsFrom.step {lo : Nat} {db db' : DB} {st st' : MergeState} (h : IdsFrom lo db st.ids)
    (hn : db.nextSstableId ≤ db'.nextSstableId) (hs : IdsStep db db' st st') : IdsFrom lo db' st'.ids := by
  obtain ⟨hp, hr, hlo⟩ := h
  rcases hs with he | ⟨he, hn'⟩
  · rw [he]
    exact ⟨hp, fun id hid => ⟨(hr id hid).1, (hr id hid).2.trans_le hn⟩, hlo.trans hn⟩
  · rw [he]
    refine ⟨List.pairwise_append.mpr ⟨hp, List.pairwise_singleton _ _, fun a ha b hb => ?_⟩, fun id hid => ?_, by omega⟩
    · rw [List.mem_singleton.mp hb]
      exact (hr a ha).2
    · rcases List.mem_append.mp hid with hid | hid
      · have := hr id hid
        omega
      · rw [List.mem_singleton.mp hid]
        omega

/-- The iterators have less to deliver after a round. -/
theorem MergeInv.size_lt {runs₀ : List (List (Key × InternalEntry))} {Q K : Key → Prop} {st st' : MergeState}
    {dropped : Set Key} (h : MergeInv runs₀ Q K st dropped) {key : Key} {e : InternalEntry}
    (hp : st.pick = some (key, e)) (hi : st'.iters = KMerge.advance Iterator.head Iterator.next key st.iters) :
    KMerge.size (st'.iters.map Iterator.view) < KMerge.size (st.iters.map Iterator.view) := by
  rw [hi, h.advance_view]
  exact KMerge.size_advance_lt (KMerge.minKey_spec (pick_view hp).1).1

/-- **The merge loop** ends with the newest entries of the runs, or fails and leaves only table files behind. Q holds
of the keys it may drop, K of the keys whose tombstones it keeps. -/
theorem mergeLoop_spec (f : CompactFaults) (lvl : Nat) {runs₀ : List (List (Key × InternalEntry))} {Q K : Key → Prop}
    (levels : Levels) (maxLevels : Nat)
    (hQ : ∀ key, levels.existsDeeper maxLevels (f.deeper key) lvl key = false → Q key)
    (hK : ∀ key, levels.existsDeeper maxLevels (f.deeper key) lvl key = true → K key) (lo : Nat) :
    ∀ (n : Nat) (db : DB) (st : MergeState) (dropped : Set Key), db.levels = levels →
      db.options.maxSstableLevels = maxLevels → MergeInv runs₀ Q K st dropped → IdsFrom lo db st.ids →
      KMerge.size (st.iters.map Iterator.view) < n →
      db.OnlyTables (DB.mergeLoop f lvl n db st).1 ∧
        (∀ st', (DB.mergeLoop f lvl n db st).2 = .ok st' → MergeDone runs₀ Q K st'.outputs ∧
          IdsFrom lo (DB.mergeLoop f lvl n db st).1 (st'.outputs.map (fun info => info.tableMeta.fileId))) ∧
        (f = .none → ∃ st', (DB.mergeLoop f lvl n db st).2 = .ok st')
  | 0, _, _, _, _, _, _, _, hn => by omega
  | n + 1, db, st, dropped, hl, ho, h, hids, hn => by
    unfold DB.mergeLoop
    cases hp : st.pick with
    | none =>
      obtain ⟨h₁, h₂, h₃⟩ := h.finish hp db f lvl
      refine ⟨h₁, fun st' hst => ?_, h₃⟩
      obtain ⟨hd, hid⟩ := h₂ st' hst
      exact ⟨hd, by rw [hid]; exact IdsFrom.step hids h₁.next (Or.inl rfl : IdsStep _ _ st st)⟩
    | some x =>
      obtain ⟨key, e⟩ := x
      have hdrop : db.dropEntry f lvl key e = true → e.Gone ∧ Q key := by
        intro hd
        simp only [DB.dropEntry, Bool.and_eq_true, decide_eq_true_eq, Bool.not_eq_true', hl, ho] at hd
        exact ⟨hd.1, hQ key hd.2⟩
      have hkeep : db.dropEntry f lvl key e = false → e.Gone → K key := by
        intro hd hg
        simp only [DB.dropEntry, hl, ho, Bool.and_eq_false_iff, decide_eq_false_iff_not, Bool.not_eq_false'] at hd
        exact hK key (hd.resolve_left (fun hne => hne hg))
      obtain ⟨h₁, h₂, h₃⟩ := h.round db f lvl hp hdrop hkeep
      simp only
      generalize db.mergeRound f lvl st key e (db.dropEntry f lvl key e) = r at h₁ h₂ h₃
      obtain ⟨db', r⟩ := r
      cases r with
      | error s =>
        refine ⟨h₁, fun st' hst => (by cases hst), fun hf => ?_⟩
        obtain ⟨st', hst⟩ := h₃ hf
        cases hst
      | ok st₁ =>
        obtain ⟨⟨dropped', hinv⟩, hstep, hit⟩ := h₂ st₁ rfl
        have hlt := MergeInv.size_lt h hp hit
        obtain ⟨g₁, g₂, g₃⟩ := mergeLoop_spec f lvl levels maxLevels hQ hK lo n db' st₁ dropped' (h₁.levels.trans hl)
          (by rw [h₁.options]; exact ho) hinv (hids.step h₁.next hstep) (by omega)
        exact ⟨h₁.trans g₁, g₂, g₃⟩

end SplitKV
