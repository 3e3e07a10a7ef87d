import SplitKV.VLog.Open

/-!
# Pointers stay valid

A value log lives through appends, syncs, closes and reopenings, and a crash may leave torn bytes behind the newest file.
The pointer of every successful append then denotes a range of its own, and reads back what was appended, in every later
state (`VLog.Run.pointers_stable`). The invariant is `VLog.Run.Inv`: every append so far left its record in a file of the
directory, the records do not overlap, and the writer is at the end of the newest file.
-/

namespace SplitKV

namespace VLog

/-- The newest file gains bytes. -/
def tear (files : Folder Bytes) (torn : Bytes) : Folder Bytes :=
  let id := files.dir.foldl max 0
  if files.has id then files.write id (files.data id ++ torn) else files

/-- A successful append: what it was given, and the pointer it returned. -/
structure Acked where
  type : ValueType
  key : Bytes
  value : Bytes
  ptr : VLogPointer

/-- The range of the record behind a pointer. -/
def Acked.stop (a : Acked) : Nat := a.ptr.offset + (encodeRecord a.type a.key a.value).length

/-- The records lie in different files, or one behind the other. -/
def Acked.Disjoint (a b : Acked) : Prop :=
  a.ptr.fileId ≠ b.ptr.fileId ∨ a.stop ≤ b.ptr.offset ∨ b.stop ≤ a.ptr.offset

/-- A step of a run. Behind `reopen` the options may be new, an unfinished append may have started a new file
(`rotated`), and `torn` bytes of it may lie behind the newest file. -/
inductive Step
  | append (key value : Bytes) (type : ValueType)
  | sync
  | read (ptr : VLogPointer)
  | close
  | reopen (o : Options) (rotated : Bool) (torn : Bytes)

/-- Every appended record is smaller than 4 GiB. -/
def Step.Fits : Step → Prop
  | append key value _ => VLog.Fits key value
  | _ => True

instance : (s : Step) → Decidable s.Fits
  | .append key value _ => inferInstanceAs (Decidable (VLog.Fits key value))
  | .sync | .read _ | .close | .reopen .. => inferInstanceAs (Decidable True)

/-- A run: the log, and the appends that succeeded so far. -/
structure Run where
  options : Options
  vlog : VLog
  acked : List Acked

namespace Run

/-- A run starts with an empty directory. -/
def start (o : Options) : Run := ⟨o, openLog (.empty []), []⟩

/-- One step. -/
def step (s : Run) : Step → Run
  | .append key value type =>
    match s.vlog.append s.options key value type .none with
    | (v, .ok ptr) => { s with vlog := v, acked := s.acked ++ [⟨type, key, value, ptr⟩] }
    | (v, .error _) => { s with vlog := v }
  | .sync => { s with vlog := s.vlog.sync }
  | .read ptr => { s with vlog := s.vlog.openReader ptr.fileId }
  | .close => { s with vlog := s.vlog.close }
  | .reopen o rotated torn =>
    let files := if rotated then s.vlog.files.create (s.vlog.files.dir.foldl max 0 + 1) [] else s.vlog.files
    { s with options := o, vlog := openLog (tear files torn) }

/-- A run of steps. -/
def run (s : Run) (steps : List Step) : Run := steps.foldl step s

/-! ## What is kept -/

end Run

/-- The files keep what they hold, and none disappears. -/
def Grown (files files' : Folder Bytes) : Prop := ∀ id ∈ files.dir, id ∈ files'.dir ∧ files.data id <+: files'.data id

theorem Grown.refl (files : Folder Bytes) : Grown files files := fun _ hid => ⟨hid, List.prefix_refl _⟩

theorem Grown.trans {a b c : Folder Bytes} (h : Grown a b) (h' : Grown b c) : Grown a c := by
  intro id hid
  obtain ⟨h₁, h₂⟩ := h id hid
  obtain ⟨h₃, h₄⟩ := h' id h₁
  exact ⟨h₃, h₂.trans h₄⟩

/-- The record lies in a file of the directory, at the place of its pointer. -/
structure Acked.In (files : Folder Bytes) (a : Acked) : Prop where
  file : a.ptr.fileId ∈ files.dir
  valueSize : a.ptr.valueSize = a.value.length
  fits : Fits a.key a.value
  record : ∃ pre post, files.data a.ptr.fileId = pre ++ (encodeRecord a.type a.key a.value ++ post) ∧
    a.ptr.offset = pre.length

theorem Acked.In.mono {files files' : Folder Bytes} {a : Acked} (h : a.In files) (hg : Grown files files') : a.In files' := by
  obtain ⟨pre, post, hd, ho⟩ := h.record
  obtain ⟨hdir, more, hm⟩ := hg _ h.file
  refine ⟨hdir, h.valueSize, h.fits, pre, post ++ more, ?_, ho⟩
  rw [← hm, hd]
  simp

/-- The record ends within its file. -/
theorem Acked.In.stop_le {files : Folder Bytes} {a : Acked} (h : a.In files) :
    a.stop ≤ (files.data a.ptr.fileId).length := by
  obtain ⟨pre, post, hd, ho⟩ := h.record
  rw [stop, ho, hd]
  simp only [List.length_append]
  omega

/-- **The pointer reads back** what was appended. -/
theorem Acked.In.read {v : VLog} {a : Acked} (h : a.In v.files) : v.read a.ptr = .ok (a.key, a.value) := by
  obtain ⟨pre, post, hd, ho⟩ := h.record
  have hread : readRecord (pre ++ (encodeRecord a.type a.key a.value ++ post)) _ = _ :=
    readRecord_encode h.fits pre post a.ptr.fileId
  rw [← ho, ← h.valueSize] at hread
  rw [VLog.read, if_pos (canOpen_of_mem h.file), hd]
  exact hread

/-- The files of an append. -/
theorem Appended.grown {v v' : VLog} {record : Bytes} {ptr : VLogPointer} (h : Appended v record v' ptr) (ht : v.Tidy) :
    Grown v.files v'.files := by
  intro id hid
  exact ⟨h.extends.dir id hid, h.extends.data id (ht.newest id hid)⟩

/-- What an append noted. -/
theorem Appended.acked {v v' : VLog} {type : ValueType} {key value : Bytes} {ptr : VLogPointer}
    (h : Appended v (encodeRecord type key value) v' ptr) (hf : VLog.Fits key value)
    (hs : ptr.valueSize = value.length % 2 ^ 32) : Acked.In v'.files ⟨type, key, value, ptr⟩ := by
  obtain ⟨base, hb, ho, -⟩ := h.new
  have hlt : value.length < 2 ^ 32 := by
    unfold VLog.Fits at hf
    omega
  refine ⟨(h.dir _).mpr (Or.inl h.fileId), hs.trans (Nat.mod_eq_of_lt hlt), hf, base, [], ?_, ho⟩
  rw [h.fileId, hb, List.append_nil]

/-! ## Reopening -/

theorem mem_dir_tear {files : Folder Bytes} {torn : Bytes} : (tear files torn).dir = files.dir := by
  unfold tear
  simp only
  split <;> rfl

theorem grown_tear (files : Folder Bytes) (torn : Bytes) : Grown files (tear files torn) := by
  intro id hid
  refine ⟨mem_dir_tear.symm ▸ hid, ?_⟩
  unfold tear
  simp only
  split
  · by_cases he : id = files.dir.foldl max 0
    · rw [he, Folder.data_write_self]
      exact List.prefix_append _ _
    · rw [Folder.data_write_of_ne _ he]
  · exact List.prefix_refl _

theorem grown_create {files : Folder Bytes} {id : Nat} (h : id ∉ files.dir) : Grown files (files.create id []) := by
  intro i hi
  refine ⟨Folder.mem_dir_create.mpr (Or.inr hi), ?_⟩
  have hne : i ≠ id := by
    rintro rfl
    exact h hi
  rw [Folder.data_create_of_ne _ hne]

/-- A file newer than all others is new. -/
theorem not_mem_newest (files : Folder Bytes) : files.dir.foldl max 0 + 1 ∉ files.dir := by
  intro hm
  have := (le_foldl_max files.dir 0).2 _ hm
  omega

theorem dir_openLog (files : Folder Bytes) : ∀ id ∈ files.dir, id ∈ (openLog files).files.dir := by
  intro id hid
  unfold openLog
  simp only
  split
  · exact hid
  · exact Folder.mem_dir_create.mpr (Or.inr hid)

/-- The files that `Open` finds. -/
def reopened (files : Folder Bytes) (rotated : Bool) (torn : Bytes) : Folder Bytes :=
  tear (if rotated then files.create (files.dir.foldl max 0 + 1) [] else files) torn

theorem grown_reopened (files : Folder Bytes) (rotated : Bool) (torn : Bytes) :
    Grown files (reopened files rotated torn) := by
  refine Grown.trans ?_ (grown_tear _ _)
  cases rotated with
  | false => exact Grown.refl files
  | true => exact grown_create (not_mem_newest files)

namespace Run

theorem step_reopen (s : Run) (o : Options) (rotated : Bool) (torn : Bytes) :
    s.step (.reopen o rotated torn) =
      { s with options := o, vlog := openLog (reopened s.vlog.files rotated torn) } := rfl

/-! ## The invariant -/

/-- The invariant of a run. -/
structure Inv (s : Run) : Prop where
  tidy : s.vlog.Tidy
  writer : s.vlog.writer = .null ∨ s.vlog.Ready
  acked : ∀ a ∈ s.acked, a.In s.vlog.files
  disjoint : s.acked.Pairwise Acked.Disjoint

/-- A step of the log that appends nothing. -/
theorem Inv.quiet {s : Run} (h : s.Inv) {v : VLog} (o : Options) (ht : v.Tidy) (hw : v.writer = .null ∨ v.Ready)
    (hg : Grown s.vlog.files v.files) : Inv { s with options := o, vlog := v } :=
  ⟨ht, hw, fun a ha => (h.acked a ha).mono hg, h.disjoint⟩

/-- **An append** leaves its record behind all others. -/
theorem Inv.append {s : Run} (h : s.Inv) {key value : Bytes} {type : ValueType} (hf : VLog.Fits key value) :
    (s.step (.append key value type)).Inv := by
  rcases h.writer with hw | hr
  · have hnull : s.vlog.append s.options key value type .none = (s.vlog, .error (.IOError "VLog not open for writing")) :=
      if_pos hw
    unfold step
    simp only
    rw [hnull]
    exact h
  · obtain ⟨v, ptr, he, hs, ha⟩ := appended_append s.options hr key value type
    have hg := ha.grown h.tidy
    have htidy : v.Tidy := by
      have := h.tidy.append s.options key value type .none
      rw [he] at this
      exact this
    obtain ⟨base, hb, ho, hbase⟩ := ha.new
    have hnew : Acked.In v.files ⟨type, key, value, ptr⟩ := ha.acked hf hs
    unfold step
    simp only
    rw [he]
    refine ⟨htidy, Or.inr ha.ready, fun a hm => ?_, ?_⟩
    · rcases List.mem_append.mp hm with hm | hm
      · exact (h.acked a hm).mono hg
      · rw [List.mem_singleton.mp hm]
        exact hnew
    · rw [List.pairwise_append]
      refine ⟨h.disjoint, List.pairwise_singleton _ _, fun a hm b hb' => ?_⟩
      rw [List.mem_singleton.mp hb']
      by_cases hid : a.ptr.fileId = ptr.fileId
      · -- an older record of the same file lies before its end
        have hin := h.acked a hm
        have hcur : a.ptr.fileId ≤ s.vlog.currentFileId := h.tidy.newest _ hin.file
        rcases hbase with ⟨hc, rfl⟩ | ⟨hc, -⟩
        · have hstop := hin.stop_le
          rw [hid, ha.fileId, hc, ← ho] at hstop
          exact Or.inr (Or.inl hstop)
        · rw [hid, ha.fileId] at hcur
          omega
      · exact Or.inl hid

/-- **A reopening** continues the newest file. -/
theorem Inv.reopen {s : Run} (h : s.Inv) (o : Options) (rotated : Bool) (torn : Bytes)
    (hids : ∀ id ∈ (s.step (.reopen o rotated torn)).vlog.files.dir, id < 100000) :
    (s.step (.reopen o rotated torn)).Inv := by
  rw [step_reopen] at hids ⊢
  have hg := grown_reopened s.vlog.files rotated torn
  have hopen : ∀ id ∈ (reopened s.vlog.files rotated torn).dir, 1 ≤ id ∧ id < 100000 := by
    intro id hid
    refine ⟨?_, hids id (dir_openLog _ id hid)⟩
    rw [reopened, mem_dir_tear] at hid
    cases rotated with
    | false => exact h.tidy.pos id hid
    | true =>
      rcases Folder.mem_dir_create.mp hid with rfl | hid
      · exact Nat.le_add_left 1 _
      · exact h.tidy.pos id hid
  obtain ⟨hr, ht, hfiles, -⟩ := openLog_spec hopen
  refine h.quiet o ht (Or.inr hr) fun id hid => ?_
  have hne : (reopened s.vlog.files rotated torn).dir ≠ [] := List.ne_nil_of_mem (hg id hid).1
  rw [hfiles hne]
  exact hg id hid

/-- Every step keeps the invariant. -/
theorem Inv.step {s : Run} (h : s.Inv) {x : Step} (hf : x.Fits) (hids : ∀ id ∈ (s.step x).vlog.files.dir, id < 100000) :
    (s.step x).Inv := by
  have hsync : s.vlog.sync.Tidy ∧ (s.vlog.sync.writer = .null ∨ s.vlog.sync.Ready) ∧
      Grown s.vlog.files s.vlog.sync.files := by
    unfold VLog.sync
    split
    · rename_i hw
      refine ⟨⟨h.tidy.newest, h.tidy.pos, h.tidy.opened⟩, ?_, fun id hid => ⟨hid, List.prefix_refl _⟩⟩
      rcases h.writer with hn | hr
      · exact Or.inl hn
      · exact Or.inr ⟨hr.writer, hr.offset, hr.exists_⟩
    · exact ⟨h.tidy, h.writer, Grown.refl _⟩
  cases x with
  | append key value type => exact h.append hf
  | sync => exact h.quiet _ hsync.1 hsync.2.1 hsync.2.2
  | read ptr =>
    have hread : (s.vlog.openReader ptr.fileId).files = s.vlog.files ∧
        (s.vlog.openReader ptr.fileId).currentFileId = s.vlog.currentFileId ∧
        (s.vlog.openReader ptr.fileId).currentOffset = s.vlog.currentOffset ∧
        (s.vlog.openReader ptr.fileId).writer = s.vlog.writer := by
      unfold openReader
      split
      · exact ⟨rfl, rfl, rfl, rfl⟩
      · split <;> exact ⟨rfl, rfl, rfl, rfl⟩
    obtain ⟨h₁, h₂, h₃, h₄⟩ := hread
    refine h.quiet _ ⟨?_, ?_, ?_⟩ (h.writer.imp (fun hw => h₄.trans hw) fun hr => ⟨h₄.trans hr.writer, ?_, ?_⟩)
      (h₁ ▸ Grown.refl _)
    · rw [h₁, h₂]
      exact h.tidy.newest
    · rw [h₁]
      exact h.tidy.pos
    · rw [h₁, h₂, h₄]
      exact h.tidy.opened
    · rw [h₁, h₂, h₃]
      exact hr.offset
    · rw [h₁, h₂]
      exact hr.exists_
  | close =>
    exact h.quiet _ ⟨hsync.1.newest, hsync.1.pos, fun hw => by cases hw⟩ (Or.inl rfl) hsync.2.2
  | reopen o rotated torn => exact h.reopen o rotated torn hids

theorem inv_start (o : Options) : (start o).Inv := by
  have hnone : ∀ id ∈ (Folder.empty ([] : Bytes)).dir, 1 ≤ id ∧ id < 100000 := fun id hid => absurd hid List.not_mem_nil
  obtain ⟨hr, ht, -⟩ := openLog_spec hnone
  exact ⟨ht, Or.inr hr, fun a ha => absurd ha List.not_mem_nil, List.Pairwise.nil⟩

/-- No step removes a file or an append. -/
theorem step_grows (s : Run) (x : Step) : (∀ id ∈ s.vlog.files.dir, id ∈ (s.step x).vlog.files.dir) ∧
    s.acked <+: (s.step x).acked := by
  have hsync : s.vlog.sync.files.dir = s.vlog.files.dir := by
    unfold VLog.sync
    split <;> rfl
  cases x with
  | append key value type =>
    have hdir := (extends_append s.options s.vlog key value type .none).dir
    unfold step
    simp only
    split
    · rename_i he
      rw [he] at hdir
      exact ⟨hdir, List.prefix_append _ _⟩
    · rename_i he
      rw [he] at hdir
      exact ⟨hdir, List.prefix_refl _⟩
  | sync => exact ⟨fun id hid => hsync.symm ▸ hid, List.prefix_refl _⟩
  | read ptr => exact ⟨(extends_openReader s.vlog ptr.fileId).dir, List.prefix_refl _⟩
  | close => exact ⟨fun id hid => hsync.symm ▸ hid, List.prefix_refl _⟩
  | reopen o rotated torn =>
    exact ⟨fun id hid => dir_openLog _ id (grown_reopened s.vlog.files rotated torn id hid).1, List.prefix_refl _⟩

theorem run_grows : ∀ (steps : List Step) (s : Run), (∀ id ∈ s.vlog.files.dir, id ∈ (s.run steps).vlog.files.dir) ∧
    s.acked <+: (s.run steps).acked
  | [], s => ⟨fun _ h => h, List.prefix_refl _⟩
  | x :: steps, s => by
    obtain ⟨h₁, h₂⟩ := step_grows s x
    obtain ⟨h₃, h₄⟩ := run_grows steps (s.step x)
    exact ⟨fun id hid => h₃ id (h₁ id hid), h₂.trans h₄⟩

/-- **The invariant holds in every run.** -/
theorem Inv.run : ∀ (steps : List Step) (s : Run), s.Inv → (∀ x ∈ steps, x.Fits) →
    (∀ id ∈ (s.run steps).vlog.files.dir, id < 100000) → (s.run steps).Inv
  | [], _, h, _, _ => h
  | x :: steps, s, h, hf, hids => by
    have hstep := h.step (hf x List.mem_cons_self) fun id hid => hids id ((run_grows steps (s.step x)).1 id hid)
    exact Inv.run steps (s.step x) hstep (fun y hy => hf y (List.mem_cons_of_mem _ hy)) hids

theorem run_append (s : Run) (steps later : List Step) : s.run (steps ++ later) = (s.run steps).run later :=
  List.foldl_append

/-- **Pointers stay valid**: what a successful append returned reads back what was appended, at every later point of the
run, and the records of different appends do not overlap. -/
theorem pointers_stable (o : Options) (steps later : List Step) (hf : ∀ x ∈ steps ++ later, x.Fits)
    (hids : ∀ id ∈ ((start o).run (steps ++ later)).vlog.files.dir, id < 100000) :
    (∀ a ∈ ((start o).run steps).acked, ((start o).run (steps ++ later)).vlog.read a.ptr = .ok (a.key, a.value)) ∧
      ((start o).run (steps ++ later)).acked.Pairwise Acked.Disjoint := by
  have hinv := Inv.run (steps ++ later) _ (inv_start o) hf hids
  constructor
  · intro a ha
    have hmem : a ∈ ((start o).run (steps ++ later)).acked := by
      rw [run_append]
      exact (run_grows later _).2.subset ha
    exact (hinv.acked a hmem).read
  · exact hinv.disjoint

/-- Two files, a torn tail and a close between an append and its read. -/
theorem pointers_stable_sample :
    let steps : List Step := [.append [1] [7] .value, .append [2] [8] .value]
    let later : List Step := [.close, .reopen { vlogFileSizeLimit := 1 } true [9, 9], .append [3] [] .deletion]
    (∀ a ∈ ((start {}).run steps).acked, ((start {}).run (steps ++ later)).vlog.read a.ptr = .ok (a.key, a.value)) ∧
      ((start {}).run (steps ++ later)).acked.Pairwise Acked.Disjoint :=
  pointers_stable {} _ _ (by decide) (by decide +kernel)

end Run

end VLog

end SplitKV
