import SplitKV.VLog.Pointers

/-!
# Appends that fail

A write or a flush that fails leaves a part of its record in the file, and `current_offset_` no longer is the end of the
file. As long as every append finds it there, or starts a new file, the pointers of the appends that succeed can be read,
whatever fails (`Run.appends_readable`); the first append behind a part of a record cannot (`Run.torn_append`).
-/

namespace SplitKV

namespace VLog

/-- A call of `Append`, and what fails in it. -/
structure Call where
  key : Bytes
  value : Bytes
  type : ValueType := .value
  fault : AppendFault := .none

namespace Run

/-- A call; the appends that succeed are noted. -/
def call (s : Run) (c : Call) : Run :=
  match s.vlog.append s.options c.key c.value c.type c.fault with
  | (v, .ok ptr) => { s with vlog := v, acked := s.acked ++ [⟨c.type, c.key, c.value, ptr⟩] }
  | (v, .error _) => { s with vlog := v }

/-- A sequence of calls. -/
def calls (s : Run) (cs : List Call) : Run := cs.foldl call s

/-- The record is smaller than 4 GiB, and the call starts a new file or finds the offset at the end of the current one. -/
structure Clean (s : Run) (c : Call) : Prop where
  fits : Fits c.key c.value
  offset : s.vlog.mustRotate s.options c.key c.value = false →
    s.vlog.currentOffset = (s.vlog.files.data s.vlog.currentFileId).length

/-- Every call is clean, in the state it is made in. -/
def AllClean : Run → List Call → Prop
  | _, [] => True
  | s, c :: cs => s.Clean c ∧ AllClean (s.call c) cs

/-- The files are in order, and what was appended is there. -/
structure Kept (s : Run) : Prop where
  tidy : s.vlog.Tidy
  acked : ∀ a ∈ s.acked, a.In s.vlog.files

/-- **A call**, whatever fails in it. -/
theorem Kept.call {s : Run} (h : s.Kept) {c : Call} (hc : s.Clean c) : (s.call c).Kept := by
  have htidy := h.tidy.append s.options c.key c.value c.type c.fault
  have hext := extends_append s.options s.vlog c.key c.value c.type c.fault
  have happ := fun v ptr => @Tidy.appended s.options s.vlog v h.tidy c.key c.value c.type c.fault ptr hc.offset
  unfold Run.call
  generalize s.vlog.append s.options c.key c.value c.type c.fault = x at htidy hext happ
  obtain ⟨v, r⟩ := x
  have hgrown : Grown s.vlog.files v.files := fun id hid => ⟨hext.dir id hid, hext.data id (h.tidy.newest id hid)⟩
  cases r with
  | error st => exact ⟨htidy, fun a ha => (h.acked a ha).mono hgrown⟩
  | ok ptr =>
    obtain ⟨hs, ha⟩ := happ v ptr rfl
    refine ⟨htidy, fun a hm => ?_⟩
    rcases List.mem_append.mp hm with hm | hm
    · exact (h.acked a hm).mono hgrown
    · rw [List.mem_singleton.mp hm]
      exact ha.acked hc.fits hs

/-- The files behind a sequence of calls. -/
theorem Kept.calls : ∀ (cs : List Call) (s : Run), s.Kept → s.AllClean cs → (s.calls cs).Kept
  | [], _, h, _ => h
  | c :: cs, s, h, ⟨hc, hcs⟩ => Kept.calls cs (s.call c) (h.call hc) hcs

/-- **A failed append spoils no other**, as long as every call starts a new file or finds the offset at the end of the
current one: the pointers of all calls that succeed read back what was appended. -/
theorem appends_readable (o : Options) {files : Folder Bytes} (hids : ∀ id ∈ files.dir, 1 ≤ id ∧ id < 100000)
    (cs : List Call) (h : AllClean ⟨o, openLog files, []⟩ cs) :
    ∀ a ∈ (calls ⟨o, openLog files, []⟩ cs).acked,
      (calls ⟨o, openLog files, []⟩ cs).vlog.read a.ptr = .ok (a.key, a.value) := by
  have hstart : Kept ⟨o, openLog files, []⟩ := ⟨(openLog_spec hids).2.1, fun a ha => by cases ha⟩
  exact fun a ha => ((Kept.calls cs _ hstart h).acked a ha).read

/-- A write that fails before its first byte, a sync that fails, and a rotation behind them. -/
theorem appends_readable_sample :
    let cs : List Call := [{ key := [1], value := [7], fault := .write 0 }, { key := [1], value := [7], fault := .sync },
      { key := [2], value := [8] }, { key := [3], value := [9], fault := .write 5 }, { key := [4], value := List.replicate 9 5 }]
    ∀ a ∈ (calls ⟨{ syncWrites := true, vlogFileSizeLimit := 50 }, openLog (.empty []), []⟩ cs).acked,
      (calls ⟨{ syncWrites := true, vlogFileSizeLimit := 50 }, openLog (.empty []), []⟩ cs).vlog.read a.ptr =
        .ok (a.key, a.value) :=
  appends_readable { syncWrites := true, vlogFileSizeLimit := 50 } (fun id hid => absurd hid List.not_mem_nil) _
    ⟨⟨by decide, by decide +kernel⟩, ⟨by decide, by decide +kernel⟩, ⟨by decide, by decide +kernel⟩,
      ⟨by decide, by decide +kernel⟩, ⟨by decide, by decide +kernel⟩, trivial⟩

/-- **Behind three bytes of a record** that could not be written, the next append succeeds, and cannot be read. -/
theorem torn_append :
    let s := calls ⟨{}, openLog (.empty []), []⟩ [{ key := [1], value := [7], fault := .write 3 }, { key := [2], value := [8] }]
    (s.acked.map fun a => (a.key, a.value, a.ptr)) = [([2], [8], ⟨1, 0, 1⟩)] ∧ (s.vlog.read ⟨1, 0, 1⟩).toOption = none := by
  decide +kernel

end Run

end VLog

end SplitKV
