import SplitKV.Faults.Gc
import SplitKV.Recovery.Crashes

/-!
# Collections behind torn records

A crash in the middle of an append leaves a part of a record in the value log, and the opening behind it goes on with the
same file. A pointer still finds its record behind the torn one, but the scan of a collection stops there. A collection
keeps a key of its segment exactly when it finds too little garbage, or the scan reaches the record of the key
(`Machine.collection_keeps_iff`).
-/

namespace SplitKV

/-- The scan of the file hands over a record of the key at the place of the pointer. -/
def VLog.Reaches (v : VLog) (ptr : VLogPointer) (key : Key) : Prop :=
  ∃ s ∈ VLog.scanFile (v.files.data ptr.fileId) 0, s.type = .value ∧ s.key = key ∧ s.offset = ptr.offset ∧
    s.value.length % 2 ^ 32 = ptr.valueSize

namespace DB

/-- **A collection without faults keeps a key** of its segment exactly when it does not rewrite the segment, or its scan
reaches the record of the key. -/
theorem runGC_key_iff {db : DB} (h : db.Inv) {seg : Nat} (hc : db.gcChoose = some seg) {key : Key} {value : Bytes}
    {e : InternalEntry} (hr : db.result key = .ok value) (he : db.visible key = some e) (hin : e.vlogPtr.fileId = seg) :
    (db.runGC .none).1.result key = .ok value ↔
      (db.gcDecide (db.gcScanned .none seg) = true → db.vlog.Reaches e.vlogPtr key) := by
  obtain ⟨hd, hseg⟩ := gcChoose_spec hc
  have hrun : db.runGC .none = db.gcSegment .none seg := by
    unfold runGC
    rw [hc]
  rw [hrun]
  cases hdec : db.gcDecide (db.gcScanned .none seg) with
  | false =>
    rw [gcSegment_undecided hd hdec]
    exact ⟨fun _ hf => (by cases hf), fun _ => hr⟩
  | true =>
    rw [gcSegment_result_iff h hd hseg hdec hr]
    obtain ⟨e', he', hh, -⟩ := h.result_ok.mp hr
    obtain ⟨hmoved, hkept⟩ := h.gcMoved_none hd key
    have hcopied : (db.gcCopied .none seg).2 = true := (gcCopies_none db.options seg _ 0 db.vlog h.vlog.ready hd).1
    have hee : e' = e := Option.some.inj (he'.symm.trans he)
    subst e'
    unfold KeptBy
    unfold VLog.Reaches
    rw [hin]
    cases hm : db.gcMoved .none seg key (db.gcCopied .none seg).1 with
    | some v =>
      -- the copy has the value of the record, since both are read at the same place
      obtain ⟨e', hv, -, hh', hs⟩ := hmoved v hm
      have hee : e' = e := Option.some.inj (hv.symm.trans he)
      subst e'
      exact ⟨fun _ _ => hs, fun _ => (hh.unique hh' rfl rfl).2.2⟩
    | none =>
      have hnot := hkept hm e he hin
      exact ⟨fun hk => absurd hin (hk hcopied rfl e he), fun hs => absurd (hs rfl) hnot⟩

end DB

namespace Machine

/-- **Collections behind torn records.** Behind every run of writes, flushes, compactions, crashes of the process and
openings, a collection keeps a key whose visible version lies in its segment exactly when it finds too little garbage, or
its scan reaches the record of the key. -/
theorem collection_keeps_iff {o : Options} (hu : o.Usable) {events : List Event}
    (hw : ∀ ev ∈ events, ev.Writes ∧ ev.Faultless) (hb : start.Throughout o (Bounded o) events) {db : DB}
    (hdb : start.after o events = .on db) {seg : Nat} (hc : db.gcChoose = some seg) {key : Key} {value : Bytes}
    {e : InternalEntry} (hr : db.result key = .ok value) (he : db.visible key = some e) (hin : e.vlogPtr.fileId = seg) :
    (db.runGC .none).1.result key = .ok value ↔
      (db.gcDecide (db.gcScanned .none seg) = true → db.vlog.Reaches e.vlogPtr key) := by
  obtain ⟨es, -, -, h⟩ := Serves.after hu hw (logs_start hu) trivial hb
  rw [hdb] at h
  exact DB.runGC_key_iff h.1.inv hc hr he hin

/-- Two keys are put, and one of them again, into a new file. -/
def putAgain : List Event := [.reopen, sure false [.put [1] [7]], sure false [.put [3] [9]], sure false [.put [1] [5]]]

/-- The database that wrote them. -/
def wholeSegment : DB :=
  ((((DB.fresh { vlogFileSizeLimit := 30 }).write false [.put [1] [7]] {}).1.write false [.put [3] [9]] {}).1.write false
    [.put [1] [5]] {}).1

/-- The key that was put once is kept. -/
theorem collection_keeps_sample : (wholeSegment.runGC .none).1.result [3] = .ok [9] := by
  have hstart : start.next { vlogFileSizeLimit := 30 } .reopen = .on (DB.fresh { vlogFileSizeLimit := 30 }) :=
    next_reopen (by decide +kernel)
  have hall : ∀ ev ∈ putAgain, ∀ e ∈ ev.entries, e.Fits ∧ e.key ≠ [] ∧ ∀ b ∈ e.key, isSpace b = false := by
    decide +kernel
  have hw : ∀ ev ∈ putAgain, ev.Writes ∧ ev.Faultless := by
    intro ev hev
    refine ⟨hall ev hev, ?_⟩
    simp only [putAgain, List.mem_cons, List.not_mem_nil, or_false] at hev
    rcases hev with rfl | rfl | rfl | rfl
    · trivial
    · exact ⟨rfl, rfl⟩
    · exact ⟨rfl, rfl⟩
    · exact ⟨rfl, rfl⟩
  refine (@collection_keeps_iff { vlogFileSizeLimit := 30 } ⟨by decide, by decide, by decide⟩ putAgain hw ?_ wholeSegment ?_
    1 (by decide +kernel) [3] [9] ⟨⟨1, 15, 1⟩, 3, .value⟩ (by decide +kernel) (by decide +kernel) rfl).mpr fun _ => ?_
  · refine ⟨small_of (by decide +kernel) (by decide +kernel) (by decide +kernel) (by decide +kernel), ?_⟩
    rw [hstart]
    exact ⟨small_of (by decide +kernel) (by decide +kernel) (by decide +kernel) (by decide +kernel),
      small_of (by decide +kernel) (by decide +kernel) (by decide +kernel) (by decide +kernel),
      small_of (by decide +kernel) (by decide +kernel) (by decide +kernel) (by decide +kernel), trivial⟩
  · rw [after, putAgain, List.foldl_cons, hstart]
    rfl
  · refine ⟨⟨[3], [9], .value, 15⟩, ?_, rfl, rfl, rfl, rfl⟩
    decide +kernel

/-- The process crashes in an append to the value log, and writes on behind it. -/
def putBehindTorn : List Event :=
  [.reopen, sure false [.put [1] [7]], .crash (.write false [.put [2] [8]] { vlog := fun _ => .write 3 }), .reopen,
    sure false [.put [3] [9]], sure false [.put [1] [5]]]

/-- The files that the crash leaves. -/
def tornSegment : Disk :=
  (((DB.fresh { vlogFileSizeLimit := 33 }).write false [.put [1] [7]] {}).1.interrupt
    (.write false [.put [2] [8]] { vlog := fun _ => .write 3 })).disk

/-- **A collection loses a key** behind a record of which the segment has only the first bytes. -/
theorem collection_loses : ∃ db, start.after { vlogFileSizeLimit := 33 } putBehindTorn = .on db ∧ db.gcChoose = some 1 ∧
    (∃ e, db.visible [3] = some e ∧ e.vlogPtr.fileId = 1) ∧ db.result [3] = .ok [9] ∧
      (db.runGC .none).2 = .ok () ∧ (db.runGC .none).1.result [3] = .error .ioError := by
  have hstart : start.next { vlogFileSizeLimit := 33 } .reopen = .on (DB.fresh { vlogFileSizeLimit := 33 }) :=
    next_reopen (by decide +kernel)
  have hopen : (Machine.off tornSegment).next { vlogFileSizeLimit := 33 } .reopen =
      .on (DB.openDB { vlogFileSizeLimit := 33 } tornSegment .none).1 := next_reopen (by decide +kernel)
  refine ⟨(((DB.openDB { vlogFileSizeLimit := 33 } tornSegment .none).1.write false [.put [3] [9]] {}).1.write false
    [.put [1] [5]] {}).1, ?_, by decide +kernel, ⟨⟨⟨1, 18, 1⟩, 3, .value⟩, by decide +kernel, rfl⟩, by decide +kernel,
    by decide +kernel, by decide +kernel⟩
  have htorn : ((start.next { vlogFileSizeLimit := 33 } .reopen).next { vlogFileSizeLimit := 33 }
      (sure false [.put [1] [7]])).next { vlogFileSizeLimit := 33 }
        (.crash (.write false [.put [2] [8]] { vlog := fun _ => .write 3 })) = .off tornSegment := by
    rw [hstart]
    rfl
  rw [after, putBehindTorn, List.foldl_cons, List.foldl_cons, List.foldl_cons, htorn, List.foldl_cons, hopen]
  rfl

end Machine

end SplitKV
