import SplitKV.Faults.Compact

/-!
# Collections that fail

A collection removes its segment although a live record could not be read, its swap could not be logged, or a lookup
failed. Every readable key stays readable with its value exactly when it was moved to that value, or was not moved and
its record was not removed (`runGC_keeps_iff`).
-/

namespace SplitKV

open Assoc Versions

namespace DB

/-- The first copy of the key that is swapped in has the value; without one, the segment is not removed, or the visible
version does not lie in it. -/
def KeptBy (db : DB) (f : GcFaults) (seg : Nat) (key : Key) (value : Bytes) : Prop :=
  match db.gcMoved f seg key (db.gcCopied f seg).1 with
  | some v => v = value
  | none => (db.gcCopied f seg).2 = true → f.remove = false → ∀ e, db.visible key = some e → e.vlogPtr.fileId ≠ seg

/-- What `Get` returns for a key that is readable. -/
theorem Inv.result_ok {db : DB} (h : db.Inv) {key : Key} {value : Bytes} :
    db.result key = .ok value ↔ db.Shows key (some value) := by
  constructor
  · intro hr
    rw [result_eq h.wf] at hr
    cases hv : db.visible key with
    | none =>
      rw [hv] at hr
      cases hr
    | some e =>
      obtain ⟨-, v, hh⟩ := h.visible_holds hv
      rw [hv, seen] at hr
      cases hc : db.vlog.canOpen e.vlogPtr.fileId with
      | false =>
        rw [VLog.read, hc] at hr
        cases hr
      | true =>
        rw [hh.read hc] at hr
        cases hr
        exact ⟨e, hv, hh, hc⟩
  · intro hs
    exact hs.result h.wf

/-- A collection of a segment that rewrites it, for one readable key. -/
theorem gcSegment_result_iff {db : DB} (h : db.Inv) {f : GcFaults} {seg : Nat} (hd : seg ∈ db.vlog.files.dir)
    (hseg : seg < db.vlog.currentFileId) (hdec : db.gcDecide (db.gcScanned f seg) = true) {key : Key} {value : Bytes}
    (hr : db.result key = .ok value) : (db.gcSegment f seg).1.result key = .ok value ↔ db.KeptBy f seg key value := by
  obtain ⟨db₁, r, hres, hok, herr⟩ := gcSegment_decided h hd hseg hdec
  have hs := h.result_ok.mp hr
  obtain ⟨e, he, hh, hdir⟩ := id hs
  have hre := hres.rewritten key
  unfold KeptBy
  unfold Rewritten at hre
  cases hm : db.gcMoved f seg key (db.gcCopied f seg).1 with
  | some v =>
    rw [hm] at hre
    obtain ⟨e', he', hh', hl', hne⟩ := hre
    have hs₁ : db₁.Shows key (some v) := ⟨e', he', hh', hl'⟩
    have hv : (db.gcSegment f seg).1.result key = .ok v := by
      cases hc : (db.gcCopied f seg).2 with
      | true =>
        rw [hok hc]
        have hs₂ := hs₁.gcFinish f (hres.extends_.dir _ hd) fun _ a ha => by
          rw [he'] at ha
          cases ha
          exact hne
        exact hs₂.result (hres.wf.gcFinish f seg)
      | false =>
        obtain ⟨s, hs₂⟩ := herr hc
        rw [hs₂]
        exact hs₁.result hres.wf
    rw [hv]
    exact ⟨fun h => Except.ok.inj h, fun h => congrArg _ h⟩
  | none =>
    rw [hm] at hre
    have hvis : db₁.visible key = db.visible key := congrArg _ hre
    have hs₁ : db₁.Shows key (some value) := hs.mono hvis hres.extends_
    cases hc : (db.gcCopied f seg).2 with
    | false =>
      obtain ⟨s, hs₂⟩ := herr hc
      rw [hs₂]
      exact ⟨fun _ hf => (by cases hf), fun _ => hs₁.result hres.wf⟩
    | true =>
      rw [hok hc]
      simp only [true_implies]
      constructor
      · intro hrv hrem a ha hse
        have hlost := result_gcFinish_lost hres.wf hrem (hvis.trans ha) hse
        rw [hrv] at hlost
        cases hlost
      · intro hne
        have hs₂ := hs₁.gcFinish f (hres.extends_.dir _ hd) fun hrem a ha => hne hrem a (hvis ▸ ha)
        exact hs₂.result (hres.wf.gcFinish f seg)

end DB

end SplitKV
