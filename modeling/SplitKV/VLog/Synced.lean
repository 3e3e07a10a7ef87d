import SplitKV.VLog

/-!
# Bytes of the value log that were synced

An append never takes back what was synced of a file (`keepsSynced_append`). With `sync_writes`, an append that succeeds
leaves the whole file synced (`synced_append`).
-/

namespace SplitKV

/-- The first `n` bytes of the file are there, and were synced. -/
structure Folder.FirstSynced (files : Folder Bytes) (id n : Nat) : Prop where
  synced : n ≤ files.synced id
  written : n ≤ (files.data id).length

namespace VLog

/-- What was synced up to the current file stays synced. -/
structure KeepsSynced (v v' : VLog) : Prop where
  current : v.currentFileId ≤ v'.currentFileId
  kept : ∀ id ≤ v.currentFileId, ∀ n, v.files.FirstSynced id n → v'.files.FirstSynced id n

theorem KeepsSynced.refl (v : VLog) : KeepsSynced v v := ⟨Nat.le_refl _, fun _ _ _ h => h⟩

theorem KeepsSynced.trans {v₁ v₂ v₃ : VLog} (h : KeepsSynced v₁ v₂) (h' : KeepsSynced v₂ v₃) : KeepsSynced v₁ v₃ :=
  ⟨h.current.trans h'.current, fun id hid n hn => h'.kept id (hid.trans h.current) n (h.kept id hid n hn)⟩

theorem keepsSynced_syncFile (v : VLog) : KeepsSynced v v.syncFile := by
  refine ⟨Nat.le_refl _, fun id _ k hk => ⟨?_, hk.written⟩⟩
  show k ≤ setAt v.files.synced v.currentFileId (v.files.data v.currentFileId).length id
  by_cases hid : id = v.currentFileId
  · subst hid
    rw [setAt_self]
    exact hk.written
  · rw [setAt_of_ne _ hid]
    exact hk.synced

theorem keepsSynced_sync (v : VLog) : KeepsSynced v v.sync := by
  unfold sync
  split
  · exact keepsSynced_syncFile v
  · exact KeepsSynced.refl v

theorem AppendSteps.keepsSynced {v u : VLog} (h : AppendSteps v u) : KeepsSynced v u := by
  induction h with
  | refl => exact KeepsSynced.refl v
  | @write u _ bytes n ih =>
    refine ⟨ih.current, fun id hid k hk => ?_⟩
    obtain ⟨h₁, h₂⟩ := ih.kept id hid k hk
    refine ⟨h₁, h₂.trans ?_⟩
    show _ ≤ (setAt u.files.data u.currentFileId (u.files.data u.currentFileId ++ bytes) id).length
    by_cases hc : id = u.currentFileId
    · subst hc
      rw [setAt_self, List.length_append]
      exact Nat.le_add_right _ _
    · rw [setAt_of_ne _ hc]
  | sync _ ih => exact ih.trans (keepsSynced_syncFile _)
  | close _ ih => exact ⟨ih.current, ih.kept⟩
  | next _ ih => exact ⟨ih.current.trans (Nat.le_succ _), ih.kept⟩
  | @create u _ ih =>
    have hcur := ih.current
    refine ⟨hcur.trans (Nat.le_succ _), fun id hid k hk => ?_⟩
    -- the new file is none of the older ones
    have hne : id ≠ u.currentFileId + 1 := by omega
    obtain ⟨h₁, h₂⟩ := ih.kept id hid k hk
    refine ⟨?_, ?_⟩
    · show k ≤ setAt u.files.synced (u.currentFileId + 1) 0 id
      rw [setAt_of_ne _ hne]
      exact h₁
    · rw [Folder.data_create_of_ne _ hne]
      exact h₂

/-- **An append takes nothing back**, wherever it fails. -/
theorem keepsSynced_append (o : Options) (v : VLog) (key value : Bytes) (type : ValueType) (fault : AppendFault) :
    KeepsSynced v (v.append o key value type fault).1 := (appendSteps_append o v key value type fault).keepsSynced

theorem synced_appendRecord {o : Options} (hs : o.syncWrites = true) {v v' : VLog} {key value : Bytes} {type : ValueType}
    {fault : AppendFault} {ptr : VLogPointer} (h : v.appendRecord o key value type fault = (v', .ok ptr)) :
    v'.files.synced v'.currentFileId = (v'.files.data v'.currentFileId).length := by
  unfold appendRecord at h
  simp only [hs] at h
  split at h
  · cases h
  · split at h
    · cases h
    · cases h
    · simp only [if_true] at h
      split at h
      · cases h
      · cases h
        exact setAt_self _ _ _

/-- **An append that succeeds** with `sync_writes` leaves the whole file synced. -/
theorem synced_append {o : Options} (hs : o.syncWrites = true) {v v' : VLog} {key value : Bytes} {type : ValueType}
    {fault : AppendFault} {ptr : VLogPointer} (h : v.append o key value type fault = (v', .ok ptr)) :
    v'.files.synced v'.currentFileId = (v'.files.data v'.currentFileId).length := by
  unfold append at h
  split at h
  · cases h
  · split at h
    · split at h
      · cases h
      · exact synced_appendRecord hs h
    · exact synced_appendRecord hs h

/-- A record in a file that is synced. -/
theorem Holds.firstSynced {v : VLog} {ptr : VLogPointer} {key value : Bytes} (h : Holds v ptr key value)
    (hs : (v.files.data ptr.fileId).length ≤ v.files.synced ptr.fileId) :
    v.files.FirstSynced ptr.fileId (ptr.offset + 13 + key.length + ptr.valueSize) := by
  obtain ⟨pre, post, he, ho⟩ := h.record
  have hsize := h.valueSize
  have hlen : ptr.offset + 13 + key.length + ptr.valueSize ≤ (v.files.data ptr.fileId).length := by
    rw [he, List.length_append, List.length_append, length_encodeRecord]
    omega
  exact ⟨hlen.trans hs, hlen⟩

end VLog

end SplitKV
