import SplitKV.PowerLoss.Newest
import SplitKV.Recovery.Batches

/-!
# The records of a write that survive

A write only appends to the newest WAL file, in which all its records are (`WAL.OnlyNewest.mem_newest`). With
`WriteOptions.sync` it syncs that file before a new one can be created, so that they survive (`WAL.survives_sync`), and the
end of the write keeps what was synced (`DB.Logged.lasts_endWrite`).
-/

namespace SplitKV

namespace WAL

/-- Only the newest file grows, and nothing is synced. -/
structure OnlyNewest (w w' : WAL) : Prop where
  dir : w'.files.dir = w.files.dir
  synced : w'.files.synced = w.files.synced
  currentId : w'.currentId = w.currentId
  older : ∀ id ≠ w.currentId, w'.files.data id = w.files.data id
  grows : w.files.data w.currentId <+: w'.files.data w.currentId

theorem OnlyNewest.refl (w : WAL) : OnlyNewest w w := ⟨rfl, rfl, rfl, fun _ _ => rfl, List.prefix_refl _⟩

theorem OnlyNewest.trans {w₁ w₂ w₃ : WAL} (h : OnlyNewest w₁ w₂) (h' : OnlyNewest w₂ w₃) : OnlyNewest w₁ w₃ := by
  obtain ⟨d', s', c', o', g'⟩ := h'
  rw [h.currentId] at c' o' g'
  exact ⟨d'.trans h.dir, s'.trans h.synced, c', fun id hne => (o' id hne).trans (h.older id hne), h.grows.trans g'⟩

theorem onlyNewest_addRecord (w : WAL) (r : WALRecord) (fault : Option Nat) : OnlyNewest w (w.addRecord r fault).1 := by
  have hext : ∀ bytes, OnlyNewest w (w.extend bytes) := by
    intro bytes
    refine ⟨rfl, rfl, rfl, fun id hne => Folder.data_write_of_ne _ hne _, ?_⟩
    rw [extend, Folder.data_write_self]
    exact List.prefix_append _ _
  unfold addRecord
  split
  · exact OnlyNewest.refl w
  · exact OnlyNewest.refl w
  · split
    · exact hext _
    · exact hext _

theorem OnlyNewest.lasts {w w' : WAL} (h : OnlyNewest w w') : Lasts w.files w'.files := by
  refine ⟨fun id hid => h.dir.symm ▸ hid, fun id hid => ?_⟩
  rw [h.synced]
  by_cases hc : id = w.currentId
  · subst hc
    exact List.IsPrefix.take h.grows _
  · rw [h.older id hc]

/-- **New records** are in the newest file. -/
theorem OnlyNewest.mem_newest {w w' : WAL} (h : OnlyNewest w w') (ha : Active w) (hl : Logs w.files)
    {new : List WALRecord} (hlog : log w'.files = log w.files ++ new) :
    ∀ r ∈ new, r ∈ recoverFile (w'.files.data w'.currentId) := by
  obtain ⟨older, hd⟩ := ha.last
  have hsorted := hl.sorted
  rw [hd] at hsorted
  have holder : ∀ id ∈ older, w'.files.data id = w.files.data id := fun id hid =>
    h.older id ((List.pairwise_append.mp hsorted).2.2 id hid _ (List.mem_singleton.mpr rfl)).ne
  have hsame : older.flatMap (fun id => recoverFile (w'.files.data id)) =
      older.flatMap (fun id => recoverFile (w.files.data id)) := by
    refine List.flatMap_congr fun id hid => ?_
    rw [holder id hid]
  rw [log, log, h.dir, hd, List.flatMap_append, List.flatMap_append, hsame, List.append_assoc, List.append_cancel_left_eq,
    List.flatMap_singleton, List.flatMap_singleton] at hlog
  intro r hr
  rw [h.currentId, hlog]
  exact List.mem_append_right _ hr

/-- **A sync** makes the records of the newest file survive. -/
theorem survives_sync {w : WAL} (ha : Active w) {r : WALRecord} (hr : r ∈ recoverFile (w.files.data w.currentId)) :
    Survives w.sync.files r := by
  obtain ⟨older, hd⟩ := ha.last
  rw [sync, if_pos ha.writer]
  refine ⟨w.currentId, ?_, ?_⟩
  · show w.currentId ∈ w.files.dir
    rw [hd]
    exact List.mem_append_right _ (List.mem_singleton.mpr rfl)
  · show r ∈ recoverFile ((w.files.data w.currentId).take (setAt w.files.synced w.currentId _ w.currentId))
    rw [setAt_self, List.take_length]
    exact hr

end WAL

namespace DB

theorem onlyNewest_writeEntry (db : DB) (e : BatchEntry) (fv : AppendFault) (fw : Option Nat) :
    db.wal.OnlyNewest (db.writeEntry e fv fw).1.wal := by
  rcases wal_writeEntry db e fv fw with hw | ⟨r, hw⟩
  · rw [hw]
    exact WAL.OnlyNewest.refl _
  · rw [hw]
    exact WAL.onlyNewest_addRecord db.wal r fw

theorem onlyNewest_writeEntries (f : WriteFaults) (batch : WriteBatch) (i : Nat) (db : DB) :
    db.wal.OnlyNewest (DB.writeEntries f i batch db).1.wal :=
  @writeEntries_induct (fun db db' => db.wal.OnlyNewest db'.wal) (fun db => WAL.OnlyNewest.refl db.wal)
    (fun h₁ h₂ => h₁.trans h₂) onlyNewest_writeEntry f batch i db

/-- The end of a write keeps what was synced. -/
theorem Logged.lasts_endWrite {db : DB} (h : db.Logged) (sync : Bool) (fault : CreateFault) :
    WAL.Lasts (if sync then db.syncLogs else db).wal.files
      ((if sync then db.syncLogs else db).maybeScheduleFlush fault).1.wal.files := by
  have hlogged : (if sync then db.syncLogs else db).Logged := by
    split
    · exact h.syncLogs.1
    · exact h
  generalize (if sync then db.syncLogs else db) = db₁ at hlogged ⊢
  obtain ⟨-, -, hlasts, -⟩ := create_logs hlogged.logs (fun id hid => Nat.lt_succ_of_le (hlogged.walId id hid)) fault
  unfold DB.maybeScheduleFlush
  split
  · exact hlasts
  · exact WAL.Lasts.refl _

end DB

end SplitKV
