import SplitKV.VLog

/-!
# Opening the value log

`Open` recognises every file whose id has at most five digits, and continues the newest one at its end (`openLog_spec`).
-/

namespace SplitKV

namespace VLog

theorem le_foldl_max (l : List Nat) : ∀ n, n ≤ l.foldl max n ∧ ∀ id ∈ l, id ≤ l.foldl max n := by
  induction l with
  | nil => exact fun n => ⟨Nat.le_refl n, fun id hid => absurd hid List.not_mem_nil⟩
  | cons a l ih =>
    intro n
    obtain ⟨h₁, h₂⟩ := ih (max n a)
    rw [List.foldl_cons]
    refine ⟨(Nat.le_max_left n a).trans h₁, fun id hid => ?_⟩
    rcases List.mem_cons.mp hid with rfl | hid
    · exact (Nat.le_max_right n _).trans h₁
    · exact h₂ id hid

theorem foldl_max_mem (l : List Nat) : ∀ n, l.foldl max n = n ∨ l.foldl max n ∈ l := by
  induction l with
  | nil => exact fun n => Or.inl rfl
  | cons a l ih =>
    intro n
    rw [List.foldl_cons]
    rcases ih (max n a) with h | h
    · rcases Nat.le_total n a with hle | hle
      · rw [h, Nat.max_eq_right hle]
        exact Or.inr List.mem_cons_self
      · rw [h, Nat.max_eq_left hle]
        exact Or.inl rfl
    · exact Or.inr (List.mem_cons_of_mem _ h)

/-- The listing recognises every file whose id has at most five digits. -/
theorem recoverFileIds_eq {files : Folder Bytes} (h : ∀ id ∈ files.dir, id < 100000) :
    recoverFileIds files = if files.dir.foldl max 0 = 0 then 1 else files.dir.foldl max 0 := by
  have hids : files.dir.filterMap (fun id => recoverFileId (vlogFileName id)) = files.dir := by
    have hsome : ∀ id ∈ files.dir, recoverFileId (vlogFileName id) = some id := by
      intro id hid
      rw [recoverFileId_vlogFileName, if_pos (h id hid)]
    rw [List.filterMap_congr hsome, List.filterMap_some]
  rw [recoverFileIds, hids]

/-- **Opening the value log** continues the newest file at its end. -/
theorem openLog_spec {files : Folder Bytes} (h : ∀ id ∈ files.dir, 1 ≤ id ∧ id < 100000) :
    (openLog files).Ready ∧ (openLog files).Tidy ∧ (files.dir ≠ [] → (openLog files).files = files) ∧
      (∀ id ∈ (openLog files).files.dir, id < 100000) := by
  have hid := recoverFileIds_eq fun id hid => (h id hid).2
  obtain ⟨-, hle⟩ := le_foldl_max files.dir 0
  unfold openLog
  simp only
  by_cases hnil : files.dir = []
  · have hone : recoverFileIds files = 1 := by rw [hid, hnil]; rfl
    have hhas : files.has 1 = false := by simp [Folder.has, hnil]
    have hdir : ∀ id, id ∈ (files.create 1 []).dir ↔ id = 1 := by
      intro id
      rw [Folder.mem_dir_create, hnil]
      simp
    rw [hone, hhas]
    simp only [Bool.false_eq_true, if_false]
    refine ⟨⟨rfl, by simp, (hdir 1).mpr rfl⟩, ⟨fun id hm => ?_, fun id hm => ?_, fun _ => (hdir 1).mpr rfl⟩,
      fun hne => absurd hnil hne, fun id hm => ?_⟩
    · exact ((hdir id).mp hm).le
    · exact ((hdir id).mp hm).ge
    · rw [(hdir id).mp hm]
      omega
  · obtain ⟨id₀, hid₀⟩ := List.exists_mem_of_ne_nil _ hnil
    have hpos : files.dir.foldl max 0 ≠ 0 := by
      have h₁ := hle id₀ hid₀
      have h₂ := (h id₀ hid₀).1
      omega
    have hmem : files.dir.foldl max 0 ∈ files.dir := (foldl_max_mem files.dir 0).resolve_left hpos
    rw [hid, if_neg hpos, Folder.has_iff.mpr hmem]
    simp only [if_true]
    exact ⟨⟨rfl, rfl, hmem⟩, ⟨hle, fun id hid => (h id hid).1, fun _ => hmem⟩, fun _ => trivial, fun id hid => (h id hid).2⟩

end VLog

end SplitKV
