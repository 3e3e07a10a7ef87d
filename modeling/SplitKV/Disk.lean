import SplitKV.FileName

/-!
# The files of the database directory

The numbered files of one kind form a folder: the contents by id, the ids that have a directory entry, and how much of
each file is known to be on the device. A file that was removed keeps its contents for those who have it open.
-/

namespace SplitKV

/-- A family with one member replaced. -/
def setAt {α : Type} (f : Nat → α) (id : Nat) (a : α) : Nat → α := fun i => if i = id then a else f i

@[simp] theorem setAt_self {α : Type} (f : Nat → α) (id : Nat) (a : α) : setAt f id a id = a := if_pos rfl

theorem setAt_of_ne {α : Type} (f : Nat → α) {id i : Nat} (h : i ≠ id) (a : α) : setAt f id a i = f i := if_neg h

/-- A member of a family with one member replaced. -/
theorem setAt_cases {α : Type} {f : Nat → α} {id i : Nat} {a b : α} (h : setAt f id a i = b) :
    i = id ∧ a = b ∨ i ≠ id ∧ f i = b := by
  by_cases hi : i = id
  · subst hi
    rw [setAt_self] at h
    exact Or.inl ⟨rfl, h⟩
  · rw [setAt_of_ne _ hi] at h
    exact Or.inr ⟨hi, h⟩

/-- The files of one kind. -/
structure Folder (α : Type) where
  data : Nat → α
  dir : List Nat
  synced : Nat → Nat

namespace Folder

variable {α : Type}

/-- No file. -/
def empty (a : α) : Folder α := ⟨fun _ => a, [], fun _ => 0⟩

/-- `FileExists`. -/
def has (f : Folder α) (id : Nat) : Bool := f.dir.contains id

/-- New contents of a file. -/
def write (f : Folder α) (id : Nat) (a : α) : Folder α := { f with data := setAt f.data id a }

/-- `fopen(path, "wb")`: the file is created, or truncated to the contents `a`. -/
def create (f : Folder α) (id : Nat) (a : α) : Folder α :=
  { data := setAt f.data id a
    dir := if f.dir.contains id then f.dir else f.dir ++ [id]
    synced := setAt f.synced id 0 }

/-- `DeleteFile`. -/
def remove (f : Folder α) (id : Nat) : Folder α := { f with dir := f.dir.filter (· != id) }

/-- `Sync` of a file of `n` bytes. -/
def sync (f : Folder α) (id n : Nat) : Folder α := { f with synced := setAt f.synced id n }

@[simp] theorem data_write_self (f : Folder α) (id : Nat) (a : α) : (f.write id a).data id = a :=
  setAt_self f.data id a

theorem data_write_of_ne (f : Folder α) {id i : Nat} (h : i ≠ id) (a : α) : (f.write id a).data i = f.data i :=
  setAt_of_ne f.data h a

@[simp] theorem data_create_self (f : Folder α) (id : Nat) (a : α) : (f.create id a).data id = a :=
  setAt_self f.data id a

theorem data_create_of_ne (f : Folder α) {id i : Nat} (h : i ≠ id) (a : α) : (f.create id a).data i = f.data i :=
  setAt_of_ne f.data h a

@[simp] theorem dir_write (f : Folder α) (id : Nat) (a : α) : (f.write id a).dir = f.dir := rfl
@[simp] theorem data_remove (f : Folder α) (id : Nat) : (f.remove id).data = f.data := rfl
@[simp] theorem data_sync (f : Folder α) (id n : Nat) : (f.sync id n).data = f.data := rfl
@[simp] theorem dir_sync (f : Folder α) (id n : Nat) : (f.sync id n).dir = f.dir := rfl

theorem has_iff {f : Folder α} {id : Nat} : f.has id = true ↔ id ∈ f.dir := by simp [has]

theorem mem_dir_create {f : Folder α} {id i : Nat} {a : α} : i ∈ (f.create id a).dir ↔ i = id ∨ i ∈ f.dir := by
  unfold create
  simp only
  split
  · rename_i h
    have hid : id ∈ f.dir := by simpa using h
    exact ⟨Or.inr, fun h => h.elim (fun he => he ▸ hid) (fun h => h)⟩
  · simp [or_comm]

theorem mem_dir_remove {f : Folder α} {id i : Nat} : i ∈ (f.remove id).dir ↔ i ∈ f.dir ∧ i ≠ id := by
  simp [remove]

end Folder

end SplitKV
