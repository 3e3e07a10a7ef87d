import SplitKV.AvlTree
import SplitKV.Basic

/-!
# The memtable (`memtable.cpp`)
-/

namespace SplitKV

open Assoc

/-- `MemTable`. -/
structure MemTable where
  tree : AVLTree Key InternalEntry
  sizeLimit : Nat
  memoryUsage : Nat

namespace MemTable

/-- `sizeof(InternalEntry)`, with the padding of a 64-bit target. -/
def sizeofInternalEntry : Nat := 40

/-- `kNodeOverhead`. -/
def kNodeOverhead : Nat := 48

/-- The constructor. -/
def new (sizeLimit : Nat) : MemTable := ⟨.empty, sizeLimit, 0⟩

/-- Inserts an entry; only a new key counts towards the memory usage. -/
def add (m : MemTable) (key : Key) (entry : InternalEntry) : MemTable :=
  { m with
    tree := m.tree.insert key entry
    memoryUsage :=
      if (m.tree.find key).isSome then m.memoryUsage
      else m.memoryUsage + (key.length + sizeofInternalEntry + kNodeOverhead) }

/-- `Put`. -/
def put (m : MemTable) (key : Key) (ptr : VLogPointer) (seq : Nat) : MemTable := m.add key ⟨ptr, seq, .value⟩

/-- `Delete`: a tombstone with the zero pointer. -/
def delete (m : MemTable) (key : Key) (seq : Nat) : MemTable := m.add key ⟨⟨0, 0, 0⟩, seq, .deletion⟩

/-- `Get`. -/
def get (m : MemTable) (key : Key) : Except Status InternalEntry :=
  match m.tree.find key with
  | some e => .ok e
  | none => .error (.NotFound "key not found in memtable")

/-- `ShouldFlush`. -/
def shouldFlush (m : MemTable) : Bool := decide (m.sizeLimit ≤ m.memoryUsage)

/-- `Count`. -/
def count (m : MemTable) : Nat := m.tree.size

/-- `GetSortedEntries`. -/
def getSortedEntries (m : MemTable) : List (Key × InternalEntry) := m.tree.entries

/-- The tree of the memtable is valid. -/
def Valid (m : MemTable) : Prop := m.tree.Valid

theorem valid_new (n : Nat) : Valid (new n) := AVLTree.valid_empty

@[simp] theorem getSortedEntries_new (n : Nat) : (new n).getSortedEntries = [] := rfl

theorem valid_add {m : MemTable} (h : Valid m) (key : Key) (e : InternalEntry) : Valid (m.add key e) :=
  AVLTree.valid_insert h key e

theorem Valid.sorted {m : MemTable} (h : Valid m) : Sorted m.getSortedEntries := AVLTree.Valid.sorted h

theorem Valid.count_eq_zero {m : MemTable} (h : Valid m) : m.count = 0 ↔ m.getSortedEntries = [] := by
  rw [count, AVLTree.Valid.size h, List.length_eq_zero_iff]
  rfl

/-- **`Get` is the lookup in the sorted entries.** -/
theorem get_toOption {m : MemTable} (h : Valid m) (key : Key) :
    (m.get key).toOption = lookup key m.getSortedEntries := by
  rw [getSortedEntries, ← AVLTree.find_eq_lookup h]
  unfold get
  cases m.tree.find key <;> rfl

/-- Adding an entry binds its key. -/
theorem lookup_add_self {m : MemTable} (h : Valid m) (key : Key) (e : InternalEntry) :
    lookup key (m.add key e).getSortedEntries = some e := AVLTree.lookup_insert_self h key e

/-- Adding an entry leaves the other keys alone. -/
theorem lookup_add_of_ne {key k : Key} (hk : k ≠ key) (e : InternalEntry) (m : MemTable) :
    lookup k (m.add key e).getSortedEntries = lookup k m.getSortedEntries :=
  AVLTree.lookup_insert_of_ne hk e m.tree

theorem mem_add {m : MemTable} {key : Key} {e : InternalEntry} {p : Key × InternalEntry}
    (hp : p ∈ (m.add key e).getSortedEntries) : p = (key, e) ∨ p ∈ m.getSortedEntries :=
  AVLTree.mem_entries_insert hp

end MemTable

end SplitKV
