import Mathlib.Data.Finmap
import SplitKV.MemTable

/-!
# Removal, and the tree as a finite map (`avl_tree.h`)

On a search tree `remove` filters its key out of the in-order list (`inorder_remove`). From that, a tree that came out of
any operations is the finite map that the same operations make (`AVLTree.Represents.apply`).
-/

namespace SplitKV

open Assoc

namespace Node

variable {κ α : Type}

/-- Whether the pointer is null. -/
def isNil : Node κ α → Bool
  | nil => true
  | node .. => false

/-- `FindMin`. -/
def findMin : Node κ α → Node κ α
  | nil => nil
  | node k v l r h => if l.isNil then node k v l r h else l.findMin

/-- The first binding in order is that of `FindMin`. -/
theorem findMin_spec {t : Node κ α} (ht : t.isNil = false) :
    ∃ k v r h rest, t.findMin = node k v nil r h ∧ t.inorder = (k, v) :: rest := by
  induction t with
  | nil => cases ht
  | node k v l r h ihl _ =>
    rw [findMin, inorder]
    cases hl : l.isNil with
    | true =>
      cases l with
      | nil => exact ⟨k, v, r, h, r.inorder, rfl, rfl⟩
      | node => cases hl
    | false =>
      obtain ⟨k', v', r', h', rest, hm, hi⟩ := ihl hl
      exact ⟨k', v', r', h', rest ++ (k, v) :: r.inorder, hm, by rw [hi, List.cons_append]⟩

variable [LinearOrder κ]

/-- `Remove` below a node; the flag is `found`. -/
def remove : κ → Node κ α → Node κ α × Bool
  | _, nil => (nil, false)
  | key, node k v l r h =>
    if key < k then
      let (l', found) := l.remove key
      (balance (node k v l' r h), found)
    else if k < key then
      let (r', found) := r.remove key
      (balance (node k v l r' h), found)
    else if l.isNil || r.isNil then (if l.isNil then r else l, true)
    else
      match r.findMin with
      -- the successor takes the node's place and is removed below it, which sets the flag again
      | node sk sv _ _ _ => (balance (node sk sv l (r.remove sk).1 h), true)
      | nil => (node k v l r h, true)

/-- **Removal takes the key, and nothing else, out of a search tree.** -/
theorem inorder_remove {t : Node κ α} (h : Sorted t.inorder) (key : κ) :
    (t.remove key).1.inorder = t.inorder.filter (fun p => p.1 ≠ key) := by
  induction t generalizing key with
  | nil => rfl
  | node k v l r hh ihl ihr =>
    rw [inorder, sorted_append, sorted_cons] at h
    obtain ⟨hl, ⟨hkr, hr⟩, hlt⟩ := h
    have hlk : ∀ p ∈ l.inorder, p.1 < k := fun p hp => hlt p hp (k, v) List.mem_cons_self
    have keepl : k ≤ key → l.inorder.filter (fun p => p.1 ≠ key) = l.inorder := fun hk =>
      List.filter_eq_self.mpr fun p hp => by simpa using ((hlk p hp).trans_le hk).ne
    have keepr : key ≤ k → r.inorder.filter (fun p => p.1 ≠ key) = r.inorder := fun hk =>
      List.filter_eq_self.mpr fun p hp => by simpa using (hk.trans_lt (hkr p hp)).ne'
    simp only [inorder, List.filter_append]
    rw [remove]
    by_cases h₁ : key < k
    · have hk : k ≠ key := h₁.ne'
      rw [if_pos h₁, inorder_balance, inorder, ihl hl, List.filter_cons_of_pos (by simpa using hk), keepr h₁.le]
    · by_cases h₂ : k < key
      · rw [if_neg h₁, if_pos h₂, inorder_balance, inorder, ihr hr, List.filter_cons_of_pos (by simpa using h₂.ne),
          keepl h₂.le]
      · have he : key = k := le_antisymm (not_lt.mp h₂) (not_lt.mp h₁)
        subst he
        rw [if_neg h₁, if_neg h₂, List.filter_cons_of_neg (by simp), keepl (le_refl _), keepr (le_refl _)]
        cases hln : l.isNil with
        | true =>
          cases l with
          | nil => rfl
          | node => cases hln
        | false =>
          cases hrn : r.isNil with
          | true =>
            cases r with
            | nil => simp [inorder]
            | node => cases hrn
          | false =>
            obtain ⟨sk, sv, sr, sh, rest, hm, hi⟩ := findMin_spec hrn
            have hrest : Sorted ((sk, sv) :: rest) := hi ▸ hr
            simp only [Bool.or_self, Bool.false_eq_true, if_false, hm]
            rw [inorder_balance, inorder, ihr hr, hi, List.filter_cons_of_neg (by simp)]
            congr 2
            exact List.filter_eq_self.mpr fun p hp => by simpa using ((sorted_cons.mp hrest).1 p hp).ne'

/-- The flag of `Remove` says whether the key was there. -/
theorem remove_flag (t : Node κ α) (key : κ) : (t.remove key).2 = (t.find key).isSome := by
  induction t with
  | nil => rfl
  | node k v l r h ihl ihr =>
    rw [remove, find]
    by_cases h₁ : key < k
    · rw [if_pos h₁, if_pos h₁, ← ihl]
    · by_cases h₂ : k < key
      · rw [if_neg h₁, if_pos h₂, if_neg h₁, if_pos h₂, ← ihr]
      · rw [if_neg h₁, if_neg h₂, if_neg h₁, if_neg h₂]
        split
        · rfl
        · split <;> rfl

end Node

namespace AVLTree

variable {κ α : Type} [LinearOrder κ]

/-- `Remove`. -/
def remove (t : AVLTree κ α) (key : κ) : AVLTree κ α × Bool :=
  let (root, found) := t.root.remove key
  (⟨root, if found then t.size - 1 else t.size⟩, found)

/-- `Clear`. -/
def clear (_ : AVLTree κ α) : AVLTree κ α := empty

theorem remove_flag (t : AVLTree κ α) (key : κ) : (t.remove key).2 = (t.find key).isSome := Node.remove_flag t.root key

theorem entries_remove {t : AVLTree κ α} (h : Valid t) (key : κ) :
    (t.remove key).1.entries = t.entries.filter (fun p => p.1 ≠ key) := by
  have hs := h.sorted
  rw [entries_eq] at hs ⊢
  rw [entries_eq]
  exact Node.inorder_remove hs key

/-- Removing keeps the tree valid. -/
theorem valid_remove {t : AVLTree κ α} (h : Valid t) (key : κ) : Valid (t.remove key).1 := by
  have he := entries_remove h key
  refine ⟨by rw [he]; exact h.sorted.sublist List.filter_sublist, ?_⟩
  rw [he, h.sorted.length_filter_ne, ← find_eq_lookup h, ← h.size, ← remove_flag]
  rfl

/-! ## The tree as a finite map -/

/-- The operations that change a tree. -/
inductive Op (κ α : Type) where
  | insert (key : κ) (value : α)
  | remove (key : κ)
  | clear

/-- The operation on the tree. -/
def apply (t : AVLTree κ α) : Op κ α → AVLTree κ α
  | .insert key value => t.insert key value
  | .remove key => (t.remove key).1
  | .clear => t.clear

/-- The operation on a finite map. -/
def Op.onMap (M : Finmap (fun _ : κ => α)) : Op κ α → Finmap (fun _ : κ => α)
  | .insert key value => M.insert key value
  | .remove key => M.erase key
  | .clear => ∅

/-- The tree is valid and binds what the map binds. -/
structure Represents (t : AVLTree κ α) (M : Finmap (fun _ : κ => α)) : Prop where
  valid : t.Valid
  lookup : ∀ k, lookup k t.entries = M.lookup k

namespace Represents

variable {t : AVLTree κ α} {M : Finmap (fun _ : κ => α)}

theorem empty : Represents (empty : AVLTree κ α) ∅ :=
  ⟨valid_empty, fun k => by rw [Finmap.lookup_empty]; rfl⟩

theorem find (h : Represents t M) (k : κ) : t.find k = M.lookup k := by rw [find_eq_lookup h.valid, h.lookup]

theorem mem_entries (h : Represents t M) (k : κ) (v : α) : (k, v) ∈ t.entries ↔ M.lookup k = some v := by
  rw [← h.lookup, h.valid.sorted.lookup_eq_some_iff]

/-- The size of the tree is the number of keys of the map. -/
theorem size (h : Represents t M) : t.size = M.keys.card := by
  have hnd : (t.entries.map Prod.fst).Nodup :=
    List.pairwise_map.mpr (h.valid.sorted.imp fun hlt => hlt.ne)
  have hk : M.keys = (t.entries.map Prod.fst).toFinset := by
    ext k
    rw [Finmap.mem_keys, Finmap.mem_iff, List.mem_toFinset, List.mem_map]
    constructor
    · rintro ⟨v, hv⟩
      exact ⟨(k, v), (h.mem_entries k v).mpr hv, rfl⟩
    · rintro ⟨⟨k', v⟩, hp, rfl⟩
      exact ⟨v, (h.mem_entries _ v).mp hp⟩
  rw [hk, List.toFinset_card_of_nodup hnd, List.length_map, h.valid.size]

/-- **Every operation on the tree is the operation on the map.** -/
theorem apply (h : Represents t M) (op : Op κ α) : Represents (t.apply op) (op.onMap M) := by
  cases op with
  | insert key value =>
    refine ⟨valid_insert h.valid key value, fun k => ?_⟩
    by_cases hk : k = key
    · subst hk
      rw [Op.onMap, Finmap.lookup_insert]
      exact lookup_insert_self h.valid k value
    · rw [Op.onMap, Finmap.lookup_insert_of_ne _ hk, ← h.lookup]
      exact lookup_insert_of_ne hk value t
  | remove key =>
    refine ⟨valid_remove h.valid key, fun k => ?_⟩
    rw [AVLTree.apply, entries_remove h.valid, lookup_filter_ne, Op.onMap]
    split
    · rename_i hk
      rw [hk, Finmap.lookup_erase]
    · rename_i hk
      rw [Finmap.lookup_erase_ne hk, h.lookup]
  | clear => exact Represents.empty

theorem foldl (h : Represents t M) (ops : List (Op κ α)) :
    Represents (ops.foldl AVLTree.apply t) (ops.foldl Op.onMap M) := by
  induction ops generalizing t M with
  | nil => exact h
  | cons op ops ih => exact ih (h.apply op)

end Represents

end AVLTree

/-! ## The sorted entries of a memtable -/

namespace MemTable

/-- A write to a memtable. -/
inductive Op where
  | put (key : Key) (ptr : VLogPointer) (seq : Nat)
  | delete (key : Key) (seq : Nat)

def apply (m : MemTable) : Op → MemTable
  | .put key ptr seq => m.put key ptr seq
  | .delete key seq => m.delete key seq

/-- The entry a write stores under its key. -/
def Op.written : Op → Key × InternalEntry
  | .put key ptr seq => (key, ⟨ptr, seq, .value⟩)
  | .delete key seq => (key, ⟨⟨0, 0, 0⟩, seq, .deletion⟩)

theorem apply_eq_add (m : MemTable) (op : Op) : m.apply op = m.add op.written.1 op.written.2 := by cases op <;> rfl

/-- The memtable binds every key to the last entry written under it, or else to what it bound it to before. -/
theorem lookup_foldl {m : MemTable} (h : m.Valid) (ops : List Op) : (ops.foldl apply m).Valid ∧ ∀ k,
    lookup k (ops.foldl apply m).getSortedEntries =
      (lookup k (ops.map Op.written).reverse).or (lookup k m.getSortedEntries) := by
  induction ops generalizing m with
  | nil => exact ⟨h, fun k => rfl⟩
  | cons op ops ih =>
    have hv : (m.apply op).Valid := by
      rw [apply_eq_add]
      exact valid_add h _ _
    obtain ⟨hvalid, hl⟩ := ih hv
    refine ⟨hvalid, fun k => ?_⟩
    rw [List.foldl_cons, hl k, List.map_cons, List.reverse_cons, lookup_append, Option.or_assoc]
    congr 1
    rw [apply_eq_add, lookup_cons]
    split
    · rename_i hk
      rw [← hk]
      exact lookup_add_self h _ _
    · rename_i hk
      exact lookup_add_of_ne (fun e => hk e.symm) _ _

end MemTable

/-- **The AVL tree is a finite map**, and the sorted entries of a memtable are the last ones written. -/
theorem AVLTree.finite_map {κ α : Type} [LinearOrder κ] (ops : List (Op κ α)) (writes : List MemTable.Op)
    (sizeLimit : Nat) :
    let t := ops.foldl apply empty
    let M := ops.foldl Op.onMap ∅
    let m := writes.foldl MemTable.apply (.new sizeLimit)
    (∀ key, t.find key = M.lookup key) ∧ (∀ key, (t.remove key).2 = true ↔ key ∈ M) ∧ t.size = M.keys.card ∧
      (∀ n, t.size ≤ n → Node.collect n (t.root.pushLeft []) = t.entries) ∧
      t.entries.Pairwise (fun p q => p.1 < q.1) ∧ (∀ key value, (key, value) ∈ t.entries ↔ M.lookup key = some value) ∧
      m.getSortedEntries.Pairwise (fun p q => p.1 < q.1) ∧
      ∀ key e, (key, e) ∈ m.getSortedEntries ↔ lookup key (writes.map MemTable.Op.written).reverse = some e := by
  intro t M m
  have h : Represents t M := Represents.empty.foldl ops
  obtain ⟨hm, hl⟩ := MemTable.lookup_foldl (MemTable.valid_new sizeLimit) writes
  refine ⟨h.find, fun key => ?_, h.size, fun n hn => ?_, h.valid.sorted, h.mem_entries, hm.sorted, fun key e => ?_⟩
  · rw [remove_flag, h.find, Finmap.lookup_isSome]
  · have hs := h.valid.size
    rw [entries_eq, Node.length_inorder] at hs
    rw [entries_eq]
    exact Node.collect_pushLeft (hs ▸ hn)
  · rw [← hm.sorted.lookup_eq_some_iff, hl key, MemTable.getSortedEntries_new, lookup_nil, Option.or_none]

end SplitKV
