import SplitKV.Lib.Assoc

/-!
# The AVL tree of the memtable (`avl_tree.h`)

The tree is a search tree over any linearly ordered key type. `inorder` is what the iterator visits
(`collect_eq_inorder`); rotations keep it (`inorder_balance`). On a search tree, `find` looks a key up in the in-order
list (`find_eq_lookup`), and `insert` keeps the order and binds its key (`ordered_insert`, `find_insert`).
-/

namespace SplitKV

open Assoc

/-- `AVLTree::Node`, with the null pointer as `nil`. -/
inductive Node (κ α : Type) where
  | nil
  | node (key : κ) (value : α) (left right : Node κ α) (height : Nat)

namespace Node

variable {κ α : Type}

/-- `Height`. -/
def heightOf : Node κ α → Nat
  | nil => 0
  | node _ _ _ _ h => h

/-- `BalanceFactor`. -/
def balanceFactor : Node κ α → Int
  | nil => 0
  | node _ _ l r _ => (l.heightOf : Int) - r.heightOf

/-- `UpdateHeight`. -/
def updateHeight : Node κ α → Node κ α
  | nil => nil
  | node k v l r _ => node k v l r (1 + if l.heightOf > r.heightOf then l.heightOf else r.heightOf)

/-- `RotateRight`; the source calls it with a left child. -/
def rotateRight : Node κ α → Node κ α
  | node k v (node xk xv a b xh) c h => updateHeight (node xk xv a (updateHeight (node k v b c h)) xh)
  | t => t

/-- `RotateLeft`; the source calls it with a right child. -/
def rotateLeft : Node κ α → Node κ α
  | node k v a (node yk yv b c yh) h => updateHeight (node yk yv (updateHeight (node k v a b h)) c yh)
  | t => t

/-- The left-heavy branch of `Balance`: a left rotation of the left child first when that is right-heavy. -/
def balanceLeft : Node κ α → Node κ α
  | node k v l r h => rotateRight (node k v (if l.balanceFactor < 0 then rotateLeft l else l) r h)
  | t => t

/-- The right-heavy branch of `Balance`. -/
def balanceRight : Node κ α → Node κ α
  | node k v l r h => rotateLeft (node k v l (if r.balanceFactor > 0 then rotateRight r else r) h)
  | t => t

/-- `Balance`. -/
def balance (t : Node κ α) : Node κ α :=
  let t := t.updateHeight
  if t.balanceFactor > 1 then t.balanceLeft
  else if t.balanceFactor < -1 then t.balanceRight
  else t

section Order

variable [LinearOrder κ]

/-- `Insert` below a node; the flag says whether a node was created. -/
def insert (key : κ) (value : α) : Node κ α → Node κ α × Bool
  | nil => (node key value nil nil 1, true)
  | node k v l r h =>
    if key < k then
      let (l', ins) := l.insert key value
      (balance (node k v l' r h), ins)
    else if k < key then
      let (r', ins) := r.insert key value
      (balance (node k v l r' h), ins)
    else (node k value l r h, false)

/-- `Find`. -/
def find (key : κ) : Node κ α → Option α
  | nil => none
  | node k v l r _ => if key < k then l.find key else if k < key then r.find key else some v

end Order

/-! ## The iterator -/

/-- `Iterator::PushLeft`. -/
def pushLeft : Node κ α → List (Node κ α) → List (Node κ α)
  | nil, stack => stack
  | node k v l r h, stack => l.pushLeft (node k v l r h :: stack)

/-- The number of nodes. -/
def nodes : Node κ α → Nat
  | nil => 0
  | node _ _ l r _ => l.nodes + r.nodes + 1

/-- The loop from `begin()` to `end()`: the top of the stack is visited, then the left spine of its right child is
pushed. -/
def collect : Nat → List (Node κ α) → List (κ × α)
  | n + 1, node k v _ r _ :: stack => (k, v) :: collect n (r.pushLeft stack)
  | _, _ => []

/-- The bindings in key order. -/
def inorder : Node κ α → List (κ × α)
  | nil => []
  | node k v l r _ => l.inorder ++ (k, v) :: r.inorder

/-- What is left to visit from a stack: every node on it and its right subtree. -/
def pending : List (Node κ α) → List (κ × α)
  | [] => []
  | nil :: stack => pending stack
  | node k v _ r _ :: stack => (k, v) :: (r.inorder ++ pending stack)

/-- No null pointer on the stack. -/
def Solid (stack : List (Node κ α)) : Prop := ∀ t ∈ stack, t ≠ nil

theorem pending_pushLeft (t : Node κ α) (stack : List (Node κ α)) :
    pending (t.pushLeft stack) = t.inorder ++ pending stack := by
  induction t generalizing stack with
  | nil => rfl
  | node k v l r h ihl _ => simp [pushLeft, ihl, pending, inorder]

theorem solid_pushLeft (t : Node κ α) {stack : List (Node κ α)} (hs : Solid stack) : Solid (t.pushLeft stack) := by
  induction t generalizing stack with
  | nil => exact hs
  | node k v l r h ihl _ =>
    refine ihl fun t ht => ?_
    rcases List.mem_cons.mp ht with rfl | ht
    · simp
    · exact hs t ht

theorem length_inorder (t : Node κ α) : t.inorder.length = t.nodes := by
  induction t with
  | nil => rfl
  | node k v l r h ihl ihr => simp [inorder, nodes, ihl, ihr]; omega

theorem collect_eq_pending (n : Nat) : ∀ {stack : List (Node κ α)}, Solid stack → (pending stack).length ≤ n →
    collect n stack = pending stack := by
  induction n with
  | zero =>
    intro stack _ hn
    cases stack with
    | nil => rfl
    | cons t stack => cases t <;> simp_all [pending, Solid]
  | succ n ih =>
    intro stack hs hn
    cases stack with
    | nil => rfl
    | cons t stack =>
      cases t with
      | nil => exact absurd rfl (hs nil List.mem_cons_self)
      | node k v l r h =>
        have hs' : Solid stack := fun t ht => hs t (List.mem_cons_of_mem _ ht)
        simp only [pending, List.length_cons] at hn
        rw [collect, ih (solid_pushLeft r hs') (by rw [pending_pushLeft]; omega), pending_pushLeft, pending]

/-- **The iterator visits the tree in order**, and then stops. -/
theorem collect_pushLeft {t : Node κ α} {n : Nat} (hn : t.nodes ≤ n) : collect n (t.pushLeft []) = t.inorder := by
  have hp : pending (t.pushLeft []) = t.inorder := by simp [pending_pushLeft, pending]
  rw [collect_eq_pending n (solid_pushLeft t (by simp [Solid])) (by rw [hp, length_inorder]; exact hn), hp]

theorem collect_eq_inorder (t : Node κ α) : collect t.nodes (t.pushLeft []) = t.inorder := collect_pushLeft le_rfl

/-! ## Rotations keep the order -/

@[simp] theorem inorder_updateHeight (t : Node κ α) : t.updateHeight.inorder = t.inorder := by cases t <;> rfl

@[simp] theorem inorder_rotateRight (t : Node κ α) : t.rotateRight.inorder = t.inorder := by
  cases t with
  | nil => rfl
  | node k v l r h => cases l <;> simp [rotateRight, inorder, updateHeight]

@[simp] theorem inorder_rotateLeft (t : Node κ α) : t.rotateLeft.inorder = t.inorder := by
  cases t with
  | nil => rfl
  | node k v l r h => cases r <;> simp [rotateLeft, inorder, updateHeight]

@[simp] theorem inorder_balanceLeft (t : Node κ α) : t.balanceLeft.inorder = t.inorder := by
  cases t with
  | nil => rfl
  | node k v l r h =>
    rw [balanceLeft, inorder_rotateRight, inorder, inorder]
    split <;> simp

@[simp] theorem inorder_balanceRight (t : Node κ α) : t.balanceRight.inorder = t.inorder := by
  cases t with
  | nil => rfl
  | node k v l r h =>
    rw [balanceRight, inorder_rotateLeft, inorder, inorder]
    split <;> simp

/-- **Balancing does not change what the tree holds.** -/
@[simp] theorem inorder_balance (t : Node κ α) : t.balance.inorder = t.inorder := by
  unfold balance
  simp only
  split
  · simp
  · split <;> simp

/-! ## The tree as a map -/

section Map

variable [LinearOrder κ]

theorem find_eq_lookup {t : Node κ α} (h : Sorted t.inorder) (key : κ) : t.find key = lookup key t.inorder := by
  induction t with
  | nil => rfl
  | node k v l r hh ihl ihr =>
    rw [inorder, sorted_append] at h
    obtain ⟨hl, hkr, hlt⟩ := h
    obtain ⟨hr, hr'⟩ := sorted_cons.mp hkr
    rw [find, inorder, lookup_append, lookup_cons, ihl hl, ihr hr']
    have hnl : k ≤ key → lookup key l.inorder = none := fun hk =>
      lookup_of_gt fun p hp => (hlt p hp (k, v) List.mem_cons_self).trans_le hk
    by_cases h₁ : key < k
    · have hnr : lookup key r.inorder = none := lookup_of_lt fun p hp => h₁.trans (hr p hp)
      simp [h₁, h₁.ne', hnr]
    · by_cases h₂ : k < key
      · simp [h₁, h₂, h₂.ne, hnl h₂.le]
      · have he : k = key := le_antisymm (not_lt.mp h₁) (not_lt.mp h₂)
        simp [hnl he.le, he]

/-- Inserting into the in-order list. -/
theorem mem_inorder_insert {key : κ} {value : α} {t : Node κ α} {p : κ × α} (hp : p ∈ (t.insert key value).1.inorder) :
    p = (key, value) ∨ p ∈ t.inorder := by
  induction t with
  | nil => simpa [insert, inorder] using hp
  | node k v l r h ihl ihr =>
    simp only [insert] at hp
    split at hp
    · simp only [inorder_balance, inorder, List.mem_append, List.mem_cons] at hp ⊢
      rcases hp with hp | hp | hp
      · exact (ihl hp).imp_right Or.inl
      · exact Or.inr (Or.inr (Or.inl hp))
      · exact Or.inr (Or.inr (Or.inr hp))
    · split at hp
      · simp only [inorder_balance, inorder, List.mem_append, List.mem_cons] at hp ⊢
        rcases hp with hp | hp | hp
        · exact Or.inr (Or.inl hp)
        · exact Or.inr (Or.inr (Or.inl hp))
        · exact (ihr hp).imp_right (fun h => Or.inr (Or.inr h))
      · rename_i h₁ h₂
        have he : k = key := le_antisymm (not_lt.mp h₁) (not_lt.mp h₂)
        simp only [inorder, List.mem_append, List.mem_cons, he] at hp ⊢
        rcases hp with hp | hp | hp
        · exact Or.inr (Or.inl hp)
        · exact Or.inl hp
        · exact Or.inr (Or.inr (Or.inr hp))

theorem sorted_insert {key : κ} {value : α} {t : Node κ α} (h : Sorted t.inorder) :
    Sorted (t.insert key value).1.inorder := by
  induction t with
  | nil => simp [insert, inorder, Sorted]
  | node k v l r hh ihl ihr =>
    rw [inorder, sorted_append, sorted_cons] at h
    obtain ⟨hl, ⟨hkr, hr⟩, hlt⟩ := h
    simp only [insert]
    split
    · rename_i h₁
      rw [inorder_balance, inorder, sorted_append, sorted_cons]
      refine ⟨ihl hl, ⟨hkr, hr⟩, fun p hp q hq => ?_⟩
      rcases mem_inorder_insert hp with rfl | hp
      · rcases List.mem_cons.mp hq with rfl | hq
        · exact h₁
        · exact h₁.trans (hkr q hq)
      · exact hlt p hp q hq
    · split
      · rename_i h₁ h₂
        rw [inorder_balance, inorder, sorted_append, sorted_cons]
        refine ⟨hl, ⟨fun q hq => ?_, ihr hr⟩, fun p hp q hq => ?_⟩
        · rcases mem_inorder_insert hq with rfl | hq
          · exact h₂
          · exact hkr q hq
        · have hpk := hlt p hp (k, v) List.mem_cons_self
          rcases List.mem_cons.mp hq with rfl | hq
          · exact hpk
          · rcases mem_inorder_insert hq with rfl | hq
            · exact hpk.trans h₂
            · exact hpk.trans (hkr q hq)
      · rw [inorder, sorted_append, sorted_cons]
        refine ⟨hl, ⟨hkr, hr⟩, fun p hp q hq => ?_⟩
        rcases List.mem_cons.mp hq with rfl | hq
        · exact hlt p hp (k, v) List.mem_cons_self
        · exact hlt p hp q (List.mem_cons_of_mem _ hq)

/-- **Inserting binds the key to the value.** -/
theorem lookup_insert_self {key : κ} {value : α} {t : Node κ α} (h : Sorted t.inorder) :
    lookup key (t.insert key value).1.inorder = some value := by
  rw [(sorted_insert h).lookup_eq_some_iff]
  clear h
  induction t with
  | nil => exact List.mem_cons_self
  | node k v l r hh ihl ihr =>
    simp only [insert]
    split
    · rw [inorder_balance, inorder]
      exact List.mem_append_left _ ihl
    · split
      · rw [inorder_balance, inorder]
        exact List.mem_append_right _ (List.mem_cons_of_mem _ ihr)
      · rename_i h₁ h₂
        rw [inorder, le_antisymm (not_lt.mp h₁) (not_lt.mp h₂)]
        exact List.mem_append_right _ List.mem_cons_self

/-- **Inserting leaves the other keys alone.** -/
theorem lookup_insert_of_ne {key k' : κ} (hk : k' ≠ key) (value : α) (t : Node κ α) :
    lookup k' (t.insert key value).1.inorder = lookup k' t.inorder := by
  induction t with
  | nil => exact lookup_cons_of_ne (Ne.symm hk) _
  | node k v l r hh ihl ihr =>
    simp only [insert]
    split
    · rw [inorder_balance, inorder, inorder, lookup_append, lookup_append, ihl]
    · split
      · rw [inorder_balance, inorder, inorder, lookup_append, lookup_append, lookup_cons, lookup_cons, ihr]
      · rename_i h₁ h₂
        have he : k = key := le_antisymm (not_lt.mp h₁) (not_lt.mp h₂)
        subst he
        rw [inorder, inorder, lookup_append, lookup_append, lookup_cons_of_ne (Ne.symm hk),
          lookup_cons_of_ne (Ne.symm hk)]

/-- The flag of `Insert` says whether the key was new. -/
theorem insert_flag {key : κ} {value : α} {t : Node κ α} : (t.insert key value).2 = (t.find key).isNone := by
  induction t with
  | nil => rfl
  | node k v l r h ihl ihr =>
    simp only [insert, find]
    split
    · exact ihl
    · split
      · exact ihr
      · rfl

end Map

end Node

/-- `AVLTree`: the root and the number of bindings. -/
structure AVLTree (κ α : Type) where
  root : Node κ α
  size : Nat

namespace AVLTree

variable {κ α : Type}

def empty : AVLTree κ α := ⟨.nil, 0⟩

/-- The bindings an iteration from `begin()` to `end()` visits. -/
def entries (t : AVLTree κ α) : List (κ × α) := Node.collect t.root.nodes (t.root.pushLeft [])

theorem entries_eq (t : AVLTree κ α) : t.entries = t.root.inorder := Node.collect_eq_inorder _

variable [LinearOrder κ]

/-- `Insert`. -/
def insert (t : AVLTree κ α) (key : κ) (value : α) : AVLTree κ α :=
  let (root, inserted) := t.root.insert key value
  ⟨root, if inserted then t.size + 1 else t.size⟩

/-- `Find`. -/
def find (t : AVLTree κ α) (key : κ) : Option α := t.root.find key

/-- The keys of the tree are in order, and the size counts them. -/
structure Valid (t : AVLTree κ α) : Prop where
  sorted : Sorted t.entries
  size : t.size = t.entries.length

theorem valid_empty : Valid (empty : AVLTree κ α) := ⟨by simp [entries_eq, empty, Node.inorder], rfl⟩

/-- **`Find` is the lookup in the entries.** -/
theorem find_eq_lookup {t : AVLTree κ α} (h : Valid t) (key : κ) : t.find key = lookup key t.entries := by
  have hs := h.sorted
  rw [entries_eq] at hs ⊢
  exact Node.find_eq_lookup hs key

theorem lookup_insert_self {t : AVLTree κ α} (h : Valid t) (key : κ) (value : α) :
    lookup key (t.insert key value).entries = some value := by
  have hs := h.sorted
  rw [entries_eq] at hs ⊢
  exact Node.lookup_insert_self hs

theorem lookup_insert_of_ne {key k : κ} (hk : k ≠ key) (value : α) (t : AVLTree κ α) :
    lookup k (t.insert key value).entries = lookup k t.entries := by
  rw [entries_eq, entries_eq]
  exact Node.lookup_insert_of_ne hk value t.root

theorem mem_entries_insert {t : AVLTree κ α} {key : κ} {value : α} {p : κ × α}
    (hp : p ∈ (t.insert key value).entries) : p = (key, value) ∨ p ∈ t.entries := by
  rw [entries_eq] at hp ⊢
  exact Node.mem_inorder_insert hp

end AVLTree

namespace Node

variable {κ α : Type} [LinearOrder κ]

theorem nodes_insert (key : κ) (value : α) (t : Node κ α) :
    (t.insert key value).1.nodes = if (t.insert key value).2 then t.nodes + 1 else t.nodes := by
  simp only [← length_inorder]
  induction t with
  | nil => rfl
  | node k v l r h ihl ihr =>
    simp only [insert]
    split
    · simp only [inorder_balance, inorder, List.length_append, List.length_cons, ihl]
      split <;> omega
    · split
      · simp only [inorder_balance, inorder, List.length_append, List.length_cons, ihr]
        split <;> omega
      · simp [inorder]

end Node

/-- Inserting keeps the tree valid. -/
theorem AVLTree.valid_insert {κ α : Type} [LinearOrder κ] {t : AVLTree κ α} (h : Valid t) (key : κ) (value : α) :
    Valid (t.insert key value) := by
  obtain ⟨hs, hn⟩ := h
  rw [entries_eq] at hs hn
  refine ⟨by rw [entries_eq]; exact Node.sorted_insert hs, ?_⟩
  rw [entries_eq, AVLTree.insert, Node.length_inorder, Node.nodes_insert]
  simp only [hn, Node.length_inorder]

end SplitKV
