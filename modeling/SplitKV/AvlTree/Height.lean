import Mathlib.Data.Nat.Fib.Basic
import Mathlib.Data.Nat.Log
import SplitKV.AvlTree.Map

/-!
# The tree stays balanced (`avl_tree.h`)

`Balance` is called on a node whose children are balanced and differ in height by at most 2; it gives a balanced tree
that is as high as the higher child or one higher (`balance_spec`). So an insertion makes a tree at most one higher and
a removal at most one lower, which is what the call one level up needs.
-/

namespace SplitKV

namespace Node

variable {κ α : Type}

/-- The true height. -/
def depth : Node κ α → Nat
  | nil => 0
  | node _ _ l r _ => max l.depth r.depth + 1

/-- At every node, the stored height is the true one and the heights of the children differ by at most 1. -/
def Balanced : Node κ α → Prop
  | nil => True
  | node _ _ l r h =>
    h = max l.depth r.depth + 1 ∧ l.depth ≤ r.depth + 1 ∧ r.depth ≤ l.depth + 1 ∧ l.Balanced ∧ r.Balanced

theorem Balanced.heightOf {t : Node κ α} (h : t.Balanced) : t.heightOf = t.depth := by
  cases t with
  | nil => rfl
  | node => exact h.1

theorem depth_updateHeight (t : Node κ α) : t.updateHeight.depth = t.depth := by cases t <;> rfl

/-- `UpdateHeight` on a node with balanced children. -/
theorem balanced_updateHeight {k : κ} {v : α} {l r : Node κ α} (h : Nat) (hl : l.Balanced) (hr : r.Balanced)
    (h₁ : l.depth ≤ r.depth + 1) (h₂ : r.depth ≤ l.depth + 1) : (updateHeight (node k v l r h)).Balanced := by
  refine ⟨?_, h₁, h₂, hl, hr⟩
  rw [hl.heightOf, hr.heightOf]
  split <;> omega

/-- A right rotation gives a balanced node when the two nodes it builds are. -/
theorem rotateRight_spec {k xk : κ} {v xv : α} {a b c : Node κ α} {xh h : Nat} (ha : a.Balanced) (hb : b.Balanced)
    (hc : c.Balanced) (h₁ : b.depth ≤ c.depth + 1) (h₂ : c.depth ≤ b.depth + 1)
    (h₃ : a.depth ≤ max b.depth c.depth + 2) (h₄ : max b.depth c.depth ≤ a.depth) :
    (rotateRight (node k v (node xk xv a b xh) c h)).Balanced ∧
      (rotateRight (node k v (node xk xv a b xh) c h)).depth = max a.depth (max b.depth c.depth + 1) + 1 := by
  have hd : (updateHeight (node k v b c h)).depth = max b.depth c.depth + 1 := rfl
  constructor
  · exact balanced_updateHeight xh ha (balanced_updateHeight h hb hc h₁ h₂) (by omega) (by omega)
  rw [rotateRight, depth_updateHeight, depth, hd]

/-- The mirror image. -/
theorem rotateLeft_spec {k yk : κ} {v yv : α} {a b c : Node κ α} {yh h : Nat} (ha : a.Balanced) (hb : b.Balanced)
    (hc : c.Balanced) (h₁ : a.depth ≤ b.depth + 1) (h₂ : b.depth ≤ a.depth + 1)
    (h₃ : c.depth ≤ max a.depth b.depth + 2) (h₄ : max a.depth b.depth ≤ c.depth) :
    (rotateLeft (node k v a (node yk yv b c yh) h)).Balanced ∧
      (rotateLeft (node k v a (node yk yv b c yh) h)).depth = max (max a.depth b.depth + 1) c.depth + 1 := by
  have hd : (updateHeight (node k v a b h)).depth = max a.depth b.depth + 1 := rfl
  constructor
  · exact balanced_updateHeight yh (balanced_updateHeight h ha hb h₁ h₂) hc (by omega) (by omega)
  rw [rotateLeft, depth_updateHeight, depth, hd]

/-- The left-heavy case: one rotation when the left child is not right-heavy, two when it is. -/
theorem balanceLeft_spec {k : κ} {v : α} {l r : Node κ α} {h : Nat} (hl : l.Balanced) (hr : r.Balanced)
    (hd : l.depth = r.depth + 2) : (balanceLeft (node k v l r h)).Balanced ∧
      l.depth ≤ (balanceLeft (node k v l r h)).depth ∧ (balanceLeft (node k v l r h)).depth ≤ l.depth + 1 := by
  cases l with
  | nil => simp [depth] at hd
  | node lk lv a b lh =>
    obtain ⟨-, h₁, h₂, ha, hb⟩ := hl
    have hbf : balanceFactor (node lk lv a b lh) = (a.depth : Int) - b.depth := by
      rw [balanceFactor, ha.heightOf, hb.heightOf]
    simp only [depth] at hd ⊢
    rw [balanceLeft, hbf]
    by_cases hlt : (a.depth : Int) - b.depth < 0
    · rw [if_pos hlt]
      -- the right child of the left child, which becomes the root
      cases b with
      | nil =>
        simp only [depth] at hlt
        omega
      | node yk yv c d yh =>
        obtain ⟨-, h₃, h₄, hc, hd'⟩ := hb
        simp only [depth] at h₁ h₂ hlt hd ⊢
        have hac : (updateHeight (node lk lv a c lh)).Balanced := balanced_updateHeight lh ha hc (by omega) (by omega)
        have hacd : (updateHeight (node lk lv a c lh)).depth = max a.depth c.depth + 1 := rfl
        obtain ⟨hbal, hdep⟩ := @rotateRight_spec κ α k yk v yv _ _ _
          (rotateLeft (node lk lv a (node yk yv c d yh) lh)).heightOf h hac hd' hr
          (by omega) (by omega) (by omega) (by omega)
        refine ⟨hbal, ?_, ?_⟩
        · refine le_of_le_of_eq ?_ hdep.symm
          omega
        · refine le_of_eq_of_le hdep ?_
          omega
    · rw [if_neg hlt]
      obtain ⟨hbal, hdep⟩ := @rotateRight_spec κ α k lk v lv _ _ _ lh h ha hb hr
        (by omega) (by omega) (by omega) (by omega)
      rw [hdep]
      exact ⟨hbal, by omega, by omega⟩

/-- The right-heavy case. -/
theorem balanceRight_spec {k : κ} {v : α} {l r : Node κ α} {h : Nat} (hl : l.Balanced) (hr : r.Balanced)
    (hd : r.depth = l.depth + 2) : (balanceRight (node k v l r h)).Balanced ∧
      r.depth ≤ (balanceRight (node k v l r h)).depth ∧ (balanceRight (node k v l r h)).depth ≤ r.depth + 1 := by
  cases r with
  | nil => simp [depth] at hd
  | node rk rv b c rh =>
    obtain ⟨-, h₁, h₂, hb, hc⟩ := hr
    have hbf : balanceFactor (node rk rv b c rh) = (b.depth : Int) - c.depth := by
      rw [balanceFactor, hb.heightOf, hc.heightOf]
    simp only [depth] at hd ⊢
    rw [balanceRight, hbf]
    by_cases hlt : (b.depth : Int) - c.depth > 0
    · rw [if_pos hlt]
      cases b with
      | nil =>
        simp only [depth] at hlt
        omega
      | node xk xv d e xh =>
        obtain ⟨-, h₃, h₄, hd', he⟩ := hb
        simp only [depth] at h₁ h₂ hlt hd ⊢
        have hec : (updateHeight (node rk rv e c rh)).Balanced := balanced_updateHeight rh he hc (by omega) (by omega)
        have hecd : (updateHeight (node rk rv e c rh)).depth = max e.depth c.depth + 1 := rfl
        obtain ⟨hbal, hdep⟩ := @rotateLeft_spec κ α k xk v xv _ _ _
          (rotateRight (node rk rv (node xk xv d e xh) c rh)).heightOf h hl hd' hec
          (by omega) (by omega) (by omega) (by omega)
        refine ⟨hbal, ?_, ?_⟩
        · refine le_of_le_of_eq ?_ hdep.symm
          omega
        · refine le_of_eq_of_le hdep ?_
          omega
    · rw [if_neg hlt]
      obtain ⟨hbal, hdep⟩ := @rotateLeft_spec κ α k rk v rv _ _ _ rh h hl hb hc
        (by omega) (by omega) (by omega) (by omega)
      rw [hdep]
      exact ⟨hbal, by omega, by omega⟩

/-- **One call of `Balance` is enough** when the heights of the children differ by at most 2. -/
theorem balance_spec {l r : Node κ α} (k : κ) (v : α) (h : Nat) (hl : l.Balanced) (hr : r.Balanced)
    (h₁ : l.depth ≤ r.depth + 2) (h₂ : r.depth ≤ l.depth + 2) :
    (balance (node k v l r h)).Balanced ∧ max l.depth r.depth ≤ (balance (node k v l r h)).depth ∧
      (balance (node k v l r h)).depth ≤ max l.depth r.depth + 1 ∧
      (l.depth ≤ r.depth + 1 → r.depth ≤ l.depth + 1 →
        (balance (node k v l r h)).depth = max l.depth r.depth + 1) := by
  have hbf : balanceFactor (updateHeight (node k v l r h)) = (l.depth : Int) - r.depth := by
    rw [updateHeight, balanceFactor, hl.heightOf, hr.heightOf]
  unfold balance
  simp only [hbf]
  by_cases hleft : (l.depth : Int) - r.depth > 1
  · obtain ⟨hb, hge, hle⟩ := balanceLeft_spec (k := k) (v := v)
      (h := (updateHeight (node k v l r h)).heightOf) hl hr (by omega)
    rw [if_pos hleft]
    exact ⟨hb, le_trans (by omega) hge, le_trans hle (by omega), fun _ _ => by omega⟩
  · rw [if_neg hleft]
    by_cases hright : (l.depth : Int) - r.depth < -1
    · obtain ⟨hb, hge, hle⟩ := balanceRight_spec (k := k) (v := v)
        (h := (updateHeight (node k v l r h)).heightOf) hl hr (by omega)
      rw [if_pos hright]
      exact ⟨hb, le_trans (by omega) hge, le_trans hle (by omega), fun _ _ => by omega⟩
    · rw [if_neg hright]
      have hd : (updateHeight (node k v l r h)).depth = max l.depth r.depth + 1 := rfl
      exact ⟨balanced_updateHeight h hl hr (by omega) (by omega), by omega, by omega, fun _ _ => hd⟩

section Order

variable [LinearOrder κ]

/-- An insertion keeps the tree balanced and makes it at most one higher. -/
theorem balanced_insert (key : κ) (value : α) {t : Node κ α} (h : t.Balanced) :
    (t.insert key value).1.Balanced ∧ t.depth ≤ (t.insert key value).1.depth ∧
      (t.insert key value).1.depth ≤ t.depth + 1 := by
  induction t with
  | nil => exact ⟨⟨rfl, by simp [depth], by simp [depth], trivial, trivial⟩, Nat.zero_le _, le_refl _⟩
  | node k v l r hh ihl ihr =>
    obtain ⟨hh', h₁, h₂, hl, hr⟩ := h
    simp only [insert]
    by_cases hlt : key < k
    · obtain ⟨hb, hge, hle⟩ := ihl hl
      obtain ⟨hbal, hlo, hhi, heq⟩ := balance_spec k v hh hb hr (by omega) (by omega)
      rw [if_pos hlt]
      simp only [depth]
      exact ⟨hbal, by omega, by omega⟩
    · rw [if_neg hlt]
      by_cases hgt : k < key
      · obtain ⟨hb, hge, hle⟩ := ihr hr
        obtain ⟨hbal, hlo, hhi, heq⟩ := balance_spec k v hh hl hb (by omega) (by omega)
        rw [if_pos hgt]
        simp only [depth]
        exact ⟨hbal, by omega, by omega⟩
      · rw [if_neg hgt]
        exact ⟨⟨hh', h₁, h₂, hl, hr⟩, le_refl _, Nat.le_succ _⟩

/-- A removal keeps the tree balanced and makes it at most one lower, also where the in-order successor is taken from
the right child. -/
theorem balanced_remove (key : κ) {t : Node κ α} (h : t.Balanced) :
    (t.remove key).1.Balanced ∧ (t.remove key).1.depth ≤ t.depth ∧ t.depth ≤ (t.remove key).1.depth + 1 := by
  induction t generalizing key with
  | nil => exact ⟨trivial, le_refl _, Nat.zero_le _⟩
  | node k v l r hh ihl ihr =>
    obtain ⟨hh', h₁, h₂, hl, hr⟩ := h
    rw [remove]
    by_cases hlt : key < k
    · obtain ⟨hb, hle, hge⟩ := ihl key hl
      obtain ⟨hbal, hlo, hhi, heq⟩ := balance_spec k v hh hb hr (by omega) (by omega)
      rw [if_pos hlt]
      simp only [depth]
      exact ⟨hbal, by omega, by omega⟩
    · rw [if_neg hlt]
      by_cases hgt : k < key
      · obtain ⟨hb, hle, hge⟩ := ihr key hr
        obtain ⟨hbal, hlo, hhi, heq⟩ := balance_spec k v hh hl hb (by omega) (by omega)
        rw [if_pos hgt]
        simp only [depth]
        exact ⟨hbal, by omega, by omega⟩
      · rw [if_neg hgt]
        cases hln : l.isNil with
        | true =>
          cases l with
          | nil =>
            simp only [Bool.true_or, if_true, depth]
            exact ⟨hr, by omega, by omega⟩
          | node => cases hln
        | false =>
          cases hrn : r.isNil with
          | true =>
            cases r with
            | nil =>
              simp only [Bool.or_true, if_true, Bool.false_eq_true, if_false, depth]
              exact ⟨hl, by omega, by omega⟩
            | node => cases hrn
          | false =>
            obtain ⟨sk, sv, sr, sh, rest, hm, -⟩ := findMin_spec hrn
            obtain ⟨hb, hle, hge⟩ := ihr sk hr
            obtain ⟨hbal, hlo, hhi, heq⟩ := balance_spec sk sv hh hl hb (by omega) (by omega)
            simp only [Bool.or_self, Bool.false_eq_true, if_false, hm, depth]
            exact ⟨hbal, by omega, by omega⟩

end Order

/-- A balanced tree of a height has at least so many nodes as a Fibonacci number says. -/
theorem Balanced.fib_le {t : Node κ α} (h : t.Balanced) : Nat.fib (t.depth + 2) ≤ t.nodes + 1 := by
  induction t with
  | nil => exact le_refl _
  | node k v l r hh ihl ihr =>
    obtain ⟨-, h₁, h₂, hl, hr⟩ := h
    have hle := ihl hl
    have hre := ihr hr
    rw [depth, nodes, Nat.fib_add_two]
    have hmono := fun m n => @Nat.fib_mono m n
    rcases le_total l.depth r.depth with hlr | hlr
    · have hl' := hmono (r.depth + 1) (l.depth + 2) (by omega)
      have he : Nat.fib (r.depth + 1 + 1) = Nat.fib (r.depth + 2) := rfl
      rw [max_eq_right hlr]
      omega
    · have hr' := hmono (l.depth + 1) (r.depth + 2) (by omega)
      have he : Nat.fib (l.depth + 1 + 1) = Nat.fib (l.depth + 2) := rfl
      rw [max_eq_left hlr]
      omega

theorem two_pow_le_fib (n : Nat) : 2 ^ ((n + 1) / 2) ≤ Nat.fib (n + 2) := by
  induction n using Nat.twoStepInduction with
  | zero => decide
  | one => decide
  | more n ih _ =>
    have he : (n + 2 + 1) / 2 = (n + 1) / 2 + 1 := by omega
    have hm : Nat.fib (n + 2) ≤ Nat.fib (n + 2 + 1) := Nat.fib_le_fib_succ
    have hf : Nat.fib (n + 2 + 2) = Nat.fib (n + 2) + Nat.fib (n + 2 + 1) := Nat.fib_add_two
    rw [he, pow_succ, hf]
    omega

/-- **The height of a balanced tree is logarithmic in the number of its nodes.** -/
theorem Balanced.depth_le {t : Node κ α} (h : t.Balanced) : t.depth ≤ 2 * Nat.log 2 (t.nodes + 1) := by
  have hp : 2 ^ ((t.depth + 1) / 2) ≤ t.nodes + 1 := (two_pow_le_fib t.depth).trans h.fib_le
  have hl := Nat.le_log_of_pow_le (by decide) hp
  omega

end Node

/-- Every operation keeps the tree balanced. -/
theorem AVLTree.balanced_foldl {κ α : Type} [LinearOrder κ] {t : AVLTree κ α} (h : t.root.Balanced)
    (ops : List (Op κ α)) : (ops.foldl apply t).root.Balanced := by
  induction ops generalizing t with
  | nil => exact h
  | cons op ops ih =>
    refine ih ?_
    cases op with
    | insert key value => exact (Node.balanced_insert key value h).1
    | remove key => exact (Node.balanced_remove key h).1
    | clear => trivial

/-- **The AVL tree stays height-balanced**, and its height is logarithmic in its size. -/
theorem AVLTree.height_balanced {κ α : Type} [LinearOrder κ] (ops : List (Op κ α)) :
    let t := ops.foldl apply empty
    t.root.Balanced ∧ t.root.depth ≤ 2 * Nat.log 2 (t.size + 1) := by
  intro t
  have he : (empty : AVLTree κ α).root.Balanced := trivial
  have hb : t.root.Balanced := balanced_foldl he ops
  have hs := (Represents.empty.foldl ops).valid.size
  rw [entries_eq, Node.length_inorder] at hs
  exact ⟨hb, hs ▸ hb.depth_le⟩

end SplitKV
