import Mathlib.Data.Nat.Digits.Lemmas

/-!
# Integers of seven bits a byte

A varint is a byte string whose bytes but the last have their top bit set; the other bits are the digits of its value.
The first byte without the top bit ends it, so that a string starts with one varint at most (`cut_append`,
`cut_eq_some`). A decoder of `w` bits and `n` bytes is right about every varint whose value it can hold, and about no
other (`exact_iff`).
-/

namespace Varint

/-- The sum of the digits, the lowest first. -/
def value (l : List (Fin 256)) : Nat := (l.mapIdx fun i b => b.val % 128 * 128 ^ i).sum

/-- Every byte but the last has its top bit set. -/
inductive IsVarint : List (Fin 256) → Prop
  | last {b : Fin 256} (h : b.val < 128) : IsVarint [b]
  | more {b : Fin 256} {l : List (Fin 256)} (h : 128 ≤ b.val) (hl : IsVarint l) : IsVarint (b :: l)

/-- The varint at the start of a string, and what follows it. -/
def cut : List (Fin 256) → Option (List (Fin 256) × List (Fin 256))
  | [] => none
  | b :: p => if b.val < 128 then some ([b], p) else (cut p).map fun x => (b :: x.1, x.2)

/-- Decoding into `w` bits, of varints of `n` bytes at most. -/
def decode (w n : Nat) (p : List (Fin 256)) : Option (Nat × List (Fin 256)) :=
  (cut p).bind fun x => if x.1.length ≤ n then some (value x.1 % 2 ^ w, x.2) else none

/-! ## Values -/

@[simp] theorem value_nil : value [] = 0 := rfl

theorem value_eq_ofDigits (l : List (Fin 256)) : value l = Nat.ofDigits 128 (l.map fun b => b.val % 128) := by
  rw [Nat.ofDigits_eq_sum_mapIdx, value]
  refine congrArg List.sum (List.ext_getElem (by simp) fun i _ _ => ?_)
  rw [List.getElem_mapIdx, List.getElem_mapIdx, List.getElem_map]

theorem value_cons (b : Fin 256) (l : List (Fin 256)) : value (b :: l) = b.val % 128 + 128 * value l := by
  rw [value_eq_ofDigits, value_eq_ofDigits, List.map_cons, Nat.ofDigits_cons]

theorem value_append (l l' : List (Fin 256)) : value (l ++ l') = value l + 128 ^ l.length * value l' := by
  rw [value_eq_ofDigits, value_eq_ofDigits, value_eq_ofDigits, List.map_append, Nat.ofDigits_append, List.length_map]

theorem value_lt (l : List (Fin 256)) : value l < 128 ^ l.length := by
  have h := @Nat.ofDigits_lt_base_pow_length 128 (l.map fun b => b.val % 128) (by decide) fun x hx => by
    obtain ⟨b, -, rfl⟩ := List.mem_map.mp hx
    exact Nat.mod_lt _ (by decide)
  rwa [List.length_map, ← value_eq_ofDigits] at h

/-! ## The first varint -/

theorem IsVarint.ne_nil {l : List (Fin 256)} (h : IsVarint l) : l ≠ [] := by
  cases h <;> exact List.cons_ne_nil _ _

/-- The last byte is the only one without the top bit. -/
theorem isVarint_iff {l : List (Fin 256)} :
    IsVarint l ↔ ∃ init b, l = init ++ [b] ∧ (∀ a ∈ init, 128 ≤ a.val) ∧ b.val < 128 := by
  constructor
  · intro h
    induction h with
    | @last b hb => exact ⟨[], b, rfl, fun a ha => absurd ha List.not_mem_nil, hb⟩
    | @more a l ha _ ih =>
      obtain ⟨init, b, rfl, hinit, hb⟩ := ih
      refine ⟨a :: init, b, rfl, fun x hx => ?_, hb⟩
      rcases List.mem_cons.mp hx with rfl | hx
      · exact ha
      · exact hinit x hx
  · rintro ⟨init, b, rfl, hinit, hb⟩
    induction init with
    | nil => exact .last hb
    | cons a init ih =>
      exact .more (hinit a List.mem_cons_self) (ih fun x hx => hinit x (List.mem_cons_of_mem _ hx))

/-- A varint is cut off whatever follows it. -/
theorem cut_append {l : List (Fin 256)} (h : IsVarint l) (q : List (Fin 256)) : cut (l ++ q) = some (l, q) := by
  induction h with
  | @last b hb =>
    rw [List.singleton_append, cut, if_pos hb]
  | @more b l hb _ ih =>
    rw [List.cons_append, cut, if_neg (by omega), ih]
    rfl

/-- What is cut off is a varint. -/
theorem cut_eq_some : ∀ {p l q : List (Fin 256)}, cut p = some (l, q) → IsVarint l ∧ p = l ++ q
  | [], _, _, h => by cases h
  | b :: p, l, q, h => by
    rw [cut] at h
    split at h
    · rename_i hb
      cases h
      exact ⟨.last hb, rfl⟩
    · rename_i hb
      obtain ⟨⟨l', q'⟩, hc, he⟩ := Option.map_eq_some_iff.mp h
      obtain ⟨hl, rfl⟩ := cut_eq_some hc
      cases he
      exact ⟨.more (Nat.not_lt.mp hb) hl, rfl⟩

/-- Nothing is cut off a string of bytes that all go on. -/
theorem cut_eq_none {p : List (Fin 256)} (h : ∀ b ∈ p, 128 ≤ b.val) : cut p = none := by
  induction p with
  | nil => rfl
  | cons b p ih =>
    have hb := h b List.mem_cons_self
    rw [cut, if_neg (by omega), ih fun a ha => h a (List.mem_cons_of_mem _ ha)]
    rfl

/-- A byte without the top bit ends a varint, or lies behind the end of one. -/
theorem exists_cut {b : Fin 256} (hb : b.val < 128) : ∀ p q : List (Fin 256),
    ∃ l q', IsVarint l ∧ p ++ b :: q = l ++ q' ∧ l.length ≤ p.length + 1
  | [], q => ⟨[b], q, .last hb, rfl, Nat.le_refl 1⟩
  | a :: p, q => by
    rcases Nat.lt_or_ge a.val 128 with ha | ha
    · exact ⟨[a], p ++ b :: q, .last ha, rfl, Nat.succ_le_succ (Nat.zero_le _)⟩
    · obtain ⟨l, q', hl, he, hlen⟩ := exists_cut hb p q
      refine ⟨a :: l, q', .more ha hl, ?_, Nat.succ_le_succ hlen⟩
      rw [List.cons_append, he, List.cons_append]

/-- All bytes of a strict prefix go on. -/
theorem IsVarint.goes_on {l p : List (Fin 256)} (h : IsVarint l) (hp : p <+: l) (hne : p ≠ l) :
    ∀ b ∈ p, 128 ≤ b.val := by
  obtain ⟨init, b, rfl, hinit, -⟩ := isVarint_iff.mp h
  rcases List.prefix_concat_iff.mp hp with rfl | hp
  · exact absurd rfl hne
  · exact fun a ha => hinit a (hp.subset ha)

/-! ## Decoding -/

section

variable {w n : Nat}

theorem decode_append {l : List (Fin 256)} (h : IsVarint l) (hn : l.length ≤ n) (q : List (Fin 256)) :
    decode w n (l ++ q) = some (value l % 2 ^ w, q) := by
  rw [decode, cut_append h, Option.bind_some, if_pos hn]

theorem decode_long {l : List (Fin 256)} (h : IsVarint l) (hn : n < l.length) (q : List (Fin 256)) :
    decode w n (l ++ q) = none := by
  rw [decode, cut_append h, Option.bind_some, if_neg (Nat.not_le.mpr hn)]

theorem decode_truncated {p : List (Fin 256)} (h : ∀ b ∈ p, 128 ≤ b.val) : decode w n p = none := by
  rw [decode, cut_eq_none h, Option.bind_none]

/-- What is decoded is the value of the varint in front, in `w` bits. -/
theorem decode_eq_some_iff {p q : List (Fin 256)} {v : Nat} :
    decode w n p = some (v, q) ↔ ∃ l, IsVarint l ∧ p = l ++ q ∧ l.length ≤ n ∧ v = value l % 2 ^ w := by
  constructor
  · intro h
    obtain ⟨⟨l, q'⟩, hc, hv⟩ := Option.bind_eq_some_iff.mp h
    obtain ⟨hl, rfl⟩ := cut_eq_some hc
    simp only at hv
    split at hv
    · rename_i hn
      cases hv
      exact ⟨l, hl, rfl, hn, rfl⟩
    · cases hv
  · rintro ⟨l, hl, rfl, hn, rfl⟩
    exact decode_append hl hn q

/-- A decoder of `w` bits and `n` bytes is right about a string: what it returns is the sum of the digits of the bytes it
took, and it refuses a varint with a larger value or more bytes, and one that is cut short. -/
structure Exact (w n : Nat) (p : List (Fin 256)) (result : Option (Nat × List (Fin 256))) : Prop where
  sum : ∀ v q, result = some (v, q) → ∃ l, p = l ++ q ∧ v = value l
  large : ∀ l q, p = l ++ q → IsVarint l → 2 ^ w ≤ value l → result = none
  long : ∀ l q, p = l ++ q → IsVarint l → n < l.length → result = none
  truncated : (∀ b ∈ p, 128 ≤ b.val) → result = none

/-- The string starts with `m` bytes that go on and a last one that is too large. -/
def Overflow (m large : Nat) (p : List (Fin 256)) : Prop :=
  ∃ init b q, p = init ++ b :: q ∧ init.length = m ∧ (∀ a ∈ init, 128 ≤ a.val) ∧ large ≤ b.val ∧ b.val < 128

/-- A value is too large when its last digit is, `k` bits of which fit. -/
theorem large_iff {m k : Nat} {init : List (Fin 256)} {b : Fin 256} (hinit : init.length = m) (hb : b.val < 128) :
    2 ^ (7 * m + k) ≤ value (init ++ [b]) ↔ 2 ^ k ≤ b.val := by
  have hlt := value_lt init
  have hpow : 128 ^ m = 2 ^ (7 * m) := by rw [Nat.pow_mul]
  rw [value_append, value_cons, value_nil, Nat.mod_eq_of_lt hb, Nat.mul_zero, Nat.add_zero, Nat.pow_add, ← hpow, hinit]
  rw [hinit] at hlt
  constructor
  · intro h
    by_contra hno
    have := Nat.mul_le_mul_left (128 ^ m) (show b.val + 1 ≤ 2 ^ k by omega)
    rw [Nat.mul_add] at this
    omega
  · intro h
    exact (Nat.mul_le_mul_left _ h).trans (Nat.le_add_left _ _)

/-- **The decoder is right** unless the last byte it takes has digits that do not fit. -/
theorem exact_iff {m k : Nat} {p : List (Fin 256)} :
    Exact (7 * m + k) (m + 1) p (decode (7 * m + k) (m + 1) p) ↔ ¬Overflow m (2 ^ k) p := by
  have hshort : ∀ l : List (Fin 256), l.length ≤ m → value l < 2 ^ (7 * m + k) := by
    intro l hl
    calc value l < 128 ^ l.length := value_lt l
      _ ≤ 128 ^ m := Nat.pow_le_pow_right (by decide) hl
      _ = 2 ^ (7 * m) := by rw [Nat.pow_mul]
      _ ≤ 2 ^ (7 * m + k) := Nat.pow_le_pow_right (by decide) (Nat.le_add_right _ _)
  constructor
  · rintro h ⟨init, b, q, rfl, hm, hinit, hlarge, hb⟩
    have hl : IsVarint (init ++ [b]) := isVarint_iff.mpr ⟨init, b, rfl, hinit, hb⟩
    have he : init ++ b :: q = init ++ [b] ++ q := by rw [List.append_assoc, List.singleton_append]
    have hnone := h.large _ q he hl ((large_iff hm hb).mpr hlarge)
    rw [he, decode_append hl (by simp [hm])] at hnone
    cases hnone
  · intro hno
    -- a varint that is taken has a value that fits
    have hfits : ∀ l q, p = l ++ q → IsVarint l → l.length ≤ m + 1 → value l < 2 ^ (7 * m + k) := by
      intro l q he hl hn
      rcases Nat.lt_or_ge m l.length with hlen | hlen
      · obtain ⟨init, b, rfl, hinit, hb⟩ := isVarint_iff.mp hl
        rw [List.length_append, List.length_singleton] at hn hlen
        have hm : init.length = m := by omega
        by_contra hlarge
        refine hno ⟨init, b, q, ?_, hm, hinit, (large_iff hm hb).mp (Nat.not_lt.mp hlarge), hb⟩
        rw [he, List.append_assoc, List.singleton_append]
      · exact hshort l hlen
    refine ⟨fun v q hv => ?_, fun l q he hl hlarge => ?_, fun l q he hl hn => ?_, decode_truncated⟩
    · obtain ⟨l, hl, he, hn, rfl⟩ := decode_eq_some_iff.mp hv
      exact ⟨l, he, Nat.mod_eq_of_lt (hfits l q he hl hn)⟩
    · rcases Nat.lt_or_ge (m + 1) l.length with hn | hn
      · rw [he]
        exact decode_long hl hn q
      · exact absurd (hfits l q he hl hn) (Nat.not_lt.mpr hlarge)
    · rw [he]
      exact decode_long hl hn q

end

end Varint
