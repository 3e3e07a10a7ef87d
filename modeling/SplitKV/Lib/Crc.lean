import Mathlib.Data.List.Basic
import Mathlib.Data.Nat.Digits.Defs
import Mathlib.Logic.Function.Iterate

/-!
# Cyclic redundancy checks

A reflected CRC of any width shifts its register to the right and adds the polynomial when a one falls out. A step is
linear (`bit_xor`), and injective when the polynomial has its top bit set (`bit_injective`). While the message is not
longer than the register, the register is a number of steps from the register before plus the message
(`feed_eq_iterate`). So messages that differ only within as many bytes as the register has give different registers
(`feed_burst`). Taking a byte at once, or from a table, does what its bits do one after the other (`feed_eq_serial`,
`byte_eq_table`).
-/

namespace Crc

variable {w : Nat}

/-- One bit. -/
def bit (poly c : BitVec w) : BitVec w := if c &&& 1#w = 1#w then (c >>> 1) ^^^ poly else c >>> 1

/-- One byte. -/
def byte (poly c : BitVec w) (b : Fin 256) : BitVec w := (bit poly)^[8] (c ^^^ BitVec.ofNat w b.val)

/-- The bytes of a message, one after the other. -/
def feed (poly c : BitVec w) (message : List (Fin 256)) : BitVec w := message.foldl (byte poly) c

variable (poly : BitVec w)

/-- The polynomial is added when the lowest bit is set. -/
theorem bit_eq (hw : 0 < w) (c : BitVec w) : bit poly c = (c >>> 1) ^^^ (if c.getLsbD 0 then poly else 0#w) := by
  have hone : c &&& 1#w = 1#w ↔ c.getLsbD 0 = true := by
    rw [BitVec.and_one_eq_setWidth_ofBool_getLsbD]
    cases c.getLsbD 0 with
    | true => exact iff_of_true (BitVec.eq_of_toNat_eq (by simp [BitVec.ofBool])) rfl
    | false =>
      have hne : 0#w ≠ 1#w := fun he => by
        have := congrArg BitVec.toNat he
        simp [Nat.mod_eq_of_lt (Nat.one_lt_two_pow hw.ne')] at this
      simpa [BitVec.ofBool] using hne
  unfold bit
  by_cases h : c.getLsbD 0 = true
  · rw [if_pos (hone.mpr h), if_pos h]
  · rw [if_neg (fun he => h (hone.mp he)), if_neg h, BitVec.xor_zero]

/-- **A step is linear.** -/
theorem bit_xor (hw : 0 < w) (a b : BitVec w) : bit poly (a ^^^ b) = bit poly a ^^^ bit poly b := by
  have hxor : ∀ x y z : BitVec w, x ^^^ y ^^^ (z ^^^ y) = x ^^^ z := fun x y z => by
    rw [BitVec.xor_comm z y, ← BitVec.xor_assoc, BitVec.xor_assoc x y y, BitVec.xor_self, BitVec.xor_zero]
  rw [bit_eq poly hw, bit_eq poly hw, bit_eq poly hw, BitVec.ushiftRight_xor_distrib, BitVec.getLsbD_xor]
  cases a.getLsbD 0 <;> cases b.getLsbD 0
  · simp
  · simp [BitVec.xor_assoc]
  · simp only [Bool.bne_false, if_true, Bool.false_eq_true, if_false, BitVec.xor_zero]
    rw [BitVec.xor_assoc, BitVec.xor_comm _ poly, ← BitVec.xor_assoc]
  · simp [hxor]

/-- **A step is injective** when the top bit of the polynomial is set: only then is the top bit of the result set. -/
theorem bit_injective (hp : poly.msb = true) : Function.Injective (bit poly) := by
  have hw : 0 < w := by
    rcases Nat.eq_zero_or_pos w with rfl | h
    · simp [BitVec.msb, BitVec.getMsbD] at hp
    · exact h
  have hkernel : ∀ d, bit poly d = 0#w → d = 0#w := by
    intro d hd
    rw [bit_eq poly hw] at hd
    have htop : (d >>> 1).msb = false := by
      rw [BitVec.msb_ushiftRight]
      simp
    by_cases h0 : d.getLsbD 0 = true
    · rw [if_pos h0] at hd
      have hm := congrArg BitVec.msb hd
      rw [BitVec.msb_xor, htop, hp] at hm
      simp at hm
    · rw [if_neg h0, BitVec.xor_zero] at hd
      apply BitVec.eq_of_getLsbD_eq
      intro i hi
      cases i with
      | zero => simpa using h0
      | succ i =>
        have := congrArg (fun x => BitVec.getLsbD x i) hd
        simpa [Nat.add_comm] using this
  intro a b hab
  have hd := hkernel (a ^^^ b) (by rw [bit_xor poly hw, hab, BitVec.xor_self])
  have := congrArg (· ^^^ b) hd
  simpa [BitVec.xor_assoc] using this

/-- No bit falls out of an even register. -/
theorem bit_double {m : Nat} (h : 2 * m < 2 ^ w) : bit poly (BitVec.ofNat w (2 * m)) = BitVec.ofNat w m := by
  rcases Nat.eq_zero_or_pos w with rfl | hw
  · exact Subsingleton.elim _ _
  · have h0 : (BitVec.ofNat w (2 * m)).getLsbD 0 = false := by
      rw [BitVec.getLsbD_ofNat, Nat.testBit_zero, Nat.mul_mod_right]
      simp
    rw [bit_eq poly hw, h0]
    apply BitVec.eq_of_toNat_eq
    simp only [Bool.false_eq_true, if_false, BitVec.xor_zero, BitVec.toNat_ushiftRight, BitVec.toNat_ofNat,
      Nat.mod_eq_of_lt h, Nat.mod_eq_of_lt (show m < 2 ^ w by omega), Nat.shiftRight_eq_div_pow]
    omega

/-- The steps of a register whose low bits are clear only shift. -/
theorem iterate_bit_mul (n : Nat) {m : Nat} (h : 2 ^ n * m < 2 ^ w) :
    (bit poly)^[n] (BitVec.ofNat w (2 ^ n * m)) = BitVec.ofNat w m := by
  induction n with
  | zero => simp
  | succ n ih =>
    have he : 2 ^ (n + 1) * m = 2 * (2 ^ n * m) := by rw [pow_succ, Nat.mul_comm _ 2, Nat.mul_assoc]
    rw [he] at h ⊢
    rw [Function.iterate_succ_apply, bit_double poly h, ih (by omega)]

theorem iterate_bit_xor (hw : 0 < w) (n : Nat) (a b : BitVec w) :
    (bit poly)^[n] (a ^^^ b) = (bit poly)^[n] a ^^^ (bit poly)^[n] b := by
  induction n generalizing a b with
  | zero => rfl
  | succ n ih => rw [Function.iterate_succ_apply, bit_xor poly hw, ih, ← Function.iterate_succ_apply,
      ← Function.iterate_succ_apply]

/-! ## Messages -/

/-- Adding without a carry is exclusive or. -/
theorem ofNat_add_mul {b m : Nat} (hb : b < 2 ^ 8) :
    BitVec.ofNat w (b + 2 ^ 8 * m) = BitVec.ofNat w b ^^^ BitVec.ofNat w (2 ^ 8 * m) := by
  rw [← BitVec.ofNat_xor]
  congr 1
  apply Nat.eq_of_testBit_eq
  intro i
  rw [Nat.add_comm, Nat.testBit_two_pow_mul_add m hb, Nat.testBit_xor, Nat.testBit_two_pow_mul]
  by_cases hi : i < 8
  · simp [hi, Nat.not_le.mpr hi]
  · have hlt : b.testBit i = false :=
      Nat.testBit_lt_two_pow (hb.trans_le (Nat.pow_le_pow_right (by decide) (Nat.not_lt.mp hi)))
    simp [hi, Nat.not_lt.mp hi, hlt]

/-- The bytes as a number, the first one lowest. -/
def value (message : List (Fin 256)) : Nat := Nat.ofDigits 256 (message.map Fin.val)

theorem value_lt (message : List (Fin 256)) : value message < 2 ^ (8 * message.length) := by
  have h := @Nat.ofDigits_lt_base_pow_length 256 (message.map Fin.val) (by decide) fun x hx => by
    obtain ⟨b, -, rfl⟩ := List.mem_map.mp hx
    exact b.isLt
  rw [List.length_map] at h
  rw [Nat.pow_mul]
  exact h

/-- **The register behind a message that is not longer than it.** -/
theorem feed_eq_iterate (c : BitVec w) {message : List (Fin 256)} (hl : 8 * message.length ≤ w) :
    feed poly c message = (bit poly)^[8 * message.length] (c ^^^ BitVec.ofNat w (value message)) := by
  induction message generalizing c with
  | nil => simp [feed, value]
  | cons b message ih =>
    rw [List.length_cons] at hl
    have hw : 0 < w := by omega
    have hm : 2 ^ 8 * value message < 2 ^ w := by
      calc 2 ^ 8 * value message < 2 ^ 8 * 2 ^ (8 * message.length) :=
            Nat.mul_lt_mul_of_pos_left (value_lt message) (by decide)
        _ = 2 ^ (8 * (message.length + 1)) := by rw [← Nat.pow_add, Nat.mul_add, Nat.add_comm]
        _ ≤ 2 ^ w := Nat.pow_le_pow_right (by decide) hl
    have hv : value (b :: message) = b.val + 2 ^ 8 * value message := by
      simp [value, Nat.ofDigits_cons]
    calc feed poly c (b :: message)
        = (bit poly)^[8 * message.length] (byte poly c b ^^^ BitVec.ofNat w (value message)) := ih _ (by omega)
      _ = (bit poly)^[8 * message.length] ((bit poly)^[8] (c ^^^ BitVec.ofNat w (value (b :: message)))) := by
        rw [byte, ← iterate_bit_mul poly 8 hm, ← iterate_bit_xor poly hw, BitVec.xor_assoc, ← ofNat_add_mul b.isLt, hv]
      _ = (bit poly)^[8 * (b :: message).length] (c ^^^ BitVec.ofNat w (value (b :: message))) := by
        rw [← Function.iterate_add_apply, List.length_cons, Nat.mul_add]

theorem iterate_bit_injective (hp : poly.msb = true) (n : Nat) : Function.Injective (bit poly)^[n] :=
  (bit_injective poly hp).iterate n

/-- Different registers stay different. -/
theorem feed_injective (hp : poly.msb = true) (message : List (Fin 256)) :
    Function.Injective (fun c => feed poly c message) := by
  induction message with
  | nil => exact fun _ _ h => h
  | cons b message ih =>
    intro c d h
    have hb := iterate_bit_injective poly hp 8 (ih h)
    have := congrArg (· ^^^ BitVec.ofNat w b.val) hb
    simpa [BitVec.xor_assoc] using this

/-- **Two messages of one length that fit the register** give different registers. -/
theorem feed_short_injective (hp : poly.msb = true) (c : BitVec w) {u v : List (Fin 256)} (hlen : u.length = v.length)
    (hl : 8 * u.length ≤ w) (h : feed poly c u = feed poly c v) : u = v := by
  rw [feed_eq_iterate poly c hl, feed_eq_iterate poly c (hlen ▸ hl), hlen] at h
  have hx := congrArg (c ^^^ ·) (iterate_bit_injective poly hp _ h)
  simp only [← BitVec.xor_assoc, BitVec.xor_self, BitVec.zero_xor] at hx
  have hbound : ∀ x : List (Fin 256), 8 * x.length ≤ w → value x < 2 ^ w := fun x hx =>
    (value_lt x).trans_le (Nat.pow_le_pow_right (by decide) hx)
  have hv := congrArg BitVec.toNat hx
  rw [BitVec.toNat_ofNat, BitVec.toNat_ofNat, Nat.mod_eq_of_lt (hbound u hl), Nat.mod_eq_of_lt (hbound v (hlen ▸ hl))] at hv
  have hlt : ∀ x : List (Fin 256), ∀ l ∈ x.map Fin.val, l < 256 := fun x l hl => by
    obtain ⟨b, -, rfl⟩ := List.mem_map.mp hl
    exact b.isLt
  have hd := Nat.ofDigits_inj_of_len_eq (by decide) (by simpa using hlen) (hlt u) (hlt v) hv
  exact List.map_injective_iff.2 (fun _ _ he => Fin.ext he) hd

/-- `b` is `a` with at most `n` consecutive elements changed. -/
def Burst {α : Type*} (n : Nat) (a b : List α) : Prop :=
  ∃ pre u v post, a = pre ++ (u ++ post) ∧ b = pre ++ (v ++ post) ∧ u.length = v.length ∧ u.length ≤ n ∧ u ≠ v

theorem Burst.length_eq {α : Type*} {n : Nat} {a b : List α} (h : Burst n a b) : b.length = a.length := by
  obtain ⟨pre, u, v, post, rfl, rfl, hl, -, -⟩ := h
  simp [hl]

theorem Burst.append_left {α : Type*} {n : Nat} {a b : List α} (h : Burst n a b) (x : List α) :
    Burst n (x ++ a) (x ++ b) := by
  obtain ⟨pre, u, v, post, rfl, rfl, hl, hn, hne⟩ := h
  exact ⟨x ++ pre, u, v, post, (List.append_assoc ..).symm, (List.append_assoc ..).symm, hl, hn, hne⟩

theorem Burst.append_right {α : Type*} {n : Nat} {a b : List α} (h : Burst n a b) (x : List α) :
    Burst n (a ++ x) (b ++ x) := by
  obtain ⟨pre, u, v, post, rfl, rfl, hl, hn, hne⟩ := h
  exact ⟨pre, u, v, post ++ x, by simp, by simp, hl, hn, hne⟩

/-- The changed elements lie in the places from `lo` up to `hi`. -/
def BurstIn {α : Type*} (n lo hi : Nat) (a b : List α) : Prop :=
  ∃ pre u v post, a = pre ++ (u ++ post) ∧ b = pre ++ (v ++ post) ∧ u.length = v.length ∧ u.length ≤ n ∧ u ≠ v ∧
    lo ≤ pre.length ∧ pre.length + u.length ≤ hi

/-- **A burst within the middle of a list** leaves the other parts as they are. -/
theorem BurstIn.middle {α : Type*} {n : Nat} {x m y b : List α}
    (h : BurstIn n x.length (x.length + m.length) (x ++ (m ++ y)) b) : ∃ m', b = x ++ (m' ++ y) ∧ Burst n m m' := by
  obtain ⟨pre, u, v, post, ha, rfl, hl, hn, hne, hlo, hhi⟩ := h
  obtain ⟨p, rfl⟩ : ∃ p, pre = x ++ p := by
    have hx : x <+: pre := List.prefix_of_prefix_length_le (ha ▸ List.prefix_append x _) (List.prefix_append pre _) hlo
    obtain ⟨p, hp⟩ := hx
    exact ⟨p, hp.symm⟩
  rw [List.append_assoc, List.append_cancel_left_eq] at ha
  rw [List.length_append] at hhi
  obtain ⟨q, rfl⟩ : ∃ q, m = p ++ u ++ q := by
    have hpu : p ++ u <+: m ++ y := by
      rw [ha, ← List.append_assoc]
      exact List.prefix_append _ _
    have hm : p ++ u <+: m := by
      refine List.prefix_of_prefix_length_le hpu (List.prefix_append m y) ?_
      rw [List.length_append]
      omega
    obtain ⟨q, hq⟩ := hm
    exact ⟨q, hq.symm⟩
  have hpost : post = q ++ y := by
    rw [List.append_assoc, ← List.append_assoc p u post, List.append_cancel_left_eq] at ha
    exact ha.symm
  exact ⟨p ++ v ++ q, by simp [hpost], p, u, v, q, by simp, by simp, hl, hn, hne⟩

/-- **A burst that is not longer than the register is detected**, in messages of any length. -/
theorem feed_burst (hp : poly.msb = true) (c : BitVec w) {n : Nat} (hn : 8 * n ≤ w) {a b : List (Fin 256)}
    (h : Burst n a b) : feed poly c a ≠ feed poly c b := by
  obtain ⟨pre, u, v, post, rfl, rfl, hl, hu, hne⟩ := h
  intro he
  simp only [feed, List.foldl_append] at he
  exact hne (feed_short_injective poly hp _ hl (by omega) (feed_injective poly hp post he))

/-! ## The table -/

/-- The eight steps of every byte, as they are tabulated. -/
def table (i : BitVec w) : BitVec w := (bit poly)^[8] i

/-- **One lookup for a byte**: the lowest byte is looked up, and the others are shifted. -/
theorem byte_eq_table (hw : 8 ≤ w) (c : BitVec w) (b : Fin 256) :
    byte poly c b = table poly ((c ^^^ BitVec.ofNat w b.val) &&& BitVec.ofNat w 255) ^^^ (c >>> 8) := by
  have hpow : 2 ^ 8 ≤ 2 ^ w := Nat.pow_le_pow_right (by decide) hw
  generalize hx : c ^^^ BitVec.ofNat w b.val = x
  have hshift : c >>> 8 = BitVec.ofNat w (x.toNat / 2 ^ 8) := by
    have hb : BitVec.ofNat w b.val >>> 8 = 0#w := by
      apply BitVec.eq_of_toNat_eq
      have := b.isLt
      simp only [BitVec.toNat_ushiftRight, BitVec.toNat_ofNat, Nat.shiftRight_eq_div_pow, Nat.zero_mod]
      rw [Nat.mod_eq_of_lt (by omega)]
      omega
    have hc : c >>> 8 = x >>> 8 := by rw [← hx, BitVec.ushiftRight_xor_distrib, hb, BitVec.xor_zero]
    rw [hc]
    apply BitVec.eq_of_toNat_eq
    rw [BitVec.toNat_ushiftRight, BitVec.toNat_ofNat, Nat.shiftRight_eq_div_pow,
      Nat.mod_eq_of_lt ((Nat.div_le_self _ _).trans_lt x.isLt)]
  have hlow : x &&& BitVec.ofNat w 255 = BitVec.ofNat w (x.toNat % 2 ^ 8) := by
    apply BitVec.eq_of_toNat_eq
    have := Nat.mod_lt x.toNat (show 2 ^ 8 > 0 by decide)
    rw [BitVec.toNat_and, BitVec.toNat_ofNat, BitVec.toNat_ofNat, Nat.mod_eq_of_lt (show 255 < 2 ^ w by omega),
      Nat.mod_eq_of_lt (show x.toNat % 2 ^ 8 < 2 ^ w by omega), show 255 = 2 ^ 8 - 1 from rfl, Nat.and_two_pow_sub_one_eq_mod]
  have hsplit : x = BitVec.ofNat w (x.toNat % 2 ^ 8) ^^^ BitVec.ofNat w (2 ^ 8 * (x.toNat / 2 ^ 8)) := by
    rw [← ofNat_add_mul (Nat.mod_lt _ (by decide)), Nat.mod_add_div, BitVec.ofNat_toNat, BitVec.setWidth_eq]
  have hhigh : 2 ^ 8 * (x.toNat / 2 ^ 8) < 2 ^ w := (Nat.mul_div_le _ _).trans_lt x.isLt
  rw [byte, hx, hlow, hshift, table]
  nth_rewrite 1 [hsplit]
  rw [iterate_bit_xor poly (by omega), iterate_bit_mul poly 8 hhigh]

/-! ## One bit after the other -/

/-- A bit of the message: the polynomial is added when it differs from the bit that falls out. -/
def serialBit (poly c : BitVec w) (b : Bool) : BitVec w := if c.getLsbD 0 != b then (c >>> 1) ^^^ poly else c >>> 1

/-- The bits of a message, one after the other. -/
def serial (poly c : BitVec w) (bits : List Bool) : BitVec w := bits.foldl (serialBit poly) c

/-- The bits of a byte, the lowest first. -/
def bitsOf (b : Fin 256) : List Bool := (List.range 8).map b.val.testBit

/-- A bit of the message goes into the lowest bit of the register. -/
theorem serialBit_eq (hw : 0 < w) (c : BitVec w) (m : Nat) :
    serialBit poly c (m.testBit 0) = bit poly (c ^^^ BitVec.ofNat w (m % 2)) := by
  have hshift : BitVec.ofNat w (m % 2) >>> 1 = 0#w := by
    apply BitVec.eq_of_toNat_eq
    have := Nat.mod_le (m % 2) (2 ^ w)
    simp only [BitVec.toNat_ushiftRight, BitVec.toNat_ofNat, Nat.shiftRight_eq_div_pow, Nat.zero_mod]
    omega
  have hlow : (BitVec.ofNat w (m % 2)).getLsbD 0 = m.testBit 0 := by
    rw [BitVec.getLsbD_ofNat, Nat.testBit_zero, Nat.testBit_zero, Nat.mod_mod]
    simp [hw]
  rw [bit_eq poly hw, BitVec.ushiftRight_xor_distrib, hshift, BitVec.xor_zero, BitVec.getLsbD_xor, hlow, serialBit]
  cases c.getLsbD 0 <;> cases m.testBit 0 <;> simp

/-- A number is its lowest bit and twice its half. -/
theorem ofNat_eq_xor (m : Nat) : BitVec.ofNat w m = BitVec.ofNat w (m % 2) ^^^ BitVec.ofNat w (2 * (m / 2)) := by
  rw [← BitVec.ofNat_xor]
  congr 1
  apply Nat.eq_of_testBit_eq
  intro i
  rw [Nat.testBit_xor]
  cases i with
  | zero => simp
  | succ i =>
    rw [Nat.testBit_succ, Nat.testBit_succ, Nat.testBit_succ, Nat.mul_div_cancel_left _ (by decide),
      Nat.div_eq_of_lt (Nat.mod_lt m (by decide))]
    simp

/-- **The steps of the register behind a number** take its bits one after the other. -/
theorem iterate_bit_eq_serial (hw : 0 < w) : ∀ (n m : Nat) (c : BitVec w), m < 2 ^ n → m < 2 ^ w →
    (bit poly)^[n] (c ^^^ BitVec.ofNat w m) = serial poly c ((List.range n).map m.testBit)
  | 0, m, c, hm, _ => by
    have hz : m = 0 := by simpa using hm
    subst hz
    simp [serial]
  | n + 1, m, c, hm, hmw => by
    have hhalf : 2 * (m / 2) < 2 ^ w := by omega
    have hbits : (List.range (n + 1)).map m.testBit = m.testBit 0 :: (List.range n).map (m / 2).testBit := by
      rw [List.range_succ_eq_map, List.map_cons, List.map_map]
      refine congrArg _ (List.map_congr_left fun i _ => ?_)
      exact Nat.testBit_succ m i
    calc (bit poly)^[n + 1] (c ^^^ BitVec.ofNat w m)
        = (bit poly)^[n] (bit poly (c ^^^ BitVec.ofNat w (m % 2)) ^^^ bit poly (BitVec.ofNat w (2 * (m / 2)))) := by
          rw [Function.iterate_succ_apply, ← bit_xor poly hw, BitVec.xor_assoc, ← ofNat_eq_xor]
      _ = (bit poly)^[n] (serialBit poly c (m.testBit 0) ^^^ BitVec.ofNat w (m / 2)) := by
          rw [bit_double poly hhalf, serialBit_eq poly hw]
      _ = serial poly (serialBit poly c (m.testBit 0)) ((List.range n).map (m / 2).testBit) :=
          iterate_bit_eq_serial hw n (m / 2) _ (by rw [Nat.pow_succ] at hm; omega) (by omega)
      _ = serial poly c ((List.range (n + 1)).map m.testBit) := by rw [hbits, serial, serial, List.foldl_cons]

/-- **A byte** is eight bits, one after the other. -/
theorem byte_eq_serial (hw : 8 ≤ w) (c : BitVec w) (b : Fin 256) : byte poly c b = serial poly c (bitsOf b) := by
  have hpow : 2 ^ 8 ≤ 2 ^ w := Nat.pow_le_pow_right (by decide) hw
  exact iterate_bit_eq_serial poly (by omega) 8 b.val c b.isLt (b.isLt.trans_le hpow)

/-- **A message** is its bits, one after the other. -/
theorem feed_eq_serial (hw : 8 ≤ w) (c : BitVec w) (message : List (Fin 256)) :
    feed poly c message = serial poly c (message.flatMap bitsOf) := by
  induction message generalizing c with
  | nil => rfl
  | cons b message ih =>
    have hstep : feed poly c (b :: message) = feed poly (byte poly c b) message := rfl
    rw [hstep, ih, byte_eq_serial poly hw, List.flatMap_cons, serial, serial, serial, List.foldl_append]

end Crc
