import SplitKV.Basic
import SplitKV.Lib.Varint

/-!
# Fixed-width and varint encodings (`coding.cpp`)

Little-endian integers of 4 and 8 bytes, and integers of seven bits a byte. Decoding reads the first bytes of a buffer,
so whatever follows an encoding does not matter (`decodeFixed32_encode`, `decodeFixed64_encode`,
`decodeVarint32_encode`). The varint decoders are the ones of `Lib.Varint` for 32 bits and five bytes, and for 64 bits
and ten (`decodeVarint32_eq`, `decodeVarint64_eq`).
-/

namespace SplitKV

/-- `EncodeFixed32`. -/
def encodeFixed32 (value : Nat) : Bytes := [byte value, byte (value >>> 8), byte (value >>> 16), byte (value >>> 24)]

/-- `EncodeFixed64`. -/
def encodeFixed64 (value : Nat) : Bytes :=
  [byte value, byte (value >>> 8), byte (value >>> 16), byte (value >>> 24),
    byte (value >>> 32), byte (value >>> 40), byte (value >>> 48), byte (value >>> 56)]

/-- The byte at index `i`, as an integer. -/
def byteAt (p : Bytes) (i : Nat) : Nat := (p.getD i 0).val

/-- `DecodeFixed32`. -/
def decodeFixed32 (p : Bytes) : Nat :=
  byteAt p 0 ||| byteAt p 1 <<< 8 ||| byteAt p 2 <<< 16 ||| byteAt p 3 <<< 24

/-- `DecodeFixed64`. -/
def decodeFixed64 (p : Bytes) : Nat :=
  byteAt p 0 ||| byteAt p 1 <<< 8 ||| byteAt p 2 <<< 16 ||| byteAt p 3 <<< 24 |||
    byteAt p 4 <<< 32 ||| byteAt p 5 <<< 40 ||| byteAt p 6 <<< 48 ||| byteAt p 7 <<< 56

/-- The loop of `EncodeVarint32` and `EncodeVarint64`, for `n` turns at most and the last byte. -/
def encodeVarintLoop : Nat → Nat → Bytes
  | 0, v => [byte v]
  | n + 1, v => if 0x80 ≤ v then byte (v ||| 0x80) :: encodeVarintLoop n (v >>> 7) else [byte v]

/-- `EncodeVarint32`. The value falls with every turn, so that the loop has ended before `v` turns. -/
def encodeVarint32 (v : Nat) : Bytes := encodeVarintLoop v v

/-- `EncodeVarint64`. -/
def encodeVarint64 (v : Nat) : Bytes := encodeVarintLoop v v

/-- The loop of `DecodeVarint32` and `DecodeVarint64`, in an unsigned integer of `w` bits: the value, and what is left of
the buffer. -/
def decodeVarintLoop (w : Nat) : Nat → Nat → Nat → Bytes → Option (Nat × Bytes)
  | 0, _, _, _ => none
  | _ + 1, _, _, [] => none
  | n + 1, shift, result, b :: p =>
    let result := result ||| ((b.val &&& 0x7F) <<< shift) % 2 ^ w
    if b.val &&& 0x80 = 0 then some (result, p) else decodeVarintLoop w n (shift + 7) result p

/-- `DecodeVarint32`; the shift ends the loop behind five bytes. -/
def decodeVarint32 : Bytes → Option (Nat × Bytes)
  | [] => none
  | b :: p => if b.val &&& 0x80 = 0 then some (b.val, p) else decodeVarintLoop 32 5 0 0 (b :: p)

/-- `DecodeVarint64`; the shift ends the loop behind ten bytes. -/
def decodeVarint64 : Bytes → Option (Nat × Bytes)
  | [] => none
  | b :: p => if b.val &&& 0x80 = 0 then some (b.val, p) else decodeVarintLoop 64 10 0 0 (b :: p)

@[simp] theorem length_encodeFixed32 (v : Nat) : (encodeFixed32 v).length = 4 := rfl
@[simp] theorem length_encodeFixed64 (v : Nat) : (encodeFixed64 v).length = 8 := rfl

theorem take_encodeFixed32 (v : Nat) (rest : Bytes) : (encodeFixed32 v ++ rest).take 4 = encodeFixed32 v := rfl
theorem drop_encodeFixed32 (v : Nat) (rest : Bytes) : (encodeFixed32 v ++ rest).drop 4 = rest := rfl
theorem drop_encodeFixed64 (v : Nat) (rest : Bytes) : (encodeFixed64 v ++ rest).drop 8 = rest := rfl

@[simp] theorem val_byte (n : Nat) : (byte n).val = n % 256 := rfl

/-- Or-ing in bits above all bits so far is adding them. -/
theorem or_shiftLeft {a : Nat} (b : Nat) {i : Nat} (h : a < 2 ^ i) : a ||| b <<< i = a + b * 2 ^ i := by
  rw [Nat.or_comm, ← Nat.shiftLeft_add_eq_or_of_lt h, Nat.shiftLeft_eq, Nat.add_comm]

theorem byteAt_lt (p : Bytes) (i : Nat) : byteAt p i < 256 := (p.getD i 0).isLt

theorem decodeFixed32_eq (p : Bytes) :
    decodeFixed32 p = byteAt p 0 + byteAt p 1 * 2 ^ 8 + byteAt p 2 * 2 ^ 16 + byteAt p 3 * 2 ^ 24 := by
  have h₀ := byteAt_lt p 0
  have h₁ := byteAt_lt p 1
  have h₂ := byteAt_lt p 2
  unfold decodeFixed32
  rw [or_shiftLeft (byteAt p 1) (by omega), or_shiftLeft (byteAt p 2) (by omega), or_shiftLeft (byteAt p 3) (by omega)]

theorem decodeFixed64_eq (p : Bytes) :
    decodeFixed64 p = byteAt p 0 + byteAt p 1 * 2 ^ 8 + byteAt p 2 * 2 ^ 16 + byteAt p 3 * 2 ^ 24 +
      byteAt p 4 * 2 ^ 32 + byteAt p 5 * 2 ^ 40 + byteAt p 6 * 2 ^ 48 + byteAt p 7 * 2 ^ 56 := by
  have h₀ := byteAt_lt p 0
  have h₁ := byteAt_lt p 1
  have h₂ := byteAt_lt p 2
  have h₃ := byteAt_lt p 3
  have h₄ := byteAt_lt p 4
  have h₅ := byteAt_lt p 5
  have h₆ := byteAt_lt p 6
  unfold decodeFixed64
  rw [or_shiftLeft (byteAt p 1) (by omega), or_shiftLeft (byteAt p 2) (by omega), or_shiftLeft (byteAt p 3) (by omega),
    or_shiftLeft (byteAt p 4) (by omega), or_shiftLeft (byteAt p 5) (by omega), or_shiftLeft (byteAt p 6) (by omega),
    or_shiftLeft (byteAt p 7) (by omega)]

/-- Decoding inverts encoding, whatever follows. -/
theorem decodeFixed32_encode {v : Nat} (h : v < 2 ^ 32) (rest : Bytes) : decodeFixed32 (encodeFixed32 v ++ rest) = v := by
  rw [decodeFixed32_eq]
  simp only [encodeFixed32, byteAt, List.cons_append, List.nil_append, List.getD_cons_zero, List.getD_cons_succ,
    val_byte, Nat.shiftRight_eq_div_pow]
  omega

theorem decodeFixed32_encode' {v : Nat} (h : v < 2 ^ 32) : decodeFixed32 (encodeFixed32 v) = v := by
  have := decodeFixed32_encode h []
  rwa [List.append_nil] at this

theorem decodeFixed64_encode {v : Nat} (h : v < 2 ^ 64) (rest : Bytes) : decodeFixed64 (encodeFixed64 v ++ rest) = v := by
  rw [decodeFixed64_eq]
  simp only [encodeFixed64, byteAt, List.cons_append, List.nil_append, List.getD_cons_zero, List.getD_cons_succ,
    val_byte, Nat.shiftRight_eq_div_pow]
  omega

theorem decodeFixed32_lt (p : Bytes) : decodeFixed32 p < 2 ^ 32 := by
  have h₀ := byteAt_lt p 0
  have h₁ := byteAt_lt p 1
  have h₂ := byteAt_lt p 2
  have h₃ := byteAt_lt p 3
  rw [decodeFixed32_eq]
  omega

/-- The bytes a short buffer lacks read as zero. -/
theorem decodeFixed32_short {p : Bytes} (h : p.length < 4) : decodeFixed32 p < 2 ^ 24 := by
  have h₀ := byteAt_lt p 0
  have h₁ := byteAt_lt p 1
  have h₂ := byteAt_lt p 2
  have h₃ : byteAt p 3 = 0 := by
    rw [byteAt, List.getD_eq_getElem?_getD, List.getElem?_eq_none (by omega)]
    rfl
  rw [decodeFixed32_eq, h₃]
  omega

theorem byteAt_take {t : Bytes} {i j m : Nat} (h : i + j < m) : byteAt ((t.take m).drop i) j = byteAt (t.drop i) j := by
  simp only [byteAt, List.getD_eq_getElem?_getD, List.getElem?_drop, List.getElem?_take, h, if_true]

theorem decodeFixed32_take {t : Bytes} {i m : Nat} (h : i + 4 ≤ m) :
    decodeFixed32 ((t.take m).drop i) = decodeFixed32 (t.drop i) := by
  unfold decodeFixed32
  rw [byteAt_take (by omega), byteAt_take (by omega), byteAt_take (by omega), byteAt_take (by omega)]

theorem decodeFixed64_take {t : Bytes} {i m : Nat} (h : i + 8 ≤ m) :
    decodeFixed64 ((t.take m).drop i) = decodeFixed64 (t.drop i) := by
  unfold decodeFixed64
  rw [byteAt_take (by omega), byteAt_take (by omega), byteAt_take (by omega), byteAt_take (by omega),
    byteAt_take (by omega), byteAt_take (by omega), byteAt_take (by omega), byteAt_take (by omega)]

/-- The encoding of a four-byte string read as an integer is the string. -/
theorem encodeFixed32_decode {p : Bytes} (h : p.length = 4) : encodeFixed32 (decodeFixed32 p) = p := by
  match p, h with
  | [a, b, c, d], _ =>
    have ha := a.isLt
    have hb := b.isLt
    have hc := c.isLt
    have hd := d.isLt
    rw [decodeFixed32_eq]
    simp only [encodeFixed32, byteAt, List.getD_cons_zero, List.getD_cons_succ, Nat.shiftRight_eq_div_pow,
      List.cons.injEq, and_true, Fin.ext_iff, val_byte]
    omega

/-! ## Varints -/

theorem and_0x80 (b : Byte) : b.val &&& 0x80 = 0 ↔ b.val < 0x80 := by
  revert b
  decide +kernel

theorem and_0x7F (n : Nat) : n &&& 0x7F = n % 0x80 := Nat.and_two_pow_sub_one_eq_mod n 7

/-- A byte with its continuation bit. -/
theorem val_byte_or (v : Nat) : (byte (v ||| 0x80)).val = v % 0x80 + 0x80 := by
  have h : ∀ b : Byte, b.val ||| 0x80 = b.val % 0x80 + 0x80 := by decide +kernel
  have hv := h (byte v)
  rw [val_byte] at hv
  rw [val_byte, show 256 = 2 ^ 8 from rfl, Nat.or_mod_two_pow, show 0x80 % 2 ^ 8 = 0x80 from rfl]
  exact hv.trans (by omega)

theorem encodeVarintLoop_ne_nil (n v : Nat) : encodeVarintLoop n v ≠ [] := by
  cases n with
  | zero => exact List.cons_ne_nil _ _
  | succ n =>
    rw [encodeVarintLoop]
    split <;> exact List.cons_ne_nil _ _

theorem encodeVarint32_ne_nil (v : Nat) : encodeVarint32 v ≠ [] := encodeVarintLoop_ne_nil v v

/-- A value of `k + 1` digits takes at most as many bytes, however many turns the loop has. -/
theorem length_encodeVarintLoop_le : ∀ (n v k : Nat), v < 128 ^ (k + 1) → (encodeVarintLoop n v).length ≤ k + 1
  | 0, _, k, _ => Nat.succ_le_succ (Nat.zero_le k)
  | n + 1, v, k, h => by
    rw [encodeVarintLoop]
    split
    · rename_i hv
      cases k with
      | zero => omega
      | succ k =>
        have hk : v >>> 7 < 128 ^ (k + 1) := by
          rw [Nat.shiftRight_eq_div_pow]
          rw [Nat.pow_succ 128 (k + 1)] at h
          omega
        exact Nat.succ_le_succ (length_encodeVarintLoop_le n (v >>> 7) k hk)
    · exact Nat.succ_le_succ (Nat.zero_le k)

/-- A 32-bit value takes at most five bytes. -/
theorem length_encodeVarint32_le {v : Nat} (h : v < 2 ^ 32) : (encodeVarint32 v).length ≤ 5 :=
  length_encodeVarintLoop_le v v 4 (h.trans (by decide))

/-- A 64-bit value takes at most ten bytes. -/
theorem length_encodeVarint64_le {v : Nat} (h : v < 2 ^ 64) : (encodeVarint64 v).length ≤ 10 :=
  length_encodeVarintLoop_le v v 9 (h.trans (by decide))

/-- The loop writes the digits of its value, when it has turns enough. -/
theorem encodeVarintLoop_spec : ∀ (n v : Nat), v < 128 ^ (n + 1) →
    Varint.IsVarint (encodeVarintLoop n v) ∧ Varint.value (encodeVarintLoop n v) = v := by
  have hlast : ∀ v < 0x80, Varint.IsVarint [byte v] ∧ Varint.value [byte v] = v := by
    intro v hv
    have hb : (byte v).val = v := by
      rw [val_byte]
      omega
    refine ⟨.last (by omega), ?_⟩
    rw [Varint.value_cons, hb, Varint.value_nil]
    omega
  intro n
  induction n with
  | zero => exact fun v h => hlast v (by omega)
  | succ n ih =>
    intro v h
    rw [encodeVarintLoop]
    split
    · have hv : v >>> 7 = v / 128 := Nat.shiftRight_eq_div_pow v 7
      rw [Nat.pow_succ 128 (n + 1)] at h
      obtain ⟨hvarint, hvalue⟩ := ih (v >>> 7) (by omega)
      have hb := val_byte_or v
      refine ⟨.more (by omega) hvarint, ?_⟩
      rw [Varint.value_cons, hvalue, hb]
      omega
    · exact hlast v (by omega)

/-- An encoding is a varint with the value that was encoded. -/
theorem encodeVarint32_spec (v : Nat) : Varint.IsVarint (encodeVarint32 v) ∧ Varint.value (encodeVarint32 v) = v :=
  encodeVarintLoop_spec v v ((Nat.lt_pow_self (by decide)).trans (Nat.pow_lt_pow_right (by decide) (Nat.lt_succ_self v)))

theorem encodeVarint64_spec (v : Nat) : Varint.IsVarint (encodeVarint64 v) ∧ Varint.value (encodeVarint64 v) = v :=
  encodeVarint32_spec v

/-- Or-ing in shifted bits above all bits so far, in `w` bits. -/
theorem or_shiftLeft_mod {a w i : Nat} (d : Nat) (h : a < 2 ^ i) (hw : a < 2 ^ w) :
    a ||| (d <<< i) % 2 ^ w = (a + d * 2 ^ i) % 2 ^ w := by
  rw [← or_shiftLeft d h, Nat.or_mod_two_pow, Nat.mod_eq_of_lt hw]

/-- **The loop** takes the bytes of a varint and adds its value, in `w` bits, above the bits that were read. -/
theorem decodeVarintLoop_eq {w : Nat} : ∀ (n shift result : Nat) (p : Bytes), result < 2 ^ shift → result < 2 ^ w →
    decodeVarintLoop w n shift result p = (Varint.cut p).bind fun x =>
      if x.1.length ≤ n then some ((result + Varint.value x.1 * 2 ^ shift) % 2 ^ w, x.2) else none
  | 0, shift, result, p, _, _ => by
    rw [decodeVarintLoop]
    cases hc : Varint.cut p with
    | none => rfl
    | some x =>
      have hne := (Varint.cut_eq_some hc).1.ne_nil
      rw [Option.bind_some, if_neg (by simpa using hne)]
  | n + 1, shift, result, [], _, _ => rfl
  | n + 1, shift, result, b :: p, hr, hw => by
    have hnext : result ||| ((b.val &&& 0x7F) <<< shift) % 2 ^ w = (result + b.val % 128 * 2 ^ shift) % 2 ^ w := by
      rw [or_shiftLeft_mod _ hr hw, and_0x7F]
    rw [decodeVarintLoop, Varint.cut]
    simp only [and_0x80, hnext]
    split
    · rename_i hb
      rw [Option.bind_some, if_pos (by simp), Varint.value_cons, Varint.value_nil, Nat.mul_zero, Nat.add_zero]
    · have hpow : 2 ^ (shift + 7) = 128 * 2 ^ shift := by rw [Nat.pow_add, Nat.mul_comm]
      have hlt : (result + b.val % 128 * 2 ^ shift) % 2 ^ w < 2 ^ (shift + 7) := by
        have hd : b.val % 128 * 2 ^ shift ≤ 127 * 2 ^ shift := Nat.mul_le_mul_right _ (by omega)
        have := Nat.mod_le (result + b.val % 128 * 2 ^ shift) (2 ^ w)
        omega
      rw [decodeVarintLoop_eq n (shift + 7) _ p hlt (Nat.mod_lt _ (Nat.two_pow_pos w))]
      cases Varint.cut p with
      | none => rfl
      | some x =>
        rw [Option.bind_some, Option.map_some, Option.bind_some]
        simp only [List.length_cons, Nat.add_le_add_iff_right]
        have hsum : (result + b.val % 128 * 2 ^ shift) % 2 ^ w + Varint.value x.1 * 2 ^ (shift + 7) ≡
            result + Varint.value (b :: x.1) * 2 ^ shift [MOD 2 ^ w] := by
          rw [hpow, Varint.value_cons, Nat.add_mul, ← Nat.add_assoc, Nat.mul_comm 128 (Varint.value x.1), Nat.mul_assoc]
          exact (Nat.mod_modEq _ _).add_right _
        rw [hsum]

/-- The fast path for one byte does what the loop does. -/
theorem decodeVarint_eq {w n : Nat} (hw : 7 ≤ w) (b : Byte) (p : Bytes) :
    (if b.val &&& 0x80 = 0 then some (b.val, p) else decodeVarintLoop w (n + 1) 0 0 (b :: p)) =
      Varint.decode w (n + 1) (b :: p) := by
  have hpow : 2 ^ 7 ≤ 2 ^ w := Nat.pow_le_pow_right (by decide) hw
  rw [decodeVarintLoop_eq _ 0 0 _ (by decide) (Nat.two_pow_pos w), Varint.decode]
  simp only [Nat.zero_add, Nat.pow_zero, Nat.mul_one, and_0x80]
  split
  · rename_i hb
    rw [Varint.cut, if_pos hb, Option.bind_some, if_pos (by simp), Varint.value_cons, Varint.value_nil, Nat.mul_zero,
      Nat.add_zero, Nat.mod_eq_of_lt (show b.val < 128 from hb), Nat.mod_eq_of_lt (show b.val < 2 ^ w by omega)]
  · rfl

/-- **`DecodeVarint32`** decodes into 32 bits, from five bytes at most. -/
theorem decodeVarint32_eq : ∀ p : Bytes, decodeVarint32 p = Varint.decode 32 5 p
  | [] => rfl
  | b :: p => decodeVarint_eq (by decide) b p

/-- **`DecodeVarint64`** decodes into 64 bits, from ten bytes at most. -/
theorem decodeVarint64_eq : ∀ p : Bytes, decodeVarint64 p = Varint.decode 64 10 p
  | [] => rfl
  | b :: p => decodeVarint_eq (by decide) b p

/-- Decoding inverts encoding, whatever follows. -/
theorem decodeVarint32_encode {v : Nat} (h : v < 2 ^ 32) (rest : Bytes) :
    decodeVarint32 (encodeVarint32 v ++ rest) = some (v, rest) := by
  obtain ⟨hvarint, hvalue⟩ := encodeVarint32_spec v
  rw [decodeVarint32_eq, Varint.decode_append hvarint (length_encodeVarint32_le h), hvalue, Nat.mod_eq_of_lt h]

/-! ## Decoding a prefix -/

/-- A varint depends on the bytes it takes only, which are five at most. -/
theorem decodeVarint32_some {p : Bytes} {v : Nat} {q : Bytes} (h : decodeVarint32 p = some (v, q)) :
    ∃ pre, p = pre ++ q ∧ 1 ≤ pre.length ∧ pre.length ≤ 5 ∧ ∀ q', decodeVarint32 (pre ++ q') = some (v, q') := by
  rw [decodeVarint32_eq] at h
  obtain ⟨l, hl, rfl, hlen, rfl⟩ := Varint.decode_eq_some_iff.mp h
  refine ⟨l, rfl, List.length_pos_iff.mpr hl.ne_nil, hlen, fun q' => ?_⟩
  rw [decodeVarint32_eq]
  exact Varint.decode_append hl hlen q'

/-- The decoded value is a `uint32_t`. -/
theorem decodeVarint32_lt {p : Bytes} {v : Nat} {q : Bytes} (h : decodeVarint32 p = some (v, q)) : v < 2 ^ 32 := by
  rw [decodeVarint32_eq] at h
  obtain ⟨l, -, -, -, rfl⟩ := Varint.decode_eq_some_iff.mp h
  exact Nat.mod_lt _ (by decide)

/-- A zero byte ends a varint. -/
theorem decodeVarint32_zero {p : Bytes} (rest : Bytes) (h : p.length < 5) :
    (decodeVarint32 (p ++ 0 :: rest)).isSome := by
  obtain ⟨l, q, hl, he, hlen⟩ := Varint.exists_cut (show (0 : Byte).val < 128 by decide) p rest
  rw [decodeVarint32_eq, he, Varint.decode_append hl (by omega)]
  rfl

/-- A buffer of five bytes of a file shows every varint. -/
theorem decodeVarint32_take {p : Bytes} {n v : Nat} {q : Bytes} (hn : 5 ≤ n) (h : decodeVarint32 p = some (v, q)) :
    ∃ q', decodeVarint32 (p.take n) = some (v, q') ∧ (p.take n).length - q'.length = p.length - q.length := by
  obtain ⟨pre, rfl, -, hlen, hq⟩ := decodeVarint32_some h
  rw [List.take_append, List.take_of_length_le (by omega)]
  refine ⟨_, hq _, ?_⟩
  simp only [List.length_append]
  omega

/-- What a buffer shows is in the file. -/
theorem decodeVarint32_of_take {p : Bytes} {n v : Nat} {q : Bytes} (h : decodeVarint32 (p.take n) = some (v, q)) :
    ∃ q', decodeVarint32 p = some (v, q') ∧ p.length - q'.length = (p.take n).length - q.length := by
  obtain ⟨pre, hp, -, -, hq⟩ := decodeVarint32_some h
  have hcut : p = pre ++ (q ++ p.drop n) := by
    conv_lhs => rw [← List.take_append_drop n p, hp]
    exact List.append_assoc _ _ _
  have hrest := hq (q ++ p.drop n)
  rw [← hcut] at hrest
  refine ⟨_, hrest, ?_⟩
  have hlen := congrArg List.length hcut
  have hlen' := congrArg List.length hp
  simp only [List.length_append] at hlen hlen' ⊢
  omega

end SplitKV
