import SplitKV.Coding

/-!
# Varints written and read (`coding.cpp`)

Every value is decoded from its encoding, whatever follows, and from no part of it, and the encodings of a list are read
back one after the other (`varint_laws`). A decoder is right about any other string, too, unless the last byte it takes
has bits that do not fit: it drops them (`decodeVarint_exact_iff`).
-/

namespace SplitKV

open Varint

/-- `PutVarint32` and `PutVarint64`: the encoding goes through a buffer of `size` bytes on the stack; `none` when it runs
over its end. -/
def putVarint (size : Nat) (dst encoding : Bytes) : Option Bytes :=
  if size < encoding.length then none else some (dst ++ encoding)

/-- `PutVarint32`. -/
def putVarint32 (dst : Bytes) (v : Nat) : Option Bytes := putVarint 5 dst (encodeVarint32 v)

/-- `PutVarint64`. -/
def putVarint64 (dst : Bytes) (v : Nat) : Option Bytes := putVarint 10 dst (encodeVarint64 v)

/-- `GetVarint32` and `GetVarint64`: whether they succeed, and `*input` and `*value` behind them. -/
def getVarint (decode : Bytes → Option (Nat × Bytes)) (input : Bytes) (value : Nat) : Bool × Bytes × Nat :=
  match decode input with
  | none => (false, input, value)
  | some (v, q) => (true, q, v)

/-- `GetVarint32`. -/
def getVarint32 (input : Bytes) (value : Nat) : Bool × Bytes × Nat := getVarint decodeVarint32 input value

/-- `GetVarint64`. -/
def getVarint64 (input : Bytes) (value : Nat) : Bool × Bytes × Nat := getVarint decodeVarint64 input value

/-- `n` calls, one after the other, to the first one that fails: their values, and what is left of the input. -/
def getVarints (get : Bytes → Nat → Bool × Bytes × Nat) : Nat → Bytes → List Nat × Bytes
  | 0, input => ([], input)
  | n + 1, input =>
    match get input 0 with
    | (false, input, _) => ([], input)
    | (true, input, v) => (v :: (getVarints get n input).1, (getVarints get n input).2)

/-! ## Encodings -/

/-- **The laws** of the varints of `w` bits, which take `size` bytes at most. -/
structure VarintLaws (w size : Nat) (encode : Nat → Bytes) (decode : Bytes → Option (Nat × Bytes))
    (put : Bytes → Nat → Option Bytes) (get : Bytes → Nat → Bool × Bytes × Nat) : Prop where
  inverse : ∀ v < 2 ^ w, ∀ rest, decode (encode v ++ rest) = some (v, rest)
  short : ∀ v < 2 ^ w, (encode v).length ≤ size
  stays : ∀ v < 2 ^ w, ∀ dst, put dst v = some (dst ++ encode v)
  strictPrefix : ∀ v < 2 ^ w, ∀ p, p <+: encode v → p ≠ encode v → decode p = none
  list : ∀ vs : List Nat, (∀ v ∈ vs, v < 2 ^ w) → ∀ rest,
    getVarints get vs.length (vs.flatMap encode ++ rest) = (vs, rest)
  all : ∀ vs : List Nat, (∀ v ∈ vs, v < 2 ^ w) → ∀ n, vs.length ≤ n → getVarints get n (vs.flatMap encode) = (vs, [])

section

variable {w size : Nat} {encode : Nat → Bytes} {decode : Bytes → Option (Nat × Bytes)}

/-- A call on an encoding takes it. -/
theorem getVarints_cons (h : ∀ v < 2 ^ w, ∀ rest, decode (encode v ++ rest) = some (v, rest)) {v : Nat} (hv : v < 2 ^ w)
    (n : Nat) (rest : Bytes) : getVarints (getVarint decode) (n + 1) (encode v ++ rest) =
      (v :: (getVarints (getVarint decode) n rest).1, (getVarints (getVarint decode) n rest).2) := by
  rw [getVarints, getVarint, h v hv rest]

/-- The calls on the encodings of a list take them, and go on behind them. -/
theorem getVarints_flatMap (h : ∀ v < 2 ^ w, ∀ rest, decode (encode v ++ rest) = some (v, rest)) (rest : Bytes) :
    ∀ (vs : List Nat) (n : Nat), (∀ v ∈ vs, v < 2 ^ w) →
      getVarints (getVarint decode) (vs.length + n) (vs.flatMap encode ++ rest) =
        (vs ++ (getVarints (getVarint decode) n rest).1, (getVarints (getVarint decode) n rest).2)
  | [], n, _ => by
    rw [List.length_nil, Nat.zero_add]
    rfl
  | v :: vs, n, hvs => by
    have ih := getVarints_flatMap h rest vs n fun v' hv' => hvs v' (List.mem_cons_of_mem _ hv')
    rw [List.length_cons, Nat.add_right_comm, List.flatMap_cons, List.append_assoc,
      getVarints_cons h (hvs v List.mem_cons_self), ih]
    rfl

/-- An encoder that writes varints of `w` bits, and the decoder of `w` bits and as many bytes. -/
theorem varintLaws_of (hspec : ∀ v, IsVarint (encode v) ∧ value (encode v) = v)
    (hlen : ∀ v < 2 ^ w, (encode v).length ≤ size) (hdecode : ∀ p, decode p = Varint.decode w size p) :
    VarintLaws w size encode decode (fun dst v => putVarint size dst (encode v)) (getVarint decode) := by
  have hinv : ∀ v < 2 ^ w, ∀ rest, decode (encode v ++ rest) = some (v, rest) := by
    intro v hv rest
    obtain ⟨hvarint, hvalue⟩ := hspec v
    rw [hdecode, decode_append hvarint (hlen v hv), hvalue, Nat.mod_eq_of_lt hv]
  refine ⟨hinv, hlen, fun v hv dst => ?_, fun v hv p hp hne => ?_, fun vs hvs rest => ?_, fun vs hvs n hn => ?_⟩
  · exact if_neg (Nat.not_lt.mpr (hlen v hv))
  · rw [hdecode]
    exact decode_truncated ((hspec v).1.goes_on hp hne)
  · have h := getVarints_flatMap hinv rest vs 0 hvs
    rw [Nat.add_zero] at h
    rw [h]
    exact Prod.ext (List.append_nil vs) rfl
  · obtain ⟨k, rfl⟩ := Nat.exists_eq_add_of_le hn
    have h := getVarints_flatMap hinv [] vs k hvs
    have hend : getVarints (getVarint decode) k [] = ([], []) := by
      cases k with
      | zero => rfl
      | succ k =>
        rw [getVarints, getVarint, hdecode]
        rfl
    rw [List.append_nil, hend, List.append_nil] at h
    exact h

end

/-- **Encoding and decoding varints.** -/
theorem varint_laws : VarintLaws 32 5 encodeVarint32 decodeVarint32 putVarint32 getVarint32 ∧
    VarintLaws 64 10 encodeVarint64 decodeVarint64 putVarint64 getVarint64 :=
  ⟨varintLaws_of encodeVarint32_spec (fun _ => length_encodeVarint32_le) decodeVarint32_eq,
    varintLaws_of encodeVarint64_spec (fun _ => length_encodeVarint64_le) decodeVarint64_eq⟩

/-! ## Any bytes -/

/-- **A decoder drops bits** of the strings that have too many in the last byte it takes, and of no other. -/
theorem decodeVarint_exact_iff (p : Bytes) :
    (Exact 32 5 p (decodeVarint32 p) ↔ ¬Overflow 4 0x10 p) ∧ (Exact 64 10 p (decodeVarint64 p) ↔ ¬Overflow 9 0x02 p) := by
  rw [decodeVarint32_eq, decodeVarint64_eq]
  exact ⟨exact_iff (m := 4) (k := 4), exact_iff (m := 9) (k := 1)⟩

/-- The values `2 ^ 32 + 1` and `2 ^ 64 + 1` are decoded as one. -/
theorem decodeVarint_drops :
    (decodeVarint32 [0x81, 0x80, 0x80, 0x80, 0x10] = some (1, []) ∧
      ¬Exact 32 5 [0x81, 0x80, 0x80, 0x80, 0x10] (decodeVarint32 [0x81, 0x80, 0x80, 0x80, 0x10])) ∧
    (decodeVarint64 [0x81, 0x80, 0x80, 0x80, 0x80, 0x80, 0x80, 0x80, 0x80, 0x02] = some (1, []) ∧
      ¬Exact 64 10 [0x81, 0x80, 0x80, 0x80, 0x80, 0x80, 0x80, 0x80, 0x80, 0x02]
        (decodeVarint64 [0x81, 0x80, 0x80, 0x80, 0x80, 0x80, 0x80, 0x80, 0x80, 0x02])) := by
  have h₃₂ : decodeVarint32 [0x81, 0x80, 0x80, 0x80, 0x10] = some (1, []) := by decide +kernel
  have h₆₄ : decodeVarint64 [0x81, 0x80, 0x80, 0x80, 0x80, 0x80, 0x80, 0x80, 0x80, 0x02] = some (1, []) := by
    decide +kernel
  refine ⟨⟨h₃₂, fun h => ?_⟩, ⟨h₆₄, fun h => ?_⟩⟩
  · obtain ⟨l, hl, hv⟩ := h.sum 1 [] h₃₂
    rw [List.append_nil] at hl
    subst hl
    exact absurd hv (by decide +kernel)
  · obtain ⟨l, hl, hv⟩ := h.sum 1 [] h₆₄
    rw [List.append_nil] at hl
    subst hl
    exact absurd hv (by decide +kernel)

end SplitKV
