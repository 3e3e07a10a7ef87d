import Mathlib.Data.List.Infix
import Mathlib.Data.List.TakeWhile
import SplitKV.Coding

/-!
# Decimal numbers and file names

The three kinds of numbered files have names with a decimal id padded to five digits. The three listings of the
directory read ids back from names, each in its own way; on ids of at most five digits all of them return the id
(`gcFileId_vlogFileName`, `recoverFileId_vlogFileName`, `walFileId_walFileName`), and a longer VLog name is not
recognised by either of its two listings.
-/

namespace SplitKV

/-- ASCII characters as bytes. -/
def ascii (cs : List Char) : Bytes := cs.map (fun c => byte c.toNat)

/-- A decimal digit as a character. -/
def digitChar (d : Nat) : Byte := byte (48 + d)

/-- The digits of a number, the most significant first, in front of `acc`. -/
def decimalLoop : Nat → Nat → Bytes → Bytes
  | 0, _, acc => acc
  | fuel + 1, n, acc =>
    if n < 10 then digitChar n :: acc else decimalLoop fuel (n / 10) (digitChar (n % 10) :: acc)

/-- `oss << n`. -/
def toDecimal (n : Nat) : Bytes := decimalLoop (n + 1) n []

/-- `isdigit`. -/
def isDigit (b : Byte) : Bool := decide (48 ≤ b.val ∧ b.val ≤ 57)

/-- The number a string of digits denotes. -/
def digitsValue (ds : Bytes) : Nat := ds.foldl (fun n d => n * 10 + (d.val - 48)) 0

/-- `std::stoul`, `std::stoull`: the leading digits. -/
def stoul (s : Bytes) : Nat := digitsValue (s.takeWhile isDigit)

/-- `oss << std::setw(5) << std::setfill('0') << n`. -/
def pad5 (n : Nat) : Bytes := List.replicate (5 - (toDecimal n).length) (digitChar 0) ++ toDecimal n

def vlogFileName (fileId : Nat) : Bytes := ascii ['v', 'l', 'o', 'g', '_'] ++ pad5 fileId ++ ascii ['.', 'd', 'a', 't']
def walFileName (walId : Nat) : Bytes := ascii ['w', 'a', 'l', '_'] ++ pad5 walId ++ ascii ['.', 'l', 'o', 'g']

/-- `name.find(pattern) == 0`. -/
def startsWith (name pattern : Bytes) : Bool := pattern.isPrefixOf name

/-- `name.find(pattern) != npos`. -/
def hasInfix (name pattern : Bytes) : Bool := name.tails.any (fun t => pattern.isPrefixOf t)

/-- The test of `RunGC` on a name, and the id it reads. -/
def gcFileId (name : Bytes) : Option Nat :=
  if startsWith name (ascii ['v', 'l', 'o', 'g', '_']) && hasInfix name (ascii ['.', 'd', 'a', 't']) &&
    name.length == 14 then some (stoul ((name.drop 5).take 5)) else none

/-- The match of `RecoverFileIds` with `vlog_(\d{5})\.dat`. -/
def recoverFileId (name : Bytes) : Option Nat :=
  if name.take 5 == ascii ['v', 'l', 'o', 'g', '_'] && ((name.drop 5).take 5).length == 5 &&
    ((name.drop 5).take 5).all isDigit && name.drop 10 == ascii ['.', 'd', 'a', 't'] then
    some (stoul ((name.drop 5).take 5)) else none

/-- The test of `RecoverFromWAL` on a name, and the id it reads. -/
def walFileId (name : Bytes) : Option Nat :=
  if startsWith name (ascii ['w', 'a', 'l', '_']) && hasInfix name (ascii ['.', 'l', 'o', 'g']) then
    some (stoul ((name.drop 4).take 5)) else none

/-! ## Reading ids back -/

theorem val_digitChar {d : Nat} (h : d < 10) : (digitChar d).val = 48 + d := by
  rw [digitChar, val_byte]
  omega

theorem isDigit_digitChar {d : Nat} (h : d < 10) : isDigit (digitChar d) = true := by
  rw [isDigit, val_digitChar h]
  exact decide_eq_true ⟨by omega, by omega⟩

theorem digitsValue_append (ds es : Bytes) :
    digitsValue (ds ++ es) = es.foldl (fun n d => n * 10 + (d.val - 48)) (digitsValue ds) := by
  rw [digitsValue, List.foldl_append]
  rfl

/-- The loop prepends the digits of the number. -/
theorem decimalLoop_eq (fuel : Nat) : ∀ (n : Nat) (acc : Bytes), n < fuel →
    ∃ ds, decimalLoop fuel n acc = ds ++ acc ∧ digitsValue ds = n ∧ (∀ d ∈ ds, isDigit d = true) ∧ ds ≠ [] ∧
      ∀ j, 0 < j → (ds.length ≤ j ↔ n < 10 ^ j) := by
  induction fuel with
  | zero => exact fun n acc h => absurd h (Nat.not_lt_zero n)
  | succ fuel ih =>
    intro n acc h
    rw [decimalLoop]
    by_cases hn : n < 10
    · rw [if_pos hn]
      refine ⟨[digitChar n], rfl, ?_, ?_, by simp, fun j hj => ?_⟩
      · simp [digitsValue, val_digitChar hn]
      · intro d hd
        rw [List.mem_singleton.mp hd]
        exact isDigit_digitChar hn
      · have : 10 ^ 1 ≤ 10 ^ j := Nat.pow_le_pow_right (by omega) hj
        simp only [List.length_singleton]
        omega
    · rw [if_neg hn]
      obtain ⟨ds, he, hv, hd, hne, hlen⟩ := ih (n / 10) (digitChar (n % 10) :: acc) (by omega)
      have hm : n % 10 < 10 := Nat.mod_lt _ (by omega)
      refine ⟨ds ++ [digitChar (n % 10)], by rw [he]; simp, ?_, ?_, by simp, fun j hj => ?_⟩
      · rw [digitsValue_append, hv]
        simp only [List.foldl_cons, List.foldl_nil, val_digitChar hm]
        omega
      · intro d hd'
        rcases List.mem_append.mp hd' with hd' | hd'
        · exact hd d hd'
        · rw [List.mem_singleton.mp hd']
          exact isDigit_digitChar hm
      · rw [List.length_append, List.length_singleton]
        cases j with
        | zero => omega
        | succ j =>
          have hpow : 10 ^ (j + 1) = 10 ^ j * 10 := rfl
          rcases Nat.eq_zero_or_pos j with rfl | hj'
          · have := List.length_pos_iff.mpr hne
            omega
          · have := hlen j hj'
            omega

/-- The decimal digits of a number. -/
theorem toDecimal_spec (n : Nat) : digitsValue (toDecimal n) = n ∧ (∀ d ∈ toDecimal n, isDigit d = true) ∧
    toDecimal n ≠ [] ∧ ∀ j, 0 < j → ((toDecimal n).length ≤ j ↔ n < 10 ^ j) := by
  obtain ⟨ds, he, hv, hd, hne, hl⟩ := decimalLoop_eq (n + 1) n [] (Nat.lt_succ_self n)
  rw [List.append_nil] at he
  rw [toDecimal, he]
  exact ⟨hv, hd, hne, hl⟩

theorem digitsValue_zeros (k : Nat) (ds : Bytes) : digitsValue (List.replicate k (digitChar 0) ++ ds) = digitsValue ds := by
  have hz : digitsValue (List.replicate k (digitChar 0)) = 0 := by
    induction k with
    | zero => rfl
    | succ k ih =>
      rw [List.replicate_succ', digitsValue_append, ih]
      rfl
  rw [digitsValue_append, hz]
  rfl

theorem isDigit_pad5 (n : Nat) : ∀ d ∈ pad5 n, isDigit d = true := by
  intro d hd
  rcases List.mem_append.mp hd with hd | hd
  · rw [(List.mem_replicate.mp hd).2]
    rfl
  · exact (toDecimal_spec n).2.1 d hd

theorem length_pad5 (n : Nat) : (pad5 n).length = 5 ↔ n < 100000 := by
  have := (toDecimal_spec n).2.2.2 5 (by omega)
  rw [pad5, List.length_append, List.length_replicate]
  omega

theorem stoul_pad5 (n : Nat) : stoul (pad5 n) = n := by
  have ht : (pad5 n).takeWhile isDigit = pad5 n := List.takeWhile_eq_self_iff.mpr (isDigit_pad5 n)
  rw [stoul, ht, pad5, digitsValue_zeros]
  exact (toDecimal_spec n).1

theorem take_pad5 {n : Nat} (h : n < 100000) (rest : Bytes) : (pad5 n ++ rest).take 5 = pad5 n := by
  have hl : (pad5 n).length = 5 := (length_pad5 n).mpr h
  rw [← hl, List.take_left]

theorem hasInfix_append (a b : Bytes) : hasInfix (a ++ b) b = true := by
  rw [hasInfix, List.any_eq_true]
  exact ⟨b, (List.mem_tails _ _).mpr (List.suffix_append a b), List.isPrefixOf_iff_prefix.mpr (List.prefix_refl b)⟩

theorem drop_vlogFileName (n : Nat) : (vlogFileName n).drop 5 = pad5 n ++ ascii ['.', 'd', 'a', 't'] := by
  rw [vlogFileName, List.append_assoc]
  exact List.drop_left' rfl

theorem drop_walFileName (n : Nat) : (walFileName n).drop 4 = pad5 n ++ ascii ['.', 'l', 'o', 'g'] := by
  rw [walFileName, List.append_assoc]
  exact List.drop_left' rfl

/-- **The listing of `RunGC`** reads the ids of at most five digits, and skips the others. -/
theorem gcFileId_vlogFileName (n : Nat) : gcFileId (vlogFileName n) = if n < 100000 then some n else none := by
  have hstart : startsWith (vlogFileName n) (ascii ['v', 'l', 'o', 'g', '_']) = true := by
    rw [startsWith, vlogFileName, List.append_assoc]
    exact List.isPrefixOf_iff_prefix.mpr (List.prefix_append _ _)
  have hinfix : hasInfix (vlogFileName n) (ascii ['.', 'd', 'a', 't']) = true := hasInfix_append _ _
  have hlen : (vlogFileName n).length = 9 + (pad5 n).length := by
    simp only [vlogFileName, List.length_append, ascii, List.length_map, List.length_cons, List.length_nil]
    omega
  rw [gcFileId, hstart, hinfix, hlen]
  by_cases h : n < 100000
  · rw [(length_pad5 n).mpr h, if_pos h, if_pos (by decide)]
    rw [drop_vlogFileName, take_pad5 h, stoul_pad5]
  · have hne : (pad5 n).length ≠ 5 := fun he => h ((length_pad5 n).mp he)
    rw [if_neg h, if_neg]
    simp only [Bool.true_and, beq_iff_eq]
    omega

/-- **The listing of `VLog::RecoverFileIds`** does so too. -/
theorem recoverFileId_vlogFileName (n : Nat) :
    recoverFileId (vlogFileName n) = if n < 100000 then some n else none := by
  have htake : (vlogFileName n).take 5 = ascii ['v', 'l', 'o', 'g', '_'] := by
    rw [vlogFileName, List.append_assoc]
    exact List.take_left' rfl
  rw [recoverFileId, htake, drop_vlogFileName]
  by_cases h : n < 100000
  · have hl := (length_pad5 n).mpr h
    have hd : (vlogFileName n).drop 10 = ascii ['.', 'd', 'a', 't'] := by
      have hd : (vlogFileName n).drop 10 = ((vlogFileName n).drop 5).drop 5 := by rw [List.drop_drop]
      rw [hd, drop_vlogFileName, ← hl, List.drop_left]
    rw [take_pad5 h, hl, hd, if_pos h, stoul_pad5, if_pos]
    simpa using isDigit_pad5 n
  · have hlt : 5 < (pad5 n).length := by
      have := (toDecimal_spec n).2.2.2 5 (by omega)
      have hne : (pad5 n).length ≠ 5 := fun he => h ((length_pad5 n).mp he)
      rw [pad5, List.length_append, List.length_replicate] at hne ⊢
      omega
    have hd : (vlogFileName n).drop 10 ≠ ascii ['.', 'd', 'a', 't'] := by
      intro he
      have := congrArg List.length he
      simp only [vlogFileName, List.length_drop, List.length_append, ascii, List.length_map, List.length_cons,
        List.length_nil] at this
      omega
    rw [if_neg h, if_neg]
    simp only [Bool.and_eq_true, beq_iff_eq, not_and]
    exact fun _ => hd

/-- **The listing of `RecoverFromWAL`** reads the ids of at most five digits. -/
theorem walFileId_walFileName {n : Nat} (h : n < 100000) : walFileId (walFileName n) = some n := by
  have hstart : startsWith (walFileName n) (ascii ['w', 'a', 'l', '_']) = true := by
    rw [startsWith, walFileName, List.append_assoc]
    exact List.isPrefixOf_iff_prefix.mpr (List.prefix_append _ _)
  have hinfix : hasInfix (walFileName n) (ascii ['.', 'l', 'o', 'g']) = true := hasInfix_append _ _
  rw [walFileId, hstart, hinfix, if_pos (by decide), drop_walFileName, take_pad5 h,
    stoul_pad5]

end SplitKV
