import SplitKV.Basic
import SplitKV.Lib.Crc

/-!
# Table-driven CRC-32C (`crc32.cpp`)

A step of `CRC32Extend` takes one byte of the message through the table. That is the CRC of its bits, one after the
other, and checksums are extended piece by piece (`crc32Extend_bitwise`).
-/

namespace SplitKV

/-- One bit of the table computation, with the reflected polynomial `0x82F63B78`. -/
def crcBit (crc : BitVec 32) : BitVec 32 :=
  if crc &&& 1#32 = 1#32 then (crc >>> 1) ^^^ 0x82F63B78#32 else crc >>> 1

/-- `CRC32Table::entries[i]`. -/
def crcTable (i : BitVec 32) : BitVec 32 := Nat.iterate crcBit 8 i

/-- The step of `CRC32Extend` for one byte. -/
def crcByte (crc : BitVec 32) (p : Byte) : BitVec 32 :=
  crcTable ((crc ^^^ BitVec.ofNat 32 p.val) &&& 0xFF#32) ^^^ (crc >>> 8)

/-- `CRC32Extend`. -/
def crc32Extend (crc : BitVec 32) (data : Bytes) : BitVec 32 := ~~~ (data.foldl crcByte (~~~ crc))

/-- `CRC32` of a buffer, as the `uint32_t` that is stored. -/
def crc32 (data : Bytes) : Nat := (crc32Extend 0#32 data).toNat

theorem crc32_lt (data : Bytes) : crc32 data < 2 ^ 32 := (crc32Extend 0#32 data).isLt

/-- The check value of the polynomial: the digits `1` to `9`. -/
example : crc32 [0x31, 0x32, 0x33, 0x34, 0x35, 0x36, 0x37, 0x38, 0x39] = 0xE3069283 := by decide +kernel

/-! ## Bursts of four bytes -/

/-- A step of `CRC32Extend` is eight steps of the register. -/
theorem crcByte_eq (crc : BitVec 32) (p : Byte) : crcByte crc p = Crc.byte 0x82F63B78#32 crc p :=
  (Crc.byte_eq_table 0x82F63B78#32 (by decide) crc p).symm

theorem crc32Extend_eq (crc : BitVec 32) (data : Bytes) :
    crc32Extend crc data = ~~~ Crc.feed 0x82F63B78#32 (~~~ crc) data := by
  have hstep : crcByte = Crc.byte 0x82F63B78#32 := by
    funext c p
    exact crcByte_eq c p
  rw [crc32Extend, Crc.feed, hstep]

/-- **A change of at most four consecutive bytes changes the checksum.** -/
theorem crc32_burst {a b : Bytes} (h : Crc.Burst 4 a b) : crc32 a ≠ crc32 b := by
  intro he
  have hx : crc32Extend 0#32 a = crc32Extend 0#32 b := BitVec.eq_of_toNat_eq he
  rw [crc32Extend_eq, crc32Extend_eq, BitVec.not_inj] at hx
  exact Crc.feed_burst 0x82F63B78#32 (by decide) _ (by decide) h hx

/-! ## One bit after the other -/

/-- The array that the constructor of `CRC32Table` fills. -/
def crcEntries : List (BitVec 32) := (List.range 256).map fun i => crcTable (BitVec.ofNat 32 i)

/-- A step of `CRC32Extend` looks up one entry of the array. -/
theorem crcByte_lookup (crc : BitVec 32) (p : Byte) :
    crcEntries[((crc ^^^ BitVec.ofNat 32 p.val) &&& 0xFF#32).toNat]? =
      some (crcTable ((crc ^^^ BitVec.ofNat 32 p.val) &&& 0xFF#32)) := by
  generalize crc ^^^ BitVec.ofNat 32 p.val = x
  have hlt : (x &&& 0xFF#32).toNat < 256 := by
    rw [BitVec.toNat_and]
    exact Nat.lt_succ_of_le Nat.and_le_right
  rw [crcEntries, List.getElem?_map, List.getElem?_range hlt, Option.map_some, BitVec.ofNat_toNat, BitVec.setWidth_eq]

/-- The checksum of a string behind another one goes on with its checksum. -/
theorem crc32Extend_append (crc : BitVec 32) (a b : Bytes) : crc32Extend (crc32Extend crc a) b = crc32Extend crc (a ++ b) := by
  rw [crc32Extend, crc32Extend, crc32Extend, BitVec.not_not, List.foldl_append]

/-- **`CRC32Extend` is the CRC-32C of the bits**, for every string and initial value, each byte with one entry of the table
of 256; and the checksum of a string is extended to that of a longer one. -/
theorem crc32Extend_bitwise :
    (∀ crc data, crc32Extend crc data = ~~~ Crc.serial 0x82F63B78#32 (~~~ crc) (data.flatMap Crc.bitsOf)) ∧
      (crcEntries.length = 256 ∧ ∀ (crc : BitVec 32) (p : Byte),
        crcEntries[((crc ^^^ BitVec.ofNat 32 p.val) &&& 0xFF#32).toNat]?.map (· ^^^ (crc >>> 8)) = some (crcByte crc p)) ∧
      (∀ crc a b, crc32Extend (crc32Extend crc a) b = crc32Extend crc (a ++ b)) ∧
      ∀ a b, (crc32Extend (BitVec.ofNat 32 (crc32 a)) b).toNat = crc32 (a ++ b) := by
  refine ⟨fun crc data => ?_, ⟨by simp [crcEntries], fun crc p => ?_⟩, crc32Extend_append, fun a b => ?_⟩
  · rw [crc32Extend_eq, Crc.feed_eq_serial _ (by decide)]
  · rw [crcByte_lookup, Option.map_some, crcByte]
  · rw [crc32, crc32, BitVec.ofNat_toNat, BitVec.setWidth_eq, crc32Extend_append]

end SplitKV
