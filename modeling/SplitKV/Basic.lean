import Mathlib.Algebra.Order.Ring.Nat
import Mathlib.Data.List.Lex
import Mathlib.Order.Fin.Basic

/-!
# Bytes, statuses, options and the entries of the index

Keys and values are byte strings, compared as `std::string` compares them: lexicographically by unsigned byte.
A fallible function of the source returns `Except Status α`; the error is never the `ok` status.
-/

namespace SplitKV

/-- A byte. -/
abbrev Byte := Fin 256

/-- Numerals are bytes. -/
instance instNeZeroByte : NeZero 256 := ⟨by decide⟩

/-- A byte string (`std::string`, `Slice`). -/
abbrev Bytes := List Byte

/-- A key. -/
abbrev Key := Bytes

/-- The low eight bits of an integer. -/
def byte (n : Nat) : Byte := Fin.ofNat 256 n

/-- `Status::Code`. -/
inductive Code
  | ok | notFound | corruption | ioError | invalidArgument | notSupported
  deriving DecidableEq, Repr

/-- A result code and its message. -/
structure Status where
  code : Code
  msg : String
  deriving DecidableEq, Repr

namespace Status

def OK : Status := ⟨.ok, ""⟩
def NotFound (msg : String) : Status := ⟨.notFound, msg⟩
def Corruption (msg : String) : Status := ⟨.corruption, msg⟩
def IOError (msg : String) : Status := ⟨.ioError, msg⟩
def InvalidArgument (msg : String) : Status := ⟨.invalidArgument, msg⟩

def isNotFound (s : Status) : Bool := s.code == .notFound

end Status

/-- The options the engine reads. `gcTest live total` is the floating-point test
`1.0 - (double)live / total >= vlog_gc_threshold`. -/
structure Options where
  memtableSizeLimit : Nat := 4 * 1024 * 1024
  bloomBitsPerKey : Nat := 10
  maxSstableLevels : Nat := 7
  gcTest : Nat → Nat → Bool := fun live total => decide (total ≤ 2 * (total - live))
  syncWrites : Bool := false
  vlogFileSizeLimit : Nat := 256 * 1024 * 1024
  sparseIndexInterval : Nat := 16

/-- Where a value lies in the value log. -/
structure VLogPointer where
  fileId : Nat
  offset : Nat
  valueSize : Nat
  deriving DecidableEq, Repr

/-- The type byte of a record; a byte other than `0x01` and `0x02` is neither. -/
inductive ValueType
  | value | deletion | other (b : Byte)
  deriving DecidableEq, Repr

namespace ValueType

def toByte : ValueType → Byte
  | value => 0x01
  | deletion => 0x02
  | other b => b

/-- `static_cast<ValueType>` of a byte. -/
def ofByte (b : Byte) : ValueType := if b = 0x01 then value else if b = 0x02 then deletion else other b

/-- The type is one that a byte can be cast to. -/
def Canonical (t : ValueType) : Prop := ofByte t.toByte = t

instance : DecidablePred Canonical := fun t => inferInstanceAs (Decidable (ofByte t.toByte = t))

@[simp] theorem ofByte_value : ofByte (toByte value) = value := rfl
@[simp] theorem ofByte_deletion : ofByte (toByte deletion) = deletion := rfl

end ValueType

/-- What the index holds for a key: one version of it. -/
structure InternalEntry where
  vlogPtr : VLogPointer
  sequence : Nat
  type : ValueType
  deriving DecidableEq, Repr

namespace InternalEntry

/-- The version marks the key as deleted. -/
def Gone (e : InternalEntry) : Prop := e.type = .deletion

instance : DecidablePred Gone := fun e => inferInstanceAs (Decidable (e.type = .deletion))

end InternalEntry

end SplitKV
