import LockReplica.Hex
import LockReplica.Order
import LockReplica.Utf8

/-!
# Lock descriptors

A descriptor is an opaque string of bytes that names something lockable, compared bytewise.
-/

namespace LockReplica

open Std

/-- The name of a lockable resource. -/
structure Descriptor where
  bytes : List UInt8
deriving DecidableEq

namespace Descriptor

theorem bytes_inj {a b : Descriptor} : a.bytes = b.bytes ↔ a = b := by
  cases a; cases b; simp

/-- Descriptors are ordered bytewise, a shorter one before its extensions. -/
instance : Ord Descriptor := ⟨compareOn bytes⟩

instance : TransOrd Descriptor := transCmp_compareOn bytes

instance : LawfulEqOrd Descriptor := lawfulEqCmp_compareOn bytes fun _ _ => bytes_inj.1

theorem compare_eq_lt_iff {a b : Descriptor} : compare a b = .lt ↔ a.bytes < b.bytes := compare_list_eq_lt_iff

/-- The byte between the name of a table and the key of a row. -/
def separator : UInt8 := 0

/-- The descriptor of a row: the name of its table, the separator, and the key of the row. -/
def row (table : String) (key : List UInt8) : Descriptor := ⟨utf8 table ++ separator :: key⟩

/-- Whether a byte is a visible ASCII character. -/
def isVisible (b : UInt8) : Bool := 0x21 ≤ b && b ≤ 0x7e

/-- A visible byte is shown as its character, any other one as a hexadecimal escape. -/
def showByte (b : UInt8) : List Char :=
  if isVisible b then [Char.ofNat b.toNat] else '\\' :: 'x' :: Hex.ofByte b

/-- The displayed form of a descriptor. -/
def text (d : Descriptor) : String := String.ofList (d.bytes.flatMap showByte)

end Descriptor

end LockReplica
