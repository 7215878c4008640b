import LockReplica.Ascending.Basic
import LockReplica.Json.Parser
import LockReplica.Json.Printer
import LockReplica.Json.Record

/-!
# Values as documents

A codec writes the values of a type as documents and reads them back. Numbers must be written with
digits only and lie within their range; a set is written in ascending order and read from its members
in any order, with repetitions. A value travels as a text of its own (`decode?`) or as a part of a larger
document (`embedded?`); the fields of variants may be given in their declared order in the first case only.
-/

namespace LockReplica

open Json (Layout)

universe u

/-- Writing as a document, and reading from one. -/
class Codec (α : Type u) where
  toJson : α → Json
  ofJson? : Layout → Json → Option α

namespace Codec

/-- The text that transports a value. -/
def encode {α : Type u} [Codec α] (a : α) : String := (toJson a).text

/-- The value that a text transports. -/
def decode? {α : Type u} [Codec α] (s : String) : Option α := (Json.ofText? s).bind (ofJson? .free)

/-- The value that a part of a larger document stands for. -/
def embedded? {α : Type u} [Codec α] (j : Json) : Option α := ofJson? .named j

/-- A natural number below a bound. -/
def natBelow? (bound : Nat) (j : Json) : Option Nat :=
  j.nat?.filter (· < bound)

instance : Codec UInt8 where
  toJson b := Json.ofNat b.toNat
  ofJson? _ j := (natBelow? UInt8.size j).map UInt8.ofNat

instance : Codec UInt64 where
  toJson n := Json.ofNat n.toNat
  ofJson? _ j := (natBelow? UInt64.size j).map UInt64.ofNat

instance : Codec Bool where
  toJson := Json.bool
  ofJson? _ := Json.bool?

instance : Codec String where
  toJson s := Json.string s
  ofJson? _ := Json.string?

instance {α : Type u} [Codec α] : Codec (List α) where
  toJson as := Json.array (as.map toJson)
  ofJson? layout j := j.items?.bind fun vs => vs.mapM (ofJson? layout)

instance {α : Type u} [Ord α] [Std.TransOrd α] [Codec α] : Codec (SortedSet α) where
  toJson s := toJson s.toList
  ofJson? layout j := (ofJson? layout j).map Ascending.ofList

/-- Nothing is written as null. -/
instance {α : Type u} [Codec α] : Codec (Option α) where
  toJson
    | none => Json.null
    | some a => toJson a
  ofJson?
    | _, .null => some none
    | layout, j => (ofJson? layout j).map some

end Codec

end LockReplica
