import LockReplica.Json.Numeral

/-!
# JSON documents

A document as it is written: the fields of an object keep their order and their repetitions. A string is
a text, or none at all if it names half of a character without the other half; such a string may stand in
a document, but nothing can be read from it.
-/

namespace LockReplica

/-- A JSON document. -/
inductive Json where
  | null
  | bool (b : Bool)
  | number (n : Numeral)
  | string (s : Option String)
  | array (items : List Json)
  | object (fields : List (Option String × Json))
deriving Inhabited

namespace Json

/-- The document of a natural number. -/
def ofNat (n : Nat) : Json := number { whole := n }

/-- The number of a document that is written with digits only. -/
def nat? : Json → Option Nat
  | number ⟨false, n, [], none⟩ => some n
  | _ => none

/-- The truth value that a document is. -/
def bool? : Json → Option Bool
  | bool b => some b
  | _ => none

/-- The text that a document is. -/
def string? : Json → Option String
  | string s => s
  | _ => none

/-- The items of an array. -/
def items? : Json → Option (List Json)
  | array items => some items
  | _ => none

@[simp] theorem nat?_ofNat (n : Nat) : (ofNat n).nat? = some n := rfl

end Json

end LockReplica
