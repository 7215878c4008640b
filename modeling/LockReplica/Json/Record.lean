import LockReplica.Json.Basic

/-!
# Records and variants

A record is read from an object by the names of its fields, in any order and among others, or from
the array of its fields in their declared order. A variant is an object with a single field, whose
name says which one it is; its own fields are given as those of a record, but a document that is part of
a larger one gives them by name only (`Layout`).
-/

namespace LockReplica.Json

/-- The document of a record. -/
def record (fields : List (String × Json)) : Json := object (fields.map fun (name, v) => (some name, v))

/-- The value of the only field of a name; a name that is missing or given twice has none. -/
def sole? (fields : List (Option String × Json)) (name : String) : Option Json :=
  match fields.filter (·.1 = some name) with
  | [(_, v)] => some v
  | _ => none

/-- The values of the fields of a record, in the order of their names. The names of an object must be
texts, those of other fields too. -/
def fields? (names : List String) : Json → Option (List Json)
  | array vs => if vs.length = names.length then some vs else none
  | object fs => if fs.all (·.1.isSome) then names.mapM (sole? fs) else none
  | _ => none

/-- How the fields of a variant may be given. -/
inductive Layout where
  /-- By name, or in their declared order. -/
  | free
  /-- By name only. -/
  | named
deriving DecidableEq

/-- The values of the fields of a variant, in the order of their names. -/
def content? (layout : Layout) (names : List String) : Json → Option (List Json)
  | array vs => if layout = .free then fields? names (array vs) else none
  | j => j.fields? names

/-- The name of a variant and what it holds. -/
def variant? : Json → Option (String × Json)
  | object [(some name, content)] => some (name, content)
  | _ => none

/-- The document of a variant. -/
def variant (name : String) (content : Json) : Json := record [(name, content)]

@[simp] theorem variant?_variant (name : String) (content : Json) :
    (variant name content).variant? = some (name, content) := rfl

end LockReplica.Json
