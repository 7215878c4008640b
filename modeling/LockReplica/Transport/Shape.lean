import LockReplica.Transport.Messages
import LockReplica.Uuid.Forms
import Mathlib.Logic.Relation

/-!
# Documents of one meaning

The shape of a document says what its parts are read as (`Shape`); each transported type has one. A shape tells which
rewrites leave the meaning of a document as it is (`Rewrite`): they are single steps that apply at any depth, and two
documents have one meaning if any number of such steps, forth or back, leads from one to the other (`SameMeaning`).

Moving the events of an update around is no such step. It is kept apart (`Reorders`), and a chain of rewrites and of
moves is indexed by its moves (`Rearranged`).

Of the documents of one meaning, one is written (`Canonical`).
-/

namespace LockReplica

open Codec

universe u

/-! ## Shapes -/

/-- What the parts of a document are read as. -/
inductive Shape where
  /-- A number or a text that means only itself. -/
  | atom
  | identifier
  | list (item : Shape)
  /-- Members in any order and with repetitions, written in the order of `before`. -/
  | set (before : Json → Json → Prop) (member : Shape)
  | record (fields : List (String × Shape))
  | variant (cases : List (String × Shape))

/-- A type whose values are transported in documents of a certain shape. -/
class Shaped (α : Type u) where
  shape : Shape

export Shaped (shape)

/-- Both documents are read, and the first one as less than the second. -/
def Codec.Before (α : Type u) [Ord α] [Codec α] (j k : Json) : Prop :=
  ∃ a b : α, ofJson? .free j = some a ∧ ofJson? .free k = some b ∧ compare a b = .lt

instance : Shaped UInt8 := ⟨.atom⟩

instance : Shaped UInt64 := ⟨.atom⟩

instance : Shaped String := ⟨.atom⟩

instance {α : Type u} [Shaped α] : Shaped (List α) := ⟨.list (shape α)⟩

instance {α : Type u} [Ord α] [Codec α] [Shaped α] : Shaped (SortedSet α) := ⟨.set (Before α) (shape α)⟩

instance : Shaped Uuid := ⟨.identifier⟩

instance : Shaped Epoch := ⟨shape Uuid⟩

instance : Shaped Token := ⟨shape Uuid⟩

instance : Shaped Descriptor := ⟨shape (List UInt8)⟩

instance : Shaped Reference where
  shape := .variant
    [("EntireTable", shape String),
      ("RowPrefix", .record [("table", shape String), ("prefix", shape (List UInt8))])]

instance : Shaped Event where
  shape := .variant
    [("Lock", .record
        [("sequence", shape Sequence), ("lock_descriptors", shape DescriptorSet), ("lock_token", shape Token)]),
      ("Unlock", .record [("sequence", shape Sequence), ("lock_descriptors", shape DescriptorSet)]),
      ("LockWatchCreated", .record
        [("sequence", shape Sequence), ("references", shape ReferenceSet), ("lock_descriptors", shape DescriptorSet)])]

instance : Shaped Update where
  shape := .variant
    [("Success", .record
        [("epoch", shape Epoch), ("last_known_sequence", shape Sequence), ("events", shape (List Event))]),
      ("Snapshot", .record
        [("epoch", shape Epoch), ("last_known_sequence", shape Sequence), ("locked", shape DescriptorSet),
          ("watched", shape ReferenceSet)]),
      ("Failed", .record [("epoch", shape Epoch)])]

/-! ## Rewrites -/

/-- A rewrite of a document that leaves its meaning as it is, for a document of the given shape. -/
inductive Rewrite : Shape → Json → Json → Prop
  /-- An identifier is written in another of its forms. -/
  | respell {u : Uuid} {s t : String} : u.Spells s → u.Spells t → Rewrite .identifier (.string s) (.string t)
  | item {s : Shape} {v v' : Json} (before after : List Json) :
      Rewrite s v v' → Rewrite (.list s) (.array (before ++ v :: after)) (.array (before ++ v' :: after))
  /-- The members of a set are put in another order, repeated, or repeated less. -/
  | relist {r : Json → Json → Prop} {s : Shape} {vs vs' : List Json} :
      (∀ v, v ∈ vs ↔ v ∈ vs') → Rewrite (.set r s) (.array vs) (.array vs')
  | member {r : Json → Json → Prop} {s : Shape} {v v' : Json} (before after : List Json) :
      Rewrite s v v' → Rewrite (.set r s) (.array (before ++ v :: after)) (.array (before ++ v' :: after))
  /-- The fields of a record are put in another order. -/
  | permute {fields : List (String × Shape)} {fs fs' : List (Option String × Json)} :
      fs.Perm fs' → Rewrite (.record fields) (.object fs) (.object fs')
  /-- A field is added that the record does not have. -/
  | extend {fields : List (String × Shape)} {fs : List (Option String × Json)} {name : String} (v : Json) :
      name ∉ fields.map Prod.fst → Rewrite (.record fields) (.object fs) (.object ((some name, v) :: fs))
  /-- A record is written as the array of its fields in their declared order. -/
  | unname {fields : List (String × Shape)} {vs : List Json} :
      vs.length = fields.length →
        Rewrite (.record fields) (.record ((fields.map Prod.fst).zip vs)) (.array vs)
  | field {fields : List (String × Shape)} {name : String} {s : Shape} {v v' : Json}
      (before after : List (Option String × Json)) :
      (name, s) ∈ fields → Rewrite s v v' →
        Rewrite (.record fields) (.object (before ++ (some name, v) :: after))
          (.object (before ++ (some name, v') :: after))
  | component {fields : List (String × Shape)} {name : String} {s : Shape} {v v' : Json} (before after : List Json) :
      fields[before.length]? = some (name, s) → Rewrite s v v' →
        Rewrite (.record fields) (.array (before ++ v :: after)) (.array (before ++ v' :: after))
  | content {cases : List (String × Shape)} {name : String} {s : Shape} {v v' : Json} :
      (name, s) ∈ cases → Rewrite s v v' → Rewrite (.variant cases) (.variant name v) (.variant name v')

/-- Rewrites, any number of them, forth or back, lead from one document to the other. -/
def SameMeaning (s : Shape) : Json → Json → Prop := Relation.EqvGen (Rewrite s)

/-! ## The order of events -/

/-- The members of a list in the order of the given indices. -/
def arrange {α : Type u} (order : List Nat) (xs : List α) : List α := order.filterMap (xs[·]?)

/-- The events of a success in the order of the given indices. -/
def Update.reorder (order : List Nat) : Update → Update
  | success e n events => success e n (arrange order events)
  | snapshot e n locked watched => snapshot e n locked watched
  | failed e => failed e

/-- The events of a success in one order after the other. -/
def Update.reorderAll (orders : List (List Nat)) (u : Update) : Update :=
  orders.foldl (fun u order => u.reorder order) u

/-- The second document is the first one with the events of a success in the order of the given indices, each of
them once. -/
inductive Reorders (order : List Nat) : Json → Json → Prop
  | named {vs : List Json} (before after : List (Option String × Json)) :
      order.Perm (List.range vs.length) →
        Reorders order (.variant "Success" (.object (before ++ (some "events", .array vs) :: after)))
          (.variant "Success" (.object (before ++ (some "events", .array (arrange order vs)) :: after)))
  | unnamed {vs : List Json} (e n : Json) :
      order.Perm (List.range vs.length) →
        Reorders order (.variant "Success" (.array [e, n, .array vs]))
          (.variant "Success" (.array [e, n, .array (arrange order vs)]))

/-- Rewrites of an update, between which its events are put in the given orders, one after the other. -/
inductive Rearranged (j : Json) : List (List Nat) → Json → Prop
  | refl : Rearranged j [] j
  | rewrite {orders : List (List Nat)} {k k' : Json} :
      Rearranged j orders k → SameMeaning (shape Update) k k' → Rearranged j orders k'
  | reorder {orders : List (List Nat)} {order : List Nat} {k k' : Json} :
      Rearranged j orders k → Reorders order k k' → Rearranged j (orders ++ [order]) k'

/-! ## Canonical documents -/

/-- The document is as it is written: identifiers hyphenated and in lower case, sets in order and without repetitions,
records as objects of their fields, in their declared order and without others. -/
inductive Canonical : Shape → Json → Prop
  | atom (j : Json) : Canonical .atom j
  | identifier {ds : List Char} :
      ds.length = 32 → (∀ c ∈ ds, c ∈ "0123456789abcdef".toList) →
        Canonical .identifier (.string (String.ofList (Uuid.hyphenate Uuid.groups ds)))
  | list {s : Shape} {vs : List Json} : (∀ v ∈ vs, Canonical s v) → Canonical (.list s) (.array vs)
  | set {r : Json → Json → Prop} {s : Shape} {vs : List Json} :
      (∀ v ∈ vs, Canonical s v) → vs.Pairwise r → Canonical (.set r s) (.array vs)
  | record {fields : List (String × Shape)} {vs : List Json} :
      vs.length = fields.length → (∀ f ∈ fields.zip vs, Canonical f.1.2 f.2) →
        Canonical (.record fields) (.record ((fields.map Prod.fst).zip vs))
  | variant {cases : List (String × Shape)} {name : String} {s : Shape} {v : Json} :
      (name, s) ∈ cases → Canonical s v → Canonical (.variant cases) (.variant name v)

/-- The text of the value that a text transports. -/
def Codec.recode? (α : Type u) [Codec α] (s : String) : Option String := (decode? s : Option α).map encode

end LockReplica
