import LockReplica.Uuid.Text

/-!
# Lock tokens

A token identifies one granted lock request. Tokens are ordered by their bytes.
-/

namespace LockReplica

open Std

/-- The identity of a granted lock request. -/
structure Token where
  id : Uuid
deriving DecidableEq

namespace Token

theorem id_inj {a b : Token} : a.id = b.id ↔ a = b := by
  cases a; cases b; simp

instance : Ord Token := ⟨compareOn id⟩

instance : TransOrd Token := transCmp_compareOn id

instance : LawfulEqOrd Token := lawfulEqCmp_compareOn id fun _ _ => id_inj.1

theorem compare_eq_lt_iff {a b : Token} : compare a b = .lt ↔ a.id.bytes < b.id.bytes := compare_list_eq_lt_iff

/-- The token made of the given bytes, which must be sixteen. -/
def ofBytes? (bytes : List UInt8) : Option Token := (Uuid.ofBytes? bytes).map .mk

/-- The written form of a token. -/
def text (t : Token) : String := t.id.text

/-- Draws a new token. -/
def draw {γ : Type} [RandomGen γ] (g : γ) : Token × γ :=
  let (id, g) := Uuid.draw g
  (⟨id⟩, g)

end Token

end LockReplica
