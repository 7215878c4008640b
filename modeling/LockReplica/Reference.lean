import LockReplica.Order
import LockReplica.Utf8

/-!
# Watch references

A reference names what a client watches: a table as a whole, or the rows of a table whose keys share
a beginning. References on whole tables come before all others; within a kind the name of the table
decides by its bytes, and then the shared beginning.
-/

namespace LockReplica

open Std

/-- What a watch covers. -/
inductive Reference where
  /-- All rows of a table. -/
  | entireTable (table : String)
  /-- The rows of a table whose key begins with the given bytes. -/
  | rowPrefix (table : String) (start : List UInt8)
deriving DecidableEq

namespace Reference

/-- The kind, the name of the table and the shared beginning, to be compared in this order. -/
def orderKey : Reference → List (List UInt8)
  | entireTable table => [[0], utf8 table]
  | rowPrefix table start => [[1], utf8 table, start]

theorem orderKey_inj : ∀ a b : Reference, orderKey a = orderKey b → a = b
  | entireTable _, entireTable _, h => by simpa [orderKey, utf8_inj] using h
  | rowPrefix .., rowPrefix .., h => by simpa [orderKey, utf8_inj] using h
  | entireTable _, rowPrefix .., h => by simp [orderKey] at h
  | rowPrefix .., entireTable _, h => by simp [orderKey] at h

instance : Ord Reference := ⟨compareOn orderKey⟩

instance : TransOrd Reference := transCmp_compareOn orderKey

instance : LawfulEqOrd Reference := lawfulEqCmp_compareOn orderKey orderKey_inj

/-- A reference comes before another one: first whole tables, then by the name of the table, then by the beginning. -/
def Before : Reference → Reference → Prop
  | entireTable table, entireTable table' => utf8 table < utf8 table'
  | entireTable _, rowPrefix .. => True
  | rowPrefix .., entireTable _ => False
  | rowPrefix table start, rowPrefix table' start' => utf8 table < utf8 table' ∨ table = table' ∧ start < start'

theorem compare_eq_lt_iff : ∀ {a b : Reference}, compare a b = .lt ↔ a.Before b
  | entireTable table, entireTable table' => by
    show compare [[0], utf8 table] [[0], utf8 table'] = .lt ↔ utf8 table < utf8 table'
    simp [List.compare_cons_cons, compare_list_eq_lt_iff]
  | entireTable _, rowPrefix .. => iff_of_true rfl trivial
  | rowPrefix .., entireTable _ => iff_of_false nofun id
  | rowPrefix table start, rowPrefix table' start' => by
    show compare [[1], utf8 table, start] [[1], utf8 table', start'] = .lt ↔ _
    simp [Before, List.compare_cons_cons, Ordering.then_eq_lt, compare_list_eq_lt_iff, utf8_inj]

end Reference

end LockReplica
