import LockReplica.Order

/-!
# Universally unique identifiers

An identifier is its sixteen bytes: equality and order are those of the bytes. New identifiers are
drawn from a random generator and carry the marks of version 4.
-/

namespace LockReplica

open Std

/-- Sixteen bytes. -/
structure Uuid where
  bytes : List UInt8
  length_bytes : bytes.length = 16
deriving DecidableEq

namespace Uuid

theorem bytes_inj {a b : Uuid} : a.bytes = b.bytes ↔ a = b := by
  cases a; cases b; simp

/-- The identifier made of the given bytes, which must be sixteen. -/
def ofBytes? (bytes : List UInt8) : Option Uuid :=
  if h : bytes.length = 16 then some ⟨bytes, h⟩ else none

@[simp] theorem ofBytes?_bytes (u : Uuid) : ofBytes? u.bytes = some u := by
  simp [ofBytes?, u.length_bytes]

/-! ## Order -/

/-- Identifiers are ordered by their bytes, the first one first. -/
instance : Ord Uuid := ⟨compareOn bytes⟩

instance : TransOrd Uuid := transCmp_compareOn bytes

instance : LawfulEqOrd Uuid := lawfulEqCmp_compareOn bytes fun _ _ => bytes_inj.1

/-! ## Random identifiers -/

/-- Draws `n` bytes. -/
def drawBytes {γ : Type} [RandomGen γ] : Nat → γ → List UInt8 × γ
  | 0, g => ([], g)
  | n + 1, g =>
    let (b, g) := randNat g 0 255
    let (bs, g) := drawBytes n g
    (UInt8.ofNat b :: bs, g)

theorem length_drawBytes {γ : Type} [RandomGen γ] (n : Nat) (g : γ) : (drawBytes n g).1.length = n := by
  induction n generalizing g with
  | zero => rfl
  | succ n ih => simp [drawBytes, ih]

/-- Marks bytes as a random identifier: version 4 in byte 6, the variant in byte 8. -/
def markRandom (bytes : List UInt8) : List UInt8 :=
  (bytes.modify 6 fun b => b &&& 0x0f ||| 0x40).modify 8 fun b => b &&& 0x3f ||| 0x80

/-- Draws a random identifier. -/
def draw {γ : Type} [RandomGen γ] (g : γ) : Uuid × γ :=
  let drawn := drawBytes 16 g
  (⟨markRandom drawn.1, by simp [markRandom, drawn, length_drawBytes]⟩, drawn.2)

end Uuid

end LockReplica
