import LockReplica.Json.Basic
import LockReplica.Json.Text

/-!
# Reading documents

A reader takes a value off the front of a list of characters and leaves the rest. Blanks may stand
around every token.
-/

namespace LockReplica.Json

/-- Whether a character may stand between tokens. -/
def isBlank (c : Char) : Bool := c = ' ' || c = '\n' || c = '\r' || c = '\t'

/-- Leaves out the blanks in front. -/
def skipBlanks (cs : List Char) : List Char := cs.dropWhile isBlank

mutual

/-- Takes a value off the front. -/
def value? : Nat → List Char → Option (Json × List Char)
  | 0, _ => none
  | fuel + 1, cs =>
    match skipBlanks cs with
    | 'n' :: 'u' :: 'l' :: 'l' :: cs => some (null, cs)
    | 't' :: 'r' :: 'u' :: 'e' :: cs => some (bool true, cs)
    | 'f' :: 'a' :: 'l' :: 's' :: 'e' :: cs => some (bool false, cs)
    | '"' :: cs => (Text.string? cs).map fun (s, cs) => (string s, cs)
    | '[' :: cs =>
      match skipBlanks cs with
      | ']' :: cs => some (array [], cs)
      | cs => do
        let (v, cs) ← value? fuel cs
        let (vs, cs) ← itemsTail? fuel cs
        return (array (v :: vs), cs)
    | '\x7b' :: cs =>
      match skipBlanks cs with
      | '\x7d' :: cs => some (object [], cs)
      | cs => do
        let (f, cs) ← field? fuel cs
        let (fs, cs) ← fieldsTail? fuel cs
        return (object (f :: fs), cs)
    | cs => (Numeral.read? cs).map fun (n, cs) => (number n, cs)

/-- Takes off further items of an array, and its end. -/
def itemsTail? : Nat → List Char → Option (List Json × List Char)
  | 0, _ => none
  | fuel + 1, cs =>
    match skipBlanks cs with
    | ']' :: cs => some ([], cs)
    | ',' :: cs => do
      let (v, cs) ← value? fuel cs
      let (vs, cs) ← itemsTail? fuel cs
      return (v :: vs, cs)
    | _ => none

/-- Takes off a field of an object: a string, a colon and a value. -/
def field? : Nat → List Char → Option ((Option String × Json) × List Char)
  | 0, _ => none
  | fuel + 1, cs =>
    match skipBlanks cs with
    | '"' :: cs => do
      let (k, cs) ← Text.string? cs
      match skipBlanks cs with
      | ':' :: cs =>
        let (v, cs) ← value? fuel cs
        return ((k, v), cs)
      | _ => none
    | _ => none

/-- Takes off further fields of an object, and its end. -/
def fieldsTail? : Nat → List Char → Option (List (Option String × Json) × List Char)
  | 0, _ => none
  | fuel + 1, cs =>
    match skipBlanks cs with
    | '\x7d' :: cs => some ([], cs)
    | ',' :: cs => do
      let (f, cs) ← field? fuel cs
      let (fs, cs) ← fieldsTail? fuel cs
      return (f :: fs, cs)
    | _ => none

end

/-- Reads a document that fills the whole list. Every step takes off a character, so that the length
bounds the depth. -/
def ofChars? (cs : List Char) : Option Json := do
  let (v, rest) ← value? (cs.length + 1) cs
  if skipBlanks rest = [] then some v else none

/-- Reads a document. -/
def ofText? (s : String) : Option Json := ofChars? s.toList

end LockReplica.Json
