import LockReplica.Json.Basic
import LockReplica.Json.Text

/-!
# The text of a document

Documents are written without blanks.
-/

namespace LockReplica.Json

mutual

/-- The characters of a document. -/
def chars : Json → List Char
  | null => ['n', 'u', 'l', 'l']
  | bool true => ['t', 'r', 'u', 'e']
  | bool false => ['f', 'a', 'l', 's', 'e']
  | number n => n.chars
  | string s => Text.quote s
  | array [] => ['[', ']']
  | array (v :: vs) => '[' :: (chars v ++ itemsChars vs)
  | object [] => ['\x7b', '\x7d']
  | object ((k, v) :: fs) => '\x7b' :: (Text.quote k ++ ':' :: (chars v ++ fieldsChars fs))

/-- Further items of an array, and its end. -/
def itemsChars : List Json → List Char
  | [] => [']']
  | v :: vs => ',' :: (chars v ++ itemsChars vs)

/-- Further fields of an object, and its end. -/
def fieldsChars : List (Option String × Json) → List Char
  | [] => ['\x7d']
  | (k, v) :: fs => ',' :: (Text.quote k ++ ':' :: (chars v ++ fieldsChars fs))

end

/-- The text of a document. -/
def text (j : Json) : String := String.ofList j.chars

end LockReplica.Json
