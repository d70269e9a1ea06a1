import TypedTree.Json.Basic
import TypedTree.Number.Layout

/-!
The two printed forms of a JSON document: compact, without any blank, and indented by two blanks a level. Both
are defined over lists of characters, on the structure of the document.
-/

namespace TypedTree.Json

/-- Numbers have an exponent below `1e-5` and from `1e+16` on, a half goes to the even digit, and numbers that
    are not finite have no form of their own. -/
def numbers : Layout where
  tie := .even
  leastPositional := -5
  firstScientific := 16
  plus := ['+']
  nan := ['n', 'u', 'l', 'l']
  infinity := ['n', 'u', 'l', 'l']
  negativeInfinity := ['n', 'u', 'l', 'l']

/-- One character of a string: quote, backslash and control characters are escaped, all else stands as it is. -/
def escape (c : Char) : List Char :=
  match c with
  | '"' => ['\\', '"']
  | '\\' => ['\\', '\\']
  | '\x08' => ['\\', 'b']
  | '\x0c' => ['\\', 'f']
  | '\n' => ['\\', 'n']
  | '\r' => ['\\', 'r']
  | '\t' => ['\\', 't']
  | c =>
    if c.toNat < 0x20 then
      ['\\', 'u', '0', '0', Nat.digitChar (c.toNat / 16), Nat.digitChar (c.toNat % 16)]
    else [c]

def literal (s : String) : List Char := '"' :: (s.toList.flatMap escape ++ ['"'])

def whole (i : Int) : List Char :=
  if i < 0 then '-' :: Nat.toDigits 10 i.natAbs else Nat.toDigits 10 i.natAbs

/-- Texts with a comma between neighbours. -/
def separated : List (List Char) → List Char
  | [] => []
  | [t] => t
  | t :: u :: rest => t ++ ',' :: separated (u :: rest)

/-! ### Without blanks -/

mutual

/-- The document in one line without blanks. -/
def compact : Json → List Char
  | .null => ['n', 'u', 'l', 'l']
  | .bool true => ['t', 'r', 'u', 'e']
  | .bool false => ['f', 'a', 'l', 's', 'e']
  | .int i => whole i
  | .float x => numbers.write x
  | .str s => literal s
  | .arr items => '[' :: (separated (compactItems items) ++ [']'])
  | .obj members => '\x7b' :: (separated (compactMembers members) ++ ['\x7d'])

def compactItems : List Json → List (List Char)
  | [] => []
  | j :: rest => j.compact :: compactItems rest

def compactMembers : List (String × Json) → List (List Char)
  | [] => []
  | (key, j) :: rest => (literal key ++ ':' :: j.compact) :: compactMembers rest

end

/-! ### Indented -/

/-- A new line at nesting depth `depth`. -/
def newline (depth : Nat) : List Char := '\n' :: List.replicate (2 * depth) ' '

mutual

/-- The document with one item or member a line; an empty array or object stays closed. -/
def indented (depth : Nat) : Json → List Char
  | .null => ['n', 'u', 'l', 'l']
  | .bool true => ['t', 'r', 'u', 'e']
  | .bool false => ['f', 'a', 'l', 's', 'e']
  | .int i => whole i
  | .float x => numbers.write x
  | .str s => literal s
  | .arr [] => ['[', ']']
  | .arr (j :: rest) => '[' :: (separated (indentedItems (depth + 1) (j :: rest)) ++ (newline depth ++ [']']))
  | .obj [] => ['\x7b', '\x7d']
  | .obj (m :: rest) =>
    '\x7b' :: (separated (indentedMembers (depth + 1) (m :: rest)) ++ (newline depth ++ ['\x7d']))

def indentedItems (depth : Nat) : List Json → List (List Char)
  | [] => []
  | j :: rest => (newline depth ++ j.indented depth) :: indentedItems depth rest

def indentedMembers (depth : Nat) : List (String × Json) → List (List Char)
  | [] => []
  | (key, j) :: rest =>
    (newline depth ++ literal key ++ ':' :: ' ' :: j.indented depth) :: indentedMembers depth rest

end

def toText (j : Json) : String := String.ofList j.compact

def toIndentedText (j : Json) : String := String.ofList (j.indented 0)

end TypedTree.Json
