import TypedTree.Text.Visibility

/-!
Quoted text for readers: the text between double quotes, on one line, with every character that would not be
visible replaced by an escape.
-/

namespace TypedTree.Quoted

/-- One character inside the quotes. An escape by number has as few lower-case hexadecimal digits as it needs. -/
def escape (c : Char) : List Char :=
  match c with
  | '\x00' => ['\\', '0']
  | '\t' => ['\\', 't']
  | '\n' => ['\\', 'n']
  | '\r' => ['\\', 'r']
  | '"' => ['\\', '"']
  | '\\' => ['\\', '\\']
  | c => if isVisible c then [c] else ['\\', 'u', '\x7b'] ++ Nat.toDigits 16 c.toNat ++ ['\x7d']

def encode (cs : List Char) : List Char := '"' :: (cs.flatMap escape ++ ['"'])

end TypedTree.Quoted

namespace TypedTree

/-- `s` in double quotes, as it is shown to readers. -/
def quoted (s : String) : String := String.ofList (Quoted.encode s.toList)

end TypedTree
