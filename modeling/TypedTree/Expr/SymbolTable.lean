import TypedTree.Data.OrderedMap
import TypedTree.Error
import TypedTree.Json.Basic

/-!
Symbol tables: the types of the names of a program. There is one scope, and the first declaration of a name fixes
its type for the whole program.
-/

namespace TypedTree.Expr

/-- The declared names with their types, in order of declaration. -/
structure SymbolTable where
  names : OrderedMap String Ty

namespace SymbolTable

def empty : SymbolTable := ⟨.empty⟩

instance : Inhabited SymbolTable := ⟨empty⟩

def get? (t : SymbolTable) (name : String) : Option Ty := t.names.get? name

def size (t : SymbolTable) : Nat := t.names.size

def isEmpty (t : SymbolTable) : Bool := t.names.isEmpty

def toList (t : SymbolTable) : List (String × Ty) := t.names.entries

/-- Declares a name. Declaring it again with the same type changes nothing. -/
def declare (t : SymbolTable) (name : String) (ty : Ty) : Except Error SymbolTable :=
  match t.get? name with
  | some declared => if declared = ty then pure t else throw (.typing (.redeclared name declared ty))
  | none => pure ⟨t.names.insertNew name ty⟩

def toJson (t : SymbolTable) : Json := .obj (t.toList.map fun e => (e.1, .str (toString e.2)))

end SymbolTable

end TypedTree.Expr
