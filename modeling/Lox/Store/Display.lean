import Lox.Number.Text
import Lox.Store

/-!
# The text of values

Arrays show their elements. An array that is met again inside itself is abbreviated.
-/
namespace Lox.Store

def className (s : Store) (id : ObjectId) : String :=
  match s.parent? id with
  | some parent => parent.name
  | none => ""

/-- The text of a value inside the arrays on `path`. The path never holds an array twice, so
the number of objects bounds its length. -/
def displayInside (s : Store) (depth : Nat) (path : List ObjectId) : Value → String
  | .nil => "nil"
  | .boolean b => if b then "true" else "false"
  | .number x => NumberFormat.display.write x
  | .string text => text
  | .native n => "<native fn " ++ n.name ++ ">"
  | .function f => "<fn " ++ f.name ++ ">"
  | .classObject c => c.name
  | .instance id => s.className id ++ " instance"
  | .arrayMethod _ method => "<native fn " ++ method.name ++ ">"
  | .array id =>
    match depth with
    | 0 => "[...]"
    | depth + 1 =>
      if path.contains id then "[...]"
      else
        let elements := ((s.elements? id).getD #[]).toList
        "[" ++ ", ".intercalate (elements.map (s.displayInside depth (id :: path))) ++ "]"

def display (s : Store) (v : Value) : String := s.displayInside (s.heap.objects.size + 1) [] v

end Lox.Store
