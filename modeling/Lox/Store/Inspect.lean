import Lox.Store.Display
import Lox.Text.Quoted

/-!
# Values under inspection

A text that tells values of different types apart. It is no longer for deep or cyclic objects.
-/
namespace Lox.Store

def inspect (s : Store) (v : Value) : String :=
  match v with
  | .string text => "String(" ++ Quoted.inspected text ++ ")"
  | .array id => "Array(len=" ++ (s.length id).repr ++ ")"
  | v => v.typeName ++ "(" ++ s.display v ++ ")"

end Lox.Store
