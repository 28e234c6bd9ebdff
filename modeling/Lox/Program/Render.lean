import Lox.Program

/-!
# Trees in parenthesized form

Operators come first, as in `(* (- 123.0) (group 45.67))`. Strings are written bare.
-/
namespace Lox

def Literal.render : Literal → String
  | number x => NumberFormat.tree.write x
  | string s => s
  | boolean b => if b then "true" else "false"
  | nil => "nil"

mutual

def Expr.render : Expr → String
  | .literal value => value.render
  | .unary op _ e => "(" ++ op.symbol ++ " " ++ e.render ++ ")"
  | .binary op _ l r => "(" ++ op.symbol ++ " " ++ l.render ++ " " ++ r.render ++ ")"
  | .logical op _ l r => "(" ++ op.symbol ++ " " ++ l.render ++ " " ++ r.render ++ ")"
  | .grouping e => "(group " ++ e.render ++ ")"
  | .variable ref => ref.name.text
  | .assign ref value => "(= " ++ ref.name.text ++ " " ++ value.render ++ ")"
  | .call callee _ arguments => "(call " ++ callee.render ++ Expr.renderArguments arguments ++ ")"
  | .get object name => "(. " ++ object.render ++ " " ++ name.text ++ ")"
  | .set object name value =>
    "(= (. " ++ object.render ++ " " ++ name.text ++ ") " ++ value.render ++ ")"
  | .this _ => "this"
  | .super _ method => "(super " ++ method.text ++ ")"

def Expr.renderArguments : List Expr → String
  | [] => ""
  | e :: rest => " " ++ e.render ++ Expr.renderArguments rest

end

end Lox
