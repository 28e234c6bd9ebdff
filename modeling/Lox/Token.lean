import Lox.Number.Text

/-!
# Tokens

A token is a kind, the characters it was cut from and the line on which it ends. Literals carry
their value: numbers as written, exactly, and strings with their escapes decoded.
-/
namespace Lox

/-- A number as it is spelled. -/
inductive Numeral where
  | integer (value : Nat)
  /-- The digits on both sides of the point as one number, and how many follow the point. -/
  | fraction (digits places : Nat)
  deriving DecidableEq, Repr

namespace Numeral

/-- The largest number that may be written without a point. -/
def greatest : Nat := Nat.pow 2 63 - 1

/-- The double nearest to the number as written. -/
def value : Numeral → Float
  | integer n => Float.ofNat n
  | fraction digits places => Float.ofScientific digits true places

def text : Numeral → String
  | integer n => n.repr ++ ".0"
  | fraction digits places => NumberFormat.literal.write (fraction digits places).value

end Numeral

inductive Kind where
  | leftParen | rightParen | leftBrace | rightBrace
  | comma | dot | minus | plus | semicolon | slash | star | percent
  | bang | bangEqual | equal | equalEqual | greater | greaterEqual | less | lessEqual
  | identifier
  | string (value : String)
  | number (value : Numeral)
  | kwAnd | kwClass | kwElse | kwFalse | kwFun | kwFor | kwIf | kwNil | kwOr
  | kwPrint | kwReturn | kwSuper | kwThis | kwTrue | kwVar | kwWhile
  | eof
  deriving DecidableEq, Repr

namespace Kind

def name : Kind → String
  | leftParen => "LEFT_PAREN"
  | rightParen => "RIGHT_PAREN"
  | leftBrace => "LEFT_BRACE"
  | rightBrace => "RIGHT_BRACE"
  | comma => "COMMA"
  | dot => "DOT"
  | minus => "MINUS"
  | plus => "PLUS"
  | semicolon => "SEMICOLON"
  | slash => "SLASH"
  | star => "STAR"
  | percent => "PERCENT"
  | bang => "BANG"
  | bangEqual => "BANG_EQUAL"
  | equal => "EQUAL"
  | equalEqual => "EQUAL_EQUAL"
  | greater => "GREATER"
  | greaterEqual => "GREATER_EQUAL"
  | less => "LESS"
  | lessEqual => "LESS_EQUAL"
  | identifier => "IDENTIFIER"
  | string _ => "STRING"
  | number _ => "NUMBER"
  | kwAnd => "AND"
  | kwClass => "CLASS"
  | kwElse => "ELSE"
  | kwFalse => "FALSE"
  | kwFun => "FUN"
  | kwFor => "FOR"
  | kwIf => "IF"
  | kwNil => "NIL"
  | kwOr => "OR"
  | kwPrint => "PRINT"
  | kwReturn => "RETURN"
  | kwSuper => "SUPER"
  | kwThis => "THIS"
  | kwTrue => "TRUE"
  | kwVar => "VAR"
  | kwWhile => "WHILE"
  | eof => "EOF"

/-- The words that are not identifiers. -/
def reserved : List (String × Kind) := [
  ("and", kwAnd), ("class", kwClass), ("else", kwElse), ("false", kwFalse), ("fun", kwFun),
  ("for", kwFor), ("if", kwIf), ("nil", kwNil), ("or", kwOr), ("print", kwPrint),
  ("return", kwReturn), ("super", kwSuper), ("this", kwThis), ("true", kwTrue),
  ("var", kwVar), ("while", kwWhile)]

def ofWord (word : String) : Kind := (reserved.lookup word).getD identifier

/-- Does a declaration or statement begin with this word? -/
def startsDeclaration : Kind → Bool
  | kwClass | kwFun | kwVar | kwFor | kwIf | kwWhile | kwPrint | kwReturn => true
  | _ => false

end Kind

structure Token where
  kind : Kind
  lexeme : String
  line : Nat
  deriving DecidableEq, Repr

/-- Kind, lexeme and literal value in one line. -/
def Token.text (t : Token) : String :=
  let value := match t.kind with
    | .string value => value
    | .number value => value.text
    | _ => "null"
  t.kind.name ++ " " ++ t.lexeme ++ " " ++ value

end Lox
