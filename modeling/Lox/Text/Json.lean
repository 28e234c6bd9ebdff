import Lox.Text.Quoted

/-!
# JSON documents

A value, and its text with one item on each line and two spaces for each level.
-/
namespace Lox

inductive Json where
  | null
  | number (text : String)
  | string (value : String)
  | array (items : List Json)
  | object (fields : List (String × Json))

namespace Json

def newline (level : Nat) : String := "\n" ++ String.ofList (List.replicate (2 * level) ' ')

mutual

def pretty (level : Nat) : Json → String
  | null => "null"
  | number text => text
  | string value => Quoted.json value
  | array [] => "[]"
  | array (first :: rest) =>
    "[" ++ newline (level + 1) ++ first.pretty (level + 1) ++ prettyItems (level + 1) rest
      ++ newline level ++ "]"
  | object [] => "\x7b\x7d"
  | object ((name, value) :: rest) =>
    "\x7b" ++ newline (level + 1) ++ Quoted.json name ++ ": " ++ value.pretty (level + 1)
      ++ prettyFields (level + 1) rest ++ newline level ++ "\x7d"

/-- The items after the first. -/
def prettyItems (level : Nat) : List Json → String
  | [] => ""
  | item :: rest => "," ++ newline level ++ item.pretty level ++ prettyItems level rest

def prettyFields (level : Nat) : List (String × Json) → String
  | [] => ""
  | (name, value) :: rest =>
    "," ++ newline level ++ Quoted.json name ++ ": " ++ value.pretty level
      ++ prettyFields level rest

end

end Json
end Lox
