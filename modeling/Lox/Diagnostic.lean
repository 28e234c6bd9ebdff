/-!
# Diagnostics

Everything that can go wrong, by cause, and the one wording of each cause.
-/
namespace Lox

inductive LexicalError where
  | unexpectedCharacter (c : Char)
  | unterminatedString
  | unterminatedEscape
  | octalOutOfBounds
  | numberOutOfRange
  deriving DecidableEq, Repr

def LexicalError.message : LexicalError → String
  | unexpectedCharacter c => "Unexpected character: " ++ c.toString
  | unterminatedString => "Unterminated string."
  | unterminatedEscape => "Unterminated escape sequence."
  | octalOutOfBounds => "Octal escape sequence out of bounds."
  | numberOutOfRange => "Number literal out of range."

/-- What a function declaration is called when it is malformed. -/
inductive FunctionSort where
  | function | method
  deriving DecidableEq, Repr

def FunctionSort.noun : FunctionSort → String
  | function => "function"
  | method => "method"

inductive SyntaxError where
  | className | superclassName | classBodyOpen | classBodyClose
  | functionName (sort : FunctionSort)
  | parametersOpen (sort : FunctionSort)
  | parameterName | parametersClose | tooManyParameters
  | functionBody (sort : FunctionSort)
  | variableName | variableEnd | printEnd | expressionEnd | returnEnd | blockClose
  | forOpen | forConditionEnd | forClose | ifOpen | ifClose | whileOpen | whileClose
  | assignmentTarget
  | propertyName | argumentsClose | tooManyArguments
  | superDot | superMethodName | groupingClose
  | expression | endOfExpression
  deriving DecidableEq, Repr

def SyntaxError.message : SyntaxError → String
  | className => "Expected class name."
  | superclassName => "Expected superclass name."
  | classBodyOpen => "Expected '\x7b' before class body."
  | classBodyClose => "Expected '\x7d' after class body."
  | functionName sort => "Expected " ++ sort.noun ++ " name."
  | parametersOpen sort => "Expected '(' after " ++ sort.noun ++ " name."
  | parameterName => "Expected parameter name."
  | parametersClose => "Expected ')' after parameters."
  | tooManyParameters => "Can't have more than 255 parameters."
  | functionBody sort => "Expected '\x7b' before " ++ sort.noun ++ " body."
  | variableName => "Expected variable name."
  | variableEnd => "Expected ';' after variable declaration."
  | printEnd => "Expected ';' after value."
  | expressionEnd => "Expected ';' after expression."
  | returnEnd => "Expected ';' after return value."
  | blockClose => "Expected '\x7d' after block."
  | forOpen => "Expected '(' after 'for'."
  | forConditionEnd => "Expected ';' after loop condition."
  | forClose => "Expected ')' after for clauses."
  | ifOpen => "Expected '(' after 'if'."
  | ifClose => "Expected ')' after if condition."
  | whileOpen => "Expected '(' after 'while'."
  | whileClose => "Expected ')' after condition."
  | assignmentTarget => "Invalid assignment target."
  | propertyName => "Expected property name after '.'."
  | argumentsClose => "Expected ')' after arguments."
  | tooManyArguments => "Can't have more than 255 arguments."
  | superDot => "Expected '.' after 'super'."
  | superMethodName => "Expected superclass method name."
  | groupingClose => "Expected ')' after expression."
  | expression => "Expected expression."
  | endOfExpression => "Expected end of expression."

inductive ResolutionError where
  | redeclared
  | ownInitializer
  | topLevelReturn
  | initializerValue
  | selfInheritance
  | thisOutsideClass
  | superOutsideClass
  | noSuperclass
  deriving DecidableEq, Repr

def ResolutionError.message : ResolutionError → String
  | redeclared => "Already a variable with this name in this scope."
  | ownInitializer => "Can't read local variable in its own initializer."
  | topLevelReturn => "Can't return from top-level code."
  | initializerValue => "Can't return a value from an initializer."
  | selfInheritance => "A class can't inherit from itself."
  | thisOutsideClass => "Can't use 'this' outside of a class."
  | superOutsideClass => "Can't use 'super' outside of a class."
  | noSuperclass => "Can't use 'super' in a class with no superclass."

/-- How writing the output can fail. -/
inductive OutputError where
  | full | flush
  deriving DecidableEq, Repr

def OutputError.message : OutputError → String
  | full => "sink full"
  | flush => "flush failed"

inductive RuntimeError where
  | operandNotNumber
  | operandsNotNumbers (operator : String)
  | operandsNotAddable
  | divisionByZero
  | moduloByZero
  | undefinedVariable (name : String)
  | undefinedProperty (name : String)
  | notCallable
  | argumentCount (expected got : Nat)
  | outlivedScope (name : String)
  | superclassNotClass
  | superOutsideClass
  | superOutsideMethod
  | noProperties
  | noFields
  | arrayField
  | sleepArgument
  | clearFailed (cause : OutputError)
  | arraySizeNotWhole
  | arrayTooLarge (limit : Nat)
  deriving DecidableEq, Repr

def RuntimeError.message : RuntimeError → String
  | operandNotNumber => "Operand of '-' must be a number."
  | operandsNotNumbers operator => "Operands of '" ++ operator ++ "' must be numbers."
  | operandsNotAddable =>
    "Operands of '+' must be two numbers, two strings, or a string and a number."
  | divisionByZero => "Can't divide by zero."
  | moduloByZero => "Can't take modulo by zero."
  | undefinedVariable name => "Undefined variable '" ++ name ++ "'."
  | undefinedProperty name => "Undefined property '" ++ name ++ "'."
  | notCallable => "Can only call functions and classes."
  | argumentCount expected got =>
    "Expected " ++ expected.repr ++ " arguments but got " ++ got.repr ++ "."
  | outlivedScope name => "Function '" ++ name ++ "' outlived its scope."
  | superclassNotClass => "Superclass must be a class."
  | superOutsideClass => "Can't use 'super' outside of a class."
  | superOutsideMethod => "Can't use 'super' outside of a method."
  | noProperties => "Only instances have properties."
  | noFields => "Only instances have fields."
  | arrayField => "Can't add properties to arrays."
  | sleepArgument => "sleep() expects a non-negative number of milliseconds."
  | clearFailed cause => "clear() failed: " ++ cause.message
  | arraySizeNotWhole => "Array size must be a non-negative whole number."
  | arrayTooLarge limit => "Array size must not exceed " ++ limit.repr ++ "."

/-- The place of a static error within its line. -/
inductive Location where
  | atEnd
  | at (lexeme : String)
  deriving DecidableEq, Repr

def Location.text : Location → String
  | atEnd => " at end"
  | .at lexeme => " at '" ++ lexeme ++ "'"

inductive Diagnostic where
  | lexical (line : Nat) (cause : LexicalError)
  | grammar (line : Nat) (location : Location) (cause : SyntaxError)
  | resolution (line : Nat) (location : Location) (cause : ResolutionError)
  | runtime (line : Nat) (cause : RuntimeError)
  | output (cause : OutputError)
  deriving DecidableEq, Repr

namespace Diagnostic

def message : Diagnostic → String
  | lexical _ cause => cause.message
  | grammar _ _ cause => cause.message
  | resolution _ _ cause => cause.message
  | runtime _ cause => cause.message
  | output cause => cause.message

def line? : Diagnostic → Option Nat
  | lexical line _ | grammar line _ _ | resolution line _ _ | runtime line _ => some line
  | output _ => none

def location? : Diagnostic → Option Location
  | grammar _ location _ | resolution _ location _ => some location
  | _ => none

/-- The line that is shown to the user. -/
def text : Diagnostic → String
  | lexical line cause => "[line " ++ line.repr ++ "] Error: " ++ cause.message
  | grammar line location cause =>
    "[line " ++ line.repr ++ "] Error" ++ location.text ++ ": " ++ cause.message
  | resolution line location cause =>
    "[line " ++ line.repr ++ "] Error" ++ location.text ++ ": " ++ cause.message
  | runtime line cause => "[line " ++ line.repr ++ "] Runtime error: " ++ cause.message
  | output cause => cause.message

end Diagnostic
end Lox
