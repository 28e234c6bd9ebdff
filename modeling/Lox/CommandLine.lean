import Lox.Arguments
import Lox.Program.Render
import Lox.Session
import Lox.Text.Json
import Lox.Text.Utf8

/-!
# The program as a command

What the commands print, given what their file or the standard input holds.
-/
namespace Lox

structure Response where
  code : Nat
  stdout : String
  stderr : String
  /-- How many microseconds the program waited. -/
  waited : Nat := 0
  deriving DecidableEq, Repr

/-- Why a file could not be read: what was tried, and the reason that the system gives. -/
structure ReadError where
  attempt : String
  reason : String
  deriving DecidableEq, Repr

namespace Response

/-- A failure outside of the language, with its cause. -/
def failure (headline cause : String) : Response where
  code := 1
  stdout := ""
  stderr := "Error: " ++ headline ++ "\n\nCaused by:\n    " ++ cause ++ "\n"

/-- The exit code of a program that was brought down. -/
def crashCode : Nat := 101

def crashText : String :=
  "cannot convert float seconds to Duration: value is either too big or NaN\n"

end Response

def Diagnostic.lines (diagnostics : List Diagnostic) : String :=
  String.join (diagnostics.map fun d => d.text ++ "\n")

/-- An infinite literal has no JSON form. -/
def Numeral.json : Numeral → Json
  | .integer n => .object [("Integer", .number n.repr)]
  | .fraction digits places =>
    let x := (Numeral.fraction digits places).value
    .object [("Fraction", if x.isFinite then .number (NumberFormat.json.write x) else .null)]

def Kind.json : Kind → Json
  | .string value => .object [("STRING", .string value)]
  | .number value => .object [("NUMBER", value.json)]
  | kind => .string kind.name

def Token.json (t : Token) : Json :=
  .object [("token_type", t.kind.json), ("lexeme", .string t.lexeme), ("line", .number t.line.repr)]

namespace CommandLine

def statusOf (diagnostics : List Diagnostic) : Status :=
  if diagnostics.isEmpty then .ok else .staticError

def tokens (json : Bool) (source : String) : Response :=
  let (tokens, errors) := tokenize source
  let text := if json then (Json.array (tokens.map Token.json)).pretty 0 ++ "\n"
    else String.join (tokens.map fun t => t.text ++ "\n")
  { code := (statusOf errors).exitCode, stdout := text, stderr := Diagnostic.lines errors }

def tree (source : String) : Response :=
  let (tokens, lexical) := tokenize source
  let parsed := parseExpression 0 tokens
  let errors := lexical ++ parsed.faults.map SyntaxFault.diagnostic
  match parsed.tree, errors with
  | some e, [] => { code := Status.ok.exitCode, stdout := e.render ++ "\n", stderr := "" }
  | _, _ =>
    { code := Status.staticError.exitCode, stdout := "", stderr := Diagnostic.lines errors }

/-- What a run on a session that has shown nothing yet lets the user see. -/
def seen (report : Report) (s : Session) : Response :=
  let (code, errors) := match report.outcome with
    | .status status => (status.exitCode, Diagnostic.lines report.diagnostics)
    | .crashed | .exhausted => (Response.crashCode, Response.crashText)
  { code := code
    stdout := Utf8.decodeLossy s.interpreter.sink.written
    stderr := errors
    waited := s.interpreter.clock.waited }

def runSource (fuel : Nat) (clock : Clock) (mode : Mode) (source : String) : Response :=
  let (report, s) := (Session.new {} clock).run fuel mode source
  seen report s

def prompt : String := "> "

/-- One round of the prompt at a time that `clock` shows. -/
def answerLine (fuel : Nat) (clock : Clock) (s : Session) (line : String) : Response × Session :=
  let fresh := { s.interpreter with sink := {}, clock := clock }
  let (report, s) := { s with interpreter := fresh }.run fuel .program line
  (seen report s, s)

/-- The lines of a text, each with the newline that ends it. -/
def inputLines : List Char → List (List Char)
  | [] => []
  | c :: rest =>
    if c = '\n' then [c] :: inputLines rest
    else match inputLines rest with
      | [] => [[c]]
      | line :: more => (c :: line) :: more

/-- A whole dialogue: a prompt for each line and one for the end of the input. -/
def dialogue (fuel : Nat) (s : Session) : List String → Response
  | [] => { code := 0, stdout := prompt ++ "\n", stderr := "" }
  | line :: rest =>
    let (answer, s) := answerLine fuel s.interpreter.clock s line
    if answer.code = Response.crashCode then { answer with stdout := prompt ++ answer.stdout }
    else
      let later := dialogue fuel s rest
      { code := later.code
        stdout := prompt ++ answer.stdout ++ later.stdout
        stderr := answer.stderr ++ later.stderr
        waited := later.waited }

end CommandLine

namespace Command

def file? : Command → Option String
  | tokenize file _ | parse file | evaluate file | run file => some file
  | prompt => none

/-- Carries out a command on the text of its file, or on the standard input. -/
def respond (fuel : Nat) (clock : Clock) (command : Command) (source : String) : Response :=
  match command with
  | tokenize _ json => CommandLine.tokens json source
  | parse _ => CommandLine.tree source
  | evaluate _ => CommandLine.runSource fuel clock .expression source
  | run _ => CommandLine.runSource fuel clock .program source
  | prompt =>
    CommandLine.dialogue fuel (Session.new {} clock)
      ((CommandLine.inputLines source.toList).map String.ofList)

/-- Carries out a command on the bytes of its file. -/
def respondToBytes (fuel : Nat) (clock : Clock) (command : Command) (file : String)
    (bytes : Except ReadError ByteArray) : Response :=
  match bytes with
  | .error e => .failure ("Failed to " ++ e.attempt ++ " file " ++ Quoted.inspected file) e.reason
  | .ok bytes =>
    match Utf8.decode bytes.toList with
    | .ok source => command.respond fuel clock source
    | .error fault =>
      .failure ("File " ++ Quoted.inspected file ++ " is not valid UTF-8") fault.message

end Command
end Lox
