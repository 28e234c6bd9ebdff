import Lox.CommandLine

/-!
# The executable

Reads the arguments and the file, lets `Lox.CommandLine` answer, and prints the answer. The time
that a program waits passes before its output is shown.
-/
namespace Lox.Main

/-- No program that ends takes as many steps. -/
def fuel : Nat := Nat.pow 10 18

/-- A clock that shows when a file was changed last that is made now. -/
def clock : IO Clock := do
  let (_, path) ← IO.FS.createTempFile
  let data ← path.metadata
  IO.FS.removeFile path
  let now := data.modified.sec.toNat * 1000000 + data.modified.nsec.toNat / 1000
  return { reading := fun n => now + n }

/-- The system's words for its errors by number. -/
def reasons : List (Nat × String) := [
  (2, "No such file or directory"), (13, "Permission denied"),
  (20, "Not a directory"), (36, "File name too long")]

/-- The number of a system error; some come negated. -/
def number? : IO.Error → Option Nat
  | .noFileOrDirectory _ code _ | .permissionDenied _ code _ | .inappropriateType _ code _
  | .invalidArgument _ code _ => some (min code (-code)).toNat
  | _ => none

def reason (e : IO.Error) : String :=
  match (number? e).bind fun n => (reasons.lookup n).map fun words => (n, words) with
  | some (n, words) => words ++ " (os error " ++ n.repr ++ ")"
  | none => toString e

/-- Directories can be opened, but hold nothing that can be mapped. -/
def notMappable : ReadError := ⟨"map", "No such device (os error 19)"⟩

def read (file : String) : IO (Except ReadError ByteArray) := do
  try
    return .ok (← IO.FS.readBinFile file)
  catch e =>
    return .error (if number? e = some 21 then notMappable else ⟨"open", reason e⟩)

def respond (r : Response) : IO UInt32 := do
  IO.sleep (min (r.waited / 1000) (Nat.pow 2 32 - 1)).toUInt32
  (← IO.getStderr).putStr r.stderr
  (← IO.getStdout).putStr r.stdout
  return r.code.toUInt32

/-- Answers line after line until the input ends. -/
partial def converse (s : Session) : IO UInt32 := do
  let stdout ← IO.getStdout
  stdout.putStr CommandLine.prompt
  stdout.flush
  let line ← (← IO.getStdin).getLine
  if line.isEmpty then
    stdout.putStr "\n"
    return 0
  let (answer, s) := CommandLine.answerLine fuel (← clock) s line
  let code ← respond answer
  if answer.code = Response.crashCode then return code
  converse s

def execute (command : Command) (log : Bool) : IO UInt32 := do
  if log then IO.FS.writeFile "rox.log" ""
  let start ← clock
  match command.file? with
  | some file => respond (command.respondToBytes fuel start file (← read file))
  | none => converse (Session.new {} start)

end Lox.Main

open Lox in
def main (arguments : List String) : IO UInt32 := do
  match Request.ofArguments arguments with
  | .misuse => Main.respond { code := 2, stdout := "", stderr := Arguments.help }
  | .help text => Main.respond { code := 0, stdout := text, stderr := "" }
  | .version => Main.respond { code := 0, stdout := Arguments.version, stderr := "" }
  | .execute command log => Main.execute command log
