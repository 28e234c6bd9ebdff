/-!
# Command lines

What a list of arguments asks for. Options may stand before and after the file; after `--` there
are only files.
-/
namespace Lox

inductive Command where
  | tokenize (file : String) (json : Bool)
  | parse (file : String)
  | evaluate (file : String)
  | run (file : String)
  | prompt
  deriving DecidableEq, Repr

inductive Request where
  | execute (command : Command) (log : Bool)
  | help (text : String)
  | version
  /-- The arguments make no sense. -/
  | misuse
  deriving DecidableEq, Repr

namespace Arguments

/-- The commands by name. -/
inductive Verb where
  | tokenize | parse | evaluate | run
  deriving DecidableEq, Repr

namespace Verb

def ofName? : String → Option Verb
  | "tokenize" => some tokenize
  | "parse" => some parse
  | "evaluate" => some evaluate
  | "run" => some run
  | _ => none

def name : Verb → String
  | tokenize => "tokenize"
  | parse => "parse"
  | evaluate => "evaluate"
  | run => "run"

def about : Verb → String
  | tokenize => "Tokenizes input from a file, printing each token"
  | parse => "Parses input from a file as a single expression and prints its AST"
  | evaluate => "Evaluates input from a file as a single expression and prints the result"
  | run => "Runs a file as a Lox program, or starts a REPL without one"

def filePlace : Verb → String
  | run => "[FILENAME]"
  | _ => "<FILENAME>"

def help (verb : Verb) : String :=
  let json := match verb with
    | tokenize => "      --json  Print the tokens as a JSON array\n"
    | _ => ""
  verb.about ++ "\n\nUsage: rox " ++ verb.name ++ " [OPTIONS] " ++ verb.filePlace
    ++ "\n\nArguments:\n  " ++ verb.filePlace ++ "  \n\nOptions:\n" ++ json
    ++ "      --log   Enable logging to rox.log\n  -h, --help  Print help\n"

end Verb

def help : String :=
  let row (verb : Verb) : String :=
    "  " ++ verb.name ++ String.ofList (List.replicate (10 - verb.name.length) ' ') ++ verb.about
      ++ "\n"
  "Lox language interpreter\n\nUsage: rox [OPTIONS] <COMMAND>\n\nCommands:\n"
    ++ row .tokenize ++ row .parse ++ row .evaluate ++ row .run
    ++ "  help      Print this message or the help of the given subcommand(s)\n"
    ++ "\nOptions:\n      --log      Enable logging to rox.log\n"
    ++ "  -h, --help     Print help\n  -V, --version  Print version\n"

/-- The help that can be had on `help` itself. -/
def helpOnHelp : String :=
  "Print this message or the help of the given subcommand(s)\n\nUsage: rox help [COMMAND]...\n\n"
    ++ "Arguments:\n  [COMMAND]...  Print help for the subcommand(s)\n"

/-- What `help` shows when it is given these topics. Commands have no topics of their own. -/
def helpOn : List String → Request
  | [] => .help help
  | ["help"] => .help helpOnHelp
  | [topic] =>
    match Verb.ofName? topic with
    | some verb => .help verb.help
    | none => .misuse
  | _ => .misuse

def version : String := "rox 0.1.0\n"

/-- What was given to a command so far. -/
structure Given where
  file : Option String := none
  json : Bool := false
  log : Bool := false

def isShort (letter : Char) (argument : String) : Bool :=
  match argument.toList with
  | '-' :: first :: _ => first = letter
  | _ => false

def isOption (argument : String) : Bool :=
  match argument.toList with
  | '-' :: _ :: _ => true
  | _ => false

def isHelp (argument : String) : Bool := argument = "--help" || isShort 'h' argument

def isVersion (argument : String) : Bool := argument = "--version" || isShort 'V' argument

def Given.addFile (given : Given) (argument : String) : Option Given :=
  if argument.isEmpty || given.file.isSome then none
  else some { given with file := some argument }

/-- The command, if it has what it needs. Logging can also be asked for in front of it. -/
def Given.finish (given : Given) (log : Bool) (verb : Verb) : Request :=
  let execute (command : Command) : Request := .execute command (log || given.log)
  match verb, given.file with
  | .tokenize, some file => execute (.tokenize file given.json)
  | .parse, some file => execute (.parse file)
  | .evaluate, some file => execute (.evaluate file)
  | .run, some file => execute (.run file)
  | .run, none => execute .prompt
  | _, none => .misuse

def readFiles (given : Given) (log : Bool) (verb : Verb) : List String → Request
  | [] => given.finish log verb
  | argument :: rest =>
    match given.addFile argument with
    | some given => readFiles given log verb rest
    | none => .misuse

/-- Reads what follows the name of a command. No option may be given twice. -/
def readCommand (given : Given) (log : Bool) (verb : Verb) : List String → Request
  | [] => given.finish log verb
  | argument :: rest =>
    if argument = "--log" && !given.log then
      readCommand { given with log := true } log verb rest
    else if argument = "--json" && verb = .tokenize && !given.json then
      readCommand { given with json := true } log verb rest
    else if argument = "--" then readFiles given log verb rest
    else if isHelp argument then .help verb.help
    else if isOption argument then .misuse
    else
      match given.addFile argument with
      | some given => readCommand given log verb rest
      | none => .misuse

/-- Reads the arguments from the first on. -/
def read (log : Bool) : List String → Request
  | [] => .misuse
  | argument :: rest =>
    if argument = "--log" && !log then read true rest
    else if isHelp argument then .help help
    else if isVersion argument then .version
    else if argument = "help" then helpOn rest
    else
      match Verb.ofName? argument with
      | some verb => readCommand {} log verb rest
      | none => .misuse

end Arguments

def Request.ofArguments (arguments : List String) : Request := Arguments.read false arguments

end Lox
