import Pseudocod.Program
import Pseudocod.SExpr
import Pseudocod.Statement.Layout
import Pseudocod.Typeset

/-!
# The command line

A command is given the name of a file, reads a typeset program from it, writes it with plain
characters, and prints what it makes of it. `CommandLine.run` says what is printed and with which
code the program ends; files are looked up by the function that it is given.

* `CommandLine.code_execute`: a command ends with 0 or 1.
-/

namespace Pseudocod.CommandLine

/-- What is found under the name of a file. -/
inductive Found where
  | missing
  | unreadable (reason : String)
  | bytes (content : ByteArray)

/-- What is found under the name of a folder. -/
def Found.folder : Found :=
  .unreadable "Is a directory (os error 21)"

/-- The code with which the program ends, and what it prints. -/
structure Exit where
  code : Nat
  stdout : String
  stderr : String
deriving DecidableEq, Repr

/-- The commands that work on a file. -/
inductive Command where
  | parse
  | fmt
  | lint
  | tokens
deriving DecidableEq, Repr

/-- The command with a given name. -/
def command? : String → Option Command
  | "parse" => some .parse
  | "fmt" => some .fmt
  | "lint" => some .lint
  | "tokens" => some .tokens
  | _ => none

/-- The name of the program in messages. -/
def programName : String := "pseudo"

/-- The commands with what they do, in the order in which they are shown. -/
def summaries : List (String × String) :=
  [("parse", "Print the syntax tree"),
   ("fmt", "Print the program in canonical layout"),
   ("lint", "Print the source with typeset symbols replaced"),
   ("tokens", "Print one token per line with its position"),
   ("help", "Show this message")]

/-- The line of a command in the usage message: its name takes eight columns. -/
def summaryLine (summary : String × String) : String :=
  "  " ++ summary.1 ++ String.ofList (List.replicate (8 - summary.1.length) ' ') ++ summary.2

/-- How the program is called. -/
def usage : String :=
  Text.unlines
    (["Usage: " ++ programName ++ " <command> <file>", "", "Commands:"] ++
      summaries.map summaryLine ++
      ["", "Examples:",
       "  " ++ programName ++ " fmt subiect.txt      # Reformat a program",
       "  " ++ programName ++ " parse subiect.txt    # Inspect its syntax tree"])

/-- A text in bold and red letters on a terminal. -/
def highlight (text : String) : String :=
  "\x1b[38;5;9m\x1b[1m" ++ text ++ "\x1b[0m"

/-- Ends the program because of a mistake in how it was called. -/
def fail (message : String) : Exit :=
  { code := 1, stdout := "", stderr := highlight "error:" ++ " " ++ message ++ "\n" }

/-- Ends the program because of a mistake in how it was called, and shows how to call it. -/
def failWithUsage (message : String) : Exit :=
  { fail message with stderr := (fail message).stderr ++ "\n" ++ usage }

/-- Ends the program because the text of a file is not a program. -/
def failAt (path source : String) (error : SyntaxError) : Exit where
  code := 1
  stdout := ""
  stderr :=
    highlight "syntax error" ++ " " ++ path ++ ":" ++ toString error.location.line ++ ":" ++
      toString error.location.column ++ "\n" ++ error.report source ++ "\n"

/-- Ends the program after printing `text`. -/
def succeed (text : String) : Exit :=
  { code := 0, stdout := text, stderr := "" }

/-- A token on a line of its own, after its place. -/
def tokenLine (token : Token) : String :=
  toString token.location.line ++ ":" ++ toString token.location.column ++ "\t" ++ token.describe

/-- Carries out a command on a source with plain characters, which was found at `path`. -/
def execute (command : Command) (path source : String) : Exit :=
  match command with
  | .lint => succeed source
  | .tokens =>
    match tokenize source with
    | .ok tokens => succeed (Text.unlines (tokens.map tokenLine))
    | .error error => failAt path source error.toSyntaxError
  | .parse =>
    match Program.parse source with
    | .ok program => succeed program.dump
    | .error error => failAt path source error
  | .fmt =>
    match Program.parse source with
    | .ok program => succeed program.render
    | .error error => failAt path source error

/-- Carries out a command on a file. -/
def executeOn (find : String → Found) (command : Command) (path : String) : Exit :=
  let unreadable (reason : String) : Exit :=
    fail ("Could not read '" ++ path ++ "': " ++ reason)
  match find path with
  | .missing => fail ("File '" ++ path ++ "' not found")
  | .unreadable reason => unreadable reason
  | .bytes content =>
    match String.fromUTF8? content with
    | none => unreadable "stream did not contain valid UTF-8"
    | some raw => execute command path (Typeset.normalise raw)

/-- Carries out what the arguments ask for; those after the name of the file are not looked at. -/
def run (find : String → Found) : List String → Exit
  | [] => failWithUsage "No command provided"
  | name :: arguments =>
    if name = "help" ∨ name = "--help" ∨ name = "-h" then
      { code := 0, stdout := "", stderr := usage }
    else
      match command? name, arguments with
      | none, _ => failWithUsage ("Unknown command '" ++ name ++ "'")
      | some _, [] => failWithUsage "No input file provided"
      | some command, path :: _ => executeOn find command path

theorem code_execute (command : Command) (path source : String) :
    (execute command path source).code = 0 ∨ (execute command path source).code = 1 := by
  unfold execute
  cases command
  case lint => exact .inl rfl
  all_goals
    dsimp only
    split
    next => exact .inl rfl
    next => exact .inr rfl

end Pseudocod.CommandLine
