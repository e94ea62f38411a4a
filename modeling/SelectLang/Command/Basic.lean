/-
# Commands

The program checks a script, runs a script on the sources of a file, or shows the manual. A command
that succeeds writes to the standard output and exits with 0; one that fails writes nothing there but
its message to the standard error and exits with 1, or with 101 where a sort has given up and the program
halts. Arguments that make up no command exit with 2.

What a command finds around it is given to it: the standard input, which it reads if it is to run a
script that no argument holds, and the files.

Key definitions: `Command`, `Command.parse`, `check`, `runScript`, `Command.outcome`, `programOutcome`.
-/
import SelectLang.Command.Arguments
import SelectLang.Json.Write
import SelectLang.Manual
import SelectLang.SourcesFile.Read
import SelectLang.Syntax.Render
import SelectLang.Syntax.Tree

namespace SelectLang

/-- What the program is asked to do. -/
inductive Command where
  /-- Checks a script and shows, if wanted, its statements and its tree. -/
  | check (script : String) (showTree spread : Bool)
  /-- Runs a script, or the standard input, on the sources of a file. -/
  | run (script : Option String) (sources : String) (spread : Bool)
  | overview
  | page (topic : String)
deriving DecidableEq, Repr

/-! ### Errors -/

/-- Why a text could not be read. -/
inductive ReadError where
  | missing
  | forbidden
  | directory
  /-- The bytes are not UTF-8. -/
  | notText
  | other (reason : String) (code : Nat)
deriving DecidableEq, Repr

namespace ReadError

/-- What the system says of an error with this code. -/
def systemMessage (reason : String) (code : Nat) : String :=
  reason ++ " (os error " ++ Nat.repr code ++ ")"

/-- What the system says of the failure. -/
def message : ReadError → String
  | missing => systemMessage "No such file or directory" 2
  | forbidden => systemMessage "Permission denied" 13
  | directory => systemMessage "Is a directory" 21
  | notText => "stream did not contain valid UTF-8"
  | other reason code => systemMessage reason code

end ReadError

/-- Why a command fails. -/
inductive CommandError where
  | query (error : Error)
  | unreadable (error : ReadError)
  /-- The text is no document of the form of a sources file. -/
  | notSources
  | config (error : ConfigError)
  | noScript
  | unknownTopic (name : String)
deriving BEq, Repr

/-- What is said of the failure. -/
def CommandError.message : CommandError → String
  | query e => e.message
  | unreadable e => "IO error: " ++ e.message
  | notSources => "Invalid JSON: the document does not have the form of a sources file"
  | config e => "Invalid sources file: " ++ e.message
  | noScript => "No script provided. Pass it as an argument or pipe it to stdin."
  | unknownTopic name =>
    "Unknown category: '" ++ name ++ "'\nRun 'sqlface docs' to see available categories."

/-- The code that the program exits with. It exits of its own accord unless a sort has given up, which
halts it. -/
def CommandError.exitCode : CommandError → Nat
  | query .disordered => 101
  | _ => 1

/-! ### Checking and running -/

/-- What the check of a script shows. -/
inductive CheckResult where
  | valid
  /-- The statements as they are written canonically, and the text of the tree. -/
  | tree (rendered text : String)
deriving DecidableEq, Repr

/-- The text of a document, spread over lines or not. -/
def writeJson (spread : Bool) (document : Json) : String :=
  if spread then document.pretty else document.compact

/-- Reads a script and runs nothing of it. -/
def check (script : String) (showTree spread : Bool) : Except CommandError CheckResult :=
  match Script.parse script with
  | .error d => .error (.query (.parse d))
  | .ok tree =>
    .ok (if showTree then .tree tree.render (writeJson spread tree.toJson) else .valid)

/-- The context that the text of a sources file describes. -/
def loadSources (text : String) : Except CommandError Context :=
  match SourcesFile.parse? text with
  | none => .error .notSources
  | some file => file.context.mapError .config

/-- The results of a script on the sources of a file, with all keys ascending. -/
def runScript (sources script : String) : Except CommandError Json :=
  match loadSources sources with
  | .error e => .error e
  | .ok context =>
    match (context.execute script (.initial 1)).1 with
    | .error e => .error (.query e)
    | .ok results => .ok results.toJson.sorted

/-- The page of a topic by one of its names. -/
def manualPage (name : String) : Except CommandError String :=
  match Manual.Topic.ofName? name with
  | some topic => .ok topic.page
  | none => .error (.unknownTopic name)

/-! ### Outcomes -/

/-- The standard input, which is not read if it is a terminal. -/
inductive Input where
  | terminal
  | stream (contents : Except ReadError String)

/-- What a command may read. -/
structure Surroundings where
  input : Input
  file : String → Except ReadError String

/-- What the world sees of the program when it has ended. -/
structure Outcome where
  exitCode : Nat
  output : String
  errors : String
deriving DecidableEq, Repr

namespace Surroundings

/-- The script: the one that is given, or the standard input. -/
def script (around : Surroundings) : Option String → Except CommandError String
  | some text => .ok text
  | none =>
    match around.input with
    | .terminal => .error .noScript
    | .stream contents => contents.mapError .unreadable

end Surroundings

namespace CheckResult

/-- What is written of a check. -/
def output : CheckResult → String
  | valid => "Syntax is valid\n"
  | tree rendered text => rendered ++ "\n" ++ text ++ "\n"

end CheckResult

namespace Command

/-- What the command writes. -/
def output (around : Surroundings) : Command → Except CommandError String
  | check script showTree spread => (SelectLang.check script showTree spread).map CheckResult.output
  | run script sources spread =>
    match around.script script with
    | .error e => .error e
    | .ok script =>
      match around.file sources with
      | .error e => .error (.unreadable e)
      | .ok text => (runScript text script).map (writeJson spread · ++ "\n")
  | overview => .ok Manual.overview
  | page topic => manualPage topic

/-- What comes of the command. -/
def outcome (around : Surroundings) (command : Command) : Outcome :=
  match command.output around with
  | .ok text => ⟨0, text, ""⟩
  | .error e => ⟨e.exitCode, "", e.message ++ "\n"⟩

/-! ### Arguments -/

/-- Asks for the usage in place of a run. -/
def helpSetting : Setting := ⟨"help", some 'h', .notice .help⟩

/-- The settings of every command. How much is logged changes nothing here. -/
def commonSettings : List Setting := [⟨"verbose", some 'v', .counter⟩, helpSetting]

/-- Spreads documents over lines. -/
def prettySetting : Setting := ⟨"pretty", some 'p', .switch⟩

/-- The settings of `check`. -/
def checkSettings : List Setting := ⟨"ast", none, .switch⟩ :: prettySetting :: commonSettings

/-- The settings of `run`. -/
def runSettings : List Setting := ⟨"sources", some 's', .value⟩ :: prettySetting :: commonSettings

/-- The settings before the name of the command. -/
def programSettings : List Setting := ⟨"version", some 'V', .notice .version⟩ :: commonSettings

/-- The names of commands, of which the last asks what the others are for. -/
def names : List String := ["check", "run", "docs", "doc", "help"]

/-- The notice that answers a question for help with a command, or with none. -/
def helpNotice (arguments : List String) : Notice :=
  match arguments with
  | [] => .help
  | [name] => if names.contains name then .help else .misuse
  | _ => .misuse

/-- The command of that name with the given arguments. -/
def ofName (name : String) (arguments : List String) : Except Notice Command :=
  match name with
  | "check" => do
    let given ← Given.read checkSettings 1 arguments
    match given.operands with
    | [script] => .ok (.check script (given.isSet "ast") (given.isSet "pretty"))
    | _ => .error .misuse
  | "run" => do
    let given ← Given.read runSettings 1 arguments
    match given.value? "sources" with
    | some sources => .ok (.run given.operands.head? sources (given.isSet "pretty"))
    | none => .error .misuse
  | "docs" => do
    let _ ← Given.read commonSettings 0 arguments
    .ok .overview
  | "doc" => do
    let given ← Given.read commonSettings 1 arguments
    match given.operands with
    | [topic] => .ok (.page topic)
    | _ => .error .misuse
  | "help" => .error (helpNotice arguments)
  | _ => .error .misuse

/-- The command that the arguments of the program make up. -/
def parse (arguments : List String) : Except Notice Command :=
  match firstOperand programSettings arguments with
  | .error notice => .error notice
  | .ok (name, rest) => ofName name rest

end Command

namespace Notice

/-- How the program is called. -/
def usage : String := Manual.ended [
  "Usage: sqlface [-v]... <command>",
  "",
  "  check <script> [--ast] [-p | --pretty]",
  "  run [<script>] -s <file> [-p | --pretty]",
  "  docs",
  "  doc <category>"]

/-- Misuse is told on the standard error, and the other notices on the standard output. -/
def outcome : Notice → Outcome
  | misuse => ⟨2, "", usage⟩
  | help => ⟨0, usage, ""⟩
  | version => ⟨0, "sqlface 0.2.0\n", ""⟩

end Notice

/-- What comes of the program when it is called with these arguments. -/
def programOutcome (around : Surroundings) (arguments : List String) : Outcome :=
  match Command.parse arguments with
  | .ok command => command.outcome around
  | .error notice => notice.outcome

end SelectLang
