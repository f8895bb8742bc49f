import LoxLang.CommandLine.Arguments
import LoxLang.CommandLine.Folder
import LoxLang.CommandLine.Repl
import LoxLang.Token.Json

/-!
# Commands

What each command writes, given what its file holds.
-/

namespace LoxLang

/-- What a command is given from outside. -/
structure Surroundings where
  file : String → FileContent
  input : String
  clock : Clock

/-- The transcript of a command that needs a file and was given none (`no_input`). -/
def noFile : Transcript := ⟨asLines ["No input filepath was provided. Exiting..."], "", 0⟩

/-- The configuration for a file (`config_for`). -/
def Options.config (o : Options) (file : String) : Config := ⟨o.allowRedefinition, o.dryRun, file⟩

namespace Command

/-- Lists the tokens of a source (`tokenize`). -/
def tokenizeSource (file source : String) (json : Bool) : Transcript :=
  let (tokens, problems) := Token.scan file source
  { output := asLines (if json then [Token.listJson tokens] else tokens.map Token.display)
    complaints := asLines (problems.map fun p => (Problem.lexical p).text)
    code := if problems.isEmpty then 0 else rejectedCode }

/-- Shows the tree of one expression (`parse`). -/
def parseSource (file source : String) : Transcript :=
  match Token.scan file source with
  | (tokens, []) =>
    match Expr.ofTokens tokens with
    | .ok e => ⟨asLines [e.text], "", 0⟩
    | .error m => ⟨"", asLines [(Problem.grammar m).text], rejectedCode⟩
  | (_, problems) =>
    ⟨"", asLines (problems.map fun p => (Problem.lexical p).text), rejectedCode⟩

/-- Shows the value of one expression, after what it prints (`evaluate`). -/
def evaluateSource (fuel : Nat) (host : Host) (source : String) : Option Transcript := do
  let (evaluation, after) ← host.evaluateExpression fuel source
  let printed := after.machine.sink.textSince 0
  match evaluation with
  | .value v => return ⟨printed ++ asLines [v.text], "", 0⟩
  | .rejected problems => return ⟨printed, asLines (problems.map Problem.text), rejectedCode⟩
  | .faulted f => return ⟨printed, asLines [Fault.text f], faultCode⟩

/-- Runs a program (`run`). -/
def runSource (fuel : Nat) (host : Host) (source : String) : Option Transcript := do
  let (report, after) ← host.run fuel source
  return ⟨after.machine.sink.textSince 0, asLines report.lines, report.code⟩

/-- The file of a command, if it has one to read. -/
def file? : Command → Option (Option String)
  | tokenize file _ | parse file | evaluate file | run file => some file
  | repl => none

/-- What a command writes about the source of its file. -/
def onSource (c : Command) (fuel : Nat) (o : Options) (clock : Clock) (file source : String) :
    Option Transcript :=
  let host := Host.start (o.config file) (Sink.empty none false) clock
  match c with
  | tokenize _ json => some (tokenizeSource file source json)
  | parse _ => some (parseSource file source)
  | evaluate _ => evaluateSource fuel host source
  | run _ => runSource fuel host source
  | repl => none

end Command

/-- What an invocation writes; `none` if the fuel was too little (`main`). -/
def Invocation.perform (i : Invocation) (fuel : Nat) (s : Surroundings) : Option Transcript :=
  match i.command.file? with
  | none => (Repl.start i.options.dryRun s.clock).transcript fuel (inputLines s.input)
  | some none => some noFile
  | some (some file) =>
    match (s.file file).text with
    | .error (action, cause) => some (unreadable file action cause)
    | .ok source => i.command.onSource fuel i.options s.clock file source

end LoxLang
