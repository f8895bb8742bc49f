import LoxLang.CommandLine.Report
import LoxLang.Text.Blank
import LoxLang.Tree.Parenthesized

/-!
# Interactive sessions

A session reads a line at a time and runs it on one host. Lines that begin with a colon
are for the session itself.
-/

namespace LoxLang

/-- A session between two lines. -/
structure Repl where
  host : Host
  /-- Each line's tokens are shown before it runs. -/
  showsTokens : Bool
  /-- Each line's statements are shown before it runs. -/
  showsTrees : Bool

/-- What a line makes a session write, and the session after it unless that ends. -/
structure Reply where
  output : String
  complaints : String
  next : Option Repl

namespace Repl

def prompt : String := "> "

/-- The file that places in a session name. -/
def file : String := "<repl>"

/-- A new session. A line may declare a name again that an earlier one has declared. -/
def start (dryRun : Bool) (clock : Clock) : Repl :=
  ⟨Host.start ⟨true, dryRun, file⟩ (Sink.empty none false) clock, false, false⟩

/-- The tokens and statements of a line, as far as the session shows them (`dump`). -/
def shown (r : Repl) (input : String) : List String :=
  let (tokens, _) := Token.scan file input
  (if r.showsTokens then tokens.map Token.display else []) ++
    (if r.showsTrees then (Program.ofTokens tokens).statements.map Stmt.text else [])

def settingText (on : Bool) : String := if on then "on." else "off."

def run (r : Repl) (fuel : Nat) (input : String) : Option Reply := do
  let before := r.host.machine.sink.bytes.size
  let (report, host) ← r.host.run fuel input
  let output := asLines (r.shown input) ++ host.machine.sink.textSince before
  return ⟨output, asLines report.lines, some { r with host }⟩

/-- Answers one line (`repl`). -/
def step (r : Repl) (fuel : Nat) (line : String) : Option Reply :=
  match trimmed line with
  | "" => some ⟨"", "", some r⟩
  | ":quit" => some ⟨"", "", none⟩
  | ":clear" => some ⟨asLines ["Globals cleared."], "", some { r with host := r.host.clear }⟩
  | ":tokens" =>
    let on := !r.showsTokens
    some ⟨asLines ["Token dump " ++ settingText on], "", some { r with showsTokens := on }⟩
  | ":ast" =>
    let on := !r.showsTrees
    some ⟨asLines ["AST dump " ++ settingText on], "", some { r with showsTrees := on }⟩
  | input => r.run fuel input

/-- What a session writes for these lines; where they end, so does its last line. -/
def transcript (fuel : Nat) : Repl → List String → Option Transcript
  | _, [] => some ⟨prompt ++ "\n", "", 0⟩
  | r, line :: lines => do
    let reply ← r.step fuel line
    let rest ← match reply.next with
      | some r => transcript fuel r lines
      | none => some ⟨"", "", 0⟩
    return ⟨prompt ++ reply.output ++ rest.output, reply.complaints ++ rest.complaints, rest.code⟩

end Repl

/-- The lines of an input; what follows the last line end is a line if it is not empty. -/
def inputLines (input : String) : List String :=
  let lines := input.splitOn "\n"
  if lines.getLast? == some "" then lines.dropLast else lines

end LoxLang
