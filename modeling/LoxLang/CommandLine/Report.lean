import LoxLang.Host
import LoxLang.Text.Quoted

/-!
# Reports

What a command writes: lines for its output, lines for its complaints and an exit code.
-/

namespace LoxLang

/-- What a command has written, and its exit code. -/
structure Transcript where
  output : String
  complaints : String
  code : Nat
deriving Repr, DecidableEq

def asLines (lines : List String) : String := String.join (lines.map (· ++ "\n"))

/-- The exit code for problems found before a run. -/
def rejectedCode : Nat := 65

def faultCode : Nat := 70

/-- The lines of a report: warnings, then problems, then the fault (`report`). -/
def Report.lines (r : Report) : List String :=
  r.unread.map Name.unreadText ++ r.problems.map Problem.text ++ r.fault.toList.map Fault.text

def Report.code (r : Report) : Nat :=
  if !r.problems.isEmpty then rejectedCode
  else if r.fault.isSome then faultCode
  else 0

/-- The transcript of a command whose file cannot be read (`read_file`). -/
def unreadable (name action cause : String) : Transcript :=
  ⟨"", asLines ["Error: Failed to " ++ action ++ " file " ++ quoted name, "", "Caused by:",
    "    " ++ cause], 1⟩

end LoxLang
