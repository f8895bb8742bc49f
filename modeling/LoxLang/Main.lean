import LoxLang.CommandLine.Commands
import Std.Time.DateTime.Timestamp

/-!
# The program

Reads arguments, files and lines, and writes what the commands answer.
-/

open LoxLang

/-- Fuel for one run; far more than a run can use up. -/
def plentyOfFuel : Nat := Nat.pow 10 15

/-- The file that `--log` creates. -/
def logFile : String := "rox.log"

/-- What the program says about arguments that are not in order. -/
def usage : String :=
  "Usage: [--log] [--allow-redefinition] [--dry-run] " ++
    "(tokenize [--json] | parse | evaluate | run) [FILE] | repl"

def readContent (name : String) : IO FileContent := do
  try
    return .bytes (← IO.FS.readBinFile name)
  catch
    | .inappropriateType _ 21 _ => return .folder
    | .inappropriateType .. => return .closed .throughFile
    | .invalidArgument .. => return .closed .nameTooLong
    | .permissionDenied .. => return .closed .denied
    | _ => return .closed .missing

/-- The time in milliseconds since the start of 1970. -/
def readTime : IO Nat := do
  let now ← Std.Time.Timestamp.now
  return now.toMillisecondsSinceUnixEpoch.val.toNat

def write (t : Transcript) : IO UInt32 := do
  IO.print t.output
  IO.eprint t.complaints
  return t.code.toUInt32

/-- Answers lines until the session or the input ends. -/
partial def interact (input output : IO.FS.Stream) (r : Repl) : IO UInt32 := do
  output.putStr Repl.prompt
  output.flush
  let line ← input.getLine
  if line.isEmpty then
    output.putStrLn ""
    return 0
  match r.step plentyOfFuel line with
  | none => return 1
  | some reply =>
    output.putStr reply.output
    IO.eprint reply.complaints
    match reply.next with
    | some r => interact input output r
    | none => return 0

def main (arguments : List String) : IO UInt32 := do
  match Invocation.ofArguments arguments with
  | none =>
    IO.eprintln usage
    return 2
  | some i =>
    if i.options.log then IO.FS.writeFile logFile ""
    let clock := Clock.ticking (← readTime)
    match i.command with
    | .repl => interact (← IO.getStdin) (← IO.getStdout) (Repl.start i.options.dryRun clock)
    | c =>
      let content ← match c.file?.join with
        | some file => readContent file
        | none => pure (.closed .missing)
      match i.perform plentyOfFuel ⟨fun _ => content, "", clock⟩ with
      | some t => write t
      | none => return 1
