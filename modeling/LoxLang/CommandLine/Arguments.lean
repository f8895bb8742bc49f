/-!
# Arguments

What a command line asks for: one of five commands, each with flags. Flags that hold for
every command may stand before or after its name; on either side each may stand once.
-/

namespace LoxLang

/-- The flags that every command has (`Cli`). -/
structure Options where
  log : Bool
  allowRedefinition : Bool
  dryRun : Bool
deriving Repr, DecidableEq

/-- What to do, and with which file (`Commands`). -/
inductive Command where
  | tokenize (file : Option String) (json : Bool)
  | parse (file : Option String)
  | evaluate (file : Option String)
  | run (file : Option String)
  | repl
deriving Repr, DecidableEq

/-- A command and its flags. -/
structure Invocation where
  options : Options
  command : Command
deriving Repr, DecidableEq

namespace Invocation

def commonFlags : List String := ["--log", "--allow-redefinition", "--dry-run"]

/-- Does a word look like a flag? A hyphen on its own does not. -/
def looksLikeFlag (word : String) : Bool := word.startsWith "-" && word != "-"

/-- The flags in front of the first other word, and the words from there on. Unknown and
repeated flags are refused. -/
def leading : List String → Option (List String × List String)
  | [] => some ([], [])
  | word :: words =>
    if looksLikeFlag word then do
      let (flags, rest) ← leading words
      if commonFlags.contains word && !flags.contains word then some (word :: flags, rest)
      else none
    else some ([], word :: words)

/-- The flags and the other words after a command's name. Two hyphens end the flags. -/
def trailing (known : List String) : List String → Option (List String × List String)
  | [] => some ([], [])
  | word :: words =>
    if word == "--" then some ([], words)
    else do
      let (flags, others) ← trailing known words
      if !looksLikeFlag word then some (flags, word :: others)
      else if known.contains word && !flags.contains word then some (word :: flags, others)
      else none

/-- No word or one that names a file. -/
def fileOf : List String → Option (Option String)
  | [] => some none
  | [word] => if word.isEmpty then none else some (some word)
  | _ => none

/-- The command of that name, with its flags and other words. -/
def commandOf (name : String) (flags words : List String) : Option Command :=
  match name with
  | "tokenize" => (fileOf words).map (.tokenize · (flags.contains "--json"))
  | "parse" => (fileOf words).map .parse
  | "evaluate" => (fileOf words).map .evaluate
  | "run" => (fileOf words).map .run
  | "repl" => if words.isEmpty then some .repl else none
  | _ => none

/-- What the arguments ask for, if they are in order. -/
def ofArguments (arguments : List String) : Option Invocation := do
  let (before, rest) ← leading arguments
  match rest with
  | [] => none
  | name :: words =>
    let known := if name == "tokenize" then "--json" :: commonFlags else commonFlags
    let (after, others) ← trailing known words
    let command ← commandOf name after others
    let has (flag : String) := before.contains flag || after.contains flag
    return ⟨⟨has "--log", has "--allow-redefinition", has "--dry-run"⟩, command⟩

end Invocation

end LoxLang
