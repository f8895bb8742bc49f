import LoxLang.Machine.Eval
import LoxLang.Problem
import LoxLang.Scoping.Depth
import LoxLang.Tree.Reading

/-!
# Hosts

A host pushes source texts through reading, resolving and running on one machine, so that
what one text declares the next can use. Each operation takes the fuel for its run and
gives `none` if that was too little.
-/

namespace LoxLang

/-- What a host is told once (`LoxConfig`). -/
structure Config where
  /-- Global names may be declared and defined again. -/
  allowRedefinition : Bool
  /-- Sources are read and resolved but not run. -/
  dryRun : Bool
  /-- The file that places name. -/
  file : String
deriving Repr, DecidableEq

/-- A machine and how to use it (`Lox`). -/
structure Host where
  config : Config
  machine : Machine

/-- What a run reports (`RunReport`). -/
structure Report where
  problems : List Problem
  /-- The local variables that nothing reads. -/
  unread : List Name
  fault : Option Fault

/-- A run is in order if it has neither problems nor a fault (`RunReport::is_ok`). -/
def Report.isOk (r : Report) : Bool := r.problems.isEmpty && r.fault.isNone

/-- What the evaluation of a source gives (`EvalError`). -/
inductive Evaluation where
  | value (v : Value)
  | rejected (problems : List Problem)
  | faulted (f : Fault)

/-- Why an evaluation gave no value. -/
def Evaluation.failure? : Evaluation → Option String
  | value _ => none
  | rejected problems => some s!"program has {problems.length} static error(s)"
  | faulted f => some f.text

/-! ## Before a run -/

/-- A source that was read and resolved: what to run, if it may run, and what to report. -/
structure Checked where
  statements : Option (List Stmt)
  problems : List Problem
  unread : List Name

/-- Reads and resolves a program (`Lox::front_end`). It may run in spite of lexical problems and of
misfits that left something of it, but not if resolving found problems. -/
def Checked.ofSource (config : Config) (source : String) : Checked :=
  let (tokens, lexical) := Token.scan config.file source
  let program := Program.ofTokens tokens
  let problems := lexical.map .lexical ++ program.misfits.map .grammar
  if program.isLost then ⟨none, problems, []⟩
  else
    let resolved := Resolved.program config.allowRedefinition program.statements
    match resolved.problems with
    | [] => ⟨some resolved.tree, problems, resolved.unread⟩
    | found => ⟨none, problems ++ found.map .scope, resolved.unread⟩

/-- Reads and resolves one expression; the first stage to find problems reports them. -/
def Expr.ofSource (config : Config) (source : String) : Except (List Problem) Expr :=
  match Token.scan config.file source with
  | (tokens, []) =>
    match Expr.ofTokens tokens with
    | .error m => .error [.grammar m]
    | .ok e =>
      let resolved := Resolved.expression config.allowRedefinition e
      match resolved.problems with
      | [] => .ok resolved.tree
      | found => .error (found.map .scope)
  | (_, lexical) => .error (lexical.map .lexical)

/-! ## Running -/

/-- The outcome of a step that nothing is left to catch: a value or a fault, and the
machine after it. -/
def Run.outcome? {α : Type} (step : Run α) (m : Machine) : Option (Except Fault α × Machine) :=
  match step m with
  | .ok a m => some (.ok a, m)
  | .error i m => i.fault?.map fun f => (.error f, m)

namespace Host

/-- A host that has run nothing (`Lox::with_output`). -/
def start (config : Config) (sink : Sink) (clock : Clock) : Host :=
  ⟨config, Machine.start config.allowRedefinition sink clock⟩

/-- Lets global names be declared and defined again, or forbids it (`Lox::set_allow_redefinition`).
-/
def setAllowRedefinition (h : Host) (allow : Bool) : Host :=
  { config := { h.config with allowRedefinition := allow }
    machine := h.machine.setAllowRedefinition allow }

/-- Forgets all that sources have declared (`Lox::clear`). -/
def clear (h : Host) : Host := { h with machine := h.machine.clearGlobals }

/-- Runs a program (`Lox::run`). -/
def run (h : Host) (fuel : Nat) (source : String) : Option (Report × Host) :=
  let checked := Checked.ofSource h.config source
  let report := ⟨checked.problems, checked.unread, none⟩
  match checked.statements with
  | none => some (report, h)
  | some statements =>
    if h.config.dryRun then some (report, h)
    else
      (execAll fuel statements).outcome? h.machine |>.map fun (result, machine) =>
        match result with
        | .ok () => (report, { h with machine })
        | .error f => ({ report with fault := some f }, { h with machine })

/-- Evaluates with a machine, unless the host only checks its sources. -/
def evaluateWith (h : Host) (step : Run Value) : Option (Evaluation × Host) :=
  if h.config.dryRun then some (.value .nil, h)
  else
    step.outcome? h.machine |>.map fun (result, machine) =>
      match result with
      | .ok v => (.value v, { h with machine })
      | .error f => (.faulted f, { h with machine })

/-- What a program evaluates to: an expression statement alone to its value, any other
program to `nil`. -/
def programValue (fuel : Nat) : List Stmt → Run Value
  | [.expression e] => eval fuel e
  | statements => do
    execAll fuel statements
    return .nil

/-- Evaluates a program that has no problem at all (`Lox::evaluate`). -/
def evaluate (h : Host) (fuel : Nat) (source : String) : Option (Evaluation × Host) :=
  let checked := Checked.ofSource h.config source
  match checked.statements, checked.problems with
  | some statements, [] => h.evaluateWith (programValue fuel statements)
  | _, problems => some (.rejected problems, h)

/-- Evaluates one expression (`Lox::evaluate_expression`). -/
def evaluateExpression (h : Host) (fuel : Nat) (source : String) :
    Option (Evaluation × Host) :=
  match Expr.ofSource h.config source with
  | .error problems => some (.rejected problems, h)
  | .ok e => h.evaluateWith (eval fuel e)

end Host

end LoxLang
