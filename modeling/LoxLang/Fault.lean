import LoxLang.Place

/-!
# Faults

What can go wrong while a program runs. A run ends with its first fault.
-/

namespace LoxLang

/-- Why printing failed. -/
inductive SinkProblem where
  | full
  | flushRefused
  /-- For a reason of the sink's own. -/
  | other (reason : String)
deriving DecidableEq, Repr

def SinkProblem.message : SinkProblem → String
  | full => "sink full"
  | flushRefused => "flush refused"
  | other reason => reason

/-- How the depths in a tree can disagree with the scopes of a run. -/
inductive Mismatch where
  | unresolvedThis
  | unresolvedSuper
  | misplacedSuper
  | wrongKind
  | noScope (distance : Nat) (name : String)
  | unbound (distance : Nat) (name : String)
deriving DecidableEq, Repr

def Mismatch.message : Mismatch → String
  | unresolvedThis => "Unresolved 'this'."
  | unresolvedSuper => "Unresolved 'super'."
  | misplacedSuper => "Misplaced 'super' scope."
  | wrongKind => "'super' or 'this' bound to the wrong kind of value."
  | noScope distance name => s!"No environment at distance {distance} for '{name}'."
  | unbound distance name => s!"'{name}' is not bound at distance {distance}."

/-- The cause of a fault (`RuntimeFault`). -/
inductive FaultCause where
  /-- Arithmetic on something that is no number, shown by its text. -/
  | notNumber (text : String)
  /-- Addition of operands that are neither two numbers nor two strings. -/
  | notAddable
  | zeroDivision
  | undefinedVariable (name : String)
  | undefinedProperty (name : String)
  /-- A superclass of another type. -/
  | notSuperclass (typeName : String)
  | notCallable
  | noProperties
  | noFields
  /-- A function of the host was called without an argument. -/
  | noArguments
  | arity (expected got : Nat)
  | redefinition (name : String)
  | breakOutsideLoop
  | returnOutsideFunction
  | output (problem : SinkProblem)
  | mismatch (m : Mismatch)
deriving DecidableEq, Repr

/-- The message for the cause (`RuntimeFault`). -/
def FaultCause.message : FaultCause → String
  | notNumber text => "Could not perform cast of `" ++ text ++ "` to double"
  | notAddable => "Both operands of addition should be either numbers or strings."
  | zeroDivision => "Zero division is not allowed."
  | undefinedVariable name => s!"Undefined variable '{name}'."
  | undefinedProperty name => s!"Undefined property '{name}'."
  | notSuperclass typeName => s!"Superclass must be a class, got {typeName}."
  | notCallable => "Can only call functions and classes."
  | noProperties => "Only instances have properties."
  | noFields => "Only instances have fields."
  | noArguments => "no arguments"
  | arity expected got => s!"Expected {expected} arguments but got {got}."
  | redefinition name => s!"Variable '{name}' is already defined."
  | breakOutsideLoop => "'break' used outside of a loop."
  | returnOutsideFunction => "'return' used outside of a function."
  | output problem => "Failed to write output: " ++ problem.message
  | mismatch m => "Internal error: " ++ m.message

/-- A fault and where it arose. -/
abbrev Fault := Placed FaultCause

def Fault.text (f : Fault) : String := f.place.text ++ ": " ++ f.value.message

end LoxLang
