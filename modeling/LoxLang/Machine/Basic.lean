import LoxLang.Machine.Scopes
import LoxLang.Machine.Sink
import LoxLang.Value.Text

/-!
# Machines

A machine is the state of a run: its scopes, the fields of its objects, what it printed.
`Run` is a step of a run, which gives a value or is interrupted; the state lives on
either way.
-/

namespace LoxLang

/-- What a clock shows from now on, one reading after another: the milliseconds since the start
of 1970. -/
def Clock := Nat → Nat

namespace Clock

/-- What the clock shows now. -/
def now (c : Clock) : Nat := c 0

/-- The clock once it has been read. -/
def later (c : Clock) : Clock := fun n => c (n + 1)

/-- A clock that gains a millisecond with each reading. -/
def ticking (time : Nat) : Clock := fun n => time + n

end Clock

/-- The state of a run (`Interpreter`). -/
structure Machine where
  scopes : Scopes
  /-- The fields of each object, by identity. -/
  objects : Array (Bindings Value)
  /-- The identity of the next function or class. -/
  fresh : Nat
  globals : ScopeId
  /-- The scope that statements run in. -/
  current : ScopeId
  sink : Sink
  clock : Clock

/-- What keeps a step from giving a value (`InterpretError`). -/
inductive Interrupt where
  | fault (f : Fault)
  | breaking (place : Place)
  | returning (value : Value) (place : Place)
  /-- The step was given too little fuel to finish. -/
  | exhausted

namespace Interrupt

/-- The fault that an interrupt is if nothing catches it; running out of fuel is none
(`InterpretError::into_fault`). -/
def fault? : Interrupt → Option Fault
  | fault f => some f
  | breaking place => some ⟨place, .breakOutsideLoop⟩
  | returning _ place => some ⟨place, .returnOutsideFunction⟩
  | exhausted => none

def text : Interrupt → String
  | fault f => Fault.text f
  | breaking place => place.text ++ ": break signal"
  | returning value place => place.text ++ ": return signal with value: " ++ value.text
  | exhausted => "out of fuel"

end Interrupt

/-- A step of a run. -/
abbrev Run := EStateM Interrupt Machine

namespace Machine

/-- Binds the functions of the host in the global scope (`define_natives`). -/
def withNatives (m : Machine) : Machine :=
  { m with scopes := m.scopes.insert m.globals "clock" (.native .clock) }

/-- A machine that has run nothing (`Interpreter::with_output`). -/
def start (allowRedefinition : Bool) (sink : Sink) (clock : Clock) : Machine :=
  withNatives ⟨Scopes.root allowRedefinition, #[], 0, 0, 0, sink, clock⟩

/-- Sets the rule on redefinition for global names (`Interpreter::set_allow_redefinition`). -/
def setAllowRedefinition (m : Machine) (allow : Bool) : Machine :=
  { m with scopes := m.scopes.setAllowRedefinition m.globals allow }

/-- Forgets all global names but those of the host (`Interpreter::clear_globals`). -/
def clearGlobals (m : Machine) : Machine :=
  withNatives { m with scopes := m.scopes.clear m.globals, current := m.globals }

def fieldsOf (m : Machine) (object : Nat) : Bindings Value := m.objects[object]?.getD []

/-- The fields of a value; only objects have any. -/
def fields (m : Machine) : Value → Bindings Value
  | .object identity _ => m.fieldsOf identity
  | _ => []

end Machine

namespace Run

variable {α : Type}

def fail (place : Place) (cause : FaultCause) : Run α := throw (.fault ⟨place, cause⟩)

/-- A step that only looks at the machine and may fail. -/
def check (look : Machine → Except Fault α) : Run α := fun m =>
  match look m with
  | .ok a => .ok a m
  | .error f => .error (.fault f) m

/-- Gives a name a value in the scope that `choose` finds for it; without one nothing
changes. -/
def store (choose : Machine → Except Fault ScopeId) (name : String) (v : Value) :
    Run Unit := fun m =>
  match choose m with
  | .ok id => .ok () { m with scopes := m.scopes.insert id name v }
  | .error f => .error (.fault f) m

/-- An identity that nothing has yet. -/
def newIdentity : Run Nat := fun m => .ok m.fresh { m with fresh := m.fresh + 1 }

/-- A new object without fields (`LoxInstance`). -/
def newObject (c : Class) : Run Value := fun m =>
  let identity := m.objects.size
  .ok (.object identity c) { m with objects := m.objects.push [] }

def newScope (parent : ScopeId) : Run ScopeId := fun m =>
  let (scopes, id) := m.scopes.child parent
  .ok id { m with scopes }

/-- Binds a name in a scope, whatever it was bound to. -/
def bindIn (scope : ScopeId) (name : String) (v : Value) : Run Unit := fun m =>
  .ok () { m with scopes := m.scopes.insert scope name v }

/-- Runs in another scope; the machine is back in its own one however that ends
(`Interpreter::execute_block`). -/
def within (scope : ScopeId) (step : Run α) : Run α := fun m =>
  let outer := m.current
  match step { m with current := scope } with
  | .ok a m => .ok a { m with current := outer }
  | .error i m => .error i { m with current := outer }

/-- Gives a field of an object a value (`LoxInstance::set`). -/
def setField (object : Nat) (name : String) (v : Value) : Run Unit := fun m =>
  .ok () { m with objects := m.objects.modify object (·.insert name v) }

def print (text : String) (place : Place) : Run Unit := fun m =>
  let (sink, problem) := m.sink.put text
  match problem with
  | none => .ok () { m with sink }
  | some problem => .error (.fault ⟨place, .output problem⟩) { m with sink }

/-- Reads the clock, in seconds (`clock`). -/
def readClock : Run Value := fun m =>
  .ok (.number (Float.ofNat m.clock.now / 1000)) { m with clock := m.clock.later }

end Run

end LoxLang
