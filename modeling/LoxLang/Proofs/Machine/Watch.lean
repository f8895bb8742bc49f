import LoxLang.Host
import LoxLang.Proofs.Tree.Regular
import LoxLang.Proofs.Scoping.Steps

/-!
# Watched runs

A watched run does what a run does and keeps a record beside the machine: which construct
opened each scope, where in its source each function was made, and every node that it
came to, with the walk as it stood there before the run. `Watching.erases_eval` and its
like say that watching changes nothing.
-/

namespace LoxLang

open Scoping

/-! ## Records -/

/-- What opens a scope. -/
inductive Construct where
  | block (body : List Stmt) (place : Place)
  | function (params : List Name) (body : List Stmt)
  /-- The scope of `this`, which the methods of the class share. -/
  | receiver (className : Name)
  /-- The scope of `super` around it. -/
  | inherited (className : Name)

/-- A construct in one of the sources. -/
structure Opener where
  source : Nat
  construct : Construct

/-- Where a node stands. -/
structure Site where
  source : Nat
  /-- The walk as it comes to the node. -/
  walk : Walk
  /-- What opened the scopes that are open there, the innermost first. -/
  openers : List Opener
  /-- The local variables inside whose initializers the node lies, each with the number of
  the scope that declares it, counted from outside. -/
  initializers : List (Nat × Name)

namespace Site

/-- The site after a step of the walk. -/
def after {α : Type} (σ : Site) (step : Resolving α) : Site := { σ with walk := (step σ.walk).2 }

/-- The same surroundings with the walk further on. -/
def moved (σ : Site) (walk : Walk) : Site := { σ with walk }

def awaiting (σ : Site) (name : Name) : Site :=
  { σ with
    walk := σ.walk.await name
    initializers := (σ.openers.length, name) :: σ.initializers }

/-- The site lies inside the initializer of a variable that has this name, declared so many
scopes out. -/
def Initializes (σ : Site) (distance : Nat) (x : String) : Prop :=
  ∃ name, (σ.openers.length - distance, name) ∈ σ.initializers ∧ name.text = x

def inside (σ : Site) (construct : Construct) (walk : Walk) : Site :=
  { σ with walk, openers := ⟨σ.source, construct⟩ :: σ.openers }

end Site

/-- Where a function was made, and as what the walk entered it. -/
structure Maker where
  site : Site
  kind : FunctionKind

/-- Where the body of the function starts. -/
def Maker.body (k : Maker) (params : List Name) (body : List Stmt) : Site :=
  k.site.inside (.function params body) (k.site.walk.body k.kind params)

/-- A point that a run comes to. -/
inductive Node where
  | expression (e : Expr)
  | statement (s : Stmt)
  /-- The superclass in the declaration of a class. -/
  | superclass (className : Name) (target : Reference)
  /-- An assignment whose value is known. -/
  | assignment (target : Reference)

/-- A point that a run came to, and the state of things there. -/
structure Visit where
  site : Site
  node : Node
  machine : Machine
  origins : ScopeId → Option Opener

/-- What watching remembers. -/
structure Record where
  /-- What opened each scope; nothing opened the global one. -/
  origins : ScopeId → Option Opener
  /-- Where each function was made, by identity. -/
  makers : Nat → Maker
  /-- The latest first. -/
  visits : List Visit

/-- A machine and the record beside it. -/
structure Watched where
  machine : Machine
  record : Record

/-- A step of a watched run. -/
abbrev Watching := EStateM Interrupt Watched

namespace Watching

variable {α β : Type}

/-- A step that the record does not notice. -/
def step (x : Run α) : Watching α := fun t =>
  match x t.machine with
  | .ok a m => .ok a { t with machine := m }
  | .error i m => .error i { t with machine := m }

def note (change : Machine → Record → Record) : Watching Unit := fun t =>
  .ok () { t with record := change t.machine t.record }

def visit (σ : Site) (node : Node) : Watching Unit :=
  note fun m r => { r with visits := ⟨σ, node, m, r.origins⟩ :: r.visits }

def opened (scope : ScopeId) (opener : Option Opener) : Watching Unit :=
  note fun _ r => { r with origins := fun id => if id = scope then opener else r.origins id }

def made (identity : Nat) (maker : Maker) : Watching Unit :=
  note fun _ r => { r with makers := fun i => if i = identity then maker else r.makers i }

/-- Where a function was made. -/
def makerOf (f : Closure) : Watching Maker := fun t => .ok (t.record.makers f.identity) t

/-- Runs in another scope; the machine is back in its own one however that ends. -/
def within (scope : ScopeId) (x : Watching α) : Watching α := fun t =>
  let outer := t.machine.current
  match x { t with machine := { t.machine with current := scope } } with
  | .ok a t => .ok a { t with machine := { t.machine with current := outer } }
  | .error i t => .error i { t with machine := { t.machine with current := outer } }

/-- Runs the body of a function. -/
def catching (body : Watching Unit) : Watching Value := fun t =>
  match body t with
  | .ok _ t => .ok .nil t
  | .error (.returning v _) t => .ok v t
  | .error (.breaking place) t => .error (.fault ⟨place, .breakOutsideLoop⟩) t
  | .error i t => .error i t

/-- Runs statements in order, each where the walk comes to it. -/
def forEach (exec : Site → Stmt → Watching Unit) : Site → List Stmt → Watching Unit
  | _, [] => return ()
  | σ, s :: ss => do
    exec σ s
    forEach exec (σ.after s.resolve) ss

/-- The values of expressions, each where the walk comes to it. -/
def forValues (eval : Site → Expr → Watching Value) : Site → List Expr → Watching (List Value)
  | _, [] => return []
  | σ, e :: es => do
    let v ← eval σ e
    let vs ← forValues eval (σ.after e.resolve) es
    return v :: vs

/-! ## Functions and classes -/

def makeFunction (σ : Site) (kind : FunctionKind) (name : String) (params : List Name)
    (body : List Stmt) (isInitializer : Bool) : Watching Closure := do
  let f ← step (Run.makeFunction name params body isInitializer)
  made f.identity ⟨σ, kind⟩
  return f

/-- The method of an object, which was made where the method was. -/
def bindMethod (f : Closure) (object : Value) : Watching Closure := do
  let maker ← makerOf f
  let g ← step (Run.bindMethod f object)
  opened g.scope maker.site.openers.head?
  made g.identity maker
  return g

def makeMethods : Site → List Function → Bindings Closure → Watching (Bindings Closure)
  | _, [], table => return table
  | σ, f :: fs, table => do
    let method ← makeFunction σ f.methodKind f.name.text f.params f.body (f.name.text == "init")
    makeMethods (σ.after (f.resolve f.methodKind)) fs (table.insert f.name.text method)

def declareClass (σ : Site) (name : Name) (superclass : Option Reference)
    (methods : List Function) : Watching Unit := do
  let (superclass, table) ← match superclass with
    | none =>
      let inner := σ.inside (.receiver name) ((σ.walk.enter .plain name).this name.place)
      pure (none, ← makeMethods inner methods [])
    | some r => do
      visit (σ.moved ((σ.walk.enter .derived name).inherit name r)) (.superclass name r)
      let c ← step (Run.readSuperclass r)
      let m ← step get
      let scope ← step (Run.newScope m.current)
      opened scope (some ⟨σ.source, .inherited name⟩)
      step (Run.bindIn scope "super" (.classValue c))
      let inner := (σ.inside (.inherited name) σ.walk).inside (.receiver name)
        (σ.walk.derive name r)
      pure (some c, ← within scope (makeMethods inner methods []))
  let identity ← step Run.newIdentity
  step (Run.define name (.classValue (.mk identity name.text superclass table)))

/-- The method `super.method`. -/
def readSuper (method : Name) (depth : Option Nat) (place : Place) : Watching Value := do
  match depth with
  | none => step (Run.fail place (.mismatch .unresolvedSuper))
  | some 0 => step (Run.fail place (.mismatch .misplacedSuper))
  | some (d + 1) => do
    let superclass ← step (Run.check fun m => m.scopes.getAt m.current (d + 1) ⟨"super", place⟩)
    let object ← step (Run.check fun m => m.scopes.getAt m.current d ⟨"this", place⟩)
    match superclass, object with
    | .classValue c, .object _ _ =>
      match c.method? method.text with
      | some f => return .function (← bindMethod f object)
      | none => step (Run.fail method.place (.undefinedProperty method.text))
    | _, _ => step (Run.fail place (.mismatch .wrongKind))

def readProperty (v : Value) (property : Name) : Watching Value := do
  match v with
  | .object identity c => do
    let m ← step get
    match (m.fieldsOf identity).find? property.text with
    | some field => return field
    | none =>
      match c.method? property.text with
      | some f => return .function (← bindMethod f v)
      | none => step (Run.fail property.place (.undefinedProperty property.text))
  | _ => step (Run.fail property.place .noProperties)

/-! ## Calls -/

/-- Calls a function: its body starts where it was made. -/
def callClosure (exec : Site → Stmt → Watching Unit) (f : Closure) (arguments : List Value)
    (place : Place) : Watching Value := do
  let maker ← makerOf f
  let inner := maker.body f.params f.body
  let scope ← step (Run.newScope f.scope)
  opened scope inner.openers.head?
  step (Run.bindParams scope f.params arguments)
  let v ← catching (within scope (forEach exec inner f.body))
  if f.isInitializer then step (Run.check fun m => m.scopes.getAt f.scope 0 ⟨"this", place⟩)
  else return v

/-- Makes an object and runs the nearest `init` for it. -/
def construct (exec : Site → Stmt → Watching Unit) (c : Class) (arguments : List Value)
    (place : Place) : Watching Value := do
  let object ← step (Run.newObject c)
  match c.method? "init" with
  | none => return object
  | some f => do
    let init ← bindMethod f object
    discard (callClosure exec init arguments place)
    return object

def call (exec : Site → Stmt → Watching Unit) (callee : Value) (arguments : List Value)
    (place : Place) : Watching Value :=
  match callee.arity? with
  | none => step (Run.fail place .notCallable)
  | some expected =>
    if arguments.length != expected then
      step (Run.fail place (.arity expected arguments.length))
    else
      match callee with
      | .native f => step (Run.callNative f arguments place)
      | .function f => callClosure exec f arguments place
      | .classValue c => construct exec c arguments place
      | _ => step (Run.fail place .notCallable)

/-! ## Expressions and statements -/

mutual

def eval : Nat → Site → Expr → Watching Value
  | 0, _, _ => throw .exhausted
  | fuel + 1, σ, e => do
    visit σ (.expression e)
    match e with
    | .literal value _ => return value.value
    | .group inner _ => eval fuel σ inner
    | .unary op operand _ => do
      let v ← eval fuel σ operand
      step (Run.lift (op.apply ⟨operand.place, v⟩))
    | .binary op left right place => do
      let l ← eval fuel σ left
      if op.decidedBy l then return l
      let r ← eval fuel (σ.after left.resolve) right
      step (Run.lift (op.apply ⟨left.place, l⟩ ⟨right.place, r⟩ place))
    | .sequence items _ => do
      let values ← forValues (eval fuel) σ items
      return values.getLastD .nil
    | .read target => step (Run.readVariable target)
    | .assign target value => do
      let v ← eval fuel σ value
      visit (σ.after value.resolve) (.assignment target)
      step (Run.assignVariable target v)
      return v
    | .call callee arguments place => do
      let f ← eval fuel σ callee
      let values ← forValues (eval fuel) (σ.after callee.resolve) arguments
      call (exec fuel) f values place
    | .lambda params body _ =>
      return .function (← makeFunction σ .function Run.lambdaName params body false)
    | .get object property => do
      let v ← eval fuel σ object
      readProperty v property
    | .set object property value => do
      match ← eval fuel σ object with
      | .object identity _ => do
        let v ← eval fuel (σ.after object.resolve) value
        step (Run.setField identity property.text v)
        return v
      | _ => step (Run.fail property.place .noFields)
    | .this depth place => step (Run.readThis depth place)
    | .super method depth place => readSuper method depth place

def exec : Nat → Site → Stmt → Watching Unit
  | 0, _, _ => throw .exhausted
  | fuel + 1, σ, s => do
    visit σ (.statement s)
    match s with
    | .expression e => discard (eval fuel σ e)
    | .print e place => do
      let v ← eval fuel σ e
      step (Run.print (v.text ++ "\n") place)
    | .declare name none => step (Run.define name .nil)
    | .declare name (some initial) => do
      let v ← eval fuel (σ.awaiting name) initial
      step (Run.define name v)
    | .block body place => do
      let m ← step get
      let scope ← step (Run.newScope m.current)
      opened scope (some ⟨σ.source, .block body place⟩)
      within scope (forEach (exec fuel) (σ.inside (.block body place) (openScope σ.walk).2) body)
    | .branch test yes no _ => do
      let v ← eval fuel σ test
      if v.isTrue then exec fuel (σ.after test.resolve) yes
      else match no with
        | some no => exec fuel ((σ.after test.resolve).after yes.resolve) no
        | none => return ()
    | .loop test body _ => loop fuel σ test body
    | .breakOut place => throw (.breaking place)
    | .function (.mk name params body) => do
      let f ← makeFunction (σ.moved ((σ.walk.await name).bind name)) .function name.text params
        body false
      step (Run.define name (.function f))
    | .returnWith none place => throw (.returning .nil place)
    | .returnWith (some value) place => do
      let v ← eval fuel (σ.moved (σ.walk.returningValue place)) value
      throw (.returning v place)
    | .classDecl name superclass methods => declareClass σ name superclass methods

/-- Runs the body for as long as the test is true, up to a `break`. -/
def loop : Nat → Site → Expr → Stmt → Watching Unit
  | 0, _, _, _ => throw .exhausted
  | fuel + 1, σ, test, body => fun t =>
    match eval fuel σ test t with
    | .error i t => .error i t
    | .ok v t =>
      if v.isTrue then
        match exec fuel (σ.after test.resolve) body t with
        | .ok _ t => loop fuel σ test body t
        | .error (.breaking _) t => .ok () t
        | .error i t => .error i t
      else .ok () t

end

end Watching

end LoxLang
