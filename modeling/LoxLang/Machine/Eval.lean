import LoxLang.Machine.Basic
import LoxLang.Machine.Operators

/-!
# Evaluation

`eval` gives the value of an expression, `exec` runs a statement. Both take fuel, which
bounds how deep evaluation nests and how often a loop runs; a step that has too little
ends in `Interrupt.exhausted`, and more fuel changes no other outcome.
-/

namespace LoxLang

namespace Run

/-! ## Names -/

/-- The value of a variable: at its depth, or among the globals (`Interpreter::lookup_variable`). -/
def readVariable (r : Reference) : Run Value :=
  match r.depth with
  | some d => check fun m => m.scopes.getAt m.current d r.name
  | none => check fun m => m.scopes.get m.globals r.name

/-- Gives a variable a value: at its depth, or among the globals. -/
def assignVariable (r : Reference) (v : Value) : Run Unit :=
  match r.depth with
  | some d => store (fun m => m.scopes.holderAt m.current d r.name) r.name.text v
  | none => store (fun m => m.scopes.holder m.globals r.name) r.name.text v

/-- Defines a name in the scope that statements run in. -/
def define (name : Name) (v : Value) : Run Unit :=
  store (fun m => m.scopes.definable m.current name) name.text v

/-- The object that `this` stands for (`Interpreter::lookup_pseudo`). -/
def readThis (depth : Option Nat) (place : Place) : Run Value :=
  match depth with
  | some d => check fun m => m.scopes.getAt m.current d ⟨"this", place⟩
  | none => fail place (.mismatch .unresolvedThis)

/-! ## Functions and classes -/

/-- A function made in the scope that statements run in (`Interpreter::closure_over`). -/
def makeFunction (name : String) (params : List Name) (body : List Stmt)
    (isInitializer : Bool) : Run Closure := do
  let identity ← newIdentity
  let m ← get
  return ⟨identity, name, params, body, m.current, isInitializer⟩

/-- What a function without a name goes by (`FunctionDecl::display_name`). -/
def lambdaName : String := "lambda"

/-- The method of an object: a function of its own, made in a scope that binds `this`
(`LoxFunction::bind`). -/
def bindMethod (f : Closure) (object : Value) : Run Closure := do
  let scope ← newScope f.scope
  bindIn scope "this" object
  let identity ← newIdentity
  return { f with identity, scope }

/-- The methods of a class declaration, made in the scope that statements run in. Of two
with one name the later one counts. -/
def makeMethods : List Function → Bindings Closure → Run (Bindings Closure)
  | [], table => return table
  | f :: fs, table => do
    let method ← makeFunction f.name.text f.params f.body (f.name.text == "init")
    makeMethods fs (table.insert f.name.text method)

/-- The class that a class declaration inherits from. -/
def readSuperclass (r : Reference) : Run Class := do
  match ← readVariable r with
  | .classValue c => return c
  | v => fail r.name.place (.notSuperclass v.typeName)

/-- Declares a class (`Interpreter::execute_class`). The methods of one with a superclass are made
in a scope that binds `super`. -/
def declareClass (name : Name) (superclass : Option Reference) (methods : List Function) :
    Run Unit := do
  let (superclass, table) ← match superclass with
    | none => pure (none, ← makeMethods methods [])
    | some r => do
      let c ← readSuperclass r
      let m ← get
      let scope ← newScope m.current
      bindIn scope "super" (.classValue c)
      pure (some c, ← within scope (makeMethods methods []))
  let identity ← newIdentity
  define name (.classValue (.mk identity name.text superclass table))

/-- The method `super.method`, of the object that `this` stands for one scope further in than
`super` (`Interpreter::evaluate_super`). -/
def readSuper (method : Name) (depth : Option Nat) (place : Place) : Run Value := do
  match depth with
  | none => fail place (.mismatch .unresolvedSuper)
  | some 0 => fail place (.mismatch .misplacedSuper)
  | some (d + 1) => do
    let superclass ← check fun m => m.scopes.getAt m.current (d + 1) ⟨"super", place⟩
    let object ← check fun m => m.scopes.getAt m.current d ⟨"this", place⟩
    match superclass, object with
    | .classValue c, .object _ _ =>
      match c.method? method.text with
      | some f => return .function (← bindMethod f object)
      | none => fail method.place (.undefinedProperty method.text)
    | _, _ => fail place (.mismatch .wrongKind)

/-! ## Properties -/

/-- A property of a value: a field of an object, or else a method of it (`LoxInstance::get`). -/
def readProperty (v : Value) (property : Name) : Run Value := do
  match v with
  | .object identity c => do
    let m ← get
    match (m.fieldsOf identity).find? property.text with
    | some field => return field
    | none =>
      match c.method? property.text with
      | some f => return .function (← bindMethod f v)
      | none => fail property.place (.undefinedProperty property.text)
  | _ => fail property.place .noProperties

/-! ## Calls -/

def bindParams (scope : ScopeId) : List Name → List Value → Run Unit
  | p :: ps, v :: vs => do
    bindIn scope p.text v
    bindParams scope ps vs
  | _, _ => return ()

/-- Runs the body of a function: a `return` gives its value, the end `nil`, and a `break`
that no loop has caught is a fault. -/
def catching (body : Run Unit) : Run Value := fun m =>
  match body m with
  | .ok _ m => .ok .nil m
  | .error (.returning v _) m => .ok v m
  | .error (.breaking place) m => .error (.fault ⟨place, .breakOutsideLoop⟩) m
  | .error i m => .error i m

/-- Calls a function: its body runs in a scope of its own that binds the parameters
(`LoxFunction::call`). An initializer gives its object whatever it returns. -/
def callClosure (exec : Stmt → Run Unit) (f : Closure) (arguments : List Value)
    (place : Place) : Run Value := do
  let scope ← newScope f.scope
  bindParams scope f.params arguments
  let v ← catching (within scope (f.body.forM exec))
  if f.isInitializer then check fun m => m.scopes.getAt f.scope 0 ⟨"this", place⟩
  else return v

/-- Makes an object and runs the nearest `init` for it (`LoxClass::call`). -/
def construct (exec : Stmt → Run Unit) (c : Class) (arguments : List Value)
    (place : Place) : Run Value := do
  let object ← newObject c
  match c.method? "init" with
  | none => return object
  | some f => do
    let init ← bindMethod f object
    discard (callClosure exec init arguments place)
    return object

/-- Calls a function of the host (`NativeFunction::call`). -/
def callNative (f : Native) (arguments : List Value) (place : Place) : Run Value :=
  match f with
  | .clock => readClock
  | .first _ =>
    match arguments with
    | v :: _ => return v
    | [] => fail place .noArguments

/-- Calls a value with as many arguments as it takes. -/
def call (exec : Stmt → Run Unit) (callee : Value) (arguments : List Value)
    (place : Place) : Run Value :=
  match callee.arity? with
  | none => fail place .notCallable
  | some expected =>
    if arguments.length != expected then fail place (.arity expected arguments.length)
    else
      match callee with
      | .native f => callNative f arguments place
      | .function f => callClosure exec f arguments place
      | .classValue c => construct exec c arguments place
      | _ => fail place .notCallable

/-- Passes on the result of an operator. -/
def lift {α : Type} (result : Except Fault α) : Run α := check fun _ => result

end Run

/-! ## Expressions and statements -/

open Run

mutual

/-- The value of an expression (`Interpreter::evaluate`). -/
def eval : Nat → Expr → Run Value
  | 0, _ => throw .exhausted
  | fuel + 1, e => do
    match e with
    | .literal value _ => return value.value
    | .group inner _ => eval fuel inner
    | .unary op operand _ => do
      let v ← eval fuel operand
      lift (op.apply ⟨operand.place, v⟩)
    | .binary op left right place => do
      let l ← eval fuel left
      if op.decidedBy l then return l
      let r ← eval fuel right
      lift (op.apply ⟨left.place, l⟩ ⟨right.place, r⟩ place)
    | .sequence items _ => do
      let values ← items.mapM (eval fuel)
      return values.getLastD .nil
    | .read target => readVariable target
    | .assign target value => do
      let v ← eval fuel value
      assignVariable target v
      return v
    | .call callee arguments place => do
      let f ← eval fuel callee
      let values ← arguments.mapM (eval fuel)
      call (exec fuel) f values place
    | .lambda params body _ => return .function (← makeFunction lambdaName params body false)
    | .get object property => do
      let v ← eval fuel object
      readProperty v property
    | .set object property value => do
      match ← eval fuel object with
      | .object identity _ => do
        let v ← eval fuel value
        setField identity property.text v
        return v
      | _ => fail property.place .noFields
    | .this depth place => readThis depth place
    | .super method depth place => readSuper method depth place

/-- Runs a statement (`Interpreter::execute`). -/
def exec : Nat → Stmt → Run Unit
  | 0, _ => throw .exhausted
  | fuel + 1, s => do
    match s with
    | .expression e => discard (eval fuel e)
    | .print e place => do
      let v ← eval fuel e
      print (v.text ++ "\n") place
    | .declare name none => define name .nil
    | .declare name (some initial) => do
      let v ← eval fuel initial
      define name v
    | .block body _ => do
      let m ← get
      let scope ← newScope m.current
      within scope (body.forM (exec fuel))
    | .branch test yes no _ => do
      let v ← eval fuel test
      if v.isTrue then exec fuel yes
      else match no with
        | some no => exec fuel no
        | none => return ()
    | .loop test body _ => loop fuel test body
    | .breakOut place => throw (.breaking place)
    | .function (.mk name params body) => do
      let f ← makeFunction name.text params body false
      define name (.function f)
    | .returnWith none place => throw (.returning .nil place)
    | .returnWith (some value) place => do
      let v ← eval fuel value
      throw (.returning v place)
    | .classDecl name superclass methods => declareClass name superclass methods

/-- Runs the body for as long as the test is true, up to a `break`. -/
def loop : Nat → Expr → Stmt → Run Unit
  | 0, _, _ => throw .exhausted
  | fuel + 1, test, body => fun m =>
    match eval fuel test m with
    | .error i m => .error i m
    | .ok v m =>
      if v.isTrue then
        match exec fuel body m with
        | .ok _ m => loop fuel test body m
        | .error (.breaking _) m => .ok () m
        | .error i m => .error i m
      else .ok () m

end

/-- Runs statements in order (`Interpreter::interpret`). -/
def execAll (fuel : Nat) (body : List Stmt) : Run Unit := body.forM (exec fuel)

end LoxLang
