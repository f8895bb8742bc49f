import LoxLang.Bindings
import LoxLang.Place

/-!
# Scopes before a run

The state of a walk over a program that has not run yet: the scopes that are open where
the walk stands, what is known of each local name, the kind of function and class around,
and what the walk has to report.
-/

namespace LoxLang

/-- What a walk over a program complains of. -/
inductive ScopeProblem where
  | ownInitializer
  | declaredInScope
  | declaredAt (name : String) (first : Place)
  | returnOutside
  | valueFromInitializer
  | thisOutside
  | superOutside
  | superWithoutSuperclass
  | ownSuperclass
deriving Repr, DecidableEq

def ScopeProblem.message : ScopeProblem → String
  | ownInitializer => "Cannot read local variable in its own initializer."
  | declaredInScope => "Variable with this name already declared in this scope."
  | declaredAt name first => s!"Variable '{name}' is already declared at {first.text}."
  | returnOutside => "Cannot return from top-level code."
  | valueFromInitializer => "Cannot return a value from an initializer."
  | thisOutside => "Cannot use 'this' outside of a class."
  | superOutside => "Cannot use 'super' outside of a class."
  | superWithoutSuperclass => "Cannot use 'super' in a class with no superclass."
  | ownSuperclass => "A class cannot inherit from itself."

namespace Scoping

/-- What the walk knows of a local name (`VarState`). -/
structure Local where
  place : Place
  /-- The initializer, if there is one, has been passed. -/
  defined : Bool
  read : Bool
  /-- The name is reported if nothing reads it. -/
  tracked : Bool
deriving Repr, DecidableEq

/-- The innermost function around (`FunctionType`). -/
inductive FunctionKind where
  | outside
  | function
  | method
  | initializer
deriving Repr, DecidableEq

/-- The innermost class around (`ClassType`). -/
inductive ClassKind where
  | outside
  | plain
  | derived
deriving Repr, DecidableEq

/-- The state of the walk (`Resolver`). -/
structure Walk where
  /-- The open scopes, the innermost first. -/
  scopes : List (Bindings Local)
  /-- The global names declared so far, unless they may be declared again. -/
  globals : Bindings Place
  /-- Global names may be declared again. -/
  allowRedefinition : Bool
  function : FunctionKind
  classKind : ClassKind
  problems : Array (Placed ScopeProblem)
  /-- The local names that nothing reads. -/
  unread : Array Name
deriving Repr

/-- The state before a program (`Resolver::new`). -/
def Walk.start (allowRedefinition : Bool) : Walk :=
  ⟨[], [], allowRedefinition, .outside, .outside, #[], #[]⟩

/-- A step of the walk. -/
abbrev Resolving := StateM Walk

/-- Reports a problem (`Resolver::error`). -/
def report (place : Place) (problem : ScopeProblem) : Resolving Unit :=
  modify fun w => { w with problems := w.problems.push ⟨place, problem⟩ }

/-! ## Scopes -/

/-- Opens a scope (`Resolver::begin_scope`). -/
def openScope : Resolving Unit :=
  modify fun w => { w with scopes := [] :: w.scopes }

/-- The tracked names of a scope that nothing reads, in source order. -/
def unreadNames (scope : Bindings Local) : List Name :=
  let unread := scope.filter fun (_, l) => l.tracked && !l.read
  (unread.map fun (n, l) => Name.mk n l.place).mergeSort fun a b => a.place.le b.place

/-- Closes the innermost scope (`Resolver::end_scope`). -/
def closeScope : Resolving Unit := modify fun w =>
  match w.scopes with
  | [] => w
  | scope :: scopes => { w with scopes, unread := w.unread ++ (unreadNames scope).toArray }

def inScope {α : Type} (walk : Resolving α) : Resolving α := do
  openScope
  let a ← walk
  closeScope
  return a

/-- Changes what is known of a name of the innermost scope. -/
def changeLocal (name : String) (f : Local → Local) : Resolving Unit := modify fun w =>
  match w.scopes with
  | [] => w
  | scope :: scopes => { w with scopes := scope.change name f :: scopes }

/-! ## Declarations -/

/-- Declares a global name: a second time only if redefinition is allowed
(`Resolver::declare_global`). -/
def declareGlobal (name : Name) : Resolving Unit := do
  let w ← get
  if w.allowRedefinition then return
  match w.globals.find? name.text with
  | some first => report name.place (.declaredAt name.text first)
  | none => set { w with globals := w.globals.insert name.text name.place }

/-- Declares a name in the innermost scope, where it is not defined yet (`Resolver::declare`). -/
def declare (name : Name) : Resolving Unit := do
  let w ← get
  match w.scopes with
  | [] => declareGlobal name
  | scope :: scopes =>
    if scope.has name.text then report name.place .declaredInScope
    else
      let entry : Local := ⟨name.place, false, false, true⟩
      set { w with scopes := scope.insert name.text entry :: scopes }

/-- The name has its value from here on (`Resolver::define`). -/
def define (name : Name) : Resolving Unit :=
  changeLocal name.text fun l => { l with defined := true }

/-- Declares a parameter, which nothing has to read (`Resolver::resolve_function`). -/
def declareParam (name : Name) : Resolving Unit := do
  declare name
  define name
  changeLocal name.text fun l => { l with tracked := false }

/-- Declares a name of the language itself, which nothing has to read (`Resolver::declare_builtin`).
-/
def declareBuiltin (name : String) (place : Place) : Resolving Unit := modify fun w =>
  match w.scopes with
  | [] => w
  | scope :: scopes =>
    { w with scopes := scope.insert name ⟨place, true, true, false⟩ :: scopes }

/-! ## Uses -/

/-- How many scopes out from the innermost one a name is declared. -/
def distance? (scopes : List (Bindings Local)) (name : String) : Option Nat :=
  scopes.findIdx? (·.has name)

/-- The depth of a use of a name; a reading use is remembered (`Resolver::resolve_local`). -/
def use (name : String) (reads : Bool) : Resolving (Option Nat) := do
  let w ← get
  match distance? w.scopes name with
  | none => return none
  | some d =>
    if reads then
      let mark (scope : Bindings Local) := scope.change name fun l => { l with read := true }
      set { w with scopes := w.scopes.modify d mark }
    return some d

/-- Is the name declared in the innermost scope and not defined yet? -/
def awaitsValue (name : String) : Resolving Bool := do
  match (← get).scopes with
  | [] => return false
  | scope :: _ => return (scope.find? name).any (!·.defined)

/-! ## Surroundings -/

def inFunction {α : Type} (kind : FunctionKind) (walk : Resolving α) : Resolving α := do
  let outer := (← get).function
  modify fun w => { w with function := kind }
  let a ← walk
  modify fun w => { w with function := outer }
  return a

/-- Says what class the walk is in. -/
def enterClass (kind : ClassKind) : Resolving Unit :=
  modify fun w => { w with classKind := kind }

end Scoping

end LoxLang
