import LoxLang.Scoping.Basic
import LoxLang.Tree.Basic

/-!
# The lexical reading of a program

What a name means can be read off the text around it. A `Context` is what stands around a node:
the scopes that it lies in, each with the names declared ahead of the node. A tree in a context
has `Event`s, in source order: the points that scoping has something to say about, each with the
context that it stands in, and the ends of scopes. Nothing here changes a state; what a program
does wrong (`Context.violation?`), where a use leads (`Context.distance?`) and what nothing reads
(`Closing.unused`) is said of contexts and events.
-/

namespace LoxLang

open Scoping

namespace Lexical

/-! ## Scopes -/

/-- What brings a name into a scope. -/
inductive Declarer where
  | varWord
  | funWord
  | classWord
  | parameter
  /-- The language binds `this` and `super` itself. -/
  | language
deriving DecidableEq, Repr

/-- A name that comes into a scope. -/
structure Declaration where
  name : Name
  declarer : Declarer
deriving DecidableEq, Repr

/-- Is somebody to read the name? -/
def Declaration.isTracked (d : Declaration) : Bool :=
  match d.declarer with
  | .varWord | .funWord | .classWord => true
  | .parameter | .language => false

/-- The first declaration of each name. -/
def firsts : List Declaration → List Declaration
  | [] => []
  | d :: ds => d :: (firsts ds).filter (·.name.text != d.name.text)

/-- A scope as it is seen from a point in it. -/
structure Frame where
  /-- What is declared ahead of the point, in source order. -/
  declared : List Declaration
  /-- The variable whose initializer the point lies in, if that is its first declaration. -/
  awaiting : Option String
  awaiting_declared : ∀ x ∈ awaiting, declared.any (·.name.text == x) := by simp

namespace Frame

def has (f : Frame) (x : String) : Bool := f.declared.any (·.name.text == x)

/-- The scope in the initializer of a variable, which is declared already. -/
def await (f : Frame) (d : Declaration) : Frame where
  declared := f.declared ++ [d]
  awaiting := if f.has d.name.text then none else some d.name.text
  awaiting_declared x hx := by
    split at hx
    · cases hx
    · obtain rfl := Option.some.inj hx
      simp

/-- The scope behind declarations, where no variable awaits its value. -/
def of (ds : List Declaration) : Frame where
  declared := ds
  awaiting := none

/-- The scope behind one more declaration. -/
def declare (f : Frame) (d : Declaration) : Frame := .of (f.declared ++ [d])

/-- The scope of a name that the language binds. -/
def builtin (x : String) (place : Place) : Frame := .of [⟨⟨x, place⟩, .language⟩]

end Frame

/-! ## Contexts -/

/-- What stands around a point. -/
inductive Context where
  /-- Nothing but the program, with what it has declared so far. -/
  | outermost (declared : List Declaration)
  /-- A block; or a function with its parameters, if a kind is given. -/
  | scope (function : Option FunctionKind) (frame : Frame) (outer : Context)
  /-- A class, with a superclass or without. -/
  | members (derived : Bool) (place : Place) (outer : Context)

namespace Context

/-- The scopes around the point, the innermost first. A class has one for `this`, and around
it one for `super` if it has a superclass. -/
def frames : Context → List Frame
  | outermost _ => []
  | scope _ frame outer => frame :: outer.frames
  | members false place outer => .builtin "this" place :: outer.frames
  | members true place outer => .builtin "this" place :: .builtin "super" place :: outer.frames

def level (c : Context) : Nat := c.frames.length

/-- What the program has declared outside of all scopes. -/
def globals : Context → List Declaration
  | outermost declared => declared
  | scope _ _ outer | members _ _ outer => outer.globals

def function : Context → FunctionKind
  | outermost _ => .outside
  | scope (some kind) _ _ => kind
  | scope none _ outer | members _ _ outer => outer.function

/-- How far out the scope of `this` of the innermost class is, and whether that class has a
superclass. -/
def class? : Context → Option (Nat × Bool)
  | outermost _ => none
  | scope _ _ outer => outer.class?.map fun (d, derived) => (d + 1, derived)
  | members derived _ _ => some (0, derived)

/-- The innermost class around the point. -/
def classKind (c : Context) : ClassKind :=
  match c.class? with
  | none => .outside
  | some (_, false) => .plain
  | some (_, true) => .derived

/-- The scope nearest to the point in which the name is declared: so many scopes out. -/
def distance? (c : Context) (x : String) : Option Nat := c.frames.findIdx? (·.has x)

/-- That scope, told by how many scopes are around it, and the name. -/
def target? (c : Context) (x : String) : Option (Nat × String) :=
  (c.distance? x).map fun d => (c.level - 1 - d, x)

/-- The context behind a declaration. Right inside a class there are methods alone. -/
def declare (c : Context) (d : Declaration) : Context :=
  match c with
  | outermost declared => outermost (declared ++ [d])
  | scope kind frame outer => scope kind (frame.declare d) outer
  | members derived place outer => members derived place outer

/-- The context in the initializer of a variable. -/
def await (c : Context) (d : Declaration) : Context :=
  match c with
  | outermost declared => outermost (declared ++ [d])
  | scope kind frame outer => scope kind (frame.await d) outer
  | members derived place outer => members derived place outer

/-- The context at the start of a block or function. -/
def inside (c : Context) (kind : Option FunctionKind) : Context := scope kind (.of []) c

end Context

/-! ## Points -/

/-- What scoping has something to say about. -/
inductive Point where
  | declaration (d : Declaration)
  | read (r : Reference)
  | assignment (r : Reference)
  | this (depth : Option Nat) (place : Place)
  | super (depth : Option Nat) (place : Place)
  /-- A `return`, with a value or without. -/
  | exit (valued : Bool) (place : Place)
  /-- A class and the name of its superclass. -/
  | inheritance (name parent : Name)

/-- What is wrong with a point in the context. Global names may be declared again if
`allow` says so. -/
def Context.violation? (allow : Bool) (c : Context) : Point → Option (Placed ScopeProblem)
  | .declaration d =>
    match c with
    | outermost declared =>
      if allow then none
      else (declared.find? (·.name.text == d.name.text)).map fun first =>
        ⟨d.name.place, .declaredAt d.name.text first.name.place⟩
    | scope _ frame _ =>
      if frame.has d.name.text then some ⟨d.name.place, .declaredInScope⟩ else none
    | members _ _ _ => none
  | .read r =>
    match c with
    | scope _ frame _ =>
      if frame.awaiting = some r.name.text then some ⟨r.name.place, .ownInitializer⟩ else none
    | outermost _ | members _ _ _ => none
  | .assignment _ => none
  | .this _ place =>
    match c.class? with
    | none => some ⟨place, .thisOutside⟩
    | some _ => none
  | .super _ place =>
    match c.class? with
    | none => some ⟨place, .superOutside⟩
    | some (_, false) => some ⟨place, .superWithoutSuperclass⟩
    | some (_, true) => none
  | .exit valued place =>
    match c.function, valued with
    | .outside, _ => some ⟨place, .returnOutside⟩
    | .initializer, true => some ⟨place, .valueFromInitializer⟩
    | _, _ => none
  | .inheritance name parent =>
    if parent.text = name.text then some ⟨parent.place, .ownSuperclass⟩ else none

/-! ## Events -/

/-- The names that the points read, with the scopes that they read them from. -/
def reads (ps : List (Context × Point)) : List (Nat × String) :=
  ps.filterMap fun (c, p) => match p with
    | .read r => c.target? r.name.text
    | _ => none

/-- The end of a scope. -/
structure Closing where
  /-- So many scopes are around it. -/
  level : Nat
  /-- All that is declared in the scope. -/
  declared : List Declaration
  /-- The points that lie in it. -/
  inside : List (Context × Point)

/-- The names of the scope that a variable, function or class was the first to have and that no
variable inside reads. -/
def Closing.unused (k : Closing) : List Name :=
  ((firsts k.declared).filter fun d =>
    d.isTracked && !(reads k.inside).contains (k.level, d.name.text)).map Declaration.name

/-- What one comes to in a program. -/
inductive Event where
  | point (c : Context) (p : Point)
  | closing (k : Closing)

def points (es : List Event) : List (Context × Point) :=
  es.filterMap fun
    | .point c p => some (c, p)
    | .closing _ => none

/-- The scopes that end, the inner ones before the outer ones. -/
def closings (es : List Event) : List Closing :=
  es.filterMap fun
    | .point _ _ => none
    | .closing k => some k

/-- The events in a scope, and then its end. -/
def enclosed (level : Nat) (declared : List Declaration) (es : List Event) : List Event :=
  es ++ [.closing ⟨level, declared, points es⟩]

def declarations (c : Context) : List Declaration → List Event
  | [] => []
  | d :: ds => .point c (.declaration d) :: declarations (c.declare d) ds

def parameters (ns : List Name) : List Declaration := ns.map (⟨·, .parameter⟩)

end Lexical

open Lexical

/-- What a statement declares in the scope that it stands in. -/
def Stmt.declaration? : Stmt → Option Declaration
  | .declare name _ => some ⟨name, .varWord⟩
  | .function f => some ⟨f.name, .funWord⟩
  | .classDecl name _ _ => some ⟨name, .classWord⟩
  | _ => none

/-- The context behind a statement. -/
def Lexical.Context.past (c : Context) (s : Stmt) : Context :=
  match s.declaration? with
  | none => c
  | some d => c.declare d

mutual

def Expr.events (c : Context) : Expr → List Event
  | .literal _ _ => []
  | .group e _ | .unary _ e _ | .get e _ => e.events c
  | .binary _ left right _ | .set left _ right => left.events c ++ right.events c
  | .sequence items _ => Expr.allEvents c items
  | .read r => [.point c (.read r)]
  | .assign r e => e.events c ++ [.point c (.assignment r)]
  | .call callee arguments _ => callee.events c ++ Expr.allEvents c arguments
  | .lambda params body _ =>
    enclosed c.level (parameters params ++ body.filterMap Stmt.declaration?)
      (declarations (c.inside (some .function)) (parameters params) ++
        Stmt.allEvents ((parameters params).foldl Context.declare (c.inside (some .function))) body)
  | .this depth place => [.point c (.this depth place)]
  | .super _ depth place => [.point c (.super depth place)]

def Expr.allEvents (c : Context) : List Expr → List Event
  | [] => []
  | e :: es => e.events c ++ Expr.allEvents c es

/-- The events in a statement. A variable is declared ahead of its initializer, a function or
class ahead of its body. -/
def Stmt.events (c : Context) : Stmt → List Event
  | .expression e | .print e _ => e.events c
  | .declare name none => [.point c (.declaration ⟨name, .varWord⟩)]
  | .declare name (some e) =>
    .point c (.declaration ⟨name, .varWord⟩) :: e.events (c.await ⟨name, .varWord⟩)
  | .block body _ =>
    enclosed c.level (body.filterMap Stmt.declaration?) (Stmt.allEvents (c.inside none) body)
  | .branch test yes none _ => test.events c ++ yes.events c
  | .branch test yes (some no) _ => test.events c ++ yes.events c ++ no.events c
  | .loop test body _ => test.events c ++ body.events c
  | .breakOut _ => []
  | .function f =>
    .point c (.declaration ⟨f.name, .funWord⟩) ::
      f.events .function (c.declare ⟨f.name, .funWord⟩)
  | .returnWith none place => [.point c (.exit false place)]
  | .returnWith (some e) place => .point c (.exit true place) :: e.events c
  | .classDecl name none methods =>
    let c' := c.declare ⟨name, .classWord⟩
    .point c (.declaration ⟨name, .classWord⟩) ::
      enclosed c'.level (Frame.builtin "this" name.place).declared
        (Function.allEvents (.members false name.place c') methods)
  | .classDecl name (some superclass) methods =>
    let c' := c.declare ⟨name, .classWord⟩
    .point c (.declaration ⟨name, .classWord⟩) ::
      .point c' (.inheritance name superclass.name) :: .point c' (.read superclass) ::
      enclosed c'.level (Frame.builtin "super" name.place).declared
        (enclosed (c'.level + 1) (Frame.builtin "this" name.place).declared
          (Function.allEvents (.members true name.place c') methods))

def Stmt.allEvents (c : Context) : List Stmt → List Event
  | [] => []
  | s :: ss => s.events c ++ Stmt.allEvents (c.past s) ss

/-- The events in a function: its parameters and statements share one scope. -/
def Function.events (kind : FunctionKind) (c : Context) : Function → List Event
  | .mk _ params body =>
    enclosed c.level (parameters params ++ body.filterMap Stmt.declaration?)
      (declarations (c.inside (some kind)) (parameters params) ++
        Stmt.allEvents ((parameters params).foldl Context.declare (c.inside (some kind))) body)

def Function.allEvents (c : Context) : List Function → List Event
  | [] => []
  | f :: fs => f.events (if f.name.text = "init" then .initializer else .method) c ++
      Function.allEvents c fs

end

def Stmt.points (ss : List Stmt) : List (Context × Point) :=
  Lexical.points (Stmt.allEvents (.outermost []) ss)

/-- The scopes of a program, in the order in which they end. -/
def Stmt.closings (ss : List Stmt) : List Closing :=
  Lexical.closings (Stmt.allEvents (.outermost []) ss)

end LoxLang
