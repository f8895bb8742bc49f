import LoxLang.Scoping.Basic
import LoxLang.Tree.Basic

/-!
# Depths

`Stmt.resolve` and `Expr.resolve` walk a tree in source order and give the tree with the
depth of every use of a variable. Problems do not stop the walk.
-/

namespace LoxLang

open Scoping

/-- Resolves a use that reads the variable. -/
def Reference.resolve (r : Reference) : Resolving Reference := do
  if ← awaitsValue r.name.text then report r.name.place .ownInitializer
  return { r with depth := ← use r.name.text true }

/-- The kind of function that a method is. -/
def Function.methodKind (f : Function) : FunctionKind :=
  if f.name.text == "init" then .initializer else .method

mutual

/-- Resolves an expression (`Resolver::resolve_expr`). -/
def Expr.resolve : Expr → Resolving Expr
  | .literal value place => return .literal value place
  | .group inner place => return .group (← inner.resolve) place
  | .unary op operand place => return .unary op (← operand.resolve) place
  | .binary op left right place => do
    let left ← left.resolve
    let right ← right.resolve
    return .binary op left right place
  | .sequence items place => return .sequence (← Expr.resolveAll items) place
  | .read target => return .read (← target.resolve)
  | .assign target value => do
    let value ← value.resolve
    let depth ← use target.name.text false
    return .assign { target with depth } value
  | .call callee arguments place => do
    let callee ← callee.resolve
    let arguments ← Expr.resolveAll arguments
    return .call callee arguments place
  | .lambda params body place => do
    let body ← inFunction .function <| inScope do
      params.forM declareParam
      Stmt.resolveAll body
    return .lambda params body place
  | .get object property => return .get (← object.resolve) property
  | .set object property value => do
    let object ← object.resolve
    let value ← value.resolve
    return .set object property value
  | .this depth place => do
    match (← get).classKind with
    | .outside => do
      report place .thisOutside
      return .this depth place
    | _ => return .this (← use "this" true) place
  | .super method depth place => do
    match (← get).classKind with
    | .outside => do
      report place .superOutside
      return .super method depth place
    | .plain => do
      report place .superWithoutSuperclass
      return .super method depth place
    | .derived => return .super method (← use "super" true) place

def Expr.resolveAll : List Expr → Resolving (List Expr)
  | [] => return []
  | e :: es => do
    let e ← e.resolve
    let es ← Expr.resolveAll es
    return e :: es

/-- Resolves a statement (`Resolver::resolve_stmt`). A variable is declared before its initializer,
a function or class before its body. -/
def Stmt.resolve : Stmt → Resolving Stmt
  | .expression e => return .expression (← e.resolve)
  | .print e place => return .print (← e.resolve) place
  | .declare name none => do
    declare name
    define name
    return .declare name none
  | .declare name (some initial) => do
    declare name
    let initial ← initial.resolve
    define name
    return .declare name (some initial)
  | .block body place => return .block (← inScope (Stmt.resolveAll body)) place
  | .branch test yes none place => do
    let test ← test.resolve
    let yes ← yes.resolve
    return .branch test yes none place
  | .branch test yes (some no) place => do
    let test ← test.resolve
    let yes ← yes.resolve
    let no ← no.resolve
    return .branch test yes (some no) place
  | .loop test body place => do
    let test ← test.resolve
    let body ← body.resolve
    return .loop test body place
  | .breakOut place => return .breakOut place
  | .function f => do
    declare f.name
    define f.name
    return .function (← f.resolve .function)
  | .returnWith none place => do
    if (← get).function == .outside then report place .returnOutside
    return .returnWith none place
  | .returnWith (some value) place => do
    if (← get).function == .outside then report place .returnOutside
    if (← get).function == .initializer then report place .valueFromInitializer
    return .returnWith (some (← value.resolve)) place
  | .classDecl name none methods => do
    let outer := (← get).classKind
    enterClass .plain
    declare name
    define name
    let methods ← inScope do
      declareBuiltin "this" name.place
      Function.resolveAll methods
    enterClass outer
    return .classDecl name none methods
  | .classDecl name (some superclass) methods => do
    let outer := (← get).classKind
    enterClass .derived
    declare name
    define name
    if superclass.name.text == name.text then report superclass.name.place .ownSuperclass
    let superclass ← superclass.resolve
    let methods ← inScope do
      declareBuiltin "super" name.place
      inScope do
        declareBuiltin "this" name.place
        Function.resolveAll methods
    enterClass outer
    return .classDecl name (some superclass) methods

def Stmt.resolveAll : List Stmt → Resolving (List Stmt)
  | [] => return []
  | s :: ss => do
    let s ← s.resolve
    let ss ← Stmt.resolveAll ss
    return s :: ss

/-- Resolves a function: its parameters and statements share one scope
(`Resolver::resolve_function`). -/
def Function.resolve (kind : FunctionKind) : Function → Resolving Function
  | .mk name params body => do
    let body ← inFunction kind <| inScope do
      params.forM declareParam
      Stmt.resolveAll body
    return .mk name params body

/-- Resolves the methods of a class. -/
def Function.resolveAll : List Function → Resolving (List Function)
  | [] => return []
  | f :: fs => do
    let f ← f.resolve f.methodKind
    let fs ← Function.resolveAll fs
    return f :: fs

end

/-! ## Whole programs -/

/-- A tree with its depths, and what the walk reports (`Resolver::finish`). -/
structure Resolved (α : Type) where
  tree : α
  problems : List (Placed ScopeProblem)
  unread : List Name

namespace Resolved

/-- The outcome of a walk from the outermost level. -/
def ofWalk {α : Type} (allowRedefinition : Bool) (walk : Resolving α) : Resolved α :=
  let (tree, w) := walk (Walk.start allowRedefinition)
  ⟨tree, w.problems.toList, w.unread.toList⟩

/-- Resolves a program (`Resolver::resolve`). -/
def program (allowRedefinition : Bool) (body : List Stmt) : Resolved (List Stmt) :=
  ofWalk allowRedefinition (Stmt.resolveAll body)

/-- Resolves an expression on its own (`Resolver::resolve_expression`). -/
def expression (allowRedefinition : Bool) (e : Expr) : Resolved Expr :=
  ofWalk allowRedefinition e.resolve

end Resolved

end LoxLang
