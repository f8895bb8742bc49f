import LoxLang.Proofs.Machine.Watch
import Mathlib.Tactic.Common

/-!
# Watching changes nothing

A watched step `Erases` to a step if the two agree on the machine and on the outcome. The
laws follow the ways in which steps are put together, and a step that only changes the
record can be left out. So the watched evaluation of every tree is its evaluation.
-/

namespace LoxLang

open Scoping

namespace Watching

variable {α β : Type}

/-- What is left of an outcome without the record. -/
def erase : EStateM.Result Interrupt Watched α → EStateM.Result Interrupt Machine α
  | .ok a t => .ok a t.machine
  | .error i t => .error i t.machine

/-- The watched step is the step, but for the record. -/
def Erases (x : Watching α) (y : Run α) : Prop := ∀ t, erase (x t) = y t.machine

/-- A value of the watched step is one of the step. -/
theorem Erases.ok {x : Watching α} {y : Run α} (h : Erases x y) {t u : Watched} {a : α}
    (hx : x t = .ok a u) : y t.machine = .ok a u.machine := by
  rw [← h t, hx]
  rfl

/-! ## Laws -/

theorem erases_pure (a : α) : Erases (pure a) (pure a) := fun _ => rfl

theorem erases_throw (i : Interrupt) : Erases (throw i : Watching α) (throw i) := fun _ => rfl

theorem erases_step (y : Run α) : Erases (step y) y := by
  intro t
  simp only [step]
  cases y t.machine <;> rfl

/-- A watched step with another one behind it, record by record. -/
theorem bind_apply (x : Watching α) (k : α → Watching β) (t : Watched) :
    (x >>= k) t = match x t with
      | .ok a t => k a t
      | .error i t => .error i t := by
  show EStateM.bind x k t = _
  unfold EStateM.bind
  cases x t <;> rfl

/-- Two watched steps erase to the two steps. -/
theorem Erases.bind {x : Watching α} {y : Run α} {k : α → Watching β} {l : α → Run β}
    (h : Erases x y) (hk : ∀ a, Erases (k a) (l a)) : Erases (x >>= k) (y >>= l) := by
  intro t
  have ht := h t
  show erase (EStateM.bind x k t) = EStateM.bind y l t.machine
  unfold EStateM.bind
  rw [← ht]
  cases x t with
  | ok a t => exact hk a t
  | error i t => rfl

/-- A change of the record can be left out. -/
theorem Erases.note {x : Watching α} {y : Run α} (h : Erases x y)
    (change : Machine → Record → Record) : Erases (Watching.note change >>= fun _ => x) y :=
  fun _ => h _

/-- A look at the record can be left out. -/
theorem Erases.makerOf {k : Maker → Watching α} {y : Run α} (h : ∀ maker, Erases (k maker) y)
    (f : Closure) : Erases (Watching.makerOf f >>= k) y := fun _ => h _ _

theorem Erases.discard {x : Watching α} {y : Run α} (h : Erases x y) :
    Erases (discard x) (discard y) := h.bind fun _ => erases_pure ()

theorem Erases.within {x : Watching α} {y : Run α} (h : Erases x y) (scope : ScopeId) :
    Erases (within scope x) (Run.within scope y) := by
  intro t
  have ht := h { t with machine := { t.machine with current := scope } }
  simp only [Watching.within, Run.within, ← ht]
  cases x { t with machine := { t.machine with current := scope } } <;> rfl

theorem Erases.catching {x : Watching Unit} {y : Run Unit} (h : Erases x y) :
    Erases (catching x) (Run.catching y) := by
  intro t
  have ht := h t
  simp only [Watching.catching, Run.catching, ← ht]
  cases x t with
  | ok a t => rfl
  | error i t => cases i <;> rfl

/-- Statements one after another erase to statements one after another. -/
theorem Erases.forEach {x : Site → Stmt → Watching Unit} {y : Stmt → Run Unit}
    (h : ∀ σ s, Erases (x σ s) (y s)) :
    ∀ σ ss, Erases (forEach x σ ss) (ss.forM y)
  | _, [] => erases_pure ()
  | σ, s :: ss => (h σ s).bind fun _ => Erases.forEach h _ ss

/-- Arguments one after another erase to arguments one after another. -/
theorem Erases.forValues {x : Site → Expr → Watching Value} {y : Expr → Run Value}
    (h : ∀ σ e, Erases (x σ e) (y e)) :
    ∀ σ es, Erases (forValues x σ es) (es.mapM y)
  | _, [] => erases_pure []
  | σ, e :: es => by
    rw [List.mapM_cons]
    exact (h σ e).bind fun v => (Erases.forValues h _ es).bind fun vs => erases_pure (v :: vs)

/-! ## Functions, classes and calls -/

theorem erases_makeFunction (σ : Site) (kind : FunctionKind) (name : String)
    (params : List Name) (body : List Stmt) (isInitializer : Bool) :
    Erases (makeFunction σ kind name params body isInitializer)
      (Run.makeFunction name params body isInitializer) := by
  rw [← bind_pure (Run.makeFunction name params body isInitializer)]
  exact (erases_step _).bind fun f => (erases_pure f).note _

theorem erases_bindMethod (f : Closure) (object : Value) :
    Erases (bindMethod f object) (Run.bindMethod f object) := by
  rw [← bind_pure (Run.bindMethod f object)]
  exact .makerOf (fun _ => (erases_step _).bind fun g => ((erases_pure g).note _).note _) f

theorem erases_makeMethods : ∀ (fs : List Function) (σ : Site) (table : Bindings Closure),
    Erases (makeMethods σ fs table) (Run.makeMethods fs table)
  | [], _, table => erases_pure table
  | _ :: fs, σ, _ => (erases_makeFunction σ _ _ _ _ _).bind fun _ => erases_makeMethods fs _ _

theorem erases_declareClass (σ : Site) (name : Name) (superclass : Option Reference)
    (methods : List Function) :
    Erases (declareClass σ name superclass methods)
      (Run.declareClass name superclass methods) := by
  have rest (c : Option Class) (table : Bindings Closure) :=
    (erases_step Run.newIdentity).bind fun identity =>
      erases_step (Run.define name (.classValue (.mk identity name.text c table)))
  unfold declareClass Run.declareClass
  cases superclass with
  | none =>
    exact (erases_makeMethods methods _ []).bind fun table => rest none table
  | some r =>
    refine .note ((erases_step (Run.readSuperclass r)).bind fun c => (erases_step get).bind fun m =>
      (erases_step (Run.newScope m.current)).bind fun scope => .note ?_ _) _
    exact (erases_step _).bind fun _ => ((erases_makeMethods methods _ []).within scope).bind
      fun table => rest (some c) table

/-- The method that a class has under a name, or a fault. -/
theorem erases_method (c : Class) (object : Value) (name : Name) :
    Erases
      (match c.method? name.text with
        | some f => do return .function (← bindMethod f object)
        | none => step (Run.fail name.place (.undefinedProperty name.text)))
      (match c.method? name.text with
        | some f => do return .function (← Run.bindMethod f object)
        | none => Run.fail name.place (.undefinedProperty name.text) : Run Value) := by
  cases c.method? name.text with
  | none => exact erases_step _
  | some f => exact (erases_bindMethod f object).bind fun g => erases_pure (Value.function g)

theorem erases_readSuper (method : Name) (depth : Option Nat) (place : Place) :
    Erases (readSuper method depth place) (Run.readSuper method depth place) := by
  unfold readSuper Run.readSuper
  match depth with
  | none => exact erases_step _
  | some 0 => exact erases_step _
  | some (d + 1) =>
    refine (erases_step _).bind fun superclass => (erases_step _).bind fun object => ?_
    cases superclass with
    | classValue c =>
      cases object with
      | object _ _ => exact erases_method c _ method
      | _ => exact erases_step _
    | _ => exact erases_step _

theorem erases_readProperty (v : Value) (property : Name) :
    Erases (readProperty v property) (Run.readProperty v property) := by
  unfold readProperty Run.readProperty
  cases v with
  | object identity c =>
    refine (erases_step get).bind fun m => ?_
    cases (m.fieldsOf identity).find? property.text with
    | some field => exact erases_pure field
    | none => exact erases_method c _ property
  | _ => exact erases_step _

section
variable {x : Site → Stmt → Watching Unit} {y : Stmt → Run Unit}
variable (h : ∀ σ s, Erases (x σ s) (y s))
include h

theorem erases_callClosure (f : Closure) (arguments : List Value) (place : Place) :
    Erases (callClosure x f arguments place) (Run.callClosure y f arguments place) := by
  refine .makerOf (fun maker => (erases_step _).bind fun scope => .note ?_ _) f
  refine (erases_step _).bind fun _ =>
    ((Erases.forEach h _ f.body).within scope).catching.bind fun v => ?_
  cases f.isInitializer with
  | true => exact erases_step _
  | false => exact erases_pure v

theorem erases_construct (c : Class) (arguments : List Value) (place : Place) :
    Erases (construct x c arguments place) (Run.construct y c arguments place) := by
  refine (erases_step _).bind fun object => ?_
  cases c.method? "init" with
  | none => exact erases_pure object
  | some f =>
    exact (erases_bindMethod f object).bind fun init =>
      (erases_callClosure h init arguments place).discard.bind fun _ => erases_pure object

theorem erases_call (callee : Value) (arguments : List Value) (place : Place) :
    Erases (call x callee arguments place) (Run.call y callee arguments place) := by
  unfold call Run.call
  cases callee.arity? with
  | none => exact erases_step _
  | some expected =>
    dsimp only
    split
    · exact erases_step _
    · cases callee with
      | native f => exact erases_step _
      | function f => exact erases_callClosure h f arguments place
      | classValue c => exact erases_construct h c arguments place
      | _ => exact erases_step _

end

/-! ## Expressions and statements -/

/-- The value, the effect and the repetition, each as watched with so much fuel. -/
theorem erases_fuel (fuel : Nat) :
    (∀ σ e, Erases (eval fuel σ e) (LoxLang.eval fuel e)) ∧
    (∀ σ s, Erases (exec fuel σ s) (LoxLang.exec fuel s)) ∧
    ∀ σ test body, Erases (loop fuel σ test body) (LoxLang.loop fuel test body) := by
  induction fuel with
  | zero => exact ⟨fun _ _ => erases_throw _, fun _ _ => erases_throw _,
      fun _ _ _ => erases_throw _⟩
  | succ fuel ih =>
    obtain ⟨ev, ex, lo⟩ := ih
    refine ⟨fun σ e => ?_, fun σ s => ?_, fun σ test body => ?_⟩
    · unfold eval LoxLang.eval
      refine .note ?_ _
      cases e with
      | literal value _ => exact erases_pure _
      | group inner _ => exact ev σ inner
      | unary op operand _ => exact (ev σ operand).bind fun v => erases_step _
      | binary op left right place =>
        refine (ev σ left).bind fun l => ?_
        split
        · exact erases_pure l
        · exact (ev _ right).bind fun r => erases_step _
      | sequence items _ => exact (Erases.forValues ev σ items).bind fun vs => erases_pure _
      | read target => exact erases_step _
      | assign target value =>
        exact (ev σ value).bind fun v => .note ((erases_step _).bind fun _ => erases_pure v) _
      | call callee arguments place =>
        exact (ev σ callee).bind fun f => (Erases.forValues ev _ arguments).bind fun vs =>
          erases_call ex f vs place
      | lambda params body _ =>
        exact (erases_makeFunction σ _ _ _ _ _).bind fun f => erases_pure (Value.function f)
      | get object property => exact (ev σ object).bind fun v => erases_readProperty v property
      | set object property value =>
        refine (ev σ object).bind fun v => ?_
        cases v with
        | object identity _ =>
          exact (ev _ value).bind fun v => (erases_step _).bind fun _ => erases_pure v
        | _ => exact erases_step _
      | this depth place => exact erases_step _
      | super method depth place => exact erases_readSuper method depth place
    · unfold exec LoxLang.exec
      refine .note ?_ _
      cases s with
      | expression e => exact (ev σ e).discard
      | print e place => exact (ev σ e).bind fun v => erases_step _
      | declare name initial =>
        cases initial with
        | none => exact erases_step _
        | some e => exact (ev _ e).bind fun v => erases_step _
      | block body place =>
        exact (erases_step get).bind fun m => (erases_step _).bind fun scope =>
          .note ((Erases.forEach ex _ body).within scope) _
      | branch test yes no _ =>
        refine (ev σ test).bind fun v => ?_
        split
        · exact ex _ yes
        · cases no with
          | none => exact erases_pure ()
          | some no => exact ex _ no
      | loop test body _ => exact lo σ test body
      | breakOut place => exact erases_throw _
      | function f =>
        cases f
        exact (erases_makeFunction _ _ _ _ _ _).bind fun f => erases_step _
      | returnWith value place =>
        cases value with
        | none => exact erases_throw _
        | some e => exact (ev _ e).bind fun v => erases_throw _
      | classDecl name superclass methods => exact erases_declareClass σ name superclass methods
    · intro t
      unfold loop LoxLang.loop
      rw [← ev σ test t]
      cases eval fuel σ test t with
      | error i t => rfl
      | ok v t =>
        simp only [erase]
        cases v.isTrue with
        | false => rfl
        | true =>
          simp only [if_true]
          rw [← ex (σ.after test.resolve) body t]
          cases exec fuel (σ.after test.resolve) body t with
          | ok _ t => exact lo σ test body t
          | error i t => cases i <;> rfl

theorem erases_eval (fuel : Nat) (σ : Site) (e : Expr) :
    Erases (eval fuel σ e) (LoxLang.eval fuel e) := (erases_fuel fuel).1 σ e

theorem erases_exec (fuel : Nat) (σ : Site) (s : Stmt) :
    Erases (exec fuel σ s) (LoxLang.exec fuel s) := (erases_fuel fuel).2.1 σ s

end Watching

end LoxLang
