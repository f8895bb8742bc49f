import LoxLang.Proofs.Curbed.Basic
import LoxLang.Proofs.Session.Basic

/-!
# Runs under a curb

Every construct of the language curbs itself: `Watching.curbs_fuel` ties the cases by induction on
the fuel. The only places where a curbed run can be stopped are a definition and a print.
-/

namespace LoxLang

open Scoping

namespace Watching

variable {C : Curb} {t : Watched}

namespace Curbs

/-! ## Names -/

theorem getAt (d : Nat) (n : Name) :
    Curbs C t (step (Run.check fun m => m.scopes.getAt m.current d n))
      (Run.check fun m => m.scopes.getAt m.current d n) :=
  .check fun _ hm => by rw [hm.current, hm.scopes.getAt]

theorem readVariable (r : Reference) :
    Curbs C t (step (Run.readVariable r)) (Run.readVariable r) := by
  unfold Run.readVariable
  cases r.depth with
  | some d => exact .getAt d r.name
  | none => exact .check fun _ hm => by rw [hm.globals, hm.scopes.get]

theorem assignVariable (r : Reference) (v : Value) :
    Curbs C t (step (Run.assignVariable r v)) (Run.assignVariable r v) := by
  unfold Run.assignVariable
  cases r.depth with
  | some d => exact .store _ _ fun _ hm => .inl (by rw [hm.current, hm.scopes.holderAt])
  | none => exact .store _ _ fun _ hm => .inl (by rw [hm.globals, hm.scopes.holder])

/-- A definition may stop the curbed run. -/
theorem define (n : Name) (v : Value) : Curbs C t (step (Run.define n v)) (Run.define n v) := by
  refine .store _ _ fun m' hm => ?_
  rw [hm.current]
  rcases hm.scopes.definable t.machine.current n with he | ⟨ha, he⟩
  · exact .inl he
  · exact .inr ⟨_, he, fun u => C.stricter ha u n _⟩

theorem readThis (depth : Option Nat) (place : Place) :
    Curbs C t (step (Run.readThis depth place)) (Run.readThis depth place) := by
  cases depth with
  | none => exact .fail _ _
  | some d => exact .getAt d _

/-! ## Functions and classes -/

/-- Making a function gives the same closure under the curb. -/
theorem makeFunction (σ : Site) (kind : FunctionKind) (name : String) (params : List Name)
    (body : List Stmt) (isInitializer : Bool) :
    Curbs C t (makeFunction σ kind name params body isInitializer)
      (Run.makeFunction name params body isInitializer) := by
  rw [← bind_pure (Run.makeFunction name params body isInitializer)]
  unfold Watching.makeFunction Run.makeFunction
  rw [step_bind]
  refine (Curbs.newIdentity.bind fun identity u _ => ?_).bind fun f u _ => .made fun u => .pure f
  rw [step_bind]
  exact .get (fun _ hm => by rw [hm.current]) (.still _)

theorem bindMethod (f : Closure) (object : Value) :
    Curbs C t (bindMethod f object) (Run.bindMethod f object) := by
  rw [← bind_pure (Run.bindMethod f object)]
  refine .makerOf fun maker => .bind ?_ fun g u _ => .opened fun u => .made fun u => .pure g
  unfold Run.bindMethod
  rw [step_bind]
  refine (Curbs.newScope f.scope).bind fun scope u _ => ?_
  rw [step_bind]
  refine (Curbs.bindIn scope "this" object).bind fun _ u _ => ?_
  rw [step_bind]
  exact Curbs.newIdentity.bind fun identity u _ => .still _

theorem makeMethods : ∀ (fs : List Function) (σ : Site) (table : Bindings Closure) (t : Watched),
    Curbs C t (makeMethods σ fs table) (Run.makeMethods fs table)
  | [], _, table, _ => .pure table
  | _ :: fs, σ, _, _ =>
    (Curbs.makeFunction σ _ _ _ _ _).bind fun _ u _ => makeMethods fs _ _ u

theorem readSuperclass (r : Reference) :
    Curbs C t (step (Run.readSuperclass r)) (Run.readSuperclass r) := by
  unfold Run.readSuperclass
  rw [step_bind]
  refine (Curbs.readVariable r).bind fun v u _ => ?_
  cases v with
  | classValue c => exact .still c
  | _ => exact .fail _ _

/-- A class gets the same identity under the curb, and its name may be refused. -/
theorem nameClass (name : Name) (c : Option Class) (table : Bindings Closure) :
    Curbs C t
      (step Run.newIdentity >>= fun identity =>
        step (Run.define name (.classValue (.mk identity name.text c table))))
      (Run.newIdentity >>= fun identity =>
        Run.define name (.classValue (.mk identity name.text c table))) :=
  Curbs.newIdentity.bind fun _ _ _ => .define _ _

theorem declareClass (σ : Site) (name : Name) (superclass : Option Reference)
    (methods : List Function) :
    Curbs C t (declareClass σ name superclass methods)
      (Run.declareClass name superclass methods) := by
  unfold Watching.declareClass Run.declareClass
  cases superclass with
  | none =>
    exact (Curbs.makeMethods methods _ [] t).bind fun table u _ => .nameClass name none table
  | some r =>
    refine .visit fun u _ => (Curbs.readSuperclass r).bind fun c u _ => ?_
    refine .get (fun _ hm => by rw [hm.current]) ?_
    refine (Curbs.newScope _).bind fun scope u _ => .opened fun u => ?_
    refine (Curbs.bindIn scope "super" _).bind fun _ u _ => ?_
    exact (Curbs.within scope fun u => .makeMethods methods _ [] u).bind fun table u _ =>
      .nameClass name (some c) table

/-- A method is found and bound under the curb as without it. -/
theorem method (c : Class) (object : Value) (name : Name) :
    Curbs C t
      (match c.method? name.text with
        | some f => do return .function (← Watching.bindMethod f object)
        | none => step (Run.fail name.place (.undefinedProperty name.text)))
      (match c.method? name.text with
        | some f => do return .function (← Run.bindMethod f object)
        | none => Run.fail name.place (.undefinedProperty name.text) : Run Value) := by
  cases c.method? name.text with
  | none => exact .fail _ _
  | some f => exact (Curbs.bindMethod f object).bind fun g u _ => .pure (Value.function g)

theorem readSuper (method : Name) (depth : Option Nat) (place : Place) :
    Curbs C t (readSuper method depth place) (Run.readSuper method depth place) := by
  unfold Watching.readSuper Run.readSuper
  match depth with
  | none => exact .fail _ _
  | some 0 => exact .fail _ _
  | some (d + 1) =>
    refine (Curbs.getAt _ _).bind fun superclass u _ => (Curbs.getAt _ _).bind fun object u _ => ?_
    cases superclass with
    | classValue c =>
      cases object with
      | object _ _ => exact .method c _ method
      | _ => exact .fail _ _
    | _ => exact .fail _ _

theorem readProperty (v : Value) (property : Name) :
    Curbs C t (readProperty v property) (Run.readProperty v property) := by
  unfold Watching.readProperty Run.readProperty
  cases v with
  | object identity c =>
    refine .get (fun _ hm => by simp only [Machine.fieldsOf, hm.objects]) ?_
    cases (t.machine.fieldsOf identity).find? property.text with
    | some field => exact .pure field
    | none => exact .method c _ property
  | _ => exact .fail _ _

/-! ## Calls -/

theorem bindParams (scope : ScopeId) : ∀ (ps : List Name) (vs : List Value) (t : Watched),
    Curbs C t (step (Run.bindParams scope ps vs)) (Run.bindParams scope ps vs)
  | p :: ps, v :: vs, t => by
    rw [Run.bindParams, step_bind]
    exact (Curbs.bindIn scope p.text v).bind fun _ u _ => bindParams scope ps vs u
  | [], _, _ | _ :: _, [], _ => .still ()

theorem callNative (f : Native) (arguments : List Value) (place : Place) :
    Curbs C t (step (Run.callNative f arguments place)) (Run.callNative f arguments place) := by
  cases f with
  | clock => exact .readClock
  | first _ =>
    cases arguments with
    | nil => exact .fail _ _
    | cons v _ => exact .still v

section
variable {exec : Site → Stmt → Watching Unit} {exec' : Stmt → Run Unit}
variable (h : ∀ σ s t, Curbs C t (exec σ s) (exec' s))
include h

theorem forEach : ∀ (σ : Site) (ss : List Stmt) (t : Watched),
    Curbs C t (forEach exec σ ss) (ss.forM exec')
  | _, [], _ => .pure ()
  | σ, s :: ss, t => (h σ s t).bind fun _ u _ => forEach _ ss u

theorem callClosure (f : Closure) (arguments : List Value) (place : Place) (t : Watched) :
    Curbs C t (callClosure exec f arguments place) (Run.callClosure exec' f arguments place) := by
  refine .makerOf fun maker => (Curbs.newScope f.scope).bind fun scope u _ => .opened fun u => ?_
  refine (Curbs.bindParams scope f.params arguments u).bind fun _ u _ => ?_
  refine (Curbs.within scope fun u => .forEach h _ f.body u).catching.bind fun v u _ => ?_
  cases f.isInitializer with
  | true => exact .check fun _ hm => by rw [hm.scopes.getAt]
  | false => exact .pure v

theorem construct (c : Class) (arguments : List Value) (place : Place) :
    Curbs C t (construct exec c arguments place) (Run.construct exec' c arguments place) := by
  refine (Curbs.newObject c).bind fun object u _ => ?_
  cases c.method? "init" with
  | none => exact .pure object
  | some f =>
    exact (Curbs.bindMethod f object).bind fun init u _ =>
      (Curbs.callClosure h init arguments place u).discard.bind fun _ u _ => .pure object

theorem call (callee : Value) (arguments : List Value) (place : Place) :
    Curbs C t (call exec callee arguments place) (Run.call exec' callee arguments place) := by
  unfold Watching.call Run.call
  cases callee.arity? with
  | none => exact .fail _ _
  | some expected =>
    dsimp only
    split
    · exact .fail _ _
    · cases callee with
      | native f => exact .callNative f arguments place
      | function f => exact .callClosure h f arguments place t
      | classValue c => exact .construct h c arguments place
      | _ => exact .fail _ _

end

/-- Arguments are evaluated one after another as without the curb. -/
theorem forValues {eval : Site → Expr → Watching Value} {eval' : Expr → Run Value}
    (h : ∀ σ e t, Curbs C t (eval σ e) (eval' e)) : ∀ (σ : Site) (es : List Expr) (t : Watched),
    Curbs C t (forValues eval σ es) (es.mapM eval')
  | _, [], _ => .pure []
  | σ, e :: es, t => by
    rw [List.mapM_cons]
    exact (h σ e t).bind fun v u _ => (forValues h _ es u).bind fun vs _ _ => .pure (v :: vs)

end Curbs

/-! ## Expressions and statements -/

section
variable {fuel : Nat} (he : ∀ σ e t, Curbs C t (eval fuel σ e) (LoxLang.eval fuel e))
  (hx : ∀ σ s t, Curbs C t (exec fuel σ s) (LoxLang.exec fuel s))
include he hx

/-- One step of the evaluation of an expression, for each construct. -/
theorem curbs_eval_succ (σ : Site) (e : Expr) (t : Watched) :
    Curbs C t (eval (fuel + 1) σ e) (LoxLang.eval (fuel + 1) e) := by
  unfold eval LoxLang.eval
  refine .visit fun t _ => ?_
  cases e with
  | literal value _ => exact .pure _
  | group inner _ => exact he σ inner t
  | unary op operand _ => exact (he σ operand t).bind fun v u _ => .lift _
  | binary op left right place =>
    refine (he σ left t).bind fun l u _ => ?_
    split
    · exact .pure l
    · exact (he _ right u).bind fun r u _ => .lift _
  | sequence items _ => exact (Curbs.forValues he σ items t).bind fun vs u _ => .pure _
  | read target => exact .readVariable target
  | assign target value =>
    exact (he σ value t).bind fun v u _ => .visit fun u _ =>
      (Curbs.assignVariable target v).bind fun _ u _ => .pure v
  | call callee arguments place =>
    exact (he σ callee t).bind fun f u _ => (Curbs.forValues he _ arguments u).bind fun vs u _ =>
      .call hx f vs place
  | lambda params body _ =>
    exact (Curbs.makeFunction σ _ _ _ _ _).bind fun f u _ => .pure (Value.function f)
  | get object property => exact (he σ object t).bind fun v u _ => .readProperty v property
  | set object property value =>
    refine (he σ object t).bind fun v u _ => ?_
    cases v with
    | object identity _ =>
      exact (he _ value u).bind fun v u _ => (Curbs.setField identity property.text v).bind
        fun _ u _ => .pure v
    | _ => exact .fail _ _
  | this depth place => exact .readThis depth place
  | super method depth place => exact .readSuper method depth place

/-- One step of the run of a statement, for each construct. -/
theorem curbs_exec_succ
    (hl : ∀ σ test body t, Curbs C t (loop fuel σ test body) (LoxLang.loop fuel test body))
    (σ : Site) (s : Stmt) (t : Watched) :
    Curbs C t (exec (fuel + 1) σ s) (LoxLang.exec (fuel + 1) s) := by
  unfold exec LoxLang.exec
  refine .visit fun t hvisit => ?_
  cases s with
  | expression e => exact (he σ e t).discard
  | print e place =>
    refine (he σ e t).bind fun v u hv => ?_
    -- the print happens on the machine that the evaluation of its value has left
    have hprints : Visit.Prints ⟨σ, .statement (.print e place), t.machine, t.record.origins⟩ place
        (v.text ++ "\n") u.machine := by
      refine ⟨e, fuel, v, rfl, ?_, rfl⟩
      rw [← erases_eval fuel σ e t, hv]
      rfl
    have hkept := (he σ e t).before.visits hvisit
    rw [hv] at hkept
    exact .print hkept hprints
  | declare name initial =>
    cases initial with
    | none => exact .define _ _
    | some e => exact (he _ e t).bind fun v u _ => .define _ _
  | block body place =>
    refine .get (fun _ hm => by rw [hm.current]) ?_
    exact (Curbs.newScope _).bind fun scope u _ => .opened fun u =>
      .within scope fun u => .forEach hx _ body u
  | branch test yes no _ =>
    refine (he σ test t).bind fun v u _ => ?_
    split
    · exact hx _ yes u
    · cases no with
      | none => exact .pure ()
      | some no => exact hx _ no u
  | loop test body _ => exact hl σ test body t
  | breakOut place => exact .throw _
  | function f =>
    cases f
    exact (Curbs.makeFunction _ _ _ _ _ _).bind fun f u _ => .define _ _
  | returnWith value place =>
    cases value with
    | none => exact .throw _
    | some e => exact (he _ e t).bind fun v u _ => .throw _
  | classDecl name superclass methods => exact .declareClass σ name superclass methods

/-- One round of a loop. -/
theorem curbs_loop_succ
    (hl : ∀ σ test body t, Curbs C t (loop fuel σ test body) (LoxLang.loop fuel test body))
    (σ : Site) (test : Expr) (body : Stmt) (t : Watched) :
    Curbs C t (loop (fuel + 1) σ test body) (LoxLang.loop (fuel + 1) test body) := by
  rw [loop_succ, LoxLang.loop_succ]
  refine (he σ test t).bind fun v u _ => ?_
  split
  · exact .breakable (hx _ body u) fun u => hl σ test body u
  · exact .pure ()

end

/-- Every tree curbs itself, with any fuel. -/
theorem curbs_fuel (C : Curb) (fuel : Nat) :
    (∀ σ e t, Curbs C t (eval fuel σ e) (LoxLang.eval fuel e)) ∧
      (∀ σ s t, Curbs C t (exec fuel σ s) (LoxLang.exec fuel s)) ∧
      ∀ σ test body t, Curbs C t (loop fuel σ test body) (LoxLang.loop fuel test body) := by
  induction fuel with
  | zero => exact ⟨fun _ _ _ => .throw _, fun _ _ _ => .throw _, fun _ _ _ _ => .throw _⟩
  | succ fuel ih =>
    obtain ⟨he, hx, hl⟩ := ih
    exact ⟨curbs_eval_succ he hx, curbs_exec_succ he hx hl, curbs_loop_succ he hx hl⟩

/-! ## Whole runs -/

section
variable {α : Type} {x : Watching α} {y : Run α} {m' : Machine}

/-- What is left of a curbed run when nothing is left to catch it. -/
theorem Curbs.outcome? (h : Curbs C t x y) (he : Erases x y)
    (hm : t.machine.Curbed C m') :
    (∃ f m, y.outcome? m' = some (.error f, m) ∧ C.stops (endOf (x t)) f m.sink) ∨
      Option.Rel (fun p p' => p'.1 = p.1 ∧ p.2.Curbed C p'.2) (y.outcome? t.machine)
        (y.outcome? m') := by
  have hends := h.ends m' hm
  have hfree := he t
  unfold Run.outcome?
  rw [← hfree]
  generalize y m' = r' at hends ⊢
  generalize x t = r at hends ⊢
  cases hends with
  | ok hn => exact .inr (.some ⟨rfl, hn⟩)
  | @error i u m' hn =>
    refine .inr ?_
    simp only [erase]
    cases i.fault? with
    | none => exact .none
    | some f => exact .some ⟨rfl, hn⟩
  | stopped hs => exact .inl ⟨_, _, rfl, hs⟩

theorem curbs_statements (C : Curb) (fuel : Nat) (σ : Site) (ss : List Stmt)
    (t : Watched) : Curbs C t (forEach (exec fuel) σ ss) (execAll fuel ss) :=
  .forEach (curbs_fuel C fuel).2.1 σ ss t

theorem curbs_programValue (C : Curb) (fuel : Nat) (σ : Site) (ss : List Stmt)
    (t : Watched) : Curbs C t (Session.programValue fuel σ ss) (Host.programValue fuel ss) := by
  unfold Session.programValue
  split
  · exact (curbs_fuel C fuel).1 σ _ t
  · next hne =>
    have hvalue : Host.programValue fuel ss = (do execAll fuel ss; return .nil) :=
      Host.programValue.eq_2 _ _ hne
    rw [hvalue]
    exact (curbs_statements C fuel σ ss t).bind fun _ u _ => .pure Value.nil

end

end Watching

end LoxLang
