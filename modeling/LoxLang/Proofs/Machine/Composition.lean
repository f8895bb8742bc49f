import LoxLang.Machine.Eval

/-!
# How steps are put together

Some properties of steps hold of whatever is put together from steps that have them. `Law`
lists what that takes, for each way that steps are made of others, and the property then
holds of all that the evaluation of an expression does. What a property says of statements
may be more, so of those a law only says what the call of a function asks of its body.
-/

namespace LoxLang

namespace Run

variable {α β : Type}

/-- A step with another one behind it, machine by machine. -/
theorem bind_apply (step : Run α) (k : α → Run β) (m : Machine) :
    (step >>= k) m = match step m with
      | .ok a m => k a m
      | .error i m => .error i m := by
  show EStateM.bind step k m = _
  unfold EStateM.bind
  cases step m <;> rfl

/-- The body of a loop, and what follows it unless it breaks out. -/
def breakable (body rest : Run Unit) : Run Unit := fun m =>
  match body m with
  | .ok _ m => rest m
  | .error (.breaking _) m => .ok () m
  | .error i m => .error i m

end Run

open Run in
/-- A loop with one more unit of fuel. -/
theorem loop_succ (fuel : Nat) (test : Expr) (body : Stmt) :
    loop (fuel + 1) test body = do
      let v ← eval fuel test
      if v.isTrue then breakable (exec fuel body) (loop fuel test body) else return () := by
  funext m
  rw [loop, bind_apply]
  dsimp only
  cases eval fuel test m with
  | error i m => rfl
  | ok v m =>
    dsimp only
    cases v.isTrue <;> rfl

namespace Run

variable {α β : Type}

/-! ## Laws -/

/-- The property `P` holds of the simple steps and of what is put together from steps that
have it. A call has it if the statements of the body have the property `Body`. -/
structure Law (P : ∀ {α : Type}, Run α → Prop) (Body : Run Unit → Prop) : Prop where
  pure : ∀ {α : Type} (a : α), P (Pure.pure a : Run α)
  fail : ∀ {α : Type} (place : Place) (cause : FaultCause), P (Run.fail place cause : Run α)
  bind : ∀ {α β : Type} {step : Run α} {k : α → Run β}, P step → (∀ a, P (k a)) → P (step >>= k)
  get : P (MonadState.get : Run Machine)
  check : ∀ {α : Type} (look : Machine → Except Fault α), P (Run.check look)
  store : ∀ choose name v, P (Run.store choose name v)
  newIdentity : P Run.newIdentity
  newObject : ∀ c, P (Run.newObject c)
  newScope : ∀ parent, P (Run.newScope parent)
  bindIn : ∀ scope name v, P (Run.bindIn scope name v)
  setField : ∀ object name v, P (Run.setField object name v)
  readClock : P Run.readClock
  within : ∀ {α : Type} (scope : ScopeId) {step : Run α}, P step → P (Run.within scope step)
  body : ∀ {exec : Stmt → Run Unit}, (∀ s, Body (exec s)) → ∀ scope (ss : List Stmt),
    P (Run.catching (Run.within scope (ss.forM exec)))

namespace Law

variable {P : ∀ {α : Type}, Run α → Prop} {Body : Run Unit → Prop} (law : Law @P Body)
include law

theorem discard {step : Run α} (h : P step) : P (discard step) :=
  law.bind h fun _ => law.pure ()

theorem mapM {step : β → Run α} (h : ∀ b, P (step b)) (bs : List β) : P (bs.mapM step) := by
  induction bs with
  | nil => exact law.pure []
  | cons b bs ih =>
    rw [List.mapM_cons]
    exact law.bind (h b) fun a => law.bind ih fun as => law.pure (a :: as)

theorem lift (result : Except Fault α) : P (lift result) := law.check _

/-! ## Names -/

theorem readVariable (r : Reference) : P (readVariable r) := by
  unfold Run.readVariable
  cases r.depth <;> exact law.check _

theorem assignVariable (r : Reference) (v : Value) : P (assignVariable r v) := by
  unfold Run.assignVariable
  cases r.depth <;> exact law.store _ _ _

theorem define (name : Name) (v : Value) : P (define name v) := law.store _ _ _

theorem readThis (depth : Option Nat) (place : Place) : P (readThis depth place) := by
  cases depth with
  | none => exact law.fail _ _
  | some d => exact law.check _

/-! ## Functions and classes -/

/-- What holds of all operations that a function is made with holds of its making. -/
theorem makeFunction (name : String) (params : List Name) (body : List Stmt)
    (isInitializer : Bool) : P (makeFunction name params body isInitializer) :=
  law.bind law.newIdentity fun _ => law.bind law.get fun _ => law.pure _

theorem bindMethod (f : Closure) (object : Value) : P (bindMethod f object) :=
  law.bind (law.newScope f.scope) fun scope => law.bind (law.bindIn scope "this" object) fun _ =>
    law.bind law.newIdentity fun _ => law.pure _

theorem makeMethods (fs : List Function) (table : Bindings Closure) :
    P (makeMethods fs table) := by
  induction fs generalizing table with
  | nil => exact law.pure table
  | cons f fs ih => exact law.bind (law.makeFunction _ _ _ _) fun _ => ih _

theorem readSuperclass (r : Reference) : P (readSuperclass r) :=
  law.bind (law.readVariable r) fun v => by
    cases v with
    | classValue c => exact law.pure c
    | _ => exact law.fail _ _

/-- What holds of the operations of a class declaration holds of the declaration. -/
theorem declareClass (name : Name) (superclass : Option Reference) (methods : List Function) :
    P (declareClass name superclass methods) := by
  have nameClass (c : Option Class) (table : Bindings Closure) : P (do
      let identity ← Run.newIdentity
      Run.define name (.classValue (.mk identity name.text c table))) :=
    law.bind law.newIdentity fun _ => law.define name _
  cases superclass with
  | none => exact law.bind (law.makeMethods methods []) fun table => nameClass none table
  | some r =>
    refine law.bind (law.readSuperclass r) fun c => law.bind law.get fun m => ?_
    refine law.bind (law.newScope m.current) fun scope => ?_
    refine law.bind (law.bindIn scope "super" (.classValue c)) fun _ => ?_
    exact law.bind (law.within scope (law.makeMethods methods [])) fun table =>
      nameClass (some c) table

/-- The method of a class, if there is one, bound to an object. -/
theorem method (o : Option Closure) (object : Value) (place : Place) (cause : FaultCause) :
    P (match o with
      | some f => do return .function (← Run.bindMethod f object)
      | none => Run.fail place cause : Run Value) := by
  cases o with
  | none => exact law.fail _ _
  | some f => exact law.bind (law.bindMethod f object) fun _ => law.pure _

/-- What holds of the operations of a `super` expression holds of the expression. -/
theorem readSuper (name : Name) (depth : Option Nat) (place : Place) :
    P (readSuper name depth place) := by
  unfold Run.readSuper
  match depth with
  | none => exact law.fail _ _
  | some 0 => exact law.fail _ _
  | some (d + 1) =>
    refine law.bind (law.check _) fun superclass => law.bind (law.check _) fun object => ?_
    split
    · exact law.method _ _ _ _
    · exact law.fail _ _

theorem readProperty (v : Value) (property : Name) : P (readProperty v property) := by
  cases v with
  | object identity c =>
    refine law.bind law.get fun m => ?_
    cases (m.fieldsOf identity).find? property.text with
    | some field => exact law.pure field
    | none => exact law.method _ _ _ _
  | _ => exact law.fail _ _

/-! ## Calls -/

theorem bindParams (scope : ScopeId) (ps : List Name) (vs : List Value) :
    P (bindParams scope ps vs) := by
  induction ps generalizing vs with
  | nil => exact law.pure ()
  | cons p ps ih =>
    cases vs with
    | nil => exact law.pure ()
    | cons v vs => exact law.bind (law.bindIn scope p.text v) fun _ => ih vs

theorem callNative (f : Native) (vs : List Value) (place : Place) :
    P (callNative f vs place) := by
  cases f with
  | clock => exact law.readClock
  | first _ =>
    cases vs with
    | nil => exact law.fail _ _
    | cons v _ => exact law.pure v

section
variable {exec : Stmt → Run Unit} (hx : ∀ s, Body (exec s))
include hx

/-- What holds of a body and of the operations around it holds of the call. -/
theorem callClosure (f : Closure) (vs : List Value) (place : Place) :
    P (callClosure exec f vs place) := by
  refine law.bind (law.newScope f.scope) fun scope =>
    law.bind (law.bindParams scope f.params vs) fun _ =>
      law.bind (law.body hx scope f.body) fun v => ?_
  split
  · exact law.check _
  · exact law.pure v

theorem construct (c : Class) (vs : List Value) (place : Place) :
    P (construct exec c vs place) := by
  refine law.bind (law.newObject c) fun object => ?_
  cases c.method? "init" with
  | none => exact law.pure object
  | some f =>
    exact law.bind (law.bindMethod f object) fun init =>
      law.bind (law.discard (law.callClosure hx init vs place)) fun _ => law.pure object

theorem call (callee : Value) (vs : List Value) (place : Place) :
    P (call exec callee vs place) := by
  unfold Run.call
  cases callee.arity? with
  | none => exact law.fail _ _
  | some expected =>
    dsimp only
    split
    · exact law.fail _ _
    · cases callee with
      | native f => exact law.callNative f vs place
      | function f => exact law.callClosure hx f vs place
      | classValue c => exact law.construct hx c vs place
      | _ => exact law.fail _ _

end

/-! ## Expressions -/

/-- An expression with one more unit of fuel. -/
theorem eval_succ {fuel : Nat} (he : ∀ e, P (eval fuel e)) (hx : ∀ s, Body (exec fuel s))
    (e : Expr) : P (eval (fuel + 1) e) := by
  unfold LoxLang.eval
  cases e with
  | literal value _ => exact law.pure _
  | group inner _ => exact he inner
  | unary op operand _ => exact law.bind (he operand) fun v => law.lift _
  | binary op left right _ =>
    refine law.bind (he left) fun l => ?_
    split
    · exact law.pure l
    · exact law.bind (he right) fun r => law.lift _
  | sequence items _ => exact law.bind (law.mapM he items) fun values => law.pure _
  | read target => exact law.readVariable target
  | assign target value =>
    exact law.bind (he value) fun v => law.bind (law.assignVariable target v) fun _ => law.pure v
  | call callee arguments place =>
    exact law.bind (he callee) fun f => law.bind (law.mapM he arguments) fun values =>
      law.call hx f values place
  | lambda params body _ => exact law.bind (law.makeFunction _ _ _ _) fun f => law.pure _
  | get object property => exact law.bind (he object) fun v => law.readProperty v property
  | set object property value =>
    refine law.bind (he object) fun o => ?_
    cases o with
    | object identity _ =>
      exact law.bind (he value) fun v => law.bind (law.setField identity property.text v) fun _ =>
        law.pure v
    | _ => exact law.fail _ _
  | this depth place => exact law.readThis depth place
  | super method depth place => exact law.readSuper method depth place

end Law

end Run

end LoxLang
