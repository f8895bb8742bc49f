import LoxLang.Proofs.Code.Codes
import LoxLang.Proofs.Machine.Composition

/-!
# Which signals come out of a step

A `break` and a `return` leave the statements around them as interrupts. A loop catches the
first, a call ends with either. So no signal comes out of an expression, a call or a class
declaration, and out of a statement only those of its own `break`s that no loop of it is
around, and of its own `return`s.
-/

namespace LoxLang

/-- An interrupt that statements outside may catch. -/
def Interrupt.IsSignal : Interrupt → Prop
  | .breaking _ | .returning _ _ => True
  | .fault _ | .exhausted => False

/-- The signals of statements with these jumps: of the `break`s that no loop is around, and
of the `return`s. -/
def Interrupt.Among (breaks : List (Place × Bool)) (returns : List Place) : Interrupt → Prop
  | .breaking place => (place, false) ∈ breaks
  | .returning _ place => place ∈ returns
  | .fault _ | .exhausted => True

theorem Interrupt.among_of_not_isSignal {i : Interrupt} (h : ¬ i.IsSignal)
    (breaks : List (Place × Bool)) (returns : List Place) : i.Among breaks returns := by
  cases i with
  | breaking | returning => exact absurd trivial h
  | fault | exhausted => trivial

theorem Interrupt.Among.mono {i : Interrupt} {bs bs' : List (Place × Bool)} {rs rs' : List Place}
    (h : i.Among bs rs) (hb : bs ⊆ bs') (hr : rs ⊆ rs') : i.Among bs' rs' := by
  cases i with
  | breaking => exact hb h
  | returning => exact hr h
  | fault | exhausted => trivial

namespace Run

variable {α β : Type} {step : Run α}

/-- If the step is interrupted, then by an allowed interrupt. -/
def Passes (allowed : Interrupt → Prop) (step : Run α) : Prop :=
  ∀ m i m', step m = .error i m' → allowed i

/-- No signal comes out of the step. -/
def Silent (step : Run α) : Prop := Passes (¬ ·.IsSignal) step

/-- The jumps of the step are among these. -/
def Jumps (breaks : List (Place × Bool)) (returns : List Place) (step : Run α) : Prop :=
  Passes (·.Among breaks returns) step

/-! ## Interrupts of composed steps -/

namespace Passes

variable {allowed : Interrupt → Prop}

theorem pure (a : α) : Passes allowed (pure a : Run α) := fun _ _ _ h => nomatch h

theorem get : Passes allowed get := fun _ _ _ h => nomatch h

theorem throw {i : Interrupt} (h : allowed i) : Passes allowed (throw i : Run α) := by
  rintro m j m' ⟨⟩
  exact h

theorem bind {k : α → Run β} (h : Passes allowed step) (hk : ∀ a, Passes allowed (k a)) :
    Passes allowed (step >>= k) := by
  intro m i m' hb
  rw [bind_apply] at hb
  cases hs : step m with
  | ok a n =>
    rw [hs] at hb
    exact hk a n i m' hb
  | error j n =>
    rw [hs] at hb
    cases hb
    exact h m i m' hs

theorem within (scope : ScopeId) (h : Passes allowed step) :
    Passes allowed (within scope step) := by
  intro m i m' hw
  unfold Run.within at hw
  dsimp only at hw
  split at hw
  · cases hw
  · next hs =>
    cases hw
    exact h _ _ _ hs

end Passes

theorem Silent.jumps (h : Silent step) (breaks : List (Place × Bool)) (returns : List Place) :
    Jumps breaks returns step :=
  fun m i m' hs => Interrupt.among_of_not_isSignal (h m i m' hs) breaks returns

theorem Jumps.mono {bs bs' : List (Place × Bool)} {rs rs' : List Place} (h : Jumps bs rs step)
    (hb : bs ⊆ bs') (hr : rs ⊆ rs') : Jumps bs' rs' step :=
  fun m i m' hs => (h m i m' hs).mono hb hr

/-! ## Expressions and calls -/

theorem Silent.fail (place : Place) (cause : FaultCause) :
    Silent (fail place cause : Run α) := .throw id

theorem Silent.check (look : Machine → Except Fault α) : Silent (check look) := by
  intro m i m' h
  unfold Run.check at h
  split at h <;> cases h
  exact id

theorem Silent.store (choose : Machine → Except Fault ScopeId) (name : String) (v : Value) :
    Silent (store choose name v) := by
  intro m i m' h
  unfold Run.store at h
  split at h <;> cases h
  exact id

theorem Silent.print (text : String) (place : Place) : Silent (print text place) := by
  intro m i m' h
  unfold Run.print at h
  dsimp only at h
  split at h <;> cases h
  exact id

/-- A call catches each signal of the body, whatever it runs. -/
theorem Silent.catching (body : Run Unit) : Silent (catching body) := by
  intro m i m' h
  unfold Run.catching at h
  split at h
  · cases h
  · cases h
  · cases h
    exact id
  · next j _ hreturn hbreak _ =>
    cases h
    cases i with
    | breaking place => exact absurd rfl (hbreak place)
    | returning v place => exact absurd rfl (hreturn v place)
    | fault | exhausted => exact id

/-- What is put together from silent steps is silent, and so is a call of anything. -/
theorem Silent.law : Law @Silent fun _ => True where
  pure := .pure
  fail := Silent.fail
  bind := .bind
  get := .get
  check := Silent.check
  store := Silent.store
  newIdentity := fun _ _ _ h => nomatch h
  newObject := fun _ _ _ _ h => nomatch h
  newScope := fun _ _ _ _ h => nomatch h
  bindIn := fun _ _ _ _ _ _ h => nomatch h
  setField := fun _ _ _ _ _ _ h => nomatch h
  readClock := fun _ _ _ h => nomatch h
  within scope _ h := Passes.within scope h
  body := fun _ _ _ => Silent.catching _

/-- No signal comes out of an expression. -/
theorem silent_eval (fuel : Nat) (e : Expr) : Silent (eval fuel e) := by
  induction fuel generalizing e with
  | zero => exact .throw id
  | succ fuel he => exact Silent.law.eval_succ he (fun _ => trivial) e

/-! ## Statements -/

/-- One statement after the other. -/
theorem Jumps.forM {exec : Stmt → Run Unit} (h : ∀ s, Jumps (s.breaks false) s.returns (exec s))
    (ss : List Stmt) :
    Jumps (Stmt.allBreaks false ss) (Stmt.allReturns ss) (ss.forM exec) := by
  induction ss with
  | nil => exact .pure ()
  | cons s ss ih =>
    refine Passes.bind ((h s).mono ?_ ?_) fun _ => ih.mono ?_ ?_
    · exact List.subset_append_left _ _
    · exact List.subset_append_left _ _
    · exact List.subset_append_right _ _
    · exact List.subset_append_right _ _

/-- A loop catches every `break` of its body. -/
theorem Jumps.breakable {bs : List (Place × Bool)} {rs : List Place} {body rest : Run Unit}
    (h : Jumps bs rs body) (hr : Jumps [] rs rest) : Jumps [] rs (breakable body rest) := by
  intro m i m' hb
  unfold Run.breakable at hb
  split at hb
  · exact hr _ _ _ hb
  · cases hb
  · next j _ hno hs =>
    cases hb
    have hj := h _ _ _ hs
    cases i with
    | breaking place => exact absurd rfl (hno place)
    | returning => exact hj
    | fault | exhausted => trivial

/-- A loop with one more unit of fuel. -/
theorem Jumps.loop_succ {fuel : Nat} {test : Expr} {body : Stmt}
    (hx : Jumps (body.breaks false) body.returns (exec fuel body))
    (hl : Jumps [] body.returns (loop fuel test body)) :
    Jumps [] body.returns (loop (fuel + 1) test body) := by
  rw [LoxLang.loop_succ]
  refine Passes.bind ((silent_eval fuel test).jumps _ _) fun v => ?_
  split
  · exact Jumps.breakable hx hl
  · exact .pure ()

/-- A statement with one more unit of fuel. -/
theorem Jumps.exec_succ {fuel : Nat}
    (hx : ∀ s, Jumps (s.breaks false) s.returns (exec fuel s))
    (hl : ∀ test (body : Stmt), Jumps [] body.returns (loop fuel test body)) (s : Stmt) :
    Jumps (s.breaks false) s.returns (exec (fuel + 1) s) := by
  have he (e : Expr) (bs : List (Place × Bool)) (rs : List Place) : Jumps bs rs (eval fuel e) :=
    (silent_eval fuel e).jumps bs rs
  unfold LoxLang.exec
  cases s with
  | expression e => exact (Silent.law.discard (silent_eval fuel e)).jumps _ _
  | print e place => exact (he e _ _).bind fun v => (Silent.print _ place).jumps _ _
  | declare name initial =>
    cases initial with
    | none => exact (Silent.law.define name .nil).jumps _ _
    | some e => exact (he e _ _).bind fun v => (Silent.law.define name v).jumps _ _
  | block body _ =>
    refine Passes.get.bind fun m => ?_
    exact ((Silent.law.newScope m.current).jumps _ _).bind fun scope =>
      .within scope (Jumps.forM hx body)
  | branch test yes no _ =>
    refine (he test _ _).bind fun v => ?_
    cases no with
    | none =>
      split
      · exact hx yes
      · exact .pure ()
    | some no =>
      split
      · exact (hx yes).mono (List.subset_append_left _ _) (List.subset_append_left _ _)
      · exact (hx no).mono (List.subset_append_right _ _) (List.subset_append_right _ _)
  | loop test body _ => exact (hl test body).mono (List.nil_subset _) fun _ => id
  | breakOut place => exact .throw List.mem_cons_self
  | function f =>
    obtain ⟨name, params, body⟩ := f
    exact ((Silent.law.makeFunction _ _ _ _).jumps _ _).bind fun f =>
      (Silent.law.define name _).jumps _ _
  | returnWith value place =>
    cases value with
    | none => exact .throw List.mem_cons_self
    | some e => exact (he e _ _).bind fun v => .throw List.mem_cons_self
  | classDecl name superclass methods =>
    exact (Silent.law.declareClass name superclass methods).jumps _ _

/-- The jumps of a statement are its own, and of a loop the `return`s of its body, by
induction on the fuel. -/
theorem jumps_fuel (fuel : Nat) : (∀ s, Jumps (s.breaks false) s.returns (exec fuel s)) ∧
    ∀ test (body : Stmt), Jumps [] body.returns (loop fuel test body) := by
  induction fuel with
  | zero => exact ⟨fun _ => .throw trivial, fun _ _ => .throw trivial⟩
  | succ fuel ih =>
    obtain ⟨hx, hl⟩ := ih
    exact ⟨.exec_succ hx hl, fun test body => .loop_succ (hx body) (hl test body)⟩

end Run

open Run

/-- Signals are contained, on any machine and with any tree. No signal comes out of an
expression or out of the call of a host function, a function or a class, whatever statements
do. A `break` comes out of a statement only from the place of one that no loop of the
statement is around, a `return` only from the place of one; those of functions inside it do
not count. -/
theorem signals_contained :
    (∀ (fuel : Nat) (e : Expr), Silent (eval fuel e)) ∧
    (∀ (f : Native) (arguments : List Value) (place : Place),
      Silent (callNative f arguments place)) ∧
    (∀ (exec : Stmt → Run Unit) (f : Closure) (arguments : List Value) (place : Place),
      Silent (callClosure exec f arguments place)) ∧
    (∀ (exec : Stmt → Run Unit) (c : Class) (arguments : List Value) (place : Place),
      Silent (construct exec c arguments place)) ∧
    ∀ (fuel : Nat) (s : Stmt), Jumps (s.breaks false) s.returns (exec fuel s) := by
  refine ⟨silent_eval, Silent.law.callNative, ?_, ?_, fun fuel => (jumps_fuel fuel).1⟩
  · exact fun _ => Silent.law.callClosure fun _ => trivial
  · exact fun _ => Silent.law.construct fun _ => trivial

end LoxLang
