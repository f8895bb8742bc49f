import LoxLang.Proofs.Machine.Composition
import LoxLang.Proofs.Renaming.Run
import LoxLang.Proofs.Session.Kept

/-!
# A run is back where it started

Blocks, calls and classes run in scopes of their own. However a step ends, with a value, a
fault, a `break` or a `return`, the machine then runs in the scope that it ran in before.
`Restores` says so of one step, and holds of every expression and statement on any machine,
whatever depths the tree has. So between two requests a host always runs in the global
scope.
-/

namespace LoxLang

/-- The machine runs in the same scope as before and has the same global one. -/
structure Machine.Stays (m n : Machine) : Prop where
  current : n.current = m.current
  globals : n.globals = m.globals

theorem Machine.Stays.refl (m : Machine) : m.Stays m := ⟨rfl, rfl⟩

theorem Machine.Stays.trans {m n p : Machine} (h : m.Stays n) (h' : n.Stays p) : m.Stays p :=
  ⟨h'.current.trans h.current, h'.globals.trans h.globals⟩

namespace Run

variable {α β : Type}

/-- However the step ends, the machine is back in the scope that it came from. -/
def Restores (step : Run α) : Prop := ∀ m : Machine, m.Stays (endOf (step m))

namespace Restores

variable {step : Run α}

/-! ## Laws -/

theorem pure (a : α) : Restores (pure a) := fun m => .refl m

theorem throw (i : Interrupt) : Restores (throw i : Run α) := fun m => .refl m

theorem fail (place : Place) (cause : FaultCause) : Restores (fail place cause : Run α) :=
  throw _

theorem get : Restores get := fun m => .refl m

theorem bind {k : α → Run β} (h : Restores step) (hk : ∀ a, Restores (k a)) :
    Restores (step >>= k) := by
  intro m
  have hm := h m
  rw [bind_apply]
  cases he : step m with
  | ok a n =>
    rw [he] at hm
    exact hm.trans (hk a n)
  | error i n =>
    rw [he] at hm
    exact hm

/-- Wherever the step itself would leave the machine, it is brought back. -/
theorem within (scope : ScopeId) (h : Restores step) : Restores (within scope step) := by
  intro m
  have hm := h { m with current := scope }
  unfold Run.within
  dsimp only
  cases he : step { m with current := scope } with
  | ok a n =>
    rw [he] at hm
    exact ⟨rfl, hm.globals⟩
  | error i n =>
    rw [he] at hm
    exact ⟨rfl, hm.globals⟩

theorem catching {body : Run Unit} (h : Restores body) : Restores (catching body) := by
  intro m
  have hm := h m
  unfold Run.catching
  cases he : body m with
  | ok _ n =>
    rw [he] at hm
    exact hm
  | error i n =>
    rw [he] at hm
    cases i <;> exact hm

/-- A `break` that is caught brings the scope back as the body does. -/
theorem breakable {body rest : Run Unit} (h : Restores body) (hr : Restores rest) :
    Restores (breakable body rest) := by
  intro m
  have hm := h m
  unfold Run.breakable
  cases he : body m with
  | ok _ n =>
    rw [he] at hm
    exact hm.trans (hr n)
  | error i n =>
    rw [he] at hm
    cases i <;> exact hm

/-- A step that brings the scope back does so for each of a list. -/
theorem forM {β : Type} {step : β → Run Unit} (h : ∀ b, Restores (step b)) (bs : List β) :
    Restores (bs.forM step) := by
  induction bs with
  | nil => exact pure ()
  | cons b bs ih => exact (h b).bind fun _ => ih

/-! ## Steps on a machine -/

theorem check (look : Machine → Except Fault α) : Restores (check look) := by
  intro m
  unfold Run.check
  cases look m <;> exact .refl m

/-- Binding a value leaves the current scope alone. -/
theorem store (choose : Machine → Except Fault ScopeId) (name : String) (v : Value) :
    Restores (store choose name v) := by
  intro m
  unfold Run.store
  cases choose m <;> exact ⟨rfl, rfl⟩

theorem newIdentity : Restores newIdentity := fun _ => ⟨rfl, rfl⟩

theorem newObject (c : Class) : Restores (newObject c) := fun _ => ⟨rfl, rfl⟩

theorem newScope (parent : ScopeId) : Restores (newScope parent) := fun _ => ⟨rfl, rfl⟩

theorem bindIn (scope : ScopeId) (name : String) (v : Value) :
    Restores (bindIn scope name v) := fun _ => ⟨rfl, rfl⟩

theorem setField (object : Nat) (name : String) (v : Value) :
    Restores (setField object name v) := fun _ => ⟨rfl, rfl⟩

theorem readClock : Restores readClock := fun _ => ⟨rfl, rfl⟩

theorem print (text : String) (place : Place) : Restores (print text place) := by
  intro m
  unfold Run.print
  dsimp only
  cases (m.sink.put text).2 <;> exact ⟨rfl, rfl⟩

/-- What is put together from steps that restore the scope restores it. -/
theorem law : Law @Restores Restores where
  pure := pure
  fail := fail
  bind := bind
  get := get
  check := check
  store := store
  newIdentity := newIdentity
  newObject := newObject
  newScope := newScope
  bindIn := bindIn
  setField := setField
  readClock := readClock
  within scope _ := within scope
  body hx scope ss := (within scope (forM hx ss)).catching

/-! ## Statements -/

section
variable {fuel : Nat} (he : ∀ e, Restores (eval fuel e)) (hx : ∀ s, Restores (exec fuel s))
include he hx

theorem exec_succ (hl : ∀ test body, Restores (loop fuel test body)) (s : Stmt) :
    Restores (exec (fuel + 1) s) := by
  unfold LoxLang.exec
  cases s with
  | expression e => exact law.discard (he e)
  | print e place => exact (he e).bind fun v => print _ place
  | declare name initial =>
    cases initial with
    | none => exact law.define name .nil
    | some e => exact (he e).bind fun v => law.define name v
  | block body _ =>
    exact get.bind fun m => (newScope m.current).bind fun scope => within scope (forM hx body)
  | branch test yes no _ =>
    refine (he test).bind fun v => ?_
    split
    · exact hx yes
    · cases no with
      | none => exact pure ()
      | some no => exact hx no
  | loop test body _ => exact hl test body
  | breakOut place => exact throw _
  | function f =>
    obtain ⟨name, params, body⟩ := f
    exact (law.makeFunction _ _ _ _).bind fun f => law.define name _
  | returnWith value place =>
    cases value with
    | none => exact throw _
    | some e => exact (he e).bind fun v => throw _
  | classDecl name superclass methods => exact law.declareClass name superclass methods

/-- A round of a loop brings the scope back if the rounds behind it do. -/
theorem loop_succ (hl : ∀ test body, Restores (loop fuel test body)) (test : Expr)
    (body : Stmt) : Restores (loop (fuel + 1) test body) := by
  rw [LoxLang.loop_succ]
  refine (he test).bind fun v => ?_
  split
  · exact breakable (hx body) (hl test body)
  · exact pure ()

end

end Restores

/-- Whatever runs, with any fuel, is back in the scope that it came from. -/
theorem restores_fuel (fuel : Nat) : (∀ e, Restores (eval fuel e)) ∧
    (∀ s, Restores (exec fuel s)) ∧ ∀ test body, Restores (loop fuel test body) := by
  induction fuel with
  | zero => exact ⟨fun _ => .throw _, fun _ => .throw _, fun _ _ => .throw _⟩
  | succ fuel ih =>
    obtain ⟨he, hx, hl⟩ := ih
    exact ⟨Restores.law.eval_succ he hx, .exec_succ he hx hl, .loop_succ he hx hl⟩

end Run

/-! ## Hosts -/

namespace Host

open Run (Restores restores_fuel)

/-- The host has this global scope, and runs in it. -/
structure Idle (root : ScopeId) (h : Host) : Prop where
  globals : h.machine.globals = root
  current : h.machine.current = root

/-- Nothing that a host does to its machine moves either scope. -/
theorem kept_idle (root : ScopeId) :
    Machine.Kept fun m => m.globals = root ∧ m.current = root where
  eval fuel e m h :=
    have hm := (restores_fuel fuel).1 e m
    ⟨hm.globals.trans h.1, hm.current.trans h.2⟩
  exec fuel s m h :=
    have hm := (restores_fuel fuel).2.1 s m
    ⟨hm.globals.trans h.1, hm.current.trans h.2⟩
  clearGlobals _ h := ⟨h.1, h.1⟩
  setAllowRedefinition _ _ h := h

theorem idle_after (config : Config) (sink : Sink) (clock : Clock) (past : List (Nat × Request)) :
    (after config sink clock past).Idle (start config sink clock).machine.globals := by
  obtain ⟨hg, hc⟩ := (kept_idle (start config sink clock).machine.globals).after ⟨rfl, rfl⟩ past
  exact ⟨hg, hc⟩

/-- The current scope is restored however an expression or a statement ends, on any machine
and with any tree, and the global one never changes. Whatever a host has done, it is in the
global scope between two requests. -/
theorem current_restored :
    (∀ (fuel : Nat) (e : Expr) (m : Machine), m.Stays (Run.endOf (eval fuel e m))) ∧
    (∀ (fuel : Nat) (s : Stmt) (m : Machine), m.Stays (Run.endOf (exec fuel s m))) ∧
    ∀ (config : Config) (sink : Sink) (clock : Clock) (past : List (Nat × Request)),
      let m := (after config sink clock past).machine
      m.current = m.globals ∧ m.globals = (start config sink clock).machine.globals := by
  refine ⟨fun fuel => (restores_fuel fuel).1, fun fuel => (restores_fuel fuel).2.1, ?_⟩
  intro config sink clock past
  have hi := idle_after config sink clock past
  exact ⟨hi.current.trans hi.globals.symm, hi.globals⟩

end Host

end LoxLang
