import LoxLang.Proofs.Objects.Upholds
import LoxLang.Proofs.Session.Kept

/-!
# Runs keep machines whole

Calls keep a machine whole if the statements of bodies do, and every construct if its parts
do; `upholds_fuel` ties them by induction on the fuel. So whatever is evaluated on a whole
machine, nothing that the machine has made is forgotten.
-/

namespace LoxLang

open Scoping

namespace Watching

variable {t : Watched}

/-- Statements keep a whole machine whole. -/
def ExecUpholds (exec : Site → Stmt → Watching Unit) : Prop :=
  ∀ (σ : Site) (s : Stmt) (t : Watched), t.machine.Whole → s.Regular →
    Upholds t (exec σ s) fun _ _ => True

/-- Expressions keep a whole machine whole, and so are their values. -/
def EvalUpholds (eval : Site → Expr → Watching Value) : Prop :=
  ∀ (σ : Site) (e : Expr) (t : Watched), t.machine.Whole → e.Regular →
    Upholds t (eval σ e) fun v m => v.Whole m

/-- Loops keep a whole machine whole. -/
def LoopUpholds (loop : Site → Expr → Stmt → Watching Unit) : Prop :=
  ∀ (σ : Site) (test : Expr) (body : Stmt) (t : Watched), t.machine.Whole → test.Regular →
    body.Regular → Upholds t (loop σ test body) fun _ _ => True

namespace Upholds

/-! ## Calls -/

theorem bindParams (scope : ScopeId) : ∀ (params : List Name) {vs : List Value} {t : Watched},
    t.machine.Whole → (∀ p ∈ params, p.IsOrdinary) → (∀ v ∈ vs, v.Whole t.machine) →
    Upholds t (step (Run.bindParams scope params vs)) fun _ _ => True
  | [], _, _, ht, _, _ => .pure ht trivial
  | _ :: _, [], _, ht, _, _ => .pure ht trivial
  | p :: ps, v :: vs, t, ht, hp, hv => by
    obtain ⟨hp, hps⟩ := List.forall_mem_cons.1 hp
    obtain ⟨hv, hvs⟩ := List.forall_mem_cons.1 hv
    rw [Run.bindParams, step_bind]
    refine (bindIn ht scope hp.1 hv).bind fun _ u ha _ => ?_
    exact bindParams scope ps ha.whole hps fun w hw => (hvs w hw).mono ha.keeps

theorem callNative (ht : t.machine.Whole) (f : Native) {vs : List Value}
    (hv : ∀ v ∈ vs, v.Whole t.machine) (place : Place) :
    Upholds t (step (Run.callNative f vs place)) fun v m => v.Whole m := by
  unfold Run.callNative
  cases f with
  | clock => exact .readClock ht
  | first _ =>
    cases vs with
    | nil => exact .fail ht _ _
    | cons v _ => exact .pure ht (hv v List.mem_cons_self)

section
variable {exec : Site → Stmt → Watching Unit} (hx : ExecUpholds exec)
include hx

theorem forEach : ∀ (ss : List Stmt) {σ : Site} {t : Watched}, t.machine.Whole →
    Stmt.AllRegular ss → Upholds t (forEach exec σ ss) fun _ _ => True
  | [], _, _, ht, _ => .pure ht trivial
  | s :: ss, σ, t, ht, hs =>
    (hx σ s t ht hs.1).bind fun _ _ ha _ => forEach ss ha.whole hs.2

theorem callClosure (ht : t.machine.Whole) {f : Closure} (hf : f.Whole t.machine)
    {vs : List Value} (hv : ∀ v ∈ vs, v.Whole t.machine) (place : Place) :
    Upholds t (callClosure exec f vs place) fun v m => v.Whole m := by
  let scope := t.machine.scopes.size
  -- the new scope, with the opener that the record gets
  let inner := (t.record.makers f.identity).body f.params f.body
  let t₁ := t.opening f.scope inner.openers.head?
  let rest : Watching Value := do
    step (Run.bindParams scope f.params vs)
    let v ← Watching.catching (Watching.within scope (Watching.forEach exec inner f.body))
    if f.isInitializer then step (Run.check fun m => m.scopes.getAt f.scope 0 ⟨"this", place⟩)
    else return v
  have hk : t.machine.Keeps t₁.machine := .child _ f.scope
  have ht₁ : t₁.machine.Whole := ht.child f.scope
  refine .of_eq (y := rest) t₁ rfl ⟨hk, ht₁, fun _ hv => .inl hv⟩ ?_
  refine (bindParams scope f.params ht₁ hf.regular.params fun v h => (hv v h).mono hk).bind
    fun _ u ha _ => ?_
  have hrun : Upholds (u.running scope) (Watching.forEach exec inner f.body) fun _ _ => True :=
    forEach hx f.body (ha.whole.running scope) hf.regular.body
  have hbody : Upholds u (Watching.within scope (Watching.forEach exec inner f.body))
      fun _ _ => True := hrun.within ha.whole fun _ _ _ => trivial
  refine hbody.catching.bind fun v u ha hv => ?_
  split
  · exact .getAt ha.whole (fun _ => f.scope) 0 ⟨"this", place⟩
  · exact .pure ha.whole hv

theorem construct (ht : t.machine.Whole) {c : Class} (hc : c.Regular) {vs : List Value}
    (hv : ∀ v ∈ vs, v.Whole t.machine) (place : Place) :
    Upholds t (construct exec c vs place) fun v m => v.Whole m := by
  refine (newObject ht hc).bind ?_
  rintro _ u ha ⟨rfl, ho⟩
  cases hm : c.method? "init" with
  | none => exact .pure ha.whole ho
  | some f =>
    refine (bindMethod ha.whole (hc _ f hm).1 ho).bind fun g w hb hg => ?_
    have hv (v : Value) (h : v ∈ vs) : v.Whole w.machine := (hv v h).mono (ha.trans hb).keeps
    exact (callClosure hx hb.whole hg.1 hv place).discard.bind fun _ z hc _ =>
      .pure hc.whole (ho.mono (hb.trans hc).keeps)

theorem call (ht : t.machine.Whole) {v : Value} (hf : v.Whole t.machine) {vs : List Value}
    (hv : ∀ v ∈ vs, v.Whole t.machine) (place : Place) :
    Upholds t (call exec v vs place) fun v m => v.Whole m := by
  unfold Watching.call
  cases v.arity? with
  | none => exact .fail ht _ _
  | some expected =>
    dsimp only
    split
    · exact .fail ht _ _
    · cases v with
      | native f => exact .callNative ht f hv place
      | function f => exact .callClosure hx ht hf hv place
      | classValue c => exact .construct hx ht hf hv place
      | _ => exact .fail ht _ _

end

/-! ## Expressions -/

theorem forValues {eval : Site → Expr → Watching Value} (he : EvalUpholds eval) :
    ∀ (es : List Expr) {σ : Site} {t : Watched}, t.machine.Whole → Expr.AllRegular es →
    Upholds t (forValues eval σ es) fun vs m => ∀ v ∈ vs, v.Whole m
  | [], _, _, ht, _ => .pure ht fun _ hv => nomatch hv
  | e :: es, σ, t, ht, hs => by
    refine (he σ e t ht hs.1).bind fun v u ha hv => ?_
    refine (forValues he es ha.whole hs.2).bind fun vs u ha hvs => .pure ha.whole ?_
    exact List.forall_mem_cons.2 ⟨hv.mono ha.keeps, hvs⟩

end Upholds

section
variable {fuel : Nat} (he : EvalUpholds (eval fuel)) (hx : ExecUpholds (exec fuel))
include he hx

/-- One step of the evaluation of an expression, for each construct. -/
theorem evalUpholds_succ : EvalUpholds (eval (fuel + 1)) := by
  intro σ e t ht hs
  unfold eval
  refine .visit ht (fun e' he => Node.expression.inj he ▸ hs) fun t₀ h₀ => ?_
  rw [← h₀] at ht
  cases e with
  | literal value _ => exact .pure ht (Value.whole_of_plain (by cases value <;> trivial))
  | group inner _ => exact he σ inner _ ht hs
  | unary op operand _ =>
    refine (he σ operand _ ht hs).bind fun v u ha _ => ?_
    exact .lift ha.whole (op.plainly_apply _) fun _ => False.elim
  | binary op left right place =>
    refine (he σ left _ ht hs.1).bind fun l u ha hl => ?_
    split
    · exact .pure ha.whole hl
    · refine (he _ right _ ha.whole hs.2).bind fun r u ha hr => ?_
      exact .lift ha.whole (op.plainly_apply _ _ place) fun v hv => hv ▸ hr
  | sequence items _ =>
    refine (Upholds.forValues he items ht hs).bind fun vs u ha hvs => .pure ha.whole ?_
    rw [List.getLastD_eq_getLast?]
    cases hl : vs.getLast? with
    | none => trivial
    | some v => exact hvs v (List.mem_of_getLast? hl)
  | read target => exact .readVariable ht target
  | assign target value =>
    obtain ⟨hn, hs⟩ := hs
    refine (he σ value _ ht hs).bind fun v u ha hv => ?_
    refine .visit ha.whole (by simp) fun u₀ h₀ => ?_
    rw [← h₀] at hv
    refine (Upholds.assignVariable (h₀ ▸ ha.whole) hn hv).bind fun _ u ha _ => ?_
    exact .pure ha.whole (hv.mono ha.keeps)
  | call callee arguments place =>
    refine (he σ callee _ ht hs.1).bind fun f u ha hf => ?_
    refine (Upholds.forValues he arguments ha.whole hs.2).bind fun vs u ha hvs => ?_
    exact .call hx ha.whole (hf.mono ha.keeps) hvs place
  | lambda params body _ =>
    exact (Upholds.makePlain ht σ _ _ hs.1 hs.2).bind fun f u ha hf => .pure ha.whole hf
  | get object property =>
    exact (he σ object _ ht hs).bind fun v u ha hv => .readProperty ha.whole hv property
  | set object property value =>
    refine (he σ object _ ht hs.1).bind fun v u ha hv => ?_
    cases v with
    | object i c =>
      refine (he _ value _ ha.whole hs.2).bind fun w u ha hw => ?_
      refine (Upholds.setField ha.whole i property.text hw).bind fun _ u ha _ => ?_
      exact .pure ha.whole (hw.mono ha.keeps)
    | _ => exact .fail ha.whole _ _
  | this depth place => exact .readThis ht depth place
  | super method depth place => exact .readSuper ht method depth place

/-- One step of the run of a statement, for each construct. -/
theorem execUpholds_succ (hl : LoopUpholds (loop fuel)) : ExecUpholds (exec (fuel + 1)) := by
  intro σ s t ht hs
  unfold exec
  refine .visit ht (by simp) fun t₀ h₀ => ?_
  rw [← h₀] at ht
  clear h₀
  cases s with
  | expression e => exact (he σ e _ ht hs).discard
  | print e place => exact (he σ e _ ht hs).bind fun v u ha _ => .print ha.whole _ place
  | declare name initial =>
    cases initial with
    | none => exact .define ht hs trivial
    | some e => exact (he _ e _ ht hs.2).bind fun v u ha hv => .define ha.whole hs.1 hv
  | block body place =>
    refine (Upholds.get ht).bind fun m u ha hm => ?_
    subst hm
    let scope := u.machine.scopes.size
    let u₁ := u.opening u.machine.current (some ⟨σ.source, .block body place⟩)
    let inner := σ.inside (.block body place) (openScope σ.walk).2
    have hu : u₁.machine.Whole := ha.whole.child _
    have hbody : Upholds (u₁.running scope) (forEach (exec fuel) inner body) fun _ _ => True :=
      Upholds.forEach hx body (hu.running scope) hs
    exact .of_eq (y := within scope (forEach (exec fuel) inner body)) u₁ rfl
      ⟨.child _ _, hu, fun _ hv => .inl hv⟩ (hbody.within hu fun _ _ _ => trivial)
  | branch test yes no place =>
    cases no with
    | none =>
      obtain ⟨ht', -, hy⟩ := hs
      refine (he _ test _ ht ht').bind fun v u ha _ => ?_
      split
      · exact hx _ yes u ha.whole hy
      · exact .pure ha.whole trivial
    | some no =>
      obtain ⟨ht', ⟨-, hy⟩, -, hn⟩ := hs
      refine (he _ test _ ht ht').bind fun v u ha _ => ?_
      split
      · exact hx _ yes u ha.whole hy
      · exact hx _ no u ha.whole hn
  | loop test body place => exact hl σ test body _ ht hs.1 hs.2.2
  | breakOut p => exact .throw ht trivial
  | function f =>
    cases f with
    | mk name params body =>
      obtain ⟨hn, hp, hb⟩ := hs
      exact (Upholds.makePlain ht _ _ name.text hp hb).bind fun f u ha hf =>
        .define ha.whole hn hf
  | returnWith value place =>
    cases value with
    | none => exact .throw ht trivial
    | some e => exact (he _ e _ ht hs).bind fun v u ha hv => .throw ha.whole hv
  | classDecl name superclass methods => exact .declareClass ht σ hs.1 superclass hs.2

/-- One round of a loop. -/
theorem loopUpholds_succ (hl : LoopUpholds (loop fuel)) : LoopUpholds (loop (fuel + 1)) := by
  intro σ test body t ht hs hb
  rw [loop_succ]
  refine (he σ test t ht hs).bind fun v u ha _ => ?_
  split
  · exact (hx _ body u ha.whole hb).breakable fun w hw => hl σ test body w hw.whole hs hb
  · exact .pure ha.whole trivial

end

/-- Every run keeps a whole machine whole, with any fuel. -/
theorem upholds_fuel (fuel : Nat) :
    EvalUpholds (eval fuel) ∧ ExecUpholds (exec fuel) ∧ LoopUpholds (loop fuel) := by
  induction fuel with
  | zero =>
    exact ⟨fun _ _ _ ht _ => .throw ht trivial, fun _ _ _ ht _ => .throw ht trivial,
      fun _ _ _ _ ht _ _ => .throw ht trivial⟩
  | succ fuel ih =>
    obtain ⟨he, hx, hl⟩ := ih
    exact ⟨evalUpholds_succ he hx, execUpholds_succ he hx hl, loopUpholds_succ he hx hl⟩

end Watching

/-! ## Runs that nothing watches -/

namespace Run

variable {α : Type}

/-- The step keeps a machine whole, and `post` holds of its value and machine then. -/
def Upholds (m : Machine) (step : Run α) (post : α → Machine → Prop) : Prop :=
  match step m with
  | .ok a n => m.Keeps n ∧ n.Whole ∧ post a n
  | .error i n => m.Keeps n ∧ n.Whole ∧ i.Whole n

section
variable {m n : Machine} {step : Run α} {post : α → Machine → Prop}

theorem Upholds.ok (h : Upholds m step post) {a : α} (hs : step m = .ok a n) :
    m.Keeps n ∧ n.Whole ∧ post a n := by
  unfold Upholds at h
  rw [hs] at h
  exact h

/-- However the step ends. -/
theorem Upholds.endOf (h : Upholds m step post) :
    m.Keeps (endOf (step m)) ∧ (Run.endOf (step m)).Whole := by
  unfold Upholds at h
  cases hs : step m with
  | ok a n =>
    rw [hs] at h
    exact ⟨h.1, h.2.1⟩
  | error i n =>
    rw [hs] at h
    exact ⟨h.1, h.2.1⟩

end

/-- What a watched step keeps whole the step does. -/
theorem upholds_of_watching {t : Watched} {x : Watching α} {step : Run α}
    {post : α → Machine → Prop} (h : Watching.Upholds t x post) (he : Watching.Erases x step) :
    Upholds t.machine step post := by
  unfold Watching.Upholds at h
  unfold Upholds
  rw [← he t]
  cases hx : x t with
  | ok a u =>
    rw [hx] at h
    exact ⟨h.1.keeps, h.1.whole, h.2⟩
  | error i u =>
    rw [hx] at h
    exact ⟨h.1.keeps, h.1.whole, h.2⟩

section
variable {m : Machine} (hm : m.Whole)
include hm

theorem upholds_eval (fuel : Nat) {e : Expr} (he : e.Regular) :
    Upholds m (eval fuel e) fun v n => v.Whole n :=
  upholds_of_watching (t := ⟨m, Record.start⟩)
    ((Watching.upholds_fuel fuel).1 (Record.start.makers 0).site e _ hm he)
    (Watching.erases_eval fuel _ e)

theorem upholds_values (fuel : Nat) {es : List Expr} (hs : Expr.AllRegular es) :
    Upholds m (es.mapM (eval fuel)) fun vs n => ∀ v ∈ vs, v.Whole n :=
  upholds_of_watching (t := ⟨m, Record.start⟩)
    (Watching.Upholds.forValues (σ := (Record.start.makers 0).site)
      (Watching.upholds_fuel fuel).1 es hm hs)
    (Watching.Erases.forValues (Watching.erases_eval fuel) _ es)

theorem upholds_body (fuel : Nat) {ss : List Stmt} (hs : Stmt.AllRegular ss) :
    Upholds m (ss.forM (exec fuel)) fun _ _ => True :=
  upholds_of_watching (t := ⟨m, Record.start⟩)
    (Watching.Upholds.forEach (σ := (Record.start.makers 0).site)
      (Watching.upholds_fuel fuel).2.1 ss hm hs)
    (Watching.Erases.forEach (Watching.erases_exec fuel) _ ss)

end

end Run

end LoxLang
