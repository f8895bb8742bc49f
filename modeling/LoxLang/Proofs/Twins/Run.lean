import LoxLang.Proofs.Renaming.Run
import LoxLang.Proofs.Twins.Steps

/-!
# Runs of twins

On twin machines the same tree elsewhere does the same, one lemma for each construct;
`TwinStep.fuelled` ties them by induction on the fuel.
-/

namespace LoxLang

open Run

section
variable {R : Place → Place → Prop} {P : Pairs}

namespace TwinStep

/-! ## Names -/

theorem getAt (d : Nat) {n n' : Name} (hn : n.Elsewhere R n') :
    TwinStep R P (Value.Twin R) (Run.check fun m => m.scopes.getAt m.current d n)
      (Run.check fun m => m.scopes.getAt m.current d n') :=
  .check fun _ _ hm => hm.scopes.getAt hm.current d hn

/-- `this` and `super` have no place of their own. -/
theorem getBuiltin (d : Nat) (text : String) {p p' : Place} (hp : R p p') :
    TwinStep R P (Value.Twin R) (Run.check fun m => m.scopes.getAt m.current d ⟨text, p⟩)
      (Run.check fun m => m.scopes.getAt m.current d ⟨text, p'⟩) := .getAt d ⟨rfl, hp⟩

theorem readVariable {r r' : Reference} (hr : r.Elsewhere R r') :
    TwinStep R P (Value.Twin R) (readVariable r) (readVariable r') := by
  unfold Run.readVariable
  rw [hr.depth]
  cases r.depth with
  | some d => exact .getAt d hr.name
  | none => exact .check fun _ _ hm => hm.get hr.name

theorem assignVariable {r r' : Reference} (hr : r.Elsewhere R r') {v v' : Value}
    (hv : v.Twin R P v') :
    TwinStep R P anyValues (assignVariable r v) (assignVariable r' v') := by
  unfold Run.assignVariable
  rw [hr.depth, hr.name.text]
  cases r.depth with
  | some d => exact .store _ hv fun _ _ hm => hm.scopes.holderAt hm.current d hr.name
  | none => exact .store _ hv fun _ _ hm => hm.holder hr.name

theorem define {n n' : Name} (hn : n.Elsewhere R n') {v v' : Value} (hv : v.Twin R P v') :
    TwinStep R P anyValues (define n v) (define n' v') := by
  unfold Run.define
  rw [hn.text]
  exact .store _ hv fun _ _ hm => hm.scopes.definable hm.current hn

theorem readThis (depth : Option Nat) {p p' : Place} (hp : R p p') :
    TwinStep R P (Value.Twin R) (readThis depth p) (readThis depth p') := by
  unfold Run.readThis
  cases depth with
  | none => exact .fail hp _
  | some d => exact .getBuiltin d "this" hp

/-! ## Functions and classes -/

/-- A function made on both sides is a twin of the other. -/
theorem makeFunction {ps ps' : List Name} {ss ss' : List Stmt} (hp : Name.AllElsewhere R ps ps')
    (hs : Stmt.AllElsewhere R ss ss') (name : String) (isInitializer : Bool) :
    TwinStep R P (Closure.Twin R) (makeFunction name ps ss isInitializer)
      (makeFunction name ps' ss' isInitializer) :=
  TwinStep.newIdentity.bind fun _ _ _ _ hi => TwinStep.get.bind fun _ _ _ le hm =>
    .pure ⟨le.made hi, rfl, hp, hs, hm.current, rfl⟩

theorem bindMethod {f f' : Closure} (hf : f.Twin R P f') {v v' : Value} (hv : v.Twin R P v') :
    TwinStep R P (Closure.Twin R) (bindMethod f v) (bindMethod f' v') := by
  unfold Run.bindMethod
  refine (TwinStep.newScope hf.scope).bind fun Q id id' hQ hid => ?_
  refine (TwinStep.bindIn hid "this" (hv.mono hQ)).bind fun S _ _ hS _ => ?_
  exact TwinStep.newIdentity.bind fun T i i' hT hi =>
    .pure { hf with identity := hi, scope := hT.scopes (hS.scopes hid) }

theorem makeMethods {fs fs' : List Function} (h : Function.AllElsewhere R fs fs')
    {t t' : Bindings Closure} (ht : Class.TableTwin R P t t') :
    TwinStep R P (Class.TableTwin R) (makeMethods fs t) (makeMethods fs' t') := by
  induction fs generalizing fs' P t t' with
  | nil =>
    cases h
    exact .pure ht
  | cons f fs ih =>
    cases h with
    | cons hf hfs =>
      cases hf with
      | mk hn hp hs =>
        unfold Run.makeMethods
        dsimp only [Function.name, Function.params, Function.body]
        rw [hn.text]
        exact (TwinStep.makeFunction hp hs _ _).bind fun Q g g' hQ hg =>
          ih hfs ((ht.mono hQ).insert _ hg)

theorem readSuperclass {r r' : Reference} (hr : r.Elsewhere R r') :
    TwinStep R P (Class.Twin R) (readSuperclass r) (readSuperclass r') := by
  unfold Run.readSuperclass
  refine (TwinStep.readVariable hr).bind fun Q v v' _ hv => ?_
  cases hv with
  | classValue hc => exact .pure hc
  | plain hp => cases v <;> first | exact hp.elim | exact .fail hr.name.place _
  | function => exact .fail hr.name.place _
  | object => exact .fail hr.name.place _

/-- The class of a declaration gets its identity and is bound. -/
theorem nameClass {n n' : Name} (hn : n.Elsewhere R n') {c c' : Option Class}
    (hc : Option.Rel (Class.Twin R P) c c') {t t' : Bindings Closure}
    (ht : Class.TableTwin R P t t') :
    TwinStep R P anyValues
      (Run.newIdentity >>= fun i => Run.define n (.classValue (.mk i n.text c t)))
      (Run.newIdentity >>= fun i => Run.define n' (.classValue (.mk i n'.text c' t'))) := by
  rw [hn.text]
  refine TwinStep.newIdentity.bind fun Q i i' hQ hi => .define hn (.classValue ?_)
  cases hc with
  | none => exact .plain hi (ht.mono hQ)
  | some hc => exact .derived hi (hc.mono hQ) (ht.mono hQ)

theorem declarePlain {n n' : Name} (hn : n.Elsewhere R n') {fs fs' : List Function}
    (hs : Function.AllElsewhere R fs fs') :
    TwinStep R P anyValues (declareClass n none fs) (declareClass n' none fs') := by
  unfold Run.declareClass
  exact (TwinStep.makeMethods hs .nil).bind fun Q t t' _ ht => .nameClass hn .none ht

/-- A subclass declared on both sides is a twin of the other. -/
theorem declareDerived {n n' : Name} (hn : n.Elsewhere R n') {r r' : Reference}
    (hr : r.Elsewhere R r') {fs fs' : List Function} (hs : Function.AllElsewhere R fs fs') :
    TwinStep R P anyValues (declareClass n (some r) fs) (declareClass n' (some r') fs') := by
  unfold Run.declareClass
  refine (TwinStep.readSuperclass hr).bind fun Q c c' _ hc =>
    TwinStep.get.bind fun S m m' hS hm => ?_
  refine (TwinStep.newScope hm.current).bind fun T id id' hT hid => ?_
  have hc := hc.mono (hS.trans hT)
  refine (TwinStep.bindIn hid "super" (.classValue hc)).bind fun U _ _ hU _ => ?_
  refine (TwinStep.within (hU.scopes hid) (.makeMethods hs .nil)).bind fun V t t' hV ht => ?_
  exact .nameClass hn (.some (hc.mono (hU.trans hV))) ht

/-- The method that a class has under a name, or a fault. -/
theorem method {c c' : Class} (hc : c.Twin R P c') {v v' : Value} (hv : v.Twin R P v')
    {n n' : Name} (hn : n.Elsewhere R n') :
    TwinStep R P (Value.Twin R)
      (match c.method? n.text with
        | some f => do return .function (← Run.bindMethod f v)
        | none => Run.fail n.place (.undefinedProperty n.text) : Run Value)
      (match c'.method? n'.text with
        | some f => do return .function (← Run.bindMethod f v')
        | none => Run.fail n'.place (.undefinedProperty n'.text) : Run Value) := by
  have hm := hc.method? n.text
  rw [hn.text]
  generalize c.method? n.text = o at hm ⊢
  generalize c'.method? n.text = o' at hm ⊢
  cases hm with
  | none => exact .fail hn.place _
  | some hf => exact (TwinStep.bindMethod hf hv).bind fun Q g g' _ hg => .pure (.function hg)

theorem readSuper {n n' : Name} (hn : n.Elsewhere R n') (depth : Option Nat) {p p' : Place}
    (hp : R p p') : TwinStep R P (Value.Twin R) (readSuper n depth p) (readSuper n' depth p') := by
  unfold Run.readSuper
  match depth with
  | none => exact .fail hp _
  | some 0 => exact .fail hp _
  | some (d + 1) =>
    refine (TwinStep.getBuiltin (d + 1) "super" hp).bind fun Q s s' _ hs =>
      (TwinStep.getBuiltin d "this" hp).bind fun S v v' hS hv => ?_
    have hs := hs.mono hS
    cases hs with
    | classValue hc =>
      cases hv with
      | object hi hd => exact .method hc (.object hi hd) hn
      | plain hv => cases v <;> first | exact hv.elim | exact .fail hp _
      | function => exact .fail hp _
      | classValue => exact .fail hp _
    | plain hq => cases s <;> first | exact hq.elim | exact .fail hp _
    | function => exact .fail hp _
    | object => exact .fail hp _

theorem readProperty {v v' : Value} (hv : v.Twin R P v') {n n' : Name} (hn : n.Elsewhere R n') :
    TwinStep R P (Value.Twin R) (readProperty v n) (readProperty v' n') := by
  unfold Run.readProperty
  cases hv with
  | @object i i' c c' hi hc =>
    refine TwinStep.get.bind fun Q m m' hQ hm => ?_
    have ho := hm.objects (hQ.objects hi) n.text
    rw [hn.text]
    generalize (m.fieldsOf i).find? n.text = o at ho ⊢
    generalize (m'.fieldsOf i').find? n.text = o' at ho ⊢
    cases ho with
    | some hv => exact .pure hv
    | none =>
      have hm := TwinStep.method (hc.mono hQ) (.object (hQ.objects hi) (hc.mono hQ)) hn
      rwa [hn.text] at hm
  | plain hv => cases v <;> first | exact hv.elim | exact .fail hn.place _
  | function => exact .fail hn.place _
  | classValue => exact .fail hn.place _

/-! ## Calls -/

/-- Parameters are bound on both sides to values that are twins. -/
theorem bindParams {id id' : ScopeId} (hid : P.scopes.pairs id id') {ps ps' : List Name}
    (hp : Name.AllElsewhere R ps ps') {vs vs' : List Value}
    (hv : List.Forall₂ (Value.Twin R P) vs vs') :
    TwinStep R P anyValues (bindParams id ps vs) (bindParams id' ps' vs') := by
  induction hp generalizing P vs vs' with
  | nil => exact .pure trivial
  | @cons p p' ps ps' hn _ ih =>
    cases hv with
    | nil => exact .pure trivial
    | cons hv hvs =>
      unfold Run.bindParams
      rw [hn.text]
      exact (TwinStep.bindIn hid p.text hv).bind fun Q _ _ hQ _ =>
        ih (hQ.scopes hid) (hvs.imp fun _ _ => .mono hQ)

theorem callNative (f : Native) {vs vs' : List Value}
    (hv : List.Forall₂ (Value.Twin R P) vs vs') {p p' : Place} (hp : R p p') :
    TwinStep R P (Value.Twin R) (callNative f vs p) (callNative f vs' p') := by
  unfold Run.callNative
  cases f with
  | clock => exact .readClock
  | first _ =>
    cases hv with
    | nil => exact .fail hp _
    | cons hv _ => exact .pure hv

end TwinStep

/-- The same statement elsewhere does the same on twins, whatever the pairs. -/
def ExecTwin (R : Place → Place → Prop) (exec : Stmt → Run Unit) : Prop :=
  ∀ (P : Pairs) (s s' : Stmt), s.Elsewhere R s' → TwinStep R P anyValues (exec s) (exec s')

/-- The same expression elsewhere has twin values. -/
def EvalTwin (R : Place → Place → Prop) (eval : Expr → Run Value) : Prop :=
  ∀ (P : Pairs) (e e' : Expr), e.Elsewhere R e' → TwinStep R P (Value.Twin R) (eval e) (eval e')

namespace TwinStep

section
variable {exec : Stmt → Run Unit} (hx : ExecTwin R exec)
include hx

theorem forM {ss ss' : List Stmt} (h : Stmt.AllElsewhere R ss ss') :
    TwinStep R P anyValues (ss.forM exec) (ss'.forM exec) := by
  induction ss generalizing ss' P with
  | nil =>
    cases h
    exact .pure trivial
  | cons s ss ih =>
    cases h with
    | cons hs hss => exact (hx P _ _ hs).bind fun Q _ _ _ _ => ih hss

theorem callClosure {f f' : Closure} (hf : f.Twin R P f') {vs vs' : List Value}
    (hv : List.Forall₂ (Value.Twin R P) vs vs') {p p' : Place} (hp : R p p') :
    TwinStep R P (Value.Twin R) (callClosure exec f vs p) (callClosure exec f' vs' p') := by
  unfold Run.callClosure
  rw [hf.isInitializer]
  refine (TwinStep.newScope hf.scope).bind fun Q id id' hQ hid => ?_
  refine (TwinStep.bindParams hid hf.params (hv.imp fun _ _ => .mono hQ)).bind fun S _ _ hS _ => ?_
  refine (TwinStep.within (hS.scopes hid) (.forM hx hf.body)).catching.bind fun T v v' hT hv => ?_
  split
  · exact .check fun m m' hm =>
      hm.scopes.getAt (hT.scopes (hS.scopes (hQ.scopes hf.scope))) 0 ⟨rfl, hp⟩
  · exact .pure hv

theorem construct {c c' : Class} (hc : c.Twin R P c') {vs vs' : List Value}
    (hv : List.Forall₂ (Value.Twin R P) vs vs') {p p' : Place} (hp : R p p') :
    TwinStep R P (Value.Twin R) (construct exec c vs p) (construct exec c' vs' p') := by
  refine (TwinStep.newObject hc).bind fun Q o o' hQ ho => ?_
  have hm := (hc.mono hQ).method? "init"
  generalize c.method? "init" = i at hm ⊢
  generalize c'.method? "init" = i' at hm ⊢
  cases hm with
  | none => exact .pure ho
  | some hf =>
    refine (TwinStep.bindMethod hf ho).bind fun S g g' hS hg => ?_
    have hv := hv.imp fun _ _ => Value.Twin.mono (hQ.trans hS)
    exact (TwinStep.callClosure hx hg hv hp).discard.bind fun T _ _ hT _ =>
      .pure (ho.mono (hS.trans hT))

theorem call {v v' : Value} (h : v.Twin R P v') {vs vs' : List Value}
    (hv : List.Forall₂ (Value.Twin R P) vs vs') {p p' : Place} (hp : R p p') :
    TwinStep R P (Value.Twin R) (call exec v vs p) (call exec v' vs' p') := by
  unfold Run.call
  rw [h.arity?, hv.length_eq]
  cases v.arity? with
  | none => exact .fail hp _
  | some expected =>
    dsimp only
    split
    · exact .fail hp _
    · cases h with
      | plain hv' =>
        cases v with
        | native f => exact .callNative f hv hp
        | function | classValue | object => exact hv'.elim
        | _ => exact .fail hp _
      | function hf => exact .callClosure hx hf hv hp
      | classValue hc => exact .construct hx hc hv hp
      | object => exact .fail hp _

end

/-! ## Loops and lists -/

theorem breakable {mid : Pairs → Unit → Unit → Prop} {body body' rest rest' : Run Unit}
    (h : TwinStep R P mid body body')
    (hr : ∀ Q, P.Le Q → TwinStep R Q anyValues rest rest') :
    TwinStep R P anyValues (breakable body rest) (breakable body' rest') := by
  intro m m' hm
  have hb := h m m' hm
  unfold Run.breakable
  generalize body m = r at hb ⊢
  generalize body' m' = r' at hb ⊢
  cases hb with
  | ok le hn _ => exact (hr _ le _ _ hn).before le
  | error le hn hi =>
    cases hi with
    | breaking _ => exact .ok le hn trivial
    | fault hf => exact .error le hn (.fault hf)
    | returning hv hp => exact .error le hn (.returning hv hp)
    | exhausted => exact .error le hn .exhausted

theorem mapM {eval : Expr → Run Value} (he : EvalTwin R eval) {es es' : List Expr}
    (h : Expr.AllElsewhere R es es') :
    TwinStep R P (fun Q => List.Forall₂ (Value.Twin R Q)) (es.mapM eval) (es'.mapM eval) := by
  induction es generalizing es' P with
  | nil =>
    cases h
    exact .pure .nil
  | cons e es ih =>
    cases h with
    | cons hs hes =>
      rw [List.mapM_cons, List.mapM_cons]
      exact (he P _ _ hs).bind fun Q v v' _ hv => (ih hes).bind fun S vs vs' hS hvs =>
        .pure (.cons (hv.mono hS) hvs)

end TwinStep

theorem Value.Twin.getLastD {vs vs' : List Value} (h : List.Forall₂ (Value.Twin R P) vs vs')
    {v v' : Value} (hv : v.Twin R P v') : (vs.getLastD v).Twin R P (vs'.getLastD v') := by
  induction h generalizing v v' with
  | nil => exact hv
  | cons hu _ ih =>
    rw [List.getLastD_cons, List.getLastD_cons]
    exact ih hu

/-! ## Expressions and statements -/

section
variable {fuel : Nat} (he : EvalTwin R (eval fuel)) (hx : ExecTwin R (exec fuel))
include he hx

/-- One step of the evaluation of an expression, for each construct. -/
theorem EvalTwin.succ : EvalTwin R (eval (fuel + 1)) := by
  intro P e e' h
  unfold eval
  cases h with
  | literal value _ => exact .pure (.plain (by cases value <;> trivial))
  | group h _ => exact he P _ _ h
  | unary h _ => exact (he P _ _ h).bind fun Q v v' _ hv => .lift (hv.unary _ h.place)
  | binary hl hr hp =>
    refine (he P _ _ hl).bind fun Q l l' _ hv => ?_
    rw [hv.decidedBy]
    split
    · exact .pure hv
    · exact (he Q _ _ hr).bind fun S r r' hS hw =>
        .lift ((hv.mono hS).binary hw _ hl.place hr.place hp)
  | sequence hs _ =>
    exact (TwinStep.mapM he hs).bind fun Q vs vs' _ hv => .pure (.getLastD hv (.plain trivial))
  | read hr => exact .readVariable hr
  | assign hr h =>
    exact (he P _ _ h).bind fun Q v v' _ hv =>
      (TwinStep.assignVariable hr hv).bind fun S _ _ hS _ => .pure (hv.mono hS)
  | call hf hs hp =>
    exact (he P _ _ hf).bind fun Q f f' _ hf => (TwinStep.mapM he hs).bind fun S vs vs' hS hv =>
      .call hx (hf.mono hS) hv hp
  | lambda hn hs _ =>
    exact (TwinStep.makeFunction hn hs _ _).bind fun Q f f' _ hf => .pure (.function hf)
  | get h hn => exact (he P _ _ h).bind fun Q v v' _ hv => .readProperty hv hn
  | set h hn hw =>
    refine (he P _ _ h).bind fun Q v v' _ hv => ?_
    cases hv with
    | object hi _ =>
      refine (he Q _ _ hw).bind fun S w w' hS hw => ?_
      rw [hn.text]
      exact (TwinStep.setField (hS.objects hi) _ hw).bind fun T _ _ hT _ => .pure (hw.mono hT)
    | plain hv => cases v <;> first | exact hv.elim | exact .fail hn.place _
    | function => exact .fail hn.place _
    | classValue => exact .fail hn.place _
  | this depth hp => exact .readThis depth hp
  | super hn depth hp => exact .readSuper hn depth hp

/-- One step of the run of a statement, for each construct. -/
theorem ExecTwin.succ
    (hl : ∀ (P : Pairs) (e e' : Expr) (s s' : Stmt), e.Elsewhere R e' → s.Elsewhere R s' →
      TwinStep R P anyValues (loop fuel e s) (loop fuel e' s')) :
    ExecTwin R (exec (fuel + 1)) := by
  intro P s s' h
  unfold exec
  cases h with
  | expression h => exact (he P _ _ h).discard
  | print h hp =>
    refine (he P _ _ h).bind fun Q v v' _ hv => ?_
    rw [hv.text]
    exact .print _ hp
  | declare hn => exact .define hn (.plain trivial)
  | declareWith hn h => exact (he P _ _ h).bind fun Q v v' _ hv => .define hn hv
  | block hs _ =>
    refine TwinStep.get.bind fun Q m m' _ hm => ?_
    exact (TwinStep.newScope hm.current).bind fun S id id' _ hid => .within hid (.forM hx hs)
  | branch h hs _ =>
    refine (he P _ _ h).bind fun Q v v' _ hv => ?_
    rw [hv.isTrue]
    split
    · exact hx Q _ _ hs
    · exact .pure trivial
  | branchElse h hs ht _ =>
    refine (he P _ _ h).bind fun Q v v' _ hv => ?_
    rw [hv.isTrue]
    split
    · exact hx Q _ _ hs
    · exact hx Q _ _ ht
  | loop h hs _ => exact hl P _ _ _ _ h hs
  | breakOut hp => exact .throw (.breaking hp)
  | function hf =>
    cases hf with
    | mk hn hp hs =>
      dsimp only
      rw [hn.text]
      exact (TwinStep.makeFunction hp hs _ _).bind fun Q f f' _ hf => .define hn (.function hf)
  | returnNil hp => exact .throw (.returning (.plain trivial) hp)
  | returnWith h hp => exact (he P _ _ h).bind fun Q v v' _ hv => .throw (.returning hv hp)
  | plainClass hn hs => exact .declarePlain hn hs
  | subclass hn hr hs => exact .declareDerived hn hr hs

/-- One round of a loop. -/
theorem TwinStep.loop_succ {e e' : Expr} {s s' : Stmt} (h : e.Elsewhere R e')
    (hs : s.Elsewhere R s') (hl : ∀ P, TwinStep R P anyValues (loop fuel e s) (loop fuel e' s')) :
    TwinStep R P anyValues (loop (fuel + 1) e s) (loop (fuel + 1) e' s') := by
  rw [LoxLang.loop_succ, LoxLang.loop_succ]
  refine (he P _ _ h).bind fun Q v v' _ hv => ?_
  rw [hv.isTrue]
  split
  · exact .breakable (hx Q _ _ hs) fun S _ => hl S
  · exact .pure trivial

end

/-- The same tree elsewhere does the same on twins, with any fuel. -/
theorem TwinStep.fuelled (R : Place → Place → Prop) (fuel : Nat) :
    EvalTwin R (eval fuel) ∧ ExecTwin R (exec fuel) ∧
      ∀ (P : Pairs) (e e' : Expr) (s s' : Stmt), e.Elsewhere R e' → s.Elsewhere R s' →
        TwinStep R P anyValues (loop fuel e s) (loop fuel e' s') := by
  induction fuel with
  | zero => exact ⟨fun _ _ _ _ => .throw .exhausted, fun _ _ _ _ => .throw .exhausted,
      fun _ _ _ _ _ _ _ => .throw .exhausted⟩
  | succ fuel ih =>
    obtain ⟨he, hx, hl⟩ := ih
    exact ⟨he.succ hx, hx.succ he hl, fun P e e' s s' h hs => .loop_succ he hx h hs fun Q =>
      hl Q e e' s s' h hs⟩

end

end LoxLang
