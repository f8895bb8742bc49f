import LoxLang.Proofs.Machine.Composition
import LoxLang.Proofs.Renaming.Simulation

/-!
# Runs of renamed trees

Each construct of a renamed tree does what it did before the renaming, one lemma for each;
`sim_fuel` ties them by induction on the fuel.
-/

namespace LoxLang

open Run

section
variable {x y : String} {W : World} {ρ : Marks}

/-! ## Names -/

theorem Sim.readVariable {r r' : Reference} (hr : r.Renamed (.swap x y) ρ r') :
    Sim x y W ρ (ValueAlike x y) (readVariable r) (readVariable r') := by
  unfold Run.readVariable
  rw [hr.depth, hr.name]
  cases r.depth with
  | some d =>
    refine .check fun m m' hm hc => ?_
    rw [hm.current]
    exact hm.scopes.getAt hc d r.name
  | none =>
    refine .check fun m m' hm _ => ?_
    rw [hm.globals]
    exact hm.scopes.get hm.outermost r.name

theorem Sim.assignVariable {r r' : Reference} (hr : r.Renamed (.swap x y) ρ r') {v v' : Value}
    (hv : ValueAlike x y W v v') :
    Sim x y W ρ (fun _ _ _ => True) (assignVariable r v) (assignVariable r' v') := by
  unfold Run.assignVariable
  rw [hr.depth, hr.name]
  cases r.depth with
  | some d =>
    refine .store hv fun m m' hm hc => ?_
    rw [hm.current]
    refine (hm.scopes.holderAt hc d r.name).imp fun a a' h => ⟨h.1, _, h.2, ?_⟩
    rw [Marks.drop, Nat.zero_add]
    rfl
  | none =>
    refine .store hv fun m m' hm _ => ?_
    rw [hm.globals]
    exact (hm.scopes.holder hm.outermost r.name).imp fun a a' h => ⟨h.1, _, h.2, rfl⟩

theorem Sim.define {n n' : Name} (hn : n' = n.exchange x y (ρ 0)) {v v' : Value}
    (hv : ValueAlike x y W v v') :
    Sim x y W ρ (fun _ _ _ => True) (define n v) (define n' v') := by
  subst hn
  refine .store hv fun m m' hm hc => ?_
  rw [hm.current]
  exact (hm.scopes.definable hc n).imp fun a a' ⟨he, ha⟩ => ⟨he, ρ, ha, rfl⟩

/-- A name of the language is read where it was. -/
theorem Sim.getAt {n : Name} (hn : n.text = "this" ∨ n.text = "super") (d : Nat) :
    Sim x y W ρ (ValueAlike x y) (Run.check fun m => m.scopes.getAt m.current d n)
      (Run.check fun m => m.scopes.getAt m.current d n) := by
  refine .check fun m m' hm hc => ?_
  have hg := hm.scopes.getAt hc d n
  have hx : n.exchange x y (ρ d) = n := by
    rw [Name.exchange]
    rcases hn with hn | hn
    · rw [hn, hm.exchange_this, ← hn]
    · rw [hn, hm.exchange_super, ← hn]
  rw [hm.current]
  rwa [hx] at hg

theorem Sim.readThis (depth : Option Nat) (place : Place) :
    Sim x y W ρ (ValueAlike x y) (readThis depth place) (readThis depth place) := by
  unfold Run.readThis
  cases depth with
  | none => exact .fail _ _
  | some d => exact Sim.getAt (n := ⟨"this", place⟩) (.inl rfl) d

/-! ## Functions and classes -/

/-- The function is made in the scope that statements run in; its code may stand further in. -/
theorem Sim.makeFunction {σ : Marks} {b : Bool} {ps ps' : List Name} {ss ss' : List Stmt}
    (hp : List.Forall₂ ((Renaming.swap x y).declared b) ps ps')
    (hs : Stmt.AllRenamed (.swap x y) (σ.push b) ss ss') (name : String) (isInitializer : Bool) :
    Sim x y W ρ (fun W' f f' => W' f.scope = some ρ ∧ ClosureAlike x y σ f f')
      (makeFunction name ps ss isInitializer) (makeFunction name ps' ss' isInitializer) := by
  refine Sim.newIdentity.bind fun V i i' _ hi => Sim.get.bind fun U m m' _ ⟨hm, hc⟩ => .pure ?_
  exact ⟨hc, hi, rfl, hm.current, rfl, b, hp, hs⟩

theorem Sim.bindMethod {f f' : Closure} (hf : MethodAlike x y W f f') {v v' : Value}
    (hv : ValueAlike x y W v v') :
    Sim x y W ρ (FunctionAlike x y) (bindMethod f v) (bindMethod f' v') := by
  obtain ⟨σ, hs, hf⟩ := hf
  unfold Run.bindMethod
  rw [hf.scope]
  refine (Sim.newScope hs false).bind fun V id id' hV ⟨he, hid⟩ => ?_
  subst he
  refine (Sim.bindThis hid (hv.mono hV)).bind fun U _ _ hU _ => ?_
  refine Sim.newIdentity.bind fun T i i' hT hi => .pure ?_
  exact ⟨σ.push false, hT _ _ (hU _ _ hid), hi, hf.name, rfl, hf.isInitializer, hf.code⟩

/-- The tables have alike methods under the same names. -/
def TableAlike (x y : String) (W : World) (t t' : Bindings Closure) : Prop :=
  ∀ n, Option.Rel (MethodAlike x y W) (t.find? n) (t'.find? n)

theorem tableAlike_nil : TableAlike x y W [] [] := fun _ => .none

theorem TableAlike.mono {W' : World} (hW : W.Le W') {t t' : Bindings Closure}
    (h : TableAlike x y W t t') : TableAlike x y W' t t' :=
  fun n => rel_imp (h n) fun _ _ => .mono hW

theorem TableAlike.insert {t t' : Bindings Closure} (h : TableAlike x y W t t') (n : String)
    {f f' : Closure} (hf : MethodAlike x y W f f') :
    TableAlike x y W (t.insert n f) (t'.insert n f') := by
  intro k
  rw [Bindings.find?_insert, Bindings.find?_insert]
  split
  · exact .some hf
  · exact h k

theorem Sim.makeMethods {fs fs' : List Function}
    (h : Function.AllRenamed (.swap x y) (ρ.push false) fs fs') {t t' : Bindings Closure}
    (ht : TableAlike x y W t t') :
    Sim x y W ρ (TableAlike x y) (makeMethods fs t) (makeMethods fs' t') := by
  induction fs generalizing fs' W t t' with
  | nil =>
    cases h
    exact .pure ht
  | cons f fs ih =>
    cases h with
    | cons hf hfs =>
      cases hf with
      | mk b _ hp hs =>
        refine (Sim.makeFunction hp hs _ _).bind fun V g g' hV hg => ?_
        exact ih hfs ((ht.mono hV).insert _ ⟨ρ, hg⟩)

theorem Sim.readSuperclass {r r' : Reference} (hr : r.Renamed (.swap x y) ρ r') :
    Sim x y W ρ (ClassAlike x y) (readSuperclass r) (readSuperclass r') := by
  have hplace : r'.name.place = r.name.place := by
    rw [hr.name]
    rfl
  unfold Run.readSuperclass
  rw [hplace]
  refine (Sim.readVariable hr).bind fun V v v' _ hv => ?_
  have ht := hv.typeName
  cases hv with
  | classValue hc => exact .pure hc
  | plain hp => cases v <;> first | exact hp.elim | exact .fail _ _
  | function => exact .fail _ _
  | object => exact .fail _ _

/-- The class of a declaration, which keeps its name. -/
theorem Sim.nameClass {n : Name} (hn : n = n.exchange x y (ρ 0)) {c c' : Option Class}
    (hc : Option.Rel (ClassAlike x y W) c c') {t t' : Bindings Closure}
    (ht : TableAlike x y W t t') :
    Sim x y W ρ (fun _ _ _ => True)
      (Run.newIdentity >>= fun i => Run.define n (.classValue (.mk i n.text c t)))
      (Run.newIdentity >>= fun i => Run.define n (.classValue (.mk i n.text c' t'))) := by
  refine Sim.newIdentity.bind fun V i i' hV hi => .define hn (.classValue ?_)
  refine ⟨hi, rfl, fun k => ?_⟩
  have htk := ht.mono hV k
  cases hc with
  | none => exact htk
  | some hc =>
    have hck := (hc.mono hV).method? k
    simp only [Class.method?]
    generalize t.find? k = o at htk ⊢
    generalize t'.find? k = o' at htk ⊢
    cases htk with
    | some hf => exact .some hf
    | none => exact hck

theorem Sim.declarePlain {n : Name} (hn : n = n.exchange x y (ρ 0)) {fs fs' : List Function}
    (hs : Function.AllRenamed (.swap x y) (ρ.push false) fs fs') :
    Sim x y W ρ (fun _ _ _ => True) (declareClass n none fs) (declareClass n none fs') := by
  unfold Run.declareClass
  exact (Sim.makeMethods hs tableAlike_nil).bind fun V t t' _ ht => .nameClass hn .none ht

/-- A subclass is declared alike under the other name. -/
theorem Sim.declareDerived {n : Name} (hn : n = n.exchange x y (ρ 0)) {r r' : Reference}
    (hr : r.Renamed (.swap x y) ρ r') {fs fs' : List Function}
    (hs : Function.AllRenamed (.swap x y) ((ρ.push false).push false) fs fs') :
    Sim x y W ρ (fun _ _ _ => True) (declareClass n (some r) fs) (declareClass n (some r') fs') := by
  unfold Run.declareClass
  refine (Sim.readSuperclass hr).bind fun V c c' _ hc => Sim.get.bind fun U m m' hU ⟨hm, hcur⟩ => ?_
  rw [hm.current]
  refine (Sim.newScope hcur false).bind fun T id id' hT ⟨he, hid⟩ => ?_
  subst he
  have hc := hc.mono (hU.trans hT)
  refine (Sim.bindSuper hid (.classValue hc)).bind fun S _ _ hS _ => ?_
  refine (Sim.within (hS _ _ hid) (.makeMethods hs tableAlike_nil)).bind fun R t t' hR ht => ?_
  exact .nameClass hn (.some (hc.mono (hS.trans hR))) ht

/-- The method that a class has under a name, or a fault. -/
theorem Sim.method {c c' : Class} (hc : ClassAlike x y W c c') {v v' : Value}
    (hv : ValueAlike x y W v v') (n : Name) :
    Sim x y W ρ (ValueAlike x y)
      (match c.method? n.text with
        | some f => do return .function (← Run.bindMethod f v)
        | none => Run.fail n.place (.undefinedProperty n.text) : Run Value)
      (match c'.method? n.text with
        | some f => do return .function (← Run.bindMethod f v')
        | none => Run.fail n.place (.undefinedProperty n.text) : Run Value) := by
  have hm := hc.method? n.text
  generalize c.method? n.text = o at hm ⊢
  generalize c'.method? n.text = o' at hm ⊢
  cases hm with
  | none => exact .fail _ _
  | some hf => exact (Sim.bindMethod hf hv).bind fun V g g' _ hg => .pure (.function hg)

theorem Sim.readSuper (method : Name) (depth : Option Nat) (place : Place) :
    Sim x y W ρ (ValueAlike x y) (readSuper method depth place) (readSuper method depth place) := by
  unfold Run.readSuper
  match depth with
  | none => exact .fail _ _
  | some 0 => exact .fail _ _
  | some (d + 1) =>
    refine (Sim.getAt (n := ⟨"super", place⟩) (.inr rfl) _).bind fun V s s' _ hs =>
      (Sim.getAt (n := ⟨"this", place⟩) (.inl rfl) _).bind fun U v v' hU hv => ?_
    have hs := hs.mono hU
    cases hs with
    | classValue hc =>
      cases hv with
      | object i hd => exact .method hc (.object i hd) method
      | plain hp => cases v <;> first | exact hp.elim | exact .fail _ _
      | function => exact .fail _ _
      | classValue => exact .fail _ _
    | plain hp => cases s <;> first | exact hp.elim | exact .fail _ _
    | function => exact .fail _ _
    | object => exact .fail _ _

theorem Sim.readProperty {v v' : Value} (hv : ValueAlike x y W v v') (property : Name) :
    Sim x y W ρ (ValueAlike x y) (readProperty v property) (readProperty v' property) := by
  unfold Run.readProperty
  cases hv with
  | object i hc =>
    refine Sim.get.bind fun V m m' hV ⟨hm, _⟩ => ?_
    have ho := hm.objects i property.text
    have hc := hc.mono hV
    generalize (m.fieldsOf i).find? property.text = o at ho ⊢
    generalize (m'.fieldsOf i).find? property.text = o' at ho ⊢
    cases ho with
    | some hv => exact .pure hv
    | none => exact .method hc (.object i hc) property
  | plain hp => cases v <;> first | exact hp.elim | exact .fail _ _
  | function => exact .fail _ _
  | classValue => exact .fail _ _

/-! ## Calls -/

/-- Renamed parameters are bound alike to alike values. -/
theorem Sim.bindParams {id : ScopeId} {σ : Marks} (hid : W id = some σ) {ps ps' : List Name}
    (hp : List.Forall₂ ((Renaming.swap x y).declared (σ 0)) ps ps') {vs vs' : List Value}
    (hv : List.Forall₂ (ValueAlike x y W) vs vs') :
    Sim x y W ρ (fun _ _ _ => True) (bindParams id ps vs) (bindParams id ps' vs') := by
  induction hp generalizing W vs vs' with
  | nil => exact .pure trivial
  | @cons p p' ps ps' hn _ ih =>
    cases hv with
    | nil => exact .pure trivial
    | cons hv hvs =>
      obtain rfl : p' = p.exchange x y (σ 0) := hn
      exact (Sim.bindIn hid p.text hv).bind fun V _ _ hV _ =>
        ih (hV _ _ hid) (hvs.imp fun _ _ => .mono hV)

theorem Sim.callNative (f : Native) {vs vs' : List Value}
    (hv : List.Forall₂ (ValueAlike x y W) vs vs') (place : Place) :
    Sim x y W ρ (ValueAlike x y) (callNative f vs place) (callNative f vs' place) := by
  unfold Run.callNative
  cases f with
  | clock => exact .readClock
  | first _ =>
    cases hv with
    | nil => exact .fail _ _
    | cons hv _ => exact .pure hv

/-- A statement runs alike after it has been renamed, in any world. -/
def ExecSim (x y : String) (exec : Stmt → Run Unit) : Prop :=
  ∀ (W : World) (ρ : Marks) (s s' : Stmt), s.Renamed (.swap x y) ρ s' →
    Sim x y W ρ (fun _ _ _ => True) (exec s) (exec s')

/-- An expression has values that are alike after it has been renamed. -/
def EvalSim (x y : String) (eval : Expr → Run Value) : Prop :=
  ∀ (W : World) (ρ : Marks) (e e' : Expr), e.Renamed (.swap x y) ρ e' →
    Sim x y W ρ (ValueAlike x y) (eval e) (eval e')

section
variable {exec : Stmt → Run Unit} (hx : ExecSim x y exec)
include hx

theorem Sim.forM {ss ss' : List Stmt} (h : Stmt.AllRenamed (.swap x y) ρ ss ss') :
    Sim x y W ρ (fun _ _ _ => True) (ss.forM exec) (ss'.forM exec) := by
  induction ss generalizing ss' W with
  | nil =>
    cases h
    exact .pure trivial
  | cons s ss ih =>
    cases h with
    | cons hs hss => exact (hx W ρ _ _ hs).bind fun V _ _ _ _ => ih hss

theorem Sim.callClosure {f f' : Closure} (hf : FunctionAlike x y W f f') {vs vs' : List Value}
    (hv : List.Forall₂ (ValueAlike x y W) vs vs') (place : Place) :
    Sim x y W ρ (ValueAlike x y) (callClosure exec f vs place) (callClosure exec f' vs' place) := by
  obtain ⟨σ, hs, hf⟩ := hf
  obtain ⟨b, hp, hb⟩ := hf.code
  unfold Run.callClosure
  rw [hf.scope, hf.isInitializer]
  refine (Sim.newScope hs b).bind fun V id id' hV ⟨he, hid⟩ => ?_
  subst he
  refine (Sim.bindParams hid hp (hv.imp fun _ _ => .mono hV)).bind fun U _ _ hU _ => ?_
  refine (Sim.within (hU _ _ hid) (.forM hx hb)).catching.bind fun T v v' hT hv => ?_
  split
  · refine .check fun m m' hm _ => ?_
    have hg := hm.scopes.getAt (hT _ _ (hU _ _ (hV _ _ hs))) 0 ⟨"this", place⟩
    rwa [Name.exchange, hm.exchange_this] at hg
  · exact .pure hv

theorem Sim.construct {c c' : Class} (hc : ClassAlike x y W c c') {vs vs' : List Value}
    (hv : List.Forall₂ (ValueAlike x y W) vs vs') (place : Place) :
    Sim x y W ρ (ValueAlike x y) (construct exec c vs place) (construct exec c' vs' place) := by
  refine (Sim.newObject hc).bind fun V o o' hV ho => ?_
  have hm := (hc.mono hV).method? "init"
  generalize c.method? "init" = i at hm ⊢
  generalize c'.method? "init" = i' at hm ⊢
  cases hm with
  | none => exact .pure ho
  | some hf =>
    refine (Sim.bindMethod hf ho).bind fun U g g' hU hg => ?_
    have hv := hv.imp fun _ _ => ValueAlike.mono (hV.trans hU)
    exact (Sim.callClosure hx hg hv place).discard.bind fun T _ _ hT _ => .pure (ho.mono (hU.trans hT))

theorem Sim.call {v v' : Value} (h : ValueAlike x y W v v') {vs vs' : List Value}
    (hv : List.Forall₂ (ValueAlike x y W) vs vs') (place : Place) :
    Sim x y W ρ (ValueAlike x y) (call exec v vs place) (call exec v' vs' place) := by
  unfold Run.call
  rw [h.arity?, hv.length_eq]
  cases v.arity? with
  | none => exact .fail _ _
  | some expected =>
    dsimp only
    split
    · exact .fail _ _
    · cases h with
      | plain hp =>
        cases v with
        | native f => exact .callNative f hv place
        | function | classValue | object => exact hp.elim
        | _ => exact .fail _ _
      | function hf => exact .callClosure hx hf hv place
      | classValue hc => exact .construct hx hc hv place
      | object => exact .fail _ _

end

/-! ## Loops -/

/-- A loop goes on alike under the other name if body and further rounds do. -/
theorem Sim.breakable {mid : World → Unit → Unit → Prop} {body body' rest rest' : Run Unit}
    (h : Sim x y W ρ mid body body')
    (hr : ∀ W', W.Le W' → Sim x y W' ρ (fun _ _ _ => True) rest rest') :
    Sim x y W ρ (fun _ _ _ => True) (breakable body rest) (breakable body' rest') := by
  intro m m' hm hc
  have hb := h m m' hm hc
  unfold Run.breakable
  obtain ⟨_, n, _, n', V, hs, hs', hV, hn, hcur, -⟩ | ⟨i, n, i', n', V, hs, hs', hV, hn, hcur, hi⟩ :=
    hb.cases
  · rw [hs, hs']
    exact (hr V hV).later hV hn hcur hc
  · rw [hs, hs']
    cases hi with
    | fault hf => exact ⟨V, hV, hn, hcur, .fault hf⟩
    | breaking place => exact ⟨V, hV, hn, hcur, trivial⟩
    | returning place hv => exact ⟨V, hV, hn, hcur, .returning place hv⟩
    | exhausted => exact ⟨V, hV, hn, hcur, .exhausted⟩

/-! ## Expressions and statements -/

theorem Sim.mapM {eval : Expr → Run Value} (he : EvalSim x y eval) {es es' : List Expr}
    (h : Expr.AllRenamed (.swap x y) ρ es es') :
    Sim x y W ρ (fun W' => List.Forall₂ (ValueAlike x y W')) (es.mapM eval) (es'.mapM eval) := by
  induction es generalizing es' W with
  | nil =>
    cases h
    exact .pure .nil
  | cons e es ih =>
    cases h with
    | cons hs hes =>
      rw [List.mapM_cons, List.mapM_cons]
      exact (he W ρ _ _ hs).bind fun V v v' _ hv => (ih hes).bind fun U vs vs' hU hvs =>
        .pure (.cons (hv.mono hU) hvs)

theorem forall₂_getLastD {vs vs' : List Value} (h : List.Forall₂ (ValueAlike x y W) vs vs')
    {v v' : Value} (hv : ValueAlike x y W v v') :
    ValueAlike x y W (vs.getLastD v) (vs'.getLastD v') := by
  induction h generalizing v v' with
  | nil => exact hv
  | cons hu _ ih =>
    rw [List.getLastD_cons, List.getLastD_cons]
    exact ih hu

section
variable {fuel : Nat} (he : EvalSim x y (eval fuel)) (hx : ExecSim x y (exec fuel))
include he hx

/-- One step of the evaluation of an expression, for each construct. -/
theorem evalSim_succ : EvalSim x y (eval (fuel + 1)) := by
  intro W ρ e e' h
  unfold eval
  cases h with
  | literal value _ => exact .pure (.plain (by cases value <;> trivial))
  | group h => exact he W ρ _ _ h
  | unary h =>
    refine (he W ρ _ _ h).bind fun V v v' _ hv => ?_
    rw [h.place]
    exact .lift (hv.unary _ _)
  | binary hl hr =>
    refine (he W ρ _ _ hl).bind fun V l l' _ hv => ?_
    rw [hv.decidedBy]
    split
    · exact .pure hv
    · refine (he V ρ _ _ hr).bind fun U r r' hU hw => ?_
      rw [hl.place, hr.place]
      exact .lift ((hv.mono hU).binary hw _ _ _ _)
  | sequence hs =>
    exact (Sim.mapM he hs).bind fun V vs vs' _ hv => .pure (forall₂_getLastD hv (.plain trivial))
  | read hr => exact .readVariable hr
  | assign hr h =>
    exact (he W ρ _ _ h).bind fun V v v' _ hv =>
      (Sim.assignVariable hr hv).bind fun U _ _ hU _ => .pure (hv.mono hU)
  | call hf hs =>
    exact (he W ρ _ _ hf).bind fun V f f' _ hf => (Sim.mapM he hs).bind fun U vs vs' hU hv =>
      .call hx (hf.mono hU) hv _
  | lambda b _ hp hs =>
    exact (Sim.makeFunction hp hs _ _).bind fun V f f' _ hf => .pure (.function ⟨ρ, hf⟩)
  | get h => exact (he W ρ _ _ h).bind fun V v v' _ hv => .readProperty hv _
  | set h hw =>
    refine (he W ρ _ _ h).bind fun V v v' _ hv => ?_
    cases hv with
    | object i _ =>
      exact (he V ρ _ _ hw).bind fun U w w' _ hw =>
        (Sim.setField i _ hw).bind fun T _ _ hT _ => .pure (hw.mono hT)
    | plain hp => cases v <;> first | exact hp.elim | exact .fail _ _
    | function => exact .fail _ _
    | classValue => exact .fail _ _
  | this depth place => exact .readThis depth place
  | super method depth place => exact .readSuper method depth place

/-- One step of the run of a statement, for each construct. -/
theorem execSim_succ
    (hl : ∀ (W : World) (ρ : Marks) (e e' : Expr) (s s' : Stmt), e.Renamed (.swap x y) ρ e' →
      s.Renamed (.swap x y) ρ s' → Sim x y W ρ (fun _ _ _ => True) (loop fuel e s) (loop fuel e' s')) :
    ExecSim x y (exec (fuel + 1)) := by
  intro W ρ s s' h
  unfold exec
  cases h with
  | expression h => exact (he W ρ _ _ h).discard
  | print h =>
    refine (he W ρ _ _ h).bind fun V v v' _ hv => ?_
    rw [hv.text]
    exact .print _ _
  | declare hn => exact .define hn (.plain trivial)
  | declareWith hn h => exact (he W ρ _ _ h).bind fun V v v' _ hv => .define hn hv
  | block b _ hs =>
    refine Sim.get.bind fun V m m' _ h => ?_
    rw [h.1.current]
    refine (Sim.newScope h.2 b).bind fun U id id' _ hid => ?_
    obtain ⟨rfl, hid⟩ := hid
    exact .within hid (.forM hx hs)
  | branch h hs =>
    refine (he W ρ _ _ h).bind fun V v v' _ hv => ?_
    rw [hv.isTrue]
    split
    · exact hx V ρ _ _ hs
    · exact .pure trivial
  | branchElse h hs ht =>
    refine (he W ρ _ _ h).bind fun V v v' _ hv => ?_
    rw [hv.isTrue]
    split
    · exact hx V ρ _ _ hs
    · exact hx V ρ _ _ ht
  | loop h hs => exact hl W ρ _ _ _ _ h hs
  | breakOut place => exact .throw (.breaking place)
  | function hn hf =>
    cases hf with
    | mk b _ hp hs =>
      exact (Sim.makeFunction hp hs _ _).bind fun V f f' _ hf =>
        .define (Eq.symm hn) (.function ⟨ρ, hf⟩)
  | returnNil place => exact .throw (.returning place (.plain trivial))
  | returnWith h => exact (he W ρ _ _ h).bind fun V v v' _ hv => .throw (.returning _ hv)
  | plainClass hn hs => exact .declarePlain (Eq.symm hn) hs
  | subclass hn hr hs => exact .declareDerived (Eq.symm hn) hr hs

/-- One round of a loop. -/
theorem loopSim_succ {e e' : Expr} {s s' : Stmt} (h : e.Renamed (.swap x y) ρ e')
    (hs : s.Renamed (.swap x y) ρ s')
    (hl : ∀ W, Sim x y W ρ (fun _ _ _ => True) (loop fuel e s) (loop fuel e' s')) :
    Sim x y W ρ (fun _ _ _ => True) (loop (fuel + 1) e s) (loop (fuel + 1) e' s') := by
  rw [loop_succ, loop_succ]
  refine (he W ρ _ _ h).bind fun V v v' _ hv => ?_
  rw [hv.isTrue]
  split
  · exact .breakable (hx V ρ _ _ hs) fun U _ => hl U
  · exact .pure trivial

end

/-- Everything runs alike with any fuel. -/
theorem sim_fuel (fuel : Nat) :
    EvalSim x y (eval fuel) ∧ ExecSim x y (exec fuel) ∧
      ∀ (W : World) (ρ : Marks) (e e' : Expr) (s s' : Stmt), e.Renamed (.swap x y) ρ e' →
        s.Renamed (.swap x y) ρ s' →
        Sim x y W ρ (fun _ _ _ => True) (loop fuel e s) (loop fuel e' s') := by
  induction fuel with
  | zero => exact ⟨fun _ _ _ _ _ => .throw .exhausted, fun _ _ _ _ _ => .throw .exhausted,
      fun _ _ _ _ _ _ _ _ => .throw .exhausted⟩
  | succ fuel ih =>
    obtain ⟨he, hx, hl⟩ := ih
    exact ⟨evalSim_succ he hx, execSim_succ he hx hl,
      fun W ρ e e' s s' h hs => loopSim_succ he hx h hs fun V => hl V ρ e e' s s' h hs⟩

end

end LoxLang
