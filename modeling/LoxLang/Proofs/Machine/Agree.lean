import LoxLang.Proofs.Machine.Calls
import LoxLang.Proofs.Machine.Plain

/-!
# The walk and the run agree

Wherever a settled tree is evaluated with scopes that mirror those of the walk, evaluation
keeps them mirrored, through every construct, call and way out, and gives good values. A
depth leads nowhere else than the walk said, and a run ends in a mismatch only at a use
inside the initializer of its own variable.
-/

namespace LoxLang

open Scoping

variable {t : Watched}

theorem Stands.passed {σ : Site} (h : Stands t σ) (e : Expr) : Stands t (σ.after e.resolve) := by
  have hs := e.steady_resolve σ.walk
  refine ⟨h.good, h.calm, ?_, h.housed.steady hs, ?_⟩
  · rw [Site.after, hs.outline]
    exact h.mirrors
  · rw [Site.after, hs.outline]
    exact h.awaited

/-- The walk has moved without a trace in its scopes. -/
theorem Stands.moved {σ : Site} (h : Stands t σ) {w : Walk} (hs : Steady σ.walk w) :
    Stands t (σ.moved w) := by
  refine ⟨h.good, h.calm, ?_, h.housed.steady hs, ?_⟩
  · rw [Site.moved, hs.outline]
    exact h.mirrors
  · rw [Site.moved, hs.outline]
    exact h.awaited

/-- A name that awaits its value need not be bound. -/
theorem Mirrors.await {name : Name} (hn : name.IsOrdinary) :
    ∀ {ss : List (Bindings Bool)} {os : List Opener} {id : ScopeId}, Mirrors t id ss os →
      Mirrors t id (awaiting name.text ss) os
  | [], [], _, hm => hm
  | s :: ss, o :: os, id, ⟨ha, hp⟩ => by
    refine ⟨⟨ha.isLocal, ha.origin, ?_, ?_, ?_⟩, hp⟩
    · intro x hx
      split at hx
      · exact ha.bound x hx
      · rw [Bindings.find?_insert] at hx
        split at hx
        · cases hx
        · exact ha.bound x hx
    · intro h
      split at h
      · exact ha.this h
      · rw [Bindings.has_insert, beq_eq_false_iff_ne.2 hn.1.symm, Bool.false_or] at h
        exact ha.this h
    · intro h
      split at h
      · exact ha.super h
      · rw [Bindings.has_insert, beq_eq_false_iff_ne.2 hn.2.symm, Bool.false_or] at h
        exact ha.super h

theorem Stands.await {σ : Site} (h : Stands t σ) {name : Name} (hn : name.IsOrdinary) :
    Stands t (σ.awaiting name) := by
  refine ⟨h.good, h.calm, ?_, h.housed.await hn, ?_⟩
  · rw [Site.awaiting, Walk.await, outline_declare]
    exact h.mirrors.await hn
  · rw [Site.awaiting, Walk.await, outline_declare]
    exact h.awaited.awaiting name

/-- A statement that declares nothing can be followed by another from the same scopes. -/
theorem Stands.after {σ : Site} {s : Stmt} {u : Watched} (h : Stands t σ) (hu : Grows t u)
    (hg : Good u) (hc : Calm u) (hs : s.Settled σ.walk) (hd : s.declared? = none) :
    Stands u (σ.after s.resolve) := by
  refine h.resolved hu hg hc hs ?_
  rw [Stmt.outlined, hd]
  exact h.mirrors.grow hu.toExtends

/-- The scope of a block is opened, and the run stands where its body starts. -/
theorem Stands.block {σ : Site} (h : Stands t σ) (body : List Stmt) (place : Place) :
    Stands ((t.opening t.machine.current (some ⟨σ.source, .block body place⟩)).running
      t.machine.scopes.size) (σ.inside (.block body place) (openScope σ.walk).2) := by
  have hm := Mirrors.block h.good h.mirrors ⟨σ.source, .block body place⟩
  exact ⟨(h.good.opening _ _).running _, h.calm, hm.grow (extends_running _ _),
    h.housed.openScope, h.awaited.cons fun _ hx => (Option.some_ne_none _ hx.symm).elim⟩

/-- The statements of a block declare names of its scope. -/
theorem Site.allows_block (σ : Site) (body : List Stmt) (place : Place) :
    ∀ s ∈ body, (σ.inside (.block body place) (openScope σ.walk).2).Allows s := by
  intro s hs name hn o ho
  cases ho
  exact ⟨s, hs, name, hn, rfl⟩

namespace Watching

/-- Expressions are evaluated soundly: from where a settled one stands, its value is good. -/
def EvalSound (eval : Site → Expr → Watching Value) : Prop :=
  ∀ t σ e, Stands t σ → e.Settled σ.walk → Steps t (eval σ e) fun v u => GoodValue u v

def LoopSound (loop : Site → Expr → Stmt → Watching Unit) : Prop :=
  ∀ t σ test body, Stands t σ → test.Settled σ.walk → body.declared? = none →
    body.Settled (test.resolve σ.walk).2 → Steps t (loop σ test body) fun _ _ => True

theorem Steps.forValues {eval : Site → Expr → Watching Value} (he : EvalSound eval) :
    ∀ (es : List Expr) {t : Watched} {σ : Site}, Stands t σ → Expr.AllSettled es σ.walk →
    Steps t (forValues eval σ es) fun vs u => ∀ v ∈ vs, GoodValue u v
  | [], _, _, h, _ => .pure h.good h.calm fun _ hv => nomatch hv
  | e :: es, t, σ, h, ⟨hs, hss⟩ => by
    refine (he t σ e h hs).bind fun v u hu hg hc hv => ?_
    refine (Steps.forValues he es ((h.grow hu hg hc).passed e) hss).bind fun vs u' hu' hg hc hvs => ?_
    refine .pure hg hc fun w hw => ?_
    rcases List.mem_cons.1 hw with rfl | hw
    · exact hv.grow hu'.toExtends
    · exact hvs w hw

theorem Steps.print (hg : Good t) (hc : Calm t) (text : String) (place : Place) :
    Steps t (step (Run.print text place)) fun _ _ => True := by
  obtain ⟨hgrows, hgood⟩ := hg.quiet (m := { t.machine with sink := (t.machine.sink.put text).1 })
    rfl rfl rfl rfl (Nat.le_refl _)
  unfold Steps step Run.print
  dsimp only
  cases (t.machine.sink.put text).2 with
  | none => exact ⟨hgrows, hgood, hc, trivial⟩
  | some problem => exact ⟨hgrows, hgood, .inl ⟨fun m hm => (nomatch hm), hc⟩⟩

/-- A body that a `break` ends, and what comes after it otherwise. -/
def breakable (body rest : Watching Unit) : Watching Unit := fun t =>
  match body t with
  | .ok _ t => rest t
  | .error (.breaking _) t => .ok () t
  | .error i t => .error i t

theorem Steps.breakable {body rest : Watching Unit} {mid : Unit → Watched → Prop}
    (h : Steps t body mid)
    (hk : ∀ u, Grows t u → Good u → Calm u → Steps u rest fun _ _ => True) :
    Steps t (breakable body rest) fun _ _ => True := by
  unfold Steps at h
  cases hb : body t with
  | ok a u =>
    rw [hb] at h
    exact .of_eq (by rw [Watching.breakable, hb]) h.1 (hk u h.1 h.2.1 h.2.2.1)
  | error i u =>
    rw [hb] at h
    obtain ⟨hg, hgood, he⟩ := h
    unfold Steps Watching.breakable
    rw [hb]
    cases i with
    | breaking place => exact ⟨hg, hgood, he, trivial⟩
    | _ => exact ⟨hg, hgood, he⟩

theorem loop_succ (fuel : Nat) (σ : Site) (test : Expr) (body : Stmt) :
    loop (fuel + 1) σ test body = do
      let v ← eval fuel σ test
      if v.isTrue then breakable (exec fuel (σ.after test.resolve) body) (loop fuel σ test body)
      else return () := by
  funext t
  rw [bind_apply]
  conv_lhs => unfold loop
  cases eval fuel σ test t with
  | error i t => rfl
  | ok v t =>
    dsimp only
    cases v.isTrue <;> rfl

/-- A statement that declares nothing leaves the scopes of the walk. -/
theorem Steps.still {σ : Site} {s : Stmt} {x : Watching Unit} (h : Stands t σ)
    (hd : s.declared? = none) (hx : Steps t x fun _ _ => True) :
    Steps t x fun _ u => Mirrors u t.machine.current (s.outlined σ.walk.outline) σ.openers := by
  refine hx.mono fun _ u hu _ _ _ => ?_
  rw [Stmt.outlined, hd]
  exact h.mirrors.grow hu.toExtends

section
variable {fuel : Nat} (he : EvalSound (eval fuel)) (hx : ExecSound (exec fuel))
include he hx

/-- One step of the evaluation of an expression, for each construct. -/
theorem evalSound_succ : EvalSound (eval (fuel + 1)) := by
  intro t σ e h hs
  unfold eval
  cases e with
  | literal value _ =>
    refine .visit h rfl fun h => .pure h.good h.calm ?_
    cases value <;> trivial
  | group inner _ => exact .visit h rfl fun h => he _ σ inner h hs
  | unary op operand _ =>
    refine .visit h rfl fun h => (he _ σ operand h hs).bind fun v u _ hg hc _ => ?_
    exact .lift hg hc (op.plainly_apply _) fun _ => False.elim
  | binary op left right place =>
    refine .visit h rfl fun h => (he _ σ left h hs.1).bind fun l u hu hg hc hl => ?_
    split
    · exact .pure hg hc hl
    · refine (he _ _ right ((h.grow hu hg hc).passed left) hs.2).bind fun r u' _ hg hc hr => ?_
      exact .lift hg hc (op.plainly_apply _ _ place) fun v hv => hv ▸ hr
  | sequence items _ =>
    refine .visit h rfl fun h => (Steps.forValues he items h hs).bind fun vs u _ hg hc hvs => ?_
    refine .pure hg hc ?_
    rw [List.getLastD_eq_getLast?]
    cases hl : vs.getLast? with
    | none => trivial
    | some v => exact hvs v (List.mem_of_getLast? hl)
  | read target =>
    exact .use h.good h.calm h.mirrors h.awaited (.inl rfl) rfl id hs (looks_readVariable target)
      fun u _ hg hc hb => .readVariable hg hc hb
  | assign target value =>
    obtain ⟨hs, hn, hr⟩ := hs
    refine .visit h rfl fun h => (he _ σ value h hs).bind fun v u hu hg hc hv => ?_
    have h := (h.grow hu hg hc).passed value
    refine Steps.bind₂ (Steps.use hg hc h.mirrors h.awaited (.inl rfl) rfl id hr (looks_assignVariable target v)
      fun u' hu' hg hc hb => Steps.assignVariable hg hc hb hn (hv.grow hu'.toExtends)) ?_
    exact fun _ u' hu' hg hc _ => .pure hg hc (hv.grow hu'.toExtends)
  | call callee arguments place =>
    refine .visit h rfl fun h => (he _ σ callee h hs.1).bind fun f u hu hg hc hf => ?_
    have h := (h.grow hu hg hc).passed callee
    refine (Steps.forValues he arguments h hs.2).bind fun vs u' hu' hg hc hvs => ?_
    exact .call hx hg hc (hf.grow hu'.toExtends) hvs place
  | lambda params body _ =>
    obtain ⟨hp, hb⟩ := hs
    refine .visit h rfl fun h => ?_
    refine (Steps.makeFunction h.good h.calm h.housed h.awaited hp hb).bind fun f u hu hg hc hf => ?_
    obtain ⟨hmade, hscope, hinit⟩ := hf
    refine .pure hg hc ⟨⟨_, _, hmade, ?_⟩, fun hi => ?_⟩
    · rw [hscope]
      exact h.mirrors.grow hu.toExtends
    · rw [hinit] at hi
      cases hi
  | get object property =>
    refine .visit h rfl fun h => (he _ σ object h hs).bind fun v u _ hg hc hv => ?_
    exact .readProperty hg hc hv property
  | set object property value =>
    refine .visit h rfl fun h => (he _ σ object h hs.1).bind fun v u hu hg hc hv => ?_
    cases v with
    | object i c =>
      have h := (h.grow hu hg hc).passed object
      refine (he _ _ value h hs.2).bind fun w u' hu' hg hc hw => ?_
      have hset : Steps u' (step (Run.setField i property.text w)) fun _ _ => True :=
        ⟨grows_withObjects u' _, hg.setField i property.text hw, hc, trivial⟩
      exact hset.bind fun _ u'' hu'' hg hc _ => .pure hg hc (hw.grow hu''.toExtends)
    | _ => exact .fail hg hc fun m hm => FaultCause.noConfusion hm
  | this depth place => exact .visit h rfl fun h => .readThis h hs.1 hs.2 place
  | super method depth place => exact .visit h rfl fun h => .readSuper h hs.1 hs.2 method place

/-- One step of the run of a statement, for each construct. -/
theorem execSound_succ (hl : LoopSound (loop fuel)) : ExecSound (exec (fuel + 1)) := by
  intro t σ s h hs ha
  unfold exec
  cases s with
  | expression e =>
    exact .visit h rfl fun h => .still h rfl (he _ σ e h hs).discard
  | print e place =>
    refine .visit h rfl fun h => .still h rfl ?_
    exact (he _ σ e h hs).bind fun v u _ hg hc _ => .print hg hc _ place
  | declare name initial =>
    cases initial with
    | none =>
      exact .visit h rfl fun h => .define h.good h.calm hs h.mirrors (ha name rfl)
        fun _ _ _ => trivial
    | some e =>
      obtain ⟨hn, hs⟩ := hs
      refine .visit h rfl fun h => (he _ _ e (h.await hn) hs).bind fun v u hu hg hc hv => ?_
      have hm := (h.grow hu hg hc).mirrors
      rw [← show u.machine.current = t.machine.current from hu.current]
      exact .define hg hc hn hm (ha name rfl) fun w hw _ => hv.grow hw
  | block body place =>
    refine .visit h rfl fun h => .still h rfl ?_
    generalize t.visiting σ (.statement (.block body place)) = t at h
    have hbody := Steps.forEach hx body (h.block body place) hs (σ.allows_block body place)
    exact .look (.opening (hbody.within fun _ _ _ _ => trivial))
  | branch test yes no place =>
    have branch {u : Watched} {σ : Site} {s : Stmt} (h : Stands u σ) (hd : s.declared? = none)
        (hs : s.Settled σ.walk) : Steps u (exec fuel σ s) fun _ _ => True :=
      (hx u σ s h hs fun name hn => by rw [hd] at hn; cases hn).mono fun _ _ _ _ _ _ => trivial
    cases no with
    | none =>
      refine .visit h rfl fun h => .still h rfl ((he _ σ test h hs.1).bind fun v u hu hg hc _ => ?_)
      have h := (h.grow hu hg hc).passed test
      split
      · exact branch h hs.2.1 hs.2.2
      · exact .pure hg hc trivial
    | some no =>
      obtain ⟨ht, ⟨hyd, hys⟩, hnd, hns⟩ := hs
      refine .visit h rfl fun h => .still h rfl ((he _ σ test h ht).bind fun v u hu hg hc _ => ?_)
      have h := (h.grow hu hg hc).passed test
      split
      · exact branch h hyd hys
      · exact branch (h.after (.refl u) hg hc hys hyd) hnd hns
  | loop test body place =>
    exact .visit h rfl fun h => .still h rfl (hl _ σ test body h hs.1 hs.2.1 hs.2.2)
  | breakOut place => exact .visit h rfl fun h => .throw h.good h.calm
  | function f =>
    cases f with
    | mk name params body =>
      obtain ⟨hn, hp, hb⟩ := hs
      have ho : ((σ.walk.await name).bind name).outline = declaring name.text σ.walk.outline :=
        outline_declare_define name σ.walk
      have hk : ((σ.walk.await name).bind name).classKind = σ.walk.classKind :=
        ((inner_declare name σ.walk).trans (inner_define name _)).classKind
      refine .visit h rfl fun h => ?_
      have hw : Awaited σ.initializers ((σ.walk.await name).bind name).outline σ.openers.length := by
        rw [ho]
        exact h.awaited.declaring name.text
      refine (Steps.makeFunction h.good h.calm (h.housed.declared hn ho hk) hw hp hb).bind ?_
      rintro f u hu hg hc ⟨hmade, hscope, hinit⟩
      have hm := (h.grow hu hg hc).mirrors
      have hcur : u.machine.current = t.machine.current := hu.current
      rw [← hcur]
      refine .define hg hc hn hm (ha name rfl) fun w hw hm => ⟨⟨_, _, hmade.grow hw, ?_⟩, fun hi => ?_⟩
      · rw [hcur] at hm
        rw [hscope, Site.moved, ho]
        exact hm
      · rw [hinit] at hi
        cases hi
  | returnWith value place =>
    cases value with
    | none => exact .visit h rfl fun h => .throw h.good ⟨h.calm, trivial⟩
    | some e =>
      refine .visit h rfl fun h => ?_
      refine (he _ _ e (h.moved (steady_returningValue place _)) hs).bind fun v u _ hg hc hv => ?_
      exact .throw hg ⟨hc, hv⟩
  | classDecl name superclass methods =>
    cases superclass with
    | none => exact .visit h rfl fun h => .declarePlain h hs ha
    | some r => exact .visit h rfl fun h => .declareDerived h hs ha

theorem loopSound_succ (hl : LoopSound (loop fuel)) : LoopSound (loop (fuel + 1)) := by
  intro t σ test body h ht hd hb
  rw [loop_succ]
  refine (he t σ test h ht).bind fun v u hu hg hc _ => ?_
  have h' := (h.grow hu hg hc).passed test
  split
  · refine (hx u _ body h' hb fun name hn => by rw [hd] at hn; cases hn).breakable ?_
    exact fun w hw hg hc => hl w σ test body (h.grow (hu.trans hw) hg hc) ht hd hb
  · exact .pure hg hc trivial

end

/-- Everything is sound with any fuel. -/
theorem sound_fuel (fuel : Nat) :
    EvalSound (eval fuel) ∧ ExecSound (exec fuel) ∧ LoopSound (loop fuel) := by
  induction fuel with
  | zero =>
    refine ⟨fun t σ e h _ => ?_, fun t σ s h _ _ => ?_, fun t σ test body h _ _ _ => ?_⟩
    · exact .throw h.good h.calm
    · exact .throw h.good h.calm
    · exact .throw h.good h.calm
  | succ fuel ih =>
    obtain ⟨he, hx, hl⟩ := ih
    exact ⟨evalSound_succ he hx, execSound_succ he hx hl, loopSound_succ he hx hl⟩

end Watching

end LoxLang
