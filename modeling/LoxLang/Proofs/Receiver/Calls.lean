import LoxLang.Proofs.Receiver.Steps

/-!
# Classes, calls and uses of `super`

A class finds its superclass at a visit, a call is made at one, and so is the object that a
method is bound to. Where a run comes to `super`, the scopes around are those of a method,
and the account says of each how it was made.
-/

namespace LoxLang

open Scoping

variable {past : List Visit} {t : Watched}

/-! ## Uses of `super` -/

/-- Where a run comes to `super`, it comes from a call of a method of the innermost class. -/
theorem Stands.supers {σ : Site} (h : Stands t σ) (hσ : σ.Surrounded) (ha : Account past t)
    {method : Name} {depth : Option Nat} {place : Place}
    (hs : (Expr.super method depth place).Settled σ.walk) :
    Visit.Supers ⟨σ, .expression (.super method depth place), t.machine, t.record.origins⟩
      (t.record.visits ++ past) := by
  rintro _ _ _ ⟨⟩
  obtain ⟨hk, hd⟩ := hs
  obtain ⟨inner, params, body, className, outer, ho, hi, hthis, hsuper⟩ := hσ.super hk
  have hm := h.mirrors
  rw [ho] at hm
  obtain ⟨id, hid, hm⟩ := hm.drop
  -- the scope of the call, that of `this` and that of `super`, each right inside the next
  match σ.walk.outline.drop inner.length, hm with
  | _ :: _ :: _ :: _, ⟨hcall, rid, hrid, hreceiver, sid, hsid, hinherited, _⟩ =>
    obtain ⟨g, hcalls, rfl, rfl, hg, hsprung⟩ := ha.scopes _ _ hcall.origin
    cases hrid.symm.trans hg
    obtain ⟨-, f, object, hbound⟩ := hsprung.bound _ _ hreceiver.origin
    cases hsid.symm.trans hbound.parent
    obtain ⟨-, c, hdeclared, hc⟩ := ha.scopes _ _ hinherited.origin
    obtain ⟨u, hu, hcalls⟩ := hcalls
    refine ⟨className, inner.length, f, g, c, object, ⟨⟨inner, outer, ho, rfl, hi⟩,
      ⟨u, hu, id, hcalls, hid⟩, ?_, hbound, hdeclared, hc⟩, hthis, hd.trans hsuper⟩
    rw [Scopes.ancestor?_add_one, hid]
    exact hrid

section
variable {v : Visit} {journal : List Visit} {className : Name} {d : Nat} {f g : Closure}
  {c : Class} {object : Value} (h : v.Within journal className d f g c object)
include h

/-- `this` is the object that the method was bound to. -/
theorem Visit.Within.getAt_this (place : Place) :
    v.machine.scopes.getAt v.machine.current (d + 1) ⟨"this", place⟩ = .ok object :=
  Scopes.getAt_bound h.scope h.bound.this

/-- `super` is the superclass that the declaration of the class found. -/
theorem Visit.Within.getAt_super (place : Place) :
    v.machine.scopes.getAt v.machine.current (d + 2) ⟨"super", place⟩ = .ok (.classValue c) := by
  refine Scopes.getAt_bound ?_ h.super
  rw [Scopes.ancestor?_add_one, h.scope]
  exact h.bound.parent

end

namespace Watching

/-! ## Declaring classes -/

theorem Accounts.readSuperclass (ha : Account past t) (r : Reference) :
    Accounts past t (step (Run.readSuperclass r)) fun c u =>
      u = t ∧ Run.readVariable r t.machine = .ok (.classValue c) t.machine := by
  unfold Run.readSuperclass
  rw [step_bind]
  refine (Accounts.readVariable ha r).bind fun v u _ _ ha ⟨⟨hu, hr⟩, _⟩ => ?_
  cases v with
  | classValue c => exact .pure ha ⟨hu, hr⟩
  | _ => exact .fail ha

theorem Accounts.nameClass {name : Name} {superclass : Option Class} {table : Bindings Closure}
    (ha : Account past t) (hn : name.IsOrdinary) :
    Accounts past t (step Run.newIdentity >>= fun identity =>
      step (Run.define name (.classValue (.mk identity name.text superclass table))))
      fun _ _ => True := by
  have hnew : Accounts past t (step Run.newIdentity) fun _ _ => True := by
    obtain ⟨hf, ha⟩ := ha.quiet (m := { t.machine with fresh := t.machine.fresh + 1 })
      rfl rfl rfl (Nat.le_succ _)
    exact ⟨hf, ha, trivial⟩
  exact hnew.bind fun _ _ _ _ ha _ => .define ha hn trivial

theorem Accounts.declarePlain {σ : Site} {name : Name} {methods : List Function}
    (hσ : σ.Surrounded) (ha : Account past t) (hn : name.IsOrdinary) :
    Accounts past t (declareClass σ name none methods) fun _ _ => True := by
  unfold declareClass
  exact (Accounts.makeMethods methods ha (hσ.plain hn _)).bind fun _ _ _ _ ha _ =>
    .nameClass ha hn

theorem Accounts.declareDerived {σ : Site} {name : Name} {r : Reference} {methods : List Function}
    (hg : t.machine.globals < t.machine.scopes.size) (hσ : σ.Surrounded) (ha : Account past t)
    (hn : name.IsOrdinary) :
    Accounts past t (declareClass σ name (some r) methods) fun _ _ => True := by
  unfold declareClass
  refine .pass ha rfl fun ha => (Accounts.readSuperclass ha r).bind ?_
  rintro c _ - - ha ⟨rfl, hr⟩
  let σ' := σ.moved ((σ.walk.enter .derived name).inherit name r)
  let t₁ := t.visiting σ' (.superclass name r)
  -- the scope of `super` is made right after the visit
  let scope := t.machine.scopes.size
  let o : Opener := ⟨σ.source, .inherited name⟩
  let t₂ := (t₁.opening t₁.machine.current (some o)).insert scope "super" (.classValue c)
  have hlt := Watched.lt_of_parent (parent_opening t₁ t₁.machine.current (some o))
  have hacc : Accounted past t₂ scope o :=
    ⟨Nat.ne_of_gt hg, c, ⟨⟨σ', .superclass name r, t.machine, t.record.origins⟩, .head _, rfl,
      ⟨r, rfl, hr⟩, rfl⟩, (Watched.own?_insert _ _ _ _ _ _).trans (if_pos ⟨rfl, rfl, hlt⟩)⟩
  obtain ⟨hf, ha⟩ := ha.enclosing t₁.machine.current (v := .classValue c) (fun _ => trivial) hacc
  let inner := (σ.inside (.inherited name) σ.walk).inside (.receiver name) (σ.walk.derive name r)
  suffices hrest : Accounts past t₂
      (Watching.within scope (Watching.makeMethods inner methods []) >>= fun table =>
      step Run.newIdentity >>= fun identity =>
        step (Run.define name (.classValue (.mk identity name.text (some c) table))))
      fun _ _ => True by
    refine .of_eq ?_ hf hrest
    rfl
  have hmethods : Accounts past (t₂.running scope) (Watching.makeMethods inner methods [])
      fun _ _ => True := .makeMethods methods (ha.running scope).2 (hσ.derive hn r)
  exact hmethods.within.bind fun _ _ _ _ ha _ => .nameClass ha hn

/-! ## Calls -/

theorem Accounts.readSuper {σ : Site} {method : Name} {depth : Option Nat} {place : Place}
    (h : Stands t σ) (hσ : σ.Surrounded) (ha : Account past t)
    (hs : (Expr.super method depth place).Settled σ.walk) :
    Accounts past t (Watching.visit σ (.expression (.super method depth place)) >>= fun _ =>
      readSuper method depth place) fun v u => SprungValue past u v := by
  have hv := h.supers hσ ha hs
  refine .visit ha hv fun ha => ?_
  obtain ⟨className, d, f, g, c, object, hw, -, rfl⟩ := hv _ _ _ rfl
  obtain ⟨i, k, rfl⟩ := hw.bound.isObject
  have hstands : Stands (t.visiting σ (.expression (.super method (some (d + 2)) place))) σ :=
    h.visiting rfl
  have hg := hstands.good
  refine .known (hw.getAt_super place) (.known (hw.getAt_this place) ?_)
  refine .method ha hg (hg.scopes _ _ _ hw.super) fun f' hf' => ⟨_, .head _, ?_⟩
  exact .super rfl (hw.getAt_super place) (hw.getAt_this place) hf'

theorem Accounts.bindParams (scope : ScopeId) : ∀ (params : List Name) {vs : List Value}
    {t : Watched}, Account past t → (∀ p ∈ params, p.IsOrdinary) →
    (∀ v ∈ vs, SprungValue past t v) →
    Accounts past t (step (Run.bindParams scope params vs)) fun _ _ => True
  | p :: ps, v :: vs, t, ha, hn, hv => by
    obtain ⟨hf, ha⟩ := ha.insert scope (hn p List.mem_cons_self) (hv v List.mem_cons_self)
    have he : step (Run.bindParams scope (p :: ps) (v :: vs)) t =
        step (Run.bindParams scope ps vs) (t.insert scope p.text v) := rfl
    exact .of_eq he hf (.bindParams scope ps ha (fun q hq => hn q (List.mem_cons_of_mem _ hq))
      fun w hw => (hv w (List.mem_cons_of_mem _ hw)).grow hf)
  | [], _, _, ha, _, _ => .pure ha trivial
  | _ :: _, [], _, ha, _, _ => .pure ha trivial

theorem Accounts.callNative {f : Native} {arguments : List Value} (ha : Account past t)
    (hv : ∀ v ∈ arguments, SprungValue past t v) (place : Place) :
    Accounts past t (step (Run.callNative f arguments place)) fun v u => SprungValue past u v := by
  cases f with
  | clock =>
    obtain ⟨hf, ha⟩ := ha.quiet (m := { t.machine with clock := t.machine.clock.later })
      rfl rfl rfl (Nat.le_refl _)
    exact ⟨hf, ha, trivial⟩
  | first arity =>
    cases arguments with
    | nil => exact .fail ha
    | cons v vs => exact .pure ha (hv v List.mem_cons_self)

/-- Statements keep the state accounted for. -/
def ExecAccounts (past : List Visit) (exec : Site → Stmt → Watching Unit) : Prop :=
  ∀ t σ s, Stands t σ → s.Settled σ.walk → σ.Allows s → σ.Surrounded → Account past t →
    Accounts past t (exec σ s) fun _ _ => True

section
variable {exec : Site → Stmt → Watching Unit} (hx : ExecSound exec) (hxa : ExecAccounts past exec)
include hx hxa

theorem Accounts.forEach : ∀ (ss : List Stmt) {t : Watched} {σ : Site}, Stands t σ →
    Stmt.AllSettled ss σ.walk → (∀ s ∈ ss, σ.Allows s) → σ.Surrounded → Account past t →
    Accounts past t (forEach exec σ ss) fun _ _ => True
  | [], _, _, _, _, _, _, ha => .pure ha trivial
  | s :: ss, t, σ, h, ⟨hs, hss⟩, hd, hσ, ha => by
    have hs' := hd s List.mem_cons_self
    refine (hxa t σ s h hs hs' hσ ha).bind fun _ u hrun _ ha _ => ?_
    obtain ⟨hu, hg, hc, hm⟩ := (hx t σ s h hs hs').ok hrun
    exact Accounts.forEach ss (h.resolved hu hg hc hs hm) hss
      (fun s' hm => hd s' (List.mem_cons_of_mem _ hm)) (hσ.after hs) ha

/-- A call that one of the visits is about. -/
theorem Accounts.callClosure {f : Closure} {arguments : List Value} (hg : Good t) (hc : Calm t)
    (ha : Account past t) (hf : GoodClosure t f) (hs : Sprung past t f)
    (hcall : ∃ u ∈ t.record.visits ++ past, u.Calls f t.machine.scopes.size)
    (hv : ∀ v ∈ arguments, GoodValue t v) (hvs : ∀ v ∈ arguments, SprungValue past t v)
    (hlen : arguments.length = f.params.length) (place : Place) :
    Accounts past t (callClosure exec f arguments place) fun v u => SprungValue past u v := by
  obtain ⟨⟨ss, os, hmade, hm⟩, -⟩ := hf
  let inner := (t.record.makers f.identity).body f.params f.body
  have hopen := (grows_opening t f.scope inner.openers.head?).later rfl
  refine .makerOf (.opening ha ⟨f, hcall, rfl, rfl, parent_opening t f.scope _, hs.grow hopen⟩
    fun ha => ?_)
  have hmaker := ha.makers f.identity
  have hbind := Accounts.bindParams t.machine.scopes.size f.params ha hmade.params
    fun v hm => (hvs v hm).grow hopen
  refine hbind.bind fun _ u hrun _ ha _ => ?_
  obtain ⟨-, -, -, hstands⟩ := (Steps.enter hg hc hmade hm hv hlen).ok hrun
  have hbody := Accounts.forEach hx hxa f.body hstands hmade.body
    (Maker.allows_body _ f.params f.body) (hmaker.body hmade.params hmade.body)
    (ha.running _).2
  refine hbody.within.catching.bind fun v u' _ _ ha hv => ?_
  split
  · exact .getAt ha _ _ _
  · exact .pure ha hv

/-- What the call of a class gives is accounted for, if a visit came to the class. -/
theorem Accounts.construct {c : Class} {arguments : List Value} (hg : Good t) (hc : Calm t)
    (ha : Account past t) (hclass : GoodClass t c)
    (hcall : ∃ u ∈ t.record.visits ++ past, u.Reaches (.classValue c) t.machine)
    (hv : ∀ v ∈ arguments, GoodValue t v) (hvs : ∀ v ∈ arguments, SprungValue past t v)
    (hlen : arguments.length = c.arity) (place : Place) :
    Accounts past t (construct exec c arguments place) fun v u => SprungValue past u v := by
  unfold Watching.construct
  obtain ⟨hnew, ha⟩ := ha.newObject
  have hobject : Accounts past t (step (Run.newObject c)) fun v u =>
      v = .object t.machine.objects.size c ∧
        u = t.withObjects (t.machine.objects.push []) := ⟨hnew, ha, rfl, rfl⟩
  refine hobject.bind ?_
  rintro _ _ - - ha ⟨rfl, rfl⟩
  have hg₁ := hg.newObject
  have hclass := GoodClass.grow hnew.toExtends hclass
  obtain ⟨v, hmem, hr⟩ := hcall
  cases hf : c.method? "init" with
  | none => exact .pure ha trivial
  | some f =>
    have hbind := Accounts.bindMethod (i := t.machine.objects.size) (c := c) ha (hclass _ f hf)
      ⟨v, hnew.mem hmem, .initializer hr hf⟩ hg₁.globals
    refine hbind.bind ?_
    rintro g u hrun hu ha ⟨⟨rfl, hsize⟩, hs⟩
    obtain ⟨-, hg₂, hc₂, hgood, -⟩ := (Steps.bindMethod hg₁ hc (hclass _ f hf) hclass).ok hrun
    have hall := hnew.trans hu
    have hlen : arguments.length = f.params.length := by
      rw [hlen, Class.arity, hf]
      rfl
    have hcalls : v.Calls
        { f with identity := t.machine.fresh, scope := t.machine.scopes.size }
        u.machine.scopes.size := by
      rw [hsize]
      exact .initializer hr hf
    have hcall := Accounts.callClosure hx hxa hg₂ hc₂ ha hgood hs ⟨v, hall.mem hmem, hcalls⟩
      (fun v hm => (hv v hm).grow hall.toExtends) (fun v hm => (hvs v hm).grow hall) hlen place
    exact hcall.discard.bind fun _ _ _ _ ha _ => .pure ha trivial

theorem Accounts.call {callee : Value} {arguments : List Value} (hg : Good t) (hc : Calm t)
    (ha : Account past t) (hf : GoodValue t callee) (hs : SprungValue past t callee)
    (hcall : callee.arity? = some arguments.length →
      ∃ u ∈ t.record.visits ++ past, u.Reaches callee t.machine)
    (hv : ∀ v ∈ arguments, GoodValue t v) (hvs : ∀ v ∈ arguments, SprungValue past t v)
    (place : Place) :
    Accounts past t (call exec callee arguments place) fun v u => SprungValue past u v := by
  unfold Watching.call
  cases hn : callee.arity? with
  | none => exact .fail ha
  | some expected =>
    dsimp only
    split
    · exact .fail ha
    · rename_i hlen
      rw [bne_iff_ne, ne_eq, Decidable.not_not] at hlen
      obtain ⟨u, hu, hr⟩ := hcall (hn.trans (congrArg some hlen.symm))
      cases callee with
      | native f => exact .callNative ha hvs place
      | function f =>
        cases hn
        exact .callClosure hx hxa hg hc ha hf hs ⟨u, hu, .function hr⟩ hv hvs hlen place
      | classValue c =>
        cases hn
        exact .construct hx hxa hg hc ha hf ⟨u, hu, hr⟩ hv hvs hlen place
      | _ => exact .fail ha

end

end Watching

end LoxLang
