import LoxLang.Proofs.Machine.Functions

/-!
# Calls

`this`, `super` and properties give good values, and so does a call: the scope of the
body is an activation of the function, whose parameters it binds, inside the scope that
the function was made in.
-/

namespace LoxLang

open Scoping

variable {t : Watched}

/-- The scope of a body, once it binds the parameters. -/
theorem Mirrors.body {maker : Maker} {params : List Name} {body : List Stmt}
    {scope parent : ScopeId} (hl : scope ≠ t.machine.globals)
    (ho : t.record.origins scope = some ⟨maker.site.source, .function params body⟩)
    (hp : t.parent? scope = some parent) (hn : ∀ p ∈ params, p.IsOrdinary)
    (hb : ∀ p ∈ params, (t.own? scope p.text).isSome)
    (hm : Mirrors t parent maker.site.walk.outline maker.site.openers) :
    Mirrors t scope (maker.body params body).walk.outline (maker.body params body).openers := by
  obtain ⟨s, hs, hnames⟩ := outline_body maker.kind params maker.site.walk
  rw [Maker.body, Site.inside, hs]
  refine ⟨⟨hl, ho, ?_, ?_, ?_⟩, parent, hp, hm⟩
  · intro x hx
    obtain ⟨-, p, hp, rfl⟩ := hnames x true hx
    exact hb p hp
  · intro h
    obtain ⟨b, hb⟩ := Option.isSome_iff_exists.1 h
    obtain ⟨-, p, hp, he⟩ := hnames _ b hb
    exact absurd he (hn p hp).1
  · intro h
    obtain ⟨b, hb⟩ := Option.isSome_iff_exists.1 h
    obtain ⟨-, p, hp, he⟩ := hnames _ b hb
    exact absurd he (hn p hp).2

/-- The body of a function starts with no name in its scope that awaits its value. -/
theorem Awaited.body {maker : Maker} (params : List Name) (body : List Stmt)
    (h : Awaited maker.site.initializers maker.site.walk.outline maker.site.openers.length) :
    Awaited (maker.body params body).initializers (maker.body params body).walk.outline
      (maker.body params body).openers.length := by
  obtain ⟨s, hs, hnames⟩ := outline_body maker.kind params maker.site.walk
  rw [Maker.body, Site.inside, hs]
  exact h.cons fun x hx => nomatch (hnames x false hx).1

/-- The statements of a body declare names of its scope. -/
theorem Maker.allows_body (maker : Maker) (params : List Name) (body : List Stmt) :
    ∀ s ∈ body, (maker.body params body).Allows s := by
  intro s hs name hn o ho
  cases ho
  exact .inr ⟨s, hs, name, hn, rfl⟩

/-- The site after a statement, once the run has come there. -/
theorem Stands.resolved {σ : Site} {s : Stmt} {u : Watched} (h : Stands t σ)
    (hu : Grows t u) (hg : Good u) (hc : Calm u) (hs : s.Settled σ.walk)
    (hm : Mirrors u t.machine.current (s.outlined σ.walk.outline) σ.openers) :
    Stands u (σ.after s.resolve) := by
  refine ⟨hg, hc, ?_, h.housed.resolve hs, ?_⟩
  · rw [Site.after, s.outline_resolve _ hs, hu.current]
    exact hm
  · rw [Site.after, s.outline_resolve _ hs, Stmt.outlined]
    cases s.declared? with
    | none => exact h.awaited
    | some name => exact h.awaited.declaring name.text

namespace Watching

/-! ## `this` and `super` -/

theorem Steps.getAt {id : ScopeId} {d : Nat} {v : Value} (name : Name) (hg : Good t) (hc : Calm t)
    (ha : t.machine.scopes.ancestor? t.machine.current d = some id)
    (hv : t.own? id name.text = some v) :
    Steps t (step (Run.check fun m => m.scopes.getAt m.current d name)) fun w u =>
      w = v ∧ GoodValue u w := by
  have he := Scopes.getAt_bound ha hv
  refine .check hg hc ?_ ?_
  · intro w hw
    cases he.symm.trans hw
    exact ⟨rfl, hg.scopes id _ _ hv⟩
  · intro f hf
    cases he.symm.trans hf

theorem Steps.readThis {σ : Site} {depth : Option Nat} (h : Stands t σ)
    (hk : σ.walk.classKind ≠ .outside) (hd : depth = distance? σ.walk.scopes "this")
    (place : Place) : Steps t (step (Run.readThis depth place)) fun v u => GoodValue u v := by
  obtain ⟨d, hdist⟩ := h.housed.distance_this hk
  obtain ⟨s, hs, hthis⟩ := has_of_distance hdist
  obtain ⟨id, o, hid, -, ha⟩ := h.mirrors.get hs
  obtain ⟨i, c, hv⟩ := ha.this hthis
  rw [hd, hdist]
  exact (Steps.getAt ⟨"this", place⟩ h.good h.calm hid hv).mono fun _ _ _ _ _ hw => hw.2

/-- A method is bound to an object if there is one under the name. -/
theorem Steps.method {i : Nat} {c k : Class} {name : Name} (hg : Good t) (hc : Calm t)
    (hk : GoodClass t k) (ho : GoodClass t c) :
    Steps t (match k.method? name.text with
      | some f => do return .function (← Watching.bindMethod f (.object i c))
      | none => step (Run.fail name.place (.undefinedProperty name.text)))
      fun v u => GoodValue u v := by
  cases hf : k.method? name.text with
  | none => exact .fail hg hc fun m hm => nomatch hm
  | some f =>
    exact (Steps.bindMethod hg hc (hk _ f hf) ho).bind fun g u _ hg hc hgood =>
      .pure hg hc hgood.1

theorem Steps.readSuper {σ : Site} {depth : Option Nat} (h : Stands t σ)
    (hk : σ.walk.classKind = .derived) (hd : depth = distance? σ.walk.scopes "super")
    (method : Name) (place : Place) :
    Steps t (readSuper method depth place) fun v u => GoodValue u v := by
  obtain ⟨d, s, hdist, hs, hthis⟩ := h.housed.distance_super hk
  obtain ⟨s', hs', hsuper⟩ := has_of_distance hdist
  obtain ⟨id, o, hid, -, ha⟩ := h.mirrors.get hs'
  obtain ⟨k, hv⟩ := ha.super hsuper
  rw [hd, hdist]
  unfold Watching.readSuper
  refine (Steps.getAt ⟨"super", place⟩ h.good h.calm hid hv).bind ?_
  rintro _ u hu hg hc ⟨rfl, hclass⟩
  have h := h.grow hu hg hc
  obtain ⟨id', o', hid', -, ha'⟩ := h.mirrors.get hs
  obtain ⟨i, c, hv'⟩ := ha'.this hthis
  refine (Steps.getAt ⟨"this", place⟩ hg hc hid' hv').bind ?_
  rintro _ u' hu' hg hc ⟨rfl, hobject⟩
  exact .method hg hc (GoodClass.grow hu'.toExtends hclass) hobject

/-! ## Properties -/

theorem Steps.readProperty {v : Value} (hg : Good t) (hc : Calm t) (hv : GoodValue t v)
    (property : Name) : Steps t (readProperty v property) fun v u => GoodValue u v := by
  unfold Watching.readProperty
  cases v with
  | object i c =>
    refine .look ?_
    cases hf : (t.machine.fieldsOf i).find? property.text with
    | some field => exact .pure hg hc (hg.objects i _ _ hf)
    | none => exact .method hg hc hv hv
  | _ => exact .fail hg hc fun m hm => nomatch hm

/-! ## Parameters -/

/-- A scope binds the parameters to as many arguments. -/
theorem Steps.bindParams {scope : ScopeId} {o : Opener} : ∀ (params : List Name) {vs : List Value}
    {t : Watched}, Good t → Calm t → scope ≠ t.machine.globals → scope < t.machine.scopes.size →
    t.record.origins scope = some o → (∀ p ∈ params, p.IsOrdinary) →
    (∀ p ∈ params, o.construct.Declares p.text) → (∀ v ∈ vs, GoodValue t v) →
    vs.length = params.length →
    Steps t (step (Run.bindParams scope params vs)) fun _ u =>
      ∀ p ∈ params, (u.own? scope p.text).isSome
  | [], [], _, hg, hc, _, _, _, _, _, _, _ => .pure hg hc fun _ hp => nomatch hp
  | p :: ps, v :: vs, t, hg, hc, hl, hlt, ho, hn, hd, hv, hlen => by
    have hx : scope = t.machine.globals ∨ (p.text ≠ "this" ∧ p.text ≠ "super") ∨
        t.own? scope p.text = none := .inr (.inl (hn p List.mem_cons_self))
    have hgrows := grows_insert (v := v) hx
    have hgood := hg.insert hx ((hv v List.mem_cons_self).grow hgrows.toExtends) fun o' ho' => by
      cases ho.symm.trans ho'
      exact hd p List.mem_cons_self
    have hlt' := Nat.lt_of_lt_of_le hlt hgrows.size
    have hrest : Steps (t.insert scope p.text v) (step (Run.bindParams scope ps vs)) fun _ u =>
        ∀ q ∈ ps, (u.own? scope q.text).isSome :=
      .bindParams ps hgood hc hl hlt' ho (fun q hq => hn q (List.mem_cons_of_mem _ hq))
        (fun q hq => hd q (List.mem_cons_of_mem _ hq))
        (fun w hw => (hv w (List.mem_cons_of_mem _ hw)).grow hgrows.toExtends) (Nat.succ.inj hlen)
    have hboth : Steps (t.insert scope p.text v) (step (Run.bindParams scope ps vs)) fun _ u =>
        Grows (t.insert scope p.text v) u ∧ ∀ q ∈ ps, (u.own? scope q.text).isSome :=
      hrest.mono fun _ u hu _ _ hps => ⟨hu, hps⟩
    have he : step (Run.bindParams scope (p :: ps) (v :: vs)) t =
        step (Run.bindParams scope ps vs) (t.insert scope p.text v) := rfl
    refine (Steps.of_eq he hgrows hboth).mono ?_
    rintro _ u - - - ⟨hu, hps⟩ q hq
    rcases List.mem_cons.1 hq with rfl | hq
    · refine hu.kept scope q.text hl ?_
      rw [t.own?_insert, if_pos ⟨rfl, rfl, hlt⟩]
      rfl
    · exact hps q hq

/-- The scope of a call is opened and binds the parameters, and the run stands where the body
starts. -/
theorem Steps.enter {f : Closure} {arguments : List Value} {ss : List (Bindings Bool)}
    {os : List Opener} (hg : Good t) (hc : Calm t) (hmade : Made t f ss os)
    (hm : Mirrors t f.scope ss os) (ha : ∀ v ∈ arguments, GoodValue t v)
    (hlen : arguments.length = f.params.length) :
    let maker := t.record.makers f.identity
    Steps (t.opening f.scope (some ⟨maker.site.source, .function f.params f.body⟩))
      (step (Run.bindParams t.machine.scopes.size f.params arguments)) fun _ u =>
        Stands (u.running t.machine.scopes.size) (maker.body f.params f.body) := by
  intro maker
  let scope := t.machine.scopes.size
  let o : Opener := ⟨maker.site.source, .function f.params f.body⟩
  have hgrows := (grows_opening t f.scope (some o)).toExtends
  have hlt : scope < (t.opening f.scope (some o)).machine.scopes.size :=
    Watched.lt_of_parent (parent_opening t f.scope _)
  have hl : scope ≠ t.machine.globals := Nat.ne_of_gt hg.globals
  have hbind := Steps.bindParams f.params (hg.opening f.scope (some o)) hc hl hlt
    (origin_opening t f.scope _) hmade.params (fun p hp => .inl ⟨p, hp, rfl⟩)
    (fun v hv => (ha v hv).grow hgrows) hlen
  refine hbind.mono fun _ u hu hg hc hb => ?_
  have hall := hgrows.trans hu.toExtends
  have hp : u.parent? scope = some f.scope := hu.parents _ _ (parent_opening t f.scope _)
  have ho : u.record.origins scope = some o :=
    (hu.origins scope hlt).trans (origin_opening t f.scope _)
  have hmaker : Mirrors u f.scope maker.site.walk.outline maker.site.openers := by
    rw [hmade.outline, hmade.openers]
    exact hm.grow hall
  have hm := Mirrors.body (by rw [hall.globals]; exact hl) ho hp hmade.params hb hmaker
  exact ⟨hg.running scope, hc, hm.grow (extends_running u scope),
    hmade.housed.body _ hmade.params, hmade.awaited.body _ _⟩

/-! ## Calls -/

theorem Steps.callNative {f : Native} {arguments : List Value} (hg : Good t) (hc : Calm t)
    (ha : ∀ v ∈ arguments, GoodValue t v) (place : Place) :
    Steps t (step (Run.callNative f arguments place)) fun v u => GoodValue u v := by
  cases f with
  | clock =>
    obtain ⟨hgrows, hgood⟩ := hg.quiet (m := { t.machine with clock := t.machine.clock.later }) rfl rfl
      rfl rfl (Nat.le_refl _)
    exact ⟨hgrows, hgood, hc, trivial⟩
  | first arity =>
    cases arguments with
    | nil => exact .fail hg hc fun m hm => nomatch hm
    | cons v vs => exact .pure hg hc (ha v List.mem_cons_self)

/-- Statements run soundly: from where a settled one stands, the run comes to where the walk
comes to. -/
def ExecSound (exec : Site → Stmt → Watching Unit) : Prop :=
  ∀ t σ s, Stands t σ → s.Settled σ.walk → σ.Allows s →
    Steps t (exec σ s) fun _ u => Mirrors u t.machine.current (s.outlined σ.walk.outline) σ.openers

section
variable {exec : Site → Stmt → Watching Unit} (hx : ExecSound exec)
include hx

theorem Steps.forEach : ∀ (ss : List Stmt) {t : Watched} {σ : Site}, Stands t σ →
    Stmt.AllSettled ss σ.walk → (∀ s ∈ ss, σ.Allows s) →
    Steps t (forEach exec σ ss) fun _ _ => True
  | [], _, _, h, _, _ => .pure h.good h.calm trivial
  | s :: ss, t, σ, h, ⟨hs, hss⟩, ha => by
    refine (hx t σ s h hs (ha s List.mem_cons_self)).bind fun _ u hu hg hc hm => ?_
    refine Steps.forEach ss (h.resolved hu hg hc hs hm) hss
      fun s' hs' => ha s' (List.mem_cons_of_mem _ hs')

theorem Steps.callClosure {f : Closure} {arguments : List Value} (hg : Good t) (hc : Calm t)
    (hf : GoodClosure t f) (ha : ∀ v ∈ arguments, GoodValue t v)
    (hlen : arguments.length = f.params.length) (place : Place) :
    Steps t (callClosure exec f arguments place) fun v u => GoodValue u v := by
  obtain ⟨⟨ss, os, hmade, hm⟩, hthis⟩ := hf
  refine .makerOf (.opening ((Steps.enter hg hc hmade hm ha hlen).bind
    fun _ u hu hg hc hstands => ?_))
  have hall := (grows_opening t f.scope _).toExtends.trans hu.toExtends
  let inner := (t.record.makers f.identity).body f.params f.body
  have hbody : Steps u (Watching.within t.machine.scopes.size
      (Watching.forEach exec inner f.body)) fun _ _ => True :=
    (Steps.forEach hx f.body hstands hmade.body (Maker.allows_body _ f.params f.body)).within
      fun _ _ _ _ => trivial
  refine hbody.catching.bind fun v u' hu' hg hc hv => ?_
  split
  · rename_i hi
    obtain ⟨hf, i, c, ho⟩ := hthis hi
    have ho' := (hall.trans hu'.toExtends).fixed f.scope "this" _ hf (.inl rfl) ho
    have he : u'.machine.scopes.getAt f.scope 0 ⟨"this", place⟩ = .ok (.object i c) :=
      Scopes.getAt_bound rfl ho'
    refine .check hg hc ?_ ?_
    · intro w hw
      cases he.symm.trans hw
      exact hg.scopes _ _ _ ho'
    · intro f hf
      cases he.symm.trans hf
  · exact .pure hg hc hv

theorem Steps.construct {c : Class} {arguments : List Value} (hg : Good t) (hc : Calm t)
    (hclass : GoodClass t c) (ha : ∀ v ∈ arguments, GoodValue t v)
    (hlen : arguments.length = c.arity) (place : Place) :
    Steps t (construct exec c arguments place) fun v u => GoodValue u v := by
  have hgrows := grows_withObjects t (t.machine.objects.push [])
  unfold Watching.construct
  have hnew : Steps t (step (Run.newObject c)) fun v _ => v = .object t.machine.objects.size c :=
    ⟨hgrows, hg.newObject, hc, rfl⟩
  refine hnew.bind ?_
  rintro _ u hu hg hc rfl
  have hclass := GoodClass.grow hu.toExtends hclass
  cases hf : c.method? "init" with
  | none => exact .pure hg hc hclass
  | some f =>
    have hlen : arguments.length = f.params.length := by
      rw [hlen, Class.arity, hf]
      rfl
    refine (Steps.bindMethod hg hc (hclass _ f hf) hclass).bind fun g u' hu' hg hc ⟨hgood, hp⟩ => ?_
    rw [← hp] at hlen
    have hcall := Steps.callClosure hx hg hc hgood
      (fun v hv => ((ha v hv).grow hu.toExtends).grow hu'.toExtends) hlen place
    exact hcall.discard.bind fun _ v hv hg hc _ =>
      .pure hg hc (GoodClass.grow (hu'.trans hv).toExtends hclass)

theorem Steps.call {callee : Value} {arguments : List Value} (hg : Good t) (hc : Calm t)
    (hv : GoodValue t callee) (ha : ∀ v ∈ arguments, GoodValue t v) (place : Place) :
    Steps t (call exec callee arguments place) fun v u => GoodValue u v := by
  unfold Watching.call
  cases hn : callee.arity? with
  | none => exact .fail hg hc fun m hm => nomatch hm
  | some expected =>
    dsimp only
    split
    · exact .fail hg hc fun m hm => nomatch hm
    · rename_i hlen
      rw [bne_iff_ne, ne_eq, Decidable.not_not] at hlen
      cases callee with
      | native f => exact .callNative hg hc ha place
      | function f =>
        cases hn
        exact .callClosure hx hg hc hv ha hlen place
      | classValue c =>
        cases hn
        exact .construct hx hg hc hv ha hlen place
      | _ => exact .fail hg hc fun m hm => nomatch hm

end

end Watching

end LoxLang
