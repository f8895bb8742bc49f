import LoxLang.Proofs.Machine.Uses

/-!
# Functions, methods and classes

A function is made good: its scope mirrors the site where it is made. A method is good
once its class has its name, and a good function as soon as it is bound to an object. A
call runs the body in an activation of the function, whose scopes mirror the site where
the body starts.
-/

namespace LoxLang

open Scoping

variable {t : Watched}

/-! ## Making functions -/

/-- The method of an object is good: its scope binds `this`. -/
theorem GoodMethod.bound {f : Closure} {i : Nat} {c : Class} (hg : Good t) (hf : GoodMethod t f)
    (hc : GoodClass t c) {u : Watched}
    (hu : u = ((t.opening f.scope (t.record.makers f.identity).site.openers.head?).insert
      t.machine.scopes.size "this" (.object i c)).making (t.record.makers f.identity)) :
    Grows t u ∧ Good u ∧
      GoodClosure u { f with identity := t.machine.fresh, scope := t.machine.scopes.size } := by
  obtain ⟨s, ss, o, os, hmade, hm, hs, hd⟩ := hf
  rw [hmade.openers, List.head?_cons] at hu
  have hsize : (t.opening f.scope (some o)).own? t.machine.scopes.size "this" = none := by
    rw [t.own?_opening, t.own?_size]
  have hopen := grows_opening t f.scope (some o)
  have hbind := grows_insert (v := .object i c) (.inr (.inr hsize))
  have hall := (hopen.trans hbind).trans (grows_making _ (t.record.makers f.identity))
  have hmir := Mirrors.single hg hm o hs (x := "this") (v := .object i c) (fun _ => ⟨i, c, rfl⟩)
    (fun h => absurd h (by decide))
  have hgood := ((hg.opening f.scope (some o)).insert (.inr (.inr hsize))
    (GoodValue.grow (v := .object i c) (hopen.trans hbind).toExtends hc) (by
      intro o' ho
      rw [origin_opening] at ho
      cases ho
      exact hd)).making (t.record.makers f.identity)
  subst hu
  refine ⟨hall, hgood, ⟨_, _, ?_, hmir.grow (grows_making _ _).toExtends⟩, fun _ => ?_⟩
  · rw [← hmade.outline, ← hmade.openers]
    exact Made.making rfl hmade.housed hmade.awaited hmade.params hmade.body
  · refine ⟨Nat.ne_of_gt hg.globals, i, c, ?_⟩
    have hlt := Watched.lt_of_parent (parent_opening t f.scope (some o))
    exact (Watched.own?_insert _ _ _ _ _ _).trans (if_pos ⟨rfl, rfl, hlt⟩)

/-! ## Classes and their names -/

theorem GoodClass.plain {u : Watched} {identity : Nat} {name : String}
    {table : Bindings Closure}
    (h : ∀ x f, table.find? x = some f → GoodMethod u f) :
    GoodClass u (.mk identity name none table) := by
  intro x f hf
  rw [Class.method?] at hf
  exact h x f hf

theorem GoodClass.derived {u : Watched} {identity : Nat} {name : String} {c : Class}
    {table : Bindings Closure} (hc : GoodClass u c)
    (h : ∀ x f, table.find? x = some f → GoodMethod u f) :
    GoodClass u (.mk identity name (some c) table) := by
  intro x f hf
  rw [Class.method?] at hf
  split at hf
  · rename_i g hg
    cases hf
    exact h x f hg
  · exact hc x f hf

/-- The statement declares no name that its scope is not for. -/
def Site.Allows (σ : Site) (s : Stmt) : Prop :=
  ∀ name ∈ s.declared?, ∀ o ∈ σ.openers.head?, o.construct.Declares name.text

namespace Watching

theorem bindMethod_apply (f : Closure) (object : Value) (t : Watched) :
    bindMethod f object t =
      .ok { f with identity := t.machine.fresh, scope := t.machine.scopes.size }
        (((t.opening f.scope (t.record.makers f.identity).site.openers.head?).insert
          t.machine.scopes.size "this" object).making (t.record.makers f.identity)) := rfl

theorem Steps.bindMethod {f : Closure} {i : Nat} {c : Class} (hg : Good t) (hc : Calm t)
    (hf : GoodMethod t f) (ho : GoodClass t c) :
    Steps t (bindMethod f (.object i c)) fun g u =>
      GoodClosure u g ∧ g.params = f.params := by
  obtain ⟨hgrows, hgood, hclosure⟩ := hf.bound (i := i) hg ho rfl
  exact ⟨hgrows, hgood, hc, hclosure, rfl⟩

/-- A function made at a site has the scopes there, and its body is settled for them. -/
theorem Steps.makeFunction {σ : Site} {kind : FunctionKind} {name : String} {params : List Name}
    {body : List Stmt} {isInitializer : Bool} (hg : Good t) (hc : Calm t) (hh : Housed σ.walk)
    (ha : Awaited σ.initializers σ.walk.outline σ.openers.length)
    (hp : ∀ p ∈ params, p.IsOrdinary) (hb : Stmt.AllSettled body (σ.walk.body kind params)) :
    Steps t (makeFunction σ kind name params body isInitializer) fun f u =>
      Made u f σ.walk.outline σ.openers ∧ f.scope = t.machine.current ∧
        f.isInitializer = isInitializer := by
  have hm : Made (t.making ⟨σ, kind⟩)
      ⟨t.machine.fresh, name, params, body, t.machine.current, isInitializer⟩ σ.walk.outline
      σ.openers := Made.making rfl hh ha hp hb
  exact ⟨grows_making t _, hg.making _, hc, hm, rfl, rfl⟩

/-- What the table of a class holds before the class has its name. -/
def Tabled (t : Watched) (scope : ScopeId) (outline : List (Bindings Bool))
    (openers : List Opener) (table : Bindings Closure) : Prop :=
  ∀ x f, table.find? x = some f → Made t f outline openers ∧ f.scope = scope

theorem tabled_nil (scope : ScopeId) (ss : List (Bindings Bool)) (os : List Opener) :
    Tabled t scope ss os [] := fun _ _ h => nomatch h

theorem Tabled.grow {t' : Watched} {scope : ScopeId} {ss : List (Bindings Bool)}
    {os : List Opener} {table : Bindings Closure} (h : Tabled t scope ss os table)
    (hg : Extends t t') : Tabled t' scope ss os table :=
  fun x f hf => ⟨(h x f hf).1.grow hg, (h x f hf).2⟩

/-- Methods made at a site make a table of methods for it. -/
theorem Steps.makeMethods {scope : ScopeId} {ss : List (Bindings Bool)} {os : List Opener} :
    ∀ (fs : List Function) {σ : Site} {table : Bindings Closure} {t : Watched}, Good t → Calm t →
    t.machine.current = scope → σ.walk.outline = ss → σ.openers = os → Housed σ.walk →
    Awaited σ.initializers σ.walk.outline σ.openers.length → Function.AllSettled fs σ.walk → Tabled t scope ss os table →
    Steps t (makeMethods σ fs table) fun table' u => Tabled u scope ss os table'
  | [], _, _, _, hg, hc, _, _, _, _, _, _, ht => .pure hg hc ht
  | .mk name params body :: fs, σ, table, t, hg, hc, hcur, hss, hos, hh, ha, hs, ht => by
    obtain ⟨⟨hp, hb⟩, hs⟩ := hs
    refine (Steps.makeFunction hg hc hh ha hp hb).bind fun f u hgrows hg hc ⟨hm, hscope, _⟩ => ?_
    have hsteady := (Function.mk name params body).steady_resolve
      (Function.mk name params body).methodKind σ.walk
    refine Steps.makeMethods fs hg hc (hgrows.current.trans hcur) (hsteady.outline.trans hss) hos
      (hh.steady hsteady) (by rw [Site.after, hsteady.outline]; exact ha) hs ?_
    intro x g hx
    rw [Bindings.find?_insert] at hx
    split at hx
    · cases hx
      rw [hss, hos] at hm
      exact ⟨hm, hscope.trans hcur⟩
    · exact ht.grow hgrows.toExtends x g hx

/-! ## Declaring classes -/

theorem Steps.readSuperclass {r : Reference} (hg : Good t) (hc : Calm t) (hb : Bound t r) :
    Steps t (step (Run.readSuperclass r)) fun c u => GoodClass u c := by
  unfold Run.readSuperclass
  rw [step_bind]
  refine (Steps.readVariable hg hc hb).bind fun v u _ hg hc hv => ?_
  cases v with
  | classValue c => exact .pure hg hc hv
  | _ => exact .fail hg hc fun m hm => nomatch hm

theorem Steps.newIdentity (hg : Good t) (hc : Calm t) :
    Steps t (step Run.newIdentity) fun _ _ => True := by
  obtain ⟨hgrows, hgood⟩ := hg.quiet (m := { t.machine with fresh := t.machine.fresh + 1 }) rfl rfl
    rfl rfl (Nat.le_succ _)
  exact ⟨hgrows, hgood, hc, trivial⟩

/-- A class is given its name, which its methods may depend on. -/
theorem Steps.nameClass {name : Name} {superclass : Option Class} {table : Bindings Closure}
    {ss : List (Bindings Bool)} {os : List Opener} (hg : Good t) (hc : Calm t)
    (hn : name.IsOrdinary) (hm : Mirrors t t.machine.current ss os)
    (hd : ∀ o ∈ os.head?, o.construct.Declares name.text)
    (hv : ∀ u identity, Extends t u → Mirrors u t.machine.current (declaring name.text ss) os →
      GoodClass u (.mk identity name.text superclass table)) :
    Steps t (step Run.newIdentity >>= fun identity =>
      step (Run.define name (.classValue (.mk identity name.text superclass table))))
      fun _ u => Mirrors u t.machine.current (declaring name.text ss) os := by
  refine (Steps.newIdentity hg hc).bind fun identity t' hgrows hg hc _ => ?_
  have hm' := hm.grow hgrows.toExtends
  rw [← hgrows.current] at hm' hv ⊢
  exact .define hg hc hn hm' hd fun u he => hv u identity (hgrows.toExtends.trans he)

/-- A method in the table of a class is good once the scope around it is mirrored. -/
theorem Tabled.method {u : Watched} {className : Name} {source : Nat} {table : Bindings Closure}
    {scope : ScopeId} {ss : List (Bindings Bool)} {os : List Opener}
    (ht : Tabled u scope ([("this", true)] :: ss) (⟨source, .receiver className⟩ :: os) table)
    (hm : Mirrors u scope ss os) {x : String} {f : Closure} (hf : table.find? x = some f) :
    GoodMethod u f := by
  obtain ⟨hmade, rfl⟩ := ht x f hf
  refine ⟨_, _, _, _, hmade, hm, fun y hy => ?_, rfl⟩
  simpa [Bindings.has, Bindings.find?_cons] using hy

theorem Steps.declarePlain {σ : Site} {name : Name} {methods : List Function} (h : Stands t σ)
    (hs : (Stmt.classDecl name none methods).Settled σ.walk)
    (hd : σ.Allows (.classDecl name none methods)) :
    Steps t (declareClass σ name none methods) fun _ u =>
      Mirrors u t.machine.current (declaring name.text σ.walk.outline) σ.openers := by
  obtain ⟨hn, hs⟩ := hs
  unfold declareClass
  have ho := outline_this name.place (σ.walk.enter .plain name)
  rw [outline_enter] at ho
  have ha : Awaited σ.initializers ((σ.walk.enter .plain name).this name.place).outline
      (σ.openers.length + 1) := by
    rw [ho]
    exact (h.awaited.declaring name.text).cons (by simp [Bindings.find?_cons])
  refine (Steps.makeMethods methods h.good h.calm rfl ho rfl (h.housed.plain hn _) ha hs
    (tabled_nil _ _ _)).bind fun table t' hgrows hg hc ht => ?_
  have hm := h.mirrors.grow hgrows.toExtends
  rw [← hgrows.current] at hm ht ⊢
  refine .nameClass hg hc hn hm (hd name rfl) fun u identity he hm => ?_
  exact .plain fun x f hf => (ht.grow he).method hm hf

theorem Steps.declareDerived {σ : Site} {name : Name} {r : Reference} {methods : List Function}
    (h : Stands t σ) (hs : (Stmt.classDecl name (some r) methods).Settled σ.walk)
    (hd : σ.Allows (.classDecl name (some r) methods)) :
    Steps t (declareClass σ name (some r) methods) fun _ u =>
      Mirrors u t.machine.current (declaring name.text σ.walk.outline) σ.openers := by
  obtain ⟨hn, hne, hr, hs⟩ := hs
  have hi : ((σ.walk.enter .derived name).inherit name r).outline =
      declaring name.text σ.walk.outline := by
    rw [(steady_inherit name r _).outline, outline_enter]
  unfold declareClass
  refine Steps.bind₂ (Steps.use h.good h.calm h.mirrors h.awaited (.inr ⟨name.text, hi, rfl⟩) rfl hne
    (by rw [hr, Site.moved, scopes_inherit]) (looks_readSuperclass r)
    fun u _ hg hc hb => Steps.readSuperclass hg hc hb) fun c t₁ hgrows hg hc hclass => ?_
  have hm := h.mirrors.grow hgrows.toExtends
  rw [← hgrows.current] at hm ⊢
  clear hgrows
  -- the scope of `super` is made before the methods
  let scope := t₁.machine.scopes.size
  let o : Opener := ⟨σ.source, .inherited name⟩
  let t₂ := (t₁.opening t₁.machine.current (some o)).insert scope "super" (.classValue c)
  have hnone : (t₁.opening t₁.machine.current (some o)).own? scope "super" = none := by
    rw [t₁.own?_opening, t₁.own?_size]
  have hgrows : Grows t₁ t₂ := (grows_opening _ _ _).trans (grows_insert (.inr (.inr hnone)))
  have hgood : Good t₂ := (hg.opening _ _).insert (.inr (.inr hnone))
    (GoodClass.grow hgrows.toExtends hclass) fun o' ho => by
      rw [origin_opening] at ho
      cases ho
      rfl
  have hmir : Mirrors t₂ scope ([("super", true)] :: σ.walk.outline) (o :: σ.openers) :=
    .single hg hm o (fun y hy => by simpa [Bindings.has, Bindings.find?_cons] using hy)
      (fun hx => absurd hx (by decide)) fun _ => ⟨c, rfl⟩
  let inner := (σ.inside (.inherited name) σ.walk).inside (.receiver name) (σ.walk.derive name r)
  suffices hrest : Steps t₂ (Watching.within scope (Watching.makeMethods inner methods []) >>=
      fun table =>
      step Run.newIdentity >>= fun identity =>
        step (Run.define name (.classValue (.mk identity name.text (some c) table))))
      fun _ u => Mirrors u t₂.machine.current (declaring name.text σ.walk.outline) σ.openers by
    refine .of_eq ?_ hgrows hrest
    rfl
  have hpar : t₂.parent? scope = some t₁.machine.current := by
    rw [Watched.parent?_insert, parent_opening]
  have hm := hm.grow hgrows.toExtends
  have hclass := GoodClass.grow hgrows.toExtends hclass
  have ha : Awaited σ.initializers (σ.walk.derive name r).outline (σ.openers.length + 1 + 1) := by
    rw [outline_derive]
    exact ((h.awaited.declaring name.text).cons (by simp [Bindings.find?_cons])).cons
      (by simp [Bindings.find?_cons])
  let tabled (table : Bindings Closure) (u : Watched) :=
    Tabled u scope ([("this", true)] :: [("super", true)] :: declaring name.text σ.walk.outline)
      inner.openers table
  have hmethods : Steps (t₂.running scope) (Watching.makeMethods inner methods []) tabled :=
    .makeMethods methods (hgood.running scope) hc rfl (outline_derive name r σ.walk) rfl
      (h.housed.derive hn r) ha hs (tabled_nil _ _ _)
  have hwithin : Steps t₂ (Watching.within scope (Watching.makeMethods inner methods [])) tabled :=
    hmethods.within fun table u _ ht => ht.grow (extends_running u _)
  refine hwithin.bind fun table u hu hg hc ht => ?_
  have hm' := hm.grow hu.toExtends
  have hcur := hu.current
  rw [← hcur]
  refine .nameClass hg hc hn (by rw [hcur]; exact hm') (hd name rfl) fun v identity he hm => ?_
  refine .derived (GoodClass.grow (hu.toExtends.trans he) hclass) fun x f hf => ?_
  have hext := hu.toExtends.trans he
  obtain ⟨ha, -⟩ := hmir.grow hext
  rw [hcur] at hm
  exact (ht.grow he).method ⟨ha, _, hext.parents _ _ hpar, hm⟩ hf

end Watching

end LoxLang
