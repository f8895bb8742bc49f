import LoxLang.Proofs.Machine.Agree
import LoxLang.Proofs.Receiver.Account

/-!
# What steps leave accounted for

`Accounts past t x post` says that the watched step `x` keeps the state `t` accounted for,
however it ends. The laws follow the ways in which steps are put together. Then come the
steps that make the scopes of methods: binding a method, declaring a class, calling.
-/

namespace LoxLang

open Scoping

/-- The value that a `return` is on its way with is accounted for. -/
def EndSprung (past : List Visit) (t : Watched) : Interrupt → Prop
  | .returning v _ => SprungValue past t v
  | _ => True

theorem EndSprung.grow {past : List Visit} {t t' : Watched} {i : Interrupt}
    (h : EndSprung past t i) (hf : Later t t') : EndSprung past t' i := by
  cases i with
  | returning v place => exact SprungValue.grow h hf
  | _ => trivial

theorem SprungValue.of_plain {past : List Visit} {t : Watched} {v : Value} (h : v.IsPlain) :
    SprungValue past t v := by
  cases v with
  | function g => exact h.elim
  | _ => trivial

/-- A function that is made where the run stands is inside no scope of `this`. -/
theorem Stands.sprung {past : List Visit} {t u : Watched} {σ : Site} {f : Closure}
    (h : Stands t σ) (hσ : σ.Surrounded) (hf : f.scope = t.machine.current) (hu : Later t u) :
    Sprung past u f := by
  have hlt : t.machine.current < t.machine.scopes.size := by
    have hm := h.mirrors
    generalize σ.walk.outline = ss at hm
    generalize σ.openers = os at hm
    match ss, os, hm with
    | [], [], hm => exact hm ▸ h.good.globals
    | _ :: _, _ :: _, ⟨_, _, hp, _⟩ => exact Watched.lt_of_parent hp
  refine Sprung.grow ⟨hf ▸ hlt, fun source className ho => ?_⟩ hu
  rw [hf, h.mirrors.origin h.good] at ho
  exact absurd rfl (hσ.nested.head_undeclared ho)

namespace Watching

variable {α β : Type} {past : List Visit} {t t' : Watched}

/-- What a step comes to that starts in a state that is accounted for. -/
def Accounts (past : List Visit) (t : Watched) (x : Watching α) (post : α → Watched → Prop) :
    Prop :=
  match x t with
  | .ok a u => Later t u ∧ Account past u ∧ post a u
  | .error i u => Later t u ∧ Account past u ∧ EndSprung past u i

/-! ## Laws -/

variable {x : Watching α} {k : α → Watching β} {post mid : α → Watched → Prop}
  {post' : β → Watched → Prop}

theorem Accounts.pure {a : α} (ha : Account past t) (h : post a t) :
    Accounts past t (pure a) post := ⟨.refl t, ha, h⟩

theorem Accounts.throw {i : Interrupt} (ha : Account past t) (h : EndSprung past t i) :
    Accounts past t (throw i) post := ⟨.refl t, ha, h⟩

/-- A step that another one goes on with from a later state. -/
theorem Accounts.of_eq {y : Watching α} (he : x t = y t') (hf : Later t t')
    (h : Accounts past t' y post) : Accounts past t x post := by
  unfold Accounts at h ⊢
  rw [he]
  cases hy : y t' with
  | ok a u =>
    rw [hy] at h
    exact ⟨hf.trans h.1, h.2⟩
  | error i u =>
    rw [hy] at h
    exact ⟨hf.trans h.1, h.2⟩

/-- The second step is handed what the first one came to. -/
theorem Accounts.bind (h : Accounts past t x mid)
    (hk : ∀ a u, x t = .ok a u → Later t u → Account past u → mid a u →
      Accounts past u (k a) post') : Accounts past t (x >>= k) post' := by
  unfold Accounts at h
  cases hx : x t with
  | ok a u =>
    rw [hx] at h
    obtain ⟨hf, ha, hm⟩ := h
    exact .of_eq (by rw [bind_apply, hx]) hf (hk a u hx hf ha hm)
  | error i u =>
    rw [hx] at h
    unfold Accounts
    rw [bind_apply, hx]
    exact h

theorem Accounts.mono (h : Accounts past t x mid)
    (hp : ∀ a u, Later t u → Account past u → mid a u → post a u) :
    Accounts past t x post := by
  unfold Accounts at h ⊢
  cases hx : x t with
  | ok a u =>
    rw [hx] at h
    exact ⟨h.1, h.2.1, hp a u h.1 h.2.1 h.2.2⟩
  | error i u =>
    rw [hx] at h
    exact h

theorem Accounts.discard (h : Accounts past t x mid) :
    Accounts past t (discard x) fun _ _ => True :=
  h.bind fun _ _ _ _ ha _ => .pure ha trivial

/-- A step in another scope is back in the scope that it came from. -/
theorem Accounts.within {scope : ScopeId} (h : Accounts past (t.running scope) x mid) :
    Accounts past t (within scope x) fun _ _ => True := by
  have hin : Later t (t.running scope) := (extends_running t scope).later rfl
  unfold Accounts at h ⊢
  rw [within_apply]
  cases hy : x (t.running scope) with
  | ok a u =>
    rw [hy] at h
    obtain ⟨hf, ha, -⟩ := h
    obtain ⟨hback, ha⟩ := ha.running t.machine.current
    exact ⟨(hin.trans hf).trans hback, ha, trivial⟩
  | error i u =>
    rw [hy] at h
    obtain ⟨hf, ha, he⟩ := h
    obtain ⟨hback, ha⟩ := ha.running t.machine.current
    exact ⟨(hin.trans hf).trans hback, ha, he.grow hback⟩

/-- The value of a body is the one that was returned. -/
theorem Accounts.catching {x : Watching Unit} {mid : Unit → Watched → Prop}
    (h : Accounts past t x mid) :
    Accounts past t (catching x) fun v u => SprungValue past u v := by
  unfold Accounts at h ⊢
  unfold Watching.catching
  cases hx : x t with
  | ok a u =>
    rw [hx] at h
    exact ⟨h.1, h.2.1, trivial⟩
  | error i u =>
    rw [hx] at h
    cases i with
    | returning v place => exact h
    | _ => exact ⟨h.1, h.2.1, trivial⟩

theorem Accounts.breakable {body rest : Watching Unit} {mid : Unit → Watched → Prop}
    (h : Accounts past t body mid)
    (hk : ∀ u, body t = .ok () u → Later t u → Account past u →
      Accounts past u rest fun _ _ => True) :
    Accounts past t (breakable body rest) fun _ _ => True := by
  unfold Accounts at h
  cases hb : body t with
  | ok a u =>
    rw [hb] at h
    exact .of_eq (by rw [Watching.breakable, hb]) h.1 (hk u hb h.1 h.2.1)
  | error i u =>
    rw [hb] at h
    unfold Accounts Watching.breakable
    rw [hb]
    cases i with
    | breaking place => exact ⟨h.1, h.2.1, trivial⟩
    | _ => exact h

/-- A visit that says what a use of `super` there comes from, if it is one. -/
theorem Accounts.visit {σ : Site} {node : Node} (ha : Account past t)
    (hv : Visit.Supers ⟨σ, node, t.machine, t.record.origins⟩ (t.record.visits ++ past))
    (hx : Account past (t.visiting σ node) → Accounts past (t.visiting σ node) x post) :
    Accounts past t (Watching.visit σ node >>= fun _ => x) post := by
  obtain ⟨hf, ha⟩ := ha.visiting hv
  have he : (Watching.visit σ node >>= fun _ => x) t = x (t.visiting σ node) := rfl
  exact .of_eq he hf (hx ha)

/-- A visit of anything but a use of `super`. -/
theorem Accounts.pass {σ : Site} {node : Node} (ha : Account past t) (hn : node.isSuper = false)
    (hx : Account past (t.visiting σ node) → Accounts past (t.visiting σ node) x post) :
    Accounts past t (Watching.visit σ node >>= fun _ => x) post :=
  .visit ha (Visit.supers_of_other hn) hx

theorem Accounts.look {k : Machine → Watching β} (h : Accounts past t (k t.machine) post') :
    Accounts past t (step get >>= k) post' := .of_eq rfl (.refl t) h

theorem Accounts.makerOf {f : Closure} {k : Maker → Watching β}
    (h : Accounts past t (k (t.record.makers f.identity)) post') :
    Accounts past t (makerOf f >>= k) post' := .of_eq rfl (.refl t) h

/-- A scope is opened that the visits account for, and the rest goes on from there. -/
theorem Accounts.opening {parent : ScopeId} {o : Opener} {k : ScopeId → Watching β}
    (ha : Account past t)
    (ho : Accounted past (t.opening parent (some o)) t.machine.scopes.size o)
    (h : Account past (t.opening parent (some o)) →
      Accounts past (t.opening parent (some o)) (k t.machine.scopes.size) post') :
    Accounts past t
      (step (Run.newScope parent) >>= fun scope => opened scope (some o) >>= fun _ => k scope)
      post' := by
  obtain ⟨hf, ha⟩ := ha.opening parent ho
  refine .of_eq ?_ hf (h ha)
  rfl

/-! ## Looking and storing -/

theorem Accounts.fail {place : Place} {cause : FaultCause} (ha : Account past t) :
    Accounts past t (step (Run.fail place cause)) post := ⟨.refl t, ha, trivial⟩

theorem Accounts.check {look : Machine → Except Fault α} (ha : Account past t)
    (h : ∀ a, look t.machine = .ok a → post a t) :
    Accounts past t (step (Run.check look)) post := by
  unfold Accounts step Run.check
  cases hl : look t.machine with
  | ok a => exact ⟨.refl t, ha, h a hl⟩
  | error f => exact ⟨.refl t, ha, trivial⟩

/-- A look whose outcome is known. -/
theorem Accounts.known {look : Machine → Except Fault α} {a : α} (hl : look t.machine = .ok a)
    (h : Accounts past t (k a) post') :
    Accounts past t (step (Run.check look) >>= k) post' := by
  refine .of_eq ?_ (.refl t) h
  have hs : step (Run.check look) t = .ok a t := by
    unfold step
    rw [Run.check_ok hl]
  rw [bind_apply, hs]

theorem Accounts.lift {result : Except Fault Value} {also : Value → Prop} (ha : Account past t)
    (h : Plainly result also) (hv : ∀ v, also v → SprungValue past t v) :
    Accounts past t (step (Run.lift result)) fun v u => SprungValue past u v := by
  unfold Plainly at h
  refine .check ha ?_
  rintro v rfl
  exact h.elim .of_plain (hv v)

theorem Accounts.getAt (ha : Account past t) (id : ScopeId) (d : Nat) (name : Name) :
    Accounts past t (step (Run.check fun m => m.scopes.getAt id d name)) fun v u =>
      SprungValue past u v := by
  refine .check ha fun v hv => ?_
  obtain ⟨holder, -, ho⟩ := Scopes.own_of_getAt hv
  exact ha.values holder _ v ho

theorem Accounts.readVariable (ha : Account past t) (r : Reference) :
    Accounts past t (step (Run.readVariable r)) fun v u =>
      (u = t ∧ Run.readVariable r t.machine = .ok v t.machine) ∧ SprungValue past u v := by
  unfold Run.readVariable
  cases r.depth with
  | some d =>
    refine .check ha fun v hv => ⟨⟨rfl, Run.check_ok hv⟩, ?_⟩
    obtain ⟨holder, -, ho⟩ := Scopes.own_of_getAt hv
    exact ha.values holder _ v ho
  | none =>
    refine .check ha fun v hv => ⟨⟨rfl, Run.check_ok hv⟩, ?_⟩
    rcases t.machine.scopes.get_cases t.machine.globals r.name with ⟨id, w, hw, he⟩ | he
    · cases he.symm.trans hv
      exact ha.values id _ _ hw
    · cases he.symm.trans hv

theorem Accounts.store {choose : Machine → Except Fault ScopeId} {name : Name} {v : Value}
    (ha : Account past t) (hn : name.IsOrdinary) (hv : SprungValue past t v) :
    Accounts past t (step (Run.store choose name.text v)) fun _ _ => True := by
  unfold Accounts step Run.store
  cases choose t.machine with
  | error f => exact ⟨.refl t, ha, trivial⟩
  | ok id =>
    obtain ⟨hf, ha⟩ := ha.insert id hn hv
    exact ⟨hf, ha, trivial⟩

theorem Accounts.assignVariable {r : Reference} {v : Value} (ha : Account past t)
    (hn : r.name.IsOrdinary) (hv : SprungValue past t v) :
    Accounts past t (step (Run.assignVariable r v)) fun _ _ => True := by
  unfold Run.assignVariable
  cases r.depth with
  | some d => exact .store ha hn hv
  | none => exact .store ha hn hv

theorem Accounts.define {name : Name} {v : Value} (ha : Account past t) (hn : name.IsOrdinary)
    (hv : SprungValue past t v) :
    Accounts past t (step (Run.define name v)) fun _ _ => True := .store ha hn hv

theorem Accounts.print (ha : Account past t) (text : String) (place : Place) :
    Accounts past t (step (Run.print text place)) fun _ _ => True := by
  obtain ⟨hf, ha⟩ := ha.quiet (m := { t.machine with sink := (t.machine.sink.put text).1 })
    rfl rfl rfl (Nat.le_refl _)
  unfold Accounts step Run.print
  dsimp only
  cases (t.machine.sink.put text).2 with
  | none => exact ⟨hf, ha, trivial⟩
  | some problem => exact ⟨hf, ha, trivial⟩

/-! ## Making functions and binding methods -/

theorem Accounts.makeFunction {σ : Site} (ha : Account past t) (hσ : σ.Makes)
    (kind : FunctionKind) (name : String) (params : List Name) (body : List Stmt)
    (isInitializer : Bool) :
    Accounts past t (makeFunction σ kind name params body isInitializer) fun f _ =>
      f.scope = t.machine.current := by
  obtain ⟨hf, ha⟩ := ha.making ⟨σ, kind⟩ hσ
  exact ⟨hf, ha, rfl⟩

theorem Accounts.makeMethods : ∀ (fs : List Function) {σ : Site} {table : Bindings Closure}
    {t : Watched}, Account past t → σ.Makes →
    Accounts past t (makeMethods σ fs table) fun _ _ => True
  | [], _, _, _, ha, _ => .pure ha trivial
  | f :: fs, _, _, _, ha, hσ =>
    (Accounts.makeFunction ha hσ _ _ _ _ _).bind fun _ _ _ _ ha _ =>
      .makeMethods fs ha (hσ.after f f.methodKind)

/-- What binding a method leaves: the scope of `this` is new, and the method is bound to the
object there. -/
theorem Accounts.bindMethod {f : Closure} {i : Nat} {c : Class} (ha : Account past t)
    (hf : GoodMethod t f)
    (hb : ∃ u ∈ t.record.visits ++ past, u.Binds f (.object i c) t.machine.scopes.size)
    (hg : t.machine.globals < t.machine.scopes.size) :
    Accounts past t (bindMethod f (.object i c)) fun g u =>
      (g = { f with identity := t.machine.fresh, scope := t.machine.scopes.size } ∧
        u.machine.scopes.size = t.machine.scopes.size + 1) ∧ Sprung past u g := by
  obtain ⟨s, ss, o, os, hmade, -, -, hd⟩ := hf
  have hmaker := ha.makers f.identity
  have ho : (t.record.makers f.identity).site.openers.head? = some o := by
    rw [hmade.openers]
    rfl
  -- the method was made right inside the scope of `this` of its class, whose opener the new
  -- scope shares
  obtain ⟨className, hc⟩ := hmaker.receiver ho hd
  have hacc {u : Watched} : Accounted past u t.machine.scopes.size o := by
    unfold Accounted
    rw [hc]
    trivial
  obtain ⟨hf₁, ha₁⟩ := ha.enclosing f.scope (o := o) (x := "this")
    (v := .object i c) (fun _ => trivial) hacc
  obtain ⟨hf₂, ha₂⟩ := ha₁.making _ hmaker
  have hlt := Watched.lt_of_parent (parent_opening t f.scope (some o))
  have hsize : ((t.opening f.scope (some o)).insert t.machine.scopes.size "this"
      (.object i c)).machine.scopes.size = t.machine.scopes.size + 1 :=
    (Scopes.size_insert _ _ _ _).trans (Scopes.size_child _ _)
  obtain ⟨v, hv, hb⟩ := hb
  unfold Accounts
  rw [bindMethod_apply, ho]
  refine ⟨hf₁.trans hf₂, ha₂, ⟨rfl, hsize⟩, Nat.lt_of_lt_of_eq (Nat.lt_succ_self _) hsize.symm,
    fun _ _ _ => ⟨Nat.ne_of_gt hg, f, .object i c, ⟨v, hv, hb⟩, rfl, ⟨i, c, rfl⟩, ?_, ?_⟩⟩
  · exact (Watched.own?_insert _ _ _ _ _ _).trans (if_pos ⟨rfl, rfl, hlt⟩)
  · exact (Watched.parent?_insert _ _ _ _ _).trans (parent_opening t f.scope (some o))

/-- A method is bound to an object if there is one under the name. -/
theorem Accounts.method {i : Nat} {c k : Class} {name : Name} (ha : Account past t)
    (hg : Good t) (hk : GoodClass t k)
    (hb : ∀ f, k.method? name.text = some f →
      ∃ u ∈ t.record.visits ++ past, u.Binds f (.object i c) t.machine.scopes.size) :
    Accounts past t (match k.method? name.text with
      | some f => do return .function (← Watching.bindMethod f (.object i c))
      | none => step (Run.fail name.place (.undefinedProperty name.text)))
      fun v u => SprungValue past u v := by
  cases hf : k.method? name.text with
  | none => exact .fail ha
  | some f =>
    exact (Accounts.bindMethod ha (hk _ f hf) (hb f hf) hg.globals).bind
      fun g u _ _ ha hs => .pure ha hs.2

theorem Accounts.readProperty {v : Value} {property : Name} (ha : Account past t) (hg : Good t)
    (hv : GoodValue t v)
    (hb : ∀ i c f, v = .object i c → (t.machine.fieldsOf i).find? property.text = none →
      c.method? property.text = some f →
      ∃ u ∈ t.record.visits ++ past, u.Binds f (.object i c) t.machine.scopes.size) :
    Accounts past t (readProperty v property) fun v u => SprungValue past u v := by
  unfold Watching.readProperty
  cases v with
  | object i c =>
    refine .look ?_
    cases hp : (t.machine.fieldsOf i).find? property.text with
    | some field => exact .pure ha (ha.fields i _ _ hp)
    | none => exact .method ha hg hv fun f hf => hb i c f rfl hp hf
  | _ => exact .fail ha

end Watching

end LoxLang
