import LoxLang.Proofs.Machine.Changes
import LoxLang.Proofs.Receiver.Around

/-!
# How the scopes of methods came to be

The scope of a call, that of `this` and that of `super` are made by a call, by binding a
method to an object and by declaring a class. `Account` says of a watched state that its
visits tell of each: a scope of `super` holds the superclass that its declaration found, a
function inside a scope of `this` is a method that was bound to the object there, and the
scope of a body lies inside that of the function that was called.
-/

namespace LoxLang

open Scoping

/-- The class and those that it inherits from, the nearest first. -/
def Class.chain : Class → List Class
  | .mk identity name none methods => [.mk identity name none methods]
  | .mk identity name (some superclass) methods =>
    .mk identity name (some superclass) methods :: superclass.chain

theorem Class.method?_eq_findSome? (name : String) : ∀ c : Class,
    c.method? name = c.chain.findSome? (·.methods.find? name)
  | .mk _ _ none methods => by
    rw [method?, chain, List.findSome?_singleton]
    rfl
  | .mk _ _ (some superclass) methods => by
    rw [method?, chain, List.findSome?_cons, superclass.method?_eq_findSome? name, Class.methods]
    cases methods.find? name <;> rfl

/-! ## What a visit leads to -/

namespace Visit

/-- A class is declared: its superclass is known at the visit, and the scope of `super` is
the next that is made. -/
structure Inherits (v : Visit) (className : Name) (c : Class) (scope : ScopeId) : Prop where
  superclass : ∃ r, v.node = .superclass className r ∧
    Run.readVariable r v.machine = .ok (.classValue c) v.machine
  scope : scope = v.machine.scopes.size

/-- The visit is a call, which gets as far as calling the value with as many arguments as it
takes, in this machine. -/
def Reaches (v : Visit) (callee : Value) (m : Machine) : Prop :=
  ∃ fuel e es place m' values, v.node = .expression (.call e es place) ∧
    eval fuel e v.machine = .ok callee m' ∧ es.mapM (eval fuel) m' = .ok values m ∧
    callee.arity? = some values.length

/-- A method is bound to an object, in a scope that is made for that. -/
inductive Binds (v : Visit) : Closure → Value → ScopeId → Prop where
  | property {fuel i : Nat} {e : Expr} {property : Name} {c : Class} {m : Machine} {f : Closure}
    (hn : v.node = .expression (.get e property))
    (he : eval fuel e v.machine = .ok (.object i c) m)
    (hp : (m.fieldsOf i).find? property.text = none) (hf : c.method? property.text = some f) :
    Binds v f (.object i c) m.scopes.size
  | super {d : Nat} {method : Name} {place : Place} {c : Class} {object : Value} {f : Closure}
    (hn : v.node = .expression (.super method (some (d + 1)) place))
    (hc : v.machine.scopes.getAt v.machine.current (d + 1) ⟨"super", place⟩ = .ok (.classValue c))
    (ho : v.machine.scopes.getAt v.machine.current d ⟨"this", place⟩ = .ok object)
    (hf : c.method? method.text = some f) : Binds v f object v.machine.scopes.size
  | initializer {c : Class} {m : Machine} {f : Closure} (h : v.Reaches (.classValue c) m)
    (hf : c.method? "init" = some f) :
    Binds v f (.object m.objects.size c) m.scopes.size

/-- A function is called, in a scope that is made for the call: one that the visit found, or
the initializer of a class, right after it was bound to the new object. -/
inductive Calls (v : Visit) : Closure → ScopeId → Prop where
  | function {g : Closure} {m : Machine} (h : v.Reaches (.function g) m) :
    Calls v g m.scopes.size
  | initializer {c : Class} {m : Machine} {f : Closure} (h : v.Reaches (.classValue c) m)
    (hf : c.method? "init" = some f) :
    Calls v { f with identity := m.fresh, scope := m.scopes.size } (m.scopes.size + 1)

end Visit

/-- The function is a method, made in the scope around its own, that one of the visits bound
to the object. -/
structure Closure.BoundTo (g : Closure) (journal : List Visit) (ss : Scopes) (f : Closure)
    (object : Value) : Prop where
  binds : ∃ u ∈ journal, u.Binds f object g.scope
  method : g = { f with identity := g.identity, scope := g.scope }
  isObject : ∃ i k, object = .object i k
  this : ss.own? g.scope "this" = some object
  parent : ss[g.scope]?.bind Scope.parent = some f.scope

/-- The visit comes from a call of the method `g`, which is so many scopes out. The method
was made as `f` by a declaration of the innermost class around, which found the superclass
`c`, and bound to the object. -/
structure Visit.Within (v : Visit) (journal : List Visit) (className : Name) (d : Nat)
    (f g : Closure) (c : Class) (object : Value) : Prop where
  around : ∃ inner outer, v.site.openers = inner ++ ⟨v.site.source, .function g.params g.body⟩ ::
    ⟨v.site.source, .receiver className⟩ :: ⟨v.site.source, .inherited className⟩ :: outer ∧
    inner.length = d ∧ ∀ o ∈ inner, o.construct.mark = (false, false)
  called : ∃ u ∈ journal, ∃ id, u.Calls g id ∧
    v.machine.scopes.ancestor? v.machine.current d = some id
  scope : v.machine.scopes.ancestor? v.machine.current (d + 1) = some g.scope
  bound : g.BoundTo journal v.machine.scopes f object
  declared : ∃ u ∈ journal, u.site.source = v.site.source ∧ u.Inherits className c f.scope
  super : v.machine.scopes.own? f.scope "super" = some (.classValue c)

/-- A use of `super` comes from a call of a method, and its depth leads to that. -/
def Visit.Supers (v : Visit) (journal : List Visit) : Prop :=
  ∀ method depth place, v.node = .expression (.super method depth place) →
    ∃ className d f g c object, v.Within journal className d f g c object ∧
      distance? v.site.walk.scopes "this" = some (d + 1) ∧ depth = some (d + 2)

/-- Whether a run comes to a use of `super`. -/
def Node.isSuper : Node → Bool
  | .expression (.super _ _ _) => true
  | _ => false

/-- There is nothing to say of the other visits. -/
theorem Visit.supers_of_other {v : Visit} {journal : List Visit} (hn : v.node.isSuper = false) :
    v.Supers journal := by
  intro method depth place hv
  rw [hv] at hn
  cases hn

/-- Every use of `super` comes from a call that the visits before it tell of. -/
def Told (past : List Visit) : List Visit → Prop
  | [] => True
  | v :: vs => v.Supers (vs ++ past) ∧ Told past vs

theorem Told.supers {past : List Visit} : ∀ {later : List Visit} {v : Visit}
    {earlier : List Visit}, Told past (later ++ v :: earlier) → v.Supers (earlier ++ past)
  | [], _, _, h => h.1
  | _ :: later, _, _, h => @Told.supers past later _ _ h.2

/-! ## Accounts -/

/-- One state comes after another, and so do its visits. -/
structure Later (t t' : Watched) : Prop extends Extends t t' where
  visits : t.record.visits <:+ t'.record.visits

theorem Later.refl (t : Watched) : Later t t := ⟨.refl t, List.suffix_rfl⟩

theorem Later.trans {t t' t'' : Watched} (h : Later t t') (h' : Later t' t'') :
    Later t t'' := ⟨h.toExtends.trans h'.toExtends, h.visits.trans h'.visits⟩

theorem Extends.later {t t' : Watched} (h : Extends t t')
    (hv : t'.record.visits = t.record.visits) : Later t t' :=
  ⟨h, hv ▸ List.suffix_rfl⟩

/-- A function inside a scope of `this` is a method that was bound to the object there. -/
structure Sprung (past : List Visit) (t : Watched) (g : Closure) : Prop where
  known : g.scope < t.machine.scopes.size
  bound : ∀ source className, t.record.origins g.scope = some ⟨source, .receiver className⟩ →
    g.scope ≠ t.machine.globals ∧
      ∃ f object, g.BoundTo (t.record.visits ++ past) t.machine.scopes f object

/-- A value that is a function is accounted for. -/
def SprungValue (past : List Visit) (t : Watched) : Value → Prop
  | .function g => Sprung past t g
  | _ => True

/-- The visits tell how the scope came to be, unless it is that of a block or of `this`. -/
def Accounted (past : List Visit) (t : Watched) (id : ScopeId) (o : Opener) : Prop :=
  match o.construct with
  | .block _ _ | .receiver _ => True
  | .inherited className => id ≠ t.machine.globals ∧ ∃ c,
    (∃ u ∈ t.record.visits ++ past, u.site.source = o.source ∧ u.Inherits className c id) ∧
      t.own? id "super" = some (.classValue c)
  | .function params body => ∃ g : Closure,
    (∃ u ∈ t.record.visits ++ past, u.Calls g id) ∧ g.params = params ∧ g.body = body ∧
      t.parent? id = some g.scope ∧ Sprung past t g

/-- The visits, and those of earlier runs, account for the scopes of a state. -/
structure Account (past : List Visit) (t : Watched) : Prop where
  scopes : ∀ id o, t.record.origins id = some o → Accounted past t id o
  values : ∀ id x v, t.own? id x = some v → SprungValue past t v
  fields : ∀ i x v, (t.machine.fieldsOf i).find? x = some v → SprungValue past t v
  makers : ∀ i, (t.record.makers i).site.Makes
  told : Told past t.record.visits

section
variable {past : List Visit} {t t' : Watched}

theorem Later.mem (h : Later t t') :
    t.record.visits ++ past ⊆ t'.record.visits ++ past :=
  List.append_subset.2 ⟨List.subset_append_of_subset_left _ h.visits.subset,
    List.subset_append_right _ _⟩

section
variable {past' : List Visit} (h : Extends t t')
variable (hj : t.record.visits ++ past ⊆ t'.record.visits ++ past')
include h hj

theorem Sprung.mono {g : Closure} (hg : Sprung past t g) : Sprung past' t' g := by
  refine ⟨Nat.lt_of_lt_of_le hg.known h.size, fun source className ho => ?_⟩
  rw [h.origins _ hg.known] at ho
  obtain ⟨hl, f, object, ⟨u, hu, hb⟩, hm, hi, ht, hp⟩ := hg.bound source className ho
  exact ⟨by rw [h.globals]; exact hl, f, object, ⟨u, hj hu, hb⟩, hm, hi,
    h.fixed _ _ _ hl (.inl rfl) ht, h.parents _ _ hp⟩

theorem SprungValue.mono {v : Value} (hv : SprungValue past t v) : SprungValue past' t' v := by
  cases v with
  | function g => exact Sprung.mono h hj hv
  | _ => trivial

theorem Accounted.mono {id : ScopeId} {o : Opener} (ha : Accounted past t id o) :
    Accounted past' t' id o := by
  obtain ⟨source, construct⟩ := o
  cases construct with
  | block | receiver => trivial
  | inherited className =>
    obtain ⟨hl, c, ⟨u, hu, hi⟩, hc⟩ := ha
    exact ⟨by rw [h.globals]; exact hl, c, ⟨u, hj hu, hi⟩, h.fixed _ _ _ hl (.inr rfl) hc⟩
  | function params body =>
    obtain ⟨g, ⟨u, hu, hg⟩, hp, hb, ho, hs⟩ := ha
    exact ⟨g, ⟨u, hj hu, hg⟩, hp, hb, h.parents _ _ ho, hs.mono h hj⟩

end

theorem Sprung.grow {g : Closure} (hg : Sprung past t g) (h : Later t t') : Sprung past t' g :=
  hg.mono h.toExtends h.mem

theorem SprungValue.grow {v : Value} (hv : SprungValue past t v) (h : Later t t') :
    SprungValue past t' v := hv.mono h.toExtends h.mem

/-! ## Changes -/

/-- A later state is accounted for if what it adds is. -/
theorem Account.extend (ha : Account past t) (h : Later t t')
    (hs : ∀ id o, t'.record.origins id = some o →
      t.record.origins id = some o ∨ Accounted past t' id o)
    (hv : ∀ id x v, t'.own? id x = some v → t.own? id x = some v ∨ SprungValue past t' v)
    (hf : ∀ i x v, (t'.machine.fieldsOf i).find? x = some v →
      (t.machine.fieldsOf i).find? x = some v ∨ SprungValue past t' v)
    (hm : ∀ i, t'.record.makers i = t.record.makers i ∨ (t'.record.makers i).site.Makes)
    (ht : Told past t'.record.visits) : Account past t' where
  scopes id o ho := (hs id o ho).elim (fun ho => (ha.scopes id o ho).mono h.toExtends h.mem)
    fun ho => ho
  values id x v hx := (hv id x v hx).elim (fun hx => (ha.values id x v hx).grow h) fun hx => hx
  fields i x v hx := (hf i x v hx).elim (fun hx => (ha.fields i x v hx).grow h) fun hx => hx
  makers i := (hm i).elim (fun hi => hi ▸ ha.makers i) fun hi => hi
  told := ht

/-- A change of what an account is not about. -/
theorem Account.quiet (ha : Account past t) {m : Machine} (hs : m.scopes = t.machine.scopes)
    (hg : m.globals = t.machine.globals) (ho : m.objects = t.machine.objects)
    (hf : t.machine.fresh ≤ m.fresh) :
    Later t { t with machine := m } ∧ Account past { t with machine := m } := by
  have h : Later t { t with machine := m } := ⟨.of_eq hs hg hf rfl rfl, List.suffix_rfl⟩
  refine ⟨h, ha.extend h (fun _ _ h => .inl h) ?_ ?_ (fun _ => .inl rfl) ha.told⟩
  · intro id x v hx
    rw [Watched.own?, hs] at hx
    exact .inl hx
  · intro i x v hx
    rw [Machine.fieldsOf, ho] at hx
    exact .inl hx

theorem Account.running (ha : Account past t) (scope : ScopeId) :
    Later t (t.running scope) ∧ Account past (t.running scope) :=
  ha.quiet rfl rfl rfl (Nat.le_refl _)

/-- A name is given a value that is accounted for. -/
theorem Account.insert (ha : Account past t) (id : ScopeId) {x : String} {v : Value}
    (hx : x ≠ "this" ∧ x ≠ "super") (hv : SprungValue past t v) :
    Later t (t.insert id x v) ∧ Account past (t.insert id x v) := by
  have h : Later t (t.insert id x v) := (grows_insert (.inr (.inl hx))).later rfl
  refine ⟨h, ha.extend h (fun _ _ h => .inl h) ?_ (fun _ _ _ h => .inl h) (fun _ => .inl rfl)
    ha.told⟩
  intro id' y w hw
  rw [t.own?_insert] at hw
  split at hw
  · cases hw
    exact .inr (hv.grow h)
  · exact .inl hw

/-- A scope is opened that the visits account for. -/
theorem Account.opening (ha : Account past t) (parent : ScopeId) {o : Opener}
    (ho : Accounted past (t.opening parent (some o)) t.machine.scopes.size o) :
    Later t (t.opening parent (some o)) ∧ Account past (t.opening parent (some o)) := by
  have h : Later t (t.opening parent (some o)) := (grows_opening _ _ _).later rfl
  refine ⟨h, ha.extend h ?_ ?_ (fun _ _ _ h => .inl h) (fun _ => .inl rfl) ha.told⟩
  · intro id p hp
    by_cases hi : id = t.machine.scopes.size
    · subst hi
      rw [origin_opening] at hp
      cases hp
      exact .inr ho
    · exact .inl ((if_neg hi).symm.trans hp)
  · intro id x v hx
    rw [t.own?_opening] at hx
    exact .inl hx

/-- A scope is opened and binds `this` or `super`, and the visits account for it then. -/
theorem Account.enclosing (ha : Account past t) (parent : ScopeId) {o : Opener} {x : String}
    {v : Value} (hv : ∀ u, SprungValue past u v)
    (ho : Accounted past ((t.opening parent (some o)).insert t.machine.scopes.size x v)
      t.machine.scopes.size o) :
    Later t ((t.opening parent (some o)).insert t.machine.scopes.size x v) ∧
      Account past ((t.opening parent (some o)).insert t.machine.scopes.size x v) := by
  have hnone : (t.opening parent (some o)).own? t.machine.scopes.size x = none := by
    rw [t.own?_opening, t.own?_size]
  have h : Later t ((t.opening parent (some o)).insert t.machine.scopes.size x v) :=
    ((grows_opening _ _ _).trans (grows_insert (.inr (.inr hnone)))).later rfl
  refine ⟨h, ha.extend h ?_ ?_ (fun _ _ _ h => .inl h) (fun _ => .inl rfl) ha.told⟩
  · intro id p hp
    by_cases hi : id = t.machine.scopes.size
    · subst hi
      cases (origin_opening t parent (some o)).symm.trans hp
      exact .inr ho
    · exact .inl ((if_neg hi).symm.trans hp)
  · intro id y w hw
    rw [Watched.own?_insert, t.own?_opening] at hw
    split at hw
    · cases hw
      exact .inr (hv _)
    · exact .inl hw

theorem Account.making (ha : Account past t) (maker : Maker) (hm : maker.site.Makes) :
    Later t (t.making maker) ∧ Account past (t.making maker) := by
  have h : Later t (t.making maker) := (grows_making t maker).later rfl
  refine ⟨h, ha.extend h (fun _ _ h => .inl h) (fun _ _ _ h => .inl h) (fun _ _ _ h => .inl h) ?_
    ha.told⟩
  intro i
  by_cases hi : i = t.machine.fresh
  · exact .inr (by rw [show (t.making maker).record.makers i = maker from if_pos hi]; exact hm)
  · exact .inl (if_neg hi)

/-- A visit that is recorded keeps the account if it is a visit that the account allows. -/
theorem Account.visiting (ha : Account past t) {σ : Site} {node : Node}
    (hv : Visit.Supers ⟨σ, node, t.machine, t.record.origins⟩ (t.record.visits ++ past)) :
    Later t (t.visiting σ node) ∧ Account past (t.visiting σ node) := by
  have h : Later t (t.visiting σ node) :=
    ⟨(grows_visiting t σ node).toExtends, List.suffix_cons _ _⟩
  exact ⟨h, ha.extend h (fun _ _ h => .inl h) (fun _ _ _ h => .inl h) (fun _ _ _ h => .inl h)
    (fun _ => .inl rfl) ⟨hv, ha.told⟩⟩

theorem Account.newObject (ha : Account past t) :
    Later t (t.withObjects (t.machine.objects.push [])) ∧
      Account past (t.withObjects (t.machine.objects.push [])) := by
  have h : Later t (t.withObjects (t.machine.objects.push [])) :=
    (grows_withObjects t _).later rfl
  exact ⟨h, ha.extend h (fun _ _ h => .inl h) (fun _ _ _ h => .inl h)
    (fun _ _ _ h => .inl (Watched.field_push h)) (fun _ => .inl rfl) ha.told⟩

/-- A field that is set keeps the account if its value is accounted for. -/
theorem Account.setField (ha : Account past t) (object : Nat) (name : String) {v : Value}
    (hv : SprungValue past t v) :
    Later t (t.withObjects (t.machine.objects.modify object (·.insert name v))) ∧
      Account past (t.withObjects (t.machine.objects.modify object (·.insert name v))) := by
  have h : Later t (t.withObjects (t.machine.objects.modify object (·.insert name v))) :=
    (grows_withObjects t _).later rfl
  refine ⟨h, ha.extend h (fun _ _ h => .inl h) (fun _ _ _ h => .inl h) ?_ (fun _ => .inl rfl)
    ha.told⟩
  intro i x w hw
  rcases Watched.field_modify hw with hw | rfl
  · exact .inl hw
  · exact .inr (hv.grow h)

end

end LoxLang
