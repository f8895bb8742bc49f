import LoxLang.Proofs.Machine.Watch
import LoxLang.Proofs.Scoping.Housed

/-!
# Scopes of a run and scopes of the walk

The scopes around a point of a run are activations of the constructs whose scopes the walk
had open there, one for each, out to the global scope. `Mirrors` says so of one scope, and
`Good` of all that a watched run has made: each function remembers a scope that mirrors
the place where it was made.
-/

namespace LoxLang

open Scoping

/-- The names that a construct itself declares in its scope. -/
def Construct.Declares : Construct → String → Prop
  | .block body _, x => ∃ s ∈ body, ∃ n ∈ s.declared?, n.text = x
  | .function params body, x =>
    (∃ p ∈ params, p.text = x) ∨ ∃ s ∈ body, ∃ n ∈ s.declared?, n.text = x
  | .receiver _, x => x = "this"
  | .inherited _, x => x = "super"

/-! ## Visits -/

/-- The use of a variable that a point of a run is about. -/
def Node.target? : Node → Option Reference
  | .expression (.read r) | .superclass _ r | .assignment r => some r
  | _ => none

/-- The name of a class is not bound before its superclass is known. -/
def Node.Pending : Node → String → Prop
  | .superclass className _, x => x = className.text
  | _, _ => False

/-- The scopes of the run at a visit are those of the walk: as many of them around the
scope that runs as the walk had open, each an activation of the construct that opened the
scope of the walk, with only names that the construct declares, and all that the walk had
passed, except for a variable inside whose own initializer the visit lies. -/
structure Visit.Mirrored (v : Visit) : Prop where
  length : v.site.openers.length = v.site.walk.scopes.length
  globals : v.machine.scopes.ancestor? v.machine.current v.site.walk.scopes.length =
    some v.machine.globals
  root : v.machine.scopes.ancestor? v.machine.globals 1 = none
  scopes : ∀ i s o, v.site.walk.scopes[i]? = some s → v.site.openers[i]? = some o →
    ∃ id, v.machine.scopes.ancestor? v.machine.current i = some id ∧ v.origins id = some o ∧
      (∀ x, (v.machine.scopes.own? id x).isSome → o.construct.Declares x) ∧
      ∀ x, s.has x → (v.machine.scopes.own? id x).isSome ∨ v.site.Initializes i x ∨
        i = 0 ∧ v.node.Pending x
  /-- A use has the depth that the walk gives it there. -/
  chosen : ∀ r ∈ v.node.target?,
    r.depth = distance? v.site.walk.scopes r.name.text ∧ ¬ v.node.Pending r.name.text

/-- The visit is about a variable inside whose own initializer it lies, and which is not
bound yet in the activation that the use is about. -/
structure Visit.PrematureAt (v : Visit) (r : Reference) (d : Nat) : Prop where
  target : v.node.target? = some r
  depth : r.depth = some d
  initializes : v.site.Initializes d r.name.text
  unbound : ∃ id, v.machine.scopes.ancestor? v.machine.current d = some id ∧
    v.machine.scopes.own? id r.name.text = none

theorem Visit.PrematureAt.unique {v : Visit} {r r' : Reference} {d d' : Nat}
    (h : v.PrematureAt r d) (h' : v.PrematureAt r' d') : r = r' ∧ d = d' := by
  cases h.target.symm.trans h'.target
  exact ⟨rfl, Option.some.inj (h.depth.symm.trans h'.depth)⟩

/-- The visit is about a variable that its own initializer keeps from being bound. -/
def Visit.Premature (v : Visit) : Prop := ∃ r d, v.PrematureAt r d

/-! ## Mirrors -/

namespace Watched

def own? (t : Watched) (id : ScopeId) (x : String) : Option Value := t.machine.scopes.own? id x

def parent? (t : Watched) (id : ScopeId) : Option ScopeId :=
  t.machine.scopes[id]?.bind Scope.parent

end Watched

/-- A scope is an activation of a construct, where the walk knows so much of its names. -/
structure Activation (t : Watched) (id : ScopeId) (s : Bindings Bool) (o : Opener) : Prop where
  isLocal : id ≠ t.machine.globals
  origin : t.record.origins id = some o
  bound : ∀ x, s.find? x = some true → (t.own? id x).isSome
  this : s.has "this" → ∃ i c, t.own? id "this" = some (.object i c)
  super : s.has "super" → ∃ c, t.own? id "super" = some (.classValue c)

/-- A name of the walk is bound unless it awaits its value. -/
theorem Activation.bound_or {t : Watched} {id : ScopeId} {s : Bindings Bool} {o : Opener}
    (h : Activation t id s o) {x : String} (hx : s.has x) :
    (t.own? id x).isSome ∨ s.find? x = some false := by
  obtain ⟨b, hb⟩ := Option.isSome_iff_exists.1 hx
  cases b with
  | true => exact .inl (h.bound x hb)
  | false => exact .inr hb

/-- A scope and those around it are activations of the constructs that opened the scopes
of the walk. -/
def Mirrors (t : Watched) : ScopeId → List (Bindings Bool) → List Opener → Prop
  | id, [], [] => id = t.machine.globals
  | id, s :: ss, o :: os =>
    Activation t id s o ∧ ∃ parent, t.parent? id = some parent ∧ Mirrors t parent ss os
  | _, _, _ => False

/-! ## Good states -/

/-- A function was made at a site with these scopes, which settles its body. -/
structure Made (t : Watched) (f : Closure) (outline : List (Bindings Bool))
    (openers : List Opener) : Prop where
  known : f.identity < t.machine.fresh
  outline : (t.record.makers f.identity).site.walk.outline = outline
  openers : (t.record.makers f.identity).site.openers = openers
  housed : Housed (t.record.makers f.identity).site.walk
  awaited : Awaited (t.record.makers f.identity).site.initializers
    (t.record.makers f.identity).site.walk.outline
    (t.record.makers f.identity).site.openers.length
  params : ∀ p ∈ f.params, p.IsOrdinary
  body : Stmt.AllSettled f.body ((t.record.makers f.identity).site.walk.body
    (t.record.makers f.identity).kind f.params)

/-- A function that can be called: its scope mirrors the site where it was made. -/
def GoodClosure (t : Watched) (f : Closure) : Prop :=
  (∃ outline openers, Made t f outline openers ∧ Mirrors t f.scope outline openers) ∧
    (f.isInitializer → f.scope ≠ t.machine.globals ∧ ∃ i c, t.own? f.scope "this" = some (.object i c))

/-- A method that is yet to be bound to an object: its scope mirrors the site around that
of `this`. -/
def GoodMethod (t : Watched) (f : Closure) : Prop :=
  ∃ s ss o os, Made t f (s :: ss) (o :: os) ∧ Mirrors t f.scope ss os ∧
    (∀ x, s.has x → x = "this") ∧ o.construct.Declares "this"

/-- A class whose methods are good. -/
def GoodClass (t : Watched) (c : Class) : Prop := ∀ x f, c.method? x = some f → GoodMethod t f

/-- A value that is safe to use. -/
def GoodValue (t : Watched) : Value → Prop
  | .function f => GoodClosure t f
  | .classValue c | .object _ c => GoodClass t c
  | _ => True

/-- A state of a watched run with nothing wrong in it. -/
structure Good (t : Watched) : Prop where
  globals : t.machine.globals < t.machine.scopes.size
  root : t.parent? t.machine.globals = none
  rootOrigin : t.record.origins t.machine.globals = none
  scopes : ∀ id x v, t.own? id x = some v → GoodValue t v
  objects : ∀ i x v, (t.machine.fieldsOf i).find? x = some v → GoodValue t v
  declared : ∀ id o x, t.record.origins id = some o → (t.own? id x).isSome →
    o.construct.Declares x
  visits : ∀ v ∈ t.record.visits, v.Mirrored

/-- No visit so far was premature. -/
def Calm (t : Watched) : Prop := ∀ v ∈ t.record.visits, ¬ v.Premature

/-! ## Growth -/

/-- One state comes after another: scopes and functions stay what they are, and a local
scope only ever binds more names. -/
structure Extends (t t' : Watched) : Prop where
  globals : t'.machine.globals = t.machine.globals
  fresh : t.machine.fresh ≤ t'.machine.fresh
  size : t.machine.scopes.size ≤ t'.machine.scopes.size
  parents : ∀ id p, t.parent? id = some p → t'.parent? id = some p
  kept : ∀ id x, id ≠ t.machine.globals → (t.own? id x).isSome → (t'.own? id x).isSome
  fixed : ∀ id x v, id ≠ t.machine.globals → x = "this" ∨ x = "super" →
    t.own? id x = some v → t'.own? id x = some v
  origins : ∀ id < t.machine.scopes.size, t'.record.origins id = t.record.origins id
  makers : ∀ i < t.machine.fresh, t'.record.makers i = t.record.makers i

/-- One state comes after another and runs in the same scope. -/
structure Grows (t t' : Watched) : Prop extends Extends t t' where
  current : t'.machine.current = t.machine.current

section
variable {t t' t'' : Watched}

theorem Extends.refl (t : Watched) : Extends t t :=
  ⟨rfl, Nat.le_refl _, Nat.le_refl _, fun _ _ h => h, fun _ _ _ h => h, fun _ _ _ _ _ h => h,
    fun _ _ => rfl, fun _ _ => rfl⟩

theorem Extends.trans (h : Extends t t') (h' : Extends t' t'') : Extends t t'' where
  globals := h'.globals.trans h.globals
  fresh := Nat.le_trans h.fresh h'.fresh
  size := Nat.le_trans h.size h'.size
  parents id p hp := h'.parents id p (h.parents id p hp)
  kept id x hi hx := h'.kept id x (h.globals ▸ hi) (h.kept id x hi hx)
  fixed id x v hi hn hx := h'.fixed id x v (h.globals ▸ hi) hn (h.fixed id x v hi hn hx)
  origins id hi := (h'.origins id (Nat.lt_of_lt_of_le hi h.size)).trans (h.origins id hi)
  makers i hi := (h'.makers i (Nat.lt_of_lt_of_le hi h.fresh)).trans (h.makers i hi)

theorem Grows.refl (t : Watched) : Grows t t := ⟨.refl t, rfl⟩

theorem Grows.trans (h : Grows t t') (h' : Grows t' t'') : Grows t t'' :=
  ⟨h.toExtends.trans h'.toExtends, h'.current.trans h.current⟩

end

theorem Watched.lt_of_parent {t : Watched} {id p : ScopeId} (h : t.parent? id = some p) :
    id < t.machine.scopes.size := by
  rw [Watched.parent?, Option.bind_eq_some_iff] at h
  obtain ⟨s, hs, -⟩ := h
  exact (Array.getElem?_eq_some_iff.1 hs).1

section
variable {t t' : Watched} (h : Extends t t')
include h

/-- A scope that was opened for a construct stays so when the machine goes on. -/
theorem Activation.grow {id : ScopeId} {s : Bindings Bool} {o : Opener}
    (ha : Activation t id s o) (hid : id < t.machine.scopes.size) : Activation t' id s o where
  isLocal := by rw [h.globals]; exact ha.isLocal
  origin := (h.origins id hid).trans ha.origin
  bound x hx := h.kept id x ha.isLocal (ha.bound x hx)
  this hs := by
    obtain ⟨i, c, ho⟩ := ha.this hs
    exact ⟨i, c, h.fixed id _ _ ha.isLocal (.inl rfl) ho⟩
  super hs := by
    obtain ⟨c, ho⟩ := ha.super hs
    exact ⟨c, h.fixed id _ _ ha.isLocal (.inr rfl) ho⟩

theorem Mirrors.grow : ∀ {ss : List (Bindings Bool)} {os : List Opener} {id : ScopeId},
    Mirrors t id ss os → Mirrors t' id ss os
  | [], [], _, hm => by
    rw [Mirrors, h.globals]
    exact hm
  | _ :: _, _ :: _, _, ⟨ha, p, hp, hm⟩ => ⟨ha.grow h (t.lt_of_parent hp), p, h.parents _ p hp, hm.grow⟩

theorem Made.grow {f : Closure} {ss : List (Bindings Bool)} {os : List Opener}
    (hm : Made t f ss os) : Made t' f ss os := by
  obtain ⟨hk, ho, hs, hh, ha, hp, hb⟩ := hm
  rw [← h.makers f.identity hk] at ho hs hh ha hb
  exact ⟨Nat.lt_of_lt_of_le hk h.fresh, ho, hs, hh, ha, hp, hb⟩

theorem GoodClosure.grow {f : Closure} (hf : GoodClosure t f) : GoodClosure t' f := by
  obtain ⟨⟨ss, os, hm, hs⟩, hi⟩ := hf
  refine ⟨⟨ss, os, hm.grow h, hs.grow h⟩, fun hf => ?_⟩
  obtain ⟨hl, i, c, ht⟩ := hi hf
  exact ⟨by rw [h.globals]; exact hl, i, c, h.fixed _ _ _ hl (.inl rfl) ht⟩

theorem GoodMethod.grow {f : Closure} (hf : GoodMethod t f) : GoodMethod t' f := by
  obtain ⟨s, ss, o, os, hm, hs, hr⟩ := hf
  exact ⟨s, ss, o, os, hm.grow h, hs.grow h, hr⟩

theorem GoodClass.grow {c : Class} (hc : GoodClass t c) : GoodClass t' c :=
  fun x f hf => (hc x f hf).grow h

theorem GoodValue.grow {v : Value} (hv : GoodValue t v) : GoodValue t' v := by
  cases v with
  | function f => exact GoodClosure.grow h hv
  | classValue c => exact GoodClass.grow h hv
  | object i c => exact GoodClass.grow h hv
  | _ => trivial

end

/-! ## What a mirror shows -/

section
variable {t : Watched}

theorem Watched.ancestor_succ {id p : ScopeId} (h : t.parent? id = some p) (d : Nat) :
    t.machine.scopes.ancestor? id (d + 1) = t.machine.scopes.ancestor? p d := by
  rw [Watched.parent?] at h
  rw [Scopes.ancestor?, h, Option.bind_some]

/-- A chain that mirrors some scopes has one opener for each of them. -/
theorem Mirrors.length : ∀ {ss : List (Bindings Bool)} {os : List Opener} {id : ScopeId},
    Mirrors t id ss os → os.length = ss.length
  | [], [], _, _ => rfl
  | _ :: _, _ :: _, _, ⟨_, _, _, hm⟩ => congrArg (· + 1) hm.length

/-- A chain that mirrors some scopes is that many hops above the globals. -/
theorem Mirrors.globals : ∀ {ss : List (Bindings Bool)} {os : List Opener} {id : ScopeId},
    Mirrors t id ss os → t.machine.scopes.ancestor? id ss.length = some t.machine.globals
  | [], [], _, hm => congrArg some hm
  | _ :: ss, _ :: _, _, ⟨_, _, hp, hm⟩ => (t.ancestor_succ hp ss.length).trans hm.globals

/-- So many scopes out there is the activation for that scope of the walk. -/
theorem Mirrors.get : ∀ {ss : List (Bindings Bool)} {os : List Opener} {id : ScopeId} {d : Nat}
    {s : Bindings Bool}, Mirrors t id ss os → ss[d]? = some s →
    ∃ id' o, t.machine.scopes.ancestor? id d = some id' ∧ os[d]? = some o ∧ Activation t id' s o
  | _ :: _, o :: _, id, 0, _, ⟨ha, _⟩, hd => by
    cases hd
    exact ⟨id, o, rfl, rfl, ha⟩
  | _ :: _, _ :: _, _, d + 1, _, ⟨_, _, hp, hm⟩, hd => by
    obtain ⟨id', o, hi, ho, ha⟩ := hm.get hd
    exact ⟨id', o, (t.ancestor_succ hp d).trans hi, ho, ha⟩

/-- So many scopes out the scopes around are mirrored, too. -/
theorem Mirrors.drop : ∀ {inner os : List Opener} {ss : List (Bindings Bool)} {id : ScopeId},
    Mirrors t id ss (inner ++ os) → ∃ id', t.machine.scopes.ancestor? id inner.length = some id' ∧
      Mirrors t id' (ss.drop inner.length) os
  | [], _, _, id, hm => ⟨id, rfl, hm⟩
  | _ :: _, _, _ :: _, _, ⟨_, _, hp, hm⟩ => by
    obtain ⟨id', hid, hm⟩ := hm.drop
    exact ⟨id', (t.ancestor_succ hp _).trans hid, hm⟩

theorem Walk.outline_get {w : Walk} {i : Nat} {s : Bindings Local} (h : w.scopes[i]? = some s) :
    w.outline[i]? = some (s.mapValues Local.defined) := by
  rw [Walk.outline, List.getElem?_map, h, Option.map_some]

/-- The visit of a site whose scopes are mirrored, but for a name that is pending. -/
theorem Mirrors.visit {σ : Site} {node : Node} {ss : List (Bindings Bool)} (hg : Good t)
    (hm : Mirrors t t.machine.current ss σ.openers)
    (ha : Awaited σ.initializers ss σ.openers.length)
    (hs : σ.walk.outline = ss ∨ ∃ name, σ.walk.outline = declaring name ss ∧ node.Pending name)
    (hr : ∀ r ∈ node.target?,
      r.depth = distance? σ.walk.scopes r.name.text ∧ ¬ node.Pending r.name.text) :
    Visit.Mirrored ⟨σ, node, t.machine, t.record.origins⟩ := by
  have hlen : σ.walk.scopes.length = ss.length := by
    have hw : σ.walk.outline.length = σ.walk.scopes.length := by simp [Walk.outline]
    obtain hs | ⟨name, hs, -⟩ := hs
    · rw [← hw, hs]
    · rw [← hw, hs]
      cases ss <;> rfl
  have cover : ∀ i s, σ.walk.outline[i]? = some s → ∃ s', ss[i]? = some s' ∧
      ∀ x, s.has x → s'.has x ∨ i = 0 ∧ node.Pending x := by
    intro i s hi
    obtain hs | ⟨name, hs, hp⟩ := hs
    · rw [hs] at hi
      exact ⟨s, hi, fun x hx => .inl hx⟩
    · rw [hs] at hi
      cases ss with
      | nil => cases hi
      | cons s' ss =>
        cases i with
        | zero =>
          cases hi
          refine ⟨s', rfl, fun x hx => ?_⟩
          rw [Bindings.has_insert, Bool.or_eq_true, beq_iff_eq] at hx
          rcases hx with rfl | hx
          · exact .inr ⟨rfl, hp⟩
          · exact .inl hx
        | succ i => exact ⟨s, hi, fun x hx => .inl hx⟩
  refine ⟨hm.length.trans hlen.symm, by rw [hlen]; exact hm.globals, ?_, ?_, hr⟩
  · have hroot := hg.root
    rw [Watched.parent?] at hroot
    rw [Scopes.ancestor?, hroot, Option.bind_none]
  · intro i s o hi ho
    obtain ⟨s', hs', hc⟩ := cover i _ (Walk.outline_get hi)
    obtain ⟨id, o', hid, ho', hact⟩ := hm.get hs'
    cases ho.symm.trans ho'
    refine ⟨id, hid, hact.origin, fun x => hg.declared id o x hact.origin, fun x hx => ?_⟩
    rw [← Bindings.has_mapValues Local.defined] at hx
    rcases hc x hx with hx | hx
    · rcases hact.bound_or hx with hb | hb
      · exact .inl hb
      · exact .inr (.inl (ha i s' x hs' hb))
    · exact .inr (.inr hx)

end

end LoxLang
