import LoxLang.Proofs.Lexical.Scopes
import LoxLang.Proofs.Objects.Run

/-!
# Calls that make or renew an object

A class is called with a new object, and its initializer runs as a method of that. What such a
call does is said here outright: in which machine the body of the initializer starts, and how
the call ends by how the body does. The call gives the object as long as `this` still stands
for it in the scope of the method, which is the case on whole machines.
-/

namespace LoxLang

/-! ## Machines along a call -/

/-- The scope of a call: it binds the parameters to the arguments in order. -/
def Closure.frame (f : Closure) (vs : List Value) (allowRedefinition : Bool) : Scope :=
  ⟨(f.params.map Name.text).zip vs, some f.scope, allowRedefinition⟩

namespace Machine

/-- The machine in which the body of the function starts. -/
def entering (m : Machine) (f : Closure) (vs : List Value) : Machine :=
  { m with
    scopes := m.scopes.push (f.frame vs ((m.allow? f.scope).getD false))
    current := m.scopes.size }

/-- The names stand for the values, in order, in the scope that the machine runs in. -/
def Passes (m : Machine) (ps : List Name) (vs : List Value) : Prop :=
  ∀ (j : Nat) (p : Name) v, ps[j]? = some p → vs[j]? = some v →
    m.own? m.current p.text = some v

/-- The machine with the method bound to the object, in a scope more. -/
def binding (m : Machine) (f : Closure) (object : Value) : Machine :=
  { m with
    scopes := m.scopes.push ⟨[("this", object)], some f.scope, (m.allow? f.scope).getD false⟩
    fresh := m.fresh + 1 }

/-- The function that the method is once it is bound in this machine. -/
def bound (m : Machine) (f : Closure) : Closure :=
  { f with identity := m.fresh, scope := m.scopes.size }

def withObject (m : Machine) : Machine := { m with objects := m.objects.push [] }

end Machine

namespace Scopes

theorem insert_push (ss : Scopes) (s : Scope) (x : String) (v : Value) :
    Scopes.insert (ss.push s) ss.size x v =
      ss.push { s with bindings := s.bindings.insert x v } := by
  refine Array.ext_getElem? fun i => ?_
  simp only [insert, Array.getElem?_modify, Array.getElem?_push]
  by_cases hi : i = ss.size
  · rw [if_pos hi, if_pos hi.symm, if_pos hi]
    rfl
  · rw [if_neg hi, if_neg (Ne.symm hi), if_neg hi]

theorem own?_push (ss : Scopes) (s : Scope) (id : ScopeId) (x : String) :
    Scopes.own? (ss.push s) id x =
      if id = ss.size then s.bindings.find? x else ss.own? id x := by
  simp only [own?, Array.getElem?_push]
  split <;> rfl

end Scopes

theorem Bindings.find?_zip : ∀ {ps : List Name} {vs : List Value} {j : Nat} {p : Name} {v : Value},
    (ps.map Name.text).Nodup → ps[j]? = some p → vs[j]? = some v →
    Bindings.find? ((ps.map Name.text).zip vs) p.text = some v
  | q :: ps, w :: vs, 0, p, v, _, hp, hv => by
    obtain rfl : q = p := Option.some.inj hp
    obtain rfl : w = v := Option.some.inj hv
    rw [List.map_cons, List.zip_cons_cons, find?_cons, if_pos (beq_self_eq_true _)]
  | q :: ps, w :: vs, j + 1, p, v, hd, hp, hv => by
    obtain ⟨hq, hd⟩ := List.nodup_cons.1 hd
    rw [List.getElem?_cons_succ] at hp hv
    have hne : p.text ≠ q.text := fun he =>
      hq (he ▸ List.mem_map_of_mem (List.mem_of_getElem? hp))
    rw [List.map_cons, List.zip_cons_cons, find?_cons, if_neg (by simpa using hne)]
    exact find?_zip hd hp hv

theorem Machine.passes_entering (m : Machine) {f : Closure} (hd : (f.params.map Name.text).Nodup)
    (vs : List Value) : (m.entering f vs).Passes f.params vs := by
  intro j p v hp hv
  show Scopes.own? (m.scopes.push (f.frame vs ((m.allow? f.scope).getD false))) m.scopes.size
    p.text = some v
  rw [Scopes.own?_push, if_pos rfl]
  exact Bindings.find?_zip hd hp hv

open Run (endOf)

namespace Run

/-! ## Calls of functions -/

/-- How a call ends that gives the object, by how the body of the function does: a fault is
passed on, and so is a `break`, as a fault. -/
def initialized (object : Value) (outer : ScopeId) :
    EStateM.Result Interrupt Machine Unit → EStateM.Result Interrupt Machine Value
  | .ok _ m | .error (.returning _ _) m => .ok object { m with current := outer }
  | .error (.breaking place) m =>
    .error (.fault ⟨place, .breakOutsideLoop⟩) { m with current := outer }
  | .error (.fault f) m => .error (.fault f) { m with current := outer }
  | .error .exhausted m => .error .exhausted { m with current := outer }

theorem endOf_initialized (object : Value) (outer : ScopeId)
    (r : EStateM.Result Interrupt Machine Unit) :
    endOf (initialized object outer r) = { endOf r with current := outer } := by
  cases r with
  | ok _ m => rfl
  | error i m => cases i <;> rfl

/-- Parameters of different names are bound one after another. -/
theorem bindParams_push (m : Machine) (s : Scope) :
    ∀ (ps : List Name) (vs : List Value) (bs : Bindings Value),
      (ps.map Name.text).Nodup → (∀ p ∈ ps, bs.has p.text = false) →
      bindParams m.scopes.size ps vs
          { m with scopes := m.scopes.push { s with bindings := bs } } =
        .ok () { m with
          scopes := m.scopes.push { s with bindings := bs ++ (ps.map Name.text).zip vs } }
  | [], vs, bs, _, _ => by
    rw [List.map_nil, List.zip_nil_left, List.append_nil]
    rfl
  | p :: ps, [], bs, _, _ => by
    rw [List.zip_nil_right, List.append_nil]
    rfl
  | p :: ps, v :: vs, bs, hd, hn => by
    obtain ⟨hp, hd⟩ := List.nodup_cons.1 hd
    obtain ⟨hb, hn⟩ := List.forall_mem_cons.1 hn
    have hinsert : bs.insert p.text v = bs ++ [(p.text, v)] := Bindings.insert_of_not_has v hb
    have hbind : bindIn m.scopes.size p.text v
          { m with scopes := m.scopes.push { s with bindings := bs } } =
        .ok () { m with
          scopes := m.scopes.push { s with bindings := bs ++ [(p.text, v)] } } := by
      unfold bindIn
      rw [Scopes.insert_push, hinsert]
    have hn' : ∀ q ∈ ps, Bindings.has (bs ++ [(p.text, v)]) q.text = false := by
      intro q hq
      have hne : q.text ≠ p.text := fun he => hp (he ▸ List.mem_map_of_mem hq)
      rw [← hinsert, Bindings.has_insert, beq_eq_false_iff_ne.2 hne, Bool.false_or]
      exact hn q hq
    rw [bindParams, bind_apply, hbind]
    dsimp only
    rw [bindParams_push m s ps vs _ hd hn', List.map_cons, List.zip_cons_cons, List.append_assoc,
      List.singleton_append]

theorem discard_apply {α : Type} (step : Run α) (m : Machine) :
    discard step m = match step m with
      | .ok _ m => .ok () m
      | .error i m => .error i m := bind_apply step (fun _ => pure ()) m

section
variable {exec : Stmt → Run Unit} {f : Closure} {vs : List Value} {m : Machine} {object : Value}

/-- The body runs in a scope of its own. -/
theorem callClosure_apply (hd : (f.params.map Name.text).Nodup) (place : Place) :
    callClosure exec f vs place m =
      (catching (within m.scopes.size (f.body.forM exec)) >>= fun v =>
        if f.isInitializer then check fun m => m.scopes.getAt f.scope 0 ⟨"this", place⟩
        else return v)
      { m with scopes := m.scopes.push (f.frame vs ((m.allow? f.scope).getD false)) } := by
  have hp := bindParams_push m ⟨[], some f.scope, (m.allow? f.scope).getD false⟩ f.params vs [] hd
    fun _ _ => rfl
  unfold callClosure
  rw [bind_apply, show newScope f.scope m = .ok m.scopes.size { m with
    scopes := m.scopes.push ⟨[], some f.scope, (m.allow? f.scope).getD false⟩ } from rfl]
  dsimp only
  rw [bind_apply, hp]
  rfl

/-- A call of an initializer gives its object. -/
theorem callClosure_initializer (hd : (f.params.map Name.text).Nodup)
    (hi : f.isInitializer = true)
    (ht : (endOf (f.body.forM exec (m.entering f vs))).own? f.scope "this" = some object)
    (place : Place) :
    callClosure exec f vs place m =
      initialized object m.current (f.body.forM exec (m.entering f vs)) := by
  have hthis {n : Machine} (hn : n.own? f.scope "this" = some object) :
      check (fun m => m.scopes.getAt f.scope 0 ⟨"this", place⟩) { n with current := m.current } =
        .ok object { n with current := m.current } :=
    check_ok (Scopes.getAt_bound rfl hn)
  rw [callClosure_apply hd]
  simp only [hi, if_true]
  rw [bind_apply]
  unfold catching within
  dsimp only
  rw [show { m with
      scopes := m.scopes.push (f.frame vs ((m.allow? f.scope).getD false))
      current := m.scopes.size } = m.entering f vs from rfl]
  cases hr : f.body.forM exec (m.entering f vs) with
  | ok _ n =>
    rw [hr] at ht
    exact hthis ht
  | error i n =>
    rw [hr] at ht
    cases i with
    | returning v p => exact hthis ht
    | _ => rfl

/-- The value of the initializer is the object already. -/
theorem discard_initialized {step : Run Value} {outer : ScopeId}
    {r : EStateM.Result Interrupt Machine Unit} (h : step m = initialized object outer r) :
    (do discard step; return object : Run Value) m = initialized object outer r := by
  rw [bind_apply, discard_apply, h]
  cases r with
  | ok _ n => rfl
  | error i n => cases i <;> rfl

/-! ## Methods -/

section
variable {m n : Machine} {v : Value} {f : Closure}

theorem bind_ok {α β : Type} {step : Run α} {k : α → Run β} {b : β}
    (h : (step >>= k) m = .ok b n) : ∃ a o, step m = .ok a o ∧ k a o = .ok b n := by
  rw [bind_apply] at h
  cases hs : step m with
  | ok a o =>
    rw [hs] at h
    exact ⟨a, o, rfl, h⟩
  | error i o =>
    rw [hs] at h
    cases h

theorem of_check_ok {α : Type} {look : Machine → Except Fault α} {a : α}
    (h : check look m = .ok a n) : look m = .ok a ∧ n = m := by
  unfold check at h
  cases hl : look m with
  | ok b =>
    rw [hl] at h
    cases h
    exact ⟨rfl, rfl⟩
  | error e =>
    rw [hl] at h
    cases h

theorem bindMethod_apply (f : Closure) (object : Value) (m : Machine) :
    bindMethod f object m = .ok (m.bound f) (m.binding f object) := by
  have hs : ((m.scopes.child f.scope).1.insert m.scopes.size "this" object) =
      m.scopes.push ⟨[("this", object)], some f.scope, (m.allow? f.scope).getD false⟩ :=
    Scopes.insert_push ..
  show EStateM.Result.ok (m.bound f) { m with
    scopes := (m.scopes.child f.scope).1.insert m.scopes.size "this" object
    fresh := m.fresh + 1 } = _
  rw [hs]
  rfl

/-- A method of an object that has no such field is bound to the object. -/
theorem readProperty_method {i : Nat} {c : Class} {property : Name}
    (hfield : (m.fieldsOf i).find? property.text = none)
    (hf : c.method? property.text = some f) :
    readProperty (.object i c) property m =
      .ok (.function (m.bound f)) (m.binding f (.object i c)) := by
  unfold readProperty
  dsimp only
  rw [bind_apply, show (get : Run Machine) m = .ok m m from rfl]
  simp only [hfield, hf]
  rw [bind_apply, bindMethod_apply]
  rfl

/-- What `super` gives is a method of the superclass, bound to what `this` stands for. -/
theorem readSuper_ok {method : Name} {depth : Option Nat} {place : Place}
    (h : readSuper method depth place m = .ok v n) :
    ∃ d c i k f, depth = some (d + 1) ∧
      m.scopes.getAt m.current (d + 1) ⟨"super", place⟩ = .ok (.classValue c) ∧
      m.scopes.getAt m.current d ⟨"this", place⟩ = .ok (.object i k) ∧
      c.method? method.text = some f ∧
      v = .function (m.bound f) ∧ n = m.binding f (.object i k) := by
  unfold readSuper at h
  match depth with
  | none => cases h
  | some 0 => cases h
  | some (d + 1) =>
    obtain ⟨superclass, o, hsuper, hrest⟩ := bind_ok h
    obtain ⟨hsuper, rfl⟩ := of_check_ok hsuper
    obtain ⟨object, o', hthis, hlast⟩ := bind_ok hrest
    obtain ⟨hthis, rfl⟩ := of_check_ok hthis
    cases superclass with
    | classValue c =>
      cases object with
      | object i k =>
        dsimp only at hlast
        cases hf : c.method? method.text with
        | none =>
          rw [hf] at hlast
          cases hlast
        | some f =>
          rw [hf] at hlast
          dsimp only at hlast
          rw [bind_apply, bindMethod_apply] at hlast
          cases hlast
          exact ⟨d, c, i, k, f, rfl, hsuper, hthis, hf, rfl, rfl⟩
      | _ => cases hlast
    | _ => cases hlast

end

/-! ## Calls of classes -/

theorem newObject_apply (c : Class) (m : Machine) :
    newObject c m = .ok (.object m.objects.size c) m.withObject := rfl

theorem construct_plain {c : Class} (hc : c.method? "init" = none) (place : Place) :
    construct exec c vs place m = .ok (.object m.objects.size c) m.withObject := by
  unfold construct
  rw [bind_apply, newObject_apply]
  dsimp only
  rw [hc]
  rfl

/-- The new object is what the call gives, whatever its initializer returns. -/
theorem construct_initializer {c : Class} (hc : c.method? "init" = some f)
    (hd : (f.params.map Name.text).Nodup) (hi : f.isInitializer = true)
    (ho : object = .object m.objects.size c)
    (ht : (endOf (f.body.forM exec ((m.withObject.binding f object).entering
      (m.withObject.bound f) vs))).own? m.scopes.size "this" = some object) (place : Place) :
    construct exec c vs place m = initialized object m.current
      (f.body.forM exec ((m.withObject.binding f object).entering (m.withObject.bound f) vs)) := by
  subst ho
  unfold construct
  rw [bind_apply, newObject_apply]
  dsimp only
  rw [hc]
  dsimp only
  rw [bind_apply, bindMethod_apply]
  exact discard_initialized (callClosure_initializer (f := m.withObject.bound f) hd hi ht place)

/-! ## Numbers of arguments -/

theorem call_of_length_ne {callee : Value} {expected : Nat} (ha : callee.arity? = some expected)
    (hl : vs.length ≠ expected) (place : Place) :
    call exec callee vs place m = .error (.fault ⟨place, .arity expected vs.length⟩) m := by
  unfold call
  rw [ha]
  dsimp only
  rw [if_pos (bne_iff_ne.2 hl)]
  rfl

theorem call_function (hl : vs.length = f.params.length) (place : Place) :
    call exec (.function f) vs place m = callClosure exec f vs place m := by
  unfold call
  rw [show (Value.function f).arity? = some f.params.length from rfl]
  dsimp only
  rw [hl, bne_self_eq_false, if_neg Bool.false_ne_true]

theorem call_classValue {c : Class} (hl : vs.length = c.arity) (place : Place) :
    call exec (.classValue c) vs place m = construct exec c vs place m := by
  unfold call
  rw [show (Value.classValue c).arity? = some c.arity from rfl]
  dsimp only
  rw [hl, bne_self_eq_false, if_neg Bool.false_ne_true]

end

end Run

namespace Machine.Whole

/-! ## Whole machines along a call -/

variable {m : Machine} (hm : m.Whole) {f : Closure} (hf : f.Regular)
include hm

theorem withObject {c : Class} (hc : c.Regular) :
    m.Keeps m.withObject ∧ m.withObject.Whole ∧
      (Value.object m.objects.size c).Whole m.withObject := by
  refine ⟨hm.newObject.1, hm.newObject.2, ?_, hc⟩
  show m.objects.size < (m.objects.push []).size
  rw [Array.size_push]
  exact Nat.lt_succ_self _

include hf

/-- The method belongs to the object that it is bound to. -/
theorem binding {i : Nat} {c : Class} (ho : (Value.object i c).Whole m) :
    m.Keeps (m.binding f (.object i c)) ∧ (m.binding f (.object i c)).Whole ∧
      (m.bound f).BelongsTo (m.binding f (.object i c)) (.object i c) := by
  have h := Run.upholds_of_watching (t := ⟨m, Record.start⟩)
    (Watching.Upholds.bindMethod hm hf ho) (Watching.erases_bindMethod f (.object i c))
  obtain ⟨hk, hw, -, hb, -⟩ := h.ok (Run.bindMethod_apply f (.object i c) m)
  exact ⟨hk, hw, hb⟩

theorem entering {vs : List Value} (hd : (f.params.map Name.text).Nodup)
    (hv : ∀ v ∈ vs, v.Whole m) :
    m.Keeps (m.entering f vs) ∧ (m.entering f vs).Whole := by
  let allow := (m.allow? f.scope).getD false
  let opened : Machine := { m with scopes := m.scopes.push ⟨[], some f.scope, allow⟩ }
  have hk : m.Keeps opened := .child m f.scope
  have ho : opened.Whole := hm.child f.scope
  have hp := Run.upholds_of_watching (t := ⟨opened, Record.start⟩)
    (Watching.Upholds.bindParams m.scopes.size f.params ho hf.params
      fun v h => (hv v h).mono hk) (Watching.erases_step _)
  obtain ⟨hk', hw, -⟩ := hp.ok
    (Run.bindParams_push m ⟨[], some f.scope, allow⟩ f.params vs [] hd fun _ _ => rfl)
  exact ⟨(hk.trans hk').trans (.running _ m.scopes.size), hw.running m.scopes.size⟩

/-- The body of the function keeps what the machine has that it starts in. -/
theorem body {vs : List Value} (hd : (f.params.map Name.text).Nodup) (hv : ∀ v ∈ vs, v.Whole m)
    (fuel : Nat) :
    (m.entering f vs).Keeps (endOf (f.body.forM (exec fuel) (m.entering f vs))) :=
  (Run.upholds_body (hm.entering hf hd hv).2 fuel hf.body).endOf.1

end Machine.Whole

end LoxLang
