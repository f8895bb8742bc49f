import LoxLang.Proofs.Code.Growth

/-!
# What machines hold on to

Objects are numbered in the order of their making, so an object has been made if its number
is below the count of the machine. `Machine.Whole` says that a machine holds on to no other
objects, that its functions bind ordinary names only, and that its initializers are the
methods `init` of classes, each function among them bound to an object. `Machine.Keeps` says
that one machine comes after another: no object is forgotten, and `this` stands for the same
object in every scope.
-/

namespace LoxLang

/-! ## Functions and classes -/

/-- The code of the function binds ordinary names only. -/
structure Closure.Regular (f : Closure) : Prop where
  params : ∀ p ∈ f.params, p.IsOrdinary
  body : Stmt.AllRegular f.body

/-- The methods in the table are regular, and those named `init` are the initializers. -/
def Class.TableRegular (table : Bindings Closure) : Prop :=
  ∀ x f, table.find? x = some f → f.Regular ∧ f.isInitializer = (x == "init")

/-- The methods of the class are regular, and those named `init` are the initializers. -/
def Class.Regular (c : Class) : Prop :=
  ∀ x f, c.method? x = some f → f.Regular ∧ f.isInitializer = (x == "init")

namespace Class

theorem tableRegular_nil : TableRegular [] := fun _ _ h => nomatch h

/-- A table of methods stays regular if only a method called `init` is an initializer. -/
theorem TableRegular.insert {table : Bindings Closure} (h : TableRegular table) {x : String}
    {f : Closure} (hf : f.Regular) (hi : f.isInitializer = (x == "init")) :
    TableRegular (table.insert x f) := by
  intro y g hg
  rw [Bindings.find?_insert] at hg
  split at hg
  · rename_i hy
    cases hg
    rw [beq_iff_eq.1 hy]
    exact ⟨hf, hi⟩
  · exact h y g hg

theorem regular_plain {i : Nat} {name : String} {table : Bindings Closure}
    (h : TableRegular table) : (Class.mk i name none table).Regular :=
  fun x f hf => h x f (by rwa [method?] at hf)

theorem regular_derived {i : Nat} {name : String} {c : Class} {table : Bindings Closure}
    (hc : c.Regular) (h : TableRegular table) : (Class.mk i name (some c) table).Regular := by
  intro x f hf
  rw [method?] at hf
  cases ht : table.find? x with
  | none => exact hc x f (by rwa [ht] at hf)
  | some g =>
    rw [ht] at hf
    cases hf
    exact h x _ ht

end Class

/-! ## Values -/

/-- The function is a method that was bound to the object. -/
structure Closure.BelongsTo (f : Closure) (m : Machine) (object : Value) : Prop where
  isLocal : f.scope ≠ m.globals
  this : m.own? f.scope "this" = some object

/-- The function is regular, and bound to an object if it is an initializer. -/
structure Closure.Whole (m : Machine) (f : Closure) : Prop where
  regular : f.Regular
  belongs : f.isInitializer → ∃ i c, f.BelongsTo m (.object i c)

/-- The value is an object only if that has been made, and its functions are regular. -/
def Value.Whole (m : Machine) : Value → Prop
  | .function f => f.Whole m
  | .classValue c => c.Regular
  | .object i c => i < m.objects.size ∧ c.Regular
  | _ => True

theorem Value.whole_of_plain {m : Machine} {v : Value} (h : v.IsPlain) : v.Whole m := by
  cases v with
  | function _ | classValue _ | object _ _ => exact h.elim
  | _ => trivial

namespace Machine

/-! ## Machines -/

/-- All that the machine holds on to is whole. -/
structure Whole (m : Machine) : Prop where
  globals : m.globals < m.scopes.size
  scopes : ∀ id x v, m.own? id x = some v → v.Whole m
  objects : ∀ i x v, (m.fieldsOf i).find? x = some v → v.Whole m

/-- The machine `n` comes after `m`. -/
structure Keeps (m n : Machine) : Prop where
  globals : n.globals = m.globals
  scopes : m.scopes.size ≤ n.scopes.size
  objects : m.objects.size ≤ n.objects.size
  this : ∀ id v, id ≠ m.globals → m.own? id "this" = some v → n.own? id "this" = some v

namespace Keeps

variable {m n p : Machine}

theorem refl (m : Machine) : m.Keeps m := ⟨rfl, Nat.le_refl _, Nat.le_refl _, fun _ _ _ h => h⟩

theorem trans (h : m.Keeps n) (h' : n.Keeps p) : m.Keeps p where
  globals := h'.globals.trans h.globals
  scopes := Nat.le_trans h.scopes h'.scopes
  objects := Nat.le_trans h.objects h'.objects
  this id v hi hv := h'.this id v (by rwa [h.globals]) (h.this id v hi hv)

/-- A change that leaves the scopes alone. -/
theorem of_scopes (hs : n.scopes = m.scopes) (hg : n.globals = m.globals)
    (ho : m.objects.size ≤ n.objects.size) : m.Keeps n :=
  ⟨hg, Nat.le_of_eq (by rw [hs]), ho, fun _ _ _ hv => by rwa [own?, hs]⟩

theorem running (m : Machine) (id : ScopeId) : m.Keeps { m with current := id } :=
  .of_scopes rfl rfl (Nat.le_refl _)

/-- Where `this` is bound already it is not bound again. -/
theorem insert (m : Machine) {id : ScopeId} {x : String} (v : Value)
    (hx : x ≠ "this" ∨ m.own? id x = none) :
    m.Keeps { m with scopes := m.scopes.insert id x v } where
  globals := rfl
  scopes := Nat.le_of_eq (Scopes.size_insert _ _ _ _).symm
  objects := Nat.le_refl _
  this i w _ hw := by
    refine (Scopes.own?_insert ..).trans ((if_neg ?_).trans hw)
    rintro ⟨rfl, rfl, -⟩
    rcases hx with hx | hx
    · exact hx rfl
    · rw [hx] at hw
      cases hw

theorem child (m : Machine) (parent : ScopeId) :
    m.Keeps { m with scopes := (m.scopes.child parent).1 } where
  globals := rfl
  scopes := Nat.le_of_lt (Nat.lt_of_lt_of_eq (Nat.lt_succ_self _) (m.scopes.size_child parent).symm)
  objects := Nat.le_refl _
  this _ _ _ hw := (Scopes.own?_child ..).trans hw

end Keeps

end Machine

section
variable {m n : Machine} (h : m.Keeps n)
include h

theorem Closure.BelongsTo.mono {f : Closure} {o : Value} (hf : f.BelongsTo m o) :
    f.BelongsTo n o :=
  ⟨by rw [h.globals]; exact hf.isLocal, h.this _ _ hf.isLocal hf.this⟩

theorem Closure.Whole.mono {f : Closure} (hf : f.Whole m) : f.Whole n :=
  ⟨hf.regular, fun hi => (hf.belongs hi).imp fun _ ⟨c, hb⟩ => ⟨c, hb.mono h⟩⟩

theorem Value.Whole.mono {v : Value} (hv : v.Whole m) : v.Whole n := by
  cases v with
  | function f => exact Closure.Whole.mono h hv
  | object i c => exact ⟨Nat.lt_of_lt_of_le hv.1 h.objects, hv.2⟩
  | _ => exact hv

end

namespace Machine.Whole

/-! ## Changes -/

variable {m n : Machine}

/-- A machine is whole if it comes after a whole one and what it adds is. -/
theorem extend (hm : m.Whole) (h : m.Keeps n)
    (hs : ∀ id x v, n.own? id x = some v → m.own? id x = some v ∨ v.Whole n)
    (ho : ∀ i x v, (n.fieldsOf i).find? x = some v →
      (m.fieldsOf i).find? x = some v ∨ v.Whole n) : n.Whole where
  globals := by
    rw [h.globals]
    exact Nat.lt_of_lt_of_le hm.globals h.scopes
  scopes id x v hv := (hs id x v hv).elim (fun hv => (hm.scopes id x v hv).mono h) fun hv => hv
  objects i x v hv := (ho i x v hv).elim (fun hv => (hm.objects i x v hv).mono h) fun hv => hv

/-- A change of what a machine does not hold on to. -/
theorem of_same (hm : m.Whole) (hs : n.scopes = m.scopes) (hg : n.globals = m.globals)
    (ho : n.objects = m.objects) : n.Whole := by
  refine hm.extend (.of_scopes hs hg (Nat.le_of_eq (by rw [ho]))) ?_ ?_
  · exact fun id x v hv => .inl (by rwa [own?, hs] at hv)
  · exact fun i x v hv => .inl (by rwa [fieldsOf, ho] at hv)

theorem running (hm : m.Whole) (id : ScopeId) : Whole { m with current := id } :=
  hm.of_same rfl rfl rfl

/-- Binding a whole value leaves a machine whole, unless `this` would be bound again. -/
theorem insert (hm : m.Whole) {id : ScopeId} {x : String} {v : Value}
    (hx : x ≠ "this" ∨ m.own? id x = none) (hv : v.Whole m) :
    Whole { m with scopes := m.scopes.insert id x v } := by
  have h := Keeps.insert m v hx
  refine hm.extend h (fun i y w hw => ?_) fun _ _ _ hw => .inl hw
  rw [own?, Scopes.own?_insert] at hw
  split at hw
  · cases hw
    exact .inr (hv.mono h)
  · exact .inl hw

theorem child (hm : m.Whole) (parent : ScopeId) :
    Whole { m with scopes := (m.scopes.child parent).1 } := by
  refine hm.extend (.child m parent) (fun i y w hw => .inl ?_) fun _ _ _ hw => .inl hw
  rwa [own?, Scopes.own?_child] at hw

/-- A scope more, which binds one name. -/
theorem enclosing (hm : m.Whole) (parent : ScopeId) (x : String) {v : Value} (hv : v.Whole m) :
    m.Keeps { m with scopes := (m.scopes.child parent).1.insert m.scopes.size x v } ∧
      Whole { m with scopes := (m.scopes.child parent).1.insert m.scopes.size x v } := by
  have hc := Keeps.child m parent
  have hx : Machine.own? { m with scopes := (m.scopes.child parent).1 } m.scopes.size x = none := by
    rw [own?, Scopes.own?_child, Scopes.own?_size]
  exact ⟨hc.trans (.insert _ v (.inr hx)), (hm.child parent).insert (.inr hx) (hv.mono hc)⟩

/-- One more object, without fields. -/
theorem newObject (hm : m.Whole) :
    m.Keeps { m with objects := m.objects.push [] } ∧
      Whole { m with objects := m.objects.push [] } := by
  have h : m.Keeps { m with objects := m.objects.push [] } :=
    .of_scopes rfl rfl (by rw [Array.size_push]; exact Nat.le_succ _)
  refine ⟨h, hm.extend h (fun _ _ _ hv => .inl hv) fun i x v hv => .inl ?_⟩
  simp only [fieldsOf, Array.getElem?_push] at hv
  split at hv
  · cases hv
  · exact hv

theorem setField (hm : m.Whole) (object : Nat) (x : String) {v : Value} (hv : v.Whole m) :
    m.Keeps { m with objects := m.objects.modify object (·.insert x v) } ∧
      Whole { m with objects := m.objects.modify object (·.insert x v) } := by
  have h : m.Keeps { m with objects := m.objects.modify object (·.insert x v) } :=
    .of_scopes rfl rfl (Nat.le_of_eq Array.size_modify.symm)
  refine ⟨h, hm.extend h (fun _ _ _ hw => .inl hw) fun i y w hw => ?_⟩
  rw [fieldsOf, find?_modify] at hw
  split at hw
  · cases hw
    exact .inr (hv.mono h)
  · exact .inl hw

end Machine.Whole

end LoxLang
