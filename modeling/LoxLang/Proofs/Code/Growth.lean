import LoxLang.Proofs.Code.Codes
import LoxLang.Proofs.Machine.Changes
import LoxLang.Proofs.Renaming.Simulation

/-!
# How machines grow

A run makes scopes and binds names. `Machine.Grown new m n` says that `n` comes after `m`
and runs in the same scope, where the scopes of `m` have kept their names and their rules on
redefinition, and have got no names but those that `new` allows. The changes of state that a
run is made of grow the machine, and keep it fine if what they add is.
-/

namespace LoxLang

namespace Machine

abbrev own? (m : Machine) (id : ScopeId) (x : String) : Option Value := m.scopes.own? id x

/-- A scope's rule on redefinition. -/
abbrev allow? (m : Machine) (id : ScopeId) : Option Bool :=
  m.scopes[id]?.map Scope.allowRedefinition

/-- The machine has grown, and the scopes it had bind no more names than `new` allows. -/
structure Grown (new : ScopeId → String → Prop) (m n : Machine) : Prop where
  globals : n.globals = m.globals
  current : n.current = m.current
  size : m.scopes.size ≤ n.scopes.size
  allow : ∀ id < m.scopes.size, n.allow? id = m.allow? id
  kept : ∀ id < m.scopes.size, ∀ x, (m.own? id x).isSome → (n.own? id x).isSome
  only : ∀ id < m.scopes.size, ∀ x, (n.own? id x).isSome → (m.own? id x).isSome ∨ new id x

/-- No name is new. -/
def noNames : ScopeId → String → Prop := fun _ _ => False

section
variable {new other : ScopeId → String → Prop} {m n p : Machine}

theorem Grown.refl (new : ScopeId → String → Prop) (m : Machine) : Grown new m m :=
  ⟨rfl, rfl, Nat.le_refl _, fun _ _ => rfl, fun _ _ _ h => h, fun _ _ _ h => .inl h⟩

theorem Grown.trans (h : Grown new m n) (h' : Grown new n p) : Grown new m p where
  globals := h'.globals.trans h.globals
  current := h'.current.trans h.current
  size := Nat.le_trans h.size h'.size
  allow id hi := (h'.allow id (Nat.lt_of_lt_of_le hi h.size)).trans (h.allow id hi)
  kept id hi x hx := h'.kept id (Nat.lt_of_lt_of_le hi h.size) x (h.kept id hi x hx)
  only id hi x hx := (h'.only id (Nat.lt_of_lt_of_le hi h.size) x hx).elim (h.only id hi x) .inr

theorem Grown.mono (h : Grown new m n) (hn : ∀ id x, new id x → other id x) : Grown other m n :=
  { h with only := fun id hi x hx => (h.only id hi x hx).imp_right (hn id x) }

/-- Names that are new only in scopes that were not there are not new. -/
theorem Grown.shut (h : Grown new m n) (hn : ∀ id x, new id x → m.scopes.size ≤ id) :
    Grown noNames m n :=
  { h with only := fun id hi x hx => (h.only id hi x hx).imp_right fun hid =>
      absurd hi (Nat.not_lt.2 (hn id x hid)) }

/-- Where no name is new, a scope binds the names that it bound. -/
theorem Grown.own_isSome (h : Grown noNames m n) {id : ScopeId} (hi : id < m.scopes.size)
    (x : String) : (n.own? id x).isSome = (m.own? id x).isSome :=
  Bool.eq_iff_iff.2 ⟨fun hx => (h.only id hi x hx).elim (fun h => h) False.elim, h.kept id hi x⟩

end

/-! ## Changes -/

section
variable (m : Machine)

theorem grown_insert {id : ScopeId} {x : String} (v : Value) {new : ScopeId → String → Prop}
    (h : (m.own? id x).isSome ∨ new id x) :
    Grown new m { m with scopes := m.scopes.insert id x v } where
  globals := rfl
  current := rfl
  size := Nat.le_of_eq (Scopes.size_insert _ _ _ _).symm
  allow _ _ := Scopes.allow_insert ..
  kept i hi y hy := by
    show ((m.scopes.insert id x v).own? i y).isSome
    rw [Scopes.own?_insert]
    split
    · rfl
    · exact hy
  only i hi y hy := by
    replace hy : ((m.scopes.insert id x v).own? i y).isSome := hy
    rw [Scopes.own?_insert] at hy
    split at hy
    · rename_i he
      rw [he.1, he.2.1]
      exact h
    · exact .inl hy

theorem grown_child (parent : ScopeId) (new : ScopeId → String → Prop) :
    Grown new m { m with scopes := (m.scopes.child parent).1 } where
  globals := rfl
  current := rfl
  size := by
    rw [show (m.scopes.child parent).1.size = _ from Scopes.size_child ..]
    exact Nat.le_succ _
  allow i hi := by
    show (m.scopes.child parent).1[i]?.map Scope.allowRedefinition = _
    rw [Scopes.allow_child, if_neg (Nat.ne_of_lt hi)]
  kept i hi y hy := by
    show ((m.scopes.child parent).1.own? i y).isSome
    rwa [Scopes.own?_child]
  only i hi y hy := by
    replace hy : ((m.scopes.child parent).1.own? i y).isSome := hy
    rw [Scopes.own?_child] at hy
    exact .inl hy

/-- A change that leaves the scopes alone. -/
theorem grown_of_scopes {m n : Machine} (hs : n.scopes = m.scopes) (hg : n.globals = m.globals)
    (hc : n.current = m.current) (new : ScopeId → String → Prop) : Grown new m n where
  globals := hg
  current := hc
  size := Nat.le_of_eq (by rw [hs])
  allow _ _ := by rw [allow?, hs]
  kept i _ y hy := by rwa [own?, hs]
  only i _ y hy := .inl (by rwa [own?, hs] at hy)

end

section
variable {m : Machine} (hm : m.Fine)
include hm

theorem Fine.running {id : ScopeId} (hid : id < m.scopes.size) : Fine { m with current := id } :=
  { hm with current := hid }

/-- A machine stays fine when a fine value is bound in one of its scopes. -/
theorem Fine.insert (id : ScopeId) (x : String) {v : Value} (hv : v.Fine) :
    Fine { m with scopes := m.scopes.insert id x v } where
  globals := (Scopes.size_insert m.scopes id x v).symm ▸ hm.globals
  current := (Scopes.size_insert m.scopes id x v).symm ▸ hm.current
  scopes i y w hw := by
    rw [Scopes.own?_insert] at hw
    split at hw
    · cases hw
      exact hv
    · exact hm.scopes i y w hw
  objects := hm.objects

theorem Fine.child (parent : ScopeId) : Fine { m with scopes := (m.scopes.child parent).1 } where
  globals := (Scopes.size_child m.scopes parent).symm ▸ Nat.lt_succ_of_lt hm.globals
  current := (Scopes.size_child m.scopes parent).symm ▸ Nat.lt_succ_of_lt hm.current
  scopes i y w hw := hm.scopes i y w (by rwa [Scopes.own?_child] at hw)
  objects := hm.objects

theorem Fine.newObject : Fine { m with objects := m.objects.push [] } :=
  { hm with
    objects := fun i x v hv => by
      simp only [fieldsOf, Array.getElem?_push] at hv
      split at hv
      · cases hv
      · exact hm.objects i x v hv }

/-- A machine stays fine when a fine value is stored in a field. -/
theorem Fine.setField (object : Nat) (name : String) {v : Value} (hv : v.Fine) :
    Fine { m with objects := m.objects.modify object (·.insert name v) } :=
  { hm with
    objects := fun i x w hw => by
      simp only [fieldsOf] at hw
      rw [find?_modify] at hw
      split at hw
      · cases hw
        exact hv
      · exact hm.objects i x w hw }

end

end Machine

end LoxLang
