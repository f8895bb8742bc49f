import LoxLang.Machine.Scopes

/-!
# What scopes hold

What a scope binds a name to, the scope around it and its rule on redefinition, after a name
is bound and after a scope is added.
-/

namespace LoxLang

namespace Scopes

variable (ss : Scopes)

/-- Binding a name changes what this scope has for this name and nothing else. -/
theorem own?_insert (id : ScopeId) (x : String) (v : Value) (id' : ScopeId) (y : String) :
    (ss.insert id x v).own? id' y =
      if id' = id ∧ y = x ∧ id < ss.size then some v else ss.own? id' y := by
  simp only [own?, insert, Array.getElem?_modify]
  by_cases hi : id = id'
  · subst hi
    rw [if_pos rfl]
    by_cases hs : id < ss.size
    · simp [Bindings.find?_insert, hs]
    · simp [hs]
  · simp [hi, Ne.symm hi]

theorem parent_insert (id : ScopeId) (x : String) (v : Value) (id' : ScopeId) :
    (ss.insert id x v)[id']?.bind Scope.parent = ss[id']?.bind Scope.parent := by
  simp only [insert, Array.getElem?_modify]
  split
  · rename_i h
    subst h
    cases ss[id]? <;> rfl
  · rfl

/-- Binding a name changes no scope's switch for redefinition. -/
theorem allow_insert (id : ScopeId) (x : String) (v : Value) (id' : ScopeId) :
    (ss.insert id x v)[id']?.map Scope.allowRedefinition =
      ss[id']?.map Scope.allowRedefinition := by
  simp only [insert, Array.getElem?_modify]
  split
  · rename_i h
    subst h
    cases ss[id]? <;> rfl
  · rfl

theorem size_insert (id : ScopeId) (x : String) (v : Value) : (ss.insert id x v).size = ss.size :=
  Array.size_modify

theorem own?_size (x : String) : ss.own? ss.size x = none := by
  rw [own?, Array.getElem?_eq_none (Nat.le_refl _)]
  rfl

theorem own?_child (parent : ScopeId) (id : ScopeId) (x : String) :
    (ss.child parent).1.own? id x = ss.own? id x := by
  simp only [own?, child, Array.getElem?_push]
  split
  · rename_i h
    subst h
    rw [Array.getElem?_eq_none (Nat.le_refl _)]
    rfl
  · rfl

theorem parent_child (parent : ScopeId) (id : ScopeId) :
    (ss.child parent).1[id]?.bind Scope.parent =
      if id = ss.size then some parent else ss[id]?.bind Scope.parent := by
  simp only [child, Array.getElem?_push]
  split <;> rfl

/-- A new scope has the switch of its parent, and no other switch changes. -/
theorem allow_child (parent : ScopeId) (id : ScopeId) :
    (ss.child parent).1[id]?.map Scope.allowRedefinition =
      if id = ss.size then some ((ss[parent]?.map Scope.allowRedefinition).getD false)
      else ss[id]?.map Scope.allowRedefinition := by
  simp only [child, Array.getElem?_push]
  split <;> rfl

/-- One scope further out is the scope around. -/
theorem ancestor?_add_one (d : Nat) : ∀ id : ScopeId,
    ss.ancestor? id (d + 1) = (ss.ancestor? id d).bind fun id => ss[id]?.bind Scope.parent := by
  induction d with
  | zero =>
    intro id
    rw [ancestor?, ancestor?, Option.bind_some]
    cases ss[id]?.bind Scope.parent <;> rfl
  | succ d ih =>
    intro id
    rw [ancestor?, ancestor?]
    cases ss[id]?.bind Scope.parent with
    | none => rfl
    | some parent => exact ih parent

theorem size_child (parent : ScopeId) : (ss.child parent).1.size = ss.size + 1 :=
  Array.size_push _

end Scopes

end LoxLang
