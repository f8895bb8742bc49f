import LoxLang.Fault
import LoxLang.Value.Basic

/-!
# Scopes of a run

The scopes that a run has made, in the order of their making. Every scope but a root has
a scope around it. A name is found either by going outwards until some scope binds it or
at a known distance.
-/

namespace LoxLang

/-- Bindings, and the scope around them (`Environment`). -/
structure Scope where
  bindings : Bindings Value
  parent : Option ScopeId
  /-- A bound name may be defined once more. -/
  allowRedefinition : Bool

instance : Inhabited Scope := ⟨⟨[], none, false⟩⟩

/-- All scopes of a run. -/
abbrev Scopes := Array Scope

namespace Scopes

/-- One scope, with nothing around it (`Environment::new`). -/
def root (allowRedefinition : Bool) : Scopes := #[⟨[], none, allowRedefinition⟩]

/-- Adds a scope inside another, which hands down its rule on redefinition
(`Environment::with_enclosing`). -/
def child (ss : Scopes) (parent : ScopeId) : Scopes × ScopeId :=
  let allow := (ss[parent]?.map Scope.allowRedefinition).getD false
  let id := ss.size
  (ss.push ⟨[], some parent, allow⟩, id)

/-- Adds a scope with nothing around it. -/
def orphan (ss : Scopes) (allowRedefinition : Bool) : Scopes × ScopeId :=
  let id := ss.size
  (ss.push ⟨[], none, allowRedefinition⟩, id)

/-- What a scope itself binds a name to. -/
def own? (ss : Scopes) (id : ScopeId) (name : String) : Option Value :=
  ss[id]?.bind (·.bindings.find? name)

/-! ## Binding -/

/-- Binds a name in a scope, whatever it was bound to (`Environment::insert`). -/
def insert (ss : Scopes) (id : ScopeId) (name : String) (v : Value) : Scopes :=
  ss.modify id fun s => { s with bindings := s.bindings.insert name v }

/-- The scope itself, if the name may be defined there: a bound one only if the scope
allows it. -/
def definable (ss : Scopes) (id : ScopeId) (name : Name) : Except Fault ScopeId :=
  let allowed := (ss[id]?.map Scope.allowRedefinition).getD false
  if !allowed && (ss.own? id name.text).isSome then
    .error ⟨name.place, .redefinition name.text⟩
  else .ok id

/-- Binds a name that may be defined (`Environment::define`). -/
def define (ss : Scopes) (id : ScopeId) (name : Name) (v : Value) : Except Fault Scopes :=
  (ss.definable id name).map fun id => ss.insert id name.text v

/-- Forgets all that a scope binds (`Environment::clear`). -/
def clear (ss : Scopes) (id : ScopeId) : Scopes :=
  ss.modify id fun s => { s with bindings := [] }

/-- Sets a scope's rule on redefinition (`Environment::set_allow_redefinition`). -/
def setAllowRedefinition (ss : Scopes) (id : ScopeId) (allow : Bool) : Scopes :=
  ss.modify id fun s => { s with allowRedefinition := allow }

/-! ## Going outwards -/

/-- The nearest scope that binds a name, at most `limit` scopes out. -/
def holderWithin? (ss : Scopes) (name : String) : Nat → ScopeId → Option ScopeId
  | 0, _ => none
  | limit + 1, id =>
    if (ss.own? id name).isSome then some id
    else match ss[id]?.bind Scope.parent with
      | some parent => holderWithin? ss name limit parent
      | none => none

/-- The nearest scope that binds a name. A scope is made after the one around it, so
there is none further out than there are scopes. -/
def holder? (ss : Scopes) (id : ScopeId) (name : String) : Option ScopeId :=
  ss.holderWithin? name ss.size id

/-- The nearest scope that binds a name, which has to be bound. -/
def holder (ss : Scopes) (id : ScopeId) (name : Name) : Except Fault ScopeId :=
  match ss.holder? id name.text with
  | some holder => .ok holder
  | none => .error ⟨name.place, .undefinedVariable name.text⟩

/-- The value of a name (`Environment::get`). -/
def get (ss : Scopes) (id : ScopeId) (name : Name) : Except Fault Value :=
  match (ss.holder? id name.text).bind (ss.own? · name.text) with
  | some v => .ok v
  | none => .error ⟨name.place, .undefinedVariable name.text⟩

/-- Gives a bound name another value (`Environment::assign`). -/
def assign (ss : Scopes) (id : ScopeId) (name : Name) (v : Value) : Except Fault Scopes :=
  (ss.holder id name).map fun holder => ss.insert holder name.text v

/-! ## At a distance -/

/-- The scope so many scopes out (`Environment::ancestor`). -/
def ancestor? (ss : Scopes) (id : ScopeId) : Nat → Option ScopeId
  | 0 => some id
  | distance + 1 => (ss[id]?.bind Scope.parent).bind fun parent => ancestor? ss parent distance

/-- The value of a name so many scopes out, where it has to be bound (`Environment::get_at`). -/
def getAt (ss : Scopes) (id : ScopeId) (distance : Nat) (name : Name) : Except Fault Value :=
  match ss.ancestor? id distance with
  | none => .error ⟨name.place, .mismatch (.noScope distance name.text)⟩
  | some holder =>
    match ss.own? holder name.text with
    | none => .error ⟨name.place, .mismatch (.unbound distance name.text)⟩
    | some v => .ok v

/-- The scope so many scopes out, where the name has to be bound. -/
def holderAt (ss : Scopes) (id : ScopeId) (distance : Nat) (name : Name) :
    Except Fault ScopeId :=
  (ss.getAt id distance name).map fun _ => (ss.ancestor? id distance).getD id

/-- Gives a name that is bound so many scopes out another value (`Environment::assign_at`). -/
def assignAt (ss : Scopes) (id : ScopeId) (distance : Nat) (name : Name) (v : Value) :
    Except Fault Scopes :=
  (ss.holderAt id distance name).map fun holder => ss.insert holder name.text v

end Scopes

end LoxLang
