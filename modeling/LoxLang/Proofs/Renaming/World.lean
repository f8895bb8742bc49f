import LoxLang.Machine.Basic
import LoxLang.Proofs.Machine.Plain
import LoxLang.Proofs.Machine.Store
import LoxLang.Proofs.Renaming.Basic

/-!
# Machines that differ in names

A *world* knows the marks of the scopes of a run and of those around them. Two values are
alike in a world if they differ at most in the names inside functions, by the marks of the
scopes that these were made in; two machines, if their scopes bind like values, under
exchanged names where a scope has a mark, and all else is the same. The steps of a run on
alike scopes find and change the same places.
-/

namespace LoxLang

/-- The marks of the scopes that are known, each with those of the scopes around it. -/
abbrev World := ScopeId → Option Marks

namespace World

/-- One world knows all that another does. -/
def Le (W W' : World) : Prop := ∀ id ρ, W id = some ρ → W' id = some ρ

theorem Le.refl (W : World) : W.Le W := fun _ _ h => h

theorem Le.trans {W W' W'' : World} (h : W.Le W') (h' : W'.Le W'') : W.Le W'' :=
  fun id ρ hi => h' id ρ (h id ρ hi)

def add (W : World) (id : ScopeId) (ρ : Marks) : World := fun i => if i = id then some ρ else W i

theorem add_self (W : World) (id : ScopeId) (ρ : Marks) : W.add id ρ id = some ρ := if_pos rfl

end World

/-! ## Values -/

section
variable (x y : String)

/-- The functions differ in their parameters and statements at most, which are renamed with
these marks around. -/
structure ClosureAlike (ρ : Marks) (f f' : Closure) : Prop where
  identity : f'.identity = f.identity
  name : f'.name = f.name
  scope : f'.scope = f.scope
  isInitializer : f'.isInitializer = f.isInitializer
  code : ∃ b, List.Forall₂ ((Renaming.swap x y).declared b) f.params f'.params ∧
    Stmt.AllRenamed (.swap x y) (ρ.push b) f.body f'.body

/-- Functions that can be called are alike by the marks of the scope that they remember. -/
def FunctionAlike (W : World) (f f' : Closure) : Prop :=
  ∃ ρ, W f.scope = some ρ ∧ ClosureAlike x y ρ f f'

/-- Methods yet to be bound to an object are alike inside one more scope, that of `this`. -/
def MethodAlike (W : World) (f f' : Closure) : Prop :=
  ∃ ρ, W f.scope = some ρ ∧ ClosureAlike x y (ρ.push false) f f'

/-- The classes are the same but for what their methods do. -/
structure ClassAlike (W : World) (c c' : Class) : Prop where
  identity : c'.identity = c.identity
  name : c'.name = c.name
  method? : ∀ n, Option.Rel (MethodAlike x y W) (c.method? n) (c'.method? n)

/-- The values are the same but for the names inside functions. -/
inductive ValueAlike (W : World) : Value → Value → Prop
  | plain {v : Value} (h : v.IsPlain) : ValueAlike W v v
  | function {f f' : Closure} (h : FunctionAlike x y W f f') :
    ValueAlike W (.function f) (.function f')
  | classValue {c c' : Class} (h : ClassAlike x y W c c') :
    ValueAlike W (.classValue c) (.classValue c')
  | object (identity : Nat) {c c' : Class} (h : ClassAlike x y W c c') :
    ValueAlike W (.object identity c) (.object identity c')

end

section
variable {α β : Type} {R S : α → β → Prop} {o : Option α} {p : Option β}

theorem rel_imp (ho : Option.Rel R o p) (h : ∀ a b, R a b → S a b) : Option.Rel S o p := by
  cases ho with
  | some hr => exact .some (h _ _ hr)
  | none => exact .none

theorem isSome_of_rel (ho : Option.Rel R o p) : p.isSome = o.isSome := by
  cases ho <;> rfl

end

section
variable {x y : String} {W W' : World}

theorem ClosureAlike.arity {ρ : Marks} {f f' : Closure} (h : ClosureAlike x y ρ f f') :
    f'.arity = f.arity := by
  obtain ⟨b, hp, -⟩ := h.code
  exact hp.length_eq.symm

theorem MethodAlike.mono (hW : W.Le W') {f f' : Closure} (h : MethodAlike x y W f f') :
    MethodAlike x y W' f f' := by
  obtain ⟨ρ, hs, hc⟩ := h
  exact ⟨ρ, hW _ _ hs, hc⟩

theorem ClassAlike.mono (hW : W.Le W') {c c' : Class} (h : ClassAlike x y W c c') :
    ClassAlike x y W' c c' :=
  ⟨h.identity, h.name, fun n => rel_imp (h.method? n) fun _ _ => .mono hW⟩

theorem ValueAlike.mono (hW : W.Le W') {v v' : Value} (h : ValueAlike x y W v v') :
    ValueAlike x y W' v v' := by
  cases h with
  | plain h => exact .plain h
  | function h =>
    obtain ⟨ρ, hs, hc⟩ := h
    exact .function ⟨ρ, hW _ _ hs, hc⟩
  | classValue h => exact .classValue (h.mono hW)
  | object i h => exact .object i (h.mono hW)

theorem ClassAlike.arity {c c' : Class} (h : ClassAlike x y W c c') : c'.arity = c.arity := by
  have hm := h.method? "init"
  unfold Class.arity
  generalize c.method? "init" = o at hm ⊢
  generalize c'.method? "init" = o' at hm ⊢
  cases hm with
  | none => rfl
  | some hm =>
    obtain ⟨ρ, -, hc⟩ := hm
    exact hc.arity

section
variable {v v' : Value} (h : ValueAlike x y W v v')
include h

theorem ValueAlike.text : v'.text = v.text := by
  cases h with
  | plain => rfl
  | function h =>
    obtain ⟨ρ, -, hc⟩ := h
    rw [Value.text, Value.text, hc.name]
  | classValue h => rw [Value.text, Value.text, h.name]
  | object i h => rw [Value.text, Value.text, h.name]

theorem ValueAlike.isTrue : v'.isTrue = v.isTrue := by
  cases h <;> rfl

theorem ValueAlike.typeName : v'.typeName = v.typeName := by
  cases h <;> rfl

theorem ValueAlike.arity? : v'.arity? = v.arity? := by
  cases h with
  | plain => rfl
  | function h =>
    obtain ⟨ρ, -, hc⟩ := h
    rw [Value.arity?, Value.arity?, hc.arity]
  | classValue h => rw [Value.arity?, Value.arity?, h.arity]
  | object => rfl

theorem ValueAlike.equal {u u' : Value} (h' : ValueAlike x y W u u') : v'.equal u' = v.equal u := by
  cases h with
  | plain hv =>
    cases h' with
    | plain => rfl
    | _ => cases v <;> first | exact hv.elim | rfl
  | function hf =>
    obtain ⟨ρ, -, hf⟩ := hf
    cases h' with
    | plain hu => cases u <;> first | exact hu.elim | rfl
    | function hg =>
      obtain ⟨ρ', -, hg⟩ := hg
      rw [Value.equal, Value.equal, hf.identity, hg.identity]
    | _ => rfl
  | classValue hc =>
    cases h' with
    | plain hu => cases u <;> first | exact hu.elim | rfl
    | classValue hd => rw [Value.equal, Value.equal, hc.identity, hd.identity]
    | _ => rfl
  | object i =>
    cases h' with
    | plain hu => cases u <;> first | exact hu.elim | rfl
    | _ => rfl

end

end

/-! ## Faults and results -/

/-- The cause with another name for the variable, where it is one that can be local. -/
def FaultCause.mapName (g : String → String) : FaultCause → FaultCause
  | redefinition name => redefinition (g name)
  | mismatch (.noScope distance name) => mismatch (.noScope distance (g name))
  | mismatch (.unbound distance name) => mismatch (.unbound distance (g name))
  | c => c

/-- The faults are of the same kind and at the same place; they may name the variable by its
new text. -/
def FaultAlike (x y : String) (f f' : Fault) : Prop :=
  f'.place = f.place ∧ ∃ b, f'.value = f.value.mapName (exchange x y b)

theorem faultAlike_self (x y : String) (f : Fault) : FaultAlike x y f f := by
  refine ⟨rfl, false, ?_⟩
  cases hv : f.value with
  | mismatch m => cases m <;> rfl
  | _ => rfl

/-- The results are both right, and then related, or both faults that are alike. -/
def ResultAlike (x y : String) {α β : Type} (R : α → β → Prop) :
    Except Fault α → Except Fault β → Prop
  | .ok a, .ok b => R a b
  | .error f, .error f' => FaultAlike x y f f'
  | _, _ => False

/-- What alike results are told about each other may be weakened. -/
theorem ResultAlike.imp {x y : String} {α β : Type} {R S : α → β → Prop} {r : Except Fault α}
    {r' : Except Fault β} (h : ResultAlike x y R r r') (hS : ∀ a b, R a b → S a b) :
    ResultAlike x y S r r' := by
  cases r <;> cases r' <;> first | exact hS _ _ h | exact h

/-- Alike results are two values or two faults. -/
theorem ResultAlike.cases {x y : String} {α β : Type} {R : α → β → Prop} {r : Except Fault α}
    {r' : Except Fault β} (h : ResultAlike x y R r r') :
    (∃ a b, r = .ok a ∧ r' = .ok b ∧ R a b) ∨
      ∃ f f', r = .error f ∧ r' = .error f' ∧ FaultAlike x y f f' := by
  cases r with
  | ok a =>
    cases r' with
    | ok b => exact .inl ⟨a, b, rfl, rfl, h⟩
    | error f' => exact h.elim
  | error f =>
    cases r' with
    | ok b => exact h.elim
    | error f' => exact .inr ⟨f, f', rfl, rfl, h⟩

/-- Alike results stay alike when something is made of them. -/
theorem ResultAlike.map {x y : String} {α β γ δ : Type} {R : α → β → Prop} {S : γ → δ → Prop}
    {f : α → γ} {g : β → δ} (hS : ∀ a b, R a b → S (f a) (g b)) {r : Except Fault α}
    {r' : Except Fault β} (h : ResultAlike x y R r r') : ResultAlike x y S (r.map f) (r'.map g) := by
  obtain ⟨a, b, rfl, rfl, hR⟩ | ⟨f, f', rfl, rfl, hf⟩ := h.cases
  · exact hS a b hR
  · exact hf

/-! ## Scopes -/

/-- The known scopes are at the same places and bind alike values, under exchanged names where
they have a mark. -/
structure ScopesMatch (x y : String) (W : World) (ss ss' : Scopes) : Prop where
  size : ss'.size = ss.size
  bounded : ∀ id ρ, W id = some ρ → id < ss.size
  parent : ∀ id ρ, W id = some ρ → ss'[id]?.bind Scope.parent = ss[id]?.bind Scope.parent
  around : ∀ id ρ p, W id = some ρ → ss[id]?.bind Scope.parent = some p → W p = some (ρ.drop 1)
  allow : ∀ id ρ, W id = some ρ →
    ss'[id]?.map Scope.allowRedefinition = ss[id]?.map Scope.allowRedefinition
  own? : ∀ id ρ n, W id = some ρ →
    Option.Rel (ValueAlike x y W) (ss.own? id n) (ss'.own? id (exchange x y (ρ 0) n))

section
variable {x y : String} {W : World} {ss ss' : Scopes} (h : ScopesMatch x y W ss ss')
include h

/-- Scopes still match when a value is bound under its two names. -/
theorem ScopesMatch.insert {id : ScopeId} {ρ : Marks} (hid : W id = some ρ) (n : String)
    {v v' : Value} (hv : ValueAlike x y W v v') :
    ScopesMatch x y W (ss.insert id n v) (ss'.insert id (exchange x y (ρ 0) n) v') where
  size := by rw [Scopes.size_insert, Scopes.size_insert, h.size]
  bounded i ρ' hi := by rw [Scopes.size_insert]; exact h.bounded i ρ' hi
  parent i ρ' hi := by rw [Scopes.parent_insert, Scopes.parent_insert, h.parent i ρ' hi]
  around i ρ' p hi hp := by
    rw [Scopes.parent_insert] at hp
    exact h.around i ρ' p hi hp
  allow i ρ' hi := by rw [Scopes.allow_insert, Scopes.allow_insert, h.allow i ρ' hi]
  own? i ρ' n' hi := by
    rw [Scopes.own?_insert, Scopes.own?_insert, h.size]
    by_cases he : i = id
    · subst he
      cases hid.symm.trans hi
      simp only [exchange_eq_iff]
      split
      · exact .some hv
      · exact h.own? i ρ n' hi
    · rw [if_neg fun hc => he hc.1, if_neg fun hc => he hc.1]
      exact h.own? i ρ' n' hi

theorem ScopesMatch.le_add (ρ : Marks) : W.Le (W.add ss.size ρ) := by
  intro i ρ' hi
  rw [World.add, if_neg (Nat.ne_of_lt (h.bounded i ρ' hi))]
  exact hi

theorem ScopesMatch.child {p : ScopeId} {ρ : Marks} (hp : W p = some ρ) (b : Bool) :
    ScopesMatch x y (W.add ss.size (ρ.push b)) (ss.child p).1 (ss'.child p).1 := by
  have cases {i : ScopeId} {ρ' : Marks} (hi : W.add ss.size (ρ.push b) i = some ρ') :
      i = ss.size ∧ ρ' = ρ.push b ∨ i ≠ ss.size ∧ W i = some ρ' := by
    unfold World.add at hi
    split at hi
    · rename_i he
      exact .inl ⟨he, (Option.some.inj hi).symm⟩
    · rename_i he
      exact .inr ⟨he, hi⟩
  have hle := h.le_add (ρ.push b)
  refine ⟨?_, fun i ρ' hi => ?_, fun i ρ' hi => ?_, fun i ρ' q hi hq => ?_, fun i ρ' hi => ?_,
    fun i ρ' n hi => ?_⟩
  · rw [Scopes.size_child, Scopes.size_child, h.size]
  · rw [Scopes.size_child]
    rcases cases hi with ⟨rfl, -⟩ | ⟨-, hi⟩
    · exact Nat.lt_succ_self _
    · exact Nat.lt_succ_of_lt (h.bounded i ρ' hi)
  · rw [Scopes.parent_child, Scopes.parent_child, h.size]
    rcases cases hi with ⟨rfl, -⟩ | ⟨hne, hi⟩
    · rw [if_pos rfl, if_pos rfl]
    · rw [if_neg hne, if_neg hne, h.parent i ρ' hi]
  · rw [Scopes.parent_child] at hq
    rcases cases hi with ⟨rfl, rfl⟩ | ⟨hne, hi⟩
    · rw [if_pos rfl] at hq
      cases hq
      exact hle _ _ hp
    · rw [if_neg hne] at hq
      exact hle _ _ (h.around i ρ' q hi hq)
  · rw [Scopes.allow_child, Scopes.allow_child, h.size, h.allow p ρ hp]
    rcases cases hi with ⟨rfl, -⟩ | ⟨hne, hi⟩
    · rw [if_pos rfl, if_pos rfl]
    · rw [if_neg hne, if_neg hne, h.allow i ρ' hi]
  · rw [Scopes.own?_child, Scopes.own?_child]
    rcases cases hi with ⟨rfl, -⟩ | ⟨-, hi⟩
    · rw [Scopes.own?_size, ← h.size, Scopes.own?_size]
      exact .none
    · exact rel_imp (h.own? i ρ' n hi) fun _ _ => .mono hle

/-- The scope at a distance is the same one, and the marks from there on are its own. -/
theorem ScopesMatch.ancestor? {id : ScopeId} {ρ : Marks} (hid : W id = some ρ) (d : Nat) :
    ss'.ancestor? id d = ss.ancestor? id d ∧
      ∀ a, ss.ancestor? id d = some a → W a = some (ρ.drop d) := by
  induction d generalizing id ρ with
  | zero =>
    refine ⟨rfl, fun a ha => ?_⟩
    cases ha
    exact hid
  | succ d ih =>
    rw [Scopes.ancestor?, Scopes.ancestor?, h.parent id ρ hid]
    cases hp : ss[id]?.bind Scope.parent with
    | none =>
      refine ⟨rfl, fun a ha => ?_⟩
      cases ha
    | some p =>
      obtain ⟨he, ha⟩ := ih (h.around id ρ p hid hp)
      rw [Marks.drop_drop] at ha
      exact ⟨he, ha⟩

theorem ScopesMatch.own_at {id : ScopeId} {ρ : Marks} (hid : W id = some ρ) {d : Nat}
    {a : ScopeId} (ha : ss.ancestor? id d = some a) (n : String) :
    Option.Rel (ValueAlike x y W) (ss.own? a n) (ss'.own? a (exchange x y (ρ d) n)) := by
  have ho := h.own? a (ρ.drop d) n ((h.ancestor? hid d).2 a ha)
  rwa [show ρ.drop d 0 = ρ d by rw [Marks.drop, Nat.zero_add]] at ho

/-- At a distance alike values are found under the two names. -/
theorem ScopesMatch.getAt {id : ScopeId} {ρ : Marks} (hid : W id = some ρ) (d : Nat) (n : Name) :
    ResultAlike x y (ValueAlike x y W) (ss.getAt id d n)
      (ss'.getAt id d (n.exchange x y (ρ d))) := by
  unfold Scopes.getAt
  rw [(h.ancestor? hid d).1]
  cases ha : ss.ancestor? id d with
  | none => exact ⟨rfl, ρ d, rfl⟩
  | some a =>
    have ho := h.own_at hid ha n.text
    simp only [Name.exchange]
    generalize ss.own? a n.text = o at ho ⊢
    generalize ss'.own? a (exchange x y (ρ d) n.text) = o' at ho ⊢
    cases ho with
    | none => exact ⟨rfl, ρ d, rfl⟩
    | some hv => exact hv

/-- At a distance the same scope holds the two names. -/
theorem ScopesMatch.holderAt {id : ScopeId} {ρ : Marks} (hid : W id = some ρ) (d : Nat)
    (n : Name) : ResultAlike x y (fun a a' => a' = a ∧ W a = some (ρ.drop d)) (ss.holderAt id d n)
      (ss'.holderAt id d (n.exchange x y (ρ d))) := by
  have hg := h.getAt hid d n
  unfold Scopes.holderAt
  cases ha : ss.ancestor? id d with
  | none =>
    simp only [Scopes.getAt, (h.ancestor? hid d).1, ha] at hg ⊢
    exact hg
  | some a =>
    rw [(h.ancestor? hid d).1, ha]
    exact hg.map fun _ _ _ => ⟨rfl, (h.ancestor? hid d).2 a ha⟩

/-- The same scope may define the two names. -/
theorem ScopesMatch.definable {id : ScopeId} {ρ : Marks} (hid : W id = some ρ) (n : Name) :
    ResultAlike x y (fun a a' => a' = a ∧ W a = some ρ) (ss.definable id n)
      (ss'.definable id (n.exchange x y (ρ 0))) := by
  unfold Scopes.definable
  simp only [Name.exchange, h.allow id ρ hid, isSome_of_rel (h.own? id ρ n.text hid)]
  split
  · exact ⟨rfl, ρ 0, rfl⟩
  · exact ⟨rfl, hid⟩

/-- Outside of all marks a name is found in the same scope. -/
theorem ScopesMatch.holderWithin? (n : String) (limit : Nat) {id : ScopeId}
    (hid : W id = some .none) :
    ss'.holderWithin? n limit id = ss.holderWithin? n limit id ∧
      ∀ a, ss.holderWithin? n limit id = some a → W a = some .none := by
  induction limit generalizing id with
  | zero => exact ⟨rfl, fun _ ha => nomatch ha⟩
  | succ limit ih =>
    have ho := h.own? id .none n hid
    rw [show exchange x y (Marks.none 0) n = n from rfl] at ho
    rw [Scopes.holderWithin?, Scopes.holderWithin?, isSome_of_rel ho, h.parent id .none hid]
    split
    · refine ⟨rfl, fun a ha => ?_⟩
      cases ha
      exact hid
    · cases hp : ss[id]?.bind Scope.parent with
      | none => exact ⟨rfl, fun _ ha => nomatch ha⟩
      | some p => exact ih (h.around id .none p hid hp)

theorem ScopesMatch.holder? {id : ScopeId} (hid : W id = some .none) (n : String) :
    ss'.holder? id n = ss.holder? id n ∧ ∀ a, ss.holder? id n = some a → W a = some .none := by
  unfold Scopes.holder?
  rw [h.size]
  exact h.holderWithin? n ss.size hid

theorem ScopesMatch.get {id : ScopeId} (hid : W id = some .none) (n : Name) :
    ResultAlike x y (ValueAlike x y W) (ss.get id n) (ss'.get id n) := by
  unfold Scopes.get
  obtain ⟨he, hm⟩ := h.holder? hid n.text
  rw [he]
  cases ha : ss.holder? id n.text with
  | none => exact faultAlike_self x y _
  | some a =>
    have ho := h.own? a .none n.text (hm a ha)
    simp only [Option.bind_some]
    rw [show exchange x y (Marks.none 0) n.text = n.text from rfl] at ho
    generalize ss.own? a n.text = o at ho ⊢
    generalize ss'.own? a n.text = o' at ho ⊢
    cases ho with
    | none => exact faultAlike_self x y _
    | some hv => exact hv

/-- A global name is held by the same scope on both sides. -/
theorem ScopesMatch.holder {id : ScopeId} (hid : W id = some .none) (n : Name) :
    ResultAlike x y (fun a a' => a' = a ∧ W a = some .none) (ss.holder id n) (ss'.holder id n) := by
  unfold Scopes.holder
  obtain ⟨he, hm⟩ := h.holder? hid n.text
  rw [he]
  cases ha : ss.holder? id n.text with
  | none => exact faultAlike_self x y _
  | some a => exact ⟨rfl, hm a ha⟩

end

/-! ## Machines -/

/-- The machines are the same but for names. -/
structure MachineAlike (x y : String) (W : World) (m m' : Machine) : Prop where
  old : x ≠ "this" ∧ x ≠ "super"
  new : y ≠ "this" ∧ y ≠ "super"
  scopes : ScopesMatch x y W m.scopes m'.scopes
  count : m'.objects.size = m.objects.size
  objects : ∀ i n, Option.Rel (ValueAlike x y W) ((m.fieldsOf i).find? n) ((m'.fieldsOf i).find? n)
  fresh : m'.fresh = m.fresh
  globals : m'.globals = m.globals
  current : m'.current = m.current
  sink : m'.sink = m.sink
  clock : m'.clock = m.clock
  /-- The global scope and those around it have no mark. -/
  outermost : W m.globals = some .none

/-- The interrupts are the same but for names. -/
inductive InterruptAlike (x y : String) (W : World) : Interrupt → Interrupt → Prop
  | fault {f f' : Fault} (h : FaultAlike x y f f') : InterruptAlike x y W (.fault f) (.fault f')
  | breaking (place : Place) : InterruptAlike x y W (.breaking place) (.breaking place)
  | returning {v v' : Value} (place : Place) (h : ValueAlike x y W v v') :
    InterruptAlike x y W (.returning v place) (.returning v' place)
  | exhausted : InterruptAlike x y W .exhausted .exhausted

section
variable {x y : String} {W : World} {m m' : Machine} (h : MachineAlike x y W m m')
include h

/-- Machines stay alike when alike values are bound under the two names. -/
theorem MachineAlike.insert {id : ScopeId} {ρ : Marks} (hid : W id = some ρ) (n : String)
    {v v' : Value} (hv : ValueAlike x y W v v') :
    MachineAlike x y W { m with scopes := m.scopes.insert id n v }
      { m' with scopes := m'.scopes.insert id (exchange x y (ρ 0) n) v' } :=
  { h with scopes := h.scopes.insert hid n hv }

theorem MachineAlike.running (scope : ScopeId) :
    MachineAlike x y W { m with current := scope } { m' with current := scope } :=
  { h with current := rfl }

/-- The names of the language are never exchanged. -/
theorem MachineAlike.exchange_this (b : Bool) : exchange x y b "this" = "this" :=
  exchange_of_ne x y b h.old.1.symm h.new.1.symm

theorem MachineAlike.exchange_super (b : Bool) : exchange x y b "super" = "super" :=
  exchange_of_ne x y b h.old.2.symm h.new.2.symm

end

end LoxLang
