import LoxLang.Proofs.Machine.Plain
import LoxLang.Proofs.Machine.Store
import LoxLang.Proofs.Renaming.World
import LoxLang.Proofs.Twins.Tree

/-!
# Twins

Two machines are *twins* if what is known of one has its double in the other: scopes,
objects, functions and classes stand for each other one for one, scopes bind twin values and
objects have twin fields, and functions have the same code elsewhere. Each may hold more
besides, which nothing known leads to.
-/

namespace LoxLang

/-! ## Pairings -/

/-- Numbers that stand for each other, one for one. -/
structure Pairing where
  pairs : Nat → Nat → Prop
  unique : ∀ {a a' b b'}, pairs a a' → pairs b b' → (a = b ↔ a' = b')

namespace Pairing

/-- All paired numbers lie below these bounds. -/
def Below (P : Pairing) (n n' : Nat) : Prop := ∀ ⦃a a'⦄, P.pairs a a' → a < n ∧ a' < n'

/-- One more pair, of the bounds themselves. -/
def add (P : Pairing) {n n' : Nat} (h : P.Below n n') : Pairing where
  pairs a a' := P.pairs a a' ∨ a = n ∧ a' = n'
  unique {a a' b b'} ha hb := by
    rcases ha with ha | ⟨rfl, rfl⟩ <;> rcases hb with hb | ⟨rfl, rfl⟩
    · exact P.unique ha hb
    · have := h ha
      omega
    · have := h hb
      omega
    · exact ⟨fun _ => rfl, fun _ => rfl⟩

theorem below_add (P : Pairing) {n n' : Nat} (h : P.Below n n') :
    (P.add h).Below (n + 1) (n' + 1) := by
  rintro a a' (ha | ⟨rfl, rfl⟩)
  · have := h ha
    omega
  · omega

theorem beq (P : Pairing) {a a' b b' : Nat} (ha : P.pairs a a') (hb : P.pairs b b') :
    (a' == b') = (a == b) := by
  rw [Bool.eq_iff_iff, beq_iff_eq, beq_iff_eq, P.unique ha hb]

/-- No number has a partner. -/
def empty : Pairing := ⟨fun _ _ => False, fun h => h.elim⟩

end Pairing

/-- What stands for what in two machines: scopes, objects, and the identities of functions
and classes. -/
structure Pairs where
  scopes : Pairing
  objects : Pairing
  made : Pairing

namespace Pairs

/-- All that stands for something keeps doing so. -/
structure Le (P Q : Pairs) : Prop where
  scopes : ∀ {a a'}, P.scopes.pairs a a' → Q.scopes.pairs a a'
  objects : ∀ {a a'}, P.objects.pairs a a' → Q.objects.pairs a a'
  made : ∀ {a a'}, P.made.pairs a a' → Q.made.pairs a a'

theorem Le.refl (P : Pairs) : P.Le P := ⟨id, id, id⟩

theorem Le.trans {P Q S : Pairs} (h : P.Le Q) (h' : Q.Le S) : P.Le S :=
  ⟨fun hp => h'.scopes (h.scopes hp), fun hp => h'.objects (h.objects hp),
    fun hp => h'.made (h.made hp)⟩

end Pairs

/-! ## Values -/

section
variable (R : Place → Place → Prop) (P : Pairs)

/-- Functions with the same code elsewhere, made in paired scopes. -/
structure Closure.Twin (f f' : Closure) : Prop where
  identity : P.made.pairs f.identity f'.identity
  name : f'.name = f.name
  params : Name.AllElsewhere R f.params f'.params
  body : Stmt.AllElsewhere R f.body f'.body
  scope : P.scopes.pairs f.scope f'.scope
  isInitializer : f'.isInitializer = f.isInitializer

/-- Twin methods under the same names, in the same order. -/
abbrev Class.TableTwin : Bindings Closure → Bindings Closure → Prop :=
  List.Forall₂ fun p p' => p'.1 = p.1 ∧ p.2.Twin R P p'.2

/-- Classes of one name with twin superclasses and twin methods. -/
inductive Class.Twin : Class → Class → Prop
  | plain {i i' : Nat} {name : String} {t t' : Bindings Closure} (hi : P.made.pairs i i')
      (ht : Class.TableTwin R P t t') : Class.Twin (.mk i name none t) (.mk i' name none t')
  | derived {i i' : Nat} {name : String} {s s' : Class} {t t' : Bindings Closure}
      (hi : P.made.pairs i i') (hs : Class.Twin s s') (ht : Class.TableTwin R P t t') :
      Class.Twin (.mk i name (some s) t) (.mk i' name (some s') t')

/-- Values that are the same up to identities and the places in their code. -/
inductive Value.Twin : Value → Value → Prop
  | plain {v : Value} (h : v.IsPlain) : Value.Twin v v
  | function {f f' : Closure} (h : f.Twin R P f') : Value.Twin (.function f) (.function f')
  | classValue {c c' : Class} (h : c.Twin R P c') : Value.Twin (.classValue c) (.classValue c')
  | object {i i' : Nat} {c c' : Class} (hi : P.objects.pairs i i') (h : c.Twin R P c') :
    Value.Twin (.object i c) (.object i' c')

structure Fault.Twin (f f' : Fault) : Prop where
  place : R f.place f'.place
  cause : f'.value = f.value

/-- Interrupts of one kind with twin values, at related places. -/
inductive Interrupt.Twin : Interrupt → Interrupt → Prop
  | fault {f f' : Fault} (h : f.Twin R f') : Interrupt.Twin (.fault f) (.fault f')
  | breaking {p p' : Place} (hp : R p p') : Interrupt.Twin (.breaking p) (.breaking p')
  | returning {v v' : Value} {p p' : Place} (hv : v.Twin R P v') (hp : R p p') :
    Interrupt.Twin (.returning v p) (.returning v' p')
  | exhausted : Interrupt.Twin .exhausted .exhausted

/-- Related results, or the same fault elsewhere. -/
inductive ResultTwin {α β : Type} (S : α → β → Prop) : Except Fault α → Except Fault β → Prop
  | ok {a : α} {b : β} (h : S a b) : ResultTwin S (.ok a) (.ok b)
  | error {f f' : Fault} (h : f.Twin R f') : ResultTwin S (.error f) (.error f')

end

section
variable {R : Place → Place → Prop} {P Q : Pairs}

section
variable (hPQ : P.Le Q)
include hPQ

theorem Closure.Twin.mono {f f' : Closure} (h : f.Twin R P f') : f.Twin R Q f' :=
  { h with identity := hPQ.made h.identity, scope := hPQ.scopes h.scope }

/-- Tables of methods that are twins stay so with more pairs. -/
theorem Class.TableTwin.mono {t t' : Bindings Closure} (h : Class.TableTwin R P t t') :
    Class.TableTwin R Q t t' := h.imp fun _ _ hf => ⟨hf.1, hf.2.mono hPQ⟩

theorem Class.Twin.mono {c c' : Class} (h : c.Twin R P c') : c.Twin R Q c' := by
  induction h with
  | plain hi ht => exact .plain (hPQ.made hi) (ht.mono hPQ)
  | derived hi _ ht ih => exact .derived (hPQ.made hi) ih (ht.mono hPQ)

theorem Value.Twin.mono {v v' : Value} (h : v.Twin R P v') : v.Twin R Q v' := by
  cases h with
  | plain h => exact .plain h
  | function h => exact .function (h.mono hPQ)
  | classValue h => exact .classValue (h.mono hPQ)
  | object hi h => exact .object (hPQ.objects hi) (h.mono hPQ)

end

/-- Results that are twins stay so with a computation that keeps them so. -/
theorem ResultTwin.bind {α β γ δ : Type} {S : α → β → Prop} {S' : γ → δ → Prop} {r : Except Fault α}
    {r' : Except Fault β} (h : ResultTwin R S r r') {k : α → Except Fault γ}
    {k' : β → Except Fault δ} (hk : ∀ a b, S a b → ResultTwin R S' (k a) (k' b)) :
    ResultTwin R S' (Except.bind r k) (Except.bind r' k') := by
  cases h with
  | ok h => exact hk _ _ h
  | error h => exact .error h

/-- Tables of methods that are twins have twins under each name. -/
theorem Class.TableTwin.find? {t t' : Bindings Closure} (h : Class.TableTwin R P t t')
    (n : String) : Option.Rel (Closure.Twin R P) (Bindings.find? t n) (Bindings.find? t' n) := by
  induction h with
  | nil => exact .none
  | @cons p p' t t' hp _ ih =>
    obtain ⟨k, f⟩ := p
    obtain ⟨_, f'⟩ := p'
    obtain ⟨rfl, hf⟩ := hp
    rw [Bindings.find?_cons, Bindings.find?_cons]
    split
    · exact .some hf
    · exact ih

/-- Twins put into tables that are twins leave them so. -/
theorem Class.TableTwin.insert {t t' : Bindings Closure} (h : Class.TableTwin R P t t')
    (n : String) {f f' : Closure} (hf : f.Twin R P f') :
    Class.TableTwin R P (Bindings.insert n f t) (Bindings.insert n f' t') := by
  induction h with
  | nil => exact .cons ⟨rfl, hf⟩ .nil
  | @cons p p' t t' hp ht ih =>
    obtain ⟨k, g⟩ := p
    obtain ⟨_, g'⟩ := p'
    obtain ⟨rfl, hg⟩ := hp
    rw [Bindings.insert, Bindings.insert]
    split
    · exact .cons ⟨rfl, hf⟩ ht
    · exact .cons ⟨rfl, hg⟩ ih

section
variable {c c' : Class} (h : c.Twin R P c')
include h

theorem Class.Twin.identity : P.made.pairs c.identity c'.identity := by
  cases h <;> assumption

theorem Class.Twin.name : c'.name = c.name := by
  cases h <;> rfl

theorem Class.Twin.method? (n : String) :
    Option.Rel (Closure.Twin R P) (c.method? n) (c'.method? n) := by
  induction h with
  | plain _ ht => exact ht.find? n
  | @derived i i' name s s' t t' _ _ ht ih =>
    have hn := ht.find? n
    simp only [Class.method?]
    generalize Bindings.find? t n = o at hn ⊢
    generalize Bindings.find? t' n = o' at hn ⊢
    cases hn with
    | some hf => exact .some hf
    | none => exact ih

theorem Class.Twin.arity : c'.arity = c.arity := by
  have hm := h.method? "init"
  unfold Class.arity
  generalize c.method? "init" = o at hm ⊢
  generalize c'.method? "init" = o' at hm ⊢
  cases hm with
  | none => rfl
  | some hm => exact hm.params.length_eq.symm

end

section
variable {v v' : Value} (h : v.Twin R P v')
include h

theorem Value.Twin.text : v'.text = v.text := by
  cases h with
  | plain => rfl
  | function h => rw [Value.text, Value.text, h.name]
  | classValue h => rw [Value.text, Value.text, h.name]
  | object _ h => rw [Value.text, Value.text, h.name]

theorem Value.Twin.isTrue : v'.isTrue = v.isTrue := by
  cases h <;> rfl

theorem Value.Twin.arity? : v'.arity? = v.arity? := by
  cases h with
  | plain => rfl
  | function h => exact congrArg some h.params.length_eq.symm
  | classValue h => exact congrArg some h.arity
  | object => rfl

theorem Value.Twin.equal {u u' : Value} (h' : u.Twin R P u') : v'.equal u' = v.equal u := by
  cases h with
  | plain hv =>
    cases h' with
    | plain => rfl
    | _ => cases v <;> first | exact hv.elim | rfl
  | function hf =>
    cases h' with
    | plain hu => cases u <;> first | exact hu.elim | rfl
    | function hg => exact P.made.beq hf.identity hg.identity
    | _ => rfl
  | classValue hc =>
    cases h' with
    | plain hu => cases u <;> first | exact hu.elim | rfl
    | classValue hd => exact P.made.beq hc.identity hd.identity
    | _ => rfl
  | object hi =>
    cases h' with
    | plain hu => cases u <;> first | exact hu.elim | rfl
    | object hj => exact P.objects.beq hi hj
    | _ => rfl

end

end

/-! ## Scopes -/

/-- Paired scopes lie in paired scopes, have one rule on redefinition and bind twin values
under the same names. -/
structure Scopes.Twin (R : Place → Place → Prop) (P : Pairs) (ss ss' : Scopes) : Prop where
  below : P.scopes.Below ss.size ss'.size
  parent : ∀ {id id'}, P.scopes.pairs id id' →
    Option.Rel P.scopes.pairs (ss[id]?.bind Scope.parent) (ss'[id']?.bind Scope.parent)
  allow : ∀ {id id'}, P.scopes.pairs id id' →
    ss'[id']?.map Scope.allowRedefinition = ss[id]?.map Scope.allowRedefinition
  own? : ∀ {id id'}, P.scopes.pairs id id' → ∀ n,
    Option.Rel (Value.Twin R P) (ss.own? id n) (ss'.own? id' n)

/-- `P` with one more pair of scopes. -/
def Pairs.addScope (P : Pairs) {n n' : Nat} (h : P.scopes.Below n n') : Pairs :=
  { P with scopes := P.scopes.add h }

theorem Pairs.le_addScope (P : Pairs) {n n' : Nat} (h : P.scopes.Below n n') :
    P.Le (P.addScope h) := ⟨.inl, id, id⟩

section
variable {R : Place → Place → Prop} {P : Pairs} {ss ss' : Scopes} (h : Scopes.Twin R P ss ss')
include h

/-- Scopes that are twins stay so when a name is bound in a pair. -/
theorem Scopes.Twin.insert {id id' : ScopeId} (hid : P.scopes.pairs id id') (n : String)
    {v v' : Value} (hv : v.Twin R P v') :
    Scopes.Twin R P (ss.insert id n v) (ss'.insert id' n v') where
  below := by
    rw [Scopes.size_insert, Scopes.size_insert]
    exact h.below
  parent hi := by
    rw [Scopes.parent_insert, Scopes.parent_insert]
    exact h.parent hi
  allow hi := by
    rw [Scopes.allow_insert, Scopes.allow_insert]
    exact h.allow hi
  own? {i i'} hi k := by
    rw [Scopes.own?_insert, Scopes.own?_insert]
    by_cases he : i = id ∧ k = n
    · rw [if_pos ⟨he.1, he.2, (h.below hid).1⟩,
        if_pos ⟨(P.scopes.unique hi hid).1 he.1, he.2, (h.below hid).2⟩]
      exact .some hv
    · rw [if_neg fun hc => he ⟨hc.1, hc.2.1⟩,
        if_neg fun hc => he ⟨(P.scopes.unique hi hid).2 hc.1, hc.2.1⟩]
      exact h.own? hi k

theorem Scopes.Twin.child {p p' : ScopeId} (hp : P.scopes.pairs p p') :
    Scopes.Twin R (P.addScope h.below) (ss.child p).1 (ss'.child p').1 := by
  have hle := P.le_addScope h.below
  have old {i i' : ScopeId} (hi : P.scopes.pairs i i') : i ≠ ss.size ∧ i' ≠ ss'.size :=
    ⟨Nat.ne_of_lt (h.below hi).1, Nat.ne_of_lt (h.below hi).2⟩
  refine ⟨?_, fun {i i'} hi => ?_, fun {i i'} hi => ?_, fun {i i'} hi n => ?_⟩
  · rw [Scopes.size_child, Scopes.size_child]
    exact P.scopes.below_add h.below
  · rw [Scopes.parent_child, Scopes.parent_child]
    rcases hi with hi | ⟨rfl, rfl⟩
    · rw [if_neg (old hi).1, if_neg (old hi).2]
      exact rel_imp (h.parent hi) fun _ _ => hle.scopes
    · rw [if_pos rfl, if_pos rfl]
      exact .some (hle.scopes hp)
  · rw [Scopes.allow_child, Scopes.allow_child, h.allow hp]
    rcases hi with hi | ⟨rfl, rfl⟩
    · rw [if_neg (old hi).1, if_neg (old hi).2, h.allow hi]
    · rw [if_pos rfl, if_pos rfl]
  · rw [Scopes.own?_child, Scopes.own?_child]
    rcases hi with hi | ⟨rfl, rfl⟩
    · exact rel_imp (h.own? hi n) fun _ _ => .mono hle
    · rw [Scopes.own?_size, Scopes.own?_size]
      exact .none

/-- The scopes at a distance from a pair are a pair, or there are none. -/
theorem Scopes.Twin.ancestor? {id id' : ScopeId} (hid : P.scopes.pairs id id') (d : Nat) :
    Option.Rel P.scopes.pairs (ss.ancestor? id d) (ss'.ancestor? id' d) := by
  induction d generalizing id id' with
  | zero => exact .some hid
  | succ d ih =>
    have hp := h.parent hid
    rw [Scopes.ancestor?, Scopes.ancestor?]
    generalize ss[id]?.bind Scope.parent = o at hp ⊢
    generalize ss'[id']?.bind Scope.parent = o' at hp ⊢
    cases hp with
    | none => exact .none
    | some hp => exact ih hp

/-- At a distance from a pair twins are found, or faults at paired places. -/
theorem Scopes.Twin.getAt {id id' : ScopeId} (hid : P.scopes.pairs id id') (d : Nat)
    {n n' : Name} (hn : n.Elsewhere R n') :
    ResultTwin R (Value.Twin R P) (ss.getAt id d n) (ss'.getAt id' d n') := by
  have ha := h.ancestor? hid d
  unfold Scopes.getAt
  rw [hn.text]
  generalize ss.ancestor? id d = o at ha ⊢
  generalize ss'.ancestor? id' d = o' at ha ⊢
  cases ha with
  | none => exact .error ⟨hn.place, rfl⟩
  | @some a a' ha =>
    have ho := h.own? ha n.text
    dsimp only
    generalize ss.own? a n.text = o at ho ⊢
    generalize ss'.own? a' n.text = o' at ho ⊢
    cases ho with
    | none => exact .error ⟨hn.place, rfl⟩
    | some hv => exact .ok hv

/-- The scopes that hold a name at a distance from a pair are a pair. -/
theorem Scopes.Twin.holderAt {id id' : ScopeId} (hid : P.scopes.pairs id id') (d : Nat)
    {n n' : Name} (hn : n.Elsewhere R n') :
    ResultTwin R P.scopes.pairs (ss.holderAt id d n) (ss'.holderAt id' d n') := by
  have hg := h.getAt hid d hn
  have ha := h.ancestor? hid d
  unfold Scopes.holderAt
  generalize ss.getAt id d n = r at hg ⊢
  generalize ss'.getAt id' d n' = r' at hg ⊢
  generalize ss.ancestor? id d = o at ha ⊢
  generalize ss'.ancestor? id' d = o' at ha ⊢
  cases hg with
  | error hf => exact .error hf
  | ok _ =>
    cases ha with
    | none => exact .ok hid
    | some ha => exact .ok ha

/-- A name may be defined in one of a pair just if it may in the other. -/
theorem Scopes.Twin.definable {id id' : ScopeId} (hid : P.scopes.pairs id id')
    {n n' : Name} (hn : n.Elsewhere R n') :
    ResultTwin R P.scopes.pairs (ss.definable id n) (ss'.definable id' n') := by
  unfold Scopes.definable
  simp only [hn.text, h.allow hid, isSome_of_rel (h.own? hid n.text)]
  split
  · exact .error ⟨hn.place, rfl⟩
  · exact .ok hid

end

/-! ## The global scope -/

/-- A scope with nothing around it is the only one to hold a name that is looked up in it. -/
theorem Scopes.holder?_root {ss : Scopes} {id : ScopeId} (hid : id < ss.size)
    (hroot : ss[id]?.bind Scope.parent = none) (n : String) :
    ss.holder? id n = if (ss.own? id n).isSome then some id else none := by
  obtain ⟨limit, hl⟩ := Nat.exists_eq_succ_of_ne_zero (Nat.ne_of_gt (Nat.zero_lt_of_lt hid))
  rw [Scopes.holder?, hl, Scopes.holderWithin?, hroot]

section
variable {R : Place → Place → Prop} {P : Pairs} {ss ss' : Scopes} (h : Scopes.Twin R P ss ss')
  {id id' : ScopeId} (hid : P.scopes.pairs id id') (hroot : ss[id]?.bind Scope.parent = none)
include h hid hroot

theorem Scopes.Twin.root : ss'[id']?.bind Scope.parent = none := by
  have hp := h.parent hid
  rw [hroot] at hp
  generalize ss'[id']?.bind Scope.parent = o at hp ⊢
  cases hp
  rfl

theorem Scopes.Twin.holder? (n : String) :
    Option.Rel P.scopes.pairs (ss.holder? id n) (ss'.holder? id' n) := by
  rw [holder?_root (h.below hid).1 hroot, holder?_root (h.below hid).2 (h.root hid hroot),
    isSome_of_rel (h.own? hid n)]
  split
  · exact .some hid
  · exact .none

theorem Scopes.Twin.holder {n n' : Name} (hn : n.Elsewhere R n') :
    ResultTwin R P.scopes.pairs (ss.holder id n) (ss'.holder id' n') := by
  have ho := h.holder? hid hroot n.text
  unfold Scopes.holder
  rw [hn.text]
  generalize ss.holder? id n.text = o at ho ⊢
  generalize ss'.holder? id' n.text = o' at ho ⊢
  cases ho with
  | none => exact .error ⟨hn.place, rfl⟩
  | some ha => exact .ok ha

theorem Scopes.Twin.get {n n' : Name} (hn : n.Elsewhere R n') :
    ResultTwin R (Value.Twin R P) (ss.get id n) (ss'.get id' n') := by
  have ho := h.holder? hid hroot n.text
  unfold Scopes.get
  rw [hn.text]
  generalize ss.holder? id n.text = o at ho ⊢
  generalize ss'.holder? id' n.text = o' at ho ⊢
  cases ho with
  | none => exact .error ⟨hn.place, rfl⟩
  | @some a a' ha =>
    have hv := h.own? ha n.text
    simp only [Option.bind_some]
    generalize ss.own? a n.text = o at hv ⊢
    generalize ss'.own? a' n.text = o' at hv ⊢
    cases hv with
    | none => exact .error ⟨hn.place, rfl⟩
    | some hv => exact .ok hv

end

/-! ## Machines -/

/-- What is known of one machine has its double in the other; they have printed the same and
their clocks agree. -/
structure Machine.Twin (R : Place → Place → Prop) (P : Pairs) (m m' : Machine) : Prop where
  scopes : Scopes.Twin R P m.scopes m'.scopes
  count : P.objects.Below m.objects.size m'.objects.size
  objects : ∀ {i i'}, P.objects.pairs i i' → ∀ n,
    Option.Rel (Value.Twin R P) ((m.fieldsOf i).find? n) ((m'.fieldsOf i').find? n)
  fresh : P.made.Below m.fresh m'.fresh
  globals : P.scopes.pairs m.globals m'.globals
  root : m.scopes[m.globals]?.bind Scope.parent = none
  current : P.scopes.pairs m.current m'.current
  sink : m'.sink = m.sink
  clock : m'.clock = m.clock

section
variable {R : Place → Place → Prop} {P : Pairs} {m m' : Machine} (h : Machine.Twin R P m m')
include h

/-- Machines that are twins stay so when a name is bound in a pair. -/
theorem Machine.Twin.insert {id id' : ScopeId} (hid : P.scopes.pairs id id') (n : String)
    {v v' : Value} (hv : v.Twin R P v') :
    Machine.Twin R P { m with scopes := m.scopes.insert id n v }
      { m' with scopes := m'.scopes.insert id' n v' } :=
  { h with
    scopes := h.scopes.insert hid n hv
    root := (Scopes.parent_insert ..).trans h.root }

theorem Machine.Twin.running {id id' : ScopeId} (hid : P.scopes.pairs id id') :
    Machine.Twin R P { m with current := id } { m' with current := id' } :=
  { h with current := hid }

theorem Machine.Twin.get {n n' : Name} (hn : n.Elsewhere R n') :
    ResultTwin R (Value.Twin R P) (m.scopes.get m.globals n) (m'.scopes.get m'.globals n') :=
  h.scopes.get h.globals h.root hn

/-- The scopes that hold a global name are a pair. -/
theorem Machine.Twin.holder {n n' : Name} (hn : n.Elsewhere R n') :
    ResultTwin R P.scopes.pairs (m.scopes.holder m.globals n) (m'.scopes.holder m'.globals n') :=
  h.scopes.holder h.globals h.root hn

end

end LoxLang
