import LoxLang.Proofs.Padding.Tree
import LoxLang.Proofs.Twins.World

/-!
# Machines with scopes put in

Two machines are compared of which the second has scopes besides that bind nothing. All
other scopes stand for each other, each pair with the gap at which such a scope lies around
the second one; objects, functions and classes are numbered alike. Scopes that stand for
each other bind like values: functions made in such scopes, the code of one led past the gap
of the other. `Scopes.Padded.ancestor?` is the reason why they are found in the same places.
-/

namespace LoxLang

/-! ## Links -/

/-- Which scopes of two machines stand for each other, and the gap around the second one. A
scope that has been put in, at the gap `some 0`, stands for the scope around it. -/
structure Links where
  links : Gap → Nat → Nat → Prop
  unique : ∀ {g h : Gap} {a a' b b'}, g ≠ some 0 → h ≠ some 0 → links g a a' → links h b b' →
    (a = b ↔ a' = b')

namespace Links

/-- All scopes that stand for each other lie below these bounds. -/
def Below (L : Links) (n n' : Nat) : Prop := ∀ ⦃g a a'⦄, L.links g a a' → a < n ∧ a' < n'

/-- Scopes that stand for each other and bind alike. -/
def Doubles (L : Links) (a a' : Nat) : Prop := ∃ g, g ≠ some 0 ∧ L.links g a a'

/-- Scopes that stand for each other keep doing so. -/
def Le (L Q : Links) : Prop := ∀ ⦃g a a'⦄, L.links g a a' → Q.links g a a'

theorem Le.refl (L : Links) : L.Le L := fun _ _ _ h => h

theorem Le.trans {L Q S : Links} (h : L.Le Q) (h' : Q.Le S) : L.Le S := fun _ _ _ hl => h' (h hl)

theorem Le.doubles {L Q : Links} (h : L.Le Q) {a a' : Nat} (ha : L.Doubles a a') :
    Q.Doubles a a' := by
  obtain ⟨g, hg, hl⟩ := ha
  exact ⟨g, hg, h hl⟩

/-- The first scopes of two machines, each for itself. -/
def same (n : Nat) : Links where
  links g a a' := g = none ∧ a' = a ∧ a < n
  unique := by
    rintro g h a a' b b' - - ⟨-, rfl, -⟩ ⟨-, rfl, -⟩
    exact Iff.rfl

/-- The next scope of the second machine stands for the next one of the first, unless it is
one that is put in. -/
def add (L : Links) (g : Gap) (a : Nat) {n n' : Nat} (hb : L.Below n n')
    (ha : g ≠ some 0 → a = n) : Links where
  links h b b' := L.links h b b' ∨ h = g ∧ b = a ∧ b' = n'
  unique := by
    rintro g₁ g₂ a₁ a₁' a₂ a₂' h₁ h₂ (hl₁ | ⟨rfl, rfl, rfl⟩) (hl₂ | ⟨rfl, rfl, rfl⟩)
    · exact L.unique h₁ h₂ hl₁ hl₂
    · have := hb hl₁
      have := ha h₂
      omega
    · have := hb hl₂
      have := ha h₁
      omega
    · exact ⟨fun _ => rfl, fun _ => rfl⟩

theorem le_add (L : Links) (g : Gap) (a : Nat) {n n' : Nat} (hb : L.Below n n')
    (ha : g ≠ some 0 → a = n) : L.Le (L.add g a hb ha) := fun _ _ _ => .inl

end Links

/-! ## Values -/

/-- The same cause. What a name's distance is said to be may count a scope that has been put
in. -/
inductive FaultCause.Padded : FaultCause → FaultCause → Prop
  | same (c : FaultCause) : FaultCause.Padded c c
  | noScope {d d' : Nat} (x : String) (hd : d' = d ∨ d' = d + 1) :
    FaultCause.Padded (.mismatch (.noScope d x)) (.mismatch (.noScope d' x))
  | unbound {d d' : Nat} (x : String) (hd : d' = d ∨ d' = d + 1) :
    FaultCause.Padded (.mismatch (.unbound d x)) (.mismatch (.unbound d' x))

structure Fault.Padded (f f' : Fault) : Prop where
  place : f'.place = f.place
  cause : f.value.Padded f'.value

section
variable (L : Links)

/-- The same function, led past the gap from the scopes that its body is inside of where it
was made. -/
structure Closure.Padded (inside : Nat) (f f' : Closure) : Prop where
  identity : f'.identity = f.identity
  name : f'.name = f.name
  params : f'.params = f.params
  isInitializer : f'.isInitializer = f.isInitializer
  code : ∃ g, L.links g f.scope f'.scope ∧ Stmt.AllPadded (g.under inside) f.body f'.body ∧
    (inside = 1 → f.isInitializer = true → g ≠ some 0)

/-- The same methods under the same names, in the same order. The body of a method is inside
two scopes, one of `this` and one of its own. -/
abbrev Class.TablePadded : Bindings Closure → Bindings Closure → Prop :=
  List.Forall₂ fun p p' => p'.1 = p.1 ∧ p.2.Padded L 2 p'.2

inductive Class.Padded : Class → Class → Prop
  | plain (i : Nat) (name : String) {t t' : Bindings Closure} (ht : Class.TablePadded L t t') :
    Class.Padded (.mk i name none t) (.mk i name none t')
  | derived (i : Nat) (name : String) {s s' : Class} {t t' : Bindings Closure}
      (hs : Class.Padded s s') (ht : Class.TablePadded L t t') :
      Class.Padded (.mk i name (some s) t) (.mk i name (some s') t')

inductive Value.Padded : Value → Value → Prop
  | plain {v : Value} (h : v.IsPlain) : Value.Padded v v
  | function {f f' : Closure} (h : f.Padded L 1 f') : Value.Padded (.function f) (.function f')
  | classValue {c c' : Class} (h : c.Padded L c') : Value.Padded (.classValue c) (.classValue c')
  | object (i : Nat) {c c' : Class} (h : c.Padded L c') :
    Value.Padded (.object i c) (.object i c')

inductive Interrupt.Padded : Interrupt → Interrupt → Prop
  | fault {f f' : Fault} (h : f.Padded f') : Interrupt.Padded (.fault f) (.fault f')
  | breaking (p : Place) : Interrupt.Padded (.breaking p) (.breaking p)
  | returning {v v' : Value} (hv : v.Padded L v') (p : Place) :
    Interrupt.Padded (.returning v p) (.returning v' p)
  | exhausted : Interrupt.Padded .exhausted .exhausted

/-- Related results, or the same fault. -/
inductive ResultPadded {α β : Type} (S : α → β → Prop) : Except Fault α → Except Fault β → Prop
  | ok {a : α} {b : β} (h : S a b) : ResultPadded S (.ok a) (.ok b)
  | error {f f' : Fault} (h : f.Padded f') : ResultPadded S (.error f) (.error f')

end

theorem Fault.padded_refl (f : Fault) : f.Padded f := ⟨rfl, .same _⟩

section
variable {L Q : Links}

section
variable (hLQ : L.Le Q)
include hLQ

theorem Closure.Padded.mono {n : Nat} {f f' : Closure} (h : f.Padded L n f') : f.Padded Q n f' := by
  obtain ⟨g, hl, hcode⟩ := h.code
  exact { h with code := ⟨g, hLQ hl, hcode⟩ }

/-- Tables of methods that are alike stay so under more links. -/
theorem Class.TablePadded.mono {t t' : Bindings Closure} (h : Class.TablePadded L t t') :
    Class.TablePadded Q t t' := h.imp fun _ _ hf => ⟨hf.1, hf.2.mono hLQ⟩

theorem Class.Padded.mono {c c' : Class} (h : c.Padded L c') : c.Padded Q c' := by
  induction h with
  | plain i name ht => exact .plain i name (ht.mono hLQ)
  | derived i name _ ht ih => exact .derived i name ih (ht.mono hLQ)

theorem Value.Padded.mono {v v' : Value} (h : v.Padded L v') : v.Padded Q v' := by
  cases h with
  | plain h => exact .plain h
  | function h => exact .function (h.mono hLQ)
  | classValue h => exact .classValue (h.mono hLQ)
  | object i h => exact .object i (h.mono hLQ)

end

/-- Tables of methods that are alike have alike methods under each name. -/
theorem Class.TablePadded.find? {t t' : Bindings Closure} (h : Class.TablePadded L t t')
    (n : String) : Option.Rel (Closure.Padded L 2) (Bindings.find? t n) (Bindings.find? t' n) := by
  induction h with
  | nil => exact .none
  | @cons p p' t t' hp _ ih =>
    obtain ⟨k, f⟩ := p
    obtain ⟨_, f'⟩ := p'
    obtain ⟨rfl, hf⟩ := hp
    rw [Bindings.find?_cons, Bindings.find?_cons]
    split
    · exact .some hf
    · exact ih

/-- Alike methods put into alike tables leave them alike. -/
theorem Class.TablePadded.insert {t t' : Bindings Closure} (h : Class.TablePadded L t t')
    (n : String) {f f' : Closure} (hf : f.Padded L 2 f') :
    Class.TablePadded L (Bindings.insert n f t) (Bindings.insert n f' t') := by
  induction h with
  | nil => exact .cons ⟨rfl, hf⟩ .nil
  | @cons p p' t t' hp ht ih =>
    obtain ⟨k, g⟩ := p
    obtain ⟨_, g'⟩ := p'
    obtain ⟨rfl, hg⟩ := hp
    rw [Bindings.insert, Bindings.insert]
    split
    · exact .cons ⟨rfl, hf⟩ ht
    · exact .cons ⟨rfl, hg⟩ ih

section
variable {c c' : Class} (h : c.Padded L c')
include h

theorem Class.Padded.identity : c'.identity = c.identity := by
  cases h <;> rfl

theorem Class.Padded.name : c'.name = c.name := by
  cases h <;> rfl

theorem Class.Padded.method? (n : String) :
    Option.Rel (Closure.Padded L 2) (c.method? n) (c'.method? n) := by
  induction h with
  | plain _ _ ht => exact ht.find? n
  | @derived i name s s' t t' _ ht ih =>
    have hn := ht.find? n
    simp only [Class.method?]
    generalize Bindings.find? t n = o at hn ⊢
    generalize Bindings.find? t' n = o' at hn ⊢
    cases hn with
    | some hf => exact .some hf
    | none => exact ih

theorem Class.Padded.arity : c'.arity = c.arity := by
  have hm := h.method? "init"
  unfold Class.arity
  generalize c.method? "init" = o at hm ⊢
  generalize c'.method? "init" = o' at hm ⊢
  cases hm with
  | none => rfl
  | some hm => exact congrArg List.length hm.params

end

section
variable {v v' : Value} (h : v.Padded L v')
include h

theorem Value.Padded.text : v'.text = v.text := by
  cases h with
  | plain => rfl
  | function h => rw [Value.text, Value.text, h.name]
  | classValue h => rw [Value.text, Value.text, h.name]
  | object _ h => rw [Value.text, Value.text, h.name]

theorem Value.Padded.isTrue : v'.isTrue = v.isTrue := by
  cases h <;> rfl

theorem Value.Padded.arity? : v'.arity? = v.arity? := by
  cases h with
  | plain => rfl
  | function h => exact congrArg (fun ps => some (List.length ps)) h.params
  | classValue h => exact congrArg some h.arity
  | object => rfl

theorem Value.Padded.equal {u u' : Value} (h' : u.Padded L u') : v'.equal u' = v.equal u := by
  cases h with
  | plain hv =>
    cases h' with
    | plain => rfl
    | _ => cases v <;> first | exact hv.elim | rfl
  | function hf =>
    cases h' with
    | plain hu => cases u <;> first | exact hu.elim | rfl
    | function hg => rw [Value.equal, Value.equal, hf.identity, hg.identity]
    | _ => rfl
  | classValue hc =>
    cases h' with
    | plain hu => cases u <;> first | exact hu.elim | rfl
    | classValue hd => rw [Value.equal, Value.equal, hc.identity, hd.identity]
    | _ => rfl
  | object i hc =>
    cases h' with
    | plain hu => cases u <;> first | exact hu.elim | rfl
    | _ => rfl

end

end

/-! ## Scopes -/

/-- Scopes that stand for each other lie in scopes that do and have one rule on
redefinition; unless one of them has been put in, they bind like values under the same
names. As long as no scope has been put in, each scope stands for itself. -/
structure Scopes.Padded (L : Links) (ss ss' : Scopes) : Prop where
  below : L.Below ss.size ss'.size
  grows : ss.size ≤ ss'.size
  even : ss'.size = ss.size → ∀ {g a a'}, L.links g a a' ↔ g = none ∧ a' = a ∧ a < ss.size
  allow : ∀ {g a a'}, L.links g a a' →
    ss'[a']?.map Scope.allowRedefinition = ss[a]?.map Scope.allowRedefinition
  pad : ∀ {a a'}, L.links (some 0) a a' →
    ∃ b', ss'[a']?.bind Scope.parent = some b' ∧ L.links none a b'
  parent : ∀ {g : Gap} {a a'}, g ≠ some 0 → L.links g a a' →
    Option.Rel (L.links g.outer) (ss[a]?.bind Scope.parent) (ss'[a']?.bind Scope.parent)
  own? : ∀ {a a'}, L.Doubles a a' → ∀ n, Option.Rel (Value.Padded L) (ss.own? a n) (ss'.own? a' n)

section
variable {L : Links} {ss ss' : Scopes} (h : Scopes.Padded L ss ss')
include h

/-- Scopes that are doubles stay so when a name is bound in both. -/
theorem Scopes.Padded.insert {a a' : ScopeId} (ha : L.Doubles a a') (n : String) {v v' : Value}
    (hv : v.Padded L v') : Scopes.Padded L (ss.insert a n v) (ss'.insert a' n v') where
  below := by
    rw [Scopes.size_insert, Scopes.size_insert]
    exact h.below
  grows := by
    rw [Scopes.size_insert, Scopes.size_insert]
    exact h.grows
  even := by
    rw [Scopes.size_insert, Scopes.size_insert]
    exact h.even
  allow hl := by
    rw [Scopes.allow_insert, Scopes.allow_insert]
    exact h.allow hl
  pad hl := by
    rw [Scopes.parent_insert]
    exact h.pad hl
  parent hg hl := by
    rw [Scopes.parent_insert, Scopes.parent_insert]
    exact h.parent hg hl
  own? {b b'} hb k := by
    obtain ⟨g, hg, hl⟩ := ha
    obtain ⟨g', hg', hl'⟩ := hb
    have heq := L.unique hg' hg hl' hl
    rw [Scopes.own?_insert, Scopes.own?_insert]
    by_cases he : b = a ∧ k = n
    · rw [if_pos ⟨he.1, he.2, (h.below hl).1⟩, if_pos ⟨heq.1 he.1, he.2, (h.below hl).2⟩]
      exact .some hv
    · rw [if_neg fun hc => he ⟨hc.1, hc.2.1⟩, if_neg fun hc => he ⟨heq.2 hc.1, hc.2.1⟩]
      exact h.own? ⟨g', hg', hl'⟩ k

/-- Both machines open a scope. -/
theorem Scopes.Padded.child {g : Gap} {p p' : ScopeId} (hp : L.links g p p') :
    Scopes.Padded (L.add (g.under 1) ss.size h.below fun _ => rfl) (ss.child p).1
      (ss'.child p').1 := by
  have hle := L.le_add (g.under 1) ss.size h.below fun _ => rfl
  have old {i : Gap} {a a' : ScopeId} (hl : L.links i a a') : a ≠ ss.size ∧ a' ≠ ss'.size :=
    ⟨Nat.ne_of_lt (h.below hl).1, Nat.ne_of_lt (h.below hl).2⟩
  refine ⟨?_, ?_, fun hs {i a a'} => ?_, fun {i a a'} hl => ?_, fun {a a'} hl => ?_,
    fun {i a a'} hi hl => ?_, fun {a a'} ha n => ?_⟩
  · rw [Scopes.size_child, Scopes.size_child]
    rintro i a a' (hl | ⟨-, rfl, rfl⟩)
    · have := h.below hl
      omega
    · omega
  · rw [Scopes.size_child, Scopes.size_child]
    have := h.grows
    omega
  · -- the parent has no gap around it, nor has its child
    rw [Scopes.size_child, Scopes.size_child, Nat.add_right_cancel_iff] at hs
    obtain ⟨rfl, -, -⟩ := (h.even hs).1 hp
    rw [Scopes.size_child]
    constructor
    · rintro (hl | ⟨rfl, rfl, rfl⟩)
      · obtain ⟨hi, ha, hlt⟩ := (h.even hs).1 hl
        exact ⟨hi, ha, Nat.lt_succ_of_lt hlt⟩
      · exact ⟨rfl, hs, Nat.lt_succ_self _⟩
    · rintro ⟨rfl, rfl, ha⟩
      rcases Nat.lt_succ_iff_lt_or_eq.1 ha with ha | rfl
      · exact .inl ((h.even hs).2 ⟨rfl, rfl, ha⟩)
      · exact .inr ⟨rfl, rfl, hs.symm⟩
  · rw [Scopes.allow_child, Scopes.allow_child, h.allow hp]
    rcases hl with hl | ⟨-, rfl, rfl⟩
    · rw [if_neg (old hl).1, if_neg (old hl).2, h.allow hl]
    · rw [if_pos rfl, if_pos rfl]
  · rcases hl with hl | ⟨hi, -, -⟩
    · obtain ⟨b', hb, hl'⟩ := h.pad hl
      rw [Scopes.parent_child, if_neg (old hl).2]
      exact ⟨b', hb, hle hl'⟩
    · exact absurd hi.symm (g.under_ne 0)
  · rw [Scopes.parent_child, Scopes.parent_child]
    rcases hl with hl | ⟨rfl, rfl, rfl⟩
    · rw [if_neg (old hl).1, if_neg (old hl).2]
      exact rel_imp (h.parent hi hl) fun _ _ hl => hle hl
    · rw [if_pos rfl, if_pos rfl, Gap.outer_under]
      exact .some (hle hp)
  · rw [Scopes.own?_child, Scopes.own?_child]
    obtain ⟨i, hi, hl | ⟨-, rfl, rfl⟩⟩ := ha
    · exact rel_imp (h.own? ⟨i, hi, hl⟩ n) fun _ _ => .mono hle
    · rw [Scopes.own?_size, Scopes.own?_size]
      exact .none

/-- The second machine opens a scope that the first one does not. -/
theorem Scopes.Padded.putIn {p p' : ScopeId} (hp : L.links none p p') :
    Scopes.Padded (L.add (some 0) p h.below fun hg => absurd rfl hg) ss (ss'.child p').1 := by
  have hle := L.le_add (some 0) p h.below fun hg => absurd rfl hg
  have old {i : Gap} {a a' : ScopeId} (hl : L.links i a a') : a' ≠ ss'.size :=
    Nat.ne_of_lt (h.below hl).2
  have hgrows := h.grows
  refine ⟨?_, ?_, fun hs => ?_, fun {i a a'} hl => ?_, fun {a a'} hl => ?_,
    fun {i a a'} hi hl => ?_, fun {a a'} ha n => ?_⟩
  · rw [Scopes.size_child]
    rintro i a a' (hl | ⟨-, rfl, rfl⟩)
    · have := h.below hl
      omega
    · have := h.below hp
      omega
  · rw [Scopes.size_child]
    omega
  · rw [Scopes.size_child] at hs
    omega
  · rw [Scopes.allow_child]
    rcases hl with hl | ⟨-, rfl, rfl⟩
    · rw [if_neg (old hl), h.allow hl]
    · rw [if_pos rfl, h.allow hp, Array.getElem?_eq_getElem (h.below hp).1]
      rfl
  · rw [Scopes.parent_child]
    rcases hl with hl | ⟨-, rfl, rfl⟩
    · obtain ⟨b', hb, hl'⟩ := h.pad hl
      rw [if_neg (old hl)]
      exact ⟨b', hb, hle hl'⟩
    · rw [if_pos rfl]
      exact ⟨p', rfl, hle hp⟩
  · rw [Scopes.parent_child]
    rcases hl with hl | ⟨rfl, -, -⟩
    · rw [if_neg (old hl)]
      exact rel_imp (h.parent hi hl) fun _ _ hl => hle hl
    · exact absurd rfl hi
  · rw [Scopes.own?_child]
    obtain ⟨i, hi, hl | ⟨rfl, -, -⟩⟩ := ha
    · exact rel_imp (h.own? ⟨i, hi, hl⟩ n) fun _ _ => .mono hle
    · exact absurd rfl hi

/-- So many scopes out from scopes without a gap are scopes that bind alike. -/
theorem Scopes.Padded.ancestor?_none {a a' : ScopeId} (ha : L.links none a a') (d : Nat) :
    Option.Rel L.Doubles (ss.ancestor? a d) (ss'.ancestor? a' d) := by
  induction d generalizing a a' with
  | zero => exact .some ⟨none, Gap.none_ne, ha⟩
  | succ d ih =>
    have hp := h.parent (g := none) Gap.none_ne ha
    rw [Scopes.ancestor?, Scopes.ancestor?]
    generalize ss[a]?.bind Scope.parent = o at hp ⊢
    generalize ss'[a']?.bind Scope.parent = o' at hp ⊢
    cases hp with
    | none => exact .none
    | some hp => exact ih hp

theorem Scopes.Padded.ancestor?_here {a a' : ScopeId} (ha : L.links (some 0) a a') (d : Nat) :
    Option.Rel L.Doubles (ss.ancestor? a d) (ss'.ancestor? a' (d + 1)) := by
  obtain ⟨b', hb, hl⟩ := h.pad ha
  have hstep : ss'.ancestor? a' (d + 1) = ss'.ancestor? b' d := by
    rw [Scopes.ancestor?, hb, Option.bind_some]
  rw [hstep]
  exact h.ancestor?_none hl d

/-- Depths that lead past the gap lead to scopes that bind alike. -/
theorem Scopes.Padded.ancestor? {g : Gap} {a a' : ScopeId} (ha : L.links g a a') (d : Nat) :
    Option.Rel L.Doubles (ss.ancestor? a d) (ss'.ancestor? a' (g.shift d)) := by
  induction d generalizing g a a' with
  | zero =>
    match g, ha with
    | none, ha => exact .some ⟨none, Gap.none_ne, ha⟩
    | some 0, ha => exact h.ancestor?_here ha 0
    | some (k + 1), ha =>
      have hs : Gap.shift (some (k + 1)) 0 = 0 := Gap.shift_under_zero (some k)
      rw [hs]
      exact .some ⟨_, by simp, ha⟩
  | succ d ih =>
    match g, ha with
    | none, ha => exact h.ancestor?_none ha (d + 1)
    | some 0, ha => exact h.ancestor?_here ha (d + 1)
    | some (k + 1), ha =>
      have hs : Gap.shift (some (k + 1)) (d + 1) = Gap.shift (some k) d + 1 :=
        Gap.shift_under_succ (some k) d
      have hp := h.parent (by simp) ha
      rw [hs, Scopes.ancestor?, Scopes.ancestor?]
      generalize ss[a]?.bind Scope.parent = o at hp ⊢
      generalize ss'[a']?.bind Scope.parent = o' at hp ⊢
      cases hp with
      | none => exact .none
      | some hp => exact ih hp

/-- A name is found on both sides when the distance is shifted by the gap. -/
theorem Scopes.Padded.getAt {g : Gap} {a a' : ScopeId} (ha : L.links g a a') (d : Nat) (n : Name) :
    ResultPadded (Value.Padded L) (ss.getAt a d n) (ss'.getAt a' (g.shift d) n) := by
  have ho := h.ancestor? ha d
  unfold Scopes.getAt
  generalize ss.ancestor? a d = o at ho ⊢
  generalize ss'.ancestor? a' (g.shift d) = o' at ho ⊢
  cases ho with
  | none => exact .error ⟨rfl, .noScope _ (g.shift_or d)⟩
  | @some b b' hb =>
    have ho := h.own? hb n.text
    dsimp only
    generalize ss.own? b n.text = o at ho ⊢
    generalize ss'.own? b' n.text = o' at ho ⊢
    cases ho with
    | none => exact .error ⟨rfl, .unbound _ (g.shift_or d)⟩
    | some hv => exact .ok hv

/-- The scope at a distance on one side is the double of the one at the shifted distance. -/
theorem Scopes.Padded.holderAt {g : Gap} {a a' : ScopeId} (ha : L.links g a a') (d : Nat)
    (n : Name) :
    ResultPadded L.Doubles (ss.holderAt a d n) (ss'.holderAt a' (g.shift d) n) := by
  have ho := h.ancestor? ha d
  unfold Scopes.holderAt Scopes.getAt
  generalize ss.ancestor? a d = o at ho ⊢
  generalize ss'.ancestor? a' (g.shift d) = o' at ho ⊢
  cases ho with
  | none => exact .error ⟨rfl, .noScope _ (g.shift_or d)⟩
  | @some b b' hb =>
    have ho := h.own? hb n.text
    dsimp only
    generalize ss.own? b n.text = o at ho ⊢
    generalize ss'.own? b' n.text = o' at ho ⊢
    cases ho with
    | none => exact .error ⟨rfl, .unbound _ (g.shift_or d)⟩
    | some _ => exact .ok hb

/-- A name may be defined on one side just if it may on the other. -/
theorem Scopes.Padded.definable {g : Gap} (hg : g ≠ some 0) {a a' : ScopeId}
    (ha : L.links g a a') (n : Name) :
    ResultPadded L.Doubles (ss.definable a n) (ss'.definable a' n) := by
  unfold Scopes.definable
  simp only [h.allow ha, isSome_of_rel (h.own? ⟨g, hg, ha⟩ n.text)]
  split
  · exact .error (Fault.padded_refl _)
  · exact .ok ⟨g, hg, ha⟩

end

/-! ## The global scope -/

section
variable {L : Links} {ss ss' : Scopes} (h : Scopes.Padded L ss ss') {a a' : ScopeId}
  (ha : L.links none a a') (hroot : ss[a]?.bind Scope.parent = none)
include h ha hroot

theorem Scopes.Padded.root : ss'[a']?.bind Scope.parent = none := by
  have hp := h.parent (g := none) Gap.none_ne ha
  rw [hroot] at hp
  generalize ss'[a']?.bind Scope.parent = o at hp ⊢
  cases hp
  rfl

theorem Scopes.Padded.holder? (n : String) :
    Option.Rel L.Doubles (ss.holder? a n) (ss'.holder? a' n) := by
  rw [holder?_root (h.below ha).1 hroot, holder?_root (h.below ha).2 (h.root ha hroot),
    isSome_of_rel (h.own? ⟨none, Gap.none_ne, ha⟩ n)]
  split
  · exact .some ⟨none, Gap.none_ne, ha⟩
  · exact .none

theorem Scopes.Padded.holder (n : Name) :
    ResultPadded L.Doubles (ss.holder a n) (ss'.holder a' n) := by
  have ho := h.holder? ha hroot n.text
  unfold Scopes.holder
  generalize ss.holder? a n.text = o at ho ⊢
  generalize ss'.holder? a' n.text = o' at ho ⊢
  cases ho with
  | none => exact .error (Fault.padded_refl _)
  | some ha => exact .ok ha

theorem Scopes.Padded.get (n : Name) :
    ResultPadded (Value.Padded L) (ss.get a n) (ss'.get a' n) := by
  have ho := h.holder? ha hroot n.text
  unfold Scopes.get
  generalize ss.holder? a n.text = o at ho ⊢
  generalize ss'.holder? a' n.text = o' at ho ⊢
  cases ho with
  | none => exact .error (Fault.padded_refl _)
  | @some b b' hb =>
    have hv := h.own? hb n.text
    simp only [Option.bind_some]
    generalize ss.own? b n.text = o at hv ⊢
    generalize ss'.own? b' n.text = o' at hv ⊢
    cases hv with
    | none => exact .error (Fault.padded_refl _)
    | some hv => exact .ok hv

end

/-! ## Machines -/

/-- The second machine has scopes besides, around its current scope one at the gap `g`. Both
have printed the same and made as many objects, functions and classes, and their clocks
agree. -/
structure Machine.Padded (L : Links) (g : Gap) (m m' : Machine) : Prop where
  scopes : Scopes.Padded L m.scopes m'.scopes
  count : m'.objects.size = m.objects.size
  objects : ∀ i n,
    Option.Rel (Value.Padded L) ((m.fieldsOf i).find? n) ((m'.fieldsOf i).find? n)
  fresh : m'.fresh = m.fresh
  globals : L.links none m.globals m'.globals
  root : m.scopes[m.globals]?.bind Scope.parent = none
  current : L.links g m.current m'.current
  sink : m'.sink = m.sink
  clock : m'.clock = m.clock

section
variable {L : Links} {g : Gap} {m m' : Machine} (h : Machine.Padded L g m m')
include h

/-- Machines that are alike stay so when a name is bound in doubles. -/
theorem Machine.Padded.insert {a a' : ScopeId} (ha : L.Doubles a a') (n : String) {v v' : Value}
    (hv : v.Padded L v') :
    Machine.Padded L g { m with scopes := m.scopes.insert a n v }
      { m' with scopes := m'.scopes.insert a' n v' } :=
  { h with
    scopes := h.scopes.insert ha n hv
    root := (Scopes.parent_insert ..).trans h.root }

theorem Machine.Padded.running {i : Gap} {a a' : ScopeId} (ha : L.links i a a') :
    Machine.Padded L i { m with current := a } { m' with current := a' } :=
  { h with current := ha }

theorem Machine.Padded.get (n : Name) :
    ResultPadded (Value.Padded L) (m.scopes.get m.globals n) (m'.scopes.get m'.globals n) :=
  h.scopes.get h.globals h.root n

theorem Machine.Padded.holder (n : Name) :
    ResultPadded L.Doubles (m.scopes.holder m.globals n) (m'.scopes.holder m'.globals n) :=
  h.scopes.holder h.globals h.root n

end

end LoxLang
