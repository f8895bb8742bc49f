import LoxLang.Machine.Eval
import LoxLang.Proofs.Renaming.Simulation
import LoxLang.Proofs.Twins.World

/-!
# Steps of twins

`TwinStep R P post` relates two steps: from machines that are twins by the pairs `P` both
come to twins by pairs that keep those of `P`, and to values related by `post` or to twin
interrupts. The laws follow the ways in which steps are put together; then come the steps
that a run is made of.
-/

namespace LoxLang

open Run

section
variable {α β γ δ : Type}

/-- What the ends of two steps have in common that started with the pairs `P`. -/
inductive EndTwin (R : Place → Place → Prop) (P : Pairs) (post : Pairs → α → β → Prop) :
    EStateM.Result Interrupt Machine α → EStateM.Result Interrupt Machine β → Prop
  | ok {a : α} {b : β} {m m' : Machine} {Q : Pairs} (le : P.Le Q) (hm : Machine.Twin R Q m m')
      (h : post Q a b) : EndTwin R P post (.ok a m) (.ok b m')
  | error {i i' : Interrupt} {m m' : Machine} {Q : Pairs} (le : P.Le Q)
      (hm : Machine.Twin R Q m m') (h : i.Twin R Q i') :
      EndTwin R P post (.error i m) (.error i' m')

/-- The steps keep machines twins. -/
def TwinStep (R : Place → Place → Prop) (P : Pairs) (post : Pairs → α → β → Prop) (step : Run α)
    (step' : Run β) : Prop :=
  ∀ m m', Machine.Twin R P m m' → EndTwin R P post (step m) (step' m')

/-- Nothing is asked of the values. -/
abbrev anyValues : Pairs → α → β → Prop := fun _ _ _ => True

variable {R : Place → Place → Prop} {P Q : Pairs} {post mid : Pairs → α → β → Prop}
  {post' : Pairs → γ → δ → Prop} {step : Run α} {step' : Run β}

/-! ## Laws -/

theorem EndTwin.before (hPQ : P.Le Q) {r : EStateM.Result Interrupt Machine α}
    {r' : EStateM.Result Interrupt Machine β} (h : EndTwin R Q post r r') :
    EndTwin R P post r r' := by
  cases h with
  | ok le hm h => exact .ok (hPQ.trans le) hm h
  | error le hm h => exact .error (hPQ.trans le) hm h

namespace TwinStep

theorem pure {a : α} {b : β} (h : post P a b) : TwinStep R P post (pure a) (pure b) :=
  fun _ _ hm => .ok (.refl P) hm h

theorem throw {i i' : Interrupt} (h : i.Twin R P i') :
    TwinStep R P post (throw i : Run α) (throw i' : Run β) :=
  fun _ _ hm => .error (.refl P) hm h

theorem fail {p p' : Place} (hp : R p p') (cause : FaultCause) :
    TwinStep R P post (Run.fail p cause) (Run.fail p' cause) := throw (.fault ⟨hp, rfl⟩)

/-- Two steps are twins if those behind them are, under whatever pairs they end with. -/
theorem bind {k : α → Run γ} {k' : β → Run δ} (h : TwinStep R P mid step step')
    (hk : ∀ Q a b, P.Le Q → mid Q a b → TwinStep R Q post' (k a) (k' b)) :
    TwinStep R P post' (step >>= k) (step' >>= k') := by
  intro m m' hm
  have hs := h m m' hm
  show EndTwin R P post' (EStateM.bind step k m) (EStateM.bind step' k' m')
  unfold EStateM.bind
  generalize step m = r at hs ⊢
  generalize step' m' = r' at hs ⊢
  cases hs with
  | ok le hn hmid => exact (hk _ _ _ le hmid _ _ hn).before le
  | error le hn hi => exact .error le hn hi

theorem discard (h : TwinStep R P mid step step') :
    TwinStep R P anyValues (discard step) (discard step') :=
  h.bind fun _ _ _ _ _ => .pure trivial

/-- Steps in other scopes are back in the scopes that they came from. -/
theorem within {id id' : ScopeId} (hid : P.scopes.pairs id id') (h : TwinStep R P post step step') :
    TwinStep R P post (within id step) (within id' step') := by
  intro m m' hm
  have hs := h _ _ (hm.running hid)
  unfold Run.within
  dsimp only
  generalize step { m with current := id } = r at hs ⊢
  generalize step' { m' with current := id' } = r' at hs ⊢
  cases hs with
  | ok le hn h => exact .ok le (hn.running (le.scopes hm.current)) h
  | error le hn hi => exact .error le (hn.running (le.scopes hm.current)) hi

/-- The bodies of two functions give twin values. -/
theorem catching {mid : Pairs → Unit → Unit → Prop} {step step' : Run Unit}
    (h : TwinStep R P mid step step') :
    TwinStep R P (Value.Twin R) (catching step) (catching step') := by
  intro m m' hm
  have hs := h m m' hm
  unfold Run.catching
  generalize step m = r at hs ⊢
  generalize step' m' = r' at hs ⊢
  cases hs with
  | ok le hn _ => exact .ok le hn (.plain trivial)
  | error le hn hi =>
    cases hi with
    | fault hf => exact .error le hn (.fault hf)
    | breaking hp => exact .error le hn (.fault ⟨hp, rfl⟩)
    | returning hv _ => exact .ok le hn hv
    | exhausted => exact .error le hn .exhausted

/-! ## Steps on a machine -/

/-- A look at machines that are twins gives results that are. -/
theorem check {look : Machine → Except Fault α} {look' : Machine → Except Fault β}
    (h : ∀ m m', Machine.Twin R P m m' → ResultTwin R (post P) (look m) (look' m')) :
    TwinStep R P post (check look) (check look') := by
  intro m m' hm
  have hl := h m m' hm
  unfold Run.check
  generalize look m = r at hl ⊢
  generalize look' m' = r' at hl ⊢
  cases hl with
  | ok h => exact .ok (.refl P) hm h
  | error hf => exact .error (.refl P) hm (.fault hf)

theorem lift {r : Except Fault α} {r' : Except Fault β} (h : ResultTwin R (post P) r r') :
    TwinStep R P post (lift r) (lift r') := .check fun _ _ _ => h

/-- A name gets twin values in paired scopes. -/
theorem store {choose choose' : Machine → Except Fault ScopeId} (n : String)
    {v v' : Value} (hv : v.Twin R P v')
    (h : ∀ m m', Machine.Twin R P m m' → ResultTwin R P.scopes.pairs (choose m) (choose' m')) :
    TwinStep R P anyValues (store choose n v) (store choose' n v') := by
  intro m m' hm
  have hc := h m m' hm
  unfold Run.store
  generalize choose m = r at hc ⊢
  generalize choose' m' = r' at hc ⊢
  cases hc with
  | ok hid => exact .ok (.refl P) (hm.insert hid n hv) trivial
  | error hf => exact .error (.refl P) hm (.fault hf)

theorem get : TwinStep R P (Machine.Twin R) get get := fun _ _ hm => .ok (.refl P) hm hm

theorem newIdentity : TwinStep R P (fun Q => Q.made.pairs) newIdentity newIdentity := by
  intro m m' hm
  have le : P.Le { P with made := P.made.add hm.fresh } := ⟨id, id, .inl⟩
  refine .ok le ?_ (.inr ⟨rfl, rfl⟩)
  have old (id id' : ScopeId) (n : String) (h : P.scopes.pairs id id') :=
    rel_imp (hm.scopes.own? h n) fun _ _ => Value.Twin.mono le
  exact { hm with
    scopes := { hm.scopes with own? := fun h n => old _ _ n h }
    objects := fun hi n => rel_imp (hm.objects hi n) fun _ _ => .mono le
    fresh := P.made.below_add hm.fresh }

theorem newScope {id id' : ScopeId} (hid : P.scopes.pairs id id') :
    TwinStep R P (fun Q => Q.scopes.pairs) (newScope id) (newScope id') := by
  intro m m' hm
  have le := P.le_addScope hm.scopes.below
  have hroot : (m.scopes.child id).1[m.globals]?.bind Scope.parent = none := by
    rw [Scopes.parent_child, if_neg (Nat.ne_of_lt (hm.scopes.below hm.globals).1), hm.root]
  refine .ok le ?_ (.inr ⟨rfl, rfl⟩)
  exact { hm with
    scopes := hm.scopes.child hid
    objects := fun hi n => rel_imp (hm.objects hi n) fun _ _ => .mono le
    globals := le.scopes hm.globals
    root := hroot
    current := le.scopes hm.current }

theorem bindIn {id id' : ScopeId} (hid : P.scopes.pairs id id') (n : String) {v v' : Value}
    (hv : v.Twin R P v') : TwinStep R P anyValues (bindIn id n v) (bindIn id' n v') :=
  fun _ _ hm => .ok (.refl P) (hm.insert hid n hv) trivial

theorem newObject {c c' : Class} (hc : c.Twin R P c') :
    TwinStep R P (Value.Twin R) (newObject c) (newObject c') := by
  intro m m' hm
  have le : P.Le { P with objects := P.objects.add hm.count } := ⟨id, .inl, id⟩
  have old (id id' : ScopeId) (n : String) (h : P.scopes.pairs id id') :=
    rel_imp (hm.scopes.own? h n) fun _ _ => Value.Twin.mono le
  refine .ok le { hm with
    scopes := { hm.scopes with own? := fun h n => old _ _ n h }
    count := ?_
    objects := fun {i i'} hi n => ?_ } (.object (.inr ⟨rfl, rfl⟩) (hc.mono le))
  · rw [Array.size_push, Array.size_push]
    exact P.objects.below_add hm.count
  · simp only [Machine.fieldsOf, Array.getElem?_push]
    rcases hi with hi | ⟨rfl, rfl⟩
    · rw [if_neg (Nat.ne_of_lt (hm.count hi).1), if_neg (Nat.ne_of_lt (hm.count hi).2)]
      exact rel_imp (hm.objects hi n) fun _ _ => .mono le
    · rw [if_pos rfl, if_pos rfl]
      exact .none

theorem setField {i i' : Nat} (hi : P.objects.pairs i i') (n : String) {v v' : Value}
    (hv : v.Twin R P v') : TwinStep R P anyValues (setField i n v) (setField i' n v') := by
  intro m m' hm
  refine .ok (.refl P) { hm with count := ?_, objects := fun {j j'} hj k => ?_ } trivial
  · rw [Array.size_modify, Array.size_modify]
    exact hm.count
  · simp only [Machine.fieldsOf]
    rw [find?_modify, find?_modify]
    by_cases he : j = i ∧ k = n
    · rw [if_pos ⟨he.1, he.2, (hm.count hi).1⟩,
        if_pos ⟨(P.objects.unique hj hi).1 he.1, he.2, (hm.count hi).2⟩]
      exact .some hv
    · rw [if_neg fun hc => he ⟨hc.1, hc.2.1⟩,
        if_neg fun hc => he ⟨(P.objects.unique hj hi).2 hc.1, hc.2.1⟩]
      exact hm.objects hj k

theorem print (text : String) {p p' : Place} (hp : R p p') :
    TwinStep R P anyValues (print text p) (print text p') := by
  intro m m' hm
  have hnext (s : Sink) : Machine.Twin R P { m with sink := s } { m' with sink := s } :=
    { hm with sink := rfl }
  unfold Run.print
  rw [hm.sink]
  dsimp only
  cases (m.sink.put text).2 with
  | none => exact .ok (.refl P) (hnext _) trivial
  | some problem => exact .error (.refl P) (hnext _) (.fault ⟨hp, rfl⟩)

theorem readClock : TwinStep R P (Value.Twin R) readClock readClock := by
  intro m m' hm
  unfold Run.readClock
  rw [hm.clock]
  exact .ok (.refl P) { hm with clock := rfl } (.plain trivial)

end TwinStep

end

/-! ## Operators -/

section
variable {R : Place → Place → Prop} {P : Pairs}

theorem Value.Twin.number {v v' : Value} (h : v.Twin R P v') {p p' : Place} (hp : R p p') :
    ResultTwin R (· = ·) (Operand.number ⟨p, v⟩) (Operand.number ⟨p', v'⟩) := by
  have ht := h.text
  cases h with
  | plain _ =>
    cases v with
    | number x => exact .ok rfl
    | _ => exact .error ⟨hp, rfl⟩
  | function | classValue | object => exact .error ⟨hp, congrArg FaultCause.notNumber ht⟩

/-- An operator gives results that are twins for operands that are. -/
theorem Value.Twin.unary {v v' : Value} (h : v.Twin R P v') (op : UnaryOp) {p p' : Place}
    (hp : R p p') :
    ResultTwin R (Value.Twin R P) (op.apply ⟨p, v⟩) (op.apply ⟨p', v'⟩) := by
  cases op with
  | not =>
    rw [UnaryOp.apply, UnaryOp.apply, h.isTrue]
    exact .ok (.plain trivial)
  | negate =>
    refine (h.number hp).bind fun x y he => ?_
    subst he
    exact .ok (.plain trivial)

theorem Value.Twin.decidedBy {v v' : Value} (h : v.Twin R P v') (op : BinaryOp) :
    op.decidedBy v' = op.decidedBy v := by
  cases op <;> simp only [BinaryOp.decidedBy, h.isTrue]

/-- Operands that are twins are numbers with the same values. -/
theorem Value.Twin.numbers {l l' r r' : Value} (hl : l.Twin R P l') (hr : r.Twin R P r')
    {p p' q q' : Place} (hp : R p p') (hq : R q q') :
    ResultTwin R (· = ·) (Operand.numbers ⟨p, l⟩ ⟨q, r⟩) (Operand.numbers ⟨p', l'⟩ ⟨q', r'⟩) := by
  refine (hl.number hp).bind fun x x' he => (hr.number hq).bind fun y y' hf => ?_
  subst he hf
  exact .ok rfl

theorem BinaryOp.arithmetic_twin (op : BinaryOp) (x y : Float) {p p' : Place} (hp : R p p') :
    ResultTwin R (Value.Twin R P) (op.arithmetic x y p) (op.arithmetic x y p') := by
  cases op with
  | divide =>
    unfold BinaryOp.arithmetic
    dsimp only
    split
    · exact .error ⟨hp, rfl⟩
    · exact .ok (.plain trivial)
  | _ => exact .ok (.plain trivial)

/-- The sums of operands that are twins are twins. -/
theorem Value.Twin.sum {l l' r r' : Value} (hl : l.Twin R P l') (hr : r.Twin R P r')
    {p p' q q' : Place} (hp : R p p') (hq : R q q') :
    ResultTwin R (Value.Twin R P) (Operand.sum ⟨p, l⟩ ⟨q, r⟩) (Operand.sum ⟨p', l'⟩ ⟨q', r'⟩) := by
  cases hl with
  | plain _ =>
    cases hr with
    | plain _ =>
      cases l <;> cases r <;>
        first | exact .ok (.plain trivial) | exact .error ⟨hp, rfl⟩ | exact .error ⟨hq, rfl⟩
    | _ => cases l <;> first | exact .error ⟨hp, rfl⟩ | exact .error ⟨hq, rfl⟩
  | _ => exact .error ⟨hp, rfl⟩

/-- An operator with two operands gives twins for twins. -/
theorem Value.Twin.binary {l l' r r' : Value} (hl : l.Twin R P l') (hr : r.Twin R P r')
    (op : BinaryOp) {p p' q q' o o' : Place} (hp : R p p') (hq : R q q') (ho : R o o') :
    ResultTwin R (Value.Twin R P) (op.apply ⟨p, l⟩ ⟨q, r⟩ o) (op.apply ⟨p', l'⟩ ⟨q', r'⟩ o') := by
  have numbers : ResultTwin R (Value.Twin R P)
      (Except.bind (Operand.numbers ⟨p, l⟩ ⟨q, r⟩) fun n => op.arithmetic n.1 n.2 o)
      (Except.bind (Operand.numbers ⟨p', l'⟩ ⟨q', r'⟩) fun n => op.arithmetic n.1 n.2 o') := by
    refine (hl.numbers hr hp hq).bind fun n n' he => ?_
    subst he
    exact op.arithmetic_twin _ _ ho
  cases op with
  | add => exact hl.sum hr hp hq
  | equal | differ =>
    simp only [BinaryOp.apply, hl.equal hr]
    exact .ok (.plain trivial)
  | and | or => exact .ok hr
  | _ => exact numbers

end

end LoxLang
