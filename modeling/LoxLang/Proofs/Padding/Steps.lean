import LoxLang.Machine.Eval
import LoxLang.Proofs.Padding.World
import LoxLang.Proofs.Renaming.Simulation

/-!
# Steps past scopes put in

`PadStep L g post` relates two steps: from machines that differ in scopes put in, by the
links `L` and with the gap `g` around the current scope, both come to such machines by links
that keep those of `L`, and to values related by `post` or to the same interrupt. The laws
follow the ways in which steps are put together; then come the steps that a run is made of.
-/

namespace LoxLang

open Run

section
variable {α β γ δ : Type}

/-- What the ends of two steps have in common that started with the links `L`. -/
inductive EndPadded (L : Links) (g : Gap) (post : Links → α → β → Prop) :
    EStateM.Result Interrupt Machine α → EStateM.Result Interrupt Machine β → Prop
  | ok {a : α} {b : β} {m m' : Machine} {Q : Links} (le : L.Le Q) (hm : Machine.Padded Q g m m')
      (h : post Q a b) : EndPadded L g post (.ok a m) (.ok b m')
  | error {i i' : Interrupt} {m m' : Machine} {Q : Links} (le : L.Le Q)
      (hm : Machine.Padded Q g m m') (h : i.Padded Q i') :
      EndPadded L g post (.error i m) (.error i' m')

/-- The steps keep the gap between machines. -/
def PadStep (L : Links) (g : Gap) (post : Links → α → β → Prop) (step : Run α)
    (step' : Run β) : Prop :=
  ∀ m m', Machine.Padded L g m m' → EndPadded L g post (step m) (step' m')

/-- Nothing is asked of the values. -/
abbrev anyEnds : Links → α → β → Prop := fun _ _ _ => True

variable {L Q : Links} {g : Gap} {post mid : Links → α → β → Prop} {post' : Links → γ → δ → Prop}
  {step : Run α} {step' : Run β}

/-! ## Laws -/

/-- Ends that are alike under more links were alike under fewer. -/
theorem EndPadded.before (hLQ : L.Le Q) {r : EStateM.Result Interrupt Machine α}
    {r' : EStateM.Result Interrupt Machine β} (h : EndPadded Q g post r r') :
    EndPadded L g post r r' := by
  cases h with
  | ok le hm h => exact .ok (hLQ.trans le) hm h
  | error le hm h => exact .error (hLQ.trans le) hm h

namespace PadStep

theorem pure {a : α} {b : β} (h : post L a b) : PadStep L g post (pure a) (pure b) :=
  fun _ _ hm => .ok (.refl L) hm h

theorem throw {i i' : Interrupt} (h : i.Padded L i') :
    PadStep L g post (throw i : Run α) (throw i' : Run β) :=
  fun _ _ hm => .error (.refl L) hm h

theorem fail (p : Place) (cause : FaultCause) :
    PadStep L g post (Run.fail p cause) (Run.fail p cause) := throw (.fault (Fault.padded_refl _))

/-- Two steps go on alike if what is behind them does under whatever links they end with. -/
theorem bind {k : α → Run γ} {k' : β → Run δ} (h : PadStep L g mid step step')
    (hk : ∀ Q a b, L.Le Q → mid Q a b → PadStep Q g post' (k a) (k' b)) :
    PadStep L g post' (step >>= k) (step' >>= k') := by
  intro m m' hm
  have hs := h m m' hm
  show EndPadded L g post' (EStateM.bind step k m) (EStateM.bind step' k' m')
  unfold EStateM.bind
  generalize step m = r at hs ⊢
  generalize step' m' = r' at hs ⊢
  cases hs with
  | ok le hn hmid => exact (hk _ _ _ le hmid _ _ hn).before le
  | error le hn hi => exact .error le hn hi

theorem discard (h : PadStep L g mid step step') :
    PadStep L g anyEnds (discard step) (discard step') :=
  h.bind fun _ _ _ _ _ => .pure trivial

/-- Steps in other scopes, with the gap that is around those. -/
theorem within {i : Gap} {a a' : ScopeId} (ha : L.links i a a') (h : PadStep L i post step step') :
    PadStep L g post (within a step) (within a' step') := by
  intro m m' hm
  have hs := h _ _ (hm.running ha)
  unfold Run.within
  dsimp only
  generalize step { m with current := a } = r at hs ⊢
  generalize step' { m' with current := a' } = r' at hs ⊢
  cases hs with
  | ok le hn h => exact .ok le (hn.running (le hm.current)) h
  | error le hn hi => exact .error le (hn.running (le hm.current)) hi

/-- The bodies of two functions give the same value. -/
theorem catching {mid : Links → Unit → Unit → Prop} {step step' : Run Unit}
    (h : PadStep L g mid step step') :
    PadStep L g Value.Padded (catching step) (catching step') := by
  intro m m' hm
  have hs := h m m' hm
  unfold Run.catching
  generalize step m = r at hs ⊢
  generalize step' m' = r' at hs ⊢
  cases hs with
  | ok le hn _ => exact .ok le hn (.plain trivial)
  | error le hn hi =>
    cases hi with
    | fault hf => exact .error le hn (.fault hf)
    | breaking p => exact .error le hn (.fault (Fault.padded_refl _))
    | returning hv _ => exact .ok le hn hv
    | exhausted => exact .error le hn .exhausted

/-! ## Steps on a machine -/

/-- A look at machines that are alike gives alike results. -/
theorem check {look : Machine → Except Fault α} {look' : Machine → Except Fault β}
    (h : ∀ m m', Machine.Padded L g m m' → ResultPadded (post L) (look m) (look' m')) :
    PadStep L g post (check look) (check look') := by
  intro m m' hm
  have hl := h m m' hm
  unfold Run.check
  generalize look m = r at hl ⊢
  generalize look' m' = r' at hl ⊢
  cases hl with
  | ok h => exact .ok (.refl L) hm h
  | error hf => exact .error (.refl L) hm (.fault hf)

theorem lift {r : Except Fault α} {r' : Except Fault β} (h : ResultPadded (post L) r r') :
    PadStep L g post (lift r) (lift r') := .check fun _ _ _ => h

/-- A name gets the same value in scopes that stand for each other. -/
theorem store {choose choose' : Machine → Except Fault ScopeId} (n : String)
    {v v' : Value} (hv : v.Padded L v')
    (h : ∀ m m', Machine.Padded L g m m' → ResultPadded L.Doubles (choose m) (choose' m')) :
    PadStep L g anyEnds (store choose n v) (store choose' n v') := by
  intro m m' hm
  have hc := h m m' hm
  unfold Run.store
  generalize choose m = r at hc ⊢
  generalize choose' m' = r' at hc ⊢
  cases hc with
  | ok ha => exact .ok (.refl L) (hm.insert ha n hv) trivial
  | error hf => exact .error (.refl L) hm (.fault hf)

theorem get : PadStep L g (fun Q => Machine.Padded Q g) get get :=
  fun _ _ hm => .ok (.refl L) hm hm

theorem newIdentity : PadStep L g (fun _ i i' => i' = i) newIdentity newIdentity := by
  intro m m' hm
  exact .ok (.refl L) { hm with fresh := congrArg (· + 1) hm.fresh } hm.fresh

theorem newScope {i : Gap} {a a' : ScopeId} (ha : L.links i a a') :
    PadStep L g (fun Q => Q.links (i.under 1)) (newScope a) (newScope a') := by
  intro m m' hm
  have le := L.le_add (i.under 1) m.scopes.size hm.scopes.below fun _ => rfl
  have hroot : (m.scopes.child a).1[m.globals]?.bind Scope.parent = none := by
    rw [Scopes.parent_child, if_neg (Nat.ne_of_lt (hm.scopes.below hm.globals).1), hm.root]
  refine .ok le ?_ (.inr ⟨rfl, rfl, rfl⟩)
  exact { hm with
    scopes := hm.scopes.child ha
    objects := fun i n => rel_imp (hm.objects i n) fun _ _ => .mono le
    globals := le hm.globals
    root := hroot
    current := le hm.current }

theorem bindIn {a a' : ScopeId} (ha : L.Doubles a a') (n : String) {v v' : Value}
    (hv : v.Padded L v') : PadStep L g anyEnds (bindIn a n v) (bindIn a' n v') :=
  fun _ _ hm => .ok (.refl L) (hm.insert ha n hv) trivial

theorem newObject {c c' : Class} (hc : c.Padded L c') :
    PadStep L g Value.Padded (newObject c) (newObject c') := by
  intro m m' hm
  unfold Run.newObject
  rw [hm.count]
  refine .ok (.refl L) { hm with count := ?_, objects := fun i n => ?_ } (.object _ hc)
  · rw [Array.size_push, Array.size_push, hm.count]
  · have ho := hm.objects i n
    simp only [Machine.fieldsOf, Array.getElem?_push, hm.count] at ho ⊢
    split
    · exact .none
    · exact ho

theorem setField (i : Nat) (n : String) {v v' : Value} (hv : v.Padded L v') :
    PadStep L g anyEnds (setField i n v) (setField i n v') := by
  intro m m' hm
  refine .ok (.refl L) { hm with count := ?_, objects := fun j k => ?_ } trivial
  · rw [Array.size_modify, Array.size_modify, hm.count]
  · simp only [Machine.fieldsOf]
    rw [find?_modify, find?_modify, hm.count]
    split
    · exact .some hv
    · exact hm.objects j k

theorem print (text : String) (p : Place) :
    PadStep L g anyEnds (print text p) (print text p) := by
  intro m m' hm
  have hnext (s : Sink) : Machine.Padded L g { m with sink := s } { m' with sink := s } :=
    { hm with sink := rfl }
  unfold Run.print
  rw [hm.sink]
  dsimp only
  cases (m.sink.put text).2 with
  | none => exact .ok (.refl L) (hnext _) trivial
  | some problem => exact .error (.refl L) (hnext _) (.fault (Fault.padded_refl _))

theorem readClock : PadStep L g Value.Padded readClock readClock := by
  intro m m' hm
  unfold Run.readClock
  rw [hm.clock]
  exact .ok (.refl L) { hm with clock := rfl } (.plain trivial)

end PadStep

end

/-! ## Operators -/

section
variable {L : Links}

theorem Value.Padded.number {v v' : Value} (h : v.Padded L v') (p : Place) :
    Operand.number ⟨p, v'⟩ = Operand.number ⟨p, v⟩ := by
  have ht := h.text
  unfold Operand.number
  cases h with
  | plain => rfl
  | function | classValue | object => simp only [ht]

theorem Value.Padded.sum {l l' r r' : Value} (hl : l.Padded L l') (hr : r.Padded L r')
    (p q : Place) : Operand.sum ⟨p, l'⟩ ⟨q, r'⟩ = Operand.sum ⟨p, l⟩ ⟨q, r⟩ := by
  cases hl with
  | plain _ =>
    cases hr with
    | plain _ => rfl
    | _ => cases l <;> rfl
  | _ => rfl

/-- Operands that are alike are numbers with the same values. -/
theorem Value.Padded.numbers {l l' r r' : Value} (hl : l.Padded L l') (hr : r.Padded L r')
    (p q : Place) : Operand.numbers ⟨p, l'⟩ ⟨q, r'⟩ = Operand.numbers ⟨p, l⟩ ⟨q, r⟩ := by
  unfold Operand.numbers
  rw [hl.number, hr.number]

theorem Value.Padded.decidedBy {v v' : Value} (h : v.Padded L v') (op : BinaryOp) :
    op.decidedBy v' = op.decidedBy v := by
  cases op <;> simp only [BinaryOp.decidedBy, h.isTrue]

/-- Plain data stands for itself. -/
theorem ResultPadded.of_plainly {r : Except Fault Value} (h : Plainly r fun _ => False) :
    ResultPadded (Value.Padded L) r r := by
  cases r with
  | ok v => exact .ok (.plain (h.resolve_right id))
  | error f => exact .error f.padded_refl

theorem Value.Padded.unary {v v' : Value} (h : v.Padded L v') (op : UnaryOp) (p : Place) :
    ResultPadded (Value.Padded L) (op.apply ⟨p, v⟩) (op.apply ⟨p, v'⟩) := by
  have he : op.apply ⟨p, v'⟩ = op.apply ⟨p, v⟩ := by
    cases op with
    | not => simp only [UnaryOp.apply, h.isTrue]
    | negate => simp only [UnaryOp.apply, h.number]
  rw [he]
  exact .of_plainly (op.plainly_apply _)

/-- An operator gives alike results for operands that are alike. -/
theorem Value.Padded.binary {l l' r r' : Value} (hl : l.Padded L l') (hr : r.Padded L r')
    (op : BinaryOp) (p q o : Place) :
    ResultPadded (Value.Padded L) (op.apply ⟨p, l⟩ ⟨q, r⟩ o) (op.apply ⟨p, l'⟩ ⟨q, r'⟩ o) := by
  have numbers : ResultPadded (Value.Padded L)
      (Except.bind (Operand.numbers ⟨p, l⟩ ⟨q, r⟩) fun n => op.arithmetic n.1 n.2 o)
      (Except.bind (Operand.numbers ⟨p, l'⟩ ⟨q, r'⟩) fun n => op.arithmetic n.1 n.2 o) := by
    rw [hl.numbers hr]
    exact .of_plainly (op.plainly_numbers _ _ o)
  cases op with
  | add =>
    rw [BinaryOp.apply, BinaryOp.apply, hl.sum hr]
    exact .of_plainly (Operand.plainly_sum _ _)
  | equal | differ =>
    simp only [BinaryOp.apply, hl.equal hr]
    exact .ok (.plain trivial)
  | and | or => exact .ok hr
  | _ => exact numbers

end

end LoxLang
