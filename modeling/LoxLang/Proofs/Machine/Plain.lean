import LoxLang.Proofs.Machine.Laws

/-!
# What operators give

An operator gives plain data, which holds on to no scope, or its right operand, or else a
fault that is not about depths.
-/

namespace LoxLang

variable {t : Watched}

/-- Plain data, which holds on to no scope. -/
def Value.IsPlain : Value → Prop
  | .function _ | .classValue _ | .object _ _ => False
  | _ => True

theorem GoodValue.of_plain {v : Value} (h : v.IsPlain) : GoodValue t v := by
  cases v with
  | function _ | classValue _ | object _ _ => exact h.elim
  | _ => trivial

/-- An operation gives plain data or something else that is allowed, or an ordinary fault. -/
def Plainly (result : Except Fault Value) (also : Value → Prop) : Prop :=
  match result with
  | .ok v => v.IsPlain ∨ also v
  | .error f => f.Ordinary

theorem Operand.number_ordinary {v : Operand} {f : Fault} (h : v.number = .error f) :
    f.Ordinary := by
  unfold Operand.number at h
  split at h
  · cases h
  · cases h
    exact fun m hm => nomatch hm

/-- An operator with one operand gives a plain value. -/
theorem UnaryOp.plainly_apply (op : UnaryOp) (v : Operand) :
    Plainly (op.apply v) fun _ => False := by
  cases op with
  | not => exact .inl trivial
  | negate =>
    show Plainly (Except.bind v.number fun x => .ok (.number (-x))) _
    cases hn : v.number with
    | ok x => exact .inl trivial
    | error f => exact Operand.number_ordinary hn

theorem Operand.numbers_ordinary {l r : Operand} {f : Fault} (h : Operand.numbers l r = .error f) :
    f.Ordinary := by
  have hb : Operand.numbers l r =
      Except.bind l.number fun x => Except.bind r.number fun y => .ok (x, y) := rfl
  rw [hb] at h
  cases hl : l.number with
  | error g =>
    rw [hl] at h
    cases h
    exact Operand.number_ordinary hl
  | ok x =>
    rw [hl] at h
    cases hr : r.number with
    | error g =>
      simp only [Except.bind, hr] at h
      cases h
      exact Operand.number_ordinary hr
    | ok y =>
      simp only [Except.bind, hr] at h
      cases h

theorem BinaryOp.plainly_arithmetic (op : BinaryOp) (x y : Float) (place : Place) :
    Plainly (op.arithmetic x y place) fun _ => False := by
  cases op with
  | divide =>
    show Plainly (if y == 0 then .error ⟨place, .zeroDivision⟩ else .ok (.number (x / y))) _
    split
    · exact fun m hm => nomatch hm
    · exact .inl trivial
  | _ => exact .inl trivial

/-- What else a result may be can be widened. -/
theorem Plainly.mono {result : Except Fault Value} {also also' : Value → Prop}
    (h : Plainly result also) (ha : ∀ v, also v → also' v) : Plainly result also' := by
  cases result with
  | ok v => exact Or.imp_right (ha v) h
  | error f => exact h

theorem Operand.plainly_sum (l r : Operand) : Plainly (Operand.sum l r) fun _ => False := by
  unfold Operand.sum
  split
  · exact .inl trivial
  · exact .inl trivial
  · exact fun m hm => nomatch hm
  · exact fun m hm => nomatch hm
  · exact fun m hm => nomatch hm

theorem BinaryOp.plainly_numbers (op : BinaryOp) (l r : Operand) (place : Place) :
    Plainly (Except.bind (Operand.numbers l r) fun p => op.arithmetic p.1 p.2 place)
      fun _ => False := by
  cases hn : Operand.numbers l r with
  | error f => exact Operand.numbers_ordinary hn
  | ok p => exact op.plainly_arithmetic p.1 p.2 place

/-- An operator with two operands gives a plain value or the right one of them. -/
theorem BinaryOp.plainly_apply (op : BinaryOp) (l r : Operand) (place : Place) :
    Plainly (op.apply l r place) fun v => v = r.value := by
  cases op with
  | add => exact (Operand.plainly_sum l r).mono fun _ h => h.elim
  | equal | differ => exact .inl trivial
  | and | or => exact .inr rfl
  | _ => exact (plainly_numbers _ l r place).mono fun _ h => h.elim

namespace Watching

/-- A plain result is good in every machine. -/
theorem Steps.lift {result : Except Fault Value} {also : Value → Prop} (hg : Good t) (hc : Calm t)
    (h : Plainly result also) (ha : ∀ v, also v → GoodValue t v) :
    Steps t (step (Run.lift result)) fun v u => GoodValue u v := by
  unfold Plainly at h
  refine .check hg hc ?_ ?_
  · rintro v rfl
    exact h.elim .of_plain (ha v)
  · rintro f rfl
    exact h

end Watching

end LoxLang
