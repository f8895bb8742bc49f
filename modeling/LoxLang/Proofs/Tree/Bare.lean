import LoxLang.Proofs.Tree.Regular

/-!
# Trees without depths

`Stmt.bare` forgets the depths in a tree. Two trees of which it leaves the same have the same
names, places and shape: they are one program, resolved or not.
-/

namespace LoxLang

mutual

def Expr.bare : Expr → Expr
  | .literal value place => .literal value place
  | .group e place => .group e.bare place
  | .unary op e place => .unary op e.bare place
  | .binary op left right place => .binary op left.bare right.bare place
  | .sequence items place => .sequence (Expr.allBare items) place
  | .read r => .read r.name.reference
  | .assign r e => .assign r.name.reference e.bare
  | .call callee arguments place => .call callee.bare (Expr.allBare arguments) place
  | .lambda params body place => .lambda params (Stmt.allBare body) place
  | .get e property => .get e.bare property
  | .set e property value => .set e.bare property value.bare
  | .this _ place => .this none place
  | .super method _ place => .super method none place

def Expr.allBare : List Expr → List Expr
  | [] => []
  | e :: es => e.bare :: Expr.allBare es

def Stmt.bare : Stmt → Stmt
  | .expression e => .expression e.bare
  | .print e place => .print e.bare place
  | .declare name none => .declare name none
  | .declare name (some initial) => .declare name (some initial.bare)
  | .block body place => .block (Stmt.allBare body) place
  | .branch test yes none place => .branch test.bare yes.bare none place
  | .branch test yes (some no) place => .branch test.bare yes.bare (some no.bare) place
  | .loop test body place => .loop test.bare body.bare place
  | .breakOut place => .breakOut place
  | .function f => .function f.bare
  | .returnWith none place => .returnWith none place
  | .returnWith (some value) place => .returnWith (some value.bare) place
  | .classDecl name none methods => .classDecl name none (Function.allBare methods)
  | .classDecl name (some superclass) methods =>
    .classDecl name (some superclass.name.reference) (Function.allBare methods)

def Stmt.allBare : List Stmt → List Stmt
  | [] => []
  | s :: ss => s.bare :: Stmt.allBare ss

def Function.bare : Function → Function
  | .mk name params body => .mk name params (Stmt.allBare body)

def Function.allBare : List Function → List Function
  | [] => []
  | f :: fs => f.bare :: Function.allBare fs

end

@[simp] theorem Function.name_bare (f : Function) : f.bare.name = f.name := by
  cases f
  rfl

/-- A statement without its depths declares what it did. -/
@[simp] theorem Stmt.declared?_bare (s : Stmt) : s.bare.declared? = s.declared? := by
  match s with
  | .expression _ | .print _ _ | .declare _ none | .declare _ (some _) | .block _ _
  | .branch _ _ none _ | .branch _ _ (some _) _ | .loop _ _ _ | .breakOut _
  | .returnWith none _ | .returnWith (some _) _ | .classDecl _ none _
  | .classDecl _ (some _) _ => rfl
  | .function f => exact congrArg some f.name_bare

/-! ## Regular trees -/

mutual

theorem Expr.regular_bare (e : Expr) : e.bare.Regular ↔ e.Regular := by
  match e with
  | .literal _ _ | .read _ | .this _ _ | .super _ _ _ => exact Iff.rfl
  | .group e _ | .unary _ e _ | .get e _ => exact e.regular_bare
  | .binary _ left right _ | .set left _ right =>
    exact and_congr left.regular_bare right.regular_bare
  | .sequence items _ => exact Expr.allRegular_bare items
  | .assign _ e => exact and_congr_right' e.regular_bare
  | .call callee arguments _ =>
    exact and_congr callee.regular_bare (Expr.allRegular_bare arguments)
  | .lambda _ body _ => exact and_congr_right' (Stmt.allRegular_bare body)

theorem Expr.allRegular_bare (es : List Expr) :
    Expr.AllRegular (Expr.allBare es) ↔ Expr.AllRegular es := by
  match es with
  | [] => exact Iff.rfl
  | e :: es => exact and_congr e.regular_bare (Expr.allRegular_bare es)

theorem Stmt.regular_bare (s : Stmt) : s.bare.Regular ↔ s.Regular := by
  match s with
  | .declare _ none | .breakOut _ | .returnWith none _ => exact Iff.rfl
  | .expression e | .print e _ | .returnWith (some e) _ => exact e.regular_bare
  | .declare _ (some e) => exact and_congr_right' e.regular_bare
  | .block body _ => exact Stmt.allRegular_bare body
  | .branch test yes none _ =>
    simp only [Stmt.bare, Stmt.Regular, yes.declared?_bare, test.regular_bare, yes.regular_bare]
  | .branch test yes (some no) _ =>
    simp only [Stmt.bare, Stmt.Regular, yes.declared?_bare, no.declared?_bare, test.regular_bare,
      yes.regular_bare, no.regular_bare]
  | .loop test body _ =>
    simp only [Stmt.bare, Stmt.Regular, body.declared?_bare, test.regular_bare, body.regular_bare]
  | .function f =>
    have hname : f.bare.name.IsOrdinary ↔ f.name.IsOrdinary := by rw [f.name_bare]
    exact and_congr hname f.regular_bare
  | .classDecl _ none methods | .classDecl _ (some _) methods =>
    exact and_congr_right' (Function.allRegular_bare methods)

theorem Stmt.allRegular_bare (ss : List Stmt) :
    Stmt.AllRegular (Stmt.allBare ss) ↔ Stmt.AllRegular ss := by
  match ss with
  | [] => exact Iff.rfl
  | s :: ss => exact and_congr s.regular_bare (Stmt.allRegular_bare ss)

theorem Function.regular_bare (f : Function) : f.bare.Regular ↔ f.Regular := by
  match f with
  | .mk _ _ body => exact and_congr_right' (Stmt.allRegular_bare body)

theorem Function.allRegular_bare (fs : List Function) :
    Function.AllRegular (Function.allBare fs) ↔ Function.AllRegular fs := by
  match fs with
  | [] => exact Iff.rfl
  | f :: fs => exact and_congr f.regular_bare (Function.allRegular_bare fs)

end

/-- A program is regular with the depths that it has if it is with others. -/
theorem Stmt.AllRegular.of_bare {ss ss' : List Stmt} (h : Stmt.AllRegular ss)
    (hbare : Stmt.allBare ss' = Stmt.allBare ss) : Stmt.AllRegular ss' := by
  rw [← Stmt.allRegular_bare, hbare, Stmt.allRegular_bare]
  exact h

/-! ## Trees that are read -/

namespace Grammar

def Symbol.Bare : (s : Symbol) → s.Tree → Prop
  | .declarations, ss | .block, ss => Stmt.allBare ss = ss
  | .declaration, s | .varDecl, s | .statement _, s | .exprStmt, s => s.bare = s
  | .forStart, o => ∀ s ∈ o, s.bare = s
  | .methods, fs => Function.allBare fs = fs
  | .function, f => f.bare = f
  | .params, _ => True
  | .optional, o => ∀ e ∈ o, e.bare = e
  | .items, es | .arguments, es => Expr.allBare es = es
  | .expression, e | .assignment, e | .operators _, e | .operand _, e | .unary, e | .call, e
  | .primary, e => e.bare = e

/-- A loop without depths in its parts has none. -/
theorem bare_forLoop {place : Place} {initial : Option Stmt} {test step : Option Expr}
    {body : Stmt} (hi : ∀ s ∈ initial, s.bare = s) (ht : ∀ e ∈ test, e.bare = e)
    (hs : ∀ e ∈ step, e.bare = e) (hb : body.bare = body) :
    (Stmt.forLoop place initial test step body).bare =
      Stmt.forLoop place initial test step body := by
  have ht' : (test.getD (.literal .yes place)).bare = test.getD (.literal .yes place) := by
    cases test with
    | none => rfl
    | some e => exact ht e rfl
  cases initial <;> cases step <;> simp_all [Stmt.forLoop, Stmt.bare, Stmt.allBare]

/-- The grammar gives no depths. -/
theorem bare_of_derives {g : Rules} {s : Symbol} {ts : List Token} {v : s.Tree}
    (h : Derives g s ts v) : Symbol.Bare s v := by
  induction h with
  | forLoop _ _ _ _ _ _ _ _ ihi iht ihs ihb => exact bare_forLoop ihi iht ihs ihb
  | @returnWith _ _ o _ _ _ _ ih =>
    cases o with
    | none => rfl
    | some e => exact congrArg (Stmt.returnWith · _) (congrArg some (ih e rfl))
  | _ => simp_all [Symbol.Bare, Stmt.bare, Stmt.allBare, Expr.bare, Expr.allBare, Function.bare,
      Function.allBare, Name.reference]

end Grammar

end LoxLang
