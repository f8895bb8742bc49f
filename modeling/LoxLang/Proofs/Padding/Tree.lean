import LoxLang.Tree.Basic
import Mathlib.Tactic.Common

/-!
# Trees one scope further in

A scope that binds nothing may stand around part of a program: the uses in there that lead
past it have to go one scope further. A *gap* says where such a scope is, seen from a use.
`Expr.Padded g e e'` says that `e'` is the expression `e` for where a scope has been put in
at the gap `g`: the names and places are the same, and the depths lead past it.
-/

namespace LoxLang

/-! ## Gaps -/

/-- How many scopes out the scope is that has been put in; `none` if there is none. -/
abbrev Gap := Option Nat

namespace Gap

/-- The gap as it is seen from so many scopes further in. -/
def under (g : Gap) (n : Nat) : Gap := g.map (· + n)

/-- The gap as it is seen from one scope further out. -/
def outer : Gap → Gap
  | some (k + 1) => some k
  | _ => none

/-- A depth, counted with the scope that has been put in. -/
def shift : Gap → Nat → Nat
  | none, d => d
  | some k, d => if d < k then d else d + 1

@[simp] theorem outer_under (g : Gap) : (g.under 1).outer = g := by cases g <;> rfl

@[simp] theorem under_under (g : Gap) (m n : Nat) : (g.under m).under n = g.under (m + n) := by
  cases g with
  | none => rfl
  | some k => exact congrArg some (Nat.add_assoc k m n)

theorem none_ne : (none : Gap) ≠ some 0 := (Option.some_ne_none 0).symm

/-- From further in, the scope is not the innermost. -/
theorem under_ne (g : Gap) (n : Nat) : g.under (n + 1) ≠ some 0 := by
  cases g <;> simp [under]

@[simp] theorem shift_none : shift none = id := rfl

@[simp] theorem shift_under_zero (g : Gap) : (g.under 1).shift 0 = 0 := by
  cases g <;> simp [under, shift]

@[simp] theorem shift_under_succ (g : Gap) (d : Nat) :
    (g.under 1).shift (d + 1) = g.shift d + 1 := by
  cases g with
  | none => rfl
  | some k =>
    simp only [under, shift, Option.map_some, Nat.add_lt_add_iff_right]
    split <;> rfl

theorem shift_or (g : Gap) (d : Nat) : g.shift d = d ∨ g.shift d = d + 1 := by
  cases g with
  | none => exact .inl rfl
  | some k =>
    simp only [shift]
    split
    · exact .inl rfl
    · exact .inr rfl

/-- Two scopes that lie side by side still do unless the scope has been put between them. -/
theorem shift_succ {g : Gap} {d : Nat} (h : some (d + 1) ≠ g) :
    g.shift (d + 1) = g.shift d + 1 := by
  cases g with
  | none => rfl
  | some k =>
    have hk : d + 1 ≠ k := fun e => h (congrArg some e)
    simp only [shift]
    split <;> split <;> omega

end Gap

/-! ## Padding -/

/-- The same use, led past the gap. -/
structure Reference.Padded (g : Gap) (r r' : Reference) : Prop where
  name : r'.name = r.name
  depth : r'.depth = r.depth.map g.shift

mutual

/-- The same expression, led past the gap. The two scopes of `super` and `this` stay side by
side. -/
inductive Expr.Padded : Gap → Expr → Expr → Prop
  | literal {g : Gap} (value : Literal) (p : Place) :
    Expr.Padded g (.literal value p) (.literal value p)
  | group {g : Gap} {e e' : Expr} (he : Expr.Padded g e e') (p : Place) :
    Expr.Padded g (.group e p) (.group e' p)
  | unary {g : Gap} (op : UnaryOp) {e e' : Expr} (he : Expr.Padded g e e') (p : Place) :
    Expr.Padded g (.unary op e p) (.unary op e' p)
  | binary {g : Gap} (op : BinaryOp) {l l' r r' : Expr} (hl : Expr.Padded g l l')
      (hr : Expr.Padded g r r') (p : Place) :
    Expr.Padded g (.binary op l r p) (.binary op l' r' p)
  | sequence {g : Gap} {es es' : List Expr} (hs : Expr.AllPadded g es es') (p : Place) :
    Expr.Padded g (.sequence es p) (.sequence es' p)
  | read {g : Gap} {r r' : Reference} (hr : r.Padded g r') : Expr.Padded g (.read r) (.read r')
  | assign {g : Gap} {r r' : Reference} {e e' : Expr} (hr : r.Padded g r')
      (he : Expr.Padded g e e') : Expr.Padded g (.assign r e) (.assign r' e')
  | call {g : Gap} {f f' : Expr} {es es' : List Expr} (hf : Expr.Padded g f f')
      (hs : Expr.AllPadded g es es') (p : Place) :
    Expr.Padded g (.call f es p) (.call f' es' p)
  | lambda {g : Gap} (ps : List Name) {ss ss' : List Stmt}
      (hs : Stmt.AllPadded (g.under 1) ss ss') (p : Place) :
    Expr.Padded g (.lambda ps ss p) (.lambda ps ss' p)
  | get {g : Gap} {e e' : Expr} (he : Expr.Padded g e e') (n : Name) :
    Expr.Padded g (.get e n) (.get e' n)
  | set {g : Gap} {e e' v v' : Expr} (he : Expr.Padded g e e') (n : Name)
      (hv : Expr.Padded g v v') : Expr.Padded g (.set e n v) (.set e' n v')
  | this {g : Gap} {d d' : Option Nat} (hd : d' = d.map g.shift) (p : Place) :
    Expr.Padded g (.this d p) (.this d' p)
  | super {g : Gap} (n : Name) {d d' : Option Nat} (hd : d' = d.map g.shift)
      (hg : d = g → d = none) (p : Place) : Expr.Padded g (.super n d p) (.super n d' p)

inductive Expr.AllPadded : Gap → List Expr → List Expr → Prop
  | nil {g : Gap} : Expr.AllPadded g [] []
  | cons {g : Gap} {e e' : Expr} {es es' : List Expr} (he : Expr.Padded g e e')
      (hs : Expr.AllPadded g es es') : Expr.AllPadded g (e :: es) (e' :: es')

/-- The same statement, led past the gap. It declares nothing in a scope that has been put
in. -/
inductive Stmt.Padded : Gap → Stmt → Stmt → Prop
  | expression {g : Gap} {e e' : Expr} (he : Expr.Padded g e e') :
    Stmt.Padded g (.expression e) (.expression e')
  | print {g : Gap} {e e' : Expr} (he : Expr.Padded g e e') (p : Place) :
    Stmt.Padded g (.print e p) (.print e' p)
  | declare {g : Gap} (hg : g ≠ some 0) (n : Name) :
    Stmt.Padded g (.declare n none) (.declare n none)
  | declareWith {g : Gap} (hg : g ≠ some 0) (n : Name) {e e' : Expr} (he : Expr.Padded g e e') :
    Stmt.Padded g (.declare n (some e)) (.declare n (some e'))
  | block {g : Gap} {ss ss' : List Stmt} (hs : Stmt.AllPadded (g.under 1) ss ss') (p : Place) :
    Stmt.Padded g (.block ss p) (.block ss' p)
  | branch {g : Gap} {e e' : Expr} {s s' : Stmt} (he : Expr.Padded g e e')
      (hs : Stmt.Padded g s s') (p : Place) :
    Stmt.Padded g (.branch e s none p) (.branch e' s' none p)
  | branchElse {g : Gap} {e e' : Expr} {s s' t t' : Stmt} (he : Expr.Padded g e e')
      (hs : Stmt.Padded g s s') (ht : Stmt.Padded g t t') (p : Place) :
    Stmt.Padded g (.branch e s (some t) p) (.branch e' s' (some t') p)
  | loop {g : Gap} {e e' : Expr} {s s' : Stmt} (he : Expr.Padded g e e')
      (hs : Stmt.Padded g s s') (p : Place) : Stmt.Padded g (.loop e s p) (.loop e' s' p)
  | breakOut {g : Gap} (p : Place) : Stmt.Padded g (.breakOut p) (.breakOut p)
  | function {g : Gap} (hg : g ≠ some 0) (n : Name) (ps : List Name) {ss ss' : List Stmt}
      (hs : Stmt.AllPadded (g.under 1) ss ss') :
    Stmt.Padded g (.function (.mk n ps ss)) (.function (.mk n ps ss'))
  | returnNil {g : Gap} (p : Place) : Stmt.Padded g (.returnWith none p) (.returnWith none p)
  | returnWith {g : Gap} {e e' : Expr} (he : Expr.Padded g e e') (p : Place) :
    Stmt.Padded g (.returnWith (some e) p) (.returnWith (some e') p)
  | plainClass {g : Gap} (hg : g ≠ some 0) (n : Name) {fs fs' : List Function}
      (hs : Function.AllPadded g fs fs') :
    Stmt.Padded g (.classDecl n none fs) (.classDecl n none fs')
  | subclass {g : Gap} (hg : g ≠ some 0) (n : Name) {r r' : Reference} {fs fs' : List Function}
      (hr : r.Padded g r') (hs : Function.AllPadded (g.under 1) fs fs') :
    Stmt.Padded g (.classDecl n (some r) fs) (.classDecl n (some r') fs')

inductive Stmt.AllPadded : Gap → List Stmt → List Stmt → Prop
  | nil {g : Gap} : Stmt.AllPadded g [] []
  | cons {g : Gap} {s s' : Stmt} {ss ss' : List Stmt} (h : Stmt.Padded g s s')
      (hs : Stmt.AllPadded g ss ss') : Stmt.AllPadded g (s :: ss) (s' :: ss')

/-- The same methods, led past the gap from the two scopes that a method has. -/
inductive Function.AllPadded : Gap → List Function → List Function → Prop
  | nil {g : Gap} : Function.AllPadded g [] []
  | cons {g : Gap} (n : Name) (ps : List Name) {ss ss' : List Stmt} {fs fs' : List Function}
      (h : Stmt.AllPadded (g.under 2) ss ss') (hs : Function.AllPadded g fs fs') :
    Function.AllPadded g (.mk n ps ss :: fs) (.mk n ps ss' :: fs')

end

/-- Problems with the expression are reported at the same place. -/
theorem Expr.Padded.place {g : Gap} {e e' : Expr} (h : e.Padded g e') : e'.place = e.place := by
  cases h with
  | read hr | assign hr _ => exact congrArg Name.place hr.name
  | _ => rfl

/-! ## Nothing put in -/

theorem Gap.map_shift_none (d : Option Nat) : d = d.map (Gap.shift none) := by
  rw [shift_none, Option.map_id_fun, id]

/-- A reference is alike to itself without a gap. -/
theorem Reference.padded_refl (r : Reference) : r.Padded none r := ⟨rfl, Gap.map_shift_none _⟩

mutual

/-- A tree stays as it is if no scope has been put in. -/
theorem Expr.padded_refl (e : Expr) : e.Padded none e := by
  match e with
  | .literal value p => exact .literal value p
  | .group e p => exact .group e.padded_refl p
  | .unary op e p => exact .unary op e.padded_refl p
  | .binary op l r p => exact .binary op l.padded_refl r.padded_refl p
  | .sequence es p => exact .sequence (Expr.allPadded_refl es) p
  | .read r => exact .read r.padded_refl
  | .assign r e => exact .assign r.padded_refl e.padded_refl
  | .call f es p => exact .call f.padded_refl (Expr.allPadded_refl es) p
  | .lambda ps ss p => exact .lambda (g := none) ps (Stmt.allPadded_refl ss) p
  | .get e n => exact .get e.padded_refl n
  | .set e n v => exact .set e.padded_refl n v.padded_refl
  | .this d p => exact .this (Gap.map_shift_none d) p
  | .super n d p => exact .super n (Gap.map_shift_none d) id p

theorem Expr.allPadded_refl (es : List Expr) : Expr.AllPadded none es es := by
  match es with
  | [] => exact .nil
  | e :: es => exact .cons e.padded_refl (Expr.allPadded_refl es)

/-- A statement is alike to itself without a gap. -/
theorem Stmt.padded_refl (s : Stmt) : s.Padded none s := by
  match s with
  | .expression e => exact .expression e.padded_refl
  | .print e p => exact .print e.padded_refl p
  | .declare n none => exact .declare (g := none) Gap.none_ne n
  | .declare n (some e) => exact .declareWith (g := none) Gap.none_ne n e.padded_refl
  | .block ss p => exact .block (g := none) (Stmt.allPadded_refl ss) p
  | .branch e s none p => exact .branch e.padded_refl s.padded_refl p
  | .branch e s (some t) p => exact .branchElse e.padded_refl s.padded_refl t.padded_refl p
  | .loop e s p => exact .loop e.padded_refl s.padded_refl p
  | .breakOut p => exact .breakOut p
  | .function (.mk n ps ss) => exact .function (g := none) Gap.none_ne n ps (Stmt.allPadded_refl ss)
  | .returnWith none p => exact .returnNil p
  | .returnWith (some e) p => exact .returnWith e.padded_refl p
  | .classDecl n none fs => exact .plainClass (g := none) Gap.none_ne n (Function.allPadded_refl fs)
  | .classDecl n (some r) fs =>
    exact .subclass (g := none) Gap.none_ne n r.padded_refl (Function.allPadded_refl fs)

theorem Stmt.allPadded_refl (ss : List Stmt) : Stmt.AllPadded none ss ss := by
  match ss with
  | [] => exact .nil
  | s :: ss => exact .cons s.padded_refl (Stmt.allPadded_refl ss)

theorem Function.allPadded_refl (fs : List Function) : Function.AllPadded none fs fs := by
  match fs with
  | [] => exact .nil
  | .mk n ps ss :: fs =>
    exact .cons (g := none) n ps (Stmt.allPadded_refl ss) (Function.allPadded_refl fs)

end

end LoxLang
