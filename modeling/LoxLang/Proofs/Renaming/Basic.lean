import LoxLang.Tree.Basic
import Mathlib.Data.List.Forall2
import Mathlib.Logic.Equiv.Basic

/-!
# Renamed trees

`Renamed` relates a resolved tree to the same tree with other names. Some of the scopes
around a point have a mark; the relation descends with the marks and gives each scope that
it passes one or none, so a use is judged by the mark of the scope that its depth leads to.
`Renaming.of` is the renaming of one declaration and the uses bound to it, to a name that
the tree does not have; `Renaming.swap` says the same of the texts alone, as a bijection,
which is what a walk and a run can follow.
-/

namespace LoxLang

/-! ## Marks -/

/-- Which of the scopes around a point have a mark, the innermost first. -/
abbrev Marks := Nat → Bool

namespace Marks

/-- No scope has a mark. -/
def none : Marks := fun _ => false

/-- The marks inside one more scope. -/
def push (b : Bool) (ρ : Marks) : Marks
  | 0 => b
  | d + 1 => ρ d

/-- The marks so many scopes further out. -/
def drop (d : Nat) (ρ : Marks) : Marks := fun i => ρ (i + d)

theorem push_none : Marks.none.push false = Marks.none := by
  funext d
  cases d <;> rfl

theorem drop_drop (d e : Nat) (ρ : Marks) : (ρ.drop d).drop e = ρ.drop (e + d) := by
  funext i
  simp only [drop, Nat.add_assoc]

/-- A local name is judged by the mark of the scope at its distance. -/
theorem elim_of_eq (ρ : Marks) {depth distance : Option Nat} (h : depth = distance) :
    ∀ k, distance = some k → depth.elim false ρ = ρ k := by
  rintro k rfl
  rw [h, Option.elim_some]

end Marks

/-! ## Renamings -/

/-- How the names of a scope change, by whether the scope has a mark. -/
structure Renaming where
  /-- What a variable or parameter becomes that the scope declares. -/
  declared : Bool → Name → Name → Prop
  /-- What a use becomes that is bound to the scope; globals have no mark. -/
  used : Bool → Name → Name → Prop
  /-- The scope may declare a function or class of this name, which keeps it. -/
  kept : Bool → Name → Prop
  /-- A scope with these parameters and statements may have the mark or do without. -/
  marked : Bool → List Name → List Stmt → Prop

/-- A use is renamed as the scope that its depth leads to says. -/
def Reference.Renamed (σ : Renaming) (ρ : Marks) (r r' : Reference) : Prop :=
  r'.depth = r.depth ∧ σ.used (r.depth.elim false ρ) r.name r'.name

mutual

/-- The expression becomes another where scopes with these marks are around. -/
inductive Expr.Renamed (σ : Renaming) : Marks → Expr → Expr → Prop
  | literal {ρ : Marks} (value : Literal) (place : Place) :
    Expr.Renamed σ ρ (.literal value place) (.literal value place)
  | group {ρ : Marks} {e e' : Expr} {place : Place} (he : Expr.Renamed σ ρ e e') :
    Expr.Renamed σ ρ (.group e place) (.group e' place)
  | unary {ρ : Marks} {op : UnaryOp} {e e' : Expr} {place : Place} (he : Expr.Renamed σ ρ e e') :
    Expr.Renamed σ ρ (.unary op e place) (.unary op e' place)
  | binary {ρ : Marks} {op : BinaryOp} {l l' r r' : Expr} {place : Place}
      (hl : Expr.Renamed σ ρ l l') (hr : Expr.Renamed σ ρ r r') :
    Expr.Renamed σ ρ (.binary op l r place) (.binary op l' r' place)
  | sequence {ρ : Marks} {es es' : List Expr} {place : Place} (hs : Expr.AllRenamed σ ρ es es') :
    Expr.Renamed σ ρ (.sequence es place) (.sequence es' place)
  | read {ρ : Marks} {r r' : Reference} (hr : r.Renamed σ ρ r') :
    Expr.Renamed σ ρ (.read r) (.read r')
  | assign {ρ : Marks} {r r' : Reference} {e e' : Expr} (hr : r.Renamed σ ρ r')
      (he : Expr.Renamed σ ρ e e') : Expr.Renamed σ ρ (.assign r e) (.assign r' e')
  | call {ρ : Marks} {f f' : Expr} {es es' : List Expr} {place : Place}
      (hf : Expr.Renamed σ ρ f f') (hs : Expr.AllRenamed σ ρ es es') :
    Expr.Renamed σ ρ (.call f es place) (.call f' es' place)
  | lambda {ρ : Marks} {ps ps' : List Name} {ss ss' : List Stmt} {place : Place} (b : Bool)
      (hm : σ.marked b ps ss) (hp : List.Forall₂ (σ.declared b) ps ps')
      (hs : Stmt.AllRenamed σ (ρ.push b) ss ss') :
    Expr.Renamed σ ρ (.lambda ps ss place) (.lambda ps' ss' place)
  | get {ρ : Marks} {e e' : Expr} {property : Name} (he : Expr.Renamed σ ρ e e') :
    Expr.Renamed σ ρ (.get e property) (.get e' property)
  | set {ρ : Marks} {e e' v v' : Expr} {property : Name} (he : Expr.Renamed σ ρ e e')
      (hv : Expr.Renamed σ ρ v v') : Expr.Renamed σ ρ (.set e property v) (.set e' property v')
  | this {ρ : Marks} (depth : Option Nat) (place : Place) :
    Expr.Renamed σ ρ (.this depth place) (.this depth place)
  | super {ρ : Marks} (method : Name) (depth : Option Nat) (place : Place) :
    Expr.Renamed σ ρ (.super method depth place) (.super method depth place)

inductive Expr.AllRenamed (σ : Renaming) : Marks → List Expr → List Expr → Prop
  | nil {ρ : Marks} : Expr.AllRenamed σ ρ [] []
  | cons {ρ : Marks} {e e' : Expr} {es es' : List Expr} (he : Expr.Renamed σ ρ e e')
      (hs : Expr.AllRenamed σ ρ es es') : Expr.AllRenamed σ ρ (e :: es) (e' :: es')

/-- The statement becomes another; what it declares belongs to the innermost scope. -/
inductive Stmt.Renamed (σ : Renaming) : Marks → Stmt → Stmt → Prop
  | expression {ρ : Marks} {e e' : Expr} (he : Expr.Renamed σ ρ e e') :
    Stmt.Renamed σ ρ (.expression e) (.expression e')
  | print {ρ : Marks} {e e' : Expr} {place : Place} (he : Expr.Renamed σ ρ e e') :
    Stmt.Renamed σ ρ (.print e place) (.print e' place)
  | declare {ρ : Marks} {n n' : Name} (hn : σ.declared (ρ 0) n n') :
    Stmt.Renamed σ ρ (.declare n none) (.declare n' none)
  | declareWith {ρ : Marks} {n n' : Name} {e e' : Expr} (hn : σ.declared (ρ 0) n n')
      (he : Expr.Renamed σ ρ e e') : Stmt.Renamed σ ρ (.declare n (some e)) (.declare n' (some e'))
  | block {ρ : Marks} {ss ss' : List Stmt} {place : Place} (b : Bool) (hm : σ.marked b [] ss)
      (hs : Stmt.AllRenamed σ (ρ.push b) ss ss') :
    Stmt.Renamed σ ρ (.block ss place) (.block ss' place)
  | branch {ρ : Marks} {e e' : Expr} {s s' : Stmt} {place : Place} (he : Expr.Renamed σ ρ e e')
      (hs : Stmt.Renamed σ ρ s s') :
    Stmt.Renamed σ ρ (.branch e s none place) (.branch e' s' none place)
  | branchElse {ρ : Marks} {e e' : Expr} {s s' t t' : Stmt} {place : Place}
      (he : Expr.Renamed σ ρ e e') (hs : Stmt.Renamed σ ρ s s') (ht : Stmt.Renamed σ ρ t t') :
    Stmt.Renamed σ ρ (.branch e s (some t) place) (.branch e' s' (some t') place)
  | loop {ρ : Marks} {e e' : Expr} {s s' : Stmt} {place : Place} (he : Expr.Renamed σ ρ e e')
      (hs : Stmt.Renamed σ ρ s s') : Stmt.Renamed σ ρ (.loop e s place) (.loop e' s' place)
  | breakOut {ρ : Marks} (place : Place) : Stmt.Renamed σ ρ (.breakOut place) (.breakOut place)
  | function {ρ : Marks} {f f' : Function} (hn : σ.kept (ρ 0) f.name)
      (hf : Function.Renamed σ ρ f f') : Stmt.Renamed σ ρ (.function f) (.function f')
  | returnNil {ρ : Marks} (place : Place) :
    Stmt.Renamed σ ρ (.returnWith none place) (.returnWith none place)
  | returnWith {ρ : Marks} {e e' : Expr} {place : Place} (he : Expr.Renamed σ ρ e e') :
    Stmt.Renamed σ ρ (.returnWith (some e) place) (.returnWith (some e') place)
  | plainClass {ρ : Marks} {n : Name} {fs fs' : List Function} (hn : σ.kept (ρ 0) n)
      (hs : Function.AllRenamed σ (ρ.push false) fs fs') :
    Stmt.Renamed σ ρ (.classDecl n none fs) (.classDecl n none fs')
  | subclass {ρ : Marks} {n : Name} {r r' : Reference} {fs fs' : List Function}
      (hn : σ.kept (ρ 0) n) (hr : r.Renamed σ ρ r')
      (hs : Function.AllRenamed σ ((ρ.push false).push false) fs fs') :
    Stmt.Renamed σ ρ (.classDecl n (some r) fs) (.classDecl n (some r') fs')

inductive Stmt.AllRenamed (σ : Renaming) : Marks → List Stmt → List Stmt → Prop
  | nil {ρ : Marks} : Stmt.AllRenamed σ ρ [] []
  | cons {ρ : Marks} {s s' : Stmt} {ss ss' : List Stmt} (h : Stmt.Renamed σ ρ s s')
      (hs : Stmt.AllRenamed σ ρ ss ss') : Stmt.AllRenamed σ ρ (s :: ss) (s' :: ss')

/-- The function becomes another of the same name. -/
inductive Function.Renamed (σ : Renaming) : Marks → Function → Function → Prop
  | mk {ρ : Marks} {n : Name} {ps ps' : List Name} {ss ss' : List Stmt} (b : Bool)
      (hm : σ.marked b ps ss) (hp : List.Forall₂ (σ.declared b) ps ps')
      (hs : Stmt.AllRenamed σ (ρ.push b) ss ss') :
    Function.Renamed σ ρ (.mk n ps ss) (.mk n ps' ss')

inductive Function.AllRenamed (σ : Renaming) : Marks → List Function → List Function → Prop
  | nil {ρ : Marks} : Function.AllRenamed σ ρ [] []
  | cons {ρ : Marks} {f f' : Function} {fs fs' : List Function} (h : Function.Renamed σ ρ f f')
      (hs : Function.AllRenamed σ ρ fs fs') : Function.AllRenamed σ ρ (f :: fs) (f' :: fs')

end

/-- The declaration, in a scope with a mark, gets the text `y`. -/
def Name.redeclare (n d : Name) (y : String) (b : Bool) : Name :=
  if b ∧ n = d then { n with text := y } else n

/-- A use of the declared name, bound to a scope with a mark, gets the text `y`. -/
def Name.rebind (n d : Name) (y : String) (b : Bool) : Name :=
  if b ∧ n.text = d.text then { n with text := y } else n

/-- The declaration `d` and the uses bound to its scope get the text `y`, which no name of the
tree has. A scope has a mark only if `d` is a variable or parameter of it. -/
def Renaming.of (d : Name) (y : String) : Renaming where
  declared b n n' := n.text ≠ y ∧ n' = n.redeclare d y b
  used b n n' := n.text ≠ y ∧ n' = n.rebind d y b
  kept _ n := n.text ≠ y
  marked b params body := b → d ∈ params ∨ ∃ initial, .declare d initial ∈ body

/-! ## Exchanged texts -/

/-- The text of a name once `x` and `y` have changed places in scopes with a mark. -/
def exchange (x y : String) (b : Bool) (s : String) : String := if b then Equiv.swap x y s else s

def Name.exchange (x y : String) (b : Bool) (n : Name) : Name :=
  { n with text := LoxLang.exchange x y b n.text }

section
variable (x y : String) (b : Bool)

@[simp] theorem exchange_exchange (s : String) : exchange x y b (exchange x y b s) = s := by
  cases b
  · rfl
  · exact Equiv.swap_apply_self x y s

theorem exchange_eq_iff (s t : String) : exchange x y b s = exchange x y b t ↔ s = t := by
  cases b
  · exact Iff.rfl
  · exact (Equiv.swap x y).apply_eq_iff_eq

theorem exchange_of_ne {s : String} (hx : s ≠ x) (hy : s ≠ y) : exchange x y b s = s := by
  cases b
  · rfl
  · exact Equiv.swap_apply_of_ne_of_ne hx hy

/-- All but the second text are put in the place of the first or left as they are. -/
theorem exchange_eq_ite {s : String} (h : s ≠ y) :
    exchange x y b s = if b ∧ s = x then y else s := by
  cases b
  · rfl
  · by_cases hx : s = x
    · subst hx
      simp [exchange]
    · simp [exchange_of_ne x y true hx h, hx]

theorem Name.exchange_eq_ite {n : Name} (h : n.text ≠ y) :
    n.exchange x y b = if b ∧ n.text = x then { n with text := y } else n := by
  rw [Name.exchange, LoxLang.exchange_eq_ite x y b h]
  split <;> rfl

/-- In scopes with a mark the two texts change places, for variables, parameters and uses;
functions and classes there have other names. -/
def Renaming.swap : Renaming where
  declared b n n' := n' = n.exchange x y b
  used b n n' := n' = n.exchange x y b
  kept b n := n.exchange x y b = n
  marked _ _ _ := True

end

/-! ## Nothing is renamed -/

section
variable (x y : String)

theorem Reference.renamed_self (r : Reference) : r.Renamed (.swap x y) .none r := by
  refine ⟨rfl, ?_⟩
  cases r.depth <;> rfl

theorem forall₂_declared_self (ps : List Name) :
    List.Forall₂ ((Renaming.swap x y).declared false) ps ps :=
  List.forall₂_same.2 fun _ _ => rfl

mutual

/-- Without marks a tree becomes itself. -/
theorem Expr.renamed_self (e : Expr) : e.Renamed (.swap x y) .none e := by
  match e with
  | .literal value place => exact .literal value place
  | .group e _ => exact .group e.renamed_self
  | .unary _ e _ => exact .unary e.renamed_self
  | .binary _ l r _ => exact .binary l.renamed_self r.renamed_self
  | .sequence es _ => exact .sequence (Expr.allRenamed_self es)
  | .read r => exact .read (r.renamed_self x y)
  | .assign r e => exact .assign (r.renamed_self x y) e.renamed_self
  | .call f es _ => exact .call f.renamed_self (Expr.allRenamed_self es)
  | .lambda ps ss _ =>
    refine .lambda false trivial (forall₂_declared_self x y ps) ?_
    rw [Marks.push_none]
    exact Stmt.allRenamed_self ss
  | .get e _ => exact .get e.renamed_self
  | .set e _ v => exact .set e.renamed_self v.renamed_self
  | .this depth place => exact .this depth place
  | .super method depth place => exact .super method depth place

theorem Expr.allRenamed_self (es : List Expr) : Expr.AllRenamed (.swap x y) .none es es := by
  match es with
  | [] => exact .nil
  | e :: es => exact .cons e.renamed_self (Expr.allRenamed_self es)

theorem Stmt.renamed_self (s : Stmt) : s.Renamed (.swap x y) .none s := by
  match s with
  | .expression e => exact .expression e.renamed_self
  | .print e _ => exact .print e.renamed_self
  | .declare n none => exact .declare rfl
  | .declare n (some e) => exact .declareWith rfl e.renamed_self
  | .block ss _ =>
    refine .block false trivial ?_
    rw [Marks.push_none]
    exact Stmt.allRenamed_self ss
  | .branch e s none _ => exact .branch e.renamed_self s.renamed_self
  | .branch e s (some t) _ => exact .branchElse e.renamed_self s.renamed_self t.renamed_self
  | .loop e s _ => exact .loop e.renamed_self s.renamed_self
  | .breakOut place => exact .breakOut place
  | .function f => exact .function rfl f.renamed_self
  | .returnWith none place => exact .returnNil place
  | .returnWith (some e) _ => exact .returnWith e.renamed_self
  | .classDecl n none fs =>
    refine .plainClass rfl ?_
    rw [Marks.push_none]
    exact Function.allRenamed_self fs
  | .classDecl n (some r) fs =>
    refine .subclass rfl (r.renamed_self x y) ?_
    rw [Marks.push_none, Marks.push_none]
    exact Function.allRenamed_self fs

theorem Stmt.allRenamed_self (ss : List Stmt) : Stmt.AllRenamed (.swap x y) .none ss ss := by
  match ss with
  | [] => exact .nil
  | s :: ss => exact .cons s.renamed_self (Stmt.allRenamed_self ss)

theorem Function.renamed_self (f : Function) : f.Renamed (.swap x y) .none f := by
  match f with
  | .mk n ps ss =>
    refine .mk false trivial (forall₂_declared_self x y ps) ?_
    rw [Marks.push_none]
    exact Stmt.allRenamed_self ss

theorem Function.allRenamed_self (fs : List Function) :
    Function.AllRenamed (.swap x y) .none fs fs := by
  match fs with
  | [] => exact .nil
  | f :: fs => exact .cons f.renamed_self (Function.allRenamed_self fs)

end

end

/-! ## What stays -/

section
variable {x y : String} {ρ : Marks}

/-- A renamed reference has the depth that it had. -/
theorem Reference.Renamed.depth {r r' : Reference} (h : r.Renamed (.swap x y) ρ r') :
    r'.depth = r.depth := h.1

/-- A renamed reference has the other name just if it is marked at its depth. -/
theorem Reference.Renamed.name {r r' : Reference} (h : r.Renamed (.swap x y) ρ r') :
    r'.name = r.name.exchange x y (r.depth.elim false ρ) := h.2

/-- The text of a renamed reference is exchanged just if it is marked at its depth. -/
theorem Reference.Renamed.text {r r' : Reference} (h : r.Renamed (.swap x y) ρ r') :
    r'.name.text = exchange x y (r.depth.elim false ρ) r.name.text := congrArg Name.text h.name

/-- A use of another name than one that is not `y` is still of another name. -/
theorem Reference.Renamed.text_ne {r r' : Reference} (h : r.Renamed (.swap x y) ρ r') {n : String}
    (hr : r.name.text ≠ y) (hn : n ≠ y) (hne : r.name.text ≠ n) : r'.name.text ≠ n := by
  rw [h.text, exchange_eq_ite _ _ _ hr]
  split
  · exact hn.symm
  · exact hne

/-- Problems with a renamed expression are reported where they were. -/
theorem Expr.Renamed.place {e e' : Expr} (h : e.Renamed (.swap x y) ρ e') : e'.place = e.place := by
  cases h with
  | read hr | assign hr _ =>
    rw [Expr.place, Expr.place, hr.name]
    rfl
  | _ => rfl

theorem Function.Renamed.name {f f' : Function} (h : f.Renamed (.swap x y) ρ f') :
    f'.name = f.name := by
  cases h
  rfl

end

end LoxLang
