import Mathlib.Data.List.Forall2
import LoxLang.Tree.Basic

/-!
# The same tree elsewhere

Two trees are the same tree *elsewhere* if they differ in places at most, and those that
take each other's stead are related. `moved` puts every place of a tree through a function;
what comes out is the same tree elsewhere.
-/

namespace LoxLang

/-! ## Moving -/

section
variable (g : Place → Place)

def Name.moved (n : Name) : Name := ⟨n.text, g n.place⟩

def Reference.moved (r : Reference) : Reference := ⟨r.name.moved g, r.depth⟩

mutual

def Expr.moved : Expr → Expr
  | .literal value place => .literal value (g place)
  | .group inner place => .group inner.moved (g place)
  | .unary op operand place => .unary op operand.moved (g place)
  | .binary op left right place => .binary op left.moved right.moved (g place)
  | .sequence items place => .sequence (Expr.allMoved items) (g place)
  | .read target => .read (target.moved g)
  | .assign target value => .assign (target.moved g) value.moved
  | .call callee arguments place => .call callee.moved (Expr.allMoved arguments) (g place)
  | .lambda params body place =>
    .lambda (params.map (·.moved g)) (Stmt.allMoved body) (g place)
  | .get object property => .get object.moved (property.moved g)
  | .set object property value => .set object.moved (property.moved g) value.moved
  | .this depth place => .this depth (g place)
  | .super method depth place => .super (method.moved g) depth (g place)

def Expr.allMoved : List Expr → List Expr
  | [] => []
  | e :: es => e.moved :: Expr.allMoved es

def Stmt.moved : Stmt → Stmt
  | .expression e => .expression e.moved
  | .print e place => .print e.moved (g place)
  | .declare name none => .declare (name.moved g) none
  | .declare name (some initial) => .declare (name.moved g) (some initial.moved)
  | .block body place => .block (Stmt.allMoved body) (g place)
  | .branch test yes none place => .branch test.moved yes.moved none (g place)
  | .branch test yes (some no) place => .branch test.moved yes.moved (some no.moved) (g place)
  | .loop test body place => .loop test.moved body.moved (g place)
  | .breakOut place => .breakOut (g place)
  | .function f => .function f.moved
  | .returnWith none place => .returnWith none (g place)
  | .returnWith (some value) place => .returnWith (some value.moved) (g place)
  | .classDecl name none methods => .classDecl (name.moved g) none (Function.allMoved methods)
  | .classDecl name (some superclass) methods =>
    .classDecl (name.moved g) (some (superclass.moved g)) (Function.allMoved methods)

def Stmt.allMoved : List Stmt → List Stmt
  | [] => []
  | s :: ss => s.moved :: Stmt.allMoved ss

def Function.moved : Function → Function
  | .mk name params body => .mk (name.moved g) (params.map (·.moved g)) (Stmt.allMoved body)

def Function.allMoved : List Function → List Function
  | [] => []
  | f :: fs => f.moved :: Function.allMoved fs

end

theorem Expr.allMoved_eq_map (es : List Expr) : Expr.allMoved g es = es.map (Expr.moved g) := by
  induction es with
  | nil => rfl
  | cons e es ih => rw [Expr.allMoved, ih, List.map_cons]

@[simp] theorem Name.moved_text (n : Name) : (n.moved g).text = n.text := rfl

end

/-! ## Elsewhere -/

section
variable (R : Place → Place → Prop)

structure Name.Elsewhere (n n' : Name) : Prop where
  text : n'.text = n.text
  place : R n.place n'.place

structure Reference.Elsewhere (r r' : Reference) : Prop where
  depth : r'.depth = r.depth
  name : r.name.Elsewhere R r'.name

abbrev Name.AllElsewhere : List Name → List Name → Prop := List.Forall₂ (Name.Elsewhere R)

mutual

inductive Expr.Elsewhere : Expr → Expr → Prop
  | literal {p p' : Place} (value : Literal) (hp : R p p') :
    Expr.Elsewhere (.literal value p) (.literal value p')
  | group {e e' : Expr} {p p' : Place} (he : Expr.Elsewhere e e') (hp : R p p') :
    Expr.Elsewhere (.group e p) (.group e' p')
  | unary {op : UnaryOp} {e e' : Expr} {p p' : Place} (he : Expr.Elsewhere e e') (hp : R p p') :
    Expr.Elsewhere (.unary op e p) (.unary op e' p')
  | binary {op : BinaryOp} {l l' r r' : Expr} {p p' : Place} (hl : Expr.Elsewhere l l')
      (hr : Expr.Elsewhere r r') (hp : R p p') :
    Expr.Elsewhere (.binary op l r p) (.binary op l' r' p')
  | sequence {es es' : List Expr} {p p' : Place} (hs : Expr.AllElsewhere es es') (hp : R p p') :
    Expr.Elsewhere (.sequence es p) (.sequence es' p')
  | read {r r' : Reference} (hr : r.Elsewhere R r') : Expr.Elsewhere (.read r) (.read r')
  | assign {r r' : Reference} {e e' : Expr} (hr : r.Elsewhere R r') (he : Expr.Elsewhere e e') :
    Expr.Elsewhere (.assign r e) (.assign r' e')
  | call {f f' : Expr} {es es' : List Expr} {p p' : Place} (hf : Expr.Elsewhere f f')
      (hs : Expr.AllElsewhere es es') (hp : R p p') :
    Expr.Elsewhere (.call f es p) (.call f' es' p')
  | lambda {ps ps' : List Name} {ss ss' : List Stmt} {p p' : Place}
      (hn : Name.AllElsewhere R ps ps') (hs : Stmt.AllElsewhere ss ss') (hp : R p p') :
    Expr.Elsewhere (.lambda ps ss p) (.lambda ps' ss' p')
  | get {e e' : Expr} {n n' : Name} (he : Expr.Elsewhere e e') (hn : n.Elsewhere R n') :
    Expr.Elsewhere (.get e n) (.get e' n')
  | set {e e' v v' : Expr} {n n' : Name} (he : Expr.Elsewhere e e') (hn : n.Elsewhere R n')
      (hv : Expr.Elsewhere v v') : Expr.Elsewhere (.set e n v) (.set e' n' v')
  | this {p p' : Place} (depth : Option Nat) (hp : R p p') :
    Expr.Elsewhere (.this depth p) (.this depth p')
  | super {n n' : Name} {p p' : Place} (hn : n.Elsewhere R n') (depth : Option Nat) (hp : R p p') :
    Expr.Elsewhere (.super n depth p) (.super n' depth p')

inductive Expr.AllElsewhere : List Expr → List Expr → Prop
  | nil : Expr.AllElsewhere [] []
  | cons {e e' : Expr} {es es' : List Expr} (he : Expr.Elsewhere e e')
      (hs : Expr.AllElsewhere es es') : Expr.AllElsewhere (e :: es) (e' :: es')

inductive Stmt.Elsewhere : Stmt → Stmt → Prop
  | expression {e e' : Expr} (he : Expr.Elsewhere e e') :
    Stmt.Elsewhere (.expression e) (.expression e')
  | print {e e' : Expr} {p p' : Place} (he : Expr.Elsewhere e e') (hp : R p p') :
    Stmt.Elsewhere (.print e p) (.print e' p')
  | declare {n n' : Name} (hn : n.Elsewhere R n') :
    Stmt.Elsewhere (.declare n none) (.declare n' none)
  | declareWith {n n' : Name} {e e' : Expr} (hn : n.Elsewhere R n') (he : Expr.Elsewhere e e') :
    Stmt.Elsewhere (.declare n (some e)) (.declare n' (some e'))
  | block {ss ss' : List Stmt} {p p' : Place} (hs : Stmt.AllElsewhere ss ss') (hp : R p p') :
    Stmt.Elsewhere (.block ss p) (.block ss' p')
  | branch {e e' : Expr} {s s' : Stmt} {p p' : Place} (he : Expr.Elsewhere e e')
      (hs : Stmt.Elsewhere s s') (hp : R p p') :
    Stmt.Elsewhere (.branch e s none p) (.branch e' s' none p')
  | branchElse {e e' : Expr} {s s' t t' : Stmt} {p p' : Place} (he : Expr.Elsewhere e e')
      (hs : Stmt.Elsewhere s s') (ht : Stmt.Elsewhere t t') (hp : R p p') :
    Stmt.Elsewhere (.branch e s (some t) p) (.branch e' s' (some t') p')
  | loop {e e' : Expr} {s s' : Stmt} {p p' : Place} (he : Expr.Elsewhere e e')
      (hs : Stmt.Elsewhere s s') (hp : R p p') : Stmt.Elsewhere (.loop e s p) (.loop e' s' p')
  | breakOut {p p' : Place} (hp : R p p') : Stmt.Elsewhere (.breakOut p) (.breakOut p')
  | function {f f' : Function} (hf : Function.Elsewhere f f') :
    Stmt.Elsewhere (.function f) (.function f')
  | returnNil {p p' : Place} (hp : R p p') :
    Stmt.Elsewhere (.returnWith none p) (.returnWith none p')
  | returnWith {e e' : Expr} {p p' : Place} (he : Expr.Elsewhere e e') (hp : R p p') :
    Stmt.Elsewhere (.returnWith (some e) p) (.returnWith (some e') p')
  | plainClass {n n' : Name} {fs fs' : List Function} (hn : n.Elsewhere R n')
      (hs : Function.AllElsewhere fs fs') :
    Stmt.Elsewhere (.classDecl n none fs) (.classDecl n' none fs')
  | subclass {n n' : Name} {r r' : Reference} {fs fs' : List Function} (hn : n.Elsewhere R n')
      (hr : r.Elsewhere R r') (hs : Function.AllElsewhere fs fs') :
    Stmt.Elsewhere (.classDecl n (some r) fs) (.classDecl n' (some r') fs')

inductive Stmt.AllElsewhere : List Stmt → List Stmt → Prop
  | nil : Stmt.AllElsewhere [] []
  | cons {s s' : Stmt} {ss ss' : List Stmt} (h : Stmt.Elsewhere s s')
      (hs : Stmt.AllElsewhere ss ss') : Stmt.AllElsewhere (s :: ss) (s' :: ss')

inductive Function.Elsewhere : Function → Function → Prop
  | mk {n n' : Name} {ps ps' : List Name} {ss ss' : List Stmt} (hn : n.Elsewhere R n')
      (hp : Name.AllElsewhere R ps ps') (hs : Stmt.AllElsewhere ss ss') :
    Function.Elsewhere (.mk n ps ss) (.mk n' ps' ss')

inductive Function.AllElsewhere : List Function → List Function → Prop
  | nil : Function.AllElsewhere [] []
  | cons {f f' : Function} {fs fs' : List Function} (h : Function.Elsewhere f f')
      (hs : Function.AllElsewhere fs fs') : Function.AllElsewhere (f :: fs) (f' :: fs')

end

variable {R}

/-- Problems with the expression are reported at related places. -/
theorem Expr.Elsewhere.place {e e' : Expr} (h : e.Elsewhere R e') : R e.place e'.place := by
  cases h with
  | read hr | assign hr _ => exact hr.name.place
  | get _ hn | set _ hn _ => exact hn.place
  | _ => assumption

end

/-! ## Moving to elsewhere -/

section
variable {R : Place → Place → Prop} {g h : Place → Place}

section
variable (hR : ∀ p, R (g p) (h p))
include hR

theorem Name.elsewhere_moved (n : Name) : (n.moved g).Elsewhere R (n.moved h) := ⟨rfl, hR n.place⟩

theorem Reference.elsewhere_moved (r : Reference) : (r.moved g).Elsewhere R (r.moved h) :=
  ⟨rfl, r.name.elsewhere_moved hR⟩

theorem Name.allElsewhere_moved (ns : List Name) :
    Name.AllElsewhere R (ns.map (·.moved g)) (ns.map (·.moved h)) := by
  rw [Name.AllElsewhere, List.forall₂_map_left_iff, List.forall₂_map_right_iff]
  exact List.forall₂_same.2 fun n _ => n.elsewhere_moved hR

end

mutual

/-- A tree moved in two ways is the same tree elsewhere. -/
theorem Expr.elsewhere_moved (hR : ∀ p, R (g p) (h p)) (e : Expr) :
    (e.moved g).Elsewhere R (e.moved h) := by
  match e with
  | .literal value p => exact .literal value (hR p)
  | .group e p => exact .group (e.elsewhere_moved hR) (hR p)
  | .unary _ e p => exact .unary (e.elsewhere_moved hR) (hR p)
  | .binary _ l r p => exact .binary (l.elsewhere_moved hR) (r.elsewhere_moved hR) (hR p)
  | .sequence es p => exact .sequence (Expr.allElsewhere_moved hR es) (hR p)
  | .read r => exact .read (r.elsewhere_moved hR)
  | .assign r e => exact .assign (r.elsewhere_moved hR) (e.elsewhere_moved hR)
  | .call f es p => exact .call (f.elsewhere_moved hR) (Expr.allElsewhere_moved hR es) (hR p)
  | .lambda ps ss p =>
    exact .lambda (Name.allElsewhere_moved hR ps) (Stmt.allElsewhere_moved hR ss) (hR p)
  | .get e n => exact .get (e.elsewhere_moved hR) (n.elsewhere_moved hR)
  | .set e n v => exact .set (e.elsewhere_moved hR) (n.elsewhere_moved hR) (v.elsewhere_moved hR)
  | .this depth p => exact .this depth (hR p)
  | .super n depth p => exact .super (n.elsewhere_moved hR) depth (hR p)

theorem Expr.allElsewhere_moved (hR : ∀ p, R (g p) (h p)) (es : List Expr) :
    Expr.AllElsewhere R (Expr.allMoved g es) (Expr.allMoved h es) := by
  match es with
  | [] => exact .nil
  | e :: es => exact .cons (e.elsewhere_moved hR) (Expr.allElsewhere_moved hR es)

theorem Stmt.elsewhere_moved (hR : ∀ p, R (g p) (h p)) (s : Stmt) :
    (s.moved g).Elsewhere R (s.moved h) := by
  match s with
  | .expression e => exact .expression (e.elsewhere_moved hR)
  | .print e p => exact .print (e.elsewhere_moved hR) (hR p)
  | .declare n none => exact .declare (n.elsewhere_moved hR)
  | .declare n (some e) => exact .declareWith (n.elsewhere_moved hR) (e.elsewhere_moved hR)
  | .block ss p => exact .block (Stmt.allElsewhere_moved hR ss) (hR p)
  | .branch e s none p => exact .branch (e.elsewhere_moved hR) (s.elsewhere_moved hR) (hR p)
  | .branch e s (some t) p =>
    exact .branchElse (e.elsewhere_moved hR) (s.elsewhere_moved hR) (t.elsewhere_moved hR) (hR p)
  | .loop e s p => exact .loop (e.elsewhere_moved hR) (s.elsewhere_moved hR) (hR p)
  | .breakOut p => exact .breakOut (hR p)
  | .function f => exact .function (f.elsewhere_moved hR)
  | .returnWith none p => exact .returnNil (hR p)
  | .returnWith (some e) p => exact .returnWith (e.elsewhere_moved hR) (hR p)
  | .classDecl n none fs =>
    exact .plainClass (n.elsewhere_moved hR) (Function.allElsewhere_moved hR fs)
  | .classDecl n (some r) fs =>
    exact .subclass (n.elsewhere_moved hR) (r.elsewhere_moved hR)
      (Function.allElsewhere_moved hR fs)

theorem Stmt.allElsewhere_moved (hR : ∀ p, R (g p) (h p)) (ss : List Stmt) :
    Stmt.AllElsewhere R (Stmt.allMoved g ss) (Stmt.allMoved h ss) := by
  match ss with
  | [] => exact .nil
  | s :: ss => exact .cons (s.elsewhere_moved hR) (Stmt.allElsewhere_moved hR ss)

theorem Function.elsewhere_moved (hR : ∀ p, R (g p) (h p)) (f : Function) :
    (f.moved g).Elsewhere R (f.moved h) := by
  match f with
  | .mk n ps ss =>
    exact .mk (n.elsewhere_moved hR) (Name.allElsewhere_moved hR ps) (Stmt.allElsewhere_moved hR ss)

theorem Function.allElsewhere_moved (hR : ∀ p, R (g p) (h p)) (fs : List Function) :
    Function.AllElsewhere R (Function.allMoved g fs) (Function.allMoved h fs) := by
  match fs with
  | [] => exact .nil
  | f :: fs => exact .cons (f.elsewhere_moved hR) (Function.allElsewhere_moved hR fs)

end

end

/-! ## Staying -/

mutual

/-- A tree whose places stay is that tree. -/
theorem Expr.moved_id (e : Expr) : e.moved id = e := by
  match e with
  | .literal .. | .read _ | .this .. | .super .. => rfl
  | .group e _ => exact congrArg (Expr.group · _) e.moved_id
  | .unary op e _ => exact congrArg (Expr.unary op · _) e.moved_id
  | .binary op l r _ => exact congrArg₂ (Expr.binary op · · _) l.moved_id r.moved_id
  | .sequence es _ => exact congrArg (Expr.sequence · _) (Expr.allMoved_id es)
  | .assign r e => exact congrArg (Expr.assign r ·) e.moved_id
  | .call f es _ => exact congrArg₂ (Expr.call · · _) f.moved_id (Expr.allMoved_id es)
  | .lambda ps ss _ =>
    exact congrArg₂ (Expr.lambda · · _) (List.map_id ps) (Stmt.allMoved_id ss)
  | .get e n => exact congrArg (Expr.get · n) e.moved_id
  | .set e n v => exact congrArg₂ (Expr.set · n ·) e.moved_id v.moved_id

theorem Expr.allMoved_id (es : List Expr) : Expr.allMoved id es = es := by
  match es with
  | [] => rfl
  | e :: es => exact congrArg₂ List.cons e.moved_id (Expr.allMoved_id es)

theorem Stmt.moved_id (s : Stmt) : s.moved id = s := by
  match s with
  | .declare _ none | .breakOut _ | .returnWith none _ => rfl
  | .expression e => exact congrArg Stmt.expression e.moved_id
  | .print e _ => exact congrArg (Stmt.print · _) e.moved_id
  | .declare n (some e) => exact congrArg (Stmt.declare n <| some ·) e.moved_id
  | .block ss _ => exact congrArg (Stmt.block · _) (Stmt.allMoved_id ss)
  | .branch e s none _ => exact congrArg₂ (Stmt.branch · · none _) e.moved_id s.moved_id
  | .branch e s (some t) p =>
    rw [Stmt.moved, e.moved_id, s.moved_id, t.moved_id]
    rfl
  | .loop e s _ => exact congrArg₂ (Stmt.loop · · _) e.moved_id s.moved_id
  | .function f => exact congrArg Stmt.function f.moved_id
  | .returnWith (some e) _ => exact congrArg (Stmt.returnWith · _) (congrArg some e.moved_id)
  | .classDecl n none fs => exact congrArg (Stmt.classDecl n none) (Function.allMoved_id fs)
  | .classDecl n (some r) fs =>
    exact congrArg (Stmt.classDecl n (some r)) (Function.allMoved_id fs)

theorem Stmt.allMoved_id (ss : List Stmt) : Stmt.allMoved id ss = ss := by
  match ss with
  | [] => rfl
  | s :: ss => exact congrArg₂ List.cons s.moved_id (Stmt.allMoved_id ss)

theorem Function.moved_id (f : Function) : f.moved id = f := by
  match f with
  | .mk n ps ss => exact congrArg₂ (Function.mk n) (List.map_id ps) (Stmt.allMoved_id ss)

theorem Function.allMoved_id (fs : List Function) : Function.allMoved id fs = fs := by
  match fs with
  | [] => rfl
  | f :: fs => exact congrArg₂ List.cons f.moved_id (Function.allMoved_id fs)

end

section
variable {R : Place → Place → Prop} (hR : ∀ p, R p p)
include hR

/-- Where every place is related to itself, so is every tree. -/
theorem Stmt.allElsewhere_self (ss : List Stmt) : Stmt.AllElsewhere R ss ss := by
  have h := Stmt.allElsewhere_moved (g := id) (h := id) hR ss
  rwa [Stmt.allMoved_id] at h

theorem Expr.elsewhere_self (e : Expr) : e.Elsewhere R e := by
  have h := Expr.elsewhere_moved (g := id) (h := id) hR e
  rwa [Expr.moved_id] at h

end

/-! ## Places that are the same -/

theorem Name.Elsewhere.eq {n n' : Name} (h : n.Elsewhere Eq n') : n' = n :=
  congrArg₂ Name.mk h.text h.place.symm

theorem Reference.Elsewhere.eq {r r' : Reference} (h : r.Elsewhere Eq r') : r' = r :=
  congrArg₂ Reference.mk h.name.eq h.depth

theorem Name.AllElsewhere.eq {ns ns' : List Name} (h : Name.AllElsewhere Eq ns ns') : ns' = ns := by
  induction h with
  | nil => rfl
  | cons h _ ih => rw [h.eq, ih]

mutual

/-- A tree that is nowhere else is that tree. -/
theorem Expr.Elsewhere.eq : ∀ {e e' : Expr}, e.Elsewhere Eq e' → e' = e
  | .literal .., _, .literal _ hp => by rw [hp]
  | .group .., _, .group h hp => by rw [h.eq, hp]
  | .unary .., _, .unary h hp => by rw [h.eq, hp]
  | .binary .., _, .binary hl hr hp => by rw [hl.eq, hr.eq, hp]
  | .sequence .., _, .sequence hs hp => by rw [Expr.AllElsewhere.eq hs, hp]
  | .read _, _, .read hr => by rw [hr.eq]
  | .assign .., _, .assign hr h => by rw [hr.eq, h.eq]
  | .call .., _, .call hf hs hp => by rw [hf.eq, Expr.AllElsewhere.eq hs, hp]
  | .lambda .., _, .lambda hn hs hp => by
    rw [Name.AllElsewhere.eq hn, Stmt.AllElsewhere.eq hs, hp]
  | .get .., _, .get h hn => by rw [h.eq, hn.eq]
  | .set .., _, .set h hn hv => by rw [h.eq, hn.eq, hv.eq]
  | .this .., _, .this _ hp => by rw [hp]
  | .super .., _, .super hn _ hp => by rw [hn.eq, hp]
termination_by structural e => e

theorem Expr.AllElsewhere.eq : ∀ {es es' : List Expr}, Expr.AllElsewhere Eq es es' → es' = es
  | [], _, .nil => rfl
  | _ :: _, _, .cons h hs => by rw [h.eq, Expr.AllElsewhere.eq hs]
termination_by structural es => es

theorem Stmt.Elsewhere.eq : ∀ {s s' : Stmt}, s.Elsewhere Eq s' → s' = s
  | .expression _, _, .expression h => by rw [h.eq]
  | .print .., _, .print h hp => by rw [h.eq, hp]
  | .declare _ none, _, .declare hn => by rw [hn.eq]
  | .declare _ (some _), _, .declareWith hn h => by rw [hn.eq, h.eq]
  | .block .., _, .block hs hp => by rw [Stmt.AllElsewhere.eq hs, hp]
  | .branch _ _ none _, _, .branch h hs hp => by rw [h.eq, hs.eq, hp]
  | .branch _ _ (some _) _, _, .branchElse h hs ht hp => by rw [h.eq, hs.eq, ht.eq, hp]
  | .loop .., _, .loop h hs hp => by rw [h.eq, hs.eq, hp]
  | .breakOut _, _, .breakOut hp => by rw [hp]
  | .function _, _, .function hf => by rw [hf.eq]
  | .returnWith none _, _, .returnNil hp => by rw [hp]
  | .returnWith (some _) _, _, .returnWith h hp => by rw [h.eq, hp]
  | .classDecl _ none _, _, .plainClass hn hs => by rw [hn.eq, Function.AllElsewhere.eq hs]
  | .classDecl _ (some _) _, _, .subclass hn hr hs => by
    rw [hn.eq, hr.eq, Function.AllElsewhere.eq hs]
termination_by structural s => s

theorem Stmt.AllElsewhere.eq : ∀ {ss ss' : List Stmt}, Stmt.AllElsewhere Eq ss ss' → ss' = ss
  | [], _, .nil => rfl
  | _ :: _, _, .cons h hs => by rw [h.eq, Stmt.AllElsewhere.eq hs]
termination_by structural ss => ss

theorem Function.Elsewhere.eq : ∀ {f f' : Function}, f.Elsewhere Eq f' → f' = f
  | .mk .., _, .mk hn hp hs => by rw [hn.eq, Name.AllElsewhere.eq hp, Stmt.AllElsewhere.eq hs]
termination_by structural f => f

theorem Function.AllElsewhere.eq :
    ∀ {fs fs' : List Function}, Function.AllElsewhere Eq fs fs' → fs' = fs
  | [], _, .nil => rfl
  | _ :: _, _, .cons h hs => by rw [h.eq, Function.AllElsewhere.eq hs]
termination_by structural fs => fs

end

/-! ## More places related -/

section
variable {R S : Place → Place → Prop}

theorem Name.Elsewhere.mono (hRS : ∀ p p', R p p' → S p p') {n n' : Name} (h : n.Elsewhere R n') :
    n.Elsewhere S n' := ⟨h.text, hRS _ _ h.place⟩

/-- A reference may be told less about its places. -/
theorem Reference.Elsewhere.mono (hRS : ∀ p p', R p p' → S p p') {r r' : Reference}
    (h : r.Elsewhere R r') : r.Elsewhere S r' := ⟨h.depth, h.name.mono hRS⟩

/-- Names may be told less about their places. -/
theorem Name.AllElsewhere.mono (hRS : ∀ p p', R p p' → S p p') {ns ns' : List Name}
    (h : Name.AllElsewhere R ns ns') : Name.AllElsewhere S ns ns' :=
  List.Forall₂.imp (fun _ _ hn => hn.mono hRS) h

end

mutual

/-- A tree that is elsewhere is so too if more places are related. -/
theorem Expr.Elsewhere.mono {R S : Place → Place → Prop} (hRS : ∀ p p', R p p' → S p p') :
    ∀ {e e' : Expr}, e.Elsewhere R e' → e.Elsewhere S e'
  | .literal .., _, .literal v hp => .literal v (hRS _ _ hp)
  | .group .., _, .group h hp => .group (h.mono hRS) (hRS _ _ hp)
  | .unary .., _, .unary h hp => .unary (h.mono hRS) (hRS _ _ hp)
  | .binary .., _, .binary hl hr hp => .binary (hl.mono hRS) (hr.mono hRS) (hRS _ _ hp)
  | .sequence .., _, .sequence hs hp => .sequence (Expr.AllElsewhere.mono hRS hs) (hRS _ _ hp)
  | .read _, _, .read hr => .read (hr.mono hRS)
  | .assign .., _, .assign hr h => .assign (hr.mono hRS) (h.mono hRS)
  | .call .., _, .call hf hs hp => .call (hf.mono hRS) (Expr.AllElsewhere.mono hRS hs) (hRS _ _ hp)
  | .lambda .., _, .lambda hn hs hp =>
    .lambda (Name.AllElsewhere.mono hRS hn) (Stmt.AllElsewhere.mono hRS hs) (hRS _ _ hp)
  | .get .., _, .get h hn => .get (h.mono hRS) (hn.mono hRS)
  | .set .., _, .set h hn hv => .set (h.mono hRS) (hn.mono hRS) (hv.mono hRS)
  | .this .., _, .this depth hp => .this depth (hRS _ _ hp)
  | .super .., _, .super hn depth hp => .super (hn.mono hRS) depth (hRS _ _ hp)
termination_by structural e => e

/-- Expressions in a row may be told less about their places. -/
theorem Expr.AllElsewhere.mono {R S : Place → Place → Prop} (hRS : ∀ p p', R p p' → S p p') :
    ∀ {es es' : List Expr}, Expr.AllElsewhere R es es' → Expr.AllElsewhere S es es'
  | [], _, .nil => .nil
  | _ :: _, _, .cons h hs => .cons (h.mono hRS) (Expr.AllElsewhere.mono hRS hs)
termination_by structural es => es

/-- A statement may be told less about its places. -/
theorem Stmt.Elsewhere.mono {R S : Place → Place → Prop} (hRS : ∀ p p', R p p' → S p p') :
    ∀ {s s' : Stmt}, s.Elsewhere R s' → s.Elsewhere S s'
  | .expression _, _, .expression h => .expression (h.mono hRS)
  | .print .., _, .print h hp => .print (h.mono hRS) (hRS _ _ hp)
  | .declare _ none, _, .declare hn => .declare (hn.mono hRS)
  | .declare _ (some _), _, .declareWith hn h => .declareWith (hn.mono hRS) (h.mono hRS)
  | .block .., _, .block hs hp => .block (Stmt.AllElsewhere.mono hRS hs) (hRS _ _ hp)
  | .branch _ _ none _, _, .branch h hs hp => .branch (h.mono hRS) (hs.mono hRS) (hRS _ _ hp)
  | .branch _ _ (some _) _, _, .branchElse h hs ht hp =>
    .branchElse (h.mono hRS) (hs.mono hRS) (ht.mono hRS) (hRS _ _ hp)
  | .loop .., _, .loop h hs hp => .loop (h.mono hRS) (hs.mono hRS) (hRS _ _ hp)
  | .breakOut _, _, .breakOut hp => .breakOut (hRS _ _ hp)
  | .function _, _, .function hf => .function (hf.mono hRS)
  | .returnWith none _, _, .returnNil hp => .returnNil (hRS _ _ hp)
  | .returnWith (some _) _, _, .returnWith h hp => .returnWith (h.mono hRS) (hRS _ _ hp)
  | .classDecl _ none _, _, .plainClass hn hs =>
    .plainClass (hn.mono hRS) (Function.AllElsewhere.mono hRS hs)
  | .classDecl _ (some _) _, _, .subclass hn hr hs =>
    .subclass (hn.mono hRS) (hr.mono hRS) (Function.AllElsewhere.mono hRS hs)
termination_by structural s => s

/-- Statements in a row may be told less about their places. -/
theorem Stmt.AllElsewhere.mono {R S : Place → Place → Prop} (hRS : ∀ p p', R p p' → S p p') :
    ∀ {ss ss' : List Stmt}, Stmt.AllElsewhere R ss ss' → Stmt.AllElsewhere S ss ss'
  | [], _, .nil => .nil
  | _ :: _, _, .cons h hs => .cons (h.mono hRS) (Stmt.AllElsewhere.mono hRS hs)
termination_by structural ss => ss

/-- A function may be told less about its places. -/
theorem Function.Elsewhere.mono {R S : Place → Place → Prop} (hRS : ∀ p p', R p p' → S p p') :
    ∀ {f f' : Function}, f.Elsewhere R f' → f.Elsewhere S f'
  | .mk .., _, .mk hn hp hs =>
    .mk (hn.mono hRS) (Name.AllElsewhere.mono hRS hp) (Stmt.AllElsewhere.mono hRS hs)
termination_by structural f => f

/-- Methods in a row may be told less about their places. -/
theorem Function.AllElsewhere.mono {R S : Place → Place → Prop}
    (hRS : ∀ p p', R p p' → S p p') :
    ∀ {fs fs' : List Function}, Function.AllElsewhere R fs fs' → Function.AllElsewhere S fs fs'
  | [], _, .nil => .nil
  | _ :: _, _, .cons h hs => .cons (h.mono hRS) (Function.AllElsewhere.mono hRS hs)
termination_by structural fs => fs

end

end LoxLang
