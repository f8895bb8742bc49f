import LoxLang.Proofs.Renaming.Basic

/-!
# Renaming

`Stmt.renameAll` renames a declaration wherever a scope declares it, with the uses that are
bound there. `Stmt.allRenamed_rename`: this is a renaming to any text that the tree avoids.
-/

namespace LoxLang

/-! ## Texts that a tree avoids -/

def Name.avoids (n : Name) (y : String) : Bool := n.text != y

mutual

/-- No variable, parameter, function, class or use in the expression has the text. -/
def Expr.avoids (y : String) : Expr → Bool
  | .literal _ _ | .this _ _ | .super _ _ _ => true
  | .group e _ | .unary _ e _ | .get e _ => e.avoids y
  | .binary _ l r _ | .set l _ r => l.avoids y && r.avoids y
  | .sequence es _ => Expr.allAvoid y es
  | .read r => r.name.avoids y
  | .assign r e => r.name.avoids y && e.avoids y
  | .call f es _ => f.avoids y && Expr.allAvoid y es
  | .lambda ps ss _ => ps.all (·.avoids y) && Stmt.allAvoid y ss

def Expr.allAvoid (y : String) : List Expr → Bool
  | [] => true
  | e :: es => e.avoids y && Expr.allAvoid y es

/-- No variable, parameter, function, class or use in the statement has the text. -/
def Stmt.avoids (y : String) : Stmt → Bool
  | .expression e | .print e _ | .returnWith (some e) _ => e.avoids y
  | .declare n none => n.avoids y
  | .declare n (some e) => n.avoids y && e.avoids y
  | .block ss _ => Stmt.allAvoid y ss
  | .branch e s none _ | .loop e s _ => e.avoids y && s.avoids y
  | .branch e s (some t) _ => e.avoids y && s.avoids y && t.avoids y
  | .breakOut _ | .returnWith none _ => true
  | .function f => f.avoids y
  | .classDecl n none fs => n.avoids y && Function.allAvoid y fs
  | .classDecl n (some r) fs => n.avoids y && r.name.avoids y && Function.allAvoid y fs

def Stmt.allAvoid (y : String) : List Stmt → Bool
  | [] => true
  | s :: ss => s.avoids y && Stmt.allAvoid y ss

/-- Neither the function nor anything in it has the text. -/
def Function.avoids (y : String) : Function → Bool
  | .mk n ps ss => n.avoids y && ps.all (·.avoids y) && Stmt.allAvoid y ss

def Function.allAvoid (y : String) : List Function → Bool
  | [] => true
  | f :: fs => f.avoids y && Function.allAvoid y fs

end

/-! ## The renamed tree -/

def Stmt.isDeclare (d : Name) : Stmt → Bool
  | .declare n _ => n == d
  | _ => false

/-- Does a scope with these parameters and statements declare the variable? -/
def declaresVariable (d : Name) (params : List Name) (body : List Stmt) : Bool :=
  params.contains d || body.any (·.isDeclare d)

/-- The use, renamed if the scope that it is bound to has a mark. -/
def Reference.rename (d : Name) (y : String) (ρ : Marks) (r : Reference) : Reference :=
  { r with name := r.name.rebind d y (r.depth.elim false ρ) }

mutual

/-- The expression, with the declaration renamed in all scopes that declare it. -/
def Expr.rename (d : Name) (y : String) : Marks → Expr → Expr
  | _, .literal value place => .literal value place
  | ρ, .group e place => .group (e.rename d y ρ) place
  | ρ, .unary op e place => .unary op (e.rename d y ρ) place
  | ρ, .binary op l r place => .binary op (l.rename d y ρ) (r.rename d y ρ) place
  | ρ, .sequence es place => .sequence (Expr.renameAll d y ρ es) place
  | ρ, .read r => .read (r.rename d y ρ)
  | ρ, .assign r e => .assign (r.rename d y ρ) (e.rename d y ρ)
  | ρ, .call f es place => .call (f.rename d y ρ) (Expr.renameAll d y ρ es) place
  | ρ, .lambda ps ss place =>
    let b := declaresVariable d ps ss
    .lambda (ps.map (·.redeclare d y b)) (Stmt.renameAll d y (ρ.push b) ss) place
  | ρ, .get e property => .get (e.rename d y ρ) property
  | ρ, .set e property v => .set (e.rename d y ρ) property (v.rename d y ρ)
  | _, .this depth place => .this depth place
  | _, .super method depth place => .super method depth place

def Expr.renameAll (d : Name) (y : String) : Marks → List Expr → List Expr
  | _, [] => []
  | ρ, e :: es => e.rename d y ρ :: Expr.renameAll d y ρ es

/-- The statement, with the declaration renamed in all scopes that declare it. -/
def Stmt.rename (d : Name) (y : String) : Marks → Stmt → Stmt
  | ρ, .expression e => .expression (e.rename d y ρ)
  | ρ, .print e place => .print (e.rename d y ρ) place
  | ρ, .declare n none => .declare (n.redeclare d y (ρ 0)) none
  | ρ, .declare n (some e) => .declare (n.redeclare d y (ρ 0)) (some (e.rename d y ρ))
  | ρ, .block ss place => .block (Stmt.renameAll d y (ρ.push (declaresVariable d [] ss)) ss) place
  | ρ, .branch e s none place => .branch (e.rename d y ρ) (s.rename d y ρ) none place
  | ρ, .branch e s (some t) place =>
    .branch (e.rename d y ρ) (s.rename d y ρ) (some (t.rename d y ρ)) place
  | ρ, .loop e s place => .loop (e.rename d y ρ) (s.rename d y ρ) place
  | _, .breakOut place => .breakOut place
  | ρ, .function f => .function (f.rename d y ρ)
  | _, .returnWith none place => .returnWith none place
  | ρ, .returnWith (some e) place => .returnWith (some (e.rename d y ρ)) place
  | ρ, .classDecl n none fs => .classDecl n none (Function.renameAll d y (ρ.push false) fs)
  | ρ, .classDecl n (some r) fs =>
    .classDecl n (some (r.rename d y ρ)) (Function.renameAll d y ((ρ.push false).push false) fs)

def Stmt.renameAll (d : Name) (y : String) : Marks → List Stmt → List Stmt
  | _, [] => []
  | ρ, s :: ss => s.rename d y ρ :: Stmt.renameAll d y ρ ss

/-- The function, with the declaration renamed in all scopes that declare it. -/
def Function.rename (d : Name) (y : String) : Marks → Function → Function
  | ρ, .mk n ps ss =>
    let b := declaresVariable d ps ss
    .mk n (ps.map (·.redeclare d y b)) (Stmt.renameAll d y (ρ.push b) ss)

def Function.renameAll (d : Name) (y : String) : Marks → List Function → List Function
  | _, [] => []
  | ρ, f :: fs => f.rename d y ρ :: Function.renameAll d y ρ fs

end

/-! ## It is a renaming -/

section
variable {d : Name} {y : String}

theorem Name.ne_of_avoids {n : Name} (h : n.avoids y) : n.text ≠ y := by
  simpa [Name.avoids] using h

theorem marked_of_declaresVariable {ps : List Name} {ss : List Stmt} :
    (Renaming.of d y).marked (declaresVariable d ps ss) ps ss := by
  intro h
  rw [declaresVariable, Bool.or_eq_true, List.contains_iff_mem, List.any_eq_true] at h
  refine h.imp_right ?_
  rintro ⟨s, hs, hd⟩
  cases s with
  | declare n initial =>
    obtain rfl : n = d := beq_iff_eq.1 hd
    exact ⟨initial, hs⟩
  | _ => cases hd

/-- Parameters that avoid the new name may be declared with it. -/
theorem params_redeclare (b : Bool) {ps : List Name} (h : ps.all (·.avoids y)) :
    List.Forall₂ ((Renaming.of d y).declared b) ps (ps.map (·.redeclare d y b)) := by
  rw [List.forall₂_map_right_iff, List.forall₂_same]
  exact fun n hn => ⟨Name.ne_of_avoids (List.all_eq_true.1 h n hn), rfl⟩

theorem Reference.renamed_rename (ρ : Marks) {r : Reference} (h : r.name.avoids y) :
    r.Renamed (.of d y) ρ (r.rename d y ρ) := ⟨rfl, Name.ne_of_avoids h, rfl⟩

mutual

theorem Expr.renamed_rename (ρ : Marks) (e : Expr) (h : e.avoids y) :
    e.Renamed (.of d y) ρ (e.rename d y ρ) := by
  match e with
  | .literal value place => exact .literal value place
  | .group e _ => exact .group (e.renamed_rename ρ h)
  | .unary _ e _ => exact .unary (e.renamed_rename ρ h)
  | .binary _ l r _ =>
    obtain ⟨hl, hr⟩ := Bool.and_eq_true_iff.1 h
    exact .binary (l.renamed_rename ρ hl) (r.renamed_rename ρ hr)
  | .sequence es _ => exact .sequence (Expr.allRenamed_rename ρ es h)
  | .read r => exact .read (Reference.renamed_rename ρ h)
  | .assign r e =>
    obtain ⟨hr, he⟩ := Bool.and_eq_true_iff.1 h
    exact .assign (Reference.renamed_rename ρ hr) (e.renamed_rename ρ he)
  | .call f es _ =>
    obtain ⟨hf, hs⟩ := Bool.and_eq_true_iff.1 h
    exact .call (f.renamed_rename ρ hf) (Expr.allRenamed_rename ρ es hs)
  | .lambda ps ss _ =>
    obtain ⟨hp, hs⟩ := Bool.and_eq_true_iff.1 h
    exact .lambda _ marked_of_declaresVariable (params_redeclare _ hp)
      (Stmt.allRenamed_rename _ ss hs)
  | .get e _ => exact .get (e.renamed_rename ρ h)
  | .set e _ v =>
    obtain ⟨he, hv⟩ := Bool.and_eq_true_iff.1 h
    exact .set (e.renamed_rename ρ he) (v.renamed_rename ρ hv)
  | .this depth place => exact .this depth place
  | .super method depth place => exact .super method depth place

/-- Expressions that avoid the new name are renamed one by one. -/
theorem Expr.allRenamed_rename (ρ : Marks) (es : List Expr) (h : Expr.allAvoid y es) :
    Expr.AllRenamed (.of d y) ρ es (Expr.renameAll d y ρ es) := by
  match es with
  | [] => exact .nil
  | e :: es =>
    obtain ⟨he, hs⟩ := Bool.and_eq_true_iff.1 h
    exact .cons (e.renamed_rename ρ he) (Expr.allRenamed_rename ρ es hs)

theorem Stmt.renamed_rename (ρ : Marks) (s : Stmt) (h : s.avoids y) :
    s.Renamed (.of d y) ρ (s.rename d y ρ) := by
  match s with
  | .expression e => exact .expression (e.renamed_rename ρ h)
  | .print e _ => exact .print (e.renamed_rename ρ h)
  | .declare n none => exact .declare ⟨Name.ne_of_avoids h, rfl⟩
  | .declare n (some e) =>
    obtain ⟨hn, he⟩ := Bool.and_eq_true_iff.1 h
    exact .declareWith ⟨Name.ne_of_avoids hn, rfl⟩ (e.renamed_rename ρ he)
  | .block ss _ => exact .block _ marked_of_declaresVariable (Stmt.allRenamed_rename _ ss h)
  | .branch e s none _ =>
    obtain ⟨he, hs⟩ := Bool.and_eq_true_iff.1 h
    exact .branch (e.renamed_rename ρ he) (s.renamed_rename ρ hs)
  | .branch e s (some t) _ =>
    obtain ⟨h, ht⟩ := Bool.and_eq_true_iff.1 h
    obtain ⟨he, hs⟩ := Bool.and_eq_true_iff.1 h
    exact .branchElse (e.renamed_rename ρ he) (s.renamed_rename ρ hs) (t.renamed_rename ρ ht)
  | .loop e s _ =>
    obtain ⟨he, hs⟩ := Bool.and_eq_true_iff.1 h
    exact .loop (e.renamed_rename ρ he) (s.renamed_rename ρ hs)
  | .breakOut place => exact .breakOut place
  | .function (.mk n ps ss) =>
    have hn := (Bool.and_eq_true_iff.1 (Bool.and_eq_true_iff.1 h).1).1
    exact .function (Name.ne_of_avoids hn) (Function.renamed_rename ρ (.mk n ps ss) h)
  | .returnWith none place => exact .returnNil place
  | .returnWith (some e) _ => exact .returnWith (e.renamed_rename ρ h)
  | .classDecl n none fs =>
    obtain ⟨hn, hs⟩ := Bool.and_eq_true_iff.1 h
    exact .plainClass (Name.ne_of_avoids hn) (Function.allRenamed_rename _ fs hs)
  | .classDecl n (some r) fs =>
    obtain ⟨h, hs⟩ := Bool.and_eq_true_iff.1 h
    obtain ⟨hn, hr⟩ := Bool.and_eq_true_iff.1 h
    exact .subclass (Name.ne_of_avoids hn) (Reference.renamed_rename ρ hr)
      (Function.allRenamed_rename _ fs hs)

/-- Statements that avoid the new name are renamed one by one. -/
theorem Stmt.allRenamed_rename (ρ : Marks) (ss : List Stmt) (h : Stmt.allAvoid y ss) :
    Stmt.AllRenamed (.of d y) ρ ss (Stmt.renameAll d y ρ ss) := by
  match ss with
  | [] => exact .nil
  | s :: ss =>
    obtain ⟨hs, hss⟩ := Bool.and_eq_true_iff.1 h
    exact .cons (s.renamed_rename ρ hs) (Stmt.allRenamed_rename ρ ss hss)

theorem Function.renamed_rename (ρ : Marks) (f : Function) (h : f.avoids y) :
    f.Renamed (.of d y) ρ (f.rename d y ρ) := by
  match f with
  | .mk n ps ss =>
    obtain ⟨h, hs⟩ := Bool.and_eq_true_iff.1 h
    obtain ⟨-, hp⟩ := Bool.and_eq_true_iff.1 h
    exact .mk _ marked_of_declaresVariable (params_redeclare _ hp) (Stmt.allRenamed_rename _ ss hs)

/-- Functions that avoid the new name are renamed one by one. -/
theorem Function.allRenamed_rename (ρ : Marks) (fs : List Function) (h : Function.allAvoid y fs) :
    Function.AllRenamed (.of d y) ρ fs (Function.renameAll d y ρ fs) := by
  match fs with
  | [] => exact .nil
  | f :: fs =>
    obtain ⟨hf, hs⟩ := Bool.and_eq_true_iff.1 h
    exact .cons (f.renamed_rename ρ hf) (Function.allRenamed_rename ρ fs hs)

end

end

end LoxLang
