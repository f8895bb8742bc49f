import LoxLang.Proofs.Scoping.Housed
import Mathlib.Logic.Relation

/-!
# What a walk comes to

A walk over a tree comes to each part of it in some state. `Part.inside` lists the parts
right inside a part with these states, `Part.Comes` follows it to any depth. The same parts
are found in the tree that resolving gives, each resolved in the state in which the walk
came to it (`Part.Comes.resolve`), and what holds of the walk at the start of a program
holds wherever it comes to (`Part.Comes.housed`).
-/

namespace LoxLang

open Scoping

/-- A part of a tree. -/
inductive Part
  | expr (e : Expr)
  | exprs (es : List Expr)
  | stmt (s : Stmt)
  | stmts (ss : List Stmt)
  | function (kind : FunctionKind) (f : Function)
  | methods (fs : List Function)

namespace Part

def resolve (w : Walk) : Part → Part
  | expr e => expr (e.resolve w).1
  | exprs es => exprs (Expr.resolveAll es w).1
  | stmt s => stmt (s.resolve w).1
  | stmts ss => stmts (Stmt.resolveAll ss w).1
  | function kind f => function kind (f.resolve kind w).1
  | methods fs => methods (Function.resolveAll fs w).1

/-- The part is as it is read. -/
def Regular : Part → Prop
  | expr e => e.Regular
  | exprs es => Expr.AllRegular es
  | stmt s => s.Regular
  | stmts ss => Stmt.AllRegular ss
  | function _ f => f.Regular
  | methods fs => Function.AllRegular fs

/-- The parts right inside an expression, with the states in which a walk comes to them. -/
def insideExpr (w : Walk) : Expr → List (Part × Walk)
  | .literal _ _ | .read _ | .this _ _ | .super _ _ _ => []
  | .group e _ | .unary _ e _ | .get e _ | .assign _ e => [(expr e, w)]
  | .binary _ left right _ | .set left _ right => [(expr left, w), (expr right, (left.resolve w).2)]
  | .sequence items _ => [(exprs items, w)]
  | .call callee arguments _ => [(expr callee, w), (exprs arguments, (callee.resolve w).2)]
  | .lambda params body _ => [(stmts body, w.body .function params)]

/-- The parts right inside a statement. -/
def insideStmt (w : Walk) : Stmt → List (Part × Walk)
  | .breakOut _ | .declare _ none | .returnWith none _ => []
  | .expression e | .print e _ => [(expr e, w)]
  | .declare name (some e) => [(expr e, w.await name)]
  | .block body _ => [(stmts body, (openScope w).2)]
  | .branch test yes none _ | .loop test yes _ => [(expr test, w), (stmt yes, (test.resolve w).2)]
  | .branch test yes (some no) _ =>
    [(expr test, w), (stmt yes, (test.resolve w).2),
      (stmt no, (yes.resolve (test.resolve w).2).2)]
  | .function f => [(function .function f, (w.await f.name).bind f.name)]
  | .returnWith (some e) place => [(expr e, w.returningValue place)]
  | .classDecl name none fs => [(methods fs, (w.enter .plain name).this name.place)]
  | .classDecl name (some r) fs => [(methods fs, w.derive name r)]

/-- The parts right inside a part. -/
def inside (w : Walk) : Part → List (Part × Walk)
  | expr e => insideExpr w e
  | stmt s => insideStmt w s
  | exprs [] | stmts [] | methods [] => []
  | exprs (e :: es) => [(expr e, w), (exprs es, (e.resolve w).2)]
  | stmts (s :: ss) => [(stmt s, w), (stmts ss, (s.resolve w).2)]
  | function kind (.mk _ params body) => [(stmts body, w.body kind params)]
  | methods (f :: fs) => [(function f.methodKind f, w), (methods fs, (f.resolve f.methodKind w).2)]

/-- A walk over the part `p` that begins in the state `w` comes to the part `q` in the
state `v`. -/
def Comes (p : Part) (w : Walk) (q : Part) (v : Walk) : Prop :=
  Relation.ReflTransGen (fun a b => b ∈ a.1.inside a.2) (p, w) (q, v)

/-! ## Resolved parts -/

theorem insideExpr_resolve (w : Walk) (e : Expr) :
    insideExpr w (e.resolve w).1 = (insideExpr w e).map fun q => (q.1.resolve q.2, q.2) := by
  match e with
  | .literal _ _ => rfl
  | .read r => rfl
  | .this _ _ | .super _ _ _ =>
    simp only [Expr.resolve_this, Expr.resolve_super]
    cases w.classKind <;> rfl
  | .group e _ | .unary _ e _ | .get e _ | .sequence es _ | .lambda ps ss _ => rfl
  | .assign r e =>
    rw [Expr.resolve_assign]
    rfl
  | .binary _ left right _ | .set left _ right =>
    simp only [Expr.resolve_binary, Expr.resolve_set, insideExpr, left.resolve_again]
    rfl
  | .call callee arguments _ =>
    rw [Expr.resolve_call]
    simp only [insideExpr, callee.resolve_again]
    rfl

theorem insideStmt_resolve (w : Walk) (s : Stmt) :
    insideStmt w (s.resolve w).1 = (insideStmt w s).map fun q => (q.1.resolve q.2, q.2) := by
  match s with
  | .breakOut _ | .declare _ none | .expression e | .print e _ | .declare name (some e)
  | .block body _ | .function (.mk _ _ _) | .classDecl name none fs => rfl
  | .returnWith none _ =>
    rw [Stmt.resolve_return]
    rfl
  | .branch test yes none _ | .loop test yes _ =>
    simp only [Stmt.resolve_branch, Stmt.resolve_loop, insideStmt, test.resolve_again]
    rfl
  | .branch test yes (some no) _ =>
    rw [Stmt.resolve_branchElse]
    simp only [insideStmt, test.resolve_again, yes.resolve_again]
    rfl
  | .returnWith (some e) place =>
    rw [Stmt.resolve_returnWith]
    rfl
  | .classDecl name (some r) fs =>
    rw [Stmt.resolve_subclass]
    simp only [insideStmt, derive_resolve]
    rfl

/-- The parts right inside what resolving gives are those from before, resolved. -/
theorem inside_resolve (w : Walk) (p : Part) :
    (p.resolve w).inside w = (p.inside w).map fun q => (q.1.resolve q.2, q.2) := by
  match p with
  | expr e => exact insideExpr_resolve w e
  | stmt s => exact insideStmt_resolve w s
  | exprs [] | stmts [] | methods [] | function kind (.mk _ _ _) => rfl
  | exprs (e :: es) =>
    simp only [resolve, Expr.resolveAll_cons, inside, e.resolve_again]
    rfl
  | stmts (s :: ss) =>
    simp only [resolve, Stmt.resolveAll_cons, inside, s.resolve_again]
    rfl
  | methods (f :: fs) =>
    simp only [resolve, Function.resolveAll_cons, inside, methodKind_resolve, f.resolve_again]
    rfl

variable {p q : Part} {w v : Walk}

/-- The resolved tree has the part resolved in the state in which the walk came to it. -/
theorem Comes.resolve (h : Comes p w q v) : Comes (p.resolve w) w (q.resolve v) v := by
  refine Relation.ReflTransGen.lift (fun a : Part × Walk => (a.1.resolve a.2, a.2)) ?_ _ _ h
  intro a b hb
  show (b.1.resolve b.2, b.2) ∈ (a.1.resolve a.2).inside a.2
  rw [inside_resolve]
  exact List.mem_map.2 ⟨b, hb, rfl⟩

/-! ## Where the walk is -/

/-- Two parts side by side. -/
theorem forall_two {P : Part × Walk → Prop} {a b : Part × Walk} (ha : P a) (hb : P b) :
    ∀ c ∈ [a, b], P c := List.forall_mem_cons.2 ⟨ha, List.forall_mem_singleton.2 hb⟩

section
variable (hw : Housed w)
include hw

theorem housed_insideExpr {e : Expr} (hr : e.Regular) :
    ∀ a ∈ insideExpr w e, a.1.Regular ∧ Housed a.2 := by
  match e with
  | .literal _ _ | .read _ | .this _ _ | .super _ _ _ => nofun
  | .group e _ | .unary _ e _ | .get e _ => exact List.forall_mem_singleton.2 ⟨hr, hw⟩
  | .assign _ e => exact List.forall_mem_singleton.2 ⟨hr.2, hw⟩
  | .binary _ left right _ | .set left _ right =>
    exact forall_two ⟨hr.1, hw⟩ ⟨hr.2, hw.steady (left.steady_resolve w)⟩
  | .sequence items _ => exact List.forall_mem_singleton.2 ⟨hr, hw⟩
  | .call callee arguments _ =>
    exact forall_two ⟨hr.1, hw⟩ ⟨hr.2, hw.steady (callee.steady_resolve w)⟩
  | .lambda params body _ => exact List.forall_mem_singleton.2 ⟨hr.2, hw.body .function hr.1⟩

theorem housed_insideStmt {s : Stmt} (hr : s.Regular) :
    ∀ a ∈ insideStmt w s, a.1.Regular ∧ Housed a.2 := by
  match s with
  | .breakOut _ | .declare _ none | .returnWith none _ => nofun
  | .expression e | .print e _ => exact List.forall_mem_singleton.2 ⟨hr, hw⟩
  | .declare name (some e) => exact List.forall_mem_singleton.2 ⟨hr.2, hw.await hr.1⟩
  | .block body _ => exact List.forall_mem_singleton.2 ⟨hr, hw.openScope⟩
  | .branch test yes none _ | .loop test yes _ =>
    exact forall_two ⟨hr.1, hw⟩ ⟨hr.2.2, hw.steady (test.steady_resolve w)⟩
  | .branch test yes (some no) _ =>
    obtain ⟨ht, ⟨-, hy⟩, -, hn⟩ := hr
    have hyes : Housed (test.resolve w).2 := hw.steady (test.steady_resolve w)
    exact List.forall_mem_cons.2 ⟨⟨ht, hw⟩, forall_two ⟨hy, hyes⟩ ⟨hn, hyes.of_regular hy⟩⟩
  | .function f =>
    exact List.forall_mem_singleton.2
      ⟨hr.2, hw.declared hr.1 (outline_declare_define f.name w)
        ((inner_declare f.name w).trans (inner_define f.name _)).classKind⟩
  | .returnWith (some e) place =>
    exact List.forall_mem_singleton.2 ⟨hr, hw.steady (steady_returningValue place w)⟩
  | .classDecl name none fs => exact List.forall_mem_singleton.2 ⟨hr.2, hw.plain hr.1 name.place⟩
  | .classDecl name (some r) fs => exact List.forall_mem_singleton.2 ⟨hr.2, hw.derive hr.1 r⟩

theorem housed_inside (hr : p.Regular) : ∀ a ∈ p.inside w, a.1.Regular ∧ Housed a.2 := by
  match p with
  | expr e => exact housed_insideExpr hw hr
  | stmt s => exact housed_insideStmt hw hr
  | exprs [] | stmts [] | methods [] => nofun
  | exprs (e :: es) =>
    exact forall_two ⟨hr.1, hw⟩ ⟨hr.2, hw.steady (e.steady_resolve w)⟩
  | stmts (s :: ss) => exact forall_two ⟨hr.1, hw⟩ ⟨hr.2, hw.of_regular hr.1⟩
  | function kind (.mk _ params body) =>
    exact List.forall_mem_singleton.2 ⟨hr.2, hw.body kind hr.1⟩
  | methods (f :: fs) =>
    exact forall_two ⟨hr.1, hw⟩ ⟨hr.2, hw.steady (f.steady_resolve f.methodKind w)⟩

/-- Wherever the walk over a tree as it is read comes to, the names of the language are
where it expects them. -/
theorem Comes.housed (hr : p.Regular) (h : Comes p w q v) : q.Regular ∧ Housed v := by
  suffices hall : ∀ b, Relation.ReflTransGen (fun a b => b ∈ a.1.inside a.2) (p, w) b →
      b.1.Regular ∧ Housed b.2 from hall _ h
  intro b hb
  induction hb with
  | refl => exact ⟨hr, hw⟩
  | tail _ hb ih => exact housed_inside ih.2 ih.1 _ hb

end

end Part

end LoxLang
