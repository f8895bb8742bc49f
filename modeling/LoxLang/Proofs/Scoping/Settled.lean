import LoxLang.Proofs.Scoping.Steps
import LoxLang.Proofs.Tree.Regular

/-!
# Settled trees

A tree is settled at a state of the walk if its uses have the depths that the walk gives
them from there, and the walk has nothing to complain of that a run could trip over.
`settled_resolve` says that resolving a regular tree settles it if no problem comes up.
-/

namespace LoxLang

open Scoping

/-! ## Walking twice -/

theorem Reference.resolve_again (r : Reference) (v w : Walk) :
    (r.resolve v).1.resolve w = r.resolve w := by
  rw [Reference.resolve_apply, Reference.resolve_apply, Reference.resolve_apply]

theorem inherit_resolve (name : Name) (r : Reference) (v w : Walk) :
    w.inherit name (r.resolve v).1 = w.inherit name r := by
  rw [Reference.resolve_apply]
  rfl

theorem derive_resolve (name : Name) (r : Reference) (v w : Walk) :
    w.derive name (r.resolve v).1 = w.derive name r := by
  simp only [Scoping.Walk.derive, inherit_resolve, Reference.resolve_again]

theorem scopes_inherit (name : Name) (r : Reference) (w : Walk) :
    (w.inherit name r).scopes = w.scopes := by
  unfold Scoping.Walk.inherit
  split <;> rfl

theorem declared?_resolve (s : Stmt) (w : Walk) : (s.resolve w).1.declared? = s.declared? := by
  match s with
  | .expression _ | .print _ _ | .declare _ none | .declare _ (some _) | .block _ _
  | .branch _ _ none _ | .branch _ _ (some _) _ | .loop _ _ _ | .breakOut _
  | .function (.mk _ _ _) | .classDecl _ none _ => rfl
  | .returnWith none _ => rw [Stmt.resolve_return]
  | .returnWith (some _) _ =>
    rw [Stmt.resolve_returnWith]
    rfl
  | .classDecl _ (some _) _ =>
    rw [Stmt.resolve_subclass]
    rfl

theorem methodKind_resolve (f : Function) (kind : FunctionKind) (w : Walk) :
    (f.resolve kind w).1.methodKind = f.methodKind := by
  cases f
  rfl

mutual

/-- The depths that a tree has already do not matter to a walk over it. -/
theorem Expr.resolve_again (e : Expr) (w : Walk) : (e.resolve w).1.resolve w = e.resolve w := by
  match e with
  | .literal _ _ => rfl
  | .group e _ => rw [Expr.resolve_group, Expr.resolve_group, e.resolve_again]
  | .unary _ e _ => rw [Expr.resolve_unary, Expr.resolve_unary, e.resolve_again]
  | .binary _ l r _ =>
    rw [Expr.resolve_binary, Expr.resolve_binary, l.resolve_again, r.resolve_again]
  | .sequence es _ => rw [Expr.resolve_sequence, Expr.resolve_sequence, Expr.resolveAll_again]
  | .read r => rw [Expr.resolve_read, Expr.resolve_read, r.resolve_again]
  | .assign r e => rw [Expr.resolve_assign, Expr.resolve_assign, e.resolve_again]
  | .call f es _ =>
    rw [Expr.resolve_call, Expr.resolve_call, f.resolve_again, Expr.resolveAll_again]
  | .lambda params body _ =>
    rw [Expr.resolve_lambda, Expr.resolve_lambda, Stmt.resolveAll_again]
  | .get e _ => rw [Expr.resolve_get, Expr.resolve_get, e.resolve_again]
  | .set e _ v => rw [Expr.resolve_set, Expr.resolve_set, e.resolve_again, v.resolve_again]
  | .this depth place =>
    rw [Expr.resolve_this]
    cases h : w.classKind <;> simp only [Expr.resolve_this, h]
  | .super method depth place =>
    rw [Expr.resolve_super]
    cases h : w.classKind <;> simp only [Expr.resolve_super, h]

/-- Resolving expressions once more changes nothing. -/
theorem Expr.resolveAll_again (es : List Expr) (w : Walk) :
    Expr.resolveAll (Expr.resolveAll es w).1 w = Expr.resolveAll es w := by
  match es with
  | [] => rfl
  | e :: es =>
    rw [Expr.resolveAll_cons, Expr.resolveAll_cons, e.resolve_again, Expr.resolveAll_again]

theorem Stmt.resolve_again (s : Stmt) (w : Walk) : (s.resolve w).1.resolve w = s.resolve w := by
  match s with
  | .expression e => rw [Stmt.resolve_expression, Stmt.resolve_expression, e.resolve_again]
  | .print e _ => rw [Stmt.resolve_print, Stmt.resolve_print, e.resolve_again]
  | .declare name none => rfl
  | .declare name (some e) =>
    rw [Stmt.resolve_declareWith, Stmt.resolve_declareWith, e.resolve_again]
  | .block body _ => rw [Stmt.resolve_block, Stmt.resolve_block, Stmt.resolveAll_again]
  | .branch test yes none _ =>
    rw [Stmt.resolve_branch, Stmt.resolve_branch, test.resolve_again, yes.resolve_again]
  | .branch test yes (some no) _ =>
    rw [Stmt.resolve_branchElse, Stmt.resolve_branchElse, test.resolve_again, yes.resolve_again,
      no.resolve_again]
  | .loop test body _ =>
    rw [Stmt.resolve_loop, Stmt.resolve_loop, test.resolve_again, body.resolve_again]
  | .breakOut _ => rfl
  | .function (.mk name params body) =>
    rw [Stmt.resolve_function, Function.resolve_mk, Stmt.resolve_function, Function.resolve_mk]
    simp only [Function.name]
    rw [Stmt.resolveAll_again]
  | .returnWith none _ => rw [Stmt.resolve_return, Stmt.resolve_return]
  | .returnWith (some e) _ =>
    rw [Stmt.resolve_returnWith, Stmt.resolve_returnWith, e.resolve_again]
  | .classDecl name none methods =>
    rw [Stmt.resolve_class, Stmt.resolve_class, Function.resolveAll_again]
  | .classDecl name (some r) methods =>
    rw [Stmt.resolve_subclass, Stmt.resolve_subclass]
    rw [derive_resolve, inherit_resolve, Reference.resolve_again, Function.resolveAll_again]

/-- Resolving statements once more changes nothing. -/
theorem Stmt.resolveAll_again (ss : List Stmt) (w : Walk) :
    Stmt.resolveAll (Stmt.resolveAll ss w).1 w = Stmt.resolveAll ss w := by
  match ss with
  | [] => rfl
  | s :: ss =>
    rw [Stmt.resolveAll_cons, Stmt.resolveAll_cons, s.resolve_again, Stmt.resolveAll_again]

/-- Resolving a function once more changes nothing. -/
theorem Function.resolve_again (f : Function) (kind : FunctionKind) (w : Walk) :
    (f.resolve kind w).1.resolve kind w = f.resolve kind w := by
  match f with
  | .mk name params body =>
    rw [Function.resolve_mk, Function.resolve_mk, Stmt.resolveAll_again]

/-- Resolving the methods of a class once more changes nothing. -/
theorem Function.resolveAll_again (fs : List Function) (w : Walk) :
    Function.resolveAll (Function.resolveAll fs w).1 w = Function.resolveAll fs w := by
  match fs with
  | [] => rfl
  | f :: fs =>
    rw [Function.resolveAll_cons, Function.resolveAll_cons, methodKind_resolve, f.resolve_again,
      Function.resolveAll_again]

end

/-! ## Settled trees -/

mutual

/-- The depths in the expression are those of a walk that comes to it in this state. -/
def Expr.Settled : Expr → Walk → Prop
  | .literal _ _, _ => True
  | .group e _, w | .unary _ e _, w | .get e _, w => e.Settled w
  | .binary _ left right _, w | .set left _ right, w =>
    left.Settled w ∧ right.Settled (left.resolve w).2
  | .sequence items _, w => Expr.AllSettled items w
  | .read r, w => r.depth = distance? w.scopes r.name.text
  | .assign r e, w => e.Settled w ∧ r.name.IsOrdinary ∧
      r.depth = distance? (e.resolve w).2.scopes r.name.text
  | .call callee arguments _, w =>
    callee.Settled w ∧ Expr.AllSettled arguments (callee.resolve w).2
  | .lambda params body _, w =>
    (∀ p ∈ params, p.IsOrdinary) ∧ Stmt.AllSettled body (w.body .function params)
  | .this depth _, w => w.classKind ≠ .outside ∧ depth = distance? w.scopes "this"
  | .super _ depth _, w => w.classKind = .derived ∧ depth = distance? w.scopes "super"

def Expr.AllSettled : List Expr → Walk → Prop
  | [], _ => True
  | e :: es, w => e.Settled w ∧ Expr.AllSettled es (e.resolve w).2

/-- The depths in the statement are those of a walk that comes to it in this state. -/
def Stmt.Settled : Stmt → Walk → Prop
  | .expression e, w | .print e _, w => e.Settled w
  | .declare name none, _ => name.IsOrdinary
  | .declare name (some e), w => name.IsOrdinary ∧ e.Settled (w.await name)
  | .block body _, w => Stmt.AllSettled body (openScope w).2
  | .branch test yes none _, w =>
    test.Settled w ∧ yes.declared? = none ∧ yes.Settled (test.resolve w).2
  | .branch test yes (some no) _, w =>
    test.Settled w ∧ (yes.declared? = none ∧ yes.Settled (test.resolve w).2) ∧
      no.declared? = none ∧ no.Settled (yes.resolve (test.resolve w).2).2
  | .loop test body _, w =>
    test.Settled w ∧ body.declared? = none ∧ body.Settled (test.resolve w).2
  | .breakOut _, _ | .returnWith none _, _ => True
  | .function f, w =>
    f.name.IsOrdinary ∧ f.Settled .function ((w.await f.name).bind f.name)
  | .returnWith (some e) place, w => e.Settled (w.returningValue place)
  | .classDecl name none methods, w =>
    name.IsOrdinary ∧ Function.AllSettled methods ((w.enter .plain name).this name.place)
  | .classDecl name (some r) methods, w =>
    name.IsOrdinary ∧ r.name.text ≠ name.text ∧
      r.depth = distance? (w.enter .derived name).scopes r.name.text ∧
      Function.AllSettled methods (w.derive name r)

def Stmt.AllSettled : List Stmt → Walk → Prop
  | [], _ => True
  | s :: ss, w => s.Settled w ∧ Stmt.AllSettled ss (s.resolve w).2

/-- The depths in the function are those of a walk that comes to it in this state. -/
def Function.Settled : FunctionKind → Function → Walk → Prop
  | kind, .mk _ params body, w =>
    (∀ p ∈ params, p.IsOrdinary) ∧ Stmt.AllSettled body (w.body kind params)

/-- `Function.Settled` for each method in order. -/
def Function.AllSettled : List Function → Walk → Prop
  | [], _ => True
  | f :: fs, w => f.Settled f.methodKind w ∧ Function.AllSettled fs (f.resolve f.methodKind w).2

end

/-! ## Resolving settles -/

/-- Two moves that report nothing together report nothing each. -/
theorem quiet_parts {u v w : Walk} (h : u.Reports v) (h' : v.Reports w)
    (hq : w.problems = u.problems) : v.problems = u.problems ∧ w.problems = v.problems := by
  obtain ⟨ps, hp⟩ := h
  obtain ⟨qs, hs⟩ := h'
  have hlen := congrArg Array.size hq
  rw [hs, hp] at hlen
  simp only [Array.size_append] at hlen
  have hps : ps = #[] := Array.eq_empty_of_size_eq_zero (by omega)
  have hqs : qs = #[] := Array.eq_empty_of_size_eq_zero (by omega)
  exact ⟨by rw [hp, hps, Array.append_empty], by rw [hs, hqs, Array.append_empty]⟩

theorem problems_changeLocal (name : String) (f : Local → Local) (w : Walk) :
    (changeLocal name f w).2.problems = w.problems := by
  simp only [changeLocal, modify_apply]
  cases w.scopes <;> rfl

theorem problems_closeScope (w : Walk) : (closeScope w).2.problems = w.problems := by
  simp only [closeScope, modify_apply]
  cases w.scopes <;> rfl

theorem problems_bind (name : Name) (w : Walk) : (w.bind name).problems = w.problems :=
  problems_changeLocal _ _ w

theorem problems_leave (w v : Walk) : (w.leave v).problems = v.problems := problems_closeScope v

theorem problems_exit (w v : Walk) : (w.exit v).problems = v.problems := problems_closeScope v

theorem reports_body (kind : FunctionKind) (params : List Name) (w : Walk) :
    w.Reports (w.body kind params) :=
  (inner_forM inner_declareParam params (openScope { w with function := kind }).2).problems

/-- Entering a class reports at most one problem more. -/
theorem reports_enter (kind : ClassKind) (name : Name) (w : Walk) :
    w.Reports (w.enter kind name) := (inner_enter kind name w).problems

theorem reports_this (place : Place) (w : Walk) : w.Reports (w.this place) :=
  (inner_this place w).problems

theorem reports_super (place : Place) (w : Walk) : w.Reports (w.super place) :=
  (inner_super place w).problems

/-- A class that reports nothing has another name than its superclass. -/
theorem name_ne_of_quiet {name : Name} {r : Reference} {w : Walk}
    (h : (w.inherit name r).problems = w.problems) : r.name.text ≠ name.text := by
  intro he
  have hs := congrArg Array.size h
  simp [Scoping.Walk.inherit, he, report] at hs

mutual

theorem Expr.settled_resolve (e : Expr) (w : Walk) (hr : e.Regular)
    (hq : (e.resolve w).2.problems = w.problems) : (e.resolve w).1.Settled w := by
  match e with
  | .literal _ _ => trivial
  | .group e _ => exact e.settled_resolve w hr hq
  | .unary _ e _ => exact e.settled_resolve w hr hq
  | .binary _ l r _ =>
    obtain ⟨hl, hq⟩ := quiet_parts (l.steady_resolve w).problems (r.steady_resolve _).problems hq
    refine ⟨l.settled_resolve w hr.1 hl, ?_⟩
    rw [l.resolve_again]
    exact r.settled_resolve _ hr.2 hq
  | .sequence es _ => exact Expr.settled_resolveAll es w hr hq
  | .read r =>
    rw [Expr.resolve_read, Reference.resolve_apply]
    rfl
  | .assign r e =>
    rw [Expr.resolve_assign] at hq ⊢
    obtain ⟨he, -⟩ := quiet_parts (e.steady_resolve w).problems (steady_use _ _ _).problems hq
    refine ⟨e.settled_resolve w hr.2 he, hr.1, ?_⟩
    rw [e.resolve_again]
  | .call f es _ =>
    obtain ⟨hf, hq⟩ := quiet_parts (f.steady_resolve w).problems
      (Expr.steady_resolveAll es _).problems hq
    refine ⟨f.settled_resolve w hr.1 hf, ?_⟩
    rw [f.resolve_again]
    exact Expr.settled_resolveAll es _ hr.2 hq
  | .lambda params body _ =>
    rw [Expr.resolve_lambda] at hq ⊢
    rw [problems_leave] at hq
    obtain ⟨-, hq⟩ := quiet_parts (reports_body .function params w)
      (Stmt.inner_resolveAll body _).problems hq
    exact ⟨hr.1, Stmt.settled_resolveAll body _ hr.2 hq⟩
  | .get e _ => exact e.settled_resolve w hr hq
  | .set e _ v =>
    obtain ⟨he, hq⟩ := quiet_parts (e.steady_resolve w).problems (v.steady_resolve _).problems hq
    refine ⟨e.settled_resolve w hr.1 he, ?_⟩
    rw [e.resolve_again]
    exact v.settled_resolve _ hr.2 hq
  | .this depth place =>
    rw [Expr.resolve_this] at hq ⊢
    cases h : w.classKind with
    | outside => simp [h, report] at hq
    | plain => exact ⟨by simp [h], rfl⟩
    | derived => exact ⟨by simp [h], rfl⟩
  | .super method depth place =>
    rw [Expr.resolve_super] at hq ⊢
    cases h : w.classKind with
    | outside => simp [h, report] at hq
    | plain => simp [h, report] at hq
    | derived => exact ⟨h, rfl⟩

/-- Expressions that are resolved without a problem are settled. -/
theorem Expr.settled_resolveAll (es : List Expr) (w : Walk) (hr : Expr.AllRegular es)
    (hq : (Expr.resolveAll es w).2.problems = w.problems) :
    Expr.AllSettled (Expr.resolveAll es w).1 w := by
  match es with
  | [] => trivial
  | e :: es =>
    obtain ⟨he, hq⟩ := quiet_parts (e.steady_resolve w).problems
      (Expr.steady_resolveAll es _).problems hq
    refine ⟨e.settled_resolve w hr.1 he, ?_⟩
    rw [e.resolve_again]
    exact Expr.settled_resolveAll es _ hr.2 hq

theorem Stmt.settled_resolve (s : Stmt) (w : Walk) (hr : s.Regular)
    (hq : (s.resolve w).2.problems = w.problems) : (s.resolve w).1.Settled w := by
  match s with
  | .expression e => exact e.settled_resolve w hr hq
  | .print e _ => exact e.settled_resolve w hr hq
  | .declare name none => exact hr
  | .declare name (some e) =>
    rw [Stmt.resolve_declareWith] at hq ⊢
    rw [problems_bind] at hq
    obtain ⟨-, hq⟩ := quiet_parts (inner_declare name w).problems (e.steady_resolve _).problems hq
    exact ⟨hr.1, e.settled_resolve _ hr.2 hq⟩
  | .block body _ =>
    rw [Stmt.resolve_block] at hq ⊢
    rw [problems_closeScope] at hq
    exact Stmt.settled_resolveAll body _ hr hq
  | .branch test yes none _ =>
    obtain ⟨ht, hq⟩ := quiet_parts (test.steady_resolve w).problems (yes.inner_resolve _).problems hq
    rw [Stmt.resolve_branch]
    refine ⟨test.settled_resolve w hr.1 ht, by rw [declared?_resolve, hr.2.1], ?_⟩
    rw [test.resolve_again]
    exact yes.settled_resolve _ hr.2.2 hq
  | .branch test yes (some no) _ =>
    obtain ⟨ht, hq⟩ := quiet_parts (test.steady_resolve w).problems
      ((yes.inner_resolve _).trans (no.inner_resolve _)).problems hq
    obtain ⟨hy, hq⟩ := quiet_parts (yes.inner_resolve _).problems (no.inner_resolve _).problems hq
    obtain ⟨hrt, ⟨hyd, hry⟩, hnd, hrn⟩ := hr
    rw [Stmt.resolve_branchElse]
    refine ⟨test.settled_resolve w hrt ht, ⟨by rw [declared?_resolve, hyd], ?_⟩,
      by rw [declared?_resolve, hnd], ?_⟩
    · rw [test.resolve_again]
      exact yes.settled_resolve _ hry hy
    · rw [test.resolve_again, yes.resolve_again]
      exact no.settled_resolve _ hrn hq
  | .loop test body _ =>
    obtain ⟨ht, hq⟩ := quiet_parts (test.steady_resolve w).problems (body.inner_resolve _).problems hq
    rw [Stmt.resolve_loop]
    refine ⟨test.settled_resolve w hr.1 ht, by rw [declared?_resolve, hr.2.1], ?_⟩
    rw [test.resolve_again]
    exact body.settled_resolve _ hr.2.2 hq
  | .breakOut _ => trivial
  | .function (.mk name params body) =>
    rw [Stmt.resolve_function] at hq ⊢
    obtain ⟨-, hq⟩ := quiet_parts ((inner_declare name w).trans (inner_define name _)).problems
      (Function.steady_resolve _ _ _).problems hq
    exact ⟨hr.1, Function.settled_resolve (.mk name params body) _ _ hr.2 hq⟩
  | .returnWith none _ =>
    rw [Stmt.resolve_return]
    trivial
  | .returnWith (some e) place =>
    rw [Stmt.resolve_returnWith] at hq ⊢
    obtain ⟨-, hq⟩ := quiet_parts (steady_returningValue place w).problems
      (e.steady_resolve _).problems hq
    exact e.settled_resolve _ hr hq
  | .classDecl name none methods =>
    rw [Stmt.resolve_class] at hq ⊢
    rw [problems_exit] at hq
    have hw := (reports_enter .plain name w).trans (reports_this name.place _)
    obtain ⟨-, hq⟩ := quiet_parts hw (Function.steady_resolveAll methods _).problems hq
    exact ⟨hr.1, Function.settled_resolveAll methods _ hr.2 hq⟩
  | .classDecl name (some r) methods =>
    rw [Stmt.resolve_subclass] at hq ⊢
    rw [problems_exit, problems_closeScope] at hq
    have hi := (steady_inherit name r (w.enter .derived name)).problems
    have hd : ((w.enter .derived name).inherit name r).Reports (w.derive name r) :=
      .trans (.trans (steady_reference _ r).problems (reports_super name.place _))
        (reports_this name.place _)
    have hm := (Function.steady_resolveAll methods (w.derive name r)).problems
    obtain ⟨-, hq⟩ := quiet_parts (reports_enter .derived name w) (hi.trans (hd.trans hm)) hq
    obtain ⟨hq, hq'⟩ := quiet_parts hi (hd.trans hm) hq
    obtain ⟨-, hq'⟩ := quiet_parts hd hm hq'
    refine ⟨hr.1, ?_, ?_, ?_⟩
    · rw [Reference.resolve_apply]
      exact name_ne_of_quiet hq
    · rw [Reference.resolve_apply, scopes_inherit]
    · rw [derive_resolve]
      exact Function.settled_resolveAll methods _ hr.2 hq'

/-- Statements that are resolved without a problem are settled. -/
theorem Stmt.settled_resolveAll (ss : List Stmt) (w : Walk) (hr : Stmt.AllRegular ss)
    (hq : (Stmt.resolveAll ss w).2.problems = w.problems) :
    Stmt.AllSettled (Stmt.resolveAll ss w).1 w := by
  match ss with
  | [] => trivial
  | s :: ss =>
    obtain ⟨hs, hq⟩ := quiet_parts (s.inner_resolve w).problems (Stmt.inner_resolveAll ss _).problems hq
    refine ⟨s.settled_resolve w hr.1 hs, ?_⟩
    rw [s.resolve_again]
    exact Stmt.settled_resolveAll ss _ hr.2 hq

/-- A function that is resolved without a problem is settled. -/
theorem Function.settled_resolve (f : Function) (kind : FunctionKind) (w : Walk) (hr : f.Regular)
    (hq : (f.resolve kind w).2.problems = w.problems) : (f.resolve kind w).1.Settled kind w := by
  match f with
  | .mk name params body =>
    rw [Function.resolve_mk] at hq ⊢
    rw [problems_leave] at hq
    obtain ⟨-, hq⟩ := quiet_parts (reports_body kind params w)
      (Stmt.inner_resolveAll body _).problems hq
    exact ⟨hr.1, Stmt.settled_resolveAll body _ hr.2 hq⟩

/-- Methods that are resolved without a problem are settled. -/
theorem Function.settled_resolveAll (fs : List Function) (w : Walk) (hr : Function.AllRegular fs)
    (hq : (Function.resolveAll fs w).2.problems = w.problems) :
    Function.AllSettled (Function.resolveAll fs w).1 w := by
  match fs with
  | [] => trivial
  | f :: fs =>
    obtain ⟨hf, hq⟩ := quiet_parts (f.steady_resolve f.methodKind w).problems
      (Function.steady_resolveAll fs _).problems hq
    refine ⟨?_, ?_⟩
    · rw [methodKind_resolve]
      exact f.settled_resolve _ w hr.1 hf
    · rw [methodKind_resolve, f.resolve_again]
      exact Function.settled_resolveAll fs _ hr.2 hq

end

/-! ## Settled trees are regular -/

mutual

theorem Expr.regular_of_settled (e : Expr) {w : Walk} (h : e.Settled w) : e.Regular := by
  match e with
  | .literal _ _ | .read _ | .this _ _ | .super _ _ _ => trivial
  | .group e _ | .unary _ e _ | .get e _ => exact e.regular_of_settled h
  | .binary _ l r _ | .set l _ r => exact ⟨l.regular_of_settled h.1, r.regular_of_settled h.2⟩
  | .sequence es _ => exact Expr.allRegular_of_settled es h
  | .assign _ e => exact ⟨h.2.1, e.regular_of_settled h.1⟩
  | .call f es _ => exact ⟨f.regular_of_settled h.1, Expr.allRegular_of_settled es h.2⟩
  | .lambda _ body _ => exact ⟨h.1, Stmt.allRegular_of_settled body h.2⟩

theorem Expr.allRegular_of_settled (es : List Expr) {w : Walk} (h : Expr.AllSettled es w) :
    Expr.AllRegular es := by
  match es with
  | [] => trivial
  | e :: es => exact ⟨e.regular_of_settled h.1, Expr.allRegular_of_settled es h.2⟩

theorem Stmt.regular_of_settled (s : Stmt) {w : Walk} (h : s.Settled w) : s.Regular := by
  match s with
  | .expression e | .print e _ | .returnWith (some e) _ => exact e.regular_of_settled h
  | .declare _ none => exact h
  | .declare _ (some e) => exact ⟨h.1, e.regular_of_settled h.2⟩
  | .block body _ => exact Stmt.allRegular_of_settled body h
  | .branch test yes none _ =>
    exact ⟨test.regular_of_settled h.1, h.2.1, yes.regular_of_settled h.2.2⟩
  | .branch test yes (some no) _ =>
    obtain ⟨ht, ⟨hyd, hy⟩, hnd, hn⟩ := h
    exact ⟨test.regular_of_settled ht, ⟨hyd, yes.regular_of_settled hy⟩, hnd,
      no.regular_of_settled hn⟩
  | .loop test body _ =>
    exact ⟨test.regular_of_settled h.1, h.2.1, body.regular_of_settled h.2.2⟩
  | .breakOut _ | .returnWith none _ => trivial
  | .function f => exact ⟨h.1, f.regular_of_settled h.2⟩
  | .classDecl _ none methods => exact ⟨h.1, Function.allRegular_of_settled methods h.2⟩
  | .classDecl _ (some _) methods => exact ⟨h.1, Function.allRegular_of_settled methods h.2.2.2⟩

theorem Stmt.allRegular_of_settled (ss : List Stmt) {w : Walk} (h : Stmt.AllSettled ss w) :
    Stmt.AllRegular ss := by
  match ss with
  | [] => trivial
  | s :: ss => exact ⟨s.regular_of_settled h.1, Stmt.allRegular_of_settled ss h.2⟩

theorem Function.regular_of_settled (f : Function) {kind : FunctionKind} {w : Walk}
    (h : f.Settled kind w) : f.Regular := by
  match f with
  | .mk _ _ body => exact ⟨h.1, Stmt.allRegular_of_settled body h.2⟩

theorem Function.allRegular_of_settled (fs : List Function) {w : Walk}
    (h : Function.AllSettled fs w) : Function.AllRegular fs := by
  match fs with
  | [] => trivial
  | f :: fs => exact ⟨f.regular_of_settled h.1, Function.allRegular_of_settled fs h.2⟩

end

end LoxLang
