import LoxLang.Proofs.Code.Read
import LoxLang.Proofs.Renaming.Resolve

/-!
# Code that is accepted

What a source gives to run has been walked over without a report. So no scope in it declares
a name twice, nor does the program itself unless names may be declared again; no `return`
stands outside of a function; and no two `break`s of one function stand at one place.
-/

namespace LoxLang

open Scoping

/-! ## Names of one scope -/

theorem Stmt.nodup_declaredTexts {ss : List Stmt}
    (h : ss.Pairwise fun s t => ∀ n ∈ s.declared?, ∀ m ∈ t.declared?, n.text ≠ m.text) :
    (Stmt.declaredTexts ss).Nodup := by
  refine List.pairwise_filterMap.2 (h.imp fun {s t} hst x hx y hy => ?_)
  obtain ⟨n, hn, rfl⟩ := Option.map_eq_some_iff.1 hx
  obtain ⟨m, hm, rfl⟩ := Option.map_eq_some_iff.1 hy
  exact hst n hn m hm

structure Stmt.AllClean (ss : List Stmt) : Prop where
  codes : ∀ c ∈ Stmt.allCodes ss, c.Clean
  tidy : Stmt.AllTidy ss

structure Stmt.Clean (s : Stmt) : Prop where
  codes : ∀ c ∈ s.codes, c.Clean
  tidy : s.Tidy

/-- The parameters and statements of a function are declared in one scope. -/
theorem Code.clean_of_quiet {kind : FunctionKind} {ps : List Name} {ss : List Stmt} {w : Walk}
    (hs : Stmt.AllSettled ss (w.body kind ps))
    (hq : (Stmt.resolveAll ss (w.body kind ps)).2.problems = w.problems)
    (hss : Stmt.AllTidy ss) : Code.Clean ⟨ps, ss⟩ := by
  obtain ⟨hqb, hqs⟩ := quiet_parts (reports_body kind ps w) (Stmt.inner_resolveAll ss _).problems hq
  obtain ⟨-, hpairs, o, ho, hhas⟩ :=
    params_distinct (o := []) ps (w := (openScope { w with function := kind }).2) rfl hqb
  obtain ⟨hnew, hpair⟩ := Stmt.distinct_of_quiet ss ho hs hqs
  refine ⟨List.nodup_append.2 ⟨?_, Stmt.nodup_declaredTexts hpair, ?_⟩, hss⟩
  · rw [List.Nodup, List.pairwise_map]
    exact hpairs
  · intro x hx y hy hxy
    obtain ⟨p, hp, rfl⟩ := List.mem_map.1 hx
    obtain ⟨s, hs, n, hn, rfl⟩ := Stmt.mem_declaredTexts.1 hy
    have hhasp := hhas p.text (.inr ⟨p, hp, rfl⟩)
    rw [hxy, hnew s hs n hn] at hhasp
    cases hhasp

/-- A body that is settled and gives no problem when it is resolved has no stray jump, nor has any
function in it. -/
theorem Stmt.AllClean.code {kind : FunctionKind} {ps : List Name} {ss : List Stmt} {w : Walk}
    (h : Stmt.AllClean ss) (hs : Stmt.AllSettled ss (w.body kind ps))
    (hq : (Stmt.resolveAll ss (w.body kind ps)).2.problems = w.problems) :
    ∀ c ∈ Code.mk ps ss :: Stmt.allCodes ss, c.Clean :=
  List.forall_mem_cons.2 ⟨Code.clean_of_quiet hs hq h.tidy, h.codes⟩

mutual

/-- An expression that is passed without a report has clean functions. -/
theorem Expr.clean_of_quiet (e : Expr) (w : Walk) (hs : e.Settled w)
    (hq : (e.resolve w).2.problems = w.problems) : ∀ c ∈ e.codes, c.Clean := by
  match e with
  | .literal _ _ | .read _ | .this _ _ | .super _ _ _ => exact fun _ h => nomatch h
  | .group e _ => exact e.clean_of_quiet w hs hq
  | .unary _ e _ => exact e.clean_of_quiet w hs hq
  | .binary _ l r _ =>
    obtain ⟨hl, hr⟩ := quiet_parts (l.steady_resolve w).problems (r.steady_resolve _).problems hq
    exact List.forall_mem_append.2 ⟨l.clean_of_quiet w hs.1 hl, r.clean_of_quiet _ hs.2 hr⟩
  | .sequence es _ => exact Expr.clean_of_allQuiet es w hs hq
  | .assign r e =>
    rw [Expr.resolve_assign] at hq
    obtain ⟨he, -⟩ := quiet_parts (e.steady_resolve w).problems (steady_use _ _ _).problems hq
    exact e.clean_of_quiet w hs.1 he
  | .call f es _ =>
    obtain ⟨hf, hes⟩ := quiet_parts (f.steady_resolve w).problems
      (Expr.steady_resolveAll es _).problems hq
    exact List.forall_mem_append.2 ⟨f.clean_of_quiet w hs.1 hf,
      Expr.clean_of_allQuiet es _ hs.2 hes⟩
  | .lambda params body _ =>
    rw [Expr.resolve_lambda, problems_leave] at hq
    obtain ⟨-, hb⟩ := quiet_parts (reports_body .function params w)
      (Stmt.inner_resolveAll body _).problems hq
    exact (Stmt.clean_of_allQuiet body _ hs.2 hb).code hs.2 hq
  | .get e _ => exact e.clean_of_quiet w hs hq
  | .set e _ v =>
    obtain ⟨he, hv⟩ := quiet_parts (e.steady_resolve w).problems (v.steady_resolve _).problems hq
    exact List.forall_mem_append.2 ⟨e.clean_of_quiet w hs.1 he, v.clean_of_quiet _ hs.2 hv⟩

theorem Expr.clean_of_allQuiet (es : List Expr) (w : Walk) (hs : Expr.AllSettled es w)
    (hq : (Expr.resolveAll es w).2.problems = w.problems) : ∀ c ∈ Expr.allCodes es, c.Clean := by
  match es with
  | [] => exact fun _ h => nomatch h
  | e :: es =>
    obtain ⟨he, hes⟩ := quiet_parts (e.steady_resolve w).problems
      (Expr.steady_resolveAll es _).problems hq
    exact List.forall_mem_append.2 ⟨e.clean_of_quiet w hs.1 he,
      Expr.clean_of_allQuiet es _ hs.2 hes⟩

/-- A statement that is passed without a report is clean. -/
theorem Stmt.clean_of_quiet (s : Stmt) (w : Walk) (hs : s.Settled w)
    (hq : (s.resolve w).2.problems = w.problems) : s.Clean := by
  match s with
  | .expression e => exact ⟨e.clean_of_quiet w hs hq, trivial⟩
  | .print e _ => exact ⟨e.clean_of_quiet w hs hq, trivial⟩
  | .declare _ none | .breakOut _ | .returnWith none _ => exact ⟨fun _ h => (nomatch h), trivial⟩
  | .declare name (some e) =>
    rw [Stmt.resolve_declareWith, problems_bind] at hq
    obtain ⟨-, he⟩ := quiet_parts (inner_declare name w).problems (e.steady_resolve _).problems hq
    exact ⟨e.clean_of_quiet _ hs.2 he, trivial⟩
  | .block body _ =>
    rw [Stmt.resolve_block, problems_closeScope] at hq
    obtain ⟨-, hpair⟩ := Stmt.distinct_of_quiet body (w := (openScope w).2) (o := []) rfl hs hq
    have hb := Stmt.clean_of_allQuiet body _ hs hq
    exact ⟨hb.codes, Stmt.nodup_declaredTexts hpair, hb.tidy⟩
  | .branch test yes none _ =>
    obtain ⟨ht, hy⟩ := quiet_parts (test.steady_resolve w).problems
      (yes.inner_resolve _).problems hq
    have hyes := yes.clean_of_quiet _ hs.2.2 hy
    exact ⟨List.forall_mem_append.2 ⟨test.clean_of_quiet w hs.1 ht, hyes.codes⟩, hs.2.1, hyes.tidy⟩
  | .branch test yes (some no) _ =>
    obtain ⟨hst, ⟨hyd, hsy⟩, hnd, hsn⟩ := hs
    obtain ⟨ht, hq⟩ := quiet_parts (test.steady_resolve w).problems
      ((yes.inner_resolve _).trans (no.inner_resolve _)).problems hq
    obtain ⟨hy, hn⟩ := quiet_parts (yes.inner_resolve _).problems (no.inner_resolve _).problems hq
    have hyes := yes.clean_of_quiet _ hsy hy
    have hno := no.clean_of_quiet _ hsn hn
    have htest := test.clean_of_quiet w hst ht
    refine ⟨?_, ⟨hyd, hyes.tidy⟩, hnd, hno.tidy⟩
    exact List.forall_mem_append.2 ⟨List.forall_mem_append.2 ⟨htest, hyes.codes⟩, hno.codes⟩
  | .loop test body _ =>
    obtain ⟨ht, hb⟩ := quiet_parts (test.steady_resolve w).problems
      (body.inner_resolve _).problems hq
    have htest := test.clean_of_quiet w hs.1 ht
    have hbody := body.clean_of_quiet _ hs.2.2 hb
    exact ⟨List.forall_mem_append.2 ⟨htest, hbody.codes⟩, hs.2.1, hbody.tidy⟩
  | .function f =>
    obtain ⟨-, hf⟩ := quiet_parts ((inner_declare f.name w).trans (inner_define f.name _)).problems
      (f.steady_resolve .function _).problems hq
    exact ⟨f.clean_of_quiet _ _ hs.2 hf, trivial⟩
  | .returnWith (some e) place =>
    rw [Stmt.resolve_returnWith] at hq
    obtain ⟨-, he⟩ := quiet_parts (steady_returningValue place w).problems
      (e.steady_resolve _).problems hq
    exact ⟨e.clean_of_quiet _ hs he, trivial⟩
  | .classDecl name none methods =>
    rw [Stmt.resolve_class, problems_exit] at hq
    obtain ⟨-, hm⟩ := quiet_parts ((reports_enter .plain name w).trans (reports_this name.place _))
      (Function.steady_resolveAll methods _).problems hq
    exact ⟨Function.clean_of_allQuiet methods _ hs.2 hm, trivial⟩
  | .classDecl name (some r) methods =>
    rw [Stmt.resolve_subclass, problems_exit, problems_closeScope] at hq
    obtain ⟨-, hm⟩ := quiet_parts ((reports_enter .derived name w).trans (reports_derive name r w))
      (Function.steady_resolveAll methods _).problems hq
    exact ⟨Function.clean_of_allQuiet methods _ hs.2.2.2 hm, trivial⟩

theorem Stmt.clean_of_allQuiet (ss : List Stmt) (w : Walk) (hs : Stmt.AllSettled ss w)
    (hq : (Stmt.resolveAll ss w).2.problems = w.problems) : Stmt.AllClean ss := by
  match ss with
  | [] => exact ⟨fun _ h => (nomatch h), trivial⟩
  | s :: ss =>
    obtain ⟨hqs, hqr⟩ := quiet_parts (s.inner_resolve w).problems
      (Stmt.inner_resolveAll ss _).problems hq
    have hfirst := s.clean_of_quiet w hs.1 hqs
    have hrest := Stmt.clean_of_allQuiet ss _ hs.2 hqr
    exact ⟨List.forall_mem_append.2 ⟨hfirst.codes, hrest.codes⟩, hfirst.tidy, hrest.tidy⟩

/-- A function that is resolved without a problem is clean, with all functions in it. -/
theorem Function.clean_of_quiet (f : Function) (kind : FunctionKind) (w : Walk)
    (hs : f.Settled kind w) (hq : (f.resolve kind w).2.problems = w.problems) :
    ∀ c ∈ f.codes, c.Clean := by
  match f with
  | .mk _ params body =>
    rw [Function.resolve_mk, problems_leave] at hq
    obtain ⟨-, hb⟩ := quiet_parts (reports_body kind params w)
      (Stmt.inner_resolveAll body _).problems hq
    exact (Stmt.clean_of_allQuiet body _ hs.2 hb).code hs.2 hq

/-- What holds of one function holds of the methods of a class, one after another. -/
theorem Function.clean_of_allQuiet (fs : List Function) (w : Walk) (hs : Function.AllSettled fs w)
    (hq : (Function.resolveAll fs w).2.problems = w.problems) :
    ∀ c ∈ Function.allCodes fs, c.Clean := by
  match fs with
  | [] => exact fun _ h => nomatch h
  | f :: fs =>
    obtain ⟨hf, hfs⟩ := quiet_parts (f.steady_resolve _ w).problems
      (Function.steady_resolveAll fs _).problems hq
    exact List.forall_mem_append.2 ⟨f.clean_of_quiet _ w hs.1 hf,
      Function.clean_of_allQuiet fs _ hs.2 hfs⟩

end

/-! ## Returns -/

mutual

/-- Outside of functions no `return` is passed without a report. -/
theorem Stmt.returns_of_quiet (s : Stmt) {w : Walk} (hf : w.function = .outside)
    (hq : (s.resolve w).2.problems = w.problems) : s.returns = [] := by
  match s with
  | .block body _ =>
    rw [Stmt.resolve_block, problems_closeScope] at hq
    exact Stmt.returns_of_allQuiet body (w := (openScope w).2) hf hq
  | .branch test yes none _ =>
    have ht := test.steady_resolve w
    exact yes.returns_of_quiet (ht.function.trans hf)
      (quiet_parts ht.problems (yes.inner_resolve _).problems hq).2
  | .branch test yes (some no) _ =>
    have ht := test.steady_resolve w
    have hy := yes.inner_resolve (test.resolve w).2
    have hn := no.inner_resolve (yes.resolve (test.resolve w).2).2
    have hft := ht.function.trans hf
    obtain ⟨-, hq⟩ := quiet_parts ht.problems (hy.trans hn).problems hq
    obtain ⟨hqy, hqn⟩ := quiet_parts hy.problems hn.problems hq
    rw [Stmt.returns, yes.returns_of_quiet hft hqy, no.returns_of_quiet (hy.function.trans hft) hqn]
    rfl
  | .loop test body _ =>
    have ht := test.steady_resolve w
    exact body.returns_of_quiet (ht.function.trans hf)
      (quiet_parts ht.problems (body.inner_resolve _).problems hq).2
  | .returnWith none place =>
    rw [Stmt.resolve_return] at hq
    have hs := congrArg Array.size hq
    simp [Scoping.Walk.returning, hf, report] at hs
  | .returnWith (some e) place =>
    rw [Stmt.resolve_returnWith] at hq
    obtain ⟨hs, -⟩ := quiet_parts (steady_returningValue place w).problems
      (e.steady_resolve _).problems hq
    have hs := congrArg Array.size hs
    simp [Scoping.Walk.returningValue, Scoping.Walk.returning, hf, report] at hs
  | .expression _ | .print _ _ | .declare _ _ | .breakOut _ | .function _ | .classDecl _ _ _ => rfl

theorem Stmt.returns_of_allQuiet (ss : List Stmt) {w : Walk} (hf : w.function = .outside)
    (hq : (Stmt.resolveAll ss w).2.problems = w.problems) : Stmt.allReturns ss = [] := by
  match ss with
  | [] => rfl
  | s :: ss =>
    have hs := s.inner_resolve w
    obtain ⟨hqs, hqr⟩ := quiet_parts hs.problems (Stmt.inner_resolveAll ss _).problems hq
    rw [Stmt.allReturns, s.returns_of_quiet hf hqs,
      Stmt.returns_of_allQuiet ss (hs.function.trans hf) hqr]
    rfl

end

/-! ## Global names -/

namespace Scoping

/-- The walk forgets no global name, nor the rule on declaring them again. -/
structure Remembers (w v : Walk) : Prop where
  allow : v.allowRedefinition = w.allowRedefinition
  globals : ∀ x, w.globals.has x → v.globals.has x

variable {u v w : Walk}

/-- What a walk remembers is kept over two stretches of it. -/
theorem Remembers.trans (h : Remembers u v) (h' : Remembers v w) : Remembers u w :=
  ⟨h'.allow.trans h.allow, fun x hx => h'.globals x (h.globals x hx)⟩

/-- A step that does not touch the global names. -/
theorem Remembers.of_eq (ha : v.allowRedefinition = w.allowRedefinition)
    (hg : v.globals = w.globals) : Remembers w v := ⟨ha, fun x hx => by rwa [hg]⟩

/-- A walk that changes neither what it stands in nor its problems forgets nothing. -/
theorem Remembers.refl (w : Walk) : Remembers w w := .of_eq rfl rfl

theorem remembers_use (name : String) (reads : Bool) (w : Walk) :
    Remembers w (use name reads w).2 := by
  simp only [use, bind_apply, get_apply]
  cases distance? w.scopes name with
  | none => exact .refl w
  | some d => cases reads <;> exact .of_eq rfl rfl

theorem remembers_changeLocal (name : String) (f : Local → Local) (w : Walk) :
    Remembers w (changeLocal name f w).2 := by
  simp only [changeLocal, modify_apply]
  cases w.scopes <;> exact .of_eq rfl rfl

theorem remembers_declare (name : Name) (w : Walk) : Remembers w (declare name w).2 := by
  cases h : w.scopes with
  | nil =>
    rw [declare_nil h, declareGlobal_apply]
    by_cases ha : w.allowRedefinition = true
    · rw [if_pos ha]
      exact .refl w
    · rw [if_neg ha]
      cases w.globals.find? name.text with
      | some first => exact .of_eq rfl rfl
      | none => exact ⟨rfl, fun x hx => by simp [Bindings.has_insert, hx]⟩
  | cons s ss =>
    simp only [declare, bind_apply, get_apply, h]
    by_cases hs : s.has name.text
    · simp only [hs, if_true]
      exact .of_eq rfl rfl
    · simp only [hs, Bool.false_eq_true, if_false]
      exact .of_eq rfl rfl

theorem remembers_define (name : Name) (w : Walk) : Remembers w (define name w).2 :=
  remembers_changeLocal _ _ w

theorem remembers_closeScope (w : Walk) : Remembers w (closeScope w).2 := by
  simp only [closeScope, modify_apply]
  cases w.scopes <;> exact .of_eq rfl rfl

theorem remembers_builtin (name : String) (place : Place) (w : Walk) :
    Remembers w (declareBuiltin name place w).2 := by
  simp only [declareBuiltin, modify_apply]
  cases w.scopes <;> exact .of_eq rfl rfl

theorem remembers_params : ∀ (ps : List Name) (w : Walk), Remembers w (ps.forM declareParam w).2
  | [], w => .refl w
  | p :: ps, w => by
    have hp := ((remembers_declare p w).trans (remembers_define p _)).trans
      (remembers_changeLocal p.text (fun l => { l with tracked := false }) _)
    exact hp.trans (remembers_params ps _)

theorem remembers_reference (r : Reference) (w : Walk) : Remembers w (r.resolve w).2 := by
  rw [Reference.resolve_apply]
  refine .trans ?_ (remembers_use _ _ _)
  unfold Scoping.Walk.lookUp
  split <;> exact .of_eq rfl rfl

theorem remembers_leave {kind : FunctionKind} {ps : List Name}
    (h : Remembers (w.body kind ps) v) : Remembers w (w.leave v) := by
  have hb : Remembers w (w.body kind ps) :=
    .trans (v := (openScope { w with function := kind }).2) (.of_eq rfl rfl) (remembers_params ps _)
  exact (hb.trans h).trans ((remembers_closeScope v).trans (.of_eq rfl rfl))

theorem remembers_enter (kind : ClassKind) (name : Name) (w : Walk) :
    Remembers w (w.enter kind name) :=
  .trans (v := { w with classKind := kind }) (.of_eq rfl rfl)
    ((remembers_declare name _).trans (remembers_define name _))

theorem remembers_this (place : Place) (w : Walk) : Remembers w (w.this place) :=
  .trans (v := (openScope w).2) (.of_eq rfl rfl) (remembers_builtin _ _ _)

theorem remembers_super (place : Place) (w : Walk) : Remembers w (w.super place) :=
  .trans (v := (openScope w).2) (.of_eq rfl rfl) (remembers_builtin _ _ _)

theorem remembers_derive (name : Name) (r : Reference) (w : Walk) :
    Remembers (w.enter .derived name) (w.derive name r) := by
  refine (Remembers.trans ?_ (remembers_reference r _)).trans
    ((remembers_super name.place _).trans (remembers_this name.place _))
  unfold Scoping.Walk.inherit
  split <;> exact .of_eq rfl rfl

theorem remembers_exit (h : Remembers u v) (w : Walk) : Remembers u (w.exit v) :=
  (h.trans (remembers_closeScope v)).trans (.of_eq rfl rfl)

theorem remembers_returningValue (place : Place) (w : Walk) :
    Remembers w (w.returningValue place) ∧ Remembers w (w.returning place) := by
  have hr : Remembers w (w.returning place) := by
    unfold Scoping.Walk.returning
    split <;> exact .of_eq rfl rfl
  refine ⟨?_, hr⟩
  unfold Scoping.Walk.returningValue
  split
  · exact hr.trans (.of_eq rfl rfl)
  · exact hr

end Scoping

mutual

theorem Expr.remembers_resolve (e : Expr) (w : Walk) : Remembers w (e.resolve w).2 := by
  match e with
  | .literal _ _ => exact .refl w
  | .group e _ => exact e.remembers_resolve w
  | .unary _ e _ => exact e.remembers_resolve w
  | .binary _ l r _ => exact (l.remembers_resolve w).trans (r.remembers_resolve _)
  | .sequence es _ => exact Expr.remembers_resolveAll es w
  | .read r => exact remembers_reference r w
  | .assign r e =>
    rw [Expr.resolve_assign]
    exact (e.remembers_resolve w).trans (remembers_use _ _ _)
  | .call f es _ => exact (f.remembers_resolve w).trans (Expr.remembers_resolveAll es _)
  | .lambda params body _ => exact remembers_leave (Stmt.remembers_resolveAll body _)
  | .get e _ => exact e.remembers_resolve w
  | .set e _ v => exact (e.remembers_resolve w).trans (v.remembers_resolve _)
  | .this _ _ =>
    rw [Expr.resolve_this]
    split
    · exact .of_eq rfl rfl
    · exact remembers_use _ _ w
  | .super _ _ _ =>
    rw [Expr.resolve_super]
    split
    · exact .of_eq rfl rfl
    · exact .of_eq rfl rfl
    · exact remembers_use _ _ w

theorem Expr.remembers_resolveAll (es : List Expr) (w : Walk) :
    Remembers w (Expr.resolveAll es w).2 := by
  match es with
  | [] => exact .refl w
  | e :: es => exact (e.remembers_resolve w).trans (Expr.remembers_resolveAll es _)

theorem Stmt.remembers_resolve (s : Stmt) (w : Walk) : Remembers w (s.resolve w).2 := by
  match s with
  | .expression e => exact e.remembers_resolve w
  | .print e _ => exact e.remembers_resolve w
  | .declare name none => exact (remembers_declare name w).trans (remembers_define name _)
  | .declare name (some e) =>
    exact ((remembers_declare name w).trans (e.remembers_resolve _)).trans (remembers_define name _)
  | .block body _ =>
    have ho : Remembers w (openScope w).2 := .of_eq rfl rfl
    exact (ho.trans (Stmt.remembers_resolveAll body _)).trans (remembers_closeScope _)
  | .branch test yes none _ => exact (test.remembers_resolve w).trans (yes.remembers_resolve _)
  | .branch test yes (some no) _ =>
    exact ((test.remembers_resolve w).trans (yes.remembers_resolve _)).trans
      (no.remembers_resolve _)
  | .loop test body _ => exact (test.remembers_resolve w).trans (body.remembers_resolve _)
  | .breakOut _ => exact .refl w
  | .function f =>
    exact ((remembers_declare f.name w).trans (remembers_define f.name _)).trans
      (f.remembers_resolve _ _)
  | .returnWith none place =>
    rw [Stmt.resolve_return]
    exact (remembers_returningValue place w).2
  | .returnWith (some e) place =>
    rw [Stmt.resolve_returnWith]
    exact (remembers_returningValue place w).1.trans (e.remembers_resolve _)
  | .classDecl name none methods =>
    exact remembers_exit ((remembers_enter .plain name w).trans
      ((remembers_this name.place _).trans (Function.remembers_resolveAll methods _))) w
  | .classDecl name (some r) methods =>
    rw [Stmt.resolve_subclass]
    exact remembers_exit (((remembers_enter .derived name w).trans
      ((remembers_derive name r w).trans (Function.remembers_resolveAll methods _))).trans
      (remembers_closeScope _)) w

theorem Stmt.remembers_resolveAll (ss : List Stmt) (w : Walk) :
    Remembers w (Stmt.resolveAll ss w).2 := by
  match ss with
  | [] => exact .refl w
  | s :: ss => exact (s.remembers_resolve w).trans (Stmt.remembers_resolveAll ss _)

theorem Function.remembers_resolve (f : Function) (kind : FunctionKind) (w : Walk) :
    Remembers w (f.resolve kind w).2 := by
  match f with
  | .mk _ params body => exact remembers_leave (Stmt.remembers_resolveAll body _)

theorem Function.remembers_resolveAll (fs : List Function) (w : Walk) :
    Remembers w (Function.resolveAll fs w).2 := by
  match fs with
  | [] => exact .refl w
  | f :: fs => exact (f.remembers_resolve _ w).trans (Function.remembers_resolveAll fs _)

end

/-- A global name that is declared without a report is new, and remembered. -/
theorem global_of_await {n : Name} {w : Walk} (hw : w.scopes = [])
    (ha : w.allowRedefinition = false) (hq : (w.await n).problems = w.problems) :
    w.globals.has n.text = false ∧ (w.await n).globals.has n.text := by
  unfold Scoping.Walk.await at hq ⊢
  rw [declare_nil hw, declareGlobal_apply, if_neg (by simp [ha])] at hq ⊢
  cases hg : w.globals.find? n.text with
  | some first =>
    rw [hg] at hq
    have hs := congrArg Array.size hq
    simp [report] at hs
  | none => exact ⟨by simp [Bindings.has, hg], by simp [Bindings.has_insert]⟩

/-- A global name that a statement declares without a report is new, and remembered. -/
theorem Stmt.global_of_quiet (s : Stmt) {w : Walk} (hw : w.scopes = [])
    (ha : w.allowRedefinition = false) (hq : (s.resolve w).2.problems = w.problems) :
    ∀ n ∈ s.declared?, w.globals.has n.text = false ∧ (s.resolve w).2.globals.has n.text := by
  intro n hn
  match s with
  | .declare _ none =>
    cases hn
    obtain ⟨hnew, hhas⟩ := global_of_await hw ha ((problems_bind n _).symm.trans hq)
    exact ⟨hnew, (remembers_define n _).globals _ hhas⟩
  | .declare _ (some e) =>
    cases hn
    rw [Stmt.resolve_declareWith, problems_bind] at hq
    obtain ⟨hq, -⟩ := quiet_parts (inner_declare n w).problems (e.steady_resolve _).problems hq
    obtain ⟨hnew, hhas⟩ := global_of_await hw ha hq
    exact ⟨hnew, ((e.remembers_resolve _).trans (remembers_define n _)).globals _ hhas⟩
  | .function f =>
    cases hn
    have hb := (inner_declare f.name w).trans (inner_define f.name _)
    obtain ⟨hq, -⟩ := quiet_parts hb.problems (f.steady_resolve .function _).problems hq
    obtain ⟨hnew, hhas⟩ := global_of_await hw ha ((problems_bind f.name _).symm.trans hq)
    exact ⟨hnew, ((remembers_define f.name _).trans (f.remembers_resolve _ _)).globals _ hhas⟩
  | .classDecl _ none fs =>
    cases hn
    rw [Stmt.resolve_class, problems_exit] at hq
    obtain ⟨hq, -⟩ := quiet_parts (reports_enter .plain n w)
      ((reports_this n.place _).trans (Function.steady_resolveAll fs _).problems) hq
    obtain ⟨hnew, hhas⟩ := global_of_await (w := { w with classKind := .plain }) hw ha
      ((problems_bind n _).symm.trans hq)
    exact ⟨hnew, (remembers_exit ((remembers_define n _).trans ((remembers_this n.place _).trans
      (Function.remembers_resolveAll fs _))) w).globals _ hhas⟩
  | .classDecl _ (some r) fs =>
    cases hn
    rw [Stmt.resolve_subclass, problems_exit, problems_closeScope] at hq
    obtain ⟨hq, -⟩ := quiet_parts (reports_enter .derived n w)
      ((reports_derive n r w).trans (Function.steady_resolveAll fs _).problems) hq
    obtain ⟨hnew, hhas⟩ := global_of_await (w := { w with classKind := .derived }) hw ha
      ((problems_bind n _).symm.trans hq)
    rw [Stmt.resolve_subclass]
    exact ⟨hnew, (remembers_exit (((remembers_define n _).trans ((remembers_derive n r w).trans
      (Function.remembers_resolveAll fs _))).trans (remembers_closeScope _)) w).globals _ hhas⟩

/-- Without an open scope, statements that are passed without a report declare names that are
new, and no name twice, unless names may be declared again. -/
theorem Stmt.globals_distinct (ss : List Stmt) {w : Walk} (hw : w.scopes = [])
    (ha : w.allowRedefinition = false) (hq : (Stmt.resolveAll ss w).2.problems = w.problems) :
    (∀ s ∈ ss, ∀ n ∈ s.declared?, w.globals.has n.text = false) ∧
      ss.Pairwise fun s t => ∀ n ∈ s.declared?, ∀ m ∈ t.declared?, n.text ≠ m.text := by
  induction ss generalizing w with
  | nil => exact ⟨fun _ h => (nomatch h), .nil⟩
  | cons s ss ih =>
    have hs := s.inner_resolve w
    have hr := s.remembers_resolve w
    obtain ⟨hqs, hqr⟩ := quiet_parts hs.problems (Stmt.inner_resolveAll ss _).problems hq
    have hnew := s.global_of_quiet hw ha hqs
    have hscopes : (s.resolve w).2.scopes = [] := by
      have hl := hs.length
      rw [outline_nil.2 hw] at hl
      exact outline_nil.1 (List.length_eq_zero_iff.1 hl)
    obtain ⟨hrest, hpair⟩ := ih hscopes (hr.allow.trans ha) hqr
    have hold (t : Stmt) (ht : t ∈ ss) (m : Name) (hm : m ∈ t.declared?) :
        w.globals.has m.text = false := by
      rw [Bool.eq_false_iff]
      intro hb
      have hb' := hr.globals _ hb
      rw [hrest t ht m hm] at hb'
      cases hb'
    refine ⟨List.forall_mem_cons.2 ⟨fun n hn => (hnew n hn).1, hold⟩,
      .cons (fun t ht n hn m hm he => ?_) hpair⟩
    have hb := (hnew n hn).2
    rw [he, hrest t ht m hm] at hb
    cases hb

end LoxLang
