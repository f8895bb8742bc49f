import LoxLang.Proofs.Renaming.Walk
import LoxLang.Proofs.Scoping.Housed
import Mathlib.Data.List.Pairwise

/-!
# Resolving renamed trees

Where a walk reports nothing, a scope declares each name once, so a declaration and its text
are the same thing there. A tree with one declaration renamed is then the tree with the texts
exchanged, the walk over it gives each use the depth that it had, and its reports are the
same but for the name (`Follows`).
-/

namespace LoxLang

open Scoping

/-! ## Names of one scope -/

/-- If the statement declares the name in its scope, it is the declaration itself. -/
def Stmt.DeclaresOnly (d : Name) (s : Stmt) : Prop :=
  ∀ n ∈ s.declared?, n.text = d.text → n = d ∧ ∃ initial, s = .declare d initial

theorem Stmt.declaresOnly_of_none {d : Name} {s : Stmt} (h : s.declared? = none) :
    s.DeclaresOnly d := by
  intro n hn
  rw [h] at hn
  cases hn

/-- The lookup of a superclass and the scopes of `super` and `this` add to the reports. -/
theorem reports_derive (n : Name) (r : Reference) (w : Walk) :
    (w.enter .derived n).Reports (w.derive n r) :=
  .trans ((steady_inherit n r _).trans (steady_reference _ r)).problems
    ((reports_super n.place _).trans (reports_this n.place _))

section
variable {w : Walk} {o : Bindings Bool} {os : List (Bindings Bool)} (ho : w.outline = o :: os)
include ho

/-- A name that is declared without a report is new to its scope. -/
theorem not_has_of_await {n : Name} (hq : (w.await n).problems = w.problems) :
    o.has n.text = false := by
  cases hw : w.scopes with
  | nil => simp [Walk.outline, hw] at ho
  | cons s ss =>
    simp only [Walk.outline, hw, List.map_cons, List.cons.injEq] at ho
    rw [← ho.1, Bindings.has_mapValues, Bool.eq_false_iff]
    intro hs
    have hsize := congrArg Array.size hq
    simp [Walk.await, declare, hw, hs, report] at hsize

/-- What a statement declares without a report is new to its scope. -/
theorem Stmt.not_has_of_quiet (s : Stmt) (hq : (s.resolve w).2.problems = w.problems) :
    ∀ n ∈ s.declared?, o.has n.text = false := by
  intro n hn
  match s with
  | .declare _ none =>
    cases hn
    exact not_has_of_await ho ((problems_bind n _).symm.trans hq)
  | .declare _ (some e) =>
    cases hn
    rw [Stmt.resolve_declareWith, problems_bind] at hq
    exact not_has_of_await ho
      (quiet_parts (inner_declare n w).problems (e.steady_resolve _).problems hq).1
  | .function f =>
    cases hn
    have hb := (inner_declare f.name w).trans (inner_define f.name _)
    obtain ⟨hq, -⟩ := quiet_parts hb.problems (f.steady_resolve .function _).problems hq
    exact not_has_of_await ho ((problems_bind f.name _).symm.trans hq)
  | .classDecl _ none fs =>
    cases hn
    rw [Stmt.resolve_class, problems_exit] at hq
    obtain ⟨hq, -⟩ := quiet_parts (reports_enter .plain n w)
      ((reports_this n.place _).trans (Function.steady_resolveAll fs _).problems) hq
    exact not_has_of_await (w := { w with classKind := .plain }) ho ((problems_bind n _).symm.trans hq)
  | .classDecl _ (some r) fs =>
    cases hn
    rw [Stmt.resolve_subclass, problems_exit, problems_closeScope] at hq
    obtain ⟨hq, -⟩ := quiet_parts (reports_enter .derived n w)
      ((reports_derive n r w).trans (Function.steady_resolveAll fs _).problems) hq
    exact not_has_of_await (w := { w with classKind := .derived }) ho
      ((problems_bind n _).symm.trans hq)

end

/-- Statements that are passed without a report declare names that are new to their scope, and
no name twice. -/
theorem Stmt.distinct_of_quiet (ss : List Stmt) {w : Walk} {o : Bindings Bool}
    {os : List (Bindings Bool)} (ho : w.outline = o :: os) (hs : Stmt.AllSettled ss w)
    (hq : (Stmt.resolveAll ss w).2.problems = w.problems) :
    (∀ s ∈ ss, ∀ n ∈ s.declared?, o.has n.text = false) ∧
      ss.Pairwise fun s t => ∀ n ∈ s.declared?, ∀ m ∈ t.declared?, n.text ≠ m.text := by
  induction ss generalizing w o with
  | nil => exact ⟨fun _ h => (nomatch h), .nil⟩
  | cons s ss ih =>
    obtain ⟨hqs, hq⟩ := quiet_parts (s.inner_resolve w).problems
      (Stmt.inner_resolveAll ss _).problems hq
    have hnew := s.not_has_of_quiet ho hqs
    have hout := s.outline_resolve w hs.1
    rw [ho, Stmt.outlined] at hout
    cases hd : s.declared? with
    | none =>
      rw [hd] at hout
      obtain ⟨hrest, hpair⟩ := ih hout hs.2 hq
      refine ⟨?_, .cons (fun t _ n hn => ?_) hpair⟩
      · exact List.forall_mem_cons.2 ⟨hnew, hrest⟩
      · rw [hd] at hn
        cases hn
    | some n =>
      rw [hd] at hout
      obtain ⟨hrest, hpair⟩ := ih hout hs.2 hq
      simp only [Bindings.has_insert, Bool.or_eq_false_iff, beq_eq_false_iff_ne] at hrest
      refine ⟨?_, .cons (fun t ht m hm k hk => ?_) hpair⟩
      · exact List.forall_mem_cons.2 ⟨hnew, fun t ht m hm => (hrest t ht m hm).2⟩
      · rw [hd] at hm
        cases hm
        exact (hrest t ht k hk).1.symm

/-- Parameters that are declared without a report have names that are new to their scope, and
no name twice. -/
theorem params_distinct (ps : List Name) {w : Walk} {o : Bindings Bool}
    {os : List (Bindings Bool)} (ho : w.outline = o :: os)
    (hq : (ps.forM declareParam w).2.problems = w.problems) :
    (∀ p ∈ ps, o.has p.text = false) ∧ ps.Pairwise (·.text ≠ ·.text) ∧
      ∃ o', (ps.forM declareParam w).2.outline = o' :: os ∧
        ∀ x, (o.has x ∨ ∃ p ∈ ps, p.text = x) → o'.has x := by
  induction ps generalizing w o with
  | nil => exact ⟨fun _ h => (nomatch h), .nil, o, ho, by simp⟩
  | cons p ps ih =>
    have hb : (declareParam p w).2.problems = (w.await p).problems :=
      (problems_changeLocal _ _ _).trans (problems_bind p _)
    obtain ⟨hqp, hq⟩ := quiet_parts (inner_declareParam p w).problems
      (inner_forM inner_declareParam ps _).problems hq
    have hnew := not_has_of_await ho (hb.symm.trans hqp)
    have hout := outline_declareParam p w
    rw [ho] at hout
    obtain ⟨hrest, hpair, o', ho', hhas⟩ := ih hout hq
    simp only [Bindings.has_insert, Bool.or_eq_false_iff, beq_eq_false_iff_ne, Bool.or_eq_true,
      beq_iff_eq] at hrest hhas
    refine ⟨List.forall_mem_cons.2 ⟨hnew, fun q hq => (hrest q hq).2⟩,
      .cons (fun q hq => (hrest q hq).1.symm) hpair, o', ho', fun x hx => hhas x ?_⟩
    simp only [List.mem_cons, exists_eq_or_imp] at hx
    rcases hx with hx | rfl | hx
    · exact .inl (.inr hx)
    · exact .inl (.inl rfl)
    · exact .inr hx

/-- In a scope that is passed without a report, a declaration is the only one of its text. -/
theorem only_of_quiet {d : Name} {ps : List Name} {ss : List Stmt} {w : Walk}
    {os : List (Bindings Bool)} (hd : d ∈ ps ∨ ∃ initial, .declare d initial ∈ ss)
    (ho : w.outline = [] :: os) (hq : (ps.forM declareParam w).2.problems = w.problems)
    (hs : Stmt.AllSettled ss (ps.forM declareParam w).2)
    (hqs : (Stmt.resolveAll ss (ps.forM declareParam w).2).2.problems =
      (ps.forM declareParam w).2.problems) :
    (∀ p ∈ ps, p.text = d.text → p = d) ∧ ∀ s ∈ ss, s.DeclaresOnly d := by
  obtain ⟨-, hpairs, o, ho, hhas⟩ := params_distinct ps ho hq
  obtain ⟨hnew, hpair⟩ := Stmt.distinct_of_quiet ss ho hs hqs
  have hparam {p : Name} (hp : p ∈ ps) : o.has p.text := hhas p.text (.inr ⟨p, hp, rfl⟩)
  rcases hd with hd | ⟨initial, hd⟩
  · have : Std.Symm fun p q : Name => p.text ≠ q.text := ⟨fun _ _ h => h.symm⟩
    refine ⟨fun p hp ht => ?_, fun s hs n hn ht => ?_⟩
    · by_contra hne
      exact hpairs.forall hp hd hne ht
    · exact absurd (hparam hd) (by rw [← ht, hnew s hs n hn]; exact Bool.false_ne_true)
  · have : Std.Symm fun s t : Stmt =>
        ∀ n ∈ s.declared?, ∀ m ∈ t.declared?, n.text ≠ m.text :=
      ⟨fun _ _ h n hn m hm => (h m hm n hn).symm⟩
    refine ⟨fun p hp ht => ?_, fun s hs n hn ht => ?_⟩
    · exact absurd (hparam hp) (by rw [ht, hnew _ hd d rfl]; exact Bool.false_ne_true)
    · by_cases hne : s = .declare d initial
      · subst hne
        cases hn
        exact ⟨rfl, initial, rfl⟩
      · exact absurd ht (hpair.forall hs hd hne n hn d rfl)

/-! ## One name and its text -/

section
variable {d : Name} {y : String} {b : Bool} {ρ : Marks}

theorem Reference.Renamed.swap {r r' : Reference} (h : r.Renamed (.of d y) ρ r') :
    r.name.text ≠ y ∧ r.Renamed (.swap d.text y) ρ r' := by
  obtain ⟨hd, hy, hn⟩ := h
  exact ⟨hy, hd, hn.trans (Name.exchange_eq_ite _ _ _ hy).symm⟩

theorem Name.Fits.of_declared {n n' : Name} (h : (Renaming.of d y).declared b n n')
    (ho : b → n.text = d.text → n = d) : n.Fits d y b n' := by
  obtain ⟨hy, hn⟩ := h
  refine ⟨hy, ?_, ho⟩
  have hc : (b ∧ n = d) ↔ (b ∧ n.text = d.text) :=
    ⟨fun h => ⟨h.1, congrArg Name.text h.2⟩, fun h => ⟨h.1, ho h.1 h.2⟩⟩
  rw [hn, Name.redeclare, Name.exchange_eq_ite _ _ _ hy]
  simp only [hc]

theorem Name.Fits.of_kept {n : Name} (h : (Renaming.of d y).kept b n)
    (ho : b → n.text ≠ d.text) : n.Fits d y b n := by
  refine ⟨h, ?_, fun hb ht => absurd ht (ho hb)⟩
  rw [Name.exchange_eq_ite _ _ _ h, if_neg fun hc => ho hc.1 hc.2]

theorem fits_params {ps ps' : List Name} (h : List.Forall₂ ((Renaming.of d y).declared b) ps ps')
    (ho : b → ∀ p ∈ ps, p.text = d.text → p = d) :
    List.Forall₂ (Name.Fits · d y b ·) ps ps' := by
  induction h with
  | nil => exact .nil
  | cons hn _ ih =>
    exact .cons (.of_declared hn fun hb => ho hb _ List.mem_cons_self)
      (ih fun hb p hp => ho hb p (List.mem_cons_of_mem _ hp))

/-- A function or class is not the declaration, which is that of a variable or parameter. -/
theorem Stmt.DeclaresOnly.text_ne {s : Stmt} (h : s.DeclaresOnly d) {n : Name}
    (hn : n ∈ s.declared?) (hv : ∀ initial, s ≠ .declare d initial) : n.text ≠ d.text := by
  intro ht
  obtain ⟨-, initial, hi⟩ := h n hn ht
  exact hv initial hi

end

/-! ## Walking alike -/

/-- One walk stands where the other does once each has passed its tree, the second of which is
the first renamed and resolved already. -/
structure Follows {α : Type} (d : Name) (y : String) (ρ : Marks) (renamed : Prop)
    (walk walk' : Resolving α) (tree : α) (w w' : Walk) : Prop where
  renamed : renamed
  again : (walk' w').1 = tree
  alike : WalkAlike d y ρ (walk w).2 (walk' w').2

/-- Inside of a class `this` is a use. -/
theorem Expr.resolve_this_inside {w : Walk} (hk : w.classKind ≠ .outside) (depth : Option Nat)
    (place : Place) : (Expr.this depth place).resolve w =
      (.this (distance? w.scopes "this") place, (use "this" true w).2) := by
  rw [Expr.resolve_this]
  split
  · exact absurd ‹_› hk
  · rfl

section
variable {d : Name} {y : String}

mutual

theorem Expr.follows (e : Expr) {e' : Expr} {ρ : Marks} {w w' : Walk} (h : e.Renamed (.of d y) ρ e')
    (hs : e.Settled w) (hq : (e.resolve w).2.problems = w.problems) (hw : WalkAlike d y ρ w w') :
    Follows d y ρ (e.Renamed (.swap d.text y) ρ e') e.resolve e'.resolve e' w w' := by
  match e with
  | .literal value place =>
    cases h
    exact ⟨.literal value place, rfl, hw⟩
  | .group e _ =>
    cases h with
    | group he =>
      have f := e.follows he hs hq hw
      exact ⟨.group f.renamed, by rw [Expr.resolve_group, f.again], f.alike⟩
  | .unary _ e _ =>
    cases h with
    | unary he =>
      have f := e.follows he hs hq hw
      exact ⟨.unary f.renamed, by rw [Expr.resolve_unary, f.again], f.alike⟩
  | .binary _ l r _ =>
    cases h with
    | binary hl hr =>
      obtain ⟨hql, hqr⟩ := quiet_parts (l.steady_resolve w).problems (r.steady_resolve _).problems hq
      have fl := l.follows hl hs.1 hql hw
      have fr := r.follows hr hs.2 hqr fl.alike
      exact ⟨.binary fl.renamed fr.renamed, by rw [Expr.resolve_binary, fl.again, fr.again], fr.alike⟩
  | .sequence es _ =>
    cases h with
    | sequence hes =>
      have f := Expr.allFollow es hes hs hq hw
      exact ⟨.sequence f.renamed, by rw [Expr.resolve_sequence, f.again], f.alike⟩
  | .read r =>
    cases h with
    | read hr =>
      obtain ⟨hny, hr⟩ := hr.swap
      obtain ⟨ha, hw⟩ := hw.reference hr hny hs
      exact ⟨.read hr, by rw [Expr.resolve_read, ha], hw⟩
  | .assign r e =>
    cases h with
    | @assign _ _ r' _ e' hr he =>
      obtain ⟨hny, hr⟩ := hr.swap
      obtain ⟨hse, -, hdep⟩ := hs
      rw [Expr.resolve_assign] at hq
      obtain ⟨hqe, -⟩ := quiet_parts (e.steady_resolve w).problems (steady_use _ _ _).problems hq
      have f := e.follows he hse hqe hw
      have hm := ρ.elim_of_eq hdep
      refine ⟨.assign hr f.renamed, ?_, ?_⟩
      · rw [Expr.resolve_assign, f.again, hr.text, f.alike.scopes.distance? hny hm, ← hdep,
          ← hr.depth]
      · rw [Expr.resolve_assign, Expr.resolve_assign, hr.text]
        exact f.alike.use hny false hm
  | .call f es _ =>
    cases h with
    | call hf hes =>
      obtain ⟨hqf, hqs⟩ := quiet_parts (f.steady_resolve w).problems
        (Expr.steady_resolveAll es _).problems hq
      have ff := f.follows hf hs.1 hqf hw
      have fs := Expr.allFollow es hes hs.2 hqs ff.alike
      exact ⟨.call ff.renamed fs.renamed, by rw [Expr.resolve_call, ff.again, fs.again], fs.alike⟩
  | .lambda ps ss _ =>
    cases h with
    | lambda b hm hp hss =>
      rw [Expr.resolve_lambda, problems_leave] at hq
      obtain ⟨hqb, hqs⟩ := quiet_parts (reports_body .function ps w)
        (Stmt.inner_resolveAll ss _).problems hq
      have ho (hb : b) := only_of_quiet (hm hb) rfl hqb hs.2 hqs
      have hp := fits_params hp fun hb => (ho hb).1
      have f := Stmt.allFollow ss hss (fun hb => (ho hb).2) hs.2 hqs (hw.body .function hp)
      exact ⟨.lambda b trivial (hp.imp fun _ _ h => h.name) f.renamed,
        by rw [Expr.resolve_lambda, f.again], hw.leave f.alike⟩
  | .get e _ =>
    cases h with
    | get he =>
      have f := e.follows he hs hq hw
      exact ⟨.get f.renamed, by rw [Expr.resolve_get, f.again], f.alike⟩
  | .set e _ v =>
    cases h with
    | set he hv =>
      obtain ⟨hqe, hqv⟩ := quiet_parts (e.steady_resolve w).problems (v.steady_resolve _).problems hq
      have fe := e.follows he hs.1 hqe hw
      have fv := v.follows hv hs.2 hqv fe.alike
      exact ⟨.set fe.renamed fv.renamed, by rw [Expr.resolve_set, fe.again, fv.again], fv.alike⟩
  | .this depth place =>
    cases h
    obtain ⟨hk, hdep⟩ := hs
    obtain ⟨hdis, hu⟩ := hw.useBuiltin (.inl rfl)
    have hk' : w'.classKind ≠ .outside := hw.classKind ▸ hk
    refine ⟨.this depth place, ?_, ?_⟩
    · rw [Expr.resolve_this_inside hk', hdis, ← hdep]
    · rw [Expr.resolve_this_inside hk, Expr.resolve_this_inside hk']
      exact hu
  | .super method depth place =>
    cases h
    obtain ⟨hk, hdep⟩ := hs
    obtain ⟨hdis, hu⟩ := hw.useBuiltin (.inr rfl)
    refine ⟨.super method depth place, ?_, ?_⟩
    · rw [Expr.resolve_super, hw.classKind, hk, hdis, ← hdep]
    · rw [Expr.resolve_super, Expr.resolve_super, hw.classKind, hk]
      exact hu

theorem Expr.allFollow (es : List Expr) {es' : List Expr} {ρ : Marks} {w w' : Walk}
    (h : Expr.AllRenamed (.of d y) ρ es es') (hs : Expr.AllSettled es w)
    (hq : (Expr.resolveAll es w).2.problems = w.problems) (hw : WalkAlike d y ρ w w') :
    Follows d y ρ (Expr.AllRenamed (.swap d.text y) ρ es es') (Expr.resolveAll es)
      (Expr.resolveAll es') es' w w' := by
  match es with
  | [] =>
    cases h
    exact ⟨.nil, rfl, hw⟩
  | e :: es =>
    cases h with
    | cons he hes =>
      obtain ⟨hqe, hqs⟩ := quiet_parts (e.steady_resolve w).problems
        (Expr.steady_resolveAll es _).problems hq
      have fe := e.follows he hs.1 hqe hw
      have fs := Expr.allFollow es hes hs.2 hqs fe.alike
      exact ⟨.cons fe.renamed fs.renamed, by rw [Expr.resolveAll_cons, fe.again, fs.again], fs.alike⟩

theorem Stmt.follows (s : Stmt) {s' : Stmt} {ρ : Marks} {w w' : Walk} (h : s.Renamed (.of d y) ρ s')
    (ho : ρ 0 → s.DeclaresOnly d) (hs : s.Settled w) (hq : (s.resolve w).2.problems = w.problems)
    (hw : WalkAlike d y ρ w w') :
    Follows d y ρ (s.Renamed (.swap d.text y) ρ s') s.resolve s'.resolve s' w w' := by
  match s with
  | .expression e =>
    cases h with
    | expression he =>
      have f := e.follows he hs hq hw
      exact ⟨.expression f.renamed, by rw [Stmt.resolve_expression, f.again], f.alike⟩
  | .print e _ =>
    cases h with
    | print he =>
      have f := e.follows he hs hq hw
      exact ⟨.print f.renamed, by rw [Stmt.resolve_print, f.again], f.alike⟩
  | .declare n none =>
    cases h with
    | declare hn =>
      have hn := Name.Fits.of_declared hn fun hb ht => (ho hb n rfl ht).1
      exact ⟨.declare hn.name, rfl, (hw.await hn).bind hn⟩
  | .declare n (some e) =>
    cases h with
    | declareWith hn he =>
      have hn := Name.Fits.of_declared hn fun hb ht => (ho hb n rfl ht).1
      rw [Stmt.resolve_declareWith, problems_bind] at hq
      obtain ⟨-, hqe⟩ := quiet_parts (inner_declare n w).problems (e.steady_resolve _).problems hq
      have f := e.follows he hs.2 hqe (hw.await hn)
      exact ⟨.declareWith hn.name f.renamed, by rw [Stmt.resolve_declareWith, f.again],
        f.alike.bind hn⟩
  | .block ss _ =>
    cases h with
    | block b hm hss =>
      rw [Stmt.resolve_block, problems_closeScope] at hq
      have ho (hb : b) := only_of_quiet (hm hb) rfl rfl hs hq
      have f := Stmt.allFollow ss hss (fun hb => (ho hb).2) hs hq (hw.openScope b)
      exact ⟨.block b trivial f.renamed, by rw [Stmt.resolve_block, f.again], f.alike.closeScope⟩
  | .branch e s none _ =>
    cases h with
    | branch he hst =>
      obtain ⟨hqe, hqs⟩ := quiet_parts (e.steady_resolve w).problems (s.inner_resolve _).problems hq
      have fe := e.follows he hs.1 hqe hw
      have fs := s.follows hst (fun _ => Stmt.declaresOnly_of_none hs.2.1) hs.2.2 hqs fe.alike
      exact ⟨.branch fe.renamed fs.renamed, by rw [Stmt.resolve_branch, fe.again, fs.again], fs.alike⟩
  | .branch e s (some t) _ =>
    cases h with
    | branchElse he hst hte =>
      obtain ⟨hse, ⟨hsd, hss⟩, htd, hts⟩ := hs
      obtain ⟨hqe, hq⟩ := quiet_parts (e.steady_resolve w).problems
        ((s.inner_resolve _).trans (t.inner_resolve _)).problems hq
      obtain ⟨hqs, hqt⟩ := quiet_parts (s.inner_resolve _).problems (t.inner_resolve _).problems hq
      have fe := e.follows he hse hqe hw
      have fs := s.follows hst (fun _ => Stmt.declaresOnly_of_none hsd) hss hqs fe.alike
      have ft := t.follows hte (fun _ => Stmt.declaresOnly_of_none htd) hts hqt fs.alike
      exact ⟨.branchElse fe.renamed fs.renamed ft.renamed,
        by rw [Stmt.resolve_branchElse, fe.again, fs.again, ft.again], ft.alike⟩
  | .loop e s _ =>
    cases h with
    | loop he hst =>
      obtain ⟨hqe, hqs⟩ := quiet_parts (e.steady_resolve w).problems (s.inner_resolve _).problems hq
      have fe := e.follows he hs.1 hqe hw
      have fs := s.follows hst (fun _ => Stmt.declaresOnly_of_none hs.2.1) hs.2.2 hqs fe.alike
      exact ⟨.loop fe.renamed fs.renamed, by rw [Stmt.resolve_loop, fe.again, fs.again], fs.alike⟩
  | .breakOut place =>
    cases h
    exact ⟨.breakOut place, rfl, hw⟩
  | .function f =>
    cases h with
    | @function _ _ f' hn hf =>
      have hn := Name.Fits.of_kept hn fun hb =>
        (ho hb).text_ne (show f.name ∈ (Stmt.function f).declared? from rfl) fun _ h => nomatch h
      obtain ⟨-, hqf⟩ := quiet_parts ((inner_declare f.name w).trans (inner_define f.name _)).problems
        (f.steady_resolve .function _).problems hq
      have ff := f.follows hf hs.2 hqf ((hw.await hn).bind hn)
      have hname := ff.renamed.name
      refine ⟨.function hn.name.symm ff.renamed, ?_, ?_⟩
      · rw [Stmt.resolve_function, hname, ff.again]
      · rw [Stmt.resolve_function, Stmt.resolve_function, hname]
        exact ff.alike
  | .returnWith none place =>
    cases h
    refine ⟨.returnNil place, by rw [Stmt.resolve_return], ?_⟩
    rw [Stmt.resolve_return, Stmt.resolve_return]
    exact hw.returning place
  | .returnWith (some e) place =>
    cases h with
    | returnWith he =>
      rw [Stmt.resolve_returnWith] at hq
      obtain ⟨-, hqe⟩ := quiet_parts (steady_returningValue place w).problems
        (e.steady_resolve _).problems hq
      have f := e.follows he hs hqe (hw.returningValue place)
      refine ⟨.returnWith f.renamed, by rw [Stmt.resolve_returnWith, f.again], ?_⟩
      rw [Stmt.resolve_returnWith, Stmt.resolve_returnWith]
      exact f.alike
  | .classDecl n none fs =>
    cases h with
    | plainClass hn hfs =>
      have hn := Name.Fits.of_kept hn fun hb =>
        (ho hb).text_ne (show n ∈ (Stmt.classDecl n none fs).declared? from rfl) fun _ h => nomatch h
      rw [Stmt.resolve_class, problems_exit] at hq
      obtain ⟨-, hqs⟩ := quiet_parts ((reports_enter .plain n w).trans (reports_this n.place _))
        (Function.steady_resolveAll fs _).problems hq
      have ff := Function.allFollow fs hfs hs.2 hqs ((hw.enter .plain hn).this n.place)
      exact ⟨.plainClass hn.name.symm ff.renamed, by rw [Stmt.resolve_class, ff.again],
        hw.exit ff.alike⟩
  | .classDecl n (some r) fs =>
    cases h with
    | @subclass _ _ _ r' _ fs' hn hr hfs =>
      have hn := Name.Fits.of_kept hn fun hb =>
        (ho hb).text_ne (show n ∈ (Stmt.classDecl n (some r) fs).declared? from rfl)
          fun _ h => nomatch h
      obtain ⟨hny, hr⟩ := hr.swap
      obtain ⟨-, hne, hdep, hsf⟩ := hs
      have hne' := hr.text_ne hny hn.fresh hne
      obtain ⟨ha, -⟩ := (hw.enter .derived hn).reference hr hny hdep
      rw [Stmt.resolve_subclass, problems_exit, problems_closeScope] at hq
      obtain ⟨-, hqs⟩ := quiet_parts ((reports_enter .derived n w).trans (reports_derive n r w))
        (Function.steady_resolveAll fs _).problems hq
      have ff := Function.allFollow fs hfs hsf hqs (hw.derive hn hr hny hne hdep)
      refine ⟨.subclass hn.name.symm hr ff.renamed, ?_, ?_⟩
      · rw [Stmt.resolve_subclass, inherit_of_ne hne', ha, ff.again]
      · rw [Stmt.resolve_subclass, Stmt.resolve_subclass]
        exact hw.exit ff.alike.closeScope

theorem Stmt.allFollow (ss : List Stmt) {ss' : List Stmt} {ρ : Marks} {w w' : Walk}
    (h : Stmt.AllRenamed (.of d y) ρ ss ss') (ho : ρ 0 → ∀ s ∈ ss, s.DeclaresOnly d)
    (hs : Stmt.AllSettled ss w) (hq : (Stmt.resolveAll ss w).2.problems = w.problems)
    (hw : WalkAlike d y ρ w w') :
    Follows d y ρ (Stmt.AllRenamed (.swap d.text y) ρ ss ss') (Stmt.resolveAll ss)
      (Stmt.resolveAll ss') ss' w w' := by
  match ss with
  | [] =>
    cases h
    exact ⟨.nil, rfl, hw⟩
  | s :: ss =>
    cases h with
    | cons hst hss =>
      obtain ⟨hqs, hqr⟩ := quiet_parts (s.inner_resolve w).problems
        (Stmt.inner_resolveAll ss _).problems hq
      have fs := s.follows hst (fun hb => ho hb s List.mem_cons_self) hs.1 hqs hw
      have fr := Stmt.allFollow ss hss (fun hb t ht => ho hb t (List.mem_cons_of_mem _ ht)) hs.2 hqr
        fs.alike
      exact ⟨.cons fs.renamed fr.renamed, by rw [Stmt.resolveAll_cons, fs.again, fr.again], fr.alike⟩

theorem Function.follows (f : Function) {f' : Function} {kind : FunctionKind} {ρ : Marks}
    {w w' : Walk} (h : f.Renamed (.of d y) ρ f') (hs : f.Settled kind w)
    (hq : (f.resolve kind w).2.problems = w.problems) (hw : WalkAlike d y ρ w w') :
    Follows d y ρ (f.Renamed (.swap d.text y) ρ f') (f.resolve kind) (f'.resolve kind) f' w w' := by
  match f with
  | .mk n ps ss =>
    cases h with
    | mk b hm hp hss =>
      rw [Function.resolve_mk, problems_leave] at hq
      obtain ⟨hqb, hqs⟩ := quiet_parts (reports_body kind ps w)
        (Stmt.inner_resolveAll ss _).problems hq
      have ho (hb : b) := only_of_quiet (hm hb) rfl hqb hs.2 hqs
      have hp := fits_params hp fun hb => (ho hb).1
      have f := Stmt.allFollow ss hss (fun hb => (ho hb).2) hs.2 hqs (hw.body kind hp)
      exact ⟨.mk b trivial (hp.imp fun _ _ h => h.name) f.renamed,
        by rw [Function.resolve_mk, f.again], hw.leave f.alike⟩

theorem Function.allFollow (fs : List Function) {fs' : List Function} {ρ : Marks} {w w' : Walk}
    (h : Function.AllRenamed (.of d y) ρ fs fs') (hs : Function.AllSettled fs w)
    (hq : (Function.resolveAll fs w).2.problems = w.problems) (hw : WalkAlike d y ρ w w') :
    Follows d y ρ (Function.AllRenamed (.swap d.text y) ρ fs fs') (Function.resolveAll fs)
      (Function.resolveAll fs') fs' w w' := by
  match fs with
  | [] =>
    cases h
    exact ⟨.nil, rfl, hw⟩
  | f :: fs =>
    cases h with
    | @cons _ _ f' _ fs' hf hfs =>
      obtain ⟨hqf, hqs⟩ := quiet_parts (f.steady_resolve f.methodKind w).problems
        (Function.steady_resolveAll fs _).problems hq
      have hk : f'.methodKind = f.methodKind := by
        cases hf
        rfl
      have ff := f.follows hf hs.1 hqf hw
      have fr := Function.allFollow fs hfs hs.2 hqs ff.alike
      refine ⟨.cons ff.renamed fr.renamed, ?_, ?_⟩
      · rw [Function.resolveAll_cons, hk, ff.again, fr.again]
      · rw [Function.resolveAll_cons, Function.resolveAll_cons, hk]
        exact fr.alike

end

end

end LoxLang
