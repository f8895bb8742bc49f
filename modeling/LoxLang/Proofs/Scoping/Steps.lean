import LoxLang.Proofs.Scoping.Walk

/-!
# The walk over a tree

The equations of `Expr.resolve` and `Stmt.resolve`, and what they come to: an expression
reads names, a statement adds those that it declares to the innermost scope
(`Scoping.walk_balanced`). So an expression leaves the walk steady, and a statement changes no
scope but the innermost.
-/

namespace LoxLang

open Scoping

/-- The walk back outside a function that was entered at `w`. -/
def Scoping.Walk.leave (w v : Walk) : Walk := { (closeScope v).2 with function := w.function }

/-- The walk inside the scope of `this`. -/
def Scoping.Walk.this (place : Place) (w : Walk) : Walk :=
  (declareBuiltin "this" place (openScope w).2).2

/-- The walk inside the scope of `super`. -/
def Scoping.Walk.super (place : Place) (w : Walk) : Walk :=
  (declareBuiltin "super" place (openScope w).2).2

/-- The walk once a name awaits its value. -/
def Scoping.Walk.await (name : Name) (w : Walk) : Walk := (declare name w).2

/-- The walk once a name has its value. -/
def Scoping.Walk.bind (name : Name) (w : Walk) : Walk := (Scoping.define name w).2

/-- The walk in a class once its name has its value. -/
def Scoping.Walk.enter (kind : ClassKind) (name : Name) (w : Walk) : Walk :=
  (({ w with classKind := kind } : Walk).await name).bind name

/-- The walk where a superclass is looked up: a report may have been made. -/
def Scoping.Walk.inherit (name : Name) (superclass : Reference) (w : Walk) : Walk :=
  if superclass.name.text == name.text then (report superclass.name.place .ownSuperclass w).2 else w

/-- The walk back outside a class that was entered at `w`. -/
def Scoping.Walk.exit (w v : Walk) : Walk := { (closeScope v).2 with classKind := w.classKind }

/-- The walk at a `return`: a report may have been made. -/
def Scoping.Walk.returning (place : Place) (w : Walk) : Walk :=
  if w.function == .outside then (report place .returnOutside w).2 else w

/-- The walk at the value of a `return`: a report may have been made. -/
def Scoping.Walk.returningValue (place : Place) (w : Walk) : Walk :=
  if (w.returning place).function == .initializer then
    (report place .valueFromInitializer (w.returning place)).2
  else w.returning place

/-! ## Equations -/

section
variable (w : Walk)

theorem resolve_function (kind : FunctionKind) (params : List Name) {α : Type} (x : Resolving α) :
    (inFunction kind <| inScope do
      params.forM declareParam
      x) w = ((x (w.body kind params)).1, w.leave (x (w.body kind params)).2) := rfl

theorem use_fst (name : String) (reads : Bool) : (use name reads w).1 = distance? w.scopes name := by
  simp only [use, bind_apply, get_apply]
  cases distance? w.scopes name with
  | none => rfl
  | some d => cases reads <;> rfl

theorem awaitsValue_snd (name : String) : (awaitsValue name w).2 = w := by
  simp only [awaitsValue, bind_apply, get_apply]
  cases w.scopes <;> rfl

/-- The walk where a reference is looked up: a report may have been made. -/
def Scoping.Walk.lookUp (name : Name) : Walk :=
  if (awaitsValue name.text w).1 then (report name.place .ownInitializer w).2 else w

theorem Scoping.Walk.scopes_lookUp (name : Name) : (w.lookUp name).scopes = w.scopes := by
  unfold Scoping.Walk.lookUp
  split <;> rfl

theorem Reference.resolve_apply (r : Reference) :
    r.resolve w = ({ r with depth := distance? w.scopes r.name.text },
      (use r.name.text true (w.lookUp r.name)).2) := by
  have h : r.resolve w = ({ r with depth := (use r.name.text true (w.lookUp r.name)).1 },
      (use r.name.text true (w.lookUp r.name)).2) := by
    simp only [Reference.resolve, bind_apply, awaitsValue_snd, Scoping.Walk.lookUp]
    cases (awaitsValue r.name.text w).1 <;> rfl
  rw [h, use_fst, Scoping.Walk.scopes_lookUp]

theorem reads_reference (r : Reference) : w.Reads (r.resolve w).2 := by
  rw [Reference.resolve_apply]
  refine .trans ?_ (reads_use _ _ _)
  unfold Scoping.Walk.lookUp
  split
  · exact reads_report _ _ w
  · exact .refl w

theorem steady_reference (r : Reference) : Steady w (r.resolve w).2 := (reads_reference w r).steady

theorem Expr.resolve_group (e : Expr) (place : Place) :
    (Expr.group e place).resolve w = (.group (e.resolve w).1 place, (e.resolve w).2) := rfl

theorem Expr.resolve_unary (op : UnaryOp) (e : Expr) (place : Place) :
    (Expr.unary op e place).resolve w = (.unary op (e.resolve w).1 place, (e.resolve w).2) := rfl

/-- The left operand is walked through before the right one. -/
theorem Expr.resolve_binary (op : BinaryOp) (left right : Expr) (place : Place) :
    (Expr.binary op left right place).resolve w =
      (.binary op (left.resolve w).1 (right.resolve (left.resolve w).2).1 place,
        (right.resolve (left.resolve w).2).2) := rfl

theorem Expr.resolve_sequence (items : List Expr) (place : Place) :
    (Expr.sequence items place).resolve w =
      (.sequence (Expr.resolveAll items w).1 place, (Expr.resolveAll items w).2) := rfl

theorem Expr.resolve_read (r : Reference) :
    (Expr.read r).resolve w = (.read (r.resolve w).1, (r.resolve w).2) := rfl

/-- The value is walked through before the name that it is assigned to is looked for. -/
theorem Expr.resolve_assign (r : Reference) (e : Expr) :
    (Expr.assign r e).resolve w =
      (.assign { r with depth := distance? (e.resolve w).2.scopes r.name.text } (e.resolve w).1,
        (use r.name.text false (e.resolve w).2).2) := by
  rw [← use_fst]; rfl

/-- The callee is walked through before the arguments. -/
theorem Expr.resolve_call (callee : Expr) (arguments : List Expr) (place : Place) :
    (Expr.call callee arguments place).resolve w =
      (.call (callee.resolve w).1 (Expr.resolveAll arguments (callee.resolve w).2).1 place,
        (Expr.resolveAll arguments (callee.resolve w).2).2) := rfl

/-- A lambda has a scope of its own, and the walk leaves it as it was outside. -/
theorem Expr.resolve_lambda (params : List Name) (body : List Stmt) (place : Place) :
    (Expr.lambda params body place).resolve w =
      (.lambda params (Stmt.resolveAll body (w.body .function params)).1 place,
        w.leave (Stmt.resolveAll body (w.body .function params)).2) := rfl

theorem Expr.resolve_get (e : Expr) (property : Name) :
    (Expr.get e property).resolve w = (.get (e.resolve w).1 property, (e.resolve w).2) := rfl

/-- An object is walked through before the value that is set. -/
theorem Expr.resolve_set (e : Expr) (property : Name) (value : Expr) :
    (Expr.set e property value).resolve w =
      (.set (e.resolve w).1 property (value.resolve (e.resolve w).2).1,
        (value.resolve (e.resolve w).2).2) := rfl

/-- Expressions are walked through from left to right. -/
theorem Expr.resolveAll_cons (e : Expr) (es : List Expr) :
    Expr.resolveAll (e :: es) w = ((e.resolve w).1 :: (Expr.resolveAll es (e.resolve w).2).1,
      (Expr.resolveAll es (e.resolve w).2).2) := rfl

theorem Stmt.resolve_expression (e : Expr) :
    (Stmt.expression e).resolve w = (.expression (e.resolve w).1, (e.resolve w).2) := rfl

theorem Stmt.resolve_print (e : Expr) (place : Place) :
    (Stmt.print e place).resolve w = (.print (e.resolve w).1 place, (e.resolve w).2) := rfl

theorem Stmt.resolve_declareWith (name : Name) (e : Expr) :
    (Stmt.declare name (some e)).resolve w =
      (.declare name (some (e.resolve (w.await name)).1),
        (e.resolve (w.await name)).2.bind name) := rfl

/-- A block has a scope of its own. -/
theorem Stmt.resolve_block (body : List Stmt) (place : Place) :
    (Stmt.block body place).resolve w =
      (.block (Stmt.resolveAll body (openScope w).2).1 place,
        (closeScope (Stmt.resolveAll body (openScope w).2).2).2) := rfl

/-- A branch without an `else` has its condition walked through first. -/
theorem Stmt.resolve_branch (test : Expr) (yes : Stmt) (place : Place) :
    (Stmt.branch test yes none place).resolve w =
      (.branch (test.resolve w).1 (yes.resolve (test.resolve w).2).1 none place,
        (yes.resolve (test.resolve w).2).2) := rfl

/-- The two statements of a branch are walked through one after the other. -/
theorem Stmt.resolve_branchElse (test : Expr) (yes no : Stmt) (place : Place) :
    (Stmt.branch test yes (some no) place).resolve w =
      (.branch (test.resolve w).1 (yes.resolve (test.resolve w).2).1
          (some (no.resolve (yes.resolve (test.resolve w).2).2).1) place,
        (no.resolve (yes.resolve (test.resolve w).2).2).2) := rfl

/-- The condition of a loop is walked through before the body, and once. -/
theorem Stmt.resolve_loop (test : Expr) (body : Stmt) (place : Place) :
    (Stmt.loop test body place).resolve w =
      (.loop (test.resolve w).1 (body.resolve (test.resolve w).2).1 place,
        (body.resolve (test.resolve w).2).2) := rfl

theorem Stmt.resolve_function (f : Function) :
    (Stmt.function f).resolve w =
      (.function (f.resolve .function ((w.await f.name).bind f.name)).1,
        (f.resolve .function ((w.await f.name).bind f.name)).2) := rfl

/-- Statements are walked through in the order of the text. -/
theorem Stmt.resolveAll_cons (s : Stmt) (ss : List Stmt) :
    Stmt.resolveAll (s :: ss) w = ((s.resolve w).1 :: (Stmt.resolveAll ss (s.resolve w).2).1,
      (Stmt.resolveAll ss (s.resolve w).2).2) := rfl

/-- A function has a scope for parameters and body together. -/
theorem Function.resolve_mk (kind : FunctionKind) (name : Name) (params : List Name)
    (body : List Stmt) : (Function.mk name params body).resolve kind w =
      (.mk name params (Stmt.resolveAll body (w.body kind params)).1,
        w.leave (Stmt.resolveAll body (w.body kind params)).2) := rfl

/-- Methods are walked through in the order of the text. -/
theorem Function.resolveAll_cons (f : Function) (fs : List Function) :
    Function.resolveAll (f :: fs) w =
      ((f.resolve f.methodKind w).1 :: (Function.resolveAll fs (f.resolve f.methodKind w).2).1,
        (Function.resolveAll fs (f.resolve f.methodKind w).2).2) := rfl

theorem Stmt.resolve_return (place : Place) :
    (Stmt.returnWith none place).resolve w = (.returnWith none place, w.returning place) := by
  have h : (Stmt.returnWith none place).resolve w =
      (if w.function == .outside then
        report place .returnOutside >>= fun _ => pure (Stmt.returnWith none place)
      else pure (Stmt.returnWith none place) : Resolving Stmt) w := rfl
  rw [h, Scoping.Walk.returning]
  cases w.function == .outside <;> rfl

/-- A value is walked through after the `return` has been judged. -/
theorem Stmt.resolve_returnWith (e : Expr) (place : Place) :
    (Stmt.returnWith (some e) place).resolve w =
      (.returnWith (some (e.resolve (w.returningValue place)).1) place,
        (e.resolve (w.returningValue place)).2) := by
  have h : (Stmt.returnWith (some e) place).resolve w =
      (let value : Resolving Stmt := e.resolve >>= fun e => pure (Stmt.returnWith (some e) place)
      let checked : Resolving Stmt := get >>= fun v =>
        if v.function == .initializer then report place .valueFromInitializer >>= fun _ => value
        else value
      if w.function == .outside then report place .returnOutside >>= fun _ => checked
      else checked) w := rfl
  rw [h, Scoping.Walk.returningValue, Scoping.Walk.returning]
  cases hf : w.function <;> simp [hf, report] <;> rfl

/-- Outside of a class `this` is a problem and gets no depth. -/
theorem Expr.resolve_this (depth : Option Nat) (place : Place) :
    (Expr.this depth place).resolve w = match w.classKind with
      | .outside => (.this depth place, (report place .thisOutside w).2)
      | _ => (.this (distance? w.scopes "this") place, (use "this" true w).2) := by
  have h : (Expr.this depth place).resolve w = (match w.classKind with
      | .outside => report place .thisOutside >>= fun _ => pure (.this depth place)
      | _ => use "this" true >>= fun d => pure (.this d place) : Resolving Expr) w := rfl
  rw [h, ← use_fst]
  cases w.classKind <;> rfl

/-- Outside of a class and in one without a superclass `super` is a problem and gets no depth. -/
theorem Expr.resolve_super (method : Name) (depth : Option Nat) (place : Place) :
    (Expr.super method depth place).resolve w = match w.classKind with
      | .outside => (.super method depth place, (report place .superOutside w).2)
      | .plain => (.super method depth place, (report place .superWithoutSuperclass w).2)
      | .derived => (.super method (distance? w.scopes "super") place, (use "super" true w).2) := by
  have h : (Expr.super method depth place).resolve w = (match w.classKind with
      | .outside => report place .superOutside >>= fun _ => pure (.super method depth place)
      | .plain => report place .superWithoutSuperclass >>= fun _ =>
          pure (.super method depth place)
      | .derived => use "super" true >>= fun d => pure (.super method d place) :
        Resolving Expr) w := rfl
  rw [h, ← use_fst]
  cases w.classKind <;> rfl

/-- A class without a superclass has one scope around its methods. -/
theorem Stmt.resolve_class (name : Name) (methods : List Function) :
    (Stmt.classDecl name none methods).resolve w =
      (.classDecl name none
          (Function.resolveAll methods ((w.enter .plain name).this name.place)).1,
        w.exit (Function.resolveAll methods ((w.enter .plain name).this name.place)).2) := rfl

/-- The walk inside a class with a superclass. -/
def Scoping.Walk.derive (name : Name) (superclass : Reference) (w : Walk) : Walk :=
  (((superclass.resolve ((w.enter .derived name).inherit name superclass)).2.super
    name.place).this name.place)

/-- A subclass has a scope for `super` and one for `this` around its methods. -/
theorem Stmt.resolve_subclass (name : Name) (superclass : Reference) (methods : List Function) :
    (Stmt.classDecl name (some superclass) methods).resolve w =
      (.classDecl name
          (some (superclass.resolve ((w.enter .derived name).inherit name superclass)).1)
          (Function.resolveAll methods (w.derive name superclass)).1,
        w.exit (closeScope (Function.resolveAll methods (w.derive name superclass)).2).2) := by
  have h : (Stmt.classDecl name (some superclass) methods).resolve w =
      (let rest : Resolving Stmt := superclass.resolve >>= fun superclass =>
        inScope (do
          declareBuiltin "super" name.place
          inScope do
            declareBuiltin "this" name.place
            Function.resolveAll methods) >>= fun methods =>
          enterClass w.classKind >>= fun _ =>
            pure (Stmt.classDecl name (some superclass) methods)
      if superclass.name.text == name.text then
        report superclass.name.place .ownSuperclass >>= fun _ => rest
      else rest) (w.enter .derived name) := rfl
  rw [h, Scoping.Walk.derive, Scoping.Walk.inherit]
  cases superclass.name.text == name.text <;> rfl

end

/-! ## Reading and adding -/

/-- The names that a statement declares in the scope it stands in: its own, or those of its
branches or its loop body, which have no scope to themselves. -/
def Stmt.declares : Stmt → List String
  | .declare name _ | .classDecl name _ _ => [name.text]
  | .function f => [f.name.text]
  | .branch _ yes none _ | .loop _ yes _ => yes.declares
  | .branch _ yes (some no) _ => yes.declares ++ no.declares
  | .expression _ | .print _ _ | .block _ _ | .breakOut _ | .returnWith _ _ => []

section
variable {w v : Walk} {kind : FunctionKind} {params : List Name}

/-- What is left of a function once its scope is closed. -/
theorem reads_leave {ns : List String} (h : Scoping.Walk.Adds ns (w.body kind params) v) :
    w.Reads (w.leave v) := by
  have hc := (opens_body kind params w).close h
  exact ⟨⟨rfl, hc.classKind, hc.allowRedefinition, hc.problems, hc.unread⟩, hc.globals, hc.scopes⟩

theorem adds_enter (kind : ClassKind) (name : Name) (w : Walk) :
    Scoping.Walk.Adds [name.text] { w with classKind := kind } (w.enter kind name) :=
  (adds_declare name _).trans (adds_define name _)

theorem reads_inherit (name : Name) (superclass : Reference) (w : Walk) :
    w.Reads (w.inherit name superclass) := by
  unfold Scoping.Walk.inherit
  split
  · exact reads_report _ _ w
  · exact .refl w

theorem reads_returning (place : Place) (w : Walk) : w.Reads (w.returning place) := by
  unfold Scoping.Walk.returning
  split
  · exact reads_report _ _ w
  · exact .refl w

theorem reads_returningValue (place : Place) (w : Walk) : w.Reads (w.returningValue place) := by
  unfold Scoping.Walk.returningValue
  split
  · exact (reads_returning place w).trans (reads_report _ _ _)
  · exact reads_returning place w

theorem opens_this (place : Place) (w : Walk) : w.Opens (w.this place) :=
  (opens_openScope w).declareBuiltin _ _

theorem opens_super (place : Place) (w : Walk) : w.Opens (w.super place) :=
  (opens_openScope w).declareBuiltin _ _

/-- What is left of a class once its scopes are closed. -/
theorem adds_exit {kind : ClassKind} {name : Name} (h : (w.enter kind name).Reads (closeScope v).2) :
    Scoping.Walk.Adds [name.text] w (w.exit v) := by
  have ha := (adds_enter kind name w).trans (h.adds _)
  refine ⟨⟨ha.function, rfl, ha.allowRedefinition, ha.problems, ha.unread⟩, ?_⟩
  cases ha.grown with
  | globals hw hv hg => exact .globals hw hv hg
  | innermost hw hv hg hs hss => exact .innermost hw hv hg hs hss

end

mutual

theorem Expr.reads_resolve (e : Expr) (w : Walk) : w.Reads (e.resolve w).2 := by
  match e with
  | .literal _ _ => exact .refl w
  | .group e _ => exact e.reads_resolve w
  | .unary _ e _ => exact e.reads_resolve w
  | .binary _ l r _ => exact (l.reads_resolve w).trans (r.reads_resolve _)
  | .sequence es _ => exact Expr.reads_resolveAll es w
  | .read r => exact reads_reference w r
  | .assign r e =>
    rw [Expr.resolve_assign]
    exact (e.reads_resolve w).trans (reads_use _ _ _)
  | .call f es _ => exact (f.reads_resolve w).trans (Expr.reads_resolveAll es _)
  | .lambda params body _ => exact reads_leave (Stmt.adds_resolveAll body _)
  | .get e _ => exact e.reads_resolve w
  | .set e _ v => exact (e.reads_resolve w).trans (v.reads_resolve _)
  | .this _ _ =>
    rw [Expr.resolve_this]
    split
    · exact reads_report _ _ w
    · exact reads_use _ _ w
  | .super _ _ _ =>
    rw [Expr.resolve_super]
    split
    · exact reads_report _ _ w
    · exact reads_report _ _ w
    · exact reads_use _ _ w

theorem Expr.reads_resolveAll (es : List Expr) (w : Walk) : w.Reads (Expr.resolveAll es w).2 := by
  match es with
  | [] => exact .refl w
  | e :: es => exact (e.reads_resolve w).trans (Expr.reads_resolveAll es _)

theorem Stmt.adds_resolve (s : Stmt) (w : Walk) :
    Scoping.Walk.Adds s.declares w (s.resolve w).2 := by
  match s with
  | .expression e => exact (e.reads_resolve w).adds _
  | .print e _ => exact (e.reads_resolve w).adds _
  | .declare name none => exact (adds_declare name w).trans (adds_define name _)
  | .declare name (some e) =>
    exact ((adds_declare name w).trans ((e.reads_resolve _).adds _)).trans (adds_define name _)
  | .block body _ =>
    exact ((opens_openScope w).close (Stmt.adds_resolveAll body _)).adds _
  | .branch test yes none _ => exact ((test.reads_resolve w).adds _).trans (yes.adds_resolve _)
  | .branch test yes (some no) _ =>
    have hyes := (yes.adds_resolve (test.resolve w).2).mono fun _ =>
      List.mem_append_left no.declares
    have hno := (no.adds_resolve (yes.resolve (test.resolve w).2).2).mono fun _ =>
      List.mem_append_right yes.declares
    exact (((test.reads_resolve w).adds _).trans hyes).trans hno
  | .loop test body _ => exact ((test.reads_resolve w).adds _).trans (body.adds_resolve _)
  | .breakOut _ => exact (Scoping.Walk.Reads.refl w).adds _
  | .function f =>
    exact ((adds_declare f.name w).trans (adds_define f.name _)).trans
      ((f.reads_resolve _ _).adds _)
  | .returnWith none _ =>
    rw [Stmt.resolve_return]
    exact (reads_returning _ w).adds _
  | .returnWith (some e) _ =>
    rw [Stmt.resolve_returnWith]
    exact ((reads_returningValue _ w).trans (e.reads_resolve _)).adds _
  | .classDecl name none methods =>
    have hm := (Function.reads_resolveAll methods ((w.enter .plain name).this name.place)).adds []
    exact adds_exit ((opens_this name.place _).close hm)
  | .classDecl name (some r) methods =>
    rw [Stmt.resolve_subclass]
    have hm := (Function.reads_resolveAll methods (w.derive name r)).adds []
    have hthis := ((opens_this name.place _).close hm).adds []
    exact adds_exit (((reads_inherit name r _).trans (reads_reference _ r)).trans
      ((opens_super name.place _).close hthis))

theorem Stmt.adds_resolveAll (ss : List Stmt) (w : Walk) :
    Scoping.Walk.Adds (ss.flatMap Stmt.declares) w (Stmt.resolveAll ss w).2 := by
  match ss with
  | [] => exact (Scoping.Walk.Reads.refl w).adds _
  | s :: ss =>
    have hs := (s.adds_resolve w).mono fun _ => List.mem_append_left (ss.flatMap Stmt.declares)
    have hss := (Stmt.adds_resolveAll ss (s.resolve w).2).mono fun _ =>
      List.mem_append_right s.declares
    exact hs.trans hss

theorem Function.reads_resolve (f : Function) (kind : FunctionKind) (w : Walk) :
    w.Reads (f.resolve kind w).2 := by
  match f with
  | .mk _ params body => exact reads_leave (Stmt.adds_resolveAll body _)

theorem Function.reads_resolveAll (fs : List Function) (w : Walk) :
    w.Reads (Function.resolveAll fs w).2 := by
  match fs with
  | [] => exact .refl w
  | f :: fs => exact (f.reads_resolve _ w).trans (Function.reads_resolveAll fs _)

end

/-- **The walk is balanced.** Whatever the state, an expression and a statement leave as many
scopes open as there were, and the function and the class around as they were, and add to the
reports at most. An expression does nothing else but mark names as read. A statement may also
bind names that it declares itself: in the innermost scope, or as globals where no scope is
open, behind all that is bound there already; of that it removes nothing, and it takes no
value away. -/
theorem Scoping.walk_balanced (w : Walk) :
    (∀ e : Expr, (e.resolve w).2.scopes.length = w.scopes.length ∧ w.Reads (e.resolve w).2) ∧
    ∀ s : Stmt, (s.resolve w).2.scopes.length = w.scopes.length ∧
      Scoping.Walk.Adds s.declares w (s.resolve w).2 := by
  refine ⟨fun e => ?_, fun s => ?_⟩
  · have h := e.reads_resolve w
    exact ⟨h.scopes.length_eq.symm, h⟩
  · have h := s.adds_resolve w
    refine ⟨?_, h⟩
    cases h.grown with
    | globals hw hv => rw [hw, hv]
    | innermost hw hv _ _ hss => rw [hw, hv, List.length_cons, List.length_cons, hss.length_eq]

/-! ## Steady expressions -/

theorem steady_inherit (name : Name) (superclass : Reference) (w : Walk) :
    Steady w (w.inherit name superclass) := (reads_inherit name superclass w).steady

theorem steady_returning (place : Place) (w : Walk) : Steady w (w.returning place) :=
  (reads_returning place w).steady

theorem steady_returningValue (place : Place) (w : Walk) : Steady w (w.returningValue place) :=
  (reads_returningValue place w).steady

theorem inner_enter (kind : ClassKind) (name : Name) (w : Walk) :
    Inner { w with classKind := kind } (w.enter kind name) := (adds_enter kind name w).inner

theorem inner_this (place : Place) (w : Walk) : Inner (openScope w).2 (w.this place) :=
  inner_declareBuiltin _ _ _

theorem inner_super (place : Place) (w : Walk) : Inner (openScope w).2 (w.super place) :=
  inner_declareBuiltin _ _ _

theorem Expr.steady_resolve (e : Expr) (w : Walk) : Steady w (e.resolve w).2 :=
  (e.reads_resolve w).steady

theorem Expr.steady_resolveAll (es : List Expr) (w : Walk) : Steady w (Expr.resolveAll es w).2 :=
  (Expr.reads_resolveAll es w).steady

theorem Stmt.inner_resolve (s : Stmt) (w : Walk) : Inner w (s.resolve w).2 :=
  (s.adds_resolve w).inner

theorem Stmt.inner_resolveAll (ss : List Stmt) (w : Walk) : Inner w (Stmt.resolveAll ss w).2 :=
  (Stmt.adds_resolveAll ss w).inner

theorem Function.steady_resolve (f : Function) (kind : FunctionKind) (w : Walk) :
    Steady w (f.resolve kind w).2 := (f.reads_resolve kind w).steady

theorem Function.steady_resolveAll (fs : List Function) (w : Walk) :
    Steady w (Function.resolveAll fs w).2 := (Function.reads_resolveAll fs w).steady

end LoxLang
