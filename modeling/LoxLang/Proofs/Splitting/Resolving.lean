import LoxLang.Proofs.Code.Accepted
import LoxLang.Proofs.Twins.Tree

/-!
# Depths of two programs

Two walks over one tree in two places stand `Alongside` each other if their open scopes are the
same but for places. What they have passed before may differ: the one may know more global
names and have more to report, unless they are said to be `alike`. Resolving a tree and its
moved copy keeps walks alongside each other and gives the moved depths (`Stmt.walks_moved`), so
a program is resolved alike behind another one (`Resolved.program_joined`).
-/

namespace LoxLang

open Scoping

variable (f : Place → Place)

/-- Of two places that are moved, the same one is ahead. -/
def Place.KeepsOrder : Prop := ∀ p q, (f p).le (f q) = p.le q

/-- What the walk knows of a name declared elsewhere. -/
def Scoping.Local.moved (l : Local) : Local := { l with place := f l.place }

namespace Scoping

/-- The walk `w'` over what is moved by `f`, behind a program with the unread names `before`. -/
structure Alongside (before : List Name) (alike : Prop) (w w' : Walk) : Prop where
  scopes : w'.scopes = w.scopes.map (·.mapValues (Local.moved f))
  allow : w'.allowRedefinition = w.allowRedefinition
  function : w'.function = w.function
  classKind : w'.classKind = w.classKind
  unread : w'.unread.toList = before ++ w.unread.toList.map (·.moved f)
  globals : alike → ∀ x, w'.globals.has x = w.globals.has x
  problems : alike → w'.problems.size = w.problems.size

/-- The steps keep walks alongside each other, and the second gives what the first does, changed
by `g`. -/
def Walks {α β : Type} (before : List Name) (alike : Prop) (g : α → β) (x : Resolving α)
    (x' : Resolving β) : Prop :=
  ∀ w w', Alongside f before alike w w' →
    (x' w').1 = g (x w).1 ∧ Alongside f before alike (x w).2 (x' w').2

section
variable {f} {α β γ δ : Type} {before : List Name} {alike : Prop} {w w' : Walk}

/-- The unread names of a scope do not depend on where it is. -/
theorem unreadNames_moved (hf : Place.KeepsOrder f) (s : Bindings Local) :
    unreadNames (s.mapValues (Local.moved f)) = (unreadNames s).map (·.moved f) := by
  unfold unreadNames Bindings.mapValues
  dsimp only
  rw [List.map_mergeSort (s := fun a b => a.place.le b.place) fun a _ b _ => (hf _ _).symm,
    List.filter_map, List.map_map, List.map_map]
  rfl

/-! ## Changes to a state -/

namespace Alongside

variable (h : Alongside f before alike w w')
include h

theorem withScopes {ss ss' : List (Bindings Local)}
    (hs : ss' = ss.map (·.mapValues (Local.moved f))) :
    Alongside f before alike { w with scopes := ss } { w' with scopes := ss' } :=
  { h with scopes := hs }

theorem withGlobals {gs gs' : Bindings Place} (hg : alike → ∀ x, gs'.has x = gs.has x) :
    Alongside f before alike { w with globals := gs } { w' with globals := gs' } :=
  { h with globals := hg }

/-- Of walks that are not alike the global names and the reports do not matter. -/
theorem unlike (hno : ¬ alike) (gs gs' : Bindings Place) (ps ps' : Array (Placed ScopeProblem)) :
    Alongside f before alike { w with globals := gs, problems := ps }
      { w' with globals := gs', problems := ps' } :=
  { h with globals := fun ha => absurd ha hno, problems := fun ha => absurd ha hno }

theorem closed (hf : Place.KeepsOrder f) {s : Bindings Local} {ss : List (Bindings Local)} :
    Alongside f before alike
      { w with scopes := ss, unread := w.unread ++ (unreadNames s).toArray }
      { w' with
        scopes := ss.map (·.mapValues (Local.moved f))
        unread := w'.unread ++ (unreadNames (s.mapValues (Local.moved f))).toArray } :=
  { h with
    scopes := rfl
    unread := by simp [h.unread, unreadNames_moved hf] }

end Alongside

namespace Walks

/-! ## Laws -/

theorem pure {g : α → β} {a : α} {b : β} (h : b = g a) :
    Walks f before alike g (pure a) (pure b) := fun _ _ hw => ⟨h, hw⟩

/-- Two walks may each be followed by walks that go alike. -/
theorem bind {g : α → β} {g' : γ → δ} {x : Resolving α} {x' : Resolving β}
    {k : α → Resolving γ} {k' : β → Resolving δ} (h : Walks f before alike g x x')
    (hk : ∀ a, Walks f before alike g' (k a) (k' (g a))) :
    Walks f before alike g' (x >>= k) (x' >>= k') := by
  intro w w' hw
  obtain ⟨ha, hw⟩ := h w w' hw
  rw [bind_apply, bind_apply, ha]
  exact hk _ _ _ hw

/-- The state decides how to go on. -/
theorem get {g : α → β} {k : Walk → Resolving α} {k' : Walk → Resolving β}
    (h : ∀ w w', Alongside f before alike w w' → Walks f before alike g (k w) (k' w')) :
    Walks f before alike g (get >>= k) (get >>= k') := fun w w' hw => h w w' hw w w' hw

/-- Steps that change the state alone. -/
theorem change {φ φ' : Walk → Walk}
    (h : ∀ w w', Alongside f before alike w w' → Alongside f before alike (φ w) (φ' w')) :
    Walks f before alike id (modify φ : Resolving PUnit) (modify φ') :=
  fun w w' hw => ⟨rfl, h w w' hw⟩

/-- A walk for each of a list goes alike if each of the walks does. -/
theorem forM {step : γ → Resolving PUnit} {φ : γ → γ}
    (h : ∀ a, Walks f before alike id (step a) (step (φ a))) :
    ∀ l : List γ, Walks f before alike id (l.forM step) ((l.map φ).forM step)
  | [] => .pure rfl
  | a :: l => (h a).bind fun _ => forM h l

/-! ## Scopes -/

/-- A report is one report, whatever it says. -/
theorem report (place place' : Place) (problem problem' : ScopeProblem) :
    Walks f before alike id (report place problem) (report place' problem') :=
  .change fun _ _ hw => { hw with problems := fun ha => by simp [hw.problems ha] }

theorem reportIf {g : α → β} {x : Resolving α} {x' : Resolving β} (b : Bool) {place place' : Place}
    {problem problem' : ScopeProblem} (h : Walks f before alike g x x') :
    Walks f before alike g
      (if b then Scoping.report place problem >>= fun _ => x else x)
      (if b then Scoping.report place' problem' >>= fun _ => x' else x') := by
  cases b with
  | false => exact h
  | true => exact (report _ _ _ _).bind fun _ => h

theorem openScope : Walks f before alike id openScope openScope :=
  .change fun _ _ hw => { hw with scopes := by rw [hw.scopes]; rfl }

theorem closeScope (hf : Place.KeepsOrder f) :
    Walks f before alike id closeScope closeScope := by
  refine .change fun w w' hw => ?_
  rw [hw.scopes]
  cases w.scopes with
  | nil => exact hw
  | cons s ss => exact hw.closed hf

theorem inScope (hf : Place.KeepsOrder f) {g : α → β} {x : Resolving α} {x' : Resolving β}
    (h : Walks f before alike g x x') :
    Walks f before alike g (inScope x) (inScope x') :=
  openScope.bind fun _ => h.bind fun _ => (closeScope hf).bind fun _ => .pure rfl

theorem changeLocal (name : String) {φ : Local → Local}
    (hφ : ∀ l, (φ l).moved f = φ (l.moved f)) :
    Walks f before alike id (changeLocal name φ) (changeLocal name φ) := by
  refine .change fun w w' hw => ?_
  rw [hw.scopes]
  cases w.scopes with
  | nil => exact hw
  | cons s ss =>
    exact hw.withScopes (congrArg (· :: _) (Bindings.mapValues_change _ φ φ hφ name s).symm)

/-! ## Names -/

/-- Walks that are not alike may disagree on whether a global name is new. -/
theorem declareGlobal (n : Name) :
    Walks f before alike id (declareGlobal n) (declareGlobal (n.moved f)) := by
  intro w w' hw
  refine ⟨rfl, ?_⟩
  have hhas (ha : alike) := hw.globals ha n.text
  rw [declareGlobal_apply, declareGlobal_apply]
  by_cases hallow : w.allowRedefinition
  · rw [if_pos hallow, if_pos (hw.allow.trans hallow)]
    exact hw
  · rw [if_neg hallow, if_neg (hw.allow ▸ hallow)]
    simp only [Bindings.has, Name.moved_text] at hhas ⊢
    generalize w.globals.find? n.text = o at hhas ⊢
    generalize w'.globals.find? n.text = o' at hhas ⊢
    cases o <;> cases o'
    case none.none =>
      exact hw.withGlobals fun ha x => by simp [Bindings.has_insert, hw.globals ha]
    case some.some => exact (report _ _ _ _ _ _ hw).2
    all_goals exact hw.unlike (fun ha => by simpa using hhas ha) _ _ _ _

theorem declare (n : Name) : Walks f before alike id (declare n) (declare (n.moved f)) := by
  refine .get fun w w' hw => ?_
  rw [hw.scopes]
  cases w.scopes with
  | nil => exact declareGlobal n
  | cons s ss =>
    simp only [List.map_cons, Bindings.has_mapValues, Name.moved_text]
    split
    · exact report _ _ _ _
    · exact fun v v' hv => ⟨rfl, hw.withScopes (by
        rw [List.map_cons, Bindings.mapValues_insert]
        rfl)⟩

theorem define (n : Name) : Walks f before alike id (define n) (define (n.moved f)) :=
  changeLocal n.text fun _ => rfl

theorem declareParam (n : Name) :
    Walks f before alike id (declareParam n) (declareParam (n.moved f)) :=
  (declare n).bind fun _ => (define n).bind fun _ => changeLocal n.text fun _ => rfl

theorem declareBuiltin (name : String) (place : Place) :
    Walks f before alike id (declareBuiltin name place) (declareBuiltin name (f place)) := by
  refine .change fun w w' hw => ?_
  rw [hw.scopes]
  cases w.scopes with
  | nil => exact hw
  | cons s ss =>
    exact hw.withScopes (by
      rw [List.map_cons, Bindings.mapValues_insert]
      rfl)

theorem distance?_moved (scopes : List (Bindings Local)) (name : String) :
    distance? (scopes.map (·.mapValues (Local.moved f))) name = distance? scopes name := by
  rw [distance?, List.findIdx?_map]
  exact congrArg (List.findIdx? · scopes) (funext fun s => Bindings.has_mapValues ..)

theorem use (name : String) (reads : Bool) :
    Walks f before alike id (use name reads) (use name reads) := by
  refine .get fun w w' hw => ?_
  rw [hw.scopes, distance?_moved]
  cases distance? w.scopes name with
  | none => exact .pure rfl
  | some d =>
    cases reads with
    | false => exact .pure rfl
    | true =>
      refine fun v v' _ => ⟨rfl, hw.withScopes (List.ext_getElem? fun i => ?_)⟩
      simp only [List.getElem?_map, List.getElem?_modify]
      cases w.scopes[i]? with
      | none => simp
      | some s =>
        split
        · exact congrArg some (Bindings.mapValues_change (Local.moved f)
            (fun l => { l with read := true }) _ (fun _ => rfl) name s).symm
        · rfl

theorem awaitsValue (name : String) :
    Walks f before alike id (awaitsValue name) (awaitsValue name) := by
  refine .get fun w w' hw => ?_
  rw [hw.scopes]
  cases w.scopes with
  | nil => exact .pure rfl
  | cons s ss =>
    refine .pure ?_
    rw [Bindings.find?_mapValues]
    cases s.find? name <;> rfl

theorem reference (r : Reference) :
    Walks f before alike (·.moved f) r.resolve (r.moved f).resolve := by
  exact (awaitsValue r.name.text).bind fun b => .reportIf b <|
    (use r.name.text true).bind fun _ => .pure rfl

/-! ## Surroundings -/

theorem setFunction (kind : FunctionKind) :
    Walks f before alike id (modify fun w => { w with function := kind } : Resolving PUnit)
      (modify fun w => { w with function := kind }) :=
  .change fun _ _ h => { h with function := rfl }

/-- A walk inside of a function goes alike if it does outside. -/
theorem inFunction (kind : FunctionKind) {g : α → β} {x : Resolving α} {x' : Resolving β}
    (h : Walks f before alike g x x') :
    Walks f before alike g (inFunction kind x) (inFunction kind x') := by
  refine .get fun w w' hw => ?_
  rw [hw.function]
  dsimp only
  exact (setFunction kind).bind fun _ => h.bind fun _ => (setFunction w.function).bind fun _ =>
    .pure rfl

theorem enterClass (kind : ClassKind) :
    Walks f before alike id (enterClass kind) (enterClass kind) :=
  .change fun _ _ h => { h with classKind := rfl }

/-- What a function has in common with a lambda. -/
theorem function (hf : Place.KeepsOrder f) (kind : FunctionKind) (params : List Name)
    {g : α → β} {x : Resolving α} {x' : Resolving β} (h : Walks f before alike g x x') :
    Walks f before alike g
      (Scoping.inFunction kind <| Scoping.inScope do
        params.forM Scoping.declareParam
        x)
      (Scoping.inFunction kind <| Scoping.inScope do
        (params.map (·.moved f)).forM Scoping.declareParam
        x') :=
  inFunction kind <| inScope hf <| (forM declareParam params).bind fun _ => h

end Walks

end

end Scoping

/-! ## Trees -/

section
variable {f} {before : List Name} {alike : Prop}

mutual

theorem Expr.walks_moved (hf : Place.KeepsOrder f) (e : Expr) :
    Walks f before alike (·.moved f) e.resolve (e.moved f).resolve := by
  match e with
  | .literal value place => exact .pure rfl
  | .group e place => exact (e.walks_moved hf).bind fun _ => .pure rfl
  | .unary op e place => exact (e.walks_moved hf).bind fun _ => .pure rfl
  | .binary op l r place =>
    exact (l.walks_moved hf).bind fun _ => (r.walks_moved hf).bind fun _ => .pure rfl
  | .sequence es place => exact (Expr.walks_allMoved hf es).bind fun _ => .pure rfl
  | .read r => exact (Walks.reference r).bind fun _ => .pure rfl
  | .assign r e => exact (e.walks_moved hf).bind fun _ => (Walks.use _ _).bind fun _ => .pure rfl
  | .call callee es place =>
    exact (callee.walks_moved hf).bind fun _ => (Expr.walks_allMoved hf es).bind fun _ =>
      .pure rfl
  | .lambda params body place =>
    exact (Walks.function hf .function params (Stmt.walks_allMoved hf body)).bind fun _ => .pure rfl
  | .get e property => exact (e.walks_moved hf).bind fun _ => .pure rfl
  | .set e property v =>
    exact (e.walks_moved hf).bind fun _ => (v.walks_moved hf).bind fun _ => .pure rfl
  | .this depth place =>
    refine .get fun w w' hw => ?_
    rw [hw.classKind]
    cases w.classKind with
    | outside => exact (Walks.report _ _ _ _).bind fun _ => .pure rfl
    | plain | derived => exact (Walks.use _ _).bind fun _ => .pure rfl
  | .super method depth place =>
    refine .get fun w w' hw => ?_
    rw [hw.classKind]
    cases w.classKind with
    | outside | plain => exact (Walks.report _ _ _ _).bind fun _ => .pure rfl
    | derived => exact (Walks.use _ _).bind fun _ => .pure rfl

theorem Expr.walks_allMoved (hf : Place.KeepsOrder f) (es : List Expr) :
    Walks f before alike (Expr.allMoved f) (Expr.resolveAll es)
      (Expr.resolveAll (Expr.allMoved f es)) := by
  match es with
  | [] => exact .pure rfl
  | e :: es =>
    exact (e.walks_moved hf).bind fun _ => (Expr.walks_allMoved hf es).bind fun _ => .pure rfl

theorem Stmt.walks_moved (hf : Place.KeepsOrder f) (s : Stmt) :
    Walks f before alike (·.moved f) s.resolve (s.moved f).resolve := by
  match s with
  | .expression e => exact (e.walks_moved hf).bind fun _ => .pure rfl
  | .print e place => exact (e.walks_moved hf).bind fun _ => .pure rfl
  | .declare name none =>
    exact (Walks.declare name).bind fun _ => (Walks.define name).bind fun _ => .pure rfl
  | .declare name (some e) =>
    exact (Walks.declare name).bind fun _ => (e.walks_moved hf).bind fun _ =>
      (Walks.define name).bind fun _ => .pure rfl
  | .block body place =>
    exact (Walks.inScope hf (Stmt.walks_allMoved hf body)).bind fun _ => .pure rfl
  | .branch test yes none place =>
    exact (test.walks_moved hf).bind fun _ => (yes.walks_moved hf).bind fun _ => .pure rfl
  | .branch test yes (some no) place =>
    exact (test.walks_moved hf).bind fun _ => (yes.walks_moved hf).bind fun _ =>
      (no.walks_moved hf).bind fun _ => .pure rfl
  | .loop test body place =>
    exact (test.walks_moved hf).bind fun _ => (body.walks_moved hf).bind fun _ => .pure rfl
  | .breakOut place => exact .pure rfl
  | .function (.mk name params body) =>
    exact (Walks.declare name).bind fun _ => (Walks.define name).bind fun _ =>
      ((Function.mk name params body).walks_moved hf .function).bind fun _ => .pure rfl
  | .returnWith none place =>
    refine .get fun w w' hw => ?_
    rw [hw.function]
    exact .reportIf _ (.pure rfl)
  | .returnWith (some e) place =>
    refine .get fun w w' hw => ?_
    rw [hw.function]
    refine .reportIf _ (.get fun v v' hv => ?_)
    rw [hv.function]
    exact .reportIf _ ((e.walks_moved hf).bind fun _ => .pure rfl)
  | .classDecl name none methods =>
    refine .get fun w w' hw => ?_
    rw [hw.classKind]
    dsimp only
    exact (Walks.enterClass .plain).bind fun _ => (Walks.declare name).bind fun _ =>
      (Walks.define name).bind fun _ =>
      (Walks.inScope hf ((Walks.declareBuiltin "this" name.place).bind fun _ =>
        Function.walks_allMoved hf methods)).bind fun _ =>
      (Walks.enterClass _).bind fun _ => .pure rfl
  | .classDecl name (some superclass) methods =>
    refine .get fun w w' hw => ?_
    rw [hw.classKind]
    dsimp only
    exact (Walks.enterClass .derived).bind fun _ => (Walks.declare name).bind fun _ =>
      (Walks.define name).bind fun _ => .reportIf _ <|
      (Walks.reference superclass).bind fun _ =>
      (Walks.inScope hf ((Walks.declareBuiltin "super" name.place).bind fun _ =>
        Walks.inScope hf ((Walks.declareBuiltin "this" name.place).bind fun _ =>
          Function.walks_allMoved hf methods))).bind fun _ =>
      (Walks.enterClass _).bind fun _ => .pure rfl

theorem Stmt.walks_allMoved (hf : Place.KeepsOrder f) (ss : List Stmt) :
    Walks f before alike (Stmt.allMoved f) (Stmt.resolveAll ss)
      (Stmt.resolveAll (Stmt.allMoved f ss)) := by
  match ss with
  | [] => exact .pure rfl
  | s :: ss =>
    exact (s.walks_moved hf).bind fun _ => (Stmt.walks_allMoved hf ss).bind fun _ => .pure rfl

theorem Function.walks_moved (hf : Place.KeepsOrder f) (h : Function) (kind : FunctionKind) :
    Walks f before alike (·.moved f) (h.resolve kind) ((h.moved f).resolve kind) := by
  match h with
  | .mk name params body =>
    exact (Walks.function hf kind params (Stmt.walks_allMoved hf body)).bind fun _ => .pure rfl

theorem Function.walks_allMoved (hf : Place.KeepsOrder f) (fs : List Function) :
    Walks f before alike (Function.allMoved f) (Function.resolveAll fs)
      (Function.resolveAll (Function.allMoved f fs)) := by
  match fs with
  | [] => exact .pure rfl
  | .mk name params body :: fs =>
    exact ((Function.mk name params body).walks_moved hf _).bind fun _ =>
      (Function.walks_allMoved hf fs).bind fun _ => .pure rfl

end

end

/-! ## Programs -/

theorem Stmt.resolveAll_append (ss tt : List Stmt) (w : Walk) :
    Stmt.resolveAll (ss ++ tt) w =
      ((Stmt.resolveAll ss w).1 ++ (Stmt.resolveAll tt (Stmt.resolveAll ss w).2).1,
        (Stmt.resolveAll tt (Stmt.resolveAll ss w).2).2) := by
  induction ss generalizing w with
  | nil => rfl
  | cons s ss ih =>
    rw [List.cons_append, Stmt.resolveAll_cons, ih, Stmt.resolveAll_cons]
    rfl

/-- Behind a program the walk is where it started, but for what it knows and reports. -/
theorem alongside_program (allow : Bool) (ss : List Stmt) :
    Alongside f (Resolved.program allow ss).unread False (Walk.start allow)
      (Stmt.resolveAll ss (Walk.start allow)).2 := by
  have hi := Stmt.inner_resolveAll ss (Walk.start allow)
  have hscopes : (Stmt.resolveAll ss (Walk.start allow)).2.scopes = [] :=
    outline_nil.1 (List.length_eq_zero_iff.1 hi.length)
  exact ⟨hscopes, (Stmt.remembers_resolveAll ss _).allow, hi.function, hi.classKind,
    (List.append_nil _).symm, False.elim, False.elim⟩

theorem alongside_start (allow : Bool) :
    Alongside f [] True (Walk.start allow) (Walk.start allow) :=
  ⟨rfl, rfl, rfl, rfl, rfl, fun _ _ => rfl, fun _ => rfl⟩

namespace Resolved

variable {f} (hf : Place.KeepsOrder f) (allow : Bool)
include hf

/-- A program is resolved elsewhere as it is here. -/
theorem program_moved (ss : List Stmt) :
    let here := program allow ss
    let there := program allow (Stmt.allMoved f ss)
    there.tree = Stmt.allMoved f here.tree ∧ there.unread = here.unread.map (·.moved f) ∧
      there.problems.length = here.problems.length := by
  obtain ⟨htree, hw⟩ := Stmt.walks_allMoved hf ss _ _ (alongside_start f allow)
  exact ⟨htree, hw.unread, hw.problems trivial⟩

/-- **Two programs are resolved one after the other.** -/
theorem program_joined (ss tt : List Stmt) :
    (program allow (ss ++ Stmt.allMoved f tt)).tree =
        (program allow ss).tree ++ Stmt.allMoved f (program allow tt).tree ∧
      (program allow (ss ++ Stmt.allMoved f tt)).unread =
        (program allow ss).unread ++ (program allow tt).unread.map (·.moved f) := by
  obtain ⟨htree, hw⟩ := Stmt.walks_allMoved hf tt _ _ (alongside_program f allow ss)
  have happend := Stmt.resolveAll_append ss (Stmt.allMoved f tt) (Walk.start allow)
  refine ⟨(congrArg Prod.fst happend).trans (congrArg (_ ++ ·) htree), ?_⟩
  exact (congrArg (·.2.unread.toList) happend).trans hw.unread

end Resolved

end LoxLang
