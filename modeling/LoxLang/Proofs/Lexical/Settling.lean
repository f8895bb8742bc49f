import LoxLang.Proofs.Lexical.Telling
import LoxLang.Proofs.Tree.Bare

/-!
# A resolved tree and its lexical reading

The walk over a tree tells the events of the tree, and the tree that it gives is the same one with
its depths `settled`: those of the uses are the distances that the contexts of the uses give
(`Stmt.tells`, `Resolved.program_isLexical`).
-/

namespace LoxLang

open Scoping

namespace Lexical

/-! ## Settled events -/

/-- The point with the depth that its context gives. What is rejected keeps the depth it has. -/
def Point.settled (c : Context) : Point → Point
  | .read r => .read { r with depth := c.distance? r.name.text }
  | .assignment r => .assignment { r with depth := c.distance? r.name.text }
  | .this depth place =>
    match c.class? with
    | some (d, _) => .this (some d) place
    | none => .this depth place
  | .super depth place =>
    match c.class? with
    | some (d, true) => .super (some (d + 1)) place
    | some (_, false) | none => .super depth place
  | p => p

/-- Each point with the depth that its context gives. -/
def settledPoints (ps : List (Context × Point)) : List (Context × Point) :=
  ps.map fun (c, p) => (c, p.settled c)

/-- The event with the depths that the contexts give. -/
def Event.settled : Event → Event
  | .point c p => .point c (p.settled c)
  | .closing k => .closing { k with inside := settledPoints k.inside }

/-- The events with the depths that the contexts give. -/
def settled (es : List Event) : List Event := es.map Event.settled

@[simp] theorem settled_nil : settled [] = [] := rfl

@[simp] theorem settled_point (c : Context) (p : Point) (es : List Event) :
    settled (.point c p :: es) = .point c (p.settled c) :: settled es := rfl

@[simp] theorem settled_append (es fs : List Event) :
    settled (es ++ fs) = settled es ++ settled fs := List.map_append

theorem points_settled (es : List Event) : points (settled es) = settledPoints (points es) := by
  induction es with
  | nil => rfl
  | cons e es ih =>
    cases e with
    | point c p => exact congrArg ((c, p.settled c) :: ·) ih
    | closing k => exact ih

@[simp] theorem settled_enclosed (level : Nat) (ds : List Declaration) (es : List Event) :
    settled (enclosed level ds es) = enclosed level ds (settled es) := by
  simp [enclosed, settled, Event.settled, ← points_settled]

@[simp] theorem settled_declarations (ds : List Declaration) :
    ∀ c, settled (declarations c ds) = declarations c ds := by
  induction ds with
  | nil => exact fun _ => rfl
  | cons d ds ih =>
    intro c
    rw [declarations, settled_point, ih]
    rfl

/-! ## Contexts behind statements -/

namespace Context

theorem foldl_past (ss : List Stmt) : ∀ c : Context,
    ss.foldl past c = (ss.filterMap Stmt.declaration?).foldl declare c := by
  induction ss with
  | nil => exact fun _ => rfl
  | cons s ss ih =>
    intro c
    rw [List.foldl_cons, ih, List.filterMap_cons, past]
    cases s.declaration? <;> rfl

/-- Declarations one after another add up in a scope. -/
theorem foldl_declare (k : Option FunctionKind) (outer : Context) (ds : List Declaration) :
    ∀ ds₀, ds.foldl declare (scope k (.of ds₀) outer) = scope k (.of (ds₀ ++ ds)) outer := by
  induction ds with
  | nil =>
    intro ds₀
    rw [List.append_nil]
    rfl
  | cons d ds ih =>
    intro ds₀
    have hfirst : declare (scope k (.of ds₀) outer) d = scope k (.of (ds₀ ++ [d])) outer := rfl
    rw [List.foldl_cons, hfirst, ih, List.append_assoc, List.singleton_append]

theorem classKind_of_none {c : Context} (h : c.class? = none) : c.classKind = .outside := by
  simp [classKind, h]

theorem classKind_of_some {c : Context} {d : Nat} {derived : Bool}
    (h : c.class? = some (d, derived)) :
    c.classKind = if derived then .derived else .plain := by
  cases derived <;> simp [classKind, h]

@[simp] theorem classKind_past (c : Context) (s : Stmt) : (c.past s).classKind = c.classKind := by
  unfold past
  split
  · rfl
  · exact classKind_declare ..

theorem Ready.declare {c : Context} (h : c.Ready) (d : Declaration) : (c.declare d).Ready := by
  cases c with
  | outermost _ => trivial
  | scope _ _ _ => rfl
  | members _ _ _ => exact h.elim

theorem Ready.past {c : Context} (h : c.Ready) (s : Stmt) : (c.past s).Ready := by
  unfold Context.past
  split
  · exact h
  · exact h.declare _

/-- Declaring an ordinary name leaves a context ordinary. -/
theorem Ordinary.declare {c : Context} (h : c.Ordinary) {d : Declaration}
    (hd : d.name.IsOrdinary) : (c.declare d).Ordinary := by
  cases c with
  | outermost _ => trivial
  | scope k f outer =>
    refine ⟨fun e he => ?_, h.2⟩
    rcases List.mem_append.1 he with he | he
    · exact h.1 e he
    · rw [List.mem_singleton.1 he]
      exact hd
  | members _ _ _ => exact h

/-- A declaration of an ordinary name that awaits its value leaves a context ordinary. -/
theorem Ordinary.await {c : Context} (h : c.Ordinary) {d : Declaration}
    (hd : d.name.IsOrdinary) : (c.await d).Ordinary := by
  cases c with
  | outermost _ => trivial
  | scope k f outer => exact h.declare (c := .scope k f outer) hd
  | members _ _ _ => exact h

theorem Ordinary.past {c : Context} (h : c.Ordinary) {s : Stmt} (hs : s.Regular) :
    (c.past s).Ordinary := by
  unfold Context.past
  match s with
  | .expression _ | .print _ _ | .block _ _ | .branch _ _ _ _ | .loop _ _ _ | .breakOut _
  | .returnWith _ _ => exact h
  | .declare _ none => exact h.declare hs
  | .declare _ (some _) | .function _ | .classDecl _ _ _ => exact h.declare hs.1

/-- The scope of ordinary parameters is ordinary. -/
theorem Ordinary.parameters {c : Context} (h : c.Ordinary) (k : Option FunctionKind)
    {ns : List Name} (hn : ∀ n ∈ ns, n.IsOrdinary) :
    (scope k (.of (Lexical.parameters ns)) c).Ordinary := by
  refine ⟨fun d hd => ?_, h⟩
  obtain ⟨n, hmem, rfl⟩ := List.mem_map.1 hd
  exact hn n hmem

end Context

end Lexical

open Lexical

@[simp] theorem Stmt.declaration?_bare (s : Stmt) : s.bare.declaration? = s.declaration? := by
  match s with
  | .expression _ | .print _ _ | .declare _ none | .declare _ (some _) | .block _ _
  | .branch _ _ none _ | .branch _ _ (some _) _ | .loop _ _ _ | .breakOut _
  | .returnWith none _ | .returnWith (some _) _ | .classDecl _ none _
  | .classDecl _ (some _) _ => rfl
  | .function f => exact congrArg (fun n => some (Declaration.mk n .funWord)) f.name_bare

theorem Lexical.Context.past_of_declared? {s : Stmt} (h : s.declared? = none) (c : Context) :
    c.past s = c := by
  cases s with
  | declare _ _ | function _ | classDecl _ _ _ => cases h
  | _ => rfl

theorem Stmt.declaration?_of_bare {s s' : Stmt} (h : s'.bare = s.bare) :
    s'.declaration? = s.declaration? := by
  rw [← s'.declaration?_bare, h, s.declaration?_bare]

theorem Function.name_of_bare {f f' : Function} (h : f'.bare = f.bare) : f'.name = f.name := by
  rw [← f'.name_bare, h, f.name_bare]

/-- What stands in a scope is declared there with any depths. -/
theorem Stmt.declarations_of_bare {ss ss' : List Stmt} (h : Stmt.allBare ss' = Stmt.allBare ss) :
    ss'.filterMap Stmt.declaration? = ss.filterMap Stmt.declaration? := by
  have hbare : ∀ ts : List Stmt,
      (Stmt.allBare ts).filterMap Stmt.declaration? = ts.filterMap Stmt.declaration? := by
    intro ts
    induction ts with
    | nil => rfl
    | cons t ts ih =>
      rw [Stmt.allBare, List.filterMap_cons, List.filterMap_cons, t.declaration?_bare, ih]
  rw [← hbare, h, hbare]

/-- The second tree is the first one with its depths settled. -/
structure Lexical.Settles {α : Type} (bare : α → α) (events : α → List Event) (a a' : α) :
    Prop where
  bare : bare a' = bare a
  events : events a' = settled (events a)

/-! ## The walk -/

section
variable {allow : Bool}

/-- What a function has in common with a lambda. -/
theorem Lexical.tells_body {c c₁ : Context} (k : FunctionKind) {params : List Name}
    {body : List Stmt} (hc₁ : c₁ = .scope (some k) (.of (parameters params)) c)
    (hbody : Tells allow c₁.classKind c₁ (Stmt.allEvents c₁ body) c₁.classKind
      ((body.filterMap Stmt.declaration?).foldl Context.declare c₁)
      (Settles Stmt.allBare (Stmt.allEvents c₁) body) (Stmt.resolveAll body)) :
    let events (ss : List Stmt) : List Event :=
      enclosed c.level (parameters params ++ ss.filterMap Stmt.declaration?)
        (declarations (c.inside (some k)) (parameters params) ++
          Stmt.allEvents ((parameters params).foldl Context.declare (c.inside (some k))) ss)
    Tells allow c.classKind c (events body) c.classKind c (Settles Stmt.allBare events body)
      (inFunction k <| inScope do
        params.forM declareParam
        Stmt.resolveAll body) := by
  intro events
  have hstart : (parameters params).foldl Context.declare (c.inside (some k)) = c₁ := by
    rw [hc₁]
    exact Context.foldl_declare (some k) c (parameters params) []
  have hend : (body.filterMap Stmt.declaration?).foldl Context.declare c₁ =
      .scope (some k) (.of (parameters params ++ body.filterMap Stmt.declaration?)) c := by
    rw [hc₁]
    exact Context.foldl_declare (some k) c _ _
  have hkind : c₁.classKind = c.classKind := by
    rw [hc₁, Context.classKind_scope]
  have hparams : Tells allow c.classKind (c.inside (some k))
      (declarations (c.inside (some k)) (parameters params)) c.classKind c₁ Tells.any
      (params.forM declareParam) := by
    rw [← hstart]
    exact .declareParams params rfl nofun
  rw [hkind, hend] at hbody
  have hall := Tells.inFunction k (hparams.bind fun _ _ => hbody) rfl rfl
  rw [← hstart] at hall
  refine hall.imp fun body' h => ⟨h.bare, ?_⟩
  have hdeclared := Stmt.declarations_of_bare h.bare
  simp only [events, settled_enclosed, settled_append, settled_declarations, hdeclared, h.events]

/-- A `this` is bound to the innermost class, or reported and left as it is. -/
theorem Lexical.tells_this {c : Context} (hc : c.Ordinary) (depth : Option Nat) (place : Place) :
    let e : Expr := .this depth place
    Tells allow c.classKind c (e.events c) c.classKind c (Settles Expr.bare (Expr.events c) e)
      e.resolve := by
  intro e
  refine .get fun seen w hw => ?_
  rw [hw.classKind]
  cases hclass : c.class? with
  | none =>
    rw [Context.classKind_of_none hclass]
    refine (Tells.report rfl ?_).give fun _ _ => ⟨rfl, ?_⟩
    · simp [Context.violation?, hclass]
    · simp [e, Expr.events, Point.settled, hclass]
  | some p =>
    obtain ⟨d, derived⟩ := p
    obtain ⟨_, ⟨hd, hframe⟩, -⟩ := hc.builtins hclass
    rw [Context.classKind_of_some hclass]
    have hlook : ∀ kind, Tells allow kind c (e.events c) kind c
        (Settles Expr.bare (Expr.events c) e)
        (use "this" true >>= fun d => pure (.this d place)) := by
      intro kind
      refine (Tells.builtin rfl ?_ hd hframe).give fun d' hd' => ?_
      · simp [Context.violation?, hclass]
      · subst hd'
        exact ⟨rfl, by simp [e, Expr.events, Point.settled, hclass]⟩
    cases derived <;> exact hlook _

/-- A `super` is bound to the innermost class if that has a superclass, or else reported. -/
theorem Lexical.tells_super {c : Context} (hc : c.Ordinary) (method : Name) (depth : Option Nat)
    (place : Place) :
    let e : Expr := .super method depth place
    Tells allow c.classKind c (e.events c) c.classKind c (Settles Expr.bare (Expr.events c) e)
      e.resolve := by
  intro e
  refine .get fun seen w hw => ?_
  rw [hw.classKind]
  match hclass : c.class? with
  | none =>
    rw [Context.classKind_of_none hclass]
    refine (Tells.report rfl ?_).give fun _ _ => ⟨rfl, ?_⟩
    · simp [Context.violation?, hclass]
    · simp [e, Expr.events, Point.settled, hclass]
  | some (d, false) =>
    rw [Context.classKind_of_some hclass]
    refine (Tells.report rfl ?_).give fun _ _ => ⟨rfl, ?_⟩
    · simp [Context.violation?, hclass]
    · simp [e, Expr.events, Point.settled, hclass]
  | some (d, true) =>
    obtain ⟨_, -, hderived⟩ := hc.builtins hclass
    obtain ⟨hd, hframe⟩ := hderived rfl
    rw [Context.classKind_of_some hclass]
    refine (Tells.builtin rfl ?_ hd hframe).give fun d' hd' => ?_
    · simp [Context.violation?, hclass]
    · subst hd'
      exact ⟨rfl, by simp [e, Expr.events, Point.settled, hclass]⟩

theorem Function.methodKind_eq (f : Function) :
    f.methodKind = if f.name.text = "init" then .initializer else .method := by
  simp [Function.methodKind]

mutual

/-- The walk over an expression tells its events and settles it. -/
theorem Expr.tells (e : Expr) (he : e.Regular) {c : Context} (hc : c.Ordinary) :
    Tells allow c.classKind c (e.events c) c.classKind c (Settles Expr.bare (Expr.events c) e)
      e.resolve := by
  match e with
  | .literal _ _ => exact .pure ⟨rfl, rfl⟩
  | .group e _ | .unary _ e _ | .get e _ =>
    exact (e.tells he hc).give fun _ h => ⟨by simp only [Expr.bare, h.bare], h.events⟩
  | .binary _ left right _ | .set left _ right =>
    refine (left.tells he.1 hc).bind fun _ hl => (right.tells he.2 hc).give fun _ hr => ⟨?_, ?_⟩
    · simp only [Expr.bare, hl.bare, hr.bare]
    · simp only [Expr.events, hl.events, hr.events, settled_append]
  | .sequence items _ =>
    exact (Expr.allTells items he hc).give fun _ h => ⟨by simp only [Expr.bare, h.bare], h.events⟩
  | .read r => exact (Tells.read r).give fun r' hr => by subst hr; exact ⟨rfl, rfl⟩
  | .assign r e =>
    refine (e.tells he.2 hc).bind fun _ h => (Tells.assignment r).give fun d hd => ⟨?_, ?_⟩
    · simp only [Expr.bare, h.bare]
    · subst hd
      simp only [Expr.events, h.events, settled_append]
      rfl
  | .call callee arguments _ =>
    refine (callee.tells he.1 hc).bind fun _ hf =>
      (Expr.allTells arguments he.2 hc).give fun _ hs => ⟨?_, ?_⟩
    · simp only [Expr.bare, hf.bare, hs.bare]
    · simp only [Expr.events, hf.events, hs.events, settled_append]
  | .lambda params body _ =>
    have hbody := Stmt.allTells body he.2 (hc.parameters (some .function) he.1) rfl
    exact (tells_body .function rfl hbody).give fun _ h =>
      ⟨by simp only [Expr.bare, h.bare], h.events⟩
  | .this depth place => exact tells_this hc depth place
  | .super method depth place => exact tells_super hc method depth place

theorem Expr.allTells (es : List Expr) (he : Expr.AllRegular es) {c : Context} (hc : c.Ordinary) :
    Tells allow c.classKind c (Expr.allEvents c es) c.classKind c
      (Settles Expr.allBare (Expr.allEvents c) es) (Expr.resolveAll es) := by
  match es with
  | [] => exact .pure ⟨rfl, rfl⟩
  | e :: es =>
    refine (e.tells he.1 hc).bind fun _ h => (Expr.allTells es he.2 hc).give fun _ hs => ⟨?_, ?_⟩
    · simp only [Expr.allBare, h.bare, hs.bare]
    · simp only [Expr.allEvents, h.events, hs.events, settled_append]

/-- The walk over a statement goes past it. -/
theorem Stmt.tells (s : Stmt) (hs : s.Regular) {c : Context} (hc : c.Ordinary) (hr : c.Ready) :
    Tells allow c.classKind c (s.events c) c.classKind (c.past s)
      (Settles Stmt.bare (Stmt.events c) s) s.resolve := by
  match s with
  | .expression e | .print e _ =>
    exact (e.tells hs hc).give fun _ h => ⟨by simp only [Stmt.bare, h.bare], h.events⟩
  | .declare name none =>
    exact .announce (d := ⟨name, .varWord⟩) rfl hr (.pure ⟨rfl, rfl⟩)
  | .declare name (some e) =>
    have he := e.tells hs.2 (hc.await (d := ⟨name, .varWord⟩) hs.1)
    rw [Context.classKind_await] at he
    refine .along ((Tells.declare rfl hr).bind fun _ _ => he.bind fun _ h =>
      (Tells.define hr).give fun _ _ => ⟨?bare, ?events⟩) ?along
    case along => simp [Stmt.events]
    case bare => simp only [Stmt.bare, h.bare]
    case events =>
      simp only [Stmt.events, h.events, settled_point]
      rfl
  | .block body _ =>
    have hinner : (c.inside none).Ordinary := ⟨nofun, hc⟩
    have hbody := Stmt.allTells body hs hinner rfl
    rw [Context.inside, Context.classKind_scope, Context.foldl_declare] at hbody
    refine (hbody.inScope rfl rfl rfl).give fun _ h => ⟨?_, ?_⟩
    · simp only [Stmt.bare, h.bare]
    · have hdeclared := Stmt.declarations_of_bare h.bare
      have hevents := h.events
      simp only [Stmt.events, hdeclared, settled_enclosed]
      exact congrArg (enclosed _ _) hevents
  | .branch test yes none _ =>
    have hyes := yes.tells hs.2.2 hc hr
    rw [Context.past_of_declared? hs.2.1] at hyes
    refine (test.tells hs.1 hc).bind fun _ ht => hyes.give fun _ hy => ⟨?_, ?_⟩
    · simp only [Stmt.bare, ht.bare, hy.bare]
    · simp only [Stmt.events, ht.events, hy.events, settled_append]
  | .branch test yes (some no) _ =>
    have hyes := yes.tells hs.2.1.2 hc hr
    have hno := no.tells hs.2.2.2 hc hr
    rw [Context.past_of_declared? hs.2.1.1] at hyes
    rw [Context.past_of_declared? hs.2.2.1] at hno
    refine .along ((test.tells hs.1 hc).bind fun _ ht => hyes.bind fun _ hy =>
      hno.give fun _ hn => ⟨?bare, ?events⟩) ?along
    case along => rw [Stmt.events, List.append_assoc]
    case bare => simp only [Stmt.bare, ht.bare, hy.bare, hn.bare]
    case events => simp only [Stmt.events, ht.events, hy.events, hn.events, settled_append]
  | .loop test body _ =>
    have hbody := body.tells hs.2.2 hc hr
    rw [Context.past_of_declared? hs.2.1] at hbody
    refine (test.tells hs.1 hc).bind fun _ ht => hbody.give fun _ hb => ⟨?_, ?_⟩
    · simp only [Stmt.bare, ht.bare, hb.bare]
    · simp only [Stmt.events, ht.events, hb.events, settled_append]
  | .breakOut _ => exact .pure ⟨rfl, rfl⟩
  | .function f =>
    let d : Declaration := ⟨f.name, .funWord⟩
    have hf := f.tells hs.2 .function (hc.declare (d := d) hs.1)
    rw [Context.classKind_declare] at hf
    refine .announce (d := d) rfl hr (hf.give fun _ h => ⟨?_, ?_⟩)
    · simp only [Stmt.bare, h.bare]
    · simp only [Stmt.events, Function.name_of_bare h.bare, settled_point]
      exact congrArg (_ :: ·) h.events
  | .returnWith none place =>
    refine .get fun seen w hw => ?_
    rw [hw.function]
    refine .check _ rfl ?_ (.pure ⟨rfl, rfl⟩)
    cases h : c.function <;> simp [Context.violation?, h]
  | .returnWith (some e) place =>
    have he : Tells allow c.classKind c (e.events c) c.classKind c
        (Settles Stmt.bare (Stmt.events c) (.returnWith (some e) place))
        (e.resolve >>= fun e => pure (.returnWith (some e) place)) := by
      refine (e.tells hs hc).give fun _ h => ⟨?_, ?_⟩
      · simp only [Stmt.bare, h.bare]
      · simp only [Stmt.events, h.events, settled_point]
        rfl
    refine .get fun seen w hw => ?_
    rw [hw.function]
    -- a value is no second problem outside of functions
    cases hfunction : c.function with
    | outside =>
      refine (Tells.report rfl ?_).bind fun _ _ => .get fun seen w hw => ?_
      · simp [Context.violation?, hfunction]
      · rw [hw.function, hfunction]
        exact he
    | function | method | initializer =>
      refine .get fun seen w hw => ?_
      rw [hw.function, hfunction]
      refine .check _ rfl ?_ he
      simp [Context.violation?, hfunction]
  | .classDecl name none methods =>
    let d : Declaration := ⟨name, .classWord⟩
    let c₁ := c.declare d
    have hc₁ : c₁.Ordinary := hc.declare hs.1
    have hmethods := Tells.inBuiltin (c := c₁)
      (Function.allTells methods hs.2 (c := .members false name.place c₁) hc₁) rfl rfl rfl
    refine .get fun seen w hw => ?_
    rw [hw.classKind]
    refine .along ((Tells.enterClass .plain).bind fun _ _ => .announce (d := d) rfl hr
      (hmethods.bind fun _ h => (Tells.enterClass c.classKind).give fun _ _ =>
        ⟨?bare, ?events⟩)) ?along
    case along => simp [Stmt.events, c₁, d]
    case bare => simp only [Stmt.bare, h.bare]
    case events =>
      have hevents := h.events
      simp only [c₁, d] at hevents
      simp only [Stmt.events, settled_point, settled_enclosed, hevents]
      rfl
  | .classDecl name (some superclass) methods =>
    let d : Declaration := ⟨name, .classWord⟩
    let c₁ := c.declare d
    have hc₁ : c₁.Ordinary := hc.declare hs.1
    -- the walk opens the two scopes of the class one after the other
    let c₂ : Context := .scope none (.builtin "super" name.place) c₁
    have hinner := Tells.inBuiltin (c := c₂)
      (Function.allTells methods hs.2 (c := .members true name.place c₁) hc₁) rfl rfl rfl
    have hmethods := hinner.inBuiltin (c := c₁) rfl rfl rfl
    refine .get fun seen w hw => ?_
    rw [hw.classKind]
    refine .along ((Tells.enterClass .derived).bind fun _ _ => .announce (d := d) rfl hr
      (.check (p := .inheritance name superclass.name) (superclass.name.text == name.text) rfl
        ?check ((Tells.read superclass).bind fun _ hsuper => hmethods.bind fun _ h =>
          (Tells.enterClass c.classKind).give fun _ _ => ⟨?bare, ?events⟩))) ?along
    case check => simp [Context.violation?]
    case along =>
      simp only [Stmt.events, List.append_nil, c₂]
      rfl
    case bare =>
      subst hsuper
      simp only [Stmt.bare, h.bare]
    case events =>
      have hevents := h.events
      simp only [c₁, d] at hevents
      subst hsuper
      simp only [Stmt.events, settled_point, settled_enclosed, hevents]
      rfl

theorem Stmt.allTells (ss : List Stmt) (hs : Stmt.AllRegular ss) {c : Context} (hc : c.Ordinary)
    (hr : c.Ready) :
    Tells allow c.classKind c (Stmt.allEvents c ss) c.classKind
      ((ss.filterMap Stmt.declaration?).foldl Context.declare c)
      (Settles Stmt.allBare (Stmt.allEvents c) ss) (Stmt.resolveAll ss) := by
  rw [← Context.foldl_past]
  match ss with
  | [] => exact .pure ⟨rfl, rfl⟩
  | s :: ss =>
    have hrest := Stmt.allTells ss hs.2 (hc.past hs.1) (hr.past s)
    rw [Context.classKind_past, ← Context.foldl_past] at hrest
    refine (s.tells hs.1 hc hr).bind fun _ h => hrest.give fun _ hss => ⟨?_, ?_⟩
    · simp only [Stmt.allBare, h.bare, hss.bare]
    · have hpast := Stmt.declaration?_of_bare h.bare
      simp only [Stmt.allEvents, Context.past, hpast, h.events, settled_append]
      exact congrArg (_ ++ ·) hss.events

/-- The walk through a function tells what the function's events say, and settles it likewise. -/
theorem Function.tells (f : Function) (hf : f.Regular) (k : FunctionKind) {c : Context}
    (hc : c.Ordinary) :
    Tells allow c.classKind c (f.events k c) c.classKind c
      (Settles Function.bare (Function.events k c) f) (f.resolve k) := by
  match f with
  | .mk _ params body =>
    have hbody := Stmt.allTells body hf.2 (hc.parameters (some k) hf.1) rfl
    exact (tells_body k rfl hbody).give fun _ h =>
      ⟨by simp only [Function.bare, h.bare], h.events⟩

theorem Function.allTells (fs : List Function) (hf : Function.AllRegular fs) {c : Context}
    (hc : c.Ordinary) :
    Tells allow c.classKind c (Function.allEvents c fs) c.classKind c
      (Settles Function.allBare (Function.allEvents c) fs) (Function.resolveAll fs) := by
  match fs with
  | [] => exact .pure ⟨rfl, rfl⟩
  | f :: fs =>
    unfold Function.resolveAll
    rw [Function.methodKind_eq]
    refine (f.tells hf.1 _ hc).bind fun _ h => (Function.allTells fs hf.2 hc).give fun _ hs =>
      ⟨?_, ?_⟩
    · simp only [Function.allBare, h.bare, hs.bare]
    · simp only [Function.allEvents, Function.name_of_bare h.bare, h.events, hs.events,
        settled_append]

end

end

/-! ## Programs -/

/-- Ahead of a program nothing is declared, read or reported. -/
theorem Lexical.matches_start (allow : Bool) :
    Matches allow .outside [] (.outermost []) (Walk.start allow) where
  scopes := rfl
  known := trivial
  globals := by cases allow <;> rfl
  allow := rfl
  function := rfl
  classKind := rfl

/-- What comes of a program is what its lexical reading says. -/
structure Resolved.IsLexical (allow : Bool) (ss : List Stmt) (r : Resolved (List Stmt)) : Prop where
  tree : Settles Stmt.allBare (Stmt.allEvents (.outermost [])) ss r.tree
  problems : r.problems = Lexical.problems allow (Stmt.allEvents (.outermost []) ss)
  unread : r.unread = warnings (Stmt.allEvents (.outermost []) ss)

theorem Resolved.program_isLexical (allow : Bool) {ss : List Stmt} (h : Stmt.AllRegular ss) :
    (program allow ss).IsLexical allow ss := by
  have hstart : (Context.outermost []).Ordinary ∧ (Context.outermost []).Ready := ⟨trivial, trivial⟩
  obtain ⟨htree, -, htold⟩ :=
    Stmt.allTells ss h hstart.1 hstart.2 [] _ (matches_start allow)
  have hproblems := congrArg Array.toList htold.problems
  have hunread := congrArg Array.toList htold.unread
  simp only [Array.toList_append, Walk.start, List.nil_append] at hproblems hunread
  exact ⟨htree, hproblems, hunread⟩

end LoxLang
