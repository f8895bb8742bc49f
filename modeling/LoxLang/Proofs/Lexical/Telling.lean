import LoxLang.Proofs.Lexical.Scopes
import LoxLang.Proofs.Scoping.Steps
import LoxLang.Proofs.Tree.Regular

/-!
# What a walk tells

A walk step *tells* events if it takes the walk from one context to another one, adds to the
reports what the events say and changes nothing else. Steps that follow each other tell events
that follow each other (`Tells.bind`); then there is one law for each step of a walk.
-/

namespace LoxLang

open Scoping

namespace Lexical

/-! ## Events -/

/-- The names of the scope that nothing reads, by line and column. -/
def Closing.sorted (k : Closing) : List Name :=
  k.unused.mergeSort fun a b => a.place.le b.place

def problems (allow : Bool) (es : List Event) : List (Placed ScopeProblem) :=
  (points es).filterMap fun (c, p) => c.violation? allow p

def warnings (es : List Event) : List Name := (closings es).flatMap Closing.sorted

@[simp] theorem points_nil : points [] = [] := rfl

@[simp] theorem closings_nil : closings [] = [] := rfl

@[simp] theorem points_append (es fs : List Event) : points (es ++ fs) = points es ++ points fs :=
  List.filterMap_append

@[simp] theorem closings_append (es fs : List Event) :
    closings (es ++ fs) = closings es ++ closings fs := List.filterMap_append

@[simp] theorem points_point (c : Context) (p : Point) (es : List Event) :
    points (.point c p :: es) = (c, p) :: points es := rfl

@[simp] theorem closings_point (c : Context) (p : Point) (es : List Event) :
    closings (.point c p :: es) = closings es := rfl

@[simp] theorem points_enclosed (level : Nat) (ds : List Declaration) (es : List Event) :
    points (enclosed level ds es) = points es := by
  simp [enclosed, points]

@[simp] theorem closings_enclosed (level : Nat) (ds : List Declaration) (es : List Event) :
    closings (enclosed level ds es) = closings es ++ [⟨level, ds, points es⟩] := by
  simp [enclosed, closings]

@[simp] theorem reads_append (ps qs : List (Context × Point)) :
    reads (ps ++ qs) = reads ps ++ reads qs := List.filterMap_append

@[simp] theorem problems_append (allow : Bool) (es fs : List Event) :
    problems allow (es ++ fs) = problems allow es ++ problems allow fs := by
  simp [problems]

@[simp] theorem problems_enclosed (allow : Bool) (level : Nat) (ds : List Declaration)
    (es : List Event) : problems allow (enclosed level ds es) = problems allow es := by
  simp [problems]

@[simp] theorem warnings_append (es fs : List Event) :
    warnings (es ++ fs) = warnings es ++ warnings fs := by
  simp [warnings]

@[simp] theorem warnings_enclosed (level : Nat) (ds : List Declaration) (es : List Event) :
    warnings (enclosed level ds es) =
      warnings es ++ (Closing.mk level ds (points es)).sorted := by
  simp [warnings]

/-! ## Contexts -/

/-- A statement may stand here. -/
def Context.Ready : Context → Prop
  | .outermost _ => True
  | .scope _ frame _ => frame.awaiting = none
  | .members _ _ _ => False

/-- The names that the scopes around declare are ones that the language does not bind. -/
def Context.Ordinary : Context → Prop
  | .outermost _ => True
  | .scope _ frame outer => (∀ d ∈ frame.declared, d.name.IsOrdinary) ∧ outer.Ordinary
  | .members _ _ outer => outer.Ordinary

theorem Frame.not_has_ordinary {f : Frame} (h : ∀ d ∈ f.declared, d.name.IsOrdinary) :
    f.has "this" = false ∧ f.has "super" = false := by
  constructor
  · rw [Frame.has, List.any_eq_false]
    intro d hd
    simpa using (h d hd).1
  · rw [Frame.has, List.any_eq_false]
    intro d hd
    simpa using (h d hd).2

/-- Where the language's own names lead to. -/
theorem Context.Ordinary.builtins {c : Context} (h : c.Ordinary) {d : Nat} {derived : Bool}
    (hc : c.class? = some (d, derived)) :
    ∃ place, (c.distance? "this" = some d ∧ c.frames[d]? = some (.builtin "this" place)) ∧
      (derived = true → c.distance? "super" = some (d + 1) ∧
        c.frames[d + 1]? = some (.builtin "super" place)) := by
  unfold Context.distance?
  induction c generalizing d with
  | outermost _ => cases hc
  | scope kind frame outer ih =>
    obtain ⟨⟨e, derived'⟩, houter, heq⟩ := Option.map_eq_some_iff.1 hc
    obtain ⟨rfl, rfl⟩ := Prod.mk.inj heq
    obtain ⟨hthis, hsuper⟩ := Frame.not_has_ordinary h.1
    obtain ⟨place, ⟨hd, hframe⟩, hderived⟩ := ih h.2 houter
    refine ⟨place, ⟨?_, hframe⟩, fun hb => ⟨?_, (hderived hb).2⟩⟩
    · simp [frames, List.findIdx?_cons, hthis, hd]
    · simp [frames, List.findIdx?_cons, hsuper, (hderived hb).1]
  | members derived' place outer _ =>
    obtain ⟨rfl, rfl⟩ := Prod.mk.inj (Option.some.inj hc)
    cases derived'
    · exact ⟨place, ⟨by simp [frames, List.findIdx?_cons], rfl⟩, nofun⟩
    · refine ⟨place, ⟨?_, rfl⟩, fun _ => ⟨?_, rfl⟩⟩
      · simp [frames, List.findIdx?_cons]
      · simp [frames, List.findIdx?_cons]

section
variable (c : Context) (d : Declaration)

@[simp] theorem Context.function_declare : (c.declare d).function = c.function := by
  cases c with
  | scope kind _ _ => cases kind <;> rfl
  | _ => rfl

@[simp] theorem Context.function_await : (c.await d).function = c.function := by
  cases c with
  | scope kind _ _ => cases kind <;> rfl
  | _ => rfl

@[simp] theorem Context.class?_declare : (c.declare d).class? = c.class? := by cases c <;> rfl

@[simp] theorem Context.class?_await : (c.await d).class? = c.class? := by cases c <;> rfl

@[simp] theorem Context.classKind_declare : (c.declare d).classKind = c.classKind := by
  simp [classKind]

@[simp] theorem Context.classKind_await : (c.await d).classKind = c.classKind := by
  simp [classKind]

@[simp] theorem Context.classKind_scope (kind : Option FunctionKind) (f : Frame) :
    (scope kind f c).classKind = c.classKind := by
  simp only [classKind, class?]
  rcases c.class? with _ | ⟨_, _ | _⟩ <;> rfl

end

/-! ## Telling -/

/-- The walk stands in the context. The names in `seen` have been read, and nobody else. -/
structure Matches (allow : Bool) (kind : ClassKind) (seen : List (Nat × String)) (c : Context)
    (w : Walk) : Prop where
  scopes : w.scopes = scopes seen c.frames
  known : Known seen c.frames
  globals : w.globals = if allow then [] else bound (·.name.place) c.globals
  allow : w.allowRedefinition = allow
  function : w.function = c.function
  classKind : w.classKind = kind

/-- A scope opens that nothing is declared in. -/
theorem Matches.opened {allow : Bool} {kind : ClassKind} {seen : List (Nat × String)} {c : Context}
    {w : Walk} (hw : Matches allow kind seen c w) (k : Option FunctionKind) :
    Matches allow kind (seen.filter (·.1 < c.level)) (c.inside k)
      { w with scopes := [] :: w.scopes, function := (c.inside k).function } := by
  have hsame : ∀ l x, l < c.frames.length →
      ((l, x) ∈ seen.filter (·.1 < c.level) ↔ (l, x) ∈ seen) := by
    intro l x hl
    have hlevel : l < c.level := hl
    simp [hlevel]
  refine { hw with scopes := ?_, known := ⟨fun x hx => ?_, ?_⟩, function := rfl }
  · exact congrArg ([] :: ·) (hw.scopes.trans (scopes_congr hsame).symm)
  · have hlt := (List.mem_filter.1 hx).2
    simp [Context.level] at hlt
  · exact (known_congr hsame).2 hw.known

/-- The scope closes: the names that nothing has read since are reported. -/
theorem Matches.closed {allow : Bool} {kind : ClassKind} {seen : List (Nat × String)}
    {c c' : Context} {f : Frame} {ps : List (Context × Point)} {v : Walk}
    (hv : Matches allow kind (seen.filter (·.1 < c.level) ++ reads ps) c' v)
    (hframes : c'.frames = f :: c.frames) (hglobals : c'.globals = c.globals) :
    Matches allow kind (seen ++ reads ps) c { (closeScope v).2 with function := c.function } ∧
      (closeScope v).2.problems = v.problems ∧
      (closeScope v).2.unread = v.unread ++
        (Closing.mk c.level f.declared ps).sorted.toArray := by
  have hsame : ∀ l x, l < c.frames.length →
      ((l, x) ∈ seen.filter (·.1 < c.level) ++ reads ps ↔ (l, x) ∈ seen ++ reads ps) := by
    intro l x hl
    have hlevel : l < c.level := hl
    simp [hlevel]
  have hfresh : ∀ x, (c.level, x) ∈ seen.filter (·.1 < c.level) ++ reads ps ↔
      (c.level, x) ∈ reads ps := by
    intro x
    simp
  have hscopes := hv.scopes
  have hknown := hv.known
  have hg := hv.globals
  rw [hframes] at hscopes hknown
  rw [hglobals] at hg
  rw [Lexical.scopes] at hscopes
  have hclose : (closeScope v).2 = { v with
      scopes := Lexical.scopes (seen.filter (·.1 < c.level) ++ reads ps) c.frames
      unread := v.unread ++ (unreadNames (f.bindings (seen.filter (·.1 < c.level) ++ reads ps)
        c.frames.length)).toArray } := by
    simp only [closeScope, modify_apply, hscopes]
  rw [hclose]
  refine ⟨{ hv with scopes := ?_, known := ?_, globals := hg, function := rfl }, rfl, ?_⟩
  · exact scopes_congr hsame
  · exact (known_congr hsame).1 hknown.2
  · have hunread := f.unreadNames_bindings hfresh
    exact congrArg (fun names => v.unread ++ names.toArray) hunread

/-- The second walk has reported what the events say. -/
structure Told (allow : Bool) (es : List Event) (w v : Walk) : Prop where
  problems : v.problems = w.problems ++ (problems allow es).toArray
  unread : v.unread = w.unread ++ (warnings es).toArray

theorem Told.refl (allow : Bool) (w : Walk) : Told allow [] w w :=
  ⟨by simp [Lexical.problems], by simp [warnings]⟩

theorem Told.trans {allow : Bool} {es fs : List Event} {u v w : Walk} (h : Told allow es u v)
    (h' : Told allow fs v w) : Told allow (es ++ fs) u w := by
  constructor
  · simp [h'.problems, h.problems]
  · simp [h'.unread, h.unread]

theorem Matches.distance {allow : Bool} {kind : ClassKind} {seen : List (Nat × String)}
    {c : Context} {w : Walk} (hw : Matches allow kind seen c w) (x : String) :
    Scoping.distance? w.scopes x = c.distance? x := by
  rw [hw.scopes, distance?_scopes]
  rfl

theorem Matches.awaits {allow : Bool} {kind : ClassKind} {seen : List (Nat × String)}
    {c : Context} {w : Walk} (hw : Matches allow kind seen c w) (x : String) :
    (awaitsValue x w).1 = c.frames.head?.any (·.awaiting = some x) := by
  have hscopes := hw.scopes
  simp only [awaitsValue, bind_apply, get_apply]
  generalize c.frames = fs at hscopes
  cases fs with
  | nil =>
    rw [hscopes]
    rfl
  | cons f fs =>
    rw [hscopes]
    exact f.awaits_bindings fs.length x

theorem Context.violation?_read (allow : Bool) (c : Context) (r : Reference) :
    c.violation? allow (.read r) = if c.frames.head?.any (·.awaiting = some r.name.text) then
      some ⟨r.name.place, .ownInitializer⟩ else none := by
  rcases c with _ | _ | ⟨_ | _, _, _⟩ <;> simp [violation?, frames, Frame.builtin, Frame.of]

/-- How a walk marks a name that is read. -/
theorem use_read (x : String) (w : Walk) :
    (use x true w).2 = match Scoping.distance? w.scopes x with
      | none => w
      | some d => { w with
          scopes := w.scopes.modify d (·.change x fun l => { l with read := true }) } := by
  simp only [use, bind_apply, get_apply]
  cases Scoping.distance? w.scopes x <;> rfl

/-- The step takes walks from the one context to the other and tells the events. -/
def Tells {α : Type} (allow : Bool) (kind : ClassKind) (c : Context) (es : List Event)
    (kind' : ClassKind) (c' : Context) (post : α → Prop) (x : Resolving α) : Prop :=
  ∀ seen w, Matches allow kind seen c w →
    post (x w).1 ∧ Matches allow kind' (seen ++ reads (points es)) c' (x w).2 ∧
      Told allow es w (x w).2

namespace Tells

section
variable {α β : Type} {allow : Bool} {kind kind' kind'' : ClassKind} {c c' c'' : Context}
  {es fs : List Event} {post : α → Prop} {mid : β → Prop} {x : Resolving α} {y : Resolving β}

/-- Nothing is asked of the value. -/
abbrev any : α → Prop := fun _ => True

/-! ### Laws -/

theorem pure {a : α} (h : post a) : Tells allow kind c [] kind c post (pure a) := by
  intro seen w hw
  refine ⟨h, ?_, .refl allow w⟩
  simpa [reads] using hw

theorem bind {f : β → Resolving α} (hy : Tells allow kind c es kind' c' mid y)
    (hf : ∀ b, mid b → Tells allow kind' c' fs kind'' c'' post (f b)) :
    Tells allow kind c (es ++ fs) kind'' c'' post (y >>= f) := by
  intro seen w hw
  obtain ⟨hmid, hmatches, htold⟩ := hy seen w hw
  obtain ⟨hpost, hmatches', htold'⟩ := hf _ hmid _ _ hmatches
  rw [List.append_assoc, ← reads_append, ← points_append] at hmatches'
  exact ⟨hpost, hmatches', htold.trans htold'⟩

/-- The last step. -/
theorem give {f : β → α} (hy : Tells allow kind c es kind' c' mid y)
    (hf : ∀ b, mid b → post (f b)) :
    Tells allow kind c es kind' c' post (y >>= fun b => Pure.pure (f b)) := by
  have h : Tells allow kind c (es ++ []) kind' c' post (y >>= fun b => Pure.pure (f b)) :=
    hy.bind fun b hb => .pure (hf b hb)
  rwa [List.append_nil] at h

/-- The state decides how to go on. -/
theorem get {f : Walk → Resolving α}
    (h : ∀ seen w, Matches allow kind seen c w → Tells allow kind c es kind' c' post (f w)) :
    Tells allow kind c es kind' c' post (get >>= f) := fun seen w hw => h seen w hw seen w hw

theorem imp {post' : α → Prop} (h : Tells allow kind c es kind' c' post x)
    (hp : ∀ a, post a → post' a) : Tells allow kind c es kind' c' post' x := by
  intro seen w hw
  obtain ⟨ha, hrest⟩ := h seen w hw
  exact ⟨hp _ ha, hrest⟩

/-- The same events. -/
theorem along (h : Tells allow kind c es kind' c' post x) (he : fs = es) :
    Tells allow kind c fs kind' c' post x := he ▸ h

/-! ### Reports -/

/-- A point that nothing reads from, and what is wrong with it. -/
theorem report {p : Point} {place : Place} {problem : ScopeProblem}
    (hreads : reads [(c, p)] = []) (hp : c.violation? allow p = some ⟨place, problem⟩) :
    Tells allow kind c [.point c p] kind c any (Scoping.report place problem) := by
  intro seen w hw
  refine ⟨trivial, ?_, ?_, ?_⟩
  · have hpoints : reads (points [.point c p]) = [] := hreads
    rw [hpoints, List.append_nil]
    exact { hw with }
  · simp [Scoping.report, Lexical.problems, hp]
  · simp [Scoping.report, warnings]

/-- A point that nothing reads from and that nothing is wrong with. -/
theorem pass {p : Point} (hreads : reads [(c, p)] = []) (hp : c.violation? allow p = none)
    (hx : Tells allow kind c es kind' c' post x) :
    Tells allow kind c (.point c p :: es) kind' c' post x := by
  intro seen w hw
  obtain ⟨hpost, hmatches, htold⟩ := hx seen w hw
  have hpoints : reads (points (.point c p :: es)) = reads (points es) := by
    have hcons := reads_append [(c, p)] (points es)
    rwa [hreads, List.nil_append] at hcons
  have hproblems : Lexical.problems allow (.point c p :: es) = Lexical.problems allow es := by
    simp [Lexical.problems, hp]
  rw [hpoints]
  exact ⟨hpost, hmatches, by rw [hproblems, htold.problems], htold.unread⟩

/-- A point that is reported or not. -/
theorem check {p : Point} {place : Place} {problem : ScopeProblem} (b : Bool)
    (hreads : reads [(c, p)] = [])
    (hp : c.violation? allow p = if b then some ⟨place, problem⟩ else none)
    (hx : Tells allow kind c es kind' c' post x) :
    Tells allow kind c (.point c p :: es) kind' c' post
      (if b then Scoping.report place problem >>= fun _ => x else x) := by
  cases b with
  | false => exact hx.pass hreads hp
  | true => exact (report hreads hp).bind fun _ _ => hx

end

/-! ### Declarations -/

section
variable {allow : Bool} {kind : ClassKind} {c : Context} {d : Declaration}

theorem declareGlobal (ds : List Declaration) (d : Declaration) :
    Tells allow kind (.outermost ds) [.point (.outermost ds) (.declaration d)] kind
      (.outermost (ds ++ [d])) any (declareGlobal d.name) := by
  intro seen w hw
  have hglobals := hw.globals
  rw [declareGlobal_apply, hw.allow]
  cases allow with
  | true =>
    refine ⟨trivial, ?_, ?_, ?_⟩
    · refine { hw with scopes := hw.scopes, known := trivial }
    · simp [Lexical.problems, Context.violation?]
    · simp [warnings]
  | false =>
    have hfind : w.globals.find? d.name.text =
        (ds.find? (·.name.text == d.name.text)).map (·.name.place) := by
      rw [hglobals]
      exact find?_bound ..
    rw [if_neg Bool.false_ne_true]
    cases hds : ds.find? (·.name.text == d.name.text) with
    | some first =>
      have hfirst := List.find?_some hds
      have hany : ds.any (·.name.text == d.name.text) = true :=
        List.any_eq_true.2 ⟨first, List.mem_of_find?_eq_some hds, hfirst⟩
      rw [hds, Option.map_some] at hfind
      rw [hfind]
      refine ⟨trivial, ?_, ?_, ?_⟩
      · refine { hw with scopes := hw.scopes, known := trivial, globals := ?_ }
        exact hglobals.trans (bound_again _ hany).symm
      · simp [Scoping.report, Lexical.problems, Context.violation?, hds]
      · simp [Scoping.report, warnings]
    | none =>
      have hany : ds.any (·.name.text == d.name.text) = false := by
        rw [List.any_eq_false]
        exact List.find?_eq_none.1 hds
      rw [hds, Option.map_none] at hfind
      rw [hfind]
      dsimp only [set_apply]
      refine ⟨trivial, ?_, ?_, ?_⟩
      · refine { hw with scopes := hw.scopes, known := trivial, allow := rfl, globals := ?_ }
        have hinsert := insert_bound (·.name.place) hany
        rw [hglobals]
        exact hinsert
      · simp [Lexical.problems, Context.violation?, hds]
      · simp [warnings]

/-- The name awaits its value behind a declaration. -/
theorem declare (hd : d.isTracked = true) (hc : c.Ready) :
    Tells allow kind c [.point c (.declaration d)] kind (c.await d) any
      (Scoping.declare d.name) := by
  cases c with
  | outermost ds =>
    intro seen w hw
    rw [declare_nil hw.scopes]
    exact declareGlobal ds d seen w hw
  | members _ _ _ => exact hc.elim
  | scope k f outer =>
    intro seen w hw
    have hscopes : w.scopes = f.bindings seen outer.level :: scopes seen outer.frames := hw.scopes
    have hf : f.awaiting = none := hc
    have hknown : Known seen (f.await d :: outer.frames) :=
      hw.known.mono fun x hx => by simp [hx]
    have hnone : seen ++ reads (points [.point (.scope k f outer) (.declaration d)]) = seen := by
      simp [reads]
    rw [hnone]
    simp only [Scoping.declare, bind_apply, get_apply, hscopes, Frame.has_bindings]
    cases hhas : f.has d.name.text with
    | true =>
      rw [if_pos rfl]
      refine ⟨trivial, ?_, ?_, ?_⟩
      · have hagain := (Frame.bindings_again seen outer.level hf hhas).1
        refine { hw with scopes := ?_, known := hknown, function := ?_ }
        · exact hscopes.trans (congrArg (· :: scopes seen outer.frames) hagain.symm)
        · exact hw.function.trans (Context.function_await _ d).symm
      · simp [Scoping.report, Lexical.problems, Context.violation?, hhas]
      · simp [Scoping.report, warnings]
    | false =>
      rw [if_neg Bool.false_ne_true]
      have hseen : (outer.level, d.name.text) ∉ seen := fun hm => by
        rw [hw.known.1 _ hm] at hhas
        cases hhas
      refine ⟨trivial, ?_, ?_, ?_⟩
      · have hinsert := Frame.insert_await hd hf hseen hhas
        refine { hw with scopes := ?_, known := hknown, function := ?_ }
        · exact congrArg (· :: scopes seen outer.frames) hinsert
        · exact hw.function.trans (Context.function_await _ d).symm
      · simp [Lexical.problems, Context.violation?, hhas]
      · simp [warnings]

/-- Its value comes behind its initializer. -/
theorem define (hc : c.Ready) :
    Tells allow kind (c.await d) [] kind (c.declare d) any (Scoping.define d.name) := by
  cases c with
  | outermost ds =>
    intro seen w hw
    have hsame : (Scoping.define d.name w).2 = w := changeLocal_nil hw.scopes
    have hnone : seen ++ reads (points []) = seen := by simp [reads]
    rw [hsame, hnone]
    exact ⟨trivial, hw, .refl allow w⟩
  | members _ _ _ => exact hc.elim
  | scope k f outer =>
    intro seen w hw
    have hscopes : w.scopes =
      (f.await d).bindings seen outer.level :: scopes seen outer.frames := hw.scopes
    have hknown : Known seen (f.declare d :: outer.frames) :=
      hw.known.mono fun x hx => by simpa using hx
    have hnone : seen ++ reads (points []) = seen := by simp [reads]
    rw [hnone]
    simp only [Scoping.define, changeLocal, modify_apply, hscopes, Frame.change_await]
    refine ⟨trivial, ?_, ?_, ?_⟩
    · refine { hw with scopes := rfl, known := hknown, function := ?_ }
      rw [Context.function_declare, ← Context.function_await _ d]
      exact hw.function
    · simp [Lexical.problems]
    · simp [warnings]

/-- A name that has its value at once. -/
theorem announce {α : Type} {kind' : ClassKind} {c' : Context} {es : List Event} {post : α → Prop}
    {x : Resolving α} (hd : d.isTracked = true) (hc : c.Ready)
    (hx : Tells allow kind (c.declare d) es kind' c' post x) :
    Tells allow kind c (.point c (.declaration d) :: es) kind' c' post
      (Scoping.declare d.name >>= fun _ => Scoping.define d.name >>= fun _ => x) :=
  (declare hd hc).bind fun _ _ => (define hc).bind fun _ _ => hx

/-- The same for the parameters of a function, which nobody has to read. -/
theorem declareParams {k : Option FunctionKind} {outer : Context} (ns : List Name) :
    ∀ {f : Frame}, f.awaiting = none → (∀ d ∈ f.declared, d.declarer = .parameter) →
      Tells allow kind (.scope k f outer)
        (declarations (.scope k f outer) (parameters ns)) kind
        ((parameters ns).foldl Context.declare (.scope k f outer)) any
        (ns.forM declareParam) := by
  induction ns with
  | nil => exact fun _ _ => .pure trivial
  | cons n ns ih =>
    intro f hf hall
    let d : Declaration := ⟨n, .parameter⟩
    have hfirst : Tells allow kind (.scope k f outer)
        [.point (.scope k f outer) (.declaration d)] kind (.scope k (f.declare d) outer) any
        (declareParam n) := by
      intro seen w hw
      have hscopes : w.scopes = f.bindings seen outer.level :: scopes seen outer.frames := hw.scopes
      have hknown : Known seen (f.declare d :: outer.frames) :=
        hw.known.mono fun x hx => by simp [hx]
      have hnone : seen ++ reads (points [.point (.scope k f outer) (.declaration d)]) = seen := by
        simp [reads]
      have hfunction : w.function = (Context.scope k (f.declare d) outer).function :=
        hw.function.trans (Context.function_declare (.scope k f outer) d).symm
      rw [hnone]
      simp only [declareParam, Scoping.declare, Scoping.define, changeLocal, bind_apply, get_apply,
        modify_apply, hscopes, Frame.has_bindings]
      cases hhas : f.has n.text with
      | true =>
        obtain ⟨hdefined, htracked⟩ := Frame.change_parameter seen outer.level hf hall n.text
        have hagain := (Frame.bindings_again (d := d) seen outer.level hf hhas).2
        simp only [if_true, Scoping.report, modify_apply, hscopes, hdefined, htracked]
        refine ⟨trivial, ?_, ?_, ?_⟩
        · refine { hw with scopes := ?_, known := hknown, function := hfunction }
          exact congrArg (· :: scopes seen outer.frames) hagain.symm
        · simp [Lexical.problems, Context.violation?, hhas, d]
        · simp [warnings]
      | false =>
        have hseen : (outer.level, n.text) ∉ seen := fun hm => by
          rw [hw.known.1 _ hm] at hhas
          cases hhas
        have hinsert := Frame.insert_parameter (d := d) rfl hf hseen hhas
        simp only [Bool.false_eq_true, if_false, set_apply, Bindings.change_insert]
        refine ⟨trivial, ?_, ?_, ?_⟩
        · refine { hw with scopes := ?_, known := hknown, function := hfunction }
          exact congrArg (· :: scopes seen outer.frames) hinsert
        · simp [Lexical.problems, Context.violation?, hhas, d]
        · simp [warnings]
    refine hfirst.bind fun _ _ => ih rfl fun e he => ?_
    rcases List.mem_append.1 he with he | he
    · exact hall e he
    · rw [List.mem_singleton.1 he]

end

/-! ### Uses -/

section
variable {allow : Bool} {kind : ClassKind} {c : Context}

/-- A name is looked up: it may be in its own initializer, and it is marked as read. -/
theorem read (r : Reference) :
    Tells allow kind c [.point c (.read r)] kind c
      (· = { r with depth := c.distance? r.name.text }) r.resolve := by
  intro seen w hw
  have hdistance := hw.distance r.name.text
  have hlook : w.lookUp r.name = if c.frames.head?.any (·.awaiting = some r.name.text) then
      (Scoping.report r.name.place .ownInitializer w).2 else w := by
    rw [Scoping.Walk.lookUp, hw.awaits]
  have hviolation := c.violation?_read allow r
  have hreads : reads (points [.point c (.read r)]) = (c.target? r.name.text).toList := by
    cases h : c.target? r.name.text <;> simp [reads, h]
  rw [Reference.resolve_apply, hdistance, use_read, Scoping.Walk.scopes_lookUp, hdistance, hreads]
  refine ⟨rfl, ?_, ?_⟩
  · have hlooked : Matches allow kind seen c (w.lookUp r.name) := by
      rw [hlook]
      split
      · exact { hw with }
      · exact hw
    cases hd : c.distance? r.name.text with
    | none =>
      have hnone : seen ++ (c.target? r.name.text).toList = seen := by simp [Context.target?, hd]
      rw [hnone]
      exact hlooked
    | some d =>
      have htarget : c.target? r.name.text = some (c.frames.length - 1 - d, r.name.text) := by
        simp [Context.target?, hd, Context.level]
      rw [htarget]
      refine { hlooked with scopes := ?_, known := known_read hw.known hd }
      dsimp only
      rw [hw.scopes]
      exact scopes_read hd
  · have htold : Told allow [.point c (.read r)] w (w.lookUp r.name) := by
      rw [hlook]
      constructor
      · cases h : c.frames.head?.any (·.awaiting = some r.name.text) <;>
          simp [Scoping.report, Lexical.problems, hviolation, h]
      · split <;> simp [Scoping.report, warnings]
    cases c.distance? r.name.text with
    | none => exact htold
    | some d => exact ⟨htold.problems, htold.unread⟩

/-- An assignment looks its target up and marks nothing. -/
theorem assignment (r : Reference) :
    Tells allow kind c [.point c (.assignment r)] kind c (· = c.distance? r.name.text)
      (use r.name.text false) := by
  intro seen w hw
  have hsame : use r.name.text false w = (c.distance? r.name.text, w) := by
    rw [← hw.distance]
    simp only [use, bind_apply, get_apply]
    cases Scoping.distance? w.scopes r.name.text <;> rfl
  have hnone : seen ++ reads (points [.point c (.assignment r)]) = seen := by simp [reads]
  rw [hsame, hnone]
  refine ⟨rfl, hw, ?_, ?_⟩
  · simp [Lexical.problems, Context.violation?]
  · simp [warnings]

/-- To look up what the language binds marks nothing either. -/
theorem builtin {p : Point} {x : String} {place : Place} {d : Nat} (hreads : reads [(c, p)] = [])
    (hp : c.violation? allow p = none) (hd : c.distance? x = some d)
    (hframe : c.frames[d]? = some (.builtin x place)) :
    Tells allow kind c [.point c p] kind c (· = some d) (use x true) := by
  intro seen w hw
  have hdistance := hw.distance x
  have hpoints : reads (points [.point c p]) = [] := hreads
  have hmarked : w.scopes.modify d (·.change x fun l => { l with read := true }) = w.scopes := by
    rw [hw.scopes]
    exact modify_builtin hframe
  have hsame : use x true w = (some d, w) := by
    refine Prod.ext ?_ ?_
    · rw [use_fst, hdistance, hd]
    · rw [use_read, hdistance, hd]
      dsimp only
      rw [hmarked]
  rw [hsame, hpoints, List.append_nil]
  refine ⟨rfl, hw, ?_, ?_⟩
  · simp [Lexical.problems, hp]
  · simp [warnings]

end

/-! ### Scopes -/

section
variable {α : Type} {allow : Bool} {kind kind' : ClassKind} {c c' : Context} {es : List Event}
  {post : α → Prop} {x : Resolving α} {f : Frame}

/-- What the language binds is declared in a scope of its own. -/
theorem declareBuiltin {y : String} {place : Place}
    (hframes : c'.frames = .builtin y place :: c.frames) (hglobals : c'.globals = c.globals)
    (hfunction : c'.function = c.function) :
    Tells allow kind (c.inside none) [] kind c' any (Scoping.declareBuiltin y place) := by
  intro seen w hw
  have hscopes : w.scopes = [] :: scopes seen c.frames := hw.scopes
  have hknown : Known seen c'.frames := by
    rw [hframes]
    exact hw.known.mono fun x hx => by simp [Frame.has, Frame.of] at hx
  have hnone : seen ++ reads (points []) = seen := by simp [reads]
  simp only [Scoping.declareBuiltin, modify_apply, hscopes, hnone]
  refine ⟨trivial, ?_, ?_, ?_⟩
  · refine { hw with scopes := ?_, known := hknown, globals := ?_, function := ?_ }
    · rw [hframes]
      simp [scopes, Frame.builtin, Frame.of, Frame.bindings, bound, firsts, entry, Bindings.insert,
        Declaration.isTracked]
    · rw [hglobals]
      exact hw.globals
    · rw [hfunction]
      exact hw.function
  · simp [Lexical.problems]
  · simp [warnings]

/-- What happens in a scope, and its end. -/
theorem closing {k : Option FunctionKind} {seen : List (Nat × String)} {w : Walk}
    (hw : Matches allow kind seen c w)
    (hx : Tells allow kind (c.inside k) es kind' c' post x)
    (hframes : c'.frames = f :: c.frames) (hglobals : c'.globals = c.globals) :
    let inner : Walk := { w with scopes := [] :: w.scopes, function := (c.inside k).function }
    let outer : Walk := { (closeScope (x inner).2).2 with function := c.function }
    post (x inner).1 ∧
      Matches allow kind' (seen ++ reads (points (enclosed c.level f.declared es))) c outer ∧
      Told allow (enclosed c.level f.declared es) w outer := by
  intro inner outer
  obtain ⟨hpost, hmatches, htold⟩ := hx _ inner (hw.opened k)
  obtain ⟨hclosed, hproblems, hunread⟩ := hmatches.closed hframes hglobals
  refine ⟨hpost, ?_, ?_, ?_⟩
  · rw [points_enclosed]
    exact hclosed
  · rw [problems_enclosed]
    exact hproblems.trans htold.problems
  · rw [warnings_enclosed, ← List.append_toArray, ← Array.append_assoc, ← htold.unread]
    exact hunread

theorem inScope (hx : Tells allow kind (c.inside none) es kind' c' post x)
    (hframes : c'.frames = f :: c.frames) (hglobals : c'.globals = c.globals)
    (hfunction : c'.function = c.function) :
    Tells allow kind c (enclosed c.level f.declared es) kind' c post (Scoping.inScope x) := by
  intro seen w hw
  have hclosing := closing hw hx hframes hglobals
  have hinner : ({ w with scopes := [] :: w.scopes, function := (c.inside none).function } : Walk) =
      (openScope w).2 := by
    have hf : (c.inside none).function = w.function := hw.function.symm
    rw [hf]
    rfl
  have hend : (x (openScope w).2).2.function = c.function := by
    obtain ⟨-, hmatches, -⟩ := hx _ _ (hw.opened none)
    rw [hinner] at hmatches
    exact hmatches.function.trans hfunction
  have houter : ({ (closeScope (x (openScope w).2).2).2 with function := c.function } : Walk) =
      (closeScope (x (openScope w).2).2).2 := by
    have hf : (closeScope (x (openScope w).2).2).2.function = c.function := by
      simp only [closeScope, modify_apply]
      cases (x (openScope w).2).2.scopes <;> exact hend
    rw [← hf]
  dsimp only at hclosing houter
  rw [hinner, houter] at hclosing
  rw [inScope_apply]
  exact hclosing

/-- What happens in a scope with a name that the language binds, and its end. -/
theorem inBuiltin {y : String} {place : Place} (hx : Tells allow kind c' es kind' c' post x)
    (hframes : c'.frames = .builtin y place :: c.frames) (hglobals : c'.globals = c.globals)
    (hfunction : c'.function = c.function) :
    Tells allow kind c (enclosed c.level (Frame.builtin y place).declared es) kind' c post
      (Scoping.inScope (Scoping.declareBuiltin y place >>= fun _ => x)) :=
  inScope ((declareBuiltin hframes hglobals hfunction).bind fun _ _ => hx) hframes hglobals
    hfunction

theorem inFunction (k : FunctionKind) (hx : Tells allow kind (c.inside (some k)) es kind' c' post x)
    (hframes : c'.frames = f :: c.frames) (hglobals : c'.globals = c.globals) :
    Tells allow kind c (enclosed c.level f.declared es) kind' c post
      (Scoping.inFunction k (Scoping.inScope x)) := by
  intro seen w hw
  have hclosing := closing hw hx hframes hglobals
  rw [inFunction_apply, inScope_apply, hw.function]
  exact hclosing

theorem enterClass (kind' : ClassKind) :
    Tells allow kind c [] kind' c any (Scoping.enterClass kind') := by
  intro seen w hw
  have hnone : seen ++ reads (points []) = seen := by simp [reads]
  rw [hnone]
  refine ⟨trivial, { hw with classKind := rfl }, ?_, ?_⟩
  · simp [Lexical.problems, Scoping.enterClass]
  · simp [warnings, Scoping.enterClass]

end

end Tells

end Lexical

end LoxLang
