import LoxLang.Proofs.Machine.Mirror

/-!
# Methods around a site

A site inside a class lies in one of its methods: out of any blocks and functions there is
the body of the method, then the scope of `this`, then that of `super` if the class has a
superclass. So the distances that the walk gives to the two names say which class is the
innermost around.
-/

namespace LoxLang

open Scoping

/-- Which of the two names of the language the scope of a construct has, `this` or `super`. -/
def Construct.mark : Construct → Bool × Bool
  | .receiver _ => (true, false)
  | .inherited _ => (false, true)
  | .block _ _ | .function _ _ => (false, false)

/-- The scopes that can be open at a site in a source, and the kind of the innermost class
around: only the body of a method is right inside the scope of `this`. -/
inductive Surrounds (source : Nat) : List Opener → ClassKind → Prop where
  | outside : Surrounds source [] .outside
  | block {os : List Opener} {kind : ClassKind} (body : List Stmt) (place : Place)
    (h : Surrounds source os kind) (hd : ¬ (Construct.block body place).Declares "this") :
    Surrounds source (⟨source, .block body place⟩ :: os) kind
  | function {os : List Opener} {kind : ClassKind} (params : List Name) (body : List Stmt)
    (h : Surrounds source os kind) (hd : ¬ (Construct.function params body).Declares "this") :
    Surrounds source (⟨source, .function params body⟩ :: os) kind
  | method {os : List Opener} {kind : ClassKind} (params : List Name) (body : List Stmt)
    (className : Name) (h : Surrounds source os kind)
    (hd : ¬ (Construct.function params body).Declares "this") :
    Surrounds source (⟨source, .function params body⟩ :: ⟨source, .receiver className⟩ :: os)
      .plain
  | derivedMethod {os : List Opener} {kind : ClassKind} (params : List Name) (body : List Stmt)
    (className : Name) (h : Surrounds source os kind)
    (hd : ¬ (Construct.function params body).Declares "this") :
    Surrounds source (⟨source, .function params body⟩ :: ⟨source, .receiver className⟩ ::
      ⟨source, .inherited className⟩ :: os) .derived

namespace Surrounds

variable {source : Nat} {os : List Opener} {kind : ClassKind}

/-- Statements run in no scope that binds `this`. -/
theorem head_undeclared (h : Surrounds source os kind) {o : Opener} (ho : os.head? = some o) :
    ¬ o.construct.Declares "this" := by
  cases h with
  | outside => cases ho
  | block _ _ _ hd | function _ _ _ hd | method _ _ _ _ hd | derivedMethod _ _ _ _ hd =>
    cases ho
    exact hd

/-- The method around a site whose innermost class has a superclass. -/
theorem derived (h : Surrounds source os .derived) : ∃ inner params body className outer,
    os = inner ++ ⟨source, .function params body⟩ :: ⟨source, .receiver className⟩ ::
      ⟨source, .inherited className⟩ :: outer ∧
    ∀ o ∈ inner, o.construct.mark = (false, false) := by
  generalize hk : ClassKind.derived = kind at h
  induction h with
  | outside | method => cases hk
  | block body place _ _ ih =>
    obtain ⟨inner, params, body', className, outer, rfl, hi⟩ := ih hk
    refine ⟨⟨source, .block body place⟩ :: inner, params, body', className, outer, rfl, ?_⟩
    exact List.forall_mem_cons.2 ⟨rfl, hi⟩
  | function params body _ _ ih =>
    obtain ⟨inner, params', body', className, outer, rfl, hi⟩ := ih hk
    refine ⟨⟨source, .function params body⟩ :: inner, params', body', className, outer, rfl, ?_⟩
    exact List.forall_mem_cons.2 ⟨rfl, hi⟩
  | derivedMethod params body className _ _ _ =>
    exact ⟨[], params, body, className, _, rfl, fun _ ho => nomatch ho⟩

end Surrounds

/-! ## Sites -/

/-- The scopes at the site are as they can be, and the walk has the names of the language
where the constructs declare them. -/
structure Site.Surrounded (σ : Site) : Prop where
  nested : Surrounds σ.source σ.openers σ.walk.classKind
  marks : marks σ.walk.outline = σ.openers.map fun o => o.construct.mark

/-- A function that is made at the site has a surrounded body. -/
structure Site.Makes (σ : Site) : Prop where
  nested : ∀ params body, ¬ (Construct.function params body).Declares "this" →
    Surrounds σ.source (⟨σ.source, .function params body⟩ :: σ.openers) σ.walk.classKind
  marks : LoxLang.marks σ.walk.outline = σ.openers.map fun o => o.construct.mark

namespace Site

variable {σ : Site}

theorem Surrounded.makes (h : σ.Surrounded) : σ.Makes :=
  ⟨fun params body hd => .function params body h.nested hd, h.marks⟩

/-- Only the names of the language and the kind of the class matter of the walk. -/
theorem Surrounded.of_marks (h : σ.Surrounded) {w : Walk}
    (hm : LoxLang.marks w.outline = LoxLang.marks σ.walk.outline)
    (hk : w.classKind = σ.walk.classKind) : (σ.moved w).Surrounded :=
  ⟨by rw [moved, hk]; exact h.nested, hm.trans h.marks⟩

theorem Surrounded.moved (h : σ.Surrounded) {w : Walk} (hs : Steady σ.walk w) :
    (σ.moved w).Surrounded := h.of_marks (by rw [hs.outline]) hs.classKind

theorem Surrounded.passed (h : σ.Surrounded) (e : Expr) : (σ.after e.resolve).Surrounded :=
  h.moved (e.steady_resolve σ.walk)

theorem Surrounded.after (h : σ.Surrounded) {s : Stmt} (hs : s.Settled σ.walk) :
    (σ.after s.resolve).Surrounded := by
  refine h.of_marks ?_ (s.inner_resolve σ.walk).classKind
  rw [s.outline_resolve _ hs, Stmt.outlined]
  cases hd : s.declared? with
  | none => rfl
  | some name => exact marks_declaring (s.ordinary_of_settled hs name hd) _

theorem Surrounded.awaiting (h : σ.Surrounded) {name : Name} (hn : name.IsOrdinary) :
    (σ.awaiting name).Surrounded := by
  have hm : LoxLang.marks (σ.walk.await name).outline = LoxLang.marks σ.walk.outline := by
    rw [Walk.await, outline_declare, marks_awaiting hn]
  exact ⟨(h.of_marks hm (inner_declare name σ.walk).classKind).nested, hm.trans h.marks⟩

theorem Surrounded.declared (h : σ.Surrounded) {name : Name} (hn : name.IsOrdinary) :
    (σ.moved ((σ.walk.await name).bind name)).Surrounded := by
  refine h.of_marks ?_ ((inner_declare name σ.walk).trans (inner_define name _)).classKind
  exact (congrArg LoxLang.marks (outline_declare_define name σ.walk)).trans (marks_declaring hn _)

end Site

/-- Settled statements declare no name of the language. -/
theorem Stmt.ordinary_of_allSettled : ∀ {ss : List Stmt} {w : Walk}, Stmt.AllSettled ss w →
    ∀ s ∈ ss, ∀ name ∈ s.declared?, name.IsOrdinary
  | s :: _, _, ⟨hs, hss⟩, s', hm => by
    rcases List.mem_cons.1 hm with rfl | hm
    · exact s'.ordinary_of_settled hs
    · exact Stmt.ordinary_of_allSettled hss s' hm

namespace Site

variable {σ : Site}

theorem Surrounded.block (h : σ.Surrounded) {body : List Stmt} (place : Place)
    (hs : Stmt.AllSettled body (openScope σ.walk).2) :
    (σ.inside (.block body place) (openScope σ.walk).2).Surrounded := by
  refine ⟨.block body place h.nested ?_, congrArg ((false, false) :: ·) h.marks⟩
  rintro ⟨s, hm, name, hn, ht⟩
  exact (Stmt.ordinary_of_allSettled hs s hm name hn).1 ht

/-- The body of a function that was made at the site. -/
theorem Makes.body {kind : FunctionKind} (h : σ.Makes) {params : List Name} {body : List Stmt}
    (hp : ∀ p ∈ params, p.IsOrdinary) (hb : Stmt.AllSettled body (σ.walk.body kind params)) :
    (Maker.body ⟨σ, kind⟩ params body).Surrounded := by
  constructor
  · rw [Maker.body, inside, classKind_body]
    refine h.nested params body ?_
    rintro (⟨p, hm, ht⟩ | ⟨s, hm, name, hn, ht⟩)
    · exact (hp p hm).1 ht
    · exact (Stmt.ordinary_of_allSettled hb s hm name hn).1 ht
  · exact (marks_body σ.walk kind hp).trans (congrArg ((false, false) :: ·) h.marks)

/-- The methods of a class are made right inside the scope of `this`. -/
theorem Surrounded.plain (h : σ.Surrounded) {name : Name} (hn : name.IsOrdinary) (place : Place) :
    (σ.inside (.receiver name) ((σ.walk.enter .plain name).this place)).Makes := by
  refine ⟨fun params body hd => ?_, ?_⟩
  · rw [inside, classKind_plain]
    exact .method params body name h.nested hd
  · exact (marks_plain σ.walk hn place).trans (congrArg ((true, false) :: ·) h.marks)

theorem Surrounded.derive (h : σ.Surrounded) {name : Name} (hn : name.IsOrdinary) (r : Reference) :
    ((σ.inside (.inherited name) σ.walk).inside (.receiver name) (σ.walk.derive name r)).Makes := by
  refine ⟨fun params body hd => ?_, ?_⟩
  · rw [inside, classKind_derive]
    exact .derivedMethod params body name h.nested hd
  · exact (marks_derive σ.walk hn r).trans
      (congrArg (fun ms => (true, false) :: (false, true) :: ms) h.marks)

theorem Makes.after (h : σ.Makes) (f : Function) (kind : FunctionKind) :
    (σ.after (f.resolve kind)).Makes := by
  have hs := f.steady_resolve kind σ.walk
  refine ⟨fun params body hd => ?_, (congrArg LoxLang.marks hs.outline).trans h.marks⟩
  rw [Site.after, hs.classKind]
  exact h.nested params body hd

/-- What binds `this` right around a function is the scope of a receiver. -/
theorem Makes.receiver (h : σ.Makes) {o : Opener} (ho : σ.openers.head? = some o)
    (hd : o.construct.Declares "this") : ∃ className, o.construct = .receiver className := by
  have hn := h.nested [] [] (by simp [Construct.Declares])
  generalize σ.walk.classKind = kind at hn
  generalize σ.openers = os at hn ho
  cases hn with
  | function _ _ hs _ => exact absurd hd (hs.head_undeclared ho)
  | method _ _ className | derivedMethod _ _ className =>
    cases ho
    exact ⟨className, rfl⟩

/-! ## Distances -/

theorem Surrounded.distance_this (h : σ.Surrounded) :
    distance? σ.walk.scopes "this" = σ.openers.findIdx? (·.construct.mark.1) := by
  have hm := congrArg (List.findIdx? Prod.fst) h.marks
  rw [LoxLang.marks, List.findIdx?_map, List.findIdx?_map] at hm
  exact (distance?_outline _ _).trans hm

theorem Surrounded.distance_super (h : σ.Surrounded) :
    distance? σ.walk.scopes "super" = σ.openers.findIdx? (·.construct.mark.2) := by
  have hm := congrArg (List.findIdx? Prod.snd) h.marks
  rw [LoxLang.marks, List.findIdx?_map, List.findIdx?_map] at hm
  exact (distance?_outline _ _).trans hm

/-- The method of a class with a superclass around a site, and where the walk has the names
of the language from there. -/
theorem Surrounded.super (h : σ.Surrounded) (hk : σ.walk.classKind = .derived) :
    ∃ inner params body className outer,
      σ.openers = inner ++ ⟨σ.source, .function params body⟩ ::
        ⟨σ.source, .receiver className⟩ :: ⟨σ.source, .inherited className⟩ :: outer ∧
      (∀ o ∈ inner, o.construct.mark = (false, false)) ∧
      distance? σ.walk.scopes "this" = some (inner.length + 1) ∧
      distance? σ.walk.scopes "super" = some (inner.length + 2) := by
  have hn := h.nested
  rw [hk] at hn
  obtain ⟨inner, params, body, className, outer, ho, hi⟩ := hn.derived
  have unmarked (p : Bool × Bool → Bool) (hp : p (false, false) = false) :
      inner.findIdx? (fun o => p o.construct.mark) = none :=
    List.findIdx?_eq_none_iff.2 fun o hm => by rw [hi o hm, hp]
  refine ⟨inner, params, body, className, outer, ho, hi, ?_, ?_⟩
  · rw [h.distance_this, ho, List.findIdx?_append, unmarked Prod.fst rfl]
    simp [List.findIdx?_cons, Construct.mark, Nat.add_comm]
  · rw [h.distance_super, ho, List.findIdx?_append, unmarked Prod.snd rfl]
    simp [List.findIdx?_cons, Construct.mark, Nat.add_comm]

end Site

end LoxLang
