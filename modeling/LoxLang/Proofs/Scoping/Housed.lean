import LoxLang.Proofs.Scoping.Settled

/-!
# Where `this` and `super` are

What the walk over settled trees knows of its scopes: which name a statement adds to the
innermost one, how a distance is read off an outline, which names await their values, and
that inside a class some scope has `this`, with that of `super` right around it if the
class has a superclass.
-/

namespace LoxLang

open Scoping

/-! ## The outline after a statement -/

/-- The outline once a statement has been passed. -/
def Stmt.outlined (s : Stmt) (o : List (Bindings Bool)) : List (Bindings Bool) :=
  match s.declared? with
  | none => o
  | some name => declaring name.text o

theorem outline_bind {name : Name} {w v : Walk} (h : Steady (w.await name) v) :
    (v.bind name).outline = declaring name.text w.outline :=
  outline_define name v w.outline (h.outline.trans (outline_declare name w))

theorem outline_enter (kind : ClassKind) (name : Name) (w : Walk) :
    (w.enter kind name).outline = declaring name.text w.outline :=
  outline_declare_define name { w with classKind := kind }

theorem outline_this (place : Place) (w : Walk) :
    (w.this place).outline = [("this", true)] :: w.outline :=
  outline_declareBuiltin "this" place (openScope w).2

theorem outline_super (place : Place) (w : Walk) :
    (w.super place).outline = [("super", true)] :: w.outline :=
  outline_declareBuiltin "super" place (openScope w).2

theorem outline_derive (name : Name) (r : Reference) (w : Walk) :
    (w.derive name r).outline =
      [("this", true)] :: [("super", true)] :: declaring name.text w.outline := by
  rw [Scoping.Walk.derive, outline_this, outline_super, (steady_reference _ r).outline,
    (steady_inherit name r _).outline, outline_enter]

/-- No branch and no loop body in the statement is a declaration. -/
def Stmt.Contained : Stmt → Prop
  | .branch _ yes none _ => yes.declared? = none ∧ yes.Contained
  | .branch _ yes (some no) _ =>
    (yes.declared? = none ∧ yes.Contained) ∧ no.declared? = none ∧ no.Contained
  | .loop _ body _ => body.declared? = none ∧ body.Contained
  | _ => True

theorem Stmt.contained_of_settled (s : Stmt) {w : Walk} (h : s.Settled w) : s.Contained := by
  match s with
  | .branch _ yes none _ => exact ⟨h.2.1, yes.contained_of_settled h.2.2⟩
  | .branch _ yes (some no) _ =>
    obtain ⟨-, ⟨hyd, hys⟩, hnd, hns⟩ := h
    exact ⟨⟨hyd, yes.contained_of_settled hys⟩, hnd, no.contained_of_settled hns⟩
  | .loop _ body _ => exact ⟨h.2.1, body.contained_of_settled h.2.2⟩
  | .expression _ | .print _ _ | .declare _ _ | .block _ _ | .breakOut _ | .function _
  | .returnWith _ _ | .classDecl _ _ _ => trivial

theorem Stmt.contained_of_regular (s : Stmt) (h : s.Regular) : s.Contained := by
  match s with
  | .branch _ yes none _ => exact ⟨h.2.1, yes.contained_of_regular h.2.2⟩
  | .branch _ yes (some no) _ =>
    obtain ⟨-, ⟨hyd, hys⟩, hnd, hns⟩ := h
    exact ⟨⟨hyd, yes.contained_of_regular hys⟩, hnd, no.contained_of_regular hns⟩
  | .loop _ body _ => exact ⟨h.2.1, body.contained_of_regular h.2.2⟩
  | .expression _ | .print _ _ | .declare _ _ | .block _ _ | .breakOut _ | .function _
  | .returnWith _ _ | .classDecl _ _ _ => trivial

/-- A statement adds the name that it declares to the innermost scope, and nothing else. -/
theorem Stmt.outline_of_contained (s : Stmt) (w : Walk) (h : s.Contained) :
    (s.resolve w).2.outline = s.outlined w.outline := by
  match s with
  | .expression e => exact (e.steady_resolve w).outline
  | .print e _ => exact (e.steady_resolve w).outline
  | .declare name none => exact outline_declare_define name w
  | .declare name (some e) => exact outline_bind (e.steady_resolve _)
  | .block body _ => exact (steady_closeScope (Stmt.inner_resolveAll body _)).outline
  | .branch test yes none _ =>
    have hy := yes.outline_of_contained (test.resolve w).2 h.2
    rw [Stmt.outlined, h.1] at hy
    exact hy.trans (test.steady_resolve w).outline
  | .branch test yes (some no) _ =>
    obtain ⟨⟨hyd, hyc⟩, hnd, hnc⟩ := h
    have hy := yes.outline_of_contained (test.resolve w).2 hyc
    have hn := no.outline_of_contained (yes.resolve (test.resolve w).2).2 hnc
    rw [Stmt.outlined, hyd] at hy
    rw [Stmt.outlined, hnd] at hn
    exact hn.trans (hy.trans (test.steady_resolve w).outline)
  | .loop test body _ =>
    have hb := body.outline_of_contained (test.resolve w).2 h.2
    rw [Stmt.outlined, h.1] at hb
    exact hb.trans (test.steady_resolve w).outline
  | .breakOut _ => rfl
  | .function f =>
    exact (f.steady_resolve _ _).outline.trans (outline_declare_define f.name w)
  | .returnWith none place =>
    rw [Stmt.resolve_return]
    exact (steady_returning place w).outline
  | .returnWith (some e) place =>
    rw [Stmt.resolve_returnWith]
    exact ((steady_returningValue place w).trans (e.steady_resolve _)).outline
  | .classDecl name none methods =>
    have hm := (inner_this name.place _).trans
      (Function.steady_resolveAll methods ((w.enter .plain name).this name.place)).inner
    exact (steady_closeScope hm).outline.trans (outline_enter .plain name w)
  | .classDecl name (some r) methods =>
    rw [Stmt.resolve_subclass]
    have hm := (inner_this name.place _).trans
      (Function.steady_resolveAll methods (w.derive name r)).inner
    have hs := (inner_super name.place _).trans (steady_closeScope hm).inner
    have hr := (steady_inherit name r (w.enter .derived name)).trans (steady_reference _ r)
    exact (hr.trans (steady_closeScope hs)).outline.trans (outline_enter .derived name w)

theorem Stmt.outline_resolve (s : Stmt) (w : Walk) (h : s.Settled w) :
    (s.resolve w).2.outline = s.outlined w.outline :=
  s.outline_of_contained w (s.contained_of_settled h)

/-! ## Distances -/

theorem distance?_outline (w : Walk) (name : String) :
    distance? w.scopes name = w.outline.findIdx? (·.has name) := by
  simp only [distance?, Walk.outline, List.findIdx?_map, Function.comp_def, Bindings.has_mapValues]

/-- A name at a distance is in the scope at that distance. -/
theorem has_of_distance {w : Walk} {name : String} {d : Nat}
    (h : distance? w.scopes name = some d) : ∃ s, w.outline[d]? = some s ∧ s.has name := by
  rw [distance?_outline, List.findIdx?_eq_some_iff_getElem] at h
  obtain ⟨hd, hs, -⟩ := h
  exact ⟨w.outline[d], List.getElem?_eq_getElem hd, hs⟩

/-! ## Names that await their values -/

/-- Each name that awaits its value belongs to one of these initializers, which are given by
the variable and the number of the scope that declares it, counted from outside. -/
def Awaited (initializers : List (Nat × Name)) (o : List (Bindings Bool)) (size : Nat) : Prop :=
  ∀ i s x, o[i]? = some s → s.find? x = some false →
    ∃ name, (size - i, name) ∈ initializers ∧ name.text = x

section
variable {initializers : List (Nat × Name)} {o : List (Bindings Bool)} {size : Nat}
variable (h : Awaited initializers o size)
include h

theorem Awaited.declaring (name : String) : Awaited initializers (declaring name o) size := by
  intro i s x hs hx
  match o, i, hs with
  | s' :: _, 0, hs =>
    cases hs
    rw [Bindings.find?_insert] at hx
    split at hx
    · cases hx
    · exact h 0 s' x rfl hx
  | _ :: _, i + 1, hs => exact h (i + 1) s x hs hx

/-- One more name that awaits its value is one more initializer around. -/
theorem Awaited.awaiting (name : Name) :
    Awaited ((size, name) :: initializers) (awaiting name.text o) size := by
  have more {i : Nat} {s : Bindings Bool} {x : String} (hs : o[i]? = some s)
      (hx : s.find? x = some false) :
      ∃ name', (size - i, name') ∈ (size, name) :: initializers ∧ name'.text = x := by
    obtain ⟨name', hm, hn⟩ := h i s x hs hx
    exact ⟨name', .tail _ hm, hn⟩
  intro i s x hs hx
  match o, i, hs with
  | s' :: _, 0, hs =>
    cases hs
    split at hx
    · exact more rfl hx
    · rw [Bindings.find?_insert] at hx
      split at hx
      · rename_i hxn
        exact ⟨name, .head _, (beq_iff_eq.1 hxn).symm⟩
      · exact more rfl hx
  | _ :: _, i + 1, hs => exact more hs hx

/-- A scope in which nothing awaits a value changes nothing about the initializers around. -/
theorem Awaited.cons {s : Bindings Bool} (hs : ∀ x, s.find? x ≠ some false) :
    Awaited initializers (s :: o) (size + 1) := by
  intro i s' x hs' hx
  cases i with
  | zero =>
    cases hs'
    exact absurd hx (hs x)
  | succ i =>
    rw [Nat.add_sub_add_right]
    exact h i s' x hs' hx

end

/-! ## The scopes of a class -/

/-- Which of the two names of the language each scope has, `this` or `super`. -/
def marks (o : List (Bindings Bool)) : List (Bool × Bool) :=
  o.map fun s => (s.has "this", s.has "super")

theorem marks_declaring {name : Name} (h : name.IsOrdinary) (o : List (Bindings Bool)) :
    marks (declaring name.text o) = marks o := by
  cases o with
  | nil => rfl
  | cons s ss =>
    simp [marks, declaring, Bindings.has_insert, beq_eq_false_iff_ne.2 h.1.symm,
      beq_eq_false_iff_ne.2 h.2.symm]

theorem marks_awaiting {name : Name} (h : name.IsOrdinary) (o : List (Bindings Bool)) :
    marks (awaiting name.text o) = marks o := by
  cases o with
  | nil => rfl
  | cons s ss =>
    simp only [marks, awaiting, List.map_cons]
    split
    · rfl
    · rw [Bindings.has_insert, Bindings.has_insert, beq_eq_false_iff_ne.2 h.1.symm,
        beq_eq_false_iff_ne.2 h.2.symm, Bool.false_or, Bool.false_or]

/-- A scope of `super` is right around one of `this`. -/
def Beside (ms : List (Bool × Bool)) : Prop :=
  ∀ i m, ms[i]? = some m → m.2 = true → ∃ d n, i = d + 1 ∧ ms[d]? = some n ∧ n.1 = true

theorem Beside.cons {ms : List (Bool × Bool)} (h : Beside ms) (b : Bool) :
    Beside ((b, false) :: ms) := by
  intro i m hi hm
  cases i with
  | zero =>
    rw [List.getElem?_cons_zero, Option.some.injEq] at hi
    subst hi
    cases hm
  | succ i =>
    obtain ⟨d, n, rfl, hn, ht⟩ := h i m hi hm
    exact ⟨d + 1, n, rfl, hn, ht⟩

/-- Behind the two scopes of a subclass the marks for `this` and `super` are beside each other. -/
theorem Beside.derived {ms : List (Bool × Bool)} (h : Beside ms) :
    Beside ((true, false) :: (false, true) :: ms) := by
  intro i m hi hm
  match i with
  | 0 =>
    rw [List.getElem?_cons_zero, Option.some.injEq] at hi
    subst hi
    cases hm
  | 1 => exact ⟨0, (true, false), rfl, rfl, rfl⟩
  | i + 2 =>
    obtain ⟨d, n, rfl, hn, ht⟩ := h i m hi hm
    exact ⟨d + 2, n, rfl, hn, ht⟩

/-- The names of the language are where the walk expects them. -/
structure Housed (w : Walk) : Prop where
  this : w.classKind ≠ .outside → ∃ m ∈ marks w.outline, m.1 = true
  super : w.classKind = .derived → ∃ m ∈ marks w.outline, m.2 = true
  beside : Beside (marks w.outline)

theorem housed_start (allowRedefinition : Bool) : Housed (Walk.start allowRedefinition) where
  this h := (h rfl).elim
  super h := by cases h
  beside := by
    intro i m hi
    cases hi

theorem Housed.of_marks {w v : Walk} (h : Housed w) (hm : marks v.outline = marks w.outline)
    (hc : v.classKind = w.classKind) : Housed v :=
  ⟨by rw [hm, hc]; exact h.this, by rw [hm, hc]; exact h.super, by rw [hm]; exact h.beside⟩

theorem Housed.steady {w v : Walk} (h : Housed w) (hs : Steady w v) : Housed v :=
  h.of_marks (by rw [hs.outline]) hs.classKind

/-- A scope inside the others that has neither name. -/
theorem Housed.push {w v : Walk} (h : Housed w)
    (hm : marks v.outline = (false, false) :: marks w.outline) (hc : v.classKind = w.classKind) :
    Housed v where
  this ho := by
    obtain ⟨m, hw, ht⟩ := h.this (hc ▸ ho)
    exact ⟨m, by rw [hm]; exact .tail _ hw, ht⟩
  super hd := by
    obtain ⟨m, hw, ht⟩ := h.super (hc ▸ hd)
    exact ⟨m, by rw [hm]; exact .tail _ hw, ht⟩
  beside := by
    rw [hm]
    exact h.beside.cons false

theorem Housed.openScope {w : Walk} (h : Housed w) : Housed (openScope w).2 := h.push rfl rfl

theorem Housed.await {w : Walk} (h : Housed w) {name : Name} (hn : name.IsOrdinary) :
    Housed (w.await name) :=
  h.of_marks (by rw [Walk.await, outline_declare, marks_awaiting hn]) (inner_declare name w).classKind

/-- A name that has been declared. -/
theorem Housed.declared {w v : Walk} (h : Housed w) {name : Name} (hn : name.IsOrdinary)
    (ho : v.outline = declaring name.text w.outline) (hc : v.classKind = w.classKind) : Housed v :=
  h.of_marks (by rw [ho, marks_declaring hn]) hc

/-- The scope of a body has neither name. -/
theorem marks_body (w : Walk) (kind : FunctionKind) {params : List Name}
    (hp : ∀ p ∈ params, p.IsOrdinary) :
    marks (w.body kind params).outline = (false, false) :: marks w.outline := by
  obtain ⟨s, hs, hn⟩ := outline_body kind params w
  have no : ∀ x, (∀ p ∈ params, p.text ≠ x) → s.has x = false := by
    intro x hx
    rw [Bool.eq_false_iff]
    intro hs
    obtain ⟨b, hb⟩ := Option.isSome_iff_exists.1 hs
    obtain ⟨-, p, hp, rfl⟩ := hn x b hb
    exact hx p hp rfl
  rw [hs, marks, List.map_cons, no "this" fun p h => (hp p h).1, no "super" fun p h => (hp p h).2]
  rfl

theorem classKind_body (w : Walk) (kind : FunctionKind) (params : List Name) :
    (w.body kind params).classKind = w.classKind :=
  (inner_forM inner_declareParam params (Scoping.openScope _).2).classKind

/-- A body of ordinary parameters is housed. -/
theorem Housed.body {w : Walk} (h : Housed w) (kind : FunctionKind) {params : List Name}
    (hp : ∀ p ∈ params, p.IsOrdinary) : Housed (w.body kind params) :=
  h.push (marks_body w kind hp) (classKind_body w kind params)

theorem marks_plain (w : Walk) {name : Name} (hn : name.IsOrdinary) (place : Place) :
    marks ((w.enter .plain name).this place).outline = (true, false) :: marks w.outline := by
  rw [outline_this, outline_enter, ← marks_declaring hn w.outline]
  rfl

theorem classKind_plain (w : Walk) (name : Name) (place : Place) :
    ((w.enter .plain name).this place).classKind = .plain :=
  (inner_this place _).classKind.trans (inner_enter .plain name w).classKind

/-- The inside of a class without a superclass is housed. -/
theorem Housed.plain {w : Walk} (h : Housed w) {name : Name} (hn : name.IsOrdinary)
    (place : Place) : Housed ((w.enter .plain name).this place) := by
  have hm := marks_plain w hn place
  exact ⟨fun _ => ⟨(true, false), by rw [hm]; exact .head _, rfl⟩, by simp [classKind_plain],
    by rw [hm]; exact h.beside.cons true⟩

theorem marks_derive (w : Walk) {name : Name} (hn : name.IsOrdinary) (r : Reference) :
    marks (w.derive name r).outline = (true, false) :: (false, true) :: marks w.outline := by
  rw [outline_derive, ← marks_declaring hn w.outline]
  rfl

theorem classKind_derive (w : Walk) (name : Name) (r : Reference) :
    (w.derive name r).classKind = .derived := by
  have hr := (steady_inherit name r (w.enter .derived name)).trans (steady_reference _ r)
  exact ((inner_this name.place _).classKind.trans (inner_super name.place _).classKind).trans
    (hr.classKind.trans (inner_enter .derived name w).classKind)

/-- The inside of a subclass is housed. -/
theorem Housed.derive {w : Walk} (h : Housed w) {name : Name} (hn : name.IsOrdinary)
    (r : Reference) : Housed (w.derive name r) := by
  have hm := marks_derive w hn r
  exact ⟨fun _ => ⟨(true, false), by rw [hm]; exact .head _, rfl⟩,
    fun _ => ⟨(false, true), by rw [hm]; exact .tail _ (.head _), rfl⟩,
    by rw [hm]; exact h.beside.derived⟩

/-- A settled statement declares no name of the language. -/
theorem Stmt.ordinary_of_settled (s : Stmt) {w : Walk} (h : s.Settled w) :
    ∀ name ∈ s.declared?, name.IsOrdinary := by
  intro name hn
  match s with
  | .declare _ none =>
    cases hn
    exact h
  | .declare _ (some _) | .function _ | .classDecl _ none _ | .classDecl _ (some _) _ =>
    cases hn
    exact h.1

/-- Nor does a regular one. -/
theorem Stmt.ordinary_of_regular (s : Stmt) (h : s.Regular) :
    ∀ name ∈ s.declared?, name.IsOrdinary := by
  intro name hn
  match s with
  | .declare _ none =>
    cases hn
    exact h
  | .declare _ (some _) | .function _ | .classDecl _ none _ | .classDecl _ (some _) _ =>
    cases hn
    exact h.1

section
variable {w : Walk} (h : Housed w) {s : Stmt}
include h

theorem Housed.of_contained (hs : s.Contained) (hn : ∀ name ∈ s.declared?, name.IsOrdinary) :
    Housed (s.resolve w).2 := by
  refine h.of_marks ?_ (s.inner_resolve w).classKind
  rw [s.outline_of_contained w hs, Stmt.outlined]
  cases hd : s.declared? with
  | none => rfl
  | some name => exact marks_declaring (hn name hd) _

theorem Housed.resolve (hs : s.Settled w) : Housed (s.resolve w).2 :=
  h.of_contained (s.contained_of_settled hs) (s.ordinary_of_settled hs)

theorem Housed.of_regular (hs : s.Regular) : Housed (s.resolve w).2 :=
  h.of_contained (s.contained_of_regular hs) (s.ordinary_of_regular hs)

end

theorem Housed.distance_this {w : Walk} (h : Housed w) (hc : w.classKind ≠ .outside) :
    ∃ d, distance? w.scopes "this" = some d := by
  obtain ⟨m, hm, ht⟩ := h.this hc
  simp only [marks, List.mem_map] at hm
  obtain ⟨s, hs, rfl⟩ := hm
  cases hd : distance? w.scopes "this" with
  | some d => exact ⟨d, rfl⟩
  | none =>
    rw [distance?_outline, List.findIdx?_eq_none_iff] at hd
    exact absurd ht (by simp [hd s hs])

/-- The scope of `this` that belongs to a use of `super`. -/
theorem Housed.distance_super {w : Walk} (h : Housed w) (hc : w.classKind = .derived) :
    ∃ d s, distance? w.scopes "super" = some (d + 1) ∧ w.outline[d]? = some s ∧ s.has "this" := by
  obtain ⟨m, hm, ht⟩ := h.super hc
  simp only [marks, List.mem_map] at hm
  obtain ⟨s, hs, rfl⟩ := hm
  cases hd : distance? w.scopes "super" with
  | none =>
    rw [distance?_outline, List.findIdx?_eq_none_iff] at hd
    exact absurd ht (by simp [hd s hs])
  | some i =>
    obtain ⟨t, hi, ht⟩ := has_of_distance hd
    obtain ⟨d, n, rfl, hn, ht⟩ := h.beside i _ (by rw [marks, List.getElem?_map, hi]; rfl) ht
    rw [marks, List.getElem?_map, Option.map_eq_some_iff] at hn
    obtain ⟨u, hu, rfl⟩ := hn
    exact ⟨d, u, rfl, hu, ht⟩

end LoxLang
