import LoxLang.Scoping.Depth
import LoxLang.Proofs.Scoping.Growth
import Mathlib.Tactic.Common

/-!
# How a walk moves

What a step of the walk over a program does to its state. Problems are only ever added.
The *outline* of a state is what it knows of each open scope but for reading: the names,
and whether they are defined. An expression keeps the outline, a statement changes at
most the innermost scope of it, and adds just the name that it declares.
-/

namespace LoxLang

namespace Bindings

variable {α β : Type}

def mapValues (g : α → β) (bs : Bindings α) : Bindings β := bs.map fun p => (p.1, g p.2)

theorem find?_mapValues (g : α → β) (bs : Bindings α) (name : String) :
    (bs.mapValues g).find? name = (bs.find? name).map g := by
  induction bs with
  | nil => rfl
  | cons p bs ih =>
    obtain ⟨n, a⟩ := p
    rw [find?_cons, mapValues, List.map_cons, find?_cons]
    split
    · rfl
    · exact ih

/-- What is done to the values of bindings does not touch their names. -/
theorem has_mapValues (g : α → β) (bs : Bindings α) (name : String) :
    (bs.mapValues g).has name = bs.has name := by
  rw [has, has, find?_mapValues, Option.isSome_map]

theorem mapValues_insert (g : α → β) (name : String) (a : α) (bs : Bindings α) :
    (bs.insert name a).mapValues g = (bs.mapValues g).insert name (g a) := by
  induction bs with
  | nil => rfl
  | cons p bs ih =>
    obtain ⟨n, b⟩ := p
    simp only [insert, mapValues, List.map_cons] at ih ⊢
    split
    · rfl
    · rw [List.map_cons, ih]

theorem mapValues_change (g : α → β) (f : α → α) (f' : β → β) (h : ∀ a, g (f a) = f' (g a))
    (name : String) (bs : Bindings α) :
    (bs.change name f).mapValues g = (bs.mapValues g).change name f' := by
  induction bs with
  | nil => rfl
  | cons p bs ih =>
    obtain ⟨n, b⟩ := p
    simp only [change, mapValues, List.map_cons] at ih ⊢
    split
    · rw [List.map_cons, h]
    · rw [List.map_cons, ih]

theorem change_id (name : String) (bs : Bindings α) : bs.change name id = bs := by
  induction bs with
  | nil => rfl
  | cons p bs ih =>
    obtain ⟨n, b⟩ := p
    simp only [change, ih, id]
    split <;> rfl

/-- A change of no value is seen by nothing that does not look at what it changes. -/
theorem mapValues_change_of_eq (g : α → β) (f : α → α) (h : ∀ a, g (f a) = g a)
    (name : String) (bs : Bindings α) : (bs.change name f).mapValues g = bs.mapValues g := by
  rw [mapValues_change g f id h, change_id]

/-- To bind a name that is bound is to change its value. -/
theorem change_const (name : String) (a : α) (bs : Bindings α) (h : bs.has name) :
    bs.change name (fun _ => a) = bs.insert name a := by
  induction bs with
  | nil => simp [has] at h
  | cons p bs ih =>
    obtain ⟨n, b⟩ := p
    rw [has, find?_cons] at h
    simp only [change, insert]
    split
    · rfl
    · rw [ih (by simpa [has, *] using h)]

theorem insert_insert (name : String) (a b : α) (bs : Bindings α) :
    (bs.insert name a).insert name b = bs.insert name b := by
  induction bs with
  | nil => simp [insert]
  | cons p bs ih =>
    obtain ⟨n, c⟩ := p
    by_cases h : name = n
    · simp [insert, h]
    · simp [insert, h, ih]

theorem has_of_find {bs : Bindings α} {name : String} {a : α} (h : bs.find? name = some a) :
    bs.has name := by
  rw [has, h]
  rfl

/-- An inserted name is there, and so are those that were. -/
theorem has_insert (name other : String) (a : α) (bs : Bindings α) :
    (bs.insert name a).has other = (other == name || bs.has other) := by
  rw [has, has, find?_insert]
  cases other == name <;> simp

end Bindings

namespace Scoping

/-- The names of each open scope, and whether they are defined. -/
def Walk.outline (w : Walk) : List (Bindings Bool) := w.scopes.map (·.mapValues Local.defined)

variable {α β : Type}

/-- A walk with another one behind it, from where the first one ends. -/
@[simp] theorem bind_apply (x : Resolving α) (f : α → Resolving β) (w : Walk) :
    (x >>= f) w = f (x w).1 (x w).2 := rfl

@[simp] theorem pure_apply (a : α) (w : Walk) : (pure a : Resolving α) w = (a, w) := rfl

@[simp] theorem get_apply (w : Walk) : (get : Resolving Walk) w = (w, w) := rfl

@[simp] theorem set_apply (v w : Walk) : (set v : Resolving PUnit) w = (⟨⟩, v) := rfl

@[simp] theorem modify_apply (f : Walk → Walk) (w : Walk) :
    (modify f : Resolving PUnit) w = (⟨⟩, f w) := rfl

/-! ## Moves -/

/-- A move that keeps all that a later run depends on. -/
structure Steady (w v : Walk) : Prop where
  outline : v.outline = w.outline
  function : v.function = w.function
  classKind : v.classKind = w.classKind
  problems : w.Reports v

/-- A move that changes nothing outside the innermost scope. -/
structure Inner (w v : Walk) : Prop where
  tail : v.outline.tail = w.outline.tail
  length : v.outline.length = w.outline.length
  function : v.function = w.function
  classKind : v.classKind = w.classKind
  problems : w.Reports v

theorem Steady.refl (w : Walk) : Steady w w := ⟨rfl, rfl, rfl, #[], by simp⟩

theorem Steady.trans {u v w : Walk} (h : Steady u v) (h' : Steady v w) : Steady u w :=
  ⟨by rw [h'.outline, h.outline], by rw [h'.function, h.function],
    by rw [h'.classKind, h.classKind], h.problems.trans h'.problems⟩

theorem Steady.inner {w v : Walk} (h : Steady w v) : Inner w v :=
  ⟨by rw [h.outline], by rw [h.outline], h.function, h.classKind, h.problems⟩

theorem Inner.refl (w : Walk) : Inner w w := (Steady.refl w).inner

theorem Inner.trans {u v w : Walk} (h : Inner u v) (h' : Inner v w) : Inner u w :=
  ⟨by rw [h'.tail, h.tail], by rw [h'.length, h.length], by rw [h'.function, h.function],
    by rw [h'.classKind, h.classKind], h.problems.trans h'.problems⟩

/-- Reading is not seen in an outline. -/
theorem outline_of_onlyRead {ss ss' : List (Bindings Local)}
    (h : List.Forall₂ (List.Forall₂ OnlyRead) ss ss') :
    ss'.map (·.mapValues Local.defined) = ss.map (·.mapValues Local.defined) := by
  have hscope {s s' : Bindings Local} (h : List.Forall₂ OnlyRead s s') :
      s'.mapValues Local.defined = s.mapValues Local.defined := by
    induction h with
    | nil => rfl
    | cons hab _ ih =>
      exact congrArg₂ List.cons (Prod.ext_iff.2 ⟨hab.name, hab.defined⟩) ih
  induction h with
  | nil => rfl
  | cons hs _ ih => exact congrArg₂ List.cons (hscope hs) ih

theorem Walk.Reads.steady {w v : Walk} (h : w.Reads v) : Steady w v :=
  ⟨outline_of_onlyRead h.scopes, h.function, h.classKind, h.problems⟩

/-- A walk that adds names adds them to the innermost scope. -/
theorem Walk.Adds.inner {ns : List String} {w v : Walk} (h : Walk.Adds ns w v) : Inner w v := by
  cases h.grown with
  | globals hw hv =>
    exact ⟨by simp [Walk.outline, hw, hv], by simp [Walk.outline, hw, hv], h.function,
      h.classKind, h.problems⟩
  | innermost hw hv _ _ hss =>
    exact ⟨by simp [Walk.outline, hw, hv, outline_of_onlyRead hss],
      by simp [Walk.outline, hw, hv, hss.length_eq], h.function, h.classKind, h.problems⟩

/-! ## Single steps -/

theorem reads_report (place : Place) (problem : ScopeProblem) (w : Walk) :
    w.Reads (report place problem w).2 :=
  ⟨⟨rfl, rfl, rfl, ⟨#[⟨place, problem⟩], by simp [report]⟩, #[], by simp [report]⟩, rfl,
    (Walk.Reads.refl w).scopes⟩

theorem steady_report (place : Place) (problem : ScopeProblem) (w : Walk) :
    Steady w (report place problem w).2 := (reads_report place problem w).steady

theorem reads_use (name : String) (reads : Bool) (w : Walk) : w.Reads (use name reads w).2 := by
  simp only [use, bind_apply, get_apply]
  cases distance? w.scopes name with
  | none => exact .refl w
  | some d =>
    cases reads with
    | false => exact .refl w
    | true =>
      refine ⟨.change w _ _, rfl, ?_⟩
      have hread (a : Local) : OnlyRead (name, a) (name, { a with read := true }) :=
        ⟨rfl, rfl, rfl, rfl, fun _ => rfl⟩
      exact forall₂_modify_self Walk.forall₂_onlyRead_refl
        (fun s => Bindings.forall₂_change .refl name _ hread s) d w.scopes

theorem steady_use (name : String) (reads : Bool) (w : Walk) : Steady w (use name reads w).2 :=
  (reads_use name reads w).steady

/-- A global is declared once unless redefinition is allowed. -/
theorem declareGlobal_apply (name : Name) (w : Walk) : declareGlobal name w =
    (if w.allowRedefinition then pure ()
    else match w.globals.find? name.text with
      | some first => report name.place (.declaredAt name.text first)
      | none => set { w with globals := w.globals.insert name.text name.place } :
        Resolving Unit) w := rfl

theorem steady_declareGlobal (name : Name) (w : Walk) : Steady w (declareGlobal name w).2 := by
  rw [declareGlobal_apply]
  by_cases ha : w.allowRedefinition = true
  · rw [if_pos ha]
    exact .refl w
  · rw [if_neg ha]
    cases w.globals.find? name.text with
    | some first => exact steady_report _ _ w
    | none => exact ⟨rfl, rfl, rfl, #[], by simp⟩

/-- Without an open scope a step on the innermost one changes nothing. -/
theorem changeLocal_nil {name : String} {f : Local → Local} {w : Walk} (h : w.scopes = []) :
    (changeLocal name f w).2 = w := by
  simp [changeLocal, h]

theorem declare_nil {name : Name} {w : Walk} (h : w.scopes = []) :
    declare name w = declareGlobal name w := by
  simp [declare, h]

theorem outline_nil {w : Walk} : w.outline = [] ↔ w.scopes = [] := by
  simp [Walk.outline]

/-- The outline once the innermost scope has been changed. -/
theorem Inner.of_scopes {w v : Walk} {s s' : Bindings Local} {ss : List (Bindings Local)}
    (hw : w.scopes = s :: ss) (hv : v.scopes = s' :: ss) (hf : v.function = w.function)
    (hc : v.classKind = w.classKind) (hp : w.Reports v) : Inner w v :=
  ⟨by simp [Walk.outline, hw, hv], by simp [Walk.outline, hw, hv], hf, hc, hp⟩

theorem inner_changeLocal (name : String) (f : Local → Local) (w : Walk) :
    Inner w (changeLocal name f w).2 := by
  cases h : w.scopes with
  | nil =>
    rw [changeLocal_nil h]
    exact .refl w
  | cons s ss =>
    simp only [changeLocal, modify_apply, h]
    exact .of_scopes h rfl rfl rfl ⟨#[], by simp⟩

theorem adds_declareGlobal (name : Name) {w : Walk} (h : w.scopes = []) :
    Walk.Adds [name.text] w (declareGlobal name w).2 := by
  rw [declareGlobal_apply]
  by_cases ha : w.allowRedefinition = true
  · rw [if_pos ha]
    exact (Walk.Reads.refl w).adds _
  · rw [if_neg ha]
    cases hf : w.globals.find? name.text with
    | some first => exact (reads_report _ _ w).adds _
    | none =>
      have hnew : w.globals.has name.text = false := by simp [Bindings.has, hf]
      exact ⟨.change w _ _,
        .globals h h (.of_insert (fun _ => rfl) _ (List.mem_singleton.2 rfl) hnew)⟩

theorem adds_declare (name : Name) (w : Walk) : Walk.Adds [name.text] w (declare name w).2 := by
  cases h : w.scopes with
  | nil =>
    rw [declare_nil h]
    exact adds_declareGlobal name h
  | cons s ss =>
    simp only [declare, bind_apply, get_apply, h]
    by_cases hs : s.has name.text
    · simp only [hs, if_true]
      exact (reads_report _ _ w).adds _
    · simp only [hs, Bool.false_eq_true, if_false]
      exact ⟨.change w _ _,
        .innermost h rfl rfl (.of_insert .refl _ (List.mem_singleton.2 rfl) (by simpa using hs))
          (Walk.forall₂_onlyRead_scopes_refl ss)⟩

theorem adds_define (name : Name) (w : Walk) : Walk.Adds [name.text] w (define name w).2 := by
  cases h : w.scopes with
  | nil =>
    have hsame : (define name w).2 = w := changeLocal_nil h
    rw [hsame]
    exact (Walk.Reads.refl w).adds _
  | cons s ss =>
    simp only [define, changeLocal, modify_apply, h]
    have hdefined (a : Local) :
        Kept [name.text] (name.text, a) (name.text, { a with defined := true }) :=
      ⟨rfl, rfl, rfl, .inr ⟨rfl, List.mem_singleton.2 rfl⟩, id⟩
    exact ⟨.change w _ _,
      .innermost h rfl rfl (.of_forall₂ _ (Bindings.forall₂_change .refl _ _ hdefined s))
        (Walk.forall₂_onlyRead_scopes_refl ss)⟩

theorem inner_declare (name : Name) (w : Walk) : Inner w (declare name w).2 :=
  (adds_declare name w).inner

theorem inner_declareBuiltin (name : String) (place : Place) (w : Walk) :
    Inner w (declareBuiltin name place w).2 := by
  cases h : w.scopes with
  | nil =>
    simp only [declareBuiltin, modify_apply, h]
    exact .refl w
  | cons s ss =>
    simp only [declareBuiltin, modify_apply, h]
    exact .of_scopes h rfl rfl rfl ⟨#[], by simp⟩

theorem inner_define (name : Name) (w : Walk) : Inner w (define name w).2 :=
  inner_changeLocal _ _ w

theorem inner_declareParam (name : Name) (w : Walk) : Inner w (declareParam name w).2 :=
  ((inner_declare name w).trans (inner_define name _)).trans (inner_changeLocal _ _ _)

theorem inner_forM {f : α → Resolving PUnit} (hf : ∀ a w, Inner w (f a w).2) :
    ∀ (l : List α) (w : Walk), Inner w (l.forM f w).2
  | [], w => .refl w
  | a :: l, w => (hf a w).trans (inner_forM hf l _)

/-! ## Steps around others -/

theorem inScope_apply (x : Resolving α) (w : Walk) :
    inScope x w = ((x (openScope w).2).1, (closeScope (x (openScope w).2).2).2) := rfl

theorem inFunction_apply (kind : FunctionKind) (x : Resolving α) (w : Walk) :
    inFunction kind x w = ((x { w with function := kind }).1,
      { (x { w with function := kind }).2 with function := w.function }) := rfl

theorem opens_openScope (w : Walk) : w.Opens (openScope w).2 := ⟨.change w _ _, rfl, [], rfl⟩

section
variable {w v : Walk} (h : w.Opens v)
include h

/-- The scope that has been opened may get any names. -/
theorem Walk.Opens.withInnermost (s : Bindings Local) :
    w.Opens { v with scopes := s :: w.scopes } :=
  ⟨h.toReturns.trans (.change v _ _), h.globals, s, rfl⟩

/-- Changing a local leaves open what is open. -/
theorem Walk.Opens.changeLocal (name : String) (f : Local → Local) :
    w.Opens (changeLocal name f v).2 := by
  obtain ⟨s, hs⟩ := h.scopes
  simp only [Scoping.changeLocal, modify_apply, hs]
  exact h.withInnermost _

/-- A built-in name leaves open what is open. -/
theorem Walk.Opens.declareBuiltin (name : String) (place : Place) :
    w.Opens (declareBuiltin name place v).2 := by
  obtain ⟨s, hs⟩ := h.scopes
  simp only [Scoping.declareBuiltin, modify_apply, hs]
  exact h.withInnermost _

theorem Walk.Opens.declare (name : Name) : w.Opens (declare name v).2 := by
  obtain ⟨s, hs⟩ := h.scopes
  simp only [Scoping.declare, bind_apply, get_apply, hs]
  by_cases hn : s.has name.text
  · simp only [hn, if_true]
    exact ⟨h.toReturns.trans (reads_report _ _ v).toReturns, h.globals, s, hs⟩
  · simp only [hn, Bool.false_eq_true, if_false]
    exact h.withInnermost _

theorem Walk.Opens.declareParam (name : Name) : w.Opens (declareParam name v).2 :=
  ((h.declare name).changeLocal _ _).changeLocal _ _

/-- A scope that is opened and closed again leaves nothing behind but what was read. -/
theorem Walk.Opens.close {ns : List String} {u : Walk} (hu : Walk.Adds ns v u) :
    w.Reads (closeScope u).2 := by
  obtain ⟨s, hs⟩ := h.scopes
  have hreturns := h.toReturns.trans hu.toReturns
  cases hu.grown with
  | globals hv => cases hs.symm.trans hv
  | @innermost _ t _ ts hv hu' hg _ hss =>
    obtain ⟨rfl, rfl⟩ := List.cons.inj (hs.symm.trans hv)
    obtain ⟨ns, hns⟩ := hreturns.unread
    simp only [closeScope, modify_apply, hu']
    exact ⟨⟨hreturns.function, hreturns.classKind, hreturns.allowRedefinition, hreturns.problems,
      ns ++ (unreadNames t).toArray, by rw [hns, Array.append_assoc]⟩, hg.trans h.globals, hss⟩

end

/-- A scope that is opened and closed again leaves the outline. -/
theorem steady_closeScope {w v : Walk} (h : Inner (openScope w).2 v) : Steady w (closeScope v).2 := by
  obtain ⟨ps, hp⟩ := h.problems
  have ht : v.outline.tail = w.outline := h.tail
  have hl : v.outline.length = w.outline.length + 1 := h.length
  cases hv : v.scopes with
  | nil => simp [Walk.outline, hv] at hl
  | cons s ss =>
    simp only [closeScope, modify_apply, hv]
    refine ⟨?_, h.function, h.classKind, ps, hp⟩
    rw [← ht]
    simp [Walk.outline, hv]

/-! ## The innermost scope -/

/-- The outline once a name awaits its value. -/
def awaiting (name : String) : List (Bindings Bool) → List (Bindings Bool)
  | [] => []
  | s :: ss => (if s.has name then s else s.insert name false) :: ss

/-- The outline once a name has its value. -/
def declaring (name : String) : List (Bindings Bool) → List (Bindings Bool)
  | [] => []
  | s :: ss => s.insert name true :: ss

/-- A declaration in the outline: the name is there and awaits its value. -/
theorem outline_declare (name : Name) (w : Walk) :
    (declare name w).2.outline = awaiting name.text w.outline := by
  cases h : w.scopes with
  | nil =>
    rw [declare_nil h, (steady_declareGlobal name w).outline, outline_nil.2 h]
    rfl
  | cons s ss =>
    simp only [declare, bind_apply, get_apply, h, Walk.outline, List.map_cons, awaiting,
      Bindings.has_mapValues]
    by_cases hs : s.has name.text
    · simp [hs, report, h]
    · simp [hs, Bindings.mapValues_insert]

theorem outline_define (name : Name) (w : Walk) (o : List (Bindings Bool))
    (h : w.outline = awaiting name.text o) : (define name w).2.outline = declaring name.text o := by
  cases o with
  | nil =>
    rw [show (define name w).2 = w from changeLocal_nil (outline_nil.1 h), h]
    rfl
  | cons s ss =>
    have hhas : (if s.has name.text then s else s.insert name.text false).has name.text := by
      split
      · assumption
      · rw [Bindings.has_insert, beq_self_eq_true, Bool.true_or]
    cases hw : w.scopes with
    | nil => rw [outline_nil.2 hw] at h; cases h
    | cons t ts =>
      rw [Walk.outline, hw, List.map_cons, awaiting, List.cons.injEq] at h
      rw [← h.1] at hhas
      have hd : ((t.change name.text fun l => { l with defined := true }).mapValues
          Local.defined) = (t.mapValues Local.defined).insert name.text true := by
        rw [Bindings.mapValues_change _ _ (fun _ => true) (fun _ => rfl),
          Bindings.change_const _ _ _ hhas]
      simp only [define, changeLocal, modify_apply, hw, Walk.outline, List.map_cons, declaring, hd,
        h.1, h.2]
      split
      · rfl
      · rw [Bindings.insert_insert]

/-- A declaration whose name has its value at once. -/
theorem outline_declare_define (name : Name) (w : Walk) :
    (define name (declare name w).2).2.outline = declaring name.text w.outline :=
  outline_define name _ _ (outline_declare name w)

theorem outline_changeLocal {f : Local → Local} (hf : ∀ l, (f l).defined = l.defined)
    (name : String) (w : Walk) : (changeLocal name f w).2.outline = w.outline := by
  cases h : w.scopes with
  | nil => rw [changeLocal_nil h]
  | cons s ss =>
    simp only [changeLocal, modify_apply, h, Walk.outline, List.map_cons]
    rw [Bindings.mapValues_change_of_eq _ _ hf]

theorem outline_declareParam (name : Name) (w : Walk) :
    (declareParam name w).2.outline = declaring name.text w.outline := by
  rw [← outline_declare_define]
  exact outline_changeLocal (f := fun l => { l with tracked := false }) (fun _ => rfl) _ _

theorem outline_declareBuiltin (name : String) (place : Place) (w : Walk) :
    (declareBuiltin name place w).2.outline = declaring name w.outline := by
  cases h : w.scopes with
  | nil => simp [declareBuiltin, Walk.outline, h, declaring]
  | cons s ss => simp [declareBuiltin, Walk.outline, h, declaring, Bindings.mapValues_insert]

/-- The walk where the body of a function starts. -/
def Walk.body (kind : FunctionKind) (params : List Name) (w : Walk) : Walk :=
  (params.forM declareParam (openScope { w with function := kind }).2).2

theorem opens_body (kind : FunctionKind) (params : List Name) (w : Walk) :
    ({ w with function := kind } : Walk).Opens (w.body kind params) := by
  have add (ps : List Name) (v : Walk) (h : ({ w with function := kind } : Walk).Opens v) :
      ({ w with function := kind } : Walk).Opens (ps.forM declareParam v).2 := by
    induction ps generalizing v with
    | nil => exact h
    | cons p ps ih => exact ih _ (h.declareParam p)
  exact add params _ (opens_openScope _)

/-- The parameters are the names of the scope that the body shares; they have their values. -/
theorem outline_body (kind : FunctionKind) (params : List Name) (w : Walk) :
    ∃ s, (w.body kind params).outline = s :: w.outline ∧
      ∀ x b, s.find? x = some b → b = true ∧ ∃ p ∈ params, p.text = x := by
  have add : ∀ (ps : List Name) (v : Walk) (s : Bindings Bool), v.outline = s :: w.outline →
      ∃ s', (ps.forM declareParam v).2.outline = s' :: w.outline ∧
        ∀ x b, s'.find? x = some b → s.find? x = some b ∨ b = true ∧ ∃ p ∈ ps, p.text = x := by
    intro ps
    induction ps with
    | nil => exact fun v s h => ⟨s, h, fun x b hx => .inl hx⟩
    | cons p ps ih =>
      intro v s h
      obtain ⟨s', h', hs'⟩ := ih (declareParam p v).2 (s.insert p.text true)
        (by rw [outline_declareParam, h]; rfl)
      refine ⟨s', h', fun x b hx => ?_⟩
      rcases hs' x b hx with hx | ⟨hb, q, hq, rfl⟩
      · rw [Bindings.find?_insert] at hx
        split at hx
        · rename_i hxp
          rw [beq_iff_eq] at hxp
          cases hx
          exact .inr ⟨rfl, p, List.mem_cons_self, hxp.symm⟩
        · exact .inl hx
      · exact .inr ⟨hb, q, List.mem_cons_of_mem _ hq, rfl⟩
  obtain ⟨s, h, hs⟩ := add params (openScope { w with function := kind }).2 [] rfl
  refine ⟨s, h, fun x b hx => ?_⟩
  rcases hs x b hx with hx | hx
  · cases hx
  · exact hx

end Scoping

end LoxLang
