import LoxLang.Proofs.Renaming.Simulation
import LoxLang.Proofs.Scoping.Steps
import LoxLang.Proofs.Twins.Tree

/-!
# Depths of a tree and of the same tree elsewhere

Two walks go `Abreast` if they stand at the same point of a tree and of the same tree elsewhere:
they have the same scopes open, and have reported the same, up to places. The second may be
`free`, which is to say that it lets global names be declared again; then it lacks the reports
about those, and no others. So resolving tells neither the layout of a program nor the rule on
redefinition (`Stmt.abreast`), except by reporting global names that are declared again.
-/

namespace LoxLang

open Scoping

/-! ## What stands elsewhere -/

section
variable (R : Place → Place → Prop)

/-- The report is about a global name that is declared again. -/
def ScopeProblem.redeclares : ScopeProblem → Bool
  | declaredAt _ _ => true
  | _ => false

/-- The same problem, about a related place if it names one. -/
inductive ScopeProblem.Elsewhere : ScopeProblem → ScopeProblem → Prop
  | plain {q : ScopeProblem} (hq : q.redeclares = false) : ScopeProblem.Elsewhere q q
  | declaredAt (name : String) {p p' : Place} (hp : R p p') :
    ScopeProblem.Elsewhere (.declaredAt name p) (.declaredAt name p')

/-- Related values at related places. -/
structure Placed.Elsewhere {α : Type} (P : α → α → Prop) (q q' : Placed α) : Prop where
  place : R q.place q'.place
  value : P q.value q'.value

/-- The same is known of a name that was declared elsewhere. -/
structure Scoping.Local.Elsewhere (l l' : Local) : Prop where
  place : R l.place l'.place
  defined : l'.defined = l.defined
  read : l'.read = l.read
  tracked : l'.tracked = l.tracked

/-- The same names with related values. -/
abbrev Bindings.Alike {α : Type} (P : α → α → Prop) : Bindings α → Bindings α → Prop :=
  List.Forall₂ fun p p' => p'.1 = p.1 ∧ P p.2 p'.2

/-- Of two places, the one ahead is the one whose partner is ahead. -/
def Place.OrdersAlike : Prop := ∀ p p' q q', R p p' → R q q' → p'.le q' = p.le q

end

/-! ## Lists and bindings -/

/-- Sorting does not take related lists apart. -/
theorem forall₂_mergeSort {α : Type} {P : α → α → Prop} {le : α → α → Bool}
    (hle : ∀ a a' b b', P a a' → P b b' → le a' b' = le a b) {l l' : List α}
    (h : List.Forall₂ P l l') : List.Forall₂ P (l.mergeSort le) (l'.mergeSort le) := by
  -- both are projections of one list of pairs, which the first components sort
  obtain ⟨z, hz, rfl, rfl⟩ : ∃ z : List (α × α), (∀ p ∈ z, P p.1 p.2) ∧
      z.map Prod.fst = l ∧ z.map Prod.snd = l' := by
    induction h with
    | nil => exact ⟨[], by simp, rfl, rfl⟩
    | @cons a b _ _ hab _ ih =>
      obtain ⟨z, hz, rfl, rfl⟩ := ih
      exact ⟨(a, b) :: z, List.forall_mem_cons.2 ⟨hab, hz⟩, rfl, rfl⟩
  let ahead (p q : α × α) : Bool := le p.1 q.1
  have hfst := List.map_mergeSort (r := ahead) (s := le) (f := Prod.fst) (l := z)
    fun _ _ _ _ => rfl
  have hsnd := List.map_mergeSort (r := ahead) (s := le) (f := Prod.snd) (l := z)
    fun p hp q hq => (hle _ _ _ _ (hz p hp) (hz q hq)).symm
  rw [← hfst, ← hsnd, List.forall₂_map_left_iff, List.forall₂_map_right_iff]
  exact List.forall₂_same.2 fun p hp => hz p (List.mem_mergeSort.1 hp)

theorem forall₂_modify {α : Type} {P : α → α → Prop} {f f' : α → α}
    (hf : ∀ a a', P a a' → P (f a) (f' a')) {l l' : List α} (h : List.Forall₂ P l l') (d : Nat) :
    List.Forall₂ P (l.modify d f) (l'.modify d f') := by
  induction h generalizing d with
  | nil => cases d <;> exact .nil
  | cons ha hl ih =>
    cases d with
    | zero => exact .cons (hf _ _ ha) hl
    | succ d => exact .cons ha (ih d)

namespace Bindings.Alike

variable {α : Type} {P : α → α → Prop} {bs bs' : Bindings α} (h : Bindings.Alike P bs bs')
include h

theorem find? (x : String) : Option.Rel P (bs.find? x) (bs'.find? x) := by
  induction h with
  | nil => exact .none
  | @cons p p' bs bs' hp _ ih =>
    obtain ⟨n, a⟩ := p
    obtain ⟨n', a'⟩ := p'
    obtain ⟨rfl, ha⟩ := hp
    rw [Bindings.find?_cons, Bindings.find?_cons]
    split
    · exact .some ha
    · exact ih

theorem has (x : String) : bs'.has x = bs.has x := isSome_of_rel (h.find? x)

theorem insert (x : String) {a a' : α} (ha : P a a') :
    Bindings.Alike P (bs.insert x a) (bs'.insert x a') := by
  induction h with
  | nil => exact .cons ⟨rfl, ha⟩ .nil
  | @cons p p' bs bs' hp hbs ih =>
    obtain ⟨n, b⟩ := p
    obtain ⟨n', b'⟩ := p'
    obtain ⟨rfl, hb⟩ := hp
    unfold Bindings.insert
    split
    · exact .cons ⟨rfl, ha⟩ hbs
    · exact .cons ⟨rfl, hb⟩ ih

theorem change (x : String) {f : α → α} (hf : ∀ a a', P a a' → P (f a) (f a')) :
    Bindings.Alike P (bs.change x f) (bs'.change x f) := by
  induction h with
  | nil => exact .nil
  | @cons p p' bs bs' hp hbs ih =>
    obtain ⟨n, b⟩ := p
    obtain ⟨n', b'⟩ := p'
    obtain ⟨rfl, hb⟩ := hp
    unfold Bindings.change
    split
    · exact .cons ⟨rfl, hf _ _ hb⟩ hbs
    · exact .cons ⟨rfl, hb⟩ ih

end Bindings.Alike

variable {R : Place → Place → Prop}

/-- The same names of a scope are unread elsewhere, and they are reported in the same order. -/
theorem Bindings.Alike.unread (hR : Place.OrdersAlike R) {s s' : Bindings Local}
    (h : Bindings.Alike (Local.Elsewhere R) s s') :
    List.Forall₂ (Name.Elsewhere R) (unreadNames s) (unreadNames s') := by
  refine forall₂_mergeSort (fun a a' b b' ha hb => hR _ _ _ _ ha.place hb.place) ?_
  have hkept := List.rel_filter (p := fun q => q.2.tracked && !q.2.read)
    (q := fun q => q.2.tracked && !q.2.read)
    (fun p p' hp => by
      dsimp only
      rw [hp.2.tracked, hp.2.read]) h
  exact List.rel_map (fun p p' hp => ⟨hp.1, hp.2.place⟩) hkept

/-! ## Walks -/

/-- Is the problem reported by a walk that may be free? -/
def ScopeProblem.reported (free : Bool) (q : ScopeProblem) : Bool := !(free && q.redeclares)

/-- The walks stand at the same point of a tree and of the same tree elsewhere; the second may be
free to declare global names again. -/
structure Scoping.Walk.Abreast (R : Place → Place → Prop) (free : Bool) (w w' : Walk) : Prop where
  scopes : List.Forall₂ (Bindings.Alike (Local.Elsewhere R)) w.scopes w'.scopes
  allow : w'.allowRedefinition = (free || w.allowRedefinition)
  globals : free = false → ∀ x, Option.Rel R (w.globals.find? x) (w'.globals.find? x)
  function : w'.function = w.function
  classKind : w'.classKind = w.classKind
  problems : List.Forall₂ (Placed.Elsewhere R (ScopeProblem.Elsewhere R))
    (w.problems.toList.filter (·.value.reported free)) w'.problems.toList
  unread : List.Forall₂ (Name.Elsewhere R) w.unread.toList w'.unread.toList

/-- The steps keep walks abreast and end in related values. -/
def Scoping.Abreast {α β : Type} (R : Place → Place → Prop) (free : Bool) (post : α → β → Prop)
    (x : Resolving α) (x' : Resolving β) : Prop :=
  ∀ w w', Walk.Abreast R free w w' →
    post (x w).1 (x' w').1 ∧ Walk.Abreast R free (x w).2 (x' w').2

namespace Scoping.Abreast

section
variable {α β γ δ : Type} {free : Bool} {post : α → β → Prop} {mid : γ → δ → Prop}
  {x : Resolving α} {x' : Resolving β}

/-- Nothing is asked of the values. -/
abbrev any : α → β → Prop := fun _ _ => True

/-! ### Laws -/

theorem pure {a : α} {b : β} (h : post a b) :
    Abreast R free post (pure a : Resolving α) (pure b : Resolving β) := fun _ _ hw => ⟨h, hw⟩

/-- Two walks abreast may each be followed by walks abreast. -/
theorem bind {y : Resolving γ} {y' : Resolving δ} {k : γ → Resolving α} {k' : δ → Resolving β}
    (h : Abreast R free mid y y') (hk : ∀ c d, mid c d → Abreast R free post (k c) (k' d)) :
    Abreast R free post (y >>= k) (y' >>= k') := by
  intro w w' hw
  obtain ⟨hm, hw⟩ := h w w' hw
  exact hk _ _ hm _ _ hw

/-- The state decides how to go on. -/
theorem get {k : Walk → Resolving α} {k' : Walk → Resolving β}
    (h : ∀ w w', Walk.Abreast R free w w' → Abreast R free post (k w) (k' w')) :
    Abreast R free post (get >>= k) (get >>= k') := fun w w' hw => h w w' hw w w' hw

/-- Steps that change the state alone. -/
theorem change {φ φ' : Walk → Walk}
    (h : ∀ w w', Walk.Abreast R free w w' → Walk.Abreast R free (φ w) (φ' w')) :
    Abreast R free any (modify φ : Resolving PUnit) (modify φ' : Resolving PUnit) :=
  fun w w' hw => ⟨trivial, h w w' hw⟩

/-- Walks for each of two lists go abreast if they do one by one. -/
theorem forM {P : γ → δ → Prop} {step : γ → Resolving PUnit} {step' : δ → Resolving PUnit}
    (h : ∀ c d, P c d → Abreast R free any (step c) (step' d)) {l : List γ} {l' : List δ}
    (hl : List.Forall₂ P l l') : Abreast R free any (l.forM step) (l'.forM step') := by
  induction hl with
  | nil => exact .pure trivial
  | cons hc _ ih => exact (h _ _ hc).bind fun _ _ _ => ih

/-! ### Scopes -/

/-- A problem that is no redeclaration is reported on both sides. -/
theorem report {p p' : Place} (hp : R p p') {q : ScopeProblem} (hq : q.redeclares = false) :
    Abreast R free any (report p q) (report p' q) := by
  refine .change fun w w' hw => { hw with problems := ?_ }
  have hkept : q.reported free = true := by simp [ScopeProblem.reported, hq]
  simp only [Array.toList_push, List.filter_append, List.filter_singleton, hkept]
  exact List.rel_append hw.problems (.cons ⟨hp, .plain hq⟩ .nil)

theorem reportIf {p p' : Place} (b : Bool) (hp : R p p') {q : ScopeProblem}
    (hq : q.redeclares = false) (h : Abreast R free post x x') :
    Abreast R free post
      (if b then Scoping.report p q >>= fun _ => x else x)
      (if b then Scoping.report p' q >>= fun _ => x' else x') := by
  cases b with
  | false => exact h
  | true => exact (report hp hq).bind fun _ _ _ => h

theorem openScope : Abreast R free any openScope openScope :=
  .change fun _ _ hw => { hw with scopes := .cons .nil hw.scopes }

theorem closeScope (hR : Place.OrdersAlike R) : Abreast R free any closeScope closeScope := by
  refine .change fun w w' hw => ?_
  have hs := hw.scopes
  generalize hss : w.scopes = ss at hs
  generalize hss' : w'.scopes = ss' at hs
  cases hs with
  | nil => exact hw
  | cons hs hrest =>
    exact { hw with
      scopes := hrest
      unread := by
        rw [Array.toList_append, Array.toList_append]
        exact List.rel_append hw.unread (hs.unread hR) }

theorem inScope (hR : Place.OrdersAlike R) (h : Abreast R free post x x') :
    Abreast R free post (inScope x) (inScope x') :=
  openScope.bind fun _ _ _ => h.bind fun _ _ hp => (closeScope hR).bind fun _ _ _ => .pure hp

/-- The innermost scope is changed alike, if there is one. -/
theorem changeScope {φ φ' : Bindings Local → Bindings Local}
    (h : ∀ s s', Bindings.Alike (Local.Elsewhere R) s s' →
      Bindings.Alike (Local.Elsewhere R) (φ s) (φ' s')) :
    Abreast R free any
      (modify fun w => match w.scopes with
        | [] => w
        | s :: ss => { w with scopes := φ s :: ss } : Resolving PUnit)
      (modify fun w => match w.scopes with
        | [] => w
        | s :: ss => { w with scopes := φ' s :: ss } : Resolving PUnit) := by
  refine .change fun w w' hw => ?_
  have hs := hw.scopes
  generalize hss : w.scopes = ss at hs
  generalize hss' : w'.scopes = ss' at hs
  cases hs with
  | nil => exact hw
  | cons hs hrest => exact { hw with scopes := .cons (h _ _ hs) hrest }

/-- A local is changed on both sides if what it becomes is elsewhere. -/
theorem changeLocal (name : String) {f : Local → Local}
    (hf : ∀ l l', l.Elsewhere R l' → (f l).Elsewhere R (f l')) :
    Abreast R free any (changeLocal name f) (changeLocal name f) :=
  .changeScope fun _ _ hs => hs.change name hf

/-! ### Names -/

/-- A free walk has nothing to say about a global name, which the other may report. -/
theorem declareGlobal {n n' : Name} (hn : n.Elsewhere R n') :
    Abreast R free any (declareGlobal n) (declareGlobal n') := by
  intro w w' hw
  refine ⟨trivial, ?_⟩
  rw [declareGlobal_apply, declareGlobal_apply, hw.allow, hn.text]
  cases free with
  | true =>
    simp only [Bool.true_or, if_true]
    split
    · exact hw
    · cases w.globals.find? n.text with
      | some first =>
        refine { hw with problems := ?_ }
        simpa [Scoping.report, ScopeProblem.reported, ScopeProblem.redeclares] using hw.problems
      | none => exact { hw with globals := fun hf => by cases hf }
  | false =>
    rw [Bool.false_or]
    split
    · exact hw
    · have hg := hw.globals rfl n.text
      generalize w.globals.find? n.text = o at hg ⊢
      generalize w'.globals.find? n.text = o' at hg ⊢
      cases hg with
      | some hp =>
        refine { hw with problems := ?_ }
        have hold := hw.problems
        simp only [Scoping.report, modify_apply, Array.toList_push, List.filter_append]
        exact List.rel_append hold (.cons ⟨hn.place, .declaredAt n.text hp⟩ .nil)
      | none =>
        refine { hw with globals := fun hf x => ?_, allow := (Bool.false_or _).symm }
        dsimp only [set_apply]
        rw [Bindings.find?_insert, Bindings.find?_insert]
        split
        · exact .some hn.place
        · exact hw.globals hf x

theorem declare {n n' : Name} (hn : n.Elsewhere R n') :
    Abreast R free any (declare n) (declare n') := by
  refine .get fun w w' hw => ?_
  have hs := hw.scopes
  rw [hn.text]
  generalize w.scopes = ss at hs ⊢
  generalize w'.scopes = ss' at hs ⊢
  cases hs with
  | nil => exact .declareGlobal hn
  | cons hs hrest =>
    dsimp only
    rw [hs.has]
    split
    · exact .report hn.place rfl
    · exact fun v v' hv => ⟨trivial,
        { hw with scopes := .cons (hs.insert _ ⟨hn.place, rfl, rfl, rfl⟩) hrest }⟩

theorem define {n n' : Name} (hn : n.Elsewhere R n') :
    Abreast R free any (define n) (define n') := by
  unfold Scoping.define
  rw [hn.text]
  exact .changeLocal _ fun _ _ hl => { hl with defined := rfl }

theorem declareParam {n n' : Name} (hn : n.Elsewhere R n') :
    Abreast R free any (declareParam n) (declareParam n') := by
  unfold Scoping.declareParam
  refine (declare hn).bind fun _ _ _ => (define hn).bind fun _ _ _ => ?_
  rw [hn.text]
  exact .changeLocal _ fun _ _ hl => { hl with tracked := rfl }

theorem declareBuiltin (name : String) {p p' : Place} (hp : R p p') :
    Abreast R free any (declareBuiltin name p) (declareBuiltin name p') :=
  .changeScope fun _ _ hs => hs.insert name ⟨hp, rfl, rfl, rfl⟩

theorem distance?_alike {ss ss' : List (Bindings Local)}
    (h : List.Forall₂ (Bindings.Alike (Local.Elsewhere R)) ss ss') (name : String) :
    distance? ss' name = distance? ss name := by
  unfold distance?
  induction h with
  | nil => rfl
  | cons hs _ ih => rw [List.findIdx?_cons, List.findIdx?_cons, hs.has, ih]

theorem use (name : String) (reads : Bool) :
    Abreast R free (fun d d' => d' = d) (use name reads) (use name reads) := by
  refine .get fun w w' hw => ?_
  rw [distance?_alike hw.scopes]
  cases distance? w.scopes name with
  | none => exact .pure rfl
  | some d =>
    cases reads with
    | false => exact .pure rfl
    | true =>
      refine fun v v' _ => ⟨rfl, { hw with scopes := ?_ }⟩
      refine forall₂_modify (fun _ _ hs => ?_) hw.scopes d
      exact hs.change name fun _ _ hl => { hl with read := rfl }

theorem awaitsValue (name : String) :
    Abreast R free (fun b b' => b' = b) (awaitsValue name) (awaitsValue name) := by
  refine .get fun w w' hw => ?_
  have hs := hw.scopes
  generalize w.scopes = ss at hs ⊢
  generalize w'.scopes = ss' at hs ⊢
  cases hs with
  | nil => exact .pure rfl
  | @cons s s' _ _ hs _ =>
    refine .pure ?_
    have hf := hs.find? name
    generalize s.find? name = o at hf ⊢
    generalize s'.find? name = o' at hf ⊢
    cases hf with
    | none => rfl
    | some hl => exact congrArg (!·) hl.defined

theorem reference {r r' : Reference} (hr : r.Elsewhere R r') :
    Abreast R free (Reference.Elsewhere R) r.resolve r'.resolve := by
  unfold Reference.resolve
  rw [hr.name.text]
  refine (awaitsValue r.name.text).bind fun b b' hb => ?_
  subst hb
  exact .reportIf b' hr.name.place rfl <|
    (use r.name.text true).bind fun d d' hd => .pure ⟨hd, hr.name⟩

/-! ### Surroundings -/

theorem setFunction (kind : FunctionKind) :
    Abreast R free any (modify fun w => { w with function := kind } : Resolving PUnit)
      (modify fun w => { w with function := kind } : Resolving PUnit) :=
  .change fun _ _ hw => { hw with function := rfl }

theorem inFunction (kind : FunctionKind) (h : Abreast R free post x x') :
    Abreast R free post (inFunction kind x) (inFunction kind x') := by
  refine .get fun w w' hw => ?_
  rw [hw.function]
  exact (setFunction kind).bind fun _ _ _ => h.bind fun _ _ hp =>
    (setFunction w.function).bind fun _ _ _ => .pure hp

theorem enterClass (kind : ClassKind) :
    Abreast R free any (enterClass kind) (enterClass kind) :=
  .change fun _ _ hw => { hw with classKind := rfl }

/-- What a function has in common with a lambda. -/
theorem function (hR : Place.OrdersAlike R) (kind : FunctionKind) {ps ps' : List Name}
    (hp : Name.AllElsewhere R ps ps') (h : Abreast R free post x x') :
    Abreast R free post
      (Scoping.inFunction kind <| Scoping.inScope do
        ps.forM Scoping.declareParam
        x)
      (Scoping.inFunction kind <| Scoping.inScope do
        ps'.forM Scoping.declareParam
        x') := by
  have hparams : Abreast R free any (ps.forM Scoping.declareParam)
      (ps'.forM Scoping.declareParam) := forM (fun _ _ hn => declareParam hn) hp
  exact inFunction kind (inScope hR (hparams.bind fun _ _ _ => h))

end

end Scoping.Abreast

/-! ## Trees -/

theorem Function.Elsewhere.methodKind {f f' : Function} (h : f.Elsewhere R f') :
    f'.methodKind = f.methodKind := by
  cases h with
  | mk hn _ _ =>
    exact congrArg (fun x => if x == "init" then FunctionKind.initializer else .method) hn.text

section
variable {free : Bool}

mutual

/-- The walks over an expression and over the same expression elsewhere keep abreast. -/
theorem Expr.abreast (hR : Place.OrdersAlike R) : ∀ {e e' : Expr}, e.Elsewhere R e' →
    Abreast R free (Expr.Elsewhere R) e.resolve e'.resolve
  | .literal .., _, .literal value hp => .pure (.literal value hp)
  | .group .., _, .group h hp => (Expr.abreast hR h).bind fun _ _ h => .pure (.group h hp)
  | .unary .., _, .unary h hp => (Expr.abreast hR h).bind fun _ _ h => .pure (.unary h hp)
  | .binary .., _, .binary hl hr hp =>
    (Expr.abreast hR hl).bind fun _ _ hl => (Expr.abreast hR hr).bind fun _ _ hr =>
      .pure (.binary hl hr hp)
  | .sequence .., _, .sequence hs hp =>
    (Expr.allAbreast hR hs).bind fun _ _ hs => .pure (.sequence hs hp)
  | .read _, _, .read hr => (Abreast.reference hr).bind fun _ _ hr => .pure (.read hr)
  | .assign r _, _, .assign hr h => by
    unfold Expr.resolve
    rw [hr.name.text]
    exact (Expr.abreast hR h).bind fun _ _ h => (Abreast.use r.name.text false).bind fun _ _ hd =>
      .pure (.assign ⟨hd, hr.name⟩ h)
  | .call .., _, .call hf hs hp =>
    (Expr.abreast hR hf).bind fun _ _ hf => (Expr.allAbreast hR hs).bind fun _ _ hs =>
      .pure (.call hf hs hp)
  | .lambda .., _, .lambda hn hs hp =>
    (Abreast.function hR .function hn (Stmt.allAbreast hR hs)).bind fun _ _ hs =>
      .pure (.lambda hn hs hp)
  | .get .., _, .get h hn => (Expr.abreast hR h).bind fun _ _ h => .pure (.get h hn)
  | .set .., _, .set h hn hv =>
    (Expr.abreast hR h).bind fun _ _ h => (Expr.abreast hR hv).bind fun _ _ hv =>
      .pure (.set h hn hv)
  | .this .., _, .this depth hp => by
    refine .get fun w w' hw => ?_
    rw [hw.classKind]
    cases w.classKind with
    | outside => exact (Abreast.report hp rfl).bind fun _ _ _ => .pure (.this depth hp)
    | plain | derived => exact (Abreast.use _ _).bind fun d d' hd => .pure (hd ▸ .this d hp)
  | .super .., _, .super hn depth hp => by
    refine .get fun w w' hw => ?_
    rw [hw.classKind]
    cases w.classKind with
    | outside | plain =>
      exact (Abreast.report hp rfl).bind fun _ _ _ => .pure (.super hn depth hp)
    | derived => exact (Abreast.use _ _).bind fun d d' hd => .pure (hd ▸ .super hn d hp)
termination_by structural x => x

theorem Expr.allAbreast (hR : Place.OrdersAlike R) :
    ∀ {es es' : List Expr}, Expr.AllElsewhere R es es' →
    Abreast R free (Expr.AllElsewhere R) (Expr.resolveAll es) (Expr.resolveAll es')
  | [], _, .nil => .pure .nil
  | _ :: _, _, .cons h hs =>
    (Expr.abreast hR h).bind fun _ _ h => (Expr.allAbreast hR hs).bind fun _ _ hs =>
      .pure (.cons h hs)
termination_by structural x => x

theorem Stmt.abreast (hR : Place.OrdersAlike R) : ∀ {s s' : Stmt}, s.Elsewhere R s' →
    Abreast R free (Stmt.Elsewhere R) s.resolve s'.resolve
  | .expression _, _, .expression h =>
    (Expr.abreast hR h).bind fun _ _ h => .pure (.expression h)
  | .print .., _, .print h hp => (Expr.abreast hR h).bind fun _ _ h => .pure (.print h hp)
  | .declare _ none, _, .declare hn =>
    (Abreast.declare hn).bind fun _ _ _ => (Abreast.define hn).bind fun _ _ _ =>
      .pure (.declare hn)
  | .declare _ (some _), _, .declareWith hn h =>
    (Abreast.declare hn).bind fun _ _ _ => (Expr.abreast hR h).bind fun _ _ h =>
      (Abreast.define hn).bind fun _ _ _ => .pure (.declareWith hn h)
  | .block .., _, .block hs hp =>
    (Abreast.inScope hR (Stmt.allAbreast hR hs)).bind fun _ _ hs => .pure (.block hs hp)
  | .branch _ _ none _, _, .branch h hs hp =>
    (Expr.abreast hR h).bind fun _ _ h => (Stmt.abreast hR hs).bind fun _ _ hs =>
      .pure (.branch h hs hp)
  | .branch _ _ (some _) _, _, .branchElse h hs ht hp =>
    (Expr.abreast hR h).bind fun _ _ h => (Stmt.abreast hR hs).bind fun _ _ hs =>
      (Stmt.abreast hR ht).bind fun _ _ ht => .pure (.branchElse h hs ht hp)
  | .loop .., _, .loop h hs hp =>
    (Expr.abreast hR h).bind fun _ _ h => (Stmt.abreast hR hs).bind fun _ _ hs =>
      .pure (.loop h hs hp)
  | .breakOut _, _, .breakOut hp => .pure (.breakOut hp)
  | .function (.mk ..), _, .function (.mk hn hp hs) =>
    (Abreast.declare hn).bind fun _ _ _ => (Abreast.define hn).bind fun _ _ _ =>
      (Function.abreast hR .function (.mk hn hp hs)).bind fun _ _ hf => .pure (.function hf)
  | .returnWith none _, _, .returnNil hp => by
    refine .get fun w w' hw => ?_
    rw [hw.function]
    exact .reportIf _ hp rfl (.pure (.returnNil hp))
  | .returnWith (some _) _, _, .returnWith h hp => by
    refine .get fun w w' hw => ?_
    rw [hw.function]
    refine .reportIf _ hp rfl (.get fun v v' hv => ?_)
    rw [hv.function]
    exact .reportIf _ hp rfl ((Expr.abreast hR h).bind fun _ _ h => .pure (.returnWith h hp))
  | .classDecl _ none _, _, .plainClass hn hs => by
    refine .get fun w w' hw => ?_
    rw [hw.classKind]
    exact (Abreast.enterClass .plain).bind fun _ _ _ => (Abreast.declare hn).bind fun _ _ _ =>
      (Abreast.define hn).bind fun _ _ _ =>
      (Abreast.inScope hR ((Abreast.declareBuiltin "this" hn.place).bind fun _ _ _ =>
        Function.allAbreast hR hs)).bind fun _ _ hs =>
      (Abreast.enterClass _).bind fun _ _ _ => .pure (.plainClass hn hs)
  | .classDecl _ (some _) _, _, .subclass hn hr hs => by
    refine .get fun w w' hw => ?_
    rw [hw.classKind, hr.name.text, hn.text]
    exact (Abreast.enterClass .derived).bind fun _ _ _ => (Abreast.declare hn).bind fun _ _ _ =>
      (Abreast.define hn).bind fun _ _ _ => .reportIf _ hr.name.place rfl <|
      (Abreast.reference hr).bind fun _ _ hr =>
      (Abreast.inScope hR ((Abreast.declareBuiltin "super" hn.place).bind fun _ _ _ =>
        Abreast.inScope hR ((Abreast.declareBuiltin "this" hn.place).bind fun _ _ _ =>
          Function.allAbreast hR hs))).bind fun _ _ hs =>
      (Abreast.enterClass _).bind fun _ _ _ => .pure (.subclass hn hr hs)
termination_by structural x => x

theorem Stmt.allAbreast (hR : Place.OrdersAlike R) :
    ∀ {ss ss' : List Stmt}, Stmt.AllElsewhere R ss ss' →
    Abreast R free (Stmt.AllElsewhere R) (Stmt.resolveAll ss) (Stmt.resolveAll ss')
  | [], _, .nil => .pure .nil
  | _ :: _, _, .cons h hs =>
    (Stmt.abreast hR h).bind fun _ _ h => (Stmt.allAbreast hR hs).bind fun _ _ hs =>
      .pure (.cons h hs)
termination_by structural x => x

theorem Function.abreast (hR : Place.OrdersAlike R) (kind : FunctionKind) :
    ∀ {f f' : Function}, f.Elsewhere R f' →
    Abreast R free (Function.Elsewhere R) (f.resolve kind) (f'.resolve kind)
  | .mk .., _, .mk hn hp hs =>
    (Abreast.function hR kind hp (Stmt.allAbreast hR hs)).bind fun _ _ hs => .pure (.mk hn hp hs)
termination_by structural x => x

theorem Function.allAbreast (hR : Place.OrdersAlike R) :
    ∀ {fs fs' : List Function}, Function.AllElsewhere R fs fs' →
    Abreast R free (Function.AllElsewhere R) (Function.resolveAll fs) (Function.resolveAll fs')
  | [], _, .nil => .pure .nil
  | _ :: _, _, .cons h hs => by
    unfold Function.resolveAll
    rw [h.methodKind]
    exact (Function.abreast hR _ h).bind fun _ _ h => (Function.allAbreast hR hs).bind fun _ _ hs =>
      .pure (.cons h hs)
termination_by structural x => x

end

end

/-! ## Programs -/

/-- The same outcome elsewhere, where a free one lacks some reports. -/
structure Resolved.Elsewhere {α : Type} (R : Place → Place → Prop) (free : Bool)
    (P : α → α → Prop) (r r' : Resolved α) : Prop where
  tree : P r.tree r'.tree
  problems : List.Forall₂ (Placed.Elsewhere R (ScopeProblem.Elsewhere R))
    (r.problems.filter (·.value.reported free)) r'.problems
  unread : List.Forall₂ (Name.Elsewhere R) r.unread r'.unread

theorem Scoping.Abreast.ofWalk {α : Type} {free : Bool} {P : α → α → Prop} {x x' : Resolving α}
    (h : Abreast R free P x x') (allow : Bool) :
    (Resolved.ofWalk allow x).Elsewhere R free P (Resolved.ofWalk (free || allow) x') := by
  obtain ⟨htree, hw⟩ := h (Walk.start allow) (Walk.start (free || allow))
    ⟨.nil, rfl, fun _ _ => .none, rfl, rfl, .nil, .nil⟩
  exact ⟨htree, hw.problems, hw.unread⟩

/-- **A program is resolved elsewhere as it is here.** -/
theorem Resolved.program_elsewhere (hR : Place.OrdersAlike R) {ss ss' : List Stmt}
    (h : Stmt.AllElsewhere R ss ss') (free allow : Bool) :
    (program allow ss).Elsewhere R free (Stmt.AllElsewhere R) (program (free || allow) ss') :=
  (Stmt.allAbreast hR h).ofWalk allow

/-- An expression is resolved elsewhere as it is here. -/
theorem Resolved.expression_elsewhere (hR : Place.OrdersAlike R) {e e' : Expr}
    (h : e.Elsewhere R e') (free allow : Bool) :
    (expression allow e).Elsewhere R free (Expr.Elsewhere R) (expression (free || allow) e') :=
  (Expr.abreast hR h).ofWalk allow

end LoxLang
