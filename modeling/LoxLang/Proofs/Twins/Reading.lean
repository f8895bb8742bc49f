import LoxLang.Proofs.Grammar.Reads
import LoxLang.Proofs.Twins.Tree
import LoxLang.Tree.Reading

/-!
# Tokens and the same tokens elsewhere

Readers look at kinds and texts of tokens and pass their places on. So two lists of the same
tokens, each with places of its own, are read as one tree and the same tree elsewhere, and what
does not fit is the same in both (`Program.ofTokens_elsewhere`). Readers go `Abreast` if they do
this: each reader is built of laws of the relation, in the order of the grammar.
-/

namespace LoxLang

/-! ## Lists -/

theorem forall₂_head? {α : Type} {P : α → α → Prop} {l l' : List α} (h : List.Forall₂ P l l') :
    Option.Rel P l.head? l'.head? := by
  cases h with
  | nil => exact .none
  | cons ha _ => exact .some ha

theorem forall₂_tail {α : Type} {P : α → α → Prop} {l l' : List α} (h : List.Forall₂ P l l') :
    List.Forall₂ P l.tail l'.tail := by
  cases h with
  | nil => exact .nil
  | cons _ hl => exact hl

/-! ## Tokens, misfits, cursors -/

section
variable (R : Place → Place → Prop)

structure Token.Elsewhere (t t' : Token) : Prop where
  kind : t'.kind = t.kind
  lexeme : t'.lexeme = t.lexeme
  place : R t.place t'.place

/-- The same complaint, about the same token elsewhere. -/
structure Misfit.Elsewhere (m m' : Misfit) : Prop where
  complaint : m'.complaint = m.complaint
  found : Option.Rel (Token.Elsewhere R) m.found m'.found

/-- The same is left to read elsewhere, after the same misfits. -/
structure Cursor.Elsewhere (c c' : Cursor) : Prop where
  rest : List.Forall₂ (Token.Elsewhere R) c.rest c'.rest
  misfits : List.Forall₂ (Misfit.Elsewhere R) c.misfits.toList c'.misfits.toList

end

variable {R : Place → Place → Prop}

namespace Token.Elsewhere

variable {t t' : Token} (h : t.Elsewhere R t')
include h

theorem isMark (m : Mark) : t'.isMark m = t.isMark m := by
  unfold Token.isMark
  rw [h.kind]

theorem isIdentifier : t'.isIdentifier = t.isIdentifier := by
  unfold Token.isIdentifier
  rw [h.kind]

theorem isFinish : t'.isFinish = t.isFinish := by
  unfold Token.isFinish
  rw [h.kind]

theorem opensStatement : t'.opensStatement = t.opensStatement := by
  unfold Token.opensStatement
  rw [h.kind]

theorem name : t.name.Elsewhere R t'.name := ⟨h.lexeme, h.place⟩

end Token.Elsewhere

/-- A name elsewhere makes a reference elsewhere. -/
theorem Name.Elsewhere.reference {n n' : Name} (h : n.Elsewhere R n') :
    n.reference.Elsewhere R n'.reference := ⟨rfl, h⟩

/-- A misfit elsewhere is reported in the same words. -/
theorem Misfit.Elsewhere.message {m m' : Misfit} (h : m.Elsewhere R m') :
    m'.message = m.message := by
  obtain ⟨found, complaint⟩ := m
  obtain ⟨found', complaint'⟩ := m'
  obtain ⟨rfl, hf⟩ := h
  cases hf with
  | none => rfl
  | some ht =>
    unfold Misfit.message
    dsimp only
    rw [ht.isFinish, ht.lexeme]

/-! ## Readers -/

namespace Phrase

variable {α β γ δ : Type}

/-- Two readings end alike: with related values, or with the same misfit. -/
inductive EndAbreast (R : Place → Place → Prop) (post : α → β → Prop) :
    EStateM.Result Misfit Cursor α → EStateM.Result Misfit Cursor β → Prop
  | ok {a : α} {b : β} {c c' : Cursor} (h : post a b) (hc : c.Elsewhere R c') :
    EndAbreast R post (.ok a c) (.ok b c')
  | error {m m' : Misfit} {c c' : Cursor} (hm : m.Elsewhere R m') (hc : c.Elsewhere R c') :
    EndAbreast R post (.error m c) (.error m' c')

/-- The readers read the same tokens elsewhere alike. -/
def Abreast (R : Place → Place → Prop) (post : α → β → Prop) (x : Phrase α) (x' : Phrase β) :
    Prop :=
  ∀ c c', c.Elsewhere R c' → EndAbreast R post (x c) (x' c')

namespace Abreast

variable {post : α → β → Prop} {mid : γ → δ → Prop} {x : Phrase α} {x' : Phrase β}
  {y : Phrase γ} {y' : Phrase δ}

/-- Nothing is asked of the values. -/
abbrev any : α → β → Prop := fun _ _ => True

/-! ### Laws -/

/-- Results that go together go on together. -/
theorem pure {a : α} {b : β} (h : post a b) :
    Abreast R post (pure a : Phrase α) (pure b : Phrase β) := fun _ _ hc => .ok h hc

/-- Two phrases abreast may each be followed by phrases abreast. -/
theorem bind {k : γ → Phrase α} {k' : δ → Phrase β} (h : Abreast R mid y y')
    (hk : ∀ a b, mid a b → Abreast R post (k a) (k' b)) :
    Abreast R post (y >>= k) (y' >>= k') := by
  intro c c' hc
  have hy := h c c' hc
  rw [bind_apply, bind_apply]
  generalize y c = r at hy ⊢
  generalize y' c' = r' at hy ⊢
  cases hy with
  | ok ha hc => exact hk _ _ ha _ _ hc
  | error hm hc => exact .error hm hc

/-- The last step of a reader. -/
theorem give {f : γ → α} {f' : δ → β} (h : Abreast R mid y y')
    (hf : ∀ a b, mid a b → post (f a) (f' b)) :
    Abreast R post (y >>= fun a => Pure.pure (f a)) (y' >>= fun b => Pure.pure (f' b)) :=
  h.bind fun _ _ hab => .pure (hf _ _ hab)

/-- Phrases stay abreast when something is made of their results. -/
theorem map {f : γ → α} {f' : δ → β} (h : Abreast R mid y y')
    (hf : ∀ a b, mid a b → post (f a) (f' b)) : Abreast R post (f <$> y) (f' <$> y') := by
  intro c c' hc
  have hy := h c c' hc
  rw [map_apply, map_apply]
  generalize y c = r at hy ⊢
  generalize y' c' = r' at hy ⊢
  cases hy with
  | ok ha hc => exact .ok (hf _ _ ha) hc
  | error hm hc => exact .error hm hc

/-! ### Single tokens -/

theorem peek : Abreast R (Option.Rel (Token.Elsewhere R)) peek peek := fun _ _ hc =>
  .ok (forall₂_head? hc.rest) hc

theorem refuse (complaint : Complaint) :
    Abreast R post (refuse complaint) (refuse complaint) := fun _ _ hc =>
  .error ⟨rfl, (forall₂_head? hc.rest)⟩ hc

theorem skip : Abreast R any skip skip := fun _ _ hc =>
  .ok trivial { hc with rest := forall₂_tail hc.rest }

section
variable {test : Token → Bool} (htest : ∀ t t' : Token, t.Elsewhere R t' → test t' = test t)
include htest

theorem take? : Abreast R (Option.Rel (Token.Elsewhere R)) (take? test) (take? test) := by
  rintro ⟨ts, ms⟩ ⟨ts', ms'⟩ hc
  have hrest : List.Forall₂ (Token.Elsewhere R) ts ts' := hc.rest
  cases hrest with
  | nil => exact .ok .none hc
  | @cons t t' _ _ ht hts =>
    unfold Phrase.take?
    dsimp only
    rw [htest t t' ht]
    split
    · exact .ok (.some ht) { hc with rest := hts }
    · exact .ok .none hc

/-- A token that is asked for is taken on both sides or refused. -/
theorem expect (complaint : Complaint) :
    Abreast R (Token.Elsewhere R) (expect test complaint) (expect test complaint) := by
  rintro ⟨ts, ms⟩ ⟨ts', ms'⟩ hc
  have hrest : List.Forall₂ (Token.Elsewhere R) ts ts' := hc.rest
  cases hrest with
  | nil => exact .error ⟨rfl, .none⟩ hc
  | @cons t t' _ _ ht hts =>
    unfold Phrase.expect
    dsimp only
    rw [htest t t' ht]
    split
    · exact .ok ht { hc with rest := hts }
    · exact .error ⟨rfl, .some ht⟩ hc

end

theorem mark? (m : Mark) : Abreast R (Option.Rel R) (mark? m) (mark? m) :=
  (take? fun _ _ ht => ht.isMark m).give fun _ _ ho => by
    cases ho with
    | none => exact .none
    | some ht => exact .some ht.place

theorem mark (m : Mark) (complaint : Complaint) :
    Abreast R any (mark m complaint) (mark m complaint) :=
  (expect (fun _ _ ht => ht.isMark m) complaint).map fun _ _ _ => trivial

/-- A name that is asked for is taken on both sides or refused. -/
theorem identifier (complaint : Complaint) :
    Abreast R (Name.Elsewhere R) (identifier complaint) (identifier complaint) :=
  (expect (fun _ _ ht => ht.isIdentifier) complaint).give fun _ _ ht => ht.name

theorem atMark (m : Mark) : Abreast R (fun b b' => b' = b) (atMark m) (atMark m) :=
  peek.give fun _ _ ho => by
    cases ho with
    | none => rfl
    | some ht => exact ht.isMark m

/-- A mark decides how to go on. -/
theorem choose (m : Mark) {p : Place → Phrase α} {p' : Place → Phrase β}
    (hp : ∀ place place', R place place' → Abreast R post (p place) (p' place'))
    (hx : Abreast R post x x') :
    Abreast R post
      (Phrase.mark? m >>= fun o => match o with
        | some place => p place
        | _ => x)
      (Phrase.mark? m >>= fun o => match o with
        | some place => p' place
        | _ => x') :=
  (mark? m).bind fun _ _ ho => by
    cases ho with
    | none => exact hx
    | some h => exact hp _ _ h

/-- What follows a mark, if it comes next. -/
theorem follow (m : Mark) {p : Place → Phrase α} {p' : Place → Phrase β}
    (hp : ∀ place place', R place place' → Abreast R post (p place) (p' place'))
    (hx : Abreast R post x x') :
    Abreast R post
      (Phrase.mark? m >>= fun o => match o with
        | some place => p place
        | none => x)
      (Phrase.mark? m >>= fun o => match o with
        | some place => p' place
        | none => x') :=
  (mark? m).bind fun _ _ ho => by
    cases ho with
    | none => exact hx
    | some h => exact hp _ _ h

/-! ### Repetition -/

/-- Repetitions of steps abreast go abreast, with bounds of one length. -/
theorem manyUpTo {step : Phrase (Option γ)} {step' : Phrase (Option δ)}
    (h : Abreast R (Option.Rel mid) step step') {limit limit' : List Token}
    (hl : List.Forall₂ (Token.Elsewhere R) limit limit') :
    Abreast R (List.Forall₂ mid) (manyUpTo step limit) (manyUpTo step' limit') := by
  induction hl with
  | nil => exact .pure .nil
  | cons _ _ ih =>
    refine h.bind fun _ _ ho => ?_
    cases ho with
    | none => exact .pure .nil
    | some ha => exact ih.give fun _ _ has => .cons ha has

/-- Repetitions of steps abreast go abreast. -/
theorem many {step : Phrase (Option γ)} {step' : Phrase (Option δ)}
    (h : Abreast R (Option.Rel mid) step step') :
    Abreast R (List.Forall₂ mid) (many step) (many step') :=
  fun c c' hc => manyUpTo h hc.rest c c' hc

/-- What grows by steps abreast grows abreast, with bounds of one length. -/
theorem growUpTo {step : γ → Phrase (Option γ)} {step' : δ → Phrase (Option δ)}
    (h : ∀ a b, mid a b → Abreast R (Option.Rel mid) (step a) (step' b))
    {limit limit' : List Token} (hl : List.Forall₂ (Token.Elsewhere R) limit limit')
    {a : γ} {b : δ} (hab : mid a b) :
    Abreast R mid (growUpTo step limit a) (growUpTo step' limit' b) := by
  induction hl generalizing a b with
  | nil => exact .pure hab
  | cons _ _ ih =>
    refine (h a b hab).bind fun _ _ ho => ?_
    cases ho with
    | none => exact .pure hab
    | some hab => exact ih hab

/-- What grows by steps abreast grows abreast. -/
theorem grow {step : γ → Phrase (Option γ)} {step' : δ → Phrase (Option δ)}
    (h : ∀ a b, mid a b → Abreast R (Option.Rel mid) (step a) (step' b)) {a : γ} {b : δ}
    (hab : mid a b) : Abreast R mid (grow step a) (grow step' b) :=
  fun c c' hc => growUpTo h hc.rest hab c c' hc

/-- Lists of items abreast go abreast. -/
theorem commaList (h : Abreast R mid y y') (tooMany : Complaint) (room : Nat) :
    Abreast R (List.Forall₂ mid) (commaList y tooMany room) (commaList y' tooMany room) := by
  induction room with
  | zero => exact refuse tooMany
  | succ room ih =>
    refine h.bind fun _ _ ha => follow .comma (fun _ _ _ => ?_) ?_
    · exact ih.give fun _ _ has => List.Forall₂.cons ha has
    · exact .pure (.cons ha .nil)

/-! ### Recovery -/

/-- The tokens after which reading goes on are the same on both sides. -/
theorem boundary {last last' : Token} (hl : last.Elsewhere R last') {ts ts' : List Token}
    (hts : List.Forall₂ (Token.Elsewhere R) ts ts') :
    List.Forall₂ (Token.Elsewhere R) (boundary last ts) (boundary last' ts') := by
  induction hts generalizing last last' with
  | nil => exact .nil
  | @cons t t' _ _ ht hts ih =>
    unfold Phrase.boundary
    rw [hl.isMark, ht.opensStatement]
    split
    · exact .cons ht hts
    · exact ih ht

/-- Reading goes on at the same token on both sides. -/
theorem resume {ts ts' : List Token} (hts : List.Forall₂ (Token.Elsewhere R) ts ts') :
    List.Forall₂ (Token.Elsewhere R) (resume ts) (resume ts') := by
  cases hts with
  | nil => exact .nil
  | cons ht hts => exact boundary ht hts

theorem recovering (h : Abreast R post x x') :
    Abreast R (Option.Rel post) (recovering x) (recovering x') := by
  intro c c' hc
  have hx := h c c' hc
  unfold Phrase.recovering
  generalize x c = r at hx ⊢
  generalize x' c' = r' at hx ⊢
  cases hx with
  | ok ha hc => exact .ok (.some ha) hc
  | error hm hc =>
    refine .ok .none ⟨resume hc.rest, ?_⟩
    simp only [Array.toList_push]
    exact List.rel_append hc.misfits (.cons hm .nil)

end Abreast

end Phrase

/-! ## Trees -/

theorem Expr.allElsewhere_of_forall₂ {es es' : List Expr}
    (h : List.Forall₂ (Expr.Elsewhere R) es es') : Expr.AllElsewhere R es es' := by
  induction h with
  | nil => exact .nil
  | cons he _ ih => exact .cons he ih

/-- The statements that were read, without the gaps that misfits left. -/
theorem Stmt.allElsewhere_found {os os' : List (Option Stmt)}
    (h : List.Forall₂ (Option.Rel (Stmt.Elsewhere R)) os os') :
    Stmt.AllElsewhere R (os.filterMap id) (os'.filterMap id) := by
  induction h with
  | nil => exact .nil
  | cons ho _ ih =>
    cases ho with
    | none => exact ih
    | some hs => exact .cons hs ih

theorem Function.allElsewhere_of_forall₂ {fs fs' : List Function}
    (h : List.Forall₂ (Function.Elsewhere R) fs fs') : Function.AllElsewhere R fs fs' := by
  induction h with
  | nil => exact .nil
  | cons hf _ ih => exact .cons hf ih

section
variable {n n' : Name} {p p' : Place} {e e' : Option Expr} {s s' : Stmt}

/-- A declaration with a value or without is elsewhere if its parts are. -/
theorem Stmt.Elsewhere.declaring (hn : n.Elsewhere R n') (he : Option.Rel (Expr.Elsewhere R) e e') :
    (Stmt.declare n e).Elsewhere R (.declare n' e') := by
  cases he with
  | none => exact .declare hn
  | some he => exact .declareWith hn he

/-- A `return` with a value or without is elsewhere if its parts are. -/
theorem Stmt.Elsewhere.returning (he : Option.Rel (Expr.Elsewhere R) e e') (hp : R p p') :
    (Stmt.returnWith e p).Elsewhere R (.returnWith e' p') := by
  cases he with
  | none => exact .returnNil hp
  | some he => exact .returnWith he hp

/-- A loop is elsewhere if its parts are. -/
theorem Stmt.Elsewhere.forLoop (hp : R p p') {first first' : Option Stmt}
    (hf : Option.Rel (Stmt.Elsewhere R) first first') (ht : Option.Rel (Expr.Elsewhere R) e e')
    {step step' : Option Expr} (hstep : Option.Rel (Expr.Elsewhere R) step step')
    (hs : s.Elsewhere R s') :
    (Stmt.forLoop p first e step s).Elsewhere R (.forLoop p' first' e' step' s') := by
  have htest : (e.getD (.literal .yes p)).Elsewhere R (e'.getD (.literal .yes p')) := by
    cases ht with
    | none => exact .literal .yes hp
    | some he => exact he
  cases hstep with
  | none =>
    cases hf with
    | none => exact .loop htest hs hp
    | some hf => exact .block (.cons hf (.cons (.loop htest hs hp) .nil)) hp
  | some hstep =>
    have hbody := Stmt.Elsewhere.block (.cons hs (.cons (.expression hstep) .nil)) hp
    cases hf with
    | none => exact .loop htest hbody hp
    | some hf => exact .block (.cons hf (.cons (.loop htest hbody hp) .nil)) hp

end

/-! ## The grammar -/

/-- The readers for inner phrases read the same tokens elsewhere alike. -/
structure Inner.Elsewhere (R : Place → Place → Prop) (i : Inner) : Prop where
  declaration : Phrase.Abreast R (Option.Rel (Stmt.Elsewhere R)) i.declaration i.declaration
  statement : Phrase.Abreast R (Stmt.Elsewhere R) i.statement i.statement
  expression : Phrase.Abreast R (Expr.Elsewhere R) i.expression i.expression
  assignment : Phrase.Abreast R (Expr.Elsewhere R) i.assignment i.assignment
  unary : Phrase.Abreast R (Expr.Elsewhere R) i.unary i.unary

namespace Grammar

open Phrase (Abreast)
open Phrase.Abreast (choose follow)

section
variable {α : Type} {post : α → α → Prop}

/-! ### Parts of declarations -/

theorem abreast_inBody {x : Phrase α} (h : Abreast R post x x) :
    Abreast R (Option.Rel post) (inBody x) (inBody x) := by
  refine Phrase.Abreast.peek.bind fun _ _ ho => ?_
  cases ho with
  | none => exact .pure .none
  | some ht =>
    dsimp only
    rw [ht.isMark]
    split
    · exact .pure .none
    · exact h.give fun _ _ hab => .some hab

theorem abreast_params : Abreast R (Name.AllElsewhere R) params params := by
  have hlist : Abreast R (Name.AllElsewhere R) paramList paramList := by
    refine (Phrase.Abreast.atMark .rightParen).bind fun b b' hb => ?_
    subst hb
    split
    · exact .pure .nil
    · exact .commaList (.identifier .paramName) _ _
  exact hlist.bind fun _ _ hns => (Phrase.Abreast.mark _ _).give fun _ _ _ => hns

theorem abreast_operator? {ω : Type} (ops : List (Mark × ω)) :
    Abreast R (Option.Rel fun o o' => o'.1 = o.1 ∧ R o.2 o'.2) (operator? ops) (operator? ops) := by
  have hhit (t t' : Token) (ht : t.Elsewhere R t') :
      ops.find? (fun o => t'.isMark o.1) = ops.find? fun o => t.isMark o.1 := by
    congr 1
    funext o
    exact ht.isMark o.1
  refine (Phrase.Abreast.take? fun t t' ht => congrArg _ (hhit t t' ht)).bind fun _ _ ho => ?_
  · cases ho with
    | none => exact .pure .none
    | some ht =>
      refine .pure ?_
      dsimp only
      rw [hhit _ _ ht]
      cases ops.find? _ with
      | none => exact .none
      | some o => exact .some ⟨rfl, ht.place⟩

theorem abreast_superMethod {p p' : Place} (hp : R p p') :
    Abreast R (Expr.Elsewhere R) (superMethod p) (superMethod p') :=
  (Phrase.Abreast.mark _ _).bind fun _ _ _ =>
    (Phrase.Abreast.identifier _).give fun _ _ hn => .super hn none hp

theorem abreast_superclass? :
    Abreast R (Option.Rel (Reference.Elsewhere R)) superclass? superclass? :=
  follow .less
    (fun _ _ _ => (Phrase.Abreast.identifier _).give fun _ _ hn => .some hn.reference)
    (.pure .none)

theorem abreast_namedFunction? : Abreast R (fun b b' => b' = b) namedFunction? namedFunction? := by
  rintro ⟨ts, ms⟩ ⟨ts', ms'⟩ hc
  have hrest : List.Forall₂ (Token.Elsewhere R) ts ts' := hc.rest
  cases hrest with
  | nil => exact .ok rfl hc
  | cons ht hts =>
    cases hts with
    | nil => exact .ok rfl hc
    | cons hu hts =>
      unfold namedFunction?
      dsimp only
      rw [ht.isMark, hu.isIdentifier]
      split
      · exact .ok rfl { hc with rest := .cons hu hts }
      · exact .ok rfl hc

/-- Tokens that are an expression alone. -/
theorem atom?_elsewhere {t t' : Token} (h : t.Elsewhere R t') :
    Option.Rel (Expr.Elsewhere R) (atom? t) (atom? t') := by
  unfold atom?
  rw [h.kind]
  split
  · exact .some (.literal _ h.place)
  · exact .some (.literal _ h.place)
  · exact .some (.read h.name.reference)
  · exact .some (.literal _ h.place)
  · exact .some (.literal _ h.place)
  · exact .some (.literal _ h.place)
  · exact .some (.this none h.place)
  · exact .none

theorem assignTo?_elsewhere {value value' target target' : Expr}
    (hv : value.Elsewhere R value') (ht : target.Elsewhere R target') :
    Option.Rel (Expr.Elsewhere R) (assignTo? value target) (assignTo? value' target') := by
  cases ht with
  | read hr => exact .some (.assign hr.name.reference hv)
  | get ho hn => exact .some (.set ho hn hv)
  | _ => exact .none

end

section
variable {i : Inner} (hi : i.Elsewhere R)
include hi

theorem abreast_blockBody : Abreast R (Stmt.AllElsewhere R) (blockBody i) (blockBody i) :=
  (Phrase.Abreast.many (abreast_inBody hi.declaration)).bind fun _ _ hs =>
    (Phrase.Abreast.mark _ _).give fun _ _ _ => Stmt.allElsewhere_found hs

theorem abreast_function (word : FunctionWord) :
    Abreast R (Function.Elsewhere R) (function i word) (function i word) :=
  (Phrase.Abreast.identifier _).bind fun _ _ hn =>
    (Phrase.Abreast.mark _ _).bind fun _ _ _ =>
      abreast_params.bind fun _ _ hp =>
        (Phrase.Abreast.mark _ _).bind fun _ _ _ =>
          (abreast_blockBody hi).give fun _ _ hs => .mk hn hp hs

/-! ### Expressions -/

theorem abreast_lambda {p p' : Place} (hp : R p p') :
    Abreast R (Expr.Elsewhere R) (lambda i p) (lambda i p') :=
  (Phrase.Abreast.mark _ _).bind fun _ _ _ =>
    abreast_params.bind fun _ _ hn =>
      (Phrase.Abreast.mark _ _).bind fun _ _ _ =>
        (abreast_blockBody hi).give fun _ _ hs => .lambda hn hs hp

theorem abreast_group {p p' : Place} (hp : R p p') :
    Abreast R (Expr.Elsewhere R) (group i p) (group i p') :=
  hi.expression.bind fun _ _ he => (Phrase.Abreast.mark _ _).give fun _ _ _ => .group he hp

theorem abreast_primary : Abreast R (Expr.Elsewhere R) (primary i) (primary i) := by
  refine Phrase.Abreast.peek.bind fun o o' ho => ?_
  have hatom : Option.Rel (Expr.Elsewhere R) (o.bind atom?) (o'.bind atom?) := by
    cases ho with
    | none => exact .none
    | some ht => exact atom?_elsewhere ht
  generalize o.bind atom? = a at hatom ⊢
  generalize o'.bind atom? = a' at hatom ⊢
  cases hatom with
  | some he => exact Phrase.Abreast.skip.give fun _ _ _ => he
  | none =>
    refine choose .superWord (fun _ _ hp => abreast_superMethod hp) ?_
    refine choose .funWord (fun _ _ hp => abreast_lambda hi hp) ?_
    exact choose .leftParen (fun _ _ hp => abreast_group hi hp) (.refuse .expression)

theorem abreast_arguments : Abreast R (Expr.AllElsewhere R) (arguments i) (arguments i) := by
  have hlist : Abreast R (List.Forall₂ (Expr.Elsewhere R)) (argumentList i) (argumentList i) := by
    refine (Phrase.Abreast.atMark .rightParen).bind fun b b' hb => ?_
    subst hb
    split
    · exact .pure .nil
    · exact .commaList hi.assignment _ _
  exact hlist.bind fun _ _ hes =>
    (Phrase.Abreast.mark _ _).give fun _ _ _ => Expr.allElsewhere_of_forall₂ hes

theorem abreast_suffix? {e e' : Expr} (he : e.Elsewhere R e') :
    Abreast R (Option.Rel (Expr.Elsewhere R)) (suffix? i e) (suffix? i e') := by
  refine choose .leftParen (fun _ _ hp => ?_) (choose .dot (fun _ _ _ => ?_) (.pure .none))
  · exact (abreast_arguments hi).give fun _ _ hes => .some (.call he hes hp)
  · exact (Phrase.Abreast.identifier _).give fun _ _ hn => .some (.get he hn)

theorem abreast_call : Abreast R (Expr.Elsewhere R) (call i) (call i) :=
  (abreast_primary hi).bind fun _ _ he => .grow (fun _ _ he => abreast_suffix? hi he) he

theorem abreast_unary : Abreast R (Expr.Elsewhere R) (unary i) (unary i) := by
  refine (abreast_operator? unaryOperators).bind fun _ _ ho => ?_
  cases ho with
  | none => exact abreast_call hi
  | @some o o' ho =>
    obtain ⟨op, p⟩ := o
    obtain ⟨op', p'⟩ := o'
    obtain ⟨rfl, hp⟩ := ho
    exact hi.unary.give fun _ _ he => .unary he hp

omit hi in
theorem abreast_level {x : Phrase Expr} (h : Abreast R (Expr.Elsewhere R) x x)
    (ops : List (Mark × BinaryOp)) : Abreast R (Expr.Elsewhere R) (level ops x) (level ops x) := by
  refine h.bind fun _ _ he => .grow (fun _ _ hl => ?_) he
  refine (abreast_operator? ops).bind fun _ _ ho => ?_
  cases ho with
  | none => exact .pure .none
  | @some o o' ho =>
    obtain ⟨op, p⟩ := o
    obtain ⟨op', p'⟩ := o'
    obtain ⟨rfl, hp⟩ := ho
    exact h.give fun _ _ hr => .some (.binary hl hr hp)

theorem abreast_operators : Abreast R (Expr.Elsewhere R) (operators i) (operators i) := by
  unfold operators
  induction levels with
  | nil => exact abreast_unary hi
  | cons ops _ ih => exact abreast_level ih ops

theorem abreast_assignment : Abreast R (Expr.Elsewhere R) (assignment i) (assignment i) := by
  refine (abreast_operators hi).bind fun _ _ htarget => ?_
  refine (Phrase.Abreast.take? fun _ _ ht => ht.isMark .equal).bind fun _ _ ho => ?_
  cases ho with
  | none => exact .pure htarget
  | some hequals =>
    refine hi.assignment.bind fun _ _ hvalue => ?_
    have hassign := assignTo?_elsewhere hvalue htarget
    generalize assignTo? _ _ = a at hassign ⊢
    generalize assignTo? _ _ = a' at hassign ⊢
    cases hassign with
    | some he => exact .pure he
    | none => exact fun _ _ hc => .error ⟨rfl, .some hequals⟩ hc

theorem abreast_expression : Abreast R (Expr.Elsewhere R) (expression i) (expression i) := by
  refine (abreast_assignment hi).bind fun _ _ hfirst => ?_
  refine Phrase.Abreast.peek.bind fun o o' ho => ?_
  have hcomma : Option.Rel (Token.Elsewhere R) (o.filter (·.isMark .comma))
      (o'.filter (·.isMark .comma)) := by
    cases ho with
    | none => exact .none
    | some ht =>
      rw [Option.filter_some, Option.filter_some, ht.isMark]
      split
      · exact .some ht
      · exact .none
  generalize o.filter _ = a at hcomma ⊢
  generalize o'.filter _ = a' at hcomma ⊢
  cases hcomma with
  | none => exact .pure hfirst
  | some hcomma =>
    have hnext : Abreast R (Option.Rel (Expr.Elsewhere R)) (nextItem? i) (nextItem? i) :=
      follow .comma (fun _ _ _ => (abreast_assignment hi).give fun _ _ he => .some he)
        (.pure .none)
    exact (Phrase.Abreast.many hnext).give fun _ _ hothers =>
      .sequence (.cons hfirst (Expr.allElsewhere_of_forall₂ hothers)) hcomma.place

/-! ### Statements -/

theorem abreast_varDecl : Abreast R (Stmt.Elsewhere R) (varDecl i) (varDecl i) := by
  have hinitial :
      Abreast R (Option.Rel (Expr.Elsewhere R)) (initializer? i) (initializer? i) :=
    follow .equal (fun _ _ _ => (abreast_expression hi).map fun _ _ he => .some he) (.pure .none)
  exact (Phrase.Abreast.identifier _).bind fun _ _ hn =>
    hinitial.bind fun _ _ he => (Phrase.Abreast.mark _ _).give fun _ _ _ => .declaring hn he

theorem abreast_expressionUnless (m : Mark) :
    Abreast R (Option.Rel (Expr.Elsewhere R)) (expressionUnless i m) (expressionUnless i m) := by
  refine (Phrase.Abreast.atMark m).bind fun b b' hb => ?_
  subst hb
  split
  · exact .pure .none
  · exact (abreast_expression hi).map fun _ _ he => .some he

theorem abreast_expressionStatement :
    Abreast R (Stmt.Elsewhere R) (expressionStatement i) (expressionStatement i) :=
  (abreast_expression hi).bind fun _ _ he =>
    (Phrase.Abreast.mark _ _).give fun _ _ _ => .expression he

theorem abreast_forLoop {p p' : Place} (hp : R p p') :
    Abreast R (Stmt.Elsewhere R) (forLoop i p) (forLoop i p') := by
  have hstart : Abreast R (Option.Rel (Stmt.Elsewhere R)) (forStart i) (forStart i) := by
    refine choose .semicolon (fun _ _ _ => .pure .none) ?_
    refine choose .varWord (fun _ _ _ => (abreast_varDecl hi).map fun _ _ hs => .some hs) ?_
    exact (abreast_expressionStatement hi).map fun _ _ hs => .some hs
  exact (Phrase.Abreast.mark _ _).bind fun _ _ _ =>
    hstart.bind fun _ _ hfirst =>
      (abreast_expressionUnless hi _).bind fun _ _ htest =>
        (Phrase.Abreast.mark _ _).bind fun _ _ _ =>
          (abreast_expressionUnless hi _).bind fun _ _ hstep =>
            (Phrase.Abreast.mark _ _).bind fun _ _ _ =>
              hi.statement.give fun _ _ hbody => .forLoop hp hfirst htest hstep hbody

theorem abreast_condition (complaint : Complaint) :
    Abreast R (Expr.Elsewhere R) (condition i complaint) (condition i complaint) :=
  (Phrase.Abreast.mark _ _).bind fun _ _ _ =>
    (abreast_expression hi).bind fun _ _ he => (Phrase.Abreast.mark _ _).give fun _ _ _ => he

theorem abreast_branch {p p' : Place} (hp : R p p') :
    Abreast R (Stmt.Elsewhere R) (branch i p) (branch i p') := by
  have hno : Abreast R (Option.Rel (Stmt.Elsewhere R)) (otherwise? i) (otherwise? i) :=
    follow .elseWord (fun _ _ _ => hi.statement.map fun _ _ hs => .some hs) (.pure .none)
  refine (abreast_condition hi _).bind fun _ _ htest => hi.statement.bind fun _ _ hyes =>
    hno.give fun _ _ ho => ?_
  cases ho with
  | none => exact .branch htest hyes hp
  | some hs => exact .branchElse htest hyes hs hp

theorem abreast_whileLoop {p p' : Place} (hp : R p p') :
    Abreast R (Stmt.Elsewhere R) (whileLoop i p) (whileLoop i p') :=
  (abreast_condition hi _).bind fun _ _ htest => hi.statement.give fun _ _ hs => .loop htest hs hp

theorem abreast_returnWith {p p' : Place} (hp : R p p') :
    Abreast R (Stmt.Elsewhere R) (returnWith i p) (returnWith i p') :=
  (abreast_expressionUnless hi _).bind fun _ _ he =>
    (Phrase.Abreast.mark _ _).give fun _ _ _ => .returning he hp

theorem abreast_print {p p' : Place} (hp : R p p') :
    Abreast R (Stmt.Elsewhere R) (print i p) (print i p') :=
  (abreast_expression hi).bind fun _ _ he =>
    (Phrase.Abreast.mark _ _).give fun _ _ _ => .print he hp

theorem abreast_statement : Abreast R (Stmt.Elsewhere R) (statement i) (statement i) := by
  refine choose .forWord (fun _ _ hp => abreast_forLoop hi hp) ?_
  refine choose .ifWord (fun _ _ hp => abreast_branch hi hp) ?_
  refine choose .whileWord (fun _ _ hp => abreast_whileLoop hi hp) ?_
  refine choose .returnWord (fun _ _ hp => abreast_returnWith hi hp) ?_
  refine choose .breakWord
    (fun _ _ hp => (Phrase.Abreast.mark _ _).give fun _ _ _ => .breakOut hp) ?_
  refine choose .leftBrace
    (fun _ _ hp => (abreast_blockBody hi).give fun _ _ hs => .block hs hp) ?_
  refine choose .printWord (fun _ _ hp => abreast_print hi hp) ?_
  exact abreast_expressionStatement hi

/-! ### Declarations -/

theorem abreast_classDecl : Abreast R (Stmt.Elsewhere R) (classDecl i) (classDecl i) := by
  refine (Phrase.Abreast.identifier _).bind fun _ _ hn => abreast_superclass?.bind fun _ _ ho =>
    (Phrase.Abreast.mark _ _).bind fun _ _ _ =>
      (Phrase.Abreast.many (abreast_inBody (abreast_function hi .method))).bind fun _ _ hs =>
        (Phrase.Abreast.mark _ _).give fun _ _ _ => ?_
  cases ho with
  | none => exact .plainClass hn (Function.allElsewhere_of_forall₂ hs)
  | some hr => exact .subclass hn hr (Function.allElsewhere_of_forall₂ hs)

theorem abreast_declaration : Abreast R (Stmt.Elsewhere R) (declaration i) (declaration i) := by
  refine choose .classWord (fun _ _ _ => abreast_classDecl hi) ?_
  refine abreast_namedFunction?.bind fun b b' hb => ?_
  subst hb
  split
  · exact (abreast_function hi .function).give fun _ _ hf => .function hf
  · exact choose .varWord (fun _ _ _ => abreast_varDecl hi) (abreast_statement hi)

end

/-! ### Nesting -/

theorem inner_elsewhere (R : Place → Place → Prop) (depth : Nat) : (inner depth).Elsewhere R := by
  induction depth with
  | zero => exact ⟨.refuse _, .refuse _, .refuse _, .refuse _, .refuse _⟩
  | succ depth ih =>
    exact ⟨(abreast_declaration ih).recovering, abreast_statement ih, abreast_expression ih,
      abreast_assignment ih, abreast_unary ih⟩

end Grammar

/-! ## Programs and expressions -/

/-- The same tokens elsewhere end in the same way. -/
theorem Token.beforeFinish_elsewhere {ts ts' : List Token}
    (h : List.Forall₂ (Token.Elsewhere R) ts ts') :
    List.Forall₂ (Token.Elsewhere R) (beforeFinish ts).1 (beforeFinish ts').1 ∧
      Option.Rel (Token.Elsewhere R) (beforeFinish ts).2 (beforeFinish ts').2 := by
  have hlast : Option.Rel (Token.Elsewhere R) ts.getLast? ts'.getLast? := by
    rw [← List.head?_reverse, ← List.head?_reverse]
    exact forall₂_head? (List.rel_reverse h)
  unfold beforeFinish
  dsimp only
  generalize ts.getLast? = last at hlast ⊢
  generalize ts'.getLast? = last' at hlast ⊢
  induction h with
  | nil => exact ⟨.nil, hlast⟩
  | @cons t t' _ _ ht _ ih =>
    simp only [List.takeWhile_cons, List.find?_cons, ht.isFinish]
    cases t.isFinish with
    | true => exact ⟨.nil, .some ht⟩
    | false => exact ⟨.cons ht ih.1, ih.2⟩

/-- A misfit at the end of the tokens is elsewhere if the last tokens are. -/
theorem Misfit.Elsewhere.endingAt {m m' : Misfit} (h : m.Elsewhere R m') {last last' : Option Token}
    (hl : Option.Rel (Token.Elsewhere R) last last') :
    (m.endingAt last).Elsewhere R (m'.endingAt last') := by
  refine ⟨h.complaint, ?_⟩
  obtain ⟨found, _⟩ := m
  obtain ⟨found', _⟩ := m'
  have hf : Option.Rel (Token.Elsewhere R) found found' := h.found
  cases hf with
  | none => exact hl
  | some ht => exact .some ht

theorem Program.abreast_declarations (depth : Nat) :
    Phrase.Abreast R (Stmt.AllElsewhere R) (declarations depth) (declarations depth) := by
  refine (Phrase.Abreast.many ?_).give fun _ _ hs => Stmt.allElsewhere_found hs
  refine Phrase.Abreast.peek.bind fun _ _ ho => ?_
  cases ho with
  | none => exact .pure .none
  | some _ => exact (Grammar.inner_elsewhere R depth).declaration.give fun _ _ hs => .some hs

theorem Expr.abreast_whole (depth : Nat) :
    Phrase.Abreast R (Expr.Elsewhere R) (whole depth) (whole depth) := by
  refine (Grammar.inner_elsewhere R depth).expression.bind fun _ _ he =>
    Phrase.Abreast.peek.bind fun _ _ ho => ?_
  cases ho with
  | none => exact .pure he
  | some _ => exact .refuse .nothingMore

/-- **The same tokens elsewhere are the same program elsewhere**, and what does not fit in them is
the same. -/
theorem Program.ofTokens_elsewhere {ts ts' : List Token}
    (h : List.Forall₂ (Token.Elsewhere R) ts ts') :
    Stmt.AllElsewhere R (ofTokens ts).statements (ofTokens ts').statements ∧
      List.Forall₂ (Misfit.Elsewhere R) (ofTokens ts).misfits (ofTokens ts').misfits := by
  obtain ⟨hbody, hlast⟩ := Token.beforeFinish_elsewhere h
  unfold ofTokens
  generalize Token.beforeFinish ts = b at hbody hlast ⊢
  generalize Token.beforeFinish ts' = b' at hbody hlast ⊢
  obtain ⟨body, last⟩ := b
  obtain ⟨body', last'⟩ := b'
  have hends := abreast_declarations (R := R) (body.length + 1) ⟨body, #[]⟩ ⟨body', #[]⟩
    ⟨hbody, .nil⟩
  have hmisfits {ms ms' : List Misfit} (hms : List.Forall₂ (Misfit.Elsewhere R) ms ms') :
      List.Forall₂ (Misfit.Elsewhere R) (ms.map (·.endingAt last))
        (ms'.map (·.endingAt last')) := by
    rw [List.forall₂_map_left_iff, List.forall₂_map_right_iff]
    exact hms.imp fun _ _ hm => hm.endingAt hlast
  dsimp only
  rw [← hbody.length_eq]
  generalize declarations _ _ = r at hends ⊢
  generalize declarations _ _ = r' at hends ⊢
  cases hends with
  | ok hs hc => exact ⟨hs, hmisfits hc.misfits⟩
  | error hm hc =>
    simp only [Array.toList_push]
    exact ⟨.nil, hmisfits (List.rel_append hc.misfits (.cons hm .nil))⟩

/-- The same tokens elsewhere are the same expression elsewhere, or the same does not fit. -/
theorem Expr.ofTokens_elsewhere {ts ts' : List Token}
    (h : List.Forall₂ (Token.Elsewhere R) ts ts') :
    (∃ e e', ofTokens ts = .ok e ∧ ofTokens ts' = .ok e' ∧ e.Elsewhere R e') ∨
      ∃ m m', ofTokens ts = .error m ∧ ofTokens ts' = .error m' ∧ m.Elsewhere R m' := by
  obtain ⟨hbody, hlast⟩ := Token.beforeFinish_elsewhere h
  unfold ofTokens
  generalize Token.beforeFinish ts = b at hbody hlast ⊢
  generalize Token.beforeFinish ts' = b' at hbody hlast ⊢
  obtain ⟨body, last⟩ := b
  obtain ⟨body', last'⟩ := b'
  have hends := abreast_whole (R := R) (body.length + 1) ⟨body, #[]⟩ ⟨body', #[]⟩ ⟨hbody, .nil⟩
  dsimp only
  rw [← hbody.length_eq]
  generalize whole _ _ = r at hends ⊢
  generalize whole _ _ = r' at hends ⊢
  cases hends with
  | ok he _ => exact .inl ⟨_, _, rfl, rfl, he⟩
  | error hm _ => exact .inr ⟨_, _, rfl, rfl, hm.endingAt hlast⟩

end LoxLang
