import LoxLang.Proofs.Grammar.Sound
import LoxLang.Proofs.Grammar.Takes

/-!
# Up to the next semicolon

Where neither a brace nor a `for` comes before the next semicolon, a declaration ends just
behind that semicolon or is refused at a token up to it, with the semicolon still to come.
`Stretch.Holds` says so of readers, as a triple whose errors have a postcondition of their
own; each rule of the grammar has a lemma, given those of the readers of nested phrases.
Recovery then goes on behind the semicolon, whichever token was refused.
-/

namespace LoxLang

open Phrase Grammar

/-- Tokens up to a semicolon, with no `for` and no opening brace among them, and what is
behind: no `else`. The misfits are those met on the way there. -/
structure Stretch where
  front : List Token
  stop : Token
  rest : List Token
  misfits : Array Misfit
  isMark_front : ∀ t ∈ front, ∀ m ∈ [Mark.semicolon, .leftBrace, .forWord], t.isMark m = false
  isMark_stop : stop.isMark .semicolon
  elseNext_rest : elseNext rest = false

namespace Stretch

variable {α β : Type} {s : Stretch} {c : Cursor} {t : Token} {m : Mark}

/-- The semicolon is still to come. -/
def Ahead (s : Stretch) (c : Cursor) : Prop :=
  ∃ us, us <:+ s.front ∧ c = ⟨us ++ s.stop :: s.rest, s.misfits⟩

/-- The semicolon has just been taken. -/
def Behind (s : Stretch) (c : Cursor) : Prop := c = ⟨s.rest, s.misfits⟩

/-- The misfit was found at a token of the stretch. -/
def Found (s : Stretch) (m : Misfit) : Prop := ∃ t ∈ s.front ++ [s.stop], m.found = some t

theorem isMark_semicolon (ht : t ∈ s.front) : t.isMark .semicolon = false :=
  s.isMark_front t ht _ (by simp)

/-- The next token is one of the front, or the front is used up. -/
theorem Ahead.next (h : s.Ahead c) :
    (∃ t us, t ∈ s.front ∧ c = ⟨t :: us, s.misfits⟩ ∧ s.Ahead ⟨us, s.misfits⟩) ∨
      c = ⟨s.stop :: s.rest, s.misfits⟩ := by
  obtain ⟨us, hus, rfl⟩ := h
  cases us with
  | nil => exact .inr rfl
  | cons t us =>
    exact .inl ⟨t, _, hus.subset (by simp), rfl, us, (List.suffix_cons t us).trans hus, rfl⟩

/-- A loop with three clauses, or a body in braces, does not begin here. -/
theorem Ahead.head_ne (h : s.Ahead c) (hm : m ∈ [Mark.leftBrace, .forWord]) :
    c.rest.head?.any (·.isMark m) = false := by
  obtain ⟨t, us, ht, rfl, -⟩ | rfl := h.next
  · exact s.isMark_front t ht m (List.mem_cons_of_mem _ hm)
  · have hne : Mark.semicolon ≠ m := by rintro rfl; simp at hm
    simpa [Token.isMark_eq_decide s.isMark_stop] using hne

/-! ## Triples -/

/-- From where `P` holds the reader comes to where `Q` holds of what it gives, or it is
refused at a token of the stretch while the semicolon is still to come. -/
def Holds (s : Stretch) (P : Cursor → Prop) (p : Phrase α) (Q : α → Cursor → Prop) : Prop :=
  ∀ c, P c → match p c with
    | .ok a d => Q a d
    | .error m d => s.Found m ∧ s.Ahead d

/-- The reader stops ahead of the semicolon. -/
abbrev Stays (s : Stretch) (p : Phrase α) : Prop := s.Holds s.Ahead p fun _ => s.Ahead

/-- The reader stops behind the semicolon. -/
abbrev Closes (s : Stretch) (p : Phrase α) : Prop := s.Holds s.Ahead p fun _ => s.Behind

section Triples

variable {P P' : Cursor → Prop} {p : Phrase α} {Q Q' : α → Cursor → Prop}

theorem Holds.weaken (h : s.Holds P p Q) (hP : ∀ c, P' c → P c) : s.Holds P' p Q :=
  fun c hc => h c (hP c hc)

/-- What holds behind a phrase may be weakened. -/
theorem Holds.mono (h : s.Holds P p Q) (hQ : ∀ a c, Q a c → Q' a c) : s.Holds P p Q' := by
  intro c hc
  have hp := h c hc
  cases he : p c with
  | ok a d => rw [he] at hp; exact hQ a d hp
  | error m d => rw [he] at hp; exact hp

/-- Where nothing is read there holds what held before. -/
theorem Holds.pure {a : α} (h : ∀ c, P c → Q a c) : s.Holds P (Pure.pure a) Q := h

/-- Nothing is read any more. -/
theorem Holds.done {a : α} : s.Holds P (Pure.pure a) fun _ => P := fun _ hc => hc

/-- What holds behind one phrase is what the next one starts from. -/
theorem Holds.bind {f : α → Phrase β} {R : β → Cursor → Prop} (h : s.Holds P p Q)
    (hf : ∀ a, s.Holds (Q a) (f a) R) : s.Holds P (p >>= f) R := by
  intro c hc
  have hp := h c hc
  rw [bind_apply]
  cases he : p c with
  | ok a d => rw [he] at hp; exact hf a d hp
  | error m d => rw [he] at hp; exact hp

/-- The last step of a reader. -/
theorem Holds.give {f : α → β} {R : Cursor → Prop} (h : s.Holds P p fun _ => R) :
    s.Holds P (p >>= fun a => Pure.pure (f a)) fun _ => R := h.bind fun _ => .done

/-- A result may be turned into another one. -/
theorem Holds.map {f : α → β} {R : Cursor → Prop} (h : s.Holds P p fun _ => R) :
    s.Holds P (f <$> p) fun _ => R := by
  rw [map_eq_pure_bind]
  exact h.give

/-- What would come after a reader that is always refused does not matter. -/
theorem Holds.never {f : α → Phrase β} {R : β → Cursor → Prop}
    (h : s.Holds P p fun _ _ => False) : s.Holds P (p >>= f) R :=
  h.bind fun _ _ hc => hc.elim

end Triples

/-! ## Single tokens -/

/-- A look at the next token moves nothing. -/
theorem Holds.peek {P : Cursor → Prop} :
    s.Holds P peek fun o c => P c ∧ o = c.rest.head? := fun _ hc => ⟨hc, rfl⟩

theorem stays_peek : s.Stays peek := Holds.peek.mono fun _ _ h => h.1

theorem stays_atMark : s.Stays (atMark m) := stays_peek.give

/-- The next token is one of the stretch. -/
theorem Ahead.found (h : s.Ahead c) (complaint : Complaint) :
    s.Found ⟨c.rest.head?, complaint⟩ := by
  obtain ⟨t, us, ht, rfl, -⟩ | rfl := h.next
  · exact ⟨t, List.mem_append_left _ ht, rfl⟩
  · exact ⟨s.stop, by simp, rfl⟩

/-- A refusal names a token of the front or the one that stops it. -/
theorem Holds.refuse {complaint : Complaint} {Q : α → Cursor → Prop} :
    s.Holds s.Ahead (refuse complaint) Q := fun _ hc => ⟨hc.found complaint, hc⟩

/-- A token that is taken, other than the semicolon, leaves the semicolon to come. -/
theorem Holds.take? {test : Token → Bool} (h : ∀ t, t.isMark .semicolon → test t = false) :
    s.Holds s.Ahead (take? test) fun o c => s.Ahead c ∧ ∀ t ∈ o, t ∈ s.front := by
  intro c hc
  obtain ⟨t, us, ht, rfl, hus⟩ | rfl := hc.next
  · simp only [Phrase.take?]
    cases test t with
    | true => exact ⟨hus, by simpa using ht⟩
    | false => exact ⟨hc, by simp⟩
  · simp only [Phrase.take?, h s.stop s.isMark_stop]
    exact ⟨hc, by simp⟩

theorem stays_mark? (hm : m ≠ .semicolon) : s.Stays (mark? m) :=
  (Holds.take? fun t ht => by simpa [Token.isMark_eq_decide ht] using hm.symm).bind
    fun _ => .pure fun _ hc => hc.1

theorem stays_expect {test : Token → Bool} {complaint : Complaint}
    (h : ∀ t, t.isMark .semicolon → test t = false) : s.Stays (expect test complaint) := by
  intro c hc
  obtain ⟨t, us, ht, rfl, hus⟩ | rfl := hc.next
  · simp only [expect]
    cases test t with
    | true => exact hus
    | false => exact ⟨hc.found complaint, hc⟩
  · simp only [expect, h s.stop s.isMark_stop]
    exact ⟨hc.found complaint, hc⟩

theorem stays_mark {complaint : Complaint} (hm : m ≠ .semicolon) : s.Stays (mark m complaint) :=
  (stays_expect fun t ht => by simpa [Token.isMark_eq_decide ht] using hm.symm).map

theorem stays_identifier {complaint : Complaint} : s.Stays (identifier complaint) :=
  (stays_expect fun t ht => by
    rw [Token.isIdentifier, Token.isMark_iff.1 ht]).give

theorem closes_mark {complaint : Complaint} : s.Closes (mark .semicolon complaint) := by
  have closes_expect : s.Closes (expect (·.isMark .semicolon) complaint) := by
    intro c hc
    obtain ⟨t, us, ht, rfl, -⟩ | rfl := hc.next
    · simp only [expect, isMark_semicolon ht]
      exact ⟨hc.found complaint, hc⟩
    · simp only [expect, s.isMark_stop]
      exact rfl
  exact closes_expect.map

theorem Holds.mark_leftBrace {complaint : Complaint} :
    s.Holds s.Ahead (mark .leftBrace complaint) fun _ _ => False := by
  have refused : s.Holds s.Ahead (expect (·.isMark .leftBrace) complaint) fun _ _ => False := by
    intro c hc
    have hne := hc.head_ne (m := .leftBrace) (by simp)
    obtain ⟨t, us, -, rfl, -⟩ | rfl := hc.next
    all_goals
      simp only [expect, show Token.isMark _ _ = false from hne]
      exact ⟨hc.found complaint, hc⟩
  exact refused.map

/-! ## Choice and repetition -/

/-- A choice by the next mark. -/
theorem Holds.choice {p : Place → Phrase α} {q : Phrase α} {Q : α → Cursor → Prop}
    (hm : m ≠ .semicolon) (hp : ∀ place, s.Holds s.Ahead (p place) Q)
    (hq : s.Holds s.Ahead q Q) : s.Holds s.Ahead (mark? m >>= fun o => match o with
      | some place => p place
      | _ => q) Q :=
  (stays_mark? hm).bind fun o => by
    cases o with
    | some place => exact hp place
    | none => exact hq

/-- A choice by a mark that does not come before the semicolon. -/
theorem Holds.missed {p : Place → Phrase α} {q : Phrase α} {Q : α → Cursor → Prop}
    (hm : m ∈ [Mark.leftBrace, .forWord]) (hq : s.Holds s.Ahead q Q) :
    s.Holds s.Ahead (mark? m >>= fun o => match o with
      | some place => p place
      | _ => q) Q := by
  intro c hc
  have hmiss : mark? m c = .ok none c := Takes.mark?_miss (hc.head_ne hm) c.misfits
  rw [bind_apply, hmiss]
  exact hq c hc

theorem stays_many {step : Phrase (Option α)} (h : s.Stays step) : s.Stays (many step) := by
  have upTo : ∀ limit, s.Stays (manyUpTo step limit) := by
    intro limit
    induction limit with
    | nil => exact .done
    | cons t limit ih =>
      refine h.bind fun o => ?_
      cases o with
      | none => exact .done
      | some a => exact ih.give
  exact fun c => upTo c.rest c

theorem stays_grow {step : α → Phrase (Option α)} (h : ∀ a, s.Stays (step a)) (a : α) :
    s.Stays (grow step a) := by
  have upTo : ∀ limit a, s.Stays (growUpTo step limit a) := by
    intro limit
    induction limit with
    | nil => exact fun a => .done
    | cons t limit ih =>
      refine fun a => (h a).bind fun o => ?_
      cases o with
      | none => exact .done
      | some b => exact ih b
  exact fun c => upTo c.rest a c

theorem stays_commaList {item : Phrase α} {tooMany : Complaint} (h : s.Stays item) :
    ∀ room, s.Stays (commaList item tooMany room)
  | 0 => .refuse
  | room + 1 => h.bind fun a => (stays_mark? (by decide)).bind fun o => by
    cases o with
    | none => exact .done
    | some _ => exact (stays_commaList h room).give

/-! ## Expressions -/

/-- What the readers of nested phrases do. -/
structure KeepsInner (s : Stretch) (inn : Inner) : Prop where
  statement : s.Closes inn.statement
  expression : s.Stays inn.expression
  assignment : s.Stays inn.assignment
  unary : s.Stays inn.unary

variable {inn : Inner} {place : Place}

theorem stays_params : s.Stays params := by
  have list : s.Stays paramList := stays_atMark.bind fun b => by
    cases b with
    | true => exact .done
    | false => exact stays_commaList stays_identifier _
  exact list.bind fun _ => (stays_mark (by decide)).give

theorem stays_superMethod : s.Stays (superMethod place) :=
  (stays_mark (by decide)).bind fun _ => stays_identifier.give

/-- A lambda is refused at the brace that it lacks, if not before. -/
theorem stays_lambda : s.Stays (lambda inn place) :=
  (stays_mark (by decide)).bind fun _ => stays_params.bind fun _ => Holds.mark_leftBrace.never

theorem stays_group (hi : s.KeepsInner inn) : s.Stays (group inn place) :=
  hi.expression.bind fun _ => (stays_mark (by decide)).give

theorem stays_primary (hi : s.KeepsInner inn) : s.Stays (primary inn) :=
  Holds.peek.bind fun o => by
    cases ha : o.bind atom? with
    | none =>
      refine Holds.weaken (P := s.Ahead) ?_ fun _ hc => hc.1
      exact .choice (by decide) (fun _ => stays_superMethod) (.choice (by decide)
        (fun _ => stays_lambda) (.choice (by decide) (fun _ => stays_group hi) .refuse))
    | some e =>
      rintro c ⟨hc, rfl⟩
      obtain ⟨t, us, -, rfl, hus⟩ | rfl := hc.next
      · exact hus
      · simp [atom?, Token.isMark_iff.1 s.isMark_stop] at ha

theorem stays_arguments (hi : s.KeepsInner inn) : s.Stays (arguments inn) := by
  have list : s.Stays (argumentList inn) := stays_atMark.bind fun b => by
    cases b with
    | true => exact .done
    | false => exact stays_commaList hi.assignment _
  exact list.bind fun _ => (stays_mark (by decide)).give

theorem stays_call (hi : s.KeepsInner inn) : s.Stays (call inn) :=
  (stays_primary hi).bind fun e => stays_grow (fun _ => .choice (by decide)
    (fun _ => (stays_arguments hi).give) (.choice (by decide)
      (fun _ => stays_identifier.give) .done)) e

theorem stays_operator? {ω : Type} {table : List (Mark × ω)}
    (h : ∀ o ∈ table, o.1 ≠ .semicolon) : s.Stays (operator? table) :=
  (Holds.take? fun t ht => by
    simp only [Option.isSome_eq_false_iff, Option.isNone_iff_eq_none, List.find?_eq_none]
    intro o ho
    simpa [Token.isMark_eq_decide ht] using (h o ho).symm).bind fun o => by
      cases o <;> exact .pure fun _ hc => hc.1

theorem stays_unary (hi : s.KeepsInner inn) : s.Stays (unary inn) :=
  (stays_operator? (by decide)).bind fun o => by
    cases o with
    | none => exact stays_call hi
    | some o => exact hi.unary.give

theorem stays_level {table : List (Mark × BinaryOp)} {operand : Phrase Expr}
    (h : ∀ o ∈ table, o.1 ≠ .semicolon) (ho : s.Stays operand) : s.Stays (level table operand) :=
  ho.bind fun e => stays_grow (fun _ => (stays_operator? h).bind fun o => by
    cases o with
    | none => exact .done
    | some o => exact ho.give) e

theorem stays_operators (hi : s.KeepsInner inn) : s.Stays (operators inn) := by
  have fold : ∀ tables : List (List (Mark × BinaryOp)),
      (∀ table ∈ tables, ∀ o ∈ table, o.1 ≠ Mark.semicolon) →
        s.Stays (tables.foldr level (unary inn)) := by
    intro tables h
    induction tables with
    | nil => exact stays_unary hi
    | cons table tables ih =>
      exact stays_level (h table (by simp)) (ih fun t ht => h t (by simp [ht]))
  exact fold levels (by decide)

/-- A target that cannot be assigned to is found at the `=`, behind which the semicolon is
still to come. -/
theorem stays_assignment (hi : s.KeepsInner inn) : s.Stays (assignment inn) :=
  (stays_operators hi).bind fun target =>
    (Holds.take? fun t ht => by simp [Token.isMark_eq_decide ht]).bind fun o => by
      cases o with
      | none => exact .pure fun _ hc => hc.1
      | some equals =>
        intro c hc
        refine (hi.assignment.bind fun value => ?_) c hc.1
        cases ha : assignTo? value target with
        | none => exact fun d hd => ⟨⟨equals, List.mem_append_left _ (hc.2 _ rfl), rfl⟩, hd⟩
        | some e => exact .done

theorem stays_expression (hi : s.KeepsInner inn) : s.Stays (expression inn) :=
  (stays_assignment hi).bind fun first => stays_peek.bind fun o => by
    cases o.filter (·.isMark .comma) with
    | none => exact .done
    | some comma =>
      refine (stays_many ((stays_mark? (by decide)).bind fun o => ?_)).give
      cases o with
      | none => exact .done
      | some _ => exact (stays_assignment hi).give

/-! ## Statements -/

theorem stays_expressionUnless (hi : s.KeepsInner inn) : s.Stays (expressionUnless inn m) :=
  stays_atMark.bind fun b => by
    cases b with
    | true => exact .done
    | false => exact (stays_expression hi).map

theorem stays_condition {complaint : Complaint} (hi : s.KeepsInner inn) :
    s.Stays (condition inn complaint) :=
  (stays_mark (by decide)).bind fun _ => (stays_expression hi).bind fun _ =>
    (stays_mark (by decide)).give

theorem closes_varDecl (hi : s.KeepsInner inn) : s.Closes (varDecl inn) := by
  have initial : s.Stays (initializer? inn) := (stays_mark? (by decide)).bind fun o => by
    cases o with
    | none => exact .done
    | some _ => exact (stays_expression hi).map
  exact stays_identifier.bind fun _ => initial.bind fun _ => closes_mark.give

/-- Behind the semicolon there is no `else`, so a branch ends there. -/
theorem Holds.otherwise? : s.Holds s.Behind (otherwise? inn) fun _ => s.Behind := by
  rintro c rfl
  have hmiss : mark? .elseWord ⟨s.rest, s.misfits⟩ = .ok none ⟨s.rest, s.misfits⟩ :=
    Takes.mark?_miss s.elseNext_rest s.misfits
  rw [Grammar.otherwise?, bind_apply, hmiss]
  exact rfl

theorem closes_branch (hi : s.KeepsInner inn) : s.Closes (branch inn place) :=
  (stays_condition hi).bind fun _ => hi.statement.bind fun _ => Holds.otherwise?.give

theorem closes_whileLoop (hi : s.KeepsInner inn) : s.Closes (whileLoop inn place) :=
  (stays_condition hi).bind fun _ => hi.statement.give

theorem closes_returnWith (hi : s.KeepsInner inn) : s.Closes (returnWith inn place) :=
  (stays_expressionUnless hi).bind fun _ => closes_mark.give

theorem closes_print (hi : s.KeepsInner inn) : s.Closes (print inn place) :=
  (stays_expression hi).bind fun _ => closes_mark.give

theorem closes_expressionStatement (hi : s.KeepsInner inn) : s.Closes (expressionStatement inn) :=
  (stays_expression hi).bind fun _ => closes_mark.give

theorem closes_statement (hi : s.KeepsInner inn) : s.Closes (statement inn) :=
  .missed (by decide) <|
  .choice (by decide) (fun _ => closes_branch hi) <|
  .choice (by decide) (fun _ => closes_whileLoop hi) <|
  .choice (by decide) (fun _ => closes_returnWith hi) <|
  .choice (by decide) (fun _ => closes_mark.give) <|
  .missed (by decide) <|
  .choice (by decide) (fun _ => closes_print hi) <|
  closes_expressionStatement hi

/-! ## Declarations -/

theorem closes_classDecl : s.Closes (classDecl inn) := by
  have above : s.Stays superclass? := (stays_mark? (by decide)).bind fun o => by
    cases o with
    | none => exact .done
    | some _ => exact stays_identifier.give
  exact stays_identifier.bind fun _ => above.bind fun _ => Holds.mark_leftBrace.never

theorem closes_function {word : FunctionWord} : s.Closes (function inn word) :=
  stays_identifier.bind fun _ => (stays_mark (by decide)).bind fun _ =>
    stays_params.bind fun _ => Holds.mark_leftBrace.never

theorem stays_namedFunction? : s.Stays namedFunction? := by
  intro c hc
  obtain ⟨t, us, -, rfl, hus⟩ | rfl := hc.next
  · cases us with
    | nil => exact hc
    | cons u us =>
      simp only [namedFunction?]
      cases t.isMark .funWord && u.isIdentifier with
      | true => exact hus
      | false => exact hc
  · have hne : s.stop.isMark .funWord = false := by simp [Token.isMark_eq_decide s.isMark_stop]
    have hstay : namedFunction? ⟨s.stop :: s.rest, s.misfits⟩ =
        .ok false ⟨s.stop :: s.rest, s.misfits⟩ := by
      cases s.rest <;> simp [namedFunction?, hne]
    rw [hstay]
    exact hc

theorem closes_declaration (hi : s.KeepsInner inn) : s.Closes (declaration inn) :=
  .choice (by decide) (fun _ => closes_classDecl) <| stays_namedFunction?.bind fun b => by
    cases b with
    | true => exact closes_function.give
    | false => exact .choice (by decide) (fun _ => closes_varDecl hi) (closes_statement hi)

theorem keepsInner_inner : ∀ depth, s.KeepsInner (inner depth)
  | 0 => ⟨.refuse, .refuse, .refuse, .refuse⟩
  | depth + 1 =>
    have hi := keepsInner_inner depth
    { statement := closes_statement hi
      expression := stays_expression hi
      assignment := stays_assignment hi
      unary := stays_unary hi }

/-! ## Recovery -/

theorem boundary_of_semicolon (ht : t.isMark .semicolon) (l : List Token) : boundary t l = l := by
  cases l with
  | nil => rfl
  | cons u us => simp [boundary, ht]

theorem boundary_stop {us : List Token} (hus : ∀ u ∈ us, u ∈ s.front ∧ u.opensStatement = false)
    (ht : t ∈ s.front) : boundary t (us ++ s.stop :: s.rest) = s.rest := by
  induction us generalizing t with
  | nil =>
    have hs : s.stop.opensStatement = false := by
      rw [Token.opensStatement, Token.isMark_iff.1 s.isMark_stop]
      rfl
    simp [boundary, isMark_semicolon ht, hs, boundary_of_semicolon s.isMark_stop]
  | cons u us ih =>
    obtain ⟨hu, ho⟩ := hus u (by simp)
    simp only [List.cons_append, boundary, isMark_semicolon ht, ho, Bool.or_self,
      Bool.false_eq_true, if_false]
    exact ih (fun v hv => hus v (by simp [hv])) hu

/-- The token where reading stopped is dropped whatever it is, so a word that opens a
statement may be the first of the stretch. -/
theorem Ahead.resume (h : s.Ahead c) (ho : ∀ t ∈ s.front.tail, t.opensStatement = false) :
    Phrase.resume c.rest = s.rest := by
  obtain ⟨us, hus, rfl⟩ := h
  cases us with
  | nil => exact boundary_of_semicolon s.isMark_stop s.rest
  | cons t us =>
    have htail : us <:+ s.front.tail := by
      obtain ⟨vs, hvs⟩ := hus
      rw [← hvs]
      cases vs with
      | nil => exact List.suffix_refl _
      | cons v vs => exact (List.suffix_cons t us).trans (List.suffix_append vs _)
    exact boundary_stop (fun u hu =>
      ⟨hus.subset (by simp [hu]), ho u (htail.subset hu)⟩) (hus.subset (by simp))

/-- Where the declaration begins. -/
def start (s : Stretch) : Cursor := ⟨s.front ++ s.stop :: s.rest, s.misfits⟩

/-- A declaration that is refused is passed over up to its semicolon, and costs one misfit
at one of its tokens; one that is not refused ends there too. -/
theorem recovering_declaration (depth : Nat)
    (ho : ∀ t ∈ s.front.tail, t.opensStatement = false) :
    (∃ d, declaration (inner depth) s.start = .ok d ⟨s.rest, s.misfits⟩) ∨
      ∃ m, s.Found m ∧ (Grammar.inner (depth + 1)).declaration s.start =
        .ok none ⟨s.rest, s.misfits.push m⟩ := by
  have hstart : s.Ahead s.start := ⟨s.front, List.suffix_refl _, rfl⟩
  have hd := closes_declaration (keepsInner_inner depth) s.start hstart
  cases he : declaration (inner depth) s.start with
  | ok d c =>
    rw [he] at hd
    obtain rfl : c = ⟨s.rest, s.misfits⟩ := hd
    exact .inl ⟨d, rfl⟩
  | error m c =>
    rw [he] at hd
    obtain ⟨hm, hc⟩ := hd
    have hmisfits : c.misfits = s.misfits := by
      obtain ⟨us, -, rfl⟩ := hc
      rfl
    refine .inr ⟨m, hm, ?_⟩
    simp only [Grammar.inner, recovering, he, hc.resume ho, hmisfits]

end Stretch

end LoxLang
