import LoxLang.Proofs.Grammar.Reads
import LoxLang.Tree.Grammar

/-!
# Forward, and at a cost

A reader only goes forward, and every misfit that it recovers from costs a token of its
own. Two readers that differ in what they ask of nested phrases do the same wherever too
few tokens are left for it to matter. `Agrees n spare p q` says both: `p` does what `q` does
where fewer than `n` tokens are left, and `q` passes at least `spare` tokens more than it
meets misfits, unless it passes none. Each rule of the grammar has a lemma: one that begins
with a token of its own asks of nested phrases one token less.
-/

namespace LoxLang

namespace Phrase

variable {α β : Type}

/-- Where a reader is when it is done. -/
def cursorOf : EStateM.Result Misfit Cursor α → Cursor
  | .ok _ d => d
  | .error _ d => d

/-- From one cursor to a later one, with `spare` tokens or more to each misfit met and to
spare; no token, no misfit. -/
def Spends (spare : Nat) (c d : Cursor) : Prop :=
  ∃ ts ms, Passes c d ts ms ∧ ms.size ≤ ts.length - spare

namespace Spends

variable {spare : Nat} {c d e : Cursor}

/-- Nothing is spent where the cursor stays. -/
theorem refl (spare : Nat) (c : Cursor) : Spends spare c c := ⟨[], #[], .refl c, Nat.zero_le _⟩

/-- Two phrases together spend what each of them does. -/
theorem trans (h : Spends spare c d) (h' : Spends spare d e) : Spends spare c e := by
  obtain ⟨ts, ms, hp, hm⟩ := h
  obtain ⟨us, ns, hq, hn⟩ := h'
  refine ⟨ts ++ us, ms ++ ns, hp.trans hq, ?_⟩
  rw [Array.size_append, List.length_append]
  omega

theorem weaken (h : Spends 1 c d) : Spends 0 c d := by
  obtain ⟨ts, ms, hp, hm⟩ := h
  exact ⟨ts, ms, hp, by omega⟩

theorem length_le (h : Spends spare c d) : d.rest.length ≤ c.rest.length := by
  obtain ⟨ts, ms, hp, -⟩ := h
  rw [hp.1, List.length_append]
  omega

/-- The first token pays for all misfits behind it to have one to spare. -/
theorem after {t : Token} (hc : c.rest = t :: d.rest) (hm : d.misfits = c.misfits)
    (h : Spends 0 d e) : Spends 1 c e := by
  obtain ⟨ts, ms, hp, hs⟩ := h
  refine ⟨t :: ts, ms, ⟨?_, ?_⟩, ?_⟩
  · rw [hc, hp.1, List.cons_append]
  · rw [hp.2, hm]
  · rw [List.length_cons]
    omega

end Spends

/-! ## Readers that agree -/

/-- The first reader does what the second does where fewer than `n` tokens are left; the
second only goes forward and has `spare` tokens to spare. -/
structure Agrees (n spare : Nat) (p q : Phrase α) : Prop where
  same : ∀ c : Cursor, c.rest.length < n → p c = q c
  spends : ∀ c, Spends spare c (cursorOf (q c))

namespace Agrees

variable {n spare : Nat} {p q : Phrase α}

/-- Where nothing can be left nothing can differ. -/
theorem zero (h : Agrees n spare p q) (p' : Phrase α) : Agrees 0 spare p' q :=
  ⟨fun _ hc => absurd hc (Nat.not_lt_zero _), h.spends⟩

theorem weaken (h : Agrees (n + 1) 1 p q) : Agrees n 0 p q :=
  ⟨fun c hc => h.same c (Nat.lt_succ_of_lt hc), fun c => (h.spends c).weaken⟩

/-- A reader that stays where it is. -/
theorem still (h : ∀ c, cursorOf (q c) = c) : Agrees n spare q q :=
  ⟨fun _ _ => rfl, fun c => (h c).symm ▸ .refl spare c⟩

/-- A phrase that reads nothing agrees with itself. -/
theorem pure (a : α) : Agrees n spare (Pure.pure a) (Pure.pure a) := still fun _ => rfl

/-- A phrase that refuses agrees with itself. -/
theorem refuse (complaint : Complaint) :
    Agrees n spare (refuse complaint : Phrase α) (Phrase.refuse complaint) := still fun _ => rfl

/-- A phrase that gives up with a certain misfit agrees with itself. -/
theorem throw (m : Misfit) : Agrees n spare (throw m : Phrase α) (MonadExcept.throw m) :=
  still fun _ => rfl

theorem peek : Agrees n spare peek Phrase.peek := still fun _ => rfl

/-- Two phrases that agree may each be followed by phrases that do. -/
theorem bind {f g : α → Phrase β} (h : Agrees n spare p q)
    (hf : ∀ a, Agrees n spare (f a) (g a)) : Agrees n spare (p >>= f) (q >>= g) where
  same c hc := by
    have hs := (h.spends c).length_le
    rw [bind_apply, bind_apply, h.same c hc]
    cases hq : q c with
    | error m d => rfl
    | ok a d =>
      rw [hq] at hs
      exact (hf a).same d (Nat.lt_of_le_of_lt hs hc)
  spends c := by
    have hs := h.spends c
    rw [bind_apply]
    cases hq : q c with
    | error m d =>
      rw [hq] at hs
      exact hs
    | ok a d =>
      rw [hq] at hs
      exact hs.trans ((hf a).spends d)

/-- The last step of a reader. -/
theorem give {f : α → β} (h : Agrees n spare p q) :
    Agrees n spare (p >>= fun a => Pure.pure (f a)) (q >>= fun a => Pure.pure (f a)) :=
  h.bind fun a => .pure (f a)

/-- Phrases that agree still do when something is made of their results. -/
theorem map {f : α → β} (h : Agrees n spare p q) : Agrees n spare (f <$> p) (f <$> q) := by
  rw [map_eq_pure_bind, map_eq_pure_bind]
  exact h.give

theorem atMark (m : Mark) : Agrees n spare (atMark m) (Phrase.atMark m) := peek.give

end Agrees

/-! ## Single tokens -/

/-- The reader takes one token or gives `none` and takes none; it meets no misfit. -/
def Optional (p : Phrase α) (none : α) : Prop :=
  ∀ c, p c = .ok none c ∨ ∃ t a d, p c = .ok a d ∧ c.rest = t :: d.rest ∧ d.misfits = c.misfits

/-- The reader takes one token or refuses. -/
def Single (p : Phrase α) : Prop :=
  ∀ c, (∃ m, p c = .error m c) ∨
    ∃ t a d, p c = .ok a d ∧ c.rest = t :: d.rest ∧ d.misfits = c.misfits

theorem optional_take? (test : Token → Bool) : Optional (take? test) none := by
  rintro ⟨rest, ms⟩
  cases rest with
  | nil => exact .inl rfl
  | cons t rest =>
    simp only [take?]
    split
    · exact .inr ⟨t, _, _, rfl, rfl, rfl⟩
    · exact .inl rfl

theorem single_expect (test : Token → Bool) (complaint : Complaint) :
    Single (expect test complaint) := by
  rintro ⟨rest, ms⟩
  cases rest with
  | nil => exact .inl ⟨_, rfl⟩
  | cons t rest =>
    simp only [expect]
    split
    · exact .inr ⟨t, _, _, rfl, rfl, rfl⟩
    · exact .inl ⟨_, rfl⟩

/-- A phrase that may take nothing stays one if its result is turned into another. -/
theorem Optional.give {p : Phrase α} {none : α} (h : Optional p none) (f : α → β) :
    Optional (p >>= fun a => pure (f a)) (f none) := by
  intro c
  rw [bind_apply]
  obtain hp | ⟨t, a, d, hp, hc, hm⟩ := h c
  · rw [hp]
    exact .inl rfl
  · rw [hp]
    exact .inr ⟨t, f a, d, rfl, hc, hm⟩

/-- A phrase that takes one token stays one if its result is turned into another. -/
theorem Single.give {p : Phrase α} (h : Single p) (f : α → β) :
    Single (p >>= fun a => pure (f a)) := by
  intro c
  rw [bind_apply]
  obtain ⟨m, hp⟩ | ⟨t, a, d, hp, hc, hm⟩ := h c
  · rw [hp]
    exact .inl ⟨m, rfl⟩
  · rw [hp]
    exact .inr ⟨t, f a, d, rfl, hc, hm⟩

theorem optional_mark? (m : Mark) : Optional (mark? m) none := (optional_take? _).give _

theorem single_mark (m : Mark) (complaint : Complaint) : Single (mark m complaint) :=
  (single_expect _ _).give fun _ => ()

theorem single_identifier (complaint : Complaint) : Single (identifier complaint) :=
  (single_expect _ _).give _

namespace Agrees

variable {n spare : Nat} {p q : Phrase α}

/-- A token that may come first is one less for the rest. -/
theorem optional {r : Phrase α} {none : α} (hr : Optional r none) {f g : α → Phrase β}
    (hf : ∀ a, Agrees n 0 (f a) (g a)) (hn : Agrees (n + 1) 1 (f none) (g none)) :
    Agrees (n + 1) 1 (r >>= f) (r >>= g) where
  same c hc := by
    rw [bind_apply, bind_apply]
    obtain hp | ⟨t, a, d, hp, hd, -⟩ := hr c
    · rw [hp]
      exact hn.same c hc
    · rw [hp]
      rw [hd, List.length_cons] at hc
      exact (hf a).same d (Nat.lt_of_succ_lt_succ hc)
  spends c := by
    rw [bind_apply]
    obtain hp | ⟨t, a, d, hp, hd, hm⟩ := hr c
    · rw [hp]
      exact hn.spends c
    · rw [hp]
      exact .after hd hm ((hf a).spends d)

/-- A token that has to come first is one less for the rest. -/
theorem single {r : Phrase α} (hr : Single r) {f g : α → Phrase β}
    (hf : ∀ a, Agrees n 0 (f a) (g a)) : Agrees (n + 1) 1 (r >>= f) (r >>= g) where
  same c hc := by
    rw [bind_apply, bind_apply]
    obtain ⟨m, hp⟩ | ⟨t, a, d, hp, hd, -⟩ := hr c
    · rw [hp]
    · rw [hp]
      rw [hd, List.length_cons] at hc
      exact (hf a).same d (Nat.lt_of_succ_lt_succ hc)
  spends c := by
    rw [bind_apply]
    obtain ⟨m, hp⟩ | ⟨t, a, d, hp, hd, hm⟩ := hr c
    · rw [hp]
      exact .refl 1 c
    · rw [hp]
      exact .after hd hm ((hf a).spends d)

/-- A choice by the next mark. -/
theorem choice {m : Mark} {p p' : Place → Phrase α} {q q' : Phrase α}
    (hp : ∀ place, Agrees n 0 (p place) (p' place)) (hq : Agrees (n + 1) 1 q q') :
    Agrees (n + 1) 1
      (mark? m >>= fun o => match o with
        | some place => p place
        | _ => q)
      (mark? m >>= fun o => match o with
        | some place => p' place
        | _ => q') :=
  optional (optional_mark? m) (fun o => by
    cases o with
    | some place => exact hp place
    | none => exact hq.weaken) hq

theorem of_single {r : Phrase α} (hr : Single r) : Agrees n 0 r r := by
  have h : Agrees (n + 1) 1 (r >>= Pure.pure) (r >>= Pure.pure) := single hr .pure
  rw [bind_pure] at h
  exact h.weaken

/-- A mark that is asked for takes one token or refuses in both readings. -/
theorem mark (m : Mark) (complaint : Complaint) :
    Agrees n 0 (Phrase.mark m complaint) (Phrase.mark m complaint) := of_single (single_mark m _)

/-- A name that is asked for takes one token or refuses in both readings. -/
theorem identifier (complaint : Complaint) :
    Agrees n 0 (Phrase.identifier complaint) (Phrase.identifier complaint) :=
  of_single (single_identifier _)

theorem of_optional {r : Phrase α} {none : α} (hr : Optional r none) : Agrees n 0 r r := by
  have h : Agrees (n + 1) 1 (r >>= Pure.pure) (r >>= Pure.pure) := optional hr .pure (.pure none)
  rw [bind_pure] at h
  exact h.weaken

/-! ## Repetition -/

/-- If a step agrees so do its repetitions. -/
theorem many {step step' : Phrase (Option α)} (h : Agrees n spare step step') :
    Agrees n spare (many step) (Phrase.many step') := by
  have upTo : ∀ limit, Agrees n spare (manyUpTo step limit) (manyUpTo step' limit) := by
    intro limit
    induction limit with
    | nil => exact .pure []
    | cons t limit ih =>
      refine h.bind fun o => ?_
      cases o with
      | none => exact .pure []
      | some a => exact ih.give
  exact ⟨fun c hc => (upTo c.rest).same c hc, fun c => (upTo c.rest).spends c⟩

/-- If a step agrees so does what grows by it. -/
theorem grow {step step' : α → Phrase (Option α)} (h : ∀ a, Agrees n spare (step a) (step' a))
    (a : α) : Agrees n spare (grow step a) (Phrase.grow step' a) := by
  have upTo : ∀ limit a, Agrees n spare (growUpTo step limit a) (growUpTo step' limit a) := by
    intro limit
    induction limit with
    | nil => exact fun a => .pure a
    | cons t limit ih =>
      refine fun a => (h a).bind fun o => ?_
      cases o with
      | none => exact .pure a
      | some b => exact ih b
  exact ⟨fun c hc => (upTo c.rest a).same c hc, fun c => (upTo c.rest a).spends c⟩

/-- If an item agrees so does a list of items between commas. -/
theorem commaList {item item' : Phrase α} {tooMany : Complaint} (h : Agrees n 0 item item') :
    ∀ room, Agrees n 0 (commaList item tooMany room) (Phrase.commaList item' tooMany room)
  | 0 => .refuse _
  | room + 1 => h.bind fun a => (of_optional (optional_mark? _)).bind fun o => by
    cases o with
    | none => exact .pure [a]
    | some _ => exact (commaList h room).give

end Agrees

end Phrase

namespace Grammar

open Phrase

/-! ## Expressions -/

/-- The phrase, unless no token is left. -/
def ifAny {α : Type} (phrase : Phrase α) : Phrase (Option α) := do
  match ← peek with
  | some _ => return some (← phrase)
  | none => return none

theorem ifAny_apply {α : Type} (p : Phrase α) {c : Cursor} (hc : c.rest ≠ []) :
    ifAny p c = match p c with
      | .ok a d => .ok (some a) d
      | .error m d => .error m d := by
  obtain ⟨rest, ms⟩ := c
  cases rest with
  | nil => exact absurd rfl hc
  | cons t rest =>
    change (p >>= fun a => pure (some a)) ⟨t :: rest, ms⟩ = _
    rw [bind_apply]
    rfl

/-- Readers of nested phrases that agree. A declaration is asked for only where a token is
left. -/
structure InnerAgrees (n : Nat) (i j : Inner) : Prop where
  declaration : Agrees n 0 (ifAny i.declaration) (ifAny j.declaration)
  statement : Agrees n 0 i.statement j.statement
  expression : Agrees n 0 i.expression j.expression
  assignment : Agrees n 0 i.assignment j.assignment
  unary : Agrees n 0 i.unary j.unary

section
variable {n : Nat} {i j : Inner} {place : Place}

theorem agrees_params : Agrees n 0 params params := by
  have list : Agrees n 0 paramList paramList := (Agrees.atMark _).bind fun b => by
    cases b with
    | true => exact .pure []
    | false => exact .commaList (.identifier _) _
  exact list.bind fun _ => (Agrees.mark _ _).give

theorem agrees_superMethod : Agrees n 0 (superMethod place) (superMethod place) :=
  (Agrees.mark _ _).bind fun _ => (Agrees.identifier _).give

/-- A body ends at its brace, and where no token is left. -/
theorem inBody_apply {α : Type} (p : Phrase α) (c : Cursor) :
    inBody p c = if c.rest.head?.any (·.isMark .rightBrace) then .ok none c else ifAny p c := by
  obtain ⟨rest, ms⟩ := c
  cases rest with
  | nil => rfl
  | cons t rest =>
    simp only [inBody, ifAny, bind_apply, peek, List.head?_cons, Option.any_some]
    split
    · rfl
    · rw [bind_apply]

theorem agrees_inBody {α : Type} {p q : Phrase α} {spare : Nat}
    (hp : Agrees n spare (ifAny p) (ifAny q)) : Agrees n spare (inBody p) (inBody q) where
  same c hc := by rw [inBody_apply, inBody_apply, hp.same c hc]
  spends c := by
    rw [inBody_apply]
    split
    · exact .refl spare c
    · exact hp.spends c

theorem Agrees.ifAny {α : Type} {p q : Phrase α} {spare : Nat} (hp : Agrees n spare p q) :
    Agrees n spare (ifAny p) (Grammar.ifAny q) :=
  Agrees.peek.bind fun o => by
    cases o with
    | some t => exact hp.give
    | none => exact .pure none

variable (h : InnerAgrees n i j)
include h

theorem agrees_blockBody : Agrees n 0 (blockBody i) (blockBody j) :=
  (agrees_inBody h.declaration).many.bind fun _ => (Agrees.mark _ _).give

theorem agrees_function (word : FunctionWord) : Agrees (n + 1) 1 (function i word) (function j word) :=
  .single (single_identifier _) fun _ => (Agrees.mark _ _).bind fun _ =>
    agrees_params.bind fun _ => (Agrees.mark _ _).bind fun _ => (agrees_blockBody h).give

theorem agrees_lambda : Agrees n 0 (lambda i place) (lambda j place) :=
  (Agrees.mark _ _).bind fun _ => agrees_params.bind fun _ => (Agrees.mark _ _).bind fun _ =>
    (agrees_blockBody h).give

theorem agrees_group : Agrees n 0 (group i place) (group j place) :=
  h.expression.bind fun _ => (Agrees.mark _ _).give

theorem agrees_primary : Agrees (n + 1) 1 (primary i) (primary j) :=
  Agrees.peek.bind fun o => by
    cases o.bind atom? with
    | some e =>
      refine Agrees.give ⟨fun _ _ => rfl, fun c => ?_⟩
      obtain ⟨rest, ms⟩ := c
      cases rest with
      | nil => exact .refl 1 _
      | cons t rest => exact .after (d := ⟨rest, ms⟩) rfl rfl (.refl 0 _)
    | none =>
      exact .choice (fun _ => agrees_superMethod) (.choice (fun _ => agrees_lambda h)
        (.choice (fun _ => agrees_group h) (.refuse _)))

theorem agrees_arguments : Agrees n 0 (arguments i) (arguments j) := by
  have list : Agrees n 0 (argumentList i) (argumentList j) := (Agrees.atMark _).bind fun b => by
    cases b with
    | true => exact .pure []
    | false => exact .commaList h.assignment _
  exact list.bind fun _ => (Agrees.mark _ _).give

theorem agrees_suffix? (e : Expr) : Agrees (n + 1) 1 (suffix? i e) (suffix? j e) :=
  .choice (fun _ => (agrees_arguments h).give)
    (.choice (fun _ => (Agrees.identifier _).give) (.pure none))

theorem agrees_call : Agrees (n + 1) 1 (call i) (call j) :=
  (agrees_primary h).bind (.grow (agrees_suffix? h))

omit h in
theorem optional_operator? {ω : Type} (table : List (Mark × ω)) :
    Optional (operator? table) none := by
  have h := (optional_take? fun t => (table.find? fun o => t.isMark o.1).isSome).give fun o =>
    o.bind fun t => (table.find? fun o => t.isMark o.1).map fun o => (o.2, t.place)
  refine (congrArg (Optional · _) (bind_congr fun o => ?_)).mp h
  cases o <;> rfl

theorem agrees_unary : Agrees (n + 1) 1 (unary i) (unary j) :=
  .optional (optional_operator? _) (fun o => by
    cases o with
    | some o => exact h.unary.give
    | none => exact (agrees_call h).weaken) (agrees_call h)

omit h in
theorem agrees_joined? (table : List (Mark × BinaryOp)) {operand operand' : Phrase Expr}
    (ho : Agrees n 0 operand operand') (e : Expr) :
    Agrees (n + 1) 1 (joined? table operand e) (joined? table operand' e) :=
  .optional (optional_operator? _) (fun o => by
    cases o with
    | some o => exact ho.give
    | none => exact .pure none) (.pure none)

theorem agrees_levels (tables : List (List (Mark × BinaryOp))) :
    Agrees (n + 1) 1 (tables.foldr level (unary i)) (tables.foldr level (unary j)) := by
  induction tables with
  | nil => exact agrees_unary h
  | cons table tables ih => exact ih.bind (.grow (agrees_joined? table ih.weaken))

theorem agrees_assignment : Agrees (n + 1) 1 (assignment i) (assignment j) :=
  (agrees_levels h levels).bind fun target => by
    refine .optional (optional_take? _) (fun o => ?_) (.pure target)
    cases o with
    | none => exact .pure target
    | some equals =>
      refine h.assignment.bind fun value => ?_
      cases assignTo? value target with
      | none => exact .throw _
      | some e => exact .pure e

theorem agrees_nextItem? : Agrees (n + 1) 1 (nextItem? i) (nextItem? j) :=
  .optional (optional_mark? _) (fun o => by
    cases o with
    | some _ => exact (agrees_assignment h).weaken.give
    | none => exact .pure none) (.pure none)

theorem agrees_expression : Agrees (n + 1) 1 (expression i) (expression j) :=
  (agrees_assignment h).bind fun first => Agrees.peek.bind fun o => by
    cases o.filter (·.isMark .comma) with
    | none => exact .pure first
    | some comma => exact (agrees_nextItem? h).many.give

/-! ## Statements -/

theorem agrees_varDecl : Agrees n 0 (varDecl i) (varDecl j) := by
  have initial : Agrees n 0 (initializer? i) (initializer? j) :=
    (Agrees.of_optional (optional_mark? _)).bind fun o => by
      cases o with
      | some _ => exact (agrees_expression h).weaken.map
      | none => exact .pure none
  exact (Agrees.identifier _).bind fun _ => initial.bind fun _ => (Agrees.mark _ _).give

theorem agrees_expressionUnless (m : Mark) :
    Agrees n 0 (expressionUnless i m) (expressionUnless j m) :=
  (Agrees.atMark _).bind fun b => by
    cases b with
    | true => exact .pure none
    | false => exact (agrees_expression h).weaken.map

theorem agrees_expressionStatement :
    Agrees (n + 1) 1 (expressionStatement i) (expressionStatement j) :=
  (agrees_expression h).bind fun _ => .single (single_mark _ _) fun _ => .pure _

theorem agrees_forLoop : Agrees n 0 (forLoop i place) (forLoop j place) := by
  have start : Agrees (n + 1) 1 (forStart i) (forStart j) :=
    .choice (fun _ => .pure none) (.choice (fun _ => (agrees_varDecl h).map)
      (agrees_expressionStatement h).map)
  exact (Agrees.mark _ _).bind fun _ => start.weaken.bind fun _ =>
    (agrees_expressionUnless h _).bind fun _ => (Agrees.mark _ _).bind fun _ =>
    (agrees_expressionUnless h _).bind fun _ => (Agrees.mark _ _).bind fun _ => h.statement.give

theorem agrees_condition (complaint : Complaint) :
    Agrees n 0 (condition i complaint) (condition j complaint) :=
  (Agrees.mark _ _).bind fun _ => (agrees_expression h).weaken.bind fun _ => (Agrees.mark _ _).give

theorem agrees_branch : Agrees n 0 (branch i place) (branch j place) := by
  have otherwise : Agrees n 0 (otherwise? i) (otherwise? j) :=
    (Agrees.of_optional (optional_mark? _)).bind fun o => by
      cases o with
      | some _ => exact h.statement.map
      | none => exact .pure none
  exact (agrees_condition h _).bind fun _ => h.statement.bind fun _ => otherwise.give

theorem agrees_whileLoop : Agrees n 0 (whileLoop i place) (whileLoop j place) :=
  (agrees_condition h _).bind fun _ => h.statement.give

theorem agrees_returnWith : Agrees n 0 (returnWith i place) (returnWith j place) :=
  (agrees_expressionUnless h _).bind fun _ => (Agrees.mark _ _).give

theorem agrees_print : Agrees n 0 (print i place) (print j place) :=
  (agrees_expression h).weaken.bind fun _ => (Agrees.mark _ _).give

theorem agrees_statement : Agrees (n + 1) 1 (statement i) (statement j) :=
  .choice (fun _ => agrees_forLoop h) <|
  .choice (fun _ => agrees_branch h) <|
  .choice (fun _ => agrees_whileLoop h) <|
  .choice (fun _ => agrees_returnWith h) <|
  .choice (fun _ => (Agrees.mark _ _).give) <|
  .choice (fun _ => (agrees_blockBody h).give) <|
  .choice (fun _ => agrees_print h) <|
  agrees_expressionStatement h

/-! ## Declarations -/

theorem agrees_classDecl : Agrees n 0 (classDecl i) (classDecl j) := by
  have above : Agrees n 0 superclass? superclass? :=
    (Agrees.of_optional (optional_mark? _)).bind fun o => by
      cases o with
      | some _ => exact (Agrees.identifier _).give
      | none => exact .pure none
  exact (Agrees.identifier _).bind fun _ => above.bind fun _ => (Agrees.mark _ _).bind fun _ =>
    (agrees_inBody (Agrees.ifAny (agrees_function h .method).weaken)).many.bind fun _ => (Agrees.mark _ _).give

omit h in
theorem optional_namedFunction? : Optional namedFunction? false := by
  rintro ⟨rest, ms⟩
  match rest with
  | [] | [t] => exact .inl rfl
  | t :: u :: rest =>
    simp only [namedFunction?]
    split
    · exact .inr ⟨t, true, _, rfl, rfl, rfl⟩
    · exact .inl rfl

theorem agrees_declaration : Agrees (n + 1) 1 (declaration i) (declaration j) := by
  have other : Agrees (n + 1) 1
      (mark? .varWord >>= fun o => match o with
        | some _ => varDecl i
        | _ => statement i)
      (mark? .varWord >>= fun o => match o with
        | some _ => varDecl j
        | _ => statement j) := .choice (fun _ => agrees_varDecl h) (agrees_statement h)
  refine .choice (fun _ => agrees_classDecl h) (.optional optional_namedFunction? (fun b => ?_) ?_)
  · cases b with
    | true => exact (agrees_function h _).weaken.give
    | false => exact other.weaken
  · exact other

end

end Grammar

end LoxLang
