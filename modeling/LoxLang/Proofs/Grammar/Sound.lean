import LoxLang.Proofs.Grammar.Derivation
import LoxLang.Proofs.Grammar.Reads

/-!
# Readers follow the grammar

What a reader reads derives from its symbol: with an `else` at its nearest `if`, and with
nothing dropped if the reading recovered from nothing. The main statement is
`readsInner_inner`; each rule of the grammar has a lemma about its reader, given what the
readers of nested phrases read.
-/

namespace LoxLang

open Phrase

namespace Grammar

/-- An `else` at the nearest `if`; tokens drop out only where reading recovers. -/
abbrev reading (k : Bool) : Rules := ⟨true, k⟩

/-- Is an `else` next? -/
def elseNext (rest : List Token) : Bool := rest.head?.any (·.isMark .elseWord)

/-- What a statement is read as: one that ends in a bare `if` has no `else` behind it. -/
def IsStatement (k : Bool) (ts rest : List Token) (s : Stmt) : Prop :=
  ∃ o, Derives (reading k) (.statement o) ts s ∧ (o = true → elseNext rest = false)

/-- What the readers of nested phrases read. -/
structure ReadsInner (k : Bool) (inn : Inner) : Prop where
  declaration : Reads k inn.declaration
    (Recovered k fun ts _ s => Derives (reading k) .declaration ts s)
  statement : Reads k inn.statement (IsStatement k)
  expression : Reads k inn.expression fun ts _ e => Derives (reading k) .expression ts e
  assignment : Reads k inn.assignment fun ts _ e => Derives (reading k) .assignment ts e
  unary : Reads k inn.unary fun ts _ e => Derives (reading k) .unary ts e

variable {k : Bool} {inn : Inner}

/-- A choice by the next mark. -/
theorem reads_choice {α : Type} {m : Mark} {p : Place → Phrase α} {q : Phrase α}
    {D : Place → List Token → List Token → α → Prop} {E : List Token → List Token → α → Prop}
    (hp : ∀ place, Reads k (p place) (D place)) (hq : Reads k q E) :
    Reads k (mark? m >>= fun o => match o with
      | some place => p place
      | _ => q) fun ts rest a =>
      (∃ t us, ts = t :: us ∧ t.isMark m ∧ D t.place us rest a) ∨ E ts rest a := by
  refine ((Reads.mark? m).bind (E := fun o ts rest a =>
    o.elim (E ts rest a) fun place => D place ts rest a) fun o => ?_).mono ?_
  · cases o with
    | some place => exact hp place
    | none => exact hq
  · rintro ts rest a ⟨o, us, vs, rfl, ⟨t, rfl, rfl, ht⟩ | ⟨rfl, rfl, -⟩, h⟩
    · exact .inl ⟨t, vs, rfl, ht, h⟩
    · exact .inr h

/-! ## Parts of declarations -/

theorem reads_inBody {α : Type} {p : Phrase α} {D : List Token → List Token → α → Prop}
    (hp : Reads k p D) : Reads k (inBody p) (Maybe D) := by
  refine (Reads.peek.bind (E := fun _ => Maybe D) fun o => ?_).mono ?_
  · cases o with
    | none => exact (Reads.pure none).mono (by rintro ts rest o ⟨rfl, rfl⟩; rfl)
    | some t =>
      by_cases ht : t.isMark .rightBrace = true
      · simp only [ht, if_true]
        exact (Reads.pure none).mono (by rintro ts rest o ⟨rfl, rfl⟩; rfl)
      · simp only [ht, if_false, Bool.false_eq_true]
        refine (hp.bind fun a => Reads.pure (some a)).mono ?_
        rintro ts rest r ⟨a, us, vs, rfl, ha, rfl, rfl⟩
        simpa [Maybe] using ha
  · rintro ts rest r ⟨o, us, vs, rfl, ⟨rfl, -⟩, h⟩
    exact h

theorem reads_blockBody (hi : ReadsInner k inn) : Reads k (blockBody inn) fun ts _ ss =>
    ∃ us r, ts = us ++ [r] ∧ r.isMark .rightBrace ∧ Derives (reading k) .declarations us ss := by
  refine ((Reads.many (fun ts os => Derives (reading k) .declarations ts (os.filterMap id))
    ((reads_inBody hi.declaration).mono ?_) .noDeclaration).bind fun os =>
      (Reads.mark .rightBrace .blockEnd).bind fun _ => Reads.pure (os.filterMap id)).mono ?_
  · rintro ts rest (- | - | s) h
    · exact h
    · exact fun us os hL => .skipped h hL
    · exact fun us os hL => .nextDeclaration h hL
  · rintro ts rest ss ⟨os, us, vs, rfl, hL, _, ws, xs, rfl, ⟨t, rfl, ht⟩, rfl, rfl⟩
    exact ⟨us, t, by simp, ht, hL⟩

theorem reads_paramList : Reads k paramList fun ts _ ns => Derives (reading k) .params ts ns := by
  refine ((Reads.atMark .rightParen).bind
    (E := fun _ ts _ ns => Derives (reading k) .params ts ns) fun b => ?_).mono ?_
  · cases b with
    | true => exact (Reads.pure []).mono (by rintro ts - ns ⟨rfl, rfl⟩; exact .noParams)
    | false =>
      refine (Reads.commaList Names ((Reads.identifier _).mono ?_) maxArity).mono ?_
      · rintro ts - n ⟨t, rfl, ht, rfl⟩
        exact ⟨.one ht, fun c us as hc hL => .more ht hc hL⟩
      · exact fun ts _ ns h => .params h.1 h.2
  · rintro ts rest ns ⟨b, _, us, rfl, ⟨rfl, -⟩, h⟩
    exact h

theorem reads_params : Reads k params fun ts _ ns =>
    ∃ us r, ts = us ++ [r] ∧ r.isMark .rightParen ∧ Derives (reading k) .params us ns := by
  refine (reads_paramList.bind fun ns =>
    (Reads.mark .rightParen .paramsEnd).bind fun _ => Reads.pure ns).mono ?_
  rintro ts rest _ ⟨ns, us, _, rfl, hns, _, _, _, rfl, ⟨t, rfl, ht⟩, rfl, rfl⟩
  exact ⟨us, t, by simp, ht, hns⟩

/-- A function is read as the grammar derives it. -/
theorem reads_function (hi : ReadsInner k inn) (word : FunctionWord) :
    Reads k (function inn word) fun ts _ f => Derives (reading k) .function ts f := by
  refine ((Reads.identifier _).bind fun n => (Reads.mark _ _).bind fun _ =>
    reads_params.bind fun ns => (Reads.mark _ _).bind fun _ =>
      (reads_blockBody hi).bind fun body => Reads.pure (Function.mk n ns body)).mono ?_
  rintro ts rest f ⟨_, _, _, rfl, ⟨n, rfl, hn, rfl⟩, _, _, _, rfl, ⟨l, rfl, hl⟩, ns, _, _, rfl,
    ⟨ps, r, rfl, hr, hps⟩, _, _, _, rfl, ⟨b, rfl, hb⟩, body, _, _, rfl, ⟨us, e, rfl, he, hus⟩,
    rfl, rfl⟩
  simpa using Derives.function hn hl hps hr (.block hb hus he)

/-! ## Expressions -/

theorem derives_of_atom? {g : Rules} {t : Token} {e : Expr} (h : atom? t = some e) :
    Derives g .primary [t] e := by
  obtain ⟨kind, lexeme, place⟩ := t
  unfold atom? at h
  split at h <;> cases h
  · exact .number ‹_›
  · exact .string ‹_›
  all_goals (rename_i hk; simp only at hk; subst hk)
  · exact .read rfl
  · exact .yes rfl
  · exact .no rfl
  · exact .nil rfl
  · exact .this rfl

theorem reads_superMethod (place : Place) : Reads k (superMethod place) fun ts _ e =>
    ∃ d n, ts = [d, n] ∧ d.isMark .dot ∧ n.isIdentifier ∧ e = .super n.name none place := by
  refine ((Reads.mark _ _).bind fun _ => (Reads.identifier _).bind fun n =>
    Reads.pure (Expr.super n none place)).mono ?_
  rintro ts rest e ⟨_, _, _, rfl, ⟨d, rfl, hd⟩, _, _, _, rfl, ⟨n, rfl, hn, rfl⟩, rfl, rfl⟩
  exact ⟨d, n, rfl, hd, hn, rfl⟩

/-- Behind its `fun` a lambda has parameters in parentheses and a block. -/
theorem reads_lambda (hi : ReadsInner k inn) (place : Place) :
    Reads k (lambda inn place) fun ts _ e => ∃ l ps r bs ns body,
      ts = l :: (ps ++ r :: bs) ∧ l.isMark .leftParen ∧ Derives (reading k) .params ps ns ∧
      r.isMark .rightParen ∧ Derives (reading k) .block bs body ∧ e = .lambda ns body place := by
  refine ((Reads.mark _ _).bind fun _ => reads_params.bind fun ns =>
    (Reads.mark _ _).bind fun _ => (reads_blockBody hi).bind fun body =>
      Reads.pure (Expr.lambda ns body place)).mono ?_
  rintro ts rest e ⟨_, _, _, rfl, ⟨l, rfl, hl⟩, ns, _, _, rfl, ⟨ps, r, rfl, hr, hps⟩, _, _, _, rfl,
    ⟨b, rfl, hb⟩, body, _, _, rfl, ⟨us, e, rfl, he, hus⟩, rfl, rfl⟩
  exact ⟨l, ps, r, _, ns, body, by simp, hl, hps, hr, .block hb hus he, rfl⟩

/-- Behind its parenthesis a group has an expression and the closing one. -/
theorem reads_group (hi : ReadsInner k inn) (place : Place) :
    Reads k (group inn place) fun ts _ e => ∃ us v r, ts = us ++ [r] ∧ r.isMark .rightParen ∧
      Derives (reading k) .expression us v ∧ e = .group v place := by
  refine (hi.expression.bind fun v => (Reads.mark _ _).bind fun _ =>
    Reads.pure (Expr.group v place)).mono ?_
  rintro ts rest e ⟨v, us, _, rfl, hv, _, _, _, rfl, ⟨r, rfl, hr⟩, rfl, rfl⟩
  exact ⟨us, v, r, by simp, hr, hv, rfl⟩

theorem reads_skip : Reads k skip fun ts rest _ =>
    (∃ t, ts = [t]) ∨ (ts = [] ∧ rest = []) where
  ok {c d u} h := by
    obtain ⟨rest, ms⟩ := c
    cases h
    cases rest with
    | nil => exact ⟨[], #[], .refl _, fun _ => .inr ⟨rfl, rfl⟩⟩
    | cons t rest => exact ⟨[t], #[], ⟨rfl, by simp⟩, fun _ => .inl ⟨t, rfl⟩⟩
  error h := by cases h

theorem reads_primary (hi : ReadsInner k inn) :
    Reads k (primary inn) fun ts _ e => Derives (reading k) .primary ts e := by
  refine (Reads.peek.bind (E := fun o ts rest e => (ts ++ rest).head? = o →
    Derives (reading k) .primary ts e) fun o => ?_).mono ?_
  · cases ha : o.bind atom? with
    | some e =>
      obtain ⟨t, rfl, ht⟩ := Option.bind_eq_some_iff.1 ha
      refine (reads_skip.bind fun _ => Reads.pure e).mono ?_
      rintro ts rest _ ⟨_, us, vs, rfl, ⟨u, rfl⟩ | ⟨rfl, hr⟩, rfl, rfl⟩ hh
      · simp only [List.append_nil, List.cons_append, List.head?_cons, Option.some.injEq] at hh
        subst hh
        exact derives_of_atom? ht
      · simp_all
    | none =>
      refine (reads_choice reads_superMethod (reads_choice (reads_lambda hi)
        (reads_choice (reads_group hi) (Reads.refuse (D := fun _ _ _ => False) _)))).mono ?_
      rintro ts rest e (⟨w, us, rfl, hw, d, n, rfl, hd, hn, rfl⟩ |
        ⟨w, us, rfl, hw, l, ps, r, bs, ns, body, rfl, hl, hps, hr, hbs, rfl⟩ |
        ⟨l, us, rfl, hl, vs, v, r, rfl, hr, hv, rfl⟩ | h) -
      · exact .super hw hd hn
      · exact .lambda hw hl hps hr hbs
      · exact .group hl hv hr
      · exact h.elim
  · rintro ts rest e ⟨o, us, vs, rfl, ⟨rfl, rfl⟩, h⟩
    exact h rfl

theorem reads_argumentList (hi : ReadsInner k inn) :
    Reads k (argumentList inn) fun ts _ vs => Derives (reading k) .arguments ts vs := by
  refine ((Reads.atMark .rightParen).bind
    (E := fun _ ts _ vs => Derives (reading k) .arguments ts vs) fun b => ?_).mono ?_
  · cases b with
    | true => exact (Reads.pure []).mono (by rintro ts - vs ⟨rfl, rfl⟩; exact .noArgument)
    | false =>
      refine (Reads.commaList (fun ts (vs : List Expr) => Derives (reading k) .items ts vs)
        (hi.assignment.mono ?_) maxArity).mono ?_
      · exact fun ts _ v hv => ⟨.item hv, fun c us vs hc hL => .nextItem hv hc hL⟩
      · exact fun ts _ vs h => .arguments h.1 h.2
  · rintro ts rest vs ⟨b, _, us, rfl, ⟨rfl, -⟩, h⟩
    exact h

theorem reads_arguments (hi : ReadsInner k inn) : Reads k (arguments inn) fun ts _ vs =>
    ∃ us r, ts = us ++ [r] ∧ r.isMark .rightParen ∧ Derives (reading k) .arguments us vs := by
  refine ((reads_argumentList hi).bind fun vs =>
    (Reads.mark .rightParen .argumentsEnd).bind fun _ => Reads.pure vs).mono ?_
  rintro ts rest _ ⟨vs, us, _, rfl, hvs, _, _, _, rfl, ⟨t, rfl, ht⟩, rfl, rfl⟩
  exact ⟨us, t, by simp, ht, hvs⟩

theorem reads_suffix? (hi : ReadsInner k inn) (e : Expr) :
    Reads k (suffix? inn e) (Maybe fun ts _ b => ∀ us, Derives (reading k) .call us e →
      Derives (reading k) .call (us ++ ts) b) := by
  refine (reads_choice
    (fun place => (reads_arguments hi).bind fun vs => Reads.pure (some (Expr.call e vs place)))
    (reads_choice (fun _ => (Reads.identifier _).bind fun n => Reads.pure (some (Expr.get e n)))
      (Reads.pure none))).mono ?_
  rintro ts rest o (⟨l, _, rfl, hl, vs, us, _, rfl, ⟨as, r, rfl, hr, has⟩, rfl, rfl⟩ |
    ⟨d, _, rfl, hd, _, _, _, rfl, ⟨n, rfl, hn, rfl⟩, rfl, rfl⟩ | ⟨rfl, rfl⟩)
  · intro us hu
    simpa using Derives.call hu hl has hr
  · intro us hu
    exact .get hu hd hn
  · rfl

theorem reads_call (hi : ReadsInner k inn) :
    Reads k (call inn) fun ts _ e => Derives (reading k) .call ts e := by
  refine ((reads_primary hi).bind fun e =>
    Reads.grow (fun ts (e : Expr) => Derives (reading k) .call ts e) (reads_suffix? hi) e).mono ?_
  rintro ts rest e ⟨a, us, vs, rfl, ha, h⟩
  exact h us (.primary ha)

/-- An operator is one of its table. -/
theorem reads_operator? {ω : Type} (table : List (Mark × ω)) :
    Reads k (operator? table) fun ts _ o => match o with
      | some (op, place) => ∃ t m, ts = [t] ∧ t.isMark m ∧ (m, op) ∈ table ∧ place = t.place
      | none => ts = [] := by
  refine ((Reads.take? _).bind (E := fun o ts _ r => ts = [] ∧ o.elim (r = none)
    fun t => r = (table.find? fun o => t.isMark o.1).map fun o => (o.2, t.place)) fun o => ?_).mono ?_
  · cases o <;> exact Reads.pure _
  · rintro ts rest r ⟨o, us, vs, rfl, ⟨t, rfl, rfl, ht⟩ | ⟨rfl, rfl, -⟩, rfl, h⟩
    · obtain ⟨⟨m, op⟩, hf⟩ := Option.isSome_iff_exists.1 ht
      simp only [Option.elim_some, hf, Option.map_some] at h
      subst h
      exact ⟨t, m, rfl, by simpa using List.find?_some hf, List.mem_of_find?_eq_some hf, rfl⟩
    · subst h; rfl

theorem reads_unary (hi : ReadsInner k inn) :
    Reads k (unary inn) fun ts _ e => Derives (reading k) .unary ts e := by
  refine ((reads_operator? unaryOperators).bind (E := fun o ts _ e =>
    o.elim (Derives (reading k) .call ts e)
      fun o => ∃ v, Derives (reading k) .unary ts v ∧ e = .unary o.1 v o.2) fun o => ?_).mono ?_
  · cases o with
    | none => exact reads_call hi
    | some o =>
      refine (hi.unary.bind fun v => Reads.pure (Expr.unary o.1 v o.2)).mono ?_
      rintro ts rest e ⟨v, us, _, rfl, hv, rfl, rfl⟩
      exact ⟨v, by simpa using hv, rfl⟩
  · rintro ts rest e ⟨o, us, vs, rfl, ho, h⟩
    cases o with
    | none =>
      rw [show us = [] from ho]
      exact .called h
    | some o =>
      obtain ⟨op, place⟩ := o
      obtain ⟨t, m, rfl, ht, hm, rfl⟩ := ho
      obtain ⟨v, hv, rfl⟩ := h
      simp only [unaryOperators, List.mem_cons, Prod.mk.injEq, List.not_mem_nil, or_false] at hm
      obtain ⟨rfl, rfl⟩ | ⟨rfl, rfl⟩ := hm
      · exact .not ht hv
      · exact .negate ht hv

/-- What a level reads is derived as operands with operators of the level between them. -/
theorem reads_level {r : Rank} {operand : Phrase Expr}
    (ho : Reads k operand fun ts _ e => Derives (reading k) (.operand r) ts e) :
    Reads k (level r.table operand) fun ts _ e => Derives (reading k) (.operators r) ts e := by
  refine (ho.bind fun e => Reads.grow
    (fun ts (e : Expr) => Derives (reading k) (.operators r) ts e) (fun left => ?_) e).mono ?_
  · refine ((reads_operator? r.table).bind (E := fun o ts _ b => o.elim (ts = [] ∧ b = none)
      fun o => ∃ right, Derives (reading k) (.operand r) ts right ∧
        b = some (.binary o.1 left right o.2)) fun o => ?_).mono ?_
    · cases o with
      | none => exact Reads.pure none
      | some o =>
        refine (ho.bind fun right => Reads.pure (some (Expr.binary o.1 left right o.2))).mono ?_
        rintro ts rest b ⟨right, us, _, rfl, hr, rfl, rfl⟩
        exact ⟨right, by simpa using hr, rfl⟩
    · rintro ts rest b ⟨o, us, vs, rfl, hop, hb⟩
      cases o with
      | none =>
        obtain ⟨rfl, rfl⟩ := hb
        simpa [Maybe] using hop
      | some o =>
        obtain ⟨op, place⟩ := o
        obtain ⟨t, m, rfl, ht, hm, rfl⟩ := hop
        obtain ⟨right, hr, rfl⟩ := hb
        exact fun ws hw => .joined hw hm ht hr
  · rintro ts rest e ⟨left, us, vs, rfl, hl, h⟩
    exact h us (.first hl)

theorem reads_operators (hi : ReadsInner k inn) :
    Reads k (operators inn) fun ts _ e => Derives (reading k) (.operators .or) ts e := by
  have tighten {r q : Rank} {p : Phrase Expr} (hq : r.tighter? = some q)
      (h : Reads k p fun ts _ e => Derives (reading k) (.operators q) ts e) :
      Reads k p fun ts _ e => Derives (reading k) (.operand r) ts e :=
    h.mono fun _ _ _ hd => .tighter hq hd
  have hu : Reads k (unary inn) fun ts _ e => Derives (reading k) (.operand .factor) ts e :=
    (reads_unary hi).mono fun _ _ _ hd => .tightest rfl hd
  exact reads_level (r := .or) (tighten rfl (reads_level (r := .and) (tighten rfl
    (reads_level (r := .equality) (tighten rfl (reads_level (r := .comparison) (tighten rfl
      (reads_level (r := .term) (tighten rfl (reads_level (r := .factor) hu))))))))))

/-- How the tokens of something that can be assigned to end. -/
def AsTarget (g : Rules) (ts : List Token) : Expr → Prop
  | .read target => ∃ n, ts = [n] ∧ n.isIdentifier ∧ target = n.name.reference
  | .get object property => ∃ us d n, ts = us ++ [d, n] ∧ Derives g .call us object ∧
      d.isMark .dot ∧ n.isIdentifier ∧ property = n.name
  | _ => True

/-- `AsTarget` for the phrases that an assignment may begin with. -/
def Symbol.AsTarget (g : Rules) : (s : Symbol) → List Token → s.Tree → Prop
  | .operators _, ts, e => Grammar.AsTarget g ts e
  | .operand _, ts, e => Grammar.AsTarget g ts e
  | .unary, ts, e => Grammar.AsTarget g ts e
  | .call, ts, e => Grammar.AsTarget g ts e
  | .primary, ts, e => Grammar.AsTarget g ts e
  | _, _, _ => True

theorem asTarget_of_derives {g : Rules} {s : Symbol} {ts : List Token} {v : s.Tree}
    (h : Derives g s ts v) : Symbol.AsTarget g s ts v := by
  induction h with
  | first _ ih | tighter _ _ ih | tightest _ _ ih | called _ ih | primary _ ih => exact ih
  | get ho hd hn => exact ⟨_, _, _, rfl, ho, hd, hn, rfl⟩
  | read hn => exact ⟨_, rfl, hn, rfl⟩
  | _ => trivial

/-- A target that can be assigned to makes an assignment with what stands behind the `=`. -/
theorem derives_assignTo? {g : Rules} {ts us : List Token} {q : Token} {target value e : Expr}
    (ht : Derives g (.operators .or) ts target) (hq : q.isMark .equal)
    (hv : Derives g .assignment us value) (he : assignTo? value target = some e) :
    Derives g .assignment (ts ++ q :: us) e := by
  have h := asTarget_of_derives ht
  unfold assignTo? at he
  split at he <;> cases he
  · obtain ⟨n, rfl, hn, rfl⟩ := h
    exact .assign hn hq hv
  · obtain ⟨us, d, n, rfl, ho, hd, hn, rfl⟩ := h
    simpa using Derives.set ho hd hn hq hv

theorem reads_assignment (hi : ReadsInner k inn) :
    Reads k (assignment inn) fun ts _ e => Derives (reading k) .assignment ts e := by
  refine ((reads_operators hi).bind fun target => (Reads.take? _).bind
    (E := fun o ts _ e => o.elim (ts = [] ∧ e = target)
      fun _ => ∃ v, Derives (reading k) .assignment ts v ∧ assignTo? v target = some e) fun o => ?_).mono ?_
  · cases o with
    | none => exact Reads.pure target
    | some q =>
      refine (hi.assignment.bind (E := fun v ts _ e => ts = [] ∧ assignTo? v target = some e)
        fun v => ?_).mono ?_
      · cases ha : assignTo? v target with
        | none => exact Reads.throw _
        | some e => exact (Reads.pure e).mono (by rintro ts - b ⟨rfl, rfl⟩; exact ⟨rfl, rfl⟩)
      · rintro ts rest e ⟨v, us, _, rfl, hv, rfl, he⟩
        exact ⟨v, by simpa using hv, he⟩
  · rintro ts rest e ⟨target, us, _, rfl, ht, o, vs, ws, rfl, ⟨q, rfl, rfl, hq⟩ | ⟨rfl, rfl, -⟩, h⟩
    · obtain ⟨v, hv, he⟩ := h
      exact derives_assignTo? ht hq hv he
    · obtain ⟨rfl, rfl⟩ := h
      simpa using Derives.value ht

/-- A further item stands behind a comma, and there is none without one. -/
theorem reads_nextItem? (hi : ReadsInner k inn) :
    Reads k (nextItem? inn) fun ts rest o => match o with
      | some v => ∃ c us, ts = c :: us ∧ c.isMark .comma ∧ Derives (reading k) .assignment us v
      | none => ts = [] ∧ rest.head?.any (·.isMark .comma) = false := by
  refine ((Reads.mark? .comma).bind (E := fun o ts _ r => o.elim (ts = [] ∧ r = none)
    fun _ => ∃ v, Derives (reading k) .assignment ts v ∧ r = some v) fun o => ?_).mono ?_
  · cases o with
    | none => exact Reads.pure none
    | some _ =>
      refine ((reads_assignment hi).bind fun v => Reads.pure (some v)).mono ?_
      rintro ts rest r ⟨v, us, _, rfl, hv, rfl, rfl⟩
      exact ⟨v, by simpa using hv, rfl⟩
  · rintro ts rest r ⟨o, us, vs, rfl, ⟨c, rfl, rfl, hc⟩ | ⟨rfl, rfl, hn⟩, h⟩
    · obtain ⟨v, hv, rfl⟩ := h
      exact ⟨c, vs, rfl, hc, hv⟩
    · obtain ⟨rfl, rfl⟩ := h
      exact ⟨rfl, by simpa using hn⟩

/-- The items of a sequence behind the first one. -/
def Others (g : Rules) (ts : List Token) (vs : List Expr) : Prop :=
  (ts = [] ∧ vs = []) ∨ ∃ c us, ts = c :: us ∧ c.isMark .comma ∧ Derives g .items us vs

theorem reads_others (hi : ReadsInner k inn) : Reads k (many (nextItem? inn)) fun ts rest vs =>
    Others (reading k) ts vs ∧ rest.head?.any (·.isMark .comma) = false := by
  refine ((Reads.many (Others (reading k)) ((reads_nextItem? hi).mono ?_) (.inl ⟨rfl, rfl⟩)).and
    (Reads.many_stop (S := fun rest => rest.head?.any (·.isMark .comma) = false)
      ((reads_nextItem? hi).mono ?_) rfl)).mono fun _ _ _ h => ⟨h.1, h.2.1⟩
  · rintro ts rest (- | v) h
    · exact h.1
    · obtain ⟨c, us, rfl, hc, hv⟩ := h
      rintro ws vs (⟨rfl, rfl⟩ | ⟨d, ws, rfl, hd, hvs⟩)
      · exact .inr ⟨c, us, by simp, hc, .item hv⟩
      · exact .inr ⟨c, us ++ d :: ws, by simp, hc, .nextItem hv hd hvs⟩
  · rintro ts rest (- | v) h
    · exact h
    · obtain ⟨c, us, rfl, -⟩ := h
      simp

theorem reads_expression (hi : ReadsInner k inn) :
    Reads k (expression inn) fun ts _ e => Derives (reading k) .expression ts e := by
  refine ((reads_assignment hi).bind fun v => Reads.peek.bind (E := fun o ts rest e =>
    (ts ++ rest).head? = o → (ts = [] ∧ e = v) ∨ ∃ c us vs, ts = c :: us ∧ c.isMark .comma ∧
      Derives (reading k) .items us vs ∧ e = .sequence (v :: vs) c.place) fun o => ?_).mono ?_
  · cases ho : o.filter (·.isMark .comma) with
    | none =>
      exact (Reads.pure v).mono (by rintro ts - e ⟨rfl, rfl⟩ -; exact .inl ⟨rfl, rfl⟩)
    | some comma =>
      obtain ⟨rfl, hc⟩ := Option.filter_eq_some_iff.1 ho
      refine ((reads_others hi).bind fun vs =>
        Reads.pure (Expr.sequence (v :: vs) comma.place)).mono ?_
      rintro ts rest e ⟨vs, us, _, rfl, ⟨⟨rfl, rfl⟩ | ⟨d, us, rfl, hd, hvs⟩, hn⟩, rfl, rfl⟩ hh
      · simp only [List.nil_append] at hn hh
        rw [hh] at hn
        exact absurd hc (by simpa using hn)
      · simp only [List.append_nil, List.cons_append, List.head?_cons, Option.some.injEq] at hh
        subst hh
        exact .inr ⟨d, us, vs, by simp, hd, hvs, rfl⟩
  · rintro ts rest e ⟨v, us, _, rfl, hv, o, _, vs, rfl, ⟨rfl, rfl⟩, h⟩
    obtain ⟨rfl, rfl⟩ | ⟨c, vs, ws, rfl, hc, hws, rfl⟩ := h rfl
    · simpa using Derives.single hv
    · exact .sequence hv hc hws

/-! ## Statements -/

/-- A value stands behind the `=` if there is one. -/
theorem reads_initializer? (hi : ReadsInner k inn) :
    Reads k (initializer? inn) fun ts _ o => match o with
      | some v => ∃ q us, ts = q :: us ∧ q.isMark .equal ∧ Derives (reading k) .expression us v
      | none => ts = [] := by
  refine ((Reads.mark? .equal).bind (E := fun o ts _ r => o.elim (ts = [] ∧ r = none)
    fun _ => ∃ v, r = some v ∧ Derives (reading k) .expression ts v) fun o => ?_).mono ?_
  · cases o with
    | none => exact Reads.pure none
    | some _ => exact (reads_expression hi).map some
  · rintro ts rest r ⟨o, us, vs, rfl, ⟨q, rfl, rfl, hq⟩ | ⟨rfl, rfl, -⟩, h⟩
    · obtain ⟨v, rfl, hv⟩ := h
      exact ⟨q, vs, rfl, hq, hv⟩
    · obtain ⟨rfl, rfl⟩ := h
      rfl

theorem reads_varDecl (hi : ReadsInner k inn) : Reads k (varDecl inn) fun ts _ s =>
    ∀ w, w.isMark .varWord → Derives (reading k) .varDecl (w :: ts) s := by
  refine ((Reads.identifier _).bind fun n => (reads_initializer? hi).bind fun o =>
    (Reads.mark _ _).bind fun _ => Reads.pure (Stmt.declare n o)).mono ?_
  rintro ts rest s ⟨_, _, _, rfl, ⟨n, rfl, hn, rfl⟩, o, us, _, rfl, ho, _, _, _, rfl,
    ⟨e, rfl, he⟩, rfl, rfl⟩ w hw
  cases o with
  | none =>
    rw [show us = [] from ho]
    exact .varDecl hw hn he
  | some v =>
    obtain ⟨q, us, rfl, hq, hv⟩ := ho
    simpa using Derives.varDeclWith hw hn hq hv he

theorem reads_expressionUnless (hi : ReadsInner k inn) (m : Mark) :
    Reads k (expressionUnless inn m) fun ts _ o => Derives (reading k) .optional ts o := by
  refine ((Reads.atMark m).bind
    (E := fun _ ts _ o => Derives (reading k) .optional ts o) fun b => ?_).mono ?_
  · cases b with
    | true => exact (Reads.pure none).mono (by rintro ts - o ⟨rfl, rfl⟩; exact .absent)
    | false =>
      exact ((reads_expression hi).map some).mono (by rintro ts - o ⟨v, rfl, hv⟩; exact .present hv)
  · rintro ts rest o ⟨b, _, us, rfl, ⟨rfl, -⟩, h⟩
    exact h

theorem reads_expressionStatement (hi : ReadsInner k inn) :
    Reads k (expressionStatement inn) fun ts _ s => Derives (reading k) .exprStmt ts s := by
  refine ((reads_expression hi).bind fun v => (Reads.mark _ _).bind fun _ =>
    Reads.pure (Stmt.expression v)).mono ?_
  rintro ts rest s ⟨v, us, _, rfl, hv, _, _, _, rfl, ⟨e, rfl, he⟩, rfl, rfl⟩
  simpa using Derives.exprStmt hv he

theorem reads_forStart (hi : ReadsInner k inn) :
    Reads k (forStart inn) fun ts _ o => Derives (reading k) .forStart ts o := by
  refine (reads_choice (fun _ => Reads.pure none) (reads_choice
    (fun _ => (reads_varDecl hi).map some) ((reads_expressionStatement hi).map some))).mono ?_
  rintro ts rest o (⟨e, _, rfl, he, rfl, rfl⟩ | ⟨w, us, rfl, hw, s, rfl, hs⟩ | ⟨s, rfl, hs⟩)
  · exact .startNone he
  · exact .startVar (hs w hw)
  · exact .startExpression hs

theorem reads_forLoop (hi : ReadsInner k inn) (place : Place) :
    Reads k (forLoop inn place) fun ts rest s =>
      ∀ w, w.isMark .forWord → w.place = place → IsStatement k (w :: ts) rest s := by
  refine ((Reads.mark _ _).bind fun _ => (reads_forStart hi).bind fun initial =>
    (reads_expressionUnless hi _).bind fun test => (Reads.mark _ _).bind fun _ =>
      (reads_expressionUnless hi _).bind fun step => (Reads.mark _ _).bind fun _ =>
        hi.statement.bind fun body =>
          Reads.pure (Stmt.forLoop place initial test step body)).mono ?_
  rintro ts rest s ⟨_, _, _, rfl, ⟨l, rfl, hl⟩, initial, is, _, rfl, hinit, test, cs, _, rfl, ht, _, _,
    _, rfl, ⟨m, rfl, hm⟩, step, ss, _, rfl, hs, _, _, _, rfl, ⟨r, rfl, hr⟩, body, bs, _, rfl,
    ⟨o, hb, ho⟩, rfl, rfl⟩ w hw rfl
  exact ⟨o, by simpa using Derives.forLoop hw hl hinit ht hm hs hr hb, ho⟩

/-- A condition is an expression between parentheses. -/
theorem reads_condition (hi : ReadsInner k inn) (complaint : Complaint) :
    Reads k (condition inn complaint) fun ts _ v => ∃ l us r, ts = l :: (us ++ [r]) ∧
      l.isMark .leftParen ∧ r.isMark .rightParen ∧ Derives (reading k) .expression us v := by
  refine ((Reads.mark _ _).bind fun _ => (reads_expression hi).bind fun v =>
    (Reads.mark _ _).bind fun _ => Reads.pure v).mono ?_
  rintro ts rest _ ⟨_, _, _, rfl, ⟨l, rfl, hl⟩, v, us, _, rfl, hv, _, _, _, rfl, ⟨r, rfl, hr⟩,
    rfl, rfl⟩
  exact ⟨l, us, r, by simp, hl, hr, hv⟩

/-- An `else` stands before its statement, and without one nothing is taken. -/
theorem reads_otherwise? (hi : ReadsInner k inn) :
    Reads k (otherwise? inn) fun ts rest o => match o with
      | some s => ∃ e us, ts = e :: us ∧ e.isMark .elseWord ∧ IsStatement k us rest s
      | none => ts = [] ∧ elseNext rest = false := by
  refine ((Reads.mark? .elseWord).bind (E := fun o ts rest r => o.elim (ts = [] ∧ r = none)
    fun _ => ∃ s, r = some s ∧ IsStatement k ts rest s) fun o => ?_).mono ?_
  · cases o with
    | none => exact Reads.pure none
    | some _ => exact hi.statement.map some
  · rintro ts rest r ⟨o, us, vs, rfl, ⟨e, rfl, rfl, he⟩ | ⟨rfl, rfl, hn⟩, h⟩
    · obtain ⟨s, rfl, hs⟩ := h
      exact ⟨e, vs, rfl, he, hs⟩
    · obtain ⟨rfl, rfl⟩ := h
      exact ⟨rfl, by simpa [elseNext] using hn⟩

theorem reads_branch (hi : ReadsInner k inn) (place : Place) :
    Reads k (branch inn place) fun ts rest s =>
      ∀ w, w.isMark .ifWord → w.place = place → IsStatement k (w :: ts) rest s := by
  refine ((reads_condition hi _).bind fun test => hi.statement.bind fun yes =>
    (reads_otherwise? hi).bind fun no => Reads.pure (Stmt.branch test yes no place)).mono ?_
  rintro ts rest s ⟨test, _, _, rfl, ⟨l, cs, r, rfl, hl, hr, ht⟩, yes, ys, _, rfl, ⟨o, hy, ho⟩,
    no, us, _, rfl, hno, rfl, rfl⟩ w hw rfl
  cases no with
  | none =>
    obtain ⟨rfl, hrest⟩ := hno
    exact ⟨true, by simpa using Derives.ifThen hw hl ht hr hy, fun _ => by simpa using hrest⟩
  | some no =>
    obtain ⟨e, us, rfl, he, p, hn, hp⟩ := hno
    -- the statement before an `else` does not end in a bare `if`
    have hof : o = false := by
      cases o with
      | false => rfl
      | true => exact absurd (ho rfl) (by simp [elseNext, he])
    exact ⟨p, by simpa using Derives.ifElse hw hl ht hr hy (fun _ => hof) he hn,
      by simpa using hp⟩

theorem reads_whileLoop (hi : ReadsInner k inn) (place : Place) :
    Reads k (whileLoop inn place) fun ts rest s =>
      ∀ w, w.isMark .whileWord → w.place = place → IsStatement k (w :: ts) rest s := by
  refine ((reads_condition hi _).bind fun test => hi.statement.bind fun body =>
    Reads.pure (Stmt.loop test body place)).mono ?_
  rintro ts rest s ⟨test, _, _, rfl, ⟨l, cs, r, rfl, hl, hr, ht⟩, body, bs, _, rfl, ⟨o, hb, ho⟩,
    rfl, rfl⟩ w hw rfl
  exact ⟨o, by simpa using Derives.whileLoop hw hl ht hr hb, ho⟩

/-- A `return` is read with a value or without. -/
theorem reads_returnWith (hi : ReadsInner k inn) (place : Place) :
    Reads k (returnWith inn place) fun ts _ s => ∀ w, w.isMark .returnWord → w.place = place →
      Derives (reading k) (.statement false) (w :: ts) s := by
  refine ((reads_expressionUnless hi _).bind fun v => (Reads.mark _ _).bind fun _ =>
    Reads.pure (Stmt.returnWith v place)).mono ?_
  rintro ts rest s ⟨v, us, _, rfl, hv, _, _, _, rfl, ⟨e, rfl, he⟩, rfl, rfl⟩ w hw rfl
  simpa using Derives.returnWith hw hv he

/-- A `print` is read with its value. -/
theorem reads_print (hi : ReadsInner k inn) (place : Place) :
    Reads k (print inn place) fun ts _ s => ∀ w, w.isMark .printWord → w.place = place →
      Derives (reading k) (.statement false) (w :: ts) s := by
  refine ((reads_expression hi).bind fun v => (Reads.mark _ _).bind fun _ =>
    Reads.pure (Stmt.print v place)).mono ?_
  rintro ts rest s ⟨v, us, _, rfl, hv, _, _, _, rfl, ⟨e, rfl, he⟩, rfl, rfl⟩ w hw rfl
  simpa using Derives.print hw hv he

theorem reads_statement (hi : ReadsInner k inn) : Reads k (statement inn) (IsStatement k) := by
  refine (reads_choice (reads_forLoop hi) (reads_choice (reads_branch hi) (reads_choice
    (reads_whileLoop hi) (reads_choice (reads_returnWith hi) (reads_choice
      (fun place => (Reads.mark _ _).bind fun _ => Reads.pure (Stmt.breakOut place)) (reads_choice
        (fun place => (reads_blockBody hi).bind fun ss => Reads.pure (Stmt.block ss place))
        (reads_choice (reads_print hi) (reads_expressionStatement hi)))))))).mono ?_
  rintro ts rest s (⟨w, us, rfl, hw, h⟩ | ⟨w, us, rfl, hw, h⟩ | ⟨w, us, rfl, hw, h⟩ |
    ⟨w, us, rfl, hw, h⟩ | ⟨w, _, rfl, hw, _, _, _, rfl, ⟨e, rfl, he⟩, rfl, rfl⟩ |
    ⟨l, _, rfl, hl, ss, _, _, rfl, ⟨us, r, rfl, hr, hss⟩, rfl, rfl⟩ | ⟨w, us, rfl, hw, h⟩ | h)
  · exact h w hw rfl
  · exact h w hw rfl
  · exact h w hw rfl
  · exact ⟨false, h w hw rfl, by simp⟩
  · exact ⟨false, .breakOut hw he, by simp⟩
  · exact ⟨false, .blockStmt (by simpa using Derives.block hl hss hr), by simp⟩
  · exact ⟨false, h w hw rfl, by simp⟩
  · exact ⟨false, .expression h, by simp⟩

/-! ## Declarations -/

theorem reads_superclass? : Reads k superclass? fun ts _ o => match o with
    | some p => ∃ o n, ts = [o, n] ∧ o.isMark .less ∧ n.isIdentifier ∧ p = n.name.reference
    | none => ts = [] := by
  refine ((Reads.mark? .less).bind (E := fun o ts _ r => o.elim (ts = [] ∧ r = none)
    fun _ => ∃ n : Token, ts = [n] ∧ n.isIdentifier ∧ r = some n.name.reference) fun o => ?_).mono ?_
  · cases o with
    | none => exact Reads.pure none
    | some _ =>
      refine ((Reads.identifier _).bind fun n => Reads.pure (some n.reference)).mono ?_
      rintro ts rest r ⟨_, _, _, rfl, ⟨n, rfl, hn, rfl⟩, rfl, rfl⟩
      exact ⟨n, by simp, hn, rfl⟩
  · rintro ts rest r ⟨o, us, vs, rfl, ⟨o, rfl, rfl, ho⟩ | ⟨rfl, rfl, -⟩, h⟩
    · obtain ⟨n, rfl, hn, rfl⟩ := h
      exact ⟨o, n, rfl, ho, hn, rfl⟩
    · obtain ⟨rfl, rfl⟩ := h
      rfl

theorem reads_classDecl (hi : ReadsInner k inn) : Reads k (classDecl inn) fun ts _ s =>
    ∀ w, w.isMark .classWord → Derives (reading k) .declaration (w :: ts) s := by
  refine ((Reads.identifier _).bind fun n => reads_superclass?.bind fun p =>
    (Reads.mark _ _).bind fun _ => (Reads.many
      (fun ts (fs : List Function) => Derives (reading k) .methods ts fs)
      ((reads_inBody (reads_function hi .method)).mono ?_) .noMethod).bind fun fs =>
        (Reads.mark _ _).bind fun _ => Reads.pure (Stmt.classDecl n p fs)).mono ?_
  · rintro ts rest (- | f) h
    · exact h
    · exact fun us fs hfs => .nextMethod h hfs
  · rintro ts rest s ⟨_, _, _, rfl, ⟨n, rfl, hn, rfl⟩, p, ps, _, rfl, hp, _, _, _, rfl,
      ⟨l, rfl, hl⟩, fs, ms, _, rfl, hfs, _, _, _, rfl, ⟨r, rfl, hr⟩, rfl, rfl⟩ w hw
    cases p with
    | none =>
      rw [show ps = [] from hp]
      simpa using Derives.classDecl hw hn hl hfs hr
    | some p =>
      obtain ⟨o, q, rfl, ho, hq, rfl⟩ := hp
      simpa using Derives.subclassDecl hw hn ho hq hl hfs hr

theorem reads_namedFunction? : Reads k namedFunction? fun ts _ b =>
    (b = true ∧ ∃ w : Token, ts = [w] ∧ w.isMark .funWord) ∨ (b = false ∧ ts = []) where
  ok {c d b} h := by
    obtain ⟨rest, ms⟩ := c
    unfold namedFunction? at h
    split at h
    next t u rest hr =>
      obtain rfl : _ = t :: u :: rest := hr
      split at h
      next ht =>
        cases h
        simp only [Bool.and_eq_true] at ht
        exact ⟨[t], #[], ⟨rfl, by simp⟩, fun _ => .inl ⟨rfl, t, rfl, ht.1⟩⟩
      next => cases h; exact ⟨[], #[], .refl _, fun _ => .inr ⟨rfl, rfl⟩⟩
    next => cases h; exact ⟨[], #[], .refl _, fun _ => .inr ⟨rfl, rfl⟩⟩
  error {c d m} h := by
    unfold namedFunction? at h
    split at h
    · split at h <;> cases h
    · cases h

/-- What is read as a declaration is derived as one. -/
theorem reads_declaration (hi : ReadsInner k inn) :
    Reads k (declaration inn) fun ts _ s => Derives (reading k) .declaration ts s := by
  refine (reads_choice (fun _ => reads_classDecl hi) (reads_namedFunction?.bind
    (E := fun b ts _ s => if b then ∃ f, s = .function f ∧ Derives (reading k) .function ts f
      else Derives (reading k) .declaration ts s) fun b => ?_)).mono ?_
  · cases b with
    | true =>
      refine ((reads_function hi .function).bind fun f => Reads.pure (Stmt.function f)).mono ?_
      rintro ts rest s ⟨f, us, _, rfl, hf, rfl, rfl⟩
      exact ⟨f, rfl, by simpa using hf⟩
    | false =>
      refine (reads_choice (fun _ => reads_varDecl hi) (reads_statement hi)).mono ?_
      rintro ts rest s (⟨w, us, rfl, hw, h⟩ | ⟨o, h, -⟩)
      · exact .varDeclaration (h w hw)
      · exact .plain h
  · rintro ts rest s (⟨w, us, rfl, hw, h⟩ | ⟨b, us, vs, rfl, ⟨rfl, w, rfl, hw⟩ | ⟨rfl, rfl⟩, h⟩)
    · exact h w hw
    · obtain ⟨f, rfl, hf⟩ := h
      exact .funDecl hw hf
    · exact h

/-! ## Nesting -/

/-- Whatever the readers read, the grammar derives. -/
theorem readsInner_inner : ∀ depth, ReadsInner k (inner depth)
  | 0 => ⟨Reads.refuse _, Reads.refuse _, Reads.refuse _, Reads.refuse _, Reads.refuse _⟩
  | depth + 1 =>
    have hi := readsInner_inner depth
    { declaration := Reads.recovering (reads_declaration hi)
      statement := reads_statement hi
      expression := reads_expression hi
      assignment := reads_assignment hi
      unary := reads_unary hi }

end Grammar

end LoxLang
