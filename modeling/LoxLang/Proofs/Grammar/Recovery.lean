import LoxLang.Proofs.Grammar.Exact

/-!
# What recovery leaves

A reading that recovers goes on behind the tokens that it passes over, so what it keeps is
what it reads from the other tokens alone. `Derives.erased` says so of derivations: without
the tokens that drop out, the rest derives the same tree with nothing dropped. From it
`Program.recovery_deletes`: whatever a program holds, some of its tokens in their order
are read as the same statements, with nothing amiss.
-/

namespace LoxLang

open Phrase Grammar

/-- What is left of the tokens of a phrase when those that drop out are deleted. The first
token of a block, which its tree refers to, always stays. -/
def Derives.Erasable (g : Rules) (s : Symbol) (ts : List Token) (v : s.Tree) : Prop :=
  ∃ us, us.Sublist ts ∧ (s = .block → us.head? = ts.head?) ∧ Derives ⟨g.nearest, false⟩ s us v

/-- The tokens of a derivation with drops, without what drops out, derive the same tree. -/
theorem Derives.erased {g : Rules} {s : Symbol} {ts : List Token} {v : s.Tree}
    (h : Derives g s ts v) : Derives.Erasable g s ts v := by
  induction h with
  | noDeclaration => exact ⟨_, .refl _, nofun, .noDeclaration⟩
  | nextDeclaration _ _ ih ihs =>
    obtain ⟨_, hs, -, h⟩ := ih
    obtain ⟨_, hs', -, h'⟩ := ihs
    exact ⟨_, hs.append hs', nofun, .nextDeclaration h h'⟩
  | skipped _ _ ih =>
    obtain ⟨_, hs, -, h⟩ := ih
    exact ⟨_, hs.trans (List.sublist_append_right _ _), nofun, h⟩
  | classDecl hw hc hl _ hr ih =>
    obtain ⟨_, hs, -, h⟩ := ih
    exact ⟨_, (((hs.append_right _).cons_cons _).cons_cons _).cons_cons _, nofun, .classDecl hw hc hl h hr⟩
  | subclassDecl hw hc ho hp hl _ hr ih =>
    obtain ⟨_, hs, -, h⟩ := ih
    exact ⟨_, (((((hs.append_right _).cons_cons _).cons_cons _).cons_cons _).cons_cons _).cons_cons _, nofun,
      .subclassDecl hw hc ho hp hl h hr⟩
  | funDecl hw _ ih =>
    obtain ⟨_, hs, -, h⟩ := ih
    exact ⟨_, hs.cons_cons _, nofun, .funDecl hw h⟩
  | varDeclaration _ ih =>
    obtain ⟨_, hs, -, h⟩ := ih
    exact ⟨_, hs, nofun, .varDeclaration h⟩
  | plain _ ih =>
    obtain ⟨_, hs, -, h⟩ := ih
    exact ⟨_, hs, nofun, .plain h⟩
  | varDecl hw hx he => exact ⟨_, .refl _, nofun, .varDecl hw hx he⟩
  | varDeclWith hw hx hq _ he ih =>
    obtain ⟨_, hs, -, h⟩ := ih
    exact ⟨_, (((hs.append_right _).cons_cons _).cons_cons _).cons_cons _, nofun, .varDeclWith hw hx hq h he⟩
  | noMethod => exact ⟨_, .refl _, nofun, .noMethod⟩
  | nextMethod _ _ ih ihs =>
    obtain ⟨_, hs, -, h⟩ := ih
    obtain ⟨_, hs', -, h'⟩ := ihs
    exact ⟨_, hs.append hs', nofun, .nextMethod h h'⟩
  | function hx hl _ hr _ ihp ihb =>
    obtain ⟨_, hs, -, h⟩ := ihp
    obtain ⟨_, hs', -, h'⟩ := ihb
    exact ⟨_, ((hs.append (hs'.cons_cons _)).cons_cons _).cons_cons _, nofun, .function hx hl h hr h'⟩
  | noParams => exact ⟨_, .refl _, nofun, .noParams⟩
  | params hns hm => exact ⟨_, .refl _, nofun, .params hns hm⟩
  | block hl _ hr ih =>
    obtain ⟨_, hs, -, h⟩ := ih
    exact ⟨_, (hs.append_right _).cons_cons _, fun _ => rfl, .block hl h hr⟩
  | exprStmt _ he ih =>
    obtain ⟨_, hs, -, h⟩ := ih
    exact ⟨_, hs.append_right _, nofun, .exprStmt h he⟩
  | expression _ ih =>
    obtain ⟨_, hs, -, h⟩ := ih
    exact ⟨_, hs, nofun, .expression h⟩
  | forLoop hw hl _ _ hm _ hr _ ihi iht ihs ihb =>
    obtain ⟨_, hi, -, hi'⟩ := ihi
    obtain ⟨_, ht, -, ht'⟩ := iht
    obtain ⟨_, hs, -, hs'⟩ := ihs
    obtain ⟨_, hb, -, hb'⟩ := ihb
    exact ⟨_, ((hi.append (ht.append ((hs.append (hb.cons_cons _)).cons_cons _))).cons_cons _).cons_cons _, nofun,
      .forLoop hw hl hi' ht' hm hs' hr hb'⟩
  | startNone he => exact ⟨_, .refl _, nofun, .startNone he⟩
  | startVar _ ih =>
    obtain ⟨_, hs, -, h⟩ := ih
    exact ⟨_, hs, nofun, .startVar h⟩
  | startExpression _ ih =>
    obtain ⟨_, hs, -, h⟩ := ih
    exact ⟨_, hs, nofun, .startExpression h⟩
  | ifThen hw hl _ hr _ ihc ihy =>
    obtain ⟨_, hc, -, hc'⟩ := ihc
    obtain ⟨_, hy, -, hy'⟩ := ihy
    exact ⟨_, ((hc.append (hy.cons_cons _)).cons_cons _).cons_cons _, nofun, .ifThen hw hl hc' hr hy'⟩
  | ifElse hw hl _ hr _ ho he _ ihc ihy ihn =>
    obtain ⟨_, hc, -, hc'⟩ := ihc
    obtain ⟨_, hy, -, hy'⟩ := ihy
    obtain ⟨_, hn, -, hn'⟩ := ihn
    exact ⟨_, ((hc.append ((hy.append (hn.cons_cons _)).cons_cons _)).cons_cons _).cons_cons _, nofun,
      .ifElse hw hl hc' hr hy' ho he hn'⟩
  | whileLoop hw hl _ hr _ ihc ihb =>
    obtain ⟨_, hc, -, hc'⟩ := ihc
    obtain ⟨_, hb, -, hb'⟩ := ihb
    exact ⟨_, ((hc.append (hb.cons_cons _)).cons_cons _).cons_cons _, nofun, .whileLoop hw hl hc' hr hb'⟩
  | print hw _ he ih =>
    obtain ⟨_, hs, -, h⟩ := ih
    exact ⟨_, (hs.append_right _).cons_cons _, nofun, .print hw h he⟩
  | returnWith hw _ he ih =>
    obtain ⟨_, hs, -, h⟩ := ih
    exact ⟨_, (hs.append_right _).cons_cons _, nofun, .returnWith hw h he⟩
  | breakOut hw he => exact ⟨_, .refl _, nofun, .breakOut hw he⟩
  | blockStmt _ ih =>
    obtain ⟨us, hs, hh, h⟩ := ih
    -- the block's tree keeps the place of its brace, so that has to be the same token
    obtain ⟨vs, rfl⟩ : ∃ vs, us = _ :: vs := List.head?_eq_some_iff.1 (hh rfl)
    exact ⟨_, hs, nofun, .blockStmt h⟩
  | absent => exact ⟨_, .refl _, nofun, .absent⟩
  | present _ ih =>
    obtain ⟨_, hs, -, h⟩ := ih
    exact ⟨_, hs, nofun, .present h⟩
  | single _ ih =>
    obtain ⟨_, hs, -, h⟩ := ih
    exact ⟨_, hs, nofun, .single h⟩
  | sequence _ hc _ ih ihs =>
    obtain ⟨_, hs, -, h⟩ := ih
    obtain ⟨_, hs', -, h'⟩ := ihs
    exact ⟨_, hs.append (hs'.cons_cons _), nofun, .sequence h hc h'⟩
  | item _ ih =>
    obtain ⟨_, hs, -, h⟩ := ih
    exact ⟨_, hs, nofun, .item h⟩
  | nextItem _ hc _ ih ihs =>
    obtain ⟨_, hs, -, h⟩ := ih
    obtain ⟨_, hs', -, h'⟩ := ihs
    exact ⟨_, hs.append (hs'.cons_cons _), nofun, .nextItem h hc h'⟩
  | noArgument => exact ⟨_, .refl _, nofun, .noArgument⟩
  | arguments _ hm ih =>
    obtain ⟨_, hs, -, h⟩ := ih
    exact ⟨_, hs, nofun, .arguments h hm⟩
  | assign hx hq _ ih =>
    obtain ⟨_, hs, -, h⟩ := ih
    exact ⟨_, (hs.cons_cons _).cons_cons _, nofun, .assign hx hq h⟩
  | set _ hd hx hq _ iho ihv =>
    obtain ⟨_, ho, -, ho'⟩ := iho
    obtain ⟨_, hv, -, hv'⟩ := ihv
    exact ⟨_, ho.append (((hv.cons_cons _).cons_cons _).cons_cons _), nofun, .set ho' hd hx hq hv'⟩
  | value _ ih =>
    obtain ⟨_, hs, -, h⟩ := ih
    exact ⟨_, hs, nofun, .value h⟩
  | first _ ih =>
    obtain ⟨_, hs, -, h⟩ := ih
    exact ⟨_, hs, nofun, .first h⟩
  | joined _ hm ht _ ihl ihr =>
    obtain ⟨_, hl, -, hl'⟩ := ihl
    obtain ⟨_, hr, -, hr'⟩ := ihr
    exact ⟨_, hl.append (hr.cons_cons _), nofun, .joined hl' hm ht hr'⟩
  | tighter hq _ ih =>
    obtain ⟨_, hs, -, h⟩ := ih
    exact ⟨_, hs, nofun, .tighter hq h⟩
  | tightest hq _ ih =>
    obtain ⟨_, hs, -, h⟩ := ih
    exact ⟨_, hs, nofun, .tightest hq h⟩
  | not ht _ ih =>
    obtain ⟨_, hs, -, h⟩ := ih
    exact ⟨_, hs.cons_cons _, nofun, .not ht h⟩
  | negate ht _ ih =>
    obtain ⟨_, hs, -, h⟩ := ih
    exact ⟨_, hs.cons_cons _, nofun, .negate ht h⟩
  | called _ ih =>
    obtain ⟨_, hs, -, h⟩ := ih
    exact ⟨_, hs, nofun, .called h⟩
  | primary _ ih =>
    obtain ⟨_, hs, -, h⟩ := ih
    exact ⟨_, hs, nofun, .primary h⟩
  | call _ hl _ hr ihf iha =>
    obtain ⟨_, hf, -, hf'⟩ := ihf
    obtain ⟨_, ha, -, ha'⟩ := iha
    exact ⟨_, hf.append ((ha.append_right _).cons_cons _), nofun, .call hf' hl ha' hr⟩
  | get _ hd hx ih =>
    obtain ⟨_, hs, -, h⟩ := ih
    exact ⟨_, hs.append_right _, nofun, .get h hd hx⟩
  | number hk => exact ⟨_, .refl _, nofun, .number hk⟩
  | string hk => exact ⟨_, .refl _, nofun, .string hk⟩
  | yes ht => exact ⟨_, .refl _, nofun, .yes ht⟩
  | no ht => exact ⟨_, .refl _, nofun, .no ht⟩
  | nil ht => exact ⟨_, .refl _, nofun, .nil ht⟩
  | this ht => exact ⟨_, .refl _, nofun, .this ht⟩
  | read hx => exact ⟨_, .refl _, nofun, .read hx⟩
  | group hl _ hr ih =>
    obtain ⟨_, hs, -, h⟩ := ih
    exact ⟨_, (hs.append_right _).cons_cons _, nofun, .group hl h hr⟩
  | super hw hd hx => exact ⟨_, .refl _, nofun, .super hw hd hx⟩
  | lambda hw hl _ hr _ ihp ihb =>
    obtain ⟨_, hs, -, h⟩ := ihp
    obtain ⟨_, hs', -, h'⟩ := ihb
    exact ⟨_, ((hs.append (hs'.cons_cons _)).cons_cons _).cons_cons _, nofun, .lambda hw hl h hr h'⟩

/-! ## Programs -/

variable {body : List Token} {finish : Token}

/-- What is read of a program is derived from its tokens, though not of all of them. -/
theorem Program.statements_derives (hb : ∀ t ∈ body, t.isFinish = false)
    (hf : finish.isFinish) : ∃ ts, ts.Sublist body ∧
      Derives (reading true) .declarations ts (Program.ofTokens (body ++ [finish])).statements := by
  rw [Program.ofTokens, Token.beforeFinish_append hb hf]
  dsimp only
  cases hd : Program.declarations (body.length + 1) ⟨body, #[]⟩ with
  | error m c => exact ⟨[], List.nil_sublist _, .noDeclaration⟩
  | ok ss c =>
    obtain ⟨ts, ms, ⟨hts, -⟩, hr⟩ := (reads_declarations true _).ok hd
    obtain rfl : body = ts ++ c.rest := hts
    exact ⟨ts, List.sublist_append_left _ _, hr (.inl rfl)⟩

/-- Recovery only deletes tokens: some of the tokens of a program, in their order, are
read as the same statements with nothing amiss. -/
theorem Program.recovery_deletes (hb : ∀ t ∈ body, t.isFinish = false) (hf : finish.isFinish) :
    ∃ kept, kept.Sublist body ∧
      Program.ofTokens (kept ++ [finish]) =
        ⟨(Program.ofTokens (body ++ [finish])).statements, []⟩ := by
  obtain ⟨ts, hts, hd⟩ := Program.statements_derives hb hf
  obtain ⟨kept, hk, -, hd'⟩ := hd.erased
  have hkb : kept.Sublist body := hk.trans hts
  exact ⟨kept, hkb, (Program.ofTokens_eq_iff (fun t ht => hb t (hkb.subset ht)) hf _).2 hd'⟩

/-- `var ; { x + ; y ; }` -/
def brokenBlock : List Token :=
  [.sample (.mark .varWord) "var" 1, .sample (.mark .semicolon) ";" 5,
    .sample (.mark .leftBrace) "\x7b" 7, .sample .identifier "x" 9,
    .sample (.mark .plus) "+" 11, .sample (.mark .semicolon) ";" 13,
    .sample .identifier "y" 15, .sample (.mark .semicolon) ";" 17,
    .sample (.mark .rightBrace) "\x7d" 19]

/-- Of the sample the block is left, with its second statement only. -/
theorem brokenBlock_recovers : ∃ kept, kept.Sublist brokenBlock ∧
    Program.ofTokens (kept ++ [.sample .finish "" 20]) =
      ⟨[.block [.expression (.read ⟨⟨"y", ⟨"test.lox", 1, 15⟩⟩, none⟩)] ⟨"test.lox", 1, 7⟩], []⟩ :=
  @Program.recovery_deletes brokenBlock (.sample .finish "" 20) (by decide) rfl

end LoxLang
