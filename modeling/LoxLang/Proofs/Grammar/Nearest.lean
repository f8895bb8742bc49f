import LoxLang.Proofs.Grammar.Sound

/-!
# The nearest `if`

The grammar alone does not say to which `if` an `else` belongs. Asking for the nearest
one only picks among derivations: every list that has one has one of these.
-/

namespace LoxLang

/-- A derivation by stricter rules is one by freer rules. -/
theorem Derives.mono {g k : Rules} (hn : k.nearest = true → g.nearest = true)
    (hs : g.skips = true → k.skips = true) {s : Symbol} {ts : List Token} {v : s.Tree}
    (h : Derives g s ts v) : Derives k s ts v := by
  induction h with
  | noDeclaration => exact .noDeclaration
  | nextDeclaration _ _ ih ihs => exact .nextDeclaration ih ihs
  | skipped hk _ ih => exact .skipped (hs hk) ih
  | classDecl hw hc hl _ hr ih => exact .classDecl hw hc hl ih hr
  | subclassDecl hw hc ho hp hl _ hr ih => exact .subclassDecl hw hc ho hp hl ih hr
  | funDecl hw _ ih => exact .funDecl hw ih
  | varDeclaration _ ih => exact .varDeclaration ih
  | plain _ ih => exact .plain ih
  | varDecl hw hx he => exact .varDecl hw hx he
  | varDeclWith hw hx hq _ he ih => exact .varDeclWith hw hx hq ih he
  | noMethod => exact .noMethod
  | nextMethod _ _ ih ihs => exact .nextMethod ih ihs
  | function hx hl _ hr _ ihp ihb => exact .function hx hl ihp hr ihb
  | noParams => exact .noParams
  | params hns hm => exact .params hns hm
  | block hl _ hr ih => exact .block hl ih hr
  | exprStmt _ he ih => exact .exprStmt ih he
  | expression _ ih => exact .expression ih
  | forLoop hw hl _ _ hm _ hr _ ihi iht ihs ihb => exact .forLoop hw hl ihi iht hm ihs hr ihb
  | startNone he => exact .startNone he
  | startVar _ ih => exact .startVar ih
  | startExpression _ ih => exact .startExpression ih
  | ifThen hw hl _ hr _ ihc ihy => exact .ifThen hw hl ihc hr ihy
  | ifElse hw hl _ hr _ ho he _ ihc ihy ihn =>
    exact .ifElse hw hl ihc hr ihy (fun h => ho (hn h)) he ihn
  | whileLoop hw hl _ hr _ ihc ihb => exact .whileLoop hw hl ihc hr ihb
  | print hw _ he ih => exact .print hw ih he
  | returnWith hw _ he ih => exact .returnWith hw ih he
  | breakOut hw he => exact .breakOut hw he
  | blockStmt _ ih => exact .blockStmt ih
  | absent => exact .absent
  | present _ ih => exact .present ih
  | single _ ih => exact .single ih
  | sequence _ hc _ ih ihs => exact .sequence ih hc ihs
  | item _ ih => exact .item ih
  | nextItem _ hc _ ih ihs => exact .nextItem ih hc ihs
  | noArgument => exact .noArgument
  | arguments _ hm ih => exact .arguments ih hm
  | assign hx hq _ ih => exact .assign hx hq ih
  | set _ hd hx hq _ iho ihv => exact .set iho hd hx hq ihv
  | value _ ih => exact .value ih
  | first _ ih => exact .first ih
  | joined _ hm ht _ ihl ihr => exact .joined ihl hm ht ihr
  | tighter hq _ ih => exact .tighter hq ih
  | tightest hq _ ih => exact .tightest hq ih
  | not ht _ ih => exact .not ht ih
  | negate ht _ ih => exact .negate ht ih
  | called _ ih => exact .called ih
  | primary _ ih => exact .primary ih
  | call _ hl _ hr ihf iha => exact .call ihf hl iha hr
  | get _ hd hx ih => exact .get ih hd hx
  | number hk => exact .number hk
  | string hk => exact .string hk
  | yes ht => exact .yes ht
  | no ht => exact .no ht
  | nil ht => exact .nil ht
  | this ht => exact .this ht
  | read hx => exact .read hx
  | group hl _ hr ih => exact .group hl ih hr
  | super hw hd hx => exact .super hw hd hx
  | lambda hw hl _ hr _ ihp ihb => exact .lambda hw hl ihp hr ihb

namespace Grammar

/-- The grammar as it is written. -/
abbrev written : Rules := ⟨false, false⟩

/-- An `else` behind a statement that ends in a bare `if` finds its `if` inside. -/
theorem exists_attached {k : Bool} {s : Symbol} {ts : List Token} {v : s.Tree}
    (h : Derives (reading k) s ts v) {e : Token} {us : List Token} {p : Bool} {no : Stmt}
    (he : e.isMark .elseWord) (hno : Derives (reading k) (.statement p) us no) :
    s = .statement true → ∃ q w, Derives (reading k) (.statement q) (ts ++ e :: us) w := by
  induction h with
  | forLoop hw hl hi hc hm hs hr _ _ _ _ ih =>
    intro ho
    obtain ⟨q, w, hw'⟩ := ih ho
    exact ⟨q, _, by simpa using Derives.forLoop hw hl hi hc hm hs hr hw'⟩
  | @ifThen _ _ _ _ _ o _ _ hw hl hc hr hy _ ih =>
    rintro -
    cases o with
    | false => exact ⟨p, _, by simpa using Derives.ifElse hw hl hc hr hy (fun _ => rfl) he hno⟩
    | true =>
      obtain ⟨q, w, hw'⟩ := ih rfl
      exact ⟨true, _, by simpa using Derives.ifThen hw hl hc hr hw'⟩
  | ifElse hw hl hc hr hy ho hx _ _ _ ih =>
    intro hp
    obtain ⟨q, w, hw'⟩ := ih hp
    exact ⟨q, _, by simpa using Derives.ifElse hw hl hc hr hy ho hx hw'⟩
  | whileLoop hw hl hc hr _ _ ih =>
    intro ho
    obtain ⟨q, w, hw'⟩ := ih ho
    exact ⟨q, _, by simpa using Derives.whileLoop hw hl hc hr hw'⟩
  | _ => intro h; cases h

/-- There is a derivation of the list; one of as many items, and of some statement. -/
def Symbol.Derivable (g : Rules) : (s : Symbol) → List Token → s.Tree → Prop
  | .statement _, ts, _ => ∃ o w, Derives g (.statement o) ts w
  | .items, ts, vs => ∃ ws : List Expr, Derives g .items ts ws ∧ ws.length = vs.length
  | s, ts, _ => ∃ w, Derives g s ts w

/-- What the grammar derives at all, it derives with every `else` at the nearest `if`. -/
theorem derivable_of_derives {s : Symbol} {ts : List Token} {v : s.Tree}
    (h : Derives written s ts v) : Symbol.Derivable (reading false) s ts v := by
  induction h with
  | noDeclaration => exact ⟨_, .noDeclaration⟩
  | nextDeclaration _ _ ih ihs =>
    obtain ⟨_, h⟩ := ih
    obtain ⟨_, hs⟩ := ihs
    exact ⟨_, .nextDeclaration h hs⟩
  | skipped hk => cases hk
  | classDecl hw hc hl _ hr ih =>
    obtain ⟨_, h⟩ := ih
    exact ⟨_, .classDecl hw hc hl h hr⟩
  | subclassDecl hw hc ho hp hl _ hr ih =>
    obtain ⟨_, h⟩ := ih
    exact ⟨_, .subclassDecl hw hc ho hp hl h hr⟩
  | funDecl hw _ ih => obtain ⟨_, h⟩ := ih; exact ⟨_, .funDecl hw h⟩
  | varDeclaration _ ih => obtain ⟨_, h⟩ := ih; exact ⟨_, .varDeclaration h⟩
  | plain _ ih => obtain ⟨_, _, h⟩ := ih; exact ⟨_, .plain h⟩
  | varDecl hw hx he => exact ⟨_, .varDecl hw hx he⟩
  | varDeclWith hw hx hq _ he ih => obtain ⟨_, h⟩ := ih; exact ⟨_, .varDeclWith hw hx hq h he⟩
  | noMethod => exact ⟨_, .noMethod⟩
  | nextMethod _ _ ih ihs =>
    obtain ⟨_, h⟩ := ih
    obtain ⟨_, hs⟩ := ihs
    exact ⟨_, .nextMethod h hs⟩
  | function hx hl _ hr _ ihp ihb =>
    obtain ⟨_, hp⟩ := ihp
    obtain ⟨_, hb⟩ := ihb
    exact ⟨_, .function hx hl hp hr hb⟩
  | noParams => exact ⟨_, .noParams⟩
  | params hns hm => exact ⟨_, .params hns hm⟩
  | block hl _ hr ih => obtain ⟨_, h⟩ := ih; exact ⟨_, .block hl h hr⟩
  | exprStmt _ he ih => obtain ⟨_, h⟩ := ih; exact ⟨_, .exprStmt h he⟩
  | expression _ ih => obtain ⟨_, h⟩ := ih; exact ⟨_, _, .expression h⟩
  | forLoop hw hl _ _ hm _ hr _ ihi iht ihs ihb =>
    obtain ⟨_, hi⟩ := ihi
    obtain ⟨_, ht⟩ := iht
    obtain ⟨_, hs⟩ := ihs
    obtain ⟨_, _, hb⟩ := ihb
    exact ⟨_, _, .forLoop hw hl hi ht hm hs hr hb⟩
  | startNone he => exact ⟨_, .startNone he⟩
  | startVar _ ih => obtain ⟨_, h⟩ := ih; exact ⟨_, .startVar h⟩
  | startExpression _ ih => obtain ⟨_, h⟩ := ih; exact ⟨_, .startExpression h⟩
  | ifThen hw hl _ hr _ ihc ihy =>
    obtain ⟨_, hc⟩ := ihc
    obtain ⟨_, _, hy⟩ := ihy
    exact ⟨_, _, .ifThen hw hl hc hr hy⟩
  | ifElse hw hl _ hr _ _ he _ ihc ihy ihn =>
    obtain ⟨_, hc⟩ := ihc
    obtain ⟨o, _, hy⟩ := ihy
    obtain ⟨_, _, hn⟩ := ihn
    cases o with
    | false => exact ⟨_, _, .ifElse hw hl hc hr hy (fun _ => rfl) he hn⟩
    | true =>
      -- the `else` moves to the bare `if` that the first branch ends in
      obtain ⟨_, _, hy⟩ := exists_attached hy he hn rfl
      exact ⟨_, _, .ifThen hw hl hc hr hy⟩
  | whileLoop hw hl _ hr _ ihc ihb =>
    obtain ⟨_, hc⟩ := ihc
    obtain ⟨_, _, hb⟩ := ihb
    exact ⟨_, _, .whileLoop hw hl hc hr hb⟩
  | print hw _ he ih => obtain ⟨_, h⟩ := ih; exact ⟨_, _, .print hw h he⟩
  | returnWith hw _ he ih => obtain ⟨_, h⟩ := ih; exact ⟨_, _, .returnWith hw h he⟩
  | breakOut hw he => exact ⟨_, _, .breakOut hw he⟩
  | blockStmt _ ih => obtain ⟨_, h⟩ := ih; exact ⟨_, _, .blockStmt h⟩
  | absent => exact ⟨_, .absent⟩
  | present _ ih => obtain ⟨_, h⟩ := ih; exact ⟨_, .present h⟩
  | single _ ih => obtain ⟨_, h⟩ := ih; exact ⟨_, .single h⟩
  | sequence _ hc _ ih ihs =>
    obtain ⟨_, h⟩ := ih
    obtain ⟨_, hs, -⟩ := ihs
    exact ⟨_, .sequence h hc hs⟩
  | item _ ih => obtain ⟨_, h⟩ := ih; exact ⟨_, .item h, rfl⟩
  | nextItem _ hc _ ih ihs =>
    obtain ⟨_, h⟩ := ih
    obtain ⟨_, hs, hlen⟩ := ihs
    exact ⟨_, .nextItem h hc hs, by simp [hlen]⟩
  | noArgument => exact ⟨_, .noArgument⟩
  | arguments _ hm ih => obtain ⟨_, h, hlen⟩ := ih; exact ⟨_, .arguments h (hlen ▸ hm)⟩
  | assign hx hq _ ih => obtain ⟨_, h⟩ := ih; exact ⟨_, .assign hx hq h⟩
  | set _ hd hx hq _ iho ihv =>
    obtain ⟨_, ho⟩ := iho
    obtain ⟨_, hv⟩ := ihv
    exact ⟨_, .set ho hd hx hq hv⟩
  | value _ ih => obtain ⟨_, h⟩ := ih; exact ⟨_, .value h⟩
  | first _ ih => obtain ⟨_, h⟩ := ih; exact ⟨_, .first h⟩
  | joined _ hm ht _ ihl ihr =>
    obtain ⟨_, hl⟩ := ihl
    obtain ⟨_, hr⟩ := ihr
    exact ⟨_, .joined hl hm ht hr⟩
  | tighter hq _ ih => obtain ⟨_, h⟩ := ih; exact ⟨_, .tighter hq h⟩
  | tightest hq _ ih => obtain ⟨_, h⟩ := ih; exact ⟨_, .tightest hq h⟩
  | not ht _ ih => obtain ⟨_, h⟩ := ih; exact ⟨_, .not ht h⟩
  | negate ht _ ih => obtain ⟨_, h⟩ := ih; exact ⟨_, .negate ht h⟩
  | called _ ih => obtain ⟨_, h⟩ := ih; exact ⟨_, .called h⟩
  | primary _ ih => obtain ⟨_, h⟩ := ih; exact ⟨_, .primary h⟩
  | call _ hl _ hr ihf iha =>
    obtain ⟨_, hf⟩ := ihf
    obtain ⟨_, ha⟩ := iha
    exact ⟨_, .call hf hl ha hr⟩
  | get _ hd hx ih => obtain ⟨_, h⟩ := ih; exact ⟨_, .get h hd hx⟩
  | number hk => exact ⟨_, .number hk⟩
  | string hk => exact ⟨_, .string hk⟩
  | yes ht => exact ⟨_, .yes ht⟩
  | no ht => exact ⟨_, .no ht⟩
  | nil ht => exact ⟨_, .nil ht⟩
  | this ht => exact ⟨_, .this ht⟩
  | read hx => exact ⟨_, .read hx⟩
  | group hl _ hr ih => obtain ⟨_, h⟩ := ih; exact ⟨_, .group hl h hr⟩
  | super hw hd hx => exact ⟨_, .super hw hd hx⟩
  | lambda hw hl _ hr _ ihp ihb =>
    obtain ⟨_, hp⟩ := ihp
    obtain ⟨_, hb⟩ := ihb
    exact ⟨_, .lambda hw hl hp hr hb⟩

end Grammar

end LoxLang
