import LoxLang.Proofs.Grammar.Exact
import LoxLang.Proofs.Token.Words

/-!
# What trees are read

Not every tree is the tree of a program. A branch or the body of a loop is never a
declaration, and no name that a program declares or assigns to is one that the language
binds itself. `regular_of_derives` says so of every tree that the grammar gives to tokens
whose identifiers are ordinary.
-/

namespace LoxLang

/-- A name that the language does not bind itself. -/
def Name.IsOrdinary (n : Name) : Prop := n.text ≠ "this" ∧ n.text ≠ "super"

/-- The name that a statement declares in the scope that it stands in. -/
def Stmt.declared? : Stmt → Option Name
  | .declare name _ => some name
  | .function f => some f.name
  | .classDecl name _ _ => some name
  | _ => none

mutual

def Expr.Regular : Expr → Prop
  | .literal _ _ | .read _ | .this _ _ | .super _ _ _ => True
  | .group e _ | .unary _ e _ | .get e _ => e.Regular
  | .binary _ left right _ | .set left _ right => left.Regular ∧ right.Regular
  | .sequence items _ => Expr.AllRegular items
  | .assign target value => target.name.IsOrdinary ∧ value.Regular
  | .call callee arguments _ => callee.Regular ∧ Expr.AllRegular arguments
  | .lambda params body _ => (∀ p ∈ params, p.IsOrdinary) ∧ Stmt.AllRegular body

def Expr.AllRegular : List Expr → Prop
  | [] => True
  | e :: es => e.Regular ∧ Expr.AllRegular es

def Stmt.Regular : Stmt → Prop
  | .expression e | .print e _ => e.Regular
  | .declare name none => name.IsOrdinary
  | .declare name (some initial) => name.IsOrdinary ∧ initial.Regular
  | .block body _ => Stmt.AllRegular body
  | .branch test yes none _ => test.Regular ∧ yes.declared? = none ∧ yes.Regular
  | .branch test yes (some no) _ =>
    test.Regular ∧ (yes.declared? = none ∧ yes.Regular) ∧ no.declared? = none ∧ no.Regular
  | .loop test body _ => test.Regular ∧ body.declared? = none ∧ body.Regular
  | .breakOut _ | .returnWith none _ => True
  | .function f => f.name.IsOrdinary ∧ f.Regular
  | .returnWith (some value) _ => value.Regular
  | .classDecl name _ methods => name.IsOrdinary ∧ Function.AllRegular methods

def Stmt.AllRegular : List Stmt → Prop
  | [] => True
  | s :: ss => s.Regular ∧ Stmt.AllRegular ss

def Function.Regular : Function → Prop
  | .mk _ params body => (∀ p ∈ params, p.IsOrdinary) ∧ Stmt.AllRegular body

def Function.AllRegular : List Function → Prop
  | [] => True
  | f :: fs => f.Regular ∧ Function.AllRegular fs

end

/-- The identifiers among the tokens are ordinary names. -/
def Token.Ordinary (ts : List Token) : Prop := ∀ t ∈ ts, t.isIdentifier → t.name.IsOrdinary

@[simp] theorem Token.ordinary_nil : Token.Ordinary [] := by simp [Token.Ordinary]

@[simp] theorem Token.ordinary_cons {t : Token} {ts : List Token} :
    Token.Ordinary (t :: ts) ↔ (t.isIdentifier → t.name.IsOrdinary) ∧ Token.Ordinary ts := by
  simp [Token.Ordinary]

@[simp] theorem Token.ordinary_append {ts us : List Token} :
    Token.Ordinary (ts ++ us) ↔ Token.Ordinary ts ∧ Token.Ordinary us := by
  simp [Token.Ordinary, or_imp, forall_and]

namespace Grammar

/-- What the tree of each phrase is like. -/
def Symbol.Regular : (s : Symbol) → s.Tree → Prop
  | .declarations, ss => Stmt.AllRegular ss
  | .block, ss => Stmt.AllRegular ss
  | .declaration, s => s.Regular
  | .varDecl, s => s.Regular
  | .statement _, s => s.declared? = none ∧ s.Regular
  | .exprStmt, s => s.declared? = none ∧ s.Regular
  | .forStart, o => ∀ s ∈ o, s.Regular
  | .methods, fs => Function.AllRegular fs
  | .function, f => f.name.IsOrdinary ∧ f.Regular
  | .params, ns => ∀ n ∈ ns, n.IsOrdinary
  | .optional, o => ∀ e ∈ o, e.Regular
  | .items, es => Expr.AllRegular es
  | .arguments, es => Expr.AllRegular es
  | .expression, e => e.Regular
  | .assignment, e => e.Regular
  | .operators _, e => e.Regular
  | .operand _, e => e.Regular
  | .unary, e => e.Regular
  | .call, e => e.Regular
  | .primary, e => e.Regular

/-- A loop with regular parts is regular and declares nothing. -/
theorem regular_forLoop {place : Place} {initial : Option Stmt} {test step : Option Expr}
    {body : Stmt} (hi : ∀ s ∈ initial, s.Regular) (ht : ∀ e ∈ test, e.Regular)
    (hs : ∀ e ∈ step, e.Regular) (hb : body.declared? = none ∧ body.Regular) :
    (Stmt.forLoop place initial test step body).declared? = none ∧
      (Stmt.forLoop place initial test step body).Regular := by
  have ht' : (test.getD (.literal .yes place)).Regular := by
    cases test with
    | none => simp [Expr.Regular]
    | some e => exact ht e rfl
  cases initial <;> cases step <;>
    simp_all [Stmt.forLoop, Stmt.declared?, Stmt.Regular, Stmt.AllRegular]

theorem ordinary_of_names {ts : List Token} {ns : List Name} (h : Names ts ns)
    (hts : Token.Ordinary ts) : ∀ n ∈ ns, n.IsOrdinary := by
  induction h with
  | one ht => simpa using hts _ (by simp) ht
  | @more t c ts ns ht _ _ ih =>
    have hrest := ih fun u hu => hts u (by simp [hu])
    simpa using ⟨hts t (by simp) ht, hrest⟩

/-- The grammar gives regular trees to ordinary identifiers. -/
theorem regular_of_derives {g : Rules} {s : Symbol} {ts : List Token} {v : s.Tree}
    (h : Derives g s ts v) (hts : Token.Ordinary ts) : Symbol.Regular s v := by
  induction h with
  | forLoop _ _ _ _ _ _ _ _ ihi iht ihs ihb =>
    simp only [Token.ordinary_cons, Token.ordinary_append] at hts
    obtain ⟨-, -, hi, hc, -, hs, -, hb⟩ := hts
    exact regular_forLoop (ihi hi) (iht hc) (ihs hs) (ihb hb)
  | params hns => exact ordinary_of_names hns hts
  | @returnWith _ _ o _ _ _ _ ih =>
    simp only [Token.ordinary_cons, Token.ordinary_append] at hts
    have ho := ih hts.2.1
    cases o with
    | none => exact ⟨rfl, trivial⟩
    | some e => exact ⟨rfl, ho e rfl⟩
  | _ => simp_all [Symbol.Regular, Stmt.declared?, Stmt.Regular, Stmt.AllRegular,
      Expr.Regular, Expr.AllRegular, Function.Regular, Function.AllRegular, Function.name,
      Name.reference]

end Grammar

/-! ## Sources -/

theorem Token.ordinary_scan (file source : String) : Token.Ordinary (Token.scan file source).1 := by
  intro t ht hi
  have hw := Token.ofWord?_of_mem_scan ht hi
  refine ⟨fun h => ?_, fun h => ?_⟩
  · rw [show t.lexeme = "this" from h] at hw
    cases hw
  · rw [show t.lexeme = "super" from h] at hw
    cases hw

theorem Token.ordinary_beforeFinish {ts : List Token} (h : Token.Ordinary ts) :
    Token.Ordinary (Token.beforeFinish ts).1 :=
  fun t ht => h t ((List.takeWhile_prefix _).subset ht)

open Phrase Grammar

/-- All statements of a source are regular, also next to others that do not fit. -/
theorem Program.regular_ofTokens {ts : List Token} (h : Token.Ordinary ts) :
    Stmt.AllRegular (Program.ofTokens ts).statements := by
  have hb := Token.ordinary_beforeFinish h
  unfold Program.ofTokens
  dsimp only
  split
  · rename_i statements c hd
    obtain ⟨us, ms, ⟨hts, -⟩, hr⟩ := (reads_declarations true _).ok hd
    rw [show (Token.beforeFinish ts).1 = us ++ c.rest from hts, Token.ordinary_append] at hb
    exact regular_of_derives (hr (.inl rfl)) hb.1
  · trivial

/-- Every expression that is read from ordinary tokens is regular. -/
theorem Expr.regular_ofTokens {ts : List Token} (h : Token.Ordinary ts) {e : Expr}
    (he : Expr.ofTokens ts = .ok e) : e.Regular :=
  regular_of_derives (Expr.derives_of_ofTokens he) (Token.ordinary_beforeFinish h)

end LoxLang
