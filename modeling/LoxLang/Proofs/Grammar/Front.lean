import LoxLang.Proofs.Grammar.Derivation
import Mathlib.Tactic.Common

/-!
# How phrases begin

A reader decides by the next token, so what a phrase can begin with is all that it sees.
Marks alone matter: numbers, strings and identifiers begin every expression.
-/

namespace LoxLang

namespace Mark

/-- Can an expression without operators begin with the mark? -/
def beginsPrimary : Mark → Bool
  | trueWord | falseWord | nilWord | thisWord | leftParen | superWord | funWord => true
  | _ => false

def beginsExpression : Mark → Bool
  | bang | minus => true
  | m => m.beginsPrimary

def beginsStatement : Mark → Bool
  | forWord | ifWord | whileWord | printWord | returnWord | breakWord | leftBrace => true
  | m => m.beginsExpression

def beginsDeclaration : Mark → Bool
  | classWord | varWord => true
  | m => m.beginsStatement

theorem beginsExpression_of_beginsPrimary (m : Mark) : m.beginsPrimary → m.beginsExpression := by
  cases m <;> decide

theorem beginsStatement_of_beginsExpression (m : Mark) :
    m.beginsExpression → m.beginsStatement := by
  cases m <;> decide

theorem beginsDeclaration_of_beginsStatement (m : Mark) :
    m.beginsStatement → m.beginsDeclaration := by
  cases m <;> decide

end Mark

theorem Token.isMark_iff {t : Token} {m : Mark} : t.isMark m = true ↔ t.kind = .mark m := by
  unfold Token.isMark
  cases t.kind <;> simp

theorem Token.isIdentifier_iff {t : Token} : t.isIdentifier = true ↔ t.kind = .identifier := by
  unfold Token.isIdentifier
  cases t.kind <;> simp

/-- A token is at most one mark. -/
theorem Token.isMark_eq_decide {t : Token} {m : Mark} (h : t.isMark m = true) (k : Mark) :
    t.isMark k = decide (m = k) := by
  rw [Token.isMark, Token.isMark_iff.1 h]
  rfl

theorem Token.isMark_eq_false_of_isIdentifier {t : Token} (h : t.isIdentifier = true) (k : Mark) :
    t.isMark k = false := by
  rw [Token.isMark, Token.isIdentifier_iff.1 h]

namespace Grammar

/-- A list of which only some marks can be first. -/
def Begins (p : Mark → Bool) (ts : List Token) : Prop :=
  ∃ t us, ts = t :: us ∧ ∀ m, t.isMark m → p m

/-- No function with a name begins the list, nor any that the list is the front of. -/
def Unnamed (ts : List Token) : Prop :=
  ∀ t us, ts = t :: us → t.isMark .funWord → ∃ u vs, us = u :: vs ∧ u.isIdentifier = false

variable {p q : Mark → Bool} {ts : List Token}

/-- A text that begins with one of some marks begins with one of more marks. -/
theorem Begins.mono (h : Begins p ts) (hpq : ∀ m, p m → q m) : Begins q ts := by
  obtain ⟨t, us, rfl, ht⟩ := h
  exact ⟨t, us, rfl, fun m hm => hpq m (ht m hm)⟩

/-- What a text begins with does not depend on the tokens behind it. -/
theorem Begins.append (h : Begins p ts) (us : List Token) : Begins p (ts ++ us) := by
  obtain ⟨t, vs, rfl, ht⟩ := h
  exact ⟨t, vs ++ us, rfl, ht⟩

theorem Begins.of_isMark {t : Token} {m : Mark} (ht : t.isMark m) (hm : p m) (us : List Token) :
    Begins p (t :: us) :=
  ⟨t, us, rfl, fun k hk => by
    rw [Token.isMark_eq_decide ht, decide_eq_true_eq] at hk
    exact hk ▸ hm⟩

theorem Begins.of_isIdentifier {t : Token} (ht : t.isIdentifier) (us : List Token) :
    Begins p (t :: us) :=
  ⟨t, us, rfl, fun k hk => by simp [Token.isMark_eq_false_of_isIdentifier ht] at hk⟩

/-- The marks that cannot begin a list are not at its head. -/
theorem Begins.head_ne (h : Begins p ts) {m : Mark} (hm : p m = false) :
    ts.head?.any (·.isMark m) = false := by
  obtain ⟨t, us, rfl, ht⟩ := h
  by_contra hne
  simp only [List.head?_cons, Option.any_some, Bool.not_eq_false] at hne
  rw [ht m hne] at hm
  cases hm

theorem Begins.ne_nil (h : Begins p ts) : ts ≠ [] := by
  obtain ⟨t, us, rfl, -⟩ := h
  simp

/-- More tokens behind a text do not make it begin with a function that has a name. -/
theorem Unnamed.append (hts : ts ≠ []) (h : Unnamed ts) (us : List Token) : Unnamed (ts ++ us) := by
  cases ts with
  | nil => exact absurd rfl hts
  | cons t ts =>
    rintro _ _ ⟨rfl, rfl⟩ ht
    obtain ⟨u, vs, rfl, hu⟩ := h t ts rfl ht
    exact ⟨u, vs ++ us, rfl, hu⟩

theorem Unnamed.of_isMark {t : Token} {m : Mark} (ht : t.isMark m) (hm : m ≠ .funWord)
    (us : List Token) : Unnamed (t :: us) := by
  rintro _ _ ⟨rfl, rfl⟩ hf
  rw [Token.isMark_eq_decide ht, decide_eq_true_eq] at hf
  exact absurd hf hm

/-- How the lists of a symbol begin; nothing for those that can be empty. -/
def Symbol.Begins : Symbol → List Token → Prop
  | .primary, ts | .call, ts => Grammar.Begins Mark.beginsPrimary ts ∧ Unnamed ts
  | .unary, ts | .operand _, ts | .operators _, ts | .assignment, ts | .expression, ts
  | .items, ts | .exprStmt, ts => Grammar.Begins Mark.beginsExpression ts ∧ Unnamed ts
  | .statement _, ts => Grammar.Begins Mark.beginsStatement ts ∧ Unnamed ts
  | .varDecl, ts => Grammar.Begins (· == .varWord) ts
  | .block, ts => Grammar.Begins (· == .leftBrace) ts
  | .function, ts => Grammar.Begins (fun _ => false) ts
  | .declaration, ts => Grammar.Begins Mark.beginsDeclaration ts
  | _, _ => True

/-- Each sort of phrase begins with the marks that the grammar looks for. -/
theorem begins_of_derives {g : Rules} {s : Symbol} {ts : List Token} {v : s.Tree}
    (h : Derives g s ts v) : Symbol.Begins s ts := by
  have longer {p : Mark → Bool} {ts us : List Token} (h : Begins p ts ∧ Unnamed ts) :
      Begins p (ts ++ us) ∧ Unnamed (ts ++ us) := ⟨h.1.append us, h.2.append h.1.ne_nil us⟩
  have marked {p : Mark → Bool} {t : Token} {m : Mark} {us : List Token} (ht : t.isMark m)
      (hp : p m) (hm : m ≠ .funWord) : Begins p (t :: us) ∧ Unnamed (t :: us) :=
    ⟨.of_isMark ht hp us, .of_isMark ht hm us⟩
  have other {p : Mark → Bool} {t : Token} {us : List Token} (ht : ∀ m, t.isMark m = false) :
      Begins p (t :: us) ∧ Unnamed (t :: us) :=
    ⟨⟨t, us, rfl, by simp [ht]⟩, by rintro _ _ ⟨rfl, rfl⟩ hf; simp [ht] at hf⟩
  have widen {p q : Mark → Bool} {ts : List Token} (h : Begins p ts ∧ Unnamed ts)
      (hpq : ∀ m, p m → q m) : Begins q ts ∧ Unnamed ts := ⟨h.1.mono hpq, h.2⟩
  induction h with
  | classDecl hw | subclassDecl hw | funDecl hw | varDecl hw | varDeclWith hw =>
    exact .of_isMark hw rfl _
  | block hl => exact .of_isMark hl rfl _
  | function hn => exact .of_isIdentifier hn _
  | varDeclaration _ ih => exact ih.mono fun m hm => by rw [eq_of_beq hm]; rfl
  | plain _ ih => exact ih.1.mono Mark.beginsDeclaration_of_beginsStatement
  | expression _ ih => exact widen ih Mark.beginsStatement_of_beginsExpression
  | exprStmt _ _ ih | sequence _ _ _ ih | nextItem _ _ _ ih | joined _ _ _ _ ih | call _ _ _ _ ih
  | get _ _ _ ih => exact longer ih
  | set _ _ _ _ _ ih => exact longer (widen ih Mark.beginsExpression_of_beginsPrimary)
  | called _ ih => exact widen ih Mark.beginsExpression_of_beginsPrimary
  | single _ ih | item _ ih | value _ ih | first _ ih | tighter _ _ ih | tightest _ _ ih
  | primary _ ih => exact ih
  | forLoop hw | ifThen hw | ifElse hw | whileLoop hw | print hw | returnWith hw | breakOut hw
  | not hw | negate hw | yes hw | no hw | nil hw | this hw | group hw | super hw =>
    exact marked hw rfl (by decide)
  | blockStmt hb => cases hb with
    | block hl => exact marked hl rfl (by decide)
  | assign hn | read hn => exact other (Token.isMark_eq_false_of_isIdentifier hn)
  | number hk | string hk => exact other fun m => by rw [Token.isMark, hk]
  | lambda hw hl =>
    refine ⟨.of_isMark hw rfl _, ?_⟩
    rintro _ _ ⟨rfl, rfl⟩ -
    exact ⟨_, _, rfl, by rw [Token.isIdentifier, Token.isMark_iff.1 hl]⟩
  | _ => trivial

end Grammar

end LoxLang
