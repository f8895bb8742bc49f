import Mathlib
import LoxLang.Proofs.Grammar.Recovery
import LoxLang.Proofs.Token.Places
import LoxLang.Proofs.Tree.Forms
import LoxLang.Proofs.Tree.Regular

/-!
# The parenthesized form can be read back

`Expr.ofSexp?` and `Stmt.ofSexp?` take a nested list for a tree. They give back each tree
whose leaves are readable, but for what its text does not tell: places, depths, and which of
the numbers with one printed form it holds. So two such trees with one text are `shown` as one
tree. The names of the trees of a source are readable; its strings are not.
-/

namespace LoxLang

/-! ## What is shown of a tree -/

/-- A number stands for all with its printed form: it is shown as that text. -/
def Literal.shown : Literal → Literal
  | .number x => .string (Number.text x)
  | l => l

/-- Two constants that are no strings are shown alike just if they are the same, or numbers
with the same printed form. -/
theorem Literal.shown_eq_iff {l l' : Literal} (h : ∀ text, l ≠ .string text)
    (h' : ∀ text, l' ≠ .string text) : l.shown = l'.shown ↔ l = l' ∨
      ∃ x y, l = .number x ∧ l' = .number y ∧ Number.text x = Number.text y := by
  cases l with
  | string text => exact absurd rfl (h text)
  | number | yes | no | nil =>
    cases l' with
    | string text => exact absurd rfl (h' text)
    | number | yes | no | nil => simp +contextual [shown]

def Name.shown (n : Name) : Name := ⟨n.text, default⟩

/-- The name of a use, without place and depth. -/
def Reference.shown (r : Reference) : Reference := r.name.shown.reference

mutual

/-- The expression without places and depths, its literals as they are shown. -/
def Expr.shown : Expr → Expr
  | .literal value _ => .literal value.shown default
  | .group inner _ => .group inner.shown default
  | .unary op operand _ => .unary op operand.shown default
  | .binary op left right _ => .binary op left.shown right.shown default
  | .sequence items _ => .sequence (Expr.allShown items) default
  | .read target => .read target.shown
  | .assign target value => .assign target.shown value.shown
  | .call callee arguments _ => .call callee.shown (Expr.allShown arguments) default
  | .lambda params body _ => .lambda (params.map Name.shown) (Stmt.allShown body) default
  | .get object property => .get object.shown property.shown
  | .set object property value => .set object.shown property.shown value.shown
  | .this _ _ => .this none default
  | .super method _ _ => .super method.shown none default

def Expr.allShown : List Expr → List Expr
  | [] => []
  | e :: es => e.shown :: Expr.allShown es

/-- The statement without places and depths, its literals as they are shown. -/
def Stmt.shown : Stmt → Stmt
  | .expression e => .expression e.shown
  | .print e _ => .print e.shown default
  | .declare name none => .declare name.shown none
  | .declare name (some initial) => .declare name.shown (some initial.shown)
  | .block body _ => .block (Stmt.allShown body) default
  | .branch test yes none _ => .branch test.shown yes.shown none default
  | .branch test yes (some no) _ => .branch test.shown yes.shown (some no.shown) default
  | .loop test body _ => .loop test.shown body.shown default
  | .breakOut _ => .breakOut default
  | .function f => .function f.shown
  | .returnWith none _ => .returnWith none default
  | .returnWith (some value) _ => .returnWith (some value.shown) default
  | .classDecl name none methods => .classDecl name.shown none (Function.allShown methods)
  | .classDecl name (some superclass) methods =>
    .classDecl name.shown (some superclass.shown) (Function.allShown methods)

def Stmt.allShown : List Stmt → List Stmt
  | [] => []
  | s :: ss => s.shown :: Stmt.allShown ss

/-- The function without places and depths, its literals as they are shown. -/
def Function.shown : Function → Function
  | .mk name params body => .mk name.shown (params.map Name.shown) (Stmt.allShown body)

def Function.allShown : List Function → List Function
  | [] => []
  | f :: fs => f.shown :: Function.allShown fs

end

/-! ## Taking nested lists for trees -/

/-- The operator between two operands that is written so. -/
def BinaryOp.ofSymbol? (symbol : String) : Option BinaryOp :=
  [add, subtract, multiply, divide, less, lessEqual, greater, greaterEqual, equal, differ, and,
    or].find? fun op => op.symbol == symbol

/-- A word is a literal, `this` or a variable. -/
def Expr.ofWord (word : String) : Expr :=
  if word = "true" then .literal .yes default
  else if word = "false" then .literal .no default
  else if word = "nil" then .literal .nil default
  else if word = "this" then .this none default
  else if beginsAsWord word then .read (Name.shown ⟨word, default⟩).reference
  else .literal (.string word) default

def Name.ofSexp? : Sexp → Option Name
  | .word text => some ⟨text, default⟩
  | .list _ => none

mutual

/-- The expression with this nested list. A list is told by its first word and by how many
items it has. -/
def Expr.ofSexp? : Sexp → Option Expr
  | .word text => some (.ofWord text)
  | .list [.word "group", e] => return .group (← Expr.ofSexp? e) default
  | .list [.word "!", e] => return .unary .not (← Expr.ofSexp? e) default
  | .list [.word "-", e] => return .unary .negate (← Expr.ofSexp? e) default
  | .list (.word "sequence" :: es) => return .sequence (← Expr.ofSexps? es) default
  | .list [.word "=", .word x, e] => return .assign ⟨⟨x, default⟩, none⟩ (← Expr.ofSexp? e)
  | .list [.word "=", .list [.word ".", o, .word x], e] =>
    return .set (← Expr.ofSexp? o) ⟨x, default⟩ (← Expr.ofSexp? e)
  | .list (.word "call" :: e :: es) =>
    return .call (← Expr.ofSexp? e) (← Expr.ofSexps? es) default
  | .list (.word "lambda" :: .list ps :: ss) =>
    return .lambda (← ps.mapM Name.ofSexp?) (← Stmt.ofSexps? ss) default
  | .list [.word ".", o, .word x] => return .get (← Expr.ofSexp? o) ⟨x, default⟩
  | .list [.word "super", .word x] => some (.super ⟨x, default⟩ none default)
  | .list [.word symbol, l, r] =>
    return .binary (← BinaryOp.ofSymbol? symbol) (← Expr.ofSexp? l) (← Expr.ofSexp? r) default
  | .list _ => none

def Expr.ofSexps? : List Sexp → Option (List Expr)
  | [] => some []
  | e :: es => return (← Expr.ofSexp? e) :: (← Expr.ofSexps? es)

def Stmt.ofSexp? : Sexp → Option Stmt
  | .list [.word ";", e] => return .expression (← Expr.ofSexp? e)
  | .list [.word "print", e] => return .print (← Expr.ofSexp? e) default
  | .list [.word "var", .word x] => some (.declare ⟨x, default⟩ none)
  | .list [.word "var", .word x, e] => return .declare ⟨x, default⟩ (some (← Expr.ofSexp? e))
  | .list (.word "block" :: ss) => return .block (← Stmt.ofSexps? ss) default
  | .list [.word "if", e, s] => return .branch (← Expr.ofSexp? e) (← Stmt.ofSexp? s) none default
  | .list [.word "if", e, s, t] =>
    return .branch (← Expr.ofSexp? e) (← Stmt.ofSexp? s) (some (← Stmt.ofSexp? t)) default
  | .list [.word "while", e, s] => return .loop (← Expr.ofSexp? e) (← Stmt.ofSexp? s) default
  | .list [.word "break"] => some (.breakOut default)
  | .list (.word "fun" :: .word x :: .list ps :: ss) =>
    return .function (.mk ⟨x, default⟩ (← ps.mapM Name.ofSexp?) (← Stmt.ofSexps? ss))
  | .list [.word "return"] => some (.returnWith none default)
  | .list [.word "return", e] => return .returnWith (some (← Expr.ofSexp? e)) default
  | .list (.word "class" :: .word x :: .word "<" :: .word y :: fs) =>
    return .classDecl ⟨x, default⟩ (some ⟨⟨y, default⟩, none⟩) (← Function.ofSexps? fs)
  | .list (.word "class" :: .word x :: fs) =>
    return .classDecl ⟨x, default⟩ none (← Function.ofSexps? fs)
  | _ => none

def Stmt.ofSexps? : List Sexp → Option (List Stmt)
  | [] => some []
  | s :: ss => return (← Stmt.ofSexp? s) :: (← Stmt.ofSexps? ss)

def Function.ofSexp? : Sexp → Option Function
  | .list (.word "method" :: .word x :: .list ps :: ss) =>
    return .mk ⟨x, default⟩ (← ps.mapM Name.ofSexp?) (← Stmt.ofSexps? ss)
  | _ => none

def Function.ofSexps? : List Sexp → Option (List Function)
  | [] => some []
  | f :: fs => return (← Function.ofSexp? f) :: (← Function.ofSexps? fs)

end

/-! ## Reading back -/

theorem Name.IsWord.ofWord {n : Name} (h : n.IsWord) :
    Expr.ofWord n.text = .read n.shown.reference := by
  unfold Expr.ofWord
  rw [if_neg (h.ne (by decide)), if_neg (h.ne (by decide)), if_neg (h.ne (by decide)),
    if_neg (h.ne (by decide)), if_pos h.beginsAsWord]
  rfl

theorem Literal.IsPlain.ofWord {l : Literal} (h : l.IsPlain) :
    Expr.ofWord l.text = .literal l.shown default := by
  cases l with
  | number x =>
    obtain ⟨negative, m, hx⟩ := h
    have hword := (Number.numeric_text hx).2.beginsAsWord_eq_false
    have hne {word : String} (hb : beginsAsWord word = true) : Number.text x ≠ word := by
      rintro rfl
      rw [hword] at hb
      cases hb
    unfold Expr.ofWord Literal.text
    rw [if_neg (hne (by decide)), if_neg (hne (by decide)), if_neg (hne (by decide)),
      if_neg (hne (by decide)), if_neg (by simp [hword])]
    rfl
  | string => exact h.elim
  | yes | no | nil => rfl

/-- A parameter list is read back. -/
theorem Name.mapM_ofSexp? (params : List Name) :
    (params.map fun p => Sexp.word p.text).mapM Name.ofSexp? = some (params.map Name.shown) := by
  induction params with
  | nil => rfl
  | cons p ps ih =>
    rw [List.map_cons, List.mapM_cons, ih]
    rfl

theorem Expr.ofSexp?_unary (op : UnaryOp) (s : Sexp) :
    Expr.ofSexp? (.list [.word op.symbol, s]) =
      return .unary op (← Expr.ofSexp? s) default := by
  cases op <;> rfl

theorem Expr.ofSexp?_binary (op : BinaryOp) (s t : Sexp) :
    Expr.ofSexp? (.list [.word op.symbol, s, t]) =
      return .binary op (← Expr.ofSexp? s) (← Expr.ofSexp? t) default := by
  cases op <;> rfl

section
open Atom (AllReadable allReadable_append allReadable_name allReadable_names allReadable_literal)

mutual

/-- The tree of an expression is read back from its nested list, as it is shown. -/
theorem Expr.ofSexp?_sexp (e : Expr) (h : AllReadable e.atoms) :
    Expr.ofSexp? e.sexp = some e.shown := by
  match e with
  | .literal value _ => exact congrArg some (allReadable_literal.1 h).1.ofWord
  | .read target => exact congrArg some (allReadable_name.1 h).1.ofWord
  | .this _ _ | .super _ _ _ => rfl
  | .group e _ =>
    rw [Expr.sexp, Expr.ofSexp?, e.ofSexp?_sexp h]
    rfl
  | .unary op e _ =>
    rw [Expr.sexp, Expr.ofSexp?_unary, e.ofSexp?_sexp h]
    rfl
  | .binary op left right _ =>
    obtain ⟨hl, hr⟩ := allReadable_append.1 h
    rw [Expr.sexp, Expr.ofSexp?_binary, left.ofSexp?_sexp hl, right.ofSexp?_sexp hr]
    rfl
  | .sequence items _ =>
    rw [Expr.sexp, Expr.ofSexp?, Expr.ofSexps?_sexps items h]
    rfl
  | .assign target e =>
    rw [Expr.sexp, Expr.ofSexp?, e.ofSexp?_sexp (allReadable_name.1 h).2]
    rfl
  | .call callee arguments _ =>
    obtain ⟨hc, ha⟩ := allReadable_append.1 h
    rw [Expr.sexp, Expr.ofSexp?, callee.ofSexp?_sexp hc, Expr.ofSexps?_sexps arguments ha]
    rfl
  | .lambda params body _ =>
    rw [Expr.sexp, paramsSexp, Expr.ofSexp?, Name.mapM_ofSexp?,
      Stmt.ofSexps?_sexps body (allReadable_append.1 h).2]
    rfl
  | .get object property =>
    rw [Expr.sexp, Expr.ofSexp?, object.ofSexp?_sexp (allReadable_name.1 h).2]
    rfl
  | .set object property value =>
    obtain ⟨ho, hv⟩ := allReadable_append.1 (allReadable_name.1 h).2
    rw [Expr.sexp, Expr.ofSexp?, object.ofSexp?_sexp ho, value.ofSexp?_sexp hv]
    rfl

theorem Expr.ofSexps?_sexps (es : List Expr) (h : AllReadable (Expr.allAtoms es)) :
    Expr.ofSexps? (Expr.sexps es) = some (Expr.allShown es) := by
  match es with
  | [] => rfl
  | e :: es =>
    obtain ⟨he, hes⟩ := allReadable_append.1 h
    rw [Expr.sexps, Expr.ofSexps?, e.ofSexp?_sexp he, Expr.ofSexps?_sexps es hes]
    rfl

/-- The tree of a statement is read back, too. -/
theorem Stmt.ofSexp?_sexp (s : Stmt) (h : AllReadable s.atoms) :
    Stmt.ofSexp? s.sexp = some s.shown := by
  match s with
  | .declare _ none | .breakOut _ | .returnWith none _ => rfl
  | .expression e | .print e _ | .returnWith (some e) _ =>
    rw [Stmt.sexp, Stmt.ofSexp?, e.ofSexp?_sexp h]
    rfl
  | .declare name (some e) =>
    rw [Stmt.sexp, Stmt.ofSexp?, e.ofSexp?_sexp (allReadable_name.1 h).2]
    rfl
  | .block body _ =>
    rw [Stmt.sexp, Stmt.ofSexp?, Stmt.ofSexps?_sexps body h]
    rfl
  | .branch test yes none _ =>
    obtain ⟨ht, hy⟩ := allReadable_append.1 h
    rw [Stmt.sexp, Stmt.ofSexp?, test.ofSexp?_sexp ht, yes.ofSexp?_sexp hy]
    rfl
  | .branch test yes (some no) _ =>
    obtain ⟨ht, h⟩ := allReadable_append.1 h
    obtain ⟨hy, hn⟩ := allReadable_append.1 h
    rw [Stmt.sexp, Stmt.ofSexp?, test.ofSexp?_sexp ht, yes.ofSexp?_sexp hy, no.ofSexp?_sexp hn]
    rfl
  | .loop test body _ =>
    obtain ⟨ht, hb⟩ := allReadable_append.1 h
    rw [Stmt.sexp, Stmt.ofSexp?, test.ofSexp?_sexp ht, body.ofSexp?_sexp hb]
    rfl
  | .function (.mk name params body) =>
    have hb := (allReadable_append.1 (allReadable_name.1 h).2).2
    rw [Stmt.sexp, Function.sexp, paramsSexp, Stmt.ofSexp?, Name.mapM_ofSexp?,
      Stmt.ofSexps?_sexps body hb]
    rfl
  | .classDecl name none methods =>
    -- a method is a list, so it is not taken for the word ahead of a superclass
    have hno (y : String) (rest : List Sexp) :
        Function.sexps methods = .word "<" :: .word y :: rest → False := by
      match methods with
      | [] => nofun
      | .mk _ _ _ :: _ => nofun
    rw [Stmt.sexp, Stmt.ofSexp?, Function.ofSexps?_sexps methods (allReadable_name.1 h).2]
    · rfl
    · exact hno
  | .classDecl name (some superclass) methods =>
    have hm := (allReadable_name.1 (allReadable_name.1 h).2).2
    rw [Stmt.sexp, Stmt.ofSexp?, Function.ofSexps?_sexps methods hm]
    rfl

theorem Stmt.ofSexps?_sexps (ss : List Stmt) (h : AllReadable (Stmt.allAtoms ss)) :
    Stmt.ofSexps? (Stmt.sexps ss) = some (Stmt.allShown ss) := by
  match ss with
  | [] => rfl
  | s :: ss =>
    obtain ⟨hs, hss⟩ := allReadable_append.1 h
    rw [Stmt.sexps, Stmt.ofSexps?, s.ofSexp?_sexp hs, Stmt.ofSexps?_sexps ss hss]
    rfl

theorem Function.ofSexps?_sexps (fs : List Function) (h : AllReadable (Function.allAtoms fs)) :
    Function.ofSexps? (Function.sexps fs) = some (Function.allShown fs) := by
  match fs with
  | [] => rfl
  | .mk name params body :: fs =>
    obtain ⟨hf, hfs⟩ := allReadable_append.1 h
    have hb := (allReadable_append.1 (allReadable_name.1 hf).2).2
    rw [Function.sexps, Function.ofSexps?, Function.sexp, paramsSexp, Function.ofSexp?,
      Name.mapM_ofSexp?, Stmt.ofSexps?_sexps body hb, Function.ofSexps?_sexps fs hfs]
    rfl

end

/-! ## Texts -/

def Expr.read? (text : String) : Option Expr := (Sexp.read? text).bind Expr.ofSexp?

def Stmt.read? (text : String) : Option Stmt := (Sexp.read? text).bind Stmt.ofSexp?

/-- An expression is read back from its text. -/
theorem Expr.read?_text {e : Expr} (h : AllReadable e.atoms) : Expr.read? e.text = some e.shown := by
  rw [Expr.read?, ← e.text_sexp, Sexp.read?_text (e.plain_sexp h), Option.bind_some,
    e.ofSexp?_sexp h]

/-- A statement is read back from its text. -/
theorem Stmt.read?_text {s : Stmt} (h : AllReadable s.atoms) : Stmt.read? s.text = some s.shown := by
  rw [Stmt.read?, ← s.text_sexp, Sexp.read?_text (s.plain_sexp h), Option.bind_some,
    s.ofSexp?_sexp h]

end

/-! ## Names of sources -/

/-- Each name among the atoms may be written in a program. -/
def Atom.AllNamed (as : List Atom) : Prop := ∀ n, .name n ∈ as → n.IsWord

namespace Atom

@[simp] theorem allNamed_nil : AllNamed [] := by simp [AllNamed]

@[simp] theorem allNamed_name {n : Name} {as : List Atom} :
    AllNamed (.name n :: as) ↔ n.IsWord ∧ AllNamed as := by
  simp [AllNamed, or_imp, forall_and]

@[simp] theorem allNamed_literal {l : Literal} {as : List Atom} :
    AllNamed (.literal l :: as) ↔ AllNamed as := by
  simp [AllNamed]

@[simp] theorem allNamed_append {as bs : List Atom} :
    AllNamed (as ++ bs) ↔ AllNamed as ∧ AllNamed bs := by
  simp [AllNamed, or_imp, forall_and]

@[simp] theorem allNamed_names {ns : List Name} :
    AllNamed (ns.map .name) ↔ ∀ n ∈ ns, n.IsWord := by
  simp [AllNamed]

end Atom

/-- The identifiers among the tokens are names that may be written. -/
def Token.AllNamed (ts : List Token) : Prop := ∀ t ∈ ts, t.isIdentifier → t.name.IsWord

@[simp] theorem Token.allNamed_nil : Token.AllNamed [] := by simp [Token.AllNamed]

@[simp] theorem Token.allNamed_cons {t : Token} {ts : List Token} :
    Token.AllNamed (t :: ts) ↔ (t.isIdentifier → t.name.IsWord) ∧ Token.AllNamed ts := by
  simp [Token.AllNamed]

@[simp] theorem Token.allNamed_append {ts us : List Token} :
    Token.AllNamed (ts ++ us) ↔ Token.AllNamed ts ∧ Token.AllNamed us := by
  simp [Token.AllNamed, or_imp, forall_and]

namespace Grammar

/-- The names and literals of a phrase. -/
def Symbol.atoms : (s : Symbol) → s.Tree → List Atom
  | .declarations, ss => Stmt.allAtoms ss
  | .block, ss => Stmt.allAtoms ss
  | .declaration, s => s.atoms
  | .varDecl, s => s.atoms
  | .statement _, s => s.atoms
  | .exprStmt, s => s.atoms
  | .forStart, o => o.elim [] Stmt.atoms
  | .methods, fs => Function.allAtoms fs
  | .function, f => f.atoms
  | .params, ns => ns.map .name
  | .optional, o => o.elim [] Expr.atoms
  | .items, es => Expr.allAtoms es
  | .arguments, es => Expr.allAtoms es
  | .expression, e => e.atoms
  | .assignment, e => e.atoms
  | .operators _, e => e.atoms
  | .operand _, e => e.atoms
  | .unary, e => e.atoms
  | .call, e => e.atoms
  | .primary, e => e.atoms

theorem named_of_names {ts : List Token} {ns : List Name} (h : Names ts ns)
    (hts : Token.AllNamed ts) : ∀ n ∈ ns, n.IsWord := by
  induction h with
  | one ht => simpa using hts _ (by simp) ht
  | @more t c ts ns ht _ _ ih =>
    have hrest := ih fun u hu => hts u (by simp [hu])
    simpa using ⟨hts t (by simp) ht, hrest⟩

/-- The leaves of a loop have names if those of its parts do. -/
theorem named_forLoop {place : Place} {initial : Option Stmt} {test step : Option Expr}
    {body : Stmt} (hi : Atom.AllNamed (initial.elim [] Stmt.atoms))
    (ht : Atom.AllNamed (test.elim [] Expr.atoms)) (hs : Atom.AllNamed (step.elim [] Expr.atoms))
    (hb : Atom.AllNamed body.atoms) :
    Atom.AllNamed (Stmt.forLoop place initial test step body).atoms := by
  cases initial <;> cases test <;> cases step <;>
    simp_all [Stmt.forLoop, Stmt.atoms, Stmt.allAtoms, Expr.atoms]

/-- The names of a tree are those of its tokens. -/
theorem named_of_derives {g : Rules} {s : Symbol} {ts : List Token} {v : s.Tree}
    (h : Derives g s ts v) (hts : Token.AllNamed ts) : Atom.AllNamed (Symbol.atoms s v) := by
  induction h with
  | forLoop _ _ _ _ _ _ _ _ ihi iht ihs ihb =>
    simp only [Token.allNamed_cons, Token.allNamed_append] at hts
    obtain ⟨-, -, hi, hc, -, hs, -, hb⟩ := hts
    exact named_forLoop (ihi hi) (iht hc) (ihs hs) (ihb hb)
  | params hns => exact Atom.allNamed_names.2 (named_of_names hns hts)
  | @returnWith _ _ o _ _ _ _ ih =>
    simp only [Token.allNamed_cons, Token.allNamed_append] at hts
    have ho := ih hts.2.1
    cases o with
    | none => exact Atom.allNamed_nil
    | some e => exact ho
  | _ => simp_all [Symbol.atoms, Stmt.atoms, Stmt.allAtoms, Expr.atoms, Expr.allAtoms,
      Function.atoms, Function.allAtoms, Name.reference]

end Grammar

theorem Region.Lexeme.isWord {cs : List Char} (h : Region.Lexeme cs .identifier) :
    Region.IsWord cs := by
  cases h with
  | identifier hw => exact hw

theorem Token.allNamed_body (file source : String) : Token.AllNamed (Token.body file source) := by
  intro t ht hi
  have hscan : t ∈ (Token.scan file source).1 := by
    rw [Token.scan_eq_body]
    exact List.mem_append_left _ ht
  have hlexeme := Token.lexeme_of_mem_body t ht
  rw [Token.isIdentifier_iff.1 hi] at hlexeme
  exact ⟨hlexeme.isWord, Token.ofWord?_of_mem_scan hscan hi⟩

/-- The names in the statements of a source may be written, also next to others that do not
fit. -/
theorem Program.allNamed_ofTokens (file source : String) :
    Atom.AllNamed (Stmt.allAtoms (Program.ofTokens (Token.scan file source).1).statements) := by
  rw [Token.scan_eq_body]
  have hfinish : (Token.finish file source).isFinish := rfl
  obtain ⟨ts, hts, h⟩ := statements_derives Token.isFinish_of_mem_body hfinish
  have hnamed := Grammar.named_of_derives h fun t ht =>
    Token.allNamed_body file source t (hts.subset ht)
  exact hnamed

theorem Expr.allNamed_ofTokens {file source : String} {e : Expr}
    (h : Expr.ofTokens (Token.scan file source).1 = .ok e) : Atom.AllNamed e.atoms :=
  Grammar.named_of_derives (Expr.derives_of_ofTokens h) (Token.allNamed_body file source)

theorem Stmt.atoms_subset {s : Stmt} {ss : List Stmt} (h : s ∈ ss) :
    s.atoms ⊆ Stmt.allAtoms ss := by
  induction ss with
  | nil => cases h
  | cons t ss ih =>
    rcases List.mem_cons.1 h with rfl | h
    · exact List.subset_append_left _ _
    · exact List.Subset.trans (ih h) (List.subset_append_right _ _)

/-! ## Unique readability -/

/-- The tree holds no string literal, and only finite numbers. -/
def Expr.IsPlain (e : Expr) : Prop := ∀ l, .literal l ∈ e.atoms → l.IsPlain

/-- The tree holds no string literal, and only finite numbers. -/
def Stmt.IsPlain (s : Stmt) : Prop := ∀ l, .literal l ∈ s.atoms → l.IsPlain

/-- The parenthesized form is uniquely readable. A statement or an expression that is read from
a source, and that holds no string literal and only finite numbers, is read back from its text
but for places, depths and the choice between numbers of one printed form. So two such trees
with one text are the same but for these. -/
theorem parenthesized_unique :
    (∀ {file source : String} {s : Stmt},
      s ∈ (Program.ofTokens (Token.scan file source).1).statements → s.IsPlain →
        Stmt.read? s.text = some s.shown ∧
        ∀ {file' source' : String} {s' : Stmt},
          s' ∈ (Program.ofTokens (Token.scan file' source').1).statements → s'.IsPlain →
            s.text = s'.text → s.shown = s'.shown) ∧
    (∀ {file source : String} {e : Expr},
      Expr.ofTokens (Token.scan file source).1 = .ok e → e.IsPlain →
        Expr.read? e.text = some e.shown ∧
        ∀ {file' source' : String} {e' : Expr},
          Expr.ofTokens (Token.scan file' source').1 = .ok e' → e'.IsPlain →
            e.text = e'.text → e.shown = e'.shown) := by
  have hstmt {file source : String} {s : Stmt}
      (hs : s ∈ (Program.ofTokens (Token.scan file source).1).statements) (hp : s.IsPlain) :
      Stmt.read? s.text = some s.shown :=
    Stmt.read?_text
      ⟨fun n hn => Program.allNamed_ofTokens file source n (Stmt.atoms_subset hs hn), hp⟩
  have hexpr {file source : String} {e : Expr}
      (he : Expr.ofTokens (Token.scan file source).1 = .ok e) (hp : e.IsPlain) :
      Expr.read? e.text = some e.shown := Expr.read?_text ⟨Expr.allNamed_ofTokens he, hp⟩
  refine ⟨fun hs hp => ⟨hstmt hs hp, fun hs' hp' htext => ?_⟩,
    fun he hp => ⟨hexpr he hp, fun he' hp' htext => ?_⟩⟩
  · have hread := hstmt hs hp
    rw [htext, hstmt hs' hp'] at hread
    exact (Option.some.inj hread).symm
  · have hread := hexpr he hp
    rw [htext, hexpr he' hp'] at hread
    exact (Option.some.inj hread).symm

/-- `a.b = -c`, with the given places. -/
def negatedField (a b c minus : Place) : Expr :=
  .set (.read ⟨⟨"a", a⟩, none⟩) ⟨"b", b⟩ (.unary .negate (.read ⟨⟨"c", c⟩, none⟩) minus)

/-- One statement, and one expression, in two layouts. -/
theorem negatedField_shown :
    let place := Place.mk "main.lox"
    let e := negatedField (place 1 1) (place 1 3) (place 1 8) (place 1 7)
    let e' := negatedField (place 1 1) (place 2 2) (place 3 2) (place 3 1)
    e.text = "(= (. a b) (- c))" ∧ e'.text = e.text ∧ e.shown = e'.shown ∧
      (Stmt.expression e).shown = (Stmt.expression e').shown := by
  intro place e e'
  have hs : .expression e ∈
      (Program.ofTokens (Token.scan "main.lox" "a.b = -c;").1).statements := by
    rw [show (Program.ofTokens (Token.scan "main.lox" "a.b = -c;").1).statements =
      [.expression e] by cbv]
    exact List.mem_cons_self
  have hs' : .expression e' ∈
      (Program.ofTokens (Token.scan "main.lox" "a\n.b =\n-c ; ").1).statements := by
    rw [show (Program.ofTokens (Token.scan "main.lox" "a\n.b =\n-c ; ").1).statements =
      [.expression e'] by cbv]
    exact List.mem_cons_self
  have he : Expr.ofTokens (Token.scan "main.lox" "a.b = -c").1 = .ok e := by cbv
  have he' : Expr.ofTokens (Token.scan "main.lox" "a\n.b =\n-c").1 = .ok e' := by cbv
  have hp (a b c minus : Place) : (negatedField a b c minus).IsPlain := by
    simp [Expr.IsPlain, negatedField, Expr.atoms]
  refine ⟨rfl, rfl, ?_, ?_⟩
  · exact (parenthesized_unique.2 he (hp _ _ _ _)).2 he' (hp _ _ _ _) rfl
  · exact (parenthesized_unique.1 hs (hp _ _ _ _)).2 hs' (hp _ _ _ _) rfl

end LoxLang
