import LoxLang.Tree.Reading

/-!
# Derivations

Which trees the grammar gives to which token lists:

```text
program     → declaration* END
declaration → classDecl | "fun" function | varDecl | statement
classDecl   → "class" IDENT ("<" IDENT)? "{" function* "}"
function    → IDENT "(" parameters? ")" block
varDecl     → "var" IDENT ("=" expression)? ";"
statement   → exprStmt | forStmt | ifStmt | printStmt | returnStmt | breakStmt
            | whileStmt | block
forStmt     → "for" "(" (varDecl | exprStmt | ";") expression? ";" expression? ")" statement
block       → "{" declaration* "}"
expression  → assignment ("," assignment)*
assignment  → (call ".")? IDENT "=" assignment | operators
operators   → operand (OPERATOR operand)*          one rule for each `Rank`
unary       → ("!" | "-") unary | call
call        → primary ("(" arguments? ")" | "." IDENT)*
primary     → NUMBER | STRING | "true" | "false" | "nil" | "this" | IDENT
            | "(" expression ")" | "super" "." IDENT | "fun" "(" parameters? ")" block
```

`Derives` says nothing of readers. Of its `Rules`, `nearest` picks among the derivations
of a list with an `else`, and `skips` lets tokens drop out between declarations.
-/

namespace LoxLang

/-- The ranks of operators between two operands, the loosest first. -/
inductive Rank where
  | or | and | equality | comparison | term | factor
deriving DecidableEq, Repr

def Rank.table : Rank → List (Mark × BinaryOp)
  | or => [(.orWord, .or)]
  | and => [(.andWord, .and)]
  | equality => [(.bangEqual, .differ), (.equalEqual, .equal)]
  | comparison => [(.greater, .greater), (.greaterEqual, .greaterEqual), (.less, .less),
      (.lessEqual, .lessEqual)]
  | term => [(.minus, .subtract), (.plus, .add)]
  | factor => [(.star, .multiply), (.slash, .divide)]

/-- The next tighter rank; operands of the tightest one are unary. -/
def Rank.tighter? : Rank → Option Rank
  | or => some and
  | and => some equality
  | equality => some comparison
  | comparison => some term
  | term => some factor
  | factor => none

/-- The phrases of the language. `statement true` ends in an `if` without an `else`. -/
inductive Symbol where
  | declarations | declaration | varDecl
  | statement (short : Bool)
  | exprStmt | forStart
  | methods | function | block | params
  | expression | optional | items | arguments | assignment
  | operators (r : Rank)
  | operand (r : Rank)
  | unary | call | primary
deriving DecidableEq, Repr

/-- What a phrase is read as. -/
abbrev Symbol.Tree : Symbol → Type
  | declarations | block => List Stmt
  | declaration | varDecl | statement _ | exprStmt => Stmt
  | forStart => Option Stmt
  | methods => List Function
  | function => Function
  | params => List Name
  | optional => Option Expr
  | items | arguments => List Expr
  | _ => Expr

/-- How freely the grammar is taken. -/
structure Rules where
  /-- An `else` belongs to the nearest `if`. -/
  nearest : Bool
  /-- Tokens may drop out between declarations. -/
  skips : Bool

inductive Names : List Token → List Name → Prop where
  | one {t} : t.isIdentifier → Names [t] [t.name]
  | more {t c ts ns} : t.isIdentifier → c.isMark .comma → Names ts ns →
      Names (t :: c :: ts) (t.name :: ns)

/-- The rules of the grammar. -/
inductive Derives (g : Rules) : (s : Symbol) → List Token → s.Tree → Prop where
  -- declarations
  | noDeclaration : Derives g .declarations [] []
  | nextDeclaration {ts us s ss} : Derives g .declaration ts s → Derives g .declarations us ss →
      Derives g .declarations (ts ++ us) (s :: ss)
  | skipped {ts us ss} : g.skips → Derives g .declarations us ss →
      Derives g .declarations (ts ++ us) ss
  | classDecl {w n l ts fs r} : w.isMark .classWord → n.isIdentifier → l.isMark .leftBrace →
      Derives g .methods ts fs → r.isMark .rightBrace →
      Derives g .declaration (w :: n :: l :: (ts ++ [r])) (.classDecl n.name none fs)
  | subclassDecl {w n o p l ts fs r} : w.isMark .classWord → n.isIdentifier →
      o.isMark .less → p.isIdentifier → l.isMark .leftBrace →
      Derives g .methods ts fs → r.isMark .rightBrace →
      Derives g .declaration (w :: n :: o :: p :: l :: (ts ++ [r]))
        (.classDecl n.name (some p.name.reference) fs)
  | funDecl {w ts f} : w.isMark .funWord → Derives g .function ts f →
      Derives g .declaration (w :: ts) (.function f)
  | varDeclaration {ts s} : Derives g .varDecl ts s → Derives g .declaration ts s
  | plain {o ts s} : Derives g (.statement o) ts s → Derives g .declaration ts s
  | varDecl {w n e} : w.isMark .varWord → n.isIdentifier → e.isMark .semicolon →
      Derives g .varDecl [w, n, e] (.declare n.name none)
  | varDeclWith {w n q ts v e} : w.isMark .varWord → n.isIdentifier → q.isMark .equal →
      Derives g .expression ts v → e.isMark .semicolon →
      Derives g .varDecl (w :: n :: q :: (ts ++ [e])) (.declare n.name (some v))
  | noMethod : Derives g .methods [] []
  | nextMethod {ts us f fs} : Derives g .function ts f → Derives g .methods us fs →
      Derives g .methods (ts ++ us) (f :: fs)
  | function {n l ps ns r bs body} : n.isIdentifier → l.isMark .leftParen →
      Derives g .params ps ns → r.isMark .rightParen → Derives g .block bs body →
      Derives g .function (n :: l :: (ps ++ r :: bs)) (.mk n.name ns body)
  | noParams : Derives g .params [] []
  | params {ts ns} : Names ts ns → ns.length ≤ Grammar.maxArity → Derives g .params ts ns
  | block {l ts ss r} : l.isMark .leftBrace → Derives g .declarations ts ss →
      r.isMark .rightBrace → Derives g .block (l :: (ts ++ [r])) ss
  -- statements
  | exprStmt {ts v e} : Derives g .expression ts v → e.isMark .semicolon →
      Derives g .exprStmt (ts ++ [e]) (.expression v)
  | expression {ts s} : Derives g .exprStmt ts s → Derives g (.statement false) ts s
  | forLoop {w l is initial cs test m ss step r o bs body} : w.isMark .forWord →
      l.isMark .leftParen → Derives g .forStart is initial → Derives g .optional cs test →
      m.isMark .semicolon → Derives g .optional ss step → r.isMark .rightParen →
      Derives g (.statement o) bs body →
      Derives g (.statement o) (w :: l :: (is ++ (cs ++ m :: (ss ++ r :: bs))))
        (.forLoop w.place initial test step body)
  | startNone {e} : e.isMark .semicolon → Derives g .forStart [e] none
  | startVar {ts s} : Derives g .varDecl ts s → Derives g .forStart ts (some s)
  | startExpression {ts s} : Derives g .exprStmt ts s → Derives g .forStart ts (some s)
  | ifThen {w l cs test r o ts yes} : w.isMark .ifWord → l.isMark .leftParen →
      Derives g .expression cs test → r.isMark .rightParen →
      Derives g (.statement o) ts yes →
      Derives g (.statement true) (w :: l :: (cs ++ r :: ts)) (.branch test yes none w.place)
  | ifElse {w l cs test r o ts yes e p us no} : w.isMark .ifWord → l.isMark .leftParen →
      Derives g .expression cs test → r.isMark .rightParen →
      Derives g (.statement o) ts yes → (g.nearest → o = false) → e.isMark .elseWord →
      Derives g (.statement p) us no →
      Derives g (.statement p) (w :: l :: (cs ++ r :: (ts ++ e :: us)))
        (.branch test yes (some no) w.place)
  | whileLoop {w l cs test r o ts body} : w.isMark .whileWord → l.isMark .leftParen →
      Derives g .expression cs test → r.isMark .rightParen →
      Derives g (.statement o) ts body →
      Derives g (.statement o) (w :: l :: (cs ++ r :: ts)) (.loop test body w.place)
  | print {w ts v e} : w.isMark .printWord → Derives g .expression ts v →
      e.isMark .semicolon →
      Derives g (.statement false) (w :: (ts ++ [e])) (.print v w.place)
  | returnWith {w ts v e} : w.isMark .returnWord → Derives g .optional ts v →
      e.isMark .semicolon →
      Derives g (.statement false) (w :: (ts ++ [e])) (.returnWith v w.place)
  | breakOut {w e} : w.isMark .breakWord → e.isMark .semicolon →
      Derives g (.statement false) [w, e] (.breakOut w.place)
  | blockStmt {l ts ss} : Derives g .block (l :: ts) ss →
      Derives g (.statement false) (l :: ts) (.block ss l.place)
  -- expressions
  | absent : Derives g .optional [] none
  | present {ts v} : Derives g .expression ts v → Derives g .optional ts (some v)
  | single {ts v} : Derives g .assignment ts v → Derives g .expression ts v
  | sequence {ts v c us vs} : Derives g .assignment ts v → c.isMark .comma →
      Derives g .items us vs →
      Derives g .expression (ts ++ c :: us) (.sequence (v :: vs) c.place)
  | item {ts v} : Derives g .assignment ts v → Derives g .items ts [v]
  | nextItem {ts v c us vs} : Derives g .assignment ts v → c.isMark .comma →
      Derives g .items us vs → Derives g .items (ts ++ c :: us) (v :: vs)
  | noArgument : Derives g .arguments [] []
  | arguments {ts vs} : Derives g .items ts vs → vs.length ≤ Grammar.maxArity →
      Derives g .arguments ts vs
  | assign {n q ts v} : n.isIdentifier → q.isMark .equal → Derives g .assignment ts v →
      Derives g .assignment (n :: q :: ts) (.assign n.name.reference v)
  | set {ts object d n q us v} : Derives g .call ts object → d.isMark .dot →
      n.isIdentifier → q.isMark .equal → Derives g .assignment us v →
      Derives g .assignment (ts ++ d :: n :: q :: us) (.set object n.name v)
  | value {ts v} : Derives g (.operators .or) ts v → Derives g .assignment ts v
  | first {r ts v} : Derives g (.operand r) ts v → Derives g (.operators r) ts v
  | joined {r ts left t m op us right} : Derives g (.operators r) ts left →
      (m, op) ∈ r.table → t.isMark m → Derives g (.operand r) us right →
      Derives g (.operators r) (ts ++ t :: us) (.binary op left right t.place)
  | tighter {r q ts v} : r.tighter? = some q → Derives g (.operators q) ts v →
      Derives g (.operand r) ts v
  | tightest {r ts v} : r.tighter? = none → Derives g .unary ts v →
      Derives g (.operand r) ts v
  | not {t ts v} : t.isMark .bang → Derives g .unary ts v →
      Derives g .unary (t :: ts) (.unary .not v t.place)
  | negate {t ts v} : t.isMark .minus → Derives g .unary ts v →
      Derives g .unary (t :: ts) (.unary .negate v t.place)
  | called {ts v} : Derives g .call ts v → Derives g .unary ts v
  | primary {ts v} : Derives g .primary ts v → Derives g .call ts v
  | call {ts f l us vs r} : Derives g .call ts f → l.isMark .leftParen →
      Derives g .arguments us vs → r.isMark .rightParen →
      Derives g .call (ts ++ l :: (us ++ [r])) (.call f vs l.place)
  | get {ts object d n} : Derives g .call ts object → d.isMark .dot → n.isIdentifier →
      Derives g .call (ts ++ [d, n]) (.get object n.name)
  | number {t x} : t.kind = .number x → Derives g .primary [t] (.literal (.number x) t.place)
  | string {t s} : t.kind = .string s → Derives g .primary [t] (.literal (.string s) t.place)
  | yes {t} : t.isMark .trueWord → Derives g .primary [t] (.literal .yes t.place)
  | no {t} : t.isMark .falseWord → Derives g .primary [t] (.literal .no t.place)
  | nil {t} : t.isMark .nilWord → Derives g .primary [t] (.literal .nil t.place)
  | this {t} : t.isMark .thisWord → Derives g .primary [t] (.this none t.place)
  | read {t} : t.isIdentifier → Derives g .primary [t] (.read t.name.reference)
  | group {l ts v r} : l.isMark .leftParen → Derives g .expression ts v →
      r.isMark .rightParen → Derives g .primary (l :: (ts ++ [r])) (.group v l.place)
  | super {w d n} : w.isMark .superWord → d.isMark .dot → n.isIdentifier →
      Derives g .primary [w, d, n] (.super n.name none w.place)
  | lambda {w l ps ns r bs body} : w.isMark .funWord → l.isMark .leftParen →
      Derives g .params ps ns → r.isMark .rightParen → Derives g .block bs body →
      Derives g .primary (w :: l :: (ps ++ r :: bs)) (.lambda ns body w.place)

end LoxLang
