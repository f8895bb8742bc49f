import LoxLang.Tree.Grammar

/-!
# Reading programs and expressions

`Program.ofTokens` reads a token list to its end whatever it holds: a declaration that
does not fit is reported and left out. `Expr.ofTokens` reads one expression or refuses.
-/

namespace LoxLang

/-- The tokens before the end, and the token that marks it: the `finish`, or in a list cut short its
last token (`Parser::is_at_end`). -/
def Token.beforeFinish (tokens : List Token) : List Token × Option Token :=
  (tokens.takeWhile (!·.isFinish), (tokens.find? Token.isFinish).or tokens.getLast?)

/-- What was read of a program. -/
structure Program where
  statements : List Stmt
  misfits : List Misfit

namespace Program

/-- Did misfits leave nothing of the program? -/
def isLost (p : Program) : Bool := p.statements.isEmpty && !p.misfits.isEmpty

/-- The next declaration, unless no token is left. -/
def declaration? (depth : Nat) : Phrase (Option (Option Stmt)) := do
  match ← Phrase.peek with
  | some _ => return some (← (Grammar.inner depth).declaration)
  | none => return none

/-- Reads declarations until no token is left. -/
def declarations (depth : Nat) : Phrase (List Stmt) := do
  let found ← Phrase.many (declaration? depth)
  return found.filterMap id

/-- Reads a program (`Parser::parse`). -/
def ofTokens (tokens : List Token) : Program :=
  let (body, last) := Token.beforeFinish tokens
  let at_end := fun (m : Misfit) => m.endingAt last
  match declarations (body.length + 1) ⟨body, #[]⟩ with
  | .ok statements c => ⟨statements, c.misfits.toList.map at_end⟩
  | .error m c => ⟨[], (c.misfits.push m).toList.map at_end⟩

end Program

/-- An expression with nothing behind it. -/
def Expr.whole (depth : Nat) : Phrase Expr := do
  let e ← (Grammar.inner depth).expression
  match ← Phrase.peek with
  | some _ => Phrase.refuse .nothingMore
  | none => return e

/-- Reads one expression (`Parser::parse_expression`). Misfits in the body of a function inside it
are passed over with the statements they spoil. -/
def Expr.ofTokens (tokens : List Token) : Except Misfit Expr :=
  let (body, last) := Token.beforeFinish tokens
  match Expr.whole (body.length + 1) ⟨body, #[]⟩ with
  | .ok e _ => .ok e
  | .error m _ => .error (m.endingAt last)

end LoxLang
