import LoxLang.Tree.Basic
import LoxLang.Tree.Phrase

/-!
# The grammar

One reader for each phrase of the language:

```text
declaration → "class" IDENT ("<" IDENT)? "{" function* "}"
            | "fun" function | varDecl | statement
varDecl     → "var" IDENT ("=" expression)? ";"
function    → IDENT "(" params? ")" block
statement   → "for" "(" (varDecl | expression ";" | ";") expression? ";" expression? ")" statement
            | "if" "(" expression ")" statement ("else" statement)?
            | "while" "(" expression ")" statement
            | "print" expression ";" | "return" expression? ";" | "break" ";"
            | block | expression ";"
block       → "{" declaration* "}"
expression  → assignment ("," assignment)*
assignment  → (call ".")? IDENT "=" assignment | operators
operators   → unary, joined by the operators of `Grammar.levels`, left to right
unary       → ("!" | "-") unary | call
call        → primary ("(" arguments? ")" | "." IDENT)*
primary     → NUMBER | STRING | "true" | "false" | "nil" | "this" | IDENT
            | "super" "." IDENT | "(" expression ")" | "fun" "(" params? ")" block
```

A phrase inside a phrase comes from a record of readers, `Inner`, and `Grammar.inner n`
reads phrases nested up to `n` deep. Each nesting takes a token, so a depth greater than
the number of tokens reads everything.
-/

namespace LoxLang

/-- Readers for the phrases that stand inside others. -/
structure Inner where
  declaration : Phrase (Option Stmt)
  statement : Phrase Stmt
  expression : Phrase Expr
  assignment : Phrase Expr
  unary : Phrase Expr

/-- A `for` loop in terms of `while`: the initializer and the loop share a block, and the step
follows the body in one (`Parser::for_statement`). Without a test the loop goes on for ever. -/
def Stmt.forLoop (place : Place) (initial : Option Stmt) (test step : Option Expr)
    (body : Stmt) : Stmt :=
  let body := match step with
    | some step => .block [body, .expression step] place
    | none => body
  let loop := .loop (test.getD (.literal .yes place)) body place
  match initial with
  | some initial => .block [initial, loop] place
  | none => loop

namespace Grammar

open Phrase

/-- The largest number of parameters, and of arguments. -/
def maxArity : Nat := 255

/-! ## Parts of declarations -/

/-- The next phrase of a body in braces, unless the body or the tokens end here. -/
def inBody {α : Type} (phrase : Phrase α) : Phrase (Option α) := do
  match ← peek with
  | some t => if t.isMark .rightBrace then return none else return some (← phrase)
  | none => return none

/-- Declarations up to the closing brace, which is taken (`Parser::block`). -/
def blockBody (inner : Inner) : Phrase (List Stmt) := do
  let found ← many (inBody inner.declaration)
  mark .rightBrace .blockEnd
  return found.filterMap id

/-- Parameters up to the closing parenthesis, if there are any (`Parser::parameters`). -/
def paramList : Phrase (List Name) := do
  if ← atMark .rightParen then return []
  else commaList (identifier .paramName) .tooManyParams maxArity

/-- Parameters up to the closing parenthesis, which is taken (`Parser::parameters`). -/
def params : Phrase (List Name) := do
  let names ← paramList
  mark .rightParen .paramsEnd
  return names

/-- A function from its name on (`Parser::function`). -/
def function (inner : Inner) (word : FunctionWord) : Phrase Function := do
  let name ← identifier (.functionName word)
  mark .leftParen (.functionParams word)
  let names ← params
  mark .leftBrace (.functionBody word)
  return .mk name names (← blockBody inner)

/-! ## Expressions -/

/-- An expression of one token. -/
def atom? (t : Token) : Option Expr :=
  match t.kind with
  | .number value => some (.literal (.number value) t.place)
  | .string content => some (.literal (.string content) t.place)
  | .identifier => some (.read t.name.reference)
  | .mark .trueWord => some (.literal .yes t.place)
  | .mark .falseWord => some (.literal .no t.place)
  | .mark .nilWord => some (.literal .nil t.place)
  | .mark .thisWord => some (.this none t.place)
  | _ => none

/-- The rest of `super.method` (`Parser::primary`). -/
def superMethod (place : Place) : Phrase Expr := do
  mark .dot .superDot
  return .super (← identifier .superMethod) none place

/-- The rest of a function without a name (`Parser::primary`). -/
def lambda (inner : Inner) (place : Place) : Phrase Expr := do
  mark .leftParen .lambdaParams
  let names ← params
  mark .leftBrace .lambdaBody
  return .lambda names (← blockBody inner) place

/-- The rest of an expression in parentheses (`Parser::primary`). -/
def group (inner : Inner) (place : Place) : Phrase Expr := do
  let e ← inner.expression
  mark .rightParen .groupEnd
  return .group e place

/-- The expressions that no operator divides (`Parser::primary`). -/
def primary (inner : Inner) : Phrase Expr := do
  match (← peek).bind atom? with
  | some e => do
    skip
    return e
  | none =>
    if let some place ← mark? .superWord then superMethod place
    else if let some place ← mark? .funWord then lambda inner place
    else if let some place ← mark? .leftParen then group inner place
    else refuse .expression

/-- Arguments up to the closing parenthesis, if there are any. -/
def argumentList (inner : Inner) : Phrase (List Expr) := do
  if ← atMark .rightParen then return []
  else commaList inner.assignment .tooManyArguments maxArity

/-- Arguments up to the closing parenthesis, which is taken (`Parser::finish_call`). -/
def arguments (inner : Inner) : Phrase (List Expr) := do
  let items ← argumentList inner
  mark .rightParen .argumentsEnd
  return items

/-- A call of `e` or a property of it, if one follows. -/
def suffix? (inner : Inner) (e : Expr) : Phrase (Option Expr) := do
  if let some place ← mark? .leftParen then
    return some (.call e (← arguments inner) place)
  else if let some _ ← mark? .dot then
    return some (.get e (← identifier .propertyName))
  else return none

/-- A primary expression with its calls and properties (`Parser::call`). -/
def call (inner : Inner) : Phrase Expr := do
  grow (suffix? inner) (← primary inner)

/-- An operator of the list, if one comes next, and its place. -/
def operator? {ω : Type} (operators : List (Mark × ω)) : Phrase (Option (ω × Place)) := do
  let hit (t : Token) : Option (Mark × ω) := operators.find? fun o => t.isMark o.1
  match ← take? fun t => (hit t).isSome with
  | some t => return (hit t).map fun o => (o.2, t.place)
  | none => return none

def unaryOperators : List (Mark × UnaryOp) := [(.bang, .not), (.minus, .negate)]

/-- Operators before an operand, the last one applied first (`Parser::unary`). -/
def unary (inner : Inner) : Phrase Expr := do
  match ← operator? unaryOperators with
  | some (op, place) => return .unary op (← inner.unary) place
  | none => call inner

/-- The operators between two operands, by how tightly they bind, the loosest first
(`Parser::binary_level`). -/
def levels : List (List (Mark × BinaryOp)) :=
  [[(.orWord, .or)],
    [(.andWord, .and)],
    [(.bangEqual, .differ), (.equalEqual, .equal)],
    [(.greater, .greater), (.greaterEqual, .greaterEqual), (.less, .less),
      (.lessEqual, .lessEqual)],
    [(.minus, .subtract), (.plus, .add)],
    [(.star, .multiply), (.slash, .divide)]]

/-- An operator of one level and the operand behind it, joined to `left`, if one follows. -/
def joined? (operators : List (Mark × BinaryOp)) (operand : Phrase Expr) (left : Expr) :
    Phrase (Option Expr) := do
  match ← operator? operators with
  | some (op, place) => return some (.binary op left (← operand) place)
  | none => return none

/-- Operands joined by operators of one level, grouped from the left (`Parser::binary_level`). -/
def level (operators : List (Mark × BinaryOp)) (operand : Phrase Expr) : Phrase Expr := do
  grow (joined? operators operand) (← operand)

def operators (inner : Inner) : Phrase Expr := levels.foldr level (unary inner)

/-- Assigns to a variable or a property; nothing else can be assigned to. -/
def assignTo? (value : Expr) : Expr → Option Expr
  | .read target => some (.assign target.name.reference value)
  | .get object property => some (.set object property value)
  | _ => none

/-- Assignments, the last one first; the target is judged after the value was read
(`Parser::assignment`). -/
def assignment (inner : Inner) : Phrase Expr := do
  let target ← operators inner
  match ← take? (·.isMark .equal) with
  | none => return target
  | some equals =>
    match assignTo? (← inner.assignment) target with
    | some e => return e
    | none => throw ⟨some equals, .assignmentTarget⟩

/-- One more assignment of a sequence, behind a comma. -/
def nextItem? (inner : Inner) : Phrase (Option Expr) := do
  match ← mark? .comma with
  | some _ => return some (← assignment inner)
  | none => return none

/-- Assignments with commas between them (`Parser::sequence`). -/
def expression (inner : Inner) : Phrase Expr := do
  let first ← assignment inner
  match (← peek).filter (·.isMark .comma) with
  | none => return first
  | some comma => do
    let others ← many (nextItem? inner)
    return .sequence (first :: others) comma.place

/-! ## Statements -/

def initializer? (inner : Inner) : Phrase (Option Expr) := do
  match ← mark? .equal with
  | some _ => some <$> expression inner
  | none => return none

/-- The rest of a variable declaration (`Parser::var_declaration`). -/
def varDecl (inner : Inner) : Phrase Stmt := do
  let name ← identifier .variableName
  let initial ← initializer? inner
  mark .semicolon .variableEnd
  return .declare name initial

/-- An expression, unless the mark comes next. -/
def expressionUnless (inner : Inner) (m : Mark) : Phrase (Option Expr) := do
  if ← atMark m then return none else some <$> expression inner

/-- An expression as a statement (`Parser::expression_statement`). -/
def expressionStatement (inner : Inner) : Phrase Stmt := do
  let e ← expression inner
  mark .semicolon .expressionEnd
  return .expression e

/-- What a `for` loop starts with, up to the first semicolon. -/
def forStart (inner : Inner) : Phrase (Option Stmt) := do
  if let some _ ← mark? .semicolon then return none
  else if let some _ ← mark? .varWord then some <$> varDecl inner
  else some <$> expressionStatement inner

/-- The rest of a `for` loop (`Parser::for_statement`). -/
def forLoop (inner : Inner) (place : Place) : Phrase Stmt := do
  mark .leftParen .forClauses
  let initial ← forStart inner
  let test ← expressionUnless inner .semicolon
  mark .semicolon .forTest
  let step ← expressionUnless inner .rightParen
  mark .rightParen .forEnd
  return .forLoop place initial test step (← inner.statement)

/-- A condition in parentheses, the opening one on. -/
def condition (inner : Inner) (complaint : Complaint) : Phrase Expr := do
  mark .leftParen complaint
  let test ← expression inner
  mark .rightParen .testEnd
  return test

/-- The other branch of an `if`, if there is one. -/
def otherwise? (inner : Inner) : Phrase (Option Stmt) := do
  match ← mark? .elseWord with
  | some _ => some <$> inner.statement
  | none => return none

/-- The rest of an `if`; an `else` belongs to the nearest one (`Parser::if_statement`). -/
def branch (inner : Inner) (place : Place) : Phrase Stmt := do
  let test ← condition inner .ifTest
  let yes ← inner.statement
  return .branch test yes (← otherwise? inner) place

/-- The rest of a `while` loop (`Parser::while_statement`). -/
def whileLoop (inner : Inner) (place : Place) : Phrase Stmt := do
  let test ← condition inner .whileTest
  return .loop test (← inner.statement) place

/-- The rest of a `return` (`Parser::return_statement`). -/
def returnWith (inner : Inner) (place : Place) : Phrase Stmt := do
  let value ← expressionUnless inner .semicolon
  mark .semicolon .returnEnd
  return .returnWith value place

/-- The rest of a `print` (`Parser::print_statement`). -/
def print (inner : Inner) (place : Place) : Phrase Stmt := do
  let e ← expression inner
  mark .semicolon .printEnd
  return .print e place

/-- A statement (`Parser::statement`). -/
def statement (inner : Inner) : Phrase Stmt := do
  if let some place ← mark? .forWord then forLoop inner place
  else if let some place ← mark? .ifWord then branch inner place
  else if let some place ← mark? .whileWord then whileLoop inner place
  else if let some place ← mark? .returnWord then returnWith inner place
  else if let some place ← mark? .breakWord then do
    mark .semicolon .breakEnd
    return .breakOut place
  else if let some place ← mark? .leftBrace then return .block (← blockBody inner) place
  else if let some place ← mark? .printWord then print inner place
  else expressionStatement inner

/-! ## Declarations -/

def superclass? : Phrase (Option Reference) := do
  match ← mark? .less with
  | some _ => return some (← identifier .superclassName).reference
  | none => return none

/-- The rest of a class (`Parser::class_declaration`). -/
def classDecl (inner : Inner) : Phrase Stmt := do
  let name ← identifier .className
  let superclass ← superclass?
  mark .leftBrace .classBody
  let methods ← many (inBody (function inner .method))
  mark .rightBrace .classEnd
  return .classDecl name superclass methods

/-- Takes the word `fun` if a name comes after it: without one a lambda begins
(`Parser::check_next`). -/
def namedFunction? : Phrase Bool := fun c =>
  match c.rest with
  | t :: u :: rest =>
    if t.isMark .funWord && u.isIdentifier then .ok true { c with rest := u :: rest }
    else .ok false c
  | _ => .ok false c

/-- A declaration or statement (`Parser::declaration`). -/
def declaration (inner : Inner) : Phrase Stmt := do
  if let some _ ← mark? .classWord then classDecl inner
  else if ← namedFunction? then return .function (← function inner .function)
  else if let some _ ← mark? .varWord then varDecl inner
  else statement inner

/-! ## Nesting -/

/-- Readers for phrases nested up to `depth` deep. -/
def inner : Nat → Inner
  | 0 => ⟨refuse .expression, refuse .expression, refuse .expression, refuse .expression,
      refuse .expression⟩
  | depth + 1 =>
    { declaration := fun c => recovering (declaration (inner depth)) c
      statement := fun c => statement (inner depth) c
      expression := fun c => expression (inner depth) c
      assignment := fun c => assignment (inner depth) c
      unary := fun c => unary (inner depth) c }

end Grammar

end LoxLang
