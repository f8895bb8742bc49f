import LoxLang.Tree.Basic
import LoxLang.Number.Text

/-!
# Parenthesized form

Trees as text, each node in parentheses with its operator first: `1 + 3 * 4` reads
`(+ 1 (* 3 4))`. Names, literals and `this` stand for themselves.
-/

namespace LoxLang

/-- Words in parentheses, a blank between two (`AstPrinter::parenthesize`). -/
def parens (words : List String) : String := "(" ++ String.intercalate " " words ++ ")"

/-- The text of a constant; a string has no quotes. -/
def Literal.text : Literal → String
  | number value => Number.text value
  | string content => content
  | yes => "true"
  | no => "false"
  | nil => "nil"

def paramsText (params : List Name) : String := parens (params.map Name.text)

mutual

/-- The parenthesized form of an expression (`AstPrinter::print`). -/
def Expr.text : Expr → String
  | .literal value _ => value.text
  | .group inner _ => parens ["group", inner.text]
  | .unary op operand _ => parens [op.symbol, operand.text]
  | .binary op left right _ => parens [op.symbol, left.text, right.text]
  | .sequence items _ => parens ("sequence" :: Expr.texts items)
  | .read target => target.name.text
  | .assign target value => parens ["=", target.name.text, value.text]
  | .call callee arguments _ => parens ("call" :: callee.text :: Expr.texts arguments)
  | .lambda params body _ => parens ("lambda" :: paramsText params :: Stmt.texts body)
  | .get object property => parens [".", object.text, property.text]
  | .set object property value =>
    parens ["=", parens [".", object.text, property.text], value.text]
  | .this _ _ => "this"
  | .super method _ _ => parens ["super", method.text]

def Expr.texts : List Expr → List String
  | [] => []
  | e :: es => e.text :: Expr.texts es

/-- The parenthesized form of a statement (`AstPrinter::print_stmt`). -/
def Stmt.text : Stmt → String
  | .expression e => parens [";", e.text]
  | .print e _ => parens ["print", e.text]
  | .declare name (some initial) => parens ["var", name.text, initial.text]
  | .declare name none => parens ["var", name.text]
  | .block body _ => parens ("block" :: Stmt.texts body)
  | .branch test yes (some no) _ => parens ["if", test.text, yes.text, no.text]
  | .branch test yes none _ => parens ["if", test.text, yes.text]
  | .loop test body _ => parens ["while", test.text, body.text]
  | .breakOut _ => parens ["break"]
  | .function f => f.text "fun"
  | .returnWith (some value) _ => parens ["return", value.text]
  | .returnWith none _ => parens ["return"]
  | .classDecl name (some superclass) methods =>
    parens ("class" :: name.text :: "<" :: superclass.name.text :: Function.texts methods)
  | .classDecl name none methods => parens ("class" :: name.text :: Function.texts methods)

def Stmt.texts : List Stmt → List String
  | [] => []
  | s :: ss => s.text :: Stmt.texts ss

/-- The parenthesized form of a function, after the word for what it is (`AstPrinter::function`). -/
def Function.text (word : String) : Function → String
  | .mk name params body => parens (word :: name.text :: paramsText params :: Stmt.texts body)

def Function.texts : List Function → List String
  | [] => []
  | f :: fs => f.text "method" :: Function.texts fs

end

end LoxLang
