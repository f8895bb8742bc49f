import LoxLang.Token.Basic

/-!
# Misfits

What the grammar complains of: the token that does not fit, or the end of the tokens,
and what should have stood there.
-/

namespace LoxLang

/-- The two kinds of functions with a name. -/
inductive FunctionWord where
  | function
  | method
deriving DecidableEq, Repr

/-- What complaints call them. -/
def FunctionWord.text : FunctionWord → String
  | function => "function"
  | method => "method"

/-- What should have stood where a misfit was found. -/
inductive Complaint where
  | className | superclassName | classBody | classEnd
  | functionName (word : FunctionWord)
  | functionParams (word : FunctionWord)
  | functionBody (word : FunctionWord)
  | paramName | tooManyParams | paramsEnd
  | variableName | variableEnd
  | forClauses | forTest | forEnd
  | ifTest | whileTest | testEnd
  | printEnd | expressionEnd | returnEnd | breakEnd | blockEnd
  | assignmentTarget
  | propertyName | tooManyArguments | argumentsEnd
  | superDot | superMethod
  | lambdaParams | lambdaBody
  | groupEnd
  | expression
  | nothingMore
deriving DecidableEq, Repr

def Complaint.message : Complaint → String
  | className => "Expected class name."
  | superclassName => "Expected superclass name."
  | classBody => "Expected '\x7b' before class body."
  | classEnd => "Expected '\x7d' after class body."
  | functionName word => "Expected " ++ word.text ++ " name."
  | functionParams word => "Expected '(' after " ++ word.text ++ " name."
  | functionBody word => "Expected '\x7b' before " ++ word.text ++ " body."
  | paramName => "Expected parameter name."
  | tooManyParams => "Cannot have more than 255 parameters."
  | paramsEnd => "Expected ')' after parameters."
  | variableName => "Expected variable name."
  | variableEnd => "Expected ';' after variable declaration."
  | forClauses => "Expected '(' after 'for'."
  | forTest => "Expected ';' after loop condition."
  | forEnd => "Expected ')' after for clauses."
  | ifTest => "Expected '(' after 'if'."
  | whileTest => "Expected '(' after 'while'."
  | testEnd => "Expected ')' after condition."
  | printEnd => "Expected ';' after value."
  | expressionEnd => "Expected ';' after expression."
  | returnEnd => "Expected ';' after return value."
  | breakEnd => "Expected ';' after 'break'."
  | blockEnd => "Expected '\x7d' after block."
  | assignmentTarget => "Invalid assignment target."
  | propertyName => "Expected property name after '.'."
  | tooManyArguments => "Cannot have more than 255 arguments."
  | argumentsEnd => "Expected ')' after arguments."
  | superDot => "Expected '.' after 'super'."
  | superMethod => "Expected superclass method name."
  | lambdaParams => "Expected '(' after 'fun'."
  | lambdaBody => "Expected '\x7b' before lambda body."
  | groupEnd => "Expected ')' after expression."
  | expression => "Expected expression."
  | nothingMore => "Expected end of expression."

/-- A complaint and the token it was found at; no token stands for the end. -/
structure Misfit where
  found : Option Token
  complaint : Complaint
deriving Repr

namespace Misfit

/-- The misfit with the token that marks the end, if it was found there. -/
def endingAt (m : Misfit) (last : Option Token) : Misfit :=
  { m with found := m.found.or last }

/-- Where the misfit is reported; without any token, at the start of the input. -/
def place (m : Misfit) : Place :=
  match m.found with
  | some t => t.place
  | none => Place.start "<input>"

/-- The complaint, after the text it was found at (`Parser::error_at`). -/
def message (m : Misfit) : String :=
  match m.found with
  | some t =>
    (if t.isFinish then "at end: " else "at '" ++ t.lexeme ++ "': ") ++ m.complaint.message
  | none => m.complaint.message

end Misfit

end LoxLang
