import LoxLang.Place
import LoxLang.Number.Text

/-!
# Tokens

A token is a kind, the text it was written as and its place. Kinds with one spelling are
`Mark`s: punctuation, operators and the reserved words.
-/

namespace LoxLang

/-- The tokens that have exactly one spelling (`TokenType`). -/
inductive Mark where
  | leftParen | rightParen | leftBrace | rightBrace
  | comma | dot | minus | plus | semicolon | slash | star
  | bang | bangEqual | equal | equalEqual | greater | greaterEqual | less | lessEqual
  | andWord | breakWord | classWord | elseWord | falseWord | funWord | forWord | ifWord
  | nilWord | orWord | printWord | returnWord | superWord | thisWord | trueWord | varWord
  | whileWord
deriving DecidableEq, Repr, Inhabited

namespace Mark

def spelling : Mark → String
  | leftParen => "(" | rightParen => ")" | leftBrace => "\x7b" | rightBrace => "\x7d"
  | comma => "," | dot => "." | minus => "-" | plus => "+" | semicolon => ";"
  | slash => "/" | star => "*"
  | bang => "!" | bangEqual => "!=" | equal => "=" | equalEqual => "=="
  | greater => ">" | greaterEqual => ">=" | less => "<" | lessEqual => "<="
  | andWord => "and" | breakWord => "break" | classWord => "class" | elseWord => "else"
  | falseWord => "false" | funWord => "fun" | forWord => "for" | ifWord => "if"
  | nilWord => "nil" | orWord => "or" | printWord => "print" | returnWord => "return"
  | superWord => "super" | thisWord => "this" | trueWord => "true" | varWord => "var"
  | whileWord => "while"

/-- What a token listing calls the mark. -/
def label : Mark → String
  | leftParen => "LEFT_PAREN" | rightParen => "RIGHT_PAREN"
  | leftBrace => "LEFT_BRACE" | rightBrace => "RIGHT_BRACE"
  | comma => "COMMA" | dot => "DOT" | minus => "MINUS" | plus => "PLUS"
  | semicolon => "SEMICOLON" | slash => "SLASH" | star => "STAR"
  | bang => "BANG" | bangEqual => "BANG_EQUAL" | equal => "EQUAL"
  | equalEqual => "EQUAL_EQUAL" | greater => "GREATER" | greaterEqual => "GREATER_EQUAL"
  | less => "LESS" | lessEqual => "LESS_EQUAL"
  | andWord => "AND" | breakWord => "BREAK" | classWord => "CLASS" | elseWord => "ELSE"
  | falseWord => "FALSE" | funWord => "FUN" | forWord => "FOR" | ifWord => "IF"
  | nilWord => "NIL" | orWord => "OR" | printWord => "PRINT" | returnWord => "RETURN"
  | superWord => "SUPER" | thisWord => "THIS" | trueWord => "TRUE" | varWord => "VAR"
  | whileWord => "WHILE"

def words : List Mark :=
  [andWord, breakWord, classWord, elseWord, falseWord, funWord, forWord, ifWord, nilWord,
    orWord, printWord, returnWord, superWord, thisWord, trueWord, varWord, whileWord]

/-- The reserved word with this spelling (`KEYWORDS`). -/
def ofWord? (word : String) : Option Mark := words.find? (·.spelling == word)

/-- Does a statement or declaration other than a block or an expression start here
(`TokenType::begins_statement`)? -/
def opensStatement : Mark → Bool
  | classWord | funWord | varWord | forWord | ifWord | whileWord | printWord
  | returnWord | breakWord => true
  | _ => false

end Mark

/-- What a token is; texts and numbers carry their value (`TokenType`). -/
inductive Kind where
  | mark (m : Mark)
  | identifier
  | string (content : String)
  | number (value : Float)
  | finish
deriving Repr, Inhabited

namespace Kind

/-- What a token listing calls the kind (`TokenType::name`). -/
def label : Kind → String
  | mark m => m.label
  | identifier => "IDENTIFIER"
  | string _ => "STRING"
  | number _ => "NUMBER"
  | finish => "EOF"

/-- The value shown in a token listing. -/
def valueText : Kind → String
  | string content => content
  | number value => Number.tokenText value
  | _ => "null"

end Kind

/-- A token of a source. The last token of every source is its `finish`, written as the
empty text. -/
structure Token where
  kind : Kind
  lexeme : String
  place : Place
deriving Repr, Inhabited

namespace Token

/-- The line of a token listing. -/
def display (t : Token) : String := s!"{t.kind.label} {t.lexeme} {t.kind.valueText}"

def isMark (t : Token) (m : Mark) : Bool :=
  match t.kind with
  | .mark k => k == m
  | _ => false

def isIdentifier (t : Token) : Bool :=
  match t.kind with
  | .identifier => true
  | _ => false

def isFinish (t : Token) : Bool :=
  match t.kind with
  | .finish => true
  | _ => false

/-- Does a statement or declaration other than a block or an expression start here
(`TokenType::begins_statement`)? -/
def opensStatement (t : Token) : Bool :=
  match t.kind with
  | .mark m => m.opensStatement
  | _ => false

/-- The token's text as a name (`Token::to_identifier`). -/
def name (t : Token) : Name := ⟨t.lexeme, t.place⟩

end Token

end LoxLang
