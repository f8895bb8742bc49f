import LoxLang.Place

/-!
# Syntax trees

Expressions, statements and functions of a program. Every node knows where it was
written, and a node that names a variable has room for its *depth*: how many scopes lie
between the use and the declaration, or nothing for a global.
-/

namespace LoxLang

/-- A constant written in a program (`LiteralValue`). -/
inductive Literal where
  | number (value : Float)
  | string (content : String)
  | yes
  | no
  | nil
deriving Repr, Inhabited

inductive UnaryOp where
  | negate
  | not
deriving DecidableEq, Repr, Inhabited

/-- How the operator is written (`UnaryOp::symbol`). -/
def UnaryOp.symbol : UnaryOp → String
  | negate => "-"
  | not => "!"

inductive BinaryOp where
  | add | subtract | multiply | divide
  | less | lessEqual | greater | greaterEqual
  | equal | differ
  | and | or
deriving DecidableEq, Repr, Inhabited

/-- How the operator is written (`BinaryOp::symbol`). -/
def BinaryOp.symbol : BinaryOp → String
  | add => "+" | subtract => "-" | multiply => "*" | divide => "/"
  | less => "<" | lessEqual => "<=" | greater => ">" | greaterEqual => ">="
  | equal => "==" | differ => "!="
  | and => "and" | or => "or"

structure Reference where
  name : Name
  depth : Option Nat
deriving DecidableEq, Repr, Inhabited

/-- A use of a variable whose depth is not known yet. -/
def Name.reference (n : Name) : Reference := ⟨n, none⟩

mutual

/-- Expressions. The place of a call is its opening parenthesis, that of a sequence its
first comma, that of a binary node its operator; all others begin at theirs. -/
inductive Expr where
  | literal (value : Literal) (place : Place)
  | group (inner : Expr) (place : Place)
  | unary (op : UnaryOp) (operand : Expr) (place : Place)
  | binary (op : BinaryOp) (left right : Expr) (place : Place)
  | sequence (items : List Expr) (place : Place)
  | read (target : Reference)
  | assign (target : Reference) (value : Expr)
  | call (callee : Expr) (arguments : List Expr) (place : Place)
  | lambda (params : List Name) (body : List Stmt) (place : Place)
  | get (object : Expr) (property : Name)
  | set (object : Expr) (property : Name) (value : Expr)
  | this (depth : Option Nat) (place : Place)
  | super (method : Name) (depth : Option Nat) (place : Place)

inductive Stmt where
  | expression (e : Expr)
  | print (e : Expr) (place : Place)
  | declare (name : Name) (initial : Option Expr)
  | block (body : List Stmt) (place : Place)
  | branch (test : Expr) (yes : Stmt) (no : Option Stmt) (place : Place)
  | loop (test : Expr) (body : Stmt) (place : Place)
  | breakOut (place : Place)
  | function (f : Function)
  | returnWith (value : Option Expr) (place : Place)
  | classDecl (name : Name) (superclass : Option Reference) (methods : List Function)

/-- Functions and methods with a name (`FunctionDecl`). -/
inductive Function where
  | mk (name : Name) (params : List Name) (body : List Stmt)

end

instance : Inhabited Expr := ⟨.read default⟩
instance : Inhabited Stmt := ⟨.breakOut default⟩
instance : Inhabited Function := ⟨.mk default [] []⟩

namespace Function

def name : Function → Name
  | mk name _ _ => name

def params : Function → List Name
  | mk _ params _ => params

def body : Function → List Stmt
  | mk _ _ body => body

end Function

/-- Where problems with the expression are reported (`Expr::location`). -/
def Expr.place : Expr → Place
  | literal _ place | group _ place | unary _ _ place | binary _ _ _ place
  | sequence _ place | call _ _ place | lambda _ _ place | this _ place
  | super _ _ place => place
  | read target | assign target _ => target.name.place
  | get _ property | set _ property _ => property.place

end LoxLang
