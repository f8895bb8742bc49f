import LoxLang.Bindings
import LoxLang.Tree.Basic

/-!
# Values

What an expression evaluates to. Functions, classes and objects carry an identity, so
that two of them made alike are still told apart; what an object's fields hold lives in
the machine, under the object's identity.
-/

namespace LoxLang

/-- Which scope of a machine. -/
abbrev ScopeId := Nat

/-- Functions that the host provides (`NativeFunction`: a name, an arity and a function of the
arguments). -/
inductive Native where
  /-- The seconds since the start of 1970 (`clock`), the one function that every session binds. -/
  | clock
  /-- Gives back its first argument. It stands for the functions that an embedding host may call
  with values of its own; no session binds it. -/
  | first (arity : Nat)
deriving DecidableEq, Repr, Inhabited

namespace Native

def name : Native → String
  | clock => "clock"
  | first _ => "first"

def arity : Native → Nat
  | clock => 0
  | first n => n

end Native

/-- A function and the scope that it was made in (`LoxFunction`). -/
structure Closure where
  identity : Nat
  name : String
  params : List Name
  body : List Stmt
  scope : ScopeId
  /-- It is the `init` method of a class, so a call of it gives the object. -/
  isInitializer : Bool

instance : Inhabited Closure := ⟨⟨0, "", [], [], 0, false⟩⟩

def Closure.arity (f : Closure) : Nat := f.params.length

/-- A class with its own methods, which come before those of its superclass (`LoxClass`). -/
inductive Class where
  | mk (identity : Nat) (name : String) (superclass : Option Class)
      (methods : Bindings Closure)

instance : Inhabited Class := ⟨.mk 0 "" none []⟩

namespace Class

/-- What tells the class from all others. -/
def identity : Class → Nat
  | mk identity _ _ _ => identity

def name : Class → String
  | mk _ name _ _ => name

def superclass : Class → Option Class
  | mk _ _ superclass _ => superclass

def methods : Class → Bindings Closure
  | mk _ _ _ methods => methods

/-- The nearest method of that name, from the class upwards (`LoxClass::find_method`). -/
def method? (name : String) : Class → Option Closure
  | mk _ _ none methods => methods.find? name
  | mk _ _ (some superclass) methods =>
    match methods.find? name with
    | some f => some f
    | none => superclass.method? name

/-- How many arguments it takes to make an object of the class. -/
def arity (c : Class) : Nat :=
  match c.method? "init" with
  | some f => f.arity
  | none => 0

end Class

/-- The result of an expression. -/
inductive Value where
  | nil
  | bool (b : Bool)
  | number (x : Float)
  | string (s : String)
  | native (f : Native)
  | function (f : Closure)
  | classValue (c : Class)
  | object (identity : Nat) (c : Class)

instance : Inhabited Value := ⟨.nil⟩

namespace Value

/-- All values but `nil` and `false` count as true (`Value::is_truthy`). -/
def isTrue : Value → Bool
  | nil | bool false => false
  | _ => true

/-- Two numbers closer than this are equal. -/
def tolerance : Float := 0.0001

/-- Numbers are equal if they are the same or nearly so. -/
def nearlySame (x y : Float) : Bool := x == y || (x - y).abs < tolerance

/-- Equality in the language: plain data by content, the rest by identity (`Value::is_equal`). -/
def equal : Value → Value → Bool
  | nil, nil => true
  | bool a, bool b => a == b
  | number x, number y => nearlySame x y
  | string s, string t => s == t
  | native f, native g => f == g
  | function f, function g => f.identity == g.identity
  | classValue c, classValue d => c.identity == d.identity
  | object i _, object j _ => i == j
  | _, _ => false

/-- What kind of value it is (`Value::type_name`). -/
def typeName : Value → String
  | nil => "nil"
  | bool _ => "boolean"
  | number _ => "number"
  | string _ => "string"
  | native _ | function _ => "function"
  | classValue _ => "class"
  | object _ _ => "instance"

/-- How many arguments a call takes, if the value can be called (`Value::as_callable`). -/
def arity? : Value → Option Nat
  | native f => some f.arity
  | function f => some f.arity
  | classValue c => some c.arity
  | _ => none

end Value

def Literal.value : Literal → Value
  | number x => .number x
  | string s => .string s
  | yes => .bool true
  | no => .bool false
  | nil => .nil

end LoxLang
