import LoxLang.Number.Text
import LoxLang.Text.Quoted
import LoxLang.Value.Basic

/-!
# Value texts

`Value.text` is what `print` writes. `Value.inspect` shows what a function, class or
object is made of, with names in order.
-/

namespace LoxLang

def Value.text : Value → String
  | nil => "nil"
  | bool b => if b then "true" else "false"
  | number x => Number.text x
  | string s => s
  | native f => "<native fn " ++ f.name ++ ">"
  | function f => "<fn " ++ f.name ++ ">"
  | classValue c => "<class " ++ c.name ++ ">"
  | object _ c => c.name ++ " instance"

/-! ## Inspection -/

/-- Quoted names in brackets, in order. -/
def nameList (names : List String) : String :=
  let sorted := names.mergeSort fun a b => !(b < a)
  "[" ++ String.intercalate ", " (sorted.map quoted) ++ "]"

/-- A record inside a wrapper of its kind. -/
def inspection (kind record : String) (fields : List (String × String)) : String :=
  let inside := fields.map fun (name, value) => name ++ ": " ++ value
  kind ++ "(" ++ record ++ " \x7b " ++ String.intercalate ", " inside ++ " \x7d)"

/-- What a function, class or object is made of; `fields` are the object's. -/
def Value.inspect (fields : List String) : Value → Option String
  | native f => some (inspection "NativeFunction" "NativeFunction"
      [("name", quoted f.name), ("arity", toString f.arity)])
  | function f => some (inspection "Function" "LoxFunction"
      [("name", quoted f.name), ("arity", toString f.arity),
        ("is_initializer", toString f.isInitializer)])
  | classValue c => some (inspection "Class" "LoxClass"
      [("name", quoted c.name),
        ("superclass", match c.superclass with
          | some s => "Some(" ++ quoted s.name ++ ")"
          | none => "None"),
        ("methods", nameList c.methods.names)])
  | object _ c => some (inspection "Instance" "LoxInstance"
      [("class", quoted c.name), ("fields", nameList fields)])
  | _ => none

end LoxLang
