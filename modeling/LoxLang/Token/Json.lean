import LoxLang.Token.Basic

/-!
# Token lists in JSON

The indented JSON text of a token list: two spaces a level, an empty list on one line.
-/

namespace LoxLang

namespace Json

def hexDigit (n : Nat) : Char := (Nat.toDigits 16 n).headD '0'

/-- A character inside a JSON string: quotes, backslashes and controls are escaped. -/
def escape (c : Char) : String :=
  match c with
  | '"' => "\\\""
  | '\\' => "\\\\"
  | '\n' => "\\n"
  | '\r' => "\\r"
  | '\t' => "\\t"
  | _ =>
    if c.toNat == 8 then "\\b"
    else if c.toNat == 12 then "\\f"
    else if c.toNat < 32 then
      "\\u00" ++ String.ofList [hexDigit (c.toNat / 16), hexDigit (c.toNat % 16)]
    else String.singleton c

def quote (s : String) : String := "\"" ++ String.join (s.toList.map escape) ++ "\""

/-- Fields in braces, one a line, `indent` spaces deep. -/
def object (indent : Nat) (fields : List (String × String)) : String :=
  let pad := String.ofList (List.replicate indent ' ')
  let lines := fields.map fun (key, value) => pad ++ "  " ++ quote key ++ ": " ++ value
  "\x7b\n" ++ String.intercalate ",\n" lines ++ "\n" ++ pad ++ "\x7d"

end Json

/-- A kind in JSON: its label, with the value if it has one. -/
def Kind.json (indent : Nat) (k : Kind) : String :=
  match k with
  | .string content => Json.object indent [(k.label, Json.quote content)]
  | .number value => Json.object indent [(k.label, Number.jsonText value)]
  | _ => Json.quote k.label

def Place.json (indent : Nat) (p : Place) : String :=
  Json.object indent
    [("file", Json.quote p.file), ("line", toString p.line), ("column", toString p.column)]

def Token.json (indent : Nat) (t : Token) : String :=
  Json.object indent
    [("token_type", t.kind.json (indent + 2)), ("lexeme", Json.quote t.lexeme),
      ("location", t.place.json (indent + 2))]

def Token.listJson : List Token → String
  | [] => "[]"
  | tokens => "[\n" ++ String.intercalate ",\n" (tokens.map fun t => "  " ++ t.json 2) ++ "\n]"

end LoxLang
