import LoxLang.Text.Extending
import LoxLang.Text.Ignorable
import LoxLang.Text.Unprintable

/-!
# Quoted text

Text between double quotes in which every character can be seen: those that could not, and
those that belong to what stands before them, are written as escapes.
-/

namespace LoxLang

/-- The letter that stands for a character behind a backslash. -/
def escapeLetter? : Char → Option Char
  | '"' => some '"'
  | '\\' => some '\\'
  | '\n' => some 'n'
  | '\r' => some 'r'
  | '\t' => some 't'
  | '\x00' => some '0'
  | _ => none

/-- Does the character show by itself? The space does. -/
def showsAlone (c : Char) : Bool :=
  c == ' ' || !(isUnprintable c || isExtendingMark c || isIgnorable c)

/-- The code point of a character in hexadecimal, marked as such. -/
def codeEscape (c : Char) : String :=
  "\\u\x7b" ++ String.ofList (Nat.toDigits 16 c.toNat) ++ "\x7d"

/-- What is written between quotes for a character. -/
def quotedChar (c : Char) : String :=
  match escapeLetter? c with
  | some letter => String.ofList ['\\', letter]
  | none => if showsAlone c then String.singleton c else codeEscape c

def quoted (text : String) : String := "\"" ++ String.join (text.toList.map quotedChar) ++ "\""

end LoxLang
