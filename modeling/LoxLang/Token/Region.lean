import LoxLang.Token.Basic

/-!
# Regions of a source

A source is cut, from left to right, into regions: single blanks, comments, the texts of
tokens, and texts that no token can be read from. `Region.split` cuts; `join_split` says
that nothing is lost. `Token.scan` places the regions and keeps the tokens and the
problems, each in source order.
-/

namespace LoxLang

/-- Why a text is no token. -/
inductive LexicalProblem where
  | unexpected (c : Char)
  | missingFraction
  | openString
  | openComment
deriving DecidableEq, Repr

def LexicalProblem.message : LexicalProblem → String
  | unexpected c => "Unexpected character: " ++ String.singleton c
  | missingFraction => "Expected decimal part of a number after '.'."
  | openString => "Unterminated string."
  | openComment => "Unterminated multi-line comment."

/-- What a region of a source is. -/
inductive Piece where
  | blank
  | comment
  | token (kind : Kind)
  | problem (cause : LexicalProblem)
deriving Repr

/-- A stretch of source text. -/
structure Region where
  text : List Char
  piece : Piece
deriving Repr

namespace Region

/-! ## Words, numbers and comments -/

/-- The blanks that may stand between tokens. -/
def isGap (c : Char) : Bool := c == ' ' || c == '\t' || c == '\r' || c == '\n'

/-- Letters and the underscore begin a word; only ASCII letters count. -/
def beginsWord (c : Char) : Bool := c.isAlpha || c == '_'

/-- Letters, digits and the underscore continue a word. -/
def continuesWord (c : Char) : Bool := c.isAlphanum || c == '_'

/-- The kind of a word (`KEYWORDS`). -/
def wordKind (word : List Char) : Kind :=
  match Mark.ofWord? (String.ofList word) with
  | some m => .mark m
  | none => .identifier

/-- The value of a run of digits. -/
def digitsValue (digits : List Char) : Nat :=
  digits.foldl (fun n c => 10 * n + (c.toNat - '0'.toNat)) 0

/-- The number written as `whole` and `fraction` around a point. -/
def numberKind (whole fraction : List Char) : Kind :=
  .number (Number.ofDigits (digitsValue (whole ++ fraction)) fraction.length)

/-- How many characters it takes to close `depth` comments: openers and closers count from left to
right and do not overlap (`Scanner::skip_block_comment`). -/
def closingLength? : Nat → List Char → Option Nat
  | 0, _ => some 0
  | _ + 1, [] => none
  | depth + 1, '*' :: '/' :: rest => (closingLength? depth rest).map (· + 2)
  | depth + 1, '/' :: '*' :: rest => (closingLength? (depth + 2) rest).map (· + 2)
  | depth + 1, _ :: rest => (closingLength? (depth + 1) rest).map (· + 1)

/-! ## The first region -/

/-- The length and kind of the number that starts with the digit `c` (`Scanner::parse_number`). -/
def firstNumber (c : Char) (rest : List Char) : Nat × Piece :=
  let whole := c :: rest.takeWhile Char.isDigit
  match rest.dropWhile Char.isDigit with
  | '.' :: more =>
    match more.takeWhile Char.isDigit with
    | [] => (whole.length + 1, .problem .missingFraction)
    | fraction => (whole.length + 1 + fraction.length, .token (numberKind whole fraction))
  | _ => (whole.length, .token (numberKind whole []))

/-- The length and kind of the string whose opening quote was just read (`Scanner::parse_string`).
-/
def firstString (rest : List Char) : Nat × Piece :=
  let content := rest.takeWhile (· != '"')
  if content.length < rest.length then
    (content.length + 2, .token (.string (String.ofList content)))
  else (rest.length + 1, .problem .openString)

/-- The length and kind of the word that starts with `c` (`Scanner::parse_identifier`). -/
def firstWord (c : Char) (rest : List Char) : Nat × Piece :=
  let tail := rest.takeWhile continuesWord
  (tail.length + 1, .token (wordKind (c :: tail)))

/-- The marks of one character that no longer mark starts with. -/
def single? : Char → Option Mark
  | '(' => some .leftParen
  | ')' => some .rightParen
  | '\x7b' => some .leftBrace
  | '\x7d' => some .rightBrace
  | ',' => some .comma
  | '.' => some .dot
  | '-' => some .minus
  | '+' => some .plus
  | ';' => some .semicolon
  | '*' => some .star
  | _ => none

/-- The marks that a character stands for with and without an equals sign behind it. -/
def withEqual? : Char → Option (Mark × Mark)
  | '!' => some (.bangEqual, .bang)
  | '=' => some (.equalEqual, .equal)
  | '<' => some (.lessEqual, .less)
  | '>' => some (.greaterEqual, .greater)
  | _ => none

/-- The length and kind of an operator that an equals sign may extend (`Scanner::with_equal`). -/
def firstWithEqual (rest : List Char) (joined single : Mark) : Nat × Piece :=
  if rest.head? = some '=' then (2, .token (.mark joined)) else (1, .token (.mark single))

/-- The length and kind of what starts with a slash. -/
def firstSlash (rest : List Char) : Nat × Piece :=
  match rest with
  | '/' :: more => (2 + (more.takeWhile (· != '\n')).length, .comment)
  | '*' :: more =>
    match closingLength? 1 more with
    | some n => (2 + n, .comment)
    | none => (2 + more.length, .problem .openComment)
  | _ => (1, .token (.mark .slash))

/-- The length and kind of the first region of `c :: rest` (`Scanner::scan_token`). -/
def first (c : Char) (rest : List Char) : Nat × Piece :=
  if isGap c then (1, .blank)
  else
    match single? c, withEqual? c with
    | some m, _ => (1, .token (.mark m))
    | none, some (joined, single) => firstWithEqual rest joined single
    | none, none =>
      if c = '/' then firstSlash rest
      else if c = '"' then firstString rest
      else if c.isDigit then firstNumber c rest
      else if beginsWord c then firstWord c rest
      else (1, .problem (.unexpected c))

/-! ## All regions -/

/-- The regions of a source, at most `limit` of them. -/
def splitUpTo : Nat → List Char → List Region
  | 0, _ => []
  | _, [] => []
  | limit + 1, c :: rest =>
    let (length, piece) := first c rest
    ⟨(c :: rest).take length, piece⟩ :: splitUpTo limit ((c :: rest).drop length)

/-- The regions of a source: each holds a character at least, so there are no more
regions than characters. -/
def split (source : List Char) : List Region := splitUpTo source.length source

def join (regions : List Region) : List Char := regions.flatMap Region.text

end Region

/-! ## Placing -/

namespace Region

/-- Each region with the place where it starts. -/
def placed : Place → List Region → List (Placed Region)
  | _, [] => []
  | p, r :: rs => ⟨p, r⟩ :: placed (p.past r.text) rs

/-- What a region adds to a reading: a token, a problem or nothing. -/
def result? (r : Placed Region) : Option (Except (Placed LexicalProblem) Token) :=
  match r.value.piece with
  | .token kind => some (.ok ⟨kind, String.ofList r.value.text, r.place⟩)
  | .problem cause => some (.error ⟨r.place, cause⟩)
  | .blank | .comment => none

end Region

/-! ## Scanning -/

/-- Reads a source: its tokens and problems in the order of their places, and the `finish` token at
its end (`Scanner::next`). -/
def Token.results (file source : String) : List (Except (Placed LexicalProblem) Token) :=
  let start := Place.start file
  (Region.placed start (Region.split source.toList)).filterMap Region.result? ++
    [.ok ⟨.finish, "", start.past source.toList⟩]

/-- The tokens of a source, `finish` included, and its lexical problems (`scan`). -/
def Token.scan (file source : String) : List Token × List (Placed LexicalProblem) :=
  let results := Token.results file source
  (results.filterMap Except.toOption,
    results.filterMap fun r => match r with
      | .ok _ => none
      | .error e => some e)

/-! ## Nothing is lost -/

namespace Region

theorem firstNumber_pos (c : Char) (rest : List Char) : 0 < (firstNumber c rest).1 := by
  unfold firstNumber
  dsimp only
  split
  · split
    · exact Nat.succ_pos _
    · exact Nat.add_pos_left (Nat.succ_pos _) _
  · exact Nat.succ_pos _

theorem firstString_pos (rest : List Char) : 0 < (firstString rest).1 := by
  unfold firstString
  dsimp only
  split <;> exact Nat.succ_pos _

theorem firstWithEqual_pos (rest : List Char) (joined single : Mark) :
    0 < (firstWithEqual rest joined single).1 := by
  unfold firstWithEqual
  split <;> exact Nat.succ_pos _

theorem firstSlash_pos (rest : List Char) : 0 < (firstSlash rest).1 := by
  unfold firstSlash
  split
  · exact Nat.add_pos_left (by decide) _
  · split <;> exact Nat.add_pos_left (by decide) _
  · exact Nat.one_pos

/-- Every region holds a character. -/
theorem first_pos (c : Char) (rest : List Char) : 0 < (first c rest).1 := by
  unfold first
  split
  · exact Nat.one_pos
  · split
    · exact Nat.one_pos
    · exact firstWithEqual_pos ..
    · split
      · exact firstSlash_pos rest
      · split
        · exact firstString_pos rest
        · split
          · exact firstNumber_pos c rest
          · split
            · exact Nat.succ_pos _
            · exact Nat.one_pos

/-- As many regions as there are characters make up the source. -/
theorem join_splitUpTo (limit : Nat) (source : List Char) (h : source.length ≤ limit) :
    join (splitUpTo limit source) = source := by
  induction limit generalizing source with
  | zero => simp_all [splitUpTo, join]
  | succ limit ih =>
    cases source with
    | nil => rfl
    | cons c rest =>
      have hpos := first_pos c rest
      simp only [splitUpTo, join, List.flatMap_cons]
      have hlen : ((c :: rest).drop (first c rest).1).length ≤ limit := by
        simp only [List.length_drop, List.length_cons] at h ⊢
        omega
      have := ih _ hlen
      unfold join at this
      rw [this, List.take_append_drop]

/-- The regions of a source concatenate to it. -/
theorem join_split (source : List Char) : join (split source) = source :=
  join_splitUpTo _ _ (Nat.le_refl _)

end Region

end LoxLang
