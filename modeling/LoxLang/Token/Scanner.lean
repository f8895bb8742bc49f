import LoxLang.Token.Region

/-!
# Scanning bytes

A `Scanner` goes through the bytes of a source. It counts bytes, lines and where the line
starts as it passes them, jumps ahead in comments, and cuts the texts of tokens out between
two bytes. `Scanner.next?` gives the tokens and problems of a source one at a time, the
`finish` after them, and nothing from then on. A look past the end or a cut inside of a
character is `none`.
-/

namespace LoxLang

/-! ## Bytes -/

def lineFeed : UInt8 := 10

/-- The byte of `"`. -/
def quote : UInt8 := 34

/-- The byte of `*`. -/
def asterisk : UInt8 := 42

/-- The byte of `.`. -/
def point : UInt8 := 46

/-- The byte of `/`. -/
def slash : UInt8 := 47

/-- The byte of `=`. -/
def equals : UInt8 := 61

/-- The character that the byte is on its own. Bytes of longer characters come out as
characters that begin no token. -/
def letter (b : UInt8) : Char := Char.ofNat b.toNat

/-- What is left of a text behind so many bytes, unless they end inside of a character or
there are not so many. -/
def dropBytes? : List Char → Nat → Option (List Char)
  | cs, 0 => some cs
  | [], _ + 1 => none
  | c :: cs, n + 1 =>
    if c.utf8Size ≤ n + 1 then dropBytes? cs (n + 1 - c.utf8Size) else none

/-- The first bytes of a text, unless they end inside of a character or there are not so
many. -/
def takeBytes? : List Char → Nat → Option (List Char)
  | _, 0 => some []
  | [], _ + 1 => none
  | c :: cs, n + 1 =>
    if c.utf8Size ≤ n + 1 then (takeBytes? cs (n + 1 - c.utf8Size)).map (c :: ·) else none

/-- The text between two bytes, unless one of them is no boundary of a character. -/
def slice? (cs : List Char) (start stop : Nat) : Option (List Char) :=
  if start ≤ stop then do takeBytes? (← dropBytes? cs start) (stop - start) else none

/-! ## Skipping a comment -/

/-- How far a comment has been skipped. -/
structure Skip where
  /-- The number of bytes that have been passed. -/
  reached : Nat
  line : Nat
  /-- The byte that the line starts with. -/
  lineFrom : Nat
  /-- The number of comments that are open. -/
  depth : Nat
deriving DecidableEq, Repr

namespace Skip

/-- The bytes that a skip looks for. -/
def isMarked (b : UInt8) : Bool := b == lineFeed || b == asterisk || b == slash

/-- Passes the next byte if it is this one (`Scanner::match_byte`). -/
def pass? (bytes : List UInt8) (b : UInt8) (s : Skip) : Option Skip :=
  if bytes[s.reached]? = some b then some { s with reached := s.reached + 1 } else none

/-- The byte that has just been passed ended a line (`Scanner::newline`). -/
def newline (s : Skip) : Skip := { s with line := s.line + 1, lineFrom := s.reached }

/-- What follows from a marked byte that has just been passed (`Scanner::skip_block_comment`). -/
def turn (bytes : List UInt8) (b : UInt8) (s : Skip) : Skip :=
  if b = lineFeed then s.newline
  else if b = asterisk then
    match s.pass? bytes slash with
    | some s => { s with depth := s.depth - 1 }
    | none => s
  else
    match s.pass? bytes asterisk with
    | some s => { s with depth := s.depth + 1 }
    | none => s

/-- The turn at the next marked byte, if there is one (`memchr3`). -/
def next? (bytes : List UInt8) (s : Skip) : Option Skip :=
  match (bytes.drop s.reached).findIdx? isMarked with
  | some k =>
    some (turn bytes (bytes.getD (s.reached + k) 0) { s with reached := s.reached + k + 1 })
  | none => none

theorem le_reached_turn (bytes : List UInt8) (b : UInt8) (s : Skip) :
    s.reached ≤ (s.turn bytes b).reached := by
  have hpass (b : UInt8) (s' : Skip) (h : s.pass? bytes b = some s') : s.reached ≤ s'.reached := by
    unfold pass? at h
    split at h <;> cases h
    exact Nat.le_succ _
  unfold turn
  split
  · exact Nat.le_refl _
  · split <;> split
    next s' h => exact hpass _ s' h
    next => exact Nat.le_refl _
    next s' h => exact hpass _ s' h
    next => exact Nat.le_refl _

/-- Every turn passes a byte. -/
theorem lt_of_next? {bytes : List UInt8} {s s' : Skip} (h : s.next? bytes = some s') :
    s.reached < bytes.length ∧ s.reached < s'.reached := by
  unfold next? at h
  split at h
  next k hk =>
    obtain ⟨hlt, -⟩ := List.findIdx?_eq_some_iff_getElem.1 hk
    rw [List.length_drop] at hlt
    have hle := le_reached_turn bytes (bytes.getD (s.reached + k) 0)
      { s with reached := s.reached + k + 1 }
    rw [Option.some.inj h] at hle
    dsimp only at hle
    omega
  next => cases h

/-- A skip to its end: where it stops with nothing open, or the end of the source
(`Scanner::skip_block_comment`). -/
def run (bytes : List UInt8) (s : Skip) : Except Skip Skip :=
  if s.depth = 0 then .ok s
  else
    match _h : s.next? bytes with
    | some s' => run bytes s'
    | none => .error { s with reached := bytes.length }
termination_by bytes.length - s.reached
decreasing_by
  have := lt_of_next? _h
  omega

/-- A skip goes back nowhere. -/
theorem le_of_run {bytes : List UInt8} {s s' : Skip} (h : run bytes s = .ok s') :
    s.reached ≤ s'.reached := by
  fun_induction run bytes s with
  | case1 s hd =>
    cases h
    exact Nat.le_refl _
  | case2 s hd t ht ih => exact Nat.le_trans (Nat.le_of_lt (lt_of_next? ht).2) (ih h)
  | case3 s hd hn => cases h

end Skip

/-! ## Scanners -/

/-- A reading of a source that has come to a byte. -/
structure Scanner where
  file : String
  source : List Char
  /-- The bytes of the source. -/
  bytes : List UInt8
  /-- The first byte of the text that is being scanned. -/
  textFrom : Nat
  /-- The number of bytes that have been passed. -/
  reached : Nat
  line : Nat
  /-- The byte that the line starts with. -/
  lineFrom : Nat
  /-- Where the text that is being scanned starts. -/
  textPlace : Option Place
  /-- What the text that is being scanned has turned out to be. -/
  pending : Option Kind

/-- How the scan of a text ends, and the scanner behind it. -/
abbrev Scanned := Except (Placed LexicalProblem) Unit × Scanner

namespace Scanner

/-- A scanner that is about to start (`Scanner::new`). -/
def start (file source : String) : Scanner :=
  ⟨file, source.toList, source.toUTF8.data.toList, 0, 0, 1, 0, none, none⟩

variable (s : Scanner)

/-! ### Single bytes -/

/-- The scanner behind the next byte. -/
def step : Scanner := { s with reached := s.reached + 1 }

/-- Passes the next byte (`Scanner::advance`). -/
def advance? : Option (UInt8 × Scanner) := s.bytes[s.reached]?.map fun b => (b, s.step)

/-- The next byte, zero at the end (`Scanner::peek`). -/
def peek : UInt8 := s.bytes[s.reached]?.getD 0

/-- Passes the next byte if it is this one (`Scanner::match_byte`). -/
def pass? (b : UInt8) : Option Scanner :=
  if s.bytes[s.reached]? = some b then some s.step else none

/-- The byte that has just been passed ended a line (`Scanner::newline`). -/
def newline : Scanner := { s with line := s.line + 1, lineFrom := s.reached }

/-- The place of the next byte (`Scanner::here`). -/
def here : Place := ⟨s.file, s.line, s.reached - s.lineFrom + 1⟩

/-- The place of the text that is being scanned (`Scanner::lexeme_location`). -/
def textStart : Place := s.textPlace.getD s.here

/-- The text that is being scanned, as far as it has been passed. -/
def text? : Option (List Char) := slice? s.source s.textFrom s.reached

/-! ### Endings -/

/-- The text is no token. -/
def passed : Scanned := (.ok (), s)

/-- The text is a token of this kind. -/
def found (kind : Kind) : Scanned := (.ok (), { s with pending := some kind })

/-- There is something wrong with the text. -/
def wrong (cause : LexicalProblem) : Scanned := (.error ⟨s.textStart, cause⟩, s)

/-! ### Longer texts -/

/-- Passes bytes as long as they are such characters. -/
def passWhile (p : Char → Bool) : Scanner :=
  { s with
    reached := s.reached + ((s.bytes.drop s.reached).takeWhile fun b => p (letter b)).length }

/-- Jumps to the end of the line, which is left to the next turn. -/
def passLine : Scanner :=
  match (s.bytes.drop s.reached).findIdx? (· == lineFeed) with
  | some n => { s with reached := s.reached + n }
  | none => { s with reached := s.bytes.length }

/-- The counters of a skip. -/
def behind (k : Skip) : Scanner :=
  { s with reached := k.reached, line := k.line, lineFrom := k.lineFrom }

/-- Skips a comment whose opening has been passed (`Scanner::skip_block_comment`). -/
def passComment : Scanned :=
  match Skip.run s.bytes ⟨s.reached, s.line, s.lineFrom, 1⟩ with
  | .ok k => (s.behind k).passed
  | .error k => (s.behind k).wrong .openComment

/-- Passes the bytes up to a quote, and counts the lines that end among them. -/
def passContent : List UInt8 → Scanner → Scanner
  | [], s => s
  | b :: bs, s =>
    if b = quote then s
    else if b = lineFeed then passContent bs s.step.newline
    else passContent bs s.step

/-- Scans a string whose opening quote has been passed (`Scanner::parse_string`). -/
def scanString : Option Scanned := do
  let s := passContent (s.bytes.drop s.reached) s
  match s.advance? with
  | none => return s.wrong .openString
  | some (_, s) =>
    let content ← slice? s.source (s.textFrom + 1) (s.reached - 1)
    return s.found (.string (String.ofList content))

/-- The number that a numeral is written for. -/
def numeral (text : List Char) : Kind :=
  Region.numberKind (text.takeWhile Char.isDigit) ((text.dropWhile Char.isDigit).drop 1)

/-- Scans a number whose first digit has been passed (`Scanner::parse_number`). -/
def scanNumber : Option Scanned := do
  let s := s.passWhile Char.isDigit
  match s.pass? point with
  | none => return s.found (numeral (← s.text?))
  | some s =>
    if (letter s.peek).isDigit then
      let s := s.passWhile Char.isDigit
      return s.found (numeral (← s.text?))
    else return s.wrong .missingFraction

/-- Scans a word whose first letter has been passed (`Scanner::parse_identifier`). -/
def scanWord : Option Scanned := do
  let s := s.passWhile Region.continuesWord
  return s.found (Region.wordKind (← s.text?))

/-- Scans what starts with a slash, which has been passed. -/
def scanSlash : Scanned :=
  match s.pass? slash with
  | some s => s.passLine.passed
  | none =>
    match s.pass? asterisk with
    | some s => s.passComment
    | none => s.found (.mark .slash)

/-- Passes the whole of a character that begins no token. -/
def scanUnexpected (b : UInt8) : Option Scanned := do
  let ahead ← dropBytes? s.source s.textFrom
  let c := ahead.headD (letter b)
  return { s with reached := s.textFrom + c.utf8Size }.wrong (.unexpected c)

/-- An operator that an equals sign may extend (`Scanner::with_equal`). -/
def scanWithEqual (joined single : Mark) : Scanned :=
  match s.pass? equals with
  | some s => s.found (.mark joined)
  | none => s.found (.mark single)

/-- Scans what the byte begins that has just been passed (`Scanner::scan_token`). -/
def scanBehind (b : UInt8) : Option Scanned :=
  let c := letter b
  if c = '\n' then some s.newline.passed
  else if Region.isGap c then some s.passed
  else
    match Region.single? c, Region.withEqual? c with
    | some m, _ => some (s.found (.mark m))
    | none, some (joined, single) => some (s.scanWithEqual joined single)
    | none, none =>
      if c = '/' then some s.scanSlash
      else if c = '"' then s.scanString
      else if c.isDigit then s.scanNumber
      else if Region.beginsWord c then s.scanWord
      else s.scanUnexpected b

/-- Scans one text: a blank, a comment, a token, or what is none of them (`Scanner::scan_token`). -/
def scanText : Option Scanned := do
  let (b, s) ← s.advance?
  s.scanBehind b

/-! ### Progress -/

/-- The scanner `t` is of the same source as `s`, and not behind it. -/
structure Ahead (s t : Scanner) : Prop where
  bytes : t.bytes = s.bytes
  reached : s.reached ≤ t.reached

variable {s} {t u : Scanner} {b : UInt8}

/-- A scanner is not behind itself. -/
theorem Ahead.refl (s : Scanner) : s.Ahead s := ⟨rfl, Nat.le_refl _⟩

/-- Of three scanners the last is not behind the first. -/
theorem Ahead.trans (h : s.Ahead t) (h' : t.Ahead u) : s.Ahead u :=
  ⟨h'.bytes.trans h.bytes, Nat.le_trans h.reached h'.reached⟩

theorem ahead_passWhile (s : Scanner) (p : Char → Bool) : s.Ahead (s.passWhile p) :=
  ⟨rfl, Nat.le_add_right _ _⟩

theorem ahead_of_pass? (h : s.pass? b = some t) :
    s.Ahead t ∧ t.reached ≤ t.bytes.length := by
  unfold pass? at h
  split at h
  next hb =>
    obtain rfl := Option.some.inj h
    obtain ⟨hlt, -⟩ := List.getElem?_eq_some_iff.1 hb
    exact ⟨⟨rfl, Nat.le_succ _⟩, hlt⟩
  next => cases h

/-- What is passed with nothing wrong has been passed forward. -/
theorem ahead_of_advance? (h : s.advance? = some (b, t)) :
    s.Ahead t ∧ s.reached < t.reached ∧ t.reached ≤ t.bytes.length := by
  unfold advance? at h
  obtain ⟨c, hc, heq⟩ := Option.map_eq_some_iff.1 h
  obtain ⟨hlt, -⟩ := List.getElem?_eq_some_iff.1 hc
  obtain ⟨-, rfl⟩ := Prod.mk.inj heq
  exact ⟨⟨rfl, Nat.le_succ _⟩, Nat.lt_succ_self _, hlt⟩

theorem ahead_passLine (h : s.reached ≤ s.bytes.length) : s.Ahead s.passLine := by
  unfold passLine
  split
  · exact ⟨rfl, Nat.le_add_right _ _⟩
  · exact ⟨rfl, h⟩

theorem ahead_of_passComment (h : s.passComment = (.ok (), t)) : s.Ahead t := by
  unfold passComment at h
  split at h
  next k hk =>
    obtain ⟨-, rfl⟩ := Prod.mk.inj h
    exact ⟨rfl, Skip.le_of_run hk⟩
  next => cases h

theorem ahead_passContent (bs : List UInt8) (s : Scanner) : s.Ahead (passContent bs s) := by
  induction bs generalizing s with
  | nil => exact .refl s
  | cons b bs ih =>
    have hstep : s.Ahead s.step := ⟨rfl, Nat.le_succ _⟩
    have hline : s.Ahead s.step.newline := ⟨rfl, Nat.le_succ _⟩
    rw [passContent]
    split
    · exact .refl s
    · split
      · exact hline.trans (ih _)
      · exact hstep.trans (ih _)

theorem ahead_of_scanString (h : s.scanString = some (.ok (), t)) : s.Ahead t := by
  unfold scanString at h
  dsimp only at h
  split at h
  next => cases h
  next c u hu =>
    obtain ⟨content, -, hfound⟩ := Option.bind_eq_some_iff.1 h
    cases hfound
    exact (ahead_passContent _ s).trans ((ahead_of_advance? hu).1.trans ⟨rfl, Nat.le_refl _⟩)

theorem ahead_of_scanNumber (h : s.scanNumber = some (.ok (), t)) : s.Ahead t := by
  unfold scanNumber at h
  dsimp only at h
  split at h
  next =>
    obtain ⟨text, -, hfound⟩ := Option.bind_eq_some_iff.1 h
    cases hfound
    exact (s.ahead_passWhile _).trans ⟨rfl, Nat.le_refl _⟩
  next u hu =>
    split at h
    next =>
      obtain ⟨text, -, hfound⟩ := Option.bind_eq_some_iff.1 h
      cases hfound
      exact (s.ahead_passWhile _).trans ((ahead_of_pass? hu).1.trans
        ((u.ahead_passWhile _).trans ⟨rfl, Nat.le_refl _⟩))
    next => cases h

theorem ahead_of_scanWord (h : s.scanWord = some (.ok (), t)) : s.Ahead t := by
  obtain ⟨text, -, hfound⟩ := Option.bind_eq_some_iff.1 h
  cases hfound
  exact (s.ahead_passWhile _).trans ⟨rfl, Nat.le_refl _⟩

theorem ahead_of_scanSlash (h : s.scanSlash = (.ok (), t)) : s.Ahead t := by
  unfold scanSlash at h
  split at h
  next u hu =>
    obtain ⟨hahead, hle⟩ := ahead_of_pass? hu
    cases h
    exact hahead.trans (ahead_passLine hle)
  next =>
    split at h
    next u hu => exact (ahead_of_pass? hu).1.trans (ahead_of_passComment h)
    next =>
      cases h
      exact ⟨rfl, Nat.le_refl _⟩

theorem ahead_of_scanWithEqual {joined single : Mark}
    (h : s.scanWithEqual joined single = (.ok (), t)) : s.Ahead t := by
  unfold scanWithEqual at h
  split at h
  next u hu =>
    cases h
    exact (ahead_of_pass? hu).1.trans ⟨rfl, Nat.le_refl _⟩
  next =>
    cases h
    exact ⟨rfl, Nat.le_refl _⟩

theorem ahead_of_scanBehind (h : s.scanBehind b = some (.ok (), t)) : s.Ahead t := by
  unfold scanBehind at h
  dsimp only at h
  split at h
  · cases h
    exact ⟨rfl, Nat.le_refl _⟩
  split at h
  · cases h
    exact .refl s
  split at h
  · cases h
    exact ⟨rfl, Nat.le_refl _⟩
  · exact ahead_of_scanWithEqual (Option.some.inj h)
  split at h
  · exact ahead_of_scanSlash (Option.some.inj h)
  split at h
  · exact ahead_of_scanString h
  split at h
  · exact ahead_of_scanNumber h
  split at h
  · exact ahead_of_scanWord h
  · obtain ⟨ahead, -, hwrong⟩ := Option.bind_eq_some_iff.1 h
    cases hwrong

/-- Every text has a byte. -/
theorem lt_of_scanText (h : s.scanText = some (.ok (), t)) :
    t.bytes = s.bytes ∧ s.reached < t.reached := by
  obtain ⟨⟨b, u⟩, hu, h⟩ := Option.bind_eq_some_iff.1 h
  obtain ⟨hahead, hlt, -⟩ := ahead_of_advance? hu
  have hbehind := ahead_of_scanBehind h
  exact ⟨(hahead.trans hbehind).bytes, Nat.lt_of_lt_of_le hlt hbehind.reached⟩

/-! ### Step by step -/

/-- The scanner about to scan a text from where it is. -/
def fresh (s : Scanner) : Scanner :=
  { s with textFrom := s.reached, textPlace := some s.here, pending := none }

/-- The next token or problem, `finish` at the end of the source, and nothing behind it; blanks and
comments are passed over (`Scanner::next`). -/
def next? (s : Scanner) : Option (Option (Except (Placed LexicalProblem) Token) × Scanner) :=
  if s.bytes.length < s.reached then some (none, s)
  else if s.reached = s.bytes.length then
    some (some (.ok ⟨.finish, "", s.here⟩), { s with reached := s.reached + 1 })
  else
    match _h : s.fresh.scanText with
    | none => none
    | some (.error p, t) => some (some (.error p), t)
    | some (.ok (), t) =>
      match t.pending with
      | some kind =>
        t.text?.map fun text =>
          (some (.ok ⟨kind, String.ofList text, t.textStart⟩), { t with pending := none })
      | none => next? t
termination_by s.bytes.length - s.reached
decreasing_by
  obtain ⟨hbytes, hlt⟩ := lt_of_scanText _h
  simp only [hbytes]
  simp only [fresh] at hlt ⊢
  omega

/-- The scanner after so many steps. -/
def after? : Nat → Scanner → Option Scanner
  | 0, s => some s
  | n + 1, s => do after? n (← s.next?).2

/-- The step with this number, counted from zero: what it gives, and the scanner after it. -/
def nth? (s : Scanner) (n : Nat) :
    Option (Option (Except (Placed LexicalProblem) Token) × Scanner) := do
  (← after? n s).next?

end Scanner

end LoxLang
