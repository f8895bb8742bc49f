import LoxLang.Tree.Misfit

/-!
# Reading phrases

A phrase is read from the front of a token list. It gives a value and the tokens that
are left, or refuses with a misfit; either way the misfits met and recovered from on the
way are kept in order.
-/

namespace LoxLang

/-- What is left to read, and the misfits recovered from so far (`Parser`). -/
structure Cursor where
  rest : List Token
  misfits : Array Misfit
deriving Repr

/-- A reader of phrases. -/
abbrev Phrase := EStateM Misfit Cursor

namespace Phrase

variable {α : Type}

/-! ## Single tokens -/

/-- The next token, which stays (`Parser::peek`). -/
def peek : Phrase (Option Token) := fun c => .ok c.rest.head? c

/-- Refuses at the next token (`Parser::error_at`). -/
def refuse (complaint : Complaint) : Phrase α := fun c =>
  .error ⟨c.rest.head?, complaint⟩ c

/-- Passes over the next token (`Parser::advance`). -/
def skip : Phrase Unit := fun c => .ok () { c with rest := c.rest.tail }

/-- Takes the next token if it passes the test. -/
def take? (test : Token → Bool) : Phrase (Option Token) := fun c =>
  match c.rest with
  | t :: rest => if test t then .ok (some t) { c with rest } else .ok none c
  | [] => .ok none c

/-- Takes the next token, which has to pass the test (`Parser::consume`). -/
def expect (test : Token → Bool) (complaint : Complaint) : Phrase Token := fun c =>
  match c.rest with
  | t :: rest => if test t then .ok t { c with rest } else .error ⟨some t, complaint⟩ c
  | [] => .error ⟨none, complaint⟩ c

/-- Takes the mark if it comes next, and gives its place (`Parser::matches`). -/
def mark? (m : Mark) : Phrase (Option Place) :=
  return (← take? (·.isMark m)).map Token.place

/-- Takes the mark, which has to come next (`Parser::consume`). -/
def mark (m : Mark) (complaint : Complaint) : Phrase Unit :=
  discard (expect (·.isMark m) complaint)

/-- Takes an identifier, which has to come next. -/
def identifier (complaint : Complaint) : Phrase Name :=
  return (← expect Token.isIdentifier complaint).name

/-- Does the mark come next (`Parser::check`)? -/
def atMark (m : Mark) : Phrase Bool :=
  return (← peek).any (·.isMark m)

/-! ## Repetition -/

/-- Repeats a step for as long as it gives something, at most once for each token of
`limit`. -/
def manyUpTo (step : Phrase (Option α)) : List Token → Phrase (List α)
  | [] => return []
  | _ :: limit => do
    match ← step with
    | none => return []
    | some a => return a :: (← manyUpTo step limit)

/-- Repeats a step for as long as it gives something. Each step that does takes a token,
so the tokens that are left are limit enough. -/
def many (step : Phrase (Option α)) : Phrase (List α) := fun c => manyUpTo step c.rest c

/-- Lets a value grow for as long as the step makes something of it, at most once for each
token of `limit`. -/
def growUpTo (step : α → Phrase (Option α)) : List Token → α → Phrase α
  | [], a => return a
  | _ :: limit, a => do
    match ← step a with
    | none => return a
    | some b => growUpTo step limit b

/-- Lets a value grow for as long as the step makes something of it. Each step that does
takes a token, so the tokens that are left are limit enough. -/
def grow (step : α → Phrase (Option α)) (a : α) : Phrase α := fun c => growUpTo step c.rest a c

/-- One item or more with commas between them, in a list that has `room` for so many. -/
def commaList (item : Phrase α) (tooMany : Complaint) : Nat → Phrase (List α)
  | 0 => refuse tooMany
  | room + 1 => do
    let a ← item
    match ← mark? .comma with
    | some _ => return a :: (← commaList item tooMany room)
    | none => return [a]

/-! ## Recovery -/

/-- Drops tokens up to a likely statement boundary: behind a semicolon, `last` being the token
dropped before, or in front of a word that opens a statement (`Parser::synchronize`). -/
def boundary (last : Token) : List Token → List Token
  | [] => []
  | t :: rest =>
    if last.isMark .semicolon || t.opensStatement then t :: rest else boundary t rest

/-- Where to go on after a misfit: the first token is always dropped (`Parser::synchronize`). -/
def resume : List Token → List Token
  | [] => []
  | t :: rest => boundary t rest

/-- Reads a phrase; if it is refused, keeps the misfit and goes on at the next likely
boundary with nothing. -/
def recovering (phrase : Phrase α) : Phrase (Option α) := fun c =>
  match phrase c with
  | .ok a c => .ok (some a) c
  | .error m c => .ok none { rest := resume c.rest, misfits := c.misfits.push m }

end Phrase

end LoxLang
