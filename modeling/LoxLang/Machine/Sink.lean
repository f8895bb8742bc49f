import LoxLang.Fault

/-!
# Where output goes

A sink is given the texts that are printed. It decides how many bytes of each it keeps and
whether it fails, by all that it was given before: `Sink.answer` may be any function. A sink
with limited room (`Sink.empty`) is one of them.
-/

namespace LoxLang

/-- What becomes of a text: how many of its bytes are kept, and why writing or flushing it
failed, if it did. -/
structure Reception where
  kept : Nat
  problem : Option SinkProblem

/-- A sink and what it was given. -/
structure Sink where
  /-- The bytes that were kept. -/
  bytes : ByteArray
  /-- The texts that were to be printed, the last one first. -/
  given : List String
  /-- What becomes of a text behind others. -/
  answer : List String → String → Reception

namespace Sink

/-- How many bytes the texts have. -/
def sizeOf : List String → Nat
  | [] => 0
  | text :: texts => text.toUTF8.size + sizeOf texts

/-- Keeps what fits into so much room, anything without a number; what fits is kept even if
not all does. -/
def within (room : Option Nat) (refusesFlush : Bool) (given : List String) (text : String) :
    Reception :=
  let size := text.toUTF8.size
  let flushed := if refusesFlush then some .flushRefused else none
  match room with
  | none => ⟨size, flushed⟩
  | some room =>
    let free := room - sizeOf given
    if size ≤ free then ⟨size, flushed⟩ else ⟨free, some .full⟩

/-- A sink that has been given nothing, with so much room. -/
def empty (room : Option Nat) (refusesFlush : Bool) : Sink :=
  ⟨.empty, [], within room refusesFlush⟩

/-- Takes a text, then a flush. -/
def put (s : Sink) (text : String) : Sink × Option SinkProblem :=
  let reception := s.answer s.given text
  ({ s with bytes := s.bytes ++ text.toUTF8.extract 0 reception.kept, given := text :: s.given },
    reception.problem)

/-- The text printed since the sink held `before` bytes. A last character that did not fit
as a whole shows as a replacement character. -/
def textSince (s : Sink) (before : Nat) : String :=
  let new := s.bytes.extract before s.bytes.size
  let whole (dropped : Nat) : Option String :=
    String.fromUTF8? (new.extract 0 (new.size - dropped))
  match whole 0 with
  | some text => text
  | none => ((whole 1 <|> whole 2 <|> whole 3).getD "") ++ "\ufffd"

end Sink

end LoxLang
