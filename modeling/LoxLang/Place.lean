/-!
# Places in source text

A place is a file, a line and a column, both counted from one; columns count the bytes
of the UTF-8 form. `Place.past` says where a text ends that starts at a place.
-/

namespace LoxLang

/-- Where something was written (`SourceLocation`). -/
structure Place where
  file : String
  line : Nat
  column : Nat
deriving DecidableEq, Repr, Inhabited

/-- `file:line:column`. -/
def Place.text (p : Place) : String := s!"{p.file}:{p.line}:{p.column}"

def Place.start (file : String) : Place := ⟨file, 1, 1⟩

def Place.next (p : Place) (c : Char) : Place :=
  if c = '\n' then { p with line := p.line + 1, column := 1 }
  else { p with column := p.column + c.utf8Size }

def Place.past (p : Place) (cs : List Char) : Place := cs.foldl Place.next p

@[simp] theorem Place.past_nil (p : Place) : p.past [] = p := rfl

/-- Going on behind a text is going on behind its characters one by one. -/
@[simp] theorem Place.past_cons (p : Place) (c : Char) (cs : List Char) :
    p.past (c :: cs) = (p.next c).past cs := rfl

theorem Place.past_append (p : Place) (cs ds : List Char) :
    p.past (cs ++ ds) = (p.past cs).past ds := by
  simp [Place.past, List.foldl_append]

/-- Does `p` come before `q`, or at the same line and column? -/
def Place.le (p q : Place) : Bool :=
  p.line < q.line || (p.line == q.line && p.column ≤ q.column)

/-- A value and where it was written. -/
structure Placed (α : Type) where
  place : Place
  value : α
deriving DecidableEq, Repr

/-- A name and where it was written (`Identifier`). -/
structure Name where
  text : String
  place : Place
deriving DecidableEq, Repr, Inhabited

end LoxLang
