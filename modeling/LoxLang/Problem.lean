import LoxLang.Token.Region
import LoxLang.Tree.Misfit
import LoxLang.Scoping.Basic

/-!
# Problems

All that can be wrong with a program before it runs, with one form of report; and the
warning about a local variable that nothing reads.
-/

namespace LoxLang

/-- What is wrong with a program that has not run (`LoxError`). -/
inductive Problem where
  | lexical (p : Placed LexicalProblem)
  | grammar (m : Misfit)
  | scope (p : Placed ScopeProblem)
deriving Repr

namespace Problem

def place : Problem → Place
  | lexical p => p.place
  | grammar m => m.place
  | scope p => p.place

def message : Problem → String
  | lexical p => p.value.message
  | grammar m => m.message
  | scope p => p.value.message

def text (p : Problem) : String := p.place.text ++ ": Error: " ++ p.message

end Problem

/-- The warning about a local variable that nothing reads (`Warning`). -/
def Name.unreadMessage (n : Name) : String := s!"Local variable '{n.text}' is never read."

def Name.unreadText (n : Name) : String := n.place.text ++ ": Warning: " ++ n.unreadMessage

end LoxLang
