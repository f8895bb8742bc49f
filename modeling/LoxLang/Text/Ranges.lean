/-!
# Ranges of characters

Classes of characters as closed ranges of code points.
-/

namespace LoxLang

/-- Closed ranges of code points, ascending and apart. -/
abbrev Ranges := List (Nat × Nat)

namespace Ranges

def has (rs : Ranges) (c : Char) : Bool := rs.any fun r => r.1 ≤ c.toNat && c.toNat ≤ r.2

/-- Are the ranges ascending and apart? -/
def areApart : Ranges → Bool
  | [] => true
  | [r] => r.1 ≤ r.2
  | r :: s :: rs => r.1 ≤ r.2 && r.2 + 1 < s.1 && areApart (s :: rs)

def count (rs : Ranges) : Nat := rs.foldr (fun r n => r.2 + 1 - r.1 + n) 0

end Ranges

end LoxLang
