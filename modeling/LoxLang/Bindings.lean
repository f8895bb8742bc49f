/-!
# Bindings

Names with values, each name once, in the order in which the names were first bound.
-/

namespace LoxLang

/-- Values by name. -/
abbrev Bindings (α : Type) := List (String × α)

namespace Bindings

variable {α : Type}

def find? (bs : Bindings α) (name : String) : Option α := bs.lookup name

def has (bs : Bindings α) (name : String) : Bool := (bs.find? name).isSome

def insert (name : String) (a : α) : Bindings α → Bindings α
  | [] => [(name, a)]
  | (n, b) :: bs => if name == n then (n, a) :: bs else (n, b) :: insert name a bs

/-- Changes the value of a name, if it is bound. -/
def change (name : String) (f : α → α) : Bindings α → Bindings α
  | [] => []
  | (n, b) :: bs => if name == n then (n, f b) :: bs else (n, b) :: change name f bs

def names (bs : Bindings α) : List String := bs.map Prod.fst

@[simp] theorem find?_nil (name : String) : find? ([] : Bindings α) name = none := rfl

theorem find?_cons (n name : String) (b : α) (bs : Bindings α) :
    find? ((n, b) :: bs) name = if name == n then some b else find? bs name := by
  simp only [find?, List.lookup_cons]
  cases name == n <;> rfl

/-- An inserted name leads to its new value, and other names to what they led to before. -/
theorem find?_insert (name other : String) (a : α) (bs : Bindings α) :
    find? (insert name a bs) other = if other == name then some a else find? bs other := by
  induction bs with
  | nil => simp [insert, find?_cons]
  | cons p bs ih =>
    obtain ⟨n, b⟩ := p
    by_cases h : name = n
    · subst h; simp [insert, find?_cons]
      split <;> rfl
    · by_cases h2 : other = n
      · subst h2
        simp [insert, h, find?_cons, Ne.symm h]
      · simp [insert, h, find?_cons, h2, ih]

end Bindings

end LoxLang
