import LoxLang.Proofs.Token.Lexeme
import LoxLang.Proofs.Tree.Sexp

/-!
# The leaves of the parenthesized form

The names and literals of a tree stand for themselves in its parenthesized form. A name is a
word that is not reserved, a finite number is printed in digits, and so neither can be taken
for the other or for more than one word. A string could be.
-/

namespace LoxLang

/-! ## Names and literals -/

/-- A name that may be written in a program. -/
def Name.IsWord (n : Name) : Prop := Region.IsWord n.text.toList ∧ Mark.ofWord? n.text = none

/-- A constant other than a string, and finite if it is a number. -/
def Literal.IsPlain : Literal → Prop
  | .number x => ∃ negative m, Number.parts x = .finite negative m
  | .string _ => False
  | .yes | .no | .nil => True

/-- What a tree holds at its leaves. -/
inductive Atom where
  | name (n : Name)
  | literal (l : Literal)

/-- Among the atoms no name can be taken for a literal, and no literal for a name. -/
def Atom.AllReadable (as : List Atom) : Prop :=
  (∀ n, .name n ∈ as → n.IsWord) ∧ ∀ l, .literal l ∈ as → l.IsPlain

namespace Atom

@[simp] theorem allReadable_nil : AllReadable [] := by simp [AllReadable]

/-- A name can be read if it is a word. -/
@[simp] theorem allReadable_name {n : Name} {as : List Atom} :
    AllReadable (.name n :: as) ↔ n.IsWord ∧ AllReadable as := by
  simp [AllReadable, forall_and, or_imp, and_assoc]

/-- A literal can be read if it is plain. -/
@[simp] theorem allReadable_literal {l : Literal} {as : List Atom} :
    AllReadable (.literal l :: as) ↔ l.IsPlain ∧ AllReadable as := by
  simp only [AllReadable, List.mem_cons, reduceCtorEq, false_or, literal.injEq, or_imp, forall_and,
    forall_eq]
  exact and_left_comm

/-- Leaves can be read if those of both parts can. -/
@[simp] theorem allReadable_append {as bs : List Atom} :
    AllReadable (as ++ bs) ↔ AllReadable as ∧ AllReadable bs := by
  simp only [AllReadable, List.mem_append, or_imp, forall_and]
  exact and_and_and_comm

@[simp] theorem allReadable_names {ns : List Name} :
    AllReadable (ns.map .name) ↔ ∀ n ∈ ns, n.IsWord := by
  simp [AllReadable]

end Atom

/-! ## Numbers -/

namespace Region

/-- Digits, letters and underscores are no parentheses and no blanks. -/
theorem beginsWord_eq_false {c : Char} (h : c.isDigit ∨ c = '.' ∨ c = '-') :
    beginsWord c = false := by
  rcases h with h | rfl | rfl
  · by_contra hw
    rw [isDigit_eq_false (Bool.not_eq_false _ ▸ hw)] at h
    cases h
  · rfl
  · rfl

end Region

namespace Number

/-- Digits, points and minus signs. -/
def Numeric (text : String) : Prop := ∀ c ∈ text.toList, c.isDigit ∨ c = '.' ∨ c = '-'

instance (text : String) : Decidable (Numeric text) := List.decidableBAll _ _

theorem numeric_append {s t : String} : Numeric (s ++ t) ↔ Numeric s ∧ Numeric t := by
  simp only [Numeric, String.toList_append, List.mem_append, or_imp, forall_and]

theorem numeric_digits {n : Nat} {cs : List Char} (h : cs ⊆ Nat.toDigits 10 n) :
    Numeric (String.ofList cs) := by
  intro c hc
  rw [String.toList_ofList] at hc
  exact .inl (Nat.isDigit_of_mem_toDigits (by decide) (by decide) (h hc))

theorem numeric_zeros (count : Nat) : Numeric (zeros count) := by
  intro c hc
  rw [zeros, String.toList_ofList] at hc
  rw [List.eq_of_mem_replicate hc]
  exact .inl rfl

theorem Decimal.numeric_positional (d : Decimal) : Numeric d.positional := by
  unfold positional
  dsimp only
  split
  · exact numeric_append.2 ⟨numeric_digits (List.Subset.refl _), numeric_zeros _⟩
  · split
    · refine numeric_append.2 ⟨numeric_append.2 ⟨?_, by decide⟩, ?_⟩
      · exact numeric_digits (List.take_subset _ _)
      · exact numeric_digits (List.drop_subset _ _)
    · refine numeric_append.2 ⟨numeric_append.2 ⟨by decide, ?_⟩, ?_⟩
      · exact numeric_zeros _
      · exact numeric_digits (List.Subset.refl _)

theorem Decimal.positional_ne (d : Decimal) : d.positional ≠ "" := by
  have hne := Nat.toDigits_ne_nil (n := d.digits) (b := 10)
  unfold positional
  dsimp only
  split
  · simp [hne]
  · split <;> simp

/-- A finite number is printed in digits, with a point and a sign at most. -/
theorem numeric_text {x : Float} {negative : Bool} {m : Magnitude}
    (h : parts x = .finite negative m) : text x ≠ "" ∧ Numeric (text x) := by
  have htext : text x = signText negative m ++ (m.shortest .up).positional := by rw [text, h]
  have hsign : Numeric (signText negative m) := by
    unfold signText
    split <;> decide
  rw [htext]
  refine ⟨by simp [Decimal.positional_ne], ?_⟩
  exact numeric_append.2 ⟨hsign, Decimal.numeric_positional _⟩

end Number

/-! ## Words -/

/-- Does the text begin as a word does? -/
def beginsAsWord (text : String) : Bool := text.toList.head?.any Region.beginsWord

theorem Number.Numeric.beginsAsWord_eq_false {text : String} (h : Number.Numeric text) :
    beginsAsWord text = false := by
  unfold beginsAsWord
  cases htext : text.toList with
  | nil => rfl
  | cons c cs => exact Region.beginsWord_eq_false (h c (htext ▸ List.mem_cons_self))

theorem Number.Numeric.isAtom {text : String} (h : Number.Numeric text) (hne : text ≠ "") :
    IsAtom text := by
  refine ⟨hne, fun c hc hmem => ?_⟩
  have hnumeric := h c hc
  simp only [List.mem_cons, List.not_mem_nil, or_false] at hmem
  rcases hmem with rfl | rfl | rfl <;> exact absurd hnumeric (by decide)

namespace Name.IsWord

variable {n : Name} (h : n.IsWord)
include h

theorem beginsAsWord : beginsAsWord n.text = true := by
  have hw := h.1
  unfold LoxLang.beginsAsWord
  cases hn : n.text.toList with
  | nil =>
    rw [hn] at hw
    exact hw.elim
  | cons c cs =>
    rw [hn] at hw
    exact hw.1

/-- Every character of an ordinary name continues a word. -/
theorem continuesWord {c : Char} (hc : c ∈ n.text.toList) : Region.continuesWord c = true := by
  have hw := h.1
  cases hn : n.text.toList with
  | nil =>
    rw [hn] at hc
    cases hc
  | cons d ds =>
    rw [hn] at hw hc
    rcases List.mem_cons.1 hc with rfl | hc
    · have hd := hw.1
      unfold Region.beginsWord at hd
      unfold Region.continuesWord Char.isAlphanum
      rw [Bool.or_eq_true] at hd
      rcases hd with hd | hd <;> simp [hd]
    · exact hw.2 c hc

theorem isAtom : IsAtom n.text := by
  refine ⟨fun hn => ?_, fun c hc hmem => ?_⟩
  · have hw := h.1
    rw [hn] at hw
    exact hw
  · have hword := h.continuesWord hc
    simp only [List.mem_cons, List.not_mem_nil, or_false] at hmem
    rcases hmem with rfl | rfl | rfl <;> cases hword

/-- It is no reserved word. -/
theorem ne {word : String} (hword : (Mark.ofWord? word).isSome) : n.text ≠ word := by
  rintro rfl
  rw [h.2] at hword
  cases hword

end Name.IsWord

namespace Literal.IsPlain

variable {l : Literal} (h : l.IsPlain)
include h

theorem isAtom : IsAtom l.text := by
  cases l with
  | number x =>
    obtain ⟨negative, m, hx⟩ := h
    obtain ⟨hne, hnumeric⟩ := Number.numeric_text hx
    exact hnumeric.isAtom hne
  | string => exact h.elim
  | yes | no | nil => decide

end Literal.IsPlain

end LoxLang
