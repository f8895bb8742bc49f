import LoxLang.Token.Region
import Mathlib.Tactic.Common

/-!
# Words of a source

A word of a source is an identifier only if it is not reserved.
-/

namespace LoxLang

namespace Region

theorem kind_firstNumber {c : Char} {rest : List Char} :
    (firstNumber c rest).2 ≠ .token .identifier := by
  unfold firstNumber numberKind
  dsimp only
  split
  · split <;> simp
  · simp

theorem kind_firstString {rest : List Char} : (firstString rest).2 ≠ .token .identifier := by
  unfold firstString
  dsimp only
  split <;> simp

theorem kind_firstSlash {rest : List Char} : (firstSlash rest).2 ≠ .token .identifier := by
  unfold firstSlash
  split
  · simp
  · split <;> simp
  · simp

theorem kind_firstWithEqual {rest : List Char} {joined single : Mark} :
    (firstWithEqual rest joined single).2 ≠ .token .identifier := by
  unfold firstWithEqual
  split <;> simp

/-- The text of an identifier is no reserved word. -/
theorem ofWord?_of_first {c : Char} {rest : List Char} {n : Nat}
    (h : first c rest = (n, .token .identifier)) :
    Mark.ofWord? (String.ofList ((c :: rest).take n)) = none := by
  have hk : (first c rest).2 = .token .identifier := by rw [h]
  unfold first at h hk
  split at hk
  · cases hk
  rename_i hgap
  rw [if_neg hgap] at h
  split at hk
  · cases hk
  · exact absurd hk kind_firstWithEqual
  rename_i hs hw
  rw [hs, hw] at h
  dsimp only at h
  split at hk
  · exact absurd hk kind_firstSlash
  rename_i hslash
  rw [if_neg hslash] at h
  split at hk
  · exact absurd hk kind_firstString
  rename_i hquote
  rw [if_neg hquote] at h
  split at hk
  · exact absurd hk kind_firstNumber
  rename_i hdigit
  rw [if_neg hdigit] at h
  split at hk
  · rename_i hword
    rw [if_pos hword, firstWord, Prod.mk.injEq] at h
    obtain ⟨rfl, hkind⟩ := h
    rw [List.take_succ_cons, ← List.prefix_iff_eq_take.1 (List.takeWhile_prefix _)]
    simp only [wordKind, Piece.token.injEq] at hkind
    split at hkind
    · cases hkind
    · assumption
  · cases hk

/-- The region holds no reserved word if it is an identifier. -/
def Unreserved (r : Region) : Prop :=
  r.piece = .token .identifier → Mark.ofWord? (String.ofList r.text) = none

theorem unreserved_splitUpTo : ∀ (limit : Nat) (source : List Char),
    ∀ r ∈ splitUpTo limit source, Unreserved r
  | 0, _, r, h => by simp [splitUpTo] at h
  | _ + 1, [], r, h => by simp [splitUpTo] at h
  | limit + 1, c :: rest, r, h => by
    rw [splitUpTo, List.mem_cons] at h
    rcases h with rfl | h
    · intro hp
      exact ofWord?_of_first (Prod.ext rfl hp)
    · exact unreserved_splitUpTo limit _ r h

/-- The regions that have places are those that were there. -/
theorem mem_of_mem_placed {r : Placed Region} : ∀ {p : Place} {rs : List Region},
    r ∈ placed p rs → r.value ∈ rs
  | _, [], h => by simp [placed] at h
  | p, s :: rs, h => by
    rw [placed, List.mem_cons] at h
    rcases h with rfl | h
    · exact List.mem_cons_self
    · exact List.mem_cons_of_mem _ (mem_of_mem_placed h)

end Region

/-- No identifier of a source is a reserved word. -/
theorem Token.ofWord?_of_mem_scan {file source : String} {t : Token}
    (h : t ∈ (Token.scan file source).1) (ht : t.isIdentifier) :
    Mark.ofWord? t.lexeme = none := by
  simp only [Token.scan, Token.results, List.filterMap_append, List.mem_append,
    List.mem_filterMap] at h
  rcases h with ⟨x, ⟨r, hr, hx⟩, hxt⟩ | ⟨x, hx, hxt⟩
  · have hu := Region.unreserved_splitUpTo _ _ _ (Region.mem_of_mem_placed hr)
    unfold Region.result? at hx
    split at hx <;> cases hx
    · cases hxt
      rename_i kind hk
      rw [Token.isIdentifier] at ht
      refine hu ?_
      rw [hk]
      cases kind <;> simp_all
    · cases hxt
  · simp only [List.mem_singleton] at hx
    subst hx
    cases hxt
    cases ht

end LoxLang
