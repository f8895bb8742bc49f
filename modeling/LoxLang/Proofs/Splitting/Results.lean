import LoxLang.Proofs.Splitting.Tokens
import LoxLang.Proofs.Token.Positions

/-!
# What two sources give

A source that closes its strings and comments may have other problems, and still a line end
behind it keeps it apart from what follows: `Token.results_joined` says that tokens and problems
are those of the one source and then those of the other, further down.
-/

namespace LoxLang

namespace Token

open Region

def movedResult (g : Place → Place) :
    Except (Placed LexicalProblem) Token → Except (Placed LexicalProblem) Token
  | .ok t => .ok (t.moved g)
  | .error e => .error ⟨g e.place, e.value⟩

theorem result?_shift (file : String) (k : Nat) (p : Place) (rs : List Region) :
    (placed (p.shift file k) rs).filterMap result? =
      ((placed p rs).filterMap result?).map (movedResult (Place.shift file k)) := by
  rw [placed_shift, List.filterMap_map, List.map_filterMap]
  congr 1
  funext r
  unfold Function.comp result?
  cases r.value.piece <;> rfl

/-- Behind a line end a source gives what it gives alone, further down. -/
theorem results_shift (file : String) (k : Nat) (source : String) :
    (placed ((Place.start file).shift file k) (split source.toList)).filterMap result? ++
        [.ok ⟨.finish, "", ((Place.start file).shift file k).past source.toList⟩] =
      (results file source).map (movedResult (Place.shift file k)) := by
  rw [result?_shift, results, List.map_append, ← Place.shift_past]
  rfl

/-- **Line ends keep sources apart.** Of two sources with a line end between them, the first
with no string or comment left open, the tokens and problems are those of the first up to its
`finish`, then those of the second, further down by as many lines as the first one takes up. -/
theorem results_joined {file first second : String}
    (h : ∀ e ∈ (scan file first).2, e.value ≠ .openString ∧ e.value ≠ .openComment) :
    results file (first ++ "\n" ++ second) =
      (results file first).dropLast ++ (results file second).map
        (movedResult (Place.shift file (1 + first.toUTF8.data.toList.count lineFeed))) := by
  have htext : (first ++ "\n" ++ second).toList = first.toList ++ '\n' :: second.toList := by
    simp
  have hclosed : ∀ r ∈ split first.toList, r.piece.Closed := fun r hr => by
    refine ⟨fun hc => ?_, fun hc => ?_⟩ <;> obtain ⟨p, hp⟩ := mem_scan_of_problem file hr hc
    · exact (h _ hp).1 rfl
    · exact (h _ hp).2 rfl
  have hplace : (Place.start file).past (first.toList ++ '\n' :: second.toList) =
      ((Place.start file).shift file (1 + first.toList.count '\n')).past second.toList := by
    rw [Place.past_append, Place.past_cons, Place.past_newline]
  have hfirst : (results file first).dropLast =
      (placed (Place.start file) (split first.toList)).filterMap result? :=
    List.dropLast_concat
  rw [toList_toUTF8, count_utf8, ← results_shift, hfirst, ← List.append_assoc, results, htext,
    split_joined hclosed, placed_append, List.filterMap_append, placed, List.filterMap_cons,
    join_split, hplace]
  simp only [Place.past_cons, Place.past_nil, Place.past_newline]
  rfl

/-- The first source has other problems: a character that no token begins with, and at its end a
number without a fraction, which the digits of the second source are no part of. -/
theorem results_brokenNumber :
    (∀ e ∈ (scan "test.lox" "é\n1.").2, e.value ≠ .openString ∧ e.value ≠ .openComment) ∧
    results "test.lox" ("é\n1." ++ "\n" ++ "5") =
      [.error ⟨⟨"test.lox", 1, 1⟩, .unexpected 'é'⟩, .error ⟨⟨"test.lox", 2, 1⟩, .missingFraction⟩,
        .ok ⟨.number (Number.ofDigits 5 0), "5", ⟨"test.lox", 3, 1⟩⟩,
        .ok ⟨.finish, "", ⟨"test.lox", 3, 2⟩⟩] := by
  have h : ∀ e ∈ (scan "test.lox" "é\n1.").2, e.value ≠ .openString ∧ e.value ≠ .openComment := by
    decide +kernel
  refine ⟨h, ?_⟩
  rw [results_joined h]
  rfl

end Token

end LoxLang
