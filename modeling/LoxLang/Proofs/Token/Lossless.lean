import LoxLang.Proofs.Token.Lexeme
import LoxLang.Proofs.Token.Words

/-!
# One way to cut a source

The regions of a source are the only cut of it (`Region.eq_split_iff`), and something is wrong
with the source just if something is wrong with one of them (`Token.scan_eq_nil_iff`).
-/

namespace LoxLang

namespace Region

/-! ## Cuts of a source -/

/-- The source is cut into these regions. -/
def Splits : List Char → List Region → Prop
  | source, [] => source = []
  | source, r :: rs => ∃ rest, source = r.text ++ rest ∧ Cut r.text rest r.piece ∧ Splits rest rs

theorem splitUpTo_eq_split : ∀ (limit : Nat) (source : List Char), source.length ≤ limit →
    splitUpTo limit source = split source
  | 0, [], _ => rfl
  | limit + 1, [], _ => rfl
  | limit + 1, c :: rest, h => by
    have hpos := first_pos c rest
    have hrest : ((c :: rest).drop (first c rest).1).length ≤ rest.length := by
      simp only [List.length_drop, List.length_cons]
      omega
    have hlimit : rest.length ≤ limit := by simpa using h
    rw [split, List.length_cons, splitUpTo, splitUpTo]
    dsimp only
    rw [splitUpTo_eq_split limit _ (Nat.le_trans hrest hlimit),
      splitUpTo_eq_split rest.length _ hrest]
termination_by limit => limit

theorem split_cons (c : Char) (rest : List Char) :
    split (c :: rest) = ⟨(c :: rest).take (first c rest).1, (first c rest).2⟩ ::
      split ((c :: rest).drop (first c rest).1) := by
  have hpos := first_pos c rest
  rw [split, List.length_cons, splitUpTo]
  dsimp only
  rw [splitUpTo_eq_split]
  simp only [List.length_drop, List.length_cons]
  omega

theorem splits_split : ∀ source : List Char, Splits source (split source)
  | [] => rfl
  | c :: rest => by
    have hpos := first_pos c rest
    rw [split_cons]
    exact ⟨_, (List.take_append_drop _ _).symm, cutAt_first c rest, splits_split _⟩
termination_by source => source.length
decreasing_by
  simp only [List.length_drop, List.length_cons]
  omega

/-- There is one way to cut a source. -/
theorem eq_split_iff {source : List Char} {rs : List Region} :
    Splits source rs ↔ rs = split source := by
  constructor
  · induction rs generalizing source with
    | nil =>
      rintro rfl
      rfl
    | cons r rs ih =>
      rintro ⟨rest, rfl, hcut, hrs⟩
      obtain ⟨c, cs, htext, hfirst⟩ := cut_iff_first.1 hcut
      rw [ih hrs, htext, List.cons_append, split_cons, hfirst, ← List.cons_append, ← htext,
        List.take_left, List.drop_left]
  · rintro rfl
    exact splits_split source

/-- Each region of a cut, with what stands behind it. -/
theorem Splits.cut {source : List Char} {before after : List Region} {r : Region}
    (h : Splits source (before ++ r :: after)) : Cut r.text (join after) r.piece := by
  induction before generalizing source with
  | nil =>
    obtain ⟨rest, -, hcut, hrest⟩ := h
    have hjoin : join after = rest := by
      rw [eq_split_iff.1 hrest, join_split]
    rwa [hjoin]
  | cons s before ih =>
    obtain ⟨rest, -, -, hrest⟩ := h
    exact ih hrest

theorem Cut.ne_nil {text rest : List Char} {p : Piece} (h : Cut text rest p) : text ≠ [] := by
  obtain ⟨c, cs, rfl, -⟩ := cut_iff_first.1 h
  nofun

/-- A text is one region at most. -/
theorem Cut.unique {text rest : List Char} {p q : Piece} (hp : Cut text rest p)
    (hq : Cut text rest q) : p = q := by
  obtain ⟨c, cs, rfl, hfirst⟩ := cut_iff_first.1 hp
  obtain ⟨c', cs', hcs, hfirst'⟩ := cut_iff_first.1 hq
  obtain ⟨rfl, rfl⟩ := List.cons.inj hcs
  rw [hfirst] at hfirst'
  exact (Prod.mk.inj hfirst').2

/-- A text is the text of one sort of token. -/
theorem Lexeme.unique {text : List Char} {kind kind' : Kind} (h : Lexeme text kind)
    (h' : Lexeme text kind') : kind = kind' :=
  Piece.token.inj (Cut.unique (.token h (ends_nil _ _)) (.token h' (ends_nil _ _)))

theorem Cut.lexeme {text rest : List Char} {kind : Kind} (h : Cut text rest (.token kind)) :
    Lexeme text kind := by
  cases h with
  | token hl _ => exact hl

/-- No region is the end of its source. -/
theorem Lexeme.ne_finish {text : List Char} {kind : Kind} (h : Lexeme text kind) :
    kind ≠ .finish := by
  cases h <;> nofun

theorem value_placed (p : Place) (rs : List Region) : (placed p rs).map Placed.value = rs := by
  induction rs generalizing p with
  | nil => rfl
  | cons r rs ih => rw [placed, List.map_cons, ih]

theorem isFinish_of_mem_placed {p : Place} {rs : List Region} {t : Token}
    (hrs : ∀ r ∈ rs, r.piece ≠ .token .finish)
    (ht : .ok t ∈ (placed p rs).filterMap result?) : t.isFinish = false := by
  obtain ⟨r, hr, hresult⟩ := List.mem_filterMap.1 ht
  have hne := hrs r.value (mem_of_mem_placed hr)
  unfold result? at hresult
  split at hresult
  next kind hpiece =>
    obtain rfl : t = _ := (Except.ok.inj (Option.some.inj hresult)).symm
    cases kind <;> first | rfl | exact absurd hpiece hne
  next => cases hresult
  next => cases hresult
  next => cases hresult

end Region

/-! ## Problems -/

namespace Token

open Region

/-- What is wrong with a region is wrong with the source. -/
theorem mem_scan_of_problem (file : String) {source : String} {r : Region}
    {cause : LexicalProblem} (hr : r ∈ split source.toList) (hc : r.piece = .problem cause) :
    ∃ p, ⟨p, cause⟩ ∈ (scan file source).2 := by
  rw [← value_placed (Place.start file) (split source.toList)] at hr
  obtain ⟨q, hq, rfl⟩ := List.mem_map.1 hr
  have hresult : result? q = some (.error ⟨q.place, cause⟩) := by
    unfold result?
    rw [hc]
  have hmem : (.error ⟨q.place, cause⟩) ∈ results file source :=
    List.mem_append_left _ (List.mem_filterMap.2 ⟨q, hq, hresult⟩)
  exact ⟨q.place, List.mem_filterMap.2 ⟨_, hmem, rfl⟩⟩

/-- Nothing is wrong with a source just if nothing is wrong with its regions. -/
theorem scan_eq_nil_iff {file source : String} : (scan file source).2 = [] ↔
    ∀ r ∈ split source.toList, ∀ cause, r.piece ≠ .problem cause := by
  constructor
  · intro h r hr cause hc
    obtain ⟨p, hp⟩ := mem_scan_of_problem file hr hc
    rw [h] at hp
    cases hp
  · intro h
    refine List.filterMap_eq_nil_iff.2 fun result hresult => ?_
    rcases List.mem_append.1 hresult with hmem | hmem
    · obtain ⟨q, hq, hresult⟩ := List.mem_filterMap.1 hmem
      have hq := h _ (mem_of_mem_placed hq)
      unfold result? at hresult
      split at hresult
      next => cases hresult; rfl
      next cause hc => exact absurd hc (hq cause)
      next => cases hresult
      next => cases hresult
    · rw [List.mem_singleton.1 hmem]

end Token

end LoxLang
