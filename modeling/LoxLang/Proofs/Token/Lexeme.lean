import LoxLang.Token.Region
import Mathlib.Tactic.Common

/-!
# What regions may be

`Lexeme` lists the texts of tokens, `Closes` the bodies of comments, and `Cut` says which
texts are regions in front of the rest of a source. None of them says how a source is cut;
`cut_iff_first` says that the first region of a source is the only front of it that is one.
-/

namespace LoxLang

namespace Region

/-! ## Texts -/

/-- Digits, one at least. -/
def IsNumeral (ds : List Char) : Prop := ds ≠ [] ∧ ∀ d ∈ ds, d.isDigit

/-- A character that begins a word, and such as continue it. -/
def IsWord : List Char → Prop
  | [] => False
  | c :: cs => beginsWord c ∧ ∀ d ∈ cs, continuesWord d

/-- The texts of tokens, and what tokens they are. -/
inductive Lexeme : List Char → Kind → Prop
  | mark (m : Mark) : Lexeme m.spelling.toList (.mark m)
  | identifier {cs} : IsWord cs → (∀ m ∈ Mark.words, m.spelling.toList ≠ cs) →
      Lexeme cs .identifier
  | whole {ds} : IsNumeral ds → Lexeme ds (numberKind ds [])
  | decimal {ds es} : IsNumeral ds → IsNumeral es → Lexeme (ds ++ '.' :: es) (numberKind ds es)
  | string {cs} : '"' ∉ cs → Lexeme ('"' :: (cs ++ ['"'])) (.string (String.ofList cs))

/-- The texts that close `depth` comments with their last characters: openers and closers
are told from left to right and do not overlap. -/
inductive Closes : Nat → List Char → Prop
  | done : Closes 0 []
  | close {depth cs} : Closes depth cs → Closes (depth + 1) ('*' :: '/' :: cs)
  | nest {depth cs} : Closes (depth + 2) cs → Closes (depth + 1) ('/' :: '*' :: cs)
  | other {depth c cs} : ¬ ['*', '/'] <+: c :: cs → ¬ ['/', '*'] <+: c :: cs →
      Closes (depth + 1) cs → Closes (depth + 1) (c :: cs)

/-! ## Regions -/

/-- The rest does not go on with such a character. -/
def Stops (p : Char → Bool) (rest : List Char) : Prop := ∀ c ∈ rest.head?, p c = false

/-- The operators that an equals sign extends. -/
def joinable : List Mark := [.bang, .equal, .less, .greater]

/-- The text of a token of this kind goes on as far as its characters do: none of the rest
belongs to it, nor makes it the opening of a comment or of a number that is none. -/
def Ends (text rest : List Char) : Kind → Prop
  | .mark m =>
    if m ∈ Mark.words then Stops continuesWord rest
    else (m ∈ joinable → rest.head? ≠ some '=') ∧
      (m = .slash → rest.head? ≠ some '/' ∧ rest.head? ≠ some '*')
  | .identifier => Stops continuesWord rest
  | .number _ => Stops Char.isDigit rest ∧ ('.' ∈ text ∨ rest.head? ≠ some '.')
  | .string _ | .finish => True

/-- The text is a region of this piece in front of the rest. -/
inductive Cut : (text rest : List Char) → Piece → Prop
  | blank {c rest} : c ∈ [' ', '\t', '\r', '\n'] → Cut [c] rest .blank
  | lineComment {cs rest} : '\n' ∉ cs → (rest = [] ∨ rest.head? = some '\n') →
      Cut ('/' :: '/' :: cs) rest .comment
  | blockComment {cs rest} : Closes 1 cs → Cut ('/' :: '*' :: cs) rest .comment
  | token {text rest kind} : Lexeme text kind → Ends text rest kind → Cut text rest (.token kind)
  | unexpected {c rest} : c ∉ [' ', '\t', '\r', '\n'] →
      (∀ text kind, Lexeme text kind → text.head? ≠ some c) →
      Cut [c] rest (.problem (.unexpected c))
  | missingFraction {ds rest} : IsNumeral ds → Stops Char.isDigit rest →
      Cut (ds ++ ['.']) rest (.problem .missingFraction)
  | openString {cs} : '"' ∉ cs → Cut ('"' :: cs) [] (.problem .openString)
  | openComment {cs} : (∀ front, front <+: cs → ¬ Closes 1 front) →
      Cut ('/' :: '*' :: cs) [] (.problem .openComment)

/-! ## Runs of characters -/

variable {c : Char} {rest : List Char}

theorem isGap_iff : isGap c = true ↔ c ∈ [' ', '\t', '\r', '\n'] := by
  simp [isGap, or_assoc]

theorem stops_dropWhile (p : Char → Bool) (cs : List Char) : Stops p (cs.dropWhile p) := by
  intro c hc
  have h := List.head?_dropWhile_not p cs
  rw [hc] at h
  simpa using h

theorem mem_of_mem_takeWhile {p : Char → Bool} {cs : List Char} (h : c ∈ cs.takeWhile p) : p c :=
  List.all_eq_true.1 List.all_takeWhile c h

theorem stops_nil (p : Char → Bool) : Stops p [] := nofun

theorem ne_of_not_mem {cs : List Char} (h : c ∉ cs) : ∀ d ∈ cs, (d != c) = true := by
  intro d hd
  simp only [bne_iff_ne, ne_eq]
  rintro rfl
  exact h hd

/-- A run of characters is read to where it stops. -/
theorem takeWhile_append_of_stops {p : Char → Bool} {cs : List Char} (hcs : ∀ d ∈ cs, p d)
    (hrest : Stops p rest) : (cs ++ rest).takeWhile p = cs := by
  rw [List.takeWhile_append_of_pos hcs]
  cases rest with
  | nil => simp
  | cons d rest => simp [hrest d rfl]

/-- Behind a run of characters is where it stops. -/
theorem dropWhile_append_of_stops {p : Char → Bool} {cs : List Char} (hcs : ∀ d ∈ cs, p d)
    (hrest : Stops p rest) : (cs ++ rest).dropWhile p = rest := by
  rw [List.dropWhile_append_of_pos hcs]
  cases rest with
  | nil => rfl
  | cons d rest => simp [hrest d rfl]

/-! ## Comments -/

theorem closes_of_closingLength? {depth n : Nat} {cs : List Char}
    (h : closingLength? depth cs = some n) : n ≤ cs.length ∧ Closes depth (cs.take n) := by
  fun_induction closingLength? depth cs generalizing n with
  | case1 cs => cases h; exact ⟨Nat.zero_le _, .done⟩
  | case2 => cases h
  | case3 depth cs ih =>
    obtain ⟨m, hm, rfl⟩ := Option.map_eq_some_iff.1 h
    exact ⟨Nat.add_le_add_right (ih hm).1 2, .close (ih hm).2⟩
  | case4 depth cs ih =>
    obtain ⟨m, hm, rfl⟩ := Option.map_eq_some_iff.1 h
    exact ⟨Nat.add_le_add_right (ih hm).1 2, .nest (ih hm).2⟩
  | case5 depth c cs hc hn ih =>
    obtain ⟨m, hm, rfl⟩ := Option.map_eq_some_iff.1 h
    have hfront : c :: cs.take m <+: c :: cs := List.cons_prefix_cons.2 ⟨rfl, List.take_prefix _ _⟩
    refine ⟨Nat.add_le_add_right (ih hm).1 1, .other (fun hp => ?_) (fun hp => ?_) (ih hm).2⟩
    · obtain ⟨rest, hrest⟩ := hp.trans hfront
      cases hrest
      exact hc rest rfl rfl
    · obtain ⟨rest, hrest⟩ := hp.trans hfront
      cases hrest
      exact hn rest rfl rfl

theorem closingLength?_of_closes {depth : Nat} {cs : List Char} (h : Closes depth cs)
    (rest : List Char) : closingLength? depth (cs ++ rest) = some cs.length := by
  induction h with
  | done => simp [closingLength?]
  | close _ ih => simp [closingLength?, ih]
  | nest _ ih => simp [closingLength?, ih]
  | @other depth c cs hc hn h ih =>
    -- what is closed goes on, so the rest cannot make a pair with the character
    obtain ⟨d, ds, rfl⟩ : ∃ d ds, cs = d :: ds := by cases h <;> exact ⟨_, _, rfl⟩
    rw [List.cons_append, closingLength?, ih, Option.map_some]
    · rfl
    · rintro rest' rfl hd
      cases hd
      exact hc ⟨ds, rfl⟩
    · rintro rest' rfl hd
      cases hd
      exact hn ⟨ds, rfl⟩

theorem closingLength?_eq_none_iff {depth : Nat} {cs : List Char} :
    closingLength? depth cs = none ↔ ∀ front, front <+: cs → ¬ Closes depth front := by
  constructor
  · rintro h front ⟨rest, rfl⟩ hc
    simp [closingLength?_of_closes hc] at h
  · intro h
    by_contra hs
    obtain ⟨n, hn⟩ := Option.ne_none_iff_exists'.1 hs
    exact h _ (List.take_prefix n cs) (closes_of_closingLength? hn).2

/-! ## The first region is one -/

/-- The front of the source that is so long is a region of the piece. -/
def CutAt (source : List Char) (r : Nat × Piece) : Prop :=
  Cut (source.take r.1) (source.drop r.1) r.2

theorem CutAt.of_append {source text : List Char} {p : Piece} {n : Nat} (rest : List Char)
    (h : Cut text rest p) (hs : source = text ++ rest) (hn : n = text.length) :
    CutAt source (n, p) := by
  subst hs hn
  simpa [CutAt] using h

theorem isNumeral_run (hc : c.isDigit) (cs : List Char) :
    IsNumeral (c :: cs.takeWhile Char.isDigit) := by
  refine ⟨nofun, fun d hd => ?_⟩
  rcases List.mem_cons.1 hd with rfl | hd
  · exact hc
  · exact mem_of_mem_takeWhile hd

theorem cutAt_firstNumber (hc : c.isDigit) : CutAt (c :: rest) (firstNumber c rest) := by
  have hwhole := isNumeral_run hc rest
  have hsplit := List.takeWhile_append_dropWhile (p := Char.isDigit) (l := rest)
  have hstop := stops_dropWhile Char.isDigit rest
  unfold firstNumber
  dsimp only
  split
  next more hmore =>
    rw [hmore] at hsplit
    split
    next hnone =>
      have hstop' := stops_dropWhile Char.isDigit more
      have hmore' := List.takeWhile_append_dropWhile (p := Char.isDigit) (l := more)
      rw [hnone, List.nil_append] at hmore'
      rw [hmore'] at hstop'
      exact .of_append more (.missingFraction hwhole hstop') (by simp [hsplit]) (by simp)
    next fraction hsome =>
      have hfraction : IsNumeral (more.takeWhile Char.isDigit) :=
        ⟨hsome, fun d hd => mem_of_mem_takeWhile hd⟩
      refine .of_append (more.dropWhile Char.isDigit) (.token (.decimal hwhole hfraction)
        ⟨stops_dropWhile Char.isDigit more, .inl (by simp)⟩) ?_ (by simp; omega)
      simp [hsplit]
  next hpoint =>
    refine .of_append (rest.dropWhile Char.isDigit)
      (.token (.whole hwhole) ⟨hstop, .inr fun hp => ?_⟩) (by simp [hsplit]) rfl
    obtain ⟨more, hmore⟩ := List.head?_eq_some_iff.1 hp
    exact hpoint more hmore

theorem cutAt_firstString : CutAt ('"' :: rest) (firstString rest) := by
  have hsplit := List.takeWhile_append_dropWhile (p := (· != '"')) (l := rest)
  have hstop := stops_dropWhile (· != '"') rest
  have hquote : '"' ∉ rest.takeWhile (· != '"') := fun h => by
    simpa using mem_of_mem_takeWhile h
  unfold firstString
  dsimp only
  cases hdrop : rest.dropWhile (· != '"') with
  | nil =>
    have hrest : rest.takeWhile (· != '"') = rest := by rw [hdrop] at hsplit; simpa using hsplit
    rw [hrest, if_neg (Nat.lt_irrefl _)]
    rw [hrest] at hquote
    exact .of_append [] (.openString hquote) (by simp) (by simp)
  | cons d more =>
    obtain rfl : d = '"' := by simpa using hstop d (by rw [hdrop]; rfl)
    rw [hdrop] at hsplit
    have hlt : (rest.takeWhile (· != '"')).length < rest.length := by
      rw [← congrArg List.length hsplit]
      simp
    rw [if_pos hlt]
    exact .of_append more (.token (.string hquote) trivial) (by simp [hsplit]) (by simp)

/-- A word is reserved if all of it is the spelling of a reserved word. -/
theorem wordKind_cases (cs : List Char) :
    (∃ m ∈ Mark.words, m.spelling.toList = cs ∧ wordKind cs = .mark m) ∨
      ((∀ m ∈ Mark.words, m.spelling.toList ≠ cs) ∧ wordKind cs = .identifier) := by
  unfold wordKind Mark.ofWord?
  cases hfind : Mark.words.find? (·.spelling == String.ofList cs) with
  | some m =>
    have hm : m.spelling = String.ofList cs := by simpa using List.find?_some hfind
    exact .inl ⟨m, List.mem_of_find?_eq_some hfind, by simp [hm], rfl⟩
  | none =>
    refine .inr ⟨fun m hm hcs => ?_, rfl⟩
    have hne := List.find?_eq_none.1 hfind m hm
    simp [← hcs] at hne

theorem isWord_run (hc : beginsWord c) (cs : List Char) :
    IsWord (c :: cs.takeWhile continuesWord) :=
  ⟨hc, fun _ hd => mem_of_mem_takeWhile hd⟩

theorem cutAt_firstWord (hc : beginsWord c) : CutAt (c :: rest) (firstWord c rest) := by
  have hsplit := List.takeWhile_append_dropWhile (p := continuesWord) (l := rest)
  have hstop := stops_dropWhile continuesWord rest
  unfold firstWord
  dsimp only
  have hlexeme : Lexeme (c :: rest.takeWhile continuesWord)
        (wordKind (c :: rest.takeWhile continuesWord)) ∧
      Ends (c :: rest.takeWhile continuesWord) (rest.dropWhile continuesWord)
        (wordKind (c :: rest.takeWhile continuesWord)) := by
    rcases wordKind_cases (c :: rest.takeWhile continuesWord) with
      ⟨m, hm, hcs, hk⟩ | ⟨hno, hk⟩ <;> rw [hk]
    · exact ⟨hcs ▸ .mark m, by simpa [Ends, hm] using hstop⟩
    · exact ⟨.identifier (isWord_run hc rest) hno, hstop⟩
  exact .of_append _ (.token hlexeme.1 hlexeme.2) (by simp [hsplit]) (by simp)

theorem cutAt_firstSlash : CutAt ('/' :: rest) (firstSlash rest) := by
  unfold firstSlash
  split
  next more =>
    have hsplit := List.takeWhile_append_dropWhile (p := (· != '\n')) (l := more)
    have hstop := stops_dropWhile (· != '\n') more
    have hline : '\n' ∉ more.takeWhile (· != '\n') := fun h => by
      simpa using mem_of_mem_takeWhile h
    refine .of_append (more.dropWhile (· != '\n')) (.lineComment hline ?_)
      (by simp [hsplit]) (by simp; omega)
    cases hdrop : more.dropWhile (· != '\n') with
    | nil => exact .inl rfl
    | cons d ds =>
      obtain rfl : d = '\n' := by simpa using hstop d (by rw [hdrop]; rfl)
      exact .inr rfl
  next more =>
    cases hclose : closingLength? 1 more with
    | some n =>
      obtain ⟨hn, hclosed⟩ := closes_of_closingLength? hclose
      exact .of_append (more.drop n) (.blockComment hclosed) (by simp)
        (by simp [Nat.min_eq_left hn]; omega)
    | none =>
      exact .of_append [] (.openComment (closingLength?_eq_none_iff.1 hclose)) (by simp)
        (by simp; omega)
  next hline hblock =>
    refine .of_append rest (.token (.mark .slash) ?_) rfl rfl
    refine ⟨by simp [joinable], fun _ => ⟨fun h => ?_, fun h => ?_⟩⟩
    · obtain ⟨more, hmore⟩ := List.head?_eq_some_iff.1 h
      exact hline more hmore
    · obtain ⟨more, hmore⟩ := List.head?_eq_some_iff.1 h
      exact hblock more hmore

theorem single?_spelling {m : Mark} (h : single? c = some m) :
    m.spelling.toList = [c] ∧ m ∉ Mark.words ∧ m ∉ joinable ∧ m ≠ .slash := by
  unfold single? at h
  split at h <;> cases h <;> exact ⟨rfl, by decide⟩

/-- A mark with an equals sign and the one without it differ in that sign. -/
theorem withEqual?_spelling {joined single : Mark} (h : withEqual? c = some (joined, single)) :
    (joined.spelling.toList = [c, '='] ∧ joined ∉ Mark.words ∧ joined ∉ joinable ∧
      joined ≠ .slash) ∧
    single.spelling.toList = [c] ∧ single ∉ Mark.words ∧ single ≠ .slash := by
  unfold withEqual? at h
  split at h <;> cases h <;> exact ⟨⟨rfl, by decide⟩, rfl, by decide⟩

theorem cutAt_single {m : Mark} (h : single? c = some m) :
    CutAt (c :: rest) (1, .token (.mark m)) := by
  obtain ⟨hs, hw, hj, hslash⟩ := single?_spelling h
  refine .of_append rest (.token (.mark m) ?_) (by simp [hs]) (by simp [hs])
  rw [Ends, if_neg hw]
  exact ⟨fun hm => absurd hm hj, fun hm => absurd hm hslash⟩

theorem cutAt_firstWithEqual {joined single : Mark} (h : withEqual? c = some (joined, single)) :
    CutAt (c :: rest) (firstWithEqual rest joined single) := by
  obtain ⟨⟨hs, hw, hj, hslash⟩, hs', hw', hslash'⟩ := withEqual?_spelling h
  unfold firstWithEqual
  split
  next heq =>
    obtain ⟨more, rfl⟩ := List.head?_eq_some_iff.1 heq
    refine .of_append more (.token (.mark joined) ?_) (by simp [hs]) (by simp [hs])
    rw [Ends, if_neg hw]
    exact ⟨fun hm => absurd hm hj, fun hm => absurd hm hslash⟩
  next hne =>
    refine .of_append rest (.token (.mark single) ?_) (by simp [hs']) (by simp [hs'])
    rw [Ends, if_neg hw']
    exact ⟨fun _ => hne, fun hm => absurd hm hslash'⟩

/-- What the spellings of marks begin with. -/
theorem spelling_head (m : Mark) : ∃ c cs, m.spelling.toList = c :: cs ∧
    ((single? c).isSome ∨ (withEqual? c).isSome ∨ c = '/' ∨ beginsWord c) := by
  cases m <;> exact ⟨_, _, rfl, by decide⟩

/-- No token begins with a character that none of the cases is for. -/
theorem lexeme_head {text : List Char} {kind : Kind} (h : Lexeme text kind) (hs : single? c = none)
    (hw : withEqual? c = none) (hslash : c ≠ '/') (hquote : c ≠ '"') (hdigit : ¬ c.isDigit)
    (hword : ¬ beginsWord c) : text.head? ≠ some c := by
  cases h with
  | mark m =>
    obtain ⟨d, ds, hm, hd⟩ := spelling_head m
    rw [hm]
    rintro ⟨⟩
    simp [hs, hw, hslash, hword] at hd
  | identifier hcs _ =>
    cases text with
    | nil => nofun
    | cons d ds =>
      rintro ⟨⟩
      exact hword hcs.1
  | whole hds =>
    cases text with
    | nil => nofun
    | cons d ds =>
      rintro ⟨⟩
      exact hdigit (hds.2 _ List.mem_cons_self)
  | @decimal ds es hds _ =>
    cases ds with
    | nil => exact absurd rfl hds.1
    | cons d ds =>
      rintro ⟨⟩
      exact hdigit (hds.2 _ List.mem_cons_self)
  | string _ =>
    rintro ⟨⟩
    exact hquote rfl

/-- The first region of a source is a region. -/
theorem cutAt_first (c : Char) (rest : List Char) : CutAt (c :: rest) (first c rest) := by
  unfold first
  split
  next hgap => exact .of_append rest (.blank (isGap_iff.1 hgap)) rfl rfl
  next hgap =>
    split
    next m _ hs => exact cutAt_single hs
    next joined single _ hw => exact cutAt_firstWithEqual hw
    next hs hw =>
      split
      next hslash => exact hslash ▸ cutAt_firstSlash
      next hslash =>
        split
        next hquote => exact hquote ▸ cutAt_firstString
        next hquote =>
          split
          next hdigit => exact cutAt_firstNumber hdigit
          next hdigit =>
            split
            next hword => exact cutAt_firstWord hword
            next hword =>
              exact .of_append rest (.unexpected (fun h => hgap (isGap_iff.2 h)) fun _ _ h =>
                lexeme_head h hs hw hslash hquote hdigit hword) rfl rfl

/-! ## No other front is one -/

theorem single?_eq_none (h : c.isDigit ∨ beginsWord c) : single? c = none := by
  unfold single?
  split
  case h_11 => rfl
  all_goals exact absurd h (by decide)

theorem withEqual?_eq_none (h : c.isDigit ∨ beginsWord c) : withEqual? c = none := by
  unfold withEqual?
  split
  case h_5 => rfl
  all_goals exact absurd h (by decide)

theorem ne_of_digit_or_word {d : Char} (h : c.isDigit ∨ beginsWord c)
    (hd : ¬ (d.isDigit ∨ beginsWord d)) : c ≠ d := by
  rintro rfl
  exact hd h

theorem isGap_eq_false (h : c.isDigit ∨ beginsWord c) : isGap c = false := by
  by_contra hgap
  rw [Bool.not_eq_false, isGap_iff] at hgap
  simp only [List.mem_cons, List.not_mem_nil, or_false] at hgap
  rcases hgap with rfl | rfl | rfl | rfl <;> exact absurd h (by decide)

theorem isDigit_eq_false (h : beginsWord c) : c.isDigit = false := by
  by_contra hdigit
  rw [Bool.not_eq_false] at hdigit
  simp only [Char.isDigit, Bool.and_eq_true, decide_eq_true_eq, UInt32.le_iff_toNat_le] at hdigit
  change (decide (c.val ≥ 'A'.val ∧ c.val ≤ 'Z'.val) || (c.val ≥ 'a'.val && c.val ≤ 'z'.val) ||
    c == '_') = true at h
  simp only [Bool.or_eq_true, Bool.and_eq_true, decide_eq_true_eq, beq_iff_eq, ge_iff_le,
    UInt32.le_iff_toNat_le] at h
  have hnine : ('9' : Char).val.toNat < ('A' : Char).val.toNat := by decide
  have hlower : ('9' : Char).val.toNat < ('a' : Char).val.toNat := by decide
  have hunder : ('9' : Char).val.toNat < ('_' : Char).val.toNat := by decide
  rcases h with (h | h) | rfl <;> omega

theorem first_digit (h : c.isDigit) : first c rest = firstNumber c rest := by
  simp [first, h, isGap_eq_false (.inl h), single?_eq_none (.inl h), withEqual?_eq_none (.inl h),
    ne_of_digit_or_word (d := '/') (.inl h) (by decide),
    ne_of_digit_or_word (d := '"') (.inl h) (by decide)]

theorem first_word (h : beginsWord c) : first c rest = firstWord c rest := by
  simp [first, h, isDigit_eq_false h, isGap_eq_false (.inr h), single?_eq_none (.inr h),
    withEqual?_eq_none (.inr h), ne_of_digit_or_word (d := '/') (.inr h) (by decide),
    ne_of_digit_or_word (d := '"') (.inr h) (by decide)]

theorem first_single {m : Mark} (h : single? c = some m) :
    first c rest = (1, .token (.mark m)) := by
  unfold single? at h
  split at h <;> cases h <;> rfl

theorem first_withEqual {joined single : Mark} (h : withEqual? c = some (joined, single)) :
    first c rest = firstWithEqual rest joined single := by
  unfold withEqual? at h
  split at h <;> cases h <;> rfl

theorem first_slash : first '/' rest = firstSlash rest := rfl

theorem first_quote : first '"' rest = firstString rest := rfl

theorem first_gap (h : isGap c) : first c rest = (1, .blank) := if_pos h

/-- The kinds of marks. -/
theorem spelling_cases (m : Mark) :
    (m ∈ Mark.words ∧ IsWord m.spelling.toList ∧ wordKind m.spelling.toList = .mark m) ∨
      m ∉ Mark.words ∧
        ((∃ c, m.spelling.toList = [c] ∧ single? c = some m) ∨
          (∃ c k, m.spelling.toList = [c, '='] ∧ withEqual? c = some (m, k)) ∨
          (∃ c k, m.spelling.toList = [c] ∧ withEqual? c = some (k, m) ∧ m ∈ joinable) ∨
          m = .slash) := by
  cases m <;> first
    | exact .inl ⟨by decide, ⟨rfl, List.all_eq_true.1 rfl⟩, rfl⟩
    | exact .inr ⟨by decide, .inl ⟨_, rfl, rfl⟩⟩
    | exact .inr ⟨by decide, .inr (.inl ⟨_, _, rfl, rfl⟩)⟩
    | exact .inr ⟨by decide, .inr (.inr (.inl ⟨_, _, rfl, rfl, by decide⟩))⟩
    | exact .inr ⟨by decide, .inr (.inr (.inr rfl))⟩

theorem firstWord_append {cs : List Char} (hcs : IsWord (c :: cs))
    (hrest : Stops continuesWord rest) :
    firstWord c (cs ++ rest) = (cs.length + 1, .token (wordKind (c :: cs))) := by
  rw [firstWord, takeWhile_append_of_stops hcs.2 hrest]

/-- Digits without a point behind them are a whole number. -/
theorem firstNumber_whole {cs : List Char} (hcs : IsNumeral (c :: cs))
    (hrest : Stops Char.isDigit rest) (hpoint : rest.head? ≠ some '.') :
    firstNumber c (cs ++ rest) = (cs.length + 1, .token (numberKind (c :: cs) [])) := by
  have hdigits : ∀ d ∈ cs, d.isDigit := fun d hd => hcs.2 d (List.mem_cons_of_mem _ hd)
  rw [firstNumber, takeWhile_append_of_stops hdigits hrest,
    dropWhile_append_of_stops hdigits hrest]
  cases rest with
  | nil => rfl
  | cons d rest =>
    split
    next heq => cases heq; exact absurd rfl hpoint
    next => rfl

theorem stops_point (cs : List Char) : Stops Char.isDigit ('.' :: cs) := by
  rintro _ ⟨⟩
  rfl

/-- Digits on both sides of a point are one number. -/
theorem firstNumber_decimal {cs es : List Char} (hcs : IsNumeral (c :: cs)) (hes : IsNumeral es)
    (hrest : Stops Char.isDigit rest) :
    firstNumber c (cs ++ '.' :: (es ++ rest)) =
      (cs.length + 1 + 1 + es.length, .token (numberKind (c :: cs) es)) := by
  have hdigits : ∀ d ∈ cs, d.isDigit := fun d hd => hcs.2 d (List.mem_cons_of_mem _ hd)
  rw [firstNumber, takeWhile_append_of_stops hdigits (stops_point _),
    dropWhile_append_of_stops hdigits (stops_point _)]
  simp only [takeWhile_append_of_stops hes.2 hrest]
  cases es with
  | nil => exact absurd rfl hes.1
  | cons e es => rfl

/-- Digits with a point and no digit behind it are a problem, the point included. -/
theorem firstNumber_missing {cs : List Char} (hcs : IsNumeral (c :: cs))
    (hrest : Stops Char.isDigit rest) :
    firstNumber c (cs ++ '.' :: rest) = (cs.length + 1 + 1, .problem .missingFraction) := by
  have hdigits : ∀ d ∈ cs, d.isDigit := fun d hd => hcs.2 d (List.mem_cons_of_mem _ hd)
  rw [firstNumber, takeWhile_append_of_stops hdigits (stops_point _),
    dropWhile_append_of_stops hdigits (stops_point _)]
  have hnone : rest.takeWhile Char.isDigit = [] := by
    have hrun : ∀ d ∈ ([] : List Char), d.isDigit := nofun
    simpa using takeWhile_append_of_stops hrun hrest
  simp only [hnone]
  rfl

theorem firstString_closed {cs : List Char} (hcs : '"' ∉ cs) :
    firstString (cs ++ '"' :: rest) =
      (cs.length + 2, .token (.string (String.ofList cs))) := by
  have hrun : (cs ++ '"' :: rest).takeWhile (· != '"') = cs :=
    takeWhile_append_of_stops (ne_of_not_mem hcs) (by
      rintro _ ⟨⟩
      rfl)
  simp [firstString, hrun]

theorem firstString_open {cs : List Char} (hcs : '"' ∉ cs) :
    firstString cs = (cs.length + 1, .problem .openString) := by
  have hrun : cs.takeWhile (· != '"') = cs := by
    simpa using takeWhile_append_of_stops (ne_of_not_mem hcs) (stops_nil _)
  simp [firstString, hrun]

theorem firstSlash_block {cs : List Char} (h : Closes 1 cs) :
    firstSlash ('*' :: (cs ++ rest)) = (2 + cs.length, .comment) := by
  simp [firstSlash, closingLength?_of_closes h]

theorem firstSlash_line {cs : List Char} (hcs : '\n' ∉ cs)
    (hrest : rest = [] ∨ rest.head? = some '\n') :
    firstSlash ('/' :: (cs ++ rest)) = (2 + cs.length, .comment) := by
  have hstop : Stops (· != '\n') rest := by
    rcases hrest with rfl | hrest
    · exact stops_nil _
    · intro d hd
      rw [hrest] at hd
      cases hd
      rfl
  simp [firstSlash, takeWhile_append_of_stops (ne_of_not_mem hcs) hstop]

theorem firstSlash_open {cs : List Char} (hcs : ∀ front, front <+: cs → ¬ Closes 1 front) :
    firstSlash ('*' :: cs) = (2 + cs.length, .problem .openComment) := by
  simp [firstSlash, closingLength?_eq_none_iff.2 hcs]

theorem firstSlash_mark (h : rest.head? ≠ some '/') (h' : rest.head? ≠ some '*') :
    firstSlash rest = (1, .token (.mark .slash)) := by
  unfold firstSlash
  split
  · exact absurd rfl h
  · exact absurd rfl h'
  · rfl

/-- A token is the first region of a source that it ends in. -/
theorem first_of_lexeme {text : List Char} {kind : Kind} (hl : Lexeme text kind)
    (he : Ends text rest kind) :
    ∃ c cs, text = c :: cs ∧ first c (cs ++ rest) = (text.length, .token kind) := by
  cases hl with
  | mark m =>
    rcases spelling_cases m with ⟨hw, hword, hk⟩ | ⟨hw, hcases⟩
    · rw [Ends, if_pos hw] at he
      cases hs : m.spelling.toList with
      | nil => rw [hs] at hword; exact hword.elim
      | cons c cs =>
        rw [hs] at hword hk
        exact ⟨c, cs, rfl, by rw [first_word hword.1, firstWord_append hword he, hk]; rfl⟩
    · rw [Ends, if_neg hw] at he
      obtain ⟨hjoin, hslash⟩ := he
      rcases hcases with ⟨c, hs, hc⟩ | ⟨c, k, hs, hc⟩ | ⟨c, k, hs, hc, hm⟩ | rfl
      · exact ⟨c, [], hs, by simp [first_single hc, hs]⟩
      · exact ⟨c, ['='], hs, by simp [first_withEqual hc, firstWithEqual, hs]⟩
      · exact ⟨c, [], hs, by simp [first_withEqual hc, firstWithEqual, hs, hjoin hm]⟩
      · obtain ⟨hline, hblock⟩ := hslash rfl
        exact ⟨'/', [], rfl, firstSlash_mark hline hblock⟩
  | identifier hcs hno =>
    cases text with
    | nil => exact hcs.elim
    | cons c cs =>
      refine ⟨c, cs, rfl, ?_⟩
      rw [first_word hcs.1, firstWord_append hcs he]
      rcases wordKind_cases (c :: cs) with ⟨m, hm, hs, -⟩ | ⟨-, hk⟩
      · exact absurd hs (hno m hm)
      · rw [hk]; rfl
  | whole hds =>
    cases text with
    | nil => exact absurd rfl hds.1
    | cons c cs =>
      obtain ⟨hstop, hpoint⟩ := he
      have hdigits : '.' ∉ c :: cs := fun h => absurd (hds.2 _ h) (by decide)
      exact ⟨c, cs, rfl, by
        rw [first_digit (hds.2 c List.mem_cons_self),
          firstNumber_whole hds hstop (hpoint.resolve_left hdigits)]
        rfl⟩
  | @decimal ds es hds hes =>
    cases ds with
    | nil => exact absurd rfl hds.1
    | cons c cs =>
      refine ⟨c, cs ++ '.' :: es, rfl, ?_⟩
      rw [List.append_assoc, List.cons_append, first_digit (hds.2 c List.mem_cons_self),
        firstNumber_decimal hds hes he.1]
      simp
      omega
  | @string cs hcs =>
    exact ⟨'"', cs ++ ['"'], rfl, by simp [first_quote, firstString_closed hcs]⟩

/-- What begins no token is unexpected. -/
theorem first_unexpected (hgap : c ∉ [' ', '\t', '\r', '\n'])
    (hno : ∀ text kind, Lexeme text kind → text.head? ≠ some c) :
    first c rest = (1, .problem (.unexpected c)) := by
  have hmark (m : Mark) : m.spelling.toList.head? ≠ some c := hno _ _ (.mark m)
  have hsingle : single? c = none := by
    by_contra h
    obtain ⟨m, hm⟩ := Option.ne_none_iff_exists'.1 h
    exact hmark m (by rw [(single?_spelling hm).1]; rfl)
  have hequal : withEqual? c = none := by
    by_contra h
    obtain ⟨⟨joined, single⟩, hm⟩ := Option.ne_none_iff_exists'.1 h
    exact hmark single (by rw [(withEqual?_spelling hm).2.1]; rfl)
  have hslash : c ≠ '/' := by
    rintro rfl
    exact hmark .slash rfl
  have hquote : c ≠ '"' := by
    rintro rfl
    exact hno _ _ (.string (List.not_mem_nil : '"' ∉ ([] : List Char))) rfl
  have hdigit : ¬ c.isDigit := fun h =>
    hno [c] _ (.whole ⟨nofun, fun d hd => List.mem_singleton.1 hd ▸ h⟩) rfl
  have hword : ¬ beginsWord c := fun h => by
    rcases wordKind_cases [c] with ⟨m, -, hs, -⟩ | ⟨hnone, -⟩
    · exact hmark m (by rw [hs]; rfl)
    · exact hno [c] _ (.identifier ⟨h, nofun⟩ hnone) rfl
  rw [← isGap_iff, Bool.not_eq_true] at hgap
  simp [first, hgap, hsingle, hequal, hslash, hquote, hdigit, hword]

/-- Only the first region of a source is one. -/
theorem first_of_cut {text rest : List Char} {p : Piece} (h : Cut text rest p) :
    ∃ c cs, text = c :: cs ∧ first c (cs ++ rest) = (text.length, p) := by
  cases h with
  | @blank c _ hc => exact ⟨c, [], rfl, first_gap (isGap_iff.2 hc)⟩
  | @lineComment cs _ hcs hrest =>
    exact ⟨'/', '/' :: cs, rfl, by simp [first_slash, firstSlash_line hcs hrest]; omega⟩
  | @blockComment cs _ hcs =>
    exact ⟨'/', '*' :: cs, rfl, by simp [first_slash, firstSlash_block hcs]; omega⟩
  | token hl he => exact first_of_lexeme hl he
  | @unexpected c _ hc hno => exact ⟨c, [], rfl, first_unexpected hc hno⟩
  | @missingFraction ds _ hds hrest =>
    cases ds with
    | nil => exact absurd rfl hds.1
    | cons c cs =>
      refine ⟨c, cs ++ ['.'], rfl, ?_⟩
      rw [List.append_assoc, List.singleton_append, first_digit (hds.2 c List.mem_cons_self),
        firstNumber_missing hds hrest]
      simp
  | @openString cs hcs => exact ⟨'"', cs, rfl, by simp [first_quote, firstString_open hcs]⟩
  | @openComment cs hcs =>
    exact ⟨'/', '*' :: cs, rfl, by simp [first_slash, firstSlash_open hcs]; omega⟩

/-- The regions in front of a rest are the first regions of what they make up together. -/
theorem cut_iff_first {text rest : List Char} {p : Piece} :
    Cut text rest p ↔ ∃ c cs, text = c :: cs ∧ first c (cs ++ rest) = (text.length, p) := by
  refine ⟨first_of_cut, ?_⟩
  rintro ⟨c, cs, rfl, h⟩
  have hcut := cutAt_first c (cs ++ rest)
  rw [h, ← List.cons_append] at hcut
  simpa [CutAt] using hcut

/-! ## Tokens go on as far as they can -/

/-- Whether a token ends depends on the next character alone. -/
theorem Ends.congr {text rest rest' : List Char} {kind : Kind} (h : Ends text rest kind)
    (hhead : rest'.head? = rest.head?) : Ends text rest' kind := by
  unfold Ends Stops at *
  rwa [hhead]

/-- Every token ends at the end of the source. -/
theorem ends_nil (text : List Char) (kind : Kind) : Ends text [] kind := by
  cases kind <;> simp [Ends, Stops]

/-- A blank belongs to no token in front of it. -/
theorem ends_gap (hc : isGap c) (text ds : List Char) (kind : Kind) : Ends text (c :: ds) kind := by
  obtain ⟨hword, hdigit, hequal, hslash, hstar, hpoint⟩ : continuesWord c = false ∧
      c.isDigit = false ∧ c ≠ '=' ∧ c ≠ '/' ∧ c ≠ '*' ∧ c ≠ '.' := by
    rw [isGap_iff] at hc
    simp only [List.mem_cons, List.not_mem_nil, or_false] at hc
    rcases hc with rfl | rfl | rfl | rfl <;> decide
  cases kind with
  | mark m =>
    rw [Ends]
    split
    · simpa [Stops] using hword
    · exact ⟨fun _ => by simpa using hequal, fun _ => by simpa using ⟨hslash, hstar⟩⟩
  | identifier => simpa [Ends, Stops] using hword
  | number _ => exact ⟨by simpa [Stops] using hdigit, .inr (by simpa using hpoint)⟩
  | string _ | finish => trivial

/-- No longer front of a source than a token in front of it is the text of a token. -/
theorem Cut.longest {text rest front : List Char} {kind kind' : Kind}
    (h : Cut text rest (.token kind)) (hf : Lexeme front kind') (hp : front <+: text ++ rest) :
    front.length ≤ text.length := by
  cases h with
  | token hl he =>
    by_contra hlt
    -- what the front has beyond the text begins as the rest does, so the token ends there too
    obtain ⟨more, rfl⟩ : text <+: front :=
      List.prefix_of_prefix_length_le (List.prefix_append _ _) hp (by omega)
    obtain ⟨d, ds, rfl⟩ : ∃ d ds, more = d :: ds := by
      cases more with
      | nil => simp at hlt
      | cons d ds => exact ⟨d, ds, rfl⟩
    obtain ⟨rest', rfl⟩ := (List.prefix_append_right_inj text).1 hp
    have hends : Ends text (d :: ds) kind := he.congr rfl
    obtain ⟨c, cs, htext, hfirst⟩ := first_of_lexeme hl hends
    obtain ⟨c', cs', hfront, hfirst'⟩ := first_of_lexeme hf (ends_nil _ _)
    subst htext
    obtain ⟨rfl, rfl⟩ : c = c' ∧ cs ++ d :: ds = cs' := by simpa using hfront
    rw [List.append_nil, hfirst, Prod.mk.injEq] at hfirst'
    simp at hfirst'

end Region

end LoxLang
