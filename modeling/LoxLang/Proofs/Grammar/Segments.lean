import LoxLang.Proofs.Grammar.Braces
import LoxLang.Proofs.Grammar.Confined
import Mathlib.Data.List.Forall2

/-!
# A bad declaration costs only itself

A program in segments: each is one statement with nothing amiss when it stands alone, or it
is bad, and ends in its only semicolon. `Program.ofTokens_segments`: of the program the
statements of the good segments are read, in order, and each bad segment costs one misfit,
found at one of its own tokens.
-/

namespace LoxLang

open Phrase Grammar

variable {ts rest : List Token} {ms : Array Misfit} {s : Stmt} {depth : Nat}

/-! ## One declaration -/

theorem Program.Gives.derives (hts : ∀ t ∈ ts, t.isFinish = false) (h : Gives ts [s]) :
    Derives (reading false) .declaration ts s := by
  cases (gives_iff hts).1 h with
  | nextDeclaration hs hss =>
    cases hss with
    | noDeclaration => simpa using hs
    | skipped hk => cases hk
  | skipped hk => cases hk

/-- A declaration that is read alone is read in front of anything but an `else`. -/
theorem Program.Gives.takes (hts : ∀ t ∈ ts, t.isFinish = false) (h : Gives ts [s])
    (hd : ts.length ≤ depth) (hr : elseNext rest = false) :
    Takes (declaration (inner depth)) ts rest s :=
  taken_of_derives (h.derives hts) depth hd rest hr

/-- A declaration that is read in front of something is read alone. -/
theorem Program.gives_of_declaration (hts : ∀ t ∈ ts, t.isFinish = false)
    (h : declaration (inner depth) ⟨ts ++ rest, ms⟩ = .ok s ⟨rest, ms⟩) : Gives ts [s] := by
  obtain ⟨us, ns, ⟨hus, hns⟩, hs⟩ := (reads_declaration (k := false) (readsInner_inner depth)).ok h
  obtain rfl : ts = us := List.append_cancel_right hus
  have hs : Derives (reading false) .declaration ts s := hs (.inr (by simpa using hns.symm))
  have hss : Derives (reading false) .declarations (ts ++ []) [s] :=
    .nextDeclaration hs .noDeclaration
  exact (gives_iff hts).2 (by simpa using hss)

/-! ## Segments -/

namespace Segment

/-- Alone, the tokens are one statement with nothing amiss. -/
structure Good (tokens : List Token) (statement : Stmt) : Prop where
  unfinished : ∀ t ∈ tokens, t.isFinish = false
  gives : Program.Gives tokens [statement]

/-- Alone, the tokens are not read without a misfit. They end in their only semicolon, hold no
brace, `for` or `else`, and only the first may be a word that opens a statement. -/
structure Bad (tokens : List Token) : Prop where
  unfinished : ∀ t ∈ tokens, t.isFinish = false
  ends : tokens.getLast?.any (·.isMark .semicolon)
  once : ∀ t ∈ tokens.dropLast, t.isMark .semicolon = false
  plain : ∀ t ∈ tokens, ∀ m ∈ [Mark.leftBrace, .rightBrace, .forWord, .elseWord],
    t.isMark m = false
  opens : ∀ t ∈ tokens.tail, t.opensStatement = false
  refused : ¬ ∃ ss, Program.Gives tokens ss

end Segment

/-- A segment of a program, good or bad. -/
inductive Segment where
  | good (tokens : List Token) (statement : Stmt) (h : Segment.Good tokens statement)
  | bad (tokens : List Token) (h : Segment.Bad tokens)

namespace Segment

def tokens : Segment → List Token
  | good tokens _ _ => tokens
  | bad tokens _ => tokens

/-- The statement that a good segment is read as. -/
def statement? : Segment → Option Stmt
  | good _ statement _ => some statement
  | bad _ _ => none

def isBad : Segment → Bool
  | good _ _ _ => false
  | bad _ _ => true

/-- The misfit was found at a token of the segment. -/
def Found (segment : Segment) (m : Misfit) : Prop := ∃ t ∈ segment.tokens, m.found = some t

/-- One misfit for each bad segment, in order. -/
def Cost (segments : List Segment) (misfits : List Misfit) : Prop :=
  List.Forall₂ Found (segments.filter isBad) misfits

theorem Cost.append {segments others : List Segment} {misfits more : List Misfit}
    (h : Cost segments misfits) (h' : Cost others more) :
    Cost (segments ++ others) (misfits ++ more) := by
  rw [Cost, List.filter_append]
  exact List.rel_append h h'

/-- A misfit that was found at a token is not moved to the end. -/
theorem Cost.endingAt {segments : List Segment} {misfits : List Misfit}
    (h : Cost segments misfits) (last : Option Token) :
    Cost segments (misfits.map (·.endingAt last)) := by
  refine List.forall₂_map_right_iff.2 (h.imp ?_)
  rintro segment m ⟨t, ht, hm⟩
  exact ⟨t, ht, by simp [Misfit.endingAt, hm]⟩

theorem Cost.ne_nil_iff {segments : List Segment} {misfits : List Misfit}
    (h : Cost segments misfits) : misfits ≠ [] ↔ ∃ segment ∈ segments, segment.isBad := by
  rw [← List.length_pos_iff, ← h.length_eq, List.length_pos_iff, ne_eq, List.filter_eq_nil_iff]
  push Not
  rfl

theorem statement?_eq_none_iff {segment : Segment} :
    segment.statement? = none ↔ segment.isBad := by
  cases segment <;> simp [statement?, isBad]

theorem unfinished : ∀ segment : Segment, ∀ t ∈ segment.tokens, t.isFinish = false
  | good _ _ h => h.unfinished
  | bad _ h => h.unfinished

theorem begins (segment : Segment) :
    ∃ t us, segment.tokens = t :: us ∧ t.isMark .elseWord = false := by
  cases segment with
  | good tokens statement h =>
    have hb := begins_of_derives (h.gives.derives h.unfinished)
    have hne := hb.head_ne (m := .elseWord) rfl
    obtain ⟨t, us, rfl, -⟩ := hb
    exact ⟨t, us, rfl, hne⟩
  | bad tokens h =>
    cases tokens with
    | nil => exact absurd h.ends (by simp)
    | cons t us => exact ⟨t, us, rfl, h.plain t (by simp) _ (by simp)⟩

/-- A bad segment is the stretch up to its semicolon. -/
theorem Bad.exists_stretch (h : Bad ts) (hr : elseNext rest = false) (ms : Array Misfit) :
    ∃ s : Stretch, s.front ++ [s.stop] = ts ∧ s.rest = rest ∧ s.misfits = ms := by
  obtain ⟨stop, hlast, hstop⟩ := (Option.any_eq_true _ _).1 h.ends
  have hts : ts.dropLast ++ [stop] = ts := List.dropLast_append_getLast? stop hlast
  refine ⟨⟨ts.dropLast, stop, rest, ms, fun t ht m hm => ?_, hstop, hr⟩, hts, rfl, rfl⟩
  obtain rfl | hm : m = .semicolon ∨ m = .leftBrace ∨ m = .forWord := by simpa using hm
  · exact h.once t ht
  · exact h.plain t (List.dropLast_subset ts ht) m (by rcases hm with rfl | rfl <;> simp)

/-! ## Reading in segments -/

/-- Behind a segment reading goes on at the next one, whatever became of the segment. -/
theorem declaration_inner (segment : Segment) (hd : segment.tokens.length ≤ depth)
    (hr : elseNext rest = false) (ms : Array Misfit) :
    ∃ misfits, Cost [segment] misfits ∧
      (Grammar.inner (depth + 1)).declaration ⟨segment.tokens ++ rest, ms⟩ =
        .ok segment.statement? ⟨rest, ms ++ misfits.toArray⟩ := by
  cases segment with
  | good tokens statement h =>
    refine ⟨[], .nil, ?_⟩
    have ht : Takes (Grammar.inner (depth + 1)).declaration tokens rest (some statement) :=
      (h.gives.takes h.unfinished hd hr).recovering
    simpa [Segment.tokens, statement?] using ht ms
  | bad tokens h =>
    obtain ⟨s, rfl, rfl, rfl⟩ := h.exists_stretch hr ms
    have hstart : (⟨s.front ++ [s.stop] ++ s.rest, s.misfits⟩ : Cursor) = s.start := by
      simp [Stretch.start]
    have hopens : ∀ t ∈ s.front.tail, t.opensStatement = false := fun t ht =>
      h.opens t ((List.sublist_append_left _ _).tail.subset ht)
    obtain ⟨d, hread⟩ | ⟨m, ⟨t, ht, hm⟩, hread⟩ := s.recovering_declaration depth hopens
    · rw [← hstart] at hread
      exact absurd ⟨_, Program.gives_of_declaration h.unfinished hread⟩ h.refused
    · refine ⟨[m], .cons ⟨t, ht, hm⟩ .nil, ?_⟩
      rw [tokens, hstart, hread]
      simp [statement?]

theorem elseNext_flatMap (segments : List Segment) :
    elseNext (segments.flatMap tokens) = false := by
  cases segments with
  | nil => rfl
  | cons segment segments =>
    obtain ⟨t, us, hts, ht⟩ := segment.begins
    simpa [elseNext, hts] using ht

/-- A segment in front of others is the next declaration. -/
theorem declaration?_flatMap (segment : Segment) (segments : List Segment)
    (hd : segment.tokens.length ≤ depth) (ms : Array Misfit) :
    ∃ misfits, Cost [segment] misfits ∧
      Program.declaration? (depth + 1) ⟨(segment :: segments).flatMap tokens, ms⟩ =
        .ok (some segment.statement?) ⟨segments.flatMap tokens, ms ++ misfits.toArray⟩ := by
  obtain ⟨misfits, hcost, hread⟩ := segment.declaration_inner hd (elseNext_flatMap segments) ms
  refine ⟨misfits, hcost, ?_⟩
  obtain ⟨t, us, hts, -⟩ := segment.begins
  have hpeek : peek ⟨(segment :: segments).flatMap tokens, ms⟩ =
      .ok (some t) ⟨segment.tokens ++ segments.flatMap tokens, ms⟩ := by
    simp [peek, hts]
  rw [Program.declaration?, bind_apply, hpeek]
  simp only [bind_apply, hread]
  rfl

/-- A program in segments is read segment by segment. -/
theorem manyUpTo_declaration? (segments : List Segment)
    (hd : (segments.flatMap tokens).length ≤ depth) : ∀ (limit : List Token) (ms : Array Misfit),
      (segments.flatMap tokens).length ≤ limit.length →
      ∃ misfits, Cost segments misfits ∧
        manyUpTo (Program.declaration? (depth + 1)) limit ⟨segments.flatMap tokens, ms⟩ =
          .ok (segments.map statement?) ⟨[], ms ++ misfits.toArray⟩ := by
  induction segments with
  | nil =>
    have hnone (ms : Array Misfit) : Program.declaration? (depth + 1) ⟨[], ms⟩ =
        .ok none ⟨[], ms⟩ := rfl
    rintro (- | ⟨t, limit⟩) ms -
    · exact ⟨[], .nil, by simp [manyUpTo, pure_apply]⟩
    · exact ⟨[], .nil, by simp [manyUpTo, bind_apply, pure_apply, hnone]⟩
  | cons segment segments ih =>
    intro limit ms hl
    obtain ⟨t, us, hts, -⟩ := segment.begins
    simp only [List.flatMap_cons, List.length_append] at hd hl
    obtain ⟨misfits, hcost, hread⟩ :=
      segment.declaration?_flatMap segments (Nat.le_of_add_right_le hd) ms
    cases limit with
    | nil => simp [hts] at hl
    | cons l limit =>
      have hl' : (segments.flatMap tokens).length ≤ limit.length := by
        simp only [hts, List.length_cons] at hl
        omega
      obtain ⟨more, hmore, hrest⟩ :=
        ih (Nat.le_of_add_left_le hd) limit (ms ++ misfits.toArray) hl'
      refine ⟨misfits ++ more, hcost.append hmore, ?_⟩
      rw [manyUpTo, bind_apply, hread]
      simp only [bind_apply, hrest]
      simp [pure_apply]

end Segment

/-- A bad declaration costs only itself: what is read of a program in segments are the
statements of the good segments, in order, and each bad segment costs one misfit, found at
one of its own tokens. There is no program only if there is a bad segment and no good one. -/
theorem Program.ofTokens_segments (segments : List Segment) {finish : Token}
    (hf : finish.isFinish) :
    let p := ofTokens (segments.flatMap Segment.tokens ++ [finish])
    p.statements = segments.filterMap Segment.statement? ∧
    List.Forall₂ (fun segment m => ∃ t ∈ segment.tokens, m.found = some t)
      (segments.filter Segment.isBad) p.misfits ∧
    (p.isLost ↔ (∃ segment ∈ segments, segment.isBad) ∧ ∀ segment ∈ segments, segment.isBad) := by
  have hb : ∀ t ∈ segments.flatMap Segment.tokens, t.isFinish = false := by
    simp only [List.mem_flatMap]
    rintro t ⟨segment, -, ht⟩
    exact segment.unfinished t ht
  obtain ⟨misfits, hcost, hread⟩ :=
    Segment.manyUpTo_declaration? segments (Nat.le_refl _) _ #[] (Nat.le_refl _)
  have hp : ofTokens (segments.flatMap Segment.tokens ++ [finish]) =
      ⟨segments.filterMap Segment.statement?, misfits.map (·.endingAt finish)⟩ := by
    rw [ofTokens, Token.beforeFinish_append hb hf]
    simp only [declarations, many, bind_apply, hread]
    simp [pure_apply, List.filterMap_map]
  have hcost' := hcost.endingAt finish
  simp only [hp]
  refine ⟨trivial, hcost', ?_⟩
  simp only [isLost, Bool.and_eq_true, Bool.not_eq_true', ← hcost'.ne_nil_iff,
    List.isEmpty_iff, List.isEmpty_eq_false_iff, List.filterMap_eq_nil_iff,
    Segment.statement?_eq_none_iff]
  exact and_comm

namespace Segment

/-- `var = a;` -/
def nameless : Segment :=
  .bad [.sample (.mark .varWord) "var" 1, .sample (.mark .equal) "=" 5,
    .sample .identifier "a" 7, .sample (.mark .semicolon) ";" 8]
    { unfinished := by decide
      ends := rfl
      once := by decide
      plain := by decide
      opens := by decide
      refused := fun ⟨_, h⟩ =>
        Nat.one_ne_zero (congrArg (·.misfits.length) (h (.sample .finish "" 9) rfl)) }

/-- `print ;` -/
def valueless : Segment :=
  .bad [.sample (.mark .printWord) "print" 10, .sample (.mark .semicolon) ";" 16]
    { unfinished := by decide
      ends := rfl
      once := by decide
      plain := by decide
      opens := by decide
      refused := fun ⟨_, h⟩ =>
        Nat.one_ne_zero (congrArg (·.misfits.length) (h (.sample .finish "" 17) rfl)) }

/-- `var ok = b;` -/
def sound : Segment :=
  .good [.sample (.mark .varWord) "var" 18, .sample .identifier "ok" 22,
    .sample (.mark .equal) "=" 25, .sample .identifier "b" 27,
    .sample (.mark .semicolon) ";" 28]
    (.declare ⟨"ok", ⟨"test.lox", 1, 22⟩⟩ (some (.read ⟨⟨"b", ⟨"test.lox", 1, 27⟩⟩, none⟩)))
    { unfinished := by decide
      gives := (Program.gives_iff (by decide)).2 ((Program.ofTokens_eq_iff (by decide)
        (show (Token.sample .finish "" 29).isFinish from rfl) _).1 rfl) }

end Segment

/-- `var = a; print ; var ok = b;` is read as its last declaration, with a misfit for each of
the other two. -/
theorem Program.ofTokens_nameless_valueless_sound :
    let p := ofTokens ([Segment.nameless, .valueless, .sound].flatMap Segment.tokens ++
      [.sample .finish "" 29])
    p.statements = [.declare ⟨"ok", ⟨"test.lox", 1, 22⟩⟩
      (some (.read ⟨⟨"b", ⟨"test.lox", 1, 27⟩⟩, none⟩))] ∧
    List.Forall₂ (fun (segment : Segment) m => ∃ t ∈ segment.tokens, m.found = some t)
      [Segment.nameless, .valueless] p.misfits ∧
    p.isLost = false := by
  obtain ⟨hs, hm, hl⟩ := @ofTokens_segments [.nameless, .valueless, .sound]
    (.sample .finish "" 29) rfl
  refine ⟨hs, hm, Bool.eq_false_iff.2 fun h => ?_⟩
  have hsound : Segment.sound.isBad := (hl.1 h).2 .sound (by simp)
  cases hsound

end LoxLang
