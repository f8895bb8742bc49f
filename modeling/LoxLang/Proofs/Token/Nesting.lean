import LoxLang.Token.Region
import Mathlib.Tactic.Common

/-!
# How comments nest

Behind its opening a comment is read as *strokes*: openers, closers, and the characters that
are in neither. A text is read as strokes in one way, from left to right
(`leftmost_iff_strokes`). `level` counts how many comments are open behind some of them, and a
comment is as long as its strokes up to where the level comes down to zero for the first time
(`closingLength?_front`, `balances_or_open`).
-/

namespace LoxLang

namespace Region

/-! ## Strokes -/

/-- What a text inside a comment is made of. -/
inductive Stroke where
  | opener
  | closer
  | single (c : Char)
deriving DecidableEq, Repr

def Stroke.text : Stroke → List Char
  | opener => ['/', '*']
  | closer => ['*', '/']
  | single c => [c]

def written (ss : List Stroke) : List Char := ss.flatMap Stroke.text

/-- The strokes of a text, read from left to right. -/
def strokes : List Char → List Stroke
  | [] => []
  | '/' :: '*' :: cs => .opener :: strokes cs
  | '*' :: '/' :: cs => .closer :: strokes cs
  | c :: cs => .single c :: strokes cs

/-- A character stands on its own: it begins no opener and no closer with what is behind it. -/
def Alone (c : Char) (behind : List Char) : Prop :=
  ¬ Stroke.opener.text <+: c :: behind ∧ ¬ Stroke.closer.text <+: c :: behind

/-- The strokes are those that a reader from left to right comes to. -/
def Leftmost : List Stroke → Prop
  | [] => True
  | s :: ss => (∀ c, s = .single c → Alone c (written ss)) ∧ Leftmost ss

@[simp] theorem written_nil : written [] = [] := rfl

@[simp] theorem written_cons (s : Stroke) (ss : List Stroke) :
    written (s :: ss) = s.text ++ written ss := rfl

theorem written_append (ss rest : List Stroke) :
    written (ss ++ rest) = written ss ++ written rest := List.flatMap_append

theorem Leftmost.behind {front rest : List Stroke} (h : Leftmost (front ++ rest)) :
    Leftmost rest := by
  induction front with
  | nil => exact h
  | cons s front ih => exact ih h.2

theorem alone_iff {c : Char} {cs : List Char} :
    Alone c cs ↔ (∀ rest, c = '/' → cs = '*' :: rest → False) ∧
      ∀ rest, c = '*' → cs = '/' :: rest → False := by
  constructor
  · rintro ⟨ho, hc⟩
    refine ⟨?_, ?_⟩ <;> rintro rest rfl rfl
    · exact ho ⟨rest, rfl⟩
    · exact hc ⟨rest, rfl⟩
  · rintro ⟨ho, hc⟩
    refine ⟨?_, ?_⟩ <;> rintro ⟨rest, hrest⟩ <;> cases hrest
    · exact ho rest rfl rfl
    · exact hc rest rfl rfl

theorem strokes_single {c : Char} {cs : List Char} (h : Alone c cs) :
    strokes (c :: cs) = .single c :: strokes cs := by
  obtain ⟨ho, hc⟩ := alone_iff.1 h
  rw [strokes]
  · exact ho
  · exact hc

theorem written_strokes (cs : List Char) : written (strokes cs) = cs := by
  fun_induction strokes cs with
  | case1 => rfl
  | case2 cs ih | case3 cs ih | case4 c cs _ _ ih => rw [written_cons, ih]; rfl

theorem leftmost_strokes (cs : List Char) : Leftmost (strokes cs) := by
  fun_induction strokes cs with
  | case1 => trivial
  | case2 cs ih | case3 cs ih => exact ⟨nofun, ih⟩
  | case4 c cs ho hc ih =>
    refine ⟨fun d hd => ?_, ih⟩
    obtain rfl := Stroke.single.inj hd
    rw [written_strokes]
    exact alone_iff.2 ⟨ho, hc⟩

/-- A text is read as strokes in one way. -/
theorem leftmost_iff_strokes {cs : List Char} {ss : List Stroke} :
    written ss = cs ∧ Leftmost ss ↔ ss = strokes cs := by
  constructor
  · rintro ⟨rfl, h⟩
    induction ss with
    | nil => rfl
    | cons s ss ih =>
      have hss := ih h.2
      cases s with
      | opener | closer => exact congrArg (List.cons _) hss
      | single c => exact (congrArg (List.cons _) hss).trans (strokes_single (h.1 c rfl)).symm
  · rintro rfl
    exact ⟨written_strokes cs, leftmost_strokes cs⟩

-- where an opener and a closer share a character, the first of them is read
example : strokes ['*', '*', '/', '*', '/', '/', '*', '/'] =
    [.single '*', .closer, .closer, .opener, .single '/'] := by decide

/-! ## Levels -/

/-- How many comments are open behind the strokes if `depth` were ahead of them. -/
def level (depth : Nat) (ss : List Stroke) : Int :=
  depth + ss.count .opener - ss.count .closer

/-- How many comments are open behind one stroke. -/
def Stroke.deepen : Stroke → Nat → Nat
  | opener, depth => depth + 1
  | closer, depth => depth - 1
  | single _, depth => depth

/-- Up to the last of the strokes something is open. -/
def StaysOpen (depth : Nat) (ss : List Stroke) : Prop :=
  ∀ fewer, fewer <+: ss → fewer ≠ ss → 0 < level depth fewer

/-- The strokes close all of the `depth` comments, the last of them with their own last. -/
def Balances (depth : Nat) (ss : List Stroke) : Prop := level depth ss = 0 ∧ StaysOpen depth ss

@[simp] theorem level_nil (depth : Nat) : level depth [] = depth := by simp [level]

theorem level_cons {depth : Nat} (hd : 0 < depth) (s : Stroke) (ss : List Stroke) :
    level depth (s :: ss) = level (s.deepen depth) ss := by
  cases s <;> simp [level, Stroke.deepen] <;> omega

theorem level_append (depth : Nat) (ss : List Stroke) (s : Stroke) :
    level depth (ss ++ [s]) = level depth ss + level 0 [s] := by
  simp only [level, List.count_append]
  omega

theorem staysOpen_nil (depth : Nat) : StaysOpen depth [] :=
  fun _ hp hne => absurd (List.prefix_nil.1 hp) hne

theorem staysOpen_cons {depth : Nat} {s : Stroke} {ss : List Stroke} :
    StaysOpen depth (s :: ss) ↔ 0 < depth ∧ StaysOpen (s.deepen depth) ss := by
  constructor
  · intro h
    have hd : 0 < depth := by simpa using h [] List.nil_prefix nofun
    refine ⟨hd, fun fewer hp hne => ?_⟩
    rw [← level_cons hd]
    exact h _ (List.cons_prefix_cons.2 ⟨rfl, hp⟩) fun he => hne (List.cons.inj he).2
  · rintro ⟨hd, h⟩ fewer hp hne
    cases fewer with
    | nil => simpa using hd
    | cons t fewer =>
      obtain ⟨rfl, hfewer⟩ := List.cons_prefix_cons.1 hp
      rw [level_cons hd]
      exact h fewer hfewer fun he => hne (congrArg _ he)

theorem StaysOpen.level_pos {depth : Nat} {front ss : List Stroke} (h : StaysOpen depth ss)
    (hlevel : 0 < level depth ss) (hp : front <+: ss) : 0 < level depth front := by
  by_cases he : front = ss
  · rwa [he]
  · exact h front hp he

/-- What brings the level down to zero for the first time is a closer. -/
theorem Balances.closer_last {front : List Stroke} (h : Balances 1 front) :
    ∃ before, front = before ++ [.closer] := by
  rcases List.eq_nil_or_concat front with rfl | ⟨before, s, hs⟩
  · exact absurd h.1 (by simp)
  · obtain rfl := hs.trans List.concat_eq_append
    have hbefore := h.2 before (List.prefix_append _ _) (by simp)
    have hzero := h.1
    rw [level_append] at hzero
    cases s with
    | closer => exact ⟨before, rfl⟩
    | opener | single _ => simp [level] at hzero hbefore; omega

/-- Some first strokes close everything, or something is open all along and behind the last. -/
theorem balances_or_open (depth : Nat) (ss : List Stroke) :
    (∃ front rest, ss = front ++ rest ∧ Balances depth front) ∨
      StaysOpen depth ss ∧ 0 < level depth ss := by
  induction ss generalizing depth with
  | nil =>
    cases depth with
    | zero => exact .inl ⟨[], [], rfl, rfl, staysOpen_nil 0⟩
    | succ depth => exact .inr ⟨staysOpen_nil _, by rw [level_nil]; omega⟩
  | cons s ss ih =>
    obtain rfl | hd := Nat.eq_zero_or_pos depth
    · exact .inl ⟨[], s :: ss, rfl, rfl, staysOpen_nil 0⟩
    · rcases ih (s.deepen depth) with ⟨front, rest, rfl, hzero, hopen⟩ | ⟨hopen, hlevel⟩
      · exact .inl ⟨s :: front, rest, rfl, (level_cons hd s front).trans hzero,
          staysOpen_cons.2 ⟨hd, hopen⟩⟩
      · exact .inr ⟨staysOpen_cons.2 ⟨hd, hopen⟩, (level_cons hd s ss).symm ▸ hlevel⟩

/-! ## The length of a comment -/

/-- A stroke inside a comment belongs to it, and what is behind it is one level up, one down,
or on the same. -/
theorem closingLength?_stroke {depth : Nat} (hd : 0 < depth) {s : Stroke} {cs : List Char}
    (hs : ∀ c, s = .single c → Alone c cs) :
    closingLength? depth (s.text ++ cs) =
      (closingLength? (s.deepen depth) cs).map (· + s.text.length) := by
  obtain ⟨depth, rfl⟩ := Nat.exists_eq_succ_of_ne_zero (Nat.ne_of_gt hd)
  cases s with
  | opener | closer => rfl
  | single c =>
    obtain ⟨ho, hc⟩ := alone_iff.1 (hs c rfl)
    exact closingLength?.eq_5 depth c cs hc ho

/-- As long as something is open, a comment goes on behind its first strokes. -/
theorem closingLength?_front {depth : Nat} {front rest : List Stroke}
    (h : Leftmost (front ++ rest)) (hopen : StaysOpen depth front) :
    closingLength? depth (written (front ++ rest)) =
      (closingLength? (level depth front).toNat (written rest)).map
        (· + (written front).length) := by
  induction front generalizing depth with
  | nil => simp
  | cons s front ih =>
    obtain ⟨hd, hopen⟩ := staysOpen_cons.1 hopen
    have hfirst : closingLength? depth (written (s :: front ++ rest)) =
        (closingLength? (s.deepen depth) (written (front ++ rest))).map (· + s.text.length) :=
      closingLength?_stroke hd h.1
    rw [hfirst, ih h.2 hopen, ← level_cons hd, Option.map_map, written_cons, List.length_append]
    refine congrArg (fun f => Option.map f _) (funext fun n => ?_)
    simp only [Function.comp_apply]
    omega

/-- The strokes that close everything make up a comment. -/
theorem closingLength?_of_balances {depth : Nat} {front rest : List Stroke}
    (h : Leftmost (front ++ rest)) (hb : Balances depth front) :
    closingLength? depth (written (front ++ rest)) = some (written front).length := by
  rw [closingLength?_front h hb.2, hb.1, Int.toNat_zero, closingLength?, Option.map_some,
    Nat.zero_add]

/-- There is no end to a comment in which something stays open. -/
theorem closingLength?_of_open {depth : Nat} {ss : List Stroke} (h : Leftmost ss)
    (hopen : StaysOpen depth ss) (hlevel : 0 < level depth ss) :
    closingLength? depth (written ss) = none := by
  obtain ⟨d, hd⟩ : ∃ d, (level depth ss).toNat = d + 1 := Nat.exists_eq_succ_of_ne_zero (by omega)
  have hfront : closingLength? depth (written (ss ++ [])) = _ :=
    closingLength?_front (by rwa [List.append_nil]) hopen
  rw [List.append_nil] at hfront
  rw [hfront, hd, written_nil, closingLength?, Option.map_none]

end Region

end LoxLang
