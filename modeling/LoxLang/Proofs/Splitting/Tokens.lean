import LoxLang.Proofs.Token.Places
import LoxLang.Proofs.Twins.Tree

/-!
# Tokens of two sources

Two sources with a line end between them have the tokens of the one and then those of the
other, further down, if the first leaves no string or comment open: no region of it goes on
over the line end. The file that a place names, and how many lines stand ahead of it, are moved along with
it by `Place.shift`.
-/

namespace LoxLang

/-! ## Places further down -/

/-- The place in a file that so many more lines stand ahead of. -/
def Place.shift (file : String) (k : Nat) (p : Place) : Place := ⟨file, p.line + k, p.column⟩

namespace Place

variable (file : String) (k : Nat) (p q : Place)

@[simp] theorem shift_next (c : Char) : (p.next c).shift file k = (p.shift file k).next c := by
  unfold next shift
  split
  · exact congrArg (Place.mk file · 1) (Nat.add_right_comm _ _ _)
  · rfl

@[simp] theorem shift_past (cs : List Char) :
    (p.past cs).shift file k = (p.shift file k).past cs := by
  induction cs generalizing p with
  | nil => rfl
  | cons c cs ih => rw [past_cons, past_cons, ih, shift_next]

@[simp] theorem le_shift : (p.shift file k).le (q.shift file k) = p.le q := by
  rw [Bool.eq_iff_iff]
  simp only [le, Bool.or_eq_true, Bool.and_eq_true, decide_eq_true_eq, beq_iff_eq]
  exact or_congr Nat.add_lt_add_iff_right (and_congr_left' Nat.add_right_cancel_iff)

/-- Places of the file stay where they are. -/
theorem shift_zero (h : p.file = file) : p.shift file 0 = p := by
  subst h
  rfl

theorem file_past (cs : List Char) : (p.past cs).file = p.file := by
  induction cs generalizing p with
  | nil => rfl
  | cons c cs ih =>
    rw [past_cons, ih]
    unfold next
    split <;> rfl

theorem line_past (cs : List Char) : (p.past cs).line = p.line + cs.count '\n' := by
  induction cs generalizing p with
  | nil => rfl
  | cons c cs ih =>
    rw [past_cons, ih, List.count_cons]
    unfold next
    by_cases hc : c = '\n'
    · simp [hc]
      omega
    · simp [hc]

/-- Behind a line end a place is at the start of a line. -/
theorem past_newline (cs : List Char) :
    ((Place.start file).past cs).next '\n' = (Place.start file).shift file (1 + cs.count '\n') := by
  rw [next, if_pos rfl, file_past, line_past, shift]
  refine congrArg (Place.mk file · 1) ?_
  rw [Nat.add_comm 1, Nat.add_assoc]

end Place

/-! ## Regions -/

/-- The region does not go on to the end of its source for want of a closing mark. -/
def Piece.Closed (p : Piece) : Prop := p ≠ .problem .openString ∧ p ≠ .problem .openComment

theorem Piece.closed_of_ne {p : Piece} (h : ∀ cause, p ≠ .problem cause) : p.Closed :=
  ⟨h _, h _⟩

namespace Region

theorem Stops.goesOn {p : Char → Bool} {rest : List Char} (h : Stops p rest)
    (hp : p '\n' = false) (ds : List Char) : Stops p (rest ++ '\n' :: ds) := by
  cases rest with
  | nil =>
    rintro c ⟨⟩
    exact hp
  | cons c rest => exact h

/-- A region that is closed is one still if a line end and more follow. -/
theorem Cut.goesOn {text rest : List Char} {p : Piece} (h : Cut text rest p) (hp : p.Closed)
    (ds : List Char) : Cut text (rest ++ '\n' :: ds) p := by
  cases h with
  | blank hc => exact .blank hc
  | lineComment hcs hrest =>
    refine .lineComment hcs (.inr ?_)
    rcases hrest with rfl | hrest
    · rfl
    · rw [List.head?_append, hrest]
      rfl
  | blockComment hcs => exact .blockComment hcs
  | token hl he =>
    refine .token hl ?_
    cases rest with
    | nil => exact ends_gap rfl ..
    | cons c rest => exact he.congr rfl
  | unexpected hc hno => exact .unexpected hc hno
  | missingFraction hds hrest => exact .missingFraction hds (hrest.goesOn rfl ds)
  | openString => exact absurd rfl hp.1
  | openComment => exact absurd rfl hp.2

theorem Splits.joined {cs ds : List Char} {rs ss : List Region} (hr : Splits cs rs)
    (hp : ∀ r ∈ rs, r.piece.Closed) (hs : Splits ds ss) :
    Splits (cs ++ '\n' :: ds) (rs ++ ⟨['\n'], .blank⟩ :: ss) := by
  induction rs generalizing cs with
  | nil =>
    obtain rfl : cs = [] := hr
    exact ⟨ds, rfl, .blank (by decide), hs⟩
  | cons r rs ih =>
    obtain ⟨rest, rfl, hcut, hrest⟩ := hr
    obtain ⟨hpr, hp⟩ := List.forall_mem_cons.1 hp
    exact ⟨rest ++ '\n' :: ds, List.append_assoc .., hcut.goesOn hpr ds, ih hrest hp⟩

/-- The regions of two texts with a line end between them. -/
theorem split_joined {cs ds : List Char} (hp : ∀ r ∈ split cs, r.piece.Closed) :
    split (cs ++ '\n' :: ds) = split cs ++ ⟨['\n'], .blank⟩ :: split ds :=
  (eq_split_iff.1 ((splits_split cs).joined hp (splits_split ds))).symm

theorem placed_append (p : Place) (rs ss : List Region) :
    placed p (rs ++ ss) = placed p rs ++ placed (p.past (join rs)) ss := by
  induction rs generalizing p with
  | nil => rfl
  | cons r rs ih =>
    have hjoin : p.past (join (r :: rs)) = (p.past r.text).past (join rs) :=
      Place.past_append p r.text _
    rw [List.cons_append, placed, placed, ih, hjoin, List.cons_append]

theorem placed_shift (file : String) (k : Nat) (p : Place) (rs : List Region) :
    placed (p.shift file k) rs = (placed p rs).map fun r => ⟨r.place.shift file k, r.value⟩ := by
  induction rs generalizing p with
  | nil => rfl
  | cons r rs ih => rw [placed, placed, List.map_cons, ← Place.shift_past, ih]

end Region

/-! ## Tokens -/

namespace Token

open Region

def moved (g : Place → Place) (t : Token) : Token := { t with place := g t.place }

/-- Where a source is does not matter to what is wrong with it. -/
theorem scan_file {file file' source : String} (h : (scan file source).2 = []) :
    (scan file' source).2 = [] := scan_eq_nil_iff.2 (scan_eq_nil_iff.1 h)

theorem token?_shift (file : String) (k : Nat) (p : Place) (rs : List Region) :
    (placed (p.shift file k) rs).filterMap token? =
      ((placed p rs).filterMap token?).map (moved (Place.shift file k)) := by
  rw [placed_shift, List.filterMap_map, List.map_filterMap]
  congr 1
  funext r
  unfold Function.comp token? result?
  cases r.value.piece <;> rfl

/-- The tokens of a source are the same in each file. -/
theorem body_file (file file' source : String) :
    body file' source = (body file source).map (moved (Place.shift file' 0)) := by
  rw [body_eq, body_eq, ← token?_shift]
  rfl

/-- **Two sources, one line end.** Their tokens are those of the first and those of the second,
further down by as many lines as the first one takes up. -/
theorem body_joined {file first second : String} (h : (scan file first).2 = []) :
    body file (first ++ "\n" ++ second) = body file first ++
      (body file second).map (moved (Place.shift file (1 + first.toList.count '\n'))) := by
  have htext : (first ++ "\n" ++ second).toList = first.toList ++ '\n' :: second.toList := by
    simp
  have hclosed : ∀ r ∈ split first.toList, r.piece.Closed := fun r hr =>
    Piece.closed_of_ne (scan_eq_nil_iff.1 h r hr)
  rw [body_eq, body_eq, body_eq, htext, split_joined hclosed, placed_append,
    List.filterMap_append, placed, List.filterMap_cons, ← token?_shift, join_split]
  simp only [Place.past_cons, Place.past_nil, Place.past_newline]
  rfl

/-- The tokens of a source name its file. -/
theorem moved_of_mem_body {file source : String} :
    ∀ t ∈ body file source, Place.shift file 0 t.place = t.place := by
  intro t ht
  rw [body_file file file, List.mem_map] at ht
  obtain ⟨u, -, rfl⟩ := ht
  exact Place.shift_zero _ _ rfl

end Token

end LoxLang
