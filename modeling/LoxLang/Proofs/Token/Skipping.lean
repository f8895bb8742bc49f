import LoxLang.Proofs.Token.Nesting
import LoxLang.Proofs.Token.Positions

/-!
# Skipping a comment

Of the bytes of a comment only line ends, asterisks and slashes matter. `Skip.run` goes through
a source from one of them to the next and counts lines and open comments on the way. A turn is
a stroke (`Skip.run_stroke`), so a skip goes through the strokes of a comment
(`Skip.run_front`), and stops where reading by characters does (`Skip.run_comment`).
-/

namespace LoxLang

open Region

namespace Skip

theorem run_of_next? {bytes : List UInt8} {s s' : Skip} (hd : s.depth ≠ 0)
    (h : s.next? bytes = some s') : run bytes s = run bytes s' := by
  rw [run, if_neg hd]
  split
  next t ht => rw [Option.some.inj (ht.symm.trans h)]
  next hn => cases hn.symm.trans h

theorem run_of_none {bytes : List UInt8} {s : Skip} (hd : s.depth ≠ 0)
    (h : s.next? bytes = none) : run bytes s = .error { s with reached := bytes.length } := by
  rw [run, if_neg hd]
  split
  next t ht => cases ht.symm.trans h
  next => rfl

/-! ## Bytes -/

variable {bytes bs : List UInt8} {n depth : Nat}

/-- Bytes that are not marked are passed without a turn. -/
theorem next?_jump {s : Skip} (h : bs <+: bytes.drop s.reached)
    (hbs : ∀ b ∈ bs, isMarked b = false) :
    s.next? bytes = next? bytes { s with reached := s.reached + bs.length } := by
  obtain ⟨rest, hrest⟩ := h
  have hbehind : bytes.drop (s.reached + bs.length) = rest := by
    rw [← List.drop_drop, ← hrest, List.drop_left]
  have hnone : bs.findIdx? isMarked = none := List.findIdx?_eq_none_iff.2 hbs
  simp only [next?, ← hrest, hbehind, List.findIdx?_append, hnone, Option.none_or]
  cases rest.findIdx? isMarked with
  | none => rfl
  | some k => simp only [Option.map_some, Nat.add_assoc, Nat.add_comm k]

/-- The skip behind so many bytes, its lines counted and so many comments open. -/
def after (bytes : List UInt8) (n depth : Nat) : Skip :=
  ⟨n, 1 + (bytes.take n).count lineFeed, lineStart bytes n, depth⟩

theorem after_newline (h : bytes[n]? = some lineFeed) (depth : Nat) :
    after bytes (n + 1) depth = { after bytes n depth with reached := n + 1 }.newline := by
  simp [after, newline, lineStart, h, List.take_add_one, Nat.add_assoc]

theorem after_add (h : bs <+: bytes.drop n) (hb : lineFeed ∉ bs) (depth : Nat) :
    after bytes (n + bs.length) depth =
      { after bytes n depth with reached := n + bs.length } := by
  have hplace : Place.ofByte "" bytes (n + bs.length) = _ := Place.ofByte_add h hb
  have hline := congrArg Place.line hplace
  have hcolumn := congrArg Place.column hplace
  have hle := lineStart_le bytes n
  have hle' := lineStart_le bytes (n + bs.length)
  simp only [Place.ofByte] at hline hcolumn
  simp only [after, hline, mk.injEq, true_and, and_true]
  omega

/-- The bytes of a text begin with that of an ASCII character just if the text begins with it. -/
theorem getElem?_utf8_iff {a : Char} (ha : a.toNat < 128) {cs : List Char}
    (h : bytes.drop n = utf8 cs) : bytes[n]? = some (UInt8.ofNat a.toNat) ↔ ∃ ds, cs = a :: ds := by
  rw [← List.head?_drop, h]
  cases cs with
  | nil => simp [utf8]
  | cons c cs =>
    obtain ⟨b, bs, hbs, hmem, hb⟩ := exists_first_byte c cs
    rw [hbs, List.head?_cons]
    constructor
    · intro he
      obtain rfl := (ofNat_mem_utf8EncodeChar_iff ha c).1 (Option.some.inj he ▸ hmem)
      exact ⟨cs, rfl⟩
    · rintro ⟨ds, hds⟩
      obtain ⟨rfl, -⟩ := List.cons.inj hds
      rw [hb ha]

/-! ## Strokes -/

/-- The text of a stroke in front of the bytes that are left. -/
theorem drop_of_utf8 (ds : List Char) {cs : List Char} (h : bytes.drop n = utf8 (ds ++ cs)) :
    utf8 ds <+: bytes.drop n ∧ bytes.drop (n + (utf8 ds).length) = utf8 cs := by
  rw [utf8_append] at h
  refine ⟨h ▸ List.prefix_append _ _, ?_⟩
  rw [← List.drop_drop, h, List.drop_left]

/-- Where nothing is marked a skip may as well begin behind it. -/
theorem run_jump {s : Skip} (hd : s.depth ≠ 0) (h : bs <+: bytes.drop s.reached)
    (hbs : ∀ b ∈ bs, isMarked b = false) :
    run bytes s = run bytes { s with reached := s.reached + bs.length } := by
  have hnext := next?_jump h hbs
  cases hs : s.next? bytes with
  | none =>
    have hjump := run_of_none (s := { s with reached := s.reached + bs.length }) hd
      (hnext.symm.trans hs)
    rw [run_of_none hd hs, hjump]
  | some s' =>
    have hjump := run_of_next? (s := { s with reached := s.reached + bs.length }) hd
      (hnext.symm.trans hs)
    rw [run_of_next? hd hs, hjump]

theorem isMarked_eq_false {c : Char} (hn : c ≠ '\n') (ha : c ≠ '*') (hs : c ≠ '/') :
    ∀ b ∈ String.utf8EncodeChar c, isMarked b = false := by
  intro b hb
  have hfeed : b ≠ lineFeed := ne_of_mem_utf8EncodeChar (a := '\n') (by decide) hn b hb
  have hasterisk : b ≠ asterisk := ne_of_mem_utf8EncodeChar (a := '*') (by decide) ha b hb
  have hslash : b ≠ slash := ne_of_mem_utf8EncodeChar (a := '/') (by decide) hs b hb
  simp [isMarked, hfeed, hasterisk, hslash]

theorem turn_lineFeed (bytes : List UInt8) (s : Skip) : s.turn bytes lineFeed = s.newline := rfl

theorem turn_asterisk (bytes : List UInt8) (s : Skip) :
    s.turn bytes asterisk =
      if bytes[s.reached]? = some slash then
        { s with reached := s.reached + 1, depth := s.depth - 1 }
      else s := by
  rw [turn, if_neg (by decide), if_pos rfl, pass?]
  by_cases h : bytes[s.reached]? = some slash <;> simp [h]

theorem turn_slash (bytes : List UInt8) (s : Skip) :
    s.turn bytes slash =
      if bytes[s.reached]? = some asterisk then
        { s with reached := s.reached + 1, depth := s.depth + 1 }
      else s := by
  rw [turn, if_neg (by decide), if_neg (by decide), pass?]
  by_cases h : bytes[s.reached]? = some asterisk <;> simp [h]

theorem next?_after {b : UInt8} (h : bytes[n]? = some b) (hb : isMarked b) :
    (after bytes n depth).next? bytes =
      some (turn bytes b { after bytes n depth with reached := n + 1 }) := by
  obtain ⟨hlt, hget⟩ := List.getElem?_eq_some_iff.1 h
  have hfind : (bytes.drop (after bytes n depth).reached).findIdx? isMarked = some 0 := by
    show (bytes.drop n).findIdx? isMarked = some 0
    rw [List.drop_eq_getElem_cons hlt, hget, List.findIdx?_cons, if_pos hb]
  rw [next?, hfind]
  simp [after, List.getD_eq_getElem?_getD, h]

/-- A character on its own is passed, and nothing but a line end follows from it. -/
theorem run_single {c : Char} {cs : List Char} (hd : depth ≠ 0)
    (h : bytes.drop n = utf8 (c :: cs)) (hc : Alone c cs) :
    run bytes (after bytes n depth) = run bytes (after bytes (n + (utf8 [c]).length) depth) := by
  have hd' : (after bytes n depth).depth ≠ 0 := hd
  obtain ⟨hfront, hbehind⟩ := drop_of_utf8 [c] h
  obtain ⟨ho, hcl⟩ := alone_iff.1 hc
  by_cases hn : c = '\n'
  · subst hn
    have hbyte : bytes[n]? = some lineFeed := getElem?_of_prefix_drop hfront
    rw [run_of_next? hd' (next?_after hbyte rfl), turn_lineFeed]
    exact congrArg (run bytes) (after_newline hbyte depth).symm
  have hfeed : lineFeed ∉ utf8 [c] := by
    simpa [utf8, lineFeed_mem_iff] using hn
  have hafter := after_add hfront hfeed depth
  by_cases ha : c = '*'
  · subst ha
    have hbyte : bytes[n]? = some asterisk := getElem?_of_prefix_drop hfront
    have hnext : ¬ bytes[n + 1]? = some slash := by
      intro hb
      obtain ⟨ds, hds⟩ := (getElem?_utf8_iff (a := '/') (by decide) hbehind).1 hb
      exact hcl ds rfl hds
    rw [run_of_next? hd' (next?_after hbyte rfl), turn_asterisk, if_neg hnext]
    exact congrArg (run bytes) hafter.symm
  by_cases hs : c = '/'
  · subst hs
    have hbyte : bytes[n]? = some slash := getElem?_of_prefix_drop hfront
    have hnext : ¬ bytes[n + 1]? = some asterisk := by
      intro hb
      obtain ⟨ds, hds⟩ := (getElem?_utf8_iff (a := '*') (by decide) hbehind).1 hb
      exact ho ds rfl hds
    rw [run_of_next? hd' (next?_after hbyte rfl), turn_slash, if_neg hnext]
    exact congrArg (run bytes) hafter.symm
  · have hmarked : ∀ b ∈ utf8 [c], isMarked b = false := by
      simpa [utf8] using isMarked_eq_false hn ha hs
    rw [run_jump hd' hfront hmarked, hafter]
    rfl

theorem getElem?_succ_of_prefix_drop {b b' : UInt8} (h : [b, b'] <+: bytes.drop n) :
    bytes[n + 1]? = some b' := by
  have hsecond : [b'] <+: bytes.drop (n + [b].length) := prefix_drop_add h
  exact getElem?_of_prefix_drop hsecond

/-- A stroke is passed, and as many comments are open as it says. -/
theorem run_stroke {s : Stroke} {cs : List Char} (hd : depth ≠ 0)
    (h : bytes.drop n = utf8 (s.text ++ cs)) (hs : ∀ c, s = .single c → Alone c cs) :
    run bytes (after bytes n depth) =
      run bytes (after bytes (n + (utf8 s.text).length) (s.deepen depth)) := by
  have hd' : (after bytes n depth).depth ≠ 0 := hd
  obtain ⟨hfront, hbehind⟩ := drop_of_utf8 s.text h
  cases s with
  | single c => exact run_single hd h (hs c rfl)
  | opener =>
    have hbyte : bytes[n]? = some slash := getElem?_of_prefix_drop hfront
    have hnext : bytes[n + 1]? = some asterisk := getElem?_succ_of_prefix_drop hfront
    rw [run_of_next? hd' (next?_after hbyte rfl), turn_slash, if_pos hnext]
    exact congrArg (run bytes) (after_add hfront (by decide) (depth + 1)).symm
  | closer =>
    have hbyte : bytes[n]? = some asterisk := getElem?_of_prefix_drop hfront
    have hnext : bytes[n + 1]? = some slash := getElem?_succ_of_prefix_drop hfront
    rw [run_of_next? hd' (next?_after hbyte rfl), turn_asterisk, if_pos hnext]
    exact congrArg (run bytes) (after_add hfront (by decide) (depth - 1)).symm

/-- As long as something is open, a skip goes on behind the first strokes. -/
theorem run_front {front rest : List Stroke} (hb : bytes.drop n = utf8 (written (front ++ rest)))
    (h : Leftmost (front ++ rest)) (hopen : StaysOpen depth front) :
    run bytes (after bytes n depth) =
      run bytes (after bytes (n + (utf8 (written front)).length) (level depth front).toNat) := by
  induction front generalizing n depth with
  | nil => simp [utf8]
  | cons s front ih =>
    obtain ⟨hd, hopen⟩ := staysOpen_cons.1 hopen
    obtain ⟨-, hbehind⟩ := drop_of_utf8 s.text hb
    rw [run_stroke (Nat.ne_of_gt hd) hb h.1, ih hbehind h.2 hopen, ← level_cons hd, written_cons,
      utf8_append, List.length_append, Nat.add_assoc]

/-- A skip stops behind the strokes that close everything. -/
theorem run_of_balances {front rest : List Stroke}
    (hb : bytes.drop n = utf8 (written (front ++ rest))) (h : Leftmost (front ++ rest))
    (hbalances : Balances depth front) :
    run bytes (after bytes n depth) =
      .ok (after bytes (n + (utf8 (written front)).length) 0) := by
  have hd : (after bytes (n + (utf8 (written front)).length) 0).depth = 0 := rfl
  rw [run_front hb h hbalances.2, hbalances.1, Int.toNat_zero, run, if_pos hd]

/-- A skip with something open all along fails at the end of the source. -/
theorem run_of_open {ss : List Stroke} (hb : bytes.drop n = utf8 (written ss))
    (hn : n ≤ bytes.length) (h : Leftmost ss) (hopen : StaysOpen depth ss)
    (hlevel : 0 < level depth ss) :
    ∃ d, run bytes (after bytes n depth) = .error (after bytes bytes.length d) := by
  have hb' : bytes.drop n = utf8 (written (ss ++ [])) := by rwa [List.append_nil]
  have hfront := run_front hb' (by rwa [List.append_nil]) hopen
  have hlength : n + (utf8 (written ss)).length = bytes.length := by
    rw [← hb, List.length_drop]
    omega
  have hd : (after bytes bytes.length (level depth ss).toNat).depth ≠ 0 :=
    show (level depth ss).toNat ≠ 0 by omega
  have hnone : (after bytes bytes.length (level depth ss).toNat).next? bytes = none := by
    simp [next?, after]
  exact ⟨_, by rw [hfront, hlength, run_of_none hd hnone]; rfl⟩

/-- A skip stops where the comment ends, or goes to the end of the source if it does not. -/
theorem run_comment {cs : List Char} (h : bytes.drop n = utf8 cs) (hn : n ≤ bytes.length) :
    (∃ k, closingLength? 1 cs = some k ∧
      run bytes (after bytes n 1) = .ok (after bytes (n + (utf8 (cs.take k)).length) 0)) ∨
    closingLength? 1 cs = none ∧
      ∃ d, run bytes (after bytes n 1) = .error (after bytes bytes.length d) := by
  have hleftmost := leftmost_strokes cs
  have hwritten := written_strokes cs
  rcases balances_or_open 1 (strokes cs) with ⟨closing, rest, hss, hbalances⟩ | ⟨hopen, hlevel⟩
  · rw [hss] at hleftmost hwritten
    have hcs : cs = written closing ++ written rest := by rw [← hwritten, written_append]
    have htake : cs.take (written closing).length = written closing := by
      rw [hcs, List.take_left]
    refine .inl ⟨(written closing).length, ?_, ?_⟩
    · rw [← hwritten]
      exact closingLength?_of_balances hleftmost hbalances
    · rw [htake]
      exact run_of_balances (by rw [hwritten, h]) hleftmost hbalances
  · refine .inr ⟨?_, run_of_open (by rw [hwritten, h]) hn hleftmost hopen hlevel⟩
    rw [← hwritten]
    exact closingLength?_of_open hleftmost hopen hlevel

end Skip

end LoxLang
