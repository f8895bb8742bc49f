import LoxLang.Proofs.Token.Lossless
import LoxLang.Proofs.Token.Scanning
import Mathlib.Data.List.Forall2

/-!
# What a source gives

Whenever a scanner is asked for the next result it stands between two regions of its source and
has counted the lines ahead of it (`Scanner.At`). It passes over blanks and comments and gives a
token or a problem for each of the other regions (`Scanner.next?_of_silent`,
`Scanner.next?_of_sounds`). So step by step it gives the results of the source
(`Token.exists_results`): nothing is lost (`Token.results_lossless`), and the places are right
(`Token.results_positions`).
-/

namespace LoxLang

def Token.resultPlace : Except (Placed LexicalProblem) Token → Place
  | .ok t => t.place
  | .error e => e.place

namespace Region

/-- Blanks and comments are passed over; something comes of other regions. -/
def sounds (r : Region) : Bool :=
  match r.piece with
  | .blank | .comment => false
  | .token _ | .problem _ => true

/-- What comes of a region: a token of its kind with its text, or the problem with it. -/
inductive Gives : Region → Except (Placed LexicalProblem) Token → Prop
  | token (text : List Char) (kind : Kind) (p : Place) :
      Gives ⟨text, .token kind⟩ (.ok ⟨kind, String.ofList text, p⟩)
  | problem (text : List Char) (cause : LexicalProblem) (p : Place) :
      Gives ⟨text, .problem cause⟩ (.error ⟨p, cause⟩)

/-- Each region that something comes of gives one result, with the place of its first byte. -/
def GivesAll (file : String) (bytes : List UInt8) (n : Nat) (rs : List Region)
    (given : List (Except (Placed LexicalProblem) Token)) : Prop :=
  List.Forall₂ (fun r g => r.2.Gives g ∧ Token.resultPlace g = .ofByte file bytes r.1)
    ((starts n rs).filter fun r => r.2.sounds) given

variable {file : String} {bytes : List UInt8} {n : Nat} {r : Region} {rs : List Region}
  {given given' : List (Except (Placed LexicalProblem) Token)}

/-- What comes of a region at a place is one thing. -/
theorem Gives.unique {g g' : Except (Placed LexicalProblem) Token} (h : r.Gives g)
    (h' : r.Gives g') (hp : Token.resultPlace g = Token.resultPlace g') : g = g' := by
  cases h <;> cases h' <;> cases hp <;> rfl

theorem GivesAll.unique (h : GivesAll file bytes n rs given)
    (h' : GivesAll file bytes n rs given') : given = given' :=
  List.right_unique_forall₂' (fun _ _ _ hg hg' => hg.1.unique hg'.1 (hg.2.trans hg'.2.symm)) h h'

theorem snd_starts (n : Nat) (rs : List Region) : (starts n rs).map Prod.snd = rs := by
  induction rs generalizing n with
  | nil => rfl
  | cons r rs ih => rw [starts, List.map_cons, ih]

/-- Apart from their places the results are what comes of the regions. -/
theorem GivesAll.gives (h : GivesAll file bytes n rs given) :
    List.Forall₂ Gives (rs.filter sounds) given := by
  have hregions : rs.filter sounds = ((starts n rs).filter fun r => r.2.sounds).map Prod.snd := by
    rw [← snd_starts n rs, List.filter_map, snd_starts]
    rfl
  rw [hregions, List.forall₂_map_left_iff]
  exact h.imp fun _ _ hg => hg.1

theorem result?_of_silent {r : Placed Region} (h : r.value.sounds = false) : result? r = none := by
  obtain ⟨p, ⟨text, piece⟩⟩ := r
  cases piece <;> first | rfl | cases h

theorem result?_of_sounds {r : Placed Region} (h : r.value.sounds = true) :
    ∃ g, result? r = some g ∧ r.value.Gives g ∧ Token.resultPlace g = r.place := by
  obtain ⟨p, ⟨text, piece⟩⟩ := r
  cases piece with
  | blank => cases h
  | comment => cases h
  | token kind => exact ⟨_, rfl, .token text kind p, rfl⟩
  | problem cause => exact ⟨_, rfl, .problem text cause p, rfl⟩

theorem givesAll_filterMap (file : String) (bytes : List UInt8) (n : Nat) (rs : List Region) :
    GivesAll file bytes n rs
      ((starts n rs).filterMap fun r => result? ⟨.ofByte file bytes r.1, r.2⟩) := by
  induction rs generalizing n with
  | nil => exact .nil
  | cons r rs ih =>
    cases hr : r.sounds with
    | false =>
      have hnone : result? ⟨.ofByte file bytes n, r⟩ = none := result?_of_silent hr
      simp only [GivesAll, starts, List.filter_cons, List.filterMap_cons, hr, hnone,
        Bool.false_eq_true, if_false]
      exact ih _
    | true =>
      obtain ⟨g, hg, hgives, hplace⟩ := result?_of_sounds (r := ⟨.ofByte file bytes n, r⟩) hr
      simp only [GivesAll, starts, List.filter_cons, List.filterMap_cons, hr, hg, if_true]
      exact .cons ⟨hgives, hplace⟩ (ih _)

/-! ## Comments as regions -/

section Comment

variable {front rest ss : List Stroke}

theorem first_of_balances (h : Leftmost (front ++ rest)) (hb : Balances 1 front) :
    first '/' ('*' :: written (front ++ rest)) = (2 + (written front).length, .comment) := by
  simp [first_slash, firstSlash, closingLength?_of_balances h hb]

theorem first_of_open (h : Leftmost ss) (hopen : StaysOpen 1 ss) (hlevel : 0 < level 1 ss) :
    first '/' ('*' :: written ss) = (2 + (written ss).length, .problem .openComment) := by
  simp [first_slash, firstSlash, closingLength?_of_open h hopen hlevel]

/-- A comment goes to the stroke with which everything opened in it is closed. -/
theorem cut_of_balances (h : Leftmost (front ++ rest)) (hb : Balances 1 front) :
    Cut ('/' :: '*' :: written front) (written rest) .comment := by
  refine cut_iff_first.2 ⟨'/', '*' :: written front, rfl, ?_⟩
  rw [List.cons_append, ← written_append, first_of_balances h hb, Nat.add_comm]
  rfl

/-- A comment in which something stays open goes to the end of the source. -/
theorem cut_of_open (h : Leftmost ss) (hopen : StaysOpen 1 ss) (hlevel : 0 < level 1 ss) :
    Cut ('/' :: '*' :: written ss) [] (.problem .openComment) := by
  refine cut_iff_first.2 ⟨'/', '*' :: written ss, rfl, ?_⟩
  rw [List.append_nil, first_of_open h hopen hlevel, Nat.add_comm]
  rfl

end Comment

end Region

open Region

namespace Scanner

variable {s : Scanner} {file : String} {before text more : List Char} {piece : Piece}

/-! ## Between two regions -/

/-- The scanner has passed this part of its source, and counted the lines in it. -/
structure At (s : Scanner) (file : String) (before ahead : List Char) : Prop where
  file : s.file = file
  source : s.source = before ++ ahead
  bytes : s.bytes = utf8 s.source
  counted : s = s.upTo (utf8 before).length

theorem at_start (file source : String) : (start file source).At file [] source.toList :=
  ⟨rfl, rfl, toList_toUTF8 source, rfl⟩

theorem At.reached (h : s.At file before more) : s.reached = (utf8 before).length := by
  rw [h.counted, reached_upTo]

theorem At.length (h : s.At file before more) :
    s.bytes.length = (utf8 before).length + (utf8 more).length := by
  rw [h.bytes, h.source, utf8_append, List.length_append]

theorem At.here (h : s.At file before more) :
    s.here = .ofByte file s.bytes (utf8 before).length := by
  rw [← h.file, ← here_upTo, ← h.counted]

theorem At.faces (h : s.At file before more) : s.fresh.Faces before more :=
  ⟨h.source, h.bytes, h.reached⟩

theorem At.fresh (h : s.At file before more) : s.fresh = s.fresh.upTo (utf8 before).length := by
  have hline : s.line = _ := congrArg Scanner.line h.counted
  have hlineFrom : s.lineFrom = _ := congrArg Scanner.lineFrom h.counted
  simp only [Scanner.fresh, upTo, Scanner.behind, Skip.after, mk.injEq, true_and, and_true]
  exact ⟨h.reached, hline, hlineFrom⟩

/-- Behind a region the scanner stands at the next one. -/
theorem At.behind (h : s.At file before (text ++ more)) :
    (s.fresh.upTo ((utf8 before).length + (utf8 text).length)).At file (before ++ text) more := by
  refine ⟨h.file, h.source.trans (List.append_assoc ..).symm, h.bytes, ?_⟩
  rw [utf8_append, List.length_append]
  rfl

theorem At.scanText (h : s.At file before (text ++ more)) (hcut : Cut text more piece) :
    s.fresh.scanText =
      some ((s.fresh.upTo ((utf8 before).length + (utf8 text).length)).ended piece) := by
  rw [h.fresh]
  exact scanText_upTo h.faces hcut

theorem At.lt (h : s.At file before (text ++ more)) (htext : text ≠ []) :
    s.reached < s.bytes.length := by
  obtain ⟨c, cs, rfl⟩ := List.exists_cons_of_ne_nil htext
  have hc := c.utf8Size_pos
  rw [h.reached, h.length, List.cons_append, length_utf8_cons]
  omega

/-- The text between where it starts and how far it has been passed. -/
theorem At.text? (h : s.At file before (text ++ more)) :
    (s.fresh.upTo ((utf8 before).length + (utf8 text).length)).text? = some text := h.faces.text?

/-! ## One step -/

theorem next?_of_error {p : Placed LexicalProblem} {t : Scanner} (hlt : s.reached < s.bytes.length)
    (h : s.fresh.scanText = some (.error p, t)) : s.next? = some (some (.error p), t) := by
  rw [next?, if_neg (Nat.not_lt_of_lt hlt), if_neg (Nat.ne_of_lt hlt)]
  split <;> simp_all

theorem next?_of_ok {t : Scanner} (hlt : s.reached < s.bytes.length)
    (h : s.fresh.scanText = some (.ok (), t)) :
    s.next? = match t.pending with
      | some kind => t.text?.map fun text =>
          (some (.ok ⟨kind, String.ofList text, t.textStart⟩), { t with pending := none })
      | none => t.next? := by
  rw [next?, if_neg (Nat.not_lt_of_lt hlt), if_neg (Nat.ne_of_lt hlt)]
  split
  next h' => cases h.symm.trans h'
  next h' => cases h.symm.trans h'
  next h' =>
    cases h.symm.trans h'
    rfl

/-- Blanks and comments are passed over. -/
theorem next?_of_silent (h : s.At file before (text ++ more)) (hcut : Cut text more piece)
    (hsilent : sounds ⟨text, piece⟩ = false) :
    s.next? = (s.fresh.upTo ((utf8 before).length + (utf8 text).length)).next? := by
  have hscan := h.scanText hcut
  cases piece with
  | blank => exact next?_of_ok (h.lt hcut.ne_nil) hscan
  | comment => exact next?_of_ok (h.lt hcut.ne_nil) hscan
  | token _ => cases hsilent
  | problem _ => cases hsilent

/-- What comes of any other region is given, with the place of its first byte. -/
theorem next?_of_sounds (h : s.At file before (text ++ more)) (hcut : Cut text more piece)
    (hsounds : sounds ⟨text, piece⟩ = true) :
    ∃ given, Gives ⟨text, piece⟩ given ∧
      Token.resultPlace given = .ofByte file s.bytes (utf8 before).length ∧
      s.next? = some (some given,
        s.fresh.upTo ((utf8 before).length + (utf8 text).length)) := by
  have hscan := h.scanText hcut
  have hlt := h.lt hcut.ne_nil
  cases piece with
  | blank => cases hsounds
  | comment => cases hsounds
  | token kind =>
    refine ⟨_, .token text kind s.here, h.here, ?_⟩
    rw [next?_of_ok hlt hscan]
    exact congrArg (Option.map _) h.text?
  | problem cause => exact ⟨_, .problem text cause s.here, h.here, next?_of_error hlt hscan⟩

/-- At the end of the source there is one `finish`. -/
theorem next?_at_end (h : s.At file before []) :
    s.next? = some (some (.ok ⟨.finish, "", .ofByte file s.bytes s.bytes.length⟩),
      { s with reached := s.reached + 1 }) := by
  have hend : s.reached = s.bytes.length := by
    rw [h.reached, h.length]
    rfl
  rw [next?, if_neg (by omega), if_pos hend, h.here, ← h.reached, hend]

theorem next?_past_end (h : s.bytes.length < s.reached) : s.next? = some (none, s) := by
  rw [next?, if_pos h]

/-! ## All steps -/

theorem nth?_zero (s : Scanner) : s.nth? 0 = s.next? := rfl

theorem nth?_succ {t : Scanner} {g : Option (Except (Placed LexicalProblem) Token)}
    (h : s.next? = some (g, t)) (n : Nat) : s.nth? (n + 1) = t.nth? n := by
  simp [nth?, after?, h]

theorem nth?_congr {t : Scanner} (h : s.next? = t.next?) : s.nth? = t.nth? := by
  funext n
  cases n <;> simp [nth?, after?, h]

theorem nth?_past_end (h : s.bytes.length < s.reached) (n : Nat) : s.nth? n = some (none, s) := by
  induction n with
  | zero => exact next?_past_end h
  | succ n ih => rw [nth?_succ (next?_past_end h), ih]

variable {rs : List Region}

/-- From where it stands a scanner gives what comes of the regions ahead, one after another, then
one `finish`, and nothing from then on. -/
theorem nth?_of_splits (h : s.At file before more) (hrs : Splits more rs) :
    ∃ given, GivesAll file s.bytes (utf8 before).length rs given ∧
      ∀ n, (s.nth? n).map Prod.fst =
        some ((given ++ [.ok ⟨.finish, "", .ofByte file s.bytes s.bytes.length⟩])[n]?) := by
  induction rs generalizing s before more with
  | nil =>
    obtain rfl : more = [] := hrs
    refine ⟨[], .nil, fun n => ?_⟩
    have hnext := next?_at_end h
    cases n with
    | zero => rw [nth?_zero, hnext]; rfl
    | succ n =>
      have hend : s.reached = s.bytes.length := by
        rw [h.reached, h.length]
        rfl
      rw [nth?_succ hnext, nth?_past_end (by simp [hend])]
      rfl
  | cons r rs ih =>
    obtain ⟨rest, rfl, hcut, hrest⟩ := hrs
    obtain ⟨given, hgiven, hnth⟩ := ih h.behind hrest
    rw [utf8_append, List.length_append] at hgiven
    cases hr : r.sounds with
    | false =>
      refine ⟨given, ?_, fun n => ?_⟩
      · rw [GivesAll, starts, List.filter_cons_of_neg (by simpa using hr)]
        exact hgiven
      · rw [nth?_congr (next?_of_silent h hcut hr)]
        exact hnth n
    | true =>
      obtain ⟨g, hgives, hplace, hnext⟩ := next?_of_sounds h hcut hr
      refine ⟨g :: given, ?_, fun n => ?_⟩
      · rw [GivesAll, starts, List.filter_cons_of_pos (by simpa using hr)]
        exact .cons ⟨hgives, hplace⟩ hgiven
      · cases n with
        | zero => rw [nth?_zero, hnext]; rfl
        | succ n =>
          rw [nth?_succ hnext]
          exact hnth n

/-- The step that gives what comes of a region is the one numbered by the regions ahead that
something comes of. It starts at the first byte of the region and ends behind the last. -/
theorem nth?_of_region {front behind : List Region} {r : Region} (h : s.At file before more)
    (hrs : Splits more (front ++ r :: behind)) (hr : r.sounds = true) :
    ∃ g t, s.nth? (front.countP sounds) = some (some g, t) ∧ r.Gives g ∧
      t.textFrom = (utf8 (before ++ join front)).length ∧
      t.reached = t.textFrom + (utf8 r.text).length ∧ t.text? = some r.text := by
  induction front generalizing s before more with
  | nil =>
    obtain ⟨rest, rfl, hcut, -⟩ := hrs
    obtain ⟨g, hgives, -, hnext⟩ := next?_of_sounds h hcut hr
    have hfrom : s.fresh.textFrom = (utf8 before).length := h.reached
    refine ⟨g, _, hnext, hgives, ?_, ?_, h.text?⟩
    · rw [join, List.flatMap_nil, List.append_nil]
      exact hfrom
    · rw [reached_upTo, ← hfrom]
      rfl
  | cons r' front ih =>
    obtain ⟨rest, rfl, hcut, hrest⟩ := hrs
    obtain ⟨g, t, hnth, hgives, hfrom, hspan⟩ := ih h.behind hrest
    refine ⟨g, t, ?_, hgives, ?_, hspan⟩
    · cases hr' : r'.sounds with
      | false =>
        rw [List.countP_cons_of_neg (by simp [hr']), nth?_congr (next?_of_silent h hcut hr'), hnth]
      | true =>
        obtain ⟨g', -, -, hnext⟩ := next?_of_sounds h hcut hr'
        rw [List.countP_cons_of_pos hr', nth?_succ hnext, hnth]
    · rw [hfrom, List.append_assoc]
      rfl

/-! ## Comments -/

/-- **Comments nest.** Behind the opening of a comment, wherever in a source, the text is read
as strokes in one way. If some of them, counted with the opening, bring the level down to zero,
the skip through the bytes stops right behind the closer that does so for the first time, with
every line end passed counted, the region is a comment of that length, and the scanner goes on
from there. If none do, the skip goes to the end of the source and fails, and the scanner does
so too, with a problem at the opening. -/
theorem comments_nest (file : String) (before more : List Char) :
    let bytes := utf8 (before ++ '/' :: '*' :: more)
    let opening := (utf8 before).length
    let p := Place.ofByte file bytes opening
    let s := (start file (String.ofList (before ++ '/' :: '*' :: more))).upTo opening
    (∀ ss, written ss = more ∧ Leftmost ss ↔ ss = strokes more) ∧
    ((∃ front rest, strokes more = front ++ .closer :: rest ∧ Balances 1 (front ++ [.closer]) ∧
        let text := written (front ++ [.closer])
        let stop := opening + 2 + (utf8 text).length
        Skip.run bytes (.after bytes (opening + 2) 1) = .ok (.after bytes stop 0) ∧
        Region.first '/' ('*' :: more) = (2 + text.length, .comment) ∧
        s.fresh.scanText = some (.ok (), s.fresh.upTo stop) ∧
        s.next? = (s.fresh.upTo stop).next?) ∨
      (∀ front, front <+: strokes more → 0 < level 1 front) ∧
        (∃ depth, Skip.run bytes (.after bytes (opening + 2) 1) =
          .error (.after bytes bytes.length depth)) ∧
        Region.first '/' ('*' :: more) = (2 + more.length, .problem .openComment) ∧
        s.fresh.scanText = some (.error ⟨p, .openComment⟩, s.fresh.upTo bytes.length) ∧
        s.next? = some (some (.error ⟨p, .openComment⟩), s.fresh.upTo bytes.length)) := by
  intro bytes opening p s
  have hbytes : bytes = utf8 before ++ slash :: asterisk :: utf8 more := utf8_append before _
  have hmore : bytes.drop (opening + 2) = utf8 more := by
    rw [hbytes, ← List.drop_drop, List.drop_left]
    rfl
  have hlength : opening + 2 + (utf8 more).length = bytes.length := by
    rw [hbytes, List.length_append, List.length_cons, List.length_cons, Nat.add_assoc,
      Nat.add_comm 2]
  have hsource : s.source = before ++ '/' :: '*' :: more := String.toList_ofList
  have hsbytes : s.bytes = bytes := by
    show (String.ofList _).toUTF8.data.toList = _
    rw [toList_toUTF8, String.toList_ofList]
  have hat : s.At file before ('/' :: '*' :: more) := ⟨rfl, hsource, hsource ▸ hsbytes, rfl⟩
  have hfront (cs : List Char) :
      opening + (utf8 ('/' :: '*' :: cs)).length = opening + 2 + (utf8 cs).length := by
    rw [length_utf8_first (by decide), length_utf8_first (by decide)]
  have hhere : s.here = p := by rw [hat.here, hsbytes]
  have hleftmost := leftmost_strokes more
  have hwritten := written_strokes more
  refine ⟨fun ss => leftmost_iff_strokes, ?_⟩
  rcases balances_or_open 1 (strokes more) with ⟨closing, rest, hss, hbalances⟩ | ⟨hopen, hlevel⟩
  · obtain ⟨front, rfl⟩ := hbalances.closer_last
    refine .inl ⟨front, rest, by rw [hss, List.append_assoc]; rfl, hbalances, ?_⟩
    intro text stop
    rw [hss] at hleftmost hwritten
    have hcut := cut_of_balances hleftmost hbalances
    rw [← hwritten, written_append] at hat
    have hscan := hat.scanText hcut
    have hnext := next?_of_silent hat hcut rfl
    rw [hfront] at hscan hnext
    exact ⟨Skip.run_of_balances (by rw [hwritten, hmore]) hleftmost hbalances,
      hwritten ▸ first_of_balances hleftmost hbalances, hscan, hnext⟩
  · have hcut := cut_of_open hleftmost hopen hlevel
    rw [hwritten] at hcut
    rw [← List.append_nil ('/' :: '*' :: more)] at hat
    have hscan := hat.scanText hcut
    rw [hfront, hlength] at hscan
    have hwrong : s.fresh.scanText =
        some (.error ⟨p, .openComment⟩, s.fresh.upTo bytes.length) := hhere ▸ hscan
    refine .inr ⟨fun front hp => hopen.level_pos hlevel hp, ?_,
      hwritten ▸ first_of_open hleftmost hopen hlevel, hwrong,
      next?_of_error (hat.lt (List.cons_ne_nil _ _)) hwrong⟩
    exact Skip.run_of_open (by rw [hwritten, hmore]) (by omega) hleftmost hopen hlevel

end Scanner

/-! ## The results -/

/-- The results of a source are what comes of its regions, each at the place of its first byte,
and the `finish` behind the last byte. The scanner gives them one at a time. -/
theorem Token.exists_results (file source : String) :
    let bytes := source.toUTF8.data.toList
    ∃ given, GivesAll file bytes 0 (split source.toList) given ∧
      Token.results file source =
        given ++ [.ok ⟨.finish, "", .ofByte file bytes bytes.length⟩] ∧
      ∀ n, ((Scanner.start file source).nth? n).map Prod.fst =
        some ((Token.results file source)[n]?) := by
  intro bytes
  have hbytes : utf8 (join (split source.toList)) = bytes := by
    rw [join_split, ← toList_toUTF8]
  have hall : utf8 (join (split source.toList)) <+: bytes.drop 0 := by
    rw [hbytes]
    exact List.prefix_rfl
  have hend : (Place.start file).past source.toList = .ofByte file bytes bytes.length := by
    have hpast : Place.ofByte file bytes _ = _ := Place.ofByte_past hall
    rw [hbytes, Nat.zero_add, join_split] at hpast
    exact hpast.symm
  have hplaced : placed (Place.start file) (split source.toList) = _ := placed_ofByte file hall
  obtain ⟨given, hgiven, hnth⟩ :=
    Scanner.nth?_of_splits (Scanner.at_start file source) (splits_split source.toList)
  have hresults : Token.results file source =
      given ++ [.ok ⟨.finish, "", .ofByte file bytes bytes.length⟩] := by
    rw [hgiven.unique (givesAll_filterMap file bytes 0 _), Token.results, hplaced, hend,
      List.filterMap_map]
    rfl
  exact ⟨given, hgiven, hresults, fun n => by rw [hresults]; exact hnth n⟩

/-- **A source is read without loss.** Its regions make it up, each of them of one sort and
as long as what stands behind it has it, and it can be cut no other way. The text of a token
is the longest of any token there and says what token it is. The scanner gives one token with
the text of the region, or one problem, for each region that is not a blank or a comment, in
their order, from the first byte of the region to its last; then one `finish`, and nothing from
then on. -/
theorem Token.results_lossless (file source : String) :
    let regions := split source.toList
    let scanner := Scanner.start file source
    join regions = source.toList ∧
    (∀ before r after, regions = before ++ r :: after →
      r.text ≠ [] ∧ Cut r.text (join after) r.piece ∧
      (∀ p, Cut r.text (join after) p → p = r.piece) ∧
      (∀ kind, r.piece = .token kind →
        (∀ kind', Lexeme r.text kind' ↔ kind' = kind) ∧
        ∀ front kind', front <+: r.text ++ join after → Lexeme front kind' →
          front.length ≤ r.text.length) ∧
      (r.sounds = true → ∃ g s, scanner.nth? (before.countP sounds) = some (some g, s) ∧
        r.Gives g ∧ s.textFrom = (utf8 (join before)).length ∧
        s.reached = s.textFrom + (utf8 r.text).length ∧ s.text? = some r.text)) ∧
    (∀ rs, Splits source.toList rs ↔ rs = regions) ∧
    ∃ given finish, List.Forall₂ Gives (regions.filter sounds) given ∧
      (∀ t, .ok t ∈ given → t.isFinish = false) ∧ finish.kind = .finish ∧
      Token.results file source = given ++ [.ok finish] ∧
      ∀ n, (scanner.nth? n).map Prod.fst = some ((given ++ [.ok finish])[n]?) := by
  intro regions scanner
  have hsplits : Splits source.toList regions := splits_split _
  have hcut {before r after} (h : regions = before ++ r :: after) :
      Cut r.text (join after) r.piece := by
    rw [h] at hsplits
    exact hsplits.cut
  obtain ⟨given, hgiven, hresults, hnth⟩ := Token.exists_results file source
  refine ⟨join_split _, fun before r after h => ?_, fun rs => eq_split_iff, given, _,
    hgiven.gives, fun t ht => ?_, rfl, hresults, fun n => hresults ▸ hnth n⟩
  · have hr := hcut h
    refine ⟨hr.ne_nil, hr, fun p hp => hp.unique hr, fun kind hk => ?_, fun hsounds => ?_⟩
    · rw [hk] at hr
      refine ⟨fun kind' => ⟨fun h' => h'.unique hr.lexeme, ?_⟩, fun _ _ hp hf => hr.longest hf hp⟩
      rintro rfl
      exact hr.lexeme
    · exact Scanner.nth?_of_region (Scanner.at_start file source) (h ▸ hsplits) hsounds
  · have hplaced : given ++ _ = (placed (Place.start file) regions).filterMap result? ++ _ :=
      hresults.symm
    rw [(List.append_inj' hplaced rfl).1] at ht
    refine isFinish_of_mem_placed (fun r hr hfinish => ?_) ht
    obtain ⟨before, after, h⟩ := List.append_of_mem hr
    have hr' := hcut h
    rw [hfinish] at hr'
    exact hr'.lexeme.ne_finish rfl

/-- **Positions are right.** The bytes of each region are those of the source from where it
starts on. What the scanner gives for it, a token or a problem, has the place of the first of
them, and the `finish` has the place behind the last byte. -/
theorem Token.results_positions (file source : String) :
    let bytes := source.toUTF8.data.toList
    let regions := starts 0 (split source.toList)
    (∀ n r, (n, r) ∈ regions → utf8 r.text <+: bytes.drop n) ∧
    ∃ given,
      List.Forall₂ (fun r g => r.2.Gives g ∧ Token.resultPlace g = .ofByte file bytes r.1)
        (regions.filter fun r => r.2.sounds) given ∧
      Token.results file source =
        given ++ [.ok ⟨.finish, "", .ofByte file bytes bytes.length⟩] ∧
      ∀ n, ((Scanner.start file source).nth? n).map Prod.fst =
        some ((Token.results file source)[n]?) := by
  intro bytes regions
  have hall : utf8 (join (split source.toList)) <+: bytes.drop 0 := by
    rw [join_split, ← toList_toUTF8]
    exact List.prefix_rfl
  exact ⟨fun n r hr => prefix_of_mem_starts hall hr, Token.exists_results file source⟩

/-- The string goes on over a line end. On the second line the word stands behind five
characters of eight bytes. -/
example : (Token.results "test.lox" "\"é\n\" ≠é x").filterMap (fun r => match r with
      | .ok t => some (t.place.line, t.place.column)
      | .error p => some (p.place.line, p.place.column)) =
    [(1, 1), (2, 3), (2, 6), (2, 9), (2, 10)] := by decide +kernel

end LoxLang
