import LoxLang.Proofs.Token.Lexeme
import LoxLang.Proofs.Token.Skipping

/-!
# Bytes and regions

A scanner that stands at the first byte of a region passes the bytes of that region, comes to
what the region is, and has counted every line that ends in it, whether it went on byte by byte
or jumped (`Scanner.scanText_upTo`).
-/

namespace LoxLang

open Region

/-! ## Cutting between bytes -/

theorem length_utf8_cons (c : Char) (cs : List Char) :
    (utf8 (c :: cs)).length = c.utf8Size + (utf8 cs).length := by
  rw [utf8_cons, List.length_append, String.length_utf8EncodeChar]

theorem dropBytes?_cons {c : Char} {n : Nat} (h : c.utf8Size ≤ n) (cs : List Char) :
    dropBytes? (c :: cs) n = dropBytes? cs (n - c.utf8Size) := by
  have hc := c.utf8Size_pos
  obtain ⟨n, rfl⟩ := Nat.exists_eq_succ_of_ne_zero (Nat.ne_of_gt (Nat.lt_of_lt_of_le hc h))
  exact if_pos h

theorem takeBytes?_cons {c : Char} {n : Nat} (h : c.utf8Size ≤ n) (cs : List Char) :
    takeBytes? (c :: cs) n = (takeBytes? cs (n - c.utf8Size)).map (c :: ·) := by
  have hc := c.utf8Size_pos
  obtain ⟨n, rfl⟩ := Nat.exists_eq_succ_of_ne_zero (Nat.ne_of_gt (Nat.lt_of_lt_of_le hc h))
  exact if_pos h

theorem dropBytes?_utf8 (cs ds : List Char) : dropBytes? (cs ++ ds) (utf8 cs).length = some ds := by
  induction cs with
  | nil => simp [utf8, dropBytes?]
  | cons c cs ih =>
    rw [length_utf8_cons, List.cons_append, dropBytes?_cons (Nat.le_add_right _ _),
      Nat.add_sub_cancel_left, ih]

theorem takeBytes?_utf8 (cs ds : List Char) : takeBytes? (cs ++ ds) (utf8 cs).length = some cs := by
  induction cs with
  | nil => simp [utf8, takeBytes?]
  | cons c cs ih =>
    rw [length_utf8_cons, List.cons_append, takeBytes?_cons (Nat.le_add_right _ _),
      Nat.add_sub_cancel_left, ih, Option.map_some]

/-- Between the bytes ahead of a text and those behind it the text is cut out. -/
theorem slice?_utf8 (cs ds es : List Char) :
    slice? (cs ++ (ds ++ es)) (utf8 cs).length ((utf8 cs).length + (utf8 ds).length) = some ds := by
  rw [slice?, if_pos (Nat.le_add_right _ _), dropBytes?_utf8, Option.bind_eq_bind,
    Option.bind_some, Nat.add_sub_cancel_left, takeBytes?_utf8]

/-! ## Bytes as characters -/

theorem toNat_letter (b : UInt8) : (letter b).toNat = b.toNat := by
  have hb : b.toNat.isValidChar := .inl (Nat.lt_trans b.toNat_lt (by decide))
  rw [letter, Char.ofNat, dif_pos hb]
  rfl

theorem letter_ofNat {c : Char} (hc : c.toNat < 128) : letter (UInt8.ofNat c.toNat) = c := by
  apply Char.ext
  apply UInt32.toNat_inj.1
  have h := toNat_letter (UInt8.ofNat c.toNat)
  rwa [UInt8.toNat_ofNat_of_lt' (Nat.lt_trans hc (by decide))] at h

theorem ofNat_letter (b : UInt8) : UInt8.ofNat (letter b).toNat = b := by
  rw [toNat_letter, UInt8.ofNat_toNat]

/-- A byte that is an ASCII character on its own is in no other character. -/
theorem eq_letter_of_mem {c : Char} {b : UInt8} (hb : b ∈ String.utf8EncodeChar c)
    (h : (letter b).toNat < 128) : c = letter b := by
  rw [← ofNat_letter b] at hb
  exact (ofNat_mem_utf8EncodeChar_iff h c).1 hb

/-- Where only ASCII characters count, bytes go on as long as characters do. -/
theorem takeWhile_utf8 {p : Char → Bool} (hp : ∀ c, p c = true → c.toNat < 128)
    (cs : List Char) : (utf8 cs).takeWhile (fun b => p (letter b)) = utf8 (cs.takeWhile p) := by
  induction cs with
  | nil => rfl
  | cons c cs ih =>
    by_cases hc : p c = true
    · have hlt := hp c hc
      rw [utf8_cons_of_lt hlt, List.takeWhile_cons, letter_ofNat hlt, if_pos hc, ih,
        List.takeWhile_cons, if_pos hc, utf8_cons_of_lt hlt]
    · obtain ⟨b, bs, hbs, hmem, -⟩ := exists_first_byte c cs
      have hb : ¬ p (letter b) = true := fun h => hc (eq_letter_of_mem hmem (hp _ h) ▸ h)
      rw [hbs, List.takeWhile_cons, if_neg hb, List.takeWhile_cons, if_neg hc]
      rfl

namespace Scanner

/-! ## Standing at a byte -/

/-- The scanner moved to the byte `n`, with all lines counted that end ahead of it. -/
def upTo (s : Scanner) (n : Nat) : Scanner := s.behind (.after s.bytes n 0)

/-- The scanner is to scan a text: so much of its source is before it, and the rest ahead. -/
structure Faces (s : Scanner) (before ahead : List Char) : Prop where
  source : s.source = before ++ ahead
  bytes : s.bytes = utf8 s.source
  textFrom : s.textFrom = (utf8 before).length

variable {s : Scanner} {n : Nat} {before ahead cs ds : List Char} {bs : List UInt8}

@[simp] theorem bytes_upTo (s : Scanner) (n : Nat) : (s.upTo n).bytes = s.bytes := rfl

@[simp] theorem reached_upTo (s : Scanner) (n : Nat) : (s.upTo n).reached = n := rfl

/-- The place of a byte is counted from the counters. -/
theorem here_upTo (s : Scanner) (n : Nat) : (s.upTo n).here = .ofByte s.file s.bytes n := by
  have hcolumn : n - lineStart s.bytes n + 1 = 1 + (n - lineStart s.bytes n) := Nat.add_comm _ 1
  exact congrArg (Place.mk s.file _) hcolumn

theorem newline_upTo (h : s.bytes[n]? = some lineFeed) :
    (s.upTo n).step.newline = s.upTo (n + 1) :=
  congrArg s.behind (Skip.after_newline h 0).symm

/-- Bytes that end no line change no counter but the one of bytes. -/
theorem reach_upTo (h : bs <+: s.bytes.drop n) (hb : lineFeed ∉ bs) :
    { s.upTo n with reached := n + bs.length } = s.upTo (n + bs.length) :=
  congrArg s.behind (Skip.after_add h hb 0).symm

theorem step_upTo {b : UInt8} (h : s.bytes[n]? = some b) (hb : b ≠ lineFeed) :
    (s.upTo n).step = s.upTo (n + 1) := by
  have hfront : [b] <+: s.bytes.drop n := by
    obtain ⟨hlt, rfl⟩ := List.getElem?_eq_some_iff.1 h
    rw [List.drop_eq_getElem_cons hlt]
    exact ⟨_, rfl⟩
  exact reach_upTo hfront (by simpa using hb.symm)

theorem lineFeed_not_mem_utf8 (h : '\n' ∉ cs) : lineFeed ∉ utf8 cs := by
  simpa [utf8, lineFeed_mem_iff] using h

theorem Faces.drop (h : s.Faces before (cs ++ ds)) :
    s.bytes.drop ((utf8 before).length + (utf8 cs).length) = utf8 ds := by
  rw [h.bytes, h.source, ← List.append_assoc, utf8_append, ← List.length_append, ← utf8_append,
    List.drop_left]

theorem Faces.drop_zero (h : s.Faces before ahead) :
    s.bytes.drop (utf8 before).length = utf8 ahead := by
  have h' : s.Faces before ([] ++ ahead) := h
  simpa [utf8] using h'.drop

/-- The text that has been passed is cut out, whatever the characters are. -/
theorem Faces.text? (h : s.Faces before (cs ++ ds)) :
    (s.upTo ((utf8 before).length + (utf8 cs).length)).text? = some cs := by
  show slice? s.source s.textFrom _ = some cs
  rw [h.source, h.textFrom, reached_upTo, slice?_utf8]

/-! ## Loops and jumps -/

/-- Passing ASCII characters, none of which ends a line. -/
theorem passWhile_upTo {p : Char → Bool} (hp : ∀ c, p c = true → c.toNat < 128)
    (hn : p '\n' = false) (h : s.bytes.drop n = utf8 cs) :
    (s.upTo n).passWhile p = s.upTo (n + (utf8 (cs.takeWhile p)).length) := by
  have hfront : utf8 (cs.takeWhile p) <+: s.bytes.drop n := by
    rw [h, ← takeWhile_utf8 hp]
    exact List.takeWhile_prefix _
  have hline : '\n' ∉ cs.takeWhile p := fun hmem => by
    simp [mem_of_mem_takeWhile hmem] at hn
  rw [← reach_upTo hfront (lineFeed_not_mem_utf8 hline)]
  unfold passWhile
  rw [bytes_upTo, reached_upTo, h, takeWhile_utf8 hp]
  rfl

/-- The jump to the end of the line stops ahead of it, or at the end of the source. -/
theorem passLine_upTo (h : s.bytes.drop n = utf8 cs) (hn : n ≤ s.bytes.length) :
    (s.upTo n).passLine = s.upTo (n + (utf8 (cs.takeWhile (· != '\n'))).length) := by
  have hline : '\n' ∉ cs.takeWhile (· != '\n') := fun hmem => by
    simpa using mem_of_mem_takeWhile hmem
  have hcs := List.takeWhile_append_dropWhile (p := (· != '\n')) (l := cs)
  have hstop := stops_dropWhile (· != '\n') cs
  generalize cs.takeWhile (· != '\n') = ds at hline hcs ⊢
  generalize cs.dropWhile (· != '\n') = es at hcs hstop
  rw [← hcs, utf8_append] at h
  have hfeed := lineFeed_not_mem_utf8 hline
  have hnone : (utf8 ds).findIdx? (· == lineFeed) = none :=
    List.findIdx?_eq_none_iff.2 fun b hb => by
      rw [beq_eq_false_iff_ne]
      rintro rfl
      exact hfeed hb
  rw [← reach_upTo (h ▸ List.prefix_append _ _) hfeed]
  unfold passLine
  rw [bytes_upTo, reached_upTo, h, List.findIdx?_append, hnone, Option.none_or]
  cases es with
  | nil =>
    have hlength := congrArg List.length h
    rw [List.length_drop, utf8, utf8, List.flatMap_nil, List.append_nil] at hlength
    have hend : s.bytes.length = n + (utf8 ds).length := by
      rw [utf8]
      omega
    simp [utf8, hend]
  | cons c es =>
    obtain rfl : c = '\n' := by simpa using hstop c rfl
    have hfirst : utf8 ('\n' :: es) = lineFeed :: utf8 es := utf8_cons_of_lt (by decide) es
    simp [hfirst, List.findIdx?_cons]

theorem passContent_run {more : List UInt8} (hbs : ∀ b ∈ bs, b ≠ quote ∧ b ≠ lineFeed)
    (s : Scanner) :
    passContent (bs ++ more) s = passContent more { s with reached := s.reached + bs.length } := by
  induction bs generalizing s with
  | nil => rfl
  | cons b bs ih =>
    obtain ⟨⟨hq, hn⟩, hbs⟩ := List.forall_mem_cons.1 hbs
    rw [List.cons_append, passContent, if_neg hq, if_neg hn, ih hbs]
    simp only [step, List.length_cons, Nat.add_assoc, Nat.add_comm 1]

/-- Every line that ends in a string is counted. -/
theorem passContent_upTo (h : s.bytes.drop n = utf8 cs) :
    passContent (utf8 cs) (s.upTo n) =
      s.upTo (n + (utf8 (cs.takeWhile (· != '"'))).length) := by
  induction cs generalizing n with
  | nil => rfl
  | cons c cs ih =>
    rw [utf8_cons] at h
    have hfront : String.utf8EncodeChar c <+: s.bytes.drop n := h ▸ List.prefix_append _ _
    have hrest : s.bytes.drop (n + (String.utf8EncodeChar c).length) = utf8 cs := by
      rw [← List.drop_drop, h, List.drop_left]
    rw [List.takeWhile_cons]
    by_cases hq : c = '"'
    · subst hq
      have hfirst : utf8 ('"' :: cs) = quote :: utf8 cs := utf8_cons_of_lt (by decide) cs
      rw [hfirst, passContent, if_pos rfl]
      simp [utf8]
    · have hlength : n + (utf8 (c :: cs.takeWhile (· != '"'))).length =
          n + (String.utf8EncodeChar c).length + (utf8 (cs.takeWhile (· != '"'))).length := by
        rw [length_utf8_cons, String.length_utf8EncodeChar, Nat.add_assoc]
      rw [if_pos (by simpa using hq), hlength, ← ih hrest]
      by_cases hn : c = '\n'
      · subst hn
        have hfirst : utf8 ('\n' :: cs) = lineFeed :: utf8 cs := utf8_cons_of_lt (by decide) cs
        rw [hfirst, passContent, if_neg (by decide), if_pos rfl,
          newline_upTo (getElem?_of_prefix_drop hfront)]
        rfl
      · have hquote := ne_of_mem_utf8EncodeChar (a := '"') (by decide) hq
        have hline := ne_of_mem_utf8EncodeChar (a := '\n') (by decide) hn
        have hfeed : lineFeed ∉ String.utf8EncodeChar c := (lineFeed_mem_iff c).not.2 hn
        rw [utf8_cons, passContent_run fun b hb => ⟨hquote b hb, hline b hb⟩, reached_upTo,
          reach_upTo hfront hfeed]

/-! ## Texts -/

/-- How the scan of a region ends. -/
def ended (s : Scanner) : Piece → Scanned
  | .blank | .comment => s.passed
  | .token kind => s.found kind
  | .problem cause => s.wrong cause

/-- The scan of the text ahead comes to its end behind a region of this length and piece. -/
def Reads (s : Scanner) (before ahead : List Char) (scanned : Option Scanned)
    (r : Nat × Piece) : Prop :=
  ∃ text more, ahead = text ++ more ∧ r.1 = text.length ∧
    scanned = some ((s.upTo ((utf8 before).length + (utf8 text).length)).ended r.2)

variable {c : Char} {rest : List Char}

/-- An ASCII character ahead is a byte, with the other characters behind it. -/
theorem behind_first {a : Char} (ha : a.toNat < 128) (h : s.bytes.drop n = utf8 (a :: cs)) :
    s.bytes[n]? = some (UInt8.ofNat a.toNat) ∧ s.bytes.drop (n + 1) = utf8 cs ∧
      n + 1 ≤ s.bytes.length := by
  rw [utf8_cons_of_lt ha] at h
  have hbyte : s.bytes[n]? = some (UInt8.ofNat a.toNat) := by
    rw [← List.head?_drop, h, List.head?_cons]
  obtain ⟨hlt, -⟩ := List.getElem?_eq_some_iff.1 hbyte
  exact ⟨hbyte, by rw [← List.drop_drop, h, List.drop_one, List.tail_cons], hlt⟩

/-- A character that is looked for and comes is passed. -/
theorem pass?_of_cons {a : Char} (ha : a.toNat < 128) (hn : a ≠ '\n')
    (h : s.bytes.drop n = utf8 (a :: cs)) :
    (s.upTo n).pass? (UInt8.ofNat a.toNat) = some (s.upTo (n + 1)) := by
  obtain ⟨hbyte, -⟩ := behind_first ha h
  have hline : UInt8.ofNat a.toNat ≠ lineFeed := fun he => by
    have hmem : lineFeed ∈ String.utf8EncodeChar a := by
      rw [utf8EncodeChar_of_lt ha, he]
      exact List.mem_cons_self
    exact hn ((lineFeed_mem_iff a).1 hmem)
  rw [pass?, bytes_upTo, reached_upTo, if_pos hbyte, step_upTo hbyte hline]

theorem pass?_of_ne {a : Char} (ha : a.toNat < 128) (hne : cs.head? ≠ some a)
    (h : s.bytes.drop n = utf8 cs) : (s.upTo n).pass? (UInt8.ofNat a.toNat) = none := by
  have hbyte : ¬ s.bytes[n]? = some (UInt8.ofNat a.toNat) := by
    rwa [Skip.getElem?_utf8_iff ha h, ← List.head?_eq_some_iff]
  rw [pass?, bytes_upTo, reached_upTo, if_neg hbyte]

theorem length_utf8_first (hc : c.toNat < 128) (n : Nat) (cs : List Char) :
    n + (utf8 (c :: cs)).length = n + 1 + (utf8 cs).length := by
  rw [utf8_cons_of_lt hc, List.length_cons, Nat.add_right_comm, Nat.add_assoc]

/-- A text of one ASCII character. -/
theorem reads_single (hc : c.toNat < 128) {p : Piece} :
    s.Reads before (c :: rest) (some ((s.upTo ((utf8 before).length + 1)).ended p)) (1, p) :=
  ⟨[c], rest, rfl, rfl, by rw [length_utf8_first hc]; rfl⟩

theorem reads_withEqual (hc : c.toNat < 128)
    (h : s.bytes.drop ((utf8 before).length + 1) = utf8 rest) (joined single : Mark) :
    s.Reads before (c :: rest)
      (some ((s.upTo ((utf8 before).length + 1)).scanWithEqual joined single))
      (firstWithEqual rest joined single) := by
  unfold scanWithEqual firstWithEqual
  by_cases hhead : rest.head? = some '='
  · obtain ⟨more, rfl⟩ := List.head?_eq_some_iff.1 hhead
    have hpass := pass?_of_cons (a := '=') (by decide) (by decide) h
    refine ⟨[c, '='], more, rfl, by rw [if_pos hhead]; rfl, ?_⟩
    rw [show equals = UInt8.ofNat '='.toNat from rfl, hpass, if_pos hhead, length_utf8_first hc]
    rfl
  · rw [show equals = UInt8.ofNat '='.toNat from rfl, pass?_of_ne (by decide) hhead h,
      if_neg hhead]
    exact reads_single hc

/-- Behind two slashes the scanner jumps to the end of the line. -/
theorem reads_lineComment {more : List Char}
    (h : s.bytes.drop ((utf8 before).length + 1) = utf8 ('/' :: more)) :
    s.Reads before ('/' :: '/' :: more) (some (s.upTo ((utf8 before).length + 1)).scanSlash)
      (firstSlash ('/' :: more)) := by
  obtain ⟨-, hmore, hle⟩ := behind_first (by decide) h
  have hpass : (s.upTo ((utf8 before).length + 1)).pass? slash = _ :=
    pass?_of_cons (a := '/') (by decide) (by decide) h
  have hcut := List.takeWhile_append_dropWhile (p := (· != '\n')) (l := more)
  refine ⟨'/' :: '/' :: more.takeWhile (· != '\n'), more.dropWhile (· != '\n'), ?_, ?_, ?_⟩
  · rw [List.cons_append, List.cons_append, hcut]
  · exact Nat.add_comm _ _
  · rw [scanSlash, hpass, length_utf8_first (by decide), length_utf8_first (by decide)]
    exact congrArg (fun t => some (passed t)) (passLine_upTo hmore hle)

/-- A comment is passed up to where the skip through it stops. -/
theorem passComment_of_ok {m d : Nat}
    (h : Skip.run s.bytes (.after s.bytes n 1) = .ok (.after s.bytes m d)) :
    (s.upTo n).passComment = (s.upTo m).passed := by
  have hrun : Skip.run (s.upTo n).bytes
      ⟨(s.upTo n).reached, (s.upTo n).line, (s.upTo n).lineFrom, 1⟩ = _ := h
  rw [passComment, hrun]
  rfl

theorem passComment_of_error {m d : Nat}
    (h : Skip.run s.bytes (.after s.bytes n 1) = .error (.after s.bytes m d)) :
    (s.upTo n).passComment = (s.upTo m).wrong .openComment := by
  have hrun : Skip.run (s.upTo n).bytes
      ⟨(s.upTo n).reached, (s.upTo n).line, (s.upTo n).lineFrom, 1⟩ = _ := h
  rw [passComment, hrun]
  rfl

/-- Behind a slash and an asterisk the scanner goes on as the skip of a comment does. -/
theorem reads_blockComment {more : List Char}
    (h : s.bytes.drop ((utf8 before).length + 1) = utf8 ('*' :: more)) :
    s.Reads before ('/' :: '*' :: more) (some (s.upTo ((utf8 before).length + 1)).scanSlash)
      (firstSlash ('*' :: more)) := by
  obtain ⟨-, hmore, hle⟩ := behind_first (by decide) h
  have hline : (s.upTo ((utf8 before).length + 1)).pass? slash = none :=
    pass?_of_ne (a := '/') (by decide) (by simp) h
  have hpass : (s.upTo ((utf8 before).length + 1)).pass? asterisk = _ :=
    pass?_of_cons (a := '*') (by decide) (by decide) h
  have hlength (cs : List Char) : (utf8 before).length + (utf8 ('/' :: '*' :: cs)).length =
      (utf8 before).length + 1 + 1 + (utf8 cs).length := by
    rw [length_utf8_first (by decide), length_utf8_first (by decide)]
  rcases Skip.run_comment hmore hle with ⟨k, hk, hskip⟩ | ⟨hnone, d, hskip⟩
  · obtain ⟨hkl, -⟩ := closes_of_closingLength? hk
    refine ⟨'/' :: '*' :: more.take k, more.drop k, ?_, ?_, ?_⟩
    · rw [List.cons_append, List.cons_append, List.take_append_drop]
    · simp only [firstSlash, hk, List.length_cons, List.length_take, Nat.min_eq_left hkl]
      omega
    · simp only [scanSlash, hline, hpass, hlength, firstSlash, hk, passComment_of_ok hskip]
      rfl
  · have hend : (utf8 before).length + 1 + 1 + (utf8 more).length = s.bytes.length := by
      have hmoreLength := congrArg List.length hmore
      rw [List.length_drop] at hmoreLength
      omega
    refine ⟨'/' :: '*' :: more, [], by simp, ?_, ?_⟩
    · simp only [firstSlash, hnone, List.length_cons]
      omega
    · simp only [scanSlash, hline, hpass, hlength, hend, firstSlash, hnone,
        passComment_of_error hskip]
      rfl

theorem reads_slash (h : s.bytes.drop ((utf8 before).length + 1) = utf8 rest) :
    s.Reads before ('/' :: rest) (some (s.upTo ((utf8 before).length + 1)).scanSlash)
      (firstSlash rest) := by
  by_cases hline : rest.head? = some '/'
  · obtain ⟨more, rfl⟩ := List.head?_eq_some_iff.1 hline
    exact reads_lineComment h
  by_cases hblock : rest.head? = some '*'
  · obtain ⟨more, rfl⟩ := List.head?_eq_some_iff.1 hblock
    exact reads_blockComment h
  have hslash : (s.upTo ((utf8 before).length + 1)).pass? slash = none :=
    pass?_of_ne (a := '/') (by decide) hline h
  have hasterisk : (s.upTo ((utf8 before).length + 1)).pass? asterisk = none :=
    pass?_of_ne (a := '*') (by decide) hblock h
  rw [firstSlash_mark hline hblock, scanSlash, hslash, hasterisk]
  exact reads_single (by decide)

theorem Faces.reads_string (h : s.Faces before ('"' :: rest)) :
    s.Reads before ('"' :: rest) (s.upTo ((utf8 before).length + 1)).scanString
      (firstString rest) := by
  obtain ⟨-, hdrop, -⟩ := behind_first (by decide) h.drop_zero
  have hcut := List.takeWhile_append_dropWhile (p := (· != '"')) (l := rest)
  have hstop := stops_dropWhile (· != '"') rest
  have hcontent := passContent_upTo hdrop
  unfold scanString firstString
  dsimp only
  rw [bytes_upTo, reached_upTo, hdrop, hcontent]
  generalize rest.takeWhile (· != '"') = content at hcut hcontent ⊢
  generalize rest.dropWhile (· != '"') = behind at hcut hstop
  subst hcut
  have hbehind : s.bytes.drop ((utf8 before).length + 1 + (utf8 content).length) = utf8 behind := by
    rw [← List.drop_drop, hdrop, utf8_append, List.drop_left]
  cases behind with
  | nil =>
    have hnone : s.bytes[(utf8 before).length + 1 + (utf8 content).length]? = none := by
      rw [← List.head?_drop, hbehind]
      rfl
    refine ⟨'"' :: content, [], by simp, by simp, ?_⟩
    rw [length_utf8_first (by decide), advance?, bytes_upTo, reached_upTo, hnone]
    simp [ended]
  | cons d behind =>
    obtain rfl : d = '"' := by simpa using hstop d rfl
    obtain ⟨hbyte, -⟩ := behind_first (by decide) hbehind
    have hslice : slice? s.source (s.textFrom + 1)
        ((utf8 before).length + 1 + (utf8 content).length) = some content := by
      have hsource : s.source = (before ++ ['"']) ++ (content ++ '"' :: behind) := by
        rw [h.source]
        simp
      have hlength : (utf8 (before ++ ['"'])).length = (utf8 before).length + 1 := by
        rw [utf8_append, List.length_append]
        rfl
      rw [hsource, h.textFrom, ← hlength, slice?_utf8]
    have hend : (utf8 before).length + (utf8 ('"' :: (content ++ ['"']))).length =
        (utf8 before).length + 1 + (utf8 content).length + 1 := by
      rw [length_utf8_first (by decide), utf8_append, List.length_append, ← Nat.add_assoc]
      rfl
    refine ⟨'"' :: (content ++ ['"']), behind, by simp, by simp, ?_⟩
    have hclosed : content.length < (content ++ '"' :: behind).length := by simp
    rw [hend, if_pos hclosed, advance?, bytes_upTo, reached_upTo, hbyte, Option.map_some,
      step_upTo hbyte (by decide)]
    dsimp only
    rw [reached_upTo, Nat.add_sub_cancel]
    show (slice? s.source (s.textFrom + 1) _).bind _ = _
    rw [hslice]
    rfl

/-- Such ASCII characters are passed together with the first one. -/
theorem Faces.passWhile_first {p : Char → Bool} (hp : ∀ c, p c = true → c.toNat < 128)
    (hn : p '\n' = false) (hc : c.toNat < 128) {run behind : List Char}
    (h : s.Faces before (c :: run ++ behind)) (hrun : ∀ d ∈ run, p d) (hstop : Stops p behind) :
    (s.upTo ((utf8 before).length + 1)).passWhile p =
      s.upTo ((utf8 before).length + (utf8 (c :: run)).length) := by
  have hdrop : s.bytes.drop ((utf8 before).length + 1) = utf8 (run ++ behind) :=
    (behind_first hc h.drop_zero).2.1
  rw [passWhile_upTo hp hn hdrop, takeWhile_append_of_stops hrun hstop, length_utf8_first hc]

/-! ### Numbers -/

theorem toNat_lt_of_isDigit {c : Char} (h : c.isDigit = true) : c.toNat < 128 := by
  have hle : c.val ≤ '9'.val := by
    simp only [Char.isDigit, Bool.and_eq_true, decide_eq_true_eq] at h
    exact h.2
  exact Nat.lt_of_le_of_lt (UInt32.le_iff_toNat_le.1 hle) (by decide)

theorem numeral_whole {ds : List Char} (h : ∀ d ∈ ds, d.isDigit) :
    numeral ds = numberKind ds [] := by
  have htake := takeWhile_append_of_stops h (stops_nil _)
  have hdrop := dropWhile_append_of_stops h (stops_nil _)
  rw [List.append_nil] at htake hdrop
  rw [numeral, htake, hdrop, List.drop_nil]

theorem numeral_decimal {ds es : List Char} (h : ∀ d ∈ ds, d.isDigit) :
    numeral (ds ++ '.' :: es) = numberKind ds es := by
  rw [numeral, takeWhile_append_of_stops h (stops_point es),
    dropWhile_append_of_stops h (stops_point es), List.drop_one, List.tail_cons]

/-- A look at the next byte tells whether the next character is such an ASCII character. -/
theorem peek_upTo {p : Char → Bool} (hp : ∀ c, p c = true → c.toNat < 128)
    (hend : p (letter 0) = false) (h : s.bytes.drop n = utf8 cs) :
    p (letter (s.upTo n).peek) = cs.head?.any p := by
  have hbyte : (s.upTo n).peek = (utf8 cs).head?.getD 0 := by
    rw [peek, bytes_upTo, reached_upTo, ← List.head?_drop, h]
  rw [hbyte]
  cases cs with
  | nil => exact hend
  | cons c cs =>
    obtain ⟨b, bs, hbs, hmem, hb⟩ := exists_first_byte c cs
    rw [hbs, List.head?_cons, List.head?_cons, Option.getD_some, Option.any_some]
    by_cases hletter : p (letter b) = true
    · rw [eq_letter_of_mem hmem (hp _ hletter)]
    · by_cases hc : p c = true
      · rw [hb (hp c hc), letter_ofNat (hp c hc)]
      · rw [Bool.eq_false_iff.2 hletter, Bool.eq_false_iff.2 hc]

/-- Behind the digits of a number and a point there have to be digits again. -/
theorem Faces.reads_fraction {ws more : List Char} (hws : IsNumeral (c :: ws))
    (h : s.Faces before (c :: ws ++ '.' :: more)) :
    s.Reads before (c :: ws ++ '.' :: more) (s.upTo ((utf8 before).length + 1)).scanNumber
      (firstNumber c (ws ++ '.' :: more)) := by
  have hc : c.isDigit := hws.2 c List.mem_cons_self
  have hdigits : ∀ d ∈ ws, d.isDigit := fun d hd => hws.2 d (List.mem_cons_of_mem _ hd)
  have hmore := (behind_first (by decide) h.drop).2.1
  have hwhole := h.passWhile_first (p := Char.isDigit) (fun _ => toNat_lt_of_isDigit) rfl
    (toNat_lt_of_isDigit hc) hdigits (stops_point more)
  have hdot : (s.upTo ((utf8 before).length + (utf8 (c :: ws)).length)).pass? point = _ :=
    pass?_of_cons (a := '.') (by decide) (by decide) h.drop
  have hpeek := peek_upTo (p := Char.isDigit) (fun _ => toNat_lt_of_isDigit) rfl hmore
  have hfraction := passWhile_upTo (p := Char.isDigit) (fun _ => toNat_lt_of_isDigit) rfl hmore
  have hcut := List.takeWhile_append_dropWhile (p := Char.isDigit) (l := more)
  have hstop := stops_dropWhile Char.isDigit more
  have hes : ∀ e ∈ more.takeWhile Char.isDigit, e.isDigit := fun _ => mem_of_mem_takeWhile
  simp only [scanNumber, hwhole, hdot, hpeek, hfraction]
  generalize more.takeWhile Char.isDigit = es at hcut hes ⊢
  generalize more.dropWhile Char.isDigit = behind at hcut hstop
  subst hcut
  cases es with
  | nil =>
    have hhead : behind.head?.any Char.isDigit = false := by
      cases behind with
      | nil => rfl
      | cons e behind => exact hstop e rfl
    refine ⟨c :: ws ++ ['.'], behind, by simp, ?_, ?_⟩
    · rw [List.nil_append, firstNumber_missing hws hstop]
      simp
    · rw [List.nil_append, hhead, if_neg nofun, firstNumber_missing hws hstop, utf8_append,
        List.length_append, ← Nat.add_assoc]
      rfl
  | cons e es =>
    have hhead : (e :: es ++ behind).head?.any Char.isDigit = true := hes e List.mem_cons_self
    have hlength : (utf8 before).length + (utf8 (c :: ws)).length + 1 + (utf8 (e :: es)).length =
        (utf8 before).length + (utf8 (c :: ws ++ '.' :: e :: es)).length := by
      rw [utf8_append, List.length_append, ← Nat.add_assoc,
        length_utf8_first (c := '.') (by decide)]
    have htext : c :: ws ++ '.' :: (e :: es ++ behind) =
        (c :: ws ++ '.' :: e :: es) ++ behind := by simp
    have hnumeral : IsNumeral (e :: es) := ⟨nofun, hes⟩
    rw [firstNumber_decimal hws hnumeral hstop, hhead, if_pos rfl, hlength]
    rw [htext] at h ⊢
    refine ⟨_, _, rfl, by simp +arith, ?_⟩
    rw [h.text?, Option.bind_eq_bind, Option.bind_some, numeral_decimal hws.2]
    rfl

theorem Faces.reads_number (h : s.Faces before (c :: rest)) (hc : c.isDigit = true) :
    s.Reads before (c :: rest) (s.upTo ((utf8 before).length + 1)).scanNumber
      (firstNumber c rest) := by
  have hnumeral := isNumeral_run hc rest
  have hcut := List.takeWhile_append_dropWhile (p := Char.isDigit) (l := rest)
  have hstop := stops_dropWhile Char.isDigit rest
  generalize rest.takeWhile Char.isDigit = ws at hnumeral hcut
  generalize rest.dropWhile Char.isDigit = behind at hcut hstop
  subst hcut
  rw [← List.cons_append] at h ⊢
  by_cases hpoint : behind.head? = some '.'
  · obtain ⟨more, rfl⟩ := List.head?_eq_some_iff.1 hpoint
    exact h.reads_fraction hnumeral
  · have hnone : (s.upTo ((utf8 before).length + (utf8 (c :: ws)).length)).pass? point = none :=
      pass?_of_ne (a := '.') (by decide) hpoint h.drop
    have hwhole := h.passWhile_first (p := Char.isDigit) (fun _ => toNat_lt_of_isDigit) rfl
      (toNat_lt_of_isDigit hc) (fun d hd => hnumeral.2 d (List.mem_cons_of_mem _ hd)) hstop
    rw [firstNumber_whole hnumeral hstop hpoint]
    refine ⟨c :: ws, behind, rfl, rfl, ?_⟩
    simp only [scanNumber, hwhole, hnone]
    rw [h.text?, Option.bind_eq_bind, Option.bind_some, numeral_whole hnumeral.2]
    rfl

/-! ### Words and other characters -/

theorem toNat_lt_of_continuesWord {c : Char} (h : continuesWord c = true) : c.toNat < 128 := by
  change (decide (c.val ≥ 'A'.val ∧ c.val ≤ 'Z'.val) || (c.val ≥ 'a'.val && c.val ≤ 'z'.val) ||
    c.isDigit || c == '_') = true at h
  simp only [Bool.or_eq_true, Bool.and_eq_true, decide_eq_true_eq, beq_iff_eq, ge_iff_le,
    UInt32.le_iff_toNat_le] at h
  rcases h with ((h | h) | h) | rfl
  · exact Nat.lt_of_le_of_lt h.2 (by decide)
  · exact Nat.lt_of_le_of_lt h.2 (by decide)
  · exact toNat_lt_of_isDigit h
  · decide

theorem continuesWord_of_beginsWord {c : Char} (h : beginsWord c = true) :
    continuesWord c = true := by
  unfold beginsWord at h
  unfold continuesWord Char.isAlphanum
  revert h
  cases c.isAlpha <;> cases c.isDigit <;> simp

theorem Faces.reads_word (h : s.Faces before (c :: rest)) (hc : beginsWord c = true) :
    s.Reads before (c :: rest) (s.upTo ((utf8 before).length + 1)).scanWord
      (firstWord c rest) := by
  have hlt := toNat_lt_of_continuesWord (continuesWord_of_beginsWord hc)
  have hcut := List.takeWhile_append_dropWhile (p := continuesWord) (l := rest)
  have hstop := stops_dropWhile continuesWord rest
  have hrun : ∀ d ∈ rest.takeWhile continuesWord, continuesWord d := fun _ => mem_of_mem_takeWhile
  unfold firstWord
  dsimp only
  generalize rest.takeWhile continuesWord = run at hcut hrun ⊢
  generalize rest.dropWhile continuesWord = behind at hcut hstop
  subst hcut
  rw [← List.cons_append] at h ⊢
  refine ⟨c :: run, behind, rfl, rfl, ?_⟩
  rw [scanWord, h.passWhile_first (p := continuesWord) (fun _ => toNat_lt_of_continuesWord) rfl hlt
    hrun hstop, h.text?]
  rfl

/-- Of a character that begins no token all bytes are passed. -/
theorem Faces.reads_unexpected (h : s.Faces before (c :: rest)) (hc : c ≠ '\n') {b : UInt8}
    (hstep : (s.upTo (utf8 before).length).step = s.upTo ((utf8 before).length + 1)) :
    s.Reads before (c :: rest) ((s.upTo ((utf8 before).length + 1)).scanUnexpected b)
      (1, .problem (.unexpected c)) := by
  have hahead : dropBytes? s.source s.textFrom = some (c :: rest) := by
    rw [h.source, h.textFrom, dropBytes?_utf8]
  have hfront : utf8 [c] <+: s.bytes.drop (utf8 before).length := by
    have hrest : utf8 (c :: rest) = utf8 [c] ++ utf8 rest := utf8_append [c] rest
    rw [h.drop_zero, hrest]
    exact List.prefix_append _ _
  have hline : lineFeed ∉ utf8 [c] := lineFeed_not_mem_utf8 (by simpa using hc.symm)
  have hlength : s.textFrom + c.utf8Size = (utf8 before).length + (utf8 [c]).length := by
    rw [h.textFrom, length_utf8_cons]
    rfl
  refine ⟨[c], rest, rfl, rfl, ?_⟩
  rw [← reach_upTo hfront hline, ← hstep, ← hlength]
  show (dropBytes? s.source s.textFrom).bind _ = _
  rw [hahead]
  rfl

/-- No token, blank or comment begins with a character that is not ASCII. -/
theorem no_class_of_le {c : Char} (h : 128 ≤ c.toNat) :
    c ≠ '\n' ∧ isGap c = false ∧ single? c = none ∧ withEqual? c = none ∧ c ≠ '/' ∧ c ≠ '"' ∧
      c.isDigit = false ∧ beginsWord c = false := by
  have hne {d : Char} (hd : d.toNat < 128) : c ≠ d := by
    rintro rfl
    omega
  refine ⟨hne (by decide), ?_, ?_, ?_, hne (by decide), hne (by decide), ?_, ?_⟩
  · simp [isGap, hne]
  · unfold single?
    split <;> first | rfl | exact absurd h (by decide)
  · unfold withEqual?
    split <;> first | rfl | exact absurd h (by decide)
  · by_contra hd
    have := toNat_lt_of_isDigit (Bool.not_eq_false _ ▸ hd)
    omega
  · by_contra hw
    have := toNat_lt_of_continuesWord (continuesWord_of_beginsWord (Bool.not_eq_false _ ▸ hw))
    omega

theorem first_of_le (h : 128 ≤ c.toNat) : first c rest = (1, .problem (.unexpected c)) := by
  obtain ⟨-, hgap, hsingle, hjoined, hslash, hquote, hdigit, hword⟩ := no_class_of_le h
  simp [first, hgap, hsingle, hjoined, hslash, hquote, hdigit, hword]

theorem scanBehind_of_le {b : UInt8} (h : 128 ≤ (letter b).toNat) :
    s.scanBehind b = s.scanUnexpected b := by
  obtain ⟨hline, hgap, hsingle, hjoined, hslash, hquote, hdigit, hword⟩ := no_class_of_le h
  simp [scanBehind, hline, hgap, hsingle, hjoined, hslash, hquote, hdigit, hword]

/-- Behind the first byte of a text the scanner goes on as the first region says. -/
theorem Faces.reads_behind (h : s.Faces before (c :: rest)) (hn : c ≠ '\n') (hc : c.toNat < 128)
    (hstep : (s.upTo (utf8 before).length).step = s.upTo ((utf8 before).length + 1)) :
    s.Reads before (c :: rest)
      ((s.upTo ((utf8 before).length + 1)).scanBehind (UInt8.ofNat c.toNat)) (first c rest) := by
  have hdrop := (behind_first hc h.drop_zero).2.1
  unfold scanBehind
  dsimp only
  rw [letter_ofNat hc, if_neg hn]
  split
  next hgap =>
    rw [first_gap hgap]
    exact reads_single hc
  next hgap =>
    split
    next m _ hs =>
      rw [first_single hs]
      exact reads_single hc
    next joined single _ hw =>
      rw [first_withEqual hw]
      exact reads_withEqual hc hdrop joined single
    next hs hw =>
      rw [first, if_neg hgap, hs, hw]
      dsimp only
      split
      next hslash => exact hslash ▸ reads_slash hdrop
      split
      next hquote =>
        subst hquote
        exact h.reads_string
      split
      next hdigit => exact h.reads_number hdigit
      split
      next hword => exact h.reads_word hword
      next => exact h.reads_unexpected hn hstep

/-- The scan of what is ahead ends behind its first region. -/
theorem Faces.reads_text (h : s.Faces before (c :: rest)) :
    s.Reads before (c :: rest) (s.upTo (utf8 before).length).scanText (first c rest) := by
  obtain ⟨b, bs, hbs, hmem, hb⟩ := exists_first_byte c rest
  have hbyte : s.bytes[(utf8 before).length]? = some b := by
    rw [← List.head?_drop, h.drop_zero, hbs, List.head?_cons]
  have hscan : (s.upTo (utf8 before).length).scanText =
      (s.upTo (utf8 before).length).step.scanBehind b := by
    rw [scanText, advance?, bytes_upTo, reached_upTo, hbyte]
    rfl
  rw [hscan]
  by_cases hn : c = '\n'
  · subst hn
    obtain rfl : b = lineFeed := hb (by decide)
    have hline : (s.upTo (utf8 before).length).step.scanBehind lineFeed =
        some (passed (s.upTo (utf8 before).length).step.newline) := rfl
    rw [hline, newline_upTo hbyte]
    exact reads_single (by decide)
  have hfeed : b ≠ lineFeed := by
    rintro rfl
    exact hn ((lineFeed_mem_iff c).1 hmem)
  have hstep := step_upTo hbyte hfeed
  rw [hstep]
  by_cases hc : c.toNat < 128
  · rw [hb hc]
    exact h.reads_behind hn hc hstep
  · have hletter : 128 ≤ (letter b).toNat := by
      by_contra hlt
      exact hc (eq_letter_of_mem hmem (by omega) ▸ by omega)
    rw [first_of_le (Nat.le_of_not_lt hc), scanBehind_of_le hletter]
    exact h.reads_unexpected hn hstep

/-- A text that is a region in front of what is behind it is scanned as that region, up to its
end. -/
theorem scanText_upTo {text more : List Char} {piece : Piece} (h : s.Faces before (text ++ more))
    (hcut : Cut text more piece) :
    (s.upTo (utf8 before).length).scanText =
      some ((s.upTo ((utf8 before).length + (utf8 text).length)).ended piece) := by
  obtain ⟨c, cs, rfl, hfirst⟩ := cut_iff_first.1 hcut
  rw [List.cons_append] at h
  obtain ⟨text', more', happend, hlength, hscan⟩ := h.reads_text
  rw [hfirst] at hlength hscan
  rw [← List.cons_append] at happend
  rw [hscan, (List.append_inj happend hlength).1]

end Scanner

end LoxLang
