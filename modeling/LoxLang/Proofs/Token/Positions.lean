import LoxLang.Token.Scanner
import Mathlib.Tactic.Common

/-!
# Places in bytes

A place is found by going on from one character to the next. `Place.ofByte` finds it in the
bytes of a source: its line by the line ends ahead of it, its column by where the last of them
is. Both come to the same (`Place.ofByte_past`).
-/

namespace LoxLang

/-! ## Lines of bytes -/

def utf8 (cs : List Char) : List UInt8 := cs.flatMap String.utf8EncodeChar

/-- Where the line of the byte at `n` starts: behind the last line end ahead of it, or with the
first byte. -/
def lineStart (bytes : List UInt8) : Nat → Nat
  | 0 => 0
  | n + 1 => if bytes[n]? = some lineFeed then n + 1 else lineStart bytes n

/-- The place of the byte at `n`. -/
def Place.ofByte (file : String) (bytes : List UInt8) (n : Nat) : Place :=
  ⟨file, 1 + (bytes.take n).count lineFeed, 1 + (n - lineStart bytes n)⟩

theorem utf8_append (cs ds : List Char) : utf8 (cs ++ ds) = utf8 cs ++ utf8 ds :=
  List.flatMap_append

theorem utf8_cons (c : Char) (cs : List Char) :
    utf8 (c :: cs) = String.utf8EncodeChar c ++ utf8 cs := List.flatMap_cons

theorem toList_toUTF8 (s : String) : s.toUTF8.data.toList = utf8 s.toList := by
  rw [String.toUTF8_eq_toByteArray, ← String.utf8Encode_toList, List.utf8Encode,
    List.toList_data_toByteArray, utf8]

theorem utf8EncodeChar_of_lt {a : Char} (ha : a.toNat < 128) :
    String.utf8EncodeChar a = [UInt8.ofNat a.toNat] := by
  have hshort : a.toNat ≤ 127 := Nat.le_of_lt_succ ha
  simp [String.utf8EncodeChar, hshort]

/-- The byte of an ASCII character is in no other character. -/
theorem ofNat_mem_utf8EncodeChar_iff {a : Char} (ha : a.toNat < 128) (c : Char) :
    UInt8.ofNat a.toNat ∈ String.utf8EncodeChar c ↔ c = a := by
  have hbyte {n : Nat} (h : n < 256) (he : UInt8.ofNat a.toNat = UInt8.ofNat n) : a.toNat = n := by
    rwa [← UInt8.toNat_inj, UInt8.toNat_ofNat_of_lt' (Nat.lt_trans ha (by decide)),
      UInt8.toNat_ofNat_of_lt' h] at he
  constructor
  · intro h
    -- the bytes of a longer character are not ASCII
    have hne {n : Nat} (hlow : 128 ≤ n) (hhigh : n < 256) : UInt8.ofNat a.toNat ≠ UInt8.ofNat n :=
      fun he => absurd (hbyte hhigh he) (by omega)
    unfold String.utf8EncodeChar at h
    dsimp only at h
    split at h
    next hv =>
      have hval := hbyte (by omega) (List.mem_singleton.1 h)
      exact Char.ext (UInt32.toNat_inj.1 hval.symm)
    next =>
      split at h <;> [skip; split at h] <;>
        simp only [List.mem_cons, List.not_mem_nil, or_false] at h
      · rcases h with h | h <;> exact absurd h (hne (by omega) (by omega))
      · rcases h with h | h | h <;> exact absurd h (hne (by omega) (by omega))
      · rcases h with h | h | h | h <;> exact absurd h (hne (by omega) (by omega))
  · rintro rfl
    rw [utf8EncodeChar_of_lt ha]
    exact List.mem_singleton.2 rfl

theorem ne_of_mem_utf8EncodeChar {a c : Char} (ha : a.toNat < 128) (hc : c ≠ a) :
    ∀ b ∈ String.utf8EncodeChar c, b ≠ UInt8.ofNat a.toNat := by
  rintro b hb rfl
  exact hc ((ofNat_mem_utf8EncodeChar_iff ha c).1 hb)

theorem utf8_cons_of_lt {c : Char} (hc : c.toNat < 128) (cs : List Char) :
    utf8 (c :: cs) = UInt8.ofNat c.toNat :: utf8 cs := by
  rw [utf8_cons, utf8EncodeChar_of_lt hc, List.singleton_append]

/-- The first byte of a text is one of its first character, and all of it if that is ASCII. -/
theorem exists_first_byte (c : Char) (cs : List Char) :
    ∃ b bs, utf8 (c :: cs) = b :: bs ∧ b ∈ String.utf8EncodeChar c ∧
      (c.toNat < 128 → b = UInt8.ofNat c.toNat) := by
  obtain ⟨b, bs, h⟩ := List.exists_cons_of_ne_nil (l := String.utf8EncodeChar c) (by simp)
  refine ⟨b, bs ++ utf8 cs, by rw [utf8_cons, h, List.cons_append], h ▸ List.mem_cons_self,
    fun hc => ?_⟩
  rw [utf8EncodeChar_of_lt hc] at h
  exact (List.cons.inj h).1.symm

/-- No other character has the byte of a line end in it. -/
theorem lineFeed_mem_iff (c : Char) : lineFeed ∈ String.utf8EncodeChar c ↔ c = '\n' :=
  @ofNat_mem_utf8EncodeChar_iff '\n' (by decide) c

/-- A text has as many line ends as its bytes. -/
theorem count_utf8 (cs : List Char) : (utf8 cs).count lineFeed = cs.count '\n' := by
  induction cs with
  | nil => rfl
  | cons c cs ih =>
    rw [utf8_cons, List.count_append, ih, List.count_cons, Nat.add_comm]
    congr 1
    by_cases h : c = '\n'
    · subst h
      rfl
    · rw [if_neg (by simpa using h), List.count_eq_zero]
      exact (lineFeed_mem_iff c).not.2 h

variable {bytes bs more : List UInt8} {n : Nat}

theorem lineStart_le (bytes : List UInt8) : ∀ n, lineStart bytes n ≤ n
  | 0 => Nat.le_refl 0
  | n + 1 => by
    rw [lineStart]
    split
    · exact Nat.le_refl _
    · exact Nat.le_succ_of_le (lineStart_le bytes n)

/-- What stands behind the bytes that the rest begins with. -/
theorem prefix_drop_add (h : bs ++ more <+: bytes.drop n) :
    more <+: bytes.drop (n + bs.length) := by
  obtain ⟨rest, hrest⟩ := h
  rw [← List.drop_drop, ← hrest, List.append_assoc, List.drop_left]
  exact List.prefix_append _ _

theorem getElem?_of_prefix_drop {b : UInt8} (h : b :: bs <+: bytes.drop n) :
    bytes[n]? = some b := by
  obtain ⟨rest, hrest⟩ := h
  rw [← Nat.add_zero n, ← List.getElem?_drop, ← hrest]
  rfl

namespace Place

variable {file : String}

theorem ofByte_newline (h : bytes[n]? = some lineFeed) :
    ofByte file bytes (n + 1) = (ofByte file bytes n).next '\n' := by
  simp [ofByte, next, lineStart, h, List.take_add_one, Nat.add_assoc]

theorem ofByte_succ {b : UInt8} (h : bytes[n]? = some b) (hb : b ≠ lineFeed) :
    ofByte file bytes (n + 1) =
      { ofByte file bytes n with column := (ofByte file bytes n).column + 1 } := by
  have hle := lineStart_le bytes n
  have hcount : List.count lineFeed [b] = 0 := by simpa [List.count_eq_zero] using hb.symm
  simp only [ofByte, lineStart, h, Option.some.injEq, hb, if_false, List.take_add_one,
    Option.toList_some, List.count_append, hcount, Nat.add_zero, mk.injEq, true_and]
  omega

/-- Along bytes that end no line the column goes on. -/
theorem ofByte_add (h : bs <+: bytes.drop n) (hb : lineFeed ∉ bs) :
    ofByte file bytes (n + bs.length) =
      { ofByte file bytes n with column := (ofByte file bytes n).column + bs.length } := by
  induction bs generalizing n with
  | nil => rfl
  | cons b bs ih =>
    obtain ⟨hne, hb⟩ := not_or.1 (List.mem_cons.not.1 hb)
    have hbs : bs <+: bytes.drop (n + 1) :=
      show bs <+: bytes.drop (n + [b].length) from prefix_drop_add h
    rw [List.length_cons, Nat.add_comm bs.length, ← Nat.add_assoc, ih hbs hb,
      ofByte_succ (getElem?_of_prefix_drop h) (Ne.symm hne)]
    simp only [Nat.add_assoc]

theorem ofByte_next {c : Char} (h : String.utf8EncodeChar c <+: bytes.drop n) :
    ofByte file bytes (n + (String.utf8EncodeChar c).length) = (ofByte file bytes n).next c := by
  by_cases hc : c = '\n'
  · subst hc
    exact ofByte_newline (getElem?_of_prefix_drop h)
  · rw [ofByte_add h ((lineFeed_mem_iff c).not.2 hc), next, if_neg hc,
      String.length_utf8EncodeChar]

/-- Counting bytes comes to the same as going on from character to character. -/
theorem ofByte_past {cs : List Char} (h : utf8 cs <+: bytes.drop n) :
    ofByte file bytes (n + (utf8 cs).length) = (ofByte file bytes n).past cs := by
  induction cs generalizing n with
  | nil => rfl
  | cons c cs ih =>
    rw [utf8_cons] at h ⊢
    rw [List.length_append, ← Nat.add_assoc, ih (prefix_drop_add h),
      ofByte_next ((List.prefix_append _ _).trans h), past_cons]

end Place

/-! ## Regions -/

namespace Region

/-- Each region with the number of bytes ahead of it. -/
def starts : Nat → List Region → List (Nat × Region)
  | _, [] => []
  | n, r :: rs => (n, r) :: starts (n + (utf8 r.text).length) rs

variable {rs : List Region} {r : Region}

theorem utf8_join_cons (r : Region) (rs : List Region) :
    utf8 (join (r :: rs)) = utf8 r.text ++ utf8 (join rs) := utf8_append r.text _

theorem placed_ofByte (file : String) (h : utf8 (join rs) <+: bytes.drop n) :
    placed (.ofByte file bytes n) rs =
      (starts n rs).map fun (k, r) => ⟨.ofByte file bytes k, r⟩ := by
  induction rs generalizing n with
  | nil => rfl
  | cons r rs ih =>
    rw [utf8_join_cons] at h
    rw [placed, starts, List.map_cons, ← Place.ofByte_past ((List.prefix_append _ _).trans h),
      ih (prefix_drop_add h)]

theorem prefix_of_mem_starts {k : Nat} (h : utf8 (join rs) <+: bytes.drop n)
    (hr : (k, r) ∈ starts n rs) : utf8 r.text <+: bytes.drop k := by
  induction rs generalizing n with
  | nil => cases hr
  | cons s rs ih =>
    rw [utf8_join_cons] at h
    rcases List.mem_cons.1 hr with he | hr
    · obtain ⟨rfl, rfl⟩ := Prod.mk.inj he
      exact (List.prefix_append _ _).trans h
    · exact ih (prefix_drop_add h) hr

end Region

end LoxLang
