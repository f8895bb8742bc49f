import LoxLang.Proofs.Token.Places

/-!
# Reading lexemes again

A token's text read alone is the token, and a blank behind it changes nothing. So the texts of
the tokens of a source, with a blank between each two, are read as these tokens, whatever stood
between them in the source (`Token.respaced_readsAs`).
-/

namespace LoxLang

open Region

namespace Token

/-- What a token is, with its value, and how it is written, but not where. -/
def content (t : Token) : Kind × String := (t.kind, t.lexeme)

/-- The texts of tokens with a blank between each two. -/
def respaced (ts : List Token) : String := " ".intercalate (ts.map lexeme)

/-- Nothing is wrong with the source, and its tokens are these, but for their places. -/
def ReadsAs (file source : String) (ts : List Token) : Prop :=
  (scan file source).2 = [] ∧ (scan file source).1.map content = ts.map content

/-- The token is written as tokens are; the `finish` has no text. -/
def Written (t : Token) : Prop :=
  Lexeme t.lexeme.toList t.kind ∨ t.lexeme = "" ∧ t.kind = .finish

/-! ## Regions of texts with blanks between them -/

def regions (t : Token) : List Region :=
  if t.isFinish then [] else [⟨t.lexeme.toList, .token t.kind⟩]

/-- The regions of the texts of tokens with a blank between each two. -/
def spacedRegions : List Token → List Region
  | [] => []
  | [t] => t.regions
  | t :: u :: ts => t.regions ++ ⟨[' '], .blank⟩ :: spacedRegions (u :: ts)

theorem Written.splits {t : Token} (h : t.Written) {rest : List Char} {rs : List Region}
    (hrest : rest = [] ∨ ∃ ds, rest = ' ' :: ds) (hrs : Splits rest rs) :
    Splits (t.lexeme.toList ++ rest) (t.regions ++ rs) := by
  rcases h with hl | ⟨hempty, hk⟩
  · have hfinish : t.isFinish = false := by
      unfold isFinish
      split
      next hk => exact absurd hk hl.ne_finish
      next => rfl
    have hends : Ends t.lexeme.toList rest t.kind := by
      rcases hrest with rfl | ⟨ds, rfl⟩
      · exact ends_nil _ _
      · exact ends_gap rfl ..
    rw [regions, hfinish, if_neg nofun]
    exact ⟨rest, rfl, .token hl hends, hrs⟩
  · have hfinish : t.isFinish = true := by rw [isFinish, hk]
    rw [regions, if_pos hfinish, hempty]
    exact hrs

theorem splits_spacedRegions : ∀ {ts : List Token}, (∀ t ∈ ts, t.Written) →
    Splits (respaced ts).toList (spacedRegions ts)
  | [], _ => rfl
  | [t], h => by
    have hnil : Splits [] [] := rfl
    have hs := (h t List.mem_cons_self).splits (.inl rfl) hnil
    simpa [respaced, spacedRegions] using hs
  | t :: u :: ts, h => by
    obtain ⟨ht, hts⟩ := List.forall_mem_cons.1 h
    have htext : (respaced (t :: u :: ts)).toList =
        t.lexeme.toList ++ ' ' :: (respaced (u :: ts)).toList := by
      simp [respaced, String.intercalate_cons_cons]
    rw [htext, spacedRegions]
    refine ht.splits (.inr ⟨_, rfl⟩) ?_
    exact ⟨_, rfl, .blank (by decide), splits_spacedRegions hts⟩

/-- The content of a token that a region is. -/
def contentOf? (r : Region) : Option (Kind × String) :=
  match r.piece with
  | .token kind => some (kind, String.ofList r.text)
  | _ => none

theorem map_content_placed (p : Place) (rs : List Region) :
    ((placed p rs).filterMap token?).map content = rs.filterMap contentOf? := by
  conv_rhs => rw [← value_placed p rs]
  rw [List.map_filterMap, List.filterMap_map]
  congr 1
  funext ⟨place, text, piece⟩
  cases piece <;> rfl

theorem contentOf?_regions (t : Token) :
    t.regions.filterMap contentOf? = ([t].filter (!·.isFinish)).map content := by
  unfold regions
  cases h : t.isFinish <;> simp [h, contentOf?, content]

theorem contentOf?_spacedRegions : ∀ ts : List Token,
    (spacedRegions ts).filterMap contentOf? = (ts.filter (!·.isFinish)).map content
  | [] => rfl
  | [t] => contentOf?_regions t
  | t :: u :: ts => by
    have ih := contentOf?_spacedRegions (u :: ts)
    rw [spacedRegions, List.filterMap_append, contentOf?_regions, List.filterMap_cons_none rfl, ih,
      ← List.map_append, ← List.filter_append, List.singleton_append]

theorem piece_spacedRegions : ∀ ts : List Token, ∀ r ∈ spacedRegions ts,
    ∀ cause, r.piece ≠ .problem cause := by
  have hone (t : Token) : ∀ r ∈ t.regions, ∀ cause, r.piece ≠ .problem cause := by
    unfold regions
    split <;> simp
  intro ts
  induction ts using spacedRegions.induct with
  | case1 => exact nofun
  | case2 t => exact hone t
  | case3 t u ts ih =>
    intro r hr
    rw [spacedRegions] at hr
    rcases List.mem_append.1 hr with hr | hr
    · exact hone t r hr
    · rcases List.mem_cons.1 hr with rfl | hr
      · exact nofun
      · exact ih r hr

/-! ## Reading -/

/-- Tokens written with blanks between them are read as they are, but for what is no text. -/
theorem read_respaced {ts : List Token} (h : ∀ t ∈ ts, t.Written) (file : String) :
    (scan file (respaced ts)).2 = [] ∧
      (body file (respaced ts)).map content = (ts.filter (!·.isFinish)).map content := by
  have hsplit := eq_split_iff.1 (splits_spacedRegions h)
  rw [scan_eq_nil_iff, body_eq, ← hsplit, map_content_placed, contentOf?_spacedRegions]
  exact ⟨piece_spacedRegions ts, rfl⟩

/-- **Reading the lexemes again gives the tokens.** Whatever is wrong with a source, the texts of
its tokens with a blank between each two are read without a problem and as the same tokens,
with the same values; also if the text of the `finish`, which is empty, is left out. -/
theorem respaced_readsAs (file file' source : String) :
    ReadsAs file' (respaced (scan file source).1) (scan file source).1 ∧
    ReadsAs file' (respaced (body file source)) (scan file source).1 := by
  have hfilter : (body file source).filter (!·.isFinish) = body file source :=
    List.filter_eq_self.2 fun t ht => by simp [isFinish_of_mem_body t ht]
  have hreads {ts : List Token} (hw : ∀ t ∈ ts, t.Written)
      (hts : ts.filter (!·.isFinish) = body file source) :
      ReadsAs file' (respaced ts) (scan file source).1 := by
    obtain ⟨hclean, hbody⟩ := read_respaced hw file'
    refine ⟨hclean, ?_⟩
    rw [scan_eq_body, scan_eq_body, List.map_append, List.map_append, hbody, hts]
    rfl
  refine ⟨hreads (fun t ht => lexeme_of_mem_scan ht) ?_,
    hreads (fun t ht => .inl (lexeme_of_mem_body t ht)) hfilter⟩
  rw [scan_eq_body, List.filter_append, hfilter]
  exact List.append_nil _

/-- The tokens of a source come back. Neither its number without a fraction nor its comment is one
of them, so they are not read again. -/
theorem respaced_sample :
    let tokens := (scan "test.lox" "a\"b\nc\"1./*2*/!3").1
    respaced tokens = "a \"b\nc\" ! 3 " ∧
    tokens.map lexeme = ["a", "\"b\nc\"", "!", "3", ""] ∧
    ReadsAs "again.lox" (respaced tokens) tokens :=
  ⟨by decide +kernel, by decide +kernel, (respaced_readsAs "test.lox" "again.lox" _).1⟩

end Token

end LoxLang
