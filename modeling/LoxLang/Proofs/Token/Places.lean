import LoxLang.Proofs.Grammar.Exact
import LoxLang.Proofs.Token.Lossless
import Mathlib.Order.Basic

/-!
# Where tokens stand

Every region of a source holds a character, so the places of the tokens increase from left to
right and no two tokens stand at one place.
-/

namespace LoxLang

/-! ## Order of places -/

/-- One place comes before another one of its file. -/
def Place.Before (p q : Place) : Prop := p.line < q.line ∨ p.line = q.line ∧ p.column < q.column

namespace Place

variable {p q r : Place}

theorem Before.trans (h : p.Before q) (h' : q.Before r) : p.Before r := by
  unfold Before at *
  omega

theorem Before.ne (h : p.Before q) : p ≠ q := by
  rintro rfl
  unfold Before at h
  omega

theorem Before.le (h : p.Before q) : p.le q = true ∧ q.le p = false := by
  unfold Before at h
  unfold Place.le
  simp only [Bool.or_eq_true, decide_eq_true_eq, Bool.and_eq_true, beq_iff_eq,
    Bool.or_eq_false_iff, decide_eq_false_iff_not, Bool.and_eq_false_imp]
  omega

theorem before_next (p : Place) (c : Char) : p.Before (p.next c) := by
  have hc := c.utf8Size_pos
  unfold Before next
  split
  · exact .inl (Nat.lt_succ_self _)
  · exact .inr ⟨rfl, Nat.lt_add_of_pos_right hc⟩

/-- A text ends behind the place that it starts at. -/
theorem before_past (p : Place) {cs : List Char} (h : cs ≠ []) : p.Before (p.past cs) := by
  induction cs generalizing p with
  | nil => exact absurd rfl h
  | cons c cs ih =>
    rw [past_cons]
    rcases eq_or_ne cs [] with rfl | hcs
    · exact p.before_next c
    · exact (p.before_next c).trans (ih _ hcs)

end Place

/-! ## Regions -/

namespace Region

/-- Each region of a cut has a character. -/
theorem Splits.text_ne_nil {rs : List Region} {source : List Char} (h : Splits source rs) :
    ∀ r ∈ rs, r.text ≠ [] := by
  intro r hr
  obtain ⟨before, after, rfl⟩ := List.append_of_mem hr
  exact h.cut.ne_nil

theorem place_of_mem_placed {r : Placed Region} : ∀ {p : Place} {rs : List Region},
    (∀ r ∈ rs, r.text ≠ []) → r ∈ placed p rs → r.place = p ∨ p.Before r.place
  | _, [], _, h => nomatch h
  | p, s :: rs, hrs, h => by
    obtain ⟨hs, hrs⟩ := List.forall_mem_cons.1 hrs
    rcases List.mem_cons.1 h with rfl | h
    · exact .inl rfl
    · have hp := p.before_past hs
      exact .inr ((place_of_mem_placed hrs h).elim (fun he => he ▸ hp) hp.trans)

theorem placed_increasing : ∀ (p : Place) {rs : List Region}, (∀ r ∈ rs, r.text ≠ []) →
    (placed p rs).Pairwise fun r s => r.place.Before s.place
  | _, [], _ => .nil
  | p, s :: rs, hrs => by
    obtain ⟨hs, hrs⟩ := List.forall_mem_cons.1 hrs
    have hp := p.before_past hs
    refine .cons (fun r hr => ?_) (placed_increasing _ hrs)
    exact (place_of_mem_placed hrs hr).elim (fun he => he ▸ hp) hp.trans

/-- Regions stand ahead of where they end together. -/
theorem before_past_of_mem_placed {r : Placed Region} : ∀ {p : Place} {rs : List Region},
    (∀ r ∈ rs, r.text ≠ []) → r ∈ placed p rs → r.place.Before (p.past (join rs))
  | _, [], _, h => nomatch h
  | p, s :: rs, hrs, h => by
    obtain ⟨hs, hrs⟩ := List.forall_mem_cons.1 hrs
    rw [join, List.flatMap_cons]
    rcases List.mem_cons.1 h with rfl | h
    · exact p.before_past (List.append_ne_nil_of_left_ne_nil hs _)
    · rw [p.past_append]
      exact before_past_of_mem_placed hrs h

def token? (r : Placed Region) : Option Token := (result? r).bind Except.toOption

theorem token?_eq_some {r : Placed Region} {t : Token} :
    token? r = some t ↔ ∃ kind, r.value.piece = .token kind ∧
      t = ⟨kind, String.ofList r.value.text, r.place⟩ := by
  unfold token? result?
  cases r.value.piece <;> simp [Except.toOption, eq_comm]

end Region

/-! ## Tokens -/

namespace Token

open Region

/-- The tokens of a source without the last one. -/
def body (file source : String) : List Token := (beforeFinish (scan file source).1).1

/-- Where a source ends. -/
def finish (file source : String) : Token := ⟨.finish, "", (Place.start file).past source.toList⟩

/-- What a token is shows in its text. -/
theorem lexeme_of_token? {r : Placed Region} {p : Place} {source : List Char} {t : Token}
    (hr : r ∈ placed p (split source)) (h : token? r = some t) : Lexeme t.lexeme.toList t.kind := by
  obtain ⟨kind, hk, rfl⟩ := token?_eq_some.1 h
  obtain ⟨before, after, hs⟩ := List.append_of_mem (mem_of_mem_placed hr)
  have hcut := splits_split source
  rw [hs] at hcut
  have hl := hcut.cut
  rw [hk] at hl
  simpa using hl.lexeme

theorem isFinish_of_token? {r : Placed Region} {p : Place} {source : List Char} {t : Token}
    (hr : r ∈ placed p (split source)) (h : token? r = some t) : t.isFinish = false := by
  have hne := (lexeme_of_token? hr h).ne_finish
  unfold isFinish
  split
  next hk => exact absurd hk hne
  next => rfl

theorem scan_eq (file source : String) : (scan file source).1 =
    (placed (Place.start file) (split source.toList)).filterMap token? ++ [finish file source] := by
  simp only [scan, results, List.filterMap_append, List.filterMap_filterMap]
  rfl

theorem body_eq (file source : String) :
    body file source = (placed (Place.start file) (split source.toList)).filterMap token? := by
  unfold body
  rw [scan_eq, beforeFinish_append (fun t ht => ?_) rfl]
  obtain ⟨r, hr, ht⟩ := List.mem_filterMap.1 ht
  exact isFinish_of_token? hr ht

theorem isFinish_of_mem_body {file source : String} :
    ∀ t ∈ body file source, t.isFinish = false := by
  intro t ht
  rw [body_eq] at ht
  obtain ⟨r, hr, ht⟩ := List.mem_filterMap.1 ht
  exact isFinish_of_token? hr ht

theorem lexeme_of_mem_body {file source : String} :
    ∀ t ∈ body file source, Lexeme t.lexeme.toList t.kind := by
  intro t ht
  rw [body_eq] at ht
  obtain ⟨r, hr, ht⟩ := List.mem_filterMap.1 ht
  exact lexeme_of_token? hr ht

/-- The tokens of a source are those of its body and the `finish`. -/
theorem scan_eq_body (file source : String) :
    (scan file source).1 = body file source ++ [finish file source] := by
  rw [scan_eq, body_eq]

theorem lexeme_of_mem_scan {file source : String} {t : Token} (h : t ∈ (scan file source).1) :
    Lexeme t.lexeme.toList t.kind ∨ t.lexeme = "" ∧ t.kind = .finish := by
  rw [scan_eq_body] at h
  rcases List.mem_append.1 h with h | h
  · exact .inl (lexeme_of_mem_body t h)
  · obtain rfl := List.mem_singleton.1 h
    exact .inr ⟨rfl, rfl⟩

/-- Each token of a source stands behind the ones ahead of it, the last one included. -/
theorem increasing (file source : String) :
    (scan file source).1.Pairwise fun t u => t.place.Before u.place := by
  have htexts := (splits_split source.toList).text_ne_nil
  rw [scan_eq, List.pairwise_append, List.pairwise_filterMap]
  refine ⟨(placed_increasing (Place.start file) htexts).imp fun {r s} h t ht u hu => ?_,
    List.pairwise_singleton .., fun t ht u hu => ?_⟩
  · obtain ⟨_, -, rfl⟩ := token?_eq_some.1 ht
    obtain ⟨_, -, rfl⟩ := token?_eq_some.1 hu
    exact h
  · obtain ⟨r, hr, ht⟩ := List.mem_filterMap.1 ht
    obtain ⟨_, -, rfl⟩ := token?_eq_some.1 ht
    obtain rfl := List.mem_singleton.1 hu
    have hbefore := before_past_of_mem_placed htexts hr
    rwa [join_split] at hbefore

/-- No two tokens of a source stand at one place. -/
theorem nodup_places (file source : String) : ((body file source).map place).Nodup := by
  have hscan := increasing file source
  rw [scan_eq_body, List.pairwise_append] at hscan
  rw [List.Nodup, List.pairwise_map]
  exact hscan.1.imp fun h => h.ne

end Token

end LoxLang
