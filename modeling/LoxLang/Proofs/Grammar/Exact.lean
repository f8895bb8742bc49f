import LoxLang.Proofs.Grammar.Complete
import LoxLang.Proofs.Grammar.Nearest

/-!
# The reader and the grammar

`Program.ofTokens` finds nothing amiss in just the lists that the grammar derives, and
reads the tree of the derivation that puts every `else` at the nearest `if`.
`Expr.ofTokens` reads those trees too, but takes more lists than the grammar: what it
passes over in the bodies of functions is kept nowhere.
-/

namespace LoxLang

open Phrase Grammar

def Token.sample (kind : Kind) (lexeme : String) (column : Nat) : Token :=
  ⟨kind, lexeme, ⟨"test.lox", 1, column⟩⟩

variable {body : List Token} {finish : Token}

theorem Token.beforeFinish_append (hb : ∀ t ∈ body, t.isFinish = false) (hf : finish.isFinish) :
    Token.beforeFinish (body ++ [finish]) = (body, some finish) := by
  rw [Token.beforeFinish, List.takeWhile_append_of_pos (by simpa using hb),
    List.find?_append, List.find?_eq_none.2 (by simpa using hb)]
  simp [hf]

/-! ## Programs -/

theorem reads_declaration? (k : Bool) (depth : Nat) : Reads k (Program.declaration? depth)
    fun ts rest o => match o with
      | some s => Recovered k (fun ts _ s => Derives (reading k) .declaration ts s) ts rest s
      | none => ts = [] ∧ rest = [] := by
  refine (Reads.peek.bind (E := fun o ts rest r => o = (ts ++ rest).head? → match r with
    | some s => Recovered k (fun ts _ s => Derives (reading k) .declaration ts s) ts rest s
    | none => ts = [] ∧ rest = []) fun o => ?_).mono ?_
  · cases o with
    | none =>
      refine (Reads.pure none).mono ?_
      rintro ts rest r ⟨rfl, rfl⟩ h
      exact ⟨rfl, List.head?_eq_none_iff.1 h.symm⟩
    | some t =>
      refine ((readsInner_inner depth).declaration.bind fun s => Reads.pure (some s)).mono ?_
      rintro ts rest r ⟨s, us, _, rfl, hs, rfl, rfl⟩ -
      simpa using hs
  · rintro ts rest r ⟨o, us, vs, rfl, ⟨rfl, rfl⟩, h⟩
    exact h rfl

theorem reads_declarations (k : Bool) (depth : Nat) : Reads k (Program.declarations depth)
    fun ts _ ss => Derives (reading k) .declarations ts ss := by
  refine ((Reads.many (fun ts os => Derives (reading k) .declarations ts (os.filterMap id))
    ((reads_declaration? k depth).mono ?_) .noDeclaration).bind fun os =>
      Reads.pure (os.filterMap id)).mono ?_
  · rintro ts rest (- | - | s) h
    · exact h.1
    · exact fun us os hos => .skipped h hos
    · exact fun us os hos => .nextDeclaration h hos
  · rintro ts rest ss ⟨os, us, _, rfl, h, rfl, rfl⟩
    simpa using h

/-- Without a misfit the declarations go on to the end. -/
theorem reads_toEnd (depth : Nat) :
    Reads false (Program.declarations depth) fun _ rest _ => rest = [] := by
  refine ((Reads.many_stop (S := (· = [])) ((reads_declaration? false depth).mono ?_) rfl).bind
    fun os => Reads.pure (os.filterMap id)).mono ?_
  · rintro ts rest (- | - | s) h
    · exact h
    · cases h
    · exact (begins_of_derives h).ne_nil
  · rintro ts rest ss ⟨os, us, _, rfl, h, rfl, rfl⟩
    exact h.1

theorem declares_declaration? (depth : Nat) :
    Declares (inner depth) (Program.declaration? (depth + 1)) := fun ts rest s hb hs => by
  obtain ⟨t, us, rfl, -⟩ := hb
  exact Takes.bind (l := []) Takes.peek hs.recovering.give

/-- Declarations are read as the grammar derives them. -/
theorem declarations_eq_ok_iff {ss : List Stmt} :
    Program.declarations (body.length + 1) ⟨body, #[]⟩ = .ok ss ⟨[], #[]⟩ ↔
      Derives (reading false) .declarations body ss := by
  refine ⟨fun h => ?_, fun h => ?_⟩
  · obtain ⟨ts, ms, ⟨hts, hms⟩, hd⟩ := (reads_declarations false _).ok h
    obtain rfl : body = ts := by simpa using hts
    exact hd (.inr (by simpa using hms.symm))
  · have hr : Takes (Program.declaration? (body.length + 1)) [] [] none := fun _ => rfl
    have hm := (taken_of_derives h _ (Nat.le_refl _) _ [] (declares_declaration? _) rfl hr).many
    have hd : Takes (Program.declarations (body.length + 1)) body [] ((ss.map some).filterMap id) :=
      hm.give
    simpa using hd #[]

/-- Nothing is amiss in a program just if the grammar derives its tree. -/
theorem Program.ofTokens_eq_iff (hb : ∀ t ∈ body, t.isFinish = false) (hf : finish.isFinish)
    (ss : List Stmt) : Program.ofTokens (body ++ [finish]) = ⟨ss, []⟩ ↔
      Derives (reading false) .declarations body ss := by
  rw [← declarations_eq_ok_iff, Program.ofTokens, Token.beforeFinish_append hb hf]
  dsimp only
  cases hd : Program.declarations (body.length + 1) ⟨body, #[]⟩ with
  | error m c => simp
  | ok us c =>
    obtain ⟨ts, ms, ⟨-, hms⟩, hr⟩ := (reads_toEnd _).ok hd
    obtain ⟨rest, misfits⟩ := c
    simp only [Program.mk.injEq, List.map_eq_nil_iff, Array.toList_eq_nil_iff,
      EStateM.Result.ok.injEq, Cursor.mk.injEq]
    refine and_congr_right fun _ => ⟨fun hm => ⟨?_, hm⟩, And.right⟩
    exact hr (.inr (by simpa [hm] using hms.symm))

/-- A program is read with nothing amiss just if the grammar derives its tokens, and then
its tree is that of the derivation with every `else` at the nearest `if`. -/
theorem program_ofTokens_exact (hb : ∀ t ∈ body, t.isFinish = false) (hf : finish.isFinish) :
    ((Program.ofTokens (body ++ [finish])).misfits = [] ↔
      ∃ ss, Derives written .declarations body ss) ∧
    ∀ ss, Program.ofTokens (body ++ [finish]) = ⟨ss, []⟩ ↔
      Derives (reading false) .declarations body ss := by
  have exact_iff := Program.ofTokens_eq_iff hb hf
  refine ⟨⟨fun h => ?_, fun ⟨_, h⟩ => ?_⟩, exact_iff⟩
  · exact ⟨_, ((exact_iff (Program.ofTokens (body ++ [finish])).statements).1 (by rw [← h])).mono
      (by decide) (by decide)⟩
  · obtain ⟨ss, h⟩ := derivable_of_derives h
    rw [(exact_iff ss).2 h]

/-- `if (a) if (b) c; else d;` -/
def danglingElse : List Token :=
  [.sample (.mark .ifWord) "if" 1, .sample (.mark .leftParen) "(" 4, .sample .identifier "a" 5,
    .sample (.mark .rightParen) ")" 6, .sample (.mark .ifWord) "if" 8,
    .sample (.mark .leftParen) "(" 11, .sample .identifier "b" 12,
    .sample (.mark .rightParen) ")" 13, .sample .identifier "c" 15,
    .sample (.mark .semicolon) ";" 16, .sample (.mark .elseWord) "else" 18,
    .sample .identifier "d" 23, .sample (.mark .semicolon) ";" 24]

/-- The `else` of the sample is that of the inner `if`. -/
theorem danglingElse_derives :
    let use (x : String) (column : Nat) : Expr := .read ⟨⟨x, ⟨"test.lox", 1, column⟩⟩, none⟩
    Derives (reading false) .declarations danglingElse
      [.branch (use "a" 5) (.branch (use "b" 12) (.expression (use "c" 15))
        (some (.expression (use "d" 23))) ⟨"test.lox", 1, 8⟩) none ⟨"test.lox", 1, 1⟩] :=
  ((@program_ofTokens_exact danglingElse (.sample .finish "" 25)
    (by decide) rfl).2 _).1 rfl

/-! ## Expressions -/

/-- The misfits met inside an expression that did not keep it from being read. -/
def Expr.passedOver (tokens : List Token) : List Misfit :=
  let (body, last) := Token.beforeFinish tokens
  match Expr.whole (body.length + 1) ⟨body, #[]⟩ with
  | .ok _ c | .error _ c => c.misfits.toList.map (·.endingAt last)

theorem reads_whole (k : Bool) (depth : Nat) : Reads k (Expr.whole depth) fun ts rest e =>
    Derives (reading k) .expression ts e ∧ rest = [] := by
  refine ((readsInner_inner depth).expression.bind fun e => Reads.peek.bind
    (E := fun o ts rest v => o = (ts ++ rest).head? → ts = [] ∧ rest = [] ∧ v = e)
    fun o => ?_).mono ?_
  · cases o with
    | some t => exact Reads.refuse _
    | none =>
      refine (Reads.pure e).mono ?_
      rintro ts rest v ⟨rfl, rfl⟩ h
      exact ⟨rfl, List.head?_eq_none_iff.1 h.symm, rfl⟩
  · rintro ts rest v ⟨e, us, _, rfl, he, o, _, vs, rfl, ⟨rfl, rfl⟩, h⟩
    obtain ⟨rfl, rfl, rfl⟩ := h rfl
    simpa using he

/-- An expression that is read is derived from the tokens, of which some may drop out. -/
theorem Expr.derives_of_ofTokens {ts : List Token} {e : Expr} (h : Expr.ofTokens ts = .ok e) :
    Derives (reading true) .expression (Token.beforeFinish ts).1 e := by
  unfold Expr.ofTokens at h
  dsimp only at h
  split at h
  · next v c hw =>
    cases h
    obtain ⟨us, ms, ⟨hts, -⟩, hr⟩ := (reads_whole true _).ok hw
    obtain ⟨hd, hrest⟩ := hr (.inl rfl)
    rw [hrest, List.append_nil] at hts
    subst hts
    exact hd
  · cases h

theorem whole_eq_ok_iff {e : Expr} :
    Expr.whole (body.length + 1) ⟨body, #[]⟩ = .ok e ⟨[], #[]⟩ ↔
      Derives (reading false) .expression body e := by
  refine ⟨fun h => ?_, fun h => ?_⟩
  · obtain ⟨ts, ms, ⟨hts, hms⟩, hd⟩ := (reads_whole false _).ok h
    obtain rfl : body = ts := by simpa using hts
    exact (hd (.inr (by simpa using hms.symm))).1
  · have ht : Takes (Grammar.inner (body.length + 1)).expression body [] e :=
      taken_of_derives h _ (Nat.le_refl _) [] (loose_nil 1)
    have hw : Takes (Expr.whole (body.length + 1)) body [] e := by
      refine Takes.congr (ht.bind (k := []) (Takes.bind (l := []) Takes.peek ?_)) (by simp)
      exact Takes.pure
    simpa using hw #[]

theorem derives_iff_ofTokens (hb : ∀ t ∈ body, t.isFinish = false) (hf : finish.isFinish)
    (e : Expr) : Derives (reading false) .expression body e ↔
      Expr.ofTokens (body ++ [finish]) = .ok e ∧ Expr.passedOver (body ++ [finish]) = [] := by
  rw [← whole_eq_ok_iff, Expr.ofTokens, Expr.passedOver, Token.beforeFinish_append hb hf]
  dsimp only
  cases hw : Expr.whole (body.length + 1) ⟨body, #[]⟩ with
  | error m c => simp
  | ok v c =>
    obtain ⟨ts, ms, -, hr⟩ := (reads_whole true _).ok hw
    obtain ⟨rest, misfits⟩ := c
    have hrest : rest = [] := (hr (.inl rfl)).2
    simp [hrest]

/-- Expressions are read as the grammar derives them, but for what is passed over: the
lists accepted with nothing passed over are those of the grammar, with the tree of the
derivation; all others accepted are so by passing over tokens between declarations.
The reader is exact just where it passes over nothing that it accepts. -/
theorem expression_ofTokens_exact (hb : ∀ t ∈ body, t.isFinish = false) (hf : finish.isFinish) :
    (∀ e, Derives (reading false) .expression body e ↔
      Expr.ofTokens (body ++ [finish]) = .ok e ∧ Expr.passedOver (body ++ [finish]) = []) ∧
    ((∃ e, Derives written .expression body e) ↔
      (∃ e, Expr.ofTokens (body ++ [finish]) = .ok e) ∧
        Expr.passedOver (body ++ [finish]) = []) ∧
    (∀ e, Expr.ofTokens (body ++ [finish]) = .ok e → Derives (reading true) .expression body e) ∧
    ((∀ e, Expr.ofTokens (body ++ [finish]) = .ok e ↔ Derives (reading false) .expression body e) ↔
      ((∃ e, Expr.ofTokens (body ++ [finish]) = .ok e) →
        Expr.passedOver (body ++ [finish]) = [])) := by
  have hi := derives_iff_ofTokens hb hf
  refine ⟨hi, ⟨fun ⟨_, h⟩ => ?_, fun ⟨⟨e, he⟩, hp⟩ => ?_⟩, fun e he => ?_, fun h ⟨e, he⟩ => ?_,
    fun h e => ⟨fun he => (hi e).2 ⟨he, h ⟨e, he⟩⟩, fun hd => ((hi e).1 hd).1⟩⟩
  · obtain ⟨e, h⟩ := derivable_of_derives h
    exact ⟨⟨e, ((hi e).1 h).1⟩, ((hi e).1 h).2⟩
  · exact ⟨e, ((hi e).2 ⟨he, hp⟩).mono (by decide) (by decide)⟩
  · rw [Expr.ofTokens, Token.beforeFinish_append hb hf] at he
    dsimp only at he
    cases hw : Expr.whole (body.length + 1) ⟨body, #[]⟩ with
    | error m c => rw [hw] at he; cases he
    | ok v c =>
      rw [hw] at he
      cases he
      obtain ⟨ts, ms, ⟨hts, -⟩, hr⟩ := (reads_whole true _).ok hw
      obtain ⟨hd, hrest⟩ := hr (.inl rfl)
      rw [show body = ts by simpa [hrest] using hts]
      exact hd
  · exact ((hi e).1 ((h e).1 he)).2

/-- `f = fun () { print f; }` -/
def soundLambda : List Token :=
  [.sample .identifier "f" 1, .sample (.mark .equal) "=" 3, .sample (.mark .funWord) "fun" 5,
    .sample (.mark .leftParen) "(" 9, .sample (.mark .rightParen) ")" 10,
    .sample (.mark .leftBrace) "\x7b" 12, .sample (.mark .printWord) "print" 14,
    .sample .identifier "f" 20, .sample (.mark .semicolon) ";" 21,
    .sample (.mark .rightBrace) "\x7d" 23]

/-- Nothing is passed over in the sample, so its tree is that of a derivation. -/
theorem soundLambda_derives :
    let use (column : Nat) : Reference := ⟨⟨"f", ⟨"test.lox", 1, column⟩⟩, none⟩
    Derives (reading false) .expression soundLambda
      (.assign (use 1) (.lambda [] [.print (.read (use 20)) ⟨"test.lox", 1, 14⟩]
        ⟨"test.lox", 1, 5⟩)) :=
  ((@expression_ofTokens_exact soundLambda (.sample .finish "" 24)
    (by decide) rfl).1 _).2 ⟨rfl, rfl⟩

/-- `fun () { x + ; }` -/
def brokenLambda : List Token :=
  [.sample (.mark .funWord) "fun" 1, .sample (.mark .leftParen) "(" 5,
    .sample (.mark .rightParen) ")" 6, .sample (.mark .leftBrace) "\x7b" 8,
    .sample .identifier "x" 10, .sample (.mark .plus) "+" 12, .sample (.mark .semicolon) ";" 14,
    .sample (.mark .rightBrace) "\x7d" 16]

/-- The sample is accepted, though it holds a syntax error and nothing derives it. -/
theorem brokenLambda_accepted :
    Expr.ofTokens (brokenLambda ++ [.sample .finish "" 17]) = .ok (.lambda [] [] ⟨"test.lox", 1, 1⟩) ∧
      ¬ ∃ e, Derives written .expression brokenLambda e := by
  refine ⟨rfl, fun ⟨_, h⟩ => ?_⟩
  obtain ⟨e, h⟩ := derivable_of_derives h
  have hp := ((@derives_iff_ofTokens brokenLambda (.sample .finish "" 17) (by decide) rfl e).1 h).2
  have hlen : (Expr.passedOver (brokenLambda ++ [.sample .finish "" 17])).length = 1 := rfl
  rw [hp] at hlen
  cases hlen

end LoxLang
