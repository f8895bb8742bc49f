import LoxLang.Token.Region
import LoxLang.Proofs.Grammar.Recovery
import Mathlib.Data.List.Infix

/-!
# Recovery and braces

Recovery goes on at a semicolon or at a word that opens a statement and takes no notice of
braces, so a body can be read as statements of the program (`spilledBody_begins_inside`).
That takes an opening brace that recovery has dropped: `Program.begun_inside` says so of
every statement that begins inside a pair of braces.
-/

namespace LoxLang

open Phrase Grammar

/-! ## Pairs of braces -/

/-- How many braces are open behind a token with `n` open before it, unless it closes one
that is not open. -/
def Token.brace? (n : Nat) (t : Token) : Option Nat :=
  if t.isMark .leftBrace then some (n + 1)
  else if t.isMark .rightBrace then
    match n with
    | 0 => none
    | n + 1 => some n
  else some n

/-- How many braces are open behind the tokens with `n` open before them. -/
def Token.openAfter? (n : Nat) (ts : List Token) : Option Nat := ts.foldlM Token.brace? n

/-- The tokens at `a` and `b` are a pair of braces. -/
def Token.Pair (tokens : List Token) (a b : Nat) : Prop :=
  a < b ∧ tokens[a]?.any (·.isMark .leftBrace) ∧ tokens[b]?.any (·.isMark .rightBrace) ∧
    openAfter? 0 ((tokens.take b).drop (a + 1)) = some 0

instance (tokens : List Token) (a b : Nat) : Decidable (Token.Pair tokens a b) :=
  inferInstanceAs (Decidable (_ ∧ _))

/-- How many tokens are this mark. -/
def Token.countMark (m : Mark) (ts : List Token) : Nat := ts.countP (·.isMark m)

variable {n m : Nat} {t : Token} {ts us : List Token}

/-- A token that is no brace. -/
def Token.Plain (t : Token) : Prop := ∀ n, brace? n t = some n

theorem Token.plain_of_isMark {k : Mark} (h : t.isMark k) (hl : k ≠ .leftBrace)
    (hr : k ≠ .rightBrace) : Plain t := fun n => by
  simp [brace?, isMark_eq_decide h, hl, hr]

theorem Token.plain_of_isMark_eq_false (h : ∀ k, t.isMark k = false) : Plain t := fun n => by
  simp [brace?, h]

theorem Token.plain_of_isIdentifier (h : t.isIdentifier) : Plain t :=
  plain_of_isMark_eq_false (isMark_eq_false_of_isIdentifier h)

theorem Rank.isMark_ne_brace {r : Rank} {k : Mark} {op : BinaryOp} (h : (k, op) ∈ r.table) :
    k ≠ .leftBrace ∧ k ≠ .rightBrace := by
  constructor <;> rintro rfl <;> cases r <;> simp [Rank.table] at h

theorem Token.brace?_left (h : t.isMark .leftBrace) : brace? n t = some (n + 1) := by
  simp [brace?, h]

theorem Token.brace?_right (h : t.isMark .rightBrace) : brace? (n + 1) t = some n := by
  simp [brace?, isMark_eq_decide h]

theorem Token.openAfter?_nil : openAfter? n [] = some n := rfl

theorem Token.openAfter?_cons : openAfter? n (t :: ts) = (brace? n t).bind (openAfter? · ts) :=
  List.foldlM_cons

theorem Token.openAfter?_append :
    openAfter? n (ts ++ us) = (openAfter? n ts).bind (openAfter? · us) :=
  List.foldlM_append

theorem Token.brace?_count (h : brace? n t = some m) :
    n + countMark .leftBrace [t] = m + countMark .rightBrace [t] := by
  unfold brace? at h
  split at h
  next hl => 
    have hr : t.isMark .rightBrace = false := by simp [isMark_eq_decide hl]
    simp_all [countMark]
  next hl =>
    split at h
    next hr =>
      cases n with
      | zero => cases h
      | succ k => simp_all [countMark]
    next hr => simp_all [countMark]

/-- Braces that open and braces that close, counted. -/
theorem Token.openAfter?_count (h : openAfter? n ts = some m) :
    n + countMark .leftBrace ts = m + countMark .rightBrace ts := by
  induction ts generalizing n with
  | nil => simpa [openAfter?_nil, countMark] using h
  | cons t ts ih =>
    rw [openAfter?_cons, Option.bind_eq_some_iff] at h
    obtain ⟨k, hk, h⟩ := h
    have h₁ := brace?_count hk
    have h₂ := ih h
    simp only [countMark, List.countP_cons, List.countP_nil] at h₁ h₂ ⊢
    omega

/-- Every brace of the tokens has its other brace among them. -/
def Token.Balanced (ts : List Token) : Prop := ∀ n, openAfter? n ts = some n

theorem Token.balanced_nil : Balanced [] := fun _ => rfl

theorem Token.Balanced.append (h : Balanced ts) (h' : Balanced us) : Balanced (ts ++ us) := by
  intro n
  rw [openAfter?_append, h n, Option.bind_some, h' n]

theorem Token.Balanced.cons (ht : Plain t) (h : Balanced ts) :
    Balanced (t :: ts) := by
  intro n
  rw [openAfter?_cons, ht n, Option.bind_some, h n]

theorem Token.Balanced.braces {l r : Token} (hl : l.isMark .leftBrace) (h : Balanced ts)
    (hr : r.isMark .rightBrace) : Balanced (l :: (ts ++ [r])) := by
  intro n
  rw [openAfter?_cons, brace?_left hl, Option.bind_some, openAfter?_append, h, Option.bind_some,
    openAfter?_cons, brace?_right hr, Option.bind_some, openAfter?_nil]

theorem Token.Balanced.names {ns : List Name} (h : Names ts ns) : Balanced ts := by
  induction h with
  | one ht => exact .cons (plain_of_isIdentifier ht) balanced_nil
  | more ht hc _ ih =>
    exact .cons (plain_of_isIdentifier ht) (.cons (plain_of_isMark hc nofun nofun) ih)

/-- Where nothing drops out, a derivation keeps both braces of a pair. -/
theorem Derives.balanced {g : Rules} {s : Symbol} {v : s.Tree} (hg : g.skips = false)
    (h : Derives g s ts v) : Token.Balanced ts := by
  induction h with
  | skipped hs => simp [hg] at hs
  -- the rules with braces of their own
  | block hl _ hr ih => exact ih.braces hl hr
  | classDecl hw hc hl _ hr ih =>
    exact .cons (Token.plain_of_isMark hw nofun nofun)
      (.cons (Token.plain_of_isIdentifier hc) (ih.braces hl hr))
  | subclassDecl hw hc ho hp hl _ hr ih =>
    exact .cons (Token.plain_of_isMark hw nofun nofun)
      (.cons (Token.plain_of_isIdentifier hc) (.cons (Token.plain_of_isMark ho nofun nofun)
        (.cons (Token.plain_of_isIdentifier hp) (ih.braces hl hr))))
  -- the tokens that may be of many marks, or of none
  | joined _ hm ht _ ihl ihr =>
    obtain ⟨hl, hr⟩ := Rank.isMark_ne_brace hm
    exact ihl.append (.cons (Token.plain_of_isMark ht hl hr) ihr)
  | number hk | string hk =>
    exact .cons (Token.plain_of_isMark_eq_false fun k => by rw [Token.isMark, hk])
      Token.balanced_nil
  | _ => grind [Token.plain_of_isMark, Token.plain_of_isIdentifier, Token.balanced_nil,
    Token.Balanced.append, Token.Balanced.cons, Token.Balanced.names]

/-- Behind the opening brace of a pair, and before its closing one, more braces have opened
than closed. -/
theorem Token.Pair.count_lt {tokens : List Token} {a b i : Nat} (h : Pair tokens a b)
    (hai : a < i) (hib : i < b) :
    countMark .rightBrace ((tokens.take i).drop a) < countMark .leftBrace ((tokens.take i).drop a) := by
  obtain ⟨-, hl, -, hb⟩ := h
  obtain ⟨l, hget, hl⟩ := (Option.any_eq_true _ _).1 hl
  have hseg : (tokens.take i).drop a = l :: (tokens.take i).drop (a + 1) := by
    have hget' : (tokens.take i)[a]? = some l := by rw [List.getElem?_take_of_lt hai, hget]
    obtain ⟨hlt, rfl⟩ := List.getElem?_eq_some_iff.1 hget'
    exact List.drop_eq_getElem_cons hlt
  obtain ⟨rest, hrest⟩ : (tokens.take i).drop (a + 1) <+: (tokens.take b).drop (a + 1) :=
    List.IsPrefix.drop (List.take_prefix_take_left (Nat.le_of_lt hib)) (a + 1)
  rw [← hrest, openAfter?_append, Option.bind_eq_some_iff] at hb
  obtain ⟨k, hk, -⟩ := hb
  have hcount := openAfter?_count hk
  have hlr : l.isMark .rightBrace = false := by simp [isMark_eq_decide hl]
  rw [hseg]
  simp only [countMark, List.countP_cons, hl, hlr, if_true, Bool.false_eq_true, if_false]
    at hcount ⊢
  omega

/-- Braces that are all closed are closed behind them. -/
theorem Token.countMark_le_of_balanced (h : Balanced (ts ++ us)) :
    countMark .leftBrace us ≤ countMark .rightBrace us := by
  have h₀ := h 0
  rw [openAfter?_append, Option.bind_eq_some_iff] at h₀
  obtain ⟨k, -, hk⟩ := h₀
  have hcount := openAfter?_count hk
  omega

/-! ## Where statements begin -/

namespace Program

/-- The next declaration, and the tokens from its first one on. -/
def begin? (depth : Nat) : Phrase (Option (List Token × Option Stmt)) := fun c =>
  (Option.map (c.rest, ·) <$> declaration? depth) c

/-- The statements of a program, each with the position of its first token. -/
def begun (tokens : List Token) : List (Nat × Stmt) :=
  let body := (Token.beforeFinish tokens).1
  match many (begin? (body.length + 1)) ⟨body, #[]⟩ with
  | .ok found _ => found.filterMap fun (rest, o) => o.map (body.length - rest.length, ·)
  | .error _ _ => []

/-- The tokens are read as these statements, with nothing amiss. -/
def Gives (ts : List Token) (ss : List Stmt) : Prop :=
  ∀ finish : Token, finish.isFinish → ofTokens (ts ++ [finish]) = ⟨ss, []⟩

theorem begin?_eq_ok_some {depth : Nat} {c d : Cursor} {rest : List Token} {o : Option Stmt}
    (h : begin? depth c = .ok (some (rest, o)) d) :
    rest = c.rest ∧ declaration? depth c = .ok (some o) d := by
  rw [begin?, map_apply] at h
  cases hc : declaration? depth c with
  | error m e => rw [hc] at h; cases h
  | ok a e =>
    rw [hc] at h
    cases a with
    | none => simp at h
    | some a => simp_all

/-- The positions aside, what begins is what is read. -/
theorem manyUpTo_begin? (depth : Nat) : ∀ (limit : List Token) (c : Cursor),
    (List.map Prod.snd <$> manyUpTo (begin? depth) limit) c =
      manyUpTo (declaration? depth) limit c
  | [], c => rfl
  | t :: limit, c => by
    rw [map_apply, manyUpTo, manyUpTo, bind_apply, bind_apply, begin?, map_apply]
    cases declaration? depth c with
    | error m d => rfl
    | ok o d =>
      cases o with
      | none => rfl
      | some o =>
        have ih := manyUpTo_begin? depth limit d
        rw [map_apply] at ih
        simp only [Option.map_some, bind_apply, ← ih]
        cases manyUpTo (begin? depth) limit d <;> rfl

/-- Ahead of a statement stand the tokens that the statements before it are read from. -/
theorem front_of_manyUpTo (depth : Nat) {rest : List Token} {o : Option Stmt}
    {after : List (List Token × Option Stmt)} :
    ∀ (limit : List Token) {c d : Cursor} (before : List (List Token × Option Stmt)),
      manyUpTo (begin? depth) limit c = .ok (before ++ (rest, o) :: after) d →
      ∃ front, c.rest = front ++ rest ∧
        Derives (reading true) .declarations front (before.filterMap Prod.snd)
  | [], c, d, before, h => by simp [manyUpTo, pure_apply] at h
  | t :: limit, c, d, before, h => by
    rw [manyUpTo, bind_apply] at h
    cases hc : begin? depth c with
    | error m e => rw [hc] at h; cases h
    | ok a e =>
      rw [hc] at h
      cases a with
      | none => simp [pure_apply] at h
      | some a =>
        simp only [bind_apply] at h
        cases hm : manyUpTo (begin? depth) limit e with
        | error m e' => rw [hm] at h; cases h
        | ok found e' =>
          rw [hm] at h
          obtain ⟨⟨hfound, -⟩⟩ : (a :: found = before ++ (rest, o) :: after ∧ e' = d) ∧ True := by
            simpa [pure_apply] using h
          obtain ⟨hrest, hread⟩ := begin?_eq_ok_some hc
          cases before with
          | nil =>
            obtain ⟨rfl, -⟩ : a = (rest, o) ∧ found = after := by simpa using hfound
            exact ⟨[], by simpa using hrest.symm, .noDeclaration⟩
          | cons b before =>
            obtain ⟨rfl, rfl⟩ : a = b ∧ found = before ++ (rest, o) :: after := by
              simpa using hfound
            obtain ⟨front, hfront, hd⟩ := front_of_manyUpTo depth limit before hm
            obtain ⟨ts, ms, ⟨hts, -⟩, hr⟩ := (reads_declaration? true depth).ok hread
            refine ⟨ts ++ front, by rw [hts, hfront, List.append_assoc], ?_⟩
            obtain ⟨at', o'⟩ := a
            cases o' with
            | none => exact .skipped rfl hd
            | some s => exact .nextDeclaration (hr (.inl rfl)) hd

variable {tokens : List Token}

/-- What begins are the statements that are read, in their order. -/
theorem map_snd_begun (tokens : List Token) :
    (begun tokens).map Prod.snd = (ofTokens tokens).statements := by
  rw [begun, ofTokens]
  obtain ⟨body, last⟩ := Token.beforeFinish tokens
  have hm := manyUpTo_begin? (body.length + 1) body ⟨body, #[]⟩
  rw [map_apply] at hm
  simp only [declarations, bind_apply, many, ← hm]
  cases manyUpTo (begin? (body.length + 1)) body ⟨body, #[]⟩ with
  | error m d => rfl
  | ok found d => simp [pure_apply, List.map_filterMap, List.filterMap_map, Function.comp_def]

theorem exists_append_beforeFinish (tokens : List Token) :
    (Token.beforeFinish tokens).1 <+: tokens :=
  List.takeWhile_prefix _

/-- Some of the tokens ahead of a statement are read as the statements before it. -/
theorem front_of_begun {before after : List (Nat × Stmt)} {i : Nat} {s : Stmt}
    (h : begun tokens = before ++ (i, s) :: after) :
    i ≤ (Token.beforeFinish tokens).1.length ∧
      Derives (reading true) .declarations (tokens.take i) (before.map Prod.snd) := by
  obtain ⟨tail, htail⟩ := exists_append_beforeFinish tokens
  rw [begun] at h
  set body := (Token.beforeFinish tokens).1
  cases hm : many (begin? (body.length + 1)) ⟨body, #[]⟩ with
  | error m d => rw [hm] at h; simp at h
  | ok found d =>
    rw [hm] at h
    obtain ⟨fs, gs, rfl, hfs, hgs⟩ := List.filterMap_eq_append_iff.1 h
    obtain ⟨skipped, ⟨rest, o⟩, gs', rfl, hskipped, hs, -⟩ := List.filterMap_eq_cons_iff.1 hgs
    obtain ⟨s', rfl, hi, rfl⟩ : ∃ s', o = some s' ∧ body.length - rest.length = i ∧ s' = s := by
      simpa using hs
    rw [← List.append_assoc] at hm
    obtain ⟨front, hfront, hd⟩ := front_of_manyUpTo _ body _ hm
    have hbody : body = front ++ rest := hfront
    obtain rfl : front.length = i := by rw [← hi, hbody]; simp
    refine ⟨by rw [hbody]; simp, ?_⟩
    rw [← htail, hbody, List.append_assoc, List.take_left]
    have hnone : skipped.filterMap Prod.snd = [] := by
      simpa [List.filterMap_eq_nil_iff] using hskipped
    have hbefore : fs.filterMap Prod.snd = before.map Prod.snd := by
      rw [← hfs, List.map_filterMap]
      congr 1
      funext ⟨rest, o⟩
      cases o <;> rfl
    rw [← hbefore, ← List.append_nil (fs.filterMap _), ← hnone, ← List.filterMap_append]
    exact hd

theorem gives_iff {ts : List Token} {ss : List Stmt} (h : ∀ t ∈ ts, t.isFinish = false) :
    Gives ts ss ↔ Derives (reading false) .declarations ts ss :=
  ⟨fun hg => (ofTokens_eq_iff h rfl ss).1 (hg (.sample .finish "" 1) rfl),
    fun hd _ hf => (ofTokens_eq_iff h hf ss).2 hd⟩

/-- A statement that begins inside a pair of braces does so because recovery dropped an
opening brace of the pair, or one behind it: what of the tokens ahead of the statement is
kept for the statements before it has fewer opening braces from that of the pair on. -/
theorem begun_inside (tokens : List Token) :
    (begun tokens).map Prod.snd = (ofTokens tokens).statements ∧
    ∀ before i s after, begun tokens = before ++ (i, s) :: after →
      (∃ kept, kept.Sublist (tokens.take i) ∧ Gives kept (before.map Prod.snd)) ∧
      ∀ a b, Token.Pair tokens a b → a < i → i < b →
        ∀ ks ls, ks.Sublist (tokens.take a) → ls.Sublist ((tokens.take i).drop a) →
          Gives (ks ++ ls) (before.map Prod.snd) →
          Token.countMark .leftBrace ls < Token.countMark .leftBrace ((tokens.take i).drop a) := by
  refine ⟨map_snd_begun tokens, fun before i s after h => ?_⟩
  obtain ⟨hi, hd⟩ := front_of_begun h
  have hbody : ∀ t ∈ tokens.take i, t.isFinish = false := by
    have hp : tokens.take i <+: (Token.beforeFinish tokens).1 :=
      List.prefix_of_prefix_length_le (List.take_prefix _ _) (exists_append_beforeFinish tokens)
        (Nat.le_trans (List.length_take_le _ _) hi)
    exact fun t ht => by simpa using List.all_eq_true.1 List.all_takeWhile t (hp.subset ht)
  refine ⟨?_, fun a b hab hai hib ks ls hks hls hg => ?_⟩
  · obtain ⟨kept, hk, -, hd'⟩ := hd.erased
    exact ⟨kept, hk, (gives_iff fun t ht => hbody t (hk.subset ht)).2 hd'⟩
  · have hsub : (ks ++ ls).Sublist (tokens.take i) := by
      have ha : tokens.take a = (tokens.take i).take a := by
        rw [List.take_take, Nat.min_eq_left (Nat.le_of_lt hai)]
      rw [← List.take_append_drop a (tokens.take i), ← ha]
      exact hks.append hls
    have hd' := (gives_iff fun t ht => hbody t (hsub.subset ht)).1 hg
    calc Token.countMark .leftBrace ls
        ≤ Token.countMark .rightBrace ls := Token.countMark_le_of_balanced (hd'.balanced rfl)
      _ ≤ Token.countMark .rightBrace ((tokens.take i).drop a) := hls.countP_le
      _ < Token.countMark .leftBrace ((tokens.take i).drop a) := hab.count_lt hai hib

/-- In `class { m() { print x; } }` the statement of the method's body begins inside both
pairs of braces. -/
theorem spilledBody_begins_inside :
    let tokens := (Token.scan "test.lox" "class \x7b m() \x7b print x; \x7d \x7d").1
    ∃ p ∈ begun tokens, Token.Pair tokens 1 10 ∧ Token.Pair tokens 5 9 ∧ 5 < p.1 ∧ p.1 < 9 := by
  intro tokens
  have h : (begun tokens).any (fun p => decide (Token.Pair tokens 1 10) &&
      decide (Token.Pair tokens 5 9) && decide (5 < p.1) && decide (p.1 < 9)) = true := by
    decide +kernel
  obtain ⟨p, hp, hb⟩ := List.any_eq_true.1 h
  simp only [Bool.and_eq_true, decide_eq_true_eq] at hb
  obtain ⟨⟨⟨h₁, h₂⟩, h₃⟩, h₄⟩ := hb
  exact ⟨p, hp, h₁, h₂, h₃, h₄⟩

end Program

end LoxLang
