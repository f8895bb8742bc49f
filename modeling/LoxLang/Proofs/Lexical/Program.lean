import Mathlib.Data.List.Basic
import Mathlib.Data.List.Nodup
import LoxLang.Proofs.Lexical.Order
import LoxLang.Proofs.Lexical.Settling

/-!
# What comes of a program

The depths, problems and unread names of a program that has been resolved are those that its text
gives: `Resolved.depths_lexical`, `Resolved.problems_exact`, `Resolved.unread_exact`.
-/

namespace LoxLang

open Scoping Lexical

/-! ## Depths -/

/-- The use has the depth that its context gives, if it is not rejected there. -/
def Lexical.Point.IsSettled (c : Context) : Point → Prop
  | .read r | .assignment r => r.depth = c.distance? r.name.text
  | .this depth _ => ∀ d derived, c.class? = some (d, derived) → depth = some d
  | .super depth _ => ∀ d, c.class? = some (d, true) → depth = some (d + 1)
  | .declaration _ | .exit _ _ | .inheritance _ _ => True

theorem Lexical.Point.isSettled_settled (c : Context) (p : Point) : (p.settled c).IsSettled c := by
  cases p with
  | read _ | assignment _ => rfl
  | declaration _ | exit _ _ | inheritance _ _ => trivial
  | this depth place =>
    cases hclass : c.class? with
    | none => simp [settled, IsSettled, hclass]
    | some p =>
      simp only [settled, IsSettled, hclass]
      rintro _ _ ⟨⟩
      rfl
  | super depth place =>
    rcases hclass : c.class? with _ | ⟨d, _ | _⟩ <;> simp [settled, IsSettled, hclass]

/-- **Depths are the lexical ones.** A program is resolved to itself, whatever depths it has, and
each use in it has the depth then that its context gives. -/
theorem Resolved.depths_lexical {tokens : List Token} (ht : Token.Ordinary tokens) (allow : Bool)
    {ss : List Stmt}
    (hs : Stmt.allBare ss = Stmt.allBare (Program.ofTokens tokens).statements) :
    let tree := (program allow ss).tree
    Stmt.allBare tree = Stmt.allBare ss ∧ ∀ c p, (c, p) ∈ Stmt.points tree → p.IsSettled c := by
  intro tree
  have hregular := (Program.regular_ofTokens ht).of_bare hs
  have htree := (program_isLexical allow hregular).tree
  refine ⟨htree.bare, fun c p hp => ?_⟩
  rw [Stmt.points, htree.events, points_settled] at hp
  obtain ⟨⟨c', p'⟩, -, heq⟩ := List.mem_map.1 hp
  obtain ⟨rfl, rfl⟩ := Prod.mk.inj heq
  exact p'.isSettled_settled c'

/-- `class B < A { m(a) { a = super.m; } }` -/
def overridingTokens : List Token :=
  [.sample (.mark .classWord) "class" 1, .sample .identifier "B" 7, .sample (.mark .less) "<" 9,
    .sample .identifier "A" 11, .sample (.mark .leftBrace) "\x7b" 13, .sample .identifier "m" 15,
    .sample (.mark .leftParen) "(" 16, .sample .identifier "a" 17,
    .sample (.mark .rightParen) ")" 18, .sample (.mark .leftBrace) "\x7b" 20,
    .sample .identifier "a" 22, .sample (.mark .equal) "=" 24,
    .sample (.mark .superWord) "super" 26, .sample (.mark .dot) "." 31, .sample .identifier "m" 32,
    .sample (.mark .semicolon) ";" 33, .sample (.mark .rightBrace) "\x7d" 35,
    .sample (.mark .rightBrace) "\x7d" 37, .sample .finish "" 38]

/-- The tree of these tokens with depths for `a`, `super` and `A`. -/
def overridingTree (a super parent : Option Nat) : List Stmt :=
  let place (column : Nat) : Place := ⟨"test.lox", 1, column⟩
  [.classDecl ⟨"B", place 7⟩ (some ⟨⟨"A", place 11⟩, parent⟩)
    [.mk ⟨"m", place 15⟩ [⟨"a", place 17⟩]
      [.expression (.assign ⟨⟨"a", place 22⟩, a⟩ (.super ⟨"m", place 32⟩ super (place 26)))]]]

/-- The sample is resolved over depths that are all wrong: the parameter is found in the innermost
scope, `super` beyond the scope of `this`, and the superclass in none. -/
theorem Resolved.overriding_lexical :
    let stale := overridingTree (some 7) (some 7) (some 7)
    let tree := (program false stale).tree
    tree = overridingTree (some 0) (some 2) none ∧ Stmt.allBare tree = Stmt.allBare stale ∧
      ∀ c p, (c, p) ∈ Stmt.points tree → p.IsSettled c := by
  have ht : Token.Ordinary overridingTokens := by
    simp [overridingTokens, Name.IsOrdinary, Token.sample, Token.name, Token.isIdentifier]
  exact ⟨rfl, Resolved.depths_lexical ht false rfl⟩

/-! ## Problems -/

/-- **Problems are exactly the violations**, in source order. -/
theorem Resolved.problems_exact {tokens : List Token} (ht : Token.Ordinary tokens) (allow : Bool) :
    let ss := (Program.ofTokens tokens).statements
    (program allow ss).problems =
      (Stmt.points ss).filterMap fun (c, p) => c.violation? allow p :=
  (program_isLexical allow (Program.regular_ofTokens ht)).problems

/-- A program that does most of what a program must not do. -/
def troubledSource : String :=
  "return this; \x7b var a = a; var a; \x7d " ++
    "class A < A \x7b init(b, b) \x7b return super.m; \x7d \x7d " ++
    "class A \x7b m() \x7b super.m; \x7d \x7d"

/-- The sample is told all that is wrong with it, except for a global name declared again if that
is allowed. -/
theorem Resolved.troubled_problems_exact :
    let ss := (Program.ofTokens (Token.scan "main.lox" troubledSource).1).statements
    (program true ss).problems.map Placed.value =
        [.returnOutside, .thisOutside, .ownInitializer, .declaredInScope, .ownSuperclass,
          .declaredInScope, .valueFromInitializer, .superWithoutSuperclass] ∧
      (program true ss).problems = (Stmt.points ss).filterMap fun (c, p) => c.violation? true p :=
  ⟨by decide +kernel,
    Resolved.problems_exact (Token.ordinary_scan "main.lox" troubledSource) true⟩

/-! ## Unread names -/

/-- The tracked names of a scope that nothing reads, in the order in which it holds them. -/
def Scoping.unreadIn (scope : Bindings Local) : List Name :=
  (scope.filter fun (_, l) => l.tracked && !l.read).map fun (n, l) => Name.mk n l.place

theorem Place.le_iff {p q : Place} :
    p.le q = true ↔ p.line < q.line ∨ p.line = q.line ∧ p.column ≤ q.column := by
  simp [Place.le]

/-- However names one behind the other are shuffled, sorting puts them in order. -/
theorem mergeSort_of_perm {ns ms : List Name}
    (h : ns.Pairwise fun a b => a.place.Before b.place) (hp : ms.Perm ns) :
    (ms.mergeSort fun a b => a.place.le b.place) = ns := by
  have hsorted : (ms.mergeSort fun a b => a.place.le b.place).Pairwise
      fun a b => a.place.le b.place = true := by
    refine List.pairwise_mergeSort (fun a b c => ?_) (fun a b => ?_) ms
    · simp only [Place.le_iff]
      omega
    · simp only [Bool.or_eq_true, Place.le_iff]
      omega
  have hns : ns.Pairwise fun a b => a.place.le b.place = true := h.imp fun hab => hab.le.1
  have hkeys : (ns.map fun a => (a.place.line, a.place.column)).Nodup := by
    refine List.pairwise_map.2 (h.imp fun hab heq => ?_)
    obtain ⟨hline, hcolumn⟩ := Prod.mk.inj heq
    unfold Place.Before at hab
    omega
  have hperm := (List.mergeSort_perm ms fun a b => a.place.le b.place).trans hp
  refine List.Perm.eq_of_pairwise (fun a b ha hb hab hba => ?_) hsorted hns hperm
  refine List.inj_on_of_nodup_map hkeys (hperm.subset ha) hb (Prod.ext_iff.2 ?_)
  simp only [Place.le_iff] at hab hba
  dsimp only
  omega

/-- What is unread of a scope stands in the order of the scope. -/
theorem Lexical.Closing.unused_increasing {k : Closing}
    (h : k.declared.Pairwise fun d e => d.name.place.Before e.name.place) :
    k.unused.Pairwise fun a b => a.place.Before b.place := by
  have hsub := (List.filter_sublist (p := fun d =>
    d.isTracked && !(reads k.inside).contains (k.level, d.name.text))).trans
      (sublist_firsts k.declared)
  exact List.pairwise_map.2 (h.sublist hsub)

/-- **Unread names are exact.** For each scope, in the order in which they end, the names are
reported that a variable, function or class was the first to have and that nothing reads, by line
and column: in whatever order a walk holds them, it reports them in that one. -/
theorem Resolved.unread_exact (file source : String) :
    let ss := (Program.ofTokens (Token.scan file source).1).statements
    (∀ allow, (program allow ss).unread = (Stmt.closings ss).flatMap Closing.unused) ∧
      ∀ k ∈ Stmt.closings ss, (k.unused.Pairwise fun a b => a.place.Before b.place) ∧
        ∀ scope : Bindings Local, (unreadIn scope).Perm k.unused →
          unreadNames scope = k.unused := by
  intro ss
  have hbody : (Token.beforeFinish (Token.scan file source).1).1.Pairwise
      fun t u => t.place.Before u.place :=
    (Token.increasing file source).sublist (List.takeWhile_sublist _)
  have hregular := Program.regular_ofTokens (Token.ordinary_scan file source)
  have hincreasing : ∀ k ∈ Stmt.closings ss, k.unused.Pairwise fun a b => a.place.Before b.place :=
    fun k hk => Closing.unused_increasing (Program.scopes_ofTokens hbody k hk)
  refine ⟨fun allow => ?_, fun k hk => ⟨hincreasing k hk, fun scope hscope => ?_⟩⟩
  · rw [(program_isLexical allow hregular).unread, warnings]
    exact List.flatMap_congr fun k hk => mergeSort_of_perm (hincreasing k hk) (.refl _)
  · exact mergeSort_of_perm (hincreasing k hk) hscope

end LoxLang
