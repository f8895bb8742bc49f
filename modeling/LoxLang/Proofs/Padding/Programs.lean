import Mathlib
import LoxLang.Proofs.Padding.Loop
import LoxLang.Proofs.Scoping.Inside

/-!
# The `for` loops of a program

Wherever a `for` loop stands in the program of a source, and on whatever machine it is run,
its tree does what the loop does as it is written. Nothing tells the two apart but the
distance that a fault names for a variable that is not bound where the walk has put it: the
block around body and step counts there.
-/

namespace LoxLang

open Run Scoping Grammar

/-- What runs behind two steps that end alike ends alike. -/
theorem EndPadded.execAll {α β : Type} {n : Nat} {post : Links → α → β → Prop}
    {r : EStateM.Result Interrupt Machine α} {r' : EStateM.Result Interrupt Machine β}
    (h : EndPadded (.same n) none post r r') (fuel : Nat) (ss : List Stmt) :
    EndPadded (.same n) none anyEnds (LoxLang.execAll fuel ss (endOf r))
      (LoxLang.execAll fuel ss (endOf r')) := by
  have hss {Q : Links} :
      PadStep Q none anyEnds (LoxLang.execAll fuel ss) (LoxLang.execAll fuel ss) :=
    .forM (PadStep.fuelled fuel).2.1 (Stmt.allPadded_refl ss)
  cases h with
  | ok le hm _ => exact (hss _ _ hm).before le
  | error le hm _ => exact (hss _ _ hm).before le

namespace ForLoop

/-- The loop stands in the program of the source: its tokens follow each other there, and the
walk over what is read comes to its tree in the state `w`. -/
structure Stands (config : Config) (source : String) (f : ForLoop) (w : Walk) : Prop where
  written : ∃ g o ts, f.Written g o ts ∧ ts <:+: (Token.scan config.file source).1
  comes : Part.Comes (.stmts (Program.ofTokens (Token.scan config.file source).1).statements)
    (Walk.start config.allowRedefinition) (.stmt f.tree) w

theorem Stands.desugared {config : Config} {source : String} {f : ForLoop} {w : Walk}
    (h : f.Stands config source w) : Desugared (f.resolve w).1 (f.tree.resolve w).1 := by
  have hn := Token.ordinary_scan config.file source
  have hr : Part.Regular (.stmts (Program.ofTokens (Token.scan config.file source).1).statements) :=
    Program.regular_ofTokens hn
  obtain ⟨g, o, ts, hts, hin⟩ := h.written
  obtain ⟨-, hw⟩ := h.comes.housed (housed_start _) hr
  exact desugared_resolve (hts.fit fun t ht => hn t (hin.subset ht)) hw.clear

/-! ## A loop in two programs -/

/-- `for (var i = true; i; x) print i;`, which begins in this column. -/
def sample (column : Nat) : ForLoop :=
  let place (offset : Nat) : Place := ⟨"test.lox", 1, column + offset⟩
  let use (x : String) (offset : Nat) : Expr := .read ⟨⟨x, place offset⟩, none⟩
  { place := place 0
    initial := some (.declare ⟨"i", place 9⟩ (some (.literal .yes (place 13))))
    test := some (use "i" 19)
    step := some (use "x" 22)
    body := .print (use "i" 31) (place 25) }

/-- The tokens of the sample, with initializer, test, step and body set apart. -/
def sampleTokens (column : Nat) : List Token :=
  let word (m : Mark) (lexeme : String) (offset : Nat) : Token :=
    .sample (.mark m) lexeme (column + offset)
  let name (x : String) (offset : Nat) : Token := .sample .identifier x (column + offset)
  word .forWord "for" 0 :: word .leftParen "(" 4 ::
    ((word .varWord "var" 5 :: name "i" 9 :: word .equal "=" 11 ::
        ([word .trueWord "true" 13] ++ [word .semicolon ";" 17])) ++
      ([name "i" 19] ++ word .semicolon ";" 20 ::
        ([name "x" 22] ++ word .rightParen ")" 23 ::
          (word .printWord "print" 25 :: ([name "i" 31] ++ [word .semicolon ";" 32])))))

theorem derives_of_primary {g : Rules} {ts : List Token} {e : Expr} (h : Derives g .primary ts e) :
    Derives g .expression ts e :=
  .single (.value (.first (.tighter rfl (.first (.tighter rfl (.first (.tighter rfl (.first
    (.tighter rfl (.first (.tighter rfl (.first (.tightest rfl (.called (.primary h)))))))))))))))

theorem written_sample (column : Nat) :
    (sample column).Written (reading false) false (sampleTokens column) :=
  .mk rfl rfl (.startVar (.varDeclWith rfl rfl rfl (derives_of_primary (.yes rfl)) rfl))
    (.present (derives_of_primary (.read rfl))) rfl (.present (derives_of_primary (.read rfl))) rfl
    (.print rfl (derives_of_primary (.read rfl)) rfl)

/-- The sample as a program of its own. -/
def aloneSource : String := "for (var i = true; i; x) print i;"

theorem stands_alone :
    (sample 1).Stands ⟨false, false, "test.lox"⟩ aloneSource (.start false) where
  written := by
    refine ⟨_, _, _, written_sample 1, [], [.sample .finish "" 34], ?_⟩
    cbv
  comes := by
    have hp : (Program.ofTokens (Token.scan "test.lox" aloneSource).1).statements =
        [(sample 1).tree] := by cbv
    exact hp ▸ .single (.head _)

/-- Here `x` awaits its value while the loop runs. -/
def calledSource : String :=
  "\x7b var x = (fun () \x7b for (var i = true; i; x) print i; \x7d)(); \x7d"

/-- The walk in the body of the function. -/
def calledWalk : Walk :=
  ((openScope (Walk.start false)).2.await ⟨"x", ⟨"test.lox", 1, 7⟩⟩).body .function []

theorem stands_called :
    (sample 21).Stands ⟨false, false, "test.lox"⟩ calledSource calledWalk where
  written := by
    refine ⟨_, _, _, written_sample 21, (Token.scan "test.lox" calledSource).1.take 9,
      (Token.scan "test.lox" calledSource).1.drop 23, ?_⟩
    cbv
  comes := by
    let place (column : Nat) : Place := ⟨"test.lox", 1, column⟩
    have hp : (Program.ofTokens (Token.scan "test.lox" calledSource).1).statements =
        [.block [.declare ⟨"x", place 7⟩ (some (.call (.group
          (.lambda [] [(sample 21).tree] (place 12)) (place 11)) [] (place 57)))] (place 1)] := by
      cbv
    -- each part is the first one inside the part around it
    have first {p q : Part} {w v : Walk} {qs : List (Part × Walk)}
        (h : p.inside w = (q, v) :: qs) : (q, v) ∈ p.inside w := h ▸ .head qs
    rw [hp]
    exact .head (first rfl) (.head (first rfl) (.head (first rfl) (.head (first rfl)
      (.head (first rfl) (.head (first rfl) (.head (first rfl) (.single (first rfl))))))))

/-! ## The loop and its tree -/

/-- **The tree of a `for` loop does what the loop does.** In the resolved program the tree
stands where the loop was. On any machine that knows of no scopes but its own, as that of a
host always does (`closed_after`), it prints what the loop prints, ends as the loop does,
normally or with the same signal or with the same fault up to a distance that the fault
names, and leaves the same values in all variables and fields; nor does anything that runs
afterwards tell the two apart. -/
theorem tree_does_the_same {config : Config} {source : String} {f : ForLoop} {w : Walk}
    (h : f.Stands config source w) {m : Machine} (hm : m.Closed) (fuel : Nat) :
    let program := (Program.ofTokens (Token.scan config.file source).1).statements
    let direct := (f.resolve w).1.run fuel m
    let desugared := exec fuel (f.tree.resolve w).1 m
    Part.Comes (.stmts (Resolved.program config.allowRedefinition program).tree)
        (Walk.start config.allowRedefinition) (.stmt (f.tree.resolve w).1) w ∧
      EndPadded (.same m.scopes.size) none anyEnds direct desugared ∧
      ∀ n rest, EndPadded (.same m.scopes.size) none anyEnds (execAll n rest (endOf direct))
        (execAll n rest (endOf desugared)) := by
  intro program direct desugared
  have hends : EndPadded (.same m.scopes.size) none anyEnds direct desugared :=
    h.desugared.run m m hm.padded
  exact ⟨h.comes.resolve, hends, hends.execAll⟩

/-- The sample by itself, on a machine that has run nothing. -/
theorem sample_does_the_same :
    let m := Machine.start false (.empty none false) (.ticking 0)
    (sample 1).Stands ⟨false, false, "test.lox"⟩ aloneSource (.start false) ∧ m.Closed ∧
      EndPadded (.same m.scopes.size) none anyEnds (((sample 1).resolve (.start false)).1.run 9 m)
        (exec 9 ((sample 1).tree.resolve (.start false)).1 m) :=
  have hm := closed_start false (.empty none false) (.ticking 0)
  ⟨stands_alone, hm, (tree_does_the_same stands_alone hm 9).2.1⟩

/-- The fault that a step ends in. -/
def faultOf? {α : Type} : EStateM.Result Interrupt Machine α → Option Fault
  | .error (.fault f) _ => some f
  | _ => none

/-- In a program without problems the step of the sample reads a variable that awaits its
value. The loop faults two scopes from where the variable will be, its tree three, and so
does the program. -/
theorem fault_counts_block :
    let config : Config := ⟨false, false, "test.lox"⟩
    let program := (Program.ofTokens (Token.scan config.file calledSource).1).statements
    let m := (Machine.start false (.empty none false) (.ticking 0)).inside.inside
    let fault (d : Nat) : Fault := ⟨⟨"test.lox", 1, 43⟩, .mismatch (.unbound d "x")⟩
    (Resolved.program config.allowRedefinition program).problems = [] ∧
      (sample 21).Stands config calledSource calledWalk ∧ m.Closed ∧
      faultOf? (((sample 21).resolve calledWalk).1.run 9 m) = some (fault 2) ∧
      faultOf? (exec 9 ((sample 21).tree.resolve calledWalk).1 m) = some (fault 3) ∧
      ((Host.after config (.empty none false) (.ticking 0) []).perform 15 (.run calledSource)).bind
        (fun p => p.1.fault?) = some (fault 3) :=
  ⟨by decide +kernel, stands_called, (closed_start _ _ _).inside.inside, by decide +kernel,
    by decide +kernel, by decide +kernel⟩

end ForLoop

end LoxLang
