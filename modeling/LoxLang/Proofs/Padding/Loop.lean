import LoxLang.Proofs.Machine.Restored
import LoxLang.Proofs.Machine.Signals
import LoxLang.Proofs.Padding.Closed
import LoxLang.Proofs.Padding.Resolving

/-!
# What a `for` loop does

A `for` loop is read as a `while` loop whose body and step share a block, in a block of its
own with the initializer. Here it is taken as it is written: the initializer runs once in a
scope of its own, test, body and step in that scope, and only a `break` of the body ends the
loop early. `Desugared` says what resolving makes of the tree next to the loop, and
`Desugared.run` that the two then do the same.
-/

namespace LoxLang

open Run Scoping

/-! ## The loop as it is written -/

/-- The parts of a `for` loop. -/
structure ForLoop where
  place : Place
  initial : Option Stmt
  test : Option Expr
  step : Option Expr
  body : Stmt

namespace ForLoop

def tree (f : ForLoop) : Stmt := .forLoop f.place f.initial f.test f.step f.body

/-- The tokens are a `for` loop with these parts. -/
inductive Written (g : Rules) (o : Bool) : List Token → ForLoop → Prop
  | mk {w l m r : Token} {is cs ss bs : List Token} {initial : Option Stmt}
      {test step : Option Expr} {body : Stmt} (hw : w.isMark .forWord) (hl : l.isMark .leftParen)
      (hi : Derives g .forStart is initial) (ht : Derives g .optional cs test)
      (hm : m.isMark .semicolon) (hs : Derives g .optional ss step) (hr : r.isMark .rightParen)
      (hb : Derives g (.statement o) bs body) :
      Written g o (w :: l :: (is ++ (cs ++ m :: (ss ++ r :: bs))))
        ⟨w.place, initial, test, step, body⟩

def resolve? : Option Expr → Resolving (Option Expr)
  | none => return none
  | some e => return some (← e.resolve)

/-- Resolves test, step and body, all of them in the scope that is open. -/
def resolveRounds (f : ForLoop) : Resolving ForLoop := do
  let test ← resolve? f.test
  let step ← resolve? f.step
  let body ← f.body.resolve
  return { f with test, step, body }

/-- Resolves the loop. Its parts share a scope, which is one of their own if there is an
initializer. -/
def resolve (f : ForLoop) : Resolving ForLoop :=
  match f.initial with
  | none => f.resolveRounds
  | some initial => inScope do
    let initial ← initial.resolve
    let f ← f.resolveRounds
    return { f with initial := some initial }

/-- Is there to be another round? Without a test there always is. -/
def goesOn (f : ForLoop) (fuel : Nat) : Run Bool :=
  match f.test with
  | none => return true
  | some test => return (← eval fuel test).isTrue

/-- Runs the body and then the step for as long as the test is true, up to a `break` of the
body. The fuel is that of the tree, which has body and step in a block, one deeper. -/
def rounds (f : ForLoop) : Nat → Run Unit
  | 0 => throw .exhausted
  | fuel + 1 => do
    if ← f.goesOn fuel then
      match f.step with
      | none => breakable (exec fuel f.body) (f.rounds fuel)
      | some step => breakable (exec (fuel - 1) f.body) do
        discard (eval (fuel - 2) step)
        f.rounds fuel
    else return ()

/-- Runs the loop: the initializer once, in a scope of its own, and there the rounds. -/
def run (f : ForLoop) : Nat → Run Unit
  | 0 => throw .exhausted
  | fuel + 1 =>
    match f.initial with
    | none => f.rounds fuel
    | some initial => do
      let m ← get
      let scope ← newScope m.current
      within scope do
        exec fuel initial
        f.rounds (fuel - 1)

/-! ## Reading -/

section
variable {g : Rules} {o : Bool} {ts : List Token} {f : ForLoop}

/-- The loop is read as its tree. -/
theorem Written.derives (h : f.Written g o ts) : Derives g (.statement o) ts f.tree := by
  cases h with
  | mk hw hl hi ht hm hs hr hb => exact .forLoop hw hl hi ht hm hs hr hb

/-- What is read from the word `for` on is a loop. -/
theorem derives_iff_written {t : Token} {s : Stmt} (ht : t.isMark .forWord) :
    Derives g (.statement o) (t :: ts) s ↔
      ∃ f : ForLoop, f.Written g o (t :: ts) ∧ s = f.tree := by
  refine ⟨fun h => ?_, fun ⟨f, hf, hs⟩ => hs ▸ hf.derives⟩
  have other {m : Mark} (hm : t.isMark m) : m = .forWord := by
    rw [Token.isMark_eq_decide ht, decide_eq_true_eq] at hm
    exact hm.symm
  generalize hus : t :: ts = us at h
  cases h with
  | forLoop hw hl hi hc hm hs hr hb => exact ⟨_, .mk hw hl hi hc hm hs hr hb, rfl⟩
  | expression he =>
    have hf := (Grammar.begins_of_derives he).1.head_ne (m := .forWord) rfl
    rw [← hus, List.head?_cons, Option.any_some, ht] at hf
    cases hf
  | blockStmt hb =>
    obtain ⟨rfl, rfl⟩ := List.cons.inj hus
    cases hb with
    | block hl => cases other hl
  | ifThen hw | ifElse hw | whileLoop hw | print hw | returnWith hw | breakOut hw =>
    obtain ⟨rfl, rfl⟩ := List.cons.inj hus
    cases other hw

/-- The parts are as they are read. -/
structure Fit (f : ForLoop) : Prop where
  initial : ∀ s ∈ f.initial, s.Regular
  step : ∀ e ∈ f.step, e.Regular ∧ e.bare = e
  body : f.body.declared? = none ∧ f.body.Regular ∧ f.body.bare = f.body

theorem Written.fit (h : f.Written g o ts) (hn : Token.Ordinary ts) : f.Fit := by
  cases h with
  | mk hw hl hi ht hm hs hr hb =>
    simp only [Token.ordinary_cons, Token.ordinary_append] at hn
    obtain ⟨-, -, hni, -, -, hns, -, hnb⟩ := hn
    obtain ⟨hd, hreg⟩ := Grammar.regular_of_derives hb hnb
    exact ⟨Grammar.regular_of_derives hi hni,
      fun e he => ⟨Grammar.regular_of_derives hs hns e he, Grammar.bare_of_derives hs e he⟩,
      hd, hreg, Grammar.bare_of_derives hb⟩

end

/-! ## Resolving -/

/-- What the tree of a loop is once both are resolved: the block puts in a scope where it
has body and step. -/
inductive Desugared : ForLoop → Stmt → Prop
  | plain (p : Place) (t : Option Expr) (b : Stmt) :
    Desugared ⟨p, none, t, none, b⟩ (.loop (t.getD (.literal .yes p)) b p)
  | stepped (p : Place) (t : Option Expr) {e e' : Expr} {b b' : Stmt}
      (he : e.Padded (some 0) e') (hb : b.Padded (some 0) b') :
    Desugared ⟨p, none, t, some e, b⟩
      (.loop (t.getD (.literal .yes p)) (.block [b', .expression e'] p) p)
  | enclosed (i : Stmt) {f : ForLoop} {s : Stmt} (h : Desugared { f with initial := none } s) :
    Desugared { f with initial := some i } (.block [i, s] f.place)

end ForLoop

/-- The innermost scope is not one of `super`. -/
def Scoping.Walk.Clear (w : Walk) : Prop := ∀ s, w.outline[0]? = some s → s.has "super" = false

theorem Housed.clear {w : Walk} (h : Housed w) : w.Clear := by
  intro s hs
  rw [← Bool.not_eq_true]
  intro hsuper
  obtain ⟨d, -, hd, -⟩ := h.beside 0 (s.has "this", s.has "super")
    (by rw [marks, List.getElem?_map, hs]; rfl) hsuper
  cases hd

/-- It is not, either, where the initializer of a loop has been passed. -/
theorem clear_initial {s : Stmt} (hs : s.Regular) (w : Walk) :
    (s.resolve (openScope w).2).2.Clear := by
  have ho := s.outline_of_contained (openScope w).2 (s.contained_of_regular hs)
  have hn := s.ordinary_of_regular hs
  intro t ht
  rw [ho, Stmt.outlined] at ht
  cases hd : s.declared? with
  | none =>
    rw [hd] at ht
    cases ht
    rfl
  | some name =>
    rw [hd] at ht
    cases ht
    rw [Bindings.has_insert, beq_eq_false_iff_ne.2 (hn name hd).2.symm, Bool.false_or]
    rfl

theorem Scoping.Walk.Clear.spaced {w : Walk} (h : w.Clear) : Spaced (some 0) w (openScope w).2 where
  outline := rfl
  classKind := rfl
  clear := by
    rintro _ s ⟨⟩ hs
    exact h s hs

namespace ForLoop

/-- The step is resolved where the body has been passed, one scope further in. -/
theorem padded_step {w : Walk} (hw : w.Clear) {b : Stmt} (hb : b.declared? = none)
    (hreg : b.Regular) {e : Expr} (he : e.Regular) (hbare : e.bare = e) :
    (e.resolve w).1.Padded (some 0) (e.resolve (b.resolve (openScope w).2).2).1 := by
  have hout := b.outline_of_contained (openScope w).2 (b.contained_of_regular hreg)
  rw [Stmt.outlined, hb] at hout
  have hs := hw.spaced.of_outline rfl hout (b.inner_resolve _).classKind
  have hp := e.padded_resolve hs he
  rwa [hbare] at hp

/-- The body is resolved where the step has not been passed yet, one scope further in. -/
theorem padded_body {w : Walk} (hw : w.Clear) {b : Stmt} (hb : b.declared? = none)
    (hreg : b.Regular) (hbare : b.bare = b) (e : Expr) :
    (b.resolve (e.resolve w).2).1.Padded (some 0) (b.resolve (openScope w).2).1 := by
  have hs := hw.spaced.steady (e.steady_resolve w) (.refl _)
  have hp := b.padded_resolve hs hreg fun _ => hb
  rwa [hbare] at hp

theorem desugared_rounds {f : ForLoop} (hf : f.Fit) {w : Walk} (hw : w.Clear) :
    Desugared { (f.resolveRounds w).1 with initial := none }
      ((Stmt.forLoop f.place none f.test f.step f.body).resolve w).1 := by
  obtain ⟨p, i, t, u, b⟩ := f
  obtain ⟨-, hstep, hb, hreg, hbare⟩ := hf
  -- the walk behind the test
  have hafter (e : Expr) : (e.resolve w).2.Clear := by
    intro s hs
    rw [(e.steady_resolve w).outline] at hs
    exact hw s hs
  cases u with
  | none =>
    cases t with
    | none => exact .plain p none _
    | some t => exact .plain p (some (t.resolve w).1) _
  | some e =>
    obtain ⟨he, hebare⟩ := hstep e rfl
    cases t with
    | none =>
      exact .stepped p none (padded_step hw hb hreg he hebare) (padded_body hw hb hreg hbare e)
    | some t =>
      exact .stepped p (some (t.resolve w).1) (padded_step (hafter t) hb hreg he hebare)
        (padded_body (hafter t) hb hreg hbare e)

theorem desugared_resolve {f : ForLoop} (hf : f.Fit) {w : Walk} (hw : w.Clear) :
    Desugared (f.resolve w).1 (f.tree.resolve w).1 := by
  obtain ⟨p, i, t, u, b⟩ := f
  cases i with
  | none => exact desugared_rounds hf hw
  | some i => exact .enclosed _ (desugared_rounds hf (clear_initial (hf.initial i rfl) w))

end ForLoop

/-! ## Running -/

/-- A step that no `break` comes out of may be part of the body. -/
theorem Run.breakable_bind {body step rest : Run Unit} (h : Silent step) :
    breakable body (step >>= fun _ => rest) = breakable (body >>= fun _ => step) rest := by
  funext m
  show breakable body (EStateM.bind step fun _ => rest) m =
    breakable (EStateM.bind body fun _ => step) rest m
  simp only [Run.breakable, EStateM.bind]
  cases body m with
  | error i m => cases i <;> rfl
  | ok a m =>
    dsimp only
    cases hs : step m with
    | ok a n => rfl
    | error i n =>
      cases i with
      | breaking p => exact absurd trivial (h m _ n hs)
      | _ => rfl

/-- The second machine runs inside a scope that is put in, the first one does not. -/
theorem padStep_putIn {L : Links} {α β : Type} {post : Links → α → β → Prop} {step : Run α}
    {step' : Run β} (hr : Restores step)
    (h : ∀ Q, L.Le Q → PadStep Q (some 0) post step step') :
    PadStep L none post step (do
      let m ← get
      let scope ← newScope m.current
      within scope step') := by
  intro m m' hm
  have le := L.le_add (some 0) m.current hm.scopes.below fun hg => absurd rfl hg
  have hpad : Machine.Padded (L.add (some 0) m.current hm.scopes.below fun hg => absurd rfl hg)
      (some 0) m
      { m' with scopes := (m'.scopes.child m'.current).1, current := m'.scopes.size } :=
    { hm with
      scopes := hm.scopes.putIn hm.current
      objects := fun i n => rel_imp (hm.objects i n) fun _ _ => .mono le
      globals := le hm.globals
      current := .inr ⟨rfl, rfl, rfl⟩ }
  have hs := h _ le _ _ hpad
  -- the first machine is back in its scope by itself
  have hback := (hr m).current
  show EndPadded L none post (step m)
    (within m'.scopes.size step' { m' with scopes := (m'.scopes.child m'.current).1 })
  unfold Run.within
  dsimp only
  generalize step m = r at hs hback ⊢
  generalize step' { m' with
    scopes := (m'.scopes.child m'.current).1, current := m'.scopes.size } = r' at hs ⊢
  cases hs with
  | ok hle hn hpost =>
    dsimp only [endOf] at hback
    exact .ok (le.trans hle) { hn with current := hback ▸ hle (le hm.current) } hpost
  | error hle hn hi =>
    dsimp only [endOf] at hback
    exact .error (le.trans hle) { hn with current := hback ▸ hle (le hm.current) } hi

namespace ForLoop

variable {L : Links} {fuel : Nat}

/-- Body and step do in the block what they do one after the other. -/
theorem padStep_block {e e' : Expr} {b b' : Stmt} (he : e.Padded (some 0) e')
    (hb : b.Padded (some 0) b') (p : Place) :
    PadStep L none anyEnds (exec fuel b >>= fun _ => discard (eval (fuel - 1) e))
      (exec (fuel + 1) (.block [b', .expression e'] p)) := by
  have hrestores : Restores (exec fuel b >>= fun _ => discard (eval (fuel - 1) e)) :=
    ((restores_fuel fuel).2.1 b).bind fun _ => Restores.law.discard ((restores_fuel (fuel - 1)).1 e)
  rw [exec]
  refine padStep_putIn hrestores fun Q _ => ?_
  show PadStep Q (some 0) anyEnds _
    (exec fuel b' >>= fun _ => exec fuel (.expression e') >>= fun _ => pure ())
  refine ((PadStep.fuelled fuel).2.1 Q (some 0) _ _ hb).bind fun S _ _ _ _ => ?_
  rw [bind_pure_unit]
  cases fuel with
  | zero => exact .throw .exhausted
  | succ fuel => exact ((PadStep.fuelled fuel).1 S (some 0) _ _ he).discard

/-- The test of the tree is the test of the loop. -/
theorem padStep_goesOn (f : ForLoop) :
    PadStep L none (fun _ b v => v.isTrue = b) (f.goesOn (fuel + 1))
      (eval (fuel + 1) (f.test.getD (.literal .yes f.place))) := by
  unfold goesOn
  cases f.test with
  | none => exact .pure rfl
  | some e =>
    rw [Option.getD_some, ← bind_pure (eval (fuel + 1) e)]
    exact ((PadStep.fuelled (fuel + 1)).1 L none _ _ e.padded_refl).bind fun Q v v' _ hv =>
      .pure hv.isTrue

/-- Body and step of one round. -/
def round (f : ForLoop) (fuel : Nat) : Run Unit :=
  match f.step with
  | none => exec fuel f.body
  | some step => do
    exec (fuel - 1) f.body
    discard (eval (fuel - 2) step)

theorem rounds_succ (f : ForLoop) (fuel : Nat) : f.rounds (fuel + 1) = do
    if ← f.goesOn fuel then breakable (f.round fuel) (f.rounds fuel) else return () := by
  rw [rounds, round]
  cases f.step with
  | none => rfl
  | some step =>
    dsimp only
    rw [Run.breakable_bind (Silent.law.discard (silent_eval (fuel - 2) step))]

theorem rounds_one (f : ForLoop) : f.rounds 1 = throw .exhausted := by
  unfold rounds goesOn
  cases f.test <;> cases f.step <;> rfl

/-- One round of the tree. -/
theorem Desugared.round {f : ForLoop} {T : Expr} {B : Stmt} {p : Place}
    (h : Desugared f (.loop T B p)) : PadStep L none anyEnds (f.round fuel) (exec fuel B) := by
  cases h with
  | plain => exact (PadStep.fuelled fuel).2.1 L none _ _ (Stmt.padded_refl _)
  | stepped _ _ he hb =>
    cases fuel with
    | zero => exact .throw .exhausted
    | succ fuel => exact padStep_block he hb p

/-- The rounds are the same whatever comes before them. -/
theorem rounds_initial (f : ForLoop) (i : Option Stmt) :
    ({ f with initial := i } : ForLoop).rounds fuel = f.rounds fuel := by
  induction fuel with
  | zero => rfl
  | succ fuel ih =>
    rw [rounds_succ, rounds_succ, ih]
    rfl

/-- All rounds of the tree, by induction on the fuel. -/
theorem Desugared.rounds {f : ForLoop} {T : Expr} {B : Stmt} {p : Place}
    (h : Desugared f (.loop T B p)) : PadStep L none anyEnds (f.rounds fuel) (loop fuel T B) := by
  have htest : T = f.test.getD (.literal .yes f.place) := by
    cases h <;> rfl
  induction fuel generalizing L with
  | zero => exact .throw .exhausted
  | succ fuel ih =>
    rw [LoxLang.loop_succ]
    cases fuel with
    | zero =>
      rw [rounds_one]
      exact .throw .exhausted
    | succ fuel =>
      rw [rounds_succ, htest]
      refine (padStep_goesOn f).bind fun Q b v _ hv => ?_
      subst hv
      split
      · exact .breakable h.round fun S _ => htest ▸ ih
      · exact .pure trivial

theorem Desugared.exec_succ {f : ForLoop} {s : Stmt} (h : Desugared f s) (hi : f.initial = none) :
    PadStep L none anyEnds (f.rounds fuel) (exec (fuel + 1) s) := by
  unfold exec
  cases h with
  | plain p t b => exact (Desugared.plain p t b).rounds
  | stepped p t he hb => exact (Desugared.stepped p t he hb).rounds
  | enclosed => cases hi

/-- The tree of a loop does what the loop does. -/
theorem Desugared.run {f : ForLoop} {s : Stmt} (h : Desugared f s) :
    PadStep L none anyEnds (f.run fuel) (exec fuel s) := by
  cases fuel with
  | zero => exact .throw .exhausted
  | succ fuel =>
    cases h with
    | plain p t b => exact (Desugared.plain p t b).exec_succ rfl
    | stepped p t he hb => exact (Desugared.stepped p t he hb).exec_succ rfl
    | @enclosed i f s h =>
      unfold ForLoop.run
      rw [exec]
      refine PadStep.get.bind fun Q m m' _ hm => ?_
      refine (PadStep.newScope hm.current).bind fun S a a' _ ha => .within ha ?_
      show PadStep S none anyEnds
        (exec fuel i >>= fun _ => ({ f with initial := some i } : ForLoop).rounds (fuel - 1))
        (exec fuel i >>= fun _ => exec fuel s >>= fun _ => pure ())
      refine ((PadStep.fuelled fuel).2.1 S none _ _ i.padded_refl).bind fun T _ _ _ _ => ?_
      rw [bind_pure_unit, rounds_initial, ← rounds_initial f none]
      cases fuel with
      | zero => exact .throw .exhausted
      | succ fuel => exact h.exec_succ rfl

end ForLoop

end LoxLang
