import LoxLang.Proofs.Renaming.Rename
import LoxLang.Proofs.Renaming.Resolve
import LoxLang.Proofs.Renaming.Run
import LoxLang.Proofs.Session.Agreement

/-!
# Local names do not matter

Between the requests of a session a machine is alike to itself, whatever the names: what it
holds was made in known scopes, none of which has a mark. So a program and the same program
with a local variable renamed, run from there, print the same and end alike.
-/

namespace LoxLang

open Scoping

/-! ## Between requests -/

section
variable {t : Watched}

/-- A scope that mirrors scopes of a walk has been made. -/
theorem Mirrors.lt (hg : Good t) : ∀ {ss : List (Bindings Bool)} {os : List Opener} {id : ScopeId},
    Mirrors t id ss os → id < t.machine.scopes.size
  | [], [], _, hm => (show _ = t.machine.globals from hm) ▸ hg.globals
  | _ :: _, _ :: _, _, ⟨_, _, hp, _⟩ => t.lt_of_parent hp

/-- The scope around one that mirrors scopes of a walk does so too. -/
theorem Mirrors.around (hg : Good t) {p : ScopeId} :
    ∀ {ss : List (Bindings Bool)} {os : List Opener} {id : ScopeId},
    Mirrors t id ss os → t.parent? id = some p → ∃ ss os, Mirrors t p ss os
  | [], [], _, hm, hp => by
    rw [show _ = t.machine.globals from hm, hg.root] at hp
    cases hp
  | _ :: ss, _ :: os, _, ⟨_, _, hp', hm⟩, hp => by
    cases hp'.symm.trans hp
    exact ⟨ss, os, hm⟩

/-- The scopes that mirror scopes of a walk are known, and none of them has a mark. -/
def Unmarked (t : Watched) (W : World) : Prop :=
  ∀ id ρ, W id = some ρ ↔ (∃ ss os, Mirrors t id ss os) ∧ ρ = .none

theorem exists_unmarked (t : Watched) : ∃ W, Unmarked t W := by
  classical
  refine ⟨fun id => if ∃ ss os, Mirrors t id ss os then some .none else none, fun id ρ => ?_⟩
  dsimp only
  split
  · rename_i h
    rw [Option.some.injEq, eq_comm]
    exact ⟨fun he => ⟨h, he⟩, fun he => he.2⟩
  · rename_i h
    exact ⟨fun he => (nomatch he), fun he => absurd he.1 h⟩

variable (x y : String) {W : World} (hW : Unmarked t W)

theorem closureAlike_self (f : Closure) : ClosureAlike x y .none f f := by
  refine ⟨rfl, rfl, rfl, rfl, false, forall₂_declared_self x y _, ?_⟩
  rw [Marks.push_none]
  exact Stmt.allRenamed_self x y f.body

include hW

theorem methodAlike_self {f : Closure} (h : GoodMethod t f) : MethodAlike x y W f f := by
  obtain ⟨s, ss, o, os, -, hm, -⟩ := h
  refine ⟨.none, (hW _ _).2 ⟨⟨ss, os, hm⟩, rfl⟩, ?_⟩
  rw [Marks.push_none]
  exact closureAlike_self x y f

theorem classAlike_self {c : Class} (h : GoodClass t c) : ClassAlike x y W c c := by
  refine ⟨rfl, rfl, fun n => ?_⟩
  cases hm : c.method? n with
  | none => exact .none
  | some f => exact .some (methodAlike_self x y hW (h n f hm))

/-- A good value is alike to itself. -/
theorem valueAlike_self {v : Value} (h : GoodValue t v) : ValueAlike x y W v v := by
  cases v with
  | function f =>
    obtain ⟨⟨ss, os, -, hm⟩, -⟩ := h
    exact .function ⟨.none, (hW _ _).2 ⟨⟨ss, os, hm⟩, rfl⟩, closureAlike_self x y f⟩
  | classValue c => exact .classValue (classAlike_self x y hW h)
  | object i c => exact .object i (classAlike_self x y hW h)
  | _ => exact .plain trivial

theorem rel_self {o : Option Value} (h : ∀ v, o = some v → GoodValue t v) :
    Option.Rel (ValueAlike x y W) o o := by
  cases o with
  | none => exact .none
  | some v => exact .some (valueAlike_self x y hW (h v rfl))

theorem scopesMatch_self (hg : Good t) : ScopesMatch x y W t.machine.scopes t.machine.scopes where
  size := rfl
  bounded id ρ hi := by
    obtain ⟨⟨_, _, hm⟩, -⟩ := (hW id ρ).1 hi
    exact hm.lt hg
  parent _ _ _ := rfl
  around id ρ p hi hp := by
    obtain ⟨⟨_, _, hm⟩, rfl⟩ := (hW id ρ).1 hi
    exact (hW p _).2 ⟨hm.around hg hp, rfl⟩
  allow _ _ _ := rfl
  own? id ρ n hi := by
    obtain ⟨-, rfl⟩ := (hW id ρ).1 hi
    exact rel_self x y hW (hg.scopes id n)

end

/-- Between requests a machine is alike to itself, and runs outside of all marks. -/
theorem AtRest.alike {t : Watched} (h : AtRest t) {x y : String} (hx : x ≠ "this" ∧ x ≠ "super")
    (hy : y ≠ "this" ∧ y ≠ "super") :
    ∃ W, MachineAlike x y W t.machine t.machine ∧ W t.machine.current = some .none := by
  obtain ⟨W, hW⟩ := exists_unmarked t
  have hglobals : W t.machine.globals = some .none := (hW _ _).2 ⟨⟨[], [], rfl⟩, rfl⟩
  refine ⟨W, ⟨hx, hy, scopesMatch_self x y hW h.good, rfl, fun i n => ?_, rfl, rfl, rfl, rfl, rfl,
    hglobals⟩, h.current ▸ hglobals⟩
  exact rel_self x y hW (h.good.objects i n)

theorem Host.after_alike (config : Config) (sink : Sink) (clock : Clock)
    (past : List (Nat × Request)) {x y : String} (hx : x ≠ "this" ∧ x ≠ "super")
    (hy : y ≠ "this" ∧ y ≠ "super") :
    let m := (Host.after config sink clock past).machine
    ∃ W, MachineAlike x y W m m ∧ W m.current = some .none := by
  rw [← Session.after_host]
  exact (atRest_after config sink clock past).alike hx hy

/-! ## Ends of runs -/

/-- Two runs end alike. Both have printed the same, and either both are done, or both have too
little fuel to go on, or both have failed, at the same place and for the same reason, which may
name the variable by its new text. -/
inductive SameEnd (x y : String) : EStateM.Result Interrupt Machine Unit →
    EStateM.Result Interrupt Machine Unit → Prop
  | done {m m' : Machine} (hs : m'.sink = m.sink) : SameEnd x y (.ok () m) (.ok () m')
  | stopped {i i' : Interrupt} {m m' : Machine} (hs : m'.sink = m.sink)
      (h : Option.Rel (FaultAlike x y) i.fault? i'.fault?) :
      SameEnd x y (.error i m) (.error i' m')

/-- Interrupts that are alike come to faults that are alike if nothing catches them. -/
theorem InterruptAlike.fault? {x y : String} {W : World} {i i' : Interrupt}
    (h : InterruptAlike x y W i i') : Option.Rel (FaultAlike x y) i.fault? i'.fault? := by
  cases h with
  | fault hf => exact .some hf
  | breaking place => exact .some (faultAlike_self x y _)
  | returning place _ => exact .some (faultAlike_self x y _)
  | exhausted => exact .none

theorem Sim.sameEnd {x y : String} {W : World} {ρ : Marks} {m m' : Machine}
    {step step' : Run Unit} (h : Sim x y W ρ (fun _ _ _ => True) step step')
    (hm : MachineAlike x y W m m') (hc : W m.current = some ρ) :
    SameEnd x y (step m) (step' m') := by
  obtain ⟨_, n, _, n', _, hs, hs', -, hn, -⟩ | ⟨i, n, i', n', _, hs, hs', -, hn, -, hi⟩ :=
    (h m m' hm hc).cases
  · rw [hs, hs']
    exact .done hn.sink
  · rw [hs, hs']
    exact .stopped hn.sink hi.fault?

/-! ## Programs -/

section
variable {d : Name} {y : String} (hd : d.IsOrdinary) (hy : y ≠ "this" ∧ y ≠ "super")
include hd hy

/-- A resolved program with a declaration renamed is resolved, and has its texts exchanged. -/
theorem Resolved.program_renamed {allow : Bool} {ss : List Stmt} (hr : Stmt.AllRegular ss)
    (hp : (Resolved.program allow ss).problems = []) {tree : List Stmt}
    (h : Stmt.AllRenamed (.of d y) .none (Resolved.program allow ss).tree tree) :
    ((Resolved.program allow tree).tree = tree ∧ (Resolved.program allow tree).problems = [] ∧
      List.Forall₂ (Name.Changed d y) (Resolved.program allow ss).unread
        (Resolved.program allow tree).unread) ∧
      Stmt.AllRenamed (.swap d.text y) .none (Resolved.program allow ss).tree tree := by
  let w := Walk.start allow
  have hq : (Stmt.resolveAll ss w).2.problems = w.problems := Array.toList_eq_nil_iff.1 hp
  have hagain := Stmt.resolveAll_again ss w
  have f := Stmt.allFollow _ h (fun hb => Bool.noConfusion hb) (Stmt.settled_resolveAll ss w hr hq)
    ((congrArg (·.2.problems) hagain).trans hq) (walkAlike_start hd hy allow)
  have halike := f.alike
  rw [show (Resolved.program allow ss).tree = (Stmt.resolveAll ss w).1 from rfl, hagain] at halike
  refine ⟨⟨f.again, ?_, halike.unread⟩, f.renamed⟩
  exact Array.toList_eq_nil_iff.2 (halike.problems.trans hq)

end

/-- **Local names do not matter.** Let a program resolve without problems, and let `tree` be
what it resolves to with a variable or parameter `d` of some scope renamed to `y`, which is
the name of nothing in it, together with just the uses that are bound to that scope. Then
`tree` resolves without problems to itself, so with the same depths, with the same warnings
but for that name; and from any machine that a session comes to, with any fuel, both print
the same, also where the fuel is too little, and end alike. -/
theorem Program.local_names_do_not_matter {tokens : List Token} (ht : Token.Ordinary tokens)
    (allow : Bool) {d : Name} (hd : d.IsOrdinary) {y : String} (hy : y ≠ "this" ∧ y ≠ "super")
    (hp : (Resolved.program allow (Program.ofTokens tokens).statements).problems = [])
    {tree : List Stmt}
    (h : Stmt.AllRenamed (.of d y) .none
      (Resolved.program allow (Program.ofTokens tokens).statements).tree tree) :
    let before := Resolved.program allow (Program.ofTokens tokens).statements
    let after := Resolved.program allow tree
    after.tree = tree ∧ after.problems = [] ∧
      List.Forall₂ (Name.Changed d y) before.unread after.unread ∧
      ∀ config sink clock past fuel,
        let m := (Host.after config sink clock past).machine
        SameEnd d.text y (execAll fuel before.tree m) (execAll fuel after.tree m) := by
  intro before after
  obtain ⟨⟨htree, hproblems, hunread⟩, hswap⟩ :=
    Resolved.program_renamed hd hy (Program.regular_ofTokens ht) hp h
  refine ⟨htree, hproblems, hunread, fun config sink clock past fuel => ?_⟩
  obtain ⟨W, hm, hc⟩ := Host.after_alike config sink clock past hd hy
  rw [show after.tree = tree from htree]
  exact (Sim.forM (sim_fuel fuel).2.1 hswap).sameEnd hm hc

/-- A block whose function `f` is declared ahead of the block's own `a` and keeps the global
one, while `g` has a parameter `a`. -/
def shadowingSource : String :=
  "var a = \"g\"; \x7b fun f() \x7b print a; \x7d var a = \"l\"; f(); " ++
    "fun g(a) \x7b a = a + \"!\"; \x7d g(a); print a; \x7d"

/-- In this program the block's own `a` is renamed, with its two uses; the global variable and
the parameter keep the name. -/
theorem Program.shadowing_name_does_not_matter :
    let d : Name := ⟨"a", ⟨"main.lox", 1, 41⟩⟩
    let before := Resolved.program false
      (Program.ofTokens (Token.scan "main.lox" shadowingSource).1).statements
    let tree := Stmt.renameAll d "b" .none before.tree
    let after := Resolved.program false tree
    (before.problems = [] ∧ Stmt.allAvoid "b" before.tree ∧ ¬ Stmt.allAvoid "b" tree ∧
        ¬ Stmt.allAvoid "a" tree) ∧
      after.tree = tree ∧ after.problems = [] ∧
      List.Forall₂ (Name.Changed d "b") before.unread after.unread ∧
      ∀ config sink clock past fuel,
        let m := (Host.after config sink clock past).machine
        SameEnd "a" "b" (execAll fuel before.tree m) (execAll fuel after.tree m) := by
  intro d before tree after
  have hproblems : before.problems = [] := by decide +kernel
  have havoid : Stmt.allAvoid "b" before.tree := by decide +kernel
  have hb : ¬ Stmt.allAvoid "b" tree := by decide +kernel
  have ha : ¬ Stmt.allAvoid "a" tree := by decide +kernel
  exact ⟨⟨hproblems, havoid, hb, ha⟩,
    Program.local_names_do_not_matter (Token.ordinary_scan "main.lox" shadowingSource) false
      ⟨by decide, by decide⟩ ⟨by decide, by decide⟩ hproblems
      (Stmt.allRenamed_rename .none before.tree havoid)⟩

end LoxLang
