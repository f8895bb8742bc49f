import LoxLang.Proofs.Receiver.Calls

/-!
# Runs are accounted for

Every construct keeps the state accounted for and gives values that are, from where it
stands. By induction on the fuel so does every run.
-/

namespace LoxLang

open Scoping

variable {past : List Visit}

namespace Watching

/-- Expressions keep the state accounted for, and so are their values. -/
def EvalAccounts (past : List Visit) (eval : Site → Expr → Watching Value) : Prop :=
  ∀ t σ e, Stands t σ → e.Settled σ.walk → σ.Surrounded → Account past t →
    Accounts past t (eval σ e) fun v u => SprungValue past u v

/-- Loops keep the state accounted for. -/
def LoopAccounts (past : List Visit) (loop : Site → Expr → Stmt → Watching Unit) : Prop :=
  ∀ t σ test body, Stands t σ → test.Settled σ.walk → body.declared? = none →
    body.Settled (test.resolve σ.walk).2 → σ.Surrounded → Account past t →
    Accounts past t (loop σ test body) fun _ _ => True

section
variable {eval : Site → Expr → Watching Value} (he : EvalSound eval) (hea : EvalAccounts past eval)
include he hea

/-- An expression and what comes after it, from where the run stands then. -/
theorem Accounts.evaluated {α : Type} {k : Value → Watching α} {post : α → Watched → Prop}
    {t : Watched} {σ : Site} {e : Expr} (h : Stands t σ) (hs : e.Settled σ.walk)
    (hσ : σ.Surrounded) (ha : Account past t)
    (hk : ∀ v u, eval σ e t = .ok v u → Grows t u → Stands u (σ.after e.resolve) →
      GoodValue u v → Later t u → Account past u → SprungValue past u v →
      Accounts past u (k v) post) : Accounts past t (eval σ e >>= k) post := by
  refine (hea t σ e h hs hσ ha).bind fun v u hrun hf ha hv => ?_
  obtain ⟨hu, hg, hc, hgood⟩ := (he t σ e h hs).ok hrun
  exact hk v u hrun hu ((h.grow hu hg hc).passed e) hgood hf ha hv

theorem Accounts.forValues : ∀ (es : List Expr) {t : Watched} {σ : Site}, Stands t σ →
    Expr.AllSettled es σ.walk → σ.Surrounded → Account past t →
    Accounts past t (forValues eval σ es) fun vs u => ∀ v ∈ vs, SprungValue past u v
  | [], _, _, _, _, _, ha => .pure ha fun _ hv => nomatch hv
  | e :: es, t, σ, h, ⟨hs, hss⟩, hσ, ha => by
    refine Accounts.evaluated he hea h hs hσ ha fun v u _ _ h _ _ ha hv => ?_
    refine (Accounts.forValues es h hss (hσ.passed e) ha).bind fun vs u' _ hf ha hvs => ?_
    exact .pure ha (List.forall_mem_cons.2 ⟨hv.grow hf, hvs⟩)

end

section
variable {fuel : Nat} (he : EvalSound (eval fuel)) (hx : ExecSound (exec fuel))
variable (hea : EvalAccounts past (eval fuel)) (hxa : ExecAccounts past (exec fuel))
include he hx hea hxa

/-- One step of the evaluation of an expression, for each construct. -/
theorem evalAccounts_succ : EvalAccounts past (eval (fuel + 1)) := by
  intro t σ e h hs hσ ha
  unfold eval
  cases e with
  | literal value _ =>
    refine .pass ha rfl fun ha => .pure ha ?_
    cases value <;> trivial
  | group inner _ =>
    exact .pass ha rfl (hea _ σ inner (h.visiting rfl) hs hσ)
  | unary op operand _ =>
    refine .pass ha rfl fun ha => ?_
    refine .evaluated he hea (h.visiting rfl) hs hσ ha fun v u _ _ _ _ _ ha _ => ?_
    exact .lift ha (op.plainly_apply _) fun _ => False.elim
  | binary op left right place =>
    refine .pass ha rfl fun ha => ?_
    refine .evaluated he hea (h.visiting rfl) hs.1 hσ ha fun l u _ _ h _ _ ha hl => ?_
    split
    · exact .pure ha hl
    · refine .evaluated he hea h hs.2 (hσ.passed left) ha fun r u' _ _ _ _ _ ha hr => ?_
      exact .lift ha (op.plainly_apply _ _ place) fun v hv => hv ▸ hr
  | sequence items _ =>
    refine .pass ha rfl fun ha => ?_
    refine (Accounts.forValues he hea items (h.visiting rfl) hs hσ ha).bind
      fun vs u _ _ ha hvs => .pure ha ?_
    rw [List.getLastD_eq_getLast?]
    cases hl : vs.getLast? with
    | none => trivial
    | some v => exact hvs v (List.mem_of_getLast? hl)
  | read target =>
    exact .pass ha rfl fun ha =>
      (Accounts.readVariable ha target).mono fun _ _ _ _ hv => hv.2
  | assign target value =>
    obtain ⟨hs, hn, -⟩ := hs
    refine .pass ha rfl fun ha => ?_
    refine .evaluated he hea (h.visiting rfl) hs hσ ha fun v u _ _ _ _ _ ha hv => ?_
    refine .pass ha rfl fun ha => ?_
    have hv : SprungValue past (u.visiting (σ.after value.resolve) (.assignment target)) v :=
      hv.grow ⟨(grows_visiting _ _ _).toExtends, List.suffix_cons _ _⟩
    exact (Accounts.assignVariable ha hn hv).bind fun _ _ _ hf ha _ => .pure ha (hv.grow hf)
  | call callee arguments place =>
    refine .pass ha rfl fun ha => ?_
    refine .evaluated he hea (h.visiting rfl) hs.1 hσ ha fun f u hcallee _ h hf hu ha hfs => ?_
    refine (Accounts.forValues he hea arguments h hs.2 (hσ.passed callee) ha).bind
      fun vs u' harguments hu' ha hvss => ?_
    obtain ⟨hgrows, hg, hc, hvs⟩ := (Steps.forValues he arguments h hs.2).ok harguments
    refine .call hx hxa hg hc ha (hf.grow hgrows.toExtends) (hfs.grow hu') (fun harity => ?_) hvs
      hvss place
    have hcallee := (erases_eval fuel σ callee).ok hcallee
    have harguments := (Erases.forValues (erases_eval fuel) _ arguments).ok harguments
    exact ⟨_, (hu.trans hu').mem (.head _), fuel, callee, arguments, place, _, vs, rfl, hcallee,
      harguments, harity⟩
  | lambda params body _ =>
    refine .pass ha rfl fun ha => ?_
    refine (Accounts.makeFunction ha hσ.makes _ _ _ _ _).bind fun f u _ hu ha hf => ?_
    exact .pure ha ((h.visiting rfl).sprung hσ hf hu)
  | get object property =>
    refine .pass ha rfl fun ha => ?_
    refine .evaluated he hea (h.visiting rfl) hs hσ ha fun v u hrun _ h hv hu ha _ => ?_
    refine .readProperty ha h.good hv ?_
    rintro i c f rfl hp hf
    have hobject := (erases_eval fuel σ object).ok hrun
    exact ⟨_, hu.mem (.head _), .property rfl hobject hp hf⟩
  | set object property value =>
    refine .pass ha rfl fun ha => ?_
    refine .evaluated he hea (h.visiting rfl) hs.1 hσ ha fun v u _ _ h _ _ ha _ => ?_
    cases v with
    | object i c =>
      refine .evaluated he hea h hs.2 (hσ.passed object) ha fun w u' _ _ _ _ _ ha hw => ?_
      obtain ⟨hf, ha⟩ := ha.setField i property.text hw
      have hset : Accounts past u' (step (Run.setField i property.text w))
          fun _ u => Later u' u := ⟨hf, ha, hf⟩
      exact hset.bind fun _ _ _ _ ha hf => .pure ha (hw.grow hf)
    | _ => exact .fail ha
  | this depth place =>
    refine .pass ha rfl fun ha => ?_
    unfold Run.readThis
    cases depth with
    | some d => exact .getAt ha _ _ _
    | none => exact .fail ha
  | super method depth place => exact .readSuper h hσ ha hs

/-- One step of the run of a statement, for each construct. -/
theorem execAccounts_succ (hla : LoopAccounts past (loop fuel)) :
    ExecAccounts past (exec (fuel + 1)) := by
  intro t σ s h hs hd hσ ha
  unfold exec
  cases s with
  | expression e =>
    exact .pass ha rfl fun ha =>
      (hea _ σ e (h.visiting rfl) hs hσ ha).discard
  | print e place =>
    refine .pass ha rfl fun ha => ?_
    exact .evaluated he hea (h.visiting rfl) hs hσ ha fun v u _ _ _ _ _ ha _ => .print ha _ place
  | declare name initial =>
    cases initial with
    | none => exact .pass ha rfl fun ha => .define ha hs trivial
    | some e =>
      obtain ⟨hn, hs⟩ := hs
      refine .pass ha rfl fun ha => ?_
      exact .evaluated he hea ((h.visiting rfl).await hn) hs (hσ.awaiting hn) ha
        fun v u _ _ _ _ _ ha hv => .define ha hn hv
  | block body place =>
    refine .pass ha rfl fun ha => ?_
    have h : Stands (t.visiting σ (.statement (.block body place))) σ := h.visiting rfl
    generalize t.visiting σ (.statement (.block body place)) = t at h ha
    refine .look (.opening ha trivial fun ha => ?_)
    exact (Accounts.forEach hx hxa body (h.block body place) hs (σ.allows_block body place)
      (hσ.block place hs) (ha.running _).2).within
  | branch test yes no place =>
    have branch {u : Watched} {σ : Site} {s : Stmt} (h : Stands u σ) (hd : s.declared? = none)
        (hs : s.Settled σ.walk) (hσ : σ.Surrounded) (ha : Account past u) :
        Accounts past u (exec fuel σ s) fun _ _ => True :=
      hxa u σ s h hs (fun name hn => by rw [hd] at hn; cases hn) hσ ha
    cases no with
    | none =>
      refine .pass ha rfl fun ha => ?_
      refine .evaluated he hea (h.visiting rfl) hs.1 hσ ha fun v u _ _ h _ _ ha _ => ?_
      split
      · exact branch h hs.2.1 hs.2.2 (hσ.passed test) ha
      · exact .pure ha trivial
    | some no =>
      obtain ⟨ht, ⟨hyd, hys⟩, hnd, hns⟩ := hs
      refine .pass ha rfl fun ha => ?_
      refine .evaluated he hea (h.visiting rfl) ht hσ ha fun v u _ _ h _ _ ha _ => ?_
      have hσ := hσ.passed test
      split
      · exact branch h hyd hys hσ ha
      · exact branch (h.after (.refl u) h.good h.calm hys hyd) hnd hns (hσ.after hys) ha
  | loop test body place =>
    exact .pass ha rfl
      (hla _ σ test body (h.visiting rfl) hs.1 hs.2.1 hs.2.2 hσ)
  | breakOut place => exact .pass ha rfl fun ha => .throw ha trivial
  | function f =>
    cases f with
    | mk name params body =>
      obtain ⟨hn, -⟩ := hs
      refine .pass ha rfl fun ha => ?_
      refine (Accounts.makeFunction ha (hσ.declared hn).makes _ _ _ _ _).bind
        fun f u _ hu ha hf => ?_
      exact .define ha hn ((h.visiting rfl).sprung hσ hf hu)
  | returnWith value place =>
    cases value with
    | none => exact .pass ha rfl fun ha => .throw ha trivial
    | some e =>
      have hsteady := steady_returningValue place σ.walk
      refine .pass ha rfl fun ha => ?_
      exact .evaluated he hea ((h.visiting rfl).moved hsteady) hs (hσ.moved hsteady) ha
        fun v u _ _ _ _ _ ha hv => .throw ha hv
  | classDecl name superclass methods =>
    cases superclass with
    | none => exact .pass ha rfl fun ha => .declarePlain hσ ha hs.1
    | some r =>
      exact .pass ha rfl fun ha =>
        .declareDerived h.good.globals hσ ha hs.1

theorem loopAccounts_succ (hla : LoopAccounts past (loop fuel)) :
    LoopAccounts past (loop (fuel + 1)) := by
  intro t σ test body h ht hd hb hσ ha
  rw [loop_succ]
  refine .evaluated he hea h ht hσ ha fun v u _ hgrows h' _ _ ha _ => ?_
  have hallows : (σ.after test.resolve).Allows body := fun name hn => by rw [hd] at hn; cases hn
  split
  · refine (hxa u _ body h' hb hallows (hσ.passed test) ha).breakable fun w hrun _ ha => ?_
    obtain ⟨hw, hg, hc, -⟩ := (hx u _ body h' hb hallows).ok hrun
    exact hla w σ test body (h.grow (hgrows.trans hw) hg hc) ht hd hb hσ ha
  · exact .pure ha trivial

end

/-- Everything is accounted for with any fuel. -/
theorem accounts_fuel (fuel : Nat) : EvalAccounts past (eval fuel) ∧
    ExecAccounts past (exec fuel) ∧ LoopAccounts past (loop fuel) := by
  induction fuel with
  | zero =>
    refine ⟨fun t σ e _ _ _ ha => ?_, fun t σ s _ _ _ _ ha => ?_,
      fun t σ test body _ _ _ _ _ ha => ?_⟩
    · exact .throw ha trivial
    · exact .throw ha trivial
    · exact .throw ha trivial
  | succ fuel ih =>
    obtain ⟨hea, hxa, hla⟩ := ih
    obtain ⟨he, hx, hl⟩ := sound_fuel fuel
    exact ⟨evalAccounts_succ he hx hea hxa, execAccounts_succ he hx hea hxa hla,
      loopAccounts_succ he hx hea hxa hla⟩

end Watching

end LoxLang
