import LoxLang.Proofs.Code.Calls
import LoxLang.Proofs.Machine.Agree
import Mathlib.Data.List.Nodup

/-!
# Runs within a licence

Each construct stays within its licence if its parts do, one lemma for each step of the fuel;
`orderly_fuel` ties them by induction on the fuel.
-/

namespace LoxLang

namespace Watching

variable {program : List Stmt} {L : Licence} {t u : Watched}

namespace Orderly

/-! ## Jumps -/

/-- A statement that declares nothing does nothing to scopes. -/
theorem still {inLoop : Bool} {s : Stmt} {x : Watching Unit} (hd : s.declared? = none)
    {m : Machine} (hb : L.breaks inLoop) (hr : ∀ p ∈ s.returns, L.returns p)
    (h : Orderly program (s.licence inLoop m) t x fun _ => True) :
    Orderly program L t x fun _ => True := by
  have none (n : Name) : n ∉ s.declared? := fun hn => by
    rw [hd] at hn
    cases hn
  have hle : (s.licence inLoop m).Le L :=
    ⟨fun _ _ h => h.2.elim fun n hn => absurd hn.1 (none n), fun n h => absurd h.1 (none n),
      fun b h => h ▸ hb, hr⟩
  exact h.mono hle fun _ h => h

/-- A loop passes on the `return`s of its body, and no `break`. -/
theorem breakable {body rest : Watching Unit} {inLoop : Bool} {s : Stmt} {m : Machine}
    (hi : inLoop = true) (hd : s.declared? = none) (hr : ∀ p ∈ s.returns, L.returns p)
    (h : Orderly program (s.licence inLoop m) t body fun _ => True)
    (hk : ∀ u, Advance .nothing t u → Orderly program L u rest fun _ => True) :
    Orderly program L t (breakable body rest) fun _ => True := by
  let M : Licence := { Licence.nothing with breaks := (· = true), returns := (· ∈ s.returns) }
  have h : Orderly program M t body fun _ => True := h.still hd hi fun _ hp => hp
  have same {u : Watched} (ha : Advance M t u) : Advance .nothing t u :=
    { ha with grown := ha.grown }
  have hL := Licence.nothing_le L
  unfold Orderly at h
  cases hb : body t with
  | ok a u =>
    rw [hb] at h
    have ha := same h.1
    exact .of_eq u (by rw [Watching.breakable, hb]) (ha.mono hL) h.2.1 (hk u ha)
  | error i u =>
    rw [hb] at h
    obtain ⟨ha, hi⟩ := h
    have ha := (same ha).mono hL
    unfold Orderly Watching.breakable
    rw [hb]
    cases i with
    | breaking p =>
      obtain ⟨b, rfl, hs⟩ := hi
      exact ⟨ha, hs, trivial⟩
    | fault f =>
      refine ⟨ha, hi.imp_left ?_⟩
      rintro ⟨hf | ⟨n, hn, -⟩, hs⟩
      · exact ⟨.inl hf, hs⟩
      · exact hn.elim
    | returning v p => exact ⟨ha, hr p hi.1, hi.2⟩
    | exhausted => exact ⟨ha, hi⟩

/-- To come to a `break`, which is stray if no loop is around it. -/
theorem breakOut (ht : t.machine.Fine) {σ : Site} {inLoop : Bool} {p : Place}
    (hc : σ.Covers program [(p, inLoop)]) :
    Orderly program ((Stmt.breakOut p).licence inLoop t.machine) t
      (Watching.visit σ (.statement (.breakOut p)) >>= fun _ =>
        (MonadExcept.throw (Interrupt.breaking p) : Watching Unit)) fun _ => True := by
  let v : Visit := ⟨σ, .statement (.breakOut p), t.machine, t.record.origins⟩
  have hmem : (p, inLoop) ∈ Stmt.allBreaks false (σ.code program) := hc.mem _ List.mem_cons_self
  have hstray : v.stray? program = if inLoop then none else some p := by
    cases inLoop with
    | false => exact Visit.stray?_eq_some.2 ⟨rfl, hmem⟩
    | true =>
      rw [if_pos rfl, Option.eq_none_iff_forall_ne_some]
      rintro q hq
      obtain ⟨hn, hq⟩ := Visit.stray?_eq_some.1 hq
      cases hn
      exact Bool.noConfusion (congrArg Prod.snd (List.inj_on_of_nodup_map hc.apart hq hmem rfl))
  refine ⟨⟨.refl _ _, ht, fun w hw => ?_⟩, inLoop, rfl, ?_⟩
  · rcases List.mem_cons.1 hw with rfl | hw
    · refine .inr ⟨ht, by simp, ?_⟩
      rintro s ⟨⟩
      exact ⟨⟨by simp [Stmt.codes], trivial⟩, by simp [Stmt.Ready, Stmt.declared?]⟩
    · exact .inl hw
  · show (v :: t.record.visits).filterMap _ = _
    rw [List.filterMap_cons, hstray]
    cases inLoop <;> rfl

/-! ## Definitions -/

/-- A statement defines its own name, once it has the value. -/
theorem defineOwn {s : Stmt} {inLoop : Bool} {name : Name} (hn : name ∈ s.declared?)
    (ht : t.machine.Fine) (hr : s.Ready t.machine) (ha : Advance .nothing t u) {v : Value}
    (hv : v.Fine) :
    Orderly program (s.licence inLoop t.machine) u (step (Run.define name v)) fun _ => True := by
  have hown := ha.grown.own_isSome ht.current name.text
  have hallow := ha.grown.allow _ ht.current
  refine .define ha.fine hv ⟨ha.grown.current, name, hn, rfl⟩ fun hb hf => ?_
  rw [ha.grown.current] at hb hf
  rw [hown] at hb
  rw [hallow] at hf
  refine ⟨hn, ?_, hb, hf⟩
  by_contra hl
  rw [hr hl name hn] at hb
  cases hb

theorem nameClass {s : Stmt} {inLoop : Bool} {name : Name} (hn : name ∈ s.declared?)
    (ht : t.machine.Fine) (hr : s.Ready t.machine) (ha : Advance .nothing t u)
    {c : Option Class} {table : Bindings Closure}
    (hv : ∀ i, (Class.mk i name.text c table).Fine) :
    Orderly program (s.licence inLoop t.machine) u (step Run.newIdentity >>= fun i =>
      step (Run.define name (.classValue (.mk i name.text c table)))) fun _ => True :=
  (newIdentity ha.fine).andThen fun i _ hb _ => defineOwn hn ht hr (ha.trans hb) (hv i)

theorem declareClass {σ : Site} {inLoop : Bool} {name : Name} {superclass : Option Reference}
    {methods : List Function} (ht : t.machine.Fine) (hm : Function.AllFine methods)
    (hr : (Stmt.classDecl name superclass methods).Ready t.machine) :
    Orderly program ((Stmt.classDecl name superclass methods).licence inLoop t.machine) t
      (declareClass σ name superclass methods) fun _ => True := by
  unfold Watching.declareClass
  cases superclass with
  | none =>
    exact (makeMethods methods ht hm Class.tableFine_nil).andThen fun table u ha htable =>
      nameClass rfl ht hr ha fun i => Class.fine_plain htable
  | some r =>
    refine visit ht (by simp) (by simp) (by simp) fun t₀ h₀ => ?_
    rw [← h₀] at ht hr ⊢
    refine (readSuperclass ht r).andThen fun c u ha hc => ?_
    refine (get ha.fine).andThen fun m u' hb hm' => ?_
    subst hm'
    have ha := ha.trans hb
    -- the scope of `super`, with the opener that the record gets
    let scope := u'.machine.scopes.size
    let opener : Opener := ⟨σ.source, .inherited name⟩
    let w := (u'.opening u.machine.current (some opener)).insert scope "super" (.classValue c)
    let inner := (σ.inside (.inherited name) σ.walk).inside (.receiver name) (σ.walk.derive name r)
    let rest : Watching Unit := do
      let table ← Watching.within scope (Watching.makeMethods inner methods [])
      let identity ← step Run.newIdentity
      step (Run.define name (.classValue (.mk identity name.text (some c) table)))
    have hw : Advance .nothing u' w := .bound ha.fine _ _ _ hc
    refine of_eq (y := rest) w rfl (hw.mono (Licence.nothing_le _)) rfl ?_
    refine ((makeMethods methods ?_ hm Class.tableFine_nil).within hw.fine).andThen
      fun table z hb htable => ?_
    · exact hw.fine.running (Nat.lt_of_lt_of_eq (lt_opening u' _ _) (Scopes.size_insert ..).symm)
    · exact nameClass rfl ht hr ((ha.trans hw).trans hb) fun i => Class.fine_derived hc htable

end Orderly

/-! ## Expressions -/

theorem Orderly.forValues {eval : Site → Expr → Watching Value} (he : EvalOrderly program eval) :
    ∀ (es : List Expr) {σ : Site} {t : Watched}, t.machine.Fine → Expr.AllFine es →
    Orderly program .nothing t (forValues eval σ es) fun vs => ∀ v ∈ vs, v.Fine
  | [], _, _, ht, _ => .pure ht fun _ hv => nomatch hv
  | e :: es, σ, t, ht, hs => by
    obtain ⟨hs, hss⟩ := Expr.allFine_cons.1 hs
    refine (he σ e t ht hs).bind fun v u ha hv => ?_
    refine (Orderly.forValues he es ha.fine hss).bind fun vs u ha hvs => .pure ha.fine ?_
    exact List.forall_mem_cons.2 ⟨hv, hvs⟩

/-- A loop passes on the `return`s of its body and does nothing else to its surroundings. -/
def LoopOrderly (program : List Stmt) (loop : Site → Expr → Stmt → Watching Unit) : Prop :=
  ∀ (σ : Site) (test : Expr) (body : Stmt) (t : Watched), t.machine.Fine →
    test.Fine → body.Fine → body.declared? = none → σ.Covers program (body.breaks true) →
    Orderly program { Licence.nothing with returns := (· ∈ body.returns) } t (loop σ test body)
      fun _ => True

section
variable {fuel : Nat} (he : EvalOrderly program (eval fuel)) (hx : ExecOrderly program (exec fuel))
include he hx

/-- One step of the evaluation of an expression, for each construct. -/
theorem evalOrderly_succ : EvalOrderly program (eval (fuel + 1)) := by
  intro σ e t ht hs
  unfold eval
  refine .visit ht (fun e' he => Node.expression.inj he ▸ hs) (by simp) (by simp) fun t₀ h₀ => ?_
  rw [← h₀] at ht
  cases e with
  | literal value _ => exact .pure ht (Value.fine_of_plain (by cases value <;> trivial))
  | group inner _ => exact he σ inner _ ht hs
  | unary op operand _ =>
    refine (he σ operand _ ht hs).bind fun v u ha _ => ?_
    refine .lift ha.fine (fun w hw => ?_) fun f hf => UnaryOp.apply_common hf
    have hp := op.plainly_apply ⟨operand.place, v⟩
    rw [hw] at hp
    exact Value.fine_of_plain (hp.resolve_right id)
  | binary op left right place =>
    obtain ⟨hl, hr⟩ := List.forall_mem_append.1 hs
    refine (he σ left _ ht hl).bind fun l u ha hl => ?_
    split
    · exact .pure ha.fine hl
    · refine (he _ right _ ha.fine hr).bind fun r u ha hr => ?_
      refine .lift ha.fine (fun w hw => ?_) fun f hf => BinaryOp.apply_common hf
      have hp := op.plainly_apply ⟨left.place, l⟩ ⟨right.place, r⟩ place
      rw [hw] at hp
      exact hp.elim Value.fine_of_plain fun he => he ▸ hr
  | sequence items _ =>
    refine (Orderly.forValues he items ht hs).bind fun vs u ha hvs => .pure ha.fine ?_
    rw [List.getLastD_eq_getLast?]
    cases hl : vs.getLast? with
    | none => trivial
    | some v => exact hvs v (List.mem_of_getLast? hl)
  | read target => exact .readVariable ht target
  | assign target value =>
    refine (he σ value _ ht hs).bind fun v u ha hv => ?_
    refine .visit ha.fine (by simp) (by simp) (by simp) fun u₀ h₀ => ?_
    refine (Orderly.assignVariable (h₀ ▸ ha.fine) target hv).bind fun _ u ha _ => ?_
    exact .pure ha.fine hv
  | call callee arguments place =>
    obtain ⟨hc, hs⟩ := List.forall_mem_append.1 hs
    refine (he σ callee _ ht hc).bind fun f u ha hf => ?_
    refine (Orderly.forValues he arguments ha.fine hs).bind fun vs u ha hvs => ?_
    exact .call hx ha.fine hf hvs place
  | lambda params body _ =>
    exact (Orderly.makeFunction ht σ _ _ _ hs).bind fun f u ha hf => .pure ha.fine hf
  | get object property =>
    exact (he σ object _ ht hs).bind fun v u ha hv => .readProperty ha.fine hv property
  | set object property value =>
    obtain ⟨ho, hs⟩ := List.forall_mem_append.1 hs
    refine (he σ object _ ht ho).bind fun v u ha hv => ?_
    cases v with
    | object i c =>
      refine (he _ value _ ha.fine hs).bind fun w u ha hw => ?_
      exact (Orderly.setField ha.fine i property.text hw).bind fun _ u ha _ => .pure ha.fine hw
    | _ => exact .fail ha.fine _ (by simp [Fault.Common])
  | this depth place => exact .readThis ht depth place
  | super method depth place => exact .readSuper ht method depth place

/-- One step of the run of a statement, for each construct. -/
theorem execOrderly_succ (hl : LoopOrderly program (loop fuel)) :
    ExecOrderly program (exec (fuel + 1)) := by
  intro inLoop σ s t ht hs hr hc
  unfold exec
  by_cases hb : ∃ p, s = .breakOut p
  · obtain ⟨p, rfl⟩ := hb
    exact .breakOut ht hc
  refine .visit ht (by simp) (fun s' he => ?_) (fun p he => hb ⟨p, Node.statement.inj he⟩)
    fun t₀ h₀ => ?_
  · cases he
    exact ⟨hs, hr⟩
  rw [← h₀] at ht hr ⊢
  clear h₀
  cases s with
  | expression e => exact (he σ e _ ht hs.codes).discard.wide
  | print e place => exact (he σ e _ ht hs.codes).andThen fun v u ha _ => .print ha.fine _ place
  | declare name initial =>
    cases initial with
    | none => exact .defineOwn rfl ht hr (.refl _ ht) trivial
    | some e =>
      exact (he _ e _ ht hs.codes).andThen fun v u ha hv => .defineOwn rfl ht hr ha hv
  | block body place =>
    let scope := t₀.machine.scopes.size
    let o : Opener := ⟨σ.source, .block body place⟩
    let t₁ := t₀.opening t₀.machine.current (some o)
    let inner := σ.inside (.block body place) (Scoping.openScope σ.walk).2
    let M : Licence := ⟨fun id _ => scope ≤ id, fun _ => False, (· = inLoop),
      (· ∈ Stmt.allReturns body)⟩
    let rest : Watching Unit := Watching.within scope (Watching.forEach (exec fuel) inner body)
    refine .mono (L := { M with binds := Machine.noNames })
      ⟨fun _ _ => False.elim, fun _ => False.elim, fun _ h => h, fun _ h => h⟩
      (.inside (fun _ _ h => h) ?_) fun _ h => h
    refine .of_eq (y := rest) t₁ rfl (.opening ht _ _) rfl ?_
    have hlt : scope < t₁.machine.scopes.size := lt_opening t₀ _ (some o)
    have ht₁ : (t₁.running scope).machine.Fine := (ht.child _).running hlt
    have hready : Stmt.AllReady body (t₁.running scope).machine :=
      .of_empty hs.tidy.1 fun x _ => own?_opening_size t₀ _ (some o) x
    have hbody := Orderly.forEach hx inLoop body ht₁ ⟨hs.codes, hs.tidy.2⟩ hready
      (show inner.Covers program (Stmt.allBreaks inLoop body) from ⟨hc.apart, hc.mem⟩)
    refine (hbody.mono ?_ fun _ h => h).within (ht.child _)
    exact ⟨fun _ _ h => Nat.le_of_eq h.1.symm,
      fun _ h => absurd h.2.1 (Nat.ne_of_gt ht.globals), fun _ h => h, fun _ h => h⟩
  | branch test yes no place =>
    have branch {u : Watched} {τ : Site} {s : Stmt} (hu : u.machine.Fine) (hs : s.Fine)
        (hd : s.declared? = none) (ho : τ.openers = σ.openers)
        (hb : ∀ b ∈ s.breaks inLoop, b ∈ (Stmt.branch test yes no place).breaks inLoop)
        (hr : ∀ p ∈ s.returns, p ∈ (Stmt.branch test yes no place).returns) :
        Orderly program ((Stmt.branch test yes no place).licence inLoop t₀.machine) u
          (exec fuel τ s) fun _ => True :=
      (hx inLoop τ s u hu hs (Stmt.ready_of_none hd _) ((hc.mono hb).of_openers ho)).still hd rfl hr
    cases no with
    | none =>
      obtain ⟨ht', hy⟩ := List.forall_mem_append.1 hs.codes
      refine (he _ test _ ht ht').andThen fun v u ha _ => ?_
      split
      · exact branch ha.fine ⟨hy, hs.tidy.2⟩ hs.tidy.1 rfl (fun _ h => h) fun _ h => h
      · exact .pure ha.fine trivial
    | some no =>
      obtain ⟨hty, hn⟩ := List.forall_mem_append.1 hs.codes
      obtain ⟨ht', hy⟩ := List.forall_mem_append.1 hty
      refine (he _ test _ ht ht').andThen fun v u ha _ => ?_
      split
      · exact branch ha.fine ⟨hy, hs.tidy.1.2⟩ hs.tidy.1.1 rfl
          (fun _ h => List.mem_append_left _ h) fun _ h => List.mem_append_left _ h
      · exact branch ha.fine ⟨hn, hs.tidy.2.2⟩ hs.tidy.2.1 rfl
          (fun _ h => List.mem_append_right _ h) fun _ h => List.mem_append_right _ h
  | loop test body place =>
    obtain ⟨ht', hb'⟩ := List.forall_mem_append.1 hs.codes
    have hloop := hl σ test body _ ht ht' ⟨hb', hs.tidy.2⟩ hs.tidy.1 ⟨hc.apart, hc.mem⟩
    refine hloop.mono ?_ fun _ h => h
    exact ⟨fun _ _ => False.elim, fun _ => False.elim, fun _ => False.elim, fun _ h => h⟩
  | breakOut p => exact absurd ⟨p, rfl⟩ hb
  | function f =>
    cases f with
    | mk name params body =>
      refine (Orderly.makeFunction ht _ _ name.text false hs.codes).andThen fun f u ha hf => ?_
      exact .defineOwn rfl ht hr ha hf
  | returnWith value place =>
    cases value with
    | none => exact .throw ht ⟨List.mem_cons_self, trivial, rfl⟩
    | some e =>
      exact (he _ e _ ht hs.codes).andThen fun v u ha hv =>
        .throw ha.fine ⟨List.mem_cons_self, hv, rfl⟩
  | classDecl name superclass methods => exact .declareClass ht hs.codes hr

/-- One round of a loop. -/
theorem loopOrderly_succ (hl : LoopOrderly program (loop fuel)) :
    LoopOrderly program (loop (fuel + 1)) := by
  intro σ test body t ht hs hb hd hc
  rw [loop_succ]
  refine (he σ test t ht hs).andThen fun v u ha _ => ?_
  split
  · have hbody := hx true (σ.after test.resolve) body u ha.fine hb (Stmt.ready_of_none hd _)
      ⟨hc.apart, hc.mem⟩
    exact hbody.breakable rfl hd (fun _ h => h) fun w hw => hl σ test body w hw.fine hs hb hd hc
  · exact .pure ha.fine trivial

end

/-- Everything stays within its licence, with any fuel. -/
theorem orderly_fuel (program : List Stmt) (fuel : Nat) :
    EvalOrderly program (eval fuel) ∧ ExecOrderly program (exec fuel) ∧
      LoopOrderly program (loop fuel) := by
  induction fuel with
  | zero =>
    exact ⟨fun _ _ _ ht _ => .throw ht rfl, fun _ _ _ _ ht _ _ _ => .throw ht rfl,
      fun _ _ _ _ ht _ _ _ _ => .throw ht rfl⟩
  | succ fuel ih =>
    obtain ⟨he, hx, hl⟩ := ih
    exact ⟨evalOrderly_succ he hx, execOrderly_succ he hx hl, loopOrderly_succ he hx hl⟩

end Watching

end LoxLang
