import LoxLang.Proofs.Padding.Steps
import LoxLang.Proofs.Renaming.Run

/-!
# Runs past scopes put in

On machines that differ in scopes put in, a tree and the same tree led past the gap do the
same, one lemma for each construct; `PadStep.fuelled` ties them by induction on the fuel.
-/

namespace LoxLang

open Run

section
variable {L : Links} {g : Gap}

namespace PadStep

/-! ## Names -/

theorem getAt (d : Nat) (n : Name) :
    PadStep L g Value.Padded (Run.check fun m => m.scopes.getAt m.current d n)
      (Run.check fun m => m.scopes.getAt m.current (g.shift d) n) :=
  .check fun _ _ hm => hm.scopes.getAt hm.current d n

theorem readVariable {r r' : Reference} (hr : r.Padded g r') :
    PadStep L g Value.Padded (readVariable r) (readVariable r') := by
  unfold Run.readVariable
  rw [hr.depth, hr.name]
  cases r.depth with
  | some d => exact .getAt d r.name
  | none => exact .check fun _ _ hm => hm.get r.name

theorem assignVariable {r r' : Reference} (hr : r.Padded g r') {v v' : Value}
    (hv : v.Padded L v') : PadStep L g anyEnds (assignVariable r v) (assignVariable r' v') := by
  unfold Run.assignVariable
  rw [hr.depth, hr.name]
  cases r.depth with
  | some d => exact .store _ hv fun _ _ hm => hm.scopes.holderAt hm.current d r.name
  | none => exact .store _ hv fun _ _ hm => hm.holder r.name

theorem define (hg : g ≠ some 0) (n : Name) {v v' : Value} (hv : v.Padded L v') :
    PadStep L g anyEnds (define n v) (define n v') :=
  .store _ hv fun _ _ hm => hm.scopes.definable hg hm.current n

theorem readThis (d : Option Nat) (p : Place) :
    PadStep L g Value.Padded (readThis d p) (readThis (d.map g.shift) p) := by
  cases d with
  | none => exact .fail p _
  | some d => exact .getAt d ⟨"this", p⟩

/-! ## Functions and classes -/

/-- A function whose body is inside so many scopes where it is made. -/
theorem makeFunction {inside : Nat} (name : String) (ps : List Name) {ss ss' : List Stmt}
    (hs : Stmt.AllPadded (g.under inside) ss ss') (isInitializer : Bool)
    (hi : inside = 1 → isInitializer = true → g ≠ some 0) :
    PadStep L g (fun Q => Closure.Padded Q inside) (makeFunction name ps ss isInitializer)
      (makeFunction name ps ss' isInitializer) :=
  PadStep.newIdentity.bind fun _ _ _ _ hid => PadStep.get.bind fun _ _ _ _ hm =>
    .pure ⟨hid, rfl, rfl, rfl, g, hm.current, hs, hi⟩

/-- A function that belongs to no class. -/
theorem makePlain (name : String) (ps : List Name) {ss ss' : List Stmt}
    (hs : Stmt.AllPadded (g.under 1) ss ss') :
    PadStep L g (fun Q => Closure.Padded Q 1) (Run.makeFunction name ps ss false)
      (Run.makeFunction name ps ss' false) :=
  makeFunction name ps hs false fun _ h => absurd h Bool.false_ne_true

theorem bindMethod {f f' : Closure} (hf : f.Padded L 2 f') {v v' : Value} (hv : v.Padded L v') :
    PadStep L g (fun Q => Closure.Padded Q 1) (bindMethod f v) (bindMethod f' v') := by
  obtain ⟨i, hl, hs, -⟩ := hf.code
  unfold Run.bindMethod
  refine (PadStep.newScope hl).bind fun Q a a' hQ ha => ?_
  refine (PadStep.bindIn ⟨_, i.under_ne 0, ha⟩ "this" (hv.mono hQ)).bind fun S _ _ hS _ => ?_
  refine PadStep.newIdentity.bind fun T n n' hT hn => .pure { hf with identity := hn, code := ?_ }
  refine ⟨i.under 1, hT (hS ha), ?_, fun _ _ => i.under_ne 0⟩
  rwa [Gap.under_under]

theorem makeMethods {fs fs' : List Function} (h : Function.AllPadded g fs fs')
    {t t' : Bindings Closure} (ht : Class.TablePadded L t t') :
    PadStep L g Class.TablePadded (makeMethods fs t) (makeMethods fs' t') := by
  induction fs generalizing fs' L t t' with
  | nil =>
    cases h
    exact .pure ht
  | cons f fs ih =>
    cases h with
    | cons n ps hs hfs =>
      exact (PadStep.makeFunction n.text ps hs _ (by simp)).bind fun Q f f' hQ hf =>
        ih hfs ((ht.mono hQ).insert _ hf)

theorem readSuperclass {r r' : Reference} (hr : r.Padded g r') :
    PadStep L g Class.Padded (readSuperclass r) (readSuperclass r') := by
  unfold Run.readSuperclass
  rw [hr.name]
  refine (PadStep.readVariable hr).bind fun Q v v' _ hv => ?_
  cases hv with
  | classValue hc => exact .pure hc
  | plain hp => cases v <;> first | exact hp.elim | exact .fail _ _
  | function => exact .fail _ _
  | object => exact .fail _ _

/-- The class of a declaration gets its identity and is bound. -/
theorem nameClass (hg : g ≠ some 0) (n : Name) {c c' : Option Class}
    (hc : Option.Rel (Class.Padded L) c c') {t t' : Bindings Closure}
    (ht : Class.TablePadded L t t') :
    PadStep L g anyEnds
      (Run.newIdentity >>= fun i => Run.define n (.classValue (.mk i n.text c t)))
      (Run.newIdentity >>= fun i => Run.define n (.classValue (.mk i n.text c' t'))) := by
  refine PadStep.newIdentity.bind fun Q i i' hQ hi => .define hg n (.classValue ?_)
  subst hi
  cases hc with
  | none => exact .plain _ _ (ht.mono hQ)
  | some hc => exact .derived _ _ (hc.mono hQ) (ht.mono hQ)

theorem declarePlain (hg : g ≠ some 0) (n : Name) {fs fs' : List Function}
    (hs : Function.AllPadded g fs fs') :
    PadStep L g anyEnds (declareClass n none fs) (declareClass n none fs') := by
  unfold Run.declareClass
  exact (PadStep.makeMethods hs .nil).bind fun Q t t' _ ht => .nameClass hg n .none ht

/-- A subclass declared on both sides of a gap is the same class. -/
theorem declareDerived (hg : g ≠ some 0) (n : Name) {r r' : Reference} (hr : r.Padded g r')
    {fs fs' : List Function} (hs : Function.AllPadded (g.under 1) fs fs') :
    PadStep L g anyEnds (declareClass n (some r) fs) (declareClass n (some r') fs') := by
  unfold Run.declareClass
  refine (PadStep.readSuperclass hr).bind fun Q c c' _ hc =>
    PadStep.get.bind fun S m m' hS hm => ?_
  refine (PadStep.newScope hm.current).bind fun T a a' hT ha => ?_
  have hc := hc.mono (hS.trans hT)
  refine (PadStep.bindIn ⟨_, g.under_ne 0, ha⟩ "super" (.classValue hc)).bind fun U _ _ hU _ => ?_
  refine (PadStep.within (hU ha) (.makeMethods hs .nil)).bind fun V t t' hV ht => ?_
  exact .nameClass hg n (.some (hc.mono (hU.trans hV))) ht

/-- The method that a class has under a name, or a fault. -/
theorem method {c c' : Class} (hc : c.Padded L c') {v v' : Value} (hv : v.Padded L v') (n : Name) :
    PadStep L g Value.Padded
      (match c.method? n.text with
        | some f => do return .function (← Run.bindMethod f v)
        | none => Run.fail n.place (.undefinedProperty n.text) : Run Value)
      (match c'.method? n.text with
        | some f => do return .function (← Run.bindMethod f v')
        | none => Run.fail n.place (.undefinedProperty n.text) : Run Value) := by
  have hm := hc.method? n.text
  generalize c.method? n.text = o at hm ⊢
  generalize c'.method? n.text = o' at hm ⊢
  cases hm with
  | none => exact .fail _ _
  | some hf => exact (PadStep.bindMethod hf hv).bind fun Q f f' _ hf => .pure (.function hf)

theorem readSuper (n : Name) {d : Option Nat} (hg : d = g → d = none) (p : Place) :
    PadStep L g Value.Padded (readSuper n d p) (readSuper n (d.map g.shift) p) := by
  unfold Run.readSuper
  match d, hg with
  | none, _ => exact .fail p _
  | some 0, hg =>
    have hs : g.shift 0 = 0 := by
      match g, hg with
      | none, _ => rfl
      | some 0, hg => cases hg rfl
      | some (k + 1), _ => exact Gap.shift_under_zero (some k)
    rw [Option.map_some, hs]
    exact .fail p _
  | some (d + 1), hg =>
    have hs : g.shift (d + 1) = g.shift d + 1 := Gap.shift_succ fun h => nomatch hg h
    rw [Option.map_some, hs]
    dsimp only
    rw [← hs]
    refine (PadStep.getAt (d + 1) ⟨"super", p⟩).bind fun Q s s' _ hs =>
      (PadStep.getAt d ⟨"this", p⟩).bind fun S v v' hS hv => ?_
    have hs := hs.mono hS
    cases hs with
    | classValue hc =>
      cases hv with
      | object i hd => exact .method hc (.object i hd) n
      | plain hv => cases v <;> first | exact hv.elim | exact .fail p _
      | function => exact .fail p _
      | classValue => exact .fail p _
    | plain hq => cases s <;> first | exact hq.elim | exact .fail p _
    | function => exact .fail p _
    | object => exact .fail p _

theorem readProperty {v v' : Value} (hv : v.Padded L v') (n : Name) :
    PadStep L g Value.Padded (readProperty v n) (readProperty v' n) := by
  unfold Run.readProperty
  cases hv with
  | @object i c c' hc =>
    refine PadStep.get.bind fun Q m m' hQ hm => ?_
    have ho := hm.objects i n.text
    generalize (m.fieldsOf i).find? n.text = o at ho ⊢
    generalize (m'.fieldsOf i).find? n.text = o' at ho ⊢
    cases ho with
    | some hv => exact .pure hv
    | none => exact .method (hc.mono hQ) (.object i (hc.mono hQ)) n
  | plain hv => cases v <;> first | exact hv.elim | exact .fail _ _
  | function => exact .fail _ _
  | classValue => exact .fail _ _

/-! ## Calls -/

theorem bindParams {a a' : ScopeId} (ha : L.Doubles a a') (ps : List Name) {vs vs' : List Value}
    (hv : List.Forall₂ (Value.Padded L) vs vs') :
    PadStep L g anyEnds (bindParams a ps vs) (bindParams a' ps vs') := by
  induction ps generalizing L vs vs' with
  | nil => exact .pure trivial
  | cons p ps ih =>
    cases hv with
    | nil => exact .pure trivial
    | cons hv hvs =>
      exact (PadStep.bindIn ha p.text hv).bind fun Q _ _ hQ _ =>
        ih (hQ.doubles ha) (hvs.imp fun _ _ => .mono hQ)

theorem callNative (f : Native) {vs vs' : List Value} (hv : List.Forall₂ (Value.Padded L) vs vs')
    (p : Place) : PadStep L g Value.Padded (callNative f vs p) (callNative f vs' p) := by
  unfold Run.callNative
  cases f with
  | clock => exact .readClock
  | first _ =>
    cases hv with
    | nil => exact .fail p _
    | cons hv _ => exact .pure hv

end PadStep

/-- The statement and the same one led past the gap do the same, whatever the links. -/
def ExecPadded (exec : Stmt → Run Unit) : Prop :=
  ∀ (L : Links) (g : Gap) (s s' : Stmt), s.Padded g s' → PadStep L g anyEnds (exec s) (exec s')

/-- The expression and the same one led past the gap have the same value. -/
def EvalPadded (eval : Expr → Run Value) : Prop :=
  ∀ (L : Links) (g : Gap) (e e' : Expr), e.Padded g e' →
    PadStep L g Value.Padded (eval e) (eval e')

namespace PadStep

section
variable {exec : Stmt → Run Unit} (hx : ExecPadded exec)
include hx

theorem forM {ss ss' : List Stmt} (h : Stmt.AllPadded g ss ss') :
    PadStep L g anyEnds (ss.forM exec) (ss'.forM exec) := by
  induction ss generalizing ss' L with
  | nil =>
    cases h
    exact .pure trivial
  | cons s ss ih =>
    cases h with
    | cons hs hss => exact (hx L g _ _ hs).bind fun Q _ _ _ _ => ih hss

theorem callClosure {f f' : Closure} (hf : f.Padded L 1 f') {vs vs' : List Value}
    (hv : List.Forall₂ (Value.Padded L) vs vs') (p : Place) :
    PadStep L g Value.Padded (callClosure exec f vs p) (callClosure exec f' vs' p) := by
  obtain ⟨i, hl, hs, hi⟩ := hf.code
  unfold Run.callClosure
  rw [hf.isInitializer, hf.params]
  refine (PadStep.newScope hl).bind fun Q a a' hQ ha => ?_
  refine (PadStep.bindParams ⟨_, i.under_ne 0, ha⟩ f.params
    (hv.imp fun _ _ => .mono hQ)).bind fun S _ _ hS _ => ?_
  refine (PadStep.within (hS ha) (.forM hx hs)).catching.bind fun T v v' hT hv => ?_
  cases hb : f.isInitializer with
  | true =>
    -- the scope of `this` has not been put in
    have hzero : i.shift 0 = 0 := by
      match i, hi rfl hb with
      | none, _ => rfl
      | some 0, h => exact absurd rfl h
      | some (k + 1), _ => exact Gap.shift_under_zero (some k)
    refine .check fun m m' hm => ?_
    have hget := hm.scopes.getAt (hT (hS (hQ hl))) 0 ⟨"this", p⟩
    rwa [hzero] at hget
  | false => exact .pure hv

theorem construct {c c' : Class} (hc : c.Padded L c') {vs vs' : List Value}
    (hv : List.Forall₂ (Value.Padded L) vs vs') (p : Place) :
    PadStep L g Value.Padded (construct exec c vs p) (construct exec c' vs' p) := by
  refine (PadStep.newObject hc).bind fun Q o o' hQ ho => ?_
  have hm := (hc.mono hQ).method? "init"
  generalize c.method? "init" = i at hm ⊢
  generalize c'.method? "init" = i' at hm ⊢
  cases hm with
  | none => exact .pure ho
  | some hf =>
    refine (PadStep.bindMethod hf ho).bind fun S f f' hS hf => ?_
    have hv := hv.imp fun _ _ => Value.Padded.mono (hQ.trans hS)
    exact (PadStep.callClosure hx hf hv p).discard.bind fun T _ _ hT _ =>
      .pure (ho.mono (hS.trans hT))

theorem call {v v' : Value} (h : v.Padded L v') {vs vs' : List Value}
    (hv : List.Forall₂ (Value.Padded L) vs vs') (p : Place) :
    PadStep L g Value.Padded (call exec v vs p) (call exec v' vs' p) := by
  unfold Run.call
  rw [h.arity?, hv.length_eq]
  cases v.arity? with
  | none => exact .fail p _
  | some expected =>
    dsimp only
    split
    · exact .fail p _
    · cases h with
      | plain hv' =>
        cases v with
        | native f => exact .callNative f hv p
        | function | classValue | object => exact hv'.elim
        | _ => exact .fail p _
      | function hf => exact .callClosure hx hf hv p
      | classValue hc => exact .construct hx hc hv p
      | object => exact .fail p _

end

/-! ## Loops and lists -/

/-- A loop on both sides goes on alike if the bodies and the rounds behind them do. -/
theorem breakable {mid : Links → Unit → Unit → Prop} {body body' rest rest' : Run Unit}
    (h : PadStep L g mid body body')
    (hr : ∀ Q, L.Le Q → PadStep Q g anyEnds rest rest') :
    PadStep L g anyEnds (breakable body rest) (breakable body' rest') := by
  intro m m' hm
  have hb := h m m' hm
  unfold Run.breakable
  generalize body m = r at hb ⊢
  generalize body' m' = r' at hb ⊢
  cases hb with
  | ok le hn _ => exact (hr _ le _ _ hn).before le
  | error le hn hi =>
    cases hi with
    | breaking _ => exact .ok le hn trivial
    | fault hf => exact .error le hn (.fault hf)
    | returning hv p => exact .error le hn (.returning hv p)
    | exhausted => exact .error le hn .exhausted

theorem mapM {eval : Expr → Run Value} (he : EvalPadded eval) {es es' : List Expr}
    (h : Expr.AllPadded g es es') :
    PadStep L g (fun Q => List.Forall₂ (Value.Padded Q)) (es.mapM eval) (es'.mapM eval) := by
  induction es generalizing es' L with
  | nil =>
    cases h
    exact .pure .nil
  | cons e es ih =>
    cases h with
    | cons hs hes =>
      rw [List.mapM_cons, List.mapM_cons]
      exact (he L g _ _ hs).bind fun Q v v' _ hv => (ih hes).bind fun S vs vs' hS hvs =>
        .pure (.cons (hv.mono hS) hvs)

end PadStep

theorem Value.Padded.getLastD {vs vs' : List Value} (h : List.Forall₂ (Value.Padded L) vs vs')
    {v v' : Value} (hv : v.Padded L v') : (vs.getLastD v).Padded L (vs'.getLastD v') := by
  induction h generalizing v v' with
  | nil => exact hv
  | cons hu _ ih =>
    rw [List.getLastD_cons, List.getLastD_cons]
    exact ih hu

/-! ## Expressions and statements -/

section
variable {fuel : Nat} (he : EvalPadded (eval fuel)) (hx : ExecPadded (exec fuel))
include he hx

/-- One step of the evaluation of an expression, for each construct. -/
theorem EvalPadded.succ : EvalPadded (eval (fuel + 1)) := by
  intro L g e e' h
  unfold eval
  cases h with
  | literal value _ => exact .pure (.plain (by cases value <;> trivial))
  | group h _ => exact he L g _ _ h
  | unary op h _ =>
    dsimp only
    rw [h.place]
    exact (he L g _ _ h).bind fun Q v v' _ hv => .lift (hv.unary op _)
  | binary op hl hr p =>
    dsimp only
    rw [hl.place, hr.place]
    refine (he L g _ _ hl).bind fun Q l l' _ hv => ?_
    rw [hv.decidedBy]
    split
    · exact .pure hv
    · exact (he Q g _ _ hr).bind fun S r r' hS hw => .lift ((hv.mono hS).binary hw op _ _ p)
  | sequence hs _ =>
    exact (PadStep.mapM he hs).bind fun Q vs vs' _ hv => .pure (.getLastD hv (.plain trivial))
  | read hr => exact .readVariable hr
  | assign hr h =>
    exact (he L g _ _ h).bind fun Q v v' _ hv =>
      (PadStep.assignVariable hr hv).bind fun S _ _ hS _ => .pure (hv.mono hS)
  | call hf hs p =>
    exact (he L g _ _ hf).bind fun Q f f' _ hf => (PadStep.mapM he hs).bind fun S vs vs' hS hv =>
      .call hx (hf.mono hS) hv p
  | lambda ps hs _ =>
    exact (PadStep.makePlain lambdaName ps hs).bind fun Q f f' _ hf => .pure (.function hf)
  | get h n => exact (he L g _ _ h).bind fun Q v v' _ hv => .readProperty hv n
  | set h n hw =>
    refine (he L g _ _ h).bind fun Q v v' _ hv => ?_
    cases hv with
    | object i _ =>
      exact (he Q g _ _ hw).bind fun S w w' _ hw =>
        (PadStep.setField i n.text hw).bind fun T _ _ hT _ => .pure (hw.mono hT)
    | plain hv => cases v <;> first | exact hv.elim | exact .fail _ _
    | function => exact .fail _ _
    | classValue => exact .fail _ _
  | this hd p =>
    subst hd
    exact .readThis _ p
  | super n hd hg p =>
    subst hd
    exact .readSuper n hg p

/-- One step of the run of a statement, for each construct. -/
theorem ExecPadded.succ
    (hl : ∀ (L : Links) (g : Gap) (e e' : Expr) (s s' : Stmt), e.Padded g e' → s.Padded g s' →
      PadStep L g anyEnds (loop fuel e s) (loop fuel e' s')) :
    ExecPadded (exec (fuel + 1)) := by
  intro L g s s' h
  unfold exec
  cases h with
  | expression h => exact (he L g _ _ h).discard
  | print h p =>
    refine (he L g _ _ h).bind fun Q v v' _ hv => ?_
    rw [hv.text]
    exact .print _ p
  | declare hg n => exact .define hg n (.plain trivial)
  | declareWith hg n h => exact (he L g _ _ h).bind fun Q v v' _ hv => .define hg n hv
  | block hs _ =>
    refine PadStep.get.bind fun Q m m' _ hm => ?_
    exact (PadStep.newScope hm.current).bind fun S a a' _ ha => .within ha (.forM hx hs)
  | branch h hs _ =>
    refine (he L g _ _ h).bind fun Q v v' _ hv => ?_
    rw [hv.isTrue]
    split
    · exact hx Q g _ _ hs
    · exact .pure trivial
  | branchElse h hs ht _ =>
    refine (he L g _ _ h).bind fun Q v v' _ hv => ?_
    rw [hv.isTrue]
    split
    · exact hx Q g _ _ hs
    · exact hx Q g _ _ ht
  | loop h hs _ => exact hl L g _ _ _ _ h hs
  | breakOut p => exact .throw (.breaking p)
  | function hg n ps hs =>
    exact (PadStep.makePlain n.text ps hs).bind fun Q f f' _ hf => .define hg n (.function hf)
  | returnNil p => exact .throw (.returning (v := .nil) (.plain trivial) p)
  | returnWith h p => exact (he L g _ _ h).bind fun Q v v' _ hv => .throw (.returning hv p)
  | plainClass hg n hs => exact .declarePlain hg n hs
  | subclass hg n hr hs => exact .declareDerived hg n hr hs

/-- One round of a loop. -/
theorem PadStep.loop_succ {e e' : Expr} {s s' : Stmt} (h : e.Padded g e') (hs : s.Padded g s')
    (hl : ∀ L, PadStep L g anyEnds (loop fuel e s) (loop fuel e' s')) :
    PadStep L g anyEnds (loop (fuel + 1) e s) (loop (fuel + 1) e' s') := by
  rw [LoxLang.loop_succ, LoxLang.loop_succ]
  refine (he L g _ _ h).bind fun Q v v' _ hv => ?_
  rw [hv.isTrue]
  split
  · exact .breakable (hx Q g _ _ hs) fun S _ => hl S
  · exact .pure trivial

end

/-- A tree and the same one led past the gap do the same, with any fuel. -/
theorem PadStep.fuelled (fuel : Nat) :
    EvalPadded (eval fuel) ∧ ExecPadded (exec fuel) ∧
      ∀ (L : Links) (g : Gap) (e e' : Expr) (s s' : Stmt), e.Padded g e' → s.Padded g s' →
        PadStep L g anyEnds (loop fuel e s) (loop fuel e' s') := by
  induction fuel with
  | zero => exact ⟨fun _ _ _ _ _ => .throw .exhausted, fun _ _ _ _ _ => .throw .exhausted,
      fun _ _ _ _ _ _ _ _ => .throw .exhausted⟩
  | succ fuel ih =>
    obtain ⟨he, hx, hl⟩ := ih
    exact ⟨he.succ hx, hx.succ he hl, fun L g e e' s s' h hs => .loop_succ he hx h hs fun Q =>
      hl Q g e e' s s' h hs⟩

end

end LoxLang
