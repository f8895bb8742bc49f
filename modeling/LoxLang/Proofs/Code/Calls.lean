import LoxLang.Proofs.Code.Licence
import LoxLang.Proofs.Machine.Uses

/-!
# Names, functions and calls within a licence

Names are looked up, functions and classes made and values called without any licence: what
a call does it does in a scope of its own, and neither a `return` nor a `break` leaves the
function that it stands in.
-/

namespace LoxLang

open Scoping

/-! ## Common faults -/

theorem Operand.number_common {v : Operand} {f : Fault} (h : v.number = .error f) : f.Common := by
  unfold Operand.number at h
  split at h
  · cases h
  · cases h
    simp [Fault.Common]

theorem Operand.numbers_common {l r : Operand} {f : Fault} (h : Operand.numbers l r = .error f) :
    f.Common := by
  have hb : Operand.numbers l r =
      Except.bind l.number fun x => Except.bind r.number fun y => .ok (x, y) := rfl
  rw [hb] at h
  cases hl : l.number with
  | error g =>
    rw [hl] at h
    cases h
    exact Operand.number_common hl
  | ok x =>
    cases hr : r.number with
    | error g =>
      simp only [Except.bind, hl, hr] at h
      cases h
      exact Operand.number_common hr
    | ok y =>
      simp only [Except.bind, hl, hr] at h
      cases h

theorem UnaryOp.apply_common {op : UnaryOp} {v : Operand} {f : Fault} (h : op.apply v = .error f) :
    f.Common := by
  cases op with
  | not => cases h
  | negate =>
    have hb : UnaryOp.apply .negate v = Except.bind v.number fun x => .ok (.number (-x)) := rfl
    rw [hb] at h
    cases hn : v.number with
    | error g =>
      rw [hn] at h
      cases h
      exact Operand.number_common hn
    | ok x =>
      rw [hn] at h
      cases h

theorem BinaryOp.arithmetic_common {op : BinaryOp} {x y : Float} {place : Place} {f : Fault}
    (h : op.arithmetic x y place = .error f) : f.Common := by
  cases op with
  | divide =>
    unfold BinaryOp.arithmetic at h
    dsimp only at h
    split at h
    · cases h
      simp [Fault.Common]
    · cases h
  | _ => cases h

theorem BinaryOp.apply_common {op : BinaryOp} {l r : Operand} {place : Place} {f : Fault}
    (h : op.apply l r place = .error f) : f.Common := by
  have numbers (h : (Except.bind (Operand.numbers l r) fun p => op.arithmetic p.1 p.2 place) =
      .error f) : f.Common := by
    cases hn : Operand.numbers l r with
    | error g =>
      rw [hn] at h
      cases h
      exact Operand.numbers_common hn
    | ok p =>
      rw [hn] at h
      exact BinaryOp.arithmetic_common h
  cases op with
  | add =>
    unfold BinaryOp.apply Operand.sum at h
    dsimp only at h
    split at h <;> cases h <;> simp [Fault.Common]
  | equal | differ | and | or => cases h
  | _ => exact numbers h

namespace Scopes

variable {ss : Scopes} {id : ScopeId} {d : Nat} {name : Name} {f : Fault}

theorem getAt_common (h : ss.getAt id d name = .error f) : f.Common := by
  unfold Scopes.getAt at h
  split at h
  · cases h
    simp [Fault.Common]
  · split at h
    · cases h
      simp [Fault.Common]
    · cases h

theorem get_common (h : ss.get id name = .error f) : f.Common := by
  unfold Scopes.get at h
  split at h
  · cases h
  · cases h
    simp [Fault.Common]

theorem holder_common (h : ss.holder id name = .error f) : f.Common := by
  unfold Scopes.holder at h
  split at h
  · cases h
  · cases h
    simp [Fault.Common]

theorem holderAt_common (h : ss.holderAt id d name = .error f) : f.Common := by
  unfold Scopes.holderAt at h
  cases hg : ss.getAt id d name with
  | ok v =>
    rw [hg] at h
    cases h
  | error g =>
    rw [hg] at h
    cases h
    exact getAt_common hg

end Scopes

namespace Watching

namespace Orderly

variable {α : Type} {program : List Stmt} {L : Licence} {t u : Watched}

/-! ## Names -/

/-- An operator gives a value or one of the faults that any operation may end in. -/
theorem lift (ht : t.machine.Fine) {r : Except Fault α} {post : α → Prop}
    (ho : ∀ a, r = .ok a → post a) (he : ∀ f, r = .error f → f.Common) :
    Orderly program L t (step (Run.lift r)) post := .check ht ho he

theorem getAt (ht : t.machine.Fine) (scope : Machine → ScopeId) (d : Nat) (name : Name) :
    Orderly program L t (step (Run.check fun m => m.scopes.getAt (scope m) d name)) Value.Fine := by
  refine .check ht (fun v hv => ?_) fun f hf => Scopes.getAt_common hf
  obtain ⟨holder, -, ho⟩ := Scopes.own_of_getAt hv
  exact ht.scopes holder _ v ho

theorem readVariable (ht : t.machine.Fine) (r : Reference) :
    Orderly program L t (step (Run.readVariable r)) Value.Fine := by
  unfold Run.readVariable
  cases r.depth with
  | some d => exact .getAt ht Machine.current d r.name
  | none =>
    refine .check ht (fun v hv => ?_) fun f hf => Scopes.get_common hf
    rcases t.machine.scopes.get_cases t.machine.globals r.name with ⟨id, w, hw, he⟩ | he
    · cases he.symm.trans hv
      exact ht.scopes id _ _ hw
    · cases he.symm.trans hv

theorem assignVariable (ht : t.machine.Fine) (r : Reference) {v : Value} (hv : v.Fine) :
    Orderly program L t (step (Run.assignVariable r v)) fun _ => True := by
  unfold Run.assignVariable
  cases r.depth with
  | some d =>
    exact .reassign ht hv (fun f hf => Scopes.holderAt_common hf) fun _ => Scopes.own_of_holderAt
  | none =>
    exact .reassign ht hv (fun f hf => Scopes.holder_common hf) fun _ => Scopes.own_of_holder

theorem readThis (ht : t.machine.Fine) (depth : Option Nat) (place : Place) :
    Orderly program L t (step (Run.readThis depth place)) Value.Fine := by
  unfold Run.readThis
  cases depth with
  | none => exact .fail ht place (by simp [Fault.Common])
  | some d => exact .getAt ht Machine.current d ⟨"this", place⟩

/-! ## Functions and classes -/

/-- A function made from tidy code is fine. -/
theorem makeFunction (ht : t.machine.Fine) (σ : Site) (kind : FunctionKind) (name : String)
    {params : List Name} {body : List Stmt} (isInitializer : Bool)
    (hc : ∀ c ∈ Code.mk params body :: Stmt.allCodes body, c.Tidy) :
    Orderly program L t (makeFunction σ kind name params body isInitializer) Closure.Fine := by
  obtain ⟨hown, hinner⟩ := List.forall_mem_cons.1 hc
  have hmake : Orderly program L t (step (Run.makeFunction name params body isInitializer))
      Closure.Fine := .of_still rfl rfl rfl rfl { ht with } ⟨hown, hinner⟩
  refine hmake.bind fun f u ha hf => .note (fun _ _ => rfl) ha.fine fun w hw => ?_
  exact .pure (hw ▸ ha.fine) hf

/-- A look at where a function was made. -/
theorem makerOf {f : Closure} {k : Maker → Watching α} {post : α → Prop} (ht : t.machine.Fine)
    (h : Orderly program L t (k (t.record.makers f.identity)) post) :
    Orderly program L t (makerOf f >>= k) post := .of_eq t rfl (.refl _ ht) rfl h

theorem bindMethod (ht : t.machine.Fine) {f : Closure} (hf : f.Fine) {v : Value} (hv : v.Fine) :
    Orderly program L t (bindMethod f v) Closure.Fine := by
  refine .shut ?_
  let scope := t.machine.scopes.size
  have hbind : Orderly program (.beyond scope) t (step (Run.bindMethod f v)) Closure.Fine := by
    unfold Run.bindMethod
    rw [step_bind]
    refine (newScope ht f.scope).bind fun id u ha hid => ?_
    rw [step_bind]
    refine (bindIn ha.fine hv (Nat.le_of_eq hid.symm)).bind fun _ u ha _ => ?_
    rw [step_bind]
    exact (newIdentity ha.fine).bind fun i u ha _ => .pure ha.fine ⟨hf.own, hf.inner⟩
  refine .makerOf ht (hbind.bind fun g u ha hg => ?_)
  refine .note (fun _ _ => rfl) ha.fine fun w hw => ?_
  exact .note (fun _ _ => rfl) (hw ▸ ha.fine) fun z hz => .pure (hz ▸ hw ▸ ha.fine) hg

/-- The methods made for a class are fine if their code is, and so is the whole table. -/
theorem makeMethods : ∀ (fs : List Function) {t : Watched} {σ : Site} {table : Bindings Closure},
    t.machine.Fine → Function.AllFine fs → Class.TableFine table →
    Orderly program L t (makeMethods σ fs table) Class.TableFine
  | [], _, _, _, ht, _, htable => .pure ht htable
  | .mk name params body :: fs, t, σ, table, ht, hfs, htable => by
    obtain ⟨hf, hfs⟩ := List.forall_mem_append.1 hfs
    refine (makeFunction ht σ _ name.text _ hf).bind fun f u ha hf => ?_
    exact makeMethods fs ha.fine hfs (htable.insert _ hf)

theorem readSuperclass (ht : t.machine.Fine) (r : Reference) :
    Orderly program L t (step (Run.readSuperclass r)) Class.Fine := by
  unfold Run.readSuperclass
  rw [step_bind]
  refine (readVariable ht r).bind fun v u ha hv => ?_
  cases v with
  | classValue c => exact .pure ha.fine hv
  | _ => exact .fail ha.fine _ (by simp [Fault.Common])

/-- The method that a class has under a name, or a fault. -/
theorem method (ht : t.machine.Fine) {c : Class} (hc : c.Fine) {v : Value} (hv : v.Fine)
    (name : Name) :
    Orderly program L t
      (match c.method? name.text with
        | some f => do return .function (← Watching.bindMethod f v)
        | none => step (Run.fail name.place (.undefinedProperty name.text)) : Watching Value)
      Value.Fine := by
  cases hm : c.method? name.text with
  | none => exact .fail ht _ (by simp [Fault.Common])
  | some f => exact (bindMethod ht (hc _ f hm) hv).bind fun g u ha hg => .pure ha.fine hg

theorem readSuper (ht : t.machine.Fine) (name : Name) (depth : Option Nat) (place : Place) :
    Orderly program L t (readSuper name depth place) Value.Fine := by
  unfold Watching.readSuper
  match depth with
  | none => exact .fail ht _ (by simp [Fault.Common])
  | some 0 => exact .fail ht _ (by simp [Fault.Common])
  | some (d + 1) =>
    refine (getAt ht Machine.current (d + 1) ⟨"super", place⟩).bind fun s u ha hs =>
      (getAt ha.fine Machine.current d ⟨"this", place⟩).bind fun v u ha hv => ?_
    cases s with
    | classValue c =>
      cases v with
      | object i k => exact .method ha.fine hs hv name
      | _ => exact .fail ha.fine _ (by simp [Fault.Common])
    | _ => exact .fail ha.fine _ (by simp [Fault.Common])

theorem readProperty (ht : t.machine.Fine) {v : Value} (hv : v.Fine) (name : Name) :
    Orderly program L t (readProperty v name) Value.Fine := by
  unfold Watching.readProperty
  cases v with
  | object i c =>
    refine (get ht).bind fun m u ha hm => ?_
    subst hm
    cases hfield : (t.machine.fieldsOf i).find? name.text with
    | some w => exact .pure ha.fine (ht.objects i _ w hfield)
    | none => exact .method ha.fine hv hv name
  | _ => exact .fail ht _ (by simp [Fault.Common])

/-! ## Calls -/

/-- Binding parameters to fine values is orderly as long as the licence covers their names. -/
theorem bindParams {scope : ScopeId} : ∀ (params : List Name) {vs : List Value} {t : Watched},
    t.machine.Fine → (∀ v ∈ vs, v.Fine) → (∀ p ∈ params, L.binds scope p.text) →
    Orderly program L t (step (Run.bindParams scope params vs)) fun _ => True
  | [], _, _, ht, _, _ => .pure ht trivial
  | _ :: _, [], _, ht, _, _ => .pure ht trivial
  | p :: ps, v :: vs, t, ht, hv, hL => by
    obtain ⟨hv, hvs⟩ := List.forall_mem_cons.1 hv
    obtain ⟨hp, hps⟩ := List.forall_mem_cons.1 hL
    rw [Run.bindParams, step_bind]
    exact (bindIn ht hv hp).bind fun _ u ha _ => bindParams ps ha.fine hvs hps

theorem callNative (ht : t.machine.Fine) (f : Native) {vs : List Value} (hv : ∀ v ∈ vs, v.Fine)
    (place : Place) : Orderly program L t (step (Run.callNative f vs place)) Value.Fine := by
  unfold Run.callNative
  cases f with
  | clock => exact .readClock ht
  | first _ =>
    cases vs with
    | nil => exact .fail ht _ (by simp [Fault.Common])
    | cons v _ => exact .pure ht (hv v List.mem_cons_self)

end Orderly

end Watching

/-! ## Statements -/

/-- The scope that runs binds the name already, and does not allow that again. -/
def Machine.Taken (m : Machine) (x : String) : Prop :=
  (m.own? m.current x).isSome ∧ (m.allow? m.current).getD false = false

/-- What a statement may do: bind the name that it declares, fail if that is a global name
that is taken, and end with its own jumps. -/
def Stmt.licence (inLoop : Bool) (s : Stmt) (m : Machine) : Licence where
  binds id x := id = m.current ∧ ∃ n ∈ s.declared?, n.text = x
  clashes n := n ∈ s.declared? ∧ m.current = m.globals ∧ m.Taken n.text
  breaks b := b = inLoop
  returns p := p ∈ s.returns

/-- What statements may do. -/
def Stmt.allLicence (inLoop : Bool) (ss : List Stmt) (m : Machine) : Licence where
  binds id x := id = m.current ∧ x ∈ Stmt.declaredTexts ss
  clashes n := (∃ s ∈ ss, n ∈ s.declared?) ∧ m.current = m.globals ∧ m.Taken n.text
  breaks b := b = inLoop
  returns p := p ∈ Stmt.allReturns ss

/-- The statements declare different names unless these may be bound again, and in a local
scope none that is bound. -/
structure Stmt.AllReady (ss : List Stmt) (m : Machine) : Prop where
  distinct : (Stmt.declaredTexts ss).Nodup ∨ (m.allow? m.current).getD false = true
  unbound : m.current ≠ m.globals → (Stmt.declaredTexts ss).Nodup ∧
    ∀ x ∈ Stmt.declaredTexts ss, m.own? m.current x = none

/-- The `break`s stand in the code around the site, whose `break`s are at different places. -/
structure Site.Covers (program : List Stmt) (σ : Site) (breaks : List (Place × Bool)) : Prop where
  apart : Stmt.BreaksApart (σ.code program)
  mem : ∀ b ∈ breaks, b ∈ Stmt.allBreaks false (σ.code program)

/-- The code around a site depends on its openers alone. -/
theorem Site.Covers.of_openers {program : List Stmt} {σ τ : Site} {bs : List (Place × Bool)}
    (h : σ.Covers program bs) (ho : τ.openers = σ.openers) : τ.Covers program bs := by
  have hc : τ.code program = σ.code program := by rw [Site.code, ho, Site.code]
  exact ⟨hc ▸ h.apart, hc ▸ h.mem⟩

theorem Site.Covers.mono {program : List Stmt} {σ : Site} {bs cs : List (Place × Bool)}
    (h : σ.Covers program bs) (hs : ∀ b ∈ cs, b ∈ bs) : σ.Covers program cs :=
  ⟨h.apart, fun b hb => h.mem b (hs b hb)⟩

/-- A new scope binds nothing, so statements that declare different names are ready in it. -/
theorem Stmt.AllReady.of_empty {ss : List Stmt} {m : Machine}
    (hd : (Stmt.declaredTexts ss).Nodup)
    (hn : ∀ x ∈ Stmt.declaredTexts ss, m.own? m.current x = none) : Stmt.AllReady ss m :=
  ⟨.inl hd, fun _ => ⟨hd, hn⟩⟩

theorem Stmt.declaredTexts_cons (s : Stmt) (ss : List Stmt) :
    Stmt.declaredTexts (s :: ss) = (s.declared?.map Name.text).toList ++ Stmt.declaredTexts ss := by
  unfold declaredTexts
  rw [List.filterMap_cons]
  cases s.declared? <;> rfl

/-- After the first of some statements that were ready the others are ready, and may do no
more than all together. -/
theorem Stmt.AllReady.tail {inLoop : Bool} {s : Stmt} {ss : List Stmt} {m n : Machine}
    (h : Stmt.AllReady (s :: ss) m) (hm : m.Fine)
    (hg : Machine.Grown (s.licence inLoop m).binds m n) :
    Stmt.AllReady ss n ∧
      (Stmt.allLicence inLoop ss n).Le (Stmt.allLicence inLoop (s :: ss) m) := by
  have hallow : n.allow? n.current = m.allow? m.current := by
    rw [hg.current]
    exact hg.allow _ hm.current
  have hsub {x : String} (hx : x ∈ Stmt.declaredTexts ss) : x ∈ Stmt.declaredTexts (s :: ss) := by
    rw [declaredTexts_cons]
    exact List.mem_append_right _ hx
  have apart (hd : (Stmt.declaredTexts (s :: ss)).Nodup) {x : String}
      (hx : x ∈ Stmt.declaredTexts ss) (hb : (n.own? n.current x).isSome) :
      (m.own? m.current x).isSome := by
    rw [hg.current] at hb
    rcases hg.only _ hm.current x hb with hb | ⟨-, k, hk, rfl⟩
    · exact hb
    · rw [declaredTexts_cons, Option.mem_def.1 hk] at hd
      exact absurd hx (List.nodup_cons.1 hd).1
  have tail (hd : (Stmt.declaredTexts (s :: ss)).Nodup) : (Stmt.declaredTexts ss).Nodup := by
    rw [declaredTexts_cons] at hd
    exact (List.nodup_append.1 hd).2.1
  refine ⟨⟨?_, fun hl => ?_⟩, ?_⟩
  · rw [hallow]
    exact h.distinct.imp_left tail
  · rw [hg.current, hg.globals] at hl
    obtain ⟨hd, hu⟩ := h.unbound hl
    refine ⟨tail hd, fun x hx => ?_⟩
    by_contra hb
    have hs := apart hd hx (Option.isSome_iff_ne_none.2 hb)
    rw [hu x (hsub hx)] at hs
    cases hs
  · refine ⟨fun id x ⟨hid, hx⟩ => ⟨hid.trans hg.current, hsub hx⟩, ?_, fun _ h => h,
      fun p hp => List.mem_append_right _ hp⟩
    rintro k ⟨⟨s', hs', hk⟩, hcur, hb, ha⟩
    rw [hg.current, hg.globals] at hcur
    rw [hallow] at ha
    refine ⟨⟨s', List.mem_cons_of_mem _ hs', hk⟩, hcur, ?_, ha⟩
    rcases h.distinct with hd | hd
    · exact apart hd (Stmt.mem_declaredTexts.2 ⟨s', hs', k, hk, rfl⟩) hb
    · rw [hd] at ha
      cases ha

theorem Stmt.ready_of_none {s : Stmt} (h : s.declared? = none) (m : Machine) : s.Ready m := by
  intro _ n hn
  rw [h] at hn
  cases hn

theorem Stmt.AllReady.head {s : Stmt} {ss : List Stmt} {m : Machine}
    (h : Stmt.AllReady (s :: ss) m) : s.Ready m := fun hl n hn =>
  (h.unbound hl).2 n.text (Stmt.mem_declaredTexts.2 ⟨s, List.mem_cons_self, n, hn, rfl⟩)

theorem Stmt.licence_le_all (inLoop : Bool) (s : Stmt) (ss : List Stmt) (m : Machine) :
    (s.licence inLoop m).Le (Stmt.allLicence inLoop (s :: ss) m) where
  binds _ _ := fun ⟨hid, n, hn, hx⟩ =>
    ⟨hid, Stmt.mem_declaredTexts.2 ⟨s, List.mem_cons_self, n, hn, hx⟩⟩
  clashes _ := fun ⟨hn, h⟩ => ⟨⟨s, List.mem_cons_self, hn⟩, h⟩
  breaks _ h := h
  returns _ h := List.mem_append_left _ h

namespace Watching

variable {program : List Stmt} {L : Licence} {t u : Watched}

/-- A fine statement that is ready stays within its licence, wherever it stands. -/
def ExecOrderly (program : List Stmt) (exec : Site → Stmt → Watching Unit) : Prop :=
  ∀ (inLoop : Bool) (σ : Site) (s : Stmt) (t : Watched), t.machine.Fine → s.Fine →
    s.Ready t.machine → σ.Covers program (s.breaks inLoop) →
    Orderly program (s.licence inLoop t.machine) t (exec σ s) fun _ => True

/-- A fine expression needs no licence. -/
def EvalOrderly (program : List Stmt) (eval : Site → Expr → Watching Value) : Prop :=
  ∀ (σ : Site) (e : Expr) (t : Watched), t.machine.Fine → e.Fine →
    Orderly program .nothing t (eval σ e) Value.Fine

namespace Orderly

section
variable {exec : Site → Stmt → Watching Unit} (hx : ExecOrderly program exec)
include hx

/-- Statements one after another are orderly if each is ready when its turn comes. -/
theorem forEach (inLoop : Bool) : ∀ (ss : List Stmt) {σ : Site} {t : Watched}, t.machine.Fine →
    Stmt.AllFine ss → Stmt.AllReady ss t.machine → σ.Covers program (Stmt.allBreaks inLoop ss) →
    Orderly program (Stmt.allLicence inLoop ss t.machine) t (forEach exec σ ss) fun _ => True
  | [], _, _, ht, _, _, _ => .pure ht trivial
  | s :: ss, σ, t, ht, hs, hr, hc => by
    obtain ⟨hs, hss⟩ := Stmt.allFine_cons.1 hs
    refine (hx inLoop σ s t ht hs hr.head (hc.mono fun b hb => List.mem_append_left _ hb)).bind_le
      (s.licence_le_all inLoop ss _) fun _ u ha _ => ?_
    obtain ⟨hr, hle⟩ := hr.tail ht ha.grown
    have hc := (hc.mono fun b hb => List.mem_append_right _ hb).of_openers
      (show (σ.after s.resolve).openers = σ.openers from rfl)
    exact (forEach inLoop ss ha.fine hss hr hc).mono hle fun _ h => h

/-- A call of a fine function with fine values gives a fine value. -/
theorem callClosure (ht : t.machine.Fine) {f : Closure} (hf : f.Fine) {vs : List Value}
    (hv : ∀ v ∈ vs, v.Fine) (place : Place) :
    Orderly program L t (callClosure exec f vs place) Value.Fine := by
  refine .shut ?_
  let scope := t.machine.scopes.size
  let params : Licence :=
    { Licence.nothing with binds := fun id x => id = scope ∧ x ∈ f.params.map Name.text }
  have hparams : params.Le (.beyond scope) :=
    ⟨fun _ _ h => Nat.le_of_eq h.1.symm, fun _ h => h, fun _ h => h, fun _ h => h⟩
  -- the new scope, with the opener that the record gets
  let inner := (t.record.makers f.identity).body f.params f.body
  let t₁ := t.opening f.scope inner.openers.head?
  let body : Watching Unit := Watching.within scope (Watching.forEach exec inner f.body)
  let rest : Watching Value := do
    let v ← Watching.catching body
    if f.isInitializer then step (Run.check fun m => m.scopes.getAt f.scope 0 ⟨"this", place⟩)
    else return v
  suffices hrest : Orderly program (.beyond scope) t₁
      (step (Run.bindParams scope f.params vs) >>= fun _ => rest) Value.Fine from
    .of_eq t₁ rfl (.opening ht f.scope _) rfl hrest
  have ht₁ := ht.child f.scope
  have hbind : Orderly program params t₁ (step (Run.bindParams scope f.params vs)) fun _ => True :=
    bindParams f.params ht₁ hv fun p hp => ⟨rfl, List.mem_map_of_mem hp⟩
  refine hbind.bind_le hparams fun _ u ha _ => ?_
  have hlt : scope < t₁.machine.scopes.size := lt_opening t f.scope _
  have hu : (u.running scope).machine.Fine :=
    ha.fine.running (Nat.lt_of_lt_of_le hlt ha.grown.size)
  have hglobals : scope ≠ u.machine.globals :=
    fun he => Nat.ne_of_gt ht.globals (he.trans ha.grown.globals)
  -- the parameters are all that the scope binds
  have hready : Stmt.AllReady f.body (u.running scope).machine := by
    have hd := List.nodup_append.1 hf.own.distinct
    refine .of_empty hd.2.1 fun x hx => ?_
    by_contra hb
    rcases ha.grown.only scope hlt x (Option.isSome_iff_ne_none.2 hb) with hb | ⟨-, hp⟩
    · rw [own?_opening_size] at hb
      cases hb
    · exact hd.2.2 x hp x hx rfl
  have hcovers : inner.Covers program (Stmt.allBreaks false f.body) := ⟨hf.own.breaks, fun _ h => h⟩
  have hbody := forEach hx false f.body hu hf.statements hready hcovers
  have hcaught : Orderly program (.beyond scope) u (Watching.catching body) Value.Fine :=
    (hbody.within ha.fine).catching (fun id x h => Nat.le_of_eq h.1.symm)
      (fun n h => hglobals h.2.1) fun b hb => hb
  refine hcaught.bind fun v u ha hv => ?_
  split
  · exact .getAt ha.fine (fun _ => f.scope) 0 ⟨"this", place⟩
  · exact .pure ha.fine hv

/-- Making an object of a fine class, with its `init`, gives a fine value. -/
theorem construct (ht : t.machine.Fine) {c : Class} (hc : c.Fine) {vs : List Value}
    (hv : ∀ v ∈ vs, v.Fine) (place : Place) :
    Orderly program L t (construct exec c vs place) Value.Fine := by
  refine (newObject ht hc).bind fun o u ha ho => ?_
  cases hm : c.method? "init" with
  | none => exact .pure ha.fine ho
  | some f =>
    refine (bindMethod ha.fine (hc _ f hm) ho).bind fun g u ha hg => ?_
    exact (callClosure hx ha.fine hg hv place).discard.bind fun _ u ha _ => .pure ha.fine ho

theorem call (ht : t.machine.Fine) {v : Value} (hf : v.Fine) {vs : List Value}
    (hv : ∀ v ∈ vs, v.Fine) (place : Place) :
    Orderly program L t (call exec v vs place) Value.Fine := by
  unfold Watching.call
  cases v.arity? with
  | none => exact .fail ht _ (by simp [Fault.Common])
  | some expected =>
    dsimp only
    split
    · exact .fail ht _ (by simp [Fault.Common])
    · cases v with
      | native f => exact .callNative ht f hv place
      | function f => exact .callClosure hx ht hf hv place
      | classValue c => exact .construct hx ht hf hv place
      | _ => exact .fail ht _ (by simp [Fault.Common])

end

end Orderly

end Watching

end LoxLang
