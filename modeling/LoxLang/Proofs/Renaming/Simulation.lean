import LoxLang.Machine.Eval
import LoxLang.Proofs.Renaming.World

/-!
# Steps that differ in names

`Sim W ρ post` relates a step to the same step of a renamed tree: from machines that are
alike in the world `W`, where the current scope has the marks `ρ`, both come to machines that
are alike in a world that knows no less, in the scope that they started from, and to values
related by `post` or to interrupts that are alike. The laws follow the ways in which steps
are put together; then come the steps that a run is made of.
-/

namespace LoxLang

open Run

section
variable {x y : String} {α β γ δ : Type}

/-- What the ends of two steps have in common that started in the world `W`. -/
def EndAlike (x y : String) (W : World) (current : ScopeId) (post : World → α → β → Prop) :
    EStateM.Result Interrupt Machine α → EStateM.Result Interrupt Machine β → Prop
  | .ok a m, .ok b m' =>
    ∃ W', W.Le W' ∧ MachineAlike x y W' m m' ∧ m.current = current ∧ post W' a b
  | .error i m, .error i' m' =>
    ∃ W', W.Le W' ∧ MachineAlike x y W' m m' ∧ m.current = current ∧ InterruptAlike x y W' i i'
  | _, _ => False

/-- The steps do the same but for names. -/
def Sim (x y : String) (W : World) (ρ : Marks) (post : World → α → β → Prop) (step : Run α)
    (step' : Run β) : Prop :=
  ∀ m m', MachineAlike x y W m m' → W m.current = some ρ →
    EndAlike x y W m.current post (step m) (step' m')

variable {W : World} {ρ : Marks} {post mid : World → α → β → Prop}
  {post' : World → γ → δ → Prop} {step : Run α} {step' : Run β}

/-! ## Laws -/

/-- Alike ends are two values or two interrupts, in machines that are alike. -/
theorem EndAlike.cases {current : ScopeId} {r : EStateM.Result Interrupt Machine α}
    {r' : EStateM.Result Interrupt Machine β} (h : EndAlike x y W current post r r') :
    (∃ a n b n' V, r = .ok a n ∧ r' = .ok b n' ∧ W.Le V ∧ MachineAlike x y V n n' ∧
        n.current = current ∧ post V a b) ∨
      ∃ i n i' n' V, r = .error i n ∧ r' = .error i' n' ∧ W.Le V ∧ MachineAlike x y V n n' ∧
        n.current = current ∧ InterruptAlike x y V i i' := by
  cases r with
  | ok a n =>
    cases r' with
    | ok b n' =>
      obtain ⟨V, h⟩ := h
      exact .inl ⟨a, n, b, n', V, rfl, rfl, h⟩
    | error i' n' => exact h.elim
  | error i n =>
    cases r' with
    | ok b n' => exact h.elim
    | error i' n' =>
      obtain ⟨V, h⟩ := h
      exact .inr ⟨i, n, i', n', V, rfl, rfl, h⟩

theorem EndAlike.le {W' : World} (hW : W.Le W') {current : ScopeId}
    {r : EStateM.Result Interrupt Machine α} {r' : EStateM.Result Interrupt Machine β}
    (h : EndAlike x y W' current post r r') : EndAlike x y W current post r r' := by
  unfold EndAlike at h ⊢
  split <;> simp only at h
  · obtain ⟨V, hV, h⟩ := h
    exact ⟨V, hW.trans hV, h⟩
  · obtain ⟨V, hV, h⟩ := h
    exact ⟨V, hW.trans hV, h⟩

/-- A step that is taken later, from where an earlier one has come to. -/
theorem Sim.later {V : World} {current : ScopeId} {n n' : Machine} (h : Sim x y V ρ post step step')
    (hV : W.Le V) (hn : MachineAlike x y V n n') (hcur : n.current = current)
    (hc : W current = some ρ) : EndAlike x y W current post (step n) (step' n') := by
  subst hcur
  exact (h n n' hn (hV _ _ hc)).le hV

theorem Sim.pure {a : α} {b : β} (h : post W a b) : Sim x y W ρ post (pure a) (pure b) :=
  fun _ _ hm _ => ⟨W, .refl W, hm, rfl, h⟩

theorem Sim.throw {i i' : Interrupt} (h : InterruptAlike x y W i i') :
    Sim x y W ρ post (throw i : Run α) (throw i' : Run β) :=
  fun _ _ hm _ => ⟨W, .refl W, hm, rfl, h⟩

theorem Sim.fail (place : Place) (cause : FaultCause) :
    Sim x y W ρ post (Run.fail place cause) (Run.fail place cause) :=
  .throw (.fault (faultAlike_self x y _))

theorem Sim.bind {k : α → Run γ} {k' : β → Run δ} (h : Sim x y W ρ mid step step')
    (hk : ∀ W' a b, W.Le W' → mid W' a b → Sim x y W' ρ post' (k a) (k' b)) :
    Sim x y W ρ post' (step >>= k) (step' >>= k') := by
  intro m m' hm hc
  have hstep := h m m' hm hc
  show EndAlike x y W m.current post' (EStateM.bind step k m) (EStateM.bind step' k' m')
  unfold EStateM.bind
  obtain ⟨a, n, b, n', V, hs, hs', hV, hn, hcur, hmid⟩ | ⟨i, n, i', n', V, hs, hs', h⟩ := hstep.cases
  · rw [hs, hs']
    exact (hk V a b hV hmid).later hV hn hcur hc
  · rw [hs, hs']
    exact ⟨V, h⟩

theorem Sim.discard (h : Sim x y W ρ mid step step') :
    Sim x y W ρ (fun _ _ _ => True) (discard step) (discard step') :=
  h.bind fun _ _ _ _ _ => .pure trivial

/-- Steps in another scope are back in the scope that they came from. -/
theorem Sim.within {scope : ScopeId} {σ : Marks} (hs : W scope = some σ)
    (h : Sim x y W σ post step step') :
    Sim x y W ρ post (within scope step) (within scope step') := by
  intro m m' hm _
  have hstep := h _ _ (hm.running scope) hs
  unfold Run.within
  rw [hm.current]
  dsimp only
  obtain ⟨a, n, b, n', V, hr, hr', hV, hn, -, hp⟩ | ⟨i, n, i', n', V, hr, hr', hV, hn, -, hi⟩ :=
    hstep.cases
  · rw [hr, hr']
    exact ⟨V, hV, hn.running _, rfl, hp⟩
  · rw [hr, hr']
    exact ⟨V, hV, hn.running _, rfl, hi⟩

/-- The bodies of two functions give values that are alike. -/
theorem Sim.catching {mid : World → Unit → Unit → Prop} {step step' : Run Unit}
    (h : Sim x y W ρ mid step step') :
    Sim x y W ρ (ValueAlike x y) (catching step) (catching step') := by
  intro m m' hm hc
  have hstep := h m m' hm hc
  unfold Run.catching
  obtain ⟨_, n, _, n', V, hr, hr', hV, hn, hcur, -⟩ | ⟨i, n, i', n', V, hr, hr', hV, hn, hcur, hi⟩ :=
    hstep.cases
  · rw [hr, hr']
    exact ⟨V, hV, hn, hcur, .plain trivial⟩
  · rw [hr, hr']
    cases hi with
    | fault hf => exact ⟨V, hV, hn, hcur, .fault hf⟩
    | breaking place => exact ⟨V, hV, hn, hcur, .fault (faultAlike_self x y _)⟩
    | returning place hv => exact ⟨V, hV, hn, hcur, hv⟩
    | exhausted => exact ⟨V, hV, hn, hcur, .exhausted⟩

/-! ## Steps on a machine -/

/-- A look at machines that are alike gives alike results. -/
theorem Sim.check {look : Machine → Except Fault α} {look' : Machine → Except Fault β}
    (h : ∀ m m', MachineAlike x y W m m' → W m.current = some ρ →
      ResultAlike x y (post W) (look m) (look' m')) :
    Sim x y W ρ post (check look) (check look') := by
  intro m m' hm hc
  unfold Run.check
  obtain ⟨a, b, hr, hr', hp⟩ | ⟨f, f', hr, hr', hf⟩ := (h m m' hm hc).cases
  · rw [hr, hr']
    exact ⟨W, .refl W, hm, rfl, hp⟩
  · rw [hr, hr']
    exact ⟨W, .refl W, hm, rfl, .fault hf⟩

theorem Sim.lift {r : Except Fault α} {r' : Except Fault β} (h : ResultAlike x y (post W) r r') :
    Sim x y W ρ post (lift r) (lift r') := .check fun _ _ _ _ => h

/-- A name gets a value in one and the same scope, where it is exchanged by the mark. -/
theorem Sim.store {choose choose' : Machine → Except Fault ScopeId} {n n' : String}
    {v v' : Value} (hv : ValueAlike x y W v v')
    (h : ∀ m m', MachineAlike x y W m m' → W m.current = some ρ →
      ResultAlike x y (fun a a' => a' = a ∧ ∃ σ, W a = some σ ∧ n' = exchange x y (σ 0) n)
        (choose m) (choose' m')) :
    Sim x y W ρ (fun _ _ _ => True) (store choose n v) (store choose' n' v') := by
  intro m m' hm hc
  unfold Run.store
  obtain ⟨a, _, hr, hr', rfl, σ, ha, rfl⟩ | ⟨f, f', hr, hr', hf⟩ := (h m m' hm hc).cases
  · rw [hr, hr']
    exact ⟨W, .refl W, hm.insert ha n hv, rfl, trivial⟩
  · rw [hr, hr']
    exact ⟨W, .refl W, hm, rfl, .fault hf⟩

theorem Sim.get : Sim x y W ρ (fun W' m m' => MachineAlike x y W' m m' ∧ W' m.current = some ρ)
    get get := fun _ _ hm hc => ⟨W, .refl W, hm, rfl, hm, hc⟩

theorem Sim.newIdentity : Sim x y W ρ (fun _ i i' => i' = i) newIdentity newIdentity :=
  fun _ _ hm _ => ⟨W, .refl W, { hm with fresh := congrArg (· + 1) hm.fresh }, rfl, hm.fresh⟩

/-- A new scope may have the mark or not. -/
theorem Sim.newScope {parent : ScopeId} {σ : Marks} (hp : W parent = some σ) (b : Bool) :
    Sim x y W ρ (fun W' id id' => id' = id ∧ W' id = some (σ.push b)) (newScope parent)
      (newScope parent) := by
  intro m m' hm _
  have hW := hm.scopes.le_add (σ.push b)
  refine ⟨W.add m.scopes.size (σ.push b), hW, ?_, rfl, hm.scopes.size, World.add_self _ _ _⟩
  exact { hm with
    scopes := hm.scopes.child hp b
    objects := fun i n => rel_imp (hm.objects i n) fun _ _ => .mono hW
    outermost := hW _ _ hm.outermost }

theorem Sim.bindIn {id : ScopeId} {σ : Marks} (hid : W id = some σ) (n : String) {v v' : Value}
    (hv : ValueAlike x y W v v') :
    Sim x y W ρ (fun _ _ _ => True) (bindIn id n v) (bindIn id (exchange x y (σ 0) n) v') :=
  fun _ _ hm _ => ⟨W, .refl W, hm.insert hid n hv, rfl, trivial⟩

theorem Sim.bindThis {id : ScopeId} {σ : Marks} (hid : W id = some σ) {v v' : Value}
    (hv : ValueAlike x y W v v') :
    Sim x y W ρ (fun _ _ _ => True) (Run.bindIn id "this" v) (Run.bindIn id "this" v') := by
  intro m m' hm hc
  have hb := Sim.bindIn (ρ := ρ) hid "this" hv m m' hm hc
  rwa [hm.exchange_this] at hb

theorem Sim.bindSuper {id : ScopeId} {σ : Marks} (hid : W id = some σ) {v v' : Value}
    (hv : ValueAlike x y W v v') :
    Sim x y W ρ (fun _ _ _ => True) (Run.bindIn id "super" v) (Run.bindIn id "super" v') := by
  intro m m' hm hc
  have hb := Sim.bindIn (ρ := ρ) hid "super" hv m m' hm hc
  rwa [hm.exchange_super] at hb

theorem Sim.newObject {c c' : Class} (h : ClassAlike x y W c c') :
    Sim x y W ρ (ValueAlike x y) (newObject c) (newObject c') := by
  intro m m' hm _
  refine ⟨W, .refl W, { hm with count := ?_, objects := fun i n => ?_ }, rfl, ?_⟩
  · rw [Array.size_push, Array.size_push, hm.count]
  · have ho := hm.objects i n
    simp only [Machine.fieldsOf, Array.getElem?_push, hm.count] at ho ⊢
    split
    · exact .none
    · exact ho
  · rw [hm.count]
    exact .object _ h

/-- Storing a field changes this field of this object and nothing else. -/
theorem find?_modify (objects : Array (Bindings Value)) (i : Nat) (n : String) (v : Value)
    (j : Nat) (k : String) :
    ((objects.modify i (·.insert n v))[j]?.getD []).find? k =
      if j = i ∧ k = n ∧ i < objects.size then some v else (objects[j]?.getD []).find? k := by
  rw [Array.getElem?_modify]
  by_cases hi : i = j
  · subst hi
    rw [if_pos rfl]
    by_cases hs : i < objects.size
    · simp [Bindings.find?_insert, hs]
    · simp [hs]
  · simp [hi, Ne.symm hi]

theorem Sim.setField (i : Nat) (n : String) {v v' : Value} (hv : ValueAlike x y W v v') :
    Sim x y W ρ (fun _ _ _ => True) (setField i n v) (setField i n v') := by
  intro m m' hm _
  refine ⟨W, .refl W, { hm with count := ?_, objects := fun j k => ?_ }, rfl, trivial⟩
  · rw [Array.size_modify, Array.size_modify, hm.count]
  · simp only [Machine.fieldsOf]
    rw [find?_modify, find?_modify, hm.count]
    split
    · exact .some hv
    · exact hm.objects j k

theorem Sim.print (text : String) (place : Place) :
    Sim x y W ρ (fun _ _ _ => True) (print text place) (print text place) := by
  intro m m' hm _
  have hnext (s : Sink) : MachineAlike x y W { m with sink := s } { m' with sink := s } :=
    { hm with sink := rfl }
  unfold Run.print
  rw [hm.sink]
  dsimp only
  cases (m.sink.put text).2 with
  | none => exact ⟨W, .refl W, hnext _, rfl, trivial⟩
  | some problem => exact ⟨W, .refl W, hnext _, rfl, .fault (faultAlike_self x y _)⟩

theorem Sim.readClock : Sim x y W ρ (ValueAlike x y) readClock readClock := by
  intro m m' hm _
  unfold Run.readClock
  rw [hm.clock]
  exact ⟨W, .refl W, { hm with clock := rfl }, rfl, .plain trivial⟩

end

/-! ## Operators -/

section
variable {x y : String} {W : World}

/-- A result that holds on to no scope is alike to itself. -/
theorem resultAlike_of_plainly {r : Except Fault Value} {also : Value → Prop}
    (h : Plainly r also) (ha : ∀ v, also v → ValueAlike x y W v v) :
    ResultAlike x y (ValueAlike x y W) r r := by
  unfold Plainly at h
  cases r with
  | ok v => exact h.elim .plain (ha v)
  | error f => exact faultAlike_self x y f

theorem ValueAlike.number {v v' : Value} (h : ValueAlike x y W v v') (place : Place) :
    Operand.number ⟨place, v'⟩ = Operand.number ⟨place, v⟩ := by
  have ht := h.text
  cases h with
  | plain => rfl
  | function | classValue | object =>
    unfold Operand.number
    simp only [ht]

theorem ValueAlike.unary {v v' : Value} (h : ValueAlike x y W v v') (op : UnaryOp)
    (place : Place) :
    ResultAlike x y (ValueAlike x y W) (op.apply ⟨place, v⟩) (op.apply ⟨place, v'⟩) := by
  have he : op.apply ⟨place, v'⟩ = op.apply ⟨place, v⟩ := by
    cases op with
    | negate => rw [UnaryOp.apply, UnaryOp.apply, h.number]
    | not => rw [UnaryOp.apply, UnaryOp.apply, h.isTrue]
  rw [he]
  exact resultAlike_of_plainly (op.plainly_apply _) fun _ hf => hf.elim

theorem ValueAlike.decidedBy {v v' : Value} (h : ValueAlike x y W v v') (op : BinaryOp) :
    op.decidedBy v' = op.decidedBy v := by
  cases op <;> simp only [BinaryOp.decidedBy, h.isTrue]

theorem ValueAlike.sum {l l' r r' : Value} (hl : ValueAlike x y W l l')
    (hr : ValueAlike x y W r r') (p q : Place) :
    Operand.sum ⟨p, l'⟩ ⟨q, r'⟩ = Operand.sum ⟨p, l⟩ ⟨q, r⟩ := by
  cases hl with
  | plain _ =>
    cases hr with
    | plain => rfl
    | _ => cases l <;> rfl
  | _ => rfl

/-- An operator gives alike results for alike operands. -/
theorem ValueAlike.binary {l l' r r' : Value} (hl : ValueAlike x y W l l')
    (hr : ValueAlike x y W r r') (op : BinaryOp) (p q place : Place) :
    ResultAlike x y (ValueAlike x y W) (op.apply ⟨p, l⟩ ⟨q, r⟩ place)
      (op.apply ⟨p, l'⟩ ⟨q, r'⟩ place) := by
  have numbers : Operand.numbers ⟨p, l'⟩ ⟨q, r'⟩ = Operand.numbers ⟨p, l⟩ ⟨q, r⟩ := by
    rw [Operand.numbers, Operand.numbers, hl.number, hr.number]
  have plain {s s' : Except Fault Value} (he : s' = s) (hs : Plainly s fun _ => False) :
      ResultAlike x y (ValueAlike x y W) s s' := by
    rw [he]
    exact resultAlike_of_plainly hs fun _ hf => hf.elim
  cases op with
  | add => exact plain (hl.sum hr p q) (Operand.plainly_sum _ _)
  | equal | differ => exact plain (by simp only [BinaryOp.apply, hl.equal hr]) (.inl trivial)
  | and | or => exact hr
  | _ => exact plain (by simp only [BinaryOp.apply, numbers]) (BinaryOp.plainly_numbers _ _ _ place)

end

end LoxLang
