import LoxLang.Proofs.Machine.Agree
import LoxLang.Proofs.Objects.Whole

/-!
# Steps that keep machines whole

`Upholds` says that a watched step leaves a whole machine whole, forgets nothing, and comes
only to visits whose machines are whole. The laws follow the ways in which steps are put
together; then come names, functions, classes and properties.
-/

namespace LoxLang

open Scoping

/-- The visit finds a whole machine, and an expression that binds ordinary names only. -/
structure Visit.Whole (v : Visit) : Prop where
  machine : v.machine.Whole
  expression : ∀ e, v.node = .expression e → e.Regular

/-- What a step ends with if it gives no value. -/
def Interrupt.Whole (m : Machine) : Interrupt → Prop
  | .returning v _ => v.Whole m
  | _ => True

theorem Interrupt.Whole.mono {m n : Machine} (h : m.Keeps n) {i : Interrupt} (hi : i.Whole m) :
    i.Whole n := by
  cases i with
  | returning v place => exact Value.Whole.mono h hi
  | _ => trivial

/-- One state comes after another; the visits in between are whole. -/
structure Onward (t u : Watched) : Prop where
  keeps : t.machine.Keeps u.machine
  whole : u.machine.Whole
  visits : ∀ v ∈ u.record.visits, v ∈ t.record.visits ∨
    v.Whole ∧ t.machine.Keeps v.machine ∧ v.machine.Keeps u.machine

section
variable {t u w : Watched}

theorem Onward.refl (h : t.machine.Whole) : Onward t t := ⟨.refl _, h, fun _ hv => .inl hv⟩

theorem Onward.trans (h : Onward t u) (h' : Onward u w) : Onward t w := by
  refine ⟨h.keeps.trans h'.keeps, h'.whole, fun v hv => ?_⟩
  rcases h'.visits v hv with hv | ⟨hv, hu, hw⟩
  · exact (h.visits v hv).imp_right fun ⟨hv, ht, hu⟩ => ⟨hv, ht, hu.trans h'.keeps⟩
  · exact .inr ⟨hv, h.keeps.trans hu, hw⟩

/-- A change of the machine alone. -/
theorem Onward.of_machine {m : Machine} (h : t.machine.Keeps m) (hm : m.Whole) :
    Onward t { t with machine := m } := ⟨h, hm, fun _ hv => .inl hv⟩

theorem Onward.running (h : Onward t u) (id : ScopeId) : Onward t (u.running id) :=
  ⟨h.keeps.trans (.running _ id), h.whole.running id, fun v hv =>
    (h.visits v hv).imp_right fun ⟨hv, ht, hu⟩ => ⟨hv, ht, hu.trans (.running _ id)⟩⟩

end

namespace Watching

variable {α β : Type} {t : Watched}

/-- The step keeps a machine whole, and `post` holds of its value and machine then. -/
def Upholds (t : Watched) (x : Watching α) (post : α → Machine → Prop) : Prop :=
  match x t with
  | .ok a u => Onward t u ∧ post a u.machine
  | .error i u => Onward t u ∧ i.Whole u.machine

variable {x : Watching α} {k : α → Watching β} {post mid : α → Machine → Prop}
  {post' : β → Machine → Prop}

namespace Upholds

/-! ## Laws -/

theorem pure (ht : t.machine.Whole) {a : α} (h : post a t.machine) :
    Upholds t (pure a) post := ⟨.refl ht, h⟩

theorem throw (ht : t.machine.Whole) {i : Interrupt} (h : i.Whole t.machine) :
    Upholds t (throw i : Watching α) post := ⟨.refl ht, h⟩

theorem fail (ht : t.machine.Whole) (place : Place) (cause : FaultCause) :
    Upholds t (step (Run.fail place cause) : Watching α) post := ⟨.refl ht, trivial⟩

/-- A step that another one goes on with from a later state. -/
theorem of_eq (w : Watched) {y : Watching α} (he : x t = y w) (ha : Onward t w)
    (h : Upholds w y post) : Upholds t x post := by
  unfold Upholds at h ⊢
  rw [he]
  cases hy : y w with
  | ok a u =>
    rw [hy] at h
    exact ⟨ha.trans h.1, h.2⟩
  | error i u =>
    rw [hy] at h
    exact ⟨ha.trans h.1, h.2⟩

theorem bind (h : Upholds t x mid)
    (hk : ∀ a u, Onward t u → mid a u.machine → Upholds u (k a) post') :
    Upholds t (x >>= k) post' := by
  unfold Upholds at h
  cases hx : x t with
  | ok a u =>
    rw [hx] at h
    exact .of_eq u (by rw [bind_apply, hx]) h.1 (hk a u h.1 h.2)
  | error i u =>
    rw [hx] at h
    unfold Upholds
    rw [bind_apply, hx]
    exact h

theorem mono (h : Upholds t x mid) (hp : ∀ a u, Onward t u → mid a u.machine → post a u.machine) :
    Upholds t x post := by
  unfold Upholds at h ⊢
  cases hx : x t with
  | ok a u =>
    rw [hx] at h
    exact ⟨h.1, hp a u h.1 h.2⟩
  | error i u =>
    rw [hx] at h
    exact h

theorem discard (h : Upholds t x mid) : Upholds t (discard x) fun _ _ => True :=
  h.bind fun _ _ ha _ => .pure ha.whole trivial

/-- What a value is made of is what it is in any other scope. -/
theorem within {scope : ScopeId} (ht : t.machine.Whole) (h : Upholds (t.running scope) x mid)
    (hp : ∀ a (u : Watched), mid a u.machine → post a (u.running t.machine.current).machine) :
    Upholds t (within scope x) post := by
  have hs : Onward t (t.running scope) := (Onward.refl ht).running scope
  unfold Upholds at h ⊢
  rw [within_apply]
  cases hy : x (t.running scope) with
  | ok a u =>
    rw [hy] at h
    exact ⟨(hs.trans h.1).running _, hp a u h.2⟩
  | error i u =>
    rw [hy] at h
    exact ⟨(hs.trans h.1).running _, h.2.mono (.running _ _)⟩

theorem catching {x : Watching Unit} {mid : Unit → Machine → Prop} (h : Upholds t x mid) :
    Upholds t (catching x) fun v m => v.Whole m := by
  unfold Upholds at h ⊢
  unfold Watching.catching
  cases hx : x t with
  | ok a u =>
    rw [hx] at h
    exact ⟨h.1, trivial⟩
  | error i u =>
    rw [hx] at h
    cases i with
    | returning v place => exact h
    | _ => exact ⟨h.1, trivial⟩

theorem breakable {body rest : Watching Unit} {mid : Unit → Machine → Prop}
    (h : Upholds t body mid) (hk : ∀ u, Onward t u → Upholds u rest fun _ _ => True) :
    Upholds t (breakable body rest) fun _ _ => True := by
  unfold Upholds at h
  cases hb : body t with
  | ok a u =>
    rw [hb] at h
    exact .of_eq u (by rw [Watching.breakable, hb]) h.1 (hk u h.1)
  | error i u =>
    rw [hb] at h
    unfold Upholds Watching.breakable
    rw [hb]
    cases i with
    | breaking place => exact ⟨h.1, trivial⟩
    | _ => exact h

/-! ## The record -/

/-- The record of how things were made does not matter. -/
theorem note {change : Machine → Record → Record}
    (hc : ∀ m r, (change m r).visits = r.visits) (ht : t.machine.Whole)
    (h : ∀ u : Watched, u.machine = t.machine → Upholds u x post) :
    Upholds t (note change >>= fun _ => x) post := by
  let u : Watched := { t with record := change t.machine t.record }
  refine .of_eq u rfl ⟨.refl _, ht, fun v hv => .inl ?_⟩ (h u rfl)
  rwa [show u.record.visits = t.record.visits from hc _ _] at hv

/-- A visit that is recorded leaves the machine whole. -/
theorem visit {σ : Site} {node : Node} (ht : t.machine.Whole)
    (he : ∀ e, node = .expression e → e.Regular)
    (h : ∀ u : Watched, u.machine = t.machine → Upholds u x post) :
    Upholds t (visit σ node >>= fun _ => x) post := by
  refine .of_eq (t.visiting σ node) rfl ⟨.refl _, ht, fun v hv => ?_⟩ (h _ rfl)
  rcases List.mem_cons.1 hv with rfl | hv
  · exact .inr ⟨⟨ht, he⟩, .refl _, .refl _⟩
  · exact .inl hv

/-! ## Steps on a machine -/

/-- A step that never fails. -/
theorem of_run {y : Run α} {a : α} {m : Machine} (hy : y t.machine = .ok a m)
    (h : t.machine.Keeps m ∧ m.Whole) (hp : post a m) : Upholds t (step y) post := by
  unfold Upholds step
  rw [hy]
  exact ⟨.of_machine h.1 h.2, hp⟩

/-- A step that changes nothing which a machine holds on to. -/
theorem of_still {y : Run α} {a : α} {m : Machine} (ht : t.machine.Whole)
    (hy : y t.machine = .ok a m) (hs : m.scopes = t.machine.scopes)
    (hg : m.globals = t.machine.globals) (ho : m.objects = t.machine.objects) (hp : post a m) :
    Upholds t (step y) post :=
  .of_run hy ⟨.of_scopes hs hg (Nat.le_of_eq (by rw [ho])), ht.of_same hs hg ho⟩ hp

theorem check {look : Machine → Except Fault α} (ht : t.machine.Whole)
    (h : ∀ a, look t.machine = .ok a → post a t.machine) :
    Upholds t (step (Run.check look)) post := by
  unfold Upholds step Run.check
  cases hl : look t.machine with
  | ok a => exact ⟨.refl ht, h a hl⟩
  | error f => exact ⟨.refl ht, trivial⟩

/-- An ordinary name is given a value. -/
theorem store (ht : t.machine.Whole) (choose : Machine → Except Fault ScopeId) {x : String}
    {v : Value} (hx : x ≠ "this") (hv : v.Whole t.machine) :
    Upholds t (step (Run.store choose x v)) fun _ _ => True := by
  unfold Upholds step Run.store
  cases choose t.machine with
  | ok id => exact ⟨.of_machine (.insert _ v (.inl hx)) (ht.insert (.inl hx) hv), trivial⟩
  | error f => exact ⟨.refl ht, trivial⟩

theorem get (ht : t.machine.Whole) : Upholds t (step get) fun m n => m = n :=
  .of_run rfl ⟨.refl _, ht⟩ rfl

theorem newIdentity (ht : t.machine.Whole) :
    Upholds t (step Run.newIdentity) fun _ _ => True := .of_still ht rfl rfl rfl rfl trivial

theorem bindIn (ht : t.machine.Whole) (scope : ScopeId) {x : String} {v : Value}
    (hx : x ≠ "this") (hv : v.Whole t.machine) :
    Upholds t (step (Run.bindIn scope x v)) fun _ _ => True :=
  .of_run rfl ⟨.insert _ v (.inl hx), ht.insert (.inl hx) hv⟩ trivial

theorem newObject (ht : t.machine.Whole) {c : Class} (hc : c.Regular) :
    Upholds t (step (Run.newObject c)) fun v m =>
      v = .object t.machine.objects.size c ∧ v.Whole m := by
  refine .of_run rfl ht.newObject ⟨rfl, ?_, hc⟩
  show t.machine.objects.size < (t.machine.objects.push []).size
  rw [Array.size_push]
  exact Nat.lt_succ_self _

theorem setField (ht : t.machine.Whole) (object : Nat) (x : String) {v : Value}
    (hv : v.Whole t.machine) :
    Upholds t (step (Run.setField object x v)) fun _ _ => True :=
  .of_run rfl (ht.setField object x hv) trivial

theorem readClock (ht : t.machine.Whole) :
    Upholds t (step Run.readClock) fun v m => v.Whole m :=
  .of_still ht rfl rfl rfl rfl trivial

theorem print (ht : t.machine.Whole) (text : String) (place : Place) :
    Upholds t (step (Run.print text place)) fun _ _ => True := by
  have onward (s : Sink) : Onward t { t with machine := { t.machine with sink := s } } :=
    .of_machine (.of_scopes rfl rfl (Nat.le_refl _)) (ht.of_same rfl rfl rfl)
  unfold Upholds step Run.print
  dsimp only
  cases (t.machine.sink.put text).2 <;> exact ⟨onward _, trivial⟩

theorem lift (ht : t.machine.Whole) {result : Except Fault Value} {also : Value → Prop}
    (h : Plainly result also) (ha : ∀ v, also v → v.Whole t.machine) :
    Upholds t (step (Run.lift result)) fun v m => v.Whole m := by
  refine .check ht fun v hv => ?_
  subst hv
  exact h.elim Value.whole_of_plain (ha v)

/-! ## Names -/

theorem getAt (ht : t.machine.Whole) (scope : Machine → ScopeId) (d : Nat) (name : Name) :
    Upholds t (step (Run.check fun m => m.scopes.getAt (scope m) d name)) fun v m => v.Whole m := by
  refine .check ht fun v hv => ?_
  obtain ⟨holder, -, ho⟩ := Scopes.own_of_getAt hv
  exact ht.scopes holder _ v ho

theorem readVariable (ht : t.machine.Whole) (r : Reference) :
    Upholds t (step (Run.readVariable r)) fun v m => v.Whole m := by
  unfold Run.readVariable
  cases r.depth with
  | some d => exact .getAt ht Machine.current d r.name
  | none =>
    refine .check ht fun v hv => ?_
    rcases t.machine.scopes.get_cases t.machine.globals r.name with ⟨id, w, hw, he⟩ | he
    · cases he.symm.trans hv
      exact ht.scopes id _ _ hw
    · cases he.symm.trans hv

theorem assignVariable (ht : t.machine.Whole) {r : Reference} (hr : r.name.IsOrdinary)
    {v : Value} (hv : v.Whole t.machine) :
    Upholds t (step (Run.assignVariable r v)) fun _ _ => True := by
  unfold Run.assignVariable
  cases r.depth <;> exact .store ht _ hr.1 hv

theorem define (ht : t.machine.Whole) {name : Name} (hn : name.IsOrdinary) {v : Value}
    (hv : v.Whole t.machine) : Upholds t (step (Run.define name v)) fun _ _ => True :=
  .store ht _ hn.1 hv

theorem readThis (ht : t.machine.Whole) (depth : Option Nat) (place : Place) :
    Upholds t (step (Run.readThis depth place)) fun v m => v.Whole m := by
  unfold Run.readThis
  cases depth with
  | none => exact .fail ht _ _
  | some d => exact .getAt ht Machine.current d ⟨"this", place⟩

/-! ## Functions -/

/-- A function made from regular code is regular and knows if it is an initializer. -/
theorem makeFunction (ht : t.machine.Whole) (σ : Site) (kind : FunctionKind) (name : String)
    {params : List Name} {body : List Stmt} (isInitializer : Bool)
    (hp : ∀ p ∈ params, p.IsOrdinary) (hb : Stmt.AllRegular body) :
    Upholds t (makeFunction σ kind name params body isInitializer) fun f _ =>
      f.Regular ∧ f.isInitializer = isInitializer := by
  have hmake : Upholds t (step (Run.makeFunction name params body isInitializer)) fun f _ =>
      f.Regular ∧ f.isInitializer = isInitializer := .of_still ht rfl rfl rfl rfl ⟨⟨hp, hb⟩, rfl⟩
  refine hmake.bind fun f u ha hf => .note (fun _ _ => rfl) ha.whole fun w hw => ?_
  exact .pure (hw ▸ ha.whole) hf

/-- A function that is no initializer. -/
theorem makePlain (ht : t.machine.Whole) (σ : Site) (kind : FunctionKind) (name : String)
    {params : List Name} {body : List Stmt} (hp : ∀ p ∈ params, p.IsOrdinary)
    (hb : Stmt.AllRegular body) :
    Upholds t (Watching.makeFunction σ kind name params body false) fun f m => f.Whole m :=
  (makeFunction ht σ kind name false hp hb).mono fun f u _ ⟨hr, hi⟩ =>
    ⟨hr, fun h => by rw [hi] at h; cases h⟩

/-- A method belongs to the object that it is bound to. -/
theorem bindMethod (ht : t.machine.Whole) {f : Closure} (hf : f.Regular) {i : Nat} {c : Class}
    (ho : (Value.object i c).Whole t.machine) :
    Upholds t (bindMethod f (.object i c)) fun g m =>
      g.Whole m ∧ g.BelongsTo m (.object i c) ∧ g.isInitializer = f.isInitializer ∧
        g.params = f.params := by
  let scope := t.machine.scopes.size
  let m : Machine := { t.machine with
    scopes := (t.machine.scopes.child f.scope).1.insert scope "this" (.object i c) }
  obtain ⟨hk, hm⟩ := ht.enclosing f.scope "this" ho
  have hlt : scope < (t.machine.scopes.child f.scope).1.size := by
    rw [Scopes.size_child]
    exact Nat.lt_succ_self _
  let g : Closure := { f with identity := t.machine.fresh, scope }
  have hb : g.BelongsTo m (.object i c) :=
    ⟨Nat.ne_of_gt ht.globals, (Scopes.own?_insert ..).trans (if_pos ⟨rfl, rfl, hlt⟩)⟩
  unfold Upholds
  rw [bindMethod_apply]
  have hn : m.Keeps { m with fresh := t.machine.fresh + 1 } := .of_scopes rfl rfl (Nat.le_refl _)
  refine ⟨⟨hk.trans hn, hm.of_same rfl rfl rfl, fun _ hv => .inl hv⟩, ?_⟩
  exact ⟨⟨⟨hf.params, hf.body⟩, fun _ => ⟨i, c, hb.mono hn⟩⟩, hb.mono hn, rfl, rfl⟩

/-! ## Classes -/

/-- The methods made for a class are regular, and only `init` is an initializer among them. -/
theorem makeMethods : ∀ (fs : List Function) {t : Watched} {σ : Site} {table : Bindings Closure},
    t.machine.Whole → Function.AllRegular fs → Class.TableRegular table →
    Upholds t (makeMethods σ fs table) fun table _ => Class.TableRegular table
  | [], _, _, _, ht, _, htable => .pure ht htable
  | .mk name params body :: fs, t, σ, table, ht, ⟨⟨hp, hb⟩, hfs⟩, htable => by
    refine (makeFunction ht σ _ name.text _ hp hb).bind fun f u ha hf => ?_
    exact makeMethods fs ha.whole hfs (htable.insert hf.1 hf.2)

theorem readSuperclass (ht : t.machine.Whole) (r : Reference) :
    Upholds t (step (Run.readSuperclass r)) fun c _ => c.Regular := by
  unfold Run.readSuperclass
  rw [step_bind]
  refine (readVariable ht r).bind fun v u ha hv => ?_
  cases v with
  | classValue c => exact .pure ha.whole hv
  | _ => exact .fail ha.whole _ _

/-- Naming a regular class leaves the machine whole. -/
theorem nameClass (ht : t.machine.Whole) {name : Name} (hn : name.IsOrdinary) {c : Option Class}
    {table : Bindings Closure} (hc : ∀ i, (Class.mk i name.text c table).Regular) :
    Upholds t (step Run.newIdentity >>= fun i =>
      step (Run.define name (.classValue (.mk i name.text c table)))) fun _ _ => True :=
  (newIdentity ht).bind fun i _ ha _ => .define ha.whole hn (hc i)

/-- Declaring a class leaves the machine whole. -/
theorem declareClass (ht : t.machine.Whole) (σ : Site) {name : Name} (hn : name.IsOrdinary)
    (superclass : Option Reference) {methods : List Function}
    (hm : Function.AllRegular methods) :
    Upholds t (declareClass σ name superclass methods) fun _ _ => True := by
  unfold Watching.declareClass
  cases superclass with
  | none =>
    exact (makeMethods methods ht hm Class.tableRegular_nil).bind fun table u ha htable =>
      .nameClass ha.whole hn fun i => Class.regular_plain htable
  | some r =>
    refine .visit ht (by simp) fun t h => ?_
    rw [← h] at ht
    refine (readSuperclass ht r).bind fun c u ha hc => ?_
    refine (get ha.whole).bind fun m u' ha hm' => ?_
    subst hm'
    -- the scope of `super`, with the opener that the record gets
    let scope := u'.machine.scopes.size
    let opener : Opener := ⟨σ.source, .inherited name⟩
    let w := (u'.opening u'.machine.current (some opener)).insert scope "super" (.classValue c)
    let inner := (σ.inside (.inherited name) σ.walk).inside (.receiver name) (σ.walk.derive name r)
    let rest : Watching Unit := do
      let table ← Watching.within scope (Watching.makeMethods inner methods [])
      let identity ← step Run.newIdentity
      step (Run.define name (.classValue (.mk identity name.text (some c) table)))
    obtain ⟨hk, hw⟩ := ha.whole.enclosing u'.machine.current "super" (v := .classValue c) hc
    refine of_eq (y := rest) w rfl ⟨hk, hw, fun _ hv => .inl hv⟩ ?_
    have hmake : Upholds w (Watching.within scope (Watching.makeMethods inner methods []))
        fun table _ => Class.TableRegular table :=
      (makeMethods methods (hw.running scope) hm Class.tableRegular_nil).within hw fun _ _ h => h
    refine hmake.bind fun table z ha htable => ?_
    exact .nameClass ha.whole hn fun i => Class.regular_derived hc htable

/-! ## Properties -/

/-- The method that a class has under a name, bound to an object. -/
theorem method (ht : t.machine.Whole) {c : Class} (hc : c.Regular) {i : Nat} {k : Class}
    (ho : (Value.object i k).Whole t.machine) (name : Name) :
    Upholds t
      (match c.method? name.text with
        | some f => do return .function (← Watching.bindMethod f (.object i k))
        | none => step (Run.fail name.place (.undefinedProperty name.text)) : Watching Value)
      fun v m => v.Whole m := by
  cases hm : c.method? name.text with
  | none => exact .fail ht _ _
  | some f => exact (bindMethod ht (hc _ f hm).1 ho).bind fun g u ha hg => .pure ha.whole hg.1

theorem readSuper (ht : t.machine.Whole) (name : Name) (depth : Option Nat) (place : Place) :
    Upholds t (readSuper name depth place) fun v m => v.Whole m := by
  unfold Watching.readSuper
  match depth with
  | none => exact .fail ht _ _
  | some 0 => exact .fail ht _ _
  | some (d + 1) =>
    refine (getAt ht Machine.current (d + 1) ⟨"super", place⟩).bind fun s u ha hs =>
      (getAt ha.whole Machine.current d ⟨"this", place⟩).bind fun v u ha hv => ?_
    cases s with
    | classValue c =>
      cases v with
      | object i k => exact .method ha.whole hs hv name
      | _ => exact .fail ha.whole _ _
    | _ => exact .fail ha.whole _ _

theorem readProperty (ht : t.machine.Whole) {v : Value} (hv : v.Whole t.machine) (name : Name) :
    Upholds t (readProperty v name) fun v m => v.Whole m := by
  unfold Watching.readProperty
  cases v with
  | object i c =>
    refine (get ht).bind fun m u ha hm => ?_
    subst hm
    cases hfield : (u.machine.fieldsOf i).find? name.text with
    | some w => exact .pure ha.whole (ha.whole.objects i _ w hfield)
    | none => exact .method ha.whole hv.2 (hv.mono ha.keeps) name
  | _ => exact .fail ht _ _

end Upholds

end Watching

end LoxLang
