import LoxLang.Proofs.Code.Session
import LoxLang.Proofs.Objects.Calls
import LoxLang.Proofs.Receiver.Account

/-!
# New objects and their initializers

What a run comes to at a call: a class gives a new object, of just that class, once its
initializer has run for it, and an initializer that is called again gives the object that it
belongs to. Both fail if the arguments are not as many as the initializer takes, before
anything is made.
-/

namespace LoxLang

open Run (endOf initialized)

/-- The method `init` that is the nearest from the class upwards. -/
def Class.init? (c : Class) : Option Closure := c.chain.findSome? (·.methods.find? "init")

/-- How many arguments that takes; a class without one takes none. -/
def Class.takes (c : Class) : Nat := (c.init?.map (·.params.length)).getD 0

/-- What some scope binds a name to, or some field holds. -/
def Machine.Holds (m : Machine) (v : Value) : Prop :=
  (∃ id x, m.own? id x = some v) ∨ ∃ i x, (m.fieldsOf i).find? x = some v

namespace Visit

/-! ## What visits come to -/

/-- Objects are numbered in the order of their making. Whatever the expression comes to, no
number is taken back, and all objects that the machine holds on to then have been made, and so
has the object that is given, if one is. -/
def Numbers (v : Visit) : Prop :=
  ∀ e, v.node = .expression e → ∀ fuel, let out := eval fuel e v.machine
    v.machine.objects.size ≤ (endOf out).objects.size ∧
    (∀ i k, (endOf out).Holds (.object i k) → i < (endOf out).objects.size) ∧
    ∀ i k m, out = .ok (.object i k) m → i < m.objects.size

/-- The visit is of a call. Its callee is this one, in the machine `n`, and its arguments have
these values, in `m`; `out` is what the call comes to. -/
structure Calling (v : Visit) (fuel : Nat) (e : Expr) (callee : Value) (n : Machine)
    (vs : List Value) (place : Place) (m : Machine)
    (out : EStateM.Result Interrupt Machine Value) : Prop where
  arguments : ∃ es, v.node = .expression (.call e es place) ∧
    es.mapM (eval fuel) n = .ok vs m ∧ out = eval (fuel + 1) (.call e es place) v.machine
  callee : eval fuel e v.machine = .ok callee n

/-- A call of a class. -/
def Constructs (v : Visit) : Prop :=
  ∀ fuel e c n vs place m out, v.Calling fuel e (.classValue c) n vs place m out →
    let object := Value.object m.objects.size c
    (out = .error (.fault ⟨place, .arity c.takes vs.length⟩) m ↔ vs.length ≠ c.takes) ∧
    (vs.length = c.takes →
      (∀ i k, m.Holds (.object i k) ∨ .object i k ∈ vs → i < m.objects.size) ∧
      m.objects.size < (endOf out).objects.size ∧
      match c.init? with
      | none => out = .ok object m.withObject
      | some f =>
        let started := (m.withObject.binding f object).entering (m.withObject.bound f) vs
        started.Passes f.params vs ∧
          out = initialized object m.current (f.body.forM (exec fuel) started))

/-- A call of an initializer. -/
def Renews (v : Visit) : Prop :=
  ∀ fuel e g n vs place m out, v.Calling fuel e (.function g) n vs place m out →
    g.isInitializer = true →
    (∃ i k, g.BelongsTo n (.object i k) ∧ i < n.objects.size) ∧
    (out = .error (.fault ⟨place, .arity g.params.length vs.length⟩) m ↔
      vs.length ≠ g.params.length) ∧
    (vs.length = g.params.length →
      (m.entering g vs).Passes g.params vs ∧
      ∀ object, g.BelongsTo n object → out = initialized object m.current
        (g.body.forM (exec fuel) (m.entering g vs)))

/-- The method `init` of an object, or of the superclass, as the callee of a call. -/
def Initializers (v : Visit) : Prop :=
  ∀ e es place, v.node = .expression (.call e es place) → ∀ fuel,
    (∀ object property i k n f, e = .get object property → property.text = "init" →
      eval fuel object v.machine = .ok (.object i k) n → (n.fieldsOf i).find? "init" = none →
      k.init? = some f →
      eval (fuel + 1) e v.machine = .ok (.function (n.bound f)) (n.binding f (.object i k)) ∧
        f.isInitializer = true ∧
        (n.bound f).BelongsTo (n.binding f (.object i k)) (.object i k)) ∧
    ∀ method depth place w n, e = .super method depth place → method.text = "init" →
      eval (fuel + 1) e v.machine = .ok w n →
      ∃ d c f i k, depth = some (d + 1) ∧
        v.machine.scopes.getAt v.machine.current (d + 1) ⟨"super", place⟩ = .ok (.classValue c) ∧
        c.init? = some f ∧
        eval (fuel + 1) (.this (some d) place) v.machine = .ok (.object i k) v.machine ∧
        w = .function (v.machine.bound f) ∧ f.isInitializer = true ∧
        (v.machine.bound f).BelongsTo n (.object i k)

end Visit

/-! ## Classes -/

theorem Class.method?_init (c : Class) : c.method? "init" = c.init? := c.method?_eq_findSome? "init"

theorem Class.arity_eq_takes (c : Class) : c.arity = c.takes := by
  rw [arity, takes, c.method?_init]
  cases c.init? <;> rfl

theorem Machine.Whole.lt_of_holds {m : Machine} (hm : m.Whole) {i : Nat} {k : Class}
    (h : m.Holds (.object i k)) : i < m.objects.size := by
  rcases h with ⟨id, x, h⟩ | ⟨j, x, h⟩
  · exact (hm.scopes id x _ h).1
  · exact (hm.objects j x _ h).1

/-! ## Calls -/

theorem eval_call {fuel : Nat} {e : Expr} {es : List Expr} {place : Place} {m n o : Machine}
    {callee : Value} {vs : List Value} (he : eval fuel e m = .ok callee n)
    (hs : es.mapM (eval fuel) n = .ok vs o) :
    eval (fuel + 1) (.call e es place) m = Run.call (exec fuel) callee vs place o := by
  unfold eval
  dsimp only
  rw [Run.bind_apply, he]
  dsimp only
  rw [Run.bind_apply, hs]

/-- What a value that fine code gives is made of is fine. -/
theorem Value.fine_of_eval {m n : Machine} (hm : m.Fine) {fuel : Nat} {e : Expr} (he : e.Fine)
    {v : Value} (hv : eval fuel e m = .ok v n) : v.Fine := by
  have hx := (Watching.orderly_fuel [] fuel).1 (Record.start.makers 0).site e ⟨m, Record.start⟩ hm he
  have ht := Watching.erases_eval fuel (Record.start.makers 0).site e ⟨m, Record.start⟩
  unfold Watching.Orderly at hx
  rw [hv] at ht
  cases hw : Watching.eval fuel (Record.start.makers 0).site e ⟨m, Record.start⟩ with
  | ok w u =>
    rw [hw] at ht hx
    cases ht
    exact hx.2.2
  | error i u =>
    rw [hw] at ht
    cases ht

theorem Closure.Fine.distinct {f : Closure} (h : f.Fine) : (f.params.map Name.text).Nodup :=
  (List.nodup_append.1 h.own.distinct).1

theorem Run.initialized_ok {object w : Value} {outer : ScopeId}
    {r : EStateM.Result Interrupt Machine Unit} {m : Machine}
    (h : initialized object outer r = .ok w m) : w = object := by
  cases r with
  | ok _ n =>
    cases h
    rfl
  | error i n =>
    cases i with
    | returning v place =>
      cases h
      rfl
    | _ => cases h

namespace Visit

variable {v : Visit} (hv : v.Whole)

section
include hv

theorem Whole.numbers : v.Numbers := by
  intro e hn fuel
  have h := Run.upholds_eval hv.machine fuel (hv.expression e hn)
  refine ⟨h.endOf.1.objects, fun i k => h.endOf.2.lt_of_holds, fun i k m ho => ?_⟩
  exact (h.ok ho).2.2.1

variable {fuel : Nat} {e : Expr} {callee : Value} {n m : Machine} {vs : List Value} {place : Place}
  {out : EStateM.Result Interrupt Machine Value}

/-- At a call all is whole, before the arguments and after. -/
theorem Whole.calling (h : v.Calling fuel e callee n vs place m out) :
    n.Whole ∧ callee.Whole n ∧ n.Keeps m ∧ m.Whole ∧ ∀ w ∈ vs, w.Whole m := by
  obtain ⟨⟨es, hn, hs, -⟩, he⟩ := h
  obtain ⟨hre, hrs⟩ := hv.expression _ hn
  obtain ⟨-, hw, hc⟩ := (Run.upholds_eval hv.machine fuel hre).ok he
  obtain ⟨hk, hm, hvs⟩ := (Run.upholds_values hw fuel hrs).ok hs
  exact ⟨hw, hc, hk, hm, hvs⟩

end

section
variable {fuel : Nat} {e : Expr} {callee : Value} {n m : Machine} {vs : List Value} {place : Place}
  {out : EStateM.Result Interrupt Machine Value}
  (h : v.Calling fuel e callee n vs place m out)
include h

theorem Calling.out_eq : out = Run.call (exec fuel) callee vs place m := by
  obtain ⟨⟨es, -, hs, rfl⟩, he⟩ := h
  exact eval_call he hs

/-- What is about to be called with fresh values is fine. -/
theorem Calling.fine (hf : v.Fresh) : callee.Fine := by
  obtain ⟨⟨es, hn, -⟩, he⟩ := h
  have hfine := (List.forall_mem_append.1 (hf.expression _ hn)).1
  exact Value.fine_of_eval hf.machine hfine he

/-- The arguments are counted before anything is made; so the call that goes on from there does
not end in the same machine with that fault. -/
theorem Calling.arity_iff {expected : Nat} (ha : callee.arity? = some expected)
    (hout : vs.length = expected → endOf out ≠ m) :
    out = .error (.fault ⟨place, .arity expected vs.length⟩) m ↔ vs.length ≠ expected := by
  constructor
  · intro ho hl
    exact hout hl (by rw [ho]; rfl)
  · intro hl
    rw [h.out_eq]
    exact Run.call_of_length_ne ha hl place

end

include hv in
theorem Whole.initializers : v.Initializers := by
  intro e es place hn fuel
  have hre : e.Regular := (hv.expression _ hn).1
  refine ⟨?_, ?_⟩
  · rintro object property i k n f rfl hx ho hfield hinit
    obtain ⟨-, hw, hobject⟩ := (Run.upholds_eval hv.machine fuel (e := object) hre).ok ho
    have hmethod : k.method? property.text = some f := by rw [hx, k.method?_init, hinit]
    obtain ⟨hregular, hi⟩ := hobject.2 _ f hmethod
    refine ⟨?_, hi.trans (by rw [hx]; rfl), (hw.binding hregular hobject).2.2⟩
    unfold eval
    dsimp only
    rw [Run.bind_apply, ho]
    exact Run.readProperty_method (hx ▸ hfield) hmethod
  · rintro method depth place w n rfl hx hsuper
    obtain ⟨d, c, i, k, f, rfl, hc, hthis, hmethod, rfl, rfl⟩ :=
      Run.readSuper_ok (by unfold eval at hsuper; exact hsuper)
    obtain ⟨holder, -, hclass⟩ := Scopes.own_of_getAt hc
    obtain ⟨inner, -, hobject⟩ := Scopes.own_of_getAt hthis
    obtain ⟨hregular, hi⟩ := hv.machine.scopes holder _ _ hclass _ f hmethod
    have hb := (hv.machine.binding hregular (hv.machine.scopes inner _ _ hobject)).2.2
    rw [hx, c.method?_init] at hmethod
    refine ⟨d, c, f, i, k, rfl, hc, hmethod, ?_, rfl, hi.trans (by rw [hx]; rfl), hb⟩
    unfold eval
    show Run.check (fun m => m.scopes.getAt m.current d ⟨"this", place⟩) v.machine = _
    exact Run.check_ok hthis

section
variable (hf : v.Fresh)
include hv hf

theorem Whole.constructs : v.Constructs := by
  intro fuel e c n vs place m out h object
  obtain ⟨-, hc, -, hm, hvs⟩ := hv.calling h
  have hfine : c.Fine := h.fine hf
  have harity : (Value.classValue c).arity? = some c.takes := congrArg some c.arity_eq_takes
  have hrun (hl : vs.length = c.takes) : out = Run.construct (exec fuel) c vs place m := by
    rw [h.out_eq, Run.call_classValue (hl.trans c.arity_eq_takes.symm)]
  -- the object is made first, and then the method bound to it
  obtain ⟨hobject, hm₁, ho⟩ := hm.withObject hc
  have hlt : m.objects.size < m.withObject.objects.size := ho.1
  have hout (hl : vs.length = c.takes) : m.objects.size < (endOf out).objects.size ∧
      match c.init? with
      | none => out = .ok object m.withObject
      | some f =>
        let started := (m.withObject.binding f object).entering (m.withObject.bound f) vs
        started.Passes f.params vs ∧
          out = initialized object m.current (f.body.forM (exec fuel) started) := by
    cases hinit : c.init? with
    | none =>
      have hr := hrun hl
      rw [Run.construct_plain (c.method?_init.trans hinit)] at hr
      rw [hr]
      exact ⟨hlt, rfl⟩
    | some f =>
      have hmethod : c.method? "init" = some f := c.method?_init.trans hinit
      obtain ⟨hregular, hi⟩ := hc _ f hmethod
      have hd := (hfine _ f hmethod).distinct
      obtain ⟨hbind, hm₂, hb⟩ := hm₁.binding hregular ho
      have hkeeps := hobject.trans hbind
      have hbound : (m.withObject.bound f).Regular := ⟨hregular.params, hregular.body⟩
      have hvs₂ : ∀ w ∈ vs, w.Whole (m.withObject.binding f object) :=
        fun w hw => (hvs w hw).mono hkeeps
      have hran := hm₂.body hbound hd hvs₂ fuel
      have hthis := (hb.mono ((hm₂.entering hbound hd hvs₂).1.trans hran)).this
      have hr := (hrun hl).trans (Run.construct_initializer hmethod hd hi rfl hthis place)
      refine ⟨?_, Machine.passes_entering _ (f := m.withObject.bound f) hd vs, hr⟩
      rw [hr, Run.endOf_initialized]
      exact Nat.lt_of_lt_of_le hlt (Nat.le_trans hbind.objects hran.objects)
  refine ⟨h.arity_iff harity fun hl he => ?_, fun hl => ⟨?_, hout hl⟩⟩
  · have hsize := (hout hl).1
    rw [he] at hsize
    exact Nat.lt_irrefl _ hsize
  · rintro i k (hheld | hgiven)
    · exact hm.lt_of_holds hheld
    · exact (hvs _ hgiven).1

theorem Whole.renews : v.Renews := by
  intro fuel e g n vs place m out h hi
  obtain ⟨hn, hg, hk, hm, hvs⟩ := hv.calling h
  have hd := Closure.Fine.distinct (h.fine hf)
  have hran := hm.body hg.regular hd hvs fuel
  have hout (hl : vs.length = g.params.length) {object : Value} (hb : g.BelongsTo n object) :
      out = initialized object m.current (g.body.forM (exec fuel) (m.entering g vs)) := by
    have hthis := ((hb.mono hk).mono ((hm.entering hg.regular hd hvs).1.trans hran)).this
    rw [h.out_eq, Run.call_function hl, Run.callClosure_initializer hd hi hthis]
  obtain ⟨i, k, hb⟩ := hg.belongs hi
  refine ⟨⟨i, k, hb, hn.lt_of_holds (.inl ⟨_, _, hb.this⟩)⟩, h.arity_iff rfl fun hl he => ?_,
    fun hl => ⟨m.passes_entering hd vs, fun object => hout hl⟩⟩
  -- the scope of the call is new
  rw [hout hl hb, Run.endOf_initialized] at he
  have hscopes := congrArg (Array.size ∘ Machine.scopes) he
  have hsize := hran.scopes
  rw [show (m.entering g vs).scopes.size = m.scopes.size + 1 from Array.size_push _] at hsize
  dsimp only [Function.comp_apply] at hscopes
  rw [hscopes] at hsize
  exact Nat.not_succ_le_self _ hsize

end

section
variable {fuel : Nat} {e : Expr} {n m o : Machine} {vs : List Value} {place : Place} {w : Value}

/-- The value of a call of a class is the new object. -/
theorem Constructs.value (hv : v.Constructs) {c : Class}
    (h : v.Calling fuel e (.classValue c) n vs place m (.ok w o)) :
    w = .object m.objects.size c := by
  obtain ⟨hiff, hrun⟩ := hv fuel e c n vs place m (.ok w o) h
  have hl : vs.length = c.takes := by
    by_contra hl
    exact nomatch hiff.2 hl
  obtain ⟨-, -, hout⟩ := hrun hl
  cases hinit : c.init? with
  | none =>
    rw [hinit] at hout
    cases hout
    rfl
  | some f =>
    rw [hinit] at hout
    exact Run.initialized_ok hout.2.symm

/-- The value of a call of an initializer is the object that it belongs to. -/
theorem Renews.value (hv : v.Renews) {g : Closure}
    (h : v.Calling fuel e (.function g) n vs place m (.ok w o)) (hi : g.isInitializer = true) :
    g.BelongsTo n w := by
  obtain ⟨⟨i, k, hb, -⟩, hiff, hrun⟩ := hv fuel e g n vs place m (.ok w o) h hi
  have hl : vs.length = g.params.length := by
    by_contra hl
    exact nomatch hiff.2 hl
  obtain rfl := Run.initialized_ok ((hrun hl).2 _ hb).symm
  exact hb

end

end Visit

end LoxLang
