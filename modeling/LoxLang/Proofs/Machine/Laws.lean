import LoxLang.Proofs.Machine.Changes
import LoxLang.Proofs.Machine.Erases

/-!
# What watched steps preserve

`Steps t x post` says that the watched step `x` keeps the state `t` good: what it ends
with is good again, `post` holds of its value, and it ends in a mismatch of depths only
right after a premature visit. The laws follow the ways in which steps are put together;
then come the steps that a run is made of.
-/

namespace LoxLang

open Scoping

/-- The run stands at a site: its scopes mirror those of the walk. -/
structure Stands (t : Watched) (σ : Site) : Prop where
  good : Good t
  calm : Calm t
  mirrors : Mirrors t t.machine.current σ.walk.outline σ.openers
  housed : Housed σ.walk
  awaited : Awaited σ.initializers σ.walk.outline σ.openers.length

theorem Stands.grow {t t' : Watched} {σ : Site} (h : Stands t σ) (hg : Grows t t') (hgood : Good t')
    (hcalm : Calm t') : Stands t' σ := by
  refine ⟨hgood, hcalm, ?_, h.housed, h.awaited⟩
  rw [hg.current]
  exact h.mirrors.grow hg.toExtends

/-- The latest visit was premature, the first that was, and the fault is about it. -/
def Stumbled (t : Watched) (f : Fault) : Prop :=
  ∃ v vs r d, t.record.visits = v :: vs ∧ v.PrematureAt r d ∧ (∀ u ∈ vs, ¬ u.Premature) ∧
    f = ⟨r.name.place, .mismatch (.unbound d r.name.text)⟩

/-- A fault that is not about depths. -/
def Fault.Ordinary (f : Fault) : Prop := ∀ m, f.value ≠ .mismatch m

/-- What holds when a step is interrupted. -/
def Ended (t : Watched) : Interrupt → Prop
  | .fault f => f.Ordinary ∧ Calm t ∨ Stumbled t f
  | .returning v _ => Calm t ∧ GoodValue t v
  | .breaking _ | .exhausted => Calm t

/-- What holds of an interrupt holds wherever the machine stands then. -/
theorem Ended.running {t : Watched} {i : Interrupt} (h : Ended t i) (scope : ScopeId) :
    Ended (t.running scope) i := by
  cases i with
  | fault f => exact h
  | returning v place => exact ⟨h.1, h.2.grow (extends_running t scope)⟩
  | _ => exact h

namespace Watching

variable {α β : Type} {t t' : Watched}

/-- What a step comes to that starts in a good state. -/
def Steps (t : Watched) (x : Watching α) (post : α → Watched → Prop) : Prop :=
  match x t with
  | .ok a t' => Grows t t' ∧ Good t' ∧ Calm t' ∧ post a t'
  | .error i t' => Grows t t' ∧ Good t' ∧ Ended t' i

/-! ## Laws -/

variable {x : Watching α} {k : α → Watching β} {post mid : α → Watched → Prop}
  {post' : β → Watched → Prop}

theorem Steps.pure {a : α} (hg : Good t) (hc : Calm t) (h : post a t) :
    Steps t (pure a) post := ⟨.refl t, hg, hc, h⟩

theorem Steps.throw {i : Interrupt} (hg : Good t) (h : Ended t i) :
    Steps t (throw i) post := ⟨.refl t, hg, h⟩

/-- A step that another one goes on with from a later state. -/
theorem Steps.of_eq {y : Watching α} (he : x t = y t') (hg : Grows t t')
    (h : Steps t' y post) : Steps t x post := by
  unfold Steps at h ⊢
  rw [he]
  cases hy : y t' with
  | ok a u =>
    rw [hy] at h
    exact ⟨hg.trans h.1, h.2⟩
  | error i u =>
    rw [hy] at h
    exact ⟨hg.trans h.1, h.2⟩

/-- What holds of a value that the step gives. -/
theorem Steps.ok {a : α} {u : Watched} (h : Steps t x post) (hx : x t = .ok a u) :
    Grows t u ∧ Good u ∧ Calm u ∧ post a u := by
  unfold Steps at h
  rw [hx] at h
  exact h

theorem Steps.bind (h : Steps t x mid)
    (hk : ∀ a t', Grows t t' → Good t' → Calm t' → mid a t' → Steps t' (k a) post') :
    Steps t (x >>= k) post' := by
  unfold Steps at h
  cases hx : x t with
  | ok a t' =>
    rw [hx] at h
    obtain ⟨hg, hgood, hcalm, hm⟩ := h
    exact .of_eq (by rw [bind_apply, hx]) hg (hk a t' hg hgood hcalm hm)
  | error i t' =>
    rw [hx] at h
    unfold Steps
    rw [bind_apply, hx]
    exact h

/-- `Steps.bind` where two steps have been taken. -/
theorem Steps.bind₂ {γ : Type} {y : Watching γ} (h : Steps t (y >>= fun _ => x) mid)
    (hk : ∀ a t', Grows t t' → Good t' → Calm t' → mid a t' → Steps t' (k a) post') :
    Steps t (y >>= fun _ => x >>= k) post' := by
  rw [← bind_assoc]
  exact h.bind hk

theorem Steps.mono (h : Steps t x mid)
    (hp : ∀ a t', Grows t t' → Good t' → Calm t' → mid a t' → post a t') : Steps t x post := by
  unfold Steps at h ⊢
  cases hx : x t with
  | ok a t' =>
    rw [hx] at h
    obtain ⟨hg, hgood, hcalm, hm⟩ := h
    exact ⟨hg, hgood, hcalm, hp a t' hg hgood hcalm hm⟩
  | error i t' =>
    rw [hx] at h
    exact h

theorem Steps.discard (h : Steps t x mid) : Steps t (discard x) fun _ _ => True :=
  h.bind fun _ _ _ hg hc _ => .pure hg hc trivial

/-! ## Other scopes -/

theorem within_apply (scope : ScopeId) (x : Watching α) (t : Watched) :
    within scope x t = match x (t.running scope) with
      | .ok a u => .ok a (u.running t.machine.current)
      | .error i u => .error i (u.running t.machine.current) := rfl

/-- A step in another scope is back in the scope that it came from. -/
theorem Steps.within {scope : ScopeId} (h : Steps (t.running scope) x mid)
    (hp : ∀ a u, Extends t u → mid a u → post a (u.running t.machine.current)) :
    Steps t (within scope x) post := by
  unfold Steps at h ⊢
  rw [within_apply]
  have out {u : Watched} (hg : Grows (t.running scope) u) : Extends t u :=
    (extends_running t scope).trans hg.toExtends
  cases hy : x (t.running scope) with
  | ok a u =>
    rw [hy] at h
    obtain ⟨hg, hgood, hcalm, hm⟩ := h
    exact ⟨⟨(out hg).trans (extends_running u _), rfl⟩, hgood.running _, hcalm, hp a u (out hg) hm⟩
  | error i u =>
    rw [hy] at h
    obtain ⟨hg, hgood, he⟩ := h
    exact ⟨⟨(out hg).trans (extends_running u _), rfl⟩, hgood.running _, Ended.running he _⟩

/-- The body of a function gives a good value if it gives one. -/
theorem Steps.catching {x : Watching Unit} {mid : Unit → Watched → Prop} (h : Steps t x mid) :
    Steps t (catching x) fun v u => GoodValue u v := by
  unfold Steps at h ⊢
  unfold Watching.catching
  cases hx : x t with
  | ok a u =>
    rw [hx] at h
    exact ⟨h.1, h.2.1, h.2.2.1, trivial⟩
  | error i u =>
    rw [hx] at h
    obtain ⟨hg, hgood, he⟩ := h
    cases i with
    | fault f => exact ⟨hg, hgood, he⟩
    | breaking place => exact ⟨hg, hgood, .inl ⟨fun m hm => (nomatch hm), he⟩⟩
    | returning v place => exact ⟨hg, hgood, he.1, he.2⟩
    | exhausted => exact ⟨hg, hgood, he⟩

/-! ## Steps that only look -/

theorem step_bind (y : Run α) (l : α → Run β) :
    step (y >>= l) = (step y >>= fun a => step (l a) : Watching β) := by
  funext t
  show step (EStateM.bind y l) t = EStateM.bind (step y) (fun a => step (l a)) t
  simp only [step, EStateM.bind]
  cases y t.machine <;> rfl


theorem Steps.fail {place : Place} {cause : FaultCause} (hg : Good t) (hc : Calm t)
    (h : ∀ m, cause ≠ .mismatch m) : Steps t (step (Run.fail place cause)) post :=
  ⟨.refl t, hg, .inl ⟨h, hc⟩⟩

theorem Steps.check {look : Machine → Except Fault α} (hg : Good t) (hc : Calm t)
    (ho : ∀ a, look t.machine = .ok a → post a t)
    (he : ∀ f, look t.machine = .error f → f.Ordinary) :
    Steps t (step (Run.check look)) post := by
  unfold Steps step Run.check
  cases h : look t.machine with
  | ok a => exact ⟨.refl t, hg, hc, ho a h⟩
  | error f => exact ⟨.refl t, hg, .inl ⟨he f h, hc⟩⟩

/-! ## Scopes and makers -/

theorem Steps.look {k : Machine → Watching β} (h : Steps t (k t.machine) post') :
    Steps t (step get >>= k) post' := .of_eq rfl (.refl t) h

theorem Steps.makerOf {f : Closure} {k : Maker → Watching β}
    (h : Steps t (k (t.record.makers f.identity)) post') : Steps t (makerOf f >>= k) post' :=
  .of_eq rfl (.refl t) h

/-- A scope is opened, and the rest goes on from there. -/
theorem Steps.opening {parent : ScopeId} {o : Option Opener} {k : ScopeId → Watching β}
    (h : Steps (t.opening parent o) (k t.machine.scopes.size) post') :
    Steps t (step (Run.newScope parent) >>= fun scope => opened scope o >>= fun _ => k scope)
      post' := by
  refine .of_eq ?_ (grows_opening t parent o) h
  rfl

end Watching

end LoxLang
