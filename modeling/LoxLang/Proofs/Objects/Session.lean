import LoxLang.Proofs.Objects.Construction

/-!
# Objects in whole sessions

Between any two requests the machine of a session is whole, and it comes after that of every
request before. So in every session a call of a class gives a new object, and a call of its
initializer the one that this belongs to.
-/

namespace LoxLang

open Scoping
open Run (endOf initialized)

/-! ## Between requests -/

section
variable {t : Watched} {m : Machine} (h : Globally t m)
include h

/-- A machine that differs in its globals alone keeps all objects. -/
theorem Globally.keeps : t.machine.Keeps m where
  globals := h.globals
  scopes := Nat.le_of_eq h.size.symm
  objects := Nat.le_of_eq (by rw [h.objects])
  this id _ hi hv := (h.locals id "this" hi).trans hv

theorem Onward.globally (ht : t.machine.Whole) : Onward t { t with machine := m } := by
  refine .of_machine h.keeps (ht.extend h.keeps (fun id x v hv => ?_) fun i x v hv => .inl ?_)
  · exact (h.own hv).imp_right Value.whole_of_plain
  · rwa [Machine.fieldsOf, h.objects] at hv

end

namespace Session

theorem whole_start (config : Config) (sink : Sink) (clock : Clock) :
    (start config sink clock).watched.machine.Whole where
  globals := Nat.zero_lt_one
  scopes _ _ _ hv := Value.whole_of_plain (plain_start config sink clock hv)
  objects _ _ _ hv := nomatch hv

/-! ## Requests -/

/-- The session goes on from another one; what it answers is whole. -/
structure Followed (t : Watched) (p : Option Response × Session) : Prop where
  onward : Onward t p.2.watched
  value : ∀ v, p.1 = some (.evaluated (.value v)) → v.Whole p.2.watched.machine

variable {s : Session} (hs : s.watched.machine.Whole)
include hs

/-- An answer that no run has led to. -/
theorem followed_still {reply : Response} (hr : ∀ v, reply ≠ .evaluated (.value v)) :
    Followed s.watched (some reply, s) :=
  ⟨.refl hs, fun v h => absurd (Option.some.inj h) (hr v)⟩

omit hs in
/-- An answer is followed if what is behind it upholds the machine and its values are whole. -/
theorem followed_watch {α : Type} {x : Watching α} {post : α → Machine → Prop}
    {reply : Except Fault α → Response} (hx : Watching.Upholds s.watched x post)
    (ho : ∀ a n v, post a n → reply (.ok a) = .evaluated (.value v) → v.Whole n)
    (he : ∀ f v, reply (.error f) ≠ .evaluated (.value v)) :
    Followed s.watched (s.watch x reply) := by
  unfold Watching.Upholds at hx
  unfold Session.watch
  cases h : x s.watched with
  | ok a t =>
    rw [h] at hx
    exact ⟨hx.1, fun v hv => ho a t.machine v hx.2 (Option.some.inj hv)⟩
  | error i t =>
    rw [h] at hx
    refine ⟨hx.1, fun v hv => ?_⟩
    obtain ⟨f, -, hf⟩ := Option.map_eq_some_iff.1 hv
    exact absurd hf (he f v)

theorem followed_evaluateWith {x : Watching Value}
    (hx : Watching.Upholds s.watched x fun v n => v.Whole n) :
    Followed s.watched (s.evaluateWith x) := by
  unfold evaluateWith
  split
  · refine ⟨.refl hs, fun v hv => ?_⟩
    cases hv
    trivial
  · refine followed_watch hx (fun a n v ha hv => ?_) fun f v hv => nomatch hv
    cases hv
    exact ha

theorem upholds_statements (fuel : Nat) {statements : List Stmt} (hr : Stmt.AllRegular statements) :
    Watching.Upholds s.watched (Watching.forEach (Watching.exec fuel) s.site statements)
      fun _ _ => True :=
  .forEach (Watching.upholds_fuel fuel).2.1 statements hs hr

theorem upholds_programValue (fuel : Nat) {statements : List Stmt}
    (hr : Stmt.AllRegular statements) :
    Watching.Upholds s.watched (programValue fuel s.site statements) fun v n => v.Whole n := by
  unfold programValue
  split
  · exact (Watching.upholds_fuel fuel).1 _ _ _ hs hr.1
  · exact (upholds_statements hs fuel hr).bind fun _ _ ha _ => .pure ha.whole trivial

theorem followed_respond (fuel : Nat) (request : Request) :
    Followed s.watched (s.respond fuel request) := by
  cases request with
  | run source =>
    unfold respond run
    dsimp only
    split
    · exact followed_still hs fun _ h => nomatch h
    · rename_i statements hst
      split
      · exact followed_still hs fun _ h => nomatch h
      · have hr := Stmt.allRegular_of_settled _ (Checked.settled hst)
        exact followed_watch (upholds_statements hs fuel hr) (fun _ _ _ _ h => nomatch h)
          fun _ _ h => nomatch h
  | evaluate source =>
    unfold respond
    dsimp only
    split
    · rename_i statements hst _
      have hr := Stmt.allRegular_of_settled _ (Checked.settled hst)
      exact followed_evaluateWith hs (upholds_programValue hs fuel hr)
    · exact followed_still hs fun _ h => nomatch h
  | evaluateExpression source =>
    unfold respond
    dsimp only
    split
    · exact followed_still hs fun _ h => nomatch h
    · rename_i e he
      have hr := e.regular_of_settled (Expr.settled_ofSource he)
      exact followed_evaluateWith hs ((Watching.upholds_fuel fuel).1 _ _ _ hs hr)
  | clear => exact ⟨.globally (globally_clear _) hs, fun _ h => nomatch h⟩
  | allowRedefinition allow => exact ⟨.globally (globally_allow _ allow) hs, fun _ h => nomatch h⟩

theorem followed_attempt (fuel : Nat) (request : Request) :
    Followed s.fresh.watched (s.attempt fuel request) :=
  followed_respond (s := s.fresh) hs fuel request

theorem whole_next (request : Nat × Request) : (s.next request).watched.machine.Whole := by
  have hr := (followed_attempt hs request.1 request.2).onward.whole
  unfold Session.next
  generalize s.attempt request.1 request.2 = p at hr
  rcases p with ⟨_ | r, s'⟩
  · exact hs
  · exact hr

omit hs in
/-- A session is whole after any requests. -/
theorem whole_after (config : Config) (sink : Sink) (clock : Clock) (past : List (Nat × Request)) :
    (after config sink clock past).watched.machine.Whole := by
  unfold after
  have h := whole_start config sink clock
  generalize start config sink clock = s at h ⊢
  induction past generalizing s with
  | nil => exact h
  | cons request past ih => exact ih _ (whole_next h request)

end Session

/-! ## Whole sessions -/

/-- The callee, the arguments and the value of the call that the visit is of. -/
def Visit.called? (v : Visit) (fuel : Nat) : Option (Value × List Value × Value) :=
  match v.node with
  | .expression (.call e es place) =>
    match eval fuel e v.machine with
    | .ok callee n =>
      match es.mapM (eval fuel) n, eval (fuel + 1) (.call e es place) v.machine with
      | .ok vs _, .ok w _ => some (callee, vs, w)
      | _, _ => none
    | .error _ _ => none
  | _ => none

/-- The class that is called, and how many arguments it is given. -/
def Visit.constructed? (v : Visit) (fuel : Nat) : Option (Class × Nat) :=
  match v.called? fuel with
  | some (.classValue c, vs, _) => some (c, vs.length)
  | _ => none

/-- The initializer that is called, and the class of the object that it gives. -/
def Visit.renewed? (v : Visit) (fuel : Nat) : Option (Closure × Class) :=
  match v.called? fuel with
  | some (.function g, _, .object _ k) => if g.isInitializer then some (g, k) else none
  | _ => none

section
variable {v : Visit} {fuel : Nat}

theorem Visit.calling_of_called? {callee w : Value} {vs : List Value}
    (h : v.called? fuel = some (callee, vs, w)) :
    ∃ e n place m o, v.Calling fuel e callee n vs place m (.ok w o) := by
  unfold Visit.called? at h
  split at h
  · rename_i e es place hn
    split at h
    · rename_i n he
      split at h
      · rename_i _ m _ o hs ho
        cases h
        exact ⟨e, n, place, m, o, ⟨es, hn, hs, ho.symm⟩, he⟩
      · cases h
    · cases h
  · cases h

theorem Visit.calling_of_constructed? {c : Class} {count : Nat}
    (h : v.constructed? fuel = some (c, count)) :
    ∃ e n vs place m w o, v.Calling fuel e (.classValue c) n vs place m (.ok w o) ∧
      vs.length = count := by
  unfold Visit.constructed? at h
  split at h
  · rename_i hcalled
    cases h
    obtain ⟨e, n, place, m, o, hcalling⟩ := Visit.calling_of_called? hcalled
    exact ⟨e, n, _, place, m, _, o, hcalling, rfl⟩
  · cases h

theorem Visit.calling_of_renewed? {g : Closure} {k : Class}
    (h : v.renewed? fuel = some (g, k)) :
    ∃ e n vs place m i o, v.Calling fuel e (.function g) n vs place m (.ok (.object i k) o) ∧
      g.isInitializer = true := by
  unfold Visit.renewed? at h
  split at h
  · rename_i hcalled
    split at h
    · rename_i hi
      cases h
      obtain ⟨e, n, place, m, o, hcalling⟩ := Visit.calling_of_called? hcalled
      exact ⟨e, n, _, place, m, _, o, hcalling, hi⟩
    · cases h
  · cases h

end

/-- **New objects.** In any session, wherever the run for a request comes to a call: a class
gives an object that has not been there before, of just that class, once its nearest
initializer has run with the arguments, unless that fails; and an initializer, also one that a
property or `super` gives, gives the object that it belongs to. Each counts its arguments
first. No object is forgotten, from request to request. -/
theorem Session.calls_construct (config : Config) (sink : Sink) (clock : Clock)
    (past : List (Nat × Request)) (fuel : Nat) (request : Request) :
    let s := Session.after config sink clock past
    let p := s.attempt fuel request
    (Host.after config sink clock past).perform fuel request = Session.answer p ∧
      s.watched.machine.objects.size ≤ p.2.watched.machine.objects.size ∧
      (∀ i k, p.1 = some (.evaluated (.value (.object i k))) →
        i < p.2.watched.machine.objects.size) ∧
      ∀ v ∈ p.2.visits, s.watched.machine.objects.size ≤ v.machine.objects.size ∧
        v.machine.objects.size ≤ p.2.watched.machine.objects.size ∧
        v.Numbers ∧ v.Constructs ∧ v.Renews ∧ v.Initializers := by
  intro s p
  have hs : s.watched.machine.Whole := Session.whole_after config sink clock past
  have hp := Session.followed_attempt hs fuel request
  have hfresh := (Session.replied_attempt (Session.sound_after config sink clock past) fuel
    request).visits
  refine ⟨?_, hp.onward.keeps.objects, fun i k h => (hp.value _ h).1, fun v hv => ?_⟩
  · rw [← Session.after_host]
    exact Session.attempt_host _ fuel request
  · obtain ⟨hw, hbefore, hafter⟩ : v.Whole ∧ s.watched.machine.Keeps v.machine ∧
        v.machine.Keeps p.2.watched.machine := (hp.onward.visits v hv).resolve_left nofun
    have hf := hfresh v hv
    exact ⟨hbefore.objects, hafter.objects, hw.numbers, hw.constructs hf, hw.renews hf,
      hw.initializers⟩

/-- `B` gives a new object though its initializer makes another one, calls that of `A` and
returns early; and that call gives the object of `B`. -/
theorem Session.construct_nested :
    let config : Config := ⟨false, false, "main.lox"⟩
    let source := "class A { init(x) { this.x = x; return; } } " ++
      "class B < A { init(x) { A(x); super.init(x); return; } }"
    let past := [(9, Request.run source)]
    let p := (Session.after config (.empty none false) (.ticking 0) past).attempt 9
      (.evaluateExpression "B(1)")
    (∃ v ∈ p.2.visits, ∃ e c n vs place m o,
      v.Calling 9 e (.classValue c) n vs place m (.ok (.object m.objects.size c) o) ∧
        c.name = "B" ∧ c.init?.isSome = true ∧ vs.length = 1) ∧
      ∃ v ∈ p.2.visits, ∃ e g n vs place m i k o,
        v.Calling 9 e (.function g) n vs place m (.ok (.object i k) o) ∧
          g.isInitializer = true ∧ g.BelongsTo n (.object i k) ∧ k.name = "B" := by
  intro config source past p
  have hconstructs : p.2.visits.any (fun v => (v.constructed? 9).any fun (c, count) =>
      c.name == "B" && c.init?.isSome && count == 1) = true := by decide +kernel
  have hrenews : p.2.visits.any (fun v => (v.renewed? 9).any fun (_, k) => k.name == "B") =
      true := by decide +kernel
  obtain ⟨-, -, -, hvisits⟩ := Session.calls_construct config (.empty none false) (.ticking 0) past 9
    (.evaluateExpression "B(1)")
  constructor
  · obtain ⟨v, hv, h⟩ := List.any_eq_true.1 hconstructs
    obtain ⟨⟨c, count⟩, hc, h⟩ := (Option.any_eq_true _ _).1 h
    simp only [Bool.and_eq_true, beq_iff_eq] at h
    obtain ⟨e, n, vs, place, m, w, o, hcalling, hlength⟩ := Visit.calling_of_constructed? hc
    obtain ⟨-, -, -, hconstruct, -⟩ := hvisits v hv
    obtain rfl := hconstruct.value hcalling
    exact ⟨v, hv, e, c, n, vs, place, m, o, hcalling, h.1.1, h.1.2, hlength.trans h.2⟩
  · obtain ⟨v, hv, h⟩ := List.any_eq_true.1 hrenews
    obtain ⟨⟨g, k⟩, hg, h⟩ := (Option.any_eq_true _ _).1 h
    obtain ⟨e, n, vs, place, m, i, o, hcalling, hi⟩ := Visit.calling_of_renewed? hg
    obtain ⟨-, -, -, -, hrenew, -⟩ := hvisits v hv
    exact ⟨v, hv, e, g, n, vs, place, m, i, k, o, hcalling, hi, hrenew.value hcalling hi,
      beq_iff_eq.1 h⟩

end LoxLang
