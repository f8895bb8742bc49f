import LoxLang.Proofs.Machine.Agree
import LoxLang.Proofs.Session.Basic

/-!
# Depths and scopes over sessions

What a session has made so far is good between any two requests, whatever they were. So
the scopes of each run mirror those of the walk over its source at every point, also where
functions of earlier sources are called, and a run ends in a mismatch of depths exactly if
it comes to a use of a variable inside that variable's own initializer.
-/

namespace LoxLang

open Scoping

/-! ## Sources -/

/-- What a source gives to run is the resolved tree of what was read, without problems. -/
theorem Checked.of_statements {config : Config} {source : String} {statements : List Stmt}
    (h : (Checked.ofSource config source).statements = some statements) :
    (Resolved.program config.allowRedefinition
        (Program.ofTokens (Token.scan config.file source).1).statements).problems = [] ∧
      (Resolved.program config.allowRedefinition
        (Program.ofTokens (Token.scan config.file source).1).statements).tree = statements := by
  unfold Checked.ofSource at h
  generalize Token.scan config.file source = scanned at h ⊢
  obtain ⟨tokens, lexical⟩ := scanned
  dsimp only at h ⊢
  generalize Program.ofTokens tokens = program at h ⊢
  generalize Resolved.program config.allowRedefinition program.statements = resolved at h ⊢
  cases hl : program.isLost with
  | true =>
    rw [hl, if_pos rfl] at h
    exact nomatch h
  | false =>
    rw [hl, if_neg Bool.false_ne_true] at h
    obtain ⟨tree, problems, unread⟩ := resolved
    cases problems with
    | nil => exact ⟨rfl, Option.some.inj h⟩
    | cons p ps => exact nomatch h

/-- What is run of a source is settled. -/
theorem Checked.settled {config : Config} {source : String} {statements : List Stmt}
    (h : (Checked.ofSource config source).statements = some statements) :
    Stmt.AllSettled statements (Walk.start config.allowRedefinition) := by
  obtain ⟨hp, ht⟩ := Checked.of_statements h
  have hr := Program.regular_ofTokens (Token.ordinary_scan config.file source)
  generalize (Program.ofTokens (Token.scan config.file source).1).statements = read at hp ht hr
  rw [← ht]
  exact Stmt.settled_resolveAll _ _ hr (Array.toList_eq_nil_iff.1 hp)

/-- An expression of a source is the resolved tree of one that was read, without problems. -/
theorem Expr.of_ofSource {config : Config} {source : String} {e : Expr}
    (h : Expr.ofSource config source = .ok e) :
    ∃ read, Expr.ofTokens (Token.scan config.file source).1 = .ok read ∧
      (Resolved.expression config.allowRedefinition read).problems = [] ∧
      (Resolved.expression config.allowRedefinition read).tree = e := by
  unfold Expr.ofSource at h
  generalize Token.scan config.file source = scanned at h ⊢
  obtain ⟨tokens, lexical⟩ := scanned
  cases lexical with
  | cons p ps => exact nomatch h
  | nil =>
    dsimp only at h ⊢
    generalize Expr.ofTokens tokens = outcome at h ⊢
    cases outcome with
    | error m => exact nomatch h
    | ok read =>
      refine ⟨read, rfl, ?_⟩
      dsimp only at h
      generalize Resolved.expression config.allowRedefinition read = resolved at h ⊢
      obtain ⟨tree, problems, unread⟩ := resolved
      cases problems with
      | nil => exact ⟨rfl, Except.ok.inj h⟩
      | cons p ps => exact nomatch h

/-- What is evaluated of a source is settled. -/
theorem Expr.settled_ofSource {config : Config} {source : String} {e : Expr}
    (h : Expr.ofSource config source = .ok e) :
    e.Settled (Walk.start config.allowRedefinition) := by
  obtain ⟨read, he, hp, ht⟩ := Expr.of_ofSource h
  have hr := Expr.regular_ofTokens (Token.ordinary_scan config.file source) he
  rw [← ht]
  exact read.settled_resolve _ hr (Array.toList_eq_nil_iff.1 hp)

/-! ## Between requests -/

/-- A good state that no run has left unfinished. -/
structure AtRest (t : Watched) : Prop where
  good : Good t
  current : t.machine.current = t.machine.globals

/-- A change of the global scope alone, which binds only plain data anew. -/
structure Globally (t : Watched) (m : Machine) : Prop where
  globals : m.globals = t.machine.globals
  fresh : m.fresh = t.machine.fresh
  objects : m.objects = t.machine.objects
  size : m.scopes.size = t.machine.scopes.size
  parents : ∀ id, ({ t with machine := m } : Watched).parent? id = t.parent? id
  locals : ∀ id x, id ≠ t.machine.globals →
    ({ t with machine := m } : Watched).own? id x = t.own? id x
  plain : ∀ x v, ({ t with machine := m } : Watched).own? t.machine.globals x = some v →
    t.own? t.machine.globals x = some v ∨ v.IsPlain

section
variable {t : Watched} {m : Machine} (h : Globally t m)
include h

theorem Globally.extends : Extends t { t with machine := m } :=
  ⟨h.globals, Nat.le_of_eq h.fresh.symm, Nat.le_of_eq h.size.symm,
    fun id p hp => by rw [h.parents, hp], fun id x hi hx => by rw [h.locals id x hi]; exact hx,
    fun id x v hi _ hx => by rw [h.locals id x hi, hx], fun _ _ => rfl, fun _ _ => rfl⟩

/-- What a scope binds it has bound before, but for plain data. -/
theorem Globally.own {id : ScopeId} {x : String} {v : Value}
    (hx : ({ t with machine := m } : Watched).own? id x = some v) :
    t.own? id x = some v ∨ v.IsPlain := by
  by_cases hi : id = t.machine.globals
  · subst hi
    exact h.plain x v hx
  · rw [h.locals id x hi] at hx
    exact .inl hx

theorem Good.globally (hg : Good t) : Good { t with machine := m } := by
  refine hg.extend h.extends (by rw [h.parents, hg.root])
    (fun id x v hx => (h.own hx).imp_right .of_plain) ?_ ?_ fun _ h => .inl h
  · intro i x v hx
    rw [Machine.fieldsOf, h.objects] at hx
    exact .inl hx
  · intro id o x ho hx
    have hi : id ≠ t.machine.globals := by
      rintro rfl
      rw [hg.rootOrigin] at ho
      cases ho
    rw [h.locals id x hi] at hx
    exact hg.declared id o x ho hx

end

theorem Scopes.own?_clear (ss : Scopes) (id id' : ScopeId) (x : String) :
    (ss.clear id).own? id' x = if id' = id then none else ss.own? id' x := by
  simp only [Scopes.own?, Scopes.clear, Array.getElem?_modify]
  by_cases hi : id = id'
  · subst hi
    rw [if_pos rfl, if_pos rfl]
    cases ss[id]? <;> rfl
  · rw [if_neg hi, if_neg (Ne.symm hi)]

theorem Scopes.parent_clear (ss : Scopes) (id id' : ScopeId) :
    (ss.clear id)[id']?.bind Scope.parent = ss[id']?.bind Scope.parent := by
  simp only [Scopes.clear, Array.getElem?_modify]
  split
  · rename_i h
    subst h
    cases ss[id]? <;> rfl
  · rfl

theorem Scopes.own?_allow (ss : Scopes) (id : ScopeId) (allow : Bool) (id' : ScopeId) (x : String) :
    (ss.setAllowRedefinition id allow).own? id' x = ss.own? id' x := by
  simp only [Scopes.own?, Scopes.setAllowRedefinition, Array.getElem?_modify]
  split
  · rename_i h
    subst h
    cases ss[id]? <;> rfl
  · rfl

theorem Scopes.parent_allow (ss : Scopes) (id : ScopeId) (allow : Bool) (id' : ScopeId) :
    (ss.setAllowRedefinition id allow)[id']?.bind Scope.parent = ss[id']?.bind Scope.parent := by
  simp only [Scopes.setAllowRedefinition, Array.getElem?_modify]
  split
  · rename_i h
    subst h
    cases ss[id]? <;> rfl
  · rfl

theorem globally_clear (t : Watched) : Globally t t.machine.clearGlobals := by
  let cleared : Watched := { t with machine := { t.machine with
    scopes := t.machine.scopes.clear t.machine.globals, current := t.machine.globals } }
  have hown (id : ScopeId) (x : String) :
      ({ t with machine := t.machine.clearGlobals } : Watched).own? id x =
        if id = t.machine.globals ∧ x = "clock" ∧ t.machine.globals < cleared.machine.scopes.size
        then some (.native .clock) else if id = t.machine.globals then none else t.own? id x :=
    (cleared.own?_insert _ _ _ id x).trans (by rw [Watched.own?, Scopes.own?_clear]; rfl)
  refine ⟨rfl, rfl, rfl, ?_, ?_, ?_, ?_⟩
  · simp [Machine.clearGlobals, Machine.withNatives, Scopes.insert, Scopes.clear]
  · intro id
    exact (cleared.parent?_insert _ _ _ id).trans (Scopes.parent_clear _ _ id)
  · intro id x hi
    rw [hown, if_neg fun h => hi h.1, if_neg hi]
  · intro x v hv
    rw [hown] at hv
    split at hv
    · cases hv
      exact .inr trivial
    · rw [if_pos rfl] at hv
      cases hv

theorem globally_allow (t : Watched) (allow : Bool) :
    Globally t (t.machine.setAllowRedefinition allow) := by
  have hown (id : ScopeId) (x : String) :
      ({ t with machine := t.machine.setAllowRedefinition allow } : Watched).own? id x =
        t.own? id x := Scopes.own?_allow _ _ _ _ _
  refine ⟨rfl, rfl, rfl, ?_, ?_, ?_, ?_⟩
  · simp [Machine.setAllowRedefinition, Scopes.setAllowRedefinition]
  · exact fun id => Scopes.parent_allow _ _ _ id
  · exact fun id x _ => hown id x
  · intro x v hv
    rw [hown] at hv
    exact .inl hv

theorem AtRest.clearGlobals {t : Watched} (h : AtRest t) :
    AtRest { t with machine := t.machine.clearGlobals } :=
  ⟨h.good.globally (globally_clear t), rfl⟩

theorem AtRest.setAllowRedefinition {t : Watched} (h : AtRest t) (allow : Bool) :
    AtRest { t with machine := t.machine.setAllowRedefinition allow } :=
  ⟨h.good.globally (globally_allow t allow), h.current⟩

/-- The state with no visits yet. -/
theorem AtRest.fresh {s : Session} (h : AtRest s.watched) :
    AtRest s.fresh.watched ∧ Calm s.fresh.watched := by
  have he : Extends s.watched s.fresh.watched := .of_eq rfl rfl (Nat.le_refl _) rfl rfl
  refine ⟨⟨h.good.extend he h.good.root (fun _ _ _ h => .inl h) (fun _ _ _ h => .inl h)
    h.good.declared fun _ h => (nomatch h), h.current⟩, fun _ h => nomatch h⟩

/-- A session starts with nothing but the functions of the host. -/
theorem plain_start (config : Config) (sink : Sink) (clock : Clock) {id : ScopeId} {x : String}
    {v : Value} (h : (Session.start config sink clock).watched.own? id x = some v) :
    v.IsPlain := by
  let bare : Watched :=
    ⟨⟨Scopes.root config.allowRedefinition, #[], 0, 0, 0, sink, clock⟩, Record.start⟩
  have hb : bare.own? id x = none := by cases id <;> rfl
  rw [show (Session.start config sink clock).watched = bare.insert 0 "clock" (.native .clock)
    from rfl, Watched.own?_insert, hb] at h
  split at h
  · cases h
    trivial
  · cases h

theorem atRest_start (config : Config) (sink : Sink) (clock : Clock) :
    AtRest (Session.start config sink clock).watched := by
  refine ⟨⟨?_, rfl, rfl, ?_, ?_, ?_, ?_⟩, rfl⟩
  · exact Nat.zero_lt_one
  · exact fun id x v h => .of_plain (plain_start config sink clock h)
  · exact fun i x v h => nomatch h
  · exact fun id o x h => nomatch h
  · exact fun v h => nomatch h

/-! ## Requests -/

/-- The session is at rest again, and either no visit was premature and the fault, if there
is one, is not about depths, or the fault is about the latest visit, the only premature one. -/
def Answered (p : Option Response × Session) : Prop :=
  AtRest p.2.watched ∧
    ((Calm p.2.watched ∧ ∀ f ∈ p.1.bind Response.fault?, f.Ordinary) ∨
      ∃ f, p.1.bind Response.fault? = some f ∧ Stumbled p.2.watched f)

section
variable {s : Session} (hr : AtRest s.watched)
include hr

theorem answered_watch {α : Type} {x : Watching α} {post : α → Watched → Prop}
    {reply : Except Fault α → Response} (hx : Watching.Steps s.watched x post)
    (ho : ∀ a, (reply (.ok a)).fault? = none) (he : ∀ f, (reply (.error f)).fault? = some f) :
    Answered (s.watch x reply) := by
  unfold Watching.Steps at hx
  unfold Session.watch
  cases h : x s.watched with
  | ok a t =>
    rw [h] at hx
    obtain ⟨hgrows, hg, hc, -⟩ := hx
    refine ⟨⟨hg, by rw [hgrows.current, hgrows.globals, hr.current]⟩, .inl ⟨hc, fun f hf => ?_⟩⟩
    rw [Option.bind_some, ho] at hf
    cases hf
  | error i t =>
    rw [h] at hx
    obtain ⟨hgrows, hg, hend⟩ := hx
    refine ⟨⟨hg, by rw [hgrows.current, hgrows.globals, hr.current]⟩, ?_⟩
    have hfault (f : Fault) (hi : i.fault? = some f) :
        ((i.fault?.map fun f => reply (.error f)).bind Response.fault?) = some f := by
      rw [hi, Option.map_some, Option.bind_some, he]
    have only {f : Fault} (hi : i.fault? = some f) (hord : f.Ordinary) :
        ∀ g ∈ (i.fault?.map fun f => reply (.error f)).bind Response.fault?, g.Ordinary := by
      intro g hg
      rw [hfault f hi] at hg
      cases hg
      exact hord
    cases i with
    | fault f =>
      rcases hend with ⟨hord, hc⟩ | hst
      · exact .inl ⟨hc, only rfl hord⟩
      · exact .inr ⟨f, hfault f rfl, hst⟩
    | breaking place => exact .inl ⟨hend, only rfl fun m hm => nomatch hm⟩
    | returning v place => exact .inl ⟨hend.1, only rfl fun m hm => nomatch hm⟩
    | exhausted => exact .inl ⟨hend, fun _ hf => nomatch hf⟩

variable (hc : Calm s.watched)
include hc

theorem stands_site : Stands s.watched s.site :=
  ⟨hr.good, hc, hr.current, housed_start _, fun i _ _ h => by cases i <;> cases h⟩

/-- An answer that no run has led to. -/
theorem answered_still {reply : Response} (hf : reply.fault? = none) : Answered (some reply, s) :=
  ⟨hr, .inl ⟨hc, fun f h => by rw [Option.bind_some, hf] at h; cases h⟩⟩

theorem answered_evaluateWith {x : Watching Value} {post : Value → Watched → Prop}
    (hx : Watching.Steps s.watched x post) : Answered (s.evaluateWith x) := by
  unfold Session.evaluateWith
  split
  · exact answered_still hr hc rfl
  · exact answered_watch hr hx (fun _ => rfl) fun _ => rfl

theorem steps_statements (fuel : Nat) {statements : List Stmt}
    (hs : Stmt.AllSettled statements (Walk.start s.config.allowRedefinition)) :
    Watching.Steps s.watched (Watching.forEach (Watching.exec fuel) s.site statements)
      fun _ _ => True :=
  .forEach (Watching.sound_fuel fuel).2.1 statements (stands_site hr hc) hs
    fun _ _ _ _ _ ho => nomatch ho

theorem steps_programValue (fuel : Nat) {statements : List Stmt}
    (hs : Stmt.AllSettled statements (Walk.start s.config.allowRedefinition)) :
    Watching.Steps s.watched (Session.programValue fuel s.site statements) fun _ _ => True := by
  unfold Session.programValue
  split
  · exact ((Watching.sound_fuel fuel).1 _ _ _ (stands_site hr hc) hs.1).mono
      fun _ _ _ _ _ _ => trivial
  · exact (steps_statements hr hc fuel hs).bind fun _ _ _ hg hc _ => .pure hg hc trivial

theorem answered_respond (fuel : Nat) (request : Request) : Answered (s.respond fuel request) := by
  cases request with
  | run source =>
    unfold Session.respond Session.run
    dsimp only
    split
    · exact answered_still hr hc rfl
    · rename_i statements hs
      split
      · exact answered_still hr hc rfl
      · exact answered_watch hr (steps_statements hr hc fuel (Checked.settled hs))
          (fun _ => rfl) fun _ => rfl
  | evaluate source =>
    unfold Session.respond
    dsimp only
    split
    · rename_i statements hs _
      exact answered_evaluateWith hr hc (steps_programValue hr hc fuel (Checked.settled hs))
    · exact answered_still hr hc rfl
  | evaluateExpression source =>
    unfold Session.respond
    dsimp only
    split
    · exact answered_still hr hc rfl
    · rename_i e he
      exact answered_evaluateWith hr hc
        ((Watching.sound_fuel fuel).1 _ _ e (stands_site hr hc) (Expr.settled_ofSource he))
  | clear => exact ⟨hr.clearGlobals, .inl ⟨hc, fun _ hf => nomatch hf⟩⟩
  | allowRedefinition allow =>
    exact ⟨hr.setAllowRedefinition allow, .inl ⟨hc, fun _ hf => nomatch hf⟩⟩

end

theorem answered_attempt {s : Session} (hr : AtRest s.watched) (fuel : Nat) (request : Request) :
    Answered (s.attempt fuel request) :=
  answered_respond hr.fresh.1 hr.fresh.2 fuel request

theorem AtRest.next {s : Session} (hr : AtRest s.watched) (request : Nat × Request) :
    AtRest (s.next request).watched := by
  have ha := (answered_attempt hr request.1 request.2).1
  unfold Session.next
  split
  · rename_i h
    rw [h] at ha
    exact ha
  · exact hr

/-- A session is at rest after any requests. -/
theorem atRest_after (config : Config) (sink : Sink) (clock : Clock) (past : List (Nat × Request)) :
    AtRest (Session.after config sink clock past).watched := by
  unfold Session.after
  have h := atRest_start config sink clock
  generalize Session.start config sink clock = s at h ⊢
  induction past generalizing s with
  | nil => exact h
  | cons request past ih => exact ih _ (h.next request)

/-! ## Whole sessions -/

/-- **The scopes of every run mirror those of the walk.** In any session, at every node
that the run for a request comes to, the scopes from the current one outwards are
activations of the constructs whose scopes the walk had open there, as many as those, with
nothing in them that the construct does not declare and with all that the walk had passed,
but for variables inside whose initializers the node lies and the name of a class at its
superclass. So a use acts on the activation of the declaration that the walk chose. -/
theorem Session.visits_mirrored (config : Config) (sink : Sink) (clock : Clock)
    (past : List (Nat × Request)) (fuel : Nat) (request : Request) :
    let p := (Session.after config sink clock past).attempt fuel request
    (Host.after config sink clock past).perform fuel request = Session.answer p ∧
      ∀ v ∈ p.2.visits, v.Mirrored ∧ v.Acts := by
  intro p
  have hp := answered_attempt (atRest_after config sink clock past) fuel request
  refine ⟨?_, fun v hv => ?_⟩
  · rw [← Session.after_host]
    exact Session.attempt_host _ fuel request
  · have hm := hp.1.good.visits v hv
    exact ⟨hm, hm.acts⟩

/-- In `{ class A {} class B < A {} var b = (b = 2); }` the walk has passed the declaration of `B`
where its superclass is looked up, and the scope does not bind it; nor is `b` bound where the
walk chose it for the assignment. -/
theorem Session.passed_unbound :
    let config : Config := ⟨false, false, "main.lox"⟩
    let source := "\x7b class A \x7b\x7d class B < A \x7b\x7d var b = (b = 2); \x7d"
    let p := (Session.after config (.empty none false) (.ticking 0) []).attempt 7 (.run source)
    (Checked.ofSource config source).problems.isEmpty ∧
      (∃ v ∈ p.2.visits, ∃ s, v.site.walk.scopes[0]? = some s ∧ s.has "B" ∧
        ¬ v.site.Initializes 0 "B" ∧ v.machine.scopes.own? v.machine.current "B" = none) ∧
      p.1.bind Response.fault? = some ⟨⟨"main.lox", 1, 38⟩, .mismatch (.unbound 0 "b")⟩ := by
  intro config source p
  have h : p.2.visits.any
      (fun v => (v.site.walk.scopes[0]?.any (·.has "B")) && v.site.initializers.isEmpty &&
        (v.machine.scopes.own? v.machine.current "B").isNone) = true := by decide +kernel
  obtain ⟨v, hv, hb⟩ := List.any_eq_true.1 h
  simp only [Bool.and_eq_true, Option.any_eq_true, List.isEmpty_iff, Option.isNone_iff_eq_none] at hb
  obtain ⟨⟨⟨s, hs, hn⟩, hi⟩, ho⟩ := hb
  refine ⟨by decide +kernel, ⟨v, hv, s, hs, hn, ?_, ho⟩, by decide +kernel⟩
  rintro ⟨name, hm, -⟩
  rw [hi] at hm
  cases hm

/-- **When the walk and the run disagree.** In any session, the run for a request ends in a
mismatch of depths if and only if it comes to a use of a variable that lies inside that
variable's own initializer and finds it not bound yet; the mismatch then says just that. -/
theorem Session.mismatch_iff_premature (config : Config) (sink : Sink) (clock : Clock)
    (past : List (Nat × Request)) (fuel : Nat) (request : Request) :
    let p := (Session.after config sink clock past).attempt fuel request
    (Host.after config sink clock past).perform fuel request = Session.answer p ∧
      ∀ f : Fault, ((∃ m, f.value = .mismatch m) ∧ p.1.bind Response.fault? = some f) ↔
        ∃ v ∈ p.2.visits, ∃ r d, v.PrematureAt r d ∧
          f = ⟨r.name.place, .mismatch (.unbound d r.name.text)⟩ := by
  intro p
  refine ⟨?_, fun f => ?_⟩
  · rw [← Session.after_host]
    exact Session.attempt_host _ fuel request
  · rcases (answered_attempt (atRest_after config sink clock past) fuel request).2 with
      ⟨hcalm, hord⟩ | ⟨g, hg, v, vs, r, d, hvs, hv, hcalm, rfl⟩
    · constructor
      · rintro ⟨⟨m, hm⟩, hf⟩
        exact absurd hm (hord f hf m)
      · rintro ⟨v, hv, r, d, hp, -⟩
        exact absurd ⟨r, d, hp⟩ (hcalm v hv)
    · constructor
      · rintro ⟨-, hf⟩
        cases hg.symm.trans hf
        exact ⟨v, by rw [Session.visits, hvs]; exact .head _, r, d, hv, rfl⟩
      · rintro ⟨u, hu, r', d', hp, rfl⟩
        rw [Session.visits, hvs] at hu
        rcases List.mem_cons.1 hu with rfl | hu
        · obtain ⟨rfl, rfl⟩ := hv.unique hp
          exact ⟨⟨_, rfl⟩, hg⟩
        · exact absurd ⟨r', d', hp⟩ (hcalm u hu)

/-- `{ var a = (fun () { return a; })(); }` has no problems, and its run ends in a mismatch. -/
theorem Session.ownInitializer_mismatch :
    let config : Config := ⟨false, false, "main.lox"⟩
    let source := "\x7b var a = (fun () \x7b return a; \x7d)(); \x7d"
    (Checked.ofSource config source).problems.isEmpty ∧
      ((Host.after config (.empty none false) (.ticking 0) []).perform 7 (.run source)).bind
          (fun p => p.1.fault?) =
        some ⟨⟨"main.lox", 1, 28⟩, .mismatch (.unbound 1 "a")⟩ := by
  decide +kernel

end LoxLang
