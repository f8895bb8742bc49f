import LoxLang.Proofs.Code.Accepted
import LoxLang.Proofs.Code.Orderly
import LoxLang.Proofs.Session.Agreement

/-!
# Sessions of tidy code

Between any two requests the machine of a session is fine, runs in its global scope and has
the rule on redefinition that the session is set to; so a request stays within the licence of
the statements that it has run.
-/

namespace LoxLang

open Scoping

/-! ## Sources -/

/-- Statements that may run outside of all functions. -/
structure Stmt.Accepted (allow : Bool) (ss : List Stmt) : Prop where
  fine : Stmt.AllFine ss
  breaks : Stmt.BreaksApart ss
  returns : Stmt.allReturns ss = []
  distinct : (Stmt.declaredTexts ss).Nodup ∨ allow = true

theorem Stmt.accepted_nil (allow : Bool) : Stmt.Accepted allow [] where
  fine := ⟨by simp [Stmt.allCodes], trivial⟩
  breaks := .nil
  returns := rfl
  distinct := .inl .nil

theorem Code.tidy_of_clean {cs : List Code} (h : ∀ c ∈ cs, c.Clean) (ha : Code.AllApart cs) :
    ∀ c ∈ cs, c.Tidy := fun c hc => ⟨h c hc, ha c hc⟩

/-- What a source gives to run may run. -/
theorem Checked.accepted {config : Config} {source : String} {statements : List Stmt}
    (h : (Checked.ofSource config source).statements = some statements) :
    Stmt.Accepted config.allowRedefinition statements := by
  have hs := Checked.settled h
  obtain ⟨hp, ht⟩ := Checked.of_statements h
  have hread := Program.apart_ofTokens (Token.nodup_places config.file source)
  generalize (Program.ofTokens (Token.scan config.file source).1).statements = read at hp ht hread
  -- the walk over what was read reports nothing, so neither does that over its resolved tree
  have hq : (Stmt.resolveAll statements (Walk.start config.allowRedefinition)).2.problems =
      (Walk.start config.allowRedefinition).problems := by
    rw [← ht]
    exact (congrArg (·.2.problems) (Stmt.resolveAll_again read _)).trans
      (Array.toList_eq_nil_iff.1 hp)
  have hclean := Stmt.clean_of_allQuiet statements _ hs hq
  have hapart : Code.AllApart (Stmt.allCodes statements) := by
    rw [← ht]
    exact Stmt.allApart_resolveAll read _ hread.2
  refine ⟨⟨Code.tidy_of_clean hclean.codes hapart, hclean.tidy⟩, ?_,
    Stmt.returns_of_allQuiet statements rfl hq, ?_⟩
  · rw [← ht]
    exact Stmt.breaksApart_resolve hread.1 _
  · cases ha : config.allowRedefinition with
    | true => exact .inr rfl
    | false => exact .inl (Stmt.nodup_declaredTexts (Stmt.globals_distinct statements rfl ha hq).2)

/-- What is evaluated of a source has tidy functions. -/
theorem Expr.fine_ofSource {config : Config} {source : String} {e : Expr}
    (h : Expr.ofSource config source = .ok e) : e.Fine := by
  have hs := Expr.settled_ofSource h
  obtain ⟨read, he, hp, ht⟩ := Expr.of_ofSource h
  have hread := Expr.apart_ofTokens (Token.nodup_places config.file source) he
  have hq : (e.resolve (Walk.start config.allowRedefinition)).2.problems =
      (Walk.start config.allowRedefinition).problems := by
    rw [← ht]
    exact (congrArg (·.2.problems) (read.resolve_again _)).trans (Array.toList_eq_nil_iff.1 hp)
  refine Code.tidy_of_clean (e.clean_of_quiet _ hs hq) ?_
  rw [← ht]
  exact read.allApart_resolve _ hread

/-! ## Between requests -/

/-- The statements that a request has run outside of all functions. -/
def Request.statements (config : Config) : Request → List Stmt
  | .run source | .evaluate source => (Checked.ofSource config source).statements.getD []
  | _ => []

/-- The machine is fine, runs in its global scope and has the rule that the session is set to. -/
structure Session.Sound (s : Session) : Prop where
  fine : s.watched.machine.Fine
  current : s.watched.machine.current = s.watched.machine.globals
  allow : s.watched.machine.allow? s.watched.machine.globals = some s.config.allowRedefinition

theorem Scopes.allow_clear (ss : Scopes) (id i : ScopeId) :
    (ss.clear id)[i]?.map Scope.allowRedefinition = ss[i]?.map Scope.allowRedefinition := by
  simp only [Scopes.clear, Array.getElem?_modify]
  split
  · rename_i h
    subst h
    cases ss[id]? <;> rfl
  · rfl

theorem Scopes.allow_set (ss : Scopes) (id i : ScopeId) (allow : Bool) :
    (ss.setAllowRedefinition id allow)[i]?.map Scope.allowRedefinition =
      if i = id ∧ id < ss.size then some allow else ss[i]?.map Scope.allowRedefinition := by
  simp only [Scopes.setAllowRedefinition, Array.getElem?_modify]
  by_cases hi : id = i
  · subst hi
    by_cases hs : id < ss.size <;> simp [hs]
  · simp [hi, Ne.symm hi]

namespace Session

variable {s : Session}

theorem sound_start (config : Config) (sink : Sink) (clock : Clock) :
    (start config sink clock).Sound where
  fine := {
    globals := Nat.zero_lt_one
    current := Nat.zero_lt_one
    scopes := fun id x v hv => by
      have hb : Scopes.own? (Scopes.root config.allowRedefinition) id x = none := by
        cases id <;> rfl
      rw [show (start config sink clock).watched.machine.scopes =
        (Scopes.root config.allowRedefinition).insert 0 "clock" (.native .clock) from rfl,
        Scopes.own?_insert, hb] at hv
      split at hv
      · cases hv
        trivial
      · cases hv
    objects := fun i x v hv => nomatch hv }
  current := rfl
  allow := rfl

theorem Sound.clearGlobals (h : s.Sound) :
    (s.withMachine s.watched.machine.clearGlobals).Sound := by
  let m := s.watched.machine
  let cleared : Machine := { m with scopes := m.scopes.clear m.globals, current := m.globals }
  have hsize : cleared.scopes.size = m.scopes.size := by simp [cleared, Scopes.clear]
  have hcleared : cleared.Fine := {
    globals := hsize ▸ h.fine.globals
    current := hsize ▸ h.fine.globals
    scopes := fun id x v hv => by
      rw [show cleared.scopes = m.scopes.clear m.globals from rfl, Scopes.own?_clear] at hv
      split at hv
      · cases hv
      · exact h.fine.scopes id x v hv
    objects := h.fine.objects }
  refine ⟨hcleared.insert _ _ trivial, rfl, ?_⟩
  exact (Scopes.allow_insert ..).trans ((Scopes.allow_clear ..).trans h.allow)

theorem Sound.setAllowRedefinition (h : s.Sound) (allow : Bool) :
    Sound { s.withMachine (s.watched.machine.setAllowRedefinition allow) with
      config := { s.config with allowRedefinition := allow } } := by
  let m := s.watched.machine
  have hsize : (m.scopes.setAllowRedefinition m.globals allow).size = m.scopes.size := by
    simp [Scopes.setAllowRedefinition]
  refine ⟨⟨?_, ?_, fun id x v hv => ?_, h.fine.objects⟩, h.current, ?_⟩
  · exact hsize.symm ▸ h.fine.globals
  · exact hsize.symm ▸ h.fine.current
  · exact h.fine.scopes id x v ((Scopes.own?_allow ..).symm.trans hv)
  · exact (Scopes.allow_set ..).trans (if_pos ⟨rfl, h.fine.globals⟩)

/-! ## Requests -/

/-- The session is sound again; all that the run came to it found fresh, and it ended within the
licence. -/
structure Replied (program : List Stmt) (L : Licence) (p : Option Response × Session) : Prop where
  sound : p.2.Sound
  visits : ∀ v ∈ p.2.visits, v.Fresh
  quiet : p.1.bind Response.fault? = none → p.2.watched.strays program = []
  fault : ∀ f ∈ p.1.bind Response.fault?,
    (Interrupt.fault f).Allowed L [] (p.2.watched.strays program)

theorem orderly_statements (hs : s.Sound) (fuel : Nat) {statements : List Stmt}
    (ha : Stmt.Accepted s.config.allowRedefinition statements) :
    Watching.Orderly statements (Stmt.allLicence false statements s.watched.machine) s.watched
      (Watching.forEach (Watching.exec fuel) s.site statements) fun _ => True := by
  refine .forEach (Watching.orderly_fuel statements fuel).2.1 false statements hs.fine ha.fine
    ⟨ha.distinct.imp_right fun hd => ?_, fun hl => absurd hs.current hl⟩ ⟨ha.breaks, fun _ h => h⟩
  rw [hs.current, hs.allow, hd]
  rfl

theorem orderly_programValue (hs : s.Sound) (fuel : Nat) {statements : List Stmt}
    (ha : Stmt.Accepted s.config.allowRedefinition statements) :
    Watching.Orderly statements (Stmt.allLicence false statements s.watched.machine) s.watched
      (programValue fuel s.site statements) Value.Fine := by
  unfold programValue
  split
  · rename_i e
    have he := (Stmt.allFine_cons.1 ha.fine).1.codes
    exact .wide ((Watching.orderly_fuel _ fuel).1 s.site e s.watched hs.fine he)
  · exact (orderly_statements hs fuel ha).bind fun _ _ ha _ => .pure ha.fine trivial

section
variable (hs : s.Sound) (hv : s.visits = []) {program : List Stmt} {L : Licence}
include hs hv

/-- An answer that no run has led to. -/
theorem replied_still {reply : Response} (hf : reply.fault? = none) :
    Replied program L (some reply, s) where
  sound := hs
  visits v h := by
    rw [show (some reply, s).2.visits = [] from hv] at h
    cases h
  quiet _ := by rw [Watched.strays, show s.watched.record.visits = [] from hv, List.filterMap_nil]
  fault f h := by
    rw [Option.bind_some, hf] at h
    cases h

theorem replied_watch {α : Type} {x : Watching α} {post : α → Prop}
    {reply : Except Fault α → Response} (hx : Watching.Orderly program L s.watched x post)
    (hb : ∀ b, L.breaks b → b = false) (hr : ∀ p, ¬ L.returns p)
    (ho : ∀ a, (reply (.ok a)).fault? = none) (he : ∀ f, (reply (.error f)).fault? = some f) :
    Replied program L (s.watch x reply) := by
  have hnone : s.watched.strays program = [] := by
    rw [Watched.strays, show s.watched.record.visits = [] from hv, List.filterMap_nil]
  have sound {t : Watched} (ha : Advance L s.watched t) : Sound { s with watched := t } := by
    have hg := ha.grown.globals
    refine ⟨ha.fine, ha.grown.current.trans (hs.current.trans hg.symm), ?_⟩
    show t.machine.allow? t.machine.globals = _
    rw [hg, ha.grown.allow _ hs.fine.globals]
    exact hs.allow
  have visits {t : Watched} (ha : Advance L s.watched t) : ∀ v ∈ t.record.visits, v.Fresh :=
    fun v h => (ha.visits v h).elim (fun h => by
      rw [show s.watched.record.visits = [] from hv] at h
      cases h) id
  unfold Watching.Orderly at hx
  rw [hnone] at hx
  unfold Session.watch
  cases h : x s.watched with
  | ok a t =>
    rw [h] at hx
    refine ⟨sound hx.1, visits hx.1, fun _ => hx.2.1, fun f hf => ?_⟩
    rw [Option.bind_some, ho] at hf
    cases hf
  | error i t =>
    rw [h] at hx
    obtain ⟨ha, hi⟩ := hx
    refine ⟨sound ha, visits ha, ?_, ?_⟩
    · cases i with
      | exhausted => exact fun _ => hi
      | fault f | breaking p | returning v p => simp [Interrupt.fault?, he]
    · cases i with
      | exhausted =>
        intro g hg
        cases hg
      | fault f =>
        intro g hg
        obtain rfl : f = g := by simpa [Interrupt.fault?, he] using hg
        exact hi
      | breaking p =>
        intro g hg
        obtain rfl : ⟨p, .breakOutsideLoop⟩ = g := by simpa [Interrupt.fault?, he] using hg
        obtain ⟨b, hpb, hst⟩ := hi
        cases hb b hpb
        exact .inr ⟨rfl, hst⟩
      | returning v p => exact absurd hi.1 (hr p)

/-- What is run of a source stays within the licence of its statements. -/
theorem replied_statements {statements : List Stmt} {α : Type} {x : Watching α}
    (ha : Stmt.Accepted s.config.allowRedefinition statements) {post : α → Prop}
    {reply : Except Fault α → Response}
    (hx : Watching.Orderly statements (Stmt.allLicence false statements s.watched.machine) s.watched
      x post)
    (ho : ∀ a, (reply (.ok a)).fault? = none) (he : ∀ f, (reply (.error f)).fault? = some f) :
    Replied statements (Stmt.allLicence false statements s.watched.machine) (s.watch x reply) := by
  refine replied_watch hs hv hx (fun _ h => h) (fun p h => ?_) ho he
  rw [show (Stmt.allLicence false statements s.watched.machine).returns p =
    (p ∈ Stmt.allReturns statements) from rfl, ha.returns] at h
  cases h

theorem replied_evaluateWith {L : Licence} {x : Watching Value}
    (hx : Replied program L (s.watch x .ofValue)) : Replied program L (s.evaluateWith x) := by
  unfold evaluateWith
  split
  · exact replied_still hs hv rfl
  · exact hx

theorem replied_respond (fuel : Nat) (request : Request) :
    let program := request.statements s.config
    Replied program (Stmt.allLicence false program s.watched.machine) (s.respond fuel request) := by
  cases request with
  | run source =>
    unfold respond run Request.statements
    dsimp only
    cases hst : (Checked.ofSource s.config source).statements with
    | none => exact replied_still hs hv rfl
    | some statements =>
      have ha := Checked.accepted hst
      dsimp only [Option.getD_some]
      split
      · exact replied_still hs hv rfl
      · have hx := orderly_statements hs fuel ha
        exact replied_statements hs hv ha hx (fun _ => rfl) fun _ => rfl
  | evaluate source =>
    unfold respond Request.statements
    dsimp only
    cases hst : (Checked.ofSource s.config source).statements with
    | none => exact replied_still hs hv rfl
    | some statements =>
      have ha := Checked.accepted hst
      dsimp only [Option.getD_some]
      split
      · rename_i hst' _
        cases hst'
        exact replied_evaluateWith hs hv (replied_statements hs hv ha
          (orderly_programValue hs fuel ha) (fun _ => rfl) fun _ => rfl)
      · exact replied_still hs hv rfl
  | evaluateExpression source =>
    unfold respond Request.statements
    dsimp only
    split
    · exact replied_still hs hv rfl
    · rename_i e he
      have hfine := Expr.fine_ofSource he
      have hx := (Watching.orderly_fuel [] fuel).1 s.site e s.watched hs.fine hfine
      exact replied_evaluateWith hs hv (replied_statements hs hv (Stmt.accepted_nil _) hx.wide
        (fun _ => rfl) fun _ => rfl)
  | clear =>
    exact replied_still hs.clearGlobals hv rfl
  | allowRedefinition allow =>
    exact replied_still (hs.setAllowRedefinition allow) hv rfl

end

theorem Sound.fresh (hs : s.Sound) : s.fresh.Sound := ⟨hs.fine, hs.current, hs.allow⟩

/-- What a request is answered with. -/
theorem replied_attempt (hs : s.Sound) (fuel : Nat) (request : Request) :
    let program := request.statements s.config
    Replied program (Stmt.allLicence false program s.watched.machine) (s.attempt fuel request) :=
  replied_respond hs.fresh rfl fuel request

theorem Sound.next (hs : s.Sound) (request : Nat × Request) : (s.next request).Sound := by
  have hr := (replied_attempt hs request.1 request.2).sound
  unfold Session.next
  split
  · rename_i h
    rw [h] at hr
    exact hr
  · exact hs

/-- A session is sound after any requests. -/
theorem sound_after (config : Config) (sink : Sink) (clock : Clock) (past : List (Nat × Request)) :
    (after config sink clock past).Sound := by
  unfold after
  have h := sound_start config sink clock
  generalize start config sink clock = s at h ⊢
  induction past generalizing s with
  | nil => exact h
  | cons request past ih => exact ih _ (h.next request)

end Session

/-! ## Whole sessions -/

/-- How a step can end that stays within a licence. -/
theorem Watching.Orderly.allowed {α : Type} {program : List Stmt} {L : Licence} {t : Watched}
    {x : Watching α} {y : Run α} {post : α → Prop} (h : Watching.Orderly program L t x post)
    (he : Watching.Erases x y) {i : Interrupt} {m : Machine} (hy : y t.machine = .error i m) :
    ∃ after, i.Allowed L (t.strays program) after := by
  have ht := he t
  unfold Watching.Orderly at h
  rw [hy] at ht
  cases hx : x t with
  | ok a u =>
    rw [hx] at ht
    cases ht
  | error j u =>
    rw [hx] at ht h
    cases ht
    exact ⟨_, h.2⟩

/-- **Stray `break`s, and nothing else, are faults of jumps.** In any session, the run for a
request never ends in a `return` outside of a function, and it ends in a `break` outside of a
loop just if it comes to a `break` there that has no loop around it in its own function, or in
the program if it is in none. No expression that it comes to, so no call either, ends in a
`break` or a `return`. -/
theorem Session.breakFault_iff_stray (config : Config) (sink : Sink) (clock : Clock)
    (past : List (Nat × Request)) (fuel : Nat) (request : Request) :
    let s := Session.after config sink clock past
    let p := s.attempt fuel request
    (Host.after config sink clock past).perform fuel request = Session.answer p ∧
      (∀ place, p.1.bind Response.fault? ≠ some ⟨place, .returnOutsideFunction⟩) ∧
      (∀ place, p.1.bind Response.fault? = some ⟨place, .breakOutsideLoop⟩ ↔
        ∃ v ∈ p.2.visits, v.Stray (request.statements s.config) place) ∧
      ∀ v ∈ p.2.visits, ∀ e, v.node = .expression e → ∀ fuel' i m,
        eval fuel' e v.machine = .error i m →
          (∀ place, i ≠ .breaking place) ∧ ∀ w place, i ≠ .returning w place := by
  intro s p
  have hp := Session.replied_attempt (Session.sound_after config sink clock past) fuel request
  have hstray (place : Place) : place ∈ p.2.watched.strays (request.statements s.config) ↔
      ∃ v ∈ p.2.visits, v.Stray (request.statements s.config) place := by
    simp only [Watched.strays, List.mem_filterMap, Visit.stray?_eq_some]
    rfl
  refine ⟨?_, fun place hf => ?_, fun place => ?_, fun v hv e he fuel' i m hi => ?_⟩
  · rw [← Session.after_host]
    exact Session.attempt_host _ fuel request
  · rcases hp.fault _ hf with ⟨hc | ⟨n, -, hn⟩, -⟩ | ⟨hb, -⟩
    · exact hc.2.2 rfl
    · cases hn
    · cases hb
  · rw [← hstray]
    constructor
    · intro hf
      rcases hp.fault _ hf with ⟨hc | ⟨n, -, hn⟩, -⟩ | ⟨-, hs⟩
      · exact absurd rfl hc.2.1
      · cases hn
      · rw [hs]
        exact List.mem_cons_self
    · intro hs
      cases hf : p.1.bind Response.fault? with
      | none =>
        rw [hp.quiet hf] at hs
        cases hs
      | some f =>
        rcases hp.fault f hf with ⟨-, hs'⟩ | ⟨hb, hs'⟩
        · rw [hs'] at hs
          cases hs
        · rw [hs', List.mem_singleton] at hs
          rw [hs, ← hb]
  · have hv := hp.visits v hv
    have hx := (Watching.orderly_fuel [] fuel').1 s.site e ⟨v.machine, Record.start⟩ hv.machine
      (hv.expression e he)
    obtain ⟨after, ha⟩ := hx.allowed (Watching.erases_eval fuel' s.site e) hi
    refine ⟨?_, ?_⟩
    · rintro q rfl
      obtain ⟨b, hb, -⟩ := ha
      exact hb
    · rintro w q rfl
      exact ha.1

/-- A `break` in a function that a loop calls has no loop around it there. -/
example :
    let source := "fun f() \x7b break; \x7d while (true) f();"
    ((Host.start ⟨false, false, "main.lox"⟩ (.empty none false) (.ticking 0)).perform 9 (.run source)).bind
        (fun p => p.1.fault?) = some ⟨⟨"main.lox", 1, 11⟩, .breakOutsideLoop⟩ := by
  decide +kernel

/-- **Only a global name that was bound before can be one too many.** In any session, the run
for a request ends in a redefinition only if global names may not be defined again, the name
was bound in the global scope as the request came in, and the fault is at the name in a
statement of the program that declares it. Wherever the run comes to a declaration in another
scope the name is not bound there yet, and the declaration ends in no redefinition. -/
theorem Session.redefinition_of_bound (config : Config) (sink : Sink) (clock : Clock)
    (past : List (Nat × Request)) (fuel : Nat) (request : Request) :
    let s := Session.after config sink clock past
    let p := s.attempt fuel request
    (Host.after config sink clock past).perform fuel request = Session.answer p ∧
      (∀ place name, p.1.bind Response.fault? = some ⟨place, .redefinition name⟩ →
        s.config.allowRedefinition = false ∧
        (s.host.machine.own? s.host.machine.globals name).isSome ∧
        ∃ t ∈ request.statements s.config, t.declared? = some ⟨name, place⟩) ∧
      ∀ v ∈ p.2.visits, ∀ t n, v.node = .statement t → t.declared? = some n →
        v.machine.current ≠ v.machine.globals →
          v.machine.own? v.machine.current n.text = none ∧
          ∀ fuel' f m, exec fuel' t v.machine = .error (.fault f) m →
            ∀ name, f.value ≠ .redefinition name := by
  intro s p
  have hs := Session.sound_after config sink clock past
  have hp := Session.replied_attempt hs fuel request
  refine ⟨?_, fun place name hf => ?_, fun v hv t n ht hn hl => ?_⟩
  · rw [← Session.after_host]
    exact Session.attempt_host _ fuel request
  · rcases hp.fault _ hf with ⟨hc | ⟨n, ⟨⟨t, ht, hn⟩, -, hbound, hallow⟩, hf⟩, -⟩ | ⟨hb, -⟩
    · exact absurd rfl (hc.1 name)
    · cases hf
      rw [hs.current, hs.allow] at hallow
      rw [hs.current] at hbound
      exact ⟨hallow, hbound, t, ht, hn⟩
    · cases hb
  · have hv := hp.visits v hv
    obtain ⟨hfine, hready⟩ := hv.statement t ht
    refine ⟨hready hl n hn, fun fuel' f m hm name hname => ?_⟩
    -- a declaration has no `break`s of its own
    have hcovers : s.site.Covers [] (t.breaks false) := by
      refine ⟨.nil, fun b hb => ?_⟩
      cases t with
      | declare _ _ | function _ | classDecl _ _ _ => cases hb
      | _ => cases hn
    have hx := (Watching.orderly_fuel [] fuel').2.1 false s.site t ⟨v.machine, Record.start⟩
      hv.machine hfine hready hcovers
    obtain ⟨after, ha⟩ := hx.allowed (Watching.erases_exec fuel' s.site t) hm
    rcases ha with ⟨hc | ⟨k, ⟨-, hg, -⟩, -⟩, -⟩ | ⟨hb, -⟩
    · exact hc.1 name hname
    · exact hl hg
    · rw [hname] at hb
      cases hb

/-- A function of the host is bound before any request. -/
example :
    ((Host.start ⟨false, false, "main.lox"⟩ (.empty none false) (.ticking 0)).perform 9
        (.run "var clock = 1;")).bind (fun p => p.1.fault?) =
      some ⟨⟨"main.lox", 1, 5⟩, .redefinition "clock"⟩ := by
  decide +kernel

end LoxLang
