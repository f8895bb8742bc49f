import LoxLang.Proofs.Code.Session
import LoxLang.Proofs.Twins.Run

/-!
# Cleared hosts

A host that has been cleared and a fresh one with the same configuration, sink and clock are
twins by their global scopes alone: all else that the cleared one still holds has no double,
and nothing leads to it. Twins answer every request alike and stay twins, so no later session
tells the two apart.
-/

namespace LoxLang

/-! ## Twin hosts -/

/-- Hosts of one configuration with twin machines. -/
structure Host.Twin (R : Place → Place → Prop) (P : Pairs) (h h' : Host) : Prop where
  config : h'.config = h.config
  machine : Machine.Twin R P h.machine h'.machine

/-- The same answer up to the identities in a value, its fault at a related place. -/
inductive Response.Twin (R : Place → Place → Prop) (P : Pairs) : Response → Response → Prop
  | ran {problems : List Problem} {unread : List Name} {f f' : Option Fault}
      (h : Option.Rel (Fault.Twin R) f f') :
    Response.Twin R P (.ran ⟨problems, unread, f⟩) (.ran ⟨problems, unread, f'⟩)
  | value {v v' : Value} (h : v.Twin R P v') :
    Response.Twin R P (.evaluated (.value v)) (.evaluated (.value v'))
  | rejected (problems : List Problem) :
    Response.Twin R P (.evaluated (.rejected problems)) (.evaluated (.rejected problems))
  | faulted {f f' : Fault} (h : f.Twin R f') :
    Response.Twin R P (.evaluated (.faulted f)) (.evaluated (.faulted f'))
  | done : Response.Twin R P .done .done

theorem Response.Twin.mono {R : Place → Place → Prop} {P Q : Pairs} (hPQ : P.Le Q)
    {r r' : Response} (h : r.Twin R P r') : r.Twin R Q r' := by
  cases h with
  | value h => exact .value (h.mono hPQ)
  | ran h => exact .ran h
  | rejected problems => exact .rejected problems
  | faulted h => exact .faulted h
  | done => exact .done

/-- What sources of a file say is the same elsewhere, there being where it is. -/
structure Sources (R : Place → Place → Prop) (file : String) : Prop where
  statements : ∀ {config : Config} {source : String} {ss : List Stmt}, config.file = file →
    (Checked.ofSource config source).statements = some ss → Stmt.AllElsewhere R ss ss
  expression : ∀ {config : Config} {source : String} {e : Expr}, config.file = file →
    Expr.ofSource config source = .ok e → e.Elsewhere R e

theorem sources_eq (file : String) : Sources Eq file where
  statements _ _ := Stmt.allElsewhere_self (fun _ => rfl) _
  expression _ _ := Expr.elsewhere_self (fun _ => rfl) _

/-- What one source says is the same elsewhere, there being where it is. -/
structure Spoken (R : Place → Place → Prop) (config : Config) (source : String) : Prop where
  statements : ∀ {ss : List Stmt}, (Checked.ofSource config source).statements = some ss →
    Stmt.AllElsewhere R ss ss
  expression : ∀ {e : Expr}, Expr.ofSource config source = .ok e → e.Elsewhere R e

theorem Sources.spoken {R : Place → Place → Prop} {config : Config} (h : Sources R config.file)
    (source : String) : Spoken R config source :=
  ⟨h.statements rfl, h.expression rfl⟩

def Request.source? : Request → Option String
  | .run source | .evaluate source | .evaluateExpression source => some source
  | .clear | .allowRedefinition _ => none

section
variable {α β : Type} {R : Place → Place → Prop} {P Q : Pairs} {m m' : Machine}

/-- What is left of twin steps when nothing is left to catch them. -/
theorem TwinStep.outcome? {post : Pairs → α → β → Prop} {step : Run α} {step' : Run β}
    (h : TwinStep R P post step step') (hm : Machine.Twin R P m m') :
    Option.Rel
      (fun x y => ∃ Q, P.Le Q ∧ ResultTwin R (post Q) x.1 y.1 ∧ Machine.Twin R Q x.2 y.2)
      (Run.outcome? step m) (Run.outcome? step' m') := by
  have hs := h m m' hm
  unfold Run.outcome?
  generalize step m = r at hs ⊢
  generalize step' m' = r' at hs ⊢
  cases hs with
  | ok le hn h => exact .some ⟨_, le, .ok h, hn⟩
  | error le hn hi =>
    cases hi with
    | fault hf => exact .some ⟨_, le, .error hf, hn⟩
    | breaking hp => exact .some ⟨_, le, .error ⟨hp, rfl⟩, hn⟩
    | returning _ hp => exact .some ⟨_, le, .error ⟨hp, rfl⟩, hn⟩
    | exhausted => exact .none

theorem Machine.Twin.clearGlobals (h : Machine.Twin R P m m') :
    Machine.Twin R P m.clearGlobals m'.clearGlobals := by
  have hcleared : Machine.Twin R P
      { m with scopes := m.scopes.clear m.globals, current := m.globals }
      { m' with scopes := m'.scopes.clear m'.globals, current := m'.globals } := by
    refine { h with scopes := ?_, root := ?_, current := h.globals }
    · refine ⟨?_, fun hid => ?_, fun hid => ?_, fun {id id'} hid n => ?_⟩
      · simpa [Scopes.clear] using h.scopes.below
      · rw [Scopes.parent_clear, Scopes.parent_clear]
        exact h.scopes.parent hid
      · rw [Scopes.allow_clear, Scopes.allow_clear]
        exact h.scopes.allow hid
      · rw [Scopes.own?_clear, Scopes.own?_clear]
        by_cases hg : id = m.globals
        · rw [if_pos hg, if_pos ((P.scopes.unique hid h.globals).1 hg)]
          exact .none
        · rw [if_neg hg, if_neg fun hg' => hg ((P.scopes.unique hid h.globals).2 hg')]
          exact h.scopes.own? hid n
    · rw [Scopes.parent_clear]
      exact h.root
  exact hcleared.insert hcleared.globals "clock" (.plain trivial)

theorem Machine.Twin.setAllowRedefinition (h : Machine.Twin R P m m') (allow : Bool) :
    Machine.Twin R P (m.setAllowRedefinition allow) (m'.setAllowRedefinition allow) := by
  refine { h with
    scopes := ⟨?_, fun hid => ?_, fun {id id'} hid => ?_, fun hid n => ?_⟩
    root := ?_ }
  · simpa [Machine.setAllowRedefinition, Scopes.setAllowRedefinition] using h.scopes.below
  · exact (Scopes.parent_allow ..).symm ▸ (Scopes.parent_allow ..).symm ▸ h.scopes.parent hid
  · refine (Scopes.allow_set ..).trans (Eq.trans ?_ (Scopes.allow_set ..).symm)
    by_cases hg : id = m.globals
    · rw [if_pos ⟨(P.scopes.unique hid h.globals).1 hg, (h.scopes.below h.globals).2⟩,
        if_pos ⟨hg, (h.scopes.below h.globals).1⟩]
    · rw [if_neg fun hc => hg ((P.scopes.unique hid h.globals).2 hc.1), if_neg fun hc => hg hc.1]
      exact h.scopes.allow hid
  · exact (Scopes.own?_allow ..).symm ▸ (Scopes.own?_allow ..).symm ▸ h.scopes.own? hid n
  · exact (Scopes.parent_allow ..).trans h.root

end

/-! ## Requests -/

namespace Host

section
variable {R : Place → Place → Prop} {P : Pairs} {h h' : Host}

/-- Twin answers and twin hosts after them, or no answer from either. -/
def AnswersTwin (R : Place → Place → Prop) (P : Pairs) :
    Option (Response × Host) → Option (Response × Host) → Prop :=
  Option.Rel fun x y => ∃ Q, P.Le Q ∧ x.1.Twin R Q y.1 ∧ Host.Twin R Q x.2 y.2

theorem Twin.still (ht : Host.Twin R P h h') {r : Response} (hr : r.Twin R P r) :
    AnswersTwin R P (some (r, h)) (some (r, h')) :=
  .some ⟨P, .refl P, hr, ht⟩

theorem twinStep_execAll (fuel : Nat) {ss ss' : List Stmt} (hs : Stmt.AllElsewhere R ss ss') :
    TwinStep R P anyValues (execAll fuel ss) (execAll fuel ss') :=
  .forM (TwinStep.fuelled R fuel).2.1 hs

theorem twinStep_programValue (fuel : Nat) {ss : List Stmt} (hs : Stmt.AllElsewhere R ss ss) :
    TwinStep R P (Value.Twin R) (programValue fuel ss) (programValue fuel ss) := by
  unfold programValue
  split
  · cases hs with
    | cons h _ =>
      cases h with
      | expression he => exact (TwinStep.fuelled R fuel).1 P _ _ he
  · exact (twinStep_execAll fuel hs).bind fun _ _ _ _ _ => .pure (.plain trivial)

theorem Twin.run (ht : Host.Twin R P h h') (fuel : Nat) {source : String}
    (hR : Spoken R h.config source) :
    AnswersTwin R P (h.perform fuel (.run source)) (h'.perform fuel (.run source)) := by
  unfold perform Host.run
  rw [ht.config]
  dsimp only
  cases hc : (Checked.ofSource h.config source).statements with
  | none => exact ht.still (.ran .none)
  | some statements =>
    dsimp only
    split
    · exact ht.still (.ran .none)
    · have ho := (twinStep_execAll fuel (hR.statements hc)).outcome? ht.machine
      generalize Run.outcome? (execAll fuel statements) h.machine = o at ho ⊢
      generalize Run.outcome? (execAll fuel statements) h'.machine = o' at ho ⊢
      cases ho with
      | none => exact .none
      | @some x y hend =>
        obtain ⟨r, m⟩ := x
        obtain ⟨r', m'⟩ := y
        obtain ⟨Q, hPQ, hr, hm⟩ := hend
        refine .some ⟨Q, hPQ, ?_⟩
        cases hr with
        | ok _ => exact ⟨.ran .none, rfl, hm⟩
        | error hf => exact ⟨.ran (.some hf), rfl, hm⟩

theorem Twin.evaluateWith (ht : Host.Twin R P h h') {step : Run Value}
    (hstep : TwinStep R P (Value.Twin R) step step) :
    AnswersTwin R P ((h.evaluateWith step).map fun (result, h) => (.evaluated result, h))
      ((h'.evaluateWith step).map fun (result, h) => (.evaluated result, h)) := by
  unfold Host.evaluateWith
  rw [ht.config]
  split
  · exact ht.still (.value (.plain trivial))
  · have ho := hstep.outcome? ht.machine
    generalize Run.outcome? step h.machine = o at ho ⊢
    generalize Run.outcome? step h'.machine = o' at ho ⊢
    cases ho with
    | none => exact .none
    | @some x y hend =>
      obtain ⟨r, m⟩ := x
      obtain ⟨r', m'⟩ := y
      obtain ⟨Q, hPQ, hr, hm⟩ := hend
      refine .some ⟨Q, hPQ, ?_⟩
      cases hr with
      | ok hv => exact ⟨.value hv, rfl, hm⟩
      | error hf => exact ⟨.faulted hf, rfl, hm⟩

/-- Twins answer a request alike and are twins again. -/
theorem Twin.perform (ht : Host.Twin R P h h') (fuel : Nat) {request : Request}
    (hR : ∀ source ∈ request.source?, Spoken R h.config source) :
    AnswersTwin R P (h.perform fuel request) (h'.perform fuel request) := by
  cases request with
  | run source => exact ht.run fuel (hR source rfl)
  | evaluate source =>
    have hR := hR source rfl
    unfold Host.perform Host.evaluate
    rw [ht.config]
    dsimp only
    cases hc : (Checked.ofSource h.config source).statements with
    | none => exact ht.still (.rejected _)
    | some statements =>
      cases (Checked.ofSource h.config source).problems with
      | nil => exact ht.evaluateWith (twinStep_programValue fuel (hR.statements hc))
      | cons _ _ => exact ht.still (.rejected _)
  | evaluateExpression source =>
    have hR := hR source rfl
    unfold Host.perform Host.evaluateExpression
    rw [ht.config]
    dsimp only
    cases hc : Expr.ofSource h.config source with
    | error problems => exact ht.still (.rejected problems)
    | ok e =>
      exact ht.evaluateWith ((TwinStep.fuelled R fuel).1 P e e (hR.expression hc))
  | clear => exact .some ⟨P, .refl P, .done, ht.config, ht.machine.clearGlobals⟩
  | allowRedefinition allow =>
    refine .some ⟨P, .refl P, .done, ?_, ht.machine.setAllowRedefinition allow⟩
    exact congrArg (fun c : Config => { c with allowRedefinition := allow }) ht.config

/-- Twins answer a request alike, and are twins again even if neither could finish it. -/
theorem Twin.next (ht : Host.Twin R P h h') {r : Nat × Request}
    (hR : ∀ source ∈ r.2.source?, Spoken R h.config source) :
    ∃ Q, P.Le Q ∧
      Option.Rel (Response.Twin R Q) ((h.perform r.1 r.2).map Prod.fst)
        ((h'.perform r.1 r.2).map Prod.fst) ∧
      Host.Twin R Q (h.next r) (h'.next r) := by
  have ho := ht.perform r.1 hR
  unfold Host.next
  generalize h.perform r.1 r.2 = o at ho ⊢
  generalize h'.perform r.1 r.2 = o' at ho ⊢
  cases ho with
  | none => exact ⟨P, .refl P, .none, ht⟩
  | some hx =>
    obtain ⟨Q, hPQ, hr, hh⟩ := hx
    exact ⟨Q, hPQ, .some hr, hh⟩

end

/-! ## Sessions -/

/-- What the host answers to requests, one after another, each with the fuel for its run. -/
def answers (h : Host) : List (Nat × Request) → List (Option Response)
  | [] => []
  | r :: rs => ((h.perform r.1 r.2).map Prod.fst) :: (h.next r).answers rs

/-- Twins answer all requests alike. -/
theorem Twin.answers (future : List (Nat × Request)) {P : Pairs} {h h' : Host}
    (ht : Host.Twin Eq P h h') :
    ∃ Q, P.Le Q ∧
      List.Forall₂ (Option.Rel (Response.Twin Eq Q)) (h.answers future) (h'.answers future) ∧
      Host.Twin Eq Q (future.foldl Host.next h) (future.foldl Host.next h') := by
  induction future generalizing P h h' with
  | nil => exact ⟨P, .refl P, .nil, ht⟩
  | cons r rs ih =>
    obtain ⟨Q, hPQ, hr, hnext⟩ := ht.next (r := r) fun source _ => (sources_eq _).spoken source
    obtain ⟨S, hQS, hrest, hend⟩ := ih hnext
    exact ⟨S, hPQ.trans hQS, .cons (rel_imp hr fun _ _ => .mono hQS) hrest, hend⟩

/-- The only pair is that of two global scopes. -/
def globalPairs (id id' : ScopeId) : Pairs where
  scopes := ⟨fun a a' => a = id ∧ a' = id', by rintro a a' b b' ⟨rfl, rfl⟩ ⟨rfl, rfl⟩; simp⟩
  objects := .empty
  made := .empty

/-- What a machine holds is out of reach if it runs in its global scope and nothing is bound
there: it is the twin of one that holds nothing at all. -/
theorem twin_bare (R : Place → Place → Prop) {m : Machine} (hg : m.globals < m.scopes.size)
    (hroot : m.scopes[m.globals]?.bind Scope.parent = none) {allow : Bool}
    (hallow : m.allow? m.globals = some allow) (hown : ∀ n, m.scopes.own? m.globals n = none)
    (hcurrent : m.current = m.globals) :
    Machine.Twin R (globalPairs m.globals 0) m
      ⟨Scopes.root allow, #[], 0, 0, 0, m.sink, m.clock⟩ := by
  refine ⟨⟨?_, ?_, ?_, ?_⟩, fun _ _ h => h.elim, fun h => h.elim, fun _ _ h => h.elim,
    ⟨rfl, rfl⟩, hroot, ⟨hcurrent, rfl⟩, rfl, rfl⟩
  · rintro a a' ⟨rfl, rfl⟩
    exact ⟨hg, Nat.zero_lt_one⟩
  · rintro a a' ⟨rfl, rfl⟩
    rw [hroot]
    exact .none
  · rintro a a' ⟨rfl, rfl⟩
    exact hallow.symm
  · rintro a a' ⟨rfl, rfl⟩ n
    rw [hown]
    exact .none

/-- A host that has been cleared is the twin of a fresh one. -/
theorem clear_twin {h : Host} (hg : h.machine.globals < h.machine.scopes.size)
    (hroot : h.machine.scopes[h.machine.globals]?.bind Scope.parent = none)
    (hallow : h.machine.allow? h.machine.globals = some h.config.allowRedefinition) :
    Host.Twin Eq (globalPairs h.machine.globals 0) h.clear
      (start h.config h.machine.sink h.machine.clock) := by
  let cleared : Machine := { h.machine with
    scopes := h.machine.scopes.clear h.machine.globals, current := h.machine.globals }
  have hbare := twin_bare Eq (m := cleared) (by simpa [cleared, Scopes.clear] using hg)
    ((Scopes.parent_clear ..).trans hroot) ((Scopes.allow_clear ..).trans hallow)
    (fun n => (Scopes.own?_clear ..).trans (if_pos rfl)) rfl
  exact ⟨rfl, hbare.insert hbare.globals "clock" (.plain trivial)⟩

/-- A fresh host is its own twin. -/
theorem start_twin (R : Place → Place → Prop) (config : Config) (sink : Sink) (clock : Clock) :
    Host.Twin R (globalPairs 0 0) (start config sink clock) (start config sink clock) := by
  have hbare := twin_bare R
    (m := ⟨Scopes.root config.allowRedefinition, #[], 0, 0, 0, sink, clock⟩) Nat.zero_lt_one rfl rfl
    (fun _ => rfl) rfl
  exact ⟨rfl, hbare.insert hbare.globals "clock" (.plain trivial)⟩

/-- **Clearing forgets everything.** Whatever a host was asked before, once it is cleared it
answers all further requests as a fresh host does that has its configuration, its sink and its
clock: with the same reports and faults, and with values that are the same up to identities.
The two have then printed the same. -/
theorem clear_forgets (config : Config) (sink : Sink) (clock : Clock)
    (past future : List (Nat × Request)) :
    let h := after config sink clock past
    let fresh := start h.config h.machine.sink h.machine.clock
    ∃ P : Pairs,
      List.Forall₂ (Option.Rel (Response.Twin Eq P)) (h.clear.answers future)
        (fresh.answers future) ∧
      Host.Twin Eq P (future.foldl Host.next h.clear) (future.foldl Host.next fresh) ∧
      (future.foldl Host.next fresh).machine.sink =
        (future.foldl Host.next h.clear).machine.sink := by
  intro h fresh
  have hs := Session.sound_after config sink clock past
  have hroot := (atRest_after config sink clock past).good.root
  have hh : (Session.after config sink clock past).host = h := Session.after_host ..
  have htwin : Host.Twin Eq (globalPairs h.machine.globals 0) h.clear fresh :=
    clear_twin (hh ▸ hs.fine.globals) (hh ▸ hroot) (hh ▸ hs.allow)
  obtain ⟨P, -, hanswers, hend⟩ := htwin.answers future
  exact ⟨P, hanswers, hend, hend.machine.sink⟩

end Host

end LoxLang
