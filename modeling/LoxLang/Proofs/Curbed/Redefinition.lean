import LoxLang.Proofs.Curbed.Run
import LoxLang.Proofs.Twins.Resolving
import LoxLang.Proofs.Twins.Session

/-!
# The rule on redefinition

A strict host refuses what is declared again, a free one lets it pass. `Host.strict_answers` says
that this is all there is between them: as long as the strict host has refused nothing for that
reason, both answer the same, print the same and hold the same.
-/

namespace LoxLang

open Scoping
open Watching (Erases Curbs)

/-! ## Refusals -/

/-- The problem is a global name that is declared again. -/
def Problem.redeclares : Problem → Bool
  | .scope p => p.value.redeclares
  | _ => false

/-- The fault is a name that is defined again. -/
def Fault.redefines (f : Fault) : Bool :=
  match f.value with
  | .redefinition _ => true
  | _ => false

namespace Response

/-- The host has refused a name that is declared or defined again. -/
def redeclares (r : Response) : Bool :=
  r.problems.any Problem.redeclares || r.fault?.any Fault.redefines

end Response

/-! ## Before a run -/

theorem forall₂_eq {α : Type} {P : α → α → Prop} (hP : ∀ a b, P a b → b = a) {l l' : List α}
    (h : List.Forall₂ P l l') : l' = l := by
  induction h with
  | nil => rfl
  | cons ha _ ih => rw [hP _ _ ha, ih]

theorem ScopeProblem.Elsewhere.eq {q q' : ScopeProblem} (h : ScopeProblem.Elsewhere Eq q q') :
    q' = q := by
  cases h with
  | plain _ => rfl
  | declaredAt name hp => rw [hp]

/-- Without reports of global names that are declared again a free walk gives the same. -/
theorem Resolved.Elsewhere.eq {α : Type} {P : α → α → Prop} {r r' : Resolved α}
    (h : r.Elsewhere Eq true P r') (hP : ∀ a b, P a b → b = a)
    (hq : ∀ q ∈ r.problems, q.value.redeclares = false) : r' = r := by
  have hall : r.problems.filter (·.value.reported true) = r.problems :=
    List.filter_eq_self.2 fun q hm => by simp [ScopeProblem.reported, hq q hm]
  have hproblems := forall₂_eq (fun a b hab => congrArg₂ Placed.mk hab.place.symm hab.value.eq)
    (hall ▸ h.problems)
  cases r
  cases r'
  exact congr (congrArg₂ Resolved.mk (hP _ _ h.tree) hproblems)
    (forall₂_eq (fun _ _ h => h.eq) h.unread)

namespace Config

/-- The configuration that lets global names be declared and defined again. -/
def freed (c : Config) : Config := { c with allowRedefinition := true }

variable (c : Config)

@[simp] theorem freed_allowRedefinition : c.freed.allowRedefinition = true := rfl

@[simp] theorem freed_dryRun : c.freed.dryRun = c.dryRun := rfl

@[simp] theorem freed_file : c.freed.file = c.file := rfl

end Config

/-- A program that declares no global name again is read and resolved alike. -/
theorem Checked.ofSource_freed {config : Config} {source : String}
    (h : ∀ p ∈ (Checked.ofSource config source).problems, p.redeclares = false) :
    Checked.ofSource config.freed source = Checked.ofSource config source := by
  unfold Checked.ofSource at h ⊢
  rw [Config.freed_file]
  generalize Token.scan config.file source = scanned at h ⊢
  obtain ⟨tokens, lexical⟩ := scanned
  dsimp only at h ⊢
  generalize Program.ofTokens tokens = program at h ⊢
  have hr := Resolved.program_elsewhere (R := Eq) (fun _ _ _ _ hp hq => by rw [hp, hq])
    (Stmt.allElsewhere_self (fun _ => rfl) program.statements) true config.allowRedefinition
  split
  · rfl
  · next hlost =>
    rw [if_neg hlost] at h
    have he : Resolved.program true program.statements =
        Resolved.program config.allowRedefinition program.statements := by
      refine hr.eq (fun _ _ => Stmt.AllElsewhere.eq) fun q hq => ?_
      generalize Resolved.program config.allowRedefinition program.statements = r at h hq
      cases hp : r.problems with
      | nil => simp [hp] at hq
      | cons p ps =>
        simp only [hp] at h hq
        exact h _ (List.mem_append_right _ (List.mem_map_of_mem hq))
    rw [Config.freed_allowRedefinition, he]

/-- What a strict host may run declares no global name again. -/
theorem Checked.not_redeclares {config : Config} {source : String} {statements : List Stmt}
    (h : (Checked.ofSource config source).statements = some statements) :
    ∀ p ∈ (Checked.ofSource config source).problems, p.redeclares = false := by
  unfold Checked.ofSource at h ⊢
  dsimp only at h ⊢
  split at h
  · cases h
  · next hlost =>
    rw [if_neg hlost]
    split at h
    · intro p hp
      simp only [List.mem_append, List.mem_map] at hp
      rcases hp with ⟨q, -, rfl⟩ | ⟨q, -, rfl⟩ <;> rfl
    · cases h

/-- An expression is read and resolved alike, unless it is refused. -/
theorem Expr.ofSource_freed {config : Config} {source : String}
    (h : ∀ ps, Expr.ofSource config source = .error ps → ∀ p ∈ ps, p.redeclares = false) :
    Expr.ofSource config.freed source = Expr.ofSource config source := by
  unfold Expr.ofSource at h ⊢
  rw [Config.freed_file]
  generalize Token.scan config.file source = scanned at h ⊢
  obtain ⟨tokens, lexical⟩ := scanned
  cases lexical with
  | cons _ _ => rfl
  | nil =>
    dsimp only at h ⊢
    cases hread : Expr.ofTokens tokens with
    | error m => rfl
    | ok e =>
      simp only [hread] at h ⊢
      have hr := Resolved.expression_elsewhere (R := Eq) (fun _ _ _ _ hp hq => by rw [hp, hq])
        (Expr.elsewhere_self (fun _ => rfl) e) true config.allowRedefinition
      have he : Resolved.expression true e = Resolved.expression config.allowRedefinition e := by
        refine hr.eq (fun _ _ => Expr.Elsewhere.eq) fun q hq => ?_
        generalize Resolved.expression config.allowRedefinition e = r at h hq
        cases hp : r.problems with
        | nil => simp [hp] at hq
        | cons p ps =>
          rw [hp] at hq
          simp only [hp] at h
          exact h _ rfl _ (List.mem_map_of_mem hq)
      rw [Config.freed_allowRedefinition, he]

/-! ## Runs -/

/-- A strict run is stopped by a redefinition and by nothing else. -/
def strictly : Curb where
  allows b c := c = true → b = true
  sinks s s' := s' = s
  stops _ f _ := f.redefines = true
  allows_false h := h
  free h := h rfl
  stricter _ _ _ _ := rfl
  print {t s v place text} hs _ _ := by
    subst hs
    exact .inl ⟨rfl, rfl⟩
  later _ h := h

/-! ## Hosts -/

/-- The second host is the first one freed of the rule on redefinition. -/
structure Host.Freed (h h' : Host) : Prop where
  config : h'.config = h.config.freed
  machine : h'.machine.Curbed strictly h.machine

/-- The strict host refuses, or both give one answer and are still alike. -/
def Host.AnswersFreed (o o' : Option (Response × Host)) : Prop :=
  (∃ r h, o = some (r, h) ∧ r.redeclares = true) ∨
    Option.Rel (fun p p' => p'.1 = p.1 ∧ Freed p.2 p'.2) o o'

/-- A problem that the strict host reports is one that it refuses the source for. -/
theorem Host.answersFreed_of_problem {r : Response} {h : Host} {o : Option (Response × Host)}
    (hr : ¬ ∀ p ∈ r.problems, p.redeclares = false) : AnswersFreed (some (r, h)) o := by
  refine .inl ⟨r, h, rfl, ?_⟩
  simp only [not_forall, Bool.not_eq_false] at hr
  obtain ⟨p, hp, hq⟩ := hr
  rw [Response.redeclares, List.any_eq_true.2 ⟨p, hp, hq⟩, Bool.true_or]

namespace Session

open Host (AnswersFreed answersFreed_of_problem)

variable {s s' : Session} (hf : s.host.Freed s'.host)
include hf

theorem freed_still (r : Response) : AnswersFreed (answer (some r, s)) (answer (some r, s')) :=
  .inr (.some ⟨rfl, hf⟩)

/-- The two runs of one step are answered alike, or the strict one is refused. -/
theorem freed_watch {α : Type} {x x' : Watching α} {y : Run α} (he : Erases x y) (he' : Erases x' y)
    (hc : Curbs strictly s'.watched x' y) (reply : Except Fault α → Response)
    (hreply : ∀ f, (reply (.error f)).fault? = some f) :
    AnswersFreed (answer (s.watch x reply)) (answer (s'.watch x' reply)) := by
  have ho := hc.outcome? he' hf.machine
  have hconfig : s'.config = s.config.freed := hf.config
  rw [answer_watch _ he, answer_watch _ he']
  rw [show s.host.machine = s.watched.machine from rfl] at ho
  generalize y.outcome? s.watched.machine = o at ho ⊢
  generalize y.outcome? s'.watched.machine = o' at ho ⊢
  rcases ho with ⟨f, m, ho, hs⟩ | ho
  · refine .inl ⟨reply (.error f), ⟨s.config, m⟩, congrArg (Option.map _) ho, ?_⟩
    rw [Response.redeclares, hreply, Option.any_some, show f.redefines = true from hs, Bool.or_true]
  · cases ho with
    | none => exact .inr .none
    | some hp => exact .inr (.some ⟨congrArg reply hp.1.symm, hconfig, hp.2⟩)

theorem freed_evaluateWith {x x' : Watching Value} {y : Run Value} (he : Erases x y)
    (he' : Erases x' y) (hc : Curbs strictly s'.watched x' y) :
    AnswersFreed (answer (s.evaluateWith x)) (answer (s'.evaluateWith x')) := by
  have hconfig : s'.config = s.config.freed := hf.config
  unfold evaluateWith
  rw [hconfig, Config.freed_dryRun]
  by_cases hd : s.config.dryRun = true
  · rw [if_pos hd, if_pos hd]
    exact freed_still hf _
  · rw [if_neg hd, if_neg hd]
    exact freed_watch hf he he' hc .ofValue fun _ => rfl

theorem freed_run (fuel : Nat) (source : String) :
    AnswersFreed (answer (s.run fuel source)) (answer (s'.run fuel source)) := by
  have hconfig : s'.config = s.config.freed := hf.config
  unfold run
  rw [hconfig]
  dsimp only
  by_cases hq : ∀ p ∈ (Checked.ofSource s.config source).problems, p.redeclares = false
  · rw [Checked.ofSource_freed hq]
    cases (Checked.ofSource s.config source).statements with
    | none => exact freed_still hf _
    | some ss =>
      dsimp only
      rw [Config.freed_dryRun]
      by_cases hd : s.config.dryRun = true
      · rw [if_pos hd, if_pos hd]
        exact freed_still hf _
      · rw [if_neg hd, if_neg hd]
        exact freed_watch hf (.forEach (Watching.erases_exec fuel) _ ss)
          (.forEach (Watching.erases_exec fuel) _ ss)
          (Watching.curbs_statements strictly fuel _ ss _) (.ofRun _) fun _ => rfl
  · cases hs : (Checked.ofSource s.config source).statements with
    | some ss => exact absurd (Checked.not_redeclares hs) hq
    | none => exact answersFreed_of_problem hq

theorem freed_evaluate (fuel : Nat) (source : String) :
    AnswersFreed (answer (s.respond fuel (.evaluate source)))
      (answer (s'.respond fuel (.evaluate source))) := by
  have hconfig : s'.config = s.config.freed := hf.config
  unfold respond
  dsimp only
  rw [hconfig]
  by_cases hq : ∀ p ∈ (Checked.ofSource s.config source).problems, p.redeclares = false
  · rw [Checked.ofSource_freed hq]
    cases (Checked.ofSource s.config source).statements with
    | none => exact freed_still hf _
    | some ss =>
      cases (Checked.ofSource s.config source).problems with
      | cons p ps => exact freed_still hf _
      | nil =>
        exact freed_evaluateWith hf (erases_programValue fuel _ ss) (erases_programValue fuel _ ss)
          (Watching.curbs_programValue strictly fuel _ ss _)
  · cases hs : (Checked.ofSource s.config source).statements with
    | some ss => exact absurd (Checked.not_redeclares hs) hq
    | none => exact answersFreed_of_problem hq

theorem freed_evaluateExpression (fuel : Nat) (source : String) :
    AnswersFreed (answer (s.respond fuel (.evaluateExpression source)))
      (answer (s'.respond fuel (.evaluateExpression source))) := by
  have hconfig : s'.config = s.config.freed := hf.config
  unfold respond
  dsimp only
  rw [hconfig]
  by_cases hq : ∀ ps, Expr.ofSource s.config source = .error ps → ∀ p ∈ ps, p.redeclares = false
  · rw [Expr.ofSource_freed hq]
    cases Expr.ofSource s.config source with
    | error ps => exact freed_still hf _
    | ok e =>
      exact freed_evaluateWith hf (Watching.erases_eval fuel _ e) (Watching.erases_eval fuel _ e)
        ((Watching.curbs_fuel strictly fuel).1 _ e _)
  · cases he : Expr.ofSource s.config source with
    | ok e => exact absurd (fun ps hps => by rw [he] at hps; cases hps) hq
    | error ps =>
      refine answersFreed_of_problem fun hps => hq fun ps' hps' => ?_
      rw [he] at hps'
      cases hps'
      exact hps

end Session

namespace Host

variable {h h' : Host}

theorem Freed.clear (hf : Freed h h') : Freed h.clear h'.clear := by
  refine ⟨hf.config, ?_⟩
  have hm := hf.machine
  have hcleared : Machine.Curbed strictly
      { h'.machine with
        scopes := h'.machine.scopes.clear h'.machine.globals, current := h'.machine.globals }
      { h.machine with
        scopes := h.machine.scopes.clear h.machine.globals, current := h.machine.globals } := by
    refine { hm with scopes := fun id => ?_, current := hm.globals }
    have hi := hm.scopes id
    rw [hm.globals]
    simp only [Scopes.clear, Array.getElem?_modify]
    split
    · generalize h'.machine.scopes[id]? = o at hi ⊢
      generalize h.machine.scopes[id]? = o' at hi ⊢
      cases hi with
      | none => exact .none
      | some hs => exact .some { hs with bindings := rfl }
    · exact hi
  have hend := hcleared.insert h'.machine.globals "clock" (.native .clock)
  unfold Host.clear Machine.clearGlobals Machine.withNatives
  dsimp only
  rwa [hm.globals] at hend ⊢

/-- A request that leaves the rule as it is is answered alike, or refused by the strict host. -/
theorem Freed.perform (hf : Freed h h') (fuel : Nat) {request : Request}
    (hr : ∀ allow, request ≠ .allowRedefinition allow) :
    AnswersFreed (h.perform fuel request) (h'.perform fuel request) := by
  let s : Session := ⟨h.config, ⟨h.machine, Record.start⟩, 0⟩
  let s' : Session := ⟨h'.config, ⟨h'.machine, Record.start⟩, 0⟩
  have hs : s.host.Freed s'.host := hf
  cases request with
  | run source =>
    rw [show h = s.host from rfl, show h' = s'.host from rfl, Session.answer_respond,
      Session.answer_respond]
    exact Session.freed_run hs fuel source
  | evaluate source =>
    rw [show h = s.host from rfl, show h' = s'.host from rfl, Session.answer_respond,
      Session.answer_respond]
    exact Session.freed_evaluate hs fuel source
  | evaluateExpression source =>
    rw [show h = s.host from rfl, show h' = s'.host from rfl, Session.answer_respond,
      Session.answer_respond]
    exact Session.freed_evaluateExpression hs fuel source
  | clear => exact .inr (.some ⟨rfl, hf.clear⟩)
  | allowRedefinition allow => exact absurd rfl (hr allow)

/-- A host that never refuses a name answers as one does that is freed of the rule. -/
theorem Freed.answers (past : List (Nat × Request)) (hf : Freed h h')
    (hr : ∀ r ∈ past, ∀ allow, r.2 ≠ .allowRedefinition allow)
    (hq : ∀ a, some a ∈ h.answers past → a.redeclares = false) :
    h'.answers past = h.answers past ∧ Freed (past.foldl next h) (past.foldl next h') := by
  induction past generalizing h h' with
  | nil => exact ⟨rfl, hf⟩
  | cons r past ih =>
    obtain ⟨hr, hpast⟩ := List.forall_mem_cons.1 hr
    have hfirst (a : Response) (ha : (h.perform r.1 r.2).map Prod.fst = some a) :
        a.redeclares = false := hq a (ha ▸ List.mem_cons_self)
    have hrest (a : Response) (ha : some a ∈ (h.next r).answers past) : a.redeclares = false :=
      hq a (List.mem_cons_of_mem _ ha)
    have hstep : (h'.perform r.1 r.2).map Prod.fst = (h.perform r.1 r.2).map Prod.fst ∧
        Freed (h.next r) (h'.next r) := by
      have hp := hf.perform r.1 hr
      unfold next
      generalize h.perform r.1 r.2 = o at hp hfirst ⊢
      generalize h'.perform r.1 r.2 = o' at hp ⊢
      rcases hp with ⟨a, k, rfl, ha⟩ | hp
      · exact absurd ha (by simp [hfirst a rfl])
      · cases hp with
        | none => exact ⟨rfl, hf⟩
        | some hp => exact ⟨congrArg some hp.1, hp.2⟩
    obtain ⟨hsame, hend⟩ := ih hstep.2 hpast hrest
    exact ⟨congrArg₂ List.cons hstep.1 hsame, hend⟩

theorem freed_start (config : Config) (sink : Sink) (clock : Clock) :
    Freed (start config sink clock) (start config.freed sink clock) := by
  have hroot : Machine.Curbed strictly
      ⟨Scopes.root true, #[], 0, 0, 0, sink, clock⟩
      ⟨Scopes.root config.allowRedefinition, #[], 0, 0, 0, sink, clock⟩ := by
    refine ⟨fun id => ?_, rfl, rfl, rfl, rfl, rfl, rfl⟩
    cases id with
    | zero => exact .some ⟨rfl, rfl, fun _ => rfl⟩
    | succ id => exact .none
  exact ⟨rfl, hroot.insert 0 "clock" _⟩

/-- **The rule on redefinition is conservative.** Put the same requests to two fresh hosts of which
one refuses to declare and define global names again and the other does not. As long as the strict
host refuses nothing for that reason, both give the same answers: the same problems, the same
unread names, the same faults, the same values. They have then printed the same bytes, the global
names are bound to the same values, and the fields of all objects are the same. -/
theorem strict_answers (config : Config) (sink : Sink) (clock : Clock) (past : List (Nat × Request))
    (hr : ∀ r ∈ past, ∀ allow, r.2 ≠ .allowRedefinition allow) :
    let strict := start { config with allowRedefinition := false } sink clock
    let free := start { config with allowRedefinition := true } sink clock
    (∀ a, some a ∈ strict.answers past → a.redeclares = false) →
      let m := (past.foldl next strict).machine
      let m' := (past.foldl next free).machine
      free.answers past = strict.answers past ∧ m'.sink = m.sink ∧
        m'.globals = m.globals ∧ (∀ x, m'.own? m'.globals x = m.own? m.globals x) ∧
        m'.objects = m.objects := by
  intro strict free hq m m'
  obtain ⟨hanswers, hend⟩ :=
    (freed_start { config with allowRedefinition := false } sink clock).answers past hr hq
  have hm : m'.Curbed strictly m := hend.machine
  refine ⟨hanswers, hm.sink.symm, hm.globals.symm, fun x => ?_, hm.objects.symm⟩
  rw [Machine.own?, Machine.own?, hm.globals, hm.scopes.own?]

/-- A function that a later source calls prints the same on both hosts. -/
theorem calledLater_answers :
    let config : Config := ⟨false, false, "main.lox"⟩
    let past : List (Nat × Request) :=
      [(9, .run "fun f(x) \x7b print x; \x7d f(1);"), (9, .run "f(2);")]
    let strict := start { config with allowRedefinition := false } (.empty none false) (.ticking 0)
    let free := start { config with allowRedefinition := true } (.empty none false) (.ticking 0)
    (past.foldl next free).machine.sink = (past.foldl next strict).machine.sink ∧
      (past.foldl next strict).machine.sink.bytes.toList = "1\n2\n".toUTF8.toList := by
  intro config past strict free
  have hq : (strict.answers past).all (·.all fun a => !a.redeclares) = true := by decide +kernel
  have hsame := strict_answers config (.empty none false) (.ticking 0) past (by simp [past]) fun a ha => by
    simpa using List.all_eq_true.1 hq _ ha
  refine ⟨?_, by decide +kernel⟩
  -- left transparent, the requests would be run to compare the two sides
  clear_value past
  exact hsame.2.1

/-- The strict host alone refuses a second declaration. -/
example :
    let past : List (Nat × Request) := [(9, .run "var a;"), (9, .run "var a;")]
    ((start ⟨false, false, "main.lox"⟩ (.empty none false) (.ticking 0)).answers past).map
        (·.map Response.redeclares) = [some false, some true] ∧
      ((start ⟨true, false, "main.lox"⟩ (.empty none false) (.ticking 0)).answers past).map
        (·.map Response.redeclares) = [some false, some false] := by
  decide +kernel

end Host

end LoxLang
