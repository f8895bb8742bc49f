import LoxLang.Proofs.Machine.Erases

/-!
# Sessions

A session is one host that answers requests, one after another. A watched session does
the same with its runs watched; `Session.attempt_host` says that its answers and its
machine are those of the host.
-/

namespace LoxLang

open Scoping

/-- What a host can be asked to do. -/
inductive Request where
  | run (source : String)
  | evaluate (source : String)
  | evaluateExpression (source : String)
  | clear
  | allowRedefinition (allow : Bool)

inductive Response where
  | ran (report : Report)
  | evaluated (result : Evaluation)
  | done

namespace Response

/-- The fault that the run for the request ended in. -/
def fault? : Response → Option Fault
  | ran report => report.fault
  | evaluated (.faulted f) => some f
  | evaluated _ | done => none

/-- The problems that the answer reports, which kept the host from a run. -/
def problems : Response → List Problem
  | ran report => report.problems
  | evaluated (.rejected problems) => problems
  | evaluated _ | done => []

def unread : Response → List Name
  | ran report => report.unread
  | evaluated _ | done => []

def ofRun (report : Report) : Except Fault Unit → Response
  | .ok () => .ran report
  | .error f => .ran { report with fault := some f }

def ofValue : Except Fault Value → Response
  | .ok v => .evaluated (.value v)
  | .error f => .evaluated (.faulted f)

end Response

namespace Host

/-- Answers a request, unless there is too little fuel. -/
def perform (h : Host) (fuel : Nat) : Request → Option (Response × Host)
  | .run source => (h.run fuel source).map fun (report, h) => (.ran report, h)
  | .evaluate source => (h.evaluate fuel source).map fun (result, h) => (.evaluated result, h)
  | .evaluateExpression source =>
    (h.evaluateExpression fuel source).map fun (result, h) => (.evaluated result, h)
  | .clear => some (.done, h.clear)
  | .allowRedefinition allow => some (.done, h.setAllowRedefinition allow)

/-- The host after one more request; one that it could not finish changes nothing. -/
def next (h : Host) (request : Nat × Request) : Host :=
  match h.perform request.1 request.2 with
  | some (_, h) => h
  | none => h

/-- The host after requests, each with the fuel for its run. -/
def after (config : Config) (sink : Sink) (clock : Clock) (past : List (Nat × Request)) : Host :=
  past.foldl next (start config sink clock)

end Host

/-- Nothing has happened yet. -/
def Record.start : Record :=
  ⟨fun _ => none, fun _ => ⟨⟨0, Walk.start false, [], []⟩, .outside⟩, []⟩

/-- A host whose runs are watched. -/
structure Session where
  config : Config
  watched : Watched
  /-- How many requests there were. -/
  count : Nat

namespace Session

def host (s : Session) : Host := ⟨s.config, s.watched.machine⟩

/-- What the runs for the latest request came to, the latest first. -/
def visits (s : Session) : List Visit := s.watched.record.visits

def start (config : Config) (sink : Sink) (clock : Clock) : Session :=
  ⟨config, ⟨(Host.start config sink clock).machine, Record.start⟩, 0⟩

/-- The session as the next request comes in. -/
def fresh (s : Session) : Session :=
  { s with
    watched := { s.watched with record := { s.watched.record with visits := [] } }
    count := s.count + 1 }

def withMachine (s : Session) (m : Machine) : Session :=
  { s with watched := { s.watched with machine := m } }

/-- Where a source starts. -/
def site (s : Session) : Site := ⟨s.count, Walk.start s.config.allowRedefinition, [], []⟩

/-- Watches a step that nothing is left to catch. -/
def watch {α : Type} (s : Session) (x : Watching α) (reply : Except Fault α → Response) :
    Option Response × Session :=
  match x s.watched with
  | .ok a t => (some (reply (.ok a)), { s with watched := t })
  | .error i t => (i.fault?.map fun f => reply (.error f), { s with watched := t })

def programValue (fuel : Nat) (σ : Site) : List Stmt → Watching Value
  | [.expression e] => Watching.eval fuel σ e
  | statements => do
    Watching.forEach (Watching.exec fuel) σ statements
    return .nil

def run (s : Session) (fuel : Nat) (source : String) : Option Response × Session :=
  let checked := Checked.ofSource s.config source
  let report := ⟨checked.problems, checked.unread, none⟩
  match checked.statements with
  | none => (some (.ran report), s)
  | some statements =>
    if s.config.dryRun then (some (.ran report), s)
    else s.watch (Watching.forEach (Watching.exec fuel) s.site statements) (.ofRun report)

/-- The session after an evaluation, which only checks its source if the host does. -/
def evaluateWith (s : Session) (x : Watching Value) : Option Response × Session :=
  if s.config.dryRun then (some (.evaluated (.value .nil)), s) else s.watch x .ofValue

/-- The session after a request, with the answer if there was fuel enough for it. -/
def respond (s : Session) (fuel : Nat) : Request → Option Response × Session
  | .run source => s.run fuel source
  | .evaluate source =>
    let checked := Checked.ofSource s.config source
    match checked.statements, checked.problems with
    | some statements, [] => s.evaluateWith (programValue fuel s.site statements)
    | _, problems => (some (.evaluated (.rejected problems)), s)
  | .evaluateExpression source =>
    match Expr.ofSource s.config source with
    | .error problems => (some (.evaluated (.rejected problems)), s)
    | .ok e => s.evaluateWith (Watching.eval fuel s.site e)
  | .clear => (some .done, s.withMachine s.watched.machine.clearGlobals)
  | .allowRedefinition allow =>
    (some .done, { s.withMachine (s.watched.machine.setAllowRedefinition allow) with
      config := { s.config with allowRedefinition := allow } })

/-- `respond`, with the visits of the request alone. -/
def attempt (s : Session) (fuel : Nat) (request : Request) : Option Response × Session :=
  s.fresh.respond fuel request

/-- The session after one more request; one that it could not finish changes nothing. -/
def next (s : Session) (request : Nat × Request) : Session :=
  match s.attempt request.1 request.2 with
  | (some _, s) => s
  | (none, _) => s

/-- The session after requests, each with the fuel for its run. -/
def after (config : Config) (sink : Sink) (clock : Clock) (past : List (Nat × Request)) : Session :=
  past.foldl next (start config sink clock)

/-! ## The host in a session -/

open Watching (Erases erases_eval erases_exec)

/-- The answer of a session and its host together, as a host gives them. -/
def answer (p : Option Response × Session) : Option (Response × Host) := p.1.map fun r => (r, p.2.host)

/-- A watched answer is the answer, with its machine. -/
theorem answer_watch {α : Type} (s : Session) {x : Watching α} {y : Run α} (h : Erases x y)
    (reply : Except Fault α → Response) :
    answer (s.watch x reply) =
      (y.outcome? s.watched.machine).map fun (result, m) => (reply result, ⟨s.config, m⟩) := by
  have hs := h s.watched
  unfold watch Run.outcome?
  rw [← hs]
  cases x s.watched with
  | ok a t => rfl
  | error i t => cases i <;> rfl

theorem erases_programValue (fuel : Nat) (σ : Site) (statements : List Stmt) :
    Erases (programValue fuel σ statements) (Host.programValue fuel statements) := by
  by_cases h : ∃ e, statements = [.expression e]
  · obtain ⟨e, rfl⟩ := h
    exact erases_eval fuel σ e
  · have hw : programValue fuel σ statements =
        (do Watching.forEach (Watching.exec fuel) σ statements; return .nil) :=
      programValue.eq_2 _ _ _ fun e he => h ⟨e, he⟩
    have hr : Host.programValue fuel statements = (do execAll fuel statements; return .nil) :=
      Host.programValue.eq_2 _ _ fun e he => h ⟨e, he⟩
    rw [hw, hr]
    exact (Erases.forEach (erases_exec fuel) σ statements).bind fun _ => Watching.erases_pure _

theorem answer_run (s : Session) (fuel : Nat) (source : String) :
    (s.host.run fuel source).map (fun (report, h) => (Response.ran report, h)) =
      answer (s.run fuel source) := by
  unfold Host.run run
  rw [show s.host.config = s.config from rfl]
  dsimp only
  cases (Checked.ofSource s.config source).statements with
  | none => rfl
  | some statements =>
    dsimp only
    by_cases hd : s.config.dryRun = true
    · rw [if_pos hd, if_pos hd]
      rfl
    · rw [if_neg hd, if_neg hd, answer_watch s (Erases.forEach (erases_exec fuel) s.site statements),
        Option.map_map]
      refine congrArg (Option.map · _) (funext fun ⟨result, m⟩ => ?_)
      cases result <;> rfl

theorem answer_evaluateWith (s : Session) {x : Watching Value} {y : Run Value} (h : Erases x y) :
    (s.host.evaluateWith y).map (fun (result, h) => (Response.evaluated result, h)) =
      answer (s.evaluateWith x) := by
  unfold Host.evaluateWith evaluateWith
  rw [show s.host.config = s.config from rfl]
  dsimp only
  by_cases hd : s.config.dryRun = true
  · rw [if_pos hd, if_pos hd]
    rfl
  · rw [if_neg hd, if_neg hd, answer_watch s h, Option.map_map]
    refine congrArg (Option.map · _) (funext fun ⟨result, m⟩ => ?_)
    cases result <;> rfl

theorem answer_respond (s : Session) (fuel : Nat) (request : Request) :
    s.host.perform fuel request = answer (s.respond fuel request) := by
  cases request with
  | run source => exact answer_run s fuel source
  | evaluate source =>
    unfold Host.perform Host.evaluate respond
    rw [show s.host.config = s.config from rfl]
    dsimp only
    cases (Checked.ofSource s.config source).statements with
    | none => rfl
    | some statements =>
      cases (Checked.ofSource s.config source).problems with
      | nil => exact answer_evaluateWith s (erases_programValue fuel s.site statements)
      | cons p ps => rfl
  | evaluateExpression source =>
    unfold Host.perform Host.evaluateExpression respond
    rw [show s.host.config = s.config from rfl]
    dsimp only
    cases Expr.ofSource s.config source with
    | error problems => rfl
    | ok e => exact answer_evaluateWith s (erases_eval fuel s.site e)
  | clear => rfl
  | allowRedefinition allow => rfl

/-- A watched session answers what its host does, and has its host go on as it does. -/
theorem attempt_host (s : Session) (fuel : Nat) (request : Request) :
    s.host.perform fuel request = answer (s.attempt fuel request) :=
  answer_respond s.fresh fuel request

theorem next_host (s : Session) (request : Nat × Request) :
    (s.next request).host = s.host.next request := by
  unfold next Host.next
  rw [attempt_host]
  rcases s.attempt request.1 request.2 with ⟨_ | r, s'⟩ <;> rfl

/-- The host of a session is the host that the requests lead to. -/
theorem after_host (config : Config) (sink : Sink) (clock : Clock) (past : List (Nat × Request)) :
    (after config sink clock past).host = Host.after config sink clock past := by
  unfold after Host.after
  suffices h : ∀ s : Session, (past.foldl next s).host = past.foldl Host.next s.host from h _
  induction past with
  | nil => exact fun _ => rfl
  | cons request past ih =>
    intro s
    rw [List.foldl_cons, List.foldl_cons, ih, next_host]

end Session

end LoxLang
