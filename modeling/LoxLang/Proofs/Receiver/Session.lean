import LoxLang.Proofs.Receiver.Run
import LoxLang.Proofs.Session.Agreement

/-!
# `super` over sessions

What a session has made so far is accounted for by the visits of its requests, whatever
they were. So every use of `super` in it comes from a call of a method that was bound to
some object, and gives the method that the superclass has under the name, bound to that
object; the superclass is the one that the declaration of the class found.
-/

namespace LoxLang

open Scoping

/-! ## Journals -/

/-- A session, and what the runs for all its requests came to. -/
structure Chronicle where
  session : Session
  /-- The latest first. -/
  journal : List Visit

namespace Chronicle

def start (config : Config) (sink : Sink) (clock : Clock) : Chronicle :=
  ⟨Session.start config sink clock, []⟩

/-- The session after one more request; what one that it could not finish came to has no
consequences. -/
def next (h : Chronicle) (request : Nat × Request) : Chronicle :=
  match h.session.attempt request.1 request.2 with
  | (some _, s) => ⟨s, s.visits ++ h.journal⟩
  | (none, _) => h

/-- The session after requests, each with the fuel for its run. -/
def after (config : Config) (sink : Sink) (clock : Clock) (past : List (Nat × Request)) :
    Chronicle := past.foldl next (start config sink clock)

theorem next_session (h : Chronicle) (request : Nat × Request) :
    (h.next request).session = h.session.next request := by
  unfold next Session.next
  rcases h.session.attempt request.1 request.2 with ⟨_ | r, s⟩ <;> rfl

theorem after_session (config : Config) (sink : Sink) (clock : Clock)
    (past : List (Nat × Request)) :
    (after config sink clock past).session = Session.after config sink clock past := by
  unfold after Session.after
  suffices hs : ∀ h : Chronicle, (past.foldl next h).session = past.foldl Session.next h.session
    from hs _
  induction past with
  | nil => exact fun _ => rfl
  | cons request past ih =>
    intro h
    rw [List.foldl_cons, List.foldl_cons, ih, next_session]

end Chronicle

/-- What the requests of a session came to, the latest first. -/
def Session.journal (config : Config) (sink : Sink) (clock : Clock) (past : List (Nat × Request)) :
    List Visit := (Chronicle.after config sink clock past).journal

/-! ## Between requests -/

section
variable {past : List Visit} {t : Watched}

/-- The visits so far are past when the next request comes in. -/
theorem Account.fresh {s : Session} (ha : Account past s.watched) :
    Account (s.visits ++ past) s.fresh.watched := by
  have h : Extends s.watched s.fresh.watched := .of_eq rfl rfl (Nat.le_refl _) rfl rfl
  exact ⟨fun id o ho => (ha.scopes id o ho).mono h (List.Subset.refl _),
    fun id x v hx => (ha.values id x v hx).mono h (List.Subset.refl _),
    fun i x v hx => (ha.fields i x v hx).mono h (List.Subset.refl _), ha.makers, trivial⟩

/-- A machine that differs in its globals alone leaves the account in order. -/
theorem Account.globally {m : Machine} (ha : Account past t) (h : Globally t m) :
    Account past { t with machine := m } := by
  refine ha.extend (h.extends.later rfl) (fun _ _ h => .inl h)
    (fun _ _ _ hx => (h.own hx).imp_right .of_plain) ?_ (fun _ => .inl rfl) ha.told
  intro i x v hx
  rw [Machine.fieldsOf, h.objects] at hx
  exact .inl hx

theorem account_start (config : Config) (sink : Sink) (clock : Clock) :
    Account [] (Session.start config sink clock).watched where
  scopes _ _ ho := nomatch ho
  values _ _ _ hx := .of_plain (plain_start config sink clock hx)
  fields _ _ _ hx := nomatch hx
  makers _ := Site.Surrounded.makes ⟨.outside, rfl⟩
  told := trivial

end

/-! ## Requests -/

section
variable {past : List Visit} {s : Session}

theorem account_watch {α : Type} {x : Watching α} {post : α → Watched → Prop}
    {reply : Except Fault α → Response} (hx : Watching.Accounts past s.watched x post) :
    Account past (s.watch x reply).2.watched := by
  unfold Watching.Accounts at hx
  unfold Session.watch
  cases h : x s.watched with
  | ok a t =>
    rw [h] at hx
    exact hx.2.1
  | error i t =>
    rw [h] at hx
    exact hx.2.1

theorem surrounded_site (s : Session) : s.site.Surrounded := ⟨.outside, rfl⟩

theorem account_evaluateWith {x : Watching Value} {post : Value → Watched → Prop}
    (ha : Account past s.watched) (hx : Watching.Accounts past s.watched x post) :
    Account past (s.evaluateWith x).2.watched := by
  unfold Session.evaluateWith
  split
  · exact ha
  · exact account_watch hx

variable (hr : AtRest s.watched) (hc : Calm s.watched) (ha : Account past s.watched)
include hr hc ha

/-- The statements of a run keep the account. -/
theorem accounts_statements (fuel : Nat) {statements : List Stmt}
    (hs : Stmt.AllSettled statements (Walk.start s.config.allowRedefinition)) :
    Watching.Accounts past s.watched
      (Watching.forEach (Watching.exec fuel) s.site statements) fun _ _ => True :=
  .forEach (Watching.sound_fuel fuel).2.1 (Watching.accounts_fuel fuel).2.1 statements
    (stands_site hr hc) hs (fun _ _ _ _ _ ho => nomatch ho) (surrounded_site s) ha

theorem accounts_expression (fuel : Nat) {e : Expr}
    (hs : e.Settled (Walk.start s.config.allowRedefinition)) :
    Watching.Accounts past s.watched (Watching.eval fuel s.site e) fun v u =>
      SprungValue past u v :=
  (Watching.accounts_fuel fuel).1 _ _ e (stands_site hr hc) hs (surrounded_site s) ha

theorem accounts_programValue (fuel : Nat) {statements : List Stmt}
    (hs : Stmt.AllSettled statements (Walk.start s.config.allowRedefinition)) :
    Watching.Accounts past s.watched (Session.programValue fuel s.site statements)
      fun _ _ => True := by
  unfold Session.programValue
  split
  · exact (accounts_expression hr hc ha fuel hs.1).mono fun _ _ _ _ _ => trivial
  · exact (accounts_statements hr hc ha fuel hs).bind fun _ _ _ _ ha _ => .pure ha trivial

theorem account_respond (fuel : Nat) (request : Request) :
    Account past (s.respond fuel request).2.watched := by
  cases request with
  | run source =>
    unfold Session.respond Session.run
    dsimp only
    split
    · exact ha
    · rename_i statements hs
      split
      · exact ha
      · exact account_watch (accounts_statements hr hc ha fuel (Checked.settled hs))
  | evaluate source =>
    unfold Session.respond
    dsimp only
    split
    · rename_i statements hs _
      exact account_evaluateWith ha
        (accounts_programValue hr hc ha fuel (Checked.settled hs))
    · exact ha
  | evaluateExpression source =>
    unfold Session.respond
    dsimp only
    split
    · exact ha
    · rename_i e he
      exact account_evaluateWith ha
        (accounts_expression hr hc ha fuel (Expr.settled_ofSource he))
  | clear => exact ha.globally (globally_clear s.watched)
  | allowRedefinition allow => exact ha.globally (globally_allow s.watched allow)

end

/-- A session at rest, whose journal accounts for what it has made. -/
structure Chronicle.Kept (h : Chronicle) : Prop where
  rest : AtRest h.session.watched
  account : Account h.journal h.session.fresh.watched

/-- An attempt at a request keeps the account of the whole chronicle. -/
theorem Chronicle.Kept.attempt {h : Chronicle} (hk : h.Kept) (fuel : Nat) (request : Request) :
    Account h.journal (h.session.attempt fuel request).2.watched :=
  account_respond hk.rest.fresh.1 hk.rest.fresh.2 hk.account fuel request

/-- A chronicle that is kept stays so with one more request. -/
theorem Chronicle.Kept.next {h : Chronicle} (hk : h.Kept) (request : Nat × Request) :
    (h.next request).Kept := by
  have hr := (answered_attempt hk.rest request.1 request.2).1
  have ha := (hk.attempt request.1 request.2).fresh
  unfold Chronicle.next
  generalize h.session.attempt request.1 request.2 = p at hr ha
  rcases p with ⟨_ | r, s⟩
  · exact hk
  · exact ⟨hr, ha⟩

theorem kept_after (config : Config) (sink : Sink) (clock : Clock) (past : List (Nat × Request)) :
    (Chronicle.after config sink clock past).Kept := by
  unfold Chronicle.after
  have hk : (Chronicle.start config sink clock).Kept :=
    ⟨atRest_start config sink clock, (account_start config sink clock).fresh⟩
  generalize Chronicle.start config sink clock = h at hk ⊢
  induction past generalizing h with
  | nil => exact hk
  | cons request past ih => exact ih _ (hk.next request)

/-! ## Values of `this` and `super` -/

/-- The text that an expression gave. -/
def Response.text? : Response → Option String
  | .evaluated (.value (.string text)) => some text
  | _ => none

theorem Response.eq_of_text? {r : Response} {text : String} (h : r.text? = some text) :
    r = .evaluated (.value (.string text)) := by
  unfold Response.text? at h
  split at h
  · rw [Option.some.inj h]
  · cases h

/-- At a use of `super` right in a method, the names of the innermost class around, of the
superclass that is found, and of the class of `this`. -/
def Visit.superNames? (v : Visit) : Option (String × String × String) :=
  match v.node, v.site.openers, v.machine.scopes.getAt v.machine.current 1 ⟨"this", .start ""⟩,
    v.machine.scopes.getAt v.machine.current 2 ⟨"super", .start ""⟩ with
  | .expression (.super _ _ _), [_, ⟨_, .receiver className⟩, _], .ok (.object _ k),
      .ok (.classValue c) => some (className.text, c.name, k.name)
  | _, _, _, _ => none

theorem Visit.node_of_superNames? {v : Visit} {names : String × String × String}
    (hn : v.superNames? = some names) :
    ∃ method depth place, v.node = .expression (.super method depth place) := by
  unfold Visit.superNames? at hn
  split at hn
  · rename_i hnode _ _ _
    exact ⟨_, _, _, hnode⟩
  · cases hn

section
variable {v : Visit} {journal : List Visit} {className : Name} {d : Nat} {f g : Closure}
  {c : Class} {object : Value} (h : v.Within journal className d f g c object)
include h

theorem Visit.Within.eval_this (n : Nat) (place : Place) :
    eval (n + 1) (.this (some (d + 1)) place) v.machine = .ok object v.machine := by
  unfold eval
  show Run.check (fun m => m.scopes.getAt m.current (d + 1) ⟨"this", place⟩) v.machine = _
  exact Run.check_ok (h.getAt_this place)

/-- The method that is the nearest from the superclass upwards, bound to the object. -/
theorem Visit.Within.eval_super (n : Nat) (method : Name) (place : Place) :
    match c.chain.findSome? (·.methods.find? method.text) with
    | none => eval (n + 1) (.super method (some (d + 2)) place) v.machine =
        .error (.fault ⟨method.place, .undefinedProperty method.text⟩) v.machine
    | some found => ∃ m, eval (n + 1) (.super method (some (d + 2)) place) v.machine =
          .ok (.function { found with
            identity := v.machine.fresh, scope := v.machine.scopes.size }) m ∧
        m.scopes.own? v.machine.scopes.size "this" = some object ∧
        m.scopes[v.machine.scopes.size]?.bind Scope.parent = some found.scope := by
  obtain ⟨i, k, rfl⟩ := h.bound.isObject
  have hsuper : Run.check (fun m => m.scopes.getAt m.current (d + 2) ⟨"super", place⟩) v.machine =
      .ok (.classValue c) v.machine := Run.check_ok (h.getAt_super place)
  have hthis : Run.check (fun m => m.scopes.getAt m.current (d + 1) ⟨"this", place⟩) v.machine =
      .ok (.object i k) v.machine := Run.check_ok (h.getAt_this place)
  have he : eval (n + 1) (.super method (some (d + 2)) place) v.machine =
      Run.readSuper method (some (d + 2)) place v.machine := by
    unfold eval
    rfl
  rw [← c.method?_eq_findSome?, he]
  unfold Run.readSuper
  cases hf : c.method? method.text with
  | none =>
    show EStateM.bind _ (fun superclass => EStateM.bind _ _) v.machine = _
    simp only [EStateM.bind, hsuper, hthis, hf]
    rfl
  | some found =>
    let ss := (v.machine.scopes.child found.scope).1
    refine ⟨{ v.machine with
      scopes := ss.insert v.machine.scopes.size "this" (.object i k)
      fresh := v.machine.fresh + 1 }, ?_, ?_, ?_⟩
    · show EStateM.bind _ (fun superclass => EStateM.bind _ _) v.machine = _
      simp only [EStateM.bind, hsuper, hthis, hf]
      rfl
    · have hlt : v.machine.scopes.size < ss.size := by
        rw [Scopes.size_child]
        exact Nat.lt_succ_self _
      exact (ss.own?_insert _ _ _ _ _).trans (if_pos ⟨rfl, rfl, hlt⟩)
    · rw [Scopes.parent_insert, Scopes.parent_child, if_pos rfl]

theorem Visit.Within.superNames? {names : String × String × String}
    (hn : v.superNames? = some names) :
    ∃ i k, object = .object i k ∧ names = (className.text, c.name, k.name) := by
  obtain ⟨i, k, rfl⟩ := h.bound.isObject
  obtain ⟨inner, outer, ho, rfl, -⟩ := h.around
  unfold Visit.superNames? at hn
  split at hn
  · rename_i hnode hopeners hthis hsuper
    rw [hopeners] at ho
    obtain rfl : inner = [] := by
      have hlength := congrArg List.length ho
      simp only [List.length_append, List.length_cons, List.length_nil] at hlength
      exact List.eq_nil_of_length_eq_zero (by omega)
    cases ho
    cases hthis.symm.trans (h.getAt_this (.start ""))
    cases hsuper.symm.trans (h.getAt_super (.start ""))
    exact ⟨i, k, rfl, (Option.some.inj hn).symm⟩
  · cases hn

end

/-! ## Whole sessions -/

/-- **What `super` means.** In any session, wherever the run for a request comes to a use of
`super`, the visits before it, in this request and the earlier ones, tell where it comes from:
a call of a method of the innermost class around, which was made where the declaration of
that class had found the superclass `c`, and was bound to an object. That object is what
`this` stands for there, and the value is the nearest method from `c` upwards, bound to that
object, or else the fault that there is no such property. -/
theorem Session.super_bound (config : Config) (sink : Sink) (clock : Clock)
    (past : List (Nat × Request)) (fuel : Nat) (request : Request) :
    let p := (Session.after config sink clock past).attempt fuel request
    (Host.after config sink clock past).perform fuel request = Session.answer p ∧
      ∀ later v earlier, p.2.visits = later ++ v :: earlier →
      ∀ method depth place, v.node = .expression (.super method depth place) →
      ∃ className d f g c object,
        v.Within (earlier ++ Session.journal config sink clock past) className d f g c object ∧
        distance? v.site.walk.scopes "this" = some (d + 1) ∧
        (∀ n place, eval (n + 1) (.this (some (d + 1)) place) v.machine =
          .ok object v.machine) ∧
        ∀ n, match c.chain.findSome? (·.methods.find? method.text) with
          | none => eval (n + 1) (.super method depth place) v.machine =
              .error (.fault ⟨method.place, .undefinedProperty method.text⟩) v.machine
          | some found => ∃ m, eval (n + 1) (.super method depth place) v.machine =
                .ok (.function { found with
                  identity := v.machine.fresh, scope := v.machine.scopes.size }) m ∧
              m.scopes.own? v.machine.scopes.size "this" = some object ∧
              m.scopes[v.machine.scopes.size]?.bind Scope.parent = some found.scope := by
  intro p
  refine ⟨?_, fun later v earlier hvs method depth place hn => ?_⟩
  · rw [← Session.after_host]
    exact Session.attempt_host _ fuel request
  · have ha := (kept_after config sink clock past).attempt fuel request
    rw [Chronicle.after_session] at ha
    have ht := ha.told
    rw [show p.2.watched.record.visits = later ++ v :: earlier from hvs] at ht
    obtain ⟨className, d, f, g, c, object, h, hthis, rfl⟩ := ht.supers method depth place hn
    exact ⟨className, d, f, g, c, object, h, hthis, h.eval_this,
      fun n => h.eval_super n method place⟩

/-- An object of `C` has its method from `B`, whose `super` is still the class that was `A`
once `A`, `B` and `C` are other things. -/
theorem Session.super_outlives_names :
    let config : Config := ⟨false, false, "main.lox"⟩
    let source := "class A \x7b m() \x7b return \"A\"; \x7d \x7d " ++
      "class B < A \x7b m() \x7b return super.m(); \x7d \x7d class C < B \x7b\x7d var o = C();"
    let past := [(9, Request.run source), (9, .run "A = nil; B = nil; C = nil;")]
    let p := (Session.after config (.empty none false) (.ticking 0) past).attempt 9
      (.evaluateExpression "o.m()")
    p.1 = some (.evaluated (.value (.string "A"))) ∧
      ∃ later v earlier method depth place, p.2.visits = later ++ v :: earlier ∧
        v.node = .expression (.super method depth place) ∧
        ∃ className d f g c i k,
          v.Within (earlier ++ Session.journal config (.empty none false) (.ticking 0) past)
            className d f g c (.object i k) ∧
          className.text = "B" ∧ c.name = "A" ∧ k.name = "C" := by
  intro config source past p
  have hvalue : p.1.bind Response.text? = some "A" := by decide +kernel
  have hsuper : p.2.visits.any (fun v => v.superNames? == some ("B", "A", "C")) = true := by
    decide +kernel
  obtain ⟨r, hr, htext⟩ := Option.bind_eq_some_iff.1 hvalue
  obtain ⟨v, hv, hnames⟩ := List.any_eq_true.1 hsuper
  have hnames := beq_iff_eq.1 hnames
  obtain ⟨method, depth, place, hnode⟩ := Visit.node_of_superNames? hnames
  obtain ⟨later, earlier, hvs⟩ := List.append_of_mem hv
  obtain ⟨className, d, f, g, c, object, h, -⟩ :=
    (Session.super_bound config (.empty none false) (.ticking 0) past 9 (.evaluateExpression "o.m()")).2
      later v earlier hvs method depth place hnode
  obtain ⟨i, k, rfl, heq⟩ := h.superNames? hnames
  obtain ⟨hB, hA, hC⟩ : "B" = className.text ∧ "A" = c.name ∧ "C" = k.name := by simpa using heq
  exact ⟨hr.trans (congrArg some (Response.eq_of_text? htext)), later, v, earlier, method, depth,
    place, hvs, hnode, className, d, f, g, c, i, k, h, hB.symm, hA.symm, hC.symm⟩

end LoxLang
