import LoxLang.Proofs.Code.Orderly
import LoxLang.Proofs.Machine.Store
import LoxLang.Proofs.Renaming.Run

/-!
# Curbed runs

Two runs of one tree go side by side: a free one, which is watched, and one that is curbed by a
stricter rule on redefinition or by a sink that takes less. Their machines hold the very same
scopes, objects and values. The curbed run either keeps up to the end or is stopped by a fault
that the free one does not have; a `Curb` says how the two differ and what a stop comes to.
-/

namespace LoxLang

open Scoping

/-! ## What a later state keeps -/

/-- The state `u` comes after `t`: nothing that was seen or printed is lost. -/
structure Watched.Before (t u : Watched) : Prop where
  visits : t.record.visits ⊆ u.record.visits
  bytes : ∃ more, u.machine.sink.bytes = t.machine.sink.bytes ++ more

theorem Watched.Before.of_sink {t u : Watched} (hv : t.record.visits ⊆ u.record.visits)
    (hs : u.machine.sink = t.machine.sink) : t.Before u :=
  ⟨hv, .empty, by rw [hs, ByteArray.append_empty]⟩

theorem Watched.Before.refl (t : Watched) : t.Before t := .of_sink (List.Subset.refl _) rfl

theorem Watched.Before.trans {t u w : Watched} (h : t.Before u) (h' : u.Before w) : t.Before w := by
  obtain ⟨hv, more, hb⟩ := h
  obtain ⟨hv', more', hb'⟩ := h'
  exact ⟨List.Subset.trans hv hv', more ++ more', by rw [hb', hb, ByteArray.append_assoc]⟩

/-- A sink keeps what it has. -/
theorem Sink.bytes_put (s : Sink) (text : String) :
    ∃ more, (s.put text).1.bytes = s.bytes ++ more := ⟨_, rfl⟩

/-- The state after a text has been printed. -/
def Watched.printed (t : Watched) (text : String) : Watched :=
  { t with machine := { t.machine with sink := (t.machine.sink.put text).1 } }

theorem Watched.before_printed (t : Watched) (text : String) : t.Before (t.printed text) :=
  ⟨List.Subset.refl _, t.machine.sink.bytes_put text⟩

/-- The visit is to a print statement, which prints this text on this machine. -/
def Visit.Prints (v : Visit) (place : Place) (text : String) (m : Machine) : Prop :=
  ∃ e fuel value, v.node = .statement (.print e place) ∧ eval fuel e v.machine = .ok value m ∧
    text = value.text ++ "\n"

/-! ## Curbs -/

/-- How a curbed run differs from a free one. -/
structure Curb where
  /-- The rules on redefinition that a scope has in the free run and in the curbed one. -/
  allows : Bool → Bool → Prop
  /-- The sinks of the two runs. -/
  sinks : Sink → Sink → Prop
  /-- How the curbed run may be stopped: by this fault and with this sink, once the free run has
  come to the state. -/
  stops : Watched → Fault → Sink → Prop
  allows_false : allows false false
  /-- What the curbed run may define again the free one may, too. -/
  free : ∀ {b : Bool}, allows b true → b = true
  /-- A curbed run stops where only a free one may define a name again. -/
  stricter : allows true false →
    ∀ t (n : Name) s, stops t ⟨n.place, .redefinition n.text⟩ s
  /-- The two print alike, or the curbed run is stopped by its sink. -/
  print : ∀ {t : Watched} {s : Sink} {v : Visit} {place : Place} {text : String},
    sinks t.machine.sink s → v ∈ t.record.visits → v.Prints place text t.machine →
      (sinks (t.printed text).machine.sink (s.put text).1 ∧
        (s.put text).2 = (t.machine.sink.put text).2) ∨
      ∃ problem, (s.put text).2 = some problem ∧
        stops (t.printed text) ⟨place, .output problem⟩ (s.put text).1
  later : ∀ {t u : Watched} {f : Fault} {s : Sink}, t.Before u → stops t f s → stops u f s

/-- Scopes that differ in their rules on redefinition. -/
structure Scope.Curbed (C : Curb) (s s' : Scope) : Prop where
  bindings : s'.bindings = s.bindings
  parent : s'.parent = s.parent
  allows : C.allows s.allowRedefinition s'.allowRedefinition

/-- The same scopes, but for their rules on redefinition. -/
def Scopes.Curbed (C : Curb) (ss ss' : Scopes) : Prop :=
  ∀ id : ScopeId, Option.Rel (Scope.Curbed C) ss[id]? ss'[id]?

/-- The same machine, but for the rules on redefinition and the sink. -/
structure Machine.Curbed (C : Curb) (m m' : Machine) : Prop where
  scopes : m.scopes.Curbed C m'.scopes
  objects : m'.objects = m.objects
  fresh : m'.fresh = m.fresh
  globals : m'.globals = m.globals
  current : m'.current = m.current
  sink : C.sinks m.sink m'.sink
  clock : m'.clock = m.clock

variable {C : Curb}

/-! ## Scopes -/

namespace Scopes.Curbed

variable {ss ss' : Scopes} (h : ss.Curbed C ss')
include h

theorem size : ss'.size = ss.size := by
  have hi (id : ScopeId) : id < ss'.size ↔ id < ss.size := by
    simpa using Bool.eq_iff_iff.1 (isSome_of_rel (h id))
  refine Nat.le_antisymm (Nat.le_of_not_lt fun hlt => ?_) (Nat.le_of_not_lt fun hlt => ?_)
  · exact Nat.lt_irrefl _ ((hi _).1 hlt)
  · exact Nat.lt_irrefl _ ((hi _).2 hlt)

theorem own? (id : ScopeId) (x : String) : ss'.own? id x = ss.own? id x := by
  have hi := h id
  unfold Scopes.own?
  generalize ss[id]? = o at hi ⊢
  generalize ss'[id]? = o' at hi ⊢
  cases hi with
  | none => rfl
  | some hs => exact congrArg (·.find? x) hs.bindings

theorem parent (id : ScopeId) : ss'[id]?.bind Scope.parent = ss[id]?.bind Scope.parent := by
  have hi := h id
  generalize ss[id]? = o at hi ⊢
  generalize ss'[id]? = o' at hi ⊢
  cases hi with
  | none => rfl
  | some hs => exact hs.parent

/-- The curbed machine allows redefinition in a scope where the free machine does, as the kind of
curb says. -/
theorem allow (id : ScopeId) :
    C.allows ((ss[id]?.map Scope.allowRedefinition).getD false)
      ((ss'[id]?.map Scope.allowRedefinition).getD false) := by
  have hi := h id
  generalize ss[id]? = o at hi ⊢
  generalize ss'[id]? = o' at hi ⊢
  cases hi with
  | none => exact C.allows_false
  | some hs => exact hs.allows

theorem ancestor? (id : ScopeId) (d : Nat) : ss'.ancestor? id d = ss.ancestor? id d := by
  induction d generalizing id with
  | zero => rfl
  | succ d ih => simp only [Scopes.ancestor?, h.parent, ih]

theorem getAt (id : ScopeId) (d : Nat) (n : Name) : ss'.getAt id d n = ss.getAt id d n := by
  simp only [Scopes.getAt, h.ancestor?, h.own?]

theorem holderAt (id : ScopeId) (d : Nat) (n : Name) :
    ss'.holderAt id d n = ss.holderAt id d n := by
  simp only [Scopes.holderAt, h.ancestor?, h.getAt]

theorem holder? (id : ScopeId) (x : String) : ss'.holder? id x = ss.holder? id x := by
  have within (limit : Nat) (id : ScopeId) :
      ss'.holderWithin? x limit id = ss.holderWithin? x limit id := by
    induction limit generalizing id with
    | zero => rfl
    | succ limit ih => simp only [Scopes.holderWithin?, h.own?, h.parent, ih]
  rw [Scopes.holder?, Scopes.holder?, h.size, within]

theorem holder (id : ScopeId) (n : Name) : ss'.holder id n = ss.holder id n := by
  simp only [Scopes.holder, h.holder?]

theorem get (id : ScopeId) (n : Name) : ss'.get id n = ss.get id n := by
  simp only [Scopes.get, h.holder?, h.own?]

/-- A name that may not be defined in the free run may not be in the curbed one. -/
theorem definable (id : ScopeId) (n : Name) :
    ss'.definable id n = ss.definable id n ∨
      C.allows true false ∧ ss'.definable id n = .error ⟨n.place, .redefinition n.text⟩ := by
  have ha := h.allow id
  simp only [Scopes.definable, h.own?]
  generalize (ss[id]?.map Scope.allowRedefinition).getD false = b at ha ⊢
  generalize (ss'[id]?.map Scope.allowRedefinition).getD false = b' at ha ⊢
  cases b' with
  | true =>
    rw [C.free ha]
    exact .inl rfl
  | false =>
    cases b with
    | false => exact .inl rfl
    | true =>
      cases (ss.own? id n.text).isSome with
      | false => exact .inl rfl
      | true => exact .inr ⟨ha, rfl⟩

theorem insert (id : ScopeId) (x : String) (v : Value) :
    (ss.insert id x v).Curbed C (ss'.insert id x v) := by
  intro i
  have hi := h i
  simp only [Scopes.insert, Array.getElem?_modify]
  split
  · generalize ss[i]? = o at hi ⊢
    generalize ss'[i]? = o' at hi ⊢
    cases hi with
    | none => exact .none
    | some hs => exact .some { hs with bindings := congrArg (·.insert x v) hs.bindings }
  · exact hi

theorem child (id : ScopeId) : (ss.child id).1.Curbed C (ss'.child id).1 := by
  intro i
  simp only [Scopes.child, Array.getElem?_push, h.size]
  split
  · exact .some ⟨rfl, rfl, h.allow id⟩
  · exact h i

end Scopes.Curbed

namespace Machine.Curbed

variable {m m' : Machine} (h : m.Curbed C m')
include h

theorem running (scope : ScopeId) :
    Machine.Curbed C { m with current := scope } { m' with current := scope } :=
  { h with current := rfl }

theorem insert (id : ScopeId) (x : String) (v : Value) :
    Machine.Curbed C { m with scopes := m.scopes.insert id x v }
      { m' with scopes := m'.scopes.insert id x v } :=
  { h with scopes := h.scopes.insert id x v }

end Machine.Curbed

/-! ## Steps -/

namespace Watching

section
variable {α β : Type}

def endOf : EStateM.Result Interrupt Watched α → Watched
  | .ok _ t => t
  | .error _ t => t

/-- The curbed step ends as the free one does, or is stopped. -/
inductive EndCurbed (C : Curb) :
    EStateM.Result Interrupt Watched α → EStateM.Result Interrupt Machine α → Prop
  | ok {a : α} {t : Watched} {m' : Machine} (h : t.machine.Curbed C m') :
    EndCurbed C (.ok a t) (.ok a m')
  | error {i : Interrupt} {t : Watched} {m' : Machine} (h : t.machine.Curbed C m') :
    EndCurbed C (.error i t) (.error i m')
  | stopped {r : EStateM.Result Interrupt Watched α} {f : Fault} {m' : Machine}
    (h : C.stops (endOf r) f m'.sink) : EndCurbed C r (.error (.fault f) m')

/-- From the state `t` on, the step `y` is the step `x` curbed. -/
structure Curbs (C : Curb) (t : Watched) (x : Watching α) (y : Run α) : Prop where
  before : t.Before (endOf (x t))
  ends : ∀ m', t.machine.Curbed C m' → EndCurbed C (x t) (y m')

namespace Curbs

variable {t u : Watched} {x : Watching α} {y : Run α} {k : α → Watching β} {l : α → Run β}

/-! ### Laws -/

theorem pure (a : α) : Curbs C t (pure a) (pure a) := ⟨.refl t, fun _ hm => .ok hm⟩

theorem throw (i : Interrupt) : Curbs C t (throw i : Watching α) (throw i) :=
  ⟨.refl t, fun _ hm => .error hm⟩

/-- A fault that stops the first of two steps stops both. -/
theorem bind (h : Curbs C t x y) (hk : ∀ a u, x t = .ok a u → Curbs C u (k a) (l a)) :
    Curbs C t (x >>= k) (y >>= l) := by
  have hb := h.before
  have hrest : (endOf (x t)).Before (endOf ((x >>= k) t)) := by
    rw [bind_apply]
    cases hx : x t with
    | ok a u => exact (hk a u hx).before
    | error i u => exact .refl u
  refine ⟨hb.trans hrest, fun m' hm => ?_⟩
  have he := h.ends m' hm
  rw [Run.bind_apply]
  generalize y m' = r at he ⊢
  generalize hx : x t = w at he hrest
  cases he with
  | ok hn =>
    rw [bind_apply, hx]
    exact (hk _ _ hx).ends _ hn
  | error hn =>
    rw [bind_apply, hx]
    exact .error hn
  | stopped hs => exact .stopped (C.later hrest hs)

/-- A change of the record that keeps what was seen can be left out. -/
theorem note {change : Machine → Record → Record} {x : Watching α}
    (hv : t.record.visits ⊆ (change t.machine t.record).visits)
    (h : Curbs C { t with record := change t.machine t.record } x y) :
    Curbs C t (Watching.note change >>= fun _ => x) y := by
  have hb : t.Before { t with record := change t.machine t.record } := .of_sink hv rfl
  exact ⟨hb.trans h.before, h.ends⟩

/-- A visit that is recorded leaves the outcome alone. -/
theorem visit {σ : Site} {node : Node} {x : Watching α}
    (h : ∀ u, ⟨σ, node, u.machine, u.record.origins⟩ ∈ u.record.visits → Curbs C u x y) :
    Curbs C t (Watching.visit σ node >>= fun _ => x) y :=
  .note (List.subset_cons_self _ _) (h _ List.mem_cons_self)

/-- A scope that is recorded with what opened it leaves the outcome alone. -/
theorem opened {scope : ScopeId} {opener : Option Opener} {x : Watching α}
    (h : ∀ u, Curbs C u x y) : Curbs C t (Watching.opened scope opener >>= fun _ => x) y :=
  .note (List.Subset.refl _) (h _)

/-- An identity that is recorded with what it was given to leaves the outcome alone. -/
theorem made {identity : Nat} {maker : Maker} {x : Watching α} (h : ∀ u, Curbs C u x y) :
    Curbs C t (Watching.made identity maker >>= fun _ => x) y :=
  .note (List.Subset.refl _) (h _)

theorem makerOf {k : Maker → Watching α} {f : Closure} (h : ∀ maker, Curbs C t (k maker) y) :
    Curbs C t (Watching.makerOf f >>= k) y :=
  ⟨(h _).before, (h _).ends⟩

theorem discard (h : Curbs C t x y) : Curbs C t (discard x) (discard y) :=
  h.bind fun _ _ _ => .pure ()

theorem within (scope : ScopeId) (h : ∀ u, Curbs C u x y) :
    Curbs C t (Watching.within scope x) (Run.within scope y) := by
  obtain ⟨hb, he⟩ := h { t with machine := { t.machine with current := scope } }
  unfold Watching.within Run.within
  refine ⟨?_, fun m' hm => ?_⟩
  · dsimp only at hb ⊢
    generalize x { t with machine := { t.machine with current := scope } } = r at hb ⊢
    cases r <;> exact ⟨hb.visits, hb.bytes⟩
  · have he := he _ (hm.running scope)
    dsimp only at he ⊢
    generalize x { t with machine := { t.machine with current := scope } } = r at he ⊢
    generalize y { m' with current := scope } = r' at he ⊢
    cases he with
    | ok hn =>
      rw [hm.current]
      exact .ok (hn.running _)
    | error hn =>
      rw [hm.current]
      exact .error (hn.running _)
    | stopped hs =>
      refine .stopped (C.later (t := endOf r) ?_ hs)
      cases r <;> exact .of_sink (List.Subset.refl _) rfl

theorem catching {x : Watching Unit} {y : Run Unit} (h : Curbs C t x y) :
    Curbs C t (Watching.catching x) (Run.catching y) := by
  obtain ⟨hb, he⟩ := h
  have hend : endOf (Watching.catching x t) = endOf (x t) := by
    unfold Watching.catching
    cases x t with
    | ok a u => rfl
    | error i u => cases i <;> rfl
  refine ⟨hend ▸ hb, fun m' hm => ?_⟩
  have he := he m' hm
  unfold Run.catching
  generalize y m' = r' at he ⊢
  generalize hx : x t = r at he hend
  cases he with
  | ok hn =>
    rw [Watching.catching, hx]
    exact .ok hn
  | error hn =>
    rw [Watching.catching, hx]
    rename_i i u m'
    cases i with
    | returning v place => exact .ok hn
    | _ => exact .error hn
  | stopped hs => exact .stopped (hend ▸ hs)

/-- A loop is curbed if its body is and what follows each round is. -/
theorem breakable {x rest : Watching Unit} {y rest' : Run Unit} (h : Curbs C t x y)
    (hr : ∀ u, Curbs C u rest rest') :
    Curbs C t (Watching.breakable x rest) (Run.breakable y rest') := by
  obtain ⟨hb, he⟩ := h
  have hrest : (endOf (x t)).Before (endOf (Watching.breakable x rest t)) := by
    unfold Watching.breakable
    cases x t with
    | ok a u => exact (hr u).before
    | error i u => cases i <;> exact .refl u
  refine ⟨hb.trans hrest, fun m' hm => ?_⟩
  have he := he m' hm
  unfold Run.breakable
  generalize y m' = r' at he ⊢
  generalize hx : x t = r at he hrest
  cases he with
  | ok hn =>
    rw [Watching.breakable, hx]
    exact (hr _).ends _ hn
  | error hn =>
    rw [Watching.breakable, hx]
    rename_i i u m'
    cases i with
    | breaking place => exact .ok hn
    | _ => exact .error hn
  | stopped hs => exact .stopped (C.later hrest hs)

/-! ### Steps on a machine -/

/-- A step that always succeeds, and alike. -/
theorem change {y : Run α} (a : Machine → α) (g : Machine → Machine)
    (hy : ∀ m, y m = .ok (a m) (g m)) (hs : (g t.machine).sink = t.machine.sink)
    (h : ∀ m', t.machine.Curbed C m' →
      a m' = a t.machine ∧ (g t.machine).Curbed C (g m')) : Curbs C t (step y) y := by
  have hx : step y t = .ok (a t.machine) { t with machine := g t.machine } := by
    rw [step, hy]
  refine ⟨?_, fun m' hm => ?_⟩
  · rw [hx]
    exact .of_sink (List.Subset.refl _) hs
  · obtain ⟨ha, hg⟩ := h m' hm
    rw [hx, hy, ha]
    exact .ok hg

/-- What a step looks up is the same on both machines. -/
theorem check {look : Machine → Except Fault α}
    (h : ∀ m', t.machine.Curbed C m' → look m' = look t.machine) :
    Curbs C t (step (Run.check look)) (Run.check look) := by
  refine ⟨?_, fun m' hm => ?_⟩
  · unfold step Run.check
    cases look t.machine <;> exact .refl t
  · unfold step Run.check
    rw [h m' hm]
    cases look t.machine <;> first | exact .ok hm | exact .error hm

theorem fail (place : Place) (cause : FaultCause) :
    Curbs C t (step (Run.fail place cause : Run α)) (Run.fail place cause) :=
  ⟨.refl t, fun _ hm => .error hm⟩

theorem lift (result : Except Fault α) : Curbs C t (step (Run.lift result)) (Run.lift result) :=
  .check fun _ _ => rfl

/-- A name gets its value in the same scope, unless the curbed run is stopped. -/
theorem store {choose : Machine → Except Fault ScopeId} (n : String) (v : Value)
    (h : ∀ m', t.machine.Curbed C m' →
      choose m' = choose t.machine ∨
        ∃ f, choose m' = .error f ∧ ∀ u, C.stops u f m'.sink) :
    Curbs C t (step (Run.store choose n v)) (Run.store choose n v) := by
  refine ⟨?_, fun m' hm => ?_⟩
  · unfold step Run.store
    cases choose t.machine <;> exact .of_sink (List.Subset.refl _) rfl
  · rcases h m' hm with he | ⟨f, he, hs⟩
    · unfold step Run.store
      rw [he]
      cases choose t.machine with
      | ok id => exact .ok (hm.insert id n v)
      | error f => exact .error hm
    · have hy : Run.store choose n v m' = .error (.fault f) m' := by rw [Run.store, he]
      rw [hy]
      exact .stopped (hs _)

/-- A look at the machine, of which only what is the same on both is used. -/
theorem get {k : Machine → Watching α} {l : Machine → Run α}
    (hl : ∀ m', t.machine.Curbed C m' → l m' = l t.machine)
    (h : Curbs C t (k t.machine) (l t.machine)) :
    Curbs C t (step MonadState.get >>= k) (MonadState.get >>= l) :=
  ⟨h.before, fun m' hm => by
    show EndCurbed C (k t.machine t) (l m' m')
    rw [hl m' hm]
    exact h.ends m' hm⟩

/-- A step that does nothing. -/
theorem still (a : α) : Curbs C t (step (Pure.pure a)) (Pure.pure a) :=
  ⟨.refl t, fun _ hm => .ok hm⟩

theorem newIdentity : Curbs C t (step Run.newIdentity) Run.newIdentity :=
  .change Machine.fresh (fun m => { m with fresh := m.fresh + 1 }) (fun _ => rfl) rfl
    fun _ hm => ⟨hm.fresh, { hm with fresh := congrArg (· + 1) hm.fresh }⟩

theorem newObject (c : Class) : Curbs C t (step (Run.newObject c)) (Run.newObject c) :=
  .change (fun m => .object m.objects.size c) (fun m => { m with objects := m.objects.push [] })
    (fun _ => rfl) rfl fun _ hm =>
      ⟨by rw [hm.objects], { hm with objects := congrArg (·.push []) hm.objects }⟩

theorem newScope (parent : ScopeId) :
    Curbs C t (step (Run.newScope parent)) (Run.newScope parent) :=
  .change (fun m => m.scopes.size) (fun m => { m with scopes := (m.scopes.child parent).1 })
    (fun _ => rfl) rfl fun _ hm =>
      ⟨hm.scopes.size, { hm with scopes := hm.scopes.child parent }⟩

theorem bindIn (scope : ScopeId) (n : String) (v : Value) :
    Curbs C t (step (Run.bindIn scope n v)) (Run.bindIn scope n v) :=
  .change (fun _ => ()) (fun m => { m with scopes := m.scopes.insert scope n v })
    (fun _ => rfl) rfl fun _ hm => ⟨rfl, hm.insert scope n v⟩

theorem setField (object : Nat) (n : String) (v : Value) :
    Curbs C t (step (Run.setField object n v)) (Run.setField object n v) :=
  .change (fun _ => ()) (fun m => { m with objects := m.objects.modify object (·.insert n v) })
    (fun _ => rfl) rfl fun _ hm =>
      ⟨rfl, { hm with objects := congrArg (·.modify object (·.insert n v)) hm.objects }⟩

theorem readClock : Curbs C t (step Run.readClock) Run.readClock :=
  .change (fun m => .number (Float.ofNat m.clock.now / 1000)) (fun m => { m with clock := m.clock.later })
    (fun _ => rfl) rfl fun _ hm =>
      ⟨by rw [hm.clock], { hm with clock := congrArg Clock.later hm.clock }⟩

/-- A statement that was come to prints. -/
theorem print {v : Visit} {place : Place} {text : String} (hv : v ∈ t.record.visits)
    (hp : v.Prints place text t.machine) :
    Curbs C t (step (Run.print text place)) (Run.print text place) := by
  refine ⟨?_, fun m' hm => ?_⟩
  · have hb := t.before_printed text
    unfold step Run.print
    dsimp only
    cases (t.machine.sink.put text).2 <;> exact hb
  · rcases C.print hm.sink hv hp with ⟨hs, he⟩ | ⟨problem, he, hs⟩
    · unfold step Run.print
      dsimp only
      rw [he]
      cases (t.machine.sink.put text).2 with
      | none => exact .ok { hm with sink := hs }
      | some problem => exact .error { hm with sink := hs }
    · have hend : endOf (step (Run.print text place) t) = t.printed text := by
        unfold step Run.print
        dsimp only
        cases (t.machine.sink.put text).2 <;> rfl
      have hy : Run.print text place m' =
          .error (.fault ⟨place, .output problem⟩) { m' with sink := (m'.sink.put text).1 } := by
        unfold Run.print
        dsimp only
        rw [he]
      rw [hy]
      exact .stopped (hend ▸ hs)

end Curbs

end

end Watching

end LoxLang
