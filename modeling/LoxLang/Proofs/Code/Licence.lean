import LoxLang.Proofs.Code.Growth
import LoxLang.Proofs.Machine.Laws

/-!
# What a step may do to its surroundings

A *licence* lists what a step may do that others notice: which names it may bind in scopes
that were there before, with which redefinition it may fail, and with which `break`s and
`return`s it may end. `Orderly` says that a watched step keeps a fine machine fine and stays
within its licence; and that it comes to a *stray* `break`, one that has no loop of its own
function around it, exactly if that ends the step. The laws follow the ways in which steps
are put together; then come the steps that a run is made of.
-/

namespace LoxLang

/-! ## Visits -/

/-- In a local scope the names that the statement declares are not bound yet. -/
def Stmt.Ready (s : Stmt) (m : Machine) : Prop :=
  m.current ≠ m.globals → ∀ n ∈ s.declared?, m.own? m.current n.text = none

/-- The visit finds a fine machine, and a fine expression or a fine statement whose names are
not bound yet where they are local. -/
structure Visit.Fresh (v : Visit) : Prop where
  machine : v.machine.Fine
  expression : ∀ e, v.node = .expression e → e.Fine
  statement : ∀ s, v.node = .statement s → s.Fine ∧ s.Ready v.machine

/-- The statements of the function that a construct is. -/
def Construct.body? : Construct → Option (List Stmt)
  | .function _ body => some body
  | _ => none

/-- The statements of the innermost function around the site; outside of all functions those
of the program. -/
def Site.code (program : List Stmt) (σ : Site) : List Stmt :=
  (σ.openers.findSome? (·.construct.body?)).getD program

/-- The visit is of a `break` that has no loop of its own function around it, or of the program
if it is in none. -/
def Visit.Stray (program : List Stmt) (v : Visit) (place : Place) : Prop :=
  v.node = .statement (.breakOut place) ∧
    (place, false) ∈ Stmt.allBreaks false (v.site.code program)

/-- Where the `break` of a visit stands, if it is stray. -/
def Visit.stray? (program : List Stmt) (v : Visit) : Option Place :=
  match v.node with
  | .statement (.breakOut place) =>
    if (place, false) ∈ Stmt.allBreaks false (v.site.code program) then some place else none
  | _ => none

theorem Visit.stray?_eq_some {program : List Stmt} {v : Visit} {place : Place} :
    v.stray? program = some place ↔ v.Stray program place := by
  unfold Visit.stray? Visit.Stray
  split
  · rename_i p hn
    rw [hn, Option.ite_none_right_eq_some, Node.statement.injEq, Stmt.breakOut.injEq,
      Option.some.injEq]
    constructor
    · rintro ⟨h, rfl⟩
      exact ⟨rfl, h⟩
    · rintro ⟨rfl, h⟩
      exact ⟨h, rfl⟩
  · rename_i hn
    exact ⟨fun h => (nomatch h), fun h => absurd h.1 (hn place)⟩

/-- Where the stray `break`s stand that the run came to, the latest first. -/
def Watched.strays (program : List Stmt) (t : Watched) : List Place :=
  t.record.visits.filterMap (Visit.stray? program)

/-! ## Licences -/

/-- What a step may do to its surroundings. -/
structure Licence where
  /-- The names that it may bind in scopes that were there before. -/
  binds : ScopeId → String → Prop
  /-- The names whose second definition it may fail in. -/
  clashes : Name → Prop
  /-- It may end with a `break` that has a loop around it, or with one that has none. -/
  breaks : Bool → Prop
  /-- The `return`s that it may end with. -/
  returns : Place → Prop

namespace Licence

/-- The licence of an expression. -/
def nothing : Licence := ⟨Machine.noNames, fun _ => False, fun _ => False, fun _ => False⟩

/-- One licence allows all that another does. -/
structure Le (L M : Licence) : Prop where
  binds : ∀ id x, L.binds id x → M.binds id x
  clashes : ∀ n, L.clashes n → M.clashes n
  breaks : ∀ b, L.breaks b → M.breaks b
  returns : ∀ p, L.returns p → M.returns p

theorem Le.refl (L : Licence) : L.Le L := ⟨fun _ _ h => h, fun _ h => h, fun _ h => h, fun _ h => h⟩

theorem nothing_le (L : Licence) : nothing.Le L :=
  ⟨fun _ _ => False.elim, fun _ => False.elim, fun _ => False.elim, fun _ => False.elim⟩

/-- Any name may be bound in scopes that are not among the first `size`. -/
def beyond (size : Nat) : Licence := { nothing with binds := fun id _ => size ≤ id }

end Licence

/-- A fault that is neither a redefinition nor about a jump. -/
def Fault.Common (f : Fault) : Prop :=
  (∀ x, f.value ≠ .redefinition x) ∧ f.value ≠ .breakOutsideLoop ∧ f.value ≠ .returnOutsideFunction

/-- The interrupt is one that the licence allows; the stray `break`s that the run has come to
are those of `before`, and the one that the interrupt is about. -/
def Interrupt.Allowed (L : Licence) (before after : List Place) : Interrupt → Prop
  | .fault f =>
    (f.Common ∨ ∃ n, L.clashes n ∧ f = ⟨n.place, .redefinition n.text⟩) ∧ after = before ∨
      f.value = .breakOutsideLoop ∧ after = f.place :: before
  | .breaking p => ∃ b, L.breaks b ∧ after = if b then before else p :: before
  | .returning v p => L.returns p ∧ v.Fine ∧ after = before
  | .exhausted => after = before

theorem Interrupt.Allowed.mono {L M : Licence} (hL : L.Le M) {before after : List Place}
    {i : Interrupt} (h : i.Allowed L before after) : i.Allowed M before after := by
  cases i with
  | fault f =>
    refine h.imp_left fun ⟨hf, ha⟩ => ⟨hf.imp_right fun ⟨n, hn, he⟩ => ⟨n, hL.clashes n hn, he⟩, ha⟩
  | breaking p =>
    obtain ⟨b, hb, ha⟩ := h
    exact ⟨b, hL.breaks b hb, ha⟩
  | returning v p => exact ⟨hL.returns p h.1, h.2⟩
  | exhausted => exact h

/-- One state comes after another, within a licence. -/
structure Advance (L : Licence) (t u : Watched) : Prop where
  grown : Machine.Grown L.binds t.machine u.machine
  fine : u.machine.Fine
  visits : ∀ v ∈ u.record.visits, v ∈ t.record.visits ∨ v.Fresh

section
variable {L M : Licence} {t u w : Watched}

theorem Advance.refl (L : Licence) (h : t.machine.Fine) : Advance L t t :=
  ⟨.refl _ _, h, fun _ hv => .inl hv⟩

theorem Advance.trans (h : Advance L t u) (h' : Advance L u w) : Advance L t w :=
  ⟨h.grown.trans h'.grown, h'.fine, fun v hv => (h'.visits v hv).elim (h.visits v) .inr⟩

theorem Advance.mono (hL : L.Le M) (h : Advance L t u) : Advance M t u :=
  { h with grown := h.grown.mono hL.binds }

/-- A change of the machine alone. -/
theorem Advance.of_machine {m : Machine} (hg : Machine.Grown L.binds t.machine m) (hm : m.Fine) :
    Advance L t { t with machine := m } := ⟨hg, hm, fun _ hv => .inl hv⟩

/-- A new scope binds nothing yet. -/
theorem own?_opening_size (t : Watched) (parent : ScopeId) (o : Option Opener) (x : String) :
    (t.opening parent o).machine.own? t.machine.scopes.size x = none :=
  (t.own?_opening parent o _ x).trans (t.own?_size x)

theorem Advance.opening (ht : t.machine.Fine) (parent : ScopeId) (o : Option Opener) :
    Advance L t (t.opening parent o) :=
  ⟨t.machine.grown_child parent _, ht.child parent, fun _ hv => .inl hv⟩

/-- A name may be bound in a new scope at once. -/
theorem Advance.bound (ht : t.machine.Fine) (parent : ScopeId) (o : Option Opener) (x : String)
    {v : Value} (hv : v.Fine) :
    Advance L t ((t.opening parent o).insert t.machine.scopes.size x v) := by
  let new : ScopeId → String → Prop := fun id _ => t.machine.scopes.size ≤ id
  have hg := (t.machine.grown_child parent new).trans
    (Machine.grown_insert (x := x) _ v (.inr (Nat.le_refl t.machine.scopes.size)))
  exact ⟨(hg.shut fun _ _ h => h).mono fun _ _ => False.elim, (ht.child parent).insert _ _ hv,
    fun _ hv => .inl hv⟩

theorem lt_opening (t : Watched) (parent : ScopeId) (o : Option Opener) :
    t.machine.scopes.size < (t.opening parent o).machine.scopes.size :=
  Nat.lt_of_lt_of_eq (Nat.lt_succ_self _) (t.machine.scopes.size_child parent).symm

end

namespace Watching

variable {α β : Type} {program : List Stmt} {L M : Licence} {t : Watched}

/-- The step stays within its licence. -/
def Orderly (program : List Stmt) (L : Licence) (t : Watched) (x : Watching α) (post : α → Prop) :
    Prop :=
  match x t with
  | .ok a u => Advance L t u ∧ u.strays program = t.strays program ∧ post a
  | .error i u => Advance L t u ∧ i.Allowed L (t.strays program) (u.strays program)

variable {x : Watching α} {k : α → Watching β} {post mid : α → Prop} {post' : β → Prop}

namespace Orderly

/-! ## Laws -/

theorem pure (ht : t.machine.Fine) {a : α} (h : post a) : Orderly program L t (pure a) post :=
  ⟨.refl L ht, rfl, h⟩

theorem throw (ht : t.machine.Fine) {i : Interrupt}
    (h : i.Allowed L (t.strays program) (t.strays program)) :
    Orderly program L t (throw i : Watching α) post := ⟨.refl L ht, h⟩

theorem fail (ht : t.machine.Fine) (place : Place) {cause : FaultCause}
    (h : Fault.Common ⟨place, cause⟩) :
    Orderly program L t (step (Run.fail place cause) : Watching α) post :=
  ⟨.refl L ht, .inl ⟨.inl h, rfl⟩⟩

/-- A step that another one goes on with from a later state. -/
theorem of_eq (w : Watched) {y : Watching α} (he : x t = y w) (ha : Advance L t w)
    (hs : w.strays program = t.strays program) (h : Orderly program L w y post) :
    Orderly program L t x post := by
  unfold Orderly at h ⊢
  rw [he]
  rw [hs] at h
  cases hy : y w with
  | ok a u =>
    rw [hy] at h
    exact ⟨ha.trans h.1, h.2⟩
  | error i u =>
    rw [hy] at h
    exact ⟨ha.trans h.1, h.2⟩

/-- One step after another; the first may do less than both together. -/
theorem bind_le (hL : M.Le L) (h : Orderly program M t x mid)
    (hk : ∀ a u, Advance M t u → mid a → Orderly program L u (k a) post') :
    Orderly program L t (x >>= k) post' := by
  unfold Orderly at h
  cases hx : x t with
  | ok a u =>
    rw [hx] at h
    obtain ⟨ha, hs, hm⟩ := h
    exact .of_eq u (by rw [bind_apply, hx]) (ha.mono hL) hs (hk a u ha hm)
  | error i u =>
    rw [hx] at h
    unfold Orderly
    rw [bind_apply, hx]
    exact ⟨h.1.mono hL, h.2.mono hL⟩

theorem bind (h : Orderly program L t x mid)
    (hk : ∀ a u, Advance L t u → mid a → Orderly program L u (k a) post') :
    Orderly program L t (x >>= k) post' := h.bind_le (.refl L) hk

/-- An expression, and what comes after it. -/
theorem andThen (h : Orderly program .nothing t x mid)
    (hk : ∀ a u, Advance .nothing t u → mid a → Orderly program L u (k a) post') :
    Orderly program L t (x >>= k) post' := h.bind_le (Licence.nothing_le L) hk

theorem mono (hL : L.Le M) (h : Orderly program L t x mid) (hp : ∀ a, mid a → post a) :
    Orderly program M t x post := by
  unfold Orderly at h ⊢
  cases hx : x t with
  | ok a u =>
    rw [hx] at h
    exact ⟨h.1.mono hL, h.2.1, hp a h.2.2⟩
  | error i u =>
    rw [hx] at h
    exact ⟨h.1.mono hL, h.2.mono hL⟩

/-- What an expression does any step may do. -/
theorem wide (h : Orderly program .nothing t x post) : Orderly program L t x post :=
  h.mono (Licence.nothing_le L) fun _ hp => hp

theorem discard (h : Orderly program L t x mid) :
    Orderly program L t (discard x) fun _ => True :=
  h.bind fun _ _ ha _ => .pure ha.fine trivial

/-- What happens in scopes that were not there before is nothing to those that were. -/
theorem inside (hM : ∀ id x, M.binds id x → t.machine.scopes.size ≤ id)
    (h : Orderly program M t x post) :
    Orderly program { M with binds := Machine.noNames } t x post := by
  unfold Orderly at h ⊢
  cases hx : x t with
  | ok a u =>
    rw [hx] at h
    exact ⟨{ h.1 with grown := h.1.grown.shut hM }, h.2⟩
  | error i u =>
    rw [hx] at h
    refine ⟨{ h.1 with grown := h.1.grown.shut hM }, ?_⟩
    cases i <;> exact h.2

/-- `Orderly.inside` for a step that does nothing else. -/
theorem shut (h : Orderly program (.beyond t.machine.scopes.size) t x post) :
    Orderly program L t x post := wide (h.inside fun _ _ h => h)

/-- A step in another scope is back in the scope that it came from. -/
theorem within {scope : ScopeId} (ht : t.machine.Fine)
    (h : Orderly program L (t.running scope) x post) :
    Orderly program L t (within scope x) post := by
  have back {u : Watched} (ha : Advance L (t.running scope) u) :
      Advance L t (u.running t.machine.current) :=
    ⟨{ ha.grown with current := rfl },
      ha.fine.running (Nat.lt_of_lt_of_le ht.current ha.grown.size), ha.visits⟩
  unfold Orderly at h ⊢
  rw [within_apply]
  cases hy : x (t.running scope) with
  | ok a u =>
    rw [hy] at h
    exact ⟨back h.1, h.2⟩
  | error i u =>
    rw [hy] at h
    exact ⟨back h.1, h.2⟩

/-- The body of a function passes no `return` on, and no `break` but as a fault. -/
theorem catching {x : Watching Unit} {mid : Unit → Prop} (h : Orderly program M t x mid)
    (hL : ∀ id n, M.binds id n → L.binds id n) (hc : ∀ n, ¬ M.clashes n)
    (hb : ∀ b, M.breaks b → b = false) :
    Orderly program L t (catching x) Value.Fine := by
  have wide {u : Watched} (ha : Advance M t u) : Advance L t u :=
    { ha with grown := ha.grown.mono hL }
  unfold Orderly at h ⊢
  unfold Watching.catching
  cases hx : x t with
  | ok a u =>
    rw [hx] at h
    exact ⟨wide h.1, h.2.1, trivial⟩
  | error i u =>
    rw [hx] at h
    obtain ⟨ha, hi⟩ := h
    cases i with
    | fault f =>
      refine ⟨wide ha, hi.imp_left fun ⟨hf, hs⟩ => ⟨.inl ?_, hs⟩⟩
      exact hf.elim (fun h => h) fun ⟨n, hn, _⟩ => absurd hn (hc n)
    | breaking p =>
      obtain ⟨b, hpb, hs⟩ := hi
      cases hb b hpb
      exact ⟨wide ha, .inr ⟨rfl, hs⟩⟩
    | returning v p => exact ⟨wide ha, hi.2.2, hi.2.1⟩
    | exhausted => exact ⟨wide ha, hi⟩

/-! ## The record -/

/-- The record of how things were made does not matter. -/
theorem note {change : Machine → Record → Record}
    (hc : ∀ m r, (change m r).visits = r.visits) (ht : t.machine.Fine)
    (h : ∀ u : Watched, u.machine = t.machine → Orderly program L u x post) :
    Orderly program L t (note change >>= fun _ => x) post := by
  let u : Watched := { t with record := change t.machine t.record }
  refine .of_eq u rfl ⟨.refl _ _, ht, fun v hv => .inl ?_⟩ ?_ (h u rfl)
  · rwa [show u.record.visits = t.record.visits from hc _ _] at hv
  · rw [Watched.strays, Watched.strays, show u.record.visits = t.record.visits from hc _ _]

/-- To come to a point that is no `break`. -/
theorem visit {σ : Site} {node : Node} (ht : t.machine.Fine)
    (he : ∀ e, node = .expression e → e.Fine)
    (hn : ∀ s, node = .statement s → s.Fine ∧ s.Ready t.machine)
    (hb : ∀ p, node ≠ .statement (.breakOut p))
    (h : ∀ u : Watched, u.machine = t.machine → Orderly program L u x post) :
    Orderly program L t (visit σ node >>= fun _ => x) post := by
  have hv : Visit.stray? program ⟨σ, node, t.machine, t.record.origins⟩ = none := by
    rw [Option.eq_none_iff_forall_ne_some]
    exact fun p hp => hb p (Visit.stray?_eq_some.1 hp).1
  refine .of_eq (t.visiting σ node) rfl ⟨.refl _ _, ht, fun v hv => ?_⟩ ?_ (h _ rfl)
  · rcases List.mem_cons.1 hv with rfl | hv
    · exact .inr ⟨ht, he, hn⟩
    · exact .inl hv
  · exact List.filterMap_cons_none hv

/-! ## Steps on a machine -/

theorem check {look : Machine → Except Fault α} (ht : t.machine.Fine)
    (ho : ∀ a, look t.machine = .ok a → post a)
    (he : ∀ f, look t.machine = .error f → f.Common) :
    Orderly program L t (step (Run.check look)) post := by
  unfold Orderly step Run.check
  cases h : look t.machine with
  | ok a => exact ⟨.refl L ht, rfl, ho a h⟩
  | error f => exact ⟨.refl L ht, .inl ⟨.inl (he f h), rfl⟩⟩

/-- A step that changes the machine and never fails. -/
theorem of_run {y : Run α} {a : α} {m : Machine} (hy : y t.machine = .ok a m)
    (hg : Machine.Grown L.binds t.machine m) (hm : m.Fine) (h : post a) :
    Orderly program L t (step y) post := by
  unfold Orderly step
  rw [hy]
  exact ⟨.of_machine hg hm, rfl, h⟩

/-- A step that leaves the scopes alone and never fails. -/
theorem of_still {y : Run α} {a : α} {m : Machine} (hy : y t.machine = .ok a m)
    (hs : m.scopes = t.machine.scopes) (hg : m.globals = t.machine.globals)
    (hc : m.current = t.machine.current) (hm : m.Fine) (h : post a) :
    Orderly program L t (step y) post := .of_run hy (Machine.grown_of_scopes hs hg hc _) hm h

theorem get (ht : t.machine.Fine) : Orderly program L t (step get) (· = t.machine) :=
  .of_run rfl (.refl _ _) ht rfl

theorem newIdentity (ht : t.machine.Fine) :
    Orderly program L t (step Run.newIdentity) fun _ => True :=
  .of_still rfl rfl rfl rfl { ht with } trivial

theorem newScope (ht : t.machine.Fine) (parent : ScopeId) :
    Orderly program L t (step (Run.newScope parent)) (· = t.machine.scopes.size) :=
  .of_run rfl (t.machine.grown_child parent _) (ht.child parent) rfl

theorem bindIn (ht : t.machine.Fine) {id : ScopeId} {x : String} {v : Value} (hv : v.Fine)
    (hid : L.binds id x) : Orderly program L t (step (Run.bindIn id x v)) fun _ => True :=
  .of_run rfl (t.machine.grown_insert v (.inr hid)) (ht.insert id x hv) trivial

theorem newObject (ht : t.machine.Fine) {c : Class} (hc : c.Fine) :
    Orderly program L t (step (Run.newObject c)) Value.Fine :=
  .of_still rfl rfl rfl rfl ht.newObject hc

theorem setField (ht : t.machine.Fine) (object : Nat) (x : String) {v : Value} (hv : v.Fine) :
    Orderly program L t (step (Run.setField object x v)) fun _ => True :=
  .of_still rfl rfl rfl rfl (ht.setField object x hv) trivial

theorem readClock (ht : t.machine.Fine) : Orderly program L t (step Run.readClock) Value.Fine :=
  .of_still rfl rfl rfl rfl { ht with } trivial

theorem print (ht : t.machine.Fine) (text : String) (place : Place) :
    Orderly program L t (step (Run.print text place)) fun _ => True := by
  have hadvance (s : Sink) : Advance L t { t with machine := { t.machine with sink := s } } := by
    refine .of_machine (Machine.grown_of_scopes ?_ ?_ ?_ _) { ht with } <;> rfl
  unfold Orderly step Run.print
  dsimp only
  cases (t.machine.sink.put text).2 with
  | none => exact ⟨hadvance _, rfl, trivial⟩
  | some problem => exact ⟨hadvance _, .inl ⟨.inl ⟨by simp, by simp, by simp⟩, rfl⟩⟩

/-- A value for a name that is bound already. -/
theorem reassign (ht : t.machine.Fine) {choose : Machine → Except Fault ScopeId} {x : String}
    {v : Value} (hv : v.Fine) (he : ∀ f, choose t.machine = .error f → f.Common)
    (ho : ∀ id, choose t.machine = .ok id → (t.machine.own? id x).isSome) :
    Orderly program L t (step (Run.store choose x v)) fun _ => True := by
  unfold Orderly step Run.store
  cases h : choose t.machine with
  | ok id =>
    have hgrown : Machine.Grown L.binds t.machine
        { t.machine with scopes := t.machine.scopes.insert id x v } :=
      t.machine.grown_insert v (.inl (ho id h))
    exact ⟨.of_machine hgrown (ht.insert id x hv), rfl, trivial⟩
  | error f => exact ⟨.refl L ht, .inl ⟨.inl (he f h), rfl⟩⟩

/-- A definition fails only if the name is bound already and may not be again. -/
theorem define (ht : t.machine.Fine) {name : Name} {v : Value} (hv : v.Fine)
    (hb : L.binds t.machine.current name.text)
    (hc : (t.machine.own? t.machine.current name.text).isSome →
      (t.machine.allow? t.machine.current).getD false = false → L.clashes name) :
    Orderly program L t (step (Run.define name v)) fun _ => True := by
  unfold Orderly step Run.define Run.store Scopes.definable
  dsimp only
  by_cases hcl : (!(t.machine.allow? t.machine.current).getD false &&
      (t.machine.own? t.machine.current name.text).isSome) = true
  · rw [if_pos hcl]
    simp only [Bool.and_eq_true, Bool.not_eq_true'] at hcl
    exact ⟨.refl L ht, .inl ⟨.inr ⟨name, hc hcl.2 hcl.1, rfl⟩, rfl⟩⟩
  · rw [if_neg hcl]
    exact ⟨.of_machine (t.machine.grown_insert v (.inr hb)) (ht.insert _ _ hv), rfl, trivial⟩

end Orderly

end Watching

end LoxLang
