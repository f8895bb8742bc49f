import LoxLang.Proofs.Padding.Run
import LoxLang.Proofs.Session.Agreement
import LoxLang.Proofs.Session.Kept

/-!
# Closed machines

A machine is closed if every scope that it knows of is one of its scopes. So it is before it
has run anything, and every step keeps it so.
-/

namespace LoxLang

open Run

/-- The methods of the class were made in the first `n` scopes. -/
def Class.Within (n : Nat) : Class → Prop
  | .mk _ _ none methods => ∀ p ∈ methods, p.2.scope < n
  | .mk _ _ (some superclass) methods => superclass.Within n ∧ ∀ p ∈ methods, p.2.scope < n

/-- The functions that the value is made of were made in the first `n` scopes. -/
def Value.Within (n : Nat) : Value → Prop
  | .function f => f.scope < n
  | .classValue c | .object _ c => c.Within n
  | _ => True

/-- Every scope that the machine knows of is one of its scopes, and nothing is around the
global one. -/
structure Machine.Closed (m : Machine) : Prop where
  current : m.current < m.scopes.size
  globals : m.globals < m.scopes.size
  root : m.scopes[m.globals]?.bind Scope.parent = none
  parent : ∀ (a : ScopeId) b, m.scopes[a]?.bind Scope.parent = some b → b < m.scopes.size
  bound : ∀ a n v, m.scopes.own? a n = some v → v.Within m.scopes.size
  fields : ∀ i n v, (m.fieldsOf i).find? n = some v → v.Within m.scopes.size

def Machine.inside (m : Machine) : Machine :=
  { m with scopes := (m.scopes.child m.current).1, current := m.scopes.size }

/-! ## A machine next to itself -/

section
variable {n : Nat}

theorem Links.below_same (n : Nat) : (Links.same n).Below n n := by
  rintro g a _ ⟨-, rfl, ha⟩
  exact ⟨ha, ha⟩

theorem Closure.padded_same {f : Closure} (h : f.scope < n) (inside : Nat) :
    f.Padded (.same n) inside f :=
  ⟨rfl, rfl, rfl, rfl, none, ⟨rfl, rfl, h⟩, Stmt.allPadded_refl _, fun _ _ => Gap.none_ne⟩

theorem Class.tablePadded_same {t : Bindings Closure} (h : ∀ p ∈ t, p.2.scope < n) :
    Class.TablePadded (.same n) t t :=
  List.forall₂_same.2 fun p hp => ⟨rfl, Closure.padded_same (h p hp) 2⟩

theorem Class.Within.padded {c : Class} (h : c.Within n) : c.Padded (.same n) c := by
  match c with
  | .mk i name none _ => exact .plain i name (tablePadded_same h)
  | .mk i name (some _) _ => exact .derived i name (padded h.1) (tablePadded_same h.2)

theorem Value.Within.padded {v : Value} (h : v.Within n) : v.Padded (.same n) v := by
  cases v with
  | function f => exact .function (Closure.padded_same h 1)
  | classValue c => exact .classValue (Class.Within.padded h)
  | object i c => exact .object i (Class.Within.padded h)
  | _ => exact .plain trivial

theorem rel_same {α : Type} {S : α → α → Prop} {o : Option α} (h : ∀ a, o = some a → S a a) :
    Option.Rel S o o := by
  cases o with
  | none => exact .none
  | some a => exact .some (h a rfl)

/-- A closed machine differs from itself in no scope. -/
theorem Machine.Closed.padded {m : Machine} (h : m.Closed) :
    Machine.Padded (.same m.scopes.size) none m m where
  scopes :=
    { below := Links.below_same _
      grows := Nat.le_refl _
      even := fun _ {_ _ _} => Iff.rfl
      allow := by
        rintro g a _ ⟨-, rfl, -⟩
        rfl
      pad := fun hl => absurd hl.1.symm Gap.none_ne
      parent := by
        rintro g _ a - ⟨rfl, rfl, -⟩
        exact rel_same fun b hb => ⟨rfl, rfl, h.parent a b hb⟩
      own? := by
        rintro _ a ⟨g, -, -, rfl, -⟩ n
        exact rel_same fun v hv => (h.bound a n v hv).padded }
  count := rfl
  objects i n := rel_same fun v hv => (h.fields i n v hv).padded
  fresh := rfl
  globals := ⟨rfl, rfl, h.globals⟩
  root := h.root
  current := ⟨rfl, rfl, h.current⟩
  sink := rfl
  clock := rfl

end

section
variable {L : Links} {n n' : Nat} (hb : L.Below n n')
include hb

theorem Closure.Padded.within {inside : Nat} {f f' : Closure} (h : f.Padded L inside f') :
    f.scope < n := by
  obtain ⟨g, hl, -⟩ := h.code
  exact (hb hl).1

/-- Methods that are paired have their scopes in the machine. -/
theorem Class.TablePadded.within {t t' : Bindings Closure} (h : Class.TablePadded L t t') :
    ∀ p ∈ t, p.2.scope < n := by
  induction h with
  | nil => nofun
  | cons hp _ ih => exact List.forall_mem_cons.2 ⟨hp.2.within hb, ih⟩

theorem Class.Padded.within {c c' : Class} (h : c.Padded L c') : c.Within n := by
  induction h with
  | plain _ _ ht => exact ht.within hb
  | derived _ _ _ ht ih => exact ⟨ih, ht.within hb⟩

theorem Value.Padded.within {v v' : Value} (h : v.Padded L v') : v.Within n := by
  cases h with
  | plain h => cases v <;> first | exact h.elim | trivial
  | function h => exact h.within hb
  | classValue h => exact h.within hb
  | object _ h => exact h.within hb

end

/-- A machine that differs from itself in no scope is closed. -/
theorem Machine.Padded.closed {L : Links} {m : Machine} (h : Machine.Padded L none m m) :
    m.Closed := by
  have hb := h.scopes.below
  have own {a : ScopeId} (ha : a < m.scopes.size) : L.links none a a :=
    (h.scopes.even rfl).2 ⟨rfl, rfl, ha⟩
  have left {α : Type} {S : α → α → Prop} {o : Option α} {a : α} (hr : Option.Rel S o o)
      (ho : o = some a) : S a a := by
    subst ho
    cases hr
    assumption
  refine ⟨(hb h.current).1, (hb h.globals).1, h.root, fun a b hp => ?_, fun a n v hv => ?_,
    fun i n v hv => ?_⟩
  · obtain ⟨s, hs, -⟩ := Option.bind_eq_some_iff.1 hp
    obtain ⟨ha, -⟩ := Array.getElem?_eq_some_iff.1 hs
    exact (hb (left (h.scopes.parent (g := none) Gap.none_ne (own ha)) hp)).1
  · obtain ⟨s, hs, -⟩ := Option.bind_eq_some_iff.1 hv
    obtain ⟨ha, -⟩ := Array.getElem?_eq_some_iff.1 hs
    exact (left (h.scopes.own? ⟨none, Gap.none_ne, own ha⟩ n) hv).within hb
  · exact (left (h.objects i n) hv).within hb

/-! ## Steps -/

theorem closed_start (allowRedefinition : Bool) (sink : Sink) (clock : Clock) :
    (Machine.start allowRedefinition sink clock).Closed := by
  have hsize : (Machine.start allowRedefinition sink clock).scopes.size = 1 := rfl
  refine ⟨?_, ?_, rfl, fun a b hp => ?_, fun a n v hv => ?_, fun i n v hv => ?_⟩
  · rw [hsize]
    exact Nat.one_pos
  · rw [hsize]
    exact Nat.one_pos
  · match a with
    | 0 => cases hp
    | a + 1 => cases hp
  · change ((Scopes.root allowRedefinition).insert 0 "clock" (.native .clock)).own? a n =
      some v at hv
    rw [Scopes.own?_insert] at hv
    split at hv
    · cases hv
      trivial
    · match a with
      | 0 => cases hv
      | a + 1 => cases hv
  · cases hv

/-- The machine that a step ends in. -/
theorem EndPadded.closed {α : Type} {L : Links} {post : Links → α → α → Prop}
    {r : EStateM.Result Interrupt Machine α} (h : EndPadded L none post r r) :
    (endOf r).Closed := by
  cases h with
  | ok _ hm _ => exact hm.closed
  | error _ hm _ => exact hm.closed

section
variable {m : Machine} (h : m.Closed)
include h

/-- Statements keep a machine closed, however they end. -/
theorem Machine.Closed.exec (fuel : Nat) (s : Stmt) : (endOf (LoxLang.exec fuel s m)).Closed :=
  ((PadStep.fuelled fuel).2.1 _ _ _ _ s.padded_refl m m h.padded).closed

theorem Machine.Closed.eval (fuel : Nat) (e : Expr) : (endOf (LoxLang.eval fuel e m)).Closed :=
  ((PadStep.fuelled fuel).1 _ _ _ _ e.padded_refl m m h.padded).closed

theorem Machine.Closed.inside : m.inside.Closed := by
  have hs := PadStep.newScope (i := none) h.padded.current m m h.padded
  cases hs with
  | ok _ hm hlink => exact (hm.running hlink).closed

/-- Binding a value of the machine in one of its scopes leaves it closed. -/
theorem Machine.Closed.insert {a : ScopeId} (ha : a < m.scopes.size) (n : String) {v : Value}
    (hv : v.Within m.scopes.size) : Machine.Closed { m with scopes := m.scopes.insert a n v } :=
  (h.padded.insert ⟨none, Gap.none_ne, rfl, rfl, ha⟩ n hv.padded).closed

/-- Scopes that lie as before and bind nothing new. -/
theorem Machine.Closed.of_scopes {ss : Scopes} {current : ScopeId}
    (hsize : ss.size = m.scopes.size)
    (hparent : ∀ a : ScopeId, ss[a]?.bind Scope.parent = m.scopes[a]?.bind Scope.parent)
    (hown : ∀ (a : ScopeId) n v, ss.own? a n = some v → m.scopes.own? a n = some v)
    (hc : current < m.scopes.size) :
    Machine.Closed { m with scopes := ss, current := current } where
  current := by
    rw [hsize]
    exact hc
  globals := by
    rw [hsize]
    exact h.globals
  root := (hparent _).trans h.root
  parent a b hb := by
    rw [hsize]
    exact h.parent a b ((hparent a).symm.trans hb)
  bound a n v hv := by
    rw [hsize]
    exact h.bound a n v (hown a n v hv)
  fields i n v hv := by
    rw [hsize]
    exact h.fields i n v hv

theorem Machine.Closed.clearGlobals : m.clearGlobals.Closed := by
  have hsize : (m.scopes.clear m.globals).size = m.scopes.size := by simp [Scopes.clear]
  refine (h.of_scopes hsize (Scopes.parent_clear _ _) (fun a n v hv => ?_) h.globals).insert ?_
    "clock" trivial
  · rw [Scopes.own?_clear] at hv
    split at hv
    · cases hv
    · exact hv
  · rw [hsize]
    exact h.globals

theorem Machine.Closed.setAllowRedefinition (allow : Bool) :
    (m.setAllowRedefinition allow).Closed :=
  h.of_scopes (by simp [Scopes.setAllowRedefinition]) (Scopes.parent_allow _ _ allow)
    (fun a n v hv => (Scopes.own?_allow _ _ allow a n).symm.trans hv) h.current

end

/-- The machine of a host is closed throughout a session. -/
theorem closed_after (config : Config) (sink : Sink) (clock : Clock) (past : List (Nat × Request)) :
    (Host.after config sink clock past).machine.Closed :=
  Machine.Kept.after
    { eval := fun fuel e _ h => h.eval fuel e
      exec := fun fuel s _ h => h.exec fuel s
      clearGlobals := fun _ h => h.clearGlobals
      setAllowRedefinition := fun _ allow h => h.setAllowRedefinition allow }
    (closed_start config.allowRedefinition sink clock) past

end LoxLang
