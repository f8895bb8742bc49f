import LoxLang.Proofs.Curbed.Basic
import LoxLang.Proofs.Session.Basic

/-!
# What a session keeps

A property of machines that expressions and statements keep, however they end, and that the
requests without a source keep, holds of the machine of a host throughout a session.
-/

namespace LoxLang

namespace Run

variable {α : Type}

def endOf : EStateM.Result Interrupt Machine α → Machine
  | .ok _ m => m
  | .error _ m => m

/-- An outcome comes with the machine that the step ends in. -/
theorem endOf_of_outcome {step : Run α} {m n : Machine} {result : Except Fault α}
    (ho : step.outcome? m = some (result, n)) : endOf (step m) = n := by
  unfold Run.outcome? at ho
  cases he : step m with
  | ok a n =>
    rw [he] at ho
    cases ho
    rfl
  | error i n =>
    rw [he] at ho
    obtain ⟨f, -, hf⟩ := Option.map_eq_some_iff.1 ho
    cases hf
    rfl

end Run

open Run (endOf endOf_of_outcome)

/-- The property holds after all that a host does to its machine. -/
structure Machine.Kept (K : Machine → Prop) : Prop where
  eval : ∀ fuel e m, K m → K (endOf (eval fuel e m))
  exec : ∀ fuel s m, K m → K (endOf (exec fuel s m))
  clearGlobals : ∀ m, K m → K m.clearGlobals
  setAllowRedefinition : ∀ m allow, K m → K (m.setAllowRedefinition allow)

namespace Machine.Kept

variable {K : Machine → Prop} (hk : Machine.Kept K) {h : Host}
include hk

theorem execAll (fuel : Nat) (ss : List Stmt) {m : Machine} (hm : K m) :
    K (endOf (execAll fuel ss m)) := by
  induction ss generalizing m with
  | nil => exact hm
  | cons s ss ih =>
    have hs := hk.exec fuel s m hm
    show K (endOf ((LoxLang.exec fuel s >>= fun _ => LoxLang.execAll fuel ss) m))
    rw [Run.bind_apply]
    cases he : LoxLang.exec fuel s m with
    | ok _ n =>
      rw [he] at hs
      exact ih hs
    | error i n =>
      rw [he] at hs
      exact hs

theorem programValue (fuel : Nat) (ss : List Stmt) {m : Machine} (hm : K m) :
    K (endOf (Host.programValue fuel ss m)) := by
  unfold Host.programValue
  split
  · exact hk.eval fuel _ m hm
  · have hs := hk.execAll fuel ss hm
    rw [Run.bind_apply]
    cases he : LoxLang.execAll fuel ss m with
    | ok _ n =>
      rw [he] at hs
      exact hs
    | error i n =>
      rw [he] at hs
      exact hs

omit hk in
/-- What a step keeps, an evaluation of a host keeps. -/
theorem evaluateWith (hm : K h.machine) {step : Run Value} (hs : K (endOf (step h.machine)))
    {h' : Host} {result : Evaluation} (he : h.evaluateWith step = some (result, h')) :
    K h'.machine := by
  unfold Host.evaluateWith at he
  split at he
  · cases he
    exact hm
  · obtain ⟨⟨outcome, m⟩, ho, he⟩ := Option.map_eq_some_iff.1 he
    rw [endOf_of_outcome ho] at hs
    cases outcome <;> cases he <;> exact hs

theorem run (hm : K h.machine) {fuel : Nat} {source : String} {h' : Host} {report : Report}
    (hr : h.run fuel source = some (report, h')) : K h'.machine := by
  unfold Host.run at hr
  dsimp only at hr
  split at hr
  · cases hr
    exact hm
  · next ss _ =>
    split at hr
    · cases hr
      exact hm
    · obtain ⟨⟨outcome, m⟩, ho, hr⟩ := Option.map_eq_some_iff.1 hr
      have hs := hk.execAll fuel ss hm
      rw [endOf_of_outcome ho] at hs
      cases outcome <;> cases hr <;> exact hs

theorem perform (hm : K h.machine) {fuel : Nat} {request : Request} {response : Response}
    {h' : Host} (hp : h.perform fuel request = some (response, h')) : K h'.machine := by
  unfold Host.perform at hp
  cases request with
  | run source =>
    obtain ⟨⟨report, k⟩, hr, hp⟩ := Option.map_eq_some_iff.1 hp
    cases hp
    exact hk.run hm hr
  | evaluate source =>
    obtain ⟨⟨result, k⟩, hr, hp⟩ := Option.map_eq_some_iff.1 hp
    cases hp
    unfold Host.evaluate at hr
    dsimp only at hr
    split at hr
    · exact evaluateWith hm (hk.programValue fuel _ hm) hr
    · cases hr
      exact hm
  | evaluateExpression source =>
    obtain ⟨⟨result, k⟩, hr, hp⟩ := Option.map_eq_some_iff.1 hp
    cases hp
    unfold Host.evaluateExpression at hr
    split at hr
    · cases hr
      exact hm
    · exact evaluateWith hm (hk.eval fuel _ _ hm) hr
  | clear =>
    cases hp
    exact hk.clearGlobals _ hm
  | allowRedefinition allow =>
    cases hp
    exact hk.setAllowRedefinition _ allow hm

/-- Throughout a session. -/
theorem after {config : Config} {sink : Sink} {clock : Clock}
    (hstart : K (Host.start config sink clock).machine) (past : List (Nat × Request)) :
    K (Host.after config sink clock past).machine := by
  unfold Host.after
  suffices hall : ∀ h : Host, K h.machine → K (past.foldl Host.next h).machine from hall _ hstart
  induction past with
  | nil => exact fun _ hm => hm
  | cons request past ih =>
    refine fun h hm => ih _ ?_
    unfold Host.next
    cases hp : h.perform request.1 request.2 with
    | none => exact hm
    | some answer => exact hk.perform hm hp

end Machine.Kept

end LoxLang
