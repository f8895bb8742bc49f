import LoxLang.Proofs.Grammar.Forward
import LoxLang.Proofs.Grammar.Front
import LoxLang.Proofs.Grammar.Sound
import LoxLang.Tree.Reading

/-!
# Reading ends

The readers nest to a bounded depth and their loops have a limit, but neither bound ever
ends a reading: whatever stood at the bottom of the nesting would not be asked, and every
loop stops by itself. So a token list is read to its end, each declaration takes a token or
more, and misfits and statements together are no more than the tokens.
-/

namespace LoxLang

namespace Phrase

variable {α β : Type}

/-! ## Loops that stop by themselves -/

/-- What a step gives that is repeated, without any limit, until it gives nothing or is
refused. -/
inductive Repeats (step : Phrase (Option α)) :
    Cursor → EStateM.Result Misfit Cursor (List α) → Prop
  | stop {c d : Cursor} (h : step c = .ok none d) : Repeats step c (.ok [] d)
  | refused {c d : Cursor} {m : Misfit} (h : step c = .error m d) : Repeats step c (.error m d)
  | next {c d e : Cursor} {a : α} {as : List α} (h : step c = .ok (some a) d)
    (hr : Repeats step d (.ok as e)) : Repeats step c (.ok (a :: as) e)
  | refusedNext {c d e : Cursor} {a : α} {m : Misfit} (h : step c = .ok (some a) d)
    (hr : Repeats step d (.error m e)) : Repeats step c (.error m e)

/-- What becomes of a value that a step lets grow, without any limit, until the step makes
nothing of it or is refused. -/
inductive GrowsOut (step : α → Phrase (Option α)) :
    α → Cursor → EStateM.Result Misfit Cursor α → Prop
  | stop {a : α} {c d : Cursor} (h : step a c = .ok none d) : GrowsOut step a c (.ok a d)
  | refused {a : α} {c d : Cursor} {m : Misfit} (h : step a c = .error m d) :
    GrowsOut step a c (.error m d)
  | next {a b : α} {c d : Cursor} {r : EStateM.Result Misfit Cursor α}
    (h : step a c = .ok (some b) d) (hr : GrowsOut step b d r) : GrowsOut step a c r

/-- A step that takes a token if it gives something, and gives nothing at the end. -/
structure Advances (step : Phrase (Option α)) : Prop where
  takes : ∀ {c d : Cursor} {a : α}, step c = .ok (some a) d → d.rest.length < c.rest.length
  stops : ∀ ms : Array Misfit, step ⟨[], ms⟩ = .ok none ⟨[], ms⟩

theorem Advances.repeats {step : Phrase (Option α)} (h : Advances step) (c : Cursor) :
    Repeats step c (many step c) := by
  have upTo : ∀ (limit : List Token) (c : Cursor), c.rest.length ≤ limit.length →
      Repeats step c (manyUpTo step limit c) := by
    intro limit
    induction limit with
    | nil =>
      rintro ⟨rest, ms⟩ hc
      obtain rfl : rest = [] := List.length_eq_zero_iff.1 (Nat.le_zero.1 hc)
      exact .stop (h.stops ms)
    | cons t limit ih =>
      intro c hc
      rw [manyUpTo, bind_apply]
      cases hs : step c with
      | error m d => exact .refused hs
      | ok o d =>
        cases o with
        | none => exact .stop hs
        | some a =>
          have hd : d.rest.length ≤ limit.length :=
            Nat.le_of_lt_succ (Nat.lt_of_lt_of_le (h.takes hs) hc)
          have hr := ih d hd
          dsimp only
          rw [bind_apply]
          cases hm : manyUpTo step limit d with
          | ok as e =>
            rw [hm] at hr
            exact .next hs hr
          | error m e =>
            rw [hm] at hr
            exact .refusedNext hs hr
  exact upTo c.rest c (Nat.le_refl _)

theorem Advances.grown {step : α → Phrase (Option α)} (h : ∀ a, Advances (step a)) (a : α)
    (c : Cursor) : GrowsOut step a c (grow step a c) := by
  have upTo : ∀ (limit : List Token) (a : α) (c : Cursor), c.rest.length ≤ limit.length →
      GrowsOut step a c (growUpTo step limit a c) := by
    intro limit
    induction limit with
    | nil =>
      rintro a ⟨rest, ms⟩ hc
      obtain rfl : rest = [] := List.length_eq_zero_iff.1 (Nat.le_zero.1 hc)
      exact .stop ((h a).stops ms)
    | cons t limit ih =>
      intro a c hc
      rw [growUpTo, bind_apply]
      cases hs : step a c with
      | error m d => exact .refused hs
      | ok o d =>
        cases o with
        | none => exact .stop hs
        | some b =>
          exact .next hs (ih b d (Nat.le_of_lt_succ (Nat.lt_of_lt_of_le ((h a).takes hs) hc)))
  exact upTo c.rest a c (Nat.le_refl _)

/-- A step that begins with a token that may be there. -/
theorem Advances.optional {r : Phrase β} {none : β} (hr : Optional r none)
    {f : β → Phrase (Option α)} (hf : ∀ b, Agrees 0 0 (f b) (f b)) (hn : Advances (f none))
    (hend : ∀ ms, r ⟨[], ms⟩ = .ok none ⟨[], ms⟩) : Advances (r >>= f) where
  takes {c e a} h := by
    rw [bind_apply] at h
    obtain hp | ⟨t, b, d, hp, hc, -⟩ := hr c
    · rw [hp] at h
      exact hn.takes h
    · rw [hp] at h
      have hs := ((hf b).spends d).length_le
      rw [show f b d = .ok (some a) e from h] at hs
      rw [hc, List.length_cons]
      exact Nat.lt_succ_of_le hs
  stops ms := by
    rw [bind_apply, hend]
    exact hn.stops ms

/-- A step that goes on differently only where too few tokens are left to tell. -/
theorem Repeats.congr {n : Nat} {step step' : Phrase (Option α)} (h : Agrees n 0 step' step)
    {c : Cursor} {r : EStateM.Result Misfit Cursor (List α)} (hr : Repeats step c r)
    (hc : c.rest.length < n) : Repeats step' c r := by
  have later {c d : Cursor} {o : Option α} (hc : c.rest.length < n) (hs : step c = .ok o d) :
      d.rest.length < n := by
    have hl := (h.spends c).length_le
    rw [hs] at hl
    exact Nat.lt_of_le_of_lt hl hc
  induction hr with
  | stop hs => exact .stop ((h.same _ hc).trans hs)
  | refused hs => exact .refused ((h.same _ hc).trans hs)
  | next hs _ ih => exact .next ((h.same _ hc).trans hs) (ih (later hc hs))
  | refusedNext hs _ ih => exact .refusedNext ((h.same _ hc).trans hs) (ih (later hc hs))

/-! ## Recovery -/

/-- A token is dropped, if one is left. -/
theorem length_resume_lt {l : List Token} (h : l ≠ []) : (resume l).length < l.length := by
  cases l with
  | nil => exact absurd rfl h
  | cons t l =>
    obtain ⟨us, hu⟩ := exists_eq_append_boundary t l
    have hl := congrArg List.length hu
    rw [List.length_append] at hl
    rw [resume, List.length_cons]
    omega

theorem recovering_congr {p q : Phrase α} {c : Cursor} (h : p c = q c) :
    recovering p c = recovering q c := by
  rw [recovering, recovering, h]

/-- A phrase that is read or recovered from takes a token, and its tokens pay for the
misfits met and for what it gives. -/
theorem recovering_pays {p : Phrase α} {c : Cursor} (h : Spends 1 c (cursorOf (p c)))
    (hp : ∀ {a : α} {d : Cursor}, p c = .ok a d → d.rest.length < c.rest.length)
    (hc : c.rest ≠ []) : ∃ o d ts ms, recovering p c = .ok o d ∧ Passes c d ts ms ∧ ts ≠ [] ∧
      ms.size + o.toList.length ≤ ts.length := by
  unfold recovering
  cases hr : p c with
  | ok a d =>
    rw [hr] at h
    obtain ⟨ts, ms, ⟨hts, hms⟩, hm⟩ := h
    have hlt := hp hr
    dsimp only [cursorOf] at hts hms
    have hl := congrArg List.length hts
    rw [List.length_append] at hl
    refine ⟨some a, d, ts, ms, rfl, ⟨hts, hms⟩, List.ne_nil_of_length_pos (by omega), ?_⟩
    simp only [Option.toList_some, List.length_singleton]
    omega
  | error m d =>
    rw [hr] at h
    obtain ⟨ts, ms, ⟨hts, hms⟩, hm⟩ := h
    obtain ⟨us, hu⟩ := exists_eq_append_resume d.rest
    dsimp only [cursorOf] at hts hms
    -- either a token is dropped behind the misfit or all tokens were passed before it
    have hpos : ts.length - 1 + 1 ≤ ts.length + us.length := by
      have hl := congrArg List.length hu
      rw [List.length_append] at hl
      by_cases hd : d.rest = []
      · rw [hts, hd, List.append_nil] at hc
        have := List.length_pos_iff.2 hc
        omega
      · have := length_resume_lt hd
        omega
    refine ⟨none, ⟨resume d.rest, d.misfits.push m⟩, ts ++ us, ms.push m, rfl, ⟨?_, ?_⟩,
      List.ne_nil_of_length_pos ?_, ?_⟩
    · rw [List.append_assoc, ← hu, hts]
    · rw [hms, Array.append_push]
    · rw [List.length_append]
      omega
    · rw [Array.size_push, List.length_append, Option.toList_none, List.length_nil]
      omega

end Phrase

namespace Grammar

open Phrase

/-! ## Nesting -/

/-- Readers that nest one deeper. -/
def deeper (i : Inner) : Inner where
  declaration := recovering (declaration i)
  statement := statement i
  expression := expression i
  assignment := assignment i
  unary := unary i

/-- Readers for phrases nested up to `depth` deep, and at the bottom any other ones. -/
def nested (bottom : Inner) : Nat → Inner
  | 0 => bottom
  | depth + 1 => deeper (nested bottom depth)

/-- A declaration takes a token. -/
def TakesToken (i : Inner) : Prop :=
  ∀ {c d : Cursor} {s : Stmt}, declaration i c = .ok s d → d.rest.length < c.rest.length

theorem takes_inner (depth : Nat) : TakesToken (inner depth) := by
  intro c d s h
  obtain ⟨ts, ms, hp, hd⟩ := (reads_declaration (k := true) (readsInner_inner depth)).ok h
  have hpos := List.length_pos_iff.2 (begins_of_derives (hd (.inl rfl))).ne_nil
  rw [hp.1, List.length_append]
  omega

section
variable {n : Nat} {i j : Inner}

theorem InnerAgrees.zero (h : InnerAgrees n i j) (i' : Inner) : InnerAgrees 0 i' j :=
  ⟨h.declaration.zero _, h.statement.zero _, h.expression.zero _, h.assignment.zero _,
    h.unary.zero _⟩

/-- Readers that agree keep doing so where they recover. -/
theorem agrees_recovering {α : Type} {p q : Phrase α} (h : Agrees (n + 1) 1 p q)
    (hq : ∀ {c d : Cursor} {a : α}, q c = .ok a d → d.rest.length < c.rest.length) :
    Agrees (n + 1) 0 (ifAny (recovering p)) (ifAny (recovering q)) where
  same c hc := by
    have hr := recovering_congr (h.same c hc)
    by_cases hn : c.rest = []
    · simp only [ifAny, bind_apply, peek, hn]
      rfl
    · rw [ifAny_apply _ hn, ifAny_apply _ hn, hr]
  spends c := by
    by_cases hn : c.rest = []
    · simp only [ifAny, bind_apply, peek, hn]
      exact .refl 0 c
    · obtain ⟨o, d, ts, ms, hr, hp, -, hle⟩ := recovering_pays (h.spends c) hq hn
      rw [ifAny_apply _ hn, hr]
      exact ⟨ts, ms, hp, Nat.le_trans (Nat.le_add_right _ _) hle⟩

theorem innerAgrees_deeper (h : InnerAgrees n i j) (hj : TakesToken j) :
    InnerAgrees (n + 1) (deeper i) (deeper j) where
  declaration := agrees_recovering (agrees_declaration h) hj
  statement := ⟨(agrees_statement h).same, fun c => ((agrees_statement h).spends c).weaken⟩
  expression := ⟨(agrees_expression h).same, fun c => ((agrees_expression h).spends c).weaken⟩
  assignment := ⟨(agrees_assignment h).same, fun c => ((agrees_assignment h).spends c).weaken⟩
  unary := ⟨(agrees_unary h).same, fun c => ((agrees_unary h).spends c).weaken⟩

end

theorem innerAgrees_inner (i : Inner) : ∀ depth, InnerAgrees 0 i (inner depth)
  | 0 =>
    have refused {α : Type} (p : Phrase α) : Agrees 0 0 p (refuse .expression) :=
      Agrees.zero (n := 0) (.refuse _) p
    ⟨(Agrees.ifAny (refused (refuse .expression))).zero _, refused _, refused _, refused _,
      refused _⟩
  | depth + 1 => (innerAgrees_deeper (innerAgrees_inner i depth) (takes_inner depth)).zero i

/-- Readers nested deep enough read the same whatever is at the bottom. -/
theorem innerAgrees_nested (bottom : Inner) {n depth depth' : Nat} (hn : n ≤ depth)
    (hn' : n ≤ depth') : InnerAgrees n (nested bottom depth) (inner depth') := by
  induction n generalizing depth depth' with
  | zero => exact innerAgrees_inner _ depth'
  | succ n ih =>
    obtain ⟨depth, rfl⟩ := Nat.exists_eq_succ_of_ne_zero (Nat.ne_of_gt (Nat.zero_lt_of_lt hn))
    obtain ⟨depth', rfl⟩ := Nat.exists_eq_succ_of_ne_zero (Nat.ne_of_gt (Nat.zero_lt_of_lt hn'))
    exact innerAgrees_deeper (ih (Nat.le_of_succ_le_succ hn) (Nat.le_of_succ_le_succ hn'))
      (takes_inner depth')

/-! ## The loops of the grammar -/

/-- Every loop of the readers stops by itself. -/
structure LoopsStop (i : Inner) : Prop where
  body : ∀ c, Repeats (inBody i.declaration) c (many (inBody i.declaration) c)
  methods : ∀ c, Repeats (inBody (function i .method)) c (many (inBody (function i .method)) c)
  items : ∀ c, Repeats (nextItem? i) c (many (nextItem? i) c)
  suffixes : ∀ e c, GrowsOut (suffix? i) e c (grow (suffix? i) e c)
  operands : ∀ (table : List (Mark × BinaryOp)) (tighter : List (List (Mark × BinaryOp))),
    let step := joined? table (tighter.foldr level (unary i))
    ∀ e c, GrowsOut step e c (grow step e c)

theorem advances_ifAny {α : Type} {p : Phrase α}
    (h : ∀ {c d : Cursor} {a : α}, c.rest ≠ [] → p c = .ok a d → d.rest.length < c.rest.length) :
    Advances (ifAny p) where
  takes {c d a} hs := by
    by_cases hn : c.rest = []
    · simp only [ifAny, bind_apply, peek, hn] at hs
      cases hs
    · rw [ifAny_apply _ hn] at hs
      cases hp : p c with
      | error m e =>
        rw [hp] at hs
        cases hs
      | ok b e =>
        rw [hp] at hs
        cases hs
        exact h hn hp
  stops _ := rfl

theorem advances_inBody {α : Type} {p : Phrase α} (h : Advances (ifAny p)) :
    Advances (inBody p) where
  takes {c d a} hs := by
    rw [inBody_apply] at hs
    split at hs
    · cases hs
    · exact h.takes hs
  stops _ := rfl

theorem advances_none {α : Type} : Advances (pure none : Phrase (Option α)) where
  takes h := by cases h
  stops _ := rfl

/-- A declaration is read or recovered from; it takes a token, and its tokens pay for the
misfits met and the statement that it gives. -/
theorem declaration_pays (depth : Nat) {c : Cursor} (hc : c.rest ≠ []) :
    ∃ o d ts ms, (inner (depth + 1)).declaration c = .ok o d ∧ Passes c d ts ms ∧ ts ≠ [] ∧
      ms.size + o.toList.length ≤ ts.length :=
  have hs := (agrees_declaration (innerAgrees_inner (inner depth) depth)).spends c
  recovering_pays hs (takes_inner depth) hc

theorem advances_declaration (depth : Nat) : Advances (ifAny (inner depth).declaration) := by
  refine advances_ifAny fun {c d o} hc hd => ?_
  cases depth with
  | zero => cases hd
  | succ depth =>
    obtain ⟨o', d', ts, ms, hr, hp, hts, -⟩ := declaration_pays depth hc
    cases hr.symm.trans hd
    have := List.length_pos_iff.2 hts
    rw [hp.1, List.length_append]
    omega

theorem advances_method (depth : Nat) : Advances (ifAny (function (inner depth) .method)) := by
  refine advances_ifAny fun {c d f} _ hd => ?_
  obtain ⟨ts, ms, hp, hf⟩ := (reads_function (k := true) (readsInner_inner depth) _).ok hd
  have := List.length_pos_iff.2 (begins_of_derives (hf (.inl rfl))).ne_nil
  rw [hp.1, List.length_append]
  omega

theorem advances_property (e : Expr) : Advances (mark? .dot >>= fun o => match o with
    | some _ => return some (Expr.get e (← identifier .propertyName))
    | _ => return none) :=
  .optional (optional_mark? _) (fun o => by
    cases o with
    | some _ => exact (Agrees.identifier _).give
    | none => exact .pure none) advances_none fun _ => rfl

section
variable {n : Nat} {i j : Inner} (h : InnerAgrees n i j)
include h

theorem advances_nextItem? : Advances (nextItem? j) :=
  .optional (optional_mark? _) (fun o => by
    cases o with
    | some _ => exact (agrees_assignment h).weaken.give.zero _
    | none => exact .pure none) advances_none fun _ => rfl

theorem advances_suffix? (e : Expr) : Advances (suffix? j e) := by
  refine .optional (optional_mark? _) (fun o => ?_) (advances_property e) fun _ => rfl
  cases o with
  | some _ => exact (agrees_arguments h).give.zero _
  | none =>
    exact (Agrees.choice (n := 0) (fun _ => (Agrees.identifier _).give) (.pure none)).weaken.zero _

theorem advances_joined? (table : List (Mark × BinaryOp))
    (tighter : List (List (Mark × BinaryOp))) (e : Expr) :
    Advances (joined? table (tighter.foldr level (unary j)) e) :=
  .optional (optional_operator? _) (fun o => by
    cases o with
    | some _ => exact (agrees_levels h tighter).weaken.give.zero _
    | none => exact .pure none) advances_none fun _ => rfl

end

theorem loopsStop_inner (depth : Nat) : LoopsStop (inner depth) :=
  have hi := innerAgrees_inner (inner depth) depth
  { body := (advances_inBody (advances_declaration depth)).repeats
    methods := (advances_inBody (advances_method depth)).repeats
    items := (advances_nextItem? hi).repeats
    suffixes := Advances.grown (advances_suffix? hi)
    operands := fun table tighter => Advances.grown (advances_joined? hi table tighter) }

end Grammar

namespace Program

open Phrase Grammar

/-! ## Programs -/

/-- Declarations are read to the end, and the tokens pay for all misfits and statements. -/
theorem repeats_declaration {depth : Nat} {c : Cursor}
    {r : EStateM.Result Misfit Cursor (List (Option Stmt))}
    (h : Repeats (ifAny (Grammar.inner (depth + 1)).declaration) c r) :
    ∃ found ms, r = .ok found ⟨[], c.misfits ++ ms⟩ ∧
      ms.size + (found.filterMap id).length ≤ c.rest.length := by
  have declares {c : Cursor} (hc : c.rest ≠ []) :
      ∃ o d ts ms, ifAny (Grammar.inner (depth + 1)).declaration c = .ok (some o) d ∧
        Passes c d ts ms ∧ ms.size + o.toList.length ≤ ts.length := by
    obtain ⟨o, d, ts, ms, hr, hp, -, hle⟩ := declaration_pays depth hc
    exact ⟨o, d, ts, ms, by rw [ifAny_apply _ hc, hr], hp, hle⟩
  have done {c : Cursor} (hc : c.rest = []) :
      ifAny (Grammar.inner (depth + 1)).declaration c = .ok none c := by
    simp only [ifAny, bind_apply, peek, hc]
    rfl
  induction h with
  | @stop c d hs =>
    by_cases hc : c.rest = []
    · cases (done hc).symm.trans hs
      obtain ⟨rest, misfits⟩ := c
      subst hc
      exact ⟨[], #[], by simp, Nat.le_refl _⟩
    · obtain ⟨o, d', ts, ms, hd, -⟩ := declares hc
      cases hd.symm.trans hs
  | @refused c d m hs =>
    by_cases hc : c.rest = []
    · cases (done hc).symm.trans hs
    · obtain ⟨o, d', ts, ms, hd, -⟩ := declares hc
      cases hd.symm.trans hs
  | @next c d e o as hs _ ih =>
    obtain ⟨found, ns, hr, hle⟩ := ih
    cases hr
    by_cases hc : c.rest = []
    · cases (done hc).symm.trans hs
    · obtain ⟨o', d', ts, ms, hd, hp, hpay⟩ := declares hc
      cases hd.symm.trans hs
      refine ⟨o :: as, ms ++ ns, ?_, ?_⟩
      · rw [hp.2, Array.append_assoc]
      · have hcount : ((o :: as).filterMap id).length =
            o.toList.length + (as.filterMap id).length := by
          cases o with
          | none => simp
          | some s => simp [Nat.add_comm]
        rw [hp.1, List.length_append, Array.size_append, hcount]
        omega
  | @refusedNext c d e o m hs _ ih =>
    obtain ⟨found, ns, hr, -⟩ := ih
    cases hr

theorem suffix_of_reads {α : Type} {q : Phrase α} {D : List Token → List Token → α → Prop}
    (h : Reads true q D) (c : Cursor) : (cursorOf (q c)).rest <:+ c.rest := by
  cases hq : q c with
  | ok a d =>
    obtain ⟨ts, ms, hp, -⟩ := h.ok hq
    exact ⟨ts, hp.1.symm⟩
  | error m d =>
    obtain ⟨ts, ms, hp⟩ := h.error hq
    exact ⟨ts, hp.1.symm⟩

/-- Every token list is read up to its first `finish`, or to its end if it has none: the loop
over declarations stops by itself with no token left ahead of it, and what it finds depends
neither on how deep the readers nest, once that is more than there are tokens, nor on what
would be at the bottom; all other loops stop by themselves too. No reader goes back or past
the end, a declaration takes a token or more, and there are no more misfits and statements
than tokens. -/
theorem reading_ends (tokens : List Token) :
    let body := tokens.takeWhile (!·.isFinish)
    let p := ofTokens tokens
    (∃ found misfits, (∀ bottom depth, body.length < depth →
        Repeats (ifAny (nested bottom depth).declaration) ⟨body, #[]⟩
          (.ok found ⟨[], misfits⟩)) ∧
      p.statements = found.filterMap id ∧ p.misfits.length = misfits.size) ∧
    p.misfits.length + p.statements.length ≤ body.length ∧
    (∀ bottom depth (c : Cursor), c.rest.length < depth →
      let i := nested bottom depth
      let j := Grammar.inner (c.rest.length + 1)
      i.declaration c = j.declaration c ∧ i.statement c = j.statement c ∧
      i.expression c = j.expression c ∧ i.assignment c = j.assignment c ∧
      i.unary c = j.unary c) ∧
    (∀ depth, LoopsStop (Grammar.inner depth)) ∧
    (∀ depth (c : Cursor), let i := Grammar.inner depth
      (cursorOf (i.declaration c)).rest <:+ c.rest ∧ (cursorOf (i.statement c)).rest <:+ c.rest ∧
      (cursorOf (i.expression c)).rest <:+ c.rest ∧ (cursorOf (i.assignment c)).rest <:+ c.rest ∧
      (cursorOf (i.unary c)).rest <:+ c.rest) ∧
    ∀ depth (c : Cursor), c.rest ≠ [] → ∃ o d ts,
      (Grammar.inner (depth + 1)).declaration c = .ok o d ∧ c.rest = ts ++ d.rest ∧ ts ≠ [] := by
  intro body p
  have hr := (advances_declaration (body.length + 1)).repeats ⟨body, #[]⟩
  obtain ⟨found, ms, hm, hle⟩ := repeats_declaration hr
  rw [Array.empty_append] at hm
  have hp : p.statements = found.filterMap id ∧ p.misfits.length = ms.size := by
    have hd : declarations (body.length + 1) ⟨body, #[]⟩ = .ok (found.filterMap id) ⟨[], ms⟩ := by
      rw [declarations, bind_apply,
        show many (declaration? (body.length + 1)) ⟨body, #[]⟩ = .ok found ⟨[], ms⟩ from hm]
      rfl
    simp only [p, ofTokens, show (Token.beforeFinish tokens).1 = body from rfl, hd,
      List.length_map, Array.length_toList, and_self]
  refine ⟨⟨found, ms, fun bottom depth hd => ?_, hp⟩, ?_, fun bottom depth c hd => ?_,
    loopsStop_inner, fun depth c => ?_, fun depth c hc => ?_⟩
  · exact (hm ▸ hr).congr (innerAgrees_nested bottom hd (Nat.le_refl _)).declaration
      (Nat.lt_succ_self _)
  · rw [hp.1, hp.2]
    exact hle
  · obtain ⟨depth, rfl⟩ := Nat.exists_eq_succ_of_ne_zero (Nat.ne_of_gt (Nat.zero_lt_of_lt hd))
    have h := innerAgrees_nested bottom (Nat.le_of_lt_succ hd) (Nat.le_refl _)
    have hc := Nat.lt_succ_self c.rest.length
    refine ⟨?_, (agrees_statement h).same c hc, (agrees_expression h).same c hc,
      (agrees_assignment h).same c hc, (agrees_unary h).same c hc⟩
    exact recovering_congr ((agrees_declaration h).same c hc)
  · have h := readsInner_inner (k := true) depth
    exact ⟨suffix_of_reads h.declaration c, suffix_of_reads h.statement c,
      suffix_of_reads h.expression c, suffix_of_reads h.assignment c, suffix_of_reads h.unary c⟩
  · obtain ⟨o, d, ts, ns, hr, hp, hts, -⟩ := declaration_pays depth hc
    exact ⟨o, d, ts, hr, hp.1, hts⟩

end Program

end LoxLang
