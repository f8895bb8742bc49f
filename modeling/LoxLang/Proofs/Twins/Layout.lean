import LoxLang.Proofs.Splitting.Session
import LoxLang.Proofs.Twins.Reading
import LoxLang.Proofs.Twins.Resolving

/-!
# Layout does not matter

Two sources are written in the same words if they have the same tokens, in whatever layout. Then
the tokens of one rank stand for each other, and so do their places; these increase in both
sources, so that also what is sorted by place comes in one order. Front end and machine pass
places on and look at nothing else of them: on one host both sources come to the same.
-/

namespace LoxLang

/-! ## Sources in the same words -/

namespace Token

/-- What a token is and how it is written, but not where. -/
def word (t : Token) : String × String := (t.kind.label, t.lexeme)

/-- Nothing is wrong with the tokens of two sources, which are the same, one after the other.
Blanks, line ends and comments may differ. -/
structure SameWords (file source source' : String) : Prop where
  clean : (scan file source).2 = []
  clean' : (scan file source').2 = []
  words : (scan file source').1.map word = (scan file source).1.map word

/-- Tokens of one rank stand at these places. -/
def Stand (file source source' : String) (p p' : Place) : Prop :=
  ∃ (i : Nat) (t t' : Token), (scan file source).1[i]? = some t ∧
    (scan file source').1[i]? = some t' ∧ t.place = p ∧ t'.place = p'

variable {file source source' : String}

open Region in
/-- Tokens with the same text are of one kind and have the same value. -/
theorem kind_eq {t t' : Token} (h : t ∈ (scan file source).1) (h' : t' ∈ (scan file source').1)
    (hl : t'.lexeme = t.lexeme) : t'.kind = t.kind := by
  have hne {kind : Kind} : ¬ Lexeme "".toList kind := fun hk =>
    (Cut.token hk (ends_nil _ _)).ne_nil rfl
  rcases lexeme_of_mem_scan h with hk | ⟨he, hk⟩
  · rcases lexeme_of_mem_scan h' with hk' | ⟨he', -⟩
    · exact (hl ▸ hk').unique hk
    · exact absurd ((hl.symm.trans he') ▸ hk) hne
  · rcases lexeme_of_mem_scan h' with hk' | ⟨-, hk'⟩
    · exact absurd ((hl.trans he) ▸ hk') hne
    · rw [hk, hk']

/-- The tokens of the one source are those of the other, elsewhere. -/
theorem SameWords.elsewhere (h : SameWords file source source') :
    List.Forall₂ (Token.Elsewhere (Stand file source source')) (scan file source).1
      (scan file source').1 := by
  have hlength : (scan file source').1.length = (scan file source).1.length := by
    simpa using congrArg List.length h.words
  refine List.forall₂_iff_get.2 ⟨hlength.symm, fun i hi hi' => ?_⟩
  have hword : ((scan file source').1.map word)[i]? = ((scan file source).1.map word)[i]? := by
    rw [h.words]
  simp only [List.getElem?_map, List.getElem?_eq_getElem hi, List.getElem?_eq_getElem hi',
    Option.map_some, Option.some.injEq] at hword
  have hlexeme := (Prod.mk.inj hword).2
  exact ⟨kind_eq (List.getElem_mem hi) (List.getElem_mem hi') hlexeme, hlexeme,
    i, _, _, List.getElem?_eq_getElem hi, List.getElem?_eq_getElem hi', rfl, rfl⟩

end Token

theorem Token.ordersAlike_stand (file source source' : String) :
    Place.OrdersAlike (Stand file source source') := by
  have hlt {source : String} {i j : Nat} {t u : Token} (hij : i < j)
      (ht : (scan file source).1[i]? = some t) (hu : (scan file source).1[j]? = some u) :
      t.place.Before u.place := by
    obtain ⟨hi, rfl⟩ := List.getElem?_eq_some_iff.1 ht
    obtain ⟨hj, rfl⟩ := List.getElem?_eq_some_iff.1 hu
    exact List.pairwise_iff_getElem.1 (increasing file source) i j hi hj hij
  rintro p p' q q' ⟨i, t, t', ht, ht', rfl, rfl⟩ ⟨j, u, u', hu, hu', rfl, rfl⟩
  rcases Nat.lt_trichotomy i j with hij | rfl | hij
  · rw [(hlt hij ht hu).le.1, (hlt hij ht' hu').le.1]
  · obtain rfl := Option.some.inj (ht.symm.trans hu)
    obtain rfl := Option.some.inj (ht'.symm.trans hu')
    simp [Place.le]
  · rw [(hlt hij hu ht).le.2, (hlt hij hu' ht').le.2]

/-! ## Front ends -/

section
variable (R : Place → Place → Prop)

/-- The same problem elsewhere. It is reported in the same words, other places in them apart. -/
inductive Problem.Elsewhere : Problem → Problem → Prop
  | grammar {m m' : Misfit} (hm : m.Elsewhere R m') (hp : R m.place m'.place) :
    Problem.Elsewhere (.grammar m) (.grammar m')
  | scope {q q' : Placed ScopeProblem} (h : Placed.Elsewhere R (ScopeProblem.Elsewhere R) q q') :
    Problem.Elsewhere (.scope q) (.scope q')

/-- Two sources are read and resolved alike, up to places. -/
structure Checked.Elsewhere (c c' : Checked) : Prop where
  statements : Option.Rel (Stmt.AllElsewhere R) c.statements c'.statements
  problems : List.Forall₂ (Problem.Elsewhere R) c.problems c'.problems
  unread : List.Forall₂ (Name.Elsewhere R) c.unread c'.unread

end

variable {R : Place → Place → Prop}

theorem Problem.Elsewhere.place {q q' : Problem} (h : q.Elsewhere R q') : R q.place q'.place := by
  cases h with
  | grammar _ hp => exact hp
  | scope h => exact h.place

/-- Only the report that a name is declared again names a place, that of the first declaration. -/
theorem Problem.Elsewhere.message {q q' : Problem} (h : q.Elsewhere R q') :
    q'.message = q.message ∨ ∃ name p p', R p p' ∧
      q.message = (ScopeProblem.declaredAt name p).message ∧
      q'.message = (ScopeProblem.declaredAt name p').message := by
  cases h with
  | grammar hm _ => exact .inl hm.message
  | @scope q q' h =>
    obtain ⟨p, c⟩ := q
    obtain ⟨p', c'⟩ := q'
    obtain ⟨-, hc⟩ := h
    cases hc with
    | plain _ => exact .inl rfl
    | declaredAt name hp => exact .inr ⟨name, _, _, hp, rfl, rfl⟩

/-- A misfit at the end of tokens is about the last one. -/
theorem Misfit.found_endingAt {ts : List Token} (h : ts ≠ []) (m : Misfit) :
    (m.endingAt (Token.beforeFinish ts).2).found.isSome := by
  simp [endingAt, Token.beforeFinish, Option.isSome_or, h]

/-- Each misfit of tokens is about one of them. -/
theorem Program.found_isSome {ts : List Token} (h : ts ≠ []) :
    ∀ m ∈ (ofTokens ts).misfits, m.found.isSome := by
  have hend (ms : List Misfit) :
      ∀ m ∈ ms.map (·.endingAt (Token.beforeFinish ts).2), m.found.isSome := by
    intro m hm
    obtain ⟨m, -, rfl⟩ := List.mem_map.1 hm
    exact m.found_endingAt h
  unfold ofTokens
  dsimp only
  split
  · exact hend _
  · exact hend _

theorem Expr.found_isSome {ts : List Token} (h : ts ≠ []) {m : Misfit}
    (hm : ofTokens ts = .error m) : m.found.isSome := by
  unfold ofTokens at hm
  dsimp only at hm
  split at hm
  · cases hm
  · cases hm
    exact Misfit.found_endingAt h _

theorem Misfit.Elsewhere.problem {m m' : Misfit} (h : m.Elsewhere R m') (hfound : m.found.isSome) :
    (Problem.grammar m).Elsewhere R (.grammar m') := by
  refine .grammar h ?_
  obtain ⟨found, _⟩ := m
  obtain ⟨found', _⟩ := m'
  obtain ⟨-, hf⟩ := h
  cases hf with
  | none => cases hfound
  | some ht => exact ht.place

theorem Problem.allElsewhere_grammar {ms ms' : List Misfit}
    (h : List.Forall₂ (Misfit.Elsewhere R) ms ms') (hfound : ∀ m ∈ ms, m.found.isSome) :
    List.Forall₂ (Problem.Elsewhere R) (ms.map .grammar) (ms'.map .grammar) := by
  induction h with
  | nil => exact .nil
  | cons hm _ ih =>
    obtain ⟨hf, hfound⟩ := List.forall_mem_cons.1 hfound
    exact .cons (hm.problem hf) (ih hfound)

theorem Problem.allElsewhere_scope {α : Type} {P : α → α → Prop} {r r' : Resolved α}
    (h : r.Elsewhere R false P r') :
    List.Forall₂ (Problem.Elsewhere R) (r.problems.map .scope) (r'.problems.map .scope) := by
  have hall : r.problems.filter (·.value.reported false) = r.problems :=
    List.filter_eq_self.2 fun _ _ => rfl
  have hp := h.problems
  rw [hall] at hp
  rw [List.forall₂_map_left_iff, List.forall₂_map_right_iff]
  exact hp.imp fun _ _ => .scope

/-- **The front end does not see the layout**: sources in the same words have the same tree with
the same depths, the same problems and the same unread names, up to places. -/
theorem Checked.ofSource_elsewhere {config : Config} {source source' : String}
    (h : Token.SameWords config.file source source') :
    (ofSource config source).Elsewhere (Token.Stand config.file source source')
      (ofSource config source') := by
  obtain ⟨hstatements, hmisfits⟩ := Program.ofTokens_elsewhere h.elsewhere
  have hne : (Token.scan config.file source).1 ≠ [] := by simp [Token.scan_eq]
  have hgrammar := Problem.allElsewhere_grammar hmisfits (Program.found_isSome hne)
  have hlost : (Program.ofTokens (Token.scan config.file source').1).isLost =
      (Program.ofTokens (Token.scan config.file source).1).isLost := by
    unfold Program.isLost
    generalize (Program.ofTokens _).statements = ss at hstatements ⊢
    generalize (Program.ofTokens _).statements = ss' at hstatements ⊢
    generalize (Program.ofTokens _).misfits = ms at hmisfits ⊢
    generalize (Program.ofTokens _).misfits = ms' at hmisfits ⊢
    cases hstatements <;> cases hmisfits <;> rfl
  have hresolved := Resolved.program_elsewhere (Token.ordersAlike_stand config.file source source')
    hstatements false config.allowRedefinition
  have hscope := Problem.allElsewhere_scope hresolved
  unfold ofSource
  simp only [h.clean, h.clean', hlost, List.map_nil, List.nil_append]
  split
  · exact ⟨.none, hgrammar, .nil⟩
  · rw [Bool.false_or] at hresolved hscope
    have hunread := hresolved.unread
    have htree := hresolved.tree
    generalize Resolved.program _ _ = r at hscope hunread htree ⊢
    generalize Resolved.program _ _ = r' at hscope hunread htree ⊢
    obtain ⟨tree, problems, unread⟩ := r
    obtain ⟨tree', problems', unread'⟩ := r'
    cases problems with
    | nil =>
      cases problems' with
      | nil => exact ⟨.some htree, hgrammar, hunread⟩
      | cons _ _ => cases hscope
    | cons p ps =>
      cases problems' with
      | nil => cases hscope
      | cons p' ps' => exact ⟨.none, List.rel_append hgrammar hscope, hunread⟩

/-- One expression in the same words is the same expression, or the same is wrong with it. -/
theorem Expr.ofSource_elsewhere {config : Config} {source source' : String}
    (h : Token.SameWords config.file source source') :
    let R := Token.Stand config.file source source'
    (∃ e e', ofSource config source = .ok e ∧ ofSource config source' = .ok e' ∧
      e.Elsewhere R e') ∨
    ∃ ps ps', ofSource config source = .error ps ∧ ofSource config source' = .error ps' ∧
      List.Forall₂ (Problem.Elsewhere R) ps ps' := by
  intro R
  have hscan : Token.scan config.file source = ((Token.scan config.file source).1, []) :=
    Prod.ext rfl h.clean
  have hscan' : Token.scan config.file source' = ((Token.scan config.file source').1, []) :=
    Prod.ext rfl h.clean'
  unfold ofSource
  rw [hscan, hscan']
  dsimp only
  rcases Expr.ofTokens_elsewhere h.elsewhere with
    ⟨e, e', he, he', htree⟩ | ⟨m, m', hm, hm', hmisfit⟩
  · have hresolved := Resolved.expression_elsewhere
      (Token.ordersAlike_stand config.file source source') htree false config.allowRedefinition
    have hscope := Problem.allElsewhere_scope hresolved
    rw [he, he']
    rw [Bool.false_or] at hresolved hscope
    have htree := hresolved.tree
    dsimp only
    generalize Resolved.expression _ _ = r at hscope htree ⊢
    generalize Resolved.expression _ _ = r' at hscope htree ⊢
    obtain ⟨tree, problems, _⟩ := r
    obtain ⟨tree', problems', _⟩ := r'
    cases problems with
    | nil =>
      cases problems' with
      | nil => exact .inl ⟨_, _, rfl, rfl, htree⟩
      | cons _ _ => cases hscope
    | cons p ps =>
      cases problems' with
      | nil => cases hscope
      | cons p' ps' => exact .inr ⟨_, _, rfl, rfl, hscope⟩
  · have hne : (Token.scan config.file source).1 ≠ [] := by simp [Token.scan_eq]
    rw [hm, hm']
    exact .inr ⟨_, _, rfl, rfl, .cons (hmisfit.problem (Expr.found_isSome hne hm)) .nil⟩

/-! ## Hosts -/

namespace Host

/-- Two runs reported the same problems and warnings, up to places, printed the same and ended
with the same fault or none. The places of problems and warnings are those of the source; a fault
may also stem from what was declared before, and then its place is the same. -/
structure RunsAlike (R : Place → Place → Prop) (x y : Report × Host) : Prop where
  problems : List.Forall₂ (Problem.Elsewhere R) x.1.problems y.1.problems
  unread : List.Forall₂ (Name.Elsewhere R) x.1.unread y.1.unread
  ends : EndsTwin (fun p p' => p' = p ∨ R p p') x y

/-- Sources that the front end does not tell apart are run alike. -/
theorem runsAlike_run {h : Host} {P : Pairs} {source source' : String}
    (ht : Machine.Twin (fun p p' => p' = p ∨ R p p') P h.machine h.machine)
    (hc : (Checked.ofSource h.config source).Elsewhere R (Checked.ofSource h.config source'))
    (fuel : Nat) : Option.Rel (RunsAlike R) (h.run fuel source) (h.run fuel source') := by
  unfold run
  obtain ⟨hs, hproblems, hunread⟩ := hc
  generalize Checked.ofSource h.config source = c at hs hproblems hunread ⊢
  generalize Checked.ofSource h.config source' = c' at hs hproblems hunread ⊢
  obtain ⟨o, problems, unread⟩ := c
  obtain ⟨o', problems', unread'⟩ := c'
  cases hs with
  | none => exact .some ⟨hproblems, hunread, .none, ⟨P, ht⟩, rfl⟩
  | some hs =>
    dsimp only
    split
    · exact .some ⟨hproblems, hunread, .none, ⟨P, ht⟩, rfl⟩
    · have ho := (twinStep_execAll fuel (Stmt.AllElsewhere.mono (fun _ _ => .inr) hs)).outcome? ht
      generalize Run.outcome? _ h.machine = a at ho ⊢
      generalize Run.outcome? _ h.machine = a' at ho ⊢
      cases ho with
      | none => exact .none
      | @some x y hend =>
        obtain ⟨r, m⟩ := x
        obtain ⟨r', m'⟩ := y
        obtain ⟨Q, -, hr, hm⟩ := hend
        cases hr with
        | ok _ => exact .some ⟨hproblems, hunread, .none, ⟨Q, hm⟩, hm.sink⟩
        | error hf => exact .some ⟨hproblems, hunread, .some hf, ⟨Q, hm⟩, hm.sink⟩

/-- **Layout does not matter.** Let two sources be without lexical problems and have the same
tokens, one after the other. Whatever a host was asked before, it reads and resolves both alike:
into the same tree with the same depths, with the same problems and the same unread names in one
order, up to places; those of the one are where tokens stand in it, those of the other where the
tokens of the same rank stand. With the same fuel either both runs are finished or neither is. They
print the same, end with the same fault or none, and leave the same globals up to identities. -/
theorem layout_immaterial (config : Config) (sink : Sink) (clock : Clock)
    (past : List (Nat × Request)) (fuel : Nat) {source source' : String}
    (hwords : Token.SameWords config.file source source') :
    let h := after config sink clock past
    let R := Token.Stand config.file source source'
    (Checked.ofSource h.config source).Elsewhere R (Checked.ofSource h.config source') ∧
      Option.Rel (RunsAlike R) (h.run fuel source) (h.run fuel source') := by
  intro h R
  have hfile : h.config.file = config.file := file_after config sink clock past
  obtain ⟨P, ht⟩ : ∃ P, Host.Twin (fun p p' => p' = p ∨ R p p') P h h :=
    own_twin_after (fun _ _ => .inl rfl) sink clock past
  have hc : (Checked.ofSource h.config source).Elsewhere
      (Token.Stand h.config.file source source') (Checked.ofSource h.config source') :=
    Checked.ofSource_elsewhere (hfile.symm ▸ hwords)
  rw [hfile] at hc
  exact ⟨hc, runsAlike_run ht.machine hc fuel⟩

/-- Calls on one line and on two, the second of them at fault. -/
theorem twoCalls_alike :
    let h := after ⟨false, false, "main.lox"⟩ (.empty none false) (.ticking 0)
      [(9, .run "fun f(x) \x7b print x; \x7d")]
    let source := "f(1);f(nil());"
    let source' := "f(1); // one\nf( nil() );"
    Option.Rel (RunsAlike (Token.Stand "main.lox" source source')) (h.run 9 source)
        (h.run 9 source') ∧
      (h.run 9 source).bind (·.1.fault) = some ⟨⟨"main.lox", 1, 11⟩, .notCallable⟩ ∧
      (h.run 9 source').bind (·.1.fault) = some ⟨⟨"main.lox", 2, 7⟩, .notCallable⟩ := by
  intro h source source'
  have hwords : Token.SameWords "main.lox" source source' :=
    ⟨by decide +kernel, by decide +kernel, by decide +kernel⟩
  exact ⟨(layout_immaterial ⟨false, false, "main.lox"⟩ (.empty none false) (.ticking 0)
    [(9, .run "fun f(x) \x7b print x; \x7d")] 9 hwords).2, by decide +kernel, by decide +kernel⟩

end Host

end LoxLang
