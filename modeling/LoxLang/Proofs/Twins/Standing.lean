import LoxLang.Proofs.Splitting.Session
import LoxLang.Proofs.Twins.Layout

/-!
# Where diagnostics stand

Nobody makes up a place: whatever is reported stands where the scanner found something. That
places of tokens stay where they are, and are places of tokens, is a relation between a place
and itself (`Place.Stays`). Reading, resolving and running respect every relation between
places, so they respect this one, and a tree, a heap and a fault then hold such places alone:
what is known of twins is all that is needed of a host and itself (`Host.diagnostics_stand`).
-/

namespace LoxLang

/-! ## Places of tokens -/

/-- A token of the source stands here; the end of the source counts as one. -/
def Place.OfToken (file source : String) (p : Place) : Prop :=
  ∃ t ∈ (Token.scan file source).1, t.place = p

/-- The place stays and is one of those. -/
def Place.Stays (S : Place → Prop) (p p' : Place) : Prop := p' = p ∧ S p

theorem Place.ordersAlike_stays (S : Place → Prop) : OrdersAlike (Stays S) := by
  rintro p _ q _ ⟨rfl, -⟩ ⟨rfl, -⟩
  rfl

theorem Token.allElsewhere_stays {S : Place → Prop} {ts : List Token}
    (hts : ∀ t ∈ ts, S t.place) : List.Forall₂ (Token.Elsewhere (Place.Stays S)) ts ts := by
  rw [List.forall₂_same]
  intro t ht
  exact ⟨rfl, rfl, rfl, hts t ht⟩

/-! ## Skipped texts -/

namespace Region

/-- A placed region stands behind the text of the ones ahead of it. -/
theorem exists_of_mem_placed {r : Placed Region} {p : Place} {rs : List Region}
    (h : r ∈ placed p rs) :
    ∃ before after, rs = before ++ r.value :: after ∧ r.place = p.past (join before) := by
  induction rs generalizing p with
  | nil => cases h
  | cons s rs ih =>
    rcases List.mem_cons.1 h with rfl | h
    · exact ⟨[], rs, rfl, rfl⟩
    · obtain ⟨before, after, rfl, hplace⟩ := ih h
      refine ⟨s :: before, after, rfl, hplace.trans ?_⟩
      simp only [join, List.flatMap_cons, p.past_append]

end Region

/-- The source holds a text that is skipped, as no token can be read from it, and it starts
here. -/
def LexicalProblem.SkippedAt (file source : String) (cause : LexicalProblem) (p : Place) : Prop :=
  ∃ before r after, Region.split source.toList = before ++ r :: after ∧
    r.piece = .problem cause ∧ r.text ≠ [] ∧
    source.toList = Region.join before ++ r.text ++ Region.join after ∧
    p = (Place.start file).past (Region.join before)

open Region in
/-- Each lexical problem is about a text of its own that is skipped. -/
theorem LexicalProblem.skipped_of_mem_scan {file source : String} {p : Placed LexicalProblem}
    (h : p ∈ (Token.scan file source).2) : p.value.SkippedAt file source p.place := by
  obtain ⟨result, hresult, hp⟩ := List.mem_filterMap.1 h
  obtain rfl : result = .error p := by
    cases result with
    | ok _ => cases hp
    | error q => exact congrArg _ (Option.some.inj hp)
  have hmem : .error p ∈ (placed (Place.start file) (split source.toList)).filterMap result? := by
    simpa [Token.results] using hresult
  obtain ⟨r, hr, hrp⟩ := List.mem_filterMap.1 hmem
  obtain ⟨before, after, hsplit, hplace⟩ := exists_of_mem_placed hr
  obtain ⟨hpiece, hpr⟩ : r.value.piece = .problem p.value ∧ p.place = r.place := by
    unfold result? at hrp
    split at hrp <;> cases hrp
    exact ⟨by assumption, rfl⟩
  have hne : r.value.text ≠ [] := (splits_split source.toList).text_ne_nil _ (by simp [hsplit])
  have hjoin : source.toList = join before ++ r.value.text ++ join after := by
    conv_lhs => rw [← join_split source.toList, hsplit]
    simp [join]
  exact ⟨before, r.value, after, hsplit, hpiece, hne, hjoin, hpr.trans hplace⟩

/-! ## Problems -/

/-- What is reported stands in the source: a lexical problem at the start of a skipped text, all
else at a token. So does the first declaration that a report of a second one names. -/
inductive Problem.Stands (file source : String) : Problem → Prop
  | lexical {p : Placed LexicalProblem} (h : p.value.SkippedAt file source p.place) :
    Problem.Stands file source (.lexical p)
  | grammar {m : Misfit} (h : m.place.OfToken file source) : Problem.Stands file source (.grammar m)
  | scope {p : Placed ScopeProblem} (h : p.place.OfToken file source)
      (hfirst : ∀ name first, p.value = .declaredAt name first → first.OfToken file source) :
    Problem.Stands file source (.scope p)

theorem Problem.Elsewhere.stands {file source : String} {p : Problem}
    (h : p.Elsewhere (Place.Stays (Place.OfToken file source)) p) : p.Stands file source := by
  cases h with
  | grammar _ hp => exact .grammar hp.2
  | scope h =>
    refine .scope h.place.2 fun name first hvalue => ?_
    have hv := h.value
    rw [hvalue] at hv
    cases hv with
    | plain hq => cases hq
    | declaredAt _ hp => exact hp.2

section
variable (config : Config) (source : String)

/-- All that a front end reports of a source stands in it, and all that it has read. -/
theorem Checked.ofSource_stands :
    (∀ p ∈ (ofSource config source).problems, p.Stands config.file source) ∧
    (∀ n ∈ (ofSource config source).unread, n.place.OfToken config.file source) ∧
    ∀ ss, (ofSource config source).statements = some ss →
      Stmt.AllElsewhere (Place.Stays (Place.OfToken config.file source)) ss ss := by
  have htokens : List.Forall₂ (Token.Elsewhere (Place.Stays (Place.OfToken config.file source)))
      (Token.scan config.file source).1 (Token.scan config.file source).1 :=
    Token.allElsewhere_stays fun t ht => ⟨t, ht, rfl⟩
  obtain ⟨hstatements, hmisfits⟩ := Program.ofTokens_elsewhere htokens
  have hne : (Token.scan config.file source).1 ≠ [] := by simp [Token.scan_eq]
  have hgrammar := Problem.allElsewhere_grammar hmisfits (Program.found_isSome hne)
  have hresolved := Resolved.program_elsewhere (Place.ordersAlike_stays _) hstatements false
    config.allowRedefinition
  rw [Bool.false_or] at hresolved
  have hscope := Problem.allElsewhere_scope hresolved
  have hunread := hresolved.unread
  have htree := hresolved.tree
  rw [List.forall₂_same] at hgrammar hscope hunread
  have hread : ∀ p ∈ (Token.scan config.file source).2.map Problem.lexical ++
      (Program.ofTokens (Token.scan config.file source).1).misfits.map Problem.grammar,
      p.Stands config.file source := by
    intro p hp
    rcases List.mem_append.1 hp with hp | hp
    · obtain ⟨q, hq, rfl⟩ := List.mem_map.1 hp
      exact .lexical (LexicalProblem.skipped_of_mem_scan hq)
    · exact (hgrammar p hp).stands
  unfold ofSource
  dsimp only
  split
  · exact ⟨hread, by simp, by simp⟩
  · generalize Resolved.program config.allowRedefinition _ = resolved at hscope hunread htree ⊢
    obtain ⟨tree, problems, unread⟩ := resolved
    have hnames : ∀ n ∈ unread, n.place.OfToken config.file source :=
      fun n hn => (hunread n hn).place.2
    cases problems with
    | nil =>
      refine ⟨hread, hnames, fun ss hss => ?_⟩
      obtain rfl := Option.some.inj hss
      exact htree
    | cons q qs =>
      refine ⟨fun p hp => ?_, hnames, by simp⟩
      rcases List.mem_append.1 hp with hp | hp
      · exact hread p hp
      · exact (hscope p hp).stands

/-- All that is reported of one expression stands in its source, or else all that was read. -/
theorem Expr.ofSource_stands :
    (∀ ps, ofSource config source = .error ps → ∀ p ∈ ps, p.Stands config.file source) ∧
    ∀ e, ofSource config source = .ok e →
      e.Elsewhere (Place.Stays (Place.OfToken config.file source)) e := by
  have htokens : List.Forall₂ (Token.Elsewhere (Place.Stays (Place.OfToken config.file source)))
      (Token.scan config.file source).1 (Token.scan config.file source).1 :=
    Token.allElsewhere_stays fun t ht => ⟨t, ht, rfl⟩
  have hne : (Token.scan config.file source).1 ≠ [] := by simp [Token.scan_eq]
  have hread := Expr.ofTokens_elsewhere htokens
  have hfound : ∀ m, ofTokens (Token.scan config.file source).1 = .error m → m.found.isSome :=
    fun m => found_isSome hne
  have hlexical : ∀ p ∈ (Token.scan config.file source).2,
      p.value.SkippedAt config.file source p.place :=
    fun p => LexicalProblem.skipped_of_mem_scan
  unfold ofSource
  generalize Token.scan config.file source = scanned at hread hfound hlexical ⊢
  obtain ⟨tokens, lexical⟩ := scanned
  cases lexical with
  | cons q qs =>
    refine ⟨fun ps hps p hp => ?_, by simp⟩
    obtain rfl := Except.error.inj hps
    obtain ⟨r, hr, rfl⟩ := List.mem_map.1 hp
    exact .lexical (hlexical r hr)
  | nil =>
    dsimp only at hread hfound ⊢
    rcases hread with ⟨e, e', he, he', htree⟩ | ⟨m, m', hm, hm', hmisfit⟩
    · obtain rfl := Except.ok.inj (he.symm.trans he')
      have hresolved := Resolved.expression_elsewhere (Place.ordersAlike_stays _) htree false
        config.allowRedefinition
      rw [Bool.false_or] at hresolved
      have hscope := Problem.allElsewhere_scope hresolved
      have htree := hresolved.tree
      rw [List.forall₂_same] at hscope
      rw [he]
      dsimp only
      generalize Resolved.expression config.allowRedefinition e = resolved at hscope htree ⊢
      obtain ⟨tree, problems, unread⟩ := resolved
      cases problems with
      | nil =>
        refine ⟨by simp, fun e he => ?_⟩
        obtain rfl := Except.ok.inj he
        exact htree
      | cons q qs =>
        refine ⟨fun ps hps p hp => ?_, by simp⟩
        obtain rfl := Except.error.inj hps
        exact (hscope p hp).stands
    · obtain rfl := Except.error.inj (hm.symm.trans hm')
      have hstands := (hmisfit.problem (hfound m hm)).stands
      rw [hm]
      refine ⟨fun ps hps p hp => ?_, by simp⟩
      obtain rfl := Except.error.inj hps
      obtain rfl := List.mem_singleton.1 hp
      exact hstands

/-- What a source says may stay if all its tokens may. -/
theorem spoken_stays {S : Place → Prop} (hS : ∀ p : Place, p.OfToken config.file source → S p) :
    Spoken (Place.Stays S) config source := by
  have hmono : ∀ p p', Place.Stays (Place.OfToken config.file source) p p' → Place.Stays S p p' :=
    fun p p' h => ⟨h.1, hS p h.2⟩
  constructor
  · intro ss hss
    exact ((Checked.ofSource_stands config source).2.2 ss hss).mono hmono
  · intro e he
    exact ((Expr.ofSource_stands config source).2 e he).mono hmono

end

/-! ## Sessions -/

namespace Response

/-- A fault that may stay is at a place that may. -/
theorem Twin.fault {S : Place → Prop} {P : Pairs} {r : Response}
    (h : r.Twin (Place.Stays S) P r) : ∀ f ∈ r.fault?, S f.place := by
  intro f hf
  cases h with
  | @ran _ _ g _ h =>
    obtain rfl : g = some f := hf
    cases h with
    | some h => exact h.place.2
  | value _ | rejected _ | done => cases hf
  | @faulted g _ h =>
    obtain rfl : g = f := Option.some.inj hf
    exact h.place.2

end Response

namespace Host

/-- An evaluation with a machine reports no problem. -/
theorem problems_evaluateWith {h : Host} {step : Run Value} {x : Evaluation × Host}
    (hx : h.evaluateWith step = some x) : (Response.evaluated x.1).problems = [] := by
  unfold evaluateWith at hx
  split at hx
  · cases hx
    rfl
  · obtain ⟨⟨r, m⟩, -, rfl⟩ := Option.map_eq_some_iff.1 hx
    cases r <;> rfl

/-- A run reports what the front end does. -/
theorem reported_run {h : Host} {fuel : Nat} {source : String} {x : Report × Host}
    (hx : h.run fuel source = some x) :
    x.1.problems = (Checked.ofSource h.config source).problems ∧
      x.1.unread = (Checked.ofSource h.config source).unread := by
  unfold run at hx
  dsimp only at hx
  split at hx
  · cases hx
    exact ⟨rfl, rfl⟩
  · split at hx
    · cases hx
      exact ⟨rfl, rfl⟩
    · obtain ⟨⟨r, m⟩, -, rfl⟩ := Option.map_eq_some_iff.1 hx
      cases r <;> exact ⟨rfl, rfl⟩

/-- All that is reported before a run stands in the source of the request. -/
theorem reported_stands {h : Host} {fuel : Nat} {request : Request} {x : Response × Host}
    (hx : h.perform fuel request = some x) :
    (∀ p ∈ x.1.problems, ∃ source ∈ request.source?, p.Stands h.config.file source) ∧
      ∀ n ∈ x.1.unread, ∃ source ∈ request.source?, n.place.OfToken h.config.file source := by
  cases request with
  | run source =>
    obtain ⟨y, hy, rfl⟩ := Option.map_eq_some_iff.1 hx
    obtain ⟨hproblems, hunread⟩ := reported_run hy
    obtain ⟨hp, hn, -⟩ := Checked.ofSource_stands h.config source
    rw [← hproblems] at hp
    rw [← hunread] at hn
    exact ⟨fun p h => ⟨source, rfl, hp p h⟩, fun n h => ⟨source, rfl, hn n h⟩⟩
  | evaluate source =>
    obtain ⟨y, hy, rfl⟩ := Option.map_eq_some_iff.1 hx
    obtain ⟨hp, -, -⟩ := Checked.ofSource_stands h.config source
    refine ⟨fun p hmem => ⟨source, rfl, ?_⟩, fun n hmem => nomatch hmem⟩
    unfold evaluate at hy
    dsimp only at hy
    split at hy
    · have hnone := problems_evaluateWith hy
      rw [hnone] at hmem
      cases hmem
    · obtain rfl := Option.some.inj hy
      exact hp p hmem
  | evaluateExpression source =>
    obtain ⟨y, hy, rfl⟩ := Option.map_eq_some_iff.1 hx
    obtain ⟨hp, -⟩ := Expr.ofSource_stands h.config source
    refine ⟨fun p hmem => ⟨source, rfl, ?_⟩, fun n hmem => nomatch hmem⟩
    unfold evaluateExpression at hy
    split at hy
    next problems herror =>
      obtain rfl := Option.some.inj hy
      exact hp problems herror p hmem
    next =>
      have hnone := problems_evaluateWith hy
      rw [hnone] at hmem
      cases hmem
  | clear | allowRedefinition allow =>
    obtain rfl := Option.some.inj hx
    constructor <;> exact fun _ hmem => nomatch hmem

/-- The sources that came with requests. -/
def sources (requests : List (Nat × Request)) : List String :=
  requests.filterMap fun r => r.2.source?

/-- **Every diagnostic points at real source.** Whatever a host was asked before, the lexical
problems in its answer to a request are at the starts of texts that are skipped in the source
of this request, and its other problems and its warnings are at tokens of this source. A fault
is at a token of this source or of an earlier one. -/
theorem diagnostics_stand (config : Config) (sink : Sink) (clock : Clock)
    (past : List (Nat × Request)) (fuel : Nat) (request : Request) {response : Response} {h : Host}
    (hanswer : (after config sink clock past).perform fuel request = some (response, h)) :
    (∀ p ∈ response.problems, ∃ source ∈ request.source?, p.Stands config.file source) ∧
    (∀ n ∈ response.unread, ∃ source ∈ request.source?, n.place.OfToken config.file source) ∧
    ∀ f ∈ response.fault?, ∃ source ∈ sources (past ++ [(fuel, request)]),
      f.place.OfToken config.file source := by
  have hfile : (after config sink clock past).config.file = config.file :=
    file_after config sink clock past
  have hreported := reported_stands hanswer
  rw [hfile] at hreported
  refine ⟨hreported.1, hreported.2, ?_⟩
  let S : Place → Prop := fun p =>
    ∃ source ∈ sources (past ++ [(fuel, request)]), p.OfToken config.file source
  have hspoken : ∀ c : Config, c.file = config.file → ∀ r ∈ past ++ [(fuel, request)],
      ∀ source ∈ r.2.source?, Spoken (Place.Stays S) c source := by
    intro c hc r hr source hsource
    refine spoken_stays c source fun p hp => ⟨source, ?_, hc ▸ hp⟩
    exact List.mem_filterMap.2 ⟨r, hr, hsource⟩
  obtain ⟨P, htwin⟩ := own_twin_of_spoken sink clock
    fun c hc r hr => hspoken c hc r (List.mem_append_left _ hr)
  have hrequest := hspoken _ hfile _ (List.mem_append_right _ (List.mem_singleton_self _))
  have hends := htwin.perform fuel hrequest
  rw [hanswer] at hends
  cases hends with
  | some hends =>
    obtain ⟨Q, -, hresponse, -⟩ := hends
    exact hresponse.fault

/-- A function that is at fault in a later run: the fault is where the function was written. -/
theorem laterCall_stands :
    let past := [(9, Request.run "fun f(x) \x7b print -x; \x7d")]
    ∃ response h, (after ⟨false, false, "main.lox"⟩ (.empty none false) (.ticking 0) past).perform 9
        (.run "\n\nf(nil);") = some (response, h) ∧
      response.fault?.map Placed.place = some ⟨"main.lox", 1, 19⟩ ∧
      ∀ f ∈ response.fault?,
        ∃ source ∈ sources (past ++ [(9, .run "\n\nf(nil);")]), f.place.OfToken "main.lox" source := by
  intro past
  have hends : ((after ⟨false, false, "main.lox"⟩ (.empty none false) (.ticking 0) past).perform 9
      (.run "\n\nf(nil);")).bind (fun x => x.1.fault?.map Placed.place) =
        some ⟨"main.lox", 1, 19⟩ := by decide +kernel
  obtain ⟨⟨response, h⟩, hx, hfault⟩ := Option.bind_eq_some_iff.1 hends
  exact ⟨response, h, hx, hfault, (diagnostics_stand _ _ _ past 9 _ hx).2.2⟩

end Host

end LoxLang
