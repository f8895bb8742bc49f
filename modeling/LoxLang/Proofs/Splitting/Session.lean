import LoxLang.Proofs.Splitting.Checked

/-!
# Splitting a program

Two programs with a line end between them are run as one program as they are one after the
other. To say which places stem from the second program, it is run once more in a file of
another name, the mark: what bears the mark is further down in the one program, and nothing
else has moved.
-/

namespace LoxLang

/-- What bears the mark is in the file instead, `k` lines further down; all else stays. -/
def Place.Unmarks (mark file : String) (k : Nat) (p p' : Place) : Prop :=
  p' = if p.file = mark then p.shift file k else p

/-- The same place, or one in the file `k` lines further down. -/
def Place.Shifts (file : String) (k : Nat) (p p' : Place) : Prop := p' = p ∨ p' = p.shift file k

theorem Place.unmarks_shift (mark file : String) (k : Nat) (p : Place) :
    Unmarks mark file k (p.shift mark 0) (p.shift file k) := (if_pos rfl).symm

theorem Place.shifts_shift (file : String) (k : Nat) (p : Place) :
    Shifts file k (p.shift file 0) (p.shift file k) := .inr rfl

theorem Place.unmarks_self {mark file : String} (hmark : mark ≠ file) (k : Nat) {p : Place}
    (hp : p.file = file) : Unmarks mark file k p p :=
  (if_neg fun he => hmark (he.symm.trans hp)).symm

namespace Host

def named (h : Host) (file : String) : Host := { h with config := { h.config with file } }

/-- Two runs ended with the same fault or none and have printed the same; what their hosts know
is the same up to identities. Places are related by `R`. -/
structure EndsTwin (R : Place → Place → Prop) (x y : Report × Host) : Prop where
  fault : Option.Rel (Fault.Twin R) x.1.fault y.1.fault
  machine : ∃ P, Machine.Twin R P x.2.machine y.2.machine
  output : y.2.machine.sink = x.2.machine.sink

/-! ## Hosts that are their own twins -/

section
variable {R : Place → Place → Prop} {h h' : Host}

theorem config_run {fuel : Nat} {source : String} {x : Report × Host}
    (hx : h.run fuel source = some x) : x.2.config = h.config := by
  unfold run at hx
  dsimp only at hx
  split at hx
  · cases hx
    rfl
  · split at hx
    · cases hx
      rfl
    · obtain ⟨⟨r, m⟩, -, rfl⟩ := Option.map_eq_some_iff.1 hx
      cases r <;> rfl

theorem config_evaluateWith {step : Run Value} {x : Evaluation × Host}
    (hx : h.evaluateWith step = some x) : x.2.config = h.config := by
  unfold evaluateWith at hx
  split at hx
  · cases hx
    rfl
  · obtain ⟨⟨r, m⟩, -, rfl⟩ := Option.map_eq_some_iff.1 hx
    cases r <;> rfl

theorem file_perform {fuel : Nat} {request : Request} {x : Response × Host}
    (hx : h.perform fuel request = some x) : x.2.config.file = h.config.file := by
  cases request with
  | run source =>
    obtain ⟨y, hy, rfl⟩ := Option.map_eq_some_iff.1 hx
    exact congrArg Config.file (config_run hy)
  | evaluate source =>
    obtain ⟨y, hy, rfl⟩ := Option.map_eq_some_iff.1 hx
    unfold evaluate at hy
    dsimp only at hy
    split at hy
    · exact congrArg Config.file (config_evaluateWith hy)
    · cases hy
      rfl
  | evaluateExpression source =>
    obtain ⟨y, hy, rfl⟩ := Option.map_eq_some_iff.1 hx
    unfold evaluateExpression at hy
    split at hy
    · cases hy
      rfl
    · exact congrArg Config.file (config_evaluateWith hy)
  | clear | allowRedefinition allow =>
    cases hx
    rfl

theorem file_next (h : Host) (r : Nat × Request) : (h.next r).config.file = h.config.file := by
  unfold next
  cases hp : h.perform r.1 r.2 with
  | none => rfl
  | some x => exact file_perform hp

theorem file_after (config : Config) (sink : Sink) (clock : Clock) (past : List (Nat × Request)) :
    (after config sink clock past).config.file = config.file := by
  unfold after
  suffices hall : ∀ h : Host, (past.foldl next h).config.file = h.config.file from hall _
  induction past with
  | nil => exact fun _ => rfl
  | cons r past ih => exact fun h => (ih _).trans (file_next h r)

/-- In a session the host is its own twin if what its sources say may stay where it is. -/
theorem own_twin_of_spoken {config : Config} (sink : Sink) (clock : Clock) {past : List (Nat × Request)}
    (hR : ∀ c : Config, c.file = config.file →
      ∀ r ∈ past, ∀ source ∈ r.2.source?, Spoken R c source) :
    ∃ P, Host.Twin R P (after config sink clock past) (after config sink clock past) := by
  unfold after
  suffices hall : ∀ h : Host, h.config.file = config.file → (∃ P, Host.Twin R P h h) →
      ∃ P, Host.Twin R P (past.foldl next h) (past.foldl next h) from
    hall _ rfl ⟨_, start_twin R config sink clock⟩
  induction past with
  | nil => exact fun _ _ ht => ht
  | cons r past ih =>
    rintro h hfile ⟨P, ht⟩
    obtain ⟨Q, -, -, hnext⟩ := ht.next (hR _ hfile r List.mem_cons_self)
    exact ih (fun c hc r hr => hR c hc r (List.mem_cons_of_mem _ hr)) _
      ((file_next h r).trans hfile) ⟨Q, hnext⟩

/-- So it is if all places of its file may stay. -/
theorem own_twin_after {config : Config} (hR : ∀ p : Place, p.file = config.file → R p p)
    (sink : Sink) (clock : Clock) (past : List (Nat × Request)) :
    ∃ P, Host.Twin R P (after config sink clock past) (after config sink clock past) :=
  own_twin_of_spoken sink clock fun _ hc _ _ source _ =>
    Sources.spoken (hc ▸ sources_of_file hR) source

/-- It is after one more run, too. -/
theorem own_twin_run {config : Config} (hR : ∀ p : Place, p.file = config.file → R p p)
    {sink : Sink} {clock : Clock} {past : List (Nat × Request)} {fuel : Nat} {source : String}
    {r : Report} (hrun : (after config sink clock past).run fuel source = some (r, h)) :
    ∃ P, Host.Twin R P h h := by
  have hnext : after config sink clock (past ++ [(fuel, .run source)]) = h := by
    rw [after, List.foldl_append, List.foldl_cons, List.foldl_nil, ← after, next, perform, hrun]
    rfl
  exact hnext ▸ own_twin_after hR sink clock (past ++ [(fuel, .run source)])

end

/-! ## Runs of clean sources -/

/-- A run of statements that nothing is wrong with; `unread` are the warnings. -/
def runAll (h : Host) (fuel : Nat) (unread : List Name) (ss : List Stmt) : Option (Report × Host) :=
  if h.config.dryRun then some (⟨[], unread, none⟩, h)
  else
    (execAll fuel ss).outcome? h.machine |>.map fun (result, machine) =>
      match result with
      | .ok () => (⟨[], unread, none⟩, { h with machine })
      | .error f => (⟨[], unread, some f⟩, { h with machine })

theorem run_clean {h : Host} {source : String} {ss : List Stmt}
    (hc : Program.Clean h.config source ss) (fuel : Nat) :
    h.run fuel source = h.runAll fuel (Resolved.program h.config.allowRedefinition ss).unread
      (Resolved.program h.config.allowRedefinition ss).tree := by
  unfold Host.run
  rw [hc.checked]
  rfl

/-- A run without problems reports its warnings, and leaves the configuration as it is. -/
theorem of_runAll {h : Host} {fuel : Nat} {us : List Name} {ss : List Stmt} {x : Report × Host}
    (hx : h.runAll fuel us ss = some x) :
    x.1.problems = [] ∧ x.1.unread = us ∧ x.2.config = h.config := by
  unfold runAll at hx
  split at hx
  · cases hx
    exact ⟨rfl, rfl, rfl⟩
  · obtain ⟨⟨r, m⟩, -, rfl⟩ := Option.map_eq_some_iff.1 hx
    cases r <;> exact ⟨rfl, rfl, rfl⟩

theorem outcome?_append (fuel : Nat) (ss tt : List Stmt) (m : Machine) :
    (execAll fuel (ss ++ tt)).outcome? m =
      match (execAll fuel ss).outcome? m with
      | some (.ok (), m) => (execAll fuel tt).outcome? m
      | o => o := by
  have happend : execAll fuel (ss ++ tt) = (execAll fuel ss >>= fun _ => execAll fuel tt) :=
    List.forM_append
  have hbind : (execAll fuel ss >>= fun _ => execAll fuel tt) m =
      match execAll fuel ss m with
      | .ok _ m => execAll fuel tt m
      | .error i m => .error i m := by
    show EStateM.bind _ _ m = _
    unfold EStateM.bind
    cases execAll fuel ss m <;> rfl
  rw [happend]
  unfold Run.outcome?
  rw [hbind]
  cases execAll fuel ss m with
  | ok a m => rfl
  | error i m => cases i <;> rfl

/-- Statements are run one after the other, those behind a fault not at all. -/
theorem runAll_append (h : Host) (fuel : Nat) (us vs : List Name) (ss tt : List Stmt) :
    h.runAll fuel us (ss ++ tt) =
      match h.runAll fuel vs ss with
      | none => none
      | some (r, h₁) =>
        match r.fault with
        | some f => some (⟨[], us, some f⟩, h₁)
        | none => h₁.runAll fuel us tt := by
  unfold runAll
  by_cases hd : h.config.dryRun
  · simp only [hd, if_true]
  · simp only [hd, outcome?_append]
    rcases (execAll fuel ss).outcome? h.machine with _ | ⟨_ | _, m⟩
    · rfl
    · rfl
    · simp [hd]

/-- The same statements elsewhere end alike on twins. -/
theorem endsTwin_runAll {R : Place → Place → Prop} {P : Pairs} {h h' : Host}
    (hm : Machine.Twin R P h.machine h'.machine) (hd : h'.config.dryRun = h.config.dryRun)
    {ss ss' : List Stmt} (hs : Stmt.AllElsewhere R ss ss') (fuel : Nat) (us us' : List Name) :
    Option.Rel (EndsTwin R) (h.runAll fuel us ss) (h'.runAll fuel us' ss') := by
  have ho := (twinStep_execAll fuel hs).outcome? hm
  unfold runAll
  rw [hd]
  split
  · exact .some ⟨.none, ⟨P, hm⟩, hm.sink⟩
  · generalize Run.outcome? (execAll fuel ss) h.machine = o at ho ⊢
    generalize Run.outcome? (execAll fuel ss') h'.machine = o' at ho ⊢
    cases ho with
    | none => exact .none
    | @some x y hend =>
      obtain ⟨r, m⟩ := x
      obtain ⟨r', m'⟩ := y
      obtain ⟨Q, -, hr, hm⟩ := hend
      cases hr with
      | ok _ => exact .some ⟨.none, ⟨Q, hm⟩, hm.sink⟩
      | error hf => exact .some ⟨.some hf, ⟨Q, hm⟩, hm.sink⟩

/-! ## Splitting -/

/-- A program in a marked file, in its own file and further down in it. -/
theorem endsTwin_places {h : Host} {mark : String} (hmark : mark ≠ h.config.file)
    (hown : ∀ R : Place → Place → Prop, (∀ p : Place, p.file = h.config.file → R p p) →
      ∃ P, Host.Twin R P h h) {source : String} {ss : List Stmt}
    (hs : Program.Clean h.config source ss) (fuel k : Nat) (us : List Name) :
    let marked := (h.named mark).run fuel source
    let lower := h.runAll fuel us (Stmt.allMoved (Place.shift h.config.file k)
      (Resolved.program h.config.allowRedefinition ss).tree)
    Option.Rel (EndsTwin (Place.Unmarks mark h.config.file 0)) marked (h.run fuel source) ∧
      Option.Rel (EndsTwin (Place.Unmarks mark h.config.file k)) marked lower ∧
      Option.Rel (EndsTwin (Place.Shifts h.config.file k)) (h.run fuel source) lower := by
  intro marked lower
  have hmarked : Program.Clean (h.named mark).config source _ := hs.named mark
  have hmoved : (Resolved.program (h.named mark).config.allowRedefinition
      (Stmt.allMoved (Place.shift mark 0) ss)).tree = Stmt.allMoved (Place.shift mark 0)
        (Resolved.program h.config.allowRedefinition ss).tree :=
    (Resolved.program_moved (Place.keepsOrder_shift mark 0) _ ss).1
  have hstay := Resolved.moved_program (Place.keepsOrder_shift h.config.file 0)
    h.config.allowRedefinition hs.stays
  have hmarks (k : Nat) := Stmt.allElsewhere_moved (Place.unmarks_shift mark h.config.file k)
    (Resolved.program h.config.allowRedefinition ss).tree
  have hown' := hmarks 0
  have hshifts := Stmt.allElsewhere_moved (Place.shifts_shift h.config.file k)
    (Resolved.program h.config.allowRedefinition ss).tree
  rw [hstay] at hown' hshifts
  obtain ⟨P, hP⟩ := hown _ fun p => Place.unmarks_self hmark 0
  obtain ⟨Q, hQ⟩ := hown _ fun p => Place.unmarks_self hmark k
  obtain ⟨S, hS⟩ := hown (Place.Shifts h.config.file k) fun _ _ => .inl rfl
  have hP : Machine.Twin _ P (h.named mark).machine h.machine := hP.machine
  have hQ : Machine.Twin _ Q (h.named mark).machine h.machine := hQ.machine
  simp only [marked, lower, run_clean hs, run_clean hmarked, hmoved]
  exact ⟨endsTwin_runAll hP rfl hown' fuel _ _, endsTwin_runAll hQ rfl (hmarks k) fuel _ _,
    endsTwin_runAll hS.machine rfl hshifts fuel _ _⟩

/-- **Splitting a program does not change it.** Let nothing be wrong with two sources nor with
the two of them with a line end between, whatever has been asked of the host before. A run of
the two in one warns of what the front end warns of in the first and then in the second, there
`k` lines further down. It is finished if the two runs one after the other are. A fault of the
first ends it as it is. Otherwise it prints what the second then prints, leaves the same
globals up to identities and ends with the same fault or none; and what stems from the second
source, which would bear the mark in a file of that name, is `k` lines further down, but
nothing else is. -/
theorem run_joined {config : Config} {mark : String} (hmark : mark ≠ config.file) (sink : Sink)
    (clock : Clock) (past : List (Nat × Request)) (fuel : Nat) {first second : String} :
    let h := after config sink clock past
    let both := first ++ "\n" ++ second
    let file := config.file
    let k := 1 + first.toList.count '\n'
    (Checked.ofSource h.config first).problems = [] →
    (Checked.ofSource h.config second).problems = [] →
    (Checked.ofSource h.config both).problems = [] →
    (∀ x ∈ h.run fuel both, x.1.problems = [] ∧
      x.1.unread = (Checked.ofSource h.config first).unread ++
        (Checked.ofSource h.config second).unread.map (·.moved (Place.shift file k))) ∧
    match h.run fuel first with
    | none => h.run fuel both = none
    | some (r, h₁) =>
      match r.fault with
      | some f => ∃ r', h.run fuel both = some (r', h₁) ∧ r'.fault = some f
      | none =>
        let marked := (h₁.named mark).run fuel second
        Option.Rel (EndsTwin (Place.Unmarks mark file 0)) marked (h₁.run fuel second) ∧
        Option.Rel (EndsTwin (Place.Unmarks mark file k)) marked (h.run fuel both) ∧
        Option.Rel (EndsTwin (Place.Shifts file k)) (h₁.run fuel second) (h.run fuel both) := by
  intro h both file k hfirst hsecond hboth
  have hfile : h.config.file = file := file_after config sink clock past
  obtain ⟨ss, hs⟩ := Program.clean_iff.1 hfirst
  obtain ⟨tt, ht⟩ := Program.clean_iff.1 hsecond
  have hj := hs.joined ht hboth
  obtain ⟨htree, hunread⟩ := Resolved.program_joined (Place.keepsOrder_shift h.config.file k)
    h.config.allowRedefinition ss tt
  rw [← hfile]
  refine ⟨fun x hx => ?_, ?_⟩
  · rw [run_clean hj] at hx
    obtain ⟨hproblems, hx, -⟩ := of_runAll hx
    rw [hs.checked, ht.checked]
    exact ⟨hproblems, hx.trans hunread⟩
  · rw [run_clean hs, run_clean hj, htree,
      runAll_append h fuel _ (Resolved.program h.config.allowRedefinition ss).unread]
    cases hrun : h.runAll fuel _ (Resolved.program h.config.allowRedefinition ss).tree with
    | none => rfl
    | some x =>
      obtain ⟨r, h₁⟩ := x
      have hconfig : h₁.config = h.config := (of_runAll hrun).2.2
      dsimp only
      cases r.fault with
      | some f => exact ⟨_, rfl, rfl⟩
      | none =>
        rw [← hconfig] at hfile ht ⊢
        exact endsTwin_places (hfile ▸ hmark)
          (fun R hR => own_twin_run (fun p hp => hR p (hp.trans hfile.symm))
            ((run_clean hs fuel).trans hrun)) ht fuel k _

/-- A variable that nothing reads in each of two sources. -/
theorem twoBlocks_joined :
    ((after ⟨false, false, "main.lox"⟩ (.empty none false) (.ticking 0) []).run 9
        ("{ var a; }\nvar f;" ++ "\n" ++ "{ var b; }\nf();")).map (·.1.unread) =
      some [⟨"a", ⟨"main.lox", 1, 7⟩⟩, ⟨"b", ⟨"main.lox", 3, 7⟩⟩] := by
  have hclean {source : String}
      (h : (Checked.ofSource ⟨false, false, "main.lox"⟩ source).problems.isEmpty) :
      (Checked.ofSource ⟨false, false, "main.lox"⟩ source).problems = [] := List.isEmpty_iff.1 h
  have hends : ((after ⟨false, false, "main.lox"⟩ (.empty none false) (.ticking 0) []).run 9
      ("{ var a; }\nvar f;" ++ "\n" ++ "{ var b; }\nf();")).isSome := by decide +kernel
  obtain ⟨x, hx⟩ := Option.isSome_iff_exists.1 hends
  have hj := (@run_joined ⟨false, false, "main.lox"⟩ "second.lox" (by decide) (.empty none false) (.ticking 0)
    [] 9 "{ var a; }\nvar f;" "{ var b; }\nf();" (hclean (by decide +kernel))
    (hclean (by decide +kernel)) (hclean (by decide +kernel))).1 x hx
  rw [hx]
  exact congrArg some (hj.2.trans (by decide +kernel))

/-- Their fault stems from the second source. -/
example :
    ((after ⟨false, false, "main.lox"⟩ (.empty none false) (.ticking 0) []).run 9
        ("{ var a; }\nvar f;" ++ "\n" ++ "{ var b; }\nf();")).bind (·.1.fault) =
      some ⟨⟨"main.lox", 4, 2⟩, .notCallable⟩ := by
  decide +kernel

end Host

end LoxLang
