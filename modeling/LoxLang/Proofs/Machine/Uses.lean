import LoxLang.Proofs.Machine.Laws

/-!
# Uses and definitions of names

A use of a variable at a visit either finds the name bound in the activation that the walk
chose, or the visit is premature and the use ends in the mismatch that says so. Defining
a name keeps the scopes mirrored, with one name more.
-/

namespace LoxLang

open Scoping

variable {t : Watched}

/-! ## Where a use leads -/

/-- One more name in the innermost scope does not matter to the others. -/
theorem has_of_declaring {ss : List (Bindings Bool)} {name other : String} {d : Nat}
    {s : Bindings Bool} (h : (declaring name ss)[d]? = some s) (hn : other ≠ name)
    (hs : s.has other) : ∃ s', ss[d]? = some s' ∧ s'.has other := by
  match ss, d, h with
  | s' :: _, 0, h =>
    cases h
    rw [Bindings.has_insert, beq_eq_false_iff_ne.2 hn, Bool.false_or] at hs
    exact ⟨s', rfl, hs⟩
  | _ :: _, d + 1, h => exact ⟨s, h, hs⟩

/-- A use leads to the activation of the scope that the walk found, where the name is bound
unless the site lies inside its initializer. -/
theorem Mirrors.use {σ : Site} {ss : List (Bindings Bool)} {name : String} {d : Nat}
    (hm : Mirrors t t.machine.current ss σ.openers)
    (hw : Awaited σ.initializers ss σ.openers.length)
    (hs : σ.walk.outline = ss ∨ ∃ n, σ.walk.outline = declaring n ss ∧ name ≠ n)
    (hd : distance? σ.walk.scopes name = some d) :
    ∃ id, t.machine.scopes.ancestor? t.machine.current d = some id ∧ id ≠ t.machine.globals ∧
      ((∃ v, t.own? id name = some v) ∨ t.own? id name = none ∧ σ.Initializes d name) := by
  obtain ⟨s, hsd, hn⟩ := has_of_distance hd
  have hss : ∃ u, ss[d]? = some u ∧ u.has name := by
    rcases hs with hs | ⟨n, hs, hne⟩
    · exact ⟨s, hs ▸ hsd, hn⟩
    · exact has_of_declaring (hs ▸ hsd) hne hn
  obtain ⟨u, hu, hun⟩ := hss
  obtain ⟨id, o, hid, -, ha⟩ := hm.get hu
  refine ⟨id, hid, ha.isLocal, ?_⟩
  cases ho : t.own? id name with
  | some v => exact .inl ⟨v, rfl⟩
  | none =>
    rcases ha.bound_or hun with hb | hb
    · rw [ho] at hb
      cases hb
    · exact .inr ⟨rfl, hw d u name hu hb⟩

/-! ## Looking up -/

theorem Run.check_ok {α : Type} {look : Machine → Except Fault α} {m : Machine} {a : α}
    (h : look m = .ok a) : Run.check look m = .ok a m := by
  unfold Run.check
  rw [h]

theorem Scopes.getAt_bound {ss : Scopes} {id holder : ScopeId} {d : Nat} {name : Name} {v : Value}
    (ha : ss.ancestor? id d = some holder) (hv : ss.own? holder name.text = some v) :
    ss.getAt id d name = .ok v := by
  simp only [Scopes.getAt, ha, hv]

theorem Scopes.getAt_unbound {ss : Scopes} {id holder : ScopeId} {d : Nat} {name : Name}
    (ha : ss.ancestor? id d = some holder) (hv : ss.own? holder name.text = none) :
    ss.getAt id d name = .error ⟨name.place, .mismatch (.unbound d name.text)⟩ := by
  simp only [Scopes.getAt, ha, hv]

theorem Scopes.own_of_getAt {ss : Scopes} {id : ScopeId} {d : Nat} {name : Name} {v : Value}
    (h : ss.getAt id d name = .ok v) :
    ∃ holder, ss.ancestor? id d = some holder ∧ ss.own? holder name.text = some v := by
  unfold Scopes.getAt at h
  cases ha : ss.ancestor? id d with
  | none =>
    rw [ha] at h
    cases h
  | some holder =>
    rw [ha] at h
    dsimp only at h
    cases ho : ss.own? holder name.text with
    | none =>
      rw [ho] at h
      cases h
    | some w =>
      rw [ho] at h
      cases h
      exact ⟨holder, rfl, ho⟩

theorem Scopes.own_of_holderAt {ss : Scopes} {id holder : ScopeId} {d : Nat} {name : Name}
    (h : ss.holderAt id d name = .ok holder) :
    (ss.own? holder name.text).isSome := by
  unfold Scopes.holderAt at h
  cases hg : ss.getAt id d name with
  | error g =>
    rw [hg] at h
    cases h
  | ok v =>
    rw [hg] at h
    obtain ⟨a, ha, ho⟩ := own_of_getAt hg
    cases h
    rw [ha, Option.getD_some, ho]
    rfl

theorem Scopes.get_cases (ss : Scopes) (id : ScopeId) (name : Name) :
    (∃ holder v, ss.own? holder name.text = some v ∧ ss.get id name = .ok v) ∨
      ss.get id name = .error ⟨name.place, .undefinedVariable name.text⟩ := by
  unfold Scopes.get
  cases hh : ss.holder? id name.text with
  | none => exact .inr rfl
  | some holder =>
    rw [Option.bind_some]
    cases hv : ss.own? holder name.text with
    | none => exact .inr rfl
    | some v => exact .inl ⟨holder, v, hv, rfl⟩

theorem Scopes.own_of_holder {ss : Scopes} {id : ScopeId} {name : Name}
    {holder : ScopeId} (h : ss.holder id name = .ok holder) :
    (ss.own? holder name.text).isSome := by
  have within : ∀ (limit : Nat) (id : ScopeId), ss.holderWithin? name.text limit id = some holder →
      (ss.own? holder name.text).isSome := by
    intro limit
    induction limit with
    | zero => intro id h; cases h
    | succ limit ih =>
      intro id h
      rw [Scopes.holderWithin?] at h
      split at h
      · cases h
        assumption
      · split at h
        · exact ih _ h
        · cases h
  unfold Scopes.holder at h
  split at h
  · rename_i holder' hh
    cases h
    exact within _ _ hh
  · cases h

theorem Scopes.definable_cases (ss : Scopes) (id : ScopeId) (name : Name) :
    ss.definable id name = .ok id ∨
      ss.definable id name = .error ⟨name.place, .redefinition name.text⟩ := by
  unfold Scopes.definable
  dsimp only
  split
  · exact .inr rfl
  · exact .inl rfl

/-- A use of a local variable acts on the activation of the declaration that the walk chose,
unless it lies inside the variable's own initializer. -/
def Visit.Acts (v : Visit) : Prop :=
  ∀ r ∈ v.node.target?, ∀ d ∈ r.depth, ¬ v.site.Initializes d r.name.text →
    ∃ id o w, v.machine.scopes.ancestor? v.machine.current d = some id ∧
      v.site.openers[d]? = some o ∧ v.origins id = some o ∧
      v.machine.scopes.own? id r.name.text = some w ∧
      Run.readVariable r v.machine = .ok w v.machine ∧
      ∀ w', Run.assignVariable r w' v.machine = .ok () { v.machine with
        scopes := v.machine.scopes.insert id r.name.text w' }

theorem Visit.Mirrored.acts {v : Visit} (h : v.Mirrored) : v.Acts := by
  intro r hr d hd hi
  obtain ⟨hdist, hp⟩ := h.chosen r hr
  rw [Option.mem_def] at hd
  rw [hd, eq_comm, distance?, List.findIdx?_eq_some_iff_getElem] at hdist
  obtain ⟨hlt, hn, -⟩ := hdist
  have ho : d < v.site.openers.length := by
    rw [h.length]
    exact hlt
  obtain ⟨id, hid, horigin, -, hbound⟩ := h.scopes d _ _ (List.getElem?_eq_getElem hlt)
    (List.getElem?_eq_getElem ho)
  rcases hbound r.name.text hn with hb | hb | hb
  · obtain ⟨w, hw⟩ := Option.isSome_iff_exists.1 hb
    have hget := Scopes.getAt_bound hid hw
    refine ⟨id, _, w, hid, List.getElem?_eq_getElem ho, horigin, hw, ?_, fun w' => ?_⟩
    · simp only [Run.readVariable, hd, Run.check, hget]
    · simp only [Run.assignVariable, hd, Run.store, Scopes.holderAt, hget, hid, Except.map,
        Option.getD_some]
  · exact absurd hb hi
  · exact absurd hb.2 hp

/-- The use is of a global, or its name is bound in the activation that it leads to. -/
def Bound (t : Watched) (r : Reference) : Prop :=
  ∀ d ∈ r.depth, ∃ id v, t.machine.scopes.ancestor? t.machine.current d = some id ∧
    id ≠ t.machine.globals ∧ t.own? id r.name.text = some v

/-- A step that fails like a look at the variable if that is not bound where it should be. -/
def Looks {α : Type} (x : Run α) (r : Reference) : Prop :=
  ∀ m d id, r.depth = some d → m.scopes.ancestor? m.current d = some id →
    m.scopes.own? id r.name.text = none →
    x m = .error (.fault ⟨r.name.place, .mismatch (.unbound d r.name.text)⟩) m

theorem looks_readVariable (r : Reference) : Looks (Run.readVariable r) r := by
  intro m d id hd ha hv
  simp only [Run.readVariable, hd, Run.check, Scopes.getAt_unbound ha hv]

theorem looks_assignVariable (r : Reference) (v : Value) : Looks (Run.assignVariable r v) r := by
  intro m d id hd ha hv
  simp only [Run.assignVariable, hd, Run.store, Scopes.holderAt, Scopes.getAt_unbound ha hv,
    Except.map]

theorem looks_readSuperclass (r : Reference) : Looks (Run.readSuperclass r) r := by
  intro m d id hd ha hv
  have hr := looks_readVariable r m d id hd ha hv
  show EStateM.bind (Run.readVariable r) _ m = _
  unfold EStateM.bind
  rw [hr]

/-! ## One name more -/

/-- The scopes with one name more are mirrored, with that name. -/
theorem Mirrors.insert {id : ScopeId} {ss : List (Bindings Bool)} {os : List Opener}
    {x : String} {v : Value} (hm : Mirrors t id ss os) (hx : x ≠ "this" ∧ x ≠ "super") :
    Mirrors (t.insert id x v) id (declaring x ss) os := by
  have hg : Extends t (t.insert id x v) := (grows_insert (.inr (.inl hx))).toExtends
  match ss, os, hm with
  | [], [], hm => exact @Mirrors.grow _ _ hg [] [] _ hm
  | s :: ss, o :: os, ⟨ha, p, hp, hm⟩ =>
    have hlt := t.lt_of_parent hp
    have ha' := ha.grow hg hlt
    refine ⟨⟨ha'.isLocal, ha'.origin, ?_, ?_, ?_⟩, p, by rw [t.parent?_insert, hp], hm.grow hg⟩
    · intro y hy
      rw [Bindings.find?_insert] at hy
      split at hy
      · rename_i hyx
        rw [beq_iff_eq] at hyx
        rw [t.own?_insert, if_pos ⟨rfl, hyx, hlt⟩]
        rfl
      · exact ha'.bound y hy
    · intro h
      rw [Bindings.has_insert, beq_eq_false_iff_ne.2 hx.1.symm, Bool.false_or] at h
      exact ha'.this h
    · intro h
      rw [Bindings.has_insert, beq_eq_false_iff_ne.2 hx.2.symm, Bool.false_or] at h
      exact ha'.super h

/-- What opened the scope that runs. -/
theorem Mirrors.origin {id : ScopeId} {ss : List (Bindings Bool)} {os : List Opener}
    (hg : Good t) (hm : Mirrors t id ss os) : t.record.origins id = os.head? := by
  match ss, os, hm with
  | [], [], hm => rw [show id = t.machine.globals from hm, hg.rootOrigin]; rfl
  | _ :: _, _ :: _, ⟨ha, _⟩ => exact ha.origin

/-- A visit that is about no variable is never premature. -/
theorem Stands.visiting {σ : Site} {node : Node} (h : Stands t σ) (hn : node.target? = none) :
    Stands (t.visiting σ node) σ := by
  have hv : Visit.Mirrored ⟨σ, node, t.machine, t.record.origins⟩ :=
    h.mirrors.visit h.good h.awaited (.inl rfl) (by simp [hn])
  refine ⟨h.good.visiting hv, ?_, ?_, h.housed, h.awaited⟩
  · intro v hv
    rcases List.mem_cons.1 hv with rfl | hv
    · rintro ⟨r, d, hp⟩
      cases hn.symm.trans hp.target
    · exact h.calm v hv
  · exact h.mirrors.grow (grows_visiting t σ node).toExtends

namespace Watching

variable {α β : Type} {post : α → Watched → Prop}

/-- A visit that is about a variable: the rest goes on as long as it is not premature. -/
theorem Steps.use {σ : Site} {node : Node} {ss : List (Bindings Bool)} {r : Reference}
    {x : Run α} (hg : Good t) (hc : Calm t) (hm : Mirrors t t.machine.current ss σ.openers)
    (hw : Awaited σ.initializers ss σ.openers.length)
    (hs : σ.walk.outline = ss ∨ ∃ n, σ.walk.outline = declaring n ss ∧ node.Pending n)
    (ht : node.target? = some r) (hp : ¬ node.Pending r.name.text)
    (hr : r.depth = distance? σ.walk.scopes r.name.text) (hx : Looks x r)
    (h : ∀ t', Grows t t' → Good t' → Calm t' → Bound t' r → Steps t' (step x) post) :
    Steps t (visit σ node >>= fun _ => step x) post := by
  have hv := hm.visit hg hw hs (by
    intro r' hr'
    cases ht.symm.trans hr'
    exact ⟨hr, hp⟩)
  have hgood := hg.visiting hv
  have hcalm (hp : ¬ Visit.Premature ⟨σ, node, t.machine, t.record.origins⟩) :
      Calm (t.visiting σ node) := by
    intro v hv
    rcases List.mem_cons.1 hv with rfl | hv
    · exact hp
    · exact hc v hv
  have he : (visit σ node >>= fun _ => step x) t = step x (t.visiting σ node) := rfl
  suffices hrest : Steps (t.visiting σ node) (step x) post from
    .of_eq he (grows_visiting t σ node) hrest
  have target {r' : Reference} {d : Nat}
      (hp : Visit.PrematureAt ⟨σ, node, t.machine, t.record.origins⟩ r' d) : r' = r :=
    Option.some.inj (hp.target.symm.trans ht)
  cases hd : r.depth with
  | none =>
    refine h _ (grows_visiting t σ node) hgood (hcalm ?_) fun d hd' => ?_
    · rintro ⟨r', d, hp⟩
      cases target hp
      rw [hp.depth] at hd
      cases hd
    · rw [hd] at hd'
      cases hd'
  | some d =>
    obtain ⟨id, hid, hl, hb⟩ := hm.use hw
      (hs.imp_right fun ⟨n, ho, hn⟩ => ⟨n, ho, fun he => hp (he ▸ hn)⟩) (hr.symm.trans hd)
    rcases hb with ⟨v, hb⟩ | ⟨hb, ha⟩
    · refine h _ (grows_visiting t σ node) hgood (hcalm ?_) fun d' hd' => ?_
      · rintro ⟨r', d', hp⟩
        cases target hp
        cases hd.symm.trans hp.depth
        obtain ⟨id', hid', hb'⟩ := hp.unbound
        cases hid.symm.trans hid'
        cases hb.symm.trans hb'
      · cases hd.symm.trans hd'
        exact ⟨id, v, hid, hl, hb⟩
    · have he : step x (t.visiting σ node) = .error (.fault ⟨r.name.place,
          .mismatch (.unbound d r.name.text)⟩) (t.visiting σ node) := by
        simp only [step, hx t.machine d id hd hid hb, Watched.visiting]
      unfold Steps
      rw [he]
      exact ⟨.refl _, hgood, .inr ⟨_, _, r, d, rfl, ⟨ht, hd, ha, id, hid, hb⟩, hc, rfl⟩⟩

/-- A visit that is about no variable. -/
theorem Steps.visit {σ : Site} {node : Node} {x : Watching α} (h : Stands t σ)
    (hn : node.target? = none)
    (hx : Stands (t.visiting σ node) σ → Steps (t.visiting σ node) x post) :
    Steps t (Watching.visit σ node >>= fun _ => x) post := by
  have he : (Watching.visit σ node >>= fun _ => x) t = x (t.visiting σ node) := rfl
  exact .of_eq he (grows_visiting t σ node) (hx (h.visiting hn))

/-! ## Reading and assigning -/

theorem Steps.readVariable {r : Reference} (hg : Good t) (hc : Calm t) (hb : Bound t r) :
    Steps t (step (Run.readVariable r)) fun v u => GoodValue u v := by
  unfold Run.readVariable
  cases hd : r.depth with
  | none =>
    refine .check hg hc ?_ ?_
    · intro v hv
      rcases t.machine.scopes.get_cases t.machine.globals r.name with ⟨id, w, hw, he⟩ | he
      · cases he.symm.trans hv
        exact hg.scopes id _ _ hw
      · cases he.symm.trans hv
    · intro f hf
      rcases t.machine.scopes.get_cases t.machine.globals r.name with ⟨id, w, hw, he⟩ | he
      · cases he.symm.trans hf
      · cases he.symm.trans hf
        exact fun m hm => nomatch hm
  | some d =>
    obtain ⟨id, v, ha, -, hv⟩ := hb d hd
    have he := Scopes.getAt_bound ha hv
    refine .check hg hc ?_ ?_
    · intro w hw
      cases he.symm.trans hw
      exact hg.scopes id _ _ hv
    · intro f hf
      cases he.symm.trans hf

theorem Steps.store {choose : Machine → Except Fault ScopeId} {name : String} {v : Value}
    {post : Unit → Watched → Prop} (hg : Good t) (hc : Calm t)
    (he : ∀ f, choose t.machine = .error f → f.Ordinary)
    (ho : ∀ id, choose t.machine = .ok id → Grows t (t.insert id name v) ∧
      Good (t.insert id name v) ∧ post () (t.insert id name v)) :
    Steps t (step (Run.store choose name v)) post := by
  unfold Steps step Run.store
  cases h : choose t.machine with
  | error f => exact ⟨.refl t, hg, .inl ⟨he f h, hc⟩⟩
  | ok id =>
    obtain ⟨hgrows, hgood, hp⟩ := ho id h
    exact ⟨hgrows, hgood, hc, hp⟩

/-- To bind a name to another value where it is bound. -/
theorem Steps.reassign {choose : Machine → Except Fault ScopeId} {name : Name} {v : Value}
    (hg : Good t) (hc : Calm t) (hn : name.IsOrdinary) (hv : GoodValue t v)
    (he : ∀ f, choose t.machine = .error f → f.Ordinary)
    (ho : ∀ id, choose t.machine = .ok id → (t.own? id name.text).isSome) :
    Steps t (step (Run.store choose name.text v)) fun _ _ => True := by
  refine .store hg hc he fun id hid => ?_
  have hx : id = t.machine.globals ∨ (name.text ≠ "this" ∧ name.text ≠ "super") ∨
      t.own? id name.text = none := .inr (.inl hn)
  have hgrows := grows_insert (v := v) hx
  have hd : ∀ o, t.record.origins id = some o → o.construct.Declares name.text :=
    fun o hi => hg.declared id o _ hi (ho id hid)
  exact ⟨hgrows, hg.insert hx (hv.grow hgrows.toExtends) hd, trivial⟩

theorem Steps.assignVariable {r : Reference} {v : Value} (hg : Good t) (hc : Calm t)
    (hb : Bound t r) (hn : r.name.IsOrdinary) (hv : GoodValue t v) :
    Steps t (step (Run.assignVariable r v)) fun _ _ => True := by
  unfold Run.assignVariable
  cases hd : r.depth with
  | none =>
    refine .reassign hg hc hn hv (fun f hf => ?_) fun id hi => Scopes.own_of_holder hi
    unfold Scopes.holder at hf
    split at hf
    · cases hf
    · cases hf
      exact fun m hm => nomatch hm
  | some d =>
    obtain ⟨id, w, ha, -, hw⟩ := hb d hd
    have he : t.machine.scopes.holderAt t.machine.current d r.name = .ok id := by
      rw [Scopes.holderAt, Scopes.getAt_bound ha hw, ha]
      rfl
    refine .reassign hg hc hn hv ?_ ?_
    · intro f hf
      cases he.symm.trans hf
    · intro id' hi
      cases he.symm.trans hi
      rw [hw]
      rfl

/-! ## Defining -/

/-- A definition; the value may depend on its name being bound. -/
theorem Steps.define {name : Name} {v : Value} {ss : List (Bindings Bool)} {os : List Opener}
    (hg : Good t) (hc : Calm t) (hn : name.IsOrdinary)
    (hm : Mirrors t t.machine.current ss os)
    (hd : ∀ o ∈ os.head?, o.construct.Declares name.text)
    (hv : ∀ u, Extends t u → Mirrors u t.machine.current (declaring name.text ss) os →
      GoodValue u v) :
    Steps t (step (Run.define name v)) fun _ u =>
      Mirrors u t.machine.current (declaring name.text ss) os := by
  have hx : t.machine.current = t.machine.globals ∨ (name.text ≠ "this" ∧ name.text ≠ "super") ∨
      t.own? t.machine.current name.text = none := .inr (.inl hn)
  have hgrows := grows_insert (v := v) hx
  have hm' := hm.insert (v := v) hn
  have ho : ∀ o, t.record.origins t.machine.current = some o → o.construct.Declares name.text :=
    fun o ho => hd o ((hm.origin hg).symm.trans ho)
  refine .store hg hc ?_ ?_
  · intro f hf
    rcases t.machine.scopes.definable_cases t.machine.current name with he | he
    · cases he.symm.trans hf
    · cases he.symm.trans hf
      exact fun m hm => nomatch hm
  · intro id hid
    rcases t.machine.scopes.definable_cases t.machine.current name with he | he
    · cases he.symm.trans hid
      exact ⟨hgrows, hg.insert hx (hv _ hgrows.toExtends hm') ho, hm'⟩
    · cases he.symm.trans hid

end Watching

end LoxLang
