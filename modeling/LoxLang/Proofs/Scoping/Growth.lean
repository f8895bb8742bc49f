import LoxLang.Scoping.Basic
import Mathlib.Data.List.Forall2

/-!
# What a walk leaves behind

How the state behind a part of a program differs from the state in front of it.
`Walk.Reads` is what an expression may do: names may have been read. `Walk.Adds` is what a
statement may do besides: the innermost scope, or the globals where no scope is open, may have
got the names that it declares. Both give back the function and the class around, and only
ever add reports (`Walk.Returns`).
-/

namespace LoxLang

theorem forall₂_trans {α : Type} {R : α → α → Prop} (hR : ∀ a b c, R a b → R b c → R a c)
    {as bs cs : List α} (h : List.Forall₂ R as bs) (h' : List.Forall₂ R bs cs) :
    List.Forall₂ R as cs := by
  induction h generalizing cs with
  | nil => exact h'
  | cons hab _ ih =>
    cases h' with
    | cons hbc h' => exact .cons (hR _ _ _ hab hbc) (ih h')

theorem forall₂_modify_self {α : Type} {R : α → α → Prop} (hR : ∀ a, R a a) {f : α → α}
    (hf : ∀ a, R a (f a)) (d : Nat) (l : List α) : List.Forall₂ R l (l.modify d f) := by
  induction l generalizing d with
  | nil => simp
  | cons a l ih =>
    cases d with
    | zero => exact .cons (hf a) (List.forall₂_same.2 fun a _ => hR a)
    | succ d => exact .cons (hR a) (ih d)

namespace Bindings

variable {α : Type} {R S : String × α → String × α → Prop} {ns ms : List String}
  {old new newest : Bindings α}

theorem mem_names_iff {bs : Bindings α} {name : String} :
    name ∈ bs.names ↔ bs.has name = true := by
  induction bs with
  | nil => simp [names, has]
  | cons p bs ih =>
    obtain ⟨n, b⟩ := p
    have hnames : names ((n, b) :: bs) = n :: names bs := rfl
    rw [hnames, List.mem_cons, ih, has, has, find?_cons]
    by_cases h : name = n <;> simp [h]

theorem insert_of_not_has {bs : Bindings α} {name : String} (a : α) (h : bs.has name = false) :
    bs.insert name a = bs ++ [(name, a)] := by
  induction bs with
  | nil => rfl
  | cons p bs ih =>
    obtain ⟨n, b⟩ := p
    rw [has, find?_cons] at h
    by_cases hn : name = n
    · simp [hn] at h
    · have hbs : has bs name = false := by simpa [has, hn] using h
      simp [insert, hn, ih hbs]

/-- The bindings stand where they stood, each as `R` allows, and behind them stand bindings of
new names, each of them one of `ns`. -/
def Grows (R : String × α → String × α → Prop) (ns : List String) (old new : Bindings α) :
    Prop :=
  ∃ kept added : Bindings α, new = kept ++ added ∧ List.Forall₂ R old kept ∧
    added.names.Nodup ∧ ∀ n ∈ added.names, n ∈ ns ∧ n ∉ old.names

theorem Grows.of_forall₂ (ns : List String) (h : List.Forall₂ R old new) :
    old.Grows R ns new :=
  ⟨new, [], (List.append_nil new).symm, h, List.nodup_nil, nofun⟩

/-- Growth may be told with less about what is kept and more names that are new. -/
theorem Grows.mono (h : old.Grows R ns new) (hR : ∀ a b, R a b → S a b)
    (hn : ∀ n ∈ ns, n ∈ ms) : old.Grows S ms new := by
  obtain ⟨kept, added, rfl, hkept, hadded, hnew⟩ := h
  exact ⟨kept, added, rfl, hkept.imp hR, hadded, fun n hm => ⟨hn n (hnew n hm).1, (hnew n hm).2⟩⟩

/-- A new name is bound behind the others. -/
theorem Grows.of_insert (hR : ∀ a, R a a) {name : String} (a : α) (hname : name ∈ ns)
    (h : old.has name = false) : old.Grows R ns (old.insert name a) := by
  refine ⟨old, [(name, a)], insert_of_not_has a h, List.forall₂_same.2 fun a _ => hR a,
    List.pairwise_singleton _ name, fun n hn => ?_⟩
  obtain rfl := List.mem_singleton.1 hn
  exact ⟨hname, fun hm => by simp [mem_names_iff.1 hm] at h⟩

/-- One binding is changed. -/
theorem forall₂_change (hR : ∀ a, R a a) (name : String) (f : α → α)
    (hf : ∀ a, R (name, a) (name, f a)) (bs : Bindings α) :
    List.Forall₂ R bs (bs.change name f) := by
  induction bs with
  | nil => exact .nil
  | cons p bs ih =>
    obtain ⟨n, b⟩ := p
    rw [change]
    split
    next h =>
      obtain rfl := eq_of_beq h
      exact .cons (hf b) (List.forall₂_same.2 fun a _ => hR a)
    next => exact .cons (hR _) ih

theorem names_append (bs cs : Bindings α) : names (bs ++ cs) = bs.names ++ cs.names :=
  List.map_append

theorem names_of_forall₂ (hR : ∀ a b, R a b → b.1 = a.1) (h : List.Forall₂ R old new) :
    new.names = old.names := by
  induction h with
  | nil => rfl
  | cons hab _ ih => exact congrArg₂ List.cons (hR _ _ hab) ih

/-- What has grown twice has grown by the names of both. -/
theorem Grows.trans (hname : ∀ a b, R a b → b.1 = a.1)
    (htrans : ∀ a b c, R a b → R b c → R a c) (h : old.Grows R ns new)
    (h' : new.Grows R ns newest) : old.Grows R ns newest := by
  obtain ⟨kept, added, rfl, hkept, hadded, hnew⟩ := h
  obtain ⟨all, added', rfl, hall, hadded', hnew'⟩ := h'
  -- what was added the first time is kept the second time
  have hfirst : List.Forall₂ R kept (all.take kept.length) := by
    simpa using List.forall₂_take kept.length hall
  have hsecond : List.Forall₂ R added (all.drop kept.length) := by
    simpa using List.forall₂_drop kept.length hall
  have hnames : names (all.drop kept.length ++ added') = added.names ++ added'.names := by
    rw [names_append, names_of_forall₂ hname hsecond]
  rw [names_append, names_of_forall₂ hname hkept] at hnew'
  refine ⟨all.take kept.length, all.drop kept.length ++ added', ?_,
    forall₂_trans htrans hkept hfirst, ?_, ?_⟩
  · rw [← List.append_assoc, List.take_append_drop]
  · rw [hnames]
    refine List.nodup_append.2 ⟨hadded, hadded', fun n hn m hm he => ?_⟩
    subst he
    exact (hnew' n hm).2 (List.mem_append_right _ hn)
  · intro n hn
    rw [hnames] at hn
    rcases List.mem_append.1 hn with hn | hn
    · exact hnew n hn
    · exact ⟨(hnew' n hn).1, fun hm => (hnew' n hn).2 (List.mem_append_left _ hm)⟩

end Bindings

namespace Scoping

/-! ## Local names -/

/-- The name may have been read in between. -/
structure OnlyRead (a b : String × Local) : Prop where
  name : b.1 = a.1
  place : b.2.place = a.2.place
  tracked : b.2.tracked = a.2.tracked
  defined : b.2.defined = a.2.defined
  read : a.2.read → b.2.read

/-- The name may have been read in between, or got its value if it is one of these. -/
structure Kept (ns : List String) (a b : String × Local) : Prop where
  name : b.1 = a.1
  place : b.2.place = a.2.place
  tracked : b.2.tracked = a.2.tracked
  defined : b.2.defined = a.2.defined ∨ b.2.defined ∧ a.1 ∈ ns
  read : a.2.read → b.2.read

variable {ns ms : List String} {a b c : String × Local}

/-- A local is only read if nothing happens to it. -/
theorem OnlyRead.refl (a : String × Local) : OnlyRead a a := ⟨rfl, rfl, rfl, rfl, id⟩

/-- A local that is only read, twice, is only read. -/
theorem OnlyRead.trans (h : OnlyRead a b) (h' : OnlyRead b c) : OnlyRead a c :=
  ⟨h'.name.trans h.name, h'.place.trans h.place, h'.tracked.trans h.tracked,
    h'.defined.trans h.defined, h'.read ∘ h.read⟩

theorem OnlyRead.kept (h : OnlyRead a b) : Kept ns a b :=
  ⟨h.name, h.place, h.tracked, .inl h.defined, h.read⟩

/-- An entry is kept if nothing happens to it. -/
theorem Kept.refl (a : String × Local) : Kept ns a a := (OnlyRead.refl a).kept

theorem Kept.trans (h : Kept ns a b) (h' : Kept ns b c) : Kept ns a c := by
  refine ⟨h'.name.trans h.name, h'.place.trans h.place, h'.tracked.trans h.tracked, ?_,
    h'.read ∘ h.read⟩
  rcases h'.defined with he | ⟨hc, hn⟩
  · exact h.defined.imp he.trans fun ⟨hb, hn⟩ => ⟨he.trans hb, hn⟩
  · exact .inr ⟨hc, h.name ▸ hn⟩

theorem Kept.mono (h : Kept ns a b) (hn : ∀ n ∈ ns, n ∈ ms) : Kept ms a b :=
  ⟨h.name, h.place, h.tracked, h.defined.imp id fun ⟨hb, hm⟩ => ⟨hb, hn _ hm⟩, h.read⟩

/-! ## Walks -/

/-- The walk has added to its problems, if it did anything to them. -/
def Walk.Reports (w v : Walk) : Prop := ∃ ps, v.problems = w.problems ++ ps

/-- Problems that are reported are added behind those that were. -/
theorem Walk.Reports.trans {u v w : Walk} (h : u.Reports v) (h' : v.Reports w) : u.Reports w := by
  obtain ⟨ps, hp⟩ := h
  obtain ⟨qs, hq⟩ := h'
  exact ⟨ps ++ qs, by rw [hq, hp, Array.append_assoc]⟩

/-- The walk is where it was, and has only added to its reports. -/
structure Walk.Returns (w v : Walk) : Prop where
  function : v.function = w.function
  classKind : v.classKind = w.classKind
  allowRedefinition : v.allowRedefinition = w.allowRedefinition
  problems : w.Reports v
  unread : ∃ ns, v.unread = w.unread ++ ns

/-- What an expression does to a walk: in the open scopes names may have been read. -/
structure Walk.Reads (w v : Walk) : Prop extends w.Returns v where
  globals : v.globals = w.globals
  scopes : List.Forall₂ (List.Forall₂ OnlyRead) w.scopes v.scopes

/-- What may become of the scopes and globals where names are declared: where no scope is open
the globals grow by such names, else the innermost scope does, and in the others names may have
been read. -/
inductive Walk.Grown (ns : List String) (w v : Walk) : Prop
  | globals (hw : w.scopes = []) (hv : v.scopes = [])
      (h : w.globals.Grows (· = ·) ns v.globals)
  | innermost {s s' : Bindings Local} {ss ss' : List (Bindings Local)} (hw : w.scopes = s :: ss)
      (hv : v.scopes = s' :: ss') (hg : v.globals = w.globals) (h : s.Grows (Kept ns) ns s')
      (hss : List.Forall₂ (List.Forall₂ OnlyRead) ss ss')

/-- What a statement that declares names does to a walk. -/
structure Walk.Adds (ns : List String) (w v : Walk) : Prop extends w.Returns v where
  grown : Walk.Grown ns w v

/-- The walk has opened a scope, and done nothing else but report. -/
structure Walk.Opens (w v : Walk) : Prop extends w.Returns v where
  globals : v.globals = w.globals
  scopes : ∃ s, v.scopes = s :: w.scopes

namespace Walk

variable {u v w : Walk}

/-- A step on the names alone. -/
theorem Returns.change (w : Walk) (scopes : List (Bindings Local)) (globals : Bindings Place) :
    w.Returns { w with scopes, globals } := ⟨rfl, rfl, rfl, ⟨#[], by simp⟩, #[], by simp⟩

theorem Returns.refl (w : Walk) : w.Returns w := .change w w.scopes w.globals

theorem Returns.trans (h : u.Returns v) (h' : v.Returns w) : u.Returns w := by
  obtain ⟨ns, hns⟩ := h.unread
  obtain ⟨ms, hms⟩ := h'.unread
  exact ⟨h'.function.trans h.function, h'.classKind.trans h.classKind,
    h'.allowRedefinition.trans h.allowRedefinition, h.problems.trans h'.problems, ns ++ ms,
    by rw [hms, hns, Array.append_assoc]⟩

theorem forall₂_onlyRead_refl (s : Bindings Local) : List.Forall₂ OnlyRead s s :=
  List.forall₂_same.2 fun a _ => .refl a

theorem forall₂_onlyRead_scopes_refl (ss : List (Bindings Local)) :
    List.Forall₂ (List.Forall₂ OnlyRead) ss ss :=
  List.forall₂_same.2 fun s _ => forall₂_onlyRead_refl s

theorem forall₂_onlyRead_scopes_trans {ss ts us : List (Bindings Local)}
    (h : List.Forall₂ (List.Forall₂ OnlyRead) ss ts)
    (h' : List.Forall₂ (List.Forall₂ OnlyRead) ts us) :
    List.Forall₂ (List.Forall₂ OnlyRead) ss us :=
  forall₂_trans (R := List.Forall₂ OnlyRead)
    (fun _ _ _ => forall₂_trans (R := OnlyRead) fun _ _ _ => .trans) h h'

theorem Reads.refl (w : Walk) : w.Reads w :=
  ⟨.refl w, rfl, forall₂_onlyRead_scopes_refl w.scopes⟩

theorem Reads.trans (h : u.Reads v) (h' : v.Reads w) : u.Reads w :=
  ⟨h.toReturns.trans h'.toReturns, h'.globals.trans h.globals,
    forall₂_onlyRead_scopes_trans h.scopes h'.scopes⟩

theorem Reads.adds (h : w.Reads v) (ns : List String) : Adds ns w v := by
  refine ⟨h.toReturns, ?_⟩
  have hscopes := h.scopes
  cases hw : w.scopes with
  | nil =>
    rw [hw, List.forall₂_nil_left_iff] at hscopes
    exact .globals hw hscopes (h.globals ▸ .of_forall₂ ns (List.forall₂_same.2 fun _ _ => rfl))
  | cons s ss =>
    rw [hw, List.forall₂_cons_left_iff] at hscopes
    obtain ⟨s', ss', hs, hss, hv⟩ := hscopes
    exact .innermost hw hv h.globals (.of_forall₂ ns (hs.imp fun _ _ hk => hk.kept)) hss

/-- More names may be added than are. -/
theorem Adds.mono (h : Adds ns w v) (hn : ∀ n ∈ ns, n ∈ ms) : Adds ms w v := by
  refine ⟨h.toReturns, ?_⟩
  cases h.grown with
  | globals hw hv hg => exact .globals hw hv (hg.mono (fun _ _ => id) hn)
  | innermost hw hv hg hs hss =>
    exact .innermost hw hv hg (hs.mono (fun _ _ hk => hk.mono hn) hn) hss

theorem Adds.trans (h : Adds ns u v) (h' : Adds ns v w) : Adds ns u w := by
  refine ⟨h.toReturns.trans h'.toReturns, ?_⟩
  cases h.grown with
  | globals hu hv hg =>
    cases h'.grown with
    | globals _ hw hg' =>
      exact .globals hu hw (hg.trans (fun _ _ he => he ▸ rfl) (fun _ _ _ => Eq.trans) hg')
    | innermost hv' => cases hv.symm.trans hv'
  | innermost hu hv hg hs hss =>
    cases h'.grown with
    | globals hv' => cases hv.symm.trans hv'
    | innermost hv' hw hg' hs' hss' =>
      obtain ⟨rfl, rfl⟩ := List.cons.inj (hv.symm.trans hv')
      exact .innermost hu hw (hg'.trans hg)
        (hs.trans (fun _ _ hk => hk.name) (fun _ _ _ => Kept.trans) hs')
        (forall₂_onlyRead_scopes_trans hss hss')

end Walk

end Scoping

end LoxLang
