import LoxLang.Proofs.Machine.Mirror
import LoxLang.Proofs.Machine.Store

/-!
# How states change

The changes of state that a watched run is made of: running in another scope, binding a
name, opening a scope, making a function, changing an object, coming to a point. Each
extends the state, and keeps it good if what it adds is.
-/

namespace LoxLang

open Scoping

namespace Watched

def running (t : Watched) (scope : ScopeId) : Watched :=
  { t with machine := { t.machine with current := scope } }

def insert (t : Watched) (id : ScopeId) (x : String) (v : Value) : Watched :=
  { t with machine := { t.machine with scopes := t.machine.scopes.insert id x v } }

def opening (t : Watched) (parent : ScopeId) (opener : Option Opener) : Watched :=
  { machine := { t.machine with scopes := (t.machine.scopes.child parent).1 }
    record := { t.record with
      origins := fun id => if id = t.machine.scopes.size then opener else t.record.origins id } }

def making (t : Watched) (maker : Maker) : Watched :=
  { machine := { t.machine with fresh := t.machine.fresh + 1 }
    record := { t.record with
      makers := fun i => if i = t.machine.fresh then maker else t.record.makers i } }

def withObjects (t : Watched) (objects : Array (Bindings Value)) : Watched :=
  { t with machine := { t.machine with objects } }

/-- The state at a visit. -/
def visiting (t : Watched) (σ : Site) (node : Node) : Watched :=
  { t with record := { t.record with
      visits := ⟨σ, node, t.machine, t.record.origins⟩ :: t.record.visits } }

/-! ## What scopes bind -/

variable (t : Watched)

theorem own?_insert (id : ScopeId) (x : String) (v : Value) (id' : ScopeId) (y : String) :
    (t.insert id x v).own? id' y =
      if id' = id ∧ y = x ∧ id < t.machine.scopes.size then some v else t.own? id' y :=
  t.machine.scopes.own?_insert id x v id' y

theorem parent?_insert (id : ScopeId) (x : String) (v : Value) (id' : ScopeId) :
    (t.insert id x v).parent? id' = t.parent? id' := t.machine.scopes.parent_insert id x v id'

theorem own?_opening (parent : ScopeId) (o : Option Opener) (id : ScopeId) (x : String) :
    (t.opening parent o).own? id x = t.own? id x := t.machine.scopes.own?_child parent id x

theorem parent?_opening (parent : ScopeId) (o : Option Opener) (id : ScopeId) :
    (t.opening parent o).parent? id =
      if id = t.machine.scopes.size then some parent else t.parent? id :=
  t.machine.scopes.parent_child parent id

theorem own?_size (x : String) : t.own? t.machine.scopes.size x = none :=
  t.machine.scopes.own?_size x

/-! ## What objects hold -/

variable {t} {i : Nat} {x : String} {w : Value}

/-- The fields of a new object are none. -/
theorem field_push
    (h : ((t.withObjects (t.machine.objects.push [])).machine.fieldsOf i).find? x = some w) :
    (t.machine.fieldsOf i).find? x = some w := by
  simp only [Machine.fieldsOf, withObjects, Array.getElem?_push] at h
  split at h
  · cases h
  · exact h

/-- A field that is set holds its value, and the others what they held. -/
theorem field_modify {object : Nat} {name : String} {v : Value}
    (h : ((t.withObjects (t.machine.objects.modify object
      (·.insert name v))).machine.fieldsOf i).find? x = some w) :
    (t.machine.fieldsOf i).find? x = some w ∨ w = v := by
  simp only [Machine.fieldsOf, withObjects, Array.getElem?_modify] at h
  split at h
  · rename_i hi
    subst hi
    cases ho : t.machine.objects[object]? with
    | none =>
      rw [ho] at h
      cases h
    | some fs =>
      rw [ho] at h
      simp only [Option.map_some, Option.getD_some, Bindings.find?_insert] at h
      split at h
      · cases h
        exact .inr rfl
      · exact .inl (by rw [Machine.fieldsOf, ho]; exact h)
  · exact .inl h

end Watched

variable {t t' : Watched}

/-! ## Extensions -/

/-- A change of nothing that scopes and functions are made of. -/
theorem Extends.of_eq (hs : t'.machine.scopes = t.machine.scopes)
    (hg : t'.machine.globals = t.machine.globals) (hf : t.machine.fresh ≤ t'.machine.fresh)
    (ho : t'.record.origins = t.record.origins) (hm : t'.record.makers = t.record.makers) :
    Extends t t' where
  globals := hg
  fresh := hf
  size := Nat.le_of_eq (congrArg Array.size hs).symm
  parents id p hp := by rw [Watched.parent?, hs]; exact hp
  kept id x _ hx := by rw [Watched.own?, hs]; exact hx
  fixed id x v _ _ hx := by rw [Watched.own?, hs]; exact hx
  origins _ _ := by rw [ho]
  makers _ _ := by rw [hm]

theorem extends_running (t : Watched) (scope : ScopeId) : Extends t (t.running scope) :=
  .of_eq rfl rfl (Nat.le_refl _) rfl rfl

theorem grows_insert {id : ScopeId} {x : String} {v : Value}
    (h : id = t.machine.globals ∨ (x ≠ "this" ∧ x ≠ "super") ∨ t.own? id x = none) :
    Grows t (t.insert id x v) where
  globals := rfl
  fresh := Nat.le_refl _
  size := by simp [Watched.insert, Scopes.insert]
  parents id' p hp := by rw [t.parent?_insert, hp]
  kept id' y _ hy := by
    rw [t.own?_insert]
    split
    · rfl
    · exact hy
  fixed id' y w hi hn hy := by
    rw [t.own?_insert, if_neg, hy]
    rintro ⟨rfl, rfl, -⟩
    rcases h with h | h | h
    · exact hi h
    · exact hn.elim h.1 h.2
    · rw [h] at hy
      cases hy
  origins _ _ := rfl
  makers _ _ := rfl
  current := rfl

theorem grows_opening (t : Watched) (parent : ScopeId) (o : Option Opener) :
    Grows t (t.opening parent o) where
  globals := rfl
  fresh := Nat.le_refl _
  size := by simp [Watched.opening, Scopes.child]
  parents id p hp := by
    rw [t.parent?_opening, if_neg (Nat.ne_of_lt (t.lt_of_parent hp)), hp]
  kept id x _ hx := by rw [t.own?_opening]; exact hx
  fixed id x v _ _ hx := by rw [t.own?_opening]; exact hx
  origins id hi := if_neg (Nat.ne_of_lt hi)
  makers _ _ := rfl
  current := rfl

theorem grows_making (t : Watched) (maker : Maker) : Grows t (t.making maker) where
  globals := rfl
  fresh := Nat.le_succ _
  size := Nat.le_refl _
  parents _ _ hp := hp
  kept _ _ _ hx := hx
  fixed _ _ _ _ _ hx := hx
  origins _ _ := rfl
  makers _ hi := if_neg (Nat.ne_of_lt hi)
  current := rfl

theorem grows_withObjects (t : Watched) (objects : Array (Bindings Value)) :
    Grows t (t.withObjects objects) := ⟨.of_eq rfl rfl (Nat.le_refl _) rfl rfl, rfl⟩

theorem grows_visiting (t : Watched) (σ : Site) (node : Node) : Grows t (t.visiting σ node) :=
  ⟨.of_eq rfl rfl (Nat.le_refl _) rfl rfl, rfl⟩

/-! ## Good states -/

/-- A state is good if it extends a good one and what it adds is good. -/
theorem Good.extend (hg : Good t) (he : Extends t t')
    (hroot : t'.parent? t.machine.globals = none)
    (hs : ∀ id x v, t'.own? id x = some v → t.own? id x = some v ∨ GoodValue t' v)
    (ho : ∀ i x v, (t'.machine.fieldsOf i).find? x = some v →
      (t.machine.fieldsOf i).find? x = some v ∨ GoodValue t' v)
    (hd : ∀ id o x, t'.record.origins id = some o → (t'.own? id x).isSome → o.construct.Declares x)
    (hv : ∀ v ∈ t'.record.visits, v ∈ t.record.visits ∨ v.Mirrored) : Good t' where
  globals := by rw [he.globals]; exact Nat.lt_of_lt_of_le hg.globals he.size
  root := by rw [he.globals]; exact hroot
  rootOrigin := by rw [he.globals, he.origins _ hg.globals, hg.rootOrigin]
  scopes id x v h := (hs id x v h).elim (fun h => (hg.scopes id x v h).grow he) fun h => h
  objects i x v h := (ho i x v h).elim (fun h => (hg.objects i x v h).grow he) id
  declared := hd
  visits v h := (hv v h).elim (hg.visits v) id

/-- A change of what neither scopes, functions nor objects are made of. -/
theorem Good.quiet (hg : Good t) {m : Machine} (hs : m.scopes = t.machine.scopes)
    (hglobals : m.globals = t.machine.globals) (hcur : m.current = t.machine.current)
    (ho : m.objects = t.machine.objects) (hf : t.machine.fresh ≤ m.fresh) :
    Grows t { t with machine := m } ∧ Good { t with machine := m } := by
  have he : Extends t { t with machine := m } := .of_eq hs hglobals hf rfl rfl
  have hown (id : ScopeId) (x : String) :
      ({ t with machine := m } : Watched).own? id x = t.own? id x := by
    rw [Watched.own?, hs]
    rfl
  refine ⟨⟨he, hcur⟩, hg.extend he ?_ ?_ ?_ ?_ fun _ h => .inl h⟩
  · rw [Watched.parent?, hs]
    exact hg.root
  · intro id x v h
    rw [hown] at h
    exact .inl h
  · intro i x v h
    rw [Machine.fieldsOf, ho] at h
    exact .inl h
  · intro id o x h hx
    rw [hown] at hx
    exact hg.declared id o x h hx

theorem Good.running (hg : Good t) (scope : ScopeId) : Good (t.running scope) :=
  hg.extend (extends_running t scope) hg.root (fun _ _ _ h => .inl h) (fun _ _ _ h => .inl h)
    hg.declared fun _ h => .inl h

theorem Good.insert (hg : Good t) {id : ScopeId} {x : String} {v : Value}
    (hx : id = t.machine.globals ∨ (x ≠ "this" ∧ x ≠ "super") ∨ t.own? id x = none)
    (hv : GoodValue (t.insert id x v) v)
    (hd : ∀ o, t.record.origins id = some o → o.construct.Declares x) :
    Good (t.insert id x v) := by
  refine hg.extend (grows_insert hx).toExtends ?_ ?_ (fun _ _ _ h => .inl h) ?_ fun _ h => .inl h
  · rw [t.parent?_insert, hg.root]
  · intro id' y w hw
    rw [t.own?_insert] at hw
    split at hw
    · cases hw
      exact .inr hv
    · exact .inl hw
  · intro id' o y ho hy
    rw [t.own?_insert] at hy
    split at hy
    · rename_i h
      obtain ⟨rfl, rfl, -⟩ := h
      exact hd o ho
    · exact hg.declared id' o y ho hy

theorem Good.opening (hg : Good t) (parent : ScopeId) (o : Option Opener) :
    Good (t.opening parent o) := by
  refine hg.extend (grows_opening t parent o).toExtends ?_ ?_ (fun _ _ _ h => .inl h) ?_
    fun _ h => .inl h
  · rw [t.parent?_opening, if_neg (Nat.ne_of_lt hg.globals), hg.root]
  · intro id x v h
    rw [t.own?_opening] at h
    exact .inl h
  · intro id p x hp hx
    rw [t.own?_opening] at hx
    by_cases hi : id = t.machine.scopes.size
    · rw [hi, t.own?_size] at hx
      cases hx
    · exact hg.declared id p x ((if_neg hi).symm.trans hp) hx

theorem Good.making (hg : Good t) (maker : Maker) : Good (t.making maker) :=
  hg.extend (grows_making t maker).toExtends hg.root (fun _ _ _ h => .inl h)
    (fun _ _ _ h => .inl h) hg.declared fun _ h => .inl h

theorem Good.visiting (hg : Good t) {σ : Site} {node : Node}
    (h : Visit.Mirrored ⟨σ, node, t.machine, t.record.origins⟩) : Good (t.visiting σ node) := by
  refine hg.extend (grows_visiting t σ node).toExtends hg.root (fun _ _ _ h => .inl h)
    (fun _ _ _ h => .inl h) hg.declared fun v hv => ?_
  rcases List.mem_cons.1 hv with rfl | hv
  · exact .inr h
  · exact .inl hv

/-- The state with one more object, which has no fields. -/
theorem Good.newObject (hg : Good t) : Good (t.withObjects (t.machine.objects.push [])) :=
  hg.extend (grows_withObjects t _).toExtends hg.root (fun _ _ _ h => .inl h)
    (fun _ _ _ h => .inl (Watched.field_push h)) hg.declared fun _ h => .inl h

/-- The state with a field of an object set. -/
theorem Good.setField (hg : Good t) (object : Nat) (name : String) {v : Value}
    (hv : GoodValue t v) :
    Good (t.withObjects (t.machine.objects.modify object (·.insert name v))) := by
  have he := (grows_withObjects t (t.machine.objects.modify object (·.insert name v))).toExtends
  refine hg.extend he hg.root (fun _ _ _ h => .inl h) ?_ hg.declared fun _ h => .inl h
  intro i x w h
  rcases Watched.field_modify h with h | rfl
  · exact .inl h
  · exact .inr (hv.grow he)

/-! ## New mirrors -/

theorem Made.making {f : Closure} {maker : Maker} (hf : f.identity = t.machine.fresh)
    (hh : Housed maker.site.walk)
    (ha : Awaited maker.site.initializers maker.site.walk.outline maker.site.openers.length)
    (hp : ∀ p ∈ f.params, p.IsOrdinary)
    (hb : Stmt.AllSettled f.body (maker.site.walk.body maker.kind f.params)) :
    Made (t.making maker) f maker.site.walk.outline maker.site.openers := by
  have hm : (t.making maker).record.makers f.identity = maker := if_pos hf
  refine ⟨by rw [hf]; exact Nat.lt_succ_self _, ?_, ?_, ?_, ?_, hp, ?_⟩
  · rw [hm]
  · rw [hm]
  · rw [hm]
    exact hh
  · rw [hm]
    exact ha
  · rw [hm]
    exact hb

/-- A scope that was just opened is an activation of its opener. -/
theorem origin_opening (t : Watched) (parent : ScopeId) (o : Option Opener) :
    (t.opening parent o).record.origins t.machine.scopes.size = o := if_pos rfl

theorem parent_opening (t : Watched) (parent : ScopeId) (o : Option Opener) :
    (t.opening parent o).parent? t.machine.scopes.size = some parent := by
  rw [t.parent?_opening, if_pos rfl]

/-- The scope of a block, which binds nothing yet. -/
theorem Mirrors.block {parent : ScopeId} {ss : List (Bindings Bool)} {os : List Opener}
    (hg : Good t) (hm : Mirrors t parent ss os) (o : Opener) :
    Mirrors (t.opening parent (some o)) t.machine.scopes.size ([] :: ss) (o :: os) := by
  refine ⟨⟨Nat.ne_of_gt hg.globals, origin_opening t parent _, ?_, ?_, ?_⟩, parent,
    parent_opening t parent _, hm.grow (grows_opening t parent _).toExtends⟩
  · intro x hx
    cases hx
  · intro h
    cases h
  · intro h
    cases h

/-- The scope of `this` or of `super`, which binds just that. -/
theorem Mirrors.single {parent : ScopeId} {s : Bindings Bool} {ss : List (Bindings Bool)}
    {os : List Opener} (hg : Good t) (hm : Mirrors t parent ss os) (o : Opener) {x : String}
    {v : Value} (hs : ∀ y, s.has y → y = x) (ho : x = "this" → ∃ i c, v = .object i c)
    (hc : x = "super" → ∃ c, v = .classValue c) :
    Mirrors ((t.opening parent (some o)).insert t.machine.scopes.size x v) t.machine.scopes.size
      (s :: ss) (o :: os) := by
  have hnone : (t.opening parent (some o)).own? t.machine.scopes.size x = none := by
    rw [t.own?_opening, t.own?_size]
  have he := (grows_opening t parent (some o)).trans (grows_insert (v := v) (.inr (.inr hnone)))
  have hlt := Watched.lt_of_parent (parent_opening t parent (some o))
  have hx : ((t.opening parent (some o)).insert t.machine.scopes.size x v).own?
      t.machine.scopes.size x = some v := by
    rw [Watched.own?_insert, if_pos ⟨rfl, rfl, hlt⟩]
  refine ⟨⟨Nat.ne_of_gt hg.globals, origin_opening t parent _, ?_, ?_, ?_⟩, parent, ?_,
    hm.grow he.toExtends⟩
  · intro y hy
    rw [hs y (Bindings.has_of_find hy), hx]
    rfl
  · intro hy
    obtain ⟨i, c, rfl⟩ := ho (hs _ hy).symm
    exact ⟨i, c, by rw [← hx, hs _ hy]⟩
  · intro hy
    obtain ⟨c, rfl⟩ := hc (hs _ hy).symm
    exact ⟨c, by rw [← hx, hs _ hy]⟩
  · rw [Watched.parent?_insert, parent_opening]

end LoxLang
