import LoxLang.Proofs.Renaming.Basic
import LoxLang.Proofs.Scoping.Settled

/-!
# Walks over renamed trees

`Walk.Alike` relates the walk over a tree to the one over a renamed tree: the open scopes
have the same locals, under exchanged names where a scope has a mark, and the walks have
reported the same but for the one name. Each step of the walk keeps that, if the name that it
is about is renamed as the marks say and is not the new one.
-/

namespace LoxLang

open Scoping

namespace Bindings

variable {α : Type}

def rekey (g : String → String) (bs : Bindings α) : Bindings α := bs.map fun p => (g p.1, p.2)

section
variable {g : String → String} (hg : ∀ s t, g s = g t ↔ s = t)
include hg

theorem find?_rekey (bs : Bindings α) (name : String) :
    (bs.rekey g).find? (g name) = bs.find? name := by
  induction bs with
  | nil => rfl
  | cons p bs ih =>
    obtain ⟨n, a⟩ := p
    rw [rekey, List.map_cons, find?_cons, find?_cons]
    simp only [beq_iff_eq, hg]
    split
    · rfl
    · exact ih

theorem rekey_insert (name : String) (a : α) (bs : Bindings α) :
    (bs.insert name a).rekey g = (bs.rekey g).insert (g name) a := by
  induction bs with
  | nil => rfl
  | cons p bs ih =>
    obtain ⟨n, b⟩ := p
    simp only [insert, rekey, List.map_cons, beq_iff_eq, hg] at ih ⊢
    split
    · rfl
    · rw [List.map_cons, ih]

theorem rekey_change (name : String) (f : α → α) (bs : Bindings α) :
    (bs.change name f).rekey g = (bs.rekey g).change (g name) f := by
  induction bs with
  | nil => rfl
  | cons p bs ih =>
    obtain ⟨n, b⟩ := p
    simp only [change, rekey, List.map_cons, beq_iff_eq, hg] at ih ⊢
    split
    · rfl
    · rw [List.map_cons, ih]

end

theorem mem_insert {name : String} {a : α} {bs : Bindings α} {p : String × α}
    (h : p ∈ bs.insert name a) : p = (name, a) ∨ p ∈ bs := by
  induction bs with
  | nil => exact .inl (List.mem_singleton.1 h)
  | cons q bs ih =>
    obtain ⟨n, b⟩ := q
    rw [insert] at h
    split at h
    · rename_i hn
      obtain rfl := beq_iff_eq.1 hn
      exact (List.mem_cons.1 h).imp_right (List.mem_cons_of_mem _)
    · rcases List.mem_cons.1 h with rfl | h
      · exact .inr List.mem_cons_self
      · exact (ih h).imp_right (List.mem_cons_of_mem _)

theorem mem_change {name : String} {f : α → α} {bs : Bindings α} {p : String × α}
    (h : p ∈ bs.change name f) : p ∈ bs ∨ ∃ a, (name, a) ∈ bs ∧ p = (name, f a) := by
  induction bs with
  | nil => exact .inl h
  | cons q bs ih =>
    obtain ⟨n, b⟩ := q
    rw [change] at h
    split at h
    · rename_i hn
      obtain rfl := beq_iff_eq.1 hn
      rcases List.mem_cons.1 h with rfl | h
      · exact .inr ⟨b, List.mem_cons_self, rfl⟩
      · exact .inl (List.mem_cons_of_mem _ h)
    · rcases List.mem_cons.1 h with rfl | h
      · exact .inl List.mem_cons_self
      · obtain h | ⟨a, ha, rfl⟩ := ih h
        · exact .inl (List.mem_cons_of_mem _ h)
        · exact .inr ⟨a, List.mem_cons_of_mem _ ha, rfl⟩

theorem mem_of_has {name : String} {bs : Bindings α} (h : bs.has name) : ∃ a, (name, a) ∈ bs := by
  induction bs with
  | nil => cases h
  | cons p bs ih =>
    obtain ⟨n, b⟩ := p
    rw [has, find?_cons] at h
    split at h
    · rename_i hn
      obtain rfl := beq_iff_eq.1 hn
      exact ⟨b, List.mem_cons_self⟩
    · obtain ⟨a, ha⟩ := ih h
      exact ⟨a, List.mem_cons_of_mem _ ha⟩

end Bindings

/-! ## Scopes -/

/-- The name may be declared in a scope, with a mark or without, and becomes the other. -/
structure Name.Fits (n d : Name) (y : String) (b : Bool) (n' : Name) : Prop where
  fresh : n.text ≠ y
  name : n' = n.exchange d.text y b
  only : b → n.text = d.text → n = d

/-- The scopes have the same locals, under exchanged names if they have a mark. None has the
new name, and the old one is that of the declaration where there is a mark. -/
structure ScopeAlike (d : Name) (y : String) (b : Bool) (s s' : Bindings Local) : Prop where
  rekeyed : s' = s.rekey (exchange d.text y b)
  entries : ∀ p ∈ s, p.1 ≠ y ∧ (b → p.1 = d.text → p.2.place = d.place)

/-- The open scopes are alike, each by its mark; there are none around them. -/
inductive ScopesAlike (d : Name) (y : String) :
    Marks → List (Bindings Local) → List (Bindings Local) → Prop
  | nil : ScopesAlike d y .none [] []
  | cons {ρ : Marks} {s s' : Bindings Local} {ss ss' : List (Bindings Local)} (b : Bool)
      (h : ScopeAlike d y b s s') (hs : ScopesAlike d y ρ ss ss') :
    ScopesAlike d y (ρ.push b) (s :: ss) (s' :: ss')

section
variable {d : Name} {y : String} {b : Bool} {s s' : Bindings Local} (h : ScopeAlike d y b s s')
include h

/-- A name is looked up alike if it is exchanged as the scope says, should the scope have it. -/
theorem ScopeAlike.find? {n : String} {m : Bool} (hn : n ≠ y) (hm : s.has n → m = b) :
    s'.find? (exchange d.text y m n) = s.find? n := by
  have hkey (t : String) := s.find?_rekey (exchange_eq_iff d.text y b) (exchange d.text y b t)
  rw [h.rekeyed]
  by_cases hs : s.has n
  · rw [hm hs]
    exact s.find?_rekey (exchange_eq_iff d.text y b) n
  · have hy : ¬ s.has y := by
      intro hy
      obtain ⟨a, ha⟩ := Bindings.mem_of_has hy
      exact (h.entries _ ha).1 rfl
    have none {t : String} (ht : ¬ s.has t) : s.find? t = Option.none :=
      Option.not_isSome_iff_eq_none.1 ht
    rw [← exchange_exchange d.text y b (exchange d.text y m n),
      s.find?_rekey (exchange_eq_iff d.text y b), none hs]
    rw [exchange_eq_ite d.text y m hn]
    split
    · cases b with
      | false => exact none hy
      | true =>
        rw [show exchange d.text y true y = d.text from Equiv.swap_apply_right _ _]
        exact none (by simp_all)
    · rw [exchange_eq_ite d.text y b hn]
      split
      · exact none hy
      · exact none hs

theorem ScopeAlike.has {n : String} {m : Bool} (hn : n ≠ y) (hm : s.has n → m = b) :
    s'.has (exchange d.text y m n) = s.has n := by
  rw [Bindings.has, h.find? hn hm, Bindings.has]

/-- Scopes stay alike when a local is put in under its two names. -/
theorem ScopeAlike.insert {n : String} {l : Local} (hn : n ≠ y)
    (hl : b → n = d.text → l.place = d.place) :
    ScopeAlike d y b (s.insert n l) (s'.insert (exchange d.text y b n) l) where
  rekeyed := by rw [h.rekeyed, Bindings.rekey_insert (exchange_eq_iff d.text y b)]
  entries p hp := by
    obtain rfl | hp := Bindings.mem_insert hp
    · exact ⟨hn, hl⟩
    · exact h.entries p hp

theorem ScopeAlike.change (n : String) {f : Local → Local} (hf : ∀ l, (f l).place = l.place) :
    ScopeAlike d y b (s.change n f) (s'.change (exchange d.text y b n) f) where
  rekeyed := by rw [h.rekeyed, Bindings.rekey_change (exchange_eq_iff d.text y b)]
  entries p hp := by
    obtain hp | ⟨l, hl, rfl⟩ := Bindings.mem_change hp
    · exact h.entries p hp
    · rw [hf]
      exact h.entries _ hl

end

section
variable {d : Name} {y : String}

/-- A name has the same distance if it is exchanged as the scope at that distance says. -/
theorem ScopesAlike.distance? {ρ : Marks} {ss ss' : List (Bindings Local)}
    (h : ScopesAlike d y ρ ss ss') {n : String} {m : Bool} (hn : n ≠ y)
    (hm : ∀ k, Scoping.distance? ss n = some k → m = ρ k) :
    Scoping.distance? ss' (exchange d.text y m n) = Scoping.distance? ss n := by
  induction h with
  | nil => rfl
  | @cons ρ s s' ss ss' b hs _ ih =>
    simp only [Scoping.distance?, List.findIdx?_cons] at ih hm ⊢
    cases hn' : s.has n with
    | true =>
      obtain rfl : m = b := hm 0 (by rw [hn', if_pos rfl])
      rw [hs.has hn fun _ => rfl, hn', if_pos rfl, if_pos rfl]
    | false =>
      rw [hs.has hn (by simp [hn']), hn', ih fun k hk => hm (k + 1) (by simp [hn', hk])]

/-- Scopes stay alike when a local is changed under its two names. -/
theorem ScopesAlike.modify {ρ : Marks} {ss ss' : List (Bindings Local)}
    (h : ScopesAlike d y ρ ss ss') (k : Nat) (n : String) {f : Local → Local}
    (hf : ∀ l, (f l).place = l.place) :
    ScopesAlike d y ρ (ss.modify k (·.change n f))
      (ss'.modify k (·.change (exchange d.text y (ρ k) n) f)) := by
  induction h generalizing k with
  | nil =>
    cases k <;> exact .nil
  | cons b hs hss ih =>
    cases k with
    | zero => exact .cons b (hs.change n hf) hss
    | succ k => exact .cons b hs (ih k)

/-! ## Names that nothing reads -/

/-- The name is the same, or it is the declaration and has the new text. -/
def Name.Changed (d : Name) (y : String) (n n' : Name) : Prop :=
  n' = n ∨ n = d ∧ n' = { d with text := y }

theorem unreadNames_rekey (g : String → String) (s : Bindings Local) :
    unreadNames (s.rekey g) = (unreadNames s).map fun n => { n with text := g n.text } := by
  let renamed (n : Name) : Name := { n with text := g n.text }
  have sorted (l : List Name) : (l.mergeSort fun a b => a.place.le b.place).map renamed =
      (l.map renamed).mergeSort fun a b => a.place.le b.place :=
    List.map_mergeSort fun _ _ _ _ => rfl
  simp only [unreadNames, Bindings.rekey]
  rw [sorted, List.filter_map, List.map_map, List.map_map]
  rfl

theorem ScopeAlike.unread {b : Bool} {s s' : Bindings Local} (h : ScopeAlike d y b s s') :
    List.Forall₂ (Name.Changed d y) (unreadNames s) (unreadNames s') := by
  rw [h.rekeyed, unreadNames_rekey, List.forall₂_map_right_iff]
  refine List.forall₂_same.2 fun n hn => ?_
  obtain ⟨⟨x, l⟩, hp, rfl⟩ := List.mem_map.1 (List.mem_mergeSort.1 hn)
  obtain ⟨hy, hd⟩ := h.entries _ (List.mem_filter.1 hp).1
  dsimp only at hy hd ⊢
  rw [Name.Changed, exchange_eq_ite _ _ _ hy]
  by_cases hb : b ∧ x = d.text
  · obtain ⟨hb, rfl⟩ := hb
    rw [if_pos ⟨hb, rfl⟩, hd hb rfl]
    exact .inr ⟨rfl, rfl⟩
  · rw [if_neg hb]
    exact .inl rfl

/-! ## Walks -/

/-- A superclass of another name than the class is looked up without a report. -/
theorem inherit_of_ne {n : Name} {r : Reference} (hr : r.name.text ≠ n.text) (w : Walk) :
    w.inherit n r = w := by
  rw [Walk.inherit, if_neg (by simpa using hr)]

/-- The walks stand at the same point of a tree and of the tree renamed. -/
structure WalkAlike (d : Name) (y : String) (ρ : Marks) (w w' : Walk) : Prop where
  old : d.IsOrdinary
  new : y ≠ "this" ∧ y ≠ "super"
  scopes : ScopesAlike d y ρ w.scopes w'.scopes
  globals : w'.globals = w.globals
  allowRedefinition : w'.allowRedefinition = w.allowRedefinition
  function : w'.function = w.function
  classKind : w'.classKind = w.classKind
  problems : w'.problems = w.problems
  unread : List.Forall₂ (Name.Changed d y) w.unread.toList w'.unread.toList

theorem walkAlike_start (hd : d.IsOrdinary) (hy : y ≠ "this" ∧ y ≠ "super") (allow : Bool) :
    WalkAlike d y .none (Walk.start allow) (Walk.start allow) :=
  ⟨hd, hy, .nil, rfl, rfl, rfl, rfl, rfl, .nil⟩

namespace WalkAlike

variable {ρ : Marks} {w w' : Walk} (h : WalkAlike d y ρ w w')
include h

theorem report (place : Place) (problem : ScopeProblem) :
    WalkAlike d y ρ (report place problem w).2 (Scoping.report place problem w').2 :=
  { h with problems := by simp [Scoping.report, h.problems] }

theorem openScope (b : Bool) :
    WalkAlike d y (ρ.push b) (openScope w).2 (Scoping.openScope w').2 :=
  { h with scopes := .cons b ⟨rfl, fun _ hp => nomatch hp⟩ h.scopes }

theorem closeScope : WalkAlike d y (ρ.drop 1) (closeScope w).2 (Scoping.closeScope w').2 := by
  have hs := h.scopes
  simp only [Scoping.closeScope, modify_apply]
  generalize hw : w.scopes = ss at hs ⊢
  generalize hw' : w'.scopes = ss' at hs ⊢
  cases hs with
  | nil => exact { h with scopes := by rw [hw, hw']; exact .nil }
  | cons b hs hss =>
    exact { h with
      scopes := hss
      unread := by
        rw [Array.toList_append, Array.toList_append]
        exact List.rel_append h.unread hs.unread }

/-- A local is changed alike under its two names. -/
theorem changeLocal (n : String) {f : Local → Local} (hf : ∀ l, (f l).place = l.place) :
    WalkAlike d y ρ (changeLocal n f w).2
      (Scoping.changeLocal (exchange d.text y (ρ 0) n) f w').2 := by
  have hs := h.scopes
  simp only [Scoping.changeLocal, modify_apply]
  generalize hw : w.scopes = ss at hs ⊢
  generalize hw' : w'.scopes = ss' at hs ⊢
  cases hs with
  | nil => exact { h with scopes := by rw [hw, hw']; exact .nil }
  | cons b hs hss => exact { h with scopes := .cons b (hs.change n hf) hss }

theorem declareBuiltin {n : String} (place : Place) (hd : n ≠ d.text) (hy : n ≠ y) :
    WalkAlike d y ρ (declareBuiltin n place w).2 (Scoping.declareBuiltin n place w').2 := by
  have hs := h.scopes
  simp only [Scoping.declareBuiltin, modify_apply]
  generalize hw : w.scopes = ss at hs ⊢
  generalize hw' : w'.scopes = ss' at hs ⊢
  cases hs with
  | nil => exact { h with scopes := by rw [hw, hw']; exact .nil }
  | cons b hs hss =>
    have hins := hs.insert (l := ⟨place, true, true, false⟩) hy fun _ hn => absurd hn hd
    rw [exchange_of_ne _ _ _ hd hy] at hins
    exact { h with scopes := .cons b hins hss }

theorem declareGlobal (n : Name) :
    WalkAlike d y ρ (declareGlobal n w).2 (Scoping.declareGlobal n w').2 := by
  rw [declareGlobal_apply, declareGlobal_apply, h.allowRedefinition, h.globals]
  split
  · exact h
  · cases w.globals.find? n.text with
    | some first => exact h.report _ _
    | none => exact { h with globals := rfl, allowRedefinition := rfl }

theorem await {n n' : Name} (hn : n.Fits d y (ρ 0) n') : WalkAlike d y ρ (w.await n) (w'.await n') := by
  have hs := h.scopes
  unfold Walk.await
  generalize hw : w.scopes = ss at hs
  generalize hw' : w'.scopes = ss' at hs
  cases hs with
  | nil =>
    rw [hn.name, declare_nil hw, declare_nil hw']
    exact h.declareGlobal n
  | @cons ρ s s' ss ss' b hs hss =>
    have ht : n'.text = exchange d.text y b n.text := by rw [hn.name]; rfl
    have hp : n'.place = n.place := by rw [hn.name]; rfl
    simp only [declare, bind_apply, get_apply, hw, hw', ht, hp, hs.has hn.fresh fun _ => rfl]
    split
    · exact h.report _ _
    · have hins := hs.insert (l := ⟨n.place, false, false, true⟩) hn.fresh
        fun hb he => congrArg Name.place (hn.only hb he)
      exact { h with scopes := .cons b hins hss }

theorem bind {n n' : Name} (hn : n.Fits d y (ρ 0) n') : WalkAlike d y ρ (w.bind n) (w'.bind n') := by
  rw [hn.name]
  exact h.changeLocal n.text fun _ => rfl

theorem declareParam {n n' : Name} (hn : n.Fits d y (ρ 0) n') :
    WalkAlike d y ρ (declareParam n w).2 (Scoping.declareParam n' w').2 := by
  have hb := (h.await hn).bind hn
  rw [hn.name] at hb ⊢
  exact hb.changeLocal n.text fun _ => rfl

/-- A use is walked through alike under its two names. -/
theorem use {n : String} {m : Bool} (hn : n ≠ y) (reads : Bool)
    (hm : ∀ k, distance? w.scopes n = some k → m = ρ k) :
    WalkAlike d y ρ (use n reads w).2 (Scoping.use (exchange d.text y m n) reads w').2 := by
  simp only [Scoping.use, bind_apply, get_apply, h.scopes.distance? hn hm]
  cases hk : distance? w.scopes n with
  | none => exact h
  | some k =>
    cases reads with
    | false => exact h
    | true =>
      rw [hm k hk]
      exact { h with scopes := h.scopes.modify k n fun _ => rfl }

/-- A name awaits its value on one side just if its other name does on the other. -/
theorem awaitsValue {n : String} {m : Bool} (hn : n ≠ y)
    (hm : ∀ k, distance? w.scopes n = some k → m = ρ k) :
    (awaitsValue (exchange d.text y m n) w').1 = (Scoping.awaitsValue n w).1 := by
  have hs := h.scopes
  simp only [Scoping.awaitsValue, bind_apply, get_apply]
  generalize w.scopes = ss at hs hm ⊢
  generalize w'.scopes = ss' at hs ⊢
  cases hs with
  | nil => rfl
  | cons b hs hss =>
    simp only [pure_apply]
    rw [hs.find? hn fun hh => hm 0 (by rw [distance?, List.findIdx?_cons, hh, if_pos rfl])]

theorem lookUp {n : Name} {m : Bool} (hn : n.text ≠ y)
    (hm : ∀ k, distance? w.scopes n.text = some k → m = ρ k) :
    WalkAlike d y ρ (w.lookUp n) (w'.lookUp (n.exchange d.text y m)) := by
  unfold Walk.lookUp
  rw [Name.exchange, h.awaitsValue hn hm]
  split
  · exact h.report _ _
  · exact h

/-- A use that is renamed as its depth says has that depth again. -/
theorem reference {r r' : Reference} (hr : r.Renamed (.swap d.text y) ρ r') (hn : r.name.text ≠ y)
    (hd : r.depth = distance? w.scopes r.name.text) :
    (r'.resolve w').1 = r' ∧ WalkAlike d y ρ (r.resolve w).2 (r'.resolve w').2 := by
  have hm := ρ.elim_of_eq hd
  have hl := h.lookUp hn hm
  rw [← hr.name] at hl
  rw [Reference.resolve_apply, Reference.resolve_apply]
  refine ⟨?_, ?_⟩
  · dsimp only
    rw [hr.text, h.scopes.distance? hn hm, ← hd, ← hr.depth]
  · rw [hr.text]
    exact hl.use hn true fun k hk => hm k (by rw [← Walk.scopes_lookUp w r.name, hk])

/-! ## Functions and classes -/

/-- Parameters are declared alike under their two names. -/
theorem params {ps ps' : List Name} (hp : List.Forall₂ (Name.Fits · d y (ρ 0) ·) ps ps') :
    WalkAlike d y ρ (ps.forM Scoping.declareParam w).2 (ps'.forM Scoping.declareParam w').2 := by
  induction hp generalizing w w' with
  | nil => exact h
  | cons hn _ ih => exact ih (h.declareParam hn)

/-- The walk into a body is alike under the two names of its parameters. -/
theorem body (kind : FunctionKind) {b : Bool} {ps ps' : List Name}
    (hp : List.Forall₂ (Name.Fits · d y b ·) ps ps') :
    WalkAlike d y (ρ.push b) (w.body kind ps) (w'.body kind ps') := by
  have hk : WalkAlike d y ρ { w with function := kind } { w' with function := kind } :=
    { h with function := rfl }
  exact (hk.openScope b).params hp

theorem leave {b : Bool} {v v' : Walk} (hv : WalkAlike d y (ρ.push b) v v') :
    WalkAlike d y ρ (w.leave v) (w'.leave v') :=
  { hv.closeScope with function := h.function }

theorem exit {b : Bool} {v v' : Walk} (hv : WalkAlike d y (ρ.push b) v v') :
    WalkAlike d y ρ (w.exit v) (w'.exit v') :=
  { hv.closeScope with classKind := h.classKind }

theorem enter (kind : ClassKind) {n : Name} (hn : n.Fits d y (ρ 0) n) :
    WalkAlike d y ρ (w.enter kind n) (w'.enter kind n) := by
  have hk : WalkAlike d y ρ { w with classKind := kind } { w' with classKind := kind } :=
    { h with classKind := rfl }
  exact (hk.await hn).bind hn

theorem this (place : Place) : WalkAlike d y (ρ.push false) (w.this place) (w'.this place) :=
  (h.openScope false).declareBuiltin place h.old.1.symm h.new.1.symm

theorem super (place : Place) : WalkAlike d y (ρ.push false) (w.super place) (w'.super place) :=
  (h.openScope false).declareBuiltin place h.old.2.symm h.new.2.symm

/-- A class of another name than its superclass is entered alike. -/
theorem derive {n : Name} {r r' : Reference} (hn : n.Fits d y (ρ 0) n)
    (hr : r.Renamed (.swap d.text y) ρ r') (hy : r.name.text ≠ y) (hne : r.name.text ≠ n.text)
    (hd : r.depth = distance? (w.enter .derived n).scopes r.name.text) :
    WalkAlike d y ((ρ.push false).push false) (w.derive n r) (w'.derive n r') := by
  unfold Walk.derive
  rw [inherit_of_ne hne, inherit_of_ne (hr.text_ne hy hn.fresh hne)]
  exact (((h.enter .derived hn).reference hr hy hd).2.super n.place).this n.place

/-- The names of the language have the distances that they had. -/
theorem useBuiltin {n : String} (hn : n = "this" ∨ n = "super") :
    distance? w'.scopes n = distance? w.scopes n ∧
      WalkAlike d y ρ (Scoping.use n true w).2 (Scoping.use n true w').2 := by
  have hnd : n ≠ d.text := by
    rcases hn with rfl | rfl
    exacts [h.old.1.symm, h.old.2.symm]
  have hny : n ≠ y := by
    rcases hn with rfl | rfl
    exacts [h.new.1.symm, h.new.2.symm]
  have hm := ρ.elim_of_eq (Eq.refl (distance? w.scopes n))
  have hs := h.scopes.distance? hny hm
  have hu := h.use hny true hm
  rw [exchange_of_ne _ _ _ hnd hny] at hs hu
  exact ⟨hs, hu⟩

theorem returning (place : Place) : WalkAlike d y ρ (w.returning place) (w'.returning place) := by
  unfold Walk.returning
  rw [h.function]
  split
  · exact h.report _ _
  · exact h

theorem returningValue (place : Place) :
    WalkAlike d y ρ (w.returningValue place) (w'.returningValue place) := by
  have hr := h.returning place
  unfold Walk.returningValue
  rw [hr.function]
  split
  · exact hr.report _ _
  · exact hr

end WalkAlike

end

end LoxLang
