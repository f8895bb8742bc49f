import LoxLang.Proofs.Lexical.Context
import LoxLang.Proofs.Scoping.Walk

/-!
# The scopes of a walk

What a walk knows of its open scopes is what their frames say, and which names have been read so
far: of each name that is declared in a scope, the first declaration (`Lexical.scopes`). Each step
of the walk on its scopes is a step from frames to frames.
-/

namespace LoxLang

open Scoping

/-! ## Bindings -/

namespace Bindings

variable {α : Type}

theorem change_insert (name : String) (a : α) (f : α → α) (bs : Bindings α) :
    (bs.insert name a).change name f = bs.insert name (f a) := by
  induction bs with
  | nil => simp [insert, change]
  | cons p bs ih =>
    obtain ⟨n, b⟩ := p
    by_cases hn : name = n
    · simp [insert, change, hn]
    · simp [insert, change, hn, ih]

/-- Where each name is bound once, a change is a change of all values of the name. -/
theorem change_eq_map {bs : Bindings α} (h : bs.names.Nodup) (name : String) (f : α → α) :
    bs.change name f = bs.map fun p => (p.1, if p.1 = name then f p.2 else p.2) := by
  induction bs with
  | nil => rfl
  | cons p bs ih =>
    obtain ⟨n, b⟩ := p
    obtain ⟨hn, hbs⟩ := List.nodup_cons.1 h
    by_cases he : name = n
    · subst he
      have hrest : bs.map (fun p => (p.1, if p.1 = name then f p.2 else p.2)) = bs := by
        refine (List.map_congr_left fun p hp => ?_).trans (List.map_id bs)
        have hne : p.1 ≠ name := fun he => hn (List.mem_map.2 ⟨p, hp, he⟩)
        simp [hne]
      simp [change, hrest]
    · simp [change, he, Ne.symm he, ih hbs]

end Bindings

namespace Lexical

/-! ## First declarations -/

theorem mem_of_mem_firsts {d : Declaration} {ds : List Declaration} (h : d ∈ firsts ds) :
    d ∈ ds := by
  induction ds with
  | nil => cases h
  | cons e ds ih =>
    rcases List.mem_cons.1 h with rfl | h
    · exact List.mem_cons_self
    · exact List.mem_cons_of_mem _ (ih (List.mem_filter.1 h).1)

theorem sublist_firsts (ds : List Declaration) : (firsts ds).Sublist ds := by
  induction ds with
  | nil => exact .slnil
  | cons d ds ih => exact (List.filter_sublist.trans ih).cons_cons d

theorem nodup_firsts (ds : List Declaration) : ((firsts ds).map (·.name.text)).Nodup := by
  induction ds with
  | nil => exact .nil
  | cons d ds ih =>
    rw [firsts, List.map_cons, List.nodup_cons]
    refine ⟨fun h => ?_, (List.filter_sublist.map _).nodup ih⟩
    obtain ⟨e, he, htext⟩ := List.mem_map.1 h
    have hne := (List.mem_filter.1 he).2
    simp [htext] at hne

theorem firsts_append (ds : List Declaration) (d : Declaration) :
    firsts (ds ++ [d]) =
      if ds.any (·.name.text == d.name.text) then firsts ds else firsts ds ++ [d] := by
  induction ds with
  | nil => rfl
  | cons e ds ih =>
    rw [List.cons_append, firsts, ih, firsts, List.any_cons]
    by_cases hds : ds.any (·.name.text == d.name.text)
    · simp [hds]
    · by_cases he : e.name.text = d.name.text
      · simp [hds, he]
      · simp [hds, he, Ne.symm he]

section
variable {β : Type} (g : Declaration → β)

/-- A value for each name, got from its first declaration. -/
def bound (ds : List Declaration) : Bindings β := (firsts ds).map fun d => (d.name.text, g d)

theorem find?_filter_ne {x y : String} (h : x ≠ y) (ds : List Declaration) :
    Bindings.find? ((ds.filter (·.name.text != y)).map fun d => (d.name.text, g d)) x =
      Bindings.find? (ds.map fun d => (d.name.text, g d)) x := by
  induction ds with
  | nil => rfl
  | cons d ds ih =>
    by_cases hd : d.name.text = y
    · simp [hd, Bindings.find?_cons, h, ih]
    · simp [hd, Bindings.find?_cons, ih]

theorem find?_bound (ds : List Declaration) (x : String) :
    (bound g ds).find? x = (ds.find? (·.name.text == x)).map g := by
  induction ds with
  | nil => rfl
  | cons d ds ih =>
    rw [bound, firsts, List.map_cons, Bindings.find?_cons, List.find?_cons]
    by_cases hd : x = d.name.text
    · simp [hd]
    · have hne : (d.name.text == x) = false := beq_eq_false_iff_ne.2 (Ne.symm hd)
      rw [find?_filter_ne g hd (firsts ds), ← bound, ih, hne]
      simp [hd]

theorem has_bound (ds : List Declaration) (x : String) :
    (bound g ds).has x = ds.any (·.name.text == x) := by
  rw [Bindings.has, find?_bound, Option.isSome_map]
  induction ds with
  | nil => rfl
  | cons d ds ih =>
    rw [List.find?_cons, List.any_cons, ← ih]
    cases d.name.text == x <;> rfl

theorem bound_congr {g g' : Declaration → β} {ds : List Declaration}
    (h : ∀ d ∈ ds, g d = g' d) : bound g ds = bound g' ds := by
  refine List.map_congr_left fun d hd => ?_
  rw [h d (mem_of_mem_firsts hd)]

/-- A second declaration of a name changes nothing. -/
theorem bound_again {ds : List Declaration} {d : Declaration}
    (h : ds.any (·.name.text == d.name.text) = true) : bound g (ds ++ [d]) = bound g ds := by
  rw [bound, firsts_append, if_pos h, bound]

/-- A first one binds the name. -/
theorem insert_bound {ds : List Declaration} {d : Declaration}
    (h : ds.any (·.name.text == d.name.text) = false) :
    (bound g ds).insert d.name.text (g d) = bound g (ds ++ [d]) := by
  rw [Bindings.insert_of_not_has _ ((has_bound g ds _).trans h), bound, bound, firsts_append, h]
  simp

theorem change_bound (ds : List Declaration) (x : String) (f : β → β) :
    (bound g ds).change x f = bound (fun d => if d.name.text = x then f (g d) else g d) ds := by
  have hnames : (bound g ds).names.Nodup := by
    rw [bound, Bindings.names, List.map_map]
    exact nodup_firsts ds
  rw [Bindings.change_eq_map hnames, bound, bound, List.map_map]
  rfl

end

/-! ## Frames -/

/-- What a walk knows of a name, by its first declaration. The name is read if the language binds
it or if it has been seen to be read from this scope. -/
def entry (seen : List (Nat × String)) (level : Nat) (awaiting : Option String) (d : Declaration) :
    Local where
  place := d.name.place
  defined := decide (awaiting ≠ some d.name.text)
  read := decide (d.declarer = .language ∨ (level, d.name.text) ∈ seen)
  tracked := d.isTracked

/-- What a walk knows of the names in a scope. -/
def Frame.bindings (seen : List (Nat × String)) (level : Nat) (f : Frame) : Bindings Local :=
  bound (entry seen level f.awaiting) f.declared

/-- What a walk knows of its open scopes. -/
def scopes (seen : List (Nat × String)) : List Frame → List (Bindings Local)
  | [] => []
  | f :: fs => f.bindings seen fs.length :: scopes seen fs

/-- Nothing has been seen to be read from a scope that it is not declared in. -/
def Known (seen : List (Nat × String)) : List Frame → Prop
  | [] => True
  | f :: fs => (∀ x, (fs.length, x) ∈ seen → f.has x = true) ∧ Known seen fs

@[simp] theorem Frame.has_bindings (f : Frame) (seen : List (Nat × String)) (level : Nat)
    (x : String) : (f.bindings seen level).has x = f.has x := has_bound ..

@[simp] theorem Frame.has_declare (f : Frame) (d : Declaration) (x : String) :
    (f.declare d).has x = (f.has x || d.name.text == x) := by
  simp [Frame.declare, Frame.of, Frame.has, List.any_append]

@[simp] theorem Frame.has_await (f : Frame) (d : Declaration) (x : String) :
    (f.await d).has x = (f.has x || d.name.text == x) := by
  simp [Frame.await, Frame.has, List.any_append]

@[simp] theorem Frame.has_builtin (x y : String) (place : Place) :
    (Frame.builtin x place).has y = (x == y) := by
  simp [Frame.builtin, Frame.of, Frame.has]

theorem Frame.not_awaiting {f : Frame} {x : String} (h : f.has x = false) :
    f.awaiting ≠ some x := by
  intro he
  have hany := f.awaiting_declared x he
  rw [← Frame.has, h] at hany
  cases hany

section
variable {seen seen' : List (Nat × String)} {fs : List Frame}

theorem distance?_scopes (seen : List (Nat × String)) (fs : List Frame) (x : String) :
    Scoping.distance? (scopes seen fs) x = fs.findIdx? (·.has x) := by
  unfold Scoping.distance?
  induction fs with
  | nil => rfl
  | cons f fs ih => rw [scopes, List.findIdx?_cons, List.findIdx?_cons, ih, Frame.has_bindings]

theorem Frame.bindings_congr {level : Nat} (f : Frame)
    (h : ∀ x, (level, x) ∈ seen ↔ (level, x) ∈ seen') :
    f.bindings seen level = f.bindings seen' level := by
  refine bound_congr fun d _ => ?_
  simp only [entry, h]

/-- The name that awaits its value is the one that is not defined yet. -/
theorem Frame.awaits_bindings (f : Frame) (level : Nat) (x : String) :
    ((f.bindings seen level).find? x).any (!·.defined) = decide (f.awaiting = some x) := by
  rw [Frame.bindings, find?_bound]
  cases hd : f.declared.find? (·.name.text == x) with
  | none =>
    have hhas : f.has x = false := by
      rw [Frame.has, List.any_eq_false]
      exact List.find?_eq_none.1 hd
    simp [Frame.not_awaiting hhas]
  | some d =>
    have htext : d.name.text = x := by simpa using List.find?_some hd
    simp [entry, htext]

/-- Only what is read from these scopes matters. -/
theorem scopes_congr (h : ∀ l x, l < fs.length → ((l, x) ∈ seen ↔ (l, x) ∈ seen')) :
    scopes seen fs = scopes seen' fs := by
  induction fs with
  | nil => rfl
  | cons f fs ih =>
    rw [scopes, scopes, f.bindings_congr fun x => h _ x (Nat.lt_succ_self _),
      ih fun l x hl => h l x (Nat.lt_succ_of_lt hl)]

theorem known_congr (h : ∀ l x, l < fs.length → ((l, x) ∈ seen ↔ (l, x) ∈ seen')) :
    Known seen fs ↔ Known seen' fs := by
  induction fs with
  | nil => exact Iff.rfl
  | cons f fs ih =>
    rw [Known, Known, ih fun l x hl => h l x (Nat.lt_succ_of_lt hl)]
    refine and_congr_left fun _ => forall_congr' fun x => ?_
    rw [h _ x (Nat.lt_succ_self _)]

/-- To read a name is to mark it in the scope nearest by that has it. -/
theorem scopes_read {x : String} {d : Nat} (h : fs.findIdx? (·.has x) = some d) :
    (scopes seen fs).modify d (·.change x fun l => { l with read := true }) =
      scopes (seen ++ [(fs.length - 1 - d, x)]) fs := by
  induction fs generalizing d with
  | nil => cases h
  | cons f fs ih =>
    rw [List.findIdx?_cons] at h
    by_cases hf : f.has x
    · obtain rfl : d = 0 := by simpa [hf] using h.symm
      have hrest : scopes seen fs = scopes (seen ++ [(fs.length, x)]) fs := by
        refine scopes_congr fun l y hl => ?_
        have hne : l ≠ fs.length := Nat.ne_of_lt hl
        simp [hne]
      have hhead : (f.bindings seen fs.length).change x (fun l => { l with read := true }) =
          f.bindings (seen ++ [(fs.length, x)]) fs.length := by
        rw [Frame.bindings, change_bound]
        refine bound_congr fun e _ => ?_
        by_cases he : e.name.text = x
        · simp [entry, he]
        · simp [entry, he]
      simp [scopes, hhead, ← hrest]
    · obtain ⟨d, hd, rfl⟩ : ∃ e, fs.findIdx? (·.has x) = some e ∧ e + 1 = d := by
        simpa [hf] using h
      have hlt : d < fs.length := (List.findIdx?_eq_some_iff_getElem.1 hd).1
      have hhead : f.bindings seen fs.length =
          f.bindings (seen ++ [(fs.length - 1 - d, x)]) fs.length := by
        refine f.bindings_congr fun y => ?_
        have hne : fs.length ≠ fs.length - 1 - d := by omega
        simp [hne]
      have hlevel : (f :: fs).length - 1 - (d + 1) = fs.length - 1 - d := by
        simp only [List.length_cons]
        omega
      rw [hlevel, scopes, scopes, List.modify_succ_cons, ih hd, ← hhead]

theorem known_read {x : String} {d : Nat} (hk : Known seen fs)
    (h : fs.findIdx? (·.has x) = some d) : Known (seen ++ [(fs.length - 1 - d, x)]) fs := by
  induction fs generalizing d with
  | nil => cases h
  | cons f fs ih =>
    obtain ⟨hf, hfs⟩ := hk
    rw [List.findIdx?_cons] at h
    by_cases hx : f.has x
    · obtain rfl : d = 0 := by simpa [hx] using h.symm
      refine ⟨fun y hy => ?_, (known_congr fun l y hl => ?_).2 hfs⟩
      · rcases List.mem_append.1 hy with hy | hy
        · exact hf y hy
        · obtain rfl : y = x := by simpa using hy
          exact hx
      · have hne : l ≠ fs.length := Nat.ne_of_lt hl
        simp [hne]
    · obtain ⟨d, hd, rfl⟩ : ∃ e, fs.findIdx? (·.has x) = some e ∧ e + 1 = d := by
        simpa [hx] using h
      have hlt : d < fs.length := (List.findIdx?_eq_some_iff_getElem.1 hd).1
      have hlevel : (f :: fs).length - 1 - (d + 1) = fs.length - 1 - d := by
        simp only [List.length_cons]
        omega
      rw [hlevel]
      refine ⟨fun y hy => ?_, ih hfs hd⟩
      rcases List.mem_append.1 hy with hy | hy
      · exact hf y hy
      · have hne : fs.length ≠ fs.length - 1 - d := by omega
        simp [hne] at hy

/-- What the language binds is read from the start. -/
theorem modify_builtin {x : String} {place : Place} {d : Nat}
    (h : fs[d]? = some (.builtin x place)) :
    (scopes seen fs).modify d (·.change x fun l => { l with read := true }) = scopes seen fs := by
  induction fs generalizing d with
  | nil => cases h
  | cons f fs ih =>
    cases d with
    | zero =>
      obtain rfl := Option.some.inj h
      have hhead : ((Frame.builtin x place).bindings seen fs.length).change x
          (fun l => { l with read := true }) = (Frame.builtin x place).bindings seen fs.length := by
        rw [Frame.bindings, change_bound]
        refine bound_congr fun e he => ?_
        obtain rfl := List.mem_singleton.1 he
        simp [entry]
      simp [scopes, hhead]
    | succ d => rw [scopes, List.modify_succ_cons, ih h]

/-! ## Declarations -/

theorem Known.mono {f g : Frame} (h : Known seen (f :: fs))
    (hfg : ∀ x, f.has x = true → g.has x = true) : Known seen (g :: fs) :=
  ⟨fun x hx => hfg x (h.1 x hx), h.2⟩

end

section
variable {seen : List (Nat × String)} {level : Nat} {f : Frame} {d : Declaration}

/-- What is known of a name that has just been declared for the first time. -/
theorem entry_new (hd : d.declarer ≠ .language) (hseen : (level, d.name.text) ∉ seen)
    (awaiting : Option String) : entry seen level awaiting d =
      ⟨d.name.place, decide (awaiting ≠ some d.name.text), false, d.isTracked⟩ := by
  simp [entry, hd, hseen]

variable (seen level)

theorem Frame.insert_entry (hf : f.awaiting = none) (h : f.has d.name.text = false)
    (awaiting : Option String) (ha : ∀ x ∈ awaiting, x = d.name.text) :
    (f.bindings seen level).insert d.name.text (entry seen level awaiting d) =
      bound (entry seen level awaiting) (f.declared ++ [d]) := by
  rw [← insert_bound _ h]
  refine congrArg _ (bound_congr fun e he => ?_)
  have hne : e.name.text ≠ d.name.text := fun het => by
    have hany : f.has d.name.text = true := List.any_eq_true.2 ⟨e, he, by simp [het]⟩
    rw [h] at hany
    cases hany
  have hdefined : awaiting ≠ some e.name.text := fun hx => hne (ha _ hx)
  simp [entry, hf, hdefined]

/-- A declaration of a name that the scope has is as good as none. -/
theorem Frame.bindings_again (hf : f.awaiting = none) (h : f.has d.name.text = true) :
    (f.await d).bindings seen level = f.bindings seen level ∧
      (f.declare d).bindings seen level = f.bindings seen level := by
  have hagain := bound_again (entry seen level none) h
  constructor
  · simpa [Frame.bindings, Frame.await, h, hf] using hagain
  · simpa [Frame.bindings, Frame.declare, Frame.of, hf] using hagain

variable {seen level} in
/-- A first declaration adds a name that awaits its value. -/
theorem Frame.insert_await (hd : d.isTracked = true) (hf : f.awaiting = none)
    (hseen : (level, d.name.text) ∉ seen) (h : f.has d.name.text = false) :
    (f.bindings seen level).insert d.name.text ⟨d.name.place, false, false, true⟩ =
      (f.await d).bindings seen level := by
  have hlanguage : d.declarer ≠ .language := fun he => by simp [Declaration.isTracked, he] at hd
  have hnew := entry_new hlanguage hseen (some d.name.text)
  rw [hd] at hnew
  have hinsert := Frame.insert_entry seen level hf h (some d.name.text) (by simp)
  simpa [hnew, Frame.bindings, Frame.await, h] using hinsert

/-- Behind its initializer a variable has its value. -/
theorem Frame.change_await : ((f.await d).bindings seen level).change d.name.text
    (fun l => { l with defined := true }) = (f.declare d).bindings seen level := by
  rw [Frame.bindings, change_bound]
  refine bound_congr fun e _ => ?_
  by_cases he : e.name.text = d.name.text
  · simp [entry, Frame.declare, Frame.of, he]
  · have hne := Ne.symm he
    cases hf : f.has d.name.text <;>
      simp [entry, Frame.await, Frame.declare, Frame.of, he, hne, hf]

variable {seen level} in
/-- A parameter has its value at once, and nobody has to read it. -/
theorem Frame.insert_parameter (hd : d.declarer = .parameter) (hf : f.awaiting = none)
    (hseen : (level, d.name.text) ∉ seen) (h : f.has d.name.text = false) :
    (f.bindings seen level).insert d.name.text ⟨d.name.place, true, false, false⟩ =
      (f.declare d).bindings seen level := by
  have hnew := entry_new (by simp [hd]) hseen none
  have htracked : d.isTracked = false := by simp [Declaration.isTracked, hd]
  have hinsert := Frame.insert_entry seen level hf h none (by simp)
  simpa [hnew, htracked, Frame.bindings, Frame.declare, Frame.of] using hinsert

/-- The first of two parameters of one name is as it was. -/
theorem Frame.change_parameter (hf : f.awaiting = none)
    (hall : ∀ e ∈ f.declared, e.declarer = .parameter) (x : String) :
    (f.bindings seen level).change x (fun l => { l with defined := true }) =
        f.bindings seen level ∧
      (f.bindings seen level).change x (fun l => { l with tracked := false }) =
        f.bindings seen level := by
  constructor
  · rw [Frame.bindings, change_bound]
    refine bound_congr fun e _ => ?_
    simp [entry, hf]
  · rw [Frame.bindings, change_bound]
    refine bound_congr fun e he => ?_
    simp [entry, Declaration.isTracked, hall e he]

end

/-! ## Ends -/

/-- The names of a scope that a walk finds unread at its end. -/
theorem Frame.unreadNames_bindings {seen : List (Nat × String)} {level : Nat} (f : Frame)
    {ps : List (Context × Point)} (h : ∀ x, (level, x) ∈ seen ↔ (level, x) ∈ reads ps) :
    unreadNames (f.bindings seen level) =
      (Closing.mk level f.declared ps).unused.mergeSort fun a b => a.place.le b.place := by
  have hfilter : (f.bindings seen level).filter (fun b => b.2.tracked && !b.2.read) =
      ((firsts f.declared).filter fun d =>
        d.isTracked && !(reads ps).contains (level, d.name.text)).map
          fun d => (d.name.text, entry seen level f.awaiting d) := by
    rw [Frame.bindings, bound, List.filter_map]
    refine congrArg _ (List.filter_congr fun d _ => ?_)
    cases hd : d.declarer <;> simp [entry, Declaration.isTracked, hd, h]
  have hunread : unreadNames (f.bindings seen level) =
      (((f.bindings seen level).filter fun b => b.2.tracked && !b.2.read).map
        fun b => Name.mk b.1 b.2.place).mergeSort fun a b => a.place.le b.place := rfl
  rw [hunread, hfilter, List.map_map]
  rfl

end Lexical

end LoxLang
