import LoxLang.Machine.Eval
import LoxLang.Proofs.Machine.Store

/-!
# Names by distance

A name is read and assigned either by going outwards until a scope binds it or at a known
distance. In every forest of scopes that the operations on scopes build, the two ways agree
at the least distance where the name is bound, and both fail where it is not bound at all.
-/

namespace LoxLang

namespace Scopes

/-! ## Forests -/

/-- The forests that operations on scopes build. A new scope goes inside an existing one or
has nothing around it; an operation that fails builds nothing. -/
inductive Built : Scopes → Prop
  | root (allow : Bool) : Built (root allow)
  | orphan {ss : Scopes} (h : Built ss) (allow : Bool) : Built (ss.orphan allow).1
  | child {ss : Scopes} (h : Built ss) {parent : ScopeId} (hp : parent < ss.size) :
    Built (ss.child parent).1
  | define {ss ss' : Scopes} (h : Built ss) {id : ScopeId} {name : Name} {v : Value}
      (hd : ss.define id name v = .ok ss') : Built ss'
  | insert {ss : Scopes} (h : Built ss) (id : ScopeId) (x : String) (v : Value) :
    Built (ss.insert id x v)
  | assign {ss ss' : Scopes} (h : Built ss) {id : ScopeId} {name : Name} {v : Value}
      (ha : ss.assign id name v = .ok ss') : Built ss'
  | assignAt {ss ss' : Scopes} (h : Built ss) {id : ScopeId} {d : Nat} {name : Name} {v : Value}
      (ha : ss.assignAt id d name v = .ok ss') : Built ss'
  | clear {ss : Scopes} (h : Built ss) (id : ScopeId) : Built (ss.clear id)
  | setAllowRedefinition {ss : Scopes} (h : Built ss) (id : ScopeId) (allow : Bool) :
    Built (ss.setAllowRedefinition id allow)

/-- Every scope was made after the one around it. -/
def Ordered (ss : Scopes) : Prop :=
  ∀ id parent : ScopeId, ss[id]?.bind Scope.parent = some parent → parent < id

/-- A new scope comes after its parent, so scopes stay in order. -/
theorem Ordered.push {ss : Scopes} (h : ss.Ordered) {s : Scope}
    (hs : ∀ parent, s.parent = some parent → parent < ss.size) : Ordered (ss.push s) := by
  intro id parent hp
  rw [Array.getElem?_push] at hp
  split at hp
  · rename_i hid
    subst hid
    exact hs parent hp
  · exact h id parent hp

/-- A change that keeps parents keeps scopes in order. -/
theorem Ordered.modify {ss : Scopes} (h : ss.Ordered) (i : ScopeId) {f : Scope → Scope}
    (hf : ∀ s, (f s).parent = s.parent) : Ordered (ss.modify i f) := by
  intro id parent hp
  refine h id parent (hp.symm.trans ?_).symm
  rw [Array.getElem?_modify]
  split
  · cases ss[id]? with
    | none => rfl
    | some s => exact hf s
  · rfl

/-- Binding a name keeps scopes in order. -/
theorem Ordered.insert {ss : Scopes} (h : ss.Ordered) (id : ScopeId) (x : String) (v : Value) :
    (ss.insert id x v).Ordered :=
  h.modify id fun _ => rfl

theorem Ordered.of_map {ss ss' : Scopes} (h : ss.Ordered) {chosen : Except Fault ScopeId}
    {x : String} {v : Value} (ho : chosen.map (ss.insert · x v) = .ok ss') : ss'.Ordered := by
  cases chosen with
  | error f => cases ho
  | ok id =>
    cases ho
    exact h.insert id x v

theorem Built.ordered {ss : Scopes} (h : ss.Built) : ss.Ordered := by
  induction h with
  | root allow =>
    have h : Ordered #[] := fun id parent hp => by simp at hp
    exact h.push (s := ⟨[], none, allow⟩) nofun
  | orphan _ allow ih => exact ih.push nofun
  | child _ hp ih =>
    refine ih.push fun parent h => ?_
    cases h
    exact hp
  | define _ hd ih => exact ih.of_map hd
  | insert _ id x v ih => exact ih.insert id x v
  | assign _ ha ih => exact ih.of_map ha
  | assignAt _ ha ih => exact ih.of_map ha
  | clear _ id ih => exact ih.modify id fun _ => rfl
  | setAllowRedefinition _ id allow ih => exact ih.modify id fun _ => rfl

/-! ## The nearest binding -/

section
variable {ss : Scopes} {id : ScopeId} {x : String}

/-- The least distance where a scope binds the name, and that scope. -/
structure Nearest (ss : Scopes) (id : ScopeId) (x : String) (d : Nat) (holder : ScopeId) :
    Prop where
  ancestor : ss.ancestor? id d = some holder
  bound : (ss.own? holder x).isSome
  least : ∀ e < d, ∀ a, ss.ancestor? id e = some a → ss.own? a x = none

/-- No scope binds the name, however far out. -/
def Unbound (ss : Scopes) (id : ScopeId) (x : String) : Prop :=
  ∀ d a, ss.ancestor? id d = some a → ss.own? a x = none

theorem ancestor?_step {parent : ScopeId} (hp : ss[id]?.bind Scope.parent = some parent)
    (d : Nat) : ss.ancestor? id (d + 1) = ss.ancestor? parent d := by
  rw [ancestor?, hp, Option.bind_some]

/-- Going out leads to older scopes. -/
theorem Ordered.ancestor_le (h : ss.Ordered) {d : Nat} :
    ∀ {id a : ScopeId}, ss.ancestor? id d = some a → a + d ≤ id := by
  induction d with
  | zero =>
    intro id a ha
    cases ha
    exact Nat.le_refl _
  | succ d ih =>
    intro id a ha
    rw [ancestor?] at ha
    obtain ⟨parent, hp, ha⟩ := Option.bind_eq_some_iff.1 ha
    exact Nat.lt_of_le_of_lt (ih ha) (h id parent hp)

theorem size_of_own {v : Value} (h : ss.own? id x = some v) : id < ss.size := by
  obtain ⟨s, hs, -⟩ := Option.bind_eq_some_iff.1 h
  exact (Array.getElem?_eq_some_iff.1 hs).1

theorem Nearest.holderWithin {d : Nat} {holder : ScopeId} (h : ss.Nearest id x d holder)
    {limit : Nat} (hl : d < limit) : ss.holderWithin? x limit id = some holder := by
  induction d generalizing id limit with
  | zero =>
    obtain ⟨limit, rfl⟩ := Nat.exists_eq_succ_of_ne_zero (Nat.ne_of_gt hl)
    cases h.ancestor
    rw [holderWithin?, if_pos h.bound]
  | succ d ih =>
    obtain ⟨limit, rfl⟩ := Nat.exists_eq_succ_of_ne_zero (Nat.ne_of_gt (Nat.zero_lt_of_lt hl))
    have ha := h.ancestor
    rw [ancestor?] at ha
    obtain ⟨parent, hp, ha⟩ := Option.bind_eq_some_iff.1 ha
    have hfree : ss.own? id x = none := h.least 0 (Nat.zero_lt_succ d) id rfl
    have hout : ss.Nearest parent x d holder :=
      ⟨ha, h.bound, fun e he a hea =>
        h.least (e + 1) (Nat.succ_lt_succ he) a ((ancestor?_step hp e).trans hea)⟩
    rw [holderWithin?, hfree, if_neg (by decide), hp]
    exact ih hout (Nat.lt_of_succ_lt_succ hl)

/-- Going outwards stops at the nearest binding: a chain has no more scopes than there are. -/
theorem Nearest.holder? (ho : ss.Ordered) {d : Nat} {holder : ScopeId}
    (h : ss.Nearest id x d holder) : ss.holder? id x = some holder := by
  refine h.holderWithin ?_
  obtain ⟨v, hv⟩ := Option.isSome_iff_exists.1 h.bound
  cases d with
  | zero => exact Nat.zero_lt_of_lt (size_of_own hv)
  | succ d =>
    have hle : d + 1 ≤ id := Nat.le_trans (Nat.le_add_left _ _) (ho.ancestor_le h.ancestor)
    -- a scope that has something around it exists
    have hid : id < ss.size := by
      have ha := h.ancestor
      rw [ancestor?] at ha
      obtain ⟨parent, hp, -⟩ := Option.bind_eq_some_iff.1 ha
      obtain ⟨s, hs, -⟩ := Option.bind_eq_some_iff.1 hp
      exact (Array.getElem?_eq_some_iff.1 hs).1
    exact Nat.lt_of_le_of_lt hle hid

theorem Unbound.holderWithin (h : ss.Unbound id x) (limit : Nat) :
    ss.holderWithin? x limit id = none := by
  induction limit generalizing id with
  | zero => rfl
  | succ limit ih =>
    rw [holderWithin?, h 0 id rfl, if_neg (by decide)]
    cases hp : ss[id]?.bind Scope.parent with
    | none => rfl
    | some parent => exact ih fun d a ha => h (d + 1) a ((ancestor?_step hp d).trans ha)

theorem Unbound.holder? (h : ss.Unbound id x) : ss.holder? id x = none := h.holderWithin _

end

/-! ## The two ways -/

/-- One binding of one scope has another value, and that is all. -/
structure Replaces (ss ss' : Scopes) (holder : ScopeId) (x : String) (v : Value) : Prop where
  own? : ∀ (id : ScopeId) (y : String),
    ss'.own? id y = if id = holder ∧ y = x then some v else ss.own? id y
  parent : ∀ id : ScopeId, ss'[id]?.bind Scope.parent = ss[id]?.bind Scope.parent
  allow : ∀ id : ScopeId, ss'[id]?.map Scope.allowRedefinition = ss[id]?.map Scope.allowRedefinition
  size : ss'.size = ss.size

theorem replaces_insert (ss : Scopes) {holder : ScopeId} {x : String}
    (h : (ss.own? holder x).isSome) (v : Value) : ss.Replaces (ss.insert holder x v) holder x v where
  own? id y := by
    obtain ⟨w, hw⟩ := Option.isSome_iff_exists.1 h
    simp only [own?_insert, size_of_own hw, and_true]
  parent := ss.parent_insert holder x v
  allow := ss.allow_insert holder x v
  size := ss.size_insert holder x v

section
variable {ss : Scopes} {id : ScopeId} {name : Name}

theorem getAt_of_own {d : Nat} {holder : ScopeId} (ha : ss.ancestor? id d = some holder)
    {w : Value} (hw : ss.own? holder name.text = some w) : ss.getAt id d name = .ok w := by
  simp only [getAt, ha, hw]

theorem assignAt_of_own {d : Nat} {holder : ScopeId} (ha : ss.ancestor? id d = some holder)
    {w : Value} (hw : ss.own? holder name.text = some w) (v : Value) :
    ss.assignAt id d name v = .ok (ss.insert holder name.text v) := by
  simp only [assignAt, holderAt, getAt_of_own ha hw, ha, Option.getD_some, Except.map]

/-- How a distance can be wrong for a name that no scope binds. -/
def wrongDistance (ss : Scopes) (id : ScopeId) (d : Nat) (name : Name) : Fault :=
  ⟨name.place, .mismatch
    (if (ss.ancestor? id d).isSome then .unbound d name.text else .noScope d name.text)⟩

/-- A name that no scope on the way binds is at no distance. -/
theorem Unbound.getAt (h : ss.Unbound id name.text) (d : Nat) :
    ss.getAt id d name = .error (ss.wrongDistance id d name) := by
  unfold Scopes.getAt wrongDistance
  cases ha : ss.ancestor? id d with
  | none => rfl
  | some a =>
    dsimp only
    rw [h d a ha]
    rfl

theorem Unbound.assignAt (h : ss.Unbound id name.text) (d : Nat) (v : Value) :
    ss.assignAt id d name v = .error (ss.wrongDistance id d name) := by
  unfold Scopes.assignAt holderAt
  rw [h.getAt d]
  rfl

end

end Scopes

/-! ## Operations that fail -/

namespace Run

theorem store_of_error (choose : Machine → Except Fault ScopeId) {x : String} {v : Value}
    {m : Machine} {f : Fault} (h : (choose m).map (m.scopes.insert · x v) = .error f) :
    store choose x v m = .error (.fault f) m := by
  unfold store
  cases hc : choose m with
  | ok id =>
    rw [hc] at h
    cases h
  | error g =>
    rw [hc] at h
    cases h
    rfl

variable {m : Machine} {name : Name} {v : Value} {f : Fault}

theorem define_of_error (h : m.scopes.define m.current name v = .error f) :
    define name v m = .error (.fault f) m :=
  store_of_error (fun m => m.scopes.definable m.current name) h

theorem assignVariable_of_error (h : m.scopes.assign m.globals name v = .error f) :
    assignVariable ⟨name, none⟩ v m = .error (.fault f) m :=
  store_of_error (fun m => m.scopes.holder m.globals name) h

theorem assignVariable_at_of_error {d : Nat}
    (h : m.scopes.assignAt m.current d name v = .error f) :
    assignVariable ⟨name, some d⟩ v m = .error (.fault f) m :=
  store_of_error (fun m => m.scopes.holderAt m.current d name) h

end Run

/-! ## Agreement -/

namespace Scopes

/-- In every forest that is built, reading and assigning at the least distance where a name
is bound is reading and assigning it by going outwards, and an assignment replaces that one
binding; a name that is bound nowhere is undefined the one way and a mismatch the other, at
every distance. An operation that fails leaves the machine as it is. -/
theorem access_agrees {ss : Scopes} (hb : ss.Built) (id : ScopeId) (name : Name) (v : Value) :
    (∀ d holder, ss.Nearest id name.text d holder →
      (∃ w, ss.own? holder name.text = some w ∧ ss.get id name = .ok w ∧
        ss.getAt id d name = .ok w) ∧
      ∃ ss', ss.assign id name v = .ok ss' ∧ ss.assignAt id d name v = .ok ss' ∧
        ss.Replaces ss' holder name.text v) ∧
    (ss.Unbound id name.text →
      ss.get id name = .error ⟨name.place, .undefinedVariable name.text⟩ ∧
      ss.assign id name v = .error ⟨name.place, .undefinedVariable name.text⟩ ∧
      ∀ d, ss.getAt id d name = .error (ss.wrongDistance id d name) ∧
        ss.assignAt id d name v = .error (ss.wrongDistance id d name)) ∧
    ∀ (m : Machine) (f : Fault), m.scopes = ss →
      (m.current = id → ss.define id name v = .error f →
        Run.define name v m = .error (.fault f) m) ∧
      (m.globals = id → ss.assign id name v = .error f →
        Run.assignVariable ⟨name, none⟩ v m = .error (.fault f) m) ∧
      ∀ d, m.current = id → ss.assignAt id d name v = .error f →
        Run.assignVariable ⟨name, some d⟩ v m = .error (.fault f) m := by
  refine ⟨?_, ?_, ?_⟩
  · intro d holder hn
    have hh := hn.holder? hb.ordered
    obtain ⟨w, hw⟩ := Option.isSome_iff_exists.1 hn.bound
    refine ⟨⟨w, hw, ?_, getAt_of_own hn.ancestor hw⟩, ss.insert holder name.text v, ?_,
      assignAt_of_own hn.ancestor hw v, ss.replaces_insert hn.bound v⟩
    · simp only [get, hh, Option.bind_some, hw]
    · simp only [assign, Scopes.holder, hh, Except.map]
  · intro hu
    have hh := hu.holder?
    refine ⟨?_, ?_, fun d => ⟨hu.getAt d, hu.assignAt d v⟩⟩
    · simp only [get, hh, Option.bind_none]
    · simp only [assign, Scopes.holder, hh, Except.map]
  · rintro m f rfl
    refine ⟨?_, ?_, ?_⟩
    · rintro rfl hf
      exact Run.define_of_error hf
    · rintro rfl hf
      exact Run.assignVariable_of_error hf
    · rintro d rfl hf
      exact Run.assignVariable_at_of_error hf

/-- Three nested scopes, where the outermost alone binds the name. -/
theorem access_agrees_nested :
    let ss := ((((Scopes.root false).insert 0 "x" (.bool true)).child 0).1.child 1).1
    let name : Name := ⟨"x", ⟨"", 1, 1⟩⟩
    ss.Built ∧ ss.Nearest 2 "x" 2 0 ∧ ss.get 2 name = ss.getAt 2 2 name := by
  intro ss name
  have hb : ss.Built :=
    (((Built.root false).insert 0 "x" (.bool true)).child (by decide)).child (by decide)
  have hn : ss.Nearest 2 "x" 2 0 := by
    refine ⟨rfl, rfl, fun e he a ha => ?_⟩
    match e, he with
    | 0, _ => cases ha; rfl
    | 1, _ => cases ha; rfl
  obtain ⟨⟨w, -, hg, ha⟩, -⟩ := (access_agrees hb 2 name (.bool false)).1 2 0 hn
  exact ⟨hb, hn, hg.trans ha.symm⟩

end Scopes

end LoxLang
