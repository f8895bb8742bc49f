import LoxLang.Proofs.Padding.Tree
import LoxLang.Proofs.Scoping.Housed
import LoxLang.Proofs.Tree.Bare

/-!
# Resolving one scope further in

Two walks that know the same but for an empty scope that one of them has besides give the
same tree, one of them led past that scope.
-/

namespace LoxLang

open Scoping

/-! ## Walks -/

/-- The outline with an empty scope put in at the gap. -/
def spaced (g : Gap) (o : List (Bindings Bool)) : List (Bindings Bool) :=
  match g with
  | none => o
  | some k => o.insertIdx k []

theorem spaced_under (g : Gap) (s : Bindings Bool) (o : List (Bindings Bool)) :
    spaced (g.under 1) (s :: o) = s :: spaced g o := by
  cases g <;> rfl

/-- A name is past the gap or not. -/
theorem findIdx?_spaced (g : Gap) (x : String) (o : List (Bindings Bool)) :
    (spaced g o).findIdx? (·.has x) = (o.findIdx? (·.has x)).map g.shift := by
  match g, o with
  | none, o => exact Gap.map_shift_none _
  | some 0, o =>
    rw [spaced, List.insertIdx_zero, List.findIdx?_cons]
    rfl
  | some (k + 1), [] => rfl
  | some (k + 1), s :: o =>
    have ih := findIdx?_spaced (some k) x o
    have hcons : spaced (some (k + 1)) (s :: o) = s :: spaced (some k) o :=
      spaced_under (some k) s o
    rw [hcons, List.findIdx?_cons, List.findIdx?_cons, ih]
    split
    · exact congrArg some (Gap.shift_under_zero (some k)).symm
    · rw [Option.map_map, Option.map_map]
      exact congrArg (Option.map · _) (funext fun d => (Gap.shift_under_succ (some k) d).symm)

/-- The second walk has an empty scope besides, which is not put in between the scopes of
`super` and `this`. -/
structure Spaced (g : Gap) (w v : Walk) : Prop where
  outline : v.outline = spaced g w.outline
  classKind : v.classKind = w.classKind
  clear : ∀ k s, g = some k → w.outline[k]? = some s → s.has "super" = false

namespace Spaced

variable {g : Gap} {w v w' v' : Walk} (h : Spaced g w v)
include h

theorem distance (x : String) : distance? v.scopes x = (distance? w.scopes x).map g.shift := by
  rw [distance?_outline, distance?_outline, h.outline, findIdx?_spaced]

theorem reference (r : Reference) : (r.resolve w).1.Padded g (r.resolve v).1 := by
  rw [Reference.resolve_apply, Reference.resolve_apply]
  exact ⟨rfl, h.distance r.name.text⟩

/-- The scope of `super` is not at the gap. -/
theorem super_ne (hd : distance? w.scopes "super" = g) : distance? w.scopes "super" = none := by
  cases hk : distance? w.scopes "super" with
  | none => rfl
  | some k =>
    obtain ⟨s, hs, hhas⟩ := has_of_distance hk
    rw [h.clear k s (hd.symm.trans hk) hs] at hhas
    cases hhas

theorem of_outline (hw : w'.outline = w.outline) (hv : v'.outline = v.outline)
    (hc : v'.classKind = w'.classKind) : Spaced g w' v' where
  outline := by rw [hv, hw, h.outline]
  classKind := hc
  clear := by
    rw [hw]
    exact h.clear

theorem steady (hw : Steady w w') (hv : Steady v v') : Spaced g w' v' :=
  h.of_outline hw.outline hv.outline (by rw [hv.classKind, hw.classKind, h.classKind])

/-- Both walks have opened a scope. -/
theorem push {s : Bindings Bool} (hw : w'.outline = s :: w.outline)
    (hv : v'.outline = s :: v.outline) (hc : v'.classKind = w'.classKind) :
    Spaced (g.under 1) w' v' where
  outline := by rw [hv, hw, spaced_under, h.outline]
  classKind := hc
  clear k t hk ht := by
    obtain ⟨j, hj, rfl⟩ := Option.map_eq_some_iff.1 hk
    rw [hw] at ht
    exact h.clear j t hj ht

theorem openScope : Spaced (g.under 1) (openScope w).2 (openScope v).2 := h.push rfl rfl h.classKind

/-- Both walks have changed their innermost scope, which is one that both have. -/
theorem change (hg : g ≠ some 0) {f : List (Bindings Bool) → List (Bindings Bool)}
    (hnil : f [] = []) {c : Bindings Bool → Bindings Bool} (hcons : ∀ s o, f (s :: o) = c s :: o)
    (hw : w'.outline = f w.outline) (hv : v'.outline = f v.outline)
    (hc : v'.classKind = w'.classKind) : Spaced g w' v' where
  outline := by
    rw [hv, hw, h.outline]
    match g, hg, w.outline with
    | none, _, _ => rfl
    | some (k + 1), _, [] =>
      have hs : spaced (some (k + 1)) [] = [] := rfl
      rw [hs, hnil, hs]
    | some (k + 1), _, s :: o =>
      have hs (t : Bindings Bool) : spaced (some (k + 1)) (t :: o) = t :: spaced (some k) o :=
        spaced_under (some k) t o
      rw [hs, hcons, hcons, hs]
  classKind := hc
  clear k s hk hs := by
    subst hk
    cases k with
    | zero => exact absurd rfl hg
    | succ k =>
      refine h.clear (k + 1) s rfl ?_
      rw [hw] at hs
      cases ho : w.outline with
      | nil =>
        rw [ho, hnil] at hs
        cases hs
      | cons t o =>
        rw [ho, hcons] at hs
        exact hs

/-- A name declared on both sides leaves the gap where it was. -/
theorem declaring (hg : g ≠ some 0) {x : String} (hw : w'.outline = declaring x w.outline)
    (hv : v'.outline = LoxLang.Scoping.declaring x v.outline) (hc : v'.classKind = w'.classKind) :
    Spaced g w' v' :=
  h.change hg (c := fun s => s.insert x true) rfl (fun _ _ => rfl) hw hv hc

theorem await (hg : g ≠ some 0) (name : Name) : Spaced g (w.await name) (v.await name) :=
  h.change hg (c := fun s => if s.has name.text then s else s.insert name.text false) rfl
    (fun _ _ => rfl) (outline_declare name w) (outline_declare name v)
    (by rw [Walk.await, (inner_declare name v).classKind, Walk.await,
      (inner_declare name w).classKind, h.classKind])

theorem enter (hg : g ≠ some 0) (kind : ClassKind) (name : Name) :
    Spaced g (w.enter kind name) (v.enter kind name) :=
  h.declaring hg (outline_enter kind name w) (outline_enter kind name v)
    ((inner_enter kind name v).classKind.trans (inner_enter kind name w).classKind.symm)

theorem declareParam (hg : g ≠ some 0) (name : Name) :
    Spaced g (Scoping.declareParam name w).2 (Scoping.declareParam name v).2 :=
  h.declaring hg (outline_declareParam name w) (outline_declareParam name v)
    (by rw [(inner_declareParam name v).classKind, (inner_declareParam name w).classKind,
      h.classKind])

omit h in
theorem declareParams (hg : g ≠ some 0) (params : List Name) (h : Spaced g w v) :
    Spaced g (params.forM Scoping.declareParam w).2 (params.forM Scoping.declareParam v).2 := by
  induction params generalizing w v with
  | nil => exact h
  | cons p ps ih => exact ih (h.declareParam hg p)

theorem body (kind : FunctionKind) (params : List Name) :
    Spaced (g.under 1) (w.body kind params) (v.body kind params) :=
  declareParams (g.under_ne 0) params (h.push rfl rfl h.classKind)

theorem this (place : Place) : Spaced (g.under 1) (w.this place) (v.this place) :=
  h.push (outline_this place w) (outline_this place v)
    (by rw [(inner_this place v).classKind, (inner_this place w).classKind]; exact h.classKind)

theorem super (place : Place) : Spaced (g.under 1) (w.super place) (v.super place) :=
  h.push (outline_super place w) (outline_super place v)
    (by rw [(inner_super place v).classKind, (inner_super place w).classKind]; exact h.classKind)

theorem returning (place : Place) : Spaced g (w.returningValue place) (v.returningValue place) :=
  h.steady (steady_returningValue place w) (steady_returningValue place v)

/-- Both walks have passed a statement, which declared nothing in a scope that has been put
in. -/
theorem resolve {s : Stmt} (hs : s.Regular) (hd : g = some 0 → s.declared? = none) :
    Spaced g (s.resolve w).2 (s.resolve v).2 := by
  have hc : (s.resolve v).2.classKind = (s.resolve w).2.classKind := by
    rw [(s.inner_resolve v).classKind, (s.inner_resolve w).classKind, h.classKind]
  have hw := s.outline_of_contained w (s.contained_of_regular hs)
  have hv := s.outline_of_contained v (s.contained_of_regular hs)
  unfold Stmt.outlined at hw hv
  cases hn : s.declared? with
  | none =>
    rw [hn] at hw hv
    exact h.of_outline hw hv hc
  | some name =>
    rw [hn] at hw hv
    have hg : g ≠ some 0 := fun hg => by
      rw [hd hg] at hn
      cases hn
    exact h.declaring hg hw hv hc

end Spaced

/-! ## Trees -/

mutual

/-- Both walks give the same expression, the second one led past the scope that has been put
in. -/
theorem Expr.padded_resolve {g : Gap} {w v : Walk} (h : Spaced g w v) (e : Expr) (he : e.Regular) :
    (e.bare.resolve w).1.Padded g (e.bare.resolve v).1 := by
  match e with
  | .literal value p => exact .literal value p
  | .group e p => exact .group (e.padded_resolve h he) p
  | .unary op e p => exact .unary op (e.padded_resolve h he) p
  | .binary op l r p =>
    have hl := h.steady (l.bare.steady_resolve w) (l.bare.steady_resolve v)
    exact .binary op (l.padded_resolve h he.1) (r.padded_resolve hl he.2) p
  | .sequence es p => exact .sequence (Expr.allPadded_resolve h es he) p
  | .read r => exact .read (h.reference r.name.reference)
  | .assign r e =>
    have hs := h.steady (e.bare.steady_resolve w) (e.bare.steady_resolve v)
    rw [Expr.bare, Expr.resolve_assign, Expr.resolve_assign]
    exact .assign ⟨rfl, hs.distance r.name.text⟩ (e.padded_resolve h he.2)
  | .call f es p =>
    have hf := h.steady (f.bare.steady_resolve w) (f.bare.steady_resolve v)
    exact .call (f.padded_resolve h he.1) (Expr.allPadded_resolve hf es he.2) p
  | .lambda ps ss p =>
    exact .lambda ps (Stmt.allPadded_resolve (g.under_ne 0) (h.body .function ps) ss he.2) p
  | .get e n => exact .get (e.padded_resolve h he) n
  | .set e n x =>
    have hs := h.steady (e.bare.steady_resolve w) (e.bare.steady_resolve v)
    exact .set (e.padded_resolve h he.1) n (x.padded_resolve hs he.2)
  | .this _ p =>
    rw [Expr.bare, Expr.resolve_this, Expr.resolve_this, h.classKind]
    cases w.classKind with
    | outside => exact .this rfl p
    | plain | derived => exact .this (h.distance "this") p
  | .super n _ p =>
    rw [Expr.bare, Expr.resolve_super, Expr.resolve_super, h.classKind]
    cases w.classKind with
    | outside | plain => exact .super n rfl (fun _ => rfl) p
    | derived => exact .super n (h.distance "super") h.super_ne p

theorem Expr.allPadded_resolve {g : Gap} {w v : Walk} (h : Spaced g w v) (es : List Expr)
    (he : Expr.AllRegular es) :
    Expr.AllPadded g (Expr.resolveAll (Expr.allBare es) w).1
      (Expr.resolveAll (Expr.allBare es) v).1 := by
  match es with
  | [] => exact .nil
  | e :: es =>
    have hs := h.steady (e.bare.steady_resolve w) (e.bare.steady_resolve v)
    exact .cons (e.padded_resolve h he.1) (Expr.allPadded_resolve hs es he.2)

/-- So they do with a statement that declares nothing in that scope. -/
theorem Stmt.padded_resolve {g : Gap} {w v : Walk} (h : Spaced g w v) (s : Stmt) (hs : s.Regular)
    (hd : g = some 0 → s.declared? = none) :
    (s.bare.resolve w).1.Padded g (s.bare.resolve v).1 := by
  -- a declaration is not at the gap
  have hg (n : Name) (hn : s.declared? = some n) : g ≠ some 0 := fun hg => by
    rw [hd hg] at hn
    cases hn
  match s with
  | .expression e => exact .expression (e.padded_resolve h hs)
  | .print e p => exact .print (e.padded_resolve h hs) p
  | .declare n none => exact .declare (hg n rfl) n
  | .declare n (some e) =>
    exact .declareWith (hg n rfl) n (e.padded_resolve (h.await (hg n rfl) n) hs.2)
  | .block ss p => exact .block (Stmt.allPadded_resolve (g.under_ne 0) h.openScope ss hs) p
  | .branch e yes none p =>
    have he := h.steady (e.bare.steady_resolve w) (e.bare.steady_resolve v)
    exact .branch (e.padded_resolve h hs.1) (yes.padded_resolve he hs.2.2 fun _ => hs.2.1) p
  | .branch e yes (some no) p =>
    obtain ⟨he, ⟨hyd, hys⟩, hnd, hns⟩ := hs
    have ht := h.steady (e.bare.steady_resolve w) (e.bare.steady_resolve v)
    have hy := ht.resolve (s := yes.bare) (yes.regular_bare.2 hys)
      fun _ => yes.declared?_bare.trans hyd
    exact .branchElse (e.padded_resolve h he) (yes.padded_resolve ht hys fun _ => hyd)
      (no.padded_resolve hy hns fun _ => hnd) p
  | .loop e body p =>
    have he := h.steady (e.bare.steady_resolve w) (e.bare.steady_resolve v)
    exact .loop (e.padded_resolve h hs.1) (body.padded_resolve he hs.2.2 fun _ => hs.2.1) p
  | .breakOut p => exact .breakOut p
  | .function (.mk n ps ss) =>
    have hn := h.declaring (hg n rfl) (outline_declare_define n w) (outline_declare_define n v)
      ((inner_enter v.classKind n v).classKind.trans
        (h.classKind.trans (inner_enter w.classKind n w).classKind.symm))
    exact .function (hg n rfl) n ps
      (Stmt.allPadded_resolve (g.under_ne 0) (hn.body .function ps) ss hs.2.2)
  | .returnWith none p =>
    rw [Stmt.bare, Stmt.resolve_return, Stmt.resolve_return]
    exact .returnNil p
  | .returnWith (some e) p =>
    rw [Stmt.bare, Stmt.resolve_returnWith, Stmt.resolve_returnWith]
    exact .returnWith (e.padded_resolve (h.returning p) hs) p
  | .classDecl n none fs =>
    have hn := (h.enter (hg n rfl) .plain n).this n.place
    exact .plainClass (hg n rfl) n (Function.allPadded_resolve hn fs hs.2)
  | .classDecl n (some r) fs =>
    have hn := h.enter (hg n rfl) .derived n
    have hr := hn.steady (steady_inherit n r.name.reference _)
      (steady_inherit n r.name.reference _)
    have hs' := hr.steady (steady_reference _ r.name.reference)
      (steady_reference _ r.name.reference)
    rw [Stmt.bare, Stmt.resolve_subclass, Stmt.resolve_subclass]
    exact .subclass (hg n rfl) n (hr.reference r.name.reference)
      (Function.allPadded_resolve ((hs'.super n.place).this n.place) fs hs.2)

theorem Stmt.allPadded_resolve {g : Gap} {w v : Walk} (hg : g ≠ some 0) (h : Spaced g w v)
    (ss : List Stmt) (hs : Stmt.AllRegular ss) :
    Stmt.AllPadded g (Stmt.resolveAll (Stmt.allBare ss) w).1
      (Stmt.resolveAll (Stmt.allBare ss) v).1 := by
  match ss with
  | [] => exact .nil
  | s :: ss =>
    have hnext := h.resolve (s.regular_bare.2 hs.1) fun h0 => absurd h0 hg
    exact .cons (s.padded_resolve h hs.1 fun h0 => absurd h0 hg)
      (Stmt.allPadded_resolve hg hnext ss hs.2)

/-- So they do with methods, from the scope of `this`. -/
theorem Function.allPadded_resolve {g : Gap} {w v : Walk} (h : Spaced (g.under 1) w v)
    (fs : List Function) (hs : Function.AllRegular fs) :
    Function.AllPadded g (Function.resolveAll (Function.allBare fs) w).1
      (Function.resolveAll (Function.allBare fs) v).1 := by
  match fs with
  | [] => exact .nil
  | .mk n ps ss :: fs =>
    let kind := (Function.mk n ps ss).bare.methodKind
    have hnext := h.steady ((Function.mk n ps ss).bare.steady_resolve kind w)
      ((Function.mk n ps ss).bare.steady_resolve kind v)
    have hb := h.body kind ps
    rw [Gap.under_under] at hb
    exact .cons n ps (Stmt.allPadded_resolve (g.under_ne 1) hb ss hs.1.2)
      (Function.allPadded_resolve hnext fs hs.2)

end

end LoxLang
