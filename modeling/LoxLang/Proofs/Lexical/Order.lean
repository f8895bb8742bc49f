import LoxLang.Proofs.Lexical.Telling
import LoxLang.Proofs.Token.Places

/-!
# Where the names of a scope stand

What a scope of a program declares stands at tokens, in their order: `within_of_derives` says so
of every tree that the grammar gives to tokens. A loop written with `for` is no exception, though
its step stands ahead of its body in the source and behind it in the tree.
-/

namespace LoxLang

open Lexical

namespace Lexical

/-- The names stand at tokens, in their order. -/
def StandAt (ts : List Token) (ns : List Name) : Prop :=
  (ns.map Name.place).Sublist (ts.map Token.place)

theorem StandAt.wider {ts us : List Token} {ns : List Name} (h : StandAt ts ns)
    (hs : ts.Sublist us) : StandAt us ns := h.trans (hs.map _)

/-- Names that stand at tokens one behind the other stand in the order of the tokens. -/
theorem StandAt.append {ts us : List Token} {ns ms : List Name} (h : StandAt ts ns)
    (h' : StandAt us ms) : StandAt (ts ++ us) (ns ++ ms) := by
  rw [StandAt, List.map_append, List.map_append]
  exact List.Sublist.append h h'

@[simp] theorem standAt_nil (ts : List Token) : StandAt ts [] := List.nil_sublist _

@[simp] theorem standAt_singleton {ts : List Token} {n : Name} :
    StandAt ts [n] ↔ ∃ t ∈ ts, t.place = n.place := by
  rw [StandAt, List.map_singleton, List.singleton_sublist, List.mem_map]

theorem standAt_of_names {ts : List Token} {ns : List Name} (h : Names ts ns) : StandAt ts ns := by
  induction h with
  | one _ => exact .refl _
  | more _ _ _ ih => exact .cons_cons _ (.cons _ ih)

/-- Of each scope that ends, the names stand at tokens, in their order. -/
def Within (ts : List Token) (es : List Event) : Prop :=
  ∀ k ∈ closings es, StandAt ts (k.declared.map Declaration.name)

section
variable {ts us : List Token} {es fs : List Event}

theorem Within.wider (h : Within ts es) (hs : ts.Sublist us) : Within us es :=
  fun k hk => (h k hk).wider hs

@[simp] theorem within_nil : Within ts [] := by simp [Within]

@[simp] theorem within_append : Within ts (es ++ fs) ↔ Within ts es ∧ Within ts fs := by
  simp [Within, or_imp, forall_and]

@[simp] theorem within_point {c : Context} {p : Point} :
    Within ts (.point c p :: es) ↔ Within ts es := by
  simp [Within]

@[simp] theorem within_enclosed {level : Nat} {ds : List Declaration} :
    Within ts (enclosed level ds es) ↔ Within ts es ∧ StandAt ts (ds.map Declaration.name) := by
  simp [Within, or_imp, forall_and]

/-- A scope for a built-in name takes its place from a token, so it stays within the tokens. -/
theorem Within.builtin (h : Within ts es) {place : Place} (hp : ∃ t ∈ ts, t.place = place)
    (level : Nat) (x : String) :
    Within ts (enclosed level (Frame.builtin x place).declared es) :=
  within_enclosed.2 ⟨h, standAt_singleton.2 hp⟩

@[simp] theorem within_declarations {ds : List Declaration} :
    ∀ {c}, Within ts (declarations c ds) := by
  induction ds with
  | nil => exact within_nil
  | cons d ds ih => exact within_point.2 ih

end

end Lexical

theorem Stmt.declarations_cons (s : Stmt) (ss : List Stmt) :
    (s :: ss).filterMap Stmt.declaration? =
      s.declaration?.toList ++ ss.filterMap Stmt.declaration? := by
  rw [List.filterMap_cons]
  cases s.declaration? <;> rfl

/-- The scopes of the statement are within the tokens, and so is what it declares itself. -/
structure Stmt.Within (ts : List Token) (s : Stmt) : Prop where
  scopes : ∀ c, Lexical.Within ts (s.events c)
  own : StandAt ts (s.declaration?.toList.map Declaration.name)

/-- `Stmt.Within` for statements that stand in one scope. -/
structure Stmt.AllWithin (ts : List Token) (ss : List Stmt) : Prop where
  scopes : ∀ c, Lexical.Within ts (Stmt.allEvents c ss)
  own : StandAt ts ((ss.filterMap Stmt.declaration?).map Declaration.name)

/-- The scopes of the function are within the tokens, and so is its name. -/
structure Function.Within (ts : List Token) (f : Function) : Prop where
  scopes : ∀ kind c, Lexical.Within ts (f.events kind c)
  own : StandAt ts [f.name]

section
variable {ts us : List Token} {s : Stmt} {ss : List Stmt}

theorem Stmt.Within.wider (h : s.Within ts) (hs : ts.Sublist us) : s.Within us :=
  ⟨fun c => (h.scopes c).wider hs, h.own.wider hs⟩

theorem Stmt.AllWithin.wider (h : Stmt.AllWithin ts ss) (hs : ts.Sublist us) :
    Stmt.AllWithin us ss := ⟨fun c => (h.scopes c).wider hs, h.own.wider hs⟩

theorem Stmt.allWithin_nil : Stmt.AllWithin [] [] := ⟨fun _ => within_nil, standAt_nil _⟩

/-- A statement in front of others adds its tokens and its events in front of theirs. -/
theorem Stmt.Within.cons (h : s.Within ts) (h' : Stmt.AllWithin us ss) :
    Stmt.AllWithin (ts ++ us) (s :: ss) where
  scopes c := by
    have hs := (h.scopes c).wider (List.sublist_append_left ts us)
    have hss := (h'.scopes (c.past s)).wider (List.sublist_append_right ts us)
    exact within_append.2 ⟨hs, hss⟩
  own := by
    rw [Stmt.declarations_cons, List.map_append]
    exact h.own.append h'.own

/-- A statement with one behind it that declares nothing. -/
theorem Stmt.Within.before {t : Stmt} (h : s.Within ts) (ht : ∀ c, Lexical.Within ts (t.events c))
    (hd : t.declaration? = none) : Stmt.AllWithin ts [s, t] where
  scopes c := within_append.2 ⟨h.scopes c, within_append.2 ⟨ht _, within_nil⟩⟩
  own := by
    have hnone : [t].filterMap Stmt.declaration? = [] := by simp [hd]
    rw [Stmt.declarations_cons, hnone, List.append_nil]
    exact h.own

theorem Stmt.AllWithin.block (h : Stmt.AllWithin ts ss) (place : Place) :
    (Stmt.block ss place).Within ts :=
  ⟨fun c => within_enclosed.2 ⟨h.scopes (c.inside none), h.own⟩, standAt_nil _⟩

end

/-- Parameters and statements share one scope. -/
theorem Lexical.within_body {ps bs : List Token} {ns : List Name} {body : List Stmt}
    (hn : StandAt ps ns) (hb : Stmt.AllWithin bs body) (level : Nat) (c c' : Context) :
    Lexical.Within (ps ++ bs) (enclosed level (parameters ns ++ body.filterMap Stmt.declaration?)
      (declarations c (parameters ns) ++ Stmt.allEvents c' body)) := by
  have hscopes := (hb.scopes c').wider (List.sublist_append_right ps bs)
  have hparams : (parameters ns).map Declaration.name = ns := by
    rw [parameters, List.map_map]
    exact List.map_id ns
  refine within_enclosed.2 ⟨within_append.2 ⟨within_declarations, hscopes⟩, ?_⟩
  rw [List.map_append, hparams]
  exact hn.append hb.own

namespace Grammar

/-- What the tree of each phrase is like. -/
def Symbol.Within : (s : Symbol) → List Token → s.Tree → Prop
  | .declarations, ts, ss => Stmt.AllWithin ts ss
  | .block, ts, ss => Stmt.AllWithin ts ss
  | .declaration, ts, s => s.Within ts
  | .varDecl, ts, s => s.Within ts
  | .statement _, ts, s => s.Within ts
  | .exprStmt, ts, s => s.Within ts
  | .forStart, ts, o => ∀ s ∈ o, s.Within ts
  | .methods, ts, fs => ∀ c, Lexical.Within ts (Function.allEvents c fs)
  | .function, ts, f => f.Within ts
  | .params, ts, ns => StandAt ts ns
  | .optional, ts, o => ∀ e ∈ o, ∀ c, Lexical.Within ts (e.events c)
  | .items, ts, es => ∀ c, Lexical.Within ts (Expr.allEvents c es)
  | .arguments, ts, es => ∀ c, Lexical.Within ts (Expr.allEvents c es)
  | .expression, ts, e => ∀ c, Lexical.Within ts (e.events c)
  | .assignment, ts, e => ∀ c, Lexical.Within ts (e.events c)
  | .operators _, ts, e => ∀ c, Lexical.Within ts (e.events c)
  | .operand _, ts, e => ∀ c, Lexical.Within ts (e.events c)
  | .unary, ts, e => ∀ c, Lexical.Within ts (e.events c)
  | .call, ts, e => ∀ c, Lexical.Within ts (e.events c)
  | .primary, ts, e => ∀ c, Lexical.Within ts (e.events c)

/-- A loop is within its tokens though the increment is walked through after the body. -/
theorem within_forLoop {place : Place} {initial : Option Stmt} {test step : Option Expr}
    {body : Stmt} {is bs ts : List Token} (hi : ∀ s ∈ initial, s.Within is)
    (ht : ∀ e ∈ test, ∀ c, Lexical.Within ts (e.events c))
    (hs : ∀ e ∈ step, ∀ c, Lexical.Within ts (e.events c)) (hb : body.Within bs)
    (hsub : (is ++ bs).Sublist ts) : (Stmt.forLoop place initial test step body).Within ts := by
  have htest : ∀ c, Lexical.Within ts ((test.getD (.literal .yes place)).events c) := by
    cases test with
    | none => exact fun _ => within_nil
    | some e => exact ht e rfl
  -- the body with the step behind it, and the loop around them
  let round : Stmt := match step with
    | some step => .block [body, .expression step] place
    | none => body
  have hbody : body.Within ts := hb.wider (.trans (List.sublist_append_right _ _) hsub)
  have hround : ∀ c, Lexical.Within ts (round.events c) := by
    cases step with
    | none => exact hbody.scopes
    | some e => exact ((hbody.before (t := .expression e) (hs e rfl) rfl).block place).scopes
  have hloop : ∀ c, Lexical.Within ts
      ((Stmt.loop (test.getD (.literal .yes place)) round place).events c) :=
    fun c => within_append.2 ⟨htest c, hround c⟩
  cases initial with
  | none => cases step <;> exact ⟨hloop, standAt_nil _⟩
  | some s =>
    have hinitial : s.Within ts := (hi s rfl).wider (.trans (List.sublist_append_left _ _) hsub)
    have hall := (hinitial.before hloop rfl).block place
    cases step <;> exact hall

/-- The grammar puts the names of each scope where tokens stand. -/
theorem within_of_derives {g : Rules} {s : Symbol} {ts : List Token} {v : s.Tree}
    (h : Derives g s ts v) : Symbol.Within s ts v := by
  induction h with
  | noDeclaration => exact Stmt.allWithin_nil
  | nextDeclaration _ _ ihs ihss => exact ihs.cons ihss
  | skipped _ _ ih => exact ih.wider (List.sublist_append_right _ _)
  | block _ _ _ ih => exact ih.wider (by grind)
  | blockStmt _ ih => exact ih.block _
  | noParams => exact standAt_nil _
  | params hns => exact standAt_of_names hns
  | @function n _ ps ns _ bs body _ _ _ _ _ ihp ihb =>
    refine ⟨fun kind c => (within_body ihp ihb c.level _ _).wider (by grind), ?_⟩
    exact standAt_singleton.2 ⟨n, by simp, rfl⟩
  | lambda _ _ _ _ _ ihp ihb => exact fun c => (within_body ihp ihb c.level _ _).wider (by grind)
  | @classDecl w n l ts fs r _ _ _ _ _ ih =>
    have hname : ∃ t ∈ w :: n :: l :: (ts ++ [r]), t.place = n.place := ⟨n, by simp, rfl⟩
    refine ⟨fun c => ?_, standAt_singleton.2 hname⟩
    have hmethods := (ih (.members false n.place (c.declare ⟨n.name, .classWord⟩))).wider
      (show ts.Sublist (w :: n :: l :: (ts ++ [r])) by grind)
    exact within_point.2 (hmethods.builtin hname _ _)
  | @subclassDecl w n o p l ts fs r _ _ _ _ _ _ _ ih =>
    have hname : ∃ t ∈ w :: n :: o :: p :: l :: (ts ++ [r]), t.place = n.place := ⟨n, by simp, rfl⟩
    refine ⟨fun c => ?_, standAt_singleton.2 hname⟩
    have hmethods := (ih (.members true n.place (c.declare ⟨n.name, .classWord⟩))).wider
      (show ts.Sublist (w :: n :: o :: p :: l :: (ts ++ [r])) by grind)
    have hthis := hmethods.builtin hname
    exact within_point.2 (within_point.2 (within_point.2 ((hthis _ _).builtin hname _ _)))
  | @funDecl w ts f _ _ ih =>
    have hwide := List.sublist_cons_self w ts
    exact ⟨fun c => within_point.2 ((ih.scopes _ _).wider hwide), ih.own.wider hwide⟩
  | @varDecl _ n _ _ _ _ =>
    exact ⟨fun c => within_point.2 within_nil, standAt_singleton.2 ⟨n, by simp, rfl⟩⟩
  | @varDeclWith _ n _ _ _ _ _ _ _ _ _ ih =>
    refine ⟨fun c => within_point.2 ((ih _).wider (by grind)), ?_⟩
    exact standAt_singleton.2 ⟨n, by simp, rfl⟩
  | exprStmt _ _ ih | print _ _ _ ih => exact ⟨fun c => (ih c).wider (by grind), standAt_nil _⟩
  | breakOut _ _ => exact ⟨fun _ => within_nil, standAt_nil _⟩
  | @returnWith _ _ o _ _ _ _ ih =>
    cases o with
    | none => exact ⟨fun c => within_point.2 within_nil, standAt_nil _⟩
    | some e =>
      exact ⟨fun c => within_point.2 ((ih e rfl c).wider (by grind)), standAt_nil _⟩
  | forLoop _ _ _ _ _ _ _ _ ihi iht ihs ihb =>
    exact within_forLoop ihi (fun e he c => (iht e he c).wider (by grind))
      (fun e he c => (ihs e he c).wider (by grind)) ihb (by grind)
  | ifThen _ _ _ _ _ iht ihs | whileLoop _ _ _ _ _ iht ihs =>
    refine ⟨fun c => within_append.2 ⟨(iht c).wider ?_, (ihs.scopes c).wider ?_⟩, standAt_nil _⟩
    · grind
    · grind
  | ifElse _ _ _ _ _ _ _ _ iht ihs ihn =>
    refine ⟨fun c => within_append.2 ⟨within_append.2 ⟨(iht c).wider ?_, (ihs.scopes c).wider ?_⟩,
      (ihn.scopes c).wider ?_⟩, standAt_nil _⟩
    · grind
    · grind
    · grind
  | varDeclaration _ ih | plain _ ih | expression _ ih => exact ih
  | startVar _ ih | startExpression _ ih =>
    rintro s ⟨⟩
    exact ih
  | startNone _ | absent => nofun
  | present _ ih =>
    rintro e ⟨⟩
    exact ih
  | noMethod | noArgument | number _ | string _ | yes _ | no _ | nil _ =>
    exact fun _ => within_nil
  | this _ | read _ | super _ _ _ => exact fun _ => within_point.2 within_nil
  | nextMethod _ _ ihf ihfs =>
    refine fun c => within_append.2 ⟨(ihf.scopes _ c).wider ?_, (ihfs c).wider ?_⟩
    · exact List.sublist_append_left _ _
    · exact List.sublist_append_right _ _
  | single _ ih | arguments _ _ ih | value _ ih | first _ ih | tighter _ _ ih | tightest _ _ ih
  | called _ ih | primary _ ih => exact ih
  | item _ ih => exact fun c => within_append.2 ⟨ih c, within_nil⟩
  | sequence _ _ _ ihl ihr | nextItem _ _ _ ihl ihr | joined _ _ _ _ ihl ihr
  | set _ _ _ _ _ ihl ihr | call _ _ _ _ ihl ihr =>
    refine fun c => within_append.2 ⟨(ihl c).wider ?_, (ihr c).wider ?_⟩
    · exact List.sublist_append_left _ _
    · grind
  | assign _ _ _ ih =>
    exact fun c => within_append.2 ⟨(ih c).wider (by grind), within_point.2 within_nil⟩
  | not _ _ ih | negate _ _ ih | get _ _ _ ih | group _ _ _ ih =>
    exact fun c => (ih c).wider (by grind)

end Grammar

/-! ## Sources -/

open Phrase Grammar

/-- In each scope of a program the names stand one behind the other. -/
theorem Program.scopes_ofTokens {ts : List Token}
    (h : (Token.beforeFinish ts).1.Pairwise fun t u => t.place.Before u.place) :
    ∀ k ∈ Stmt.closings (Program.ofTokens ts).statements,
      k.declared.Pairwise fun d e => d.name.place.Before e.name.place := by
  unfold Program.ofTokens
  dsimp only
  split
  · rename_i statements c hd
    obtain ⟨us, ms, ⟨hts, -⟩, hr⟩ := (reads_declarations true _).ok hd
    have hwithin : Stmt.AllWithin us statements := within_of_derives (hr (.inl rfl))
    have hsub : us.Sublist (Token.beforeFinish ts).1 := by
      rw [show (Token.beforeFinish ts).1 = us ++ c.rest from hts]
      exact List.sublist_append_left _ _
    intro k hk
    have hstand := hwithin.scopes (.outermost []) k hk
    have hplaces := ((List.pairwise_map.2 (h.sublist hsub)).sublist hstand)
    rwa [List.map_map, List.pairwise_map] at hplaces
  · exact nofun

end LoxLang
