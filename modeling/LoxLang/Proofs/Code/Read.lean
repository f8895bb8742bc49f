import LoxLang.Proofs.Code.Codes
import LoxLang.Proofs.Token.Places

/-!
# Breaks of what is read

Each `break` of a tree stands where a token of its own does, so no two of them stand at one
place. `apart_of_derives` says so of every tree that the grammar gives to tokens at different
places; resolving a tree moves none of them.
-/

namespace LoxLang

open Scoping

mutual

/-- Where the `break`s stand does not depend on what is around them. -/
theorem Stmt.places_breaks (s : Stmt) (b c : Bool) :
    (s.breaks b).map Prod.fst = (s.breaks c).map Prod.fst := by
  match s with
  | .block body _ => exact Stmt.places_allBreaks body b c
  | .branch _ yes none _ => exact yes.places_breaks b c
  | .branch _ yes (some no) _ =>
    rw [Stmt.breaks, Stmt.breaks, List.map_append, List.map_append, yes.places_breaks b c,
      no.places_breaks b c]
  | .loop _ _ _ | .breakOut _ | .expression _ | .print _ _ | .declare _ _ | .function _
  | .returnWith _ _ | .classDecl _ _ _ => rfl

theorem Stmt.places_allBreaks (ss : List Stmt) (b c : Bool) :
    (Stmt.allBreaks b ss).map Prod.fst = (Stmt.allBreaks c ss).map Prod.fst := by
  match ss with
  | [] => rfl
  | s :: ss =>
    rw [Stmt.allBreaks, Stmt.allBreaks, List.map_append, List.map_append, s.places_breaks b c,
      Stmt.places_allBreaks ss b c]

end

/-! ## Trees that are read -/

/-- No function has two `break`s at one place. -/
def Code.AllApart (cs : List Code) : Prop := ∀ c ∈ cs, Stmt.BreaksApart c.body

@[simp] theorem Code.allApart_nil : Code.AllApart [] := by simp [Code.AllApart]

@[simp] theorem Code.allApart_append {cs ds : List Code} :
    Code.AllApart (cs ++ ds) ↔ Code.AllApart cs ∧ Code.AllApart ds := List.forall_mem_append

@[simp] theorem Code.allApart_cons {c : Code} {cs : List Code} :
    Code.AllApart (c :: cs) ↔ Stmt.BreaksApart c.body ∧ Code.AllApart cs := List.forall_mem_cons

/-- The statement's own `break`s stand at tokens, and those of its functions are apart. -/
structure Stmt.Apart (ts : List Token) (s : Stmt) : Prop where
  codes : Code.AllApart s.codes
  places : ((s.breaks false).map Prod.fst).Sublist (ts.map Token.place)

/-- The statements' own `break`s stand at tokens, and those of their functions are apart. -/
structure Stmt.AllApart (ts : List Token) (ss : List Stmt) : Prop where
  codes : Code.AllApart (Stmt.allCodes ss)
  places : ((Stmt.allBreaks false ss).map Prod.fst).Sublist (ts.map Token.place)

theorem Stmt.allApart_nil : Stmt.AllApart [] [] := ⟨Code.allApart_nil, .slnil⟩

/-- No two `break` statements stand at one place if no two tokens do. -/
theorem Stmt.AllApart.breaks {ts : List Token} {ss : List Stmt} (h : Stmt.AllApart ts ss)
    (hts : (ts.map Token.place).Nodup) : Stmt.BreaksApart ss := h.places.nodup hts

theorem Stmt.AllApart.wider {ts us : List Token} {ss : List Stmt} (h : Stmt.AllApart ts ss)
    (hs : ts.Sublist us) : Stmt.AllApart us ss := ⟨h.codes, h.places.trans (hs.map _)⟩

theorem Stmt.Apart.wider {ts us : List Token} {s : Stmt} (h : s.Apart ts) (hs : ts.Sublist us) :
    s.Apart us := ⟨h.codes, h.places.trans (hs.map _)⟩

/-- A statement read from some tokens and statements read from others are apart together. -/
theorem Stmt.Apart.cons {ts us : List Token} {s : Stmt} {ss : List Stmt} (h : s.Apart ts)
    (h' : Stmt.AllApart us ss) : Stmt.AllApart (ts ++ us) (s :: ss) where
  codes := Code.allApart_append.2 ⟨h.codes, h'.codes⟩
  places := by
    rw [Stmt.allBreaks, List.map_append, List.map_append]
    exact h.places.append h'.places

namespace Grammar

/-- What the tree of each phrase is like. -/
def Symbol.Apart : (s : Symbol) → List Token → s.Tree → Prop
  | .declarations, ts, ss => Stmt.AllApart ts ss
  | .block, ts, ss => Stmt.AllApart ts ss
  | .declaration, ts, s => s.Apart ts
  | .varDecl, ts, s => s.Apart ts
  | .statement _, ts, s => s.Apart ts
  | .exprStmt, ts, s => s.Apart ts
  | .forStart, ts, o => ∀ s ∈ o, s.Apart ts
  | .methods, _, fs => Code.AllApart (Function.allCodes fs)
  | .function, _, f => Code.AllApart f.codes
  | .params, _, _ => True
  | .optional, _, o => ∀ e ∈ o, Code.AllApart e.codes
  | .items, _, es => Code.AllApart (Expr.allCodes es)
  | .arguments, _, es => Code.AllApart (Expr.allCodes es)
  | .expression, _, e => Code.AllApart e.codes
  | .assignment, _, e => Code.AllApart e.codes
  | .operators _, _, e => Code.AllApart e.codes
  | .operand _, _, e => Code.AllApart e.codes
  | .unary, _, e => Code.AllApart e.codes
  | .call, _, e => Code.AllApart e.codes
  | .primary, _, e => Code.AllApart e.codes

/-- A statement without `break`s of its own. -/
theorem apart_of_codes {s : Stmt} (h : Code.AllApart s.codes) (hb : s.breaks false = [])
    (ts : List Token) : s.Apart ts := ⟨h, by simp [hb]⟩

/-- A loop is apart when its parts are: the block that the increment is put into has no place of its
own. -/
theorem apart_forLoop {place : Place} {initial : Option Stmt} {test step : Option Expr}
    {body : Stmt} {is bs : List Token} (hi : ∀ s ∈ initial, s.Apart is)
    (ht : ∀ e ∈ test, Code.AllApart e.codes) (hs : ∀ e ∈ step, Code.AllApart e.codes)
    (hb : body.Apart bs) : (Stmt.forLoop place initial test step body).Apart (is ++ bs) := by
  have htest : Code.AllApart (test.getD (.literal .yes place)).codes := by
    cases test with
    | none => exact Code.allApart_nil
    | some e => exact ht e rfl
  -- the body with the step behind it, and the loop around them
  let round : Stmt := match step with
    | some step => .block [body, .expression step] place
    | none => body
  have hround : round.Apart bs := by
    cases step with
    | none => exact hb
    | some e =>
      have hstep := Code.allApart_append.2 ⟨hs e rfl, Code.allApart_nil⟩
      refine ⟨Code.allApart_append.2 ⟨hb.codes, hstep⟩, ?_⟩
      simpa [round, Stmt.breaks, Stmt.allBreaks] using hb.places
  have hloop : (Stmt.loop (test.getD (.literal .yes place)) round place).Apart bs :=
    ⟨Code.allApart_append.2 ⟨htest, hround.codes⟩, by
      rw [Stmt.breaks, round.places_breaks true false]
      exact hround.places⟩
  cases initial with
  | none =>
    have hwide := hloop.wider (List.sublist_append_right is bs)
    cases step <;> exact hwide
  | some s =>
    have hall := (hi s rfl).cons (hloop.cons Stmt.allApart_nil)
    rw [List.append_nil] at hall
    cases step <;> exact ⟨hall.codes, hall.places⟩

/-- The grammar keeps the `break`s apart of tokens at different places. -/
theorem apart_of_derives {g : Rules} {s : Symbol} {ts : List Token} {v : s.Tree}
    (h : Derives g s ts v) (hts : (ts.map Token.place).Nodup) : Symbol.Apart s ts v := by
  induction h with
  | noDeclaration => exact Stmt.allApart_nil
  | nextDeclaration _ _ ihs ihss =>
    rw [List.map_append, List.nodup_append] at hts
    exact (ihs hts.1).cons (ihss hts.2.1)
  | skipped _ _ ih =>
    rw [List.map_append, List.nodup_append] at hts
    exact (ih hts.2.1).wider (List.sublist_append_right _ _)
  | block _ _ _ ih =>
    simp only [List.map_cons, List.map_append, List.nodup_cons, List.nodup_append] at hts
    exact (ih hts.2.1).wider ((List.sublist_append_left _ _).cons _)
  | blockStmt _ ih => exact ⟨(ih hts).codes, (ih hts).places⟩
  | @forLoop w l is _ cs _ m ss _ r _ bs _ _ _ _ _ _ _ _ _ ihi iht ihs ihb =>
    simp only [List.map_cons, List.map_append, List.nodup_cons, List.nodup_append] at hts
    obtain ⟨-, -, hi, ⟨hc, ⟨-, hs, ⟨-, hb⟩, -⟩, -⟩, -⟩ := hts
    have hsub : bs.Sublist (cs ++ m :: (ss ++ r :: bs)) :=
      .trans (.cons _ (.trans (List.sublist_cons_self _ _) (List.sublist_append_right _ _)))
        (List.sublist_append_right _ _)
    refine (apart_forLoop (ihi hi) (iht hc) (ihs hs) (ihb hb)).wider (.cons _ (.cons _ ?_))
    exact (List.Sublist.refl _).append hsub
  | @ifThen w l cs _ r _ ts _ _ _ _ _ _ iht ihs =>
    simp only [List.map_cons, List.map_append, List.nodup_cons, List.nodup_append] at hts
    obtain ⟨-, -, ht, ⟨-, hs⟩, -⟩ := hts
    have hsub : ts.Sublist (w :: l :: (cs ++ r :: ts)) :=
      .cons _ (.cons _ (.trans (List.sublist_cons_self _ _) (List.sublist_append_right _ _)))
    have hyes := (ihs hs).wider hsub
    exact ⟨Code.allApart_append.2 ⟨iht ht, hyes.codes⟩, hyes.places⟩
  | @ifElse w l cs _ r _ ts yes e _ us no _ _ _ _ _ _ _ _ iht ihs ihn =>
    simp only [List.map_cons, List.map_append, List.nodup_cons, List.nodup_append] at hts
    obtain ⟨-, -, ht, ⟨-, hs, ⟨-, hn⟩, -⟩, -⟩ := hts
    have hsub : (ts ++ us).Sublist (w :: l :: (cs ++ r :: (ts ++ e :: us))) := by
      refine .cons _ (.cons _ (.trans (.cons _ ?_) (List.sublist_append_right _ _)))
      exact (List.Sublist.refl _).append (List.sublist_cons_self _ _)
    have hboth := (ihs hs).cons ((ihn hn).cons Stmt.allApart_nil)
    rw [List.append_nil] at hboth
    have hplaces := (hboth.wider hsub).places
    simp only [Stmt.allBreaks, List.append_nil] at hplaces
    refine ⟨?_, hplaces⟩
    exact Code.allApart_append.2 ⟨Code.allApart_append.2 ⟨iht ht, (ihs hs).codes⟩, (ihn hn).codes⟩
  | @whileLoop w l cs _ r _ ts _ _ _ _ _ _ iht ihs =>
    simp only [List.map_cons, List.map_append, List.nodup_cons, List.nodup_append] at hts
    obtain ⟨-, -, ht, ⟨-, hs⟩, -⟩ := hts
    have hsub : ts.Sublist (w :: l :: (cs ++ r :: ts)) :=
      .cons _ (.cons _ (.trans (List.sublist_cons_self _ _) (List.sublist_append_right _ _)))
    have hbody := (ihs hs).wider hsub
    refine ⟨Code.allApart_append.2 ⟨iht ht, hbody.codes⟩, ?_⟩
    rw [Stmt.breaks, Stmt.places_breaks _ true false]
    exact hbody.places
  | breakOut _ _ => exact ⟨Code.allApart_nil, by simp [Stmt.breaks]⟩
  | @returnWith _ _ o _ _ _ _ ih =>
    simp only [List.map_cons, List.map_append, List.nodup_cons, List.nodup_append] at hts
    cases o with
    | none => exact apart_of_codes (s := .returnWith none _) Code.allApart_nil rfl _
    | some e => exact apart_of_codes (s := .returnWith (some e) _) (ih hts.2.1 e rfl) rfl _
  | function _ _ _ _ _ _ ihb | lambda _ _ _ _ _ _ ihb =>
    simp only [List.map_cons, List.map_append, List.nodup_cons, List.nodup_append] at hts
    obtain ⟨-, -, -, ⟨-, hb⟩, -⟩ := hts
    have hbody := ihb hb
    exact Code.allApart_cons.2 ⟨hbody.breaks hb, hbody.codes⟩
  | classDecl _ _ _ _ _ ih | subclassDecl _ _ _ _ _ _ _ ih =>
    simp only [List.map_cons, List.map_append, List.nodup_cons, List.nodup_append] at hts
    exact apart_of_codes (s := .classDecl _ _ _) (ih (by tauto)) rfl _
  | funDecl _ _ ih =>
    rw [List.map_cons, List.nodup_cons] at hts
    exact apart_of_codes (s := .function _) (ih hts.2) rfl _
  | varDecl _ _ _ => exact apart_of_codes (s := .declare _ none) Code.allApart_nil rfl _
  | varDeclWith _ _ _ _ _ ih =>
    simp only [List.map_cons, List.map_append, List.nodup_cons, List.nodup_append] at hts
    exact apart_of_codes (s := .declare _ (some _)) (ih hts.2.2.2.1) rfl _
  | exprStmt _ _ ih =>
    simp only [List.map_append, List.nodup_append] at hts
    exact apart_of_codes (s := .expression _) (ih hts.1) rfl _
  | print _ _ _ ih =>
    simp only [List.map_cons, List.map_append, List.nodup_cons, List.nodup_append] at hts
    exact apart_of_codes (s := .print _ _) (ih hts.2.1) rfl _
  | varDeclaration _ ih | plain _ ih | expression _ ih => exact ih hts
  | startVar _ ih | startExpression _ ih =>
    rintro s ⟨⟩
    exact ih hts
  | _ =>
    simp_all [Symbol.Apart, Expr.codes, Expr.allCodes, Function.allCodes, List.nodup_append]

end Grammar

/-! ## Resolving -/

mutual

/-- Depths have nothing to do with `break`s. -/
theorem Stmt.breaks_resolve (s : Stmt) (b : Bool) (w : Walk) :
    (s.resolve w).1.breaks b = s.breaks b := by
  match s with
  | .block body _ => exact Stmt.allBreaks_resolve body b _
  | .branch _ yes none _ => exact yes.breaks_resolve b _
  | .branch _ yes (some no) _ =>
    exact congrArg₂ (· ++ ·) (yes.breaks_resolve b _) (no.breaks_resolve b _)
  | .loop _ body _ => exact body.breaks_resolve true _
  | .returnWith none _ => rw [Stmt.resolve_return]
  | .returnWith (some _) _ =>
    rw [Stmt.resolve_returnWith]
    rfl
  | .classDecl _ (some _) _ =>
    rw [Stmt.resolve_subclass]
    rfl
  | .breakOut _ | .expression _ | .print _ _ | .declare _ none | .declare _ (some _)
  | .function (.mk _ _ _) | .classDecl _ none _ => rfl

theorem Stmt.allBreaks_resolve (ss : List Stmt) (b : Bool) (w : Walk) :
    Stmt.allBreaks b (Stmt.resolveAll ss w).1 = Stmt.allBreaks b ss := by
  match ss with
  | [] => rfl
  | s :: ss => exact congrArg₂ (· ++ ·) (s.breaks_resolve b w) (Stmt.allBreaks_resolve ss b _)

end

theorem Stmt.breaksApart_resolve {ss : List Stmt} (h : Stmt.BreaksApart ss) (w : Walk) :
    Stmt.BreaksApart (Stmt.resolveAll ss w).1 := by
  rw [Stmt.BreaksApart, Stmt.allBreaks_resolve]
  exact h

open Code (allApart_nil allApart_append allApart_cons)

mutual

theorem Expr.allApart_resolve (e : Expr) (w : Walk) (h : Code.AllApart e.codes) :
    Code.AllApart (e.resolve w).1.codes := by
  match e with
  | .literal _ _ => exact h
  | .group e _ => exact e.allApart_resolve w h
  | .unary _ e _ => exact e.allApart_resolve w h
  | .binary _ l r _ =>
    have h := allApart_append.1 h
    exact allApart_append.2 ⟨l.allApart_resolve w h.1, r.allApart_resolve _ h.2⟩
  | .sequence es _ => exact Expr.allApart_resolveAll es w h
  | .read r =>
    rw [Expr.resolve_read]
    exact h
  | .assign r e =>
    rw [Expr.resolve_assign]
    exact e.allApart_resolve w h
  | .call f es _ =>
    have h := allApart_append.1 h
    exact allApart_append.2 ⟨f.allApart_resolve w h.1, Expr.allApart_resolveAll es _ h.2⟩
  | .lambda params body _ =>
    have h := allApart_cons.1 h
    exact allApart_cons.2 ⟨Stmt.breaksApart_resolve h.1 _, Stmt.allApart_resolveAll body _ h.2⟩
  | .get e _ => exact e.allApart_resolve w h
  | .set e _ v =>
    have h := allApart_append.1 h
    exact allApart_append.2 ⟨e.allApart_resolve w h.1, v.allApart_resolve _ h.2⟩
  | .this _ _ =>
    rw [Expr.resolve_this]
    split <;> exact allApart_nil
  | .super _ _ _ =>
    rw [Expr.resolve_super]
    split <;> exact allApart_nil

theorem Expr.allApart_resolveAll (es : List Expr) (w : Walk)
    (h : Code.AllApart (Expr.allCodes es)) :
    Code.AllApart (Expr.allCodes (Expr.resolveAll es w).1) := by
  match es with
  | [] => exact h
  | e :: es =>
    have h := allApart_append.1 h
    exact allApart_append.2 ⟨e.allApart_resolve w h.1, Expr.allApart_resolveAll es _ h.2⟩

theorem Stmt.allApart_resolve (s : Stmt) (w : Walk) (h : Code.AllApart s.codes) :
    Code.AllApart (s.resolve w).1.codes := by
  match s with
  | .expression e => exact e.allApart_resolve w h
  | .print e _ => exact e.allApart_resolve w h
  | .declare _ none => exact h
  | .declare _ (some e) => exact e.allApart_resolve _ h
  | .block body _ => exact Stmt.allApart_resolveAll body _ h
  | .branch test yes none _ =>
    have h := allApart_append.1 h
    exact allApart_append.2 ⟨test.allApart_resolve w h.1, yes.allApart_resolve _ h.2⟩
  | .branch test yes (some no) _ =>
    have h := allApart_append.1 h
    have h' := allApart_append.1 h.1
    exact allApart_append.2 ⟨allApart_append.2 ⟨test.allApart_resolve w h'.1,
      yes.allApart_resolve _ h'.2⟩, no.allApart_resolve _ h.2⟩
  | .loop test body _ =>
    have h := allApart_append.1 h
    exact allApart_append.2 ⟨test.allApart_resolve w h.1, body.allApart_resolve _ h.2⟩
  | .breakOut _ => exact h
  | .function f => exact f.allApart_resolve _ _ h
  | .returnWith none _ =>
    rw [Stmt.resolve_return]
    exact h
  | .returnWith (some e) _ =>
    rw [Stmt.resolve_returnWith]
    exact e.allApart_resolve _ h
  | .classDecl _ none methods => exact Function.allApart_resolveAll methods _ h
  | .classDecl _ (some _) methods =>
    rw [Stmt.resolve_subclass]
    exact Function.allApart_resolveAll methods _ h

theorem Stmt.allApart_resolveAll (ss : List Stmt) (w : Walk)
    (h : Code.AllApart (Stmt.allCodes ss)) :
    Code.AllApart (Stmt.allCodes (Stmt.resolveAll ss w).1) := by
  match ss with
  | [] => exact h
  | s :: ss =>
    have h := allApart_append.1 h
    exact allApart_append.2 ⟨s.allApart_resolve w h.1, Stmt.allApart_resolveAll ss _ h.2⟩

theorem Function.allApart_resolve (f : Function) (kind : FunctionKind) (w : Walk)
    (h : Code.AllApart f.codes) : Code.AllApart (f.resolve kind w).1.codes := by
  match f with
  | .mk _ _ body =>
    have h := allApart_cons.1 h
    exact allApart_cons.2 ⟨Stmt.breaksApart_resolve h.1 _, Stmt.allApart_resolveAll body _ h.2⟩

theorem Function.allApart_resolveAll (fs : List Function) (w : Walk)
    (h : Code.AllApart (Function.allCodes fs)) :
    Code.AllApart (Function.allCodes (Function.resolveAll fs w).1) := by
  match fs with
  | [] => exact h
  | f :: fs =>
    have h := allApart_append.1 h
    exact allApart_append.2 ⟨f.allApart_resolve _ w h.1, Function.allApart_resolveAll fs _ h.2⟩

end

/-! ## Sources -/

open Phrase Grammar

/-- Whatever is read from tokens at different places, no two `break` statements in it share a place.
-/
theorem Program.apart_ofTokens {ts : List Token}
    (h : ((Token.beforeFinish ts).1.map Token.place).Nodup) :
    Stmt.BreaksApart (Program.ofTokens ts).statements ∧
      Code.AllApart (Stmt.allCodes (Program.ofTokens ts).statements) := by
  unfold Program.ofTokens
  dsimp only
  split
  · rename_i statements c hd
    obtain ⟨us, ms, ⟨hts, -⟩, hr⟩ := (reads_declarations true _).ok hd
    rw [show (Token.beforeFinish ts).1 = us ++ c.rest from hts, List.map_append,
      List.nodup_append] at h
    have hapart : Stmt.AllApart us statements := apart_of_derives (hr (.inl rfl)) h.1
    exact ⟨hapart.breaks h.1, hapart.codes⟩
  · exact ⟨.nil, allApart_nil⟩

theorem Expr.apart_ofTokens {ts : List Token}
    (h : ((Token.beforeFinish ts).1.map Token.place).Nodup) {e : Expr}
    (he : Expr.ofTokens ts = .ok e) : Code.AllApart e.codes :=
  apart_of_derives (Expr.derives_of_ofTokens he) h

end LoxLang
