import LoxLang.Proofs.Grammar.Recovery
import LoxLang.Proofs.Splitting.Tokens

/-!
# Trees of two sources

The grammar does not look at places: it gives moved tokens the moved tree (`Derives.moved`),
and the declarations of two lists one after the other (`Derives.append`). So two programs that
nothing is amiss in make one that nothing is amiss in (`Program.ofTokens_joined`). All places
of a tree are those of its tokens (`moved_of_derives`).
-/

namespace LoxLang

open Grammar

variable {g : Rules} (f : Place → Place)

/-! ## Moved trees -/

/-- What is read as the symbol, with all its places moved. -/
def Symbol.moved : (s : Symbol) → s.Tree → s.Tree
  | .declarations, ss => Stmt.allMoved f ss
  | .block, ss => Stmt.allMoved f ss
  | .declaration, s => s.moved f
  | .varDecl, s => s.moved f
  | .statement _, s => s.moved f
  | .exprStmt, s => s.moved f
  | .forStart, o => o.map (·.moved f)
  | .methods, fs => Function.allMoved f fs
  | .function, h => h.moved f
  | .params, ns => ns.map (·.moved f)
  | .optional, o => o.map (·.moved f)
  | .items, es => Expr.allMoved f es
  | .arguments, es => Expr.allMoved f es
  | .expression, e => e.moved f
  | .assignment, e => e.moved f
  | .operators _, e => e.moved f
  | .operand _, e => e.moved f
  | .unary, e => e.moved f
  | .call, e => e.moved f
  | .primary, e => e.moved f

theorem Stmt.moved_forLoop (place : Place) (initial : Option Stmt) (test step : Option Expr)
    (body : Stmt) : (Stmt.forLoop place initial test step body).moved f =
      .forLoop (f place) (initial.map (·.moved f)) (test.map (·.moved f)) (step.map (·.moved f))
        (body.moved f) := by
  cases initial <;> cases test <;> cases step <;> rfl

theorem Stmt.moved_returnWith (value : Option Expr) (place : Place) :
    (Stmt.returnWith value place).moved f = .returnWith (value.map (·.moved f)) (f place) := by
  cases value <;> rfl

theorem Names.moved {ts : List Token} {ns : List Name} (h : Names ts ns) :
    Names (ts.map (·.moved f)) (ns.map (·.moved f)) := by
  induction h with
  | one ht => exact .one ht
  | more ht hc _ ih => exact .more ht hc ih

/-- Moved tokens have the moved tree. -/
theorem Derives.moved {s : Symbol} {ts : List Token} {v : s.Tree} (h : Derives g s ts v) :
    Derives g s (ts.map (·.moved f)) (s.moved f v) := by
  induction h with
  | noDeclaration => exact .noDeclaration
  | nextDeclaration _ _ ihs ihss =>
    rw [List.map_append]
    exact .nextDeclaration ihs ihss
  | skipped hg _ ih =>
    rw [List.map_append]
    exact .skipped hg ih
  | classDecl hw hn hl _ hr ih =>
    simp only [List.map_append, List.map_cons, List.map_nil]
    exact .classDecl hw hn hl ih hr
  | subclassDecl hw hn ho hp hl _ hr ih =>
    simp only [List.map_append, List.map_cons, List.map_nil]
    exact .subclassDecl hw hn ho hp hl ih hr
  | funDecl hw _ ih => exact .funDecl hw ih
  | varDeclaration _ ih => exact .varDeclaration ih
  | plain _ ih => exact .plain ih
  | varDecl hw hn he => exact .varDecl hw hn he
  | varDeclWith hw hn hq _ he ih =>
    simp only [List.map_append, List.map_cons, List.map_nil]
    exact .varDeclWith hw hn hq ih he
  | noMethod => exact .noMethod
  | nextMethod _ _ ihf ihfs =>
    rw [List.map_append]
    exact .nextMethod ihf ihfs
  | function hn hl _ hr _ ihp ihb =>
    simp only [List.map_append, List.map_cons]
    exact .function hn hl ihp hr ihb
  | noParams => exact .noParams
  | params hns hlen => exact .params (hns.moved f) (by simpa [Symbol.moved] using hlen)
  | block hl _ hr ih =>
    simp only [List.map_append, List.map_cons, List.map_nil]
    exact .block hl ih hr
  | exprStmt _ he ih =>
    simp only [List.map_append, List.map_cons, List.map_nil]
    exact .exprStmt ih he
  | expression _ ih => exact .expression ih
  | forLoop hw hl _ _ hm _ hr _ ihi iht ihs ihb =>
    simp only [List.map_append, List.map_cons]
    rw [Symbol.moved, Stmt.moved_forLoop]
    exact .forLoop hw hl ihi iht hm ihs hr ihb
  | startNone he => exact .startNone he
  | startVar _ ih => exact .startVar ih
  | startExpression _ ih => exact .startExpression ih
  | ifThen hw hl _ hr _ iht ihs =>
    simp only [List.map_append, List.map_cons]
    exact .ifThen hw hl iht hr ihs
  | ifElse hw hl _ hr _ ho he _ iht ihs ihn =>
    simp only [List.map_append, List.map_cons]
    exact .ifElse hw hl iht hr ihs ho he ihn
  | whileLoop hw hl _ hr _ iht ihs =>
    simp only [List.map_append, List.map_cons]
    exact .whileLoop hw hl iht hr ihs
  | print hw _ he ih =>
    simp only [List.map_append, List.map_cons, List.map_nil]
    exact .print hw ih he
  | returnWith hw _ he ih =>
    simp only [List.map_append, List.map_cons, List.map_nil]
    rw [Symbol.moved, Stmt.moved_returnWith]
    exact .returnWith hw ih he
  | breakOut hw he => exact .breakOut hw he
  | blockStmt _ ih => exact .blockStmt ih
  | absent => exact .absent
  | present _ ih => exact .present ih
  | single _ ih => exact .single ih
  | sequence _ hc _ ih ihs =>
    simp only [List.map_append, List.map_cons]
    exact .sequence ih hc ihs
  | item _ ih => exact .item ih
  | nextItem _ hc _ ih ihs =>
    simp only [List.map_append, List.map_cons]
    exact .nextItem ih hc ihs
  | noArgument => exact .noArgument
  | arguments _ hlen ih =>
    refine .arguments ih ?_
    simpa [Symbol.moved, Expr.allMoved_eq_map] using hlen
  | assign hn hq _ ih => exact .assign hn hq ih
  | set _ hd hn hq _ ih ihv =>
    simp only [List.map_append, List.map_cons]
    exact .set ih hd hn hq ihv
  | value _ ih => exact .value ih
  | first _ ih => exact .first ih
  | joined _ ho ht _ ihl ihr =>
    simp only [List.map_append, List.map_cons]
    exact .joined ihl ho ht ihr
  | tighter hr _ ih => exact .tighter hr ih
  | tightest hr _ ih => exact .tightest hr ih
  | not ht _ ih => exact .not ht ih
  | negate ht _ ih => exact .negate ht ih
  | called _ ih => exact .called ih
  | primary _ ih => exact .primary ih
  | call _ hl _ hr ih ihs =>
    simp only [List.map_append, List.map_cons, List.map_nil]
    exact .call ih hl ihs hr
  | get _ hd hn ih =>
    simp only [List.map_append, List.map_cons, List.map_nil]
    exact .get ih hd hn
  | number hk => exact .number hk
  | string hk => exact .string hk
  | yes ht => exact .yes ht
  | no ht => exact .no ht
  | nil ht => exact .nil ht
  | this ht => exact .this ht
  | read ht => exact .read ht
  | group hl _ hr ih =>
    simp only [List.map_append, List.map_cons, List.map_nil]
    exact .group hl ih hr
  | super hw hd hn => exact .super hw hd hn
  | lambda hw hl _ hr _ ihp ihb =>
    simp only [List.map_append, List.map_cons]
    exact .lambda hw hl ihp hr ihb

theorem Names.moved_eq {ts : List Token} {ns : List Name} (h : Names ts ns)
    (hts : ∀ t ∈ ts, f t.place = t.place) : ns.map (·.moved f) = ns := by
  induction h with
  | one ht => simp_all [Token.name, Name.moved]
  | more ht hc _ ih => simp_all [Token.name, Name.moved]

/-- A tree stands where its tokens do. -/
theorem moved_of_derives {s : Symbol} {ts : List Token} {v : s.Tree} (h : Derives g s ts v)
    (hts : ∀ t ∈ ts, f t.place = t.place) : s.moved f v = v := by
  induction h with
  | noDeclaration | noMethod | noParams | absent | noArgument => rfl
  | params hns _ => exact hns.moved_eq f hts
  | forLoop =>
    rw [Symbol.moved, Stmt.moved_forLoop]
    simp_all [Symbol.moved]
  | returnWith =>
    rw [Symbol.moved, Stmt.moved_returnWith]
    simp_all [Symbol.moved]
  | _ =>
    simp_all [Symbol.moved, Expr.moved, Expr.allMoved, Stmt.moved, Stmt.allMoved, Function.moved,
      Function.allMoved, Token.name, Name.reference, Name.moved, Reference.moved]

/-! ## Programs -/

/-- Declarations with more of them behind. -/
theorem Derives.append {ts us : List Token} {ss rest : List Stmt}
    (h : Derives g .declarations ts ss) (h' : Derives g .declarations us rest) :
    Derives g .declarations (ts ++ us) (ss ++ rest) := by
  -- of all symbols the induction is about declarations only
  let motive : (s : Symbol) → List Token → s.Tree → Prop
    | .declarations, ts, ss => Derives g .declarations (ts ++ us) (ss ++ rest)
    | _, _, _ => True
  suffices hall : ∀ {s ts v}, Derives g s ts v → motive s ts v from hall h
  intro s ts v h
  induction h with
  | noDeclaration => exact h'
  | nextDeclaration hs _ _ ih =>
    show Derives g .declarations _ _
    rw [List.append_assoc]
    exact .nextDeclaration hs ih
  | skipped hg _ ih =>
    show Derives g .declarations _ _
    rw [List.append_assoc]
    exact .skipped hg ih
  | _ => trivial

namespace Program

variable {file : String}

/-- The program of a source with nothing amiss in it. -/
theorem ofScan_eq_iff {source : String} {ss : List Stmt} :
    ofTokens (Token.scan file source).1 = ⟨ss, []⟩ ↔
      Derives (reading false) .declarations (Token.body file source) ss := by
  rw [Token.scan_eq_body]
  exact ofTokens_eq_iff Token.isFinish_of_mem_body rfl ss

/-- In another file a source is the same program there. -/
theorem ofTokens_file {source : String} {ss : List Stmt}
    (h : ofTokens (Token.scan file source).1 = ⟨ss, []⟩) (file' : String) :
    ofTokens (Token.scan file' source).1 = ⟨Stmt.allMoved (Place.shift file' 0) ss, []⟩ := by
  rw [ofScan_eq_iff, Token.body_file file]
  exact (ofScan_eq_iff.1 h).moved _

/-- **Two programs, one line end.** -/
theorem ofTokens_joined {first second : String} {ss tt : List Stmt}
    (hscan : (Token.scan file first).2 = [])
    (h : ofTokens (Token.scan file first).1 = ⟨ss, []⟩)
    (h' : ofTokens (Token.scan file second).1 = ⟨tt, []⟩) :
    ofTokens (Token.scan file (first ++ "\n" ++ second)).1 =
      ⟨ss ++ Stmt.allMoved (Place.shift file (1 + first.toList.count '\n')) tt, []⟩ := by
  rw [ofScan_eq_iff, Token.body_joined hscan]
  exact (ofScan_eq_iff.1 h).append ((ofScan_eq_iff.1 h').moved _)

/-- What is read of a source names its file, also if misfits stand in between. -/
theorem moved_ofTokens (file source : String) :
    Stmt.allMoved (Place.shift file 0) (ofTokens (Token.scan file source).1).statements =
      (ofTokens (Token.scan file source).1).statements := by
  rw [Token.scan_eq_body]
  have hfinish : (Token.finish file source).isFinish := rfl
  obtain ⟨ts, hts, h⟩ := statements_derives Token.isFinish_of_mem_body hfinish
  exact moved_of_derives _ h fun t ht => Token.moved_of_mem_body t (hts.subset ht)

end Program

theorem Expr.moved_ofTokens {file source : String} {e : Expr}
    (h : Expr.ofTokens (Token.scan file source).1 = .ok e) : e.moved (Place.shift file 0) = e :=
  moved_of_derives _ (Expr.derives_of_ofTokens h) Token.moved_of_mem_body

end LoxLang
