import Mathlib
import LoxLang.Proofs.Splitting.Checked

/-!
# An expression as a program

An expression followed by a line end and a semicolon is a program of one statement. Here the
way back is gone: if such a text is a program with nothing wrong in it, then nothing is wrong
with the expression, and a host makes the same of both.
-/

namespace LoxLang

/-! ## Regions that stay open -/

namespace Region

theorem Closes.getLast? {depth : Nat} {cs : List Char} (h : Closes (depth + 1) cs) :
    cs.getLast? = some '/' := by
  generalize hd : depth + 1 = d at h
  induction h generalizing depth with
  | done => cases hd
  | @close d cs h ih =>
    cases d with
    | zero =>
      cases h
      rfl
    | succ d => rw [List.getLast?_cons_cons, List.getLast?_cons, ih rfl, Option.getD_some]
  | nest h ih => rw [List.getLast?_cons_cons, List.getLast?_cons, ih rfl, Option.getD_some]
  | other hc ho h ih => rw [List.getLast?_cons, ih hd, Option.getD_some]

/-- A region that is not closed takes all the rest of its source. -/
theorem Cut.rest_eq_nil {text rest : List Char} {p : Piece} (h : Cut text rest p)
    (hp : ¬ p.Closed) : rest = [] := by
  cases h with
  | openString | openComment => rfl
  | _ => exact absurd (by simp [Piece.Closed]) hp

/-- It takes what is put behind it, too, if no quote or slash is in that. -/
theorem Cut.extended {text : List Char} {p : Piece} (h : Cut text [] p) (hp : ¬ p.Closed)
    {more : List Char} (hquote : '"' ∉ more) (hslash : '/' ∉ more) : Cut (text ++ more) [] p := by
  cases h with
  | openString hcs => exact .openString (by simp [hcs, hquote])
  | @openComment cs hcs =>
    refine .openComment fun front hfront hclosed => ?_
    rcases List.prefix_or_prefix_of_prefix hfront (List.prefix_append cs more) with hf | ⟨tail, rfl⟩
    · exact hcs front hf hclosed
    · have htail : tail <+: more := (List.prefix_append_right_inj cs).1 hfront
      have hlast := hclosed.getLast?
      rw [List.getLast?_append] at hlast
      cases ht : tail.getLast? with
      | none =>
        rw [List.getLast?_eq_none_iff] at ht
        subst ht
        rw [List.append_nil] at hclosed
        exact hcs cs (List.prefix_refl cs) hclosed
      | some c =>
        rw [ht] at hlast
        cases hlast
        exact hslash (htail.subset (List.mem_of_getLast? ht))
  | _ => exact absurd (by simp [Piece.Closed]) hp

/-- A problem of a source is one still if a line end and more follow, without quotes and
slashes. -/
theorem Splits.sound_of_joined {cs : List Char} {rs : List Region} (hr : Splits cs rs)
    (ds : List Char) (hquote : '"' ∉ ds) (hslash : '/' ∉ ds)
    (h : ∀ r ∈ split (cs ++ '\n' :: ds), ∀ cause, r.piece ≠ .problem cause) :
    ∀ r ∈ rs, ∀ cause, r.piece ≠ .problem cause := by
  induction rs generalizing cs with
  | nil => simp
  | cons r rs ih =>
    obtain ⟨rest, rfl, hcut, hrest⟩ := hr
    by_cases hp : r.piece.Closed
    · have hsplit : split (r.text ++ rest ++ '\n' :: ds) = r :: split (rest ++ '\n' :: ds) := by
        refine (eq_split_iff.1 ?_).symm
        exact ⟨_, List.append_assoc .., hcut.goesOn hp ds, splits_split _⟩
      rw [hsplit, List.forall_mem_cons] at h
      exact List.forall_mem_cons.2 ⟨h.1, ih hrest h.2⟩
    · obtain rfl := hcut.rest_eq_nil hp
      have hopen : Cut (r.text ++ '\n' :: ds) [] r.piece :=
        hcut.extended hp (by simp [hquote]) (by simp [hslash])
      have hsplit : split (r.text ++ [] ++ '\n' :: ds) = [⟨r.text ++ '\n' :: ds, r.piece⟩] := by
        refine (eq_split_iff.1 ?_).symm
        exact ⟨[], by simp, hopen, rfl⟩
      rw [hsplit] at h
      exact absurd (Piece.closed_of_ne (h _ List.mem_cons_self)) hp

end Region

/-! ## The tokens -/

namespace Token

variable {file source : String}

/-- Nothing is wrong with a text ahead of a line end and a semicolon that nothing is wrong
with. -/
theorem scan_of_terminated (h : (scan file (source ++ "\n;")).2 = []) :
    (scan file source).2 = [] := by
  rw [scan_eq_nil_iff] at h ⊢
  rw [String.toList_append] at h
  exact (Region.splits_split source.toList).sound_of_joined [';'] (by decide) (by decide) h

/-- Then the semicolon is one more token. -/
theorem body_terminated (h : (scan file source).2 = []) :
    ∃ e : Token, e.isMark .semicolon ∧ body file (source ++ "\n;") = body file source ++ [e] := by
  have hjoined := @body_joined file source ";" h
  rw [String.append_assoc] at hjoined
  exact ⟨_, rfl, hjoined⟩

end Token

/-! ## The tree -/

/-- The tokens of an expression statement, if no token drops out, are those of the expression
and a semicolon. -/
theorem Derives.of_expression {g : Rules} {ts : List Token} {v : Expr} (hg : g.skips = false)
    (h : Derives g .declarations ts [.expression v]) :
    ∃ us e, ts = us ++ [e] ∧ Derives g .expression us v := by
  have skips {p : Prop} (hs : g.skips = true) : p := by rw [hg] at hs; cases hs
  cases h with
  | skipped hs => exact skips hs
  | nextDeclaration hd hn =>
    cases hn with
    | skipped hs => exact skips hs
    | noDeclaration =>
      rw [List.append_nil]
      cases hd with
      | varDeclaration hv => cases hv
      | plain hs =>
        generalize ht : Stmt.expression v = t at hs
        cases hs with
        | expression he =>
          subst ht
          cases he with
          | exprStmt hv => exact ⟨_, _, rfl, hv⟩
        | @forLoop _ _ _ initial _ _ _ _ _ _ _ _ _ =>
          unfold Stmt.forLoop at ht
          cases initial <;> cases ht
        | _ => cases ht

namespace Resolved

/-- An expression is resolved in the same way alone and as a statement. -/
theorem program_expression (allow : Bool) (e : Expr) :
    program allow [.expression e] =
      ⟨[.expression (expression allow e).tree], (expression allow e).problems,
        (expression allow e).unread⟩ := by
  rfl

end Resolved

/-! ## Hosts -/

/-- Nothing is wrong with the expression of a clean program. -/
theorem Expr.ofSource_of_terminated {config : Config} {source : String} {e : Expr}
    (h : Program.Clean config (source ++ "\n;") [.expression e]) :
    Expr.ofSource config source = .ok (Resolved.expression config.allowRedefinition e).tree := by
  have hscan := Token.scan_of_terminated h.scan
  obtain ⟨semicolon, -, hbody⟩ := Token.body_terminated hscan
  have hd := Program.ofScan_eq_iff.1 h.read
  obtain ⟨us, last, hus, he⟩ := hd.of_expression rfl
  rw [hbody] at hus
  obtain ⟨rfl, -⟩ := List.append_inj' hus rfl
  have hread : Expr.ofTokens (Token.scan config.file source).1 = .ok e := by
    rw [Token.scan_eq_body]
    exact ((derives_iff_ofTokens Token.isFinish_of_mem_body rfl e).1 he).1
  have hresolved : (Resolved.expression config.allowRedefinition e).problems = [] := h.resolved
  have hpair : Token.scan config.file source = ((Token.scan config.file source).1, []) :=
    Prod.ext rfl hscan
  unfold Expr.ofSource
  rw [hpair]
  simp only [hread, hresolved]

/-- A text that makes with a line end and a semicolon a program without problems, of one
expression statement, is the text of an expression. A host that evaluates the one as an
expression and the other as a program comes to the same value or fault, and to the same state:
both times it evaluates the one resolved tree. -/
theorem Host.evaluateExpression_eq_evaluate (h : Host) (fuel : Nat) {source : String} {e : Expr}
    (hok : (Checked.ofSource h.config (source ++ "\n;")).problems = [])
    (he : (Program.ofTokens (Token.scan h.config.file (source ++ "\n;")).1).statements =
      [.expression e]) :
    let tree := (Resolved.expression h.config.allowRedefinition e).tree
    Expr.ofSource h.config source = .ok tree ∧
    h.evaluateExpression fuel source = h.evaluateWith (eval fuel tree) ∧
    h.evaluate fuel (source ++ "\n;") = h.evaluateWith (eval fuel tree) := by
  obtain ⟨ss, hclean⟩ := Program.clean_iff.1 hok
  obtain rfl : ss = [.expression e] := by rw [← he, hclean.read]
  have hsource := Expr.ofSource_of_terminated hclean
  refine ⟨hsource, ?_, ?_⟩
  · rw [Host.evaluateExpression, hsource]
  · rw [Host.evaluate, hclean.checked, Resolved.program_expression]
    rfl

/-- A function that is called where it is written, and a comment that the line end closes. -/
theorem Host.calledLambda_agrees :
    let h := start ⟨false, false, "main.lox"⟩ (.empty none false) (.ticking 0)
    let source := "fun (x) \x7b return x; \x7d(nil) // nil"
    (h.evaluate 9 (source ++ "\n;")).map (·.1.failure?) = some none ∧
      h.evaluateExpression 9 source = h.evaluate 9 (source ++ "\n;") := by
  intro h source
  have hok : (Checked.ofSource h.config (source ++ "\n;")).problems.isEmpty := by decide +kernel
  have he : (Program.ofTokens (Token.scan h.config.file (source ++ "\n;")).1).statements =
      [.expression (.call
        (.lambda [⟨"x", ⟨"main.lox", 1, 6⟩⟩]
          [.returnWith (some (.read ⟨⟨"x", ⟨"main.lox", 1, 18⟩⟩, none⟩)) ⟨"main.lox", 1, 11⟩]
          ⟨"main.lox", 1, 1⟩)
        [.literal .nil ⟨"main.lox", 1, 23⟩] ⟨"main.lox", 1, 22⟩)] := by
    cbv
  have hagree := h.evaluateExpression_eq_evaluate 9 (List.isEmpty_iff.1 hok) he
  exact ⟨by decide +kernel, hagree.2.1.trans hagree.2.2.symm⟩

end LoxLang
