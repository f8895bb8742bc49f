import LoxLang.Proofs.Tree.Leaves

/-!
# Trees as nested lists

The parenthesized form of a tree is the text of a nested list, its `sexp`. The words of the
list are atoms if the names and literals of the tree are readable.
-/

namespace LoxLang

/-! ## Leaves of trees -/

mutual

def Expr.atoms : Expr → List Atom
  | .literal value _ => [.literal value]
  | .group e _ | .unary _ e _ => e.atoms
  | .binary _ left right _ => left.atoms ++ right.atoms
  | .sequence items _ => Expr.allAtoms items
  | .read target => [.name target.name]
  | .assign target value => .name target.name :: value.atoms
  | .call callee arguments _ => callee.atoms ++ Expr.allAtoms arguments
  | .lambda params body _ => params.map .name ++ Stmt.allAtoms body
  | .get object property => .name property :: object.atoms
  | .set object property value => .name property :: (object.atoms ++ value.atoms)
  | .this _ _ => []
  | .super method _ _ => [.name method]

def Expr.allAtoms : List Expr → List Atom
  | [] => []
  | e :: es => e.atoms ++ Expr.allAtoms es

def Stmt.atoms : Stmt → List Atom
  | .expression e | .print e _ | .returnWith (some e) _ => e.atoms
  | .declare name none => [.name name]
  | .declare name (some initial) => .name name :: initial.atoms
  | .block body _ => Stmt.allAtoms body
  | .branch test yes none _ => test.atoms ++ yes.atoms
  | .branch test yes (some no) _ => test.atoms ++ (yes.atoms ++ no.atoms)
  | .loop test body _ => test.atoms ++ body.atoms
  | .breakOut _ | .returnWith none _ => []
  | .function f => f.atoms
  | .classDecl name none methods => .name name :: Function.allAtoms methods
  | .classDecl name (some superclass) methods =>
    .name name :: .name superclass.name :: Function.allAtoms methods

def Stmt.allAtoms : List Stmt → List Atom
  | [] => []
  | s :: ss => s.atoms ++ Stmt.allAtoms ss

/-- The names and literals in the function, its own name and its parameters included. -/
def Function.atoms : Function → List Atom
  | .mk name params body => .name name :: (params.map .name ++ Stmt.allAtoms body)

def Function.allAtoms : List Function → List Atom
  | [] => []
  | f :: fs => f.atoms ++ Function.allAtoms fs

end

/-! ## Nested lists -/

def paramsSexp (params : List Name) : Sexp := .list (params.map fun p => .word p.text)

mutual

def Expr.sexp : Expr → Sexp
  | .literal value _ => .word value.text
  | .group inner _ => .list [.word "group", inner.sexp]
  | .unary op operand _ => .list [.word op.symbol, operand.sexp]
  | .binary op left right _ => .list [.word op.symbol, left.sexp, right.sexp]
  | .sequence items _ => .list (.word "sequence" :: Expr.sexps items)
  | .read target => .word target.name.text
  | .assign target value => .list [.word "=", .word target.name.text, value.sexp]
  | .call callee arguments _ => .list (.word "call" :: callee.sexp :: Expr.sexps arguments)
  | .lambda params body _ => .list (.word "lambda" :: paramsSexp params :: Stmt.sexps body)
  | .get object property => .list [.word ".", object.sexp, .word property.text]
  | .set object property value =>
    .list [.word "=", .list [.word ".", object.sexp, .word property.text], value.sexp]
  | .this _ _ => .word "this"
  | .super method _ _ => .list [.word "super", .word method.text]

def Expr.sexps : List Expr → List Sexp
  | [] => []
  | e :: es => e.sexp :: Expr.sexps es

def Stmt.sexp : Stmt → Sexp
  | .expression e => .list [.word ";", e.sexp]
  | .print e _ => .list [.word "print", e.sexp]
  | .declare name (some initial) => .list [.word "var", .word name.text, initial.sexp]
  | .declare name none => .list [.word "var", .word name.text]
  | .block body _ => .list (.word "block" :: Stmt.sexps body)
  | .branch test yes (some no) _ => .list [.word "if", test.sexp, yes.sexp, no.sexp]
  | .branch test yes none _ => .list [.word "if", test.sexp, yes.sexp]
  | .loop test body _ => .list [.word "while", test.sexp, body.sexp]
  | .breakOut _ => .list [.word "break"]
  | .function f => f.sexp "fun"
  | .returnWith (some value) _ => .list [.word "return", value.sexp]
  | .returnWith none _ => .list [.word "return"]
  | .classDecl name (some superclass) methods =>
    .list (.word "class" :: .word name.text :: .word "<" :: .word superclass.name.text ::
      Function.sexps methods)
  | .classDecl name none methods =>
    .list (.word "class" :: .word name.text :: Function.sexps methods)

def Stmt.sexps : List Stmt → List Sexp
  | [] => []
  | s :: ss => s.sexp :: Stmt.sexps ss

/-- The nested list of a function, after the word for what it is. -/
def Function.sexp (word : String) : Function → Sexp
  | .mk name params body =>
    .list (.word word :: .word name.text :: paramsSexp params :: Stmt.sexps body)

/-- `Function.sexp` for each of the methods. -/
def Function.sexps : List Function → List Sexp
  | [] => []
  | f :: fs => f.sexp "method" :: Function.sexps fs

end

theorem paramsText_sexp (params : List Name) : (paramsSexp params).text = paramsText params := by
  have htexts (ns : List Name) : Sexp.texts (ns.map fun p => .word p.text) = ns.map Name.text := by
    induction ns with
    | nil => rfl
    | cons n ns ih => rw [List.map_cons, Sexp.texts, ih, List.map_cons, Sexp.text]
  rw [paramsSexp, Sexp.text, htexts, paramsText]

mutual

/-- The parenthesized form is the text of the nested list. -/
theorem Expr.text_sexp (e : Expr) : e.sexp.text = e.text := by
  match e with
  | .literal _ _ | .read _ | .this _ _ | .super _ _ _ => rfl
  | .group e _ | .unary _ e _ | .assign _ e | .get e _ =>
    simp only [Expr.sexp, Sexp.text, Sexp.texts, Expr.text, e.text_sexp]
  | .binary _ left right _ | .set left _ right =>
    simp only [Expr.sexp, Sexp.text, Sexp.texts, Expr.text, left.text_sexp, right.text_sexp]
  | .sequence items _ =>
    simp only [Expr.sexp, Sexp.text, Sexp.texts, Expr.text, Expr.texts_sexps items]
  | .call callee arguments _ =>
    simp only [Expr.sexp, Sexp.text, Sexp.texts, Expr.text, callee.text_sexp,
      Expr.texts_sexps arguments]
  | .lambda params body _ =>
    simp only [Expr.sexp, Sexp.text, Sexp.texts, Expr.text, paramsText_sexp, Stmt.texts_sexps body]

theorem Expr.texts_sexps (es : List Expr) : Sexp.texts (Expr.sexps es) = Expr.texts es := by
  match es with
  | [] => rfl
  | e :: es => rw [Expr.sexps, Sexp.texts, Expr.texts, e.text_sexp, Expr.texts_sexps es]

theorem Stmt.text_sexp (s : Stmt) : s.sexp.text = s.text := by
  match s with
  | .declare _ none | .breakOut _ | .returnWith none _ => rfl
  | .expression e | .print e _ | .declare _ (some e) | .returnWith (some e) _ =>
    simp only [Stmt.sexp, Sexp.text, Sexp.texts, Stmt.text, e.text_sexp]
  | .block body _ =>
    simp only [Stmt.sexp, Sexp.text, Sexp.texts, Stmt.text, Stmt.texts_sexps body]
  | .branch test yes none _ =>
    simp only [Stmt.sexp, Sexp.text, Sexp.texts, Stmt.text, test.text_sexp, yes.text_sexp]
  | .branch test yes (some no) _ =>
    simp only [Stmt.sexp, Sexp.text, Sexp.texts, Stmt.text, test.text_sexp, yes.text_sexp,
      no.text_sexp]
  | .loop test body _ =>
    simp only [Stmt.sexp, Sexp.text, Sexp.texts, Stmt.text, test.text_sexp, body.text_sexp]
  | .function f => exact f.text_sexp "fun"
  | .classDecl _ none methods | .classDecl _ (some _) methods =>
    simp only [Stmt.sexp, Sexp.text, Sexp.texts, Stmt.text, Function.texts_sexps methods]

theorem Stmt.texts_sexps (ss : List Stmt) : Sexp.texts (Stmt.sexps ss) = Stmt.texts ss := by
  match ss with
  | [] => rfl
  | s :: ss => rw [Stmt.sexps, Sexp.texts, Stmt.texts, s.text_sexp, Stmt.texts_sexps ss]

/-- A function's form is printed as the function is. -/
theorem Function.text_sexp (word : String) (f : Function) :
    (f.sexp word).text = f.text word := by
  match f with
  | .mk name params body =>
    simp only [Function.sexp, Sexp.text, Sexp.texts, Function.text, paramsText_sexp,
      Stmt.texts_sexps body]

theorem Function.texts_sexps (fs : List Function) :
    Sexp.texts (Function.sexps fs) = Function.texts fs := by
  match fs with
  | [] => rfl
  | f :: fs =>
    rw [Function.sexps, Sexp.texts, Function.texts, f.text_sexp, Function.texts_sexps fs]

end

/-! ## Words of nested lists -/

theorem UnaryOp.isAtom_symbol (op : UnaryOp) : IsAtom op.symbol := by
  cases op <;> decide

theorem BinaryOp.isAtom_symbol (op : BinaryOp) : IsAtom op.symbol := by
  cases op <;> decide

theorem plain_paramsSexp {params : List Name} (h : ∀ n ∈ params, n.IsWord) :
    (paramsSexp params).Plain := by
  rw [paramsSexp, Sexp.Plain]
  induction params with
  | nil => trivial
  | cons n ns ih =>
    rw [List.forall_mem_cons] at h
    exact ⟨h.1.isAtom, ih h.2⟩

section
open Atom (AllReadable allReadable_append allReadable_name allReadable_names allReadable_literal)

mutual

/-- The form of an expression is plain if its leaves can be read. -/
theorem Expr.plain_sexp (e : Expr) (h : AllReadable e.atoms) : e.sexp.Plain := by
  match e with
  | .literal value _ => exact (allReadable_literal.1 h).1.isAtom
  | .read target => exact (allReadable_name.1 h).1.isAtom
  | .this _ _ => exact show IsAtom "this" by decide
  | .super method _ _ =>
    simp only [Expr.sexp, Sexp.Plain, Sexp.AllPlain]
    exact ⟨by decide, (allReadable_name.1 h).1.isAtom, trivial⟩
  | .group e _ =>
    simp only [Expr.sexp, Sexp.Plain, Sexp.AllPlain]
    exact ⟨by decide, e.plain_sexp h, trivial⟩
  | .unary op e _ =>
    simp only [Expr.sexp, Sexp.Plain, Sexp.AllPlain]
    exact ⟨op.isAtom_symbol, e.plain_sexp h, trivial⟩
  | .binary op left right _ =>
    obtain ⟨hl, hr⟩ := allReadable_append.1 h
    simp only [Expr.sexp, Sexp.Plain, Sexp.AllPlain]
    exact ⟨op.isAtom_symbol, left.plain_sexp hl, right.plain_sexp hr, trivial⟩
  | .sequence items _ =>
    simp only [Expr.sexp, Sexp.Plain, Sexp.AllPlain]
    exact ⟨by decide, Expr.allPlain_sexps items h⟩
  | .assign target e =>
    obtain ⟨ht, he⟩ := allReadable_name.1 h
    simp only [Expr.sexp, Sexp.Plain, Sexp.AllPlain]
    exact ⟨by decide, ht.isAtom, e.plain_sexp he, trivial⟩
  | .call callee arguments _ =>
    obtain ⟨hc, ha⟩ := allReadable_append.1 h
    simp only [Expr.sexp, Sexp.Plain, Sexp.AllPlain]
    exact ⟨by decide, callee.plain_sexp hc, Expr.allPlain_sexps arguments ha⟩
  | .lambda params body _ =>
    obtain ⟨hp, hb⟩ := allReadable_append.1 h
    simp only [Expr.sexp, Sexp.Plain, Sexp.AllPlain]
    exact ⟨by decide, plain_paramsSexp (allReadable_names.1 hp), Stmt.allPlain_sexps body hb⟩
  | .get object property =>
    obtain ⟨hp, ho⟩ := allReadable_name.1 h
    simp only [Expr.sexp, Sexp.Plain, Sexp.AllPlain]
    exact ⟨by decide, object.plain_sexp ho, hp.isAtom, trivial⟩
  | .set object property value =>
    obtain ⟨hp, hov⟩ := allReadable_name.1 h
    obtain ⟨ho, hv⟩ := allReadable_append.1 hov
    simp only [Expr.sexp, Sexp.Plain, Sexp.AllPlain]
    exact ⟨by decide, ⟨by decide, object.plain_sexp ho, hp.isAtom, trivial⟩,
      value.plain_sexp hv, trivial⟩

theorem Expr.allPlain_sexps (es : List Expr) (h : AllReadable (Expr.allAtoms es)) :
    Sexp.AllPlain (Expr.sexps es) := by
  match es with
  | [] => trivial
  | e :: es =>
    obtain ⟨he, hes⟩ := allReadable_append.1 h
    exact ⟨e.plain_sexp he, Expr.allPlain_sexps es hes⟩

/-- The form of a statement is plain if its leaves can be read. -/
theorem Stmt.plain_sexp (s : Stmt) (h : AllReadable s.atoms) : s.sexp.Plain := by
  match s with
  | .breakOut _ | .returnWith none _ =>
    simp only [Stmt.sexp, Sexp.Plain, Sexp.AllPlain]
    exact ⟨by decide, trivial⟩
  | .declare name none =>
    simp only [Stmt.sexp, Sexp.Plain, Sexp.AllPlain]
    exact ⟨by decide, (allReadable_name.1 h).1.isAtom, trivial⟩
  | .expression e | .print e _ | .returnWith (some e) _ =>
    simp only [Stmt.sexp, Sexp.Plain, Sexp.AllPlain]
    exact ⟨by decide, e.plain_sexp h, trivial⟩
  | .declare name (some e) =>
    obtain ⟨hn, he⟩ := allReadable_name.1 h
    simp only [Stmt.sexp, Sexp.Plain, Sexp.AllPlain]
    exact ⟨by decide, hn.isAtom, e.plain_sexp he, trivial⟩
  | .block body _ =>
    simp only [Stmt.sexp, Sexp.Plain, Sexp.AllPlain]
    exact ⟨by decide, Stmt.allPlain_sexps body h⟩
  | .branch test yes none _ =>
    obtain ⟨ht, hy⟩ := allReadable_append.1 h
    simp only [Stmt.sexp, Sexp.Plain, Sexp.AllPlain]
    exact ⟨by decide, test.plain_sexp ht, yes.plain_sexp hy, trivial⟩
  | .branch test yes (some no) _ =>
    obtain ⟨ht, h⟩ := allReadable_append.1 h
    obtain ⟨hy, hn⟩ := allReadable_append.1 h
    simp only [Stmt.sexp, Sexp.Plain, Sexp.AllPlain]
    exact ⟨by decide, test.plain_sexp ht, yes.plain_sexp hy, no.plain_sexp hn, trivial⟩
  | .loop test body _ =>
    obtain ⟨ht, hb⟩ := allReadable_append.1 h
    simp only [Stmt.sexp, Sexp.Plain, Sexp.AllPlain]
    exact ⟨by decide, test.plain_sexp ht, body.plain_sexp hb, trivial⟩
  | .function f => exact f.plain_sexp (by decide) h
  | .classDecl name none methods =>
    obtain ⟨hn, hm⟩ := allReadable_name.1 h
    simp only [Stmt.sexp, Sexp.Plain, Sexp.AllPlain]
    exact ⟨by decide, hn.isAtom, Function.allPlain_sexps methods hm⟩
  | .classDecl name (some superclass) methods =>
    obtain ⟨hn, h⟩ := allReadable_name.1 h
    obtain ⟨hs, hm⟩ := allReadable_name.1 h
    simp only [Stmt.sexp, Sexp.Plain, Sexp.AllPlain]
    exact ⟨by decide, hn.isAtom, by decide, hs.isAtom, Function.allPlain_sexps methods hm⟩

theorem Stmt.allPlain_sexps (ss : List Stmt) (h : AllReadable (Stmt.allAtoms ss)) :
    Sexp.AllPlain (Stmt.sexps ss) := by
  match ss with
  | [] => trivial
  | s :: ss =>
    obtain ⟨hs, hss⟩ := allReadable_append.1 h
    exact ⟨s.plain_sexp hs, Stmt.allPlain_sexps ss hss⟩

/-- The form of a function is plain if its leaves can be read. -/
theorem Function.plain_sexp {word : String} (hw : IsAtom word) (f : Function)
    (h : AllReadable f.atoms) : (f.sexp word).Plain := by
  match f with
  | .mk name params body =>
    obtain ⟨hn, h⟩ := allReadable_name.1 h
    obtain ⟨hp, hb⟩ := allReadable_append.1 h
    simp only [Function.sexp, Sexp.Plain, Sexp.AllPlain]
    exact ⟨hw, hn.isAtom, plain_paramsSexp (allReadable_names.1 hp), Stmt.allPlain_sexps body hb⟩

/-- The forms of methods are plain if their leaves can be read. -/
theorem Function.allPlain_sexps (fs : List Function) (h : AllReadable (Function.allAtoms fs)) :
    Sexp.AllPlain (Function.sexps fs) := by
  match fs with
  | [] => trivial
  | f :: fs =>
    obtain ⟨hf, hfs⟩ := allReadable_append.1 h
    exact ⟨f.plain_sexp (by decide) hf, Function.allPlain_sexps fs hfs⟩

end

end

end LoxLang
