import LoxLang.Proofs.Machine.Plain
import LoxLang.Proofs.Tree.Regular

/-!
# The code in trees and machines

The code of a function is its parameters and statements. `codes` lists the code of all
functions inside a tree, those inside other functions included. Code is `Tidy` if no scope
that it opens declares a name twice, nothing in it that may run more than once in one scope
declares a name there, and no two of its `break`s stand at one place. A tree or a machine is
`Fine` if all code in it is tidy.
-/

namespace LoxLang

/-- What a function is made of. -/
structure Code where
  params : List Name
  body : List Stmt

/-! ## Code in trees -/

mutual

def Expr.codes : Expr → List Code
  | .literal _ _ | .read _ | .this _ _ | .super _ _ _ => []
  | .group e _ | .unary _ e _ | .assign _ e | .get e _ => e.codes
  | .binary _ left right _ => left.codes ++ right.codes
  | .sequence items _ => Expr.allCodes items
  | .call callee arguments _ => callee.codes ++ Expr.allCodes arguments
  | .lambda params body _ => ⟨params, body⟩ :: Stmt.allCodes body
  | .set object _ value => object.codes ++ value.codes

def Expr.allCodes : List Expr → List Code
  | [] => []
  | e :: es => e.codes ++ Expr.allCodes es

def Stmt.codes : Stmt → List Code
  | .expression e | .print e _ | .declare _ (some e) | .returnWith (some e) _ => e.codes
  | .declare _ none | .breakOut _ | .returnWith none _ => []
  | .block body _ => Stmt.allCodes body
  | .branch test yes none _ => test.codes ++ yes.codes
  | .branch test yes (some no) _ => test.codes ++ yes.codes ++ no.codes
  | .loop test body _ => test.codes ++ body.codes
  | .function f => f.codes
  | .classDecl _ _ methods => Function.allCodes methods

def Stmt.allCodes : List Stmt → List Code
  | [] => []
  | s :: ss => s.codes ++ Stmt.allCodes ss

/-- The function's own code, and that of the functions in it. -/
def Function.codes : Function → List Code
  | .mk _ params body => ⟨params, body⟩ :: Stmt.allCodes body

def Function.allCodes : List Function → List Code
  | [] => []
  | f :: fs => f.codes ++ Function.allCodes fs

end

/-! ## Jumps -/

mutual

/-- The `break`s of a statement, without those of functions in it: where each stands, and
whether a loop is around it, be it one of the statement or one that the statement stands in. -/
def Stmt.breaks (inLoop : Bool) : Stmt → List (Place × Bool)
  | .breakOut place => [(place, inLoop)]
  | .block body _ => Stmt.allBreaks inLoop body
  | .branch _ yes none _ => yes.breaks inLoop
  | .branch _ yes (some no) _ => yes.breaks inLoop ++ no.breaks inLoop
  | .loop _ body _ => body.breaks true
  | _ => []

def Stmt.allBreaks (inLoop : Bool) : List Stmt → List (Place × Bool)
  | [] => []
  | s :: ss => s.breaks inLoop ++ Stmt.allBreaks inLoop ss

end

mutual

/-- Where the `return`s of a statement stand, without those of functions in it. -/
def Stmt.returns : Stmt → List Place
  | .returnWith _ place => [place]
  | .block body _ => Stmt.allReturns body
  | .branch _ yes none _ => yes.returns
  | .branch _ yes (some no) _ => yes.returns ++ no.returns
  | .loop _ body _ => body.returns
  | _ => []

def Stmt.allReturns : List Stmt → List Place
  | [] => []
  | s :: ss => s.returns ++ Stmt.allReturns ss

end

/-! ## Tidy code -/

/-- The names that statements declare in the scope that they stand in. -/
def Stmt.declaredTexts (ss : List Stmt) : List String :=
  ss.filterMap fun s => s.declared?.map Name.text

theorem Stmt.mem_declaredTexts {ss : List Stmt} {x : String} :
    x ∈ Stmt.declaredTexts ss ↔ ∃ s ∈ ss, ∃ n ∈ s.declared?, n.text = x := by
  simp [declaredTexts]

mutual

/-- The blocks of the statement declare no name twice; its branches and the body of its loop
declare none. -/
def Stmt.Tidy : Stmt → Prop
  | .block body _ => (Stmt.declaredTexts body).Nodup ∧ Stmt.AllTidy body
  | .branch _ yes none _ => yes.declared? = none ∧ yes.Tidy
  | .branch _ yes (some no) _ =>
    (yes.declared? = none ∧ yes.Tidy) ∧ no.declared? = none ∧ no.Tidy
  | .loop _ body _ => body.declared? = none ∧ body.Tidy
  | _ => True

def Stmt.AllTidy : List Stmt → Prop
  | [] => True
  | s :: ss => s.Tidy ∧ Stmt.AllTidy ss

end

/-- The statements' `break`s stand at different places. -/
def Stmt.BreaksApart (ss : List Stmt) : Prop := ((Stmt.allBreaks false ss).map Prod.fst).Nodup

/-- The function declares no name twice, and its statements are tidy. -/
structure Code.Clean (c : Code) : Prop where
  distinct : (c.params.map Name.text ++ Stmt.declaredTexts c.body).Nodup
  body : Stmt.AllTidy c.body

/-- The function is clean, and its `break`s stand at different places. -/
structure Code.Tidy (c : Code) : Prop extends Code.Clean c where
  breaks : Stmt.BreaksApart c.body

/-! ## Fine trees and machines -/

def Expr.Fine (e : Expr) : Prop := ∀ c ∈ e.codes, c.Tidy

def Expr.AllFine (es : List Expr) : Prop := ∀ c ∈ Expr.allCodes es, c.Tidy

structure Stmt.Fine (s : Stmt) : Prop where
  codes : ∀ c ∈ s.codes, c.Tidy
  tidy : s.Tidy

structure Stmt.AllFine (ss : List Stmt) : Prop where
  codes : ∀ c ∈ Stmt.allCodes ss, c.Tidy
  tidy : Stmt.AllTidy ss

/-- The functions are tidy, with those in them. -/
def Function.AllFine (fs : List Function) : Prop := ∀ c ∈ Function.allCodes fs, c.Tidy

/-- The function is tidy, with those in it. -/
structure Closure.Fine (f : Closure) : Prop where
  own : Code.Tidy ⟨f.params, f.body⟩
  inner : ∀ c ∈ Stmt.allCodes f.body, c.Tidy

def Class.Fine (c : Class) : Prop := ∀ x f, c.method? x = some f → f.Fine

def Value.Fine : Value → Prop
  | .function f => f.Fine
  | .classValue c | .object _ c => c.Fine
  | _ => True

def Class.TableFine (table : Bindings Closure) : Prop := ∀ x f, table.find? x = some f → f.Fine

/-- The machine's functions are fine, and it runs in a scope that it has. -/
structure Machine.Fine (m : Machine) : Prop where
  globals : m.globals < m.scopes.size
  current : m.current < m.scopes.size
  scopes : ∀ id x v, m.scopes.own? id x = some v → v.Fine
  objects : ∀ i x v, (m.fieldsOf i).find? x = some v → v.Fine

theorem Value.fine_of_plain {v : Value} (h : v.IsPlain) : v.Fine := by
  cases v with
  | function _ | classValue _ | object _ _ => exact h.elim
  | _ => trivial

@[simp] theorem Stmt.allFine_cons {s : Stmt} {ss : List Stmt} :
    Stmt.AllFine (s :: ss) ↔ s.Fine ∧ Stmt.AllFine ss := by
  constructor
  · intro h
    have hc := List.forall_mem_append.1 h.codes
    exact ⟨⟨hc.1, h.tidy.1⟩, hc.2, h.tidy.2⟩
  · intro h
    exact ⟨List.forall_mem_append.2 ⟨h.1.codes, h.2.codes⟩, h.1.tidy, h.2.tidy⟩

/-- Expressions are fine if each of them is. -/
@[simp] theorem Expr.allFine_cons {e : Expr} {es : List Expr} :
    Expr.AllFine (e :: es) ↔ e.Fine ∧ Expr.AllFine es := List.forall_mem_append

/-- The statements in the body of a fine function are fine. -/
theorem Closure.Fine.statements {f : Closure} (h : f.Fine) : Stmt.AllFine f.body :=
  ⟨h.inner, h.own.body⟩

theorem Class.fine_plain {i : Nat} {name : String} {table : Bindings Closure}
    (h : Class.TableFine table) : (Class.mk i name none table).Fine :=
  fun x f hf => h x f (by rwa [Class.method?] at hf)

theorem Class.fine_derived {i : Nat} {name : String} {c : Class} {table : Bindings Closure}
    (hc : c.Fine) (h : Class.TableFine table) : (Class.mk i name (some c) table).Fine := by
  intro x f hf
  rw [Class.method?] at hf
  cases ht : table.find? x with
  | none => exact hc x f (by rwa [ht] at hf)
  | some g =>
    rw [ht] at hf
    cases hf
    exact h x _ ht

theorem Class.tableFine_nil : Class.TableFine [] := fun _ _ h => nomatch h

/-- A table of methods stays fine when a fine method is put into it. -/
theorem Class.TableFine.insert {table : Bindings Closure} (h : Class.TableFine table) (n : String)
    {f : Closure} (hf : f.Fine) : Class.TableFine (table.insert n f) := by
  intro x g hg
  rw [Bindings.find?_insert] at hg
  split at hg
  · cases hg
    exact hf
  · exact h x g hg

end LoxLang
