import LoxLang.Tree.Parenthesized
import Mathlib.Tactic.Common

/-!
# Nested lists of words

A text in parentheses is a word or a list of such texts. `Sexp.read?` takes a text apart from
left to right, with a stack for the lists that are open; `Sexp.read?_text` says that it takes
apart what `Sexp.text` puts together, if no word is empty or holds a blank or a parenthesis.
-/

namespace LoxLang

/-- A word, or a list in parentheses. -/
inductive Sexp where
  | word (text : String)
  | list (items : List Sexp)

/-- A word that cannot be taken for anything else: it has no blank and no parenthesis. -/
def IsAtom (text : String) : Prop := text ≠ "" ∧ ∀ c ∈ text.toList, c ∉ [' ', '(', ')']

instance (text : String) : Decidable (IsAtom text) :=
  @instDecidableAnd _ _ inferInstance (List.decidableBAll _ _)

namespace Sexp

mutual

def text : Sexp → String
  | word text => text
  | list items => parens (texts items)

/-- `Sexp.text` of each of them. -/
def texts : List Sexp → List String
  | [] => []
  | s :: ss => s.text :: texts ss

end

mutual

/-- All words are atoms. -/
def Plain : Sexp → Prop
  | word text => IsAtom text
  | list items => AllPlain items

def AllPlain : List Sexp → Prop
  | [] => True
  | s :: ss => s.Plain ∧ AllPlain ss

end

/-! ## Reading -/

/-- A text that is being read: the word that has begun, what the innermost open list holds
so far, and the same for the lists around it. -/
structure Reading where
  begun : List Char
  items : List Sexp
  around : List (List Sexp)

namespace Reading

/-- Ends the word that has begun, if one has. -/
def ended (r : Reading) : Reading :=
  if r.begun = [] then r
  else { r with begun := [], items := r.items ++ [.word (String.ofList r.begun)] }

/-- Reads one more character. A parenthesis that closes nothing is passed over. -/
def next (r : Reading) (c : Char) : Reading :=
  if c = ' ' then r.ended
  else if c = '(' then ⟨[], [], r.ended.items :: r.around⟩
  else if c = ')' then
    match r.around with
    | [] => r.ended
    | items :: around => ⟨[], items ++ [.list r.ended.items], around⟩
  else { r with begun := r.begun ++ [c] }

/-- Reads more characters. -/
def after (r : Reading) (cs : List Char) : Reading := cs.foldl next r

@[simp] theorem after_nil (r : Reading) : r.after [] = r := rfl

@[simp] theorem after_cons (r : Reading) (c : Char) (cs : List Char) :
    r.after (c :: cs) = (r.next c).after cs := rfl

@[simp] theorem after_append (r : Reading) (cs ds : List Char) :
    r.after (cs ++ ds) = (r.after cs).after ds := List.foldl_append

@[simp] theorem ended_around (r : Reading) : r.ended.around = r.around := by
  unfold ended
  split <;> rfl

/-- A blank ends a word. -/
theorem next_blank (r : Reading) : r.next ' ' = r.ended := rfl

/-- A closing parenthesis ends a word, too. -/
theorem next_close (r : Reading) (items : List Sexp) (around : List (List Sexp))
    (h : r.around = items :: around) :
    r.next ')' = ⟨[], items ++ [.list r.ended.items], around⟩ := by
  simp [next, h]

/-- A word is read as it is. -/
theorem after_word (items : List Sexp) (around : List (List Sexp)) {cs : List Char}
    (h : ∀ c ∈ cs, c ∉ [' ', '(', ')']) (begun : List Char) :
    after ⟨begun, items, around⟩ cs = ⟨begun ++ cs, items, around⟩ := by
  induction cs generalizing begun with
  | nil => simp
  | cons c cs ih =>
    have hc := h c List.mem_cons_self
    simp only [List.mem_cons, List.not_mem_nil, or_false, not_or] at hc
    rw [after_cons, next, if_neg hc.1, if_neg hc.2.1, if_neg hc.2.2,
      ih (fun d hd => h d (List.mem_cons_of_mem _ hd)), List.append_assoc, List.singleton_append]

end Reading

open Reading

/-- What a text in parentheses is made of, if no list is left open. -/
def read? (text : String) : Option Sexp :=
  match ((⟨[], [], []⟩ : Reading).after text.toList).ended with
  | ⟨_, [s], []⟩ => some s
  | _ => none

mutual

/-- What is read of a text is added to the items of the innermost list. -/
theorem ended_after_text {s : Sexp} (h : s.Plain) (items : List Sexp)
    (around : List (List Sexp)) :
    ((⟨[], items, around⟩ : Reading).after s.text.toList).ended = ⟨[], items ++ [s], around⟩ := by
  match s with
  | word text =>
    obtain ⟨hne, hc⟩ := h
    rw [Sexp.text, after_word items around hc, List.nil_append, ended, if_neg (by simpa using hne),
      String.ofList_toList]
  | list ss =>
    have hplain : AllPlain ss := h
    have hs := ended_after_texts hplain [] (items :: around)
    rw [Sexp.text, parens]
    simp only [String.toList_append, after_append]
    show ((((⟨[], [], items :: around⟩ : Reading).after
      (String.intercalate " " (texts ss)).toList).next ')').ended) = _
    rw [next_close _ items around, hs]
    · rfl
    · rw [← ended_around, hs]

/-- So it is with texts that have a blank between two. -/
theorem ended_after_texts {ss : List Sexp} (h : AllPlain ss) (items : List Sexp)
    (around : List (List Sexp)) :
    ((⟨[], items, around⟩ : Reading).after (String.intercalate " " (texts ss)).toList).ended =
      ⟨[], items ++ ss, around⟩ := by
  match ss with
  | [] => simp [texts, ended]
  | [s] => simpa [texts] using ended_after_text h.1 items around
  | s :: t :: ss =>
    have hs := ended_after_text h.1 items around
    have hplain : AllPlain (t :: ss) := h.2
    have hrest := ended_after_texts hplain (items ++ [s]) around
    rw [texts, texts, String.intercalate_cons_cons]
    rw [texts] at hrest
    simp only [String.toList_append, after_append]
    show (((((⟨[], items, around⟩ : Reading).after s.text.toList).next ' ').after
      (String.intercalate " " (t.text :: texts ss)).toList).ended) = _
    rw [next_blank, hs, hrest, List.append_assoc, List.singleton_append]

end

/-- Taking apart what was put together. -/
theorem read?_text {s : Sexp} (h : s.Plain) : read? s.text = some s := by
  rw [read?, ended_after_text h]
  rfl

end Sexp

end LoxLang
