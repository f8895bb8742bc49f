import LoxLang.Proofs.Grammar.Front
import LoxLang.Proofs.Grammar.Reads

/-!
# What a reader takes

`Takes p l rest a` says that the reader `p`, finding the tokens `l` before `rest`,
takes just `l`, gives `a` and meets no misfit. `Reads` bounds what a reader can do;
`Takes` says what it does do.
-/

namespace LoxLang

namespace Phrase

variable {α β : Type}

/-- What a reader takes. -/
def Takes (p : Phrase α) (l rest : List Token) (a : α) : Prop :=
  ∀ ms, p ⟨l ++ rest, ms⟩ = .ok a ⟨rest, ms⟩

variable {p q : Phrase α} {l k rest : List Token} {t : Token} {m : Mark} {a : α} {b : β}

theorem Takes.congr (h : Takes p l rest a) (e : l = k) : Takes p k rest a := e ▸ h

/-! ## Sequencing -/

theorem Takes.pure : Takes (Pure.pure a) [] rest a := fun _ => rfl

/-- Two phrases take what each of them takes, one behind the other. -/
theorem Takes.bind {f : α → Phrase β} (hp : Takes p l (k ++ rest) a) (hf : Takes (f a) k rest b) :
    Takes (p >>= f) (l ++ k) rest b := fun ms => by
  rw [bind_apply, List.append_assoc, hp]
  exact hf ms

/-- The last step of a reader. -/
theorem Takes.give {f : α → β} (hp : Takes p l rest a) :
    Takes (p >>= fun a => Pure.pure (f a)) l rest (f a) := fun ms => by
  rw [bind_apply, hp]
  rfl

theorem Takes.map {f : α → β} (hp : Takes p l rest a) : Takes (f <$> p) l rest (f a) := fun ms => by
  rw [map_apply, hp]

/-! ## Single tokens -/

theorem Takes.mark {complaint : Complaint} (ht : t.isMark m) :
    Takes (Phrase.mark m complaint) [t] rest () := fun ms => by
  simp [Phrase.mark, discard, Functor.mapConst, EStateM.map, expect, ht]

/-- A name that is asked for is taken. -/
theorem Takes.identifier {complaint : Complaint} (ht : t.isIdentifier) :
    Takes (Phrase.identifier complaint) [t] rest t.name := fun ms => by
  simp [Phrase.identifier, bind_apply, pure_apply, expect, ht]

theorem Takes.peek : Takes peek [] rest rest.head? := fun _ => rfl

theorem Takes.atMark : Takes (atMark m) [] rest (rest.head?.any (·.isMark m)) := fun _ => rfl

theorem Takes.mark?_hit (ht : t.isMark m) : Takes (mark? m) [t] rest (some t.place) := fun ms => by
  simp [mark?, bind_apply, pure_apply, take?, ht]

theorem Takes.take?_hit {test : Token → Bool} (ht : test t) :
    Takes (take? test) [t] rest (some t) := fun ms => by
  simp [take?, ht]

theorem Takes.take?_miss {test : Token → Bool} (h : rest.head?.any test = false) :
    Takes (take? test) [] rest none := fun ms => by
  cases rest with
  | nil => rfl
  | cons t rest => simp [take?, show test t = false from h]

theorem Takes.mark?_miss (h : rest.head?.any (·.isMark m) = false) :
    Takes (mark? m) [] rest none := fun ms => by
  rw [mark?, bind_apply, take?_miss h]
  rfl

theorem Takes.recovering (hp : Takes p l rest a) :
    Takes (Phrase.recovering p) l rest (some a) := fun ms => by
  rw [Phrase.recovering, hp]

/-! ## Choice -/

theorem Takes.hit {p : Place → Phrase α} (ht : t.isMark m) (hp : Takes (p t.place) k rest a) :
    Takes (mark? m >>= fun o => match o with
      | some place => p place
      | _ => q) (t :: k) rest a := fun ms => by
  rw [bind_apply, show t :: k ++ rest = [t] ++ (k ++ rest) from rfl, mark?_hit ht]
  exact hp ms

theorem Takes.miss {p : Place → Phrase α} (h : (l ++ rest).head?.any (·.isMark m) = false)
    (hq : Takes q l rest a) : Takes (mark? m >>= fun o => match o with
      | some place => p place
      | _ => q) l rest a := fun ms => by
  rw [bind_apply, show l ++ rest = [] ++ (l ++ rest) from rfl, mark?_miss h]
  exact hq ms

/-! ## Repetition -/

variable {limit : List Token} {as : List α}

/-- A repetition that has limit enough for what is left. -/
def TakesMany (step : Phrase (Option α)) (l rest : List Token) (as : List α) : Prop :=
  ∀ limit ms, (l ++ rest).length ≤ limit.length →
    manyUpTo step limit ⟨l ++ rest, ms⟩ = .ok as ⟨rest, ms⟩

/-- What can be taken again and again is taken with the bound that the reader sets. -/
theorem TakesMany.many {step : Phrase (Option α)} (h : TakesMany step l rest as) :
    Takes (Phrase.many step) l rest as := fun ms => h _ ms (Nat.le_refl _)

theorem TakesMany.nil {step : Phrase (Option α)} (h : Takes step [] rest none) :
    TakesMany step [] rest [] := fun limit ms hl => by
  cases limit with
  | nil => rfl
  | cons t limit =>
    rw [manyUpTo, bind_apply, h]
    rfl

/-- One more text in front is taken by one more repetition. -/
theorem TakesMany.cons {step : Phrase (Option α)} (hts : l ≠ [])
    (h : Takes step l (k ++ rest) (some a)) (hs : TakesMany step k rest as) :
    TakesMany step (l ++ k) rest (a :: as) := fun limit ms hl => by
  cases limit with
  | nil => simp_all
  | cons t limit =>
    rw [manyUpTo, bind_apply, List.append_assoc, h]
    have : (k ++ rest).length ≤ limit.length := by
      have := List.length_pos_iff.2 hts
      simp only [List.length_append, List.length_cons] at hl ⊢
      omega
    simp only [bind_apply, hs limit ms this]
    rfl

/-- The reader comes to a growing value `a` with limit enough for what is left. -/
def Grows (p : Phrase α) (step : α → Phrase (Option α)) (l rest : List Token) (a : α) : Prop :=
  ∀ ms, ∃ limit : List Token, rest.length ≤ limit.length ∧
    p ⟨l ++ rest, ms⟩ = growUpTo step limit a ⟨rest, ms⟩

/-- What a first phrase takes is what growth starts from. -/
theorem Grows.first {step : α → Phrase (Option α)} (hp : Takes p l rest a) :
    Grows (p >>= fun a => grow step a) step l rest a := fun ms =>
  ⟨rest, Nat.le_refl _, by rw [bind_apply, hp]; rfl⟩

/-- Growth goes on with what the step takes. -/
theorem Grows.next {step : α → Phrase (Option α)} {b : α} (hp : Grows p step l (k ++ rest) a)
    (hus : k ≠ []) (hs : Takes (step a) k rest (some b)) : Grows p step (l ++ k) rest b :=
  fun ms => by
  obtain ⟨limit, hl, h⟩ := hp ms
  cases limit with
  | nil => simp_all
  | cons t limit =>
    refine ⟨limit, ?_, ?_⟩
    · have := List.length_pos_iff.2 hus
      simp only [List.length_append, List.length_cons] at hl
      omega
    · rw [List.append_assoc, h, growUpTo, bind_apply, hs]

/-- Growth ends where the step takes nothing. -/
theorem Grows.takes {step : α → Phrase (Option α)} (hp : Grows p step l rest a)
    (hs : Takes (step a) [] rest none) : Takes p l rest a := fun ms => by
  obtain ⟨limit, -, h⟩ := hp ms
  rw [h]
  cases limit with
  | nil => rfl
  | cons t limit =>
    rw [growUpTo, bind_apply, show rest = [] ++ rest from rfl, hs]
    rfl

theorem Takes.commaList_one {tooMany : Complaint} {room : Nat} (hp : Takes p l rest a)
    (hr : rest.head?.any (·.isMark .comma) = false) :
    Takes (commaList p tooMany (room + 1)) l rest [a] := by
  rw [← List.append_nil l]
  refine hp.bind (Takes.bind (l := []) (a := none) (mark?_miss hr) ?_)
  exact Takes.pure

theorem Takes.commaList_more {tooMany : Complaint} {room : Nat}
    (hp : Takes p l (t :: k ++ rest) a) (ht : t.isMark .comma)
    (hs : Takes (commaList p tooMany room) k rest as) :
    Takes (commaList p tooMany (room + 1)) (l ++ t :: k) rest (a :: as) :=
  hp.bind ((Takes.mark?_hit ht).bind hs.give)

end Phrase

end LoxLang
