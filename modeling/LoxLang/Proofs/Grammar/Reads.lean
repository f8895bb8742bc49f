import LoxLang.Tree.Phrase
import Mathlib.Tactic.Common

/-!
# What a reader reads

`Reads k p D` says of a reader `p`: the tokens that it takes are a front of what there
was, the misfits that it meets come behind the old ones, and a value `a` that it gives
from the tokens `ts`, before `rest`, has `D ts rest a`. Without `k` the last part is said
only of a reading that recovers from nothing.
-/

namespace LoxLang

namespace Phrase

variable {α β : Type}

/-- From one cursor to a later one: the tokens passed and the misfits met. -/
def Passes (c d : Cursor) (ts : List Token) (ms : Array Misfit) : Prop :=
  c.rest = ts ++ d.rest ∧ d.misfits = c.misfits ++ ms

theorem Passes.refl (c : Cursor) : Passes c c [] #[] := by simp [Passes]

theorem Passes.trans {c d e : Cursor} {ts us : List Token} {ms ns : Array Misfit}
    (h : Passes c d ts ms) (h' : Passes d e us ns) : Passes c e (ts ++ us) (ms ++ ns) :=
  ⟨by rw [h.1, h'.1, List.append_assoc], by rw [h'.2, h.2, Array.append_assoc]⟩

/-- What a reader reads. -/
structure Reads (k : Bool) (p : Phrase α) (D : List Token → List Token → α → Prop) : Prop where
  ok : ∀ {c d : Cursor} {a : α}, p c = .ok a d →
    ∃ ts ms, Passes c d ts ms ∧ (k = true ∨ ms = #[] → D ts d.rest a)
  error : ∀ {c d : Cursor} {m : Misfit}, p c = .error m d → ∃ ts ms, Passes c d ts ms

variable {k : Bool} {p : Phrase α} {D : List Token → List Token → α → Prop}

theorem Reads.mono {E : List Token → List Token → α → Prop} (h : Reads k p D)
    (hDE : ∀ ts rest a, D ts rest a → E ts rest a) : Reads k p E where
  ok hc := by
    obtain ⟨ts, ms, hp, hd⟩ := h.ok hc
    exact ⟨ts, ms, hp, fun hk => hDE _ _ _ (hd hk)⟩
  error := h.error

/-- Two facts about one reader: the tokens taken are the same for both. -/
theorem Reads.and {E : List Token → List Token → α → Prop} (h : Reads k p D) (h' : Reads k p E) :
    Reads k p fun ts rest a => D ts rest a ∧ E ts rest a where
  ok hc := by
    obtain ⟨ts, ms, hp, hd⟩ := h.ok hc
    obtain ⟨us, ns, hq, he⟩ := h'.ok hc
    obtain rfl : ts = us := List.append_cancel_right (hp.1.symm.trans hq.1)
    obtain rfl : ms = ns := (Array.append_right_inj _).1 (hp.2.symm.trans hq.2)
    exact ⟨ts, ms, hp, fun hk => ⟨hd hk, he hk⟩⟩
  error := h.error

/-! ## Sequencing -/

theorem bind_apply (p : Phrase α) (f : α → Phrase β) (c : Cursor) :
    (p >>= f) c = match p c with
      | .ok a c => f a c
      | .error m c => .error m c := by
  simp only [bind, EStateM.bind]
  cases p c <;> rfl

theorem pure_apply (a : α) (c : Cursor) : (pure a : Phrase α) c = .ok a c := rfl

/-- One phrase, then another. -/
def Then (D : List Token → List Token → α → Prop) (E : α → List Token → List Token → β → Prop)
    (ts rest : List Token) (b : β) : Prop :=
  ∃ a us vs, ts = us ++ vs ∧ D us (vs ++ rest) a ∧ E a vs rest b

theorem Reads.pure (a : α) : Reads k (pure a : Phrase α) fun ts _ b => ts = [] ∧ b = a where
  ok h := by
    obtain ⟨rfl, rfl⟩ : _ = _ ∧ _ = _ := by simpa [pure_apply] using h
    exact ⟨[], #[], .refl _, fun _ => ⟨rfl, rfl⟩⟩
  error h := by simp [pure_apply] at h

/-- If a first phrase reads this and a second one reads that, together they read the one behind the
other. -/
theorem Reads.bind {f : α → Phrase β} {E : α → List Token → List Token → β → Prop}
    (hp : Reads k p D) (hf : ∀ a, Reads k (f a) (E a)) : Reads k (p >>= f) (Then D E) where
  ok {c e b} h := by
    rw [bind_apply] at h
    cases hc : p c with
    | ok a d =>
      rw [hc] at h
      obtain ⟨ts, ms, h₁, hD⟩ := hp.ok hc
      obtain ⟨us, ns, h₂, hE⟩ := (hf a).ok h
      refine ⟨ts ++ us, ms ++ ns, h₁.trans h₂, fun hk => ⟨a, ts, us, rfl, ?_, ?_⟩⟩
      · rw [← h₂.1]
        exact hD (hk.imp_right fun he => by simpa using (Array.append_eq_empty_iff.1 he).1)
      · exact hE (hk.imp_right fun he => by simpa using (Array.append_eq_empty_iff.1 he).2)
    | error m d => rw [hc] at h; cases h
  error {c e m} h := by
    rw [bind_apply] at h
    cases hc : p c with
    | ok a d =>
      rw [hc] at h
      obtain ⟨ts, ms, h₁, -⟩ := hp.ok hc
      obtain ⟨us, ns, h₂⟩ := (hf a).error h
      exact ⟨_, _, h₁.trans h₂⟩
    | error m d =>
      rw [hc] at h
      cases h
      exact hp.error hc

theorem map_apply (f : α → β) (p : Phrase α) (c : Cursor) :
    (f <$> p) c = match p c with
      | .ok a c => .ok (f a) c
      | .error m c => .error m c := by
  simp only [Functor.map, EStateM.map]
  cases p c <;> rfl

theorem Reads.map (f : α → β) (hp : Reads k p D) :
    Reads k (f <$> p) fun ts rest b => ∃ a, b = f a ∧ D ts rest a where
  ok {c d b} h := by
    rw [map_apply] at h
    cases hc : p c with
    | error m e => rw [hc] at h; cases h
    | ok a e =>
      rw [hc] at h
      cases h
      obtain ⟨ts, ms, hq, ha⟩ := hp.ok hc
      exact ⟨ts, ms, hq, fun hk => ⟨a, rfl, ha hk⟩⟩
  error {c d m} h := by
    rw [map_apply] at h
    cases hc : p c with
    | error m e => rw [hc] at h; cases h; exact hp.error hc
    | ok a e => rw [hc] at h; cases h

/-! ## Single tokens -/

theorem Reads.refuse (complaint : Complaint) {D : List Token → List Token → α → Prop} :
    Reads k (refuse complaint) D where
  ok h := by cases h
  error h := by cases h; exact ⟨_, _, .refl _⟩

theorem Reads.throw (m : Misfit) {D : List Token → List Token → α → Prop} :
    Reads k (throw m : Phrase α) D where
  ok h := by cases h
  error h := by cases h; exact ⟨_, _, .refl _⟩

theorem Reads.peek : Reads k peek fun ts rest t => ts = [] ∧ t = rest.head? where
  ok h := by cases h; exact ⟨_, _, .refl _, fun _ => ⟨rfl, rfl⟩⟩
  error h := by cases h

/-- A token is taken just if it passes the test. -/
theorem Reads.take? (test : Token → Bool) : Reads k (take? test) fun ts rest o =>
    (∃ t, o = some t ∧ ts = [t] ∧ test t) ∨ (o = none ∧ ts = [] ∧ rest.head?.any test = false) where
  ok {c d o} h := by
    obtain ⟨rest, ms⟩ := c
    cases rest with
    | nil => cases h; exact ⟨[], #[], .refl _, fun _ => .inr ⟨rfl, rfl, rfl⟩⟩
    | cons t rest =>
      simp only [Phrase.take?] at h
      split at h
      next ht => cases h; exact ⟨[t], #[], ⟨rfl, by simp⟩, fun _ => .inl ⟨t, rfl, rfl, ht⟩⟩
      next ht =>
        cases h
        exact ⟨[], #[], .refl _, fun _ => .inr ⟨rfl, rfl, by simpa using ht⟩⟩
  error {c d m} h := by
    obtain ⟨rest, ms⟩ := c
    cases rest with
    | nil => cases h
    | cons t rest => simp only [Phrase.take?] at h; split at h <;> cases h

theorem Reads.expect (test : Token → Bool) (complaint : Complaint) :
    Reads k (expect test complaint) fun ts _ t => ts = [t] ∧ test t where
  ok {c d t} h := by
    obtain ⟨rest, ms⟩ := c
    cases rest with
    | nil => cases h
    | cons t rest =>
      simp only [Phrase.expect] at h
      split at h
      next ht => cases h; exact ⟨[t], #[], ⟨rfl, by simp⟩, fun _ => ⟨rfl, ht⟩⟩
      next ht => cases h
  error {c d m} h := by
    obtain ⟨rest, ms⟩ := c
    cases rest with
    | nil => cases h; exact ⟨_, _, .refl _⟩
    | cons t rest =>
      simp only [Phrase.expect] at h
      split at h
      · cases h
      · cases h; exact ⟨_, _, .refl _⟩

theorem Reads.mark (m : Mark) (complaint : Complaint) :
    Reads k (mark m complaint) fun ts _ _ => ∃ t, ts = [t] ∧ t.isMark m :=
  (Reads.bind (Reads.expect _ _) fun _ => Reads.pure ()).mono (by
    rintro ts rest - ⟨t, us, vs, rfl, ⟨rfl, ht⟩, rfl, -⟩
    exact ⟨t, by simp, ht⟩)

theorem Reads.identifier (complaint : Complaint) :
    Reads k (identifier complaint) fun ts _ n => ∃ t, ts = [t] ∧ t.isIdentifier ∧ n = t.name :=
  (Reads.bind (Reads.expect _ _) fun t => Reads.pure t.name).mono (by
    rintro ts rest n ⟨t, us, vs, rfl, ⟨rfl, ht⟩, rfl, rfl⟩
    exact ⟨t, by simp, ht, rfl⟩)

/-- A mark is taken just if it comes next. -/
theorem Reads.mark? (m : Mark) : Reads k (mark? m) fun ts rest o =>
    (∃ t, o = some t.place ∧ ts = [t] ∧ t.isMark m) ∨
      (o = none ∧ ts = [] ∧ rest.head?.any (·.isMark m) = false) :=
  (Reads.bind (Reads.take? _) fun o => Reads.pure (o.map Token.place)).mono (by
    rintro ts rest o ⟨a, us, vs, rfl, ⟨t, rfl, rfl, ht⟩ | ⟨rfl, rfl, hr⟩, rfl, rfl⟩
    · exact .inl ⟨t, rfl, by simp, ht⟩
    · exact .inr ⟨rfl, by simp, by simpa using hr⟩)

theorem Reads.atMark (m : Mark) : Reads k (atMark m) fun ts rest b =>
    ts = [] ∧ b = rest.head?.any (·.isMark m) :=
  (Reads.bind Reads.peek fun o => Reads.pure (o.any (·.isMark m))).mono (by
    rintro ts rest b ⟨o, us, vs, rfl, ⟨rfl, rfl⟩, rfl, rfl⟩
    exact ⟨rfl, rfl⟩)

/-! ## Repetition -/

/-- What a step reads that takes nothing if it gives nothing. -/
def Maybe (D : List Token → List Token → α → Prop) (ts rest : List Token) : Option α → Prop
  | some a => D ts rest a
  | none => ts = []

/-- What each repetition adds in front holds of the whole list, whatever the bound on repetitions.
-/
theorem Reads.manyUpTo {step : Phrase (Option α)} (L : List Token → List α → Prop)
    (hstep : Reads k step (Maybe fun ts _ a => ∀ us as, L us as → L (ts ++ us) (a :: as)))
    (hnil : L [] []) : ∀ limit, Reads k (manyUpTo step limit) fun ts _ as => L ts as
  | [] => (Reads.pure []).mono (by rintro ts - as ⟨rfl, rfl⟩; exact hnil)
  | t :: limit => by
    refine (hstep.bind (E := fun o ts _ as => o.elim (ts = [] ∧ as = [])
      fun a => ∃ bs, as = a :: bs ∧ L ts bs) fun o => ?_).mono ?_
    · cases o with
      | none => exact Reads.pure []
      | some a =>
        refine ((Reads.manyUpTo L hstep hnil limit).bind fun as => Reads.pure (a :: as)).mono ?_
        rintro ts rest as ⟨bs, us, vs, rfl, hL, rfl, rfl⟩
        exact ⟨bs, rfl, by simpa using hL⟩
    · rintro ts rest as ⟨o, us, vs, rfl, ho, has⟩
      cases o with
      | none =>
        obtain ⟨rfl, rfl⟩ := has
        simpa [show us = [] from ho] using hnil
      | some a =>
        obtain ⟨bs, rfl, hL⟩ := has
        exact ho vs bs hL

/-- As many repetitions are read as there are. -/
theorem Reads.many {step : Phrase (Option α)} (L : List Token → List α → Prop)
    (hstep : Reads k step (Maybe fun ts _ a => ∀ us as, L us as → L (ts ++ us) (a :: as)))
    (hnil : L [] []) : Reads k (many step) fun ts _ as => L ts as where
  ok h := (Reads.manyUpTo L hstep hnil _).ok h
  error h := (Reads.manyUpTo L hstep hnil _).error h

theorem exists_passes_of_manyUpTo {step : Phrase (Option α)} {S : List Token → Prop}
    (hstep : Reads k step fun ts rest o => match o with
      | some _ => ts ≠ []
      | none => ts = [] ∧ S rest) (hs : S []) :
    ∀ (limit : List Token) {c d : Cursor} {as : List α}, c.rest.length ≤ limit.length →
      manyUpTo step limit c = .ok as d →
      ∃ ts ms, Passes c d ts ms ∧ (k = true ∨ ms = #[] → S d.rest ∧ (as = [] → ts = []))
  | [], c, d, as, hl, h => by
    cases h
    have : c.rest = [] := List.length_eq_zero_iff.1 (by simpa using hl)
    exact ⟨[], #[], .refl _, fun _ => ⟨this ▸ hs, fun _ => rfl⟩⟩
  | t :: limit, c, d, as, hl, h => by
    rw [manyUpTo, bind_apply] at h
    cases hc : step c with
    | error m e => rw [hc] at h; cases h
    | ok o e =>
      rw [hc] at h
      obtain ⟨ts, ms, hp, ho⟩ := hstep.ok hc
      cases o with
      | none => cases h; exact ⟨ts, ms, hp, fun hk => ⟨(ho hk).2, fun _ => (ho hk).1⟩⟩
      | some a =>
        simp only [bind_apply] at h
        cases hm : manyUpTo step limit e with
        | error m e' => rw [hm] at h; cases h
        | ok bs e' =>
          rw [hm] at h
          cases h
          by_cases hts : ts = []
          · obtain ⟨us, ns, hq⟩ : ∃ us ns, Passes e d us ns :=
              let ⟨us, ns, hq, _⟩ := (Reads.manyUpTo (fun _ _ => True)
                (hstep.mono (by rintro ts rest (- | a) h; exacts [h.1, fun _ _ _ => trivial]))
                trivial limit).ok hm
              ⟨us, ns, hq⟩
            refine ⟨ts ++ us, ms ++ ns, hp.trans hq, fun hk => ?_⟩
            exact absurd hts (ho (hk.imp_right fun h => (Array.append_eq_empty_iff.1 h).1))
          · have : e.rest.length ≤ limit.length := by
              have h₁ := congrArg List.length hp.1
              have h₂ : 0 < ts.length := List.length_pos_iff.2 hts
              simp only [List.length_append, List.length_cons] at h₁ hl
              omega
            obtain ⟨us, ns, hq, hb⟩ := exists_passes_of_manyUpTo hstep hs limit this hm
            refine ⟨ts ++ us, ms ++ ns, hp.trans hq, fun hk => ⟨(hb ?_).1, by simp⟩⟩
            exact hk.imp_right fun h => (Array.append_eq_empty_iff.1 h).2

/-- A repetition whose steps all take tokens ends where its step does, not for want of
limit. -/
theorem Reads.many_stop {step : Phrase (Option α)} {S : List Token → Prop}
    (hstep : Reads k step fun ts rest o => match o with
      | some _ => ts ≠ []
      | none => ts = [] ∧ S rest) (hs : S []) :
    Reads k (Phrase.many step) fun ts rest as => S rest ∧ (as = [] → ts = []) where
  ok h := exists_passes_of_manyUpTo hstep hs _ (Nat.le_refl _) h
  error h := (Reads.manyUpTo (fun _ _ => True)
    (hstep.mono (by rintro ts rest (- | a) h; exacts [h.1, fun _ _ _ => trivial]))
    trivial _).error h

/-- `I us a` says that the tokens `us` are an `a`. -/
theorem Reads.growUpTo {step : α → Phrase (Option α)} (I : List Token → α → Prop)
    (hstep : ∀ a, Reads k (step a) (Maybe fun ts _ b => ∀ us, I us a → I (us ++ ts) b)) :
    ∀ limit a, Reads k (growUpTo step limit a) fun ts _ b => ∀ us, I us a → I (us ++ ts) b
  | [], a => (Reads.pure a).mono (by rintro ts - b ⟨rfl, rfl⟩ us hI; simpa using hI)
  | t :: limit, a => by
    refine ((hstep a).bind (E := fun o ts _ b => o.elim (ts = [] ∧ b = a)
      fun b' => ∀ us, I us b' → I (us ++ ts) b) fun o => ?_).mono ?_
    · cases o with
      | none => exact Reads.pure a
      | some b => exact Reads.growUpTo I hstep limit b
    · rintro ts rest b ⟨o, us, vs, rfl, ho, hb⟩ ws hI
      cases o with
      | none =>
        obtain ⟨rfl, rfl⟩ := hb
        simpa [show us = [] from ho] using hI
      | some b' => simpa using hb _ (ho ws hI)

/-- What each step adds behind holds of what has grown. -/
theorem Reads.grow {step : α → Phrase (Option α)} (I : List Token → α → Prop)
    (hstep : ∀ a, Reads k (step a) (Maybe fun ts _ b => ∀ us, I us a → I (us ++ ts) b)) (a : α) :
    Reads k (grow step a) fun ts _ b => ∀ us, I us a → I (us ++ ts) b where
  ok h := (Reads.growUpTo I hstep _ a).ok h
  error h := (Reads.growUpTo I hstep _ a).error h

/-- A list of items between commas has no more of them than there is room for. -/
theorem Reads.commaList {item : Phrase α} {tooMany : Complaint} (L : List Token → List α → Prop)
    (hitem : Reads k item fun ts _ a => L ts [a] ∧
      ∀ t us as, t.isMark .comma → L us as → L (ts ++ t :: us) (a :: as)) :
    ∀ room, Reads k (commaList item tooMany room) fun ts _ as => L ts as ∧ as.length ≤ room
  | 0 => Reads.refuse _
  | room + 1 => by
    refine (hitem.bind fun a => (Reads.mark? .comma).bind
      (E := fun o ts _ as => o.elim (ts = [] ∧ as = [a])
        fun _ => ∃ bs, as = a :: bs ∧ L ts bs ∧ bs.length ≤ room) fun o => ?_).mono ?_
    · cases o with
      | none => exact Reads.pure [a]
      | some _ =>
        refine ((Reads.commaList L hitem room).bind fun as => Reads.pure (a :: as)).mono ?_
        rintro ts rest as ⟨bs, us, vs, rfl, ⟨hL, hb⟩, rfl, rfl⟩
        exact ⟨bs, rfl, by simpa using hL, hb⟩
    · rintro ts rest as ⟨a, us, vs, rfl, ⟨hone, hmore⟩, o, ws, xs, rfl, ho, has⟩
      rcases ho with ⟨t, rfl, rfl, ht⟩ | ⟨rfl, rfl, -⟩
      · obtain ⟨bs, rfl, hL, hb⟩ := has
        exact ⟨by simpa using hmore t xs bs ht hL, by simpa using hb⟩
      · obtain ⟨rfl, rfl⟩ := has
        exact ⟨by simpa using hone, by simp⟩

/-! ## Recovery -/

theorem exists_eq_append_boundary : ∀ (last : Token) (l : List Token), ∃ ts, l = ts ++ boundary last l
  | _, [] => ⟨[], rfl⟩
  | last, t :: rest => by
    rw [boundary]
    split
    · exact ⟨[], rfl⟩
    · obtain ⟨ts, h⟩ := exists_eq_append_boundary t rest
      exact ⟨t :: ts, by rw [List.cons_append, ← h]⟩

theorem exists_eq_append_resume : ∀ l : List Token, ∃ ts, l = ts ++ resume l
  | [] => ⟨[], rfl⟩
  | t :: rest => by
    obtain ⟨ts, h⟩ := exists_eq_append_boundary t rest
    exact ⟨t :: ts, by rw [resume, List.cons_append, ← h]⟩

/-- What is read where tokens may be passed over, unless that is left out of account. -/
def Recovered (k : Bool) (D : List Token → List Token → α → Prop) (ts rest : List Token) :
    Option α → Prop
  | some a => D ts rest a
  | none => k = true

theorem Reads.recovering (h : Reads k p D) : Reads k (recovering p) (Recovered k D) where
  ok {c e o} hr := by
    simp only [Phrase.recovering] at hr
    cases hc : p c with
    | ok a d => rw [hc] at hr; cases hr; exact h.ok hc
    | error m d =>
      rw [hc] at hr
      cases hr
      obtain ⟨ts, ms, h₁⟩ := h.error hc
      obtain ⟨us, hu⟩ := exists_eq_append_resume d.rest
      refine ⟨ts ++ us, ms.push m, ⟨by rw [h₁.1, List.append_assoc, ← hu], ?_⟩, fun hk => ?_⟩
      · rw [h₁.2, Array.append_push]
      · exact hk.resolve_right (by simp)
  error {c d m} hr := by
    simp only [Phrase.recovering] at hr
    cases hc : p c <;> rw [hc] at hr <;> cases hr

end Phrase

end LoxLang
