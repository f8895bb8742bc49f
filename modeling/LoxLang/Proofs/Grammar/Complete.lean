import LoxLang.Proofs.Grammar.Sound
import LoxLang.Proofs.Grammar.Takes

/-!
# Whatever derives is read

A list with a derivation is taken whole by the reader of its phrase, whatever comes
behind it that the phrase has no grip on, and gives the tree of the derivation.
-/

namespace LoxLang

/-! ## What holds a phrase open -/

/-- How firmly a mark holds on to the expression before it: a phrase reads on behind an
expression if it knows marks of this grip. -/
def Mark.grip : Mark → Nat
  | .comma => 1
  | .equal => 2
  | .orWord => 3
  | .andWord => 4
  | .bangEqual | .equalEqual => 5
  | .greater | .greaterEqual | .less | .lessEqual => 6
  | .minus | .plus => 7
  | .star | .slash => 8
  | .leftParen | .dot => 9
  | _ => 0

def Rank.index : Rank → Nat
  | or => 0
  | and => 1
  | equality => 2
  | comparison => 3
  | term => 4
  | factor => 5

def Rank.grip (r : Rank) : Nat := r.index + 3

namespace Grammar

open Phrase

/-- The tokens hold on to the expression before them with less than `n`. -/
def Loose (n : Nat) (rest : List Token) : Prop :=
  ∀ m : Mark, n ≤ m.grip → rest.head?.any (·.isMark m) = false

/-- What may follow where operators bind tightly may follow where they bind less tightly. -/
theorem Loose.mono {n k : Nat} {rest : List Token} (h : Loose n rest) (hnk : n ≤ k) : Loose k rest :=
  fun m hm => h m (Nat.le_trans hnk hm)

theorem loose_nil (n : Nat) : Loose n [] := fun _ _ => rfl

theorem loose_cons {n : Nat} {t : Token} {m : Mark} (ht : t.isMark m) (hm : m.grip < n)
    (rest : List Token) : Loose n (t :: rest) := fun k hk => by
  simp only [List.head?_cons, Option.any_some, Token.isMark_eq_decide ht, decide_eq_false_iff_not]
  rintro rfl
  exact absurd hk (Nat.not_le.2 hm)

theorem grip_of_mem_table {r : Rank} {m : Mark} {op : BinaryOp} (h : (m, op) ∈ r.table) :
    m.grip = r.grip := by
  have : ∀ e ∈ r.table, e.1.grip = r.grip := by cases r <;> decide
  exact this _ h

theorem nodup_table (r : Rank) : (r.table.map Prod.fst).Nodup := by cases r <;> decide

/-! ## Operators -/

section
variable {ω : Type} {table : List (Mark × ω)} {t : Token} {m : Mark} {op : ω} {rest : List Token}

theorem find?_of_mem (hd : (table.map Prod.fst).Nodup) (hm : (m, op) ∈ table) (ht : t.isMark m) :
    table.find? (fun o => t.isMark o.1) = some (m, op) := by
  induction table with
  | nil => cases hm
  | cons e table ih =>
    rw [List.map_cons, List.nodup_cons] at hd
    rw [List.find?_cons]
    rcases List.mem_cons.1 hm with rfl | hm
    · simp [ht]
    · have hne : m ≠ e.1 := fun he => hd.1 (he ▸ List.mem_map_of_mem (f := Prod.fst) hm)
      have he : t.isMark e.1 = false := by rw [Token.isMark_eq_decide ht, decide_eq_false hne]
      rw [he, ih hd.2 hm]

theorem takes_operator? (hd : (table.map Prod.fst).Nodup) (hm : (m, op) ∈ table)
    (ht : t.isMark m) : Takes (operator? table) [t] rest (some (op, t.place)) := fun ms => by
  simp [operator?, bind_apply, pure_apply, take?, find?_of_mem hd hm ht]

theorem takes_operator?_none (h : ∀ e ∈ table, rest.head?.any (·.isMark e.1) = false) :
    Takes (operator? table) [] rest none := by
  have hn : rest.head?.any (fun t => (table.find? fun o => t.isMark o.1).isSome) = false := by
    cases rest with
    | nil => rfl
    | cons t rest => simpa using h
  exact (Takes.take?_miss hn).bind (l := []) Takes.pure

end

/-- The reader of the operands of a rank. -/
def operandOf (inn : Inner) (r : Rank) : Phrase Expr :=
  (levels.drop (r.index + 1)).foldr level (unary inn)

theorem operandOf_tighter {r q : Rank} (h : r.tighter? = some q) (inn : Inner) :
    operandOf inn r = level q.table (operandOf inn q) := by
  cases r <;> cases h <;> rfl

theorem operandOf_tightest {r : Rank} (h : r.tighter? = none) (inn : Inner) :
    operandOf inn r = unary inn := by
  cases r <;> cases h; rfl

theorem grip_of_tighter {r q : Rank} (h : r.tighter? = some q) : q.grip = r.grip + 1 := by
  cases r <;> cases h <;> rfl

theorem grip_of_tightest {r : Rank} (h : r.tighter? = none) : r.grip = 8 := by
  cases r <;> cases h; rfl

section
variable {r : Rank} {operand : Phrase Expr} {t : Token} {m : Mark} {op : BinaryOp}
  {ts us rest : List Token} {left right v : Expr}

/-- A level goes on with an operator of its table and one more operand. -/
theorem grows_level_next (hl : Grows (level r.table operand) (joined? r.table operand) ts
      (t :: us ++ rest) left) (hm : (m, op) ∈ r.table) (ht : t.isMark m)
    (ho : Takes operand us rest right) :
    Grows (level r.table operand) (joined? r.table operand) (ts ++ t :: us) rest
      (.binary op left right t.place) :=
  hl.next (List.cons_ne_nil _ _)
    ((takes_operator? (nodup_table r) hm ht).bind (l := [t]) ho.give)

theorem takes_level (hv : Grows (level r.table operand) (joined? r.table operand) ts rest v)
    (hr : Loose r.grip rest) : Takes (level r.table operand) ts rest v := by
  refine hv.takes (Takes.bind (l := []) (takes_operator?_none fun e he => hr e.1 ?_) Takes.pure)
  exact Nat.le_of_eq (@grip_of_mem_table r e.1 e.2 he).symm

end

variable {inn : Inner} {ts us vs rest : List Token} {t d l n q r w : Token} {e f v : Expr}
  {ss : List Stmt}

theorem takes_unary {m : Mark} {op : UnaryOp} (hm : (m, op) ∈ unaryOperators) (ht : t.isMark m)
    (hu : Takes inn.unary us rest v) :
    Takes (unary inn) (t :: us) rest (.unary op v t.place) :=
  (takes_operator? (by decide) hm ht).bind (l := [t]) hu.give

theorem takes_unary_call (hb : Begins Mark.beginsPrimary ts) (hv : Takes (call inn) ts rest v) :
    Takes (unary inn) ts rest v := by
  refine Takes.bind (l := []) (takes_operator?_none fun e he => (hb.append rest).head_ne ?_) hv
  have : ∀ e ∈ unaryOperators, e.1.beginsPrimary = false := by decide
  exact this e he

/-- A call goes through all levels as it is. -/
theorem takes_operators_call (hb : Begins Mark.beginsPrimary ts) (hv : Takes (call inn) ts rest v)
    (hr : Loose Rank.or.grip rest) : Takes (operators inn) ts rest v := by
  have up {r : Rank} {p : Phrase Expr} (h : Takes p ts rest v) : Takes (level r.table p) ts rest v :=
    takes_level (Grows.first h) (hr.mono (by cases r <;> decide))
  exact up (r := .or) (up (r := .and) (up (r := .equality) (up (r := .comparison)
    (up (r := .term) (up (r := .factor) (takes_unary_call hb hv))))))

theorem takes_call (hv : Grows (call inn) (suffix? inn) ts rest v) (hr : Loose 9 rest) :
    Takes (call inn) ts rest v :=
  hv.takes (Takes.miss (hr .leftParen (by decide)) (Takes.miss (hr .dot (by decide)) Takes.pure))

/-- A call goes on with an argument list in parentheses. -/
theorem grows_call_call {es : List Expr}
    (hf : Grows (call inn) (suffix? inn) ts (l :: (us ++ [r]) ++ rest) f) (hl : l.isMark .leftParen)
    (he : Takes (argumentList inn) us (r :: rest) es) (hr : r.isMark .rightParen) :
    Grows (call inn) (suffix? inn) (ts ++ l :: (us ++ [r])) rest (.call f es l.place) :=
  hf.next (List.cons_ne_nil _ _) (Takes.hit hl (Takes.give (he.bind ((Takes.mark hr).give))))

/-- A call goes on with a dot and the name of a property that is read. -/
theorem grows_call_get (he : Grows (call inn) (suffix? inn) ts (d :: n :: rest) e)
    (hd : d.isMark .dot) (hn : n.isIdentifier) :
    Grows (call inn) (suffix? inn) (ts ++ [d, n]) rest (.get e n.name) := by
  refine he.next (k := [d, n]) (List.cons_ne_nil _ _)
    (Takes.miss ?_ (Takes.hit hd (Takes.identifier hn).give))
  simp [Token.isMark_eq_decide hd]

/-! ## Primary expressions -/

theorem takes_atom (h : atom? t = some e) : Takes (primary inn) [t] rest e := fun ms => by
  simp [primary, bind_apply, map_apply, Phrase.peek, skip, h]

/-- A word that is no expression alone is looked at once more. -/
theorem takes_primary_of_none (h : atom? t = none)
    (hp : Takes (mark? .superWord >>= fun o => match o with
      | some place => superMethod place
      | _ => mark? .funWord >>= fun o => match o with
        | some place => lambda inn place
        | _ => mark? .leftParen >>= fun o => match o with
          | some place => group inn place
          | _ => refuse .expression) (t :: us) rest e) :
    Takes (primary inn) (t :: us) rest e := by
  refine Takes.bind (l := []) Takes.peek ?_
  simp only [List.cons_append, List.head?_cons, Option.bind_some, h]
  exact hp

theorem takes_super (hw : w.isMark .superWord) (hd : d.isMark .dot) (hn : n.isIdentifier) :
    Takes (primary inn) [w, d, n] rest (.super n.name none w.place) := by
  refine takes_primary_of_none (by rw [atom?, Token.isMark_iff.1 hw]) (Takes.hit hw ?_)
  exact (Takes.mark hd).bind (l := [d]) (Takes.identifier hn).give

theorem takes_group (hl : l.isMark .leftParen) (hv : Takes inn.expression us (r :: rest) v)
    (hr : r.isMark .rightParen) :
    Takes (primary inn) (l :: (us ++ [r])) rest (.group v l.place) := by
  refine takes_primary_of_none (by rw [atom?, Token.isMark_iff.1 hl]) (Takes.miss ?_
    (Takes.miss ?_ (Takes.hit hl (hv.bind (Takes.mark hr).give))))
  · simp [Token.isMark_eq_decide hl]
  · simp [Token.isMark_eq_decide hl]

/-- The mark, and behind it what the reader takes. -/
def Behind {α : Type} (m : Mark) (p : Phrase α) (ts : List Token) (a : α) : Prop :=
  ∃ l us, ts = l :: us ∧ l.isMark m ∧ ∀ rest, Takes p us rest a

/-- Parameters, where the closing parenthesis follows. -/
def TakesParams (ts : List Token) (ns : List Name) : Prop :=
  ∀ r rest, r.isMark .rightParen → Takes params (ts ++ [r]) rest ns

/-- Behind `fun` and an opening parenthesis a lambda is taken. -/
theorem takes_lambda {ps bs : List Token} {ns : List Name} (hw : w.isMark .funWord)
    (hl : l.isMark .leftParen) (hp : TakesParams ps ns) (hr : r.isMark .rightParen)
    (hb : Behind .leftBrace (blockBody inn) bs ss) :
    Takes (primary inn) (w :: l :: (ps ++ r :: bs)) rest (.lambda ns ss w.place) := by
  obtain ⟨b, us, rfl, hb, hus⟩ := hb
  refine takes_primary_of_none (by rw [atom?, Token.isMark_iff.1 hw]) (Takes.miss ?_
    (Takes.hit hw (((Takes.mark hl).bind (l := [l]) ((hp r _ hr).bind
      ((Takes.mark hb).bind (l := [b]) (hus rest).give))).congr (by simp))))
  simp [Token.isMark_eq_decide hw]

/-- A name, parameters and a block are taken as a function. -/
theorem takes_function {ps bs : List Token} {ns : List Name} {word : FunctionWord}
    (hn : n.isIdentifier) (hl : l.isMark .leftParen) (hp : TakesParams ps ns)
    (hr : r.isMark .rightParen) (hb : Behind .leftBrace (blockBody inn) bs ss) :
    Takes (function inn word) (n :: l :: (ps ++ r :: bs)) rest (.mk n.name ns ss) := by
  obtain ⟨b, us, rfl, hb, hus⟩ := hb
  exact ((Takes.identifier hn).bind (l := [n]) ((Takes.mark hl).bind (l := [l])
    ((hp r _ hr).bind ((Takes.mark hb).bind (l := [b]) (hus rest).give)))).congr (by simp)

theorem takes_noParams : TakesParams [] [] := fun r rest hr => by
  refine Takes.bind (l := []) (k := [r]) (a := []) ?_ (Takes.mark hr).give
  refine Takes.bind (l := []) Takes.atMark ?_
  simp only [List.nil_append, List.cons_append, List.head?_cons, Option.any_some, hr, if_true]
  exact Takes.pure

theorem takes_names {ns : List Name} (h : Names ts ns) : ∀ {room}, ns.length ≤ room →
    ∀ {rest}, Loose 1 rest →
      Takes (commaList (identifier .paramName) .tooManyParams room) ts rest ns := by
  induction h with
  | one ht =>
    rintro (- | room) hr rest hrest
    · simp at hr
    · exact (Takes.identifier ht).commaList_one (hrest .comma (by decide))
  | more ht hc hL ih =>
    rintro (- | room) hr rest hrest
    · simp at hr
    · exact (Takes.identifier ht).commaList_more hc (ih (by simpa using hr) hrest)

theorem takes_params {ns : List Name} (h : Names ts ns) (hm : ns.length ≤ maxArity) :
    TakesParams ts ns := fun r rest hr => by
  refine Takes.bind (k := [r]) (a := ns) ?_ (Takes.mark hr).give
  refine Takes.bind (l := []) Takes.atMark ?_
  have ha : (ts ++ ([r] ++ rest)).head?.any (·.isMark .rightParen) = false := by
    cases h with
    | one ht => simp [Token.isMark_eq_false_of_isIdentifier ht]
    | more ht => simp [Token.isMark_eq_false_of_isIdentifier ht]
  rw [ha]
  exact takes_names h hm (loose_cons hr (by decide) rest)

/-! ## Assignments and sequences -/

/-- An assignment is taken where what stands before the `=` can be assigned to. -/
theorem takes_assignTo? {target : Expr} (ht : Takes (operators inn) ts (q :: us ++ rest) target)
    (hq : q.isMark .equal) (hv : Takes inn.assignment us rest v)
    (he : assignTo? v target = some e) : Takes (assignment inn) (ts ++ q :: us) rest e := by
  refine ht.bind (Takes.bind (l := [q]) (a := some q) (Takes.take?_hit hq) ?_)
  refine Takes.congr (hv.bind (k := []) ?_) (List.append_nil us)
  simp only [he]
  exact Takes.pure

theorem takes_assign (hn : n.isIdentifier) (hq : q.isMark .equal)
    (hv : Takes inn.assignment us rest v) :
    Takes (assignment inn) (n :: q :: us) rest (.assign n.name.reference v) := by
  have hl : Loose 3 (q :: us ++ rest) := loose_cons hq (by decide) _
  have hc : Takes (call inn) [n] (q :: us ++ rest) (.read n.name.reference) :=
    takes_call (.first (takes_atom (by rw [atom?, Token.isIdentifier_iff.1 hn])))
      (hl.mono (by decide))
  have ht : Takes (operators inn) [n] (q :: us ++ rest) (.read n.name.reference) :=
    takes_operators_call (.of_isIdentifier hn []) hc hl
  exact takes_assignTo? ht hq hv rfl

/-- A property is set where a call ends in a name with an `=` behind it. -/
theorem takes_set (hb : Begins Mark.beginsPrimary ts)
    (he : Grows (call inn) (suffix? inn) ts (d :: n :: q :: us ++ rest) e) (hd : d.isMark .dot)
    (hn : n.isIdentifier) (hq : q.isMark .equal) (hv : Takes inn.assignment us rest v) :
    Takes (assignment inn) (ts ++ d :: n :: q :: us) rest (.set e n.name v) := by
  have hl : Loose 3 (q :: us ++ rest) := loose_cons hq (by decide) _
  have hc : Takes (call inn) (ts ++ [d, n]) (q :: us ++ rest) (.get e n.name) :=
    takes_call (grows_call_get he hd hn) (hl.mono (by decide))
  exact (takes_assignTo? (takes_operators_call (hb.append _) hc hl) hq hv rfl).congr (by simp)

theorem takes_value (hv : Takes (operators inn) ts rest v) (hr : Loose 2 rest) :
    Takes (assignment inn) ts rest v := by
  refine Takes.congr (hv.bind (k := []) ?_) (List.append_nil ts)
  refine Takes.bind (l := []) (a := none) (Takes.take?_miss (hr .equal (by decide))) ?_
  exact Takes.pure

/-- Takes assignments with commas between them, as a list in brackets and as a sequence. -/
def TakesItems (inn : Inner) (ts : List Token) (es : List Expr) : Prop :=
  ∀ rest, Loose 1 rest →
    (∀ room, es.length ≤ room →
      Takes (commaList (assignment inn) .tooManyArguments room) ts rest es) ∧
    ∀ c, c.isMark .comma → TakesMany (nextItem? inn) (c :: ts) rest es

theorem takes_nextItem? {c : Token} (hc : c.isMark .comma) (hv : Takes (assignment inn) ts rest v) :
    Takes (nextItem? inn) (c :: ts) rest (some v) :=
  (Takes.mark?_hit hc).bind (l := [c]) hv.give

theorem takesItems_one (hv : ∀ rest, Loose 2 rest → Takes (assignment inn) ts rest v) :
    TakesItems inn ts [v] := fun rest hr => by
  have hv' := hv rest (hr.mono (by decide))
  refine ⟨?_, fun c hc => ?_⟩
  · rintro (- | room) h
    · simp at h
    · exact hv'.commaList_one (hr .comma (by decide))
  · have hn : Takes (nextItem? inn) [] rest none :=
      Takes.bind (l := []) (a := none) (Takes.mark?_miss (hr .comma (by decide))) Takes.pure
    have := (TakesMany.nil hn).cons (List.cons_ne_nil c ts)
      (takes_nextItem? hc (by simpa using hv'))
    simpa using this

/-- Items go on behind a comma. -/
theorem takesItems_cons {c : Token} {es : List Expr}
    (hv : ∀ rest, Loose 2 rest → Takes (assignment inn) ts rest v) (hc : c.isMark .comma)
    (hs : TakesItems inn us es) : TakesItems inn (ts ++ c :: us) (v :: es) := fun rest hr => by
  have hv' := hv (c :: us ++ rest) (loose_cons hc (by decide) _)
  refine ⟨?_, fun d hd => ?_⟩
  · rintro (- | room) h
    · simp at h
    · exact hv'.commaList_more hc ((hs rest hr).1 room (by simpa using h))
  · exact ((hs rest hr).2 c hc).cons (List.cons_ne_nil d ts) (takes_nextItem? hd hv')

theorem takes_single (hv : ∀ rest, Loose 2 rest → Takes (assignment inn) ts rest v)
    (hr : Loose 1 rest) : Takes (expression inn) ts rest v := by
  refine Takes.congr ((hv rest (hr.mono (by decide))).bind (k := [])
    (Takes.bind (l := []) Takes.peek ?_)) (List.append_nil ts)
  have : rest.head?.filter (·.isMark .comma) = none := by
    have := hr .comma (by decide)
    cases rest <;> simp_all
  simp only [List.nil_append, this]
  exact Takes.pure

/-- Two items or more make a sequence, placed at its first comma. -/
theorem takes_sequence {c : Token} {es : List Expr}
    (hv : ∀ rest, Loose 2 rest → Takes (assignment inn) ts rest v) (hc : c.isMark .comma)
    (hs : TakesItems inn us es) (hr : Loose 1 rest) :
    Takes (expression inn) (ts ++ c :: us) rest (.sequence (v :: es) c.place) := by
  refine (hv (c :: us ++ rest) (loose_cons hc (by decide) _)).bind
    (Takes.bind (l := []) Takes.peek ?_)
  simp only [List.cons_append, List.head?_cons, Option.filter_some, hc, if_true]
  exact ((hs rest hr).2 c hc).many.give

/-- Arguments are taken up to the closing parenthesis if there are not too many. -/
theorem takes_argumentList {es : List Expr} {inn' : Inner} (hb : Begins Mark.beginsExpression ts)
    (hi : inn'.assignment = assignment inn) (hs : TakesItems inn ts es) (hm : es.length ≤ maxArity)
    (hr : r.isMark .rightParen) : Takes (argumentList inn') ts (r :: rest) es := by
  refine Takes.bind (l := []) Takes.atMark ?_
  rw [(hb.append (r :: rest)).head_ne rfl, hi]
  exact (hs (r :: rest) (loose_cons hr (by decide) rest)).1 maxArity hm

theorem takes_noArgument (hr : r.isMark .rightParen) :
    Takes (argumentList inn) [] (r :: rest) [] := by
  refine Takes.bind (l := []) Takes.atMark ?_
  simp only [List.nil_append, List.head?_cons, Option.any_some, hr, if_true]
  exact Takes.pure

/-! ## Statements -/

/-- An expression, wherever it ends. -/
def TakesExpression (inn : Inner) (ts : List Token) (v : Expr) : Prop :=
  ∀ rest, Loose 1 rest → Takes (expression inn) ts rest v

/-- An expression or none, before a mark that decides between them. -/
def TakesOptional (inn : Inner) (ts : List Token) (o : Option Expr) : Prop :=
  ∀ m r rest, m.beginsExpression = false → m.grip = 0 → r.isMark m →
    Takes (expressionUnless inn m) ts (r :: rest) o

theorem takes_absent : TakesOptional inn [] none := fun m r rest _ _ hr => by
  refine Takes.bind (l := []) Takes.atMark ?_
  simp only [List.nil_append, List.head?_cons, Option.any_some, hr, if_true]
  exact Takes.pure

theorem takes_present (hb : Begins Mark.beginsExpression ts) (hv : TakesExpression inn ts v) :
    TakesOptional inn ts (some v) := fun m r rest hm hg hr => by
  refine Takes.bind (l := []) Takes.atMark ?_
  rw [(hb.append (r :: rest)).head_ne hm]
  exact (hv _ (loose_cons hr (by omega) rest)).map

theorem takes_varDecl (hw : w.isMark .varWord) (hn : n.isIdentifier) (he : q.isMark .semicolon) :
    Behind .varWord (varDecl inn) [w, n, q] (.declare n.name none) := by
  refine ⟨w, [n, q], rfl, hw, fun rest => (Takes.identifier hn).bind (l := [n]) ?_⟩
  refine Takes.bind (l := []) (k := [q]) (a := none) ?_ (Takes.mark he).give
  exact (Takes.mark?_miss (by simp [Token.isMark_eq_decide he])).bind (l := []) Takes.pure

/-- A variable is declared with the value behind the `=`. -/
theorem takes_varDeclWith (hw : w.isMark .varWord) (hn : n.isIdentifier) (hq : q.isMark .equal)
    (hv : TakesExpression inn us v) (hr : r.isMark .semicolon) :
    Behind .varWord (varDecl inn) (w :: n :: q :: (us ++ [r])) (.declare n.name (some v)) := by
  refine ⟨w, _, rfl, hw, fun rest => (Takes.identifier hn).bind (l := [n]) ?_⟩
  refine Takes.bind (l := q :: us) (k := [r]) (a := some v) ?_ (Takes.mark hr).give
  exact (Takes.mark?_hit hq).bind (l := [q]) (hv _ (loose_cons hr (by decide) rest)).map

theorem takes_expressionStatement (hv : TakesExpression inn us v) (hr : r.isMark .semicolon) :
    Takes (expressionStatement inn) (us ++ [r]) rest (.expression v) :=
  (hv _ (loose_cons hr (by decide) rest)).bind (Takes.mark hr).give

theorem takes_startNone (hr : r.isMark .semicolon) : Takes (forStart inn) [r] rest none :=
  Takes.hit hr Takes.pure

theorem takes_startVar {s : Stmt} (hs : Behind .varWord (varDecl inn) ts s) :
    Takes (forStart inn) ts rest (some s) := by
  obtain ⟨w, us, rfl, hw, hus⟩ := hs
  exact Takes.miss (by simp [Token.isMark_eq_decide hw]) (Takes.hit hw (hus rest).map)

theorem takes_startExpression {s : Stmt} (hb : Begins Mark.beginsExpression ts)
    (hs : Takes (expressionStatement inn) ts rest s) : Takes (forStart inn) ts rest (some s) :=
  Takes.miss ((hb.append rest).head_ne rfl) (Takes.miss ((hb.append rest).head_ne rfl) hs.map)

/-- A loop is taken with the parts that stand in its head, each of which may be missing. -/
theorem takes_forLoop {place : Place} {is cs bs : List Token} {m : Token} {initial : Option Stmt}
    {test step : Option Expr} {body : Stmt} (hl : l.isMark .leftParen)
    (hi : ∀ rest, Takes (forStart inn) is rest initial) (ht : TakesOptional inn cs test)
    (hm : m.isMark .semicolon) (hs : TakesOptional inn us step) (hr : r.isMark .rightParen)
    (hb : Takes inn.statement bs rest body) :
    Takes (forLoop inn place) (l :: (is ++ (cs ++ m :: (us ++ r :: bs)))) rest
      (.forLoop place initial test step body) :=
  (Takes.mark hl).bind (l := [l]) ((hi _).bind ((ht .semicolon m _ rfl rfl hm).bind
    ((Takes.mark hm).bind (l := [m]) ((hs .rightParen r _ rfl rfl hr).bind
      ((Takes.mark hr).bind (l := [r]) hb.give)))))

theorem takes_condition {complaint : Complaint} (hl : l.isMark .leftParen)
    (hv : TakesExpression inn us v) (hr : r.isMark .rightParen) :
    Takes (condition inn complaint) (l :: (us ++ [r])) rest v :=
  (Takes.mark hl).bind (l := [l]) ((hv _ (loose_cons hr (by decide) rest)).bind
    (Takes.mark hr).give)

/-- A condition in parentheses and a statement are taken as a loop. -/
theorem takes_whileLoop {place : Place} {body : Stmt} (hl : l.isMark .leftParen)
    (hv : TakesExpression inn us v) (hr : r.isMark .rightParen)
    (hb : Takes inn.statement ts rest body) :
    Takes (whileLoop inn place) (l :: (us ++ r :: ts)) rest (.loop v body place) :=
  ((takes_condition hl hv hr).bind hb.give).congr (by simp)

/-- Without an `else` behind it a branch ends with its statement. -/
theorem takes_branch {place : Place} {yes : Stmt} (hl : l.isMark .leftParen)
    (hv : TakesExpression inn us v) (hr : r.isMark .rightParen)
    (hy : Takes inn.statement ts rest yes) (hn : elseNext rest = false) :
    Takes (branch inn place) (l :: (us ++ r :: ts)) rest (.branch v yes none place) := by
  refine Takes.congr ((takes_condition hl hv hr).bind (hy.bind (k := []) (Takes.give ?_))) (by simp)
  exact Takes.bind (l := []) (a := none) (Takes.mark?_miss hn) Takes.pure

/-- An `else` behind the statement belongs to the branch. -/
theorem takes_branchElse {place : Place} {yes no : Stmt} {word : Token} (hl : l.isMark .leftParen)
    (hv : TakesExpression inn us v) (hr : r.isMark .rightParen)
    (hy : Takes inn.statement ts (word :: vs ++ rest) yes) (he : word.isMark .elseWord)
    (hn : Takes inn.statement vs rest no) :
    Takes (branch inn place) (l :: (us ++ r :: (ts ++ word :: vs))) rest
      (.branch v yes (some no) place) := by
  refine Takes.congr ((takes_condition hl hv hr).bind (hy.bind (k := word :: vs) (Takes.give ?_)))
    (by simp)
  exact (Takes.mark?_hit he).bind (l := [word]) hn.map

theorem takes_print {place : Place} (hv : TakesExpression inn us v) (hr : r.isMark .semicolon) :
    Takes (print inn place) (us ++ [r]) rest (.print v place) :=
  (hv _ (loose_cons hr (by decide) rest)).bind (Takes.mark hr).give

theorem takes_returnWith {place : Place} {o : Option Expr} (ho : TakesOptional inn us o)
    (hr : r.isMark .semicolon) :
    Takes (returnWith inn place) (us ++ [r]) rest (.returnWith o place) :=
  (ho .semicolon r rest rfl rfl hr).bind (Takes.mark hr).give

/-! ## Declarations -/

theorem takes_namedFunction?_false (h : Unnamed rest) : Takes namedFunction? [] rest false := fun ms => by
  rcases rest with - | ⟨t, - | ⟨u, rest⟩⟩
  · rfl
  · rfl
  · by_cases ht : t.isMark .funWord = true
    · obtain ⟨u', vs, ⟨rfl, rfl⟩, hu⟩ := h t _ rfl ht
      simp [namedFunction?, hu]
    · simp [namedFunction?, ht]

/-- Inside of a body something is taken as long as no closing brace comes. -/
theorem takes_inBody {α : Type} {p : Phrase α} {a : α}
    (hb : (ts ++ rest).head?.any (·.isMark .rightBrace) = false) (hne : ts ≠ [])
    (hp : Takes p ts rest a) : Takes (inBody p) ts rest (some a) := by
  cases ts with
  | nil => exact absurd rfl hne
  | cons t ts =>
    refine Takes.bind (l := []) Takes.peek ?_
    simp only [List.cons_append, List.head?_cons, show t.isMark .rightBrace = false from hb]
    exact hp.give

theorem takes_inBody_none {α : Type} {p : Phrase α} (hr : r.isMark .rightBrace) :
    Takes (inBody p) [] (r :: rest) none := by
  refine Takes.bind (l := []) Takes.peek ?_
  simp only [List.nil_append, List.head?_cons, hr, if_true]
  exact Takes.pure

/-- A step over declarations: what it does where one stands. -/
def Declares (inn : Inner) (step : Phrase (Option (Option Stmt))) : Prop :=
  ∀ ts rest s, Begins Mark.beginsDeclaration ts → Takes (declaration inn) ts rest s →
    Takes step ts rest (some (some s))

theorem declares_inBody (depth : Nat) :
    Declares (inner depth) (inBody (inner (depth + 1)).declaration) := fun _ rest _ hb hs =>
  takes_inBody ((hb.append rest).head_ne rfl) hb.ne_nil hs.recovering

/-- Declarations up to the closing brace make a block. -/
theorem takes_block {depth : Nat} (hl : l.isMark .leftBrace)
    (hs : ∀ rest, TakesMany (inBody (inner depth).declaration) ts (r :: rest) (ss.map some))
    (hr : r.isMark .rightBrace) :
    Behind .leftBrace (blockBody (inner depth)) (l :: (ts ++ [r])) ss := by
  refine ⟨l, _, rfl, hl, fun rest => ?_⟩
  have h : Takes (blockBody (inner depth)) (ts ++ [r]) rest ((ss.map some).filterMap id) :=
    (hs rest).many.bind (Takes.mark hr).give
  simpa using h

/-- A name and methods in braces are taken as a class. -/
theorem takes_classDecl {fs : List Function} (hw : w.isMark .classWord) (hn : n.isIdentifier)
    (hl : l.isMark .leftBrace)
    (hm : TakesMany (inBody (function inn .method)) ts (r :: rest) fs)
    (hr : r.isMark .rightBrace) :
    Takes (declaration inn) (w :: n :: l :: (ts ++ [r])) rest (.classDecl n.name none fs) := by
  refine Takes.hit hw ((Takes.identifier hn).bind (l := [n]) ?_)
  refine Takes.bind (l := []) (a := none) ?_ ((Takes.mark hl).bind (l := [l])
    (hm.many.bind (Takes.mark hr).give))
  exact (Takes.mark?_miss (by simp [Token.isMark_eq_decide hl])).bind (l := []) Takes.pure

/-- A `<` and another name behind its name make a class a subclass. -/
theorem takes_subclassDecl {fs : List Function} (hw : w.isMark .classWord) (hn : n.isIdentifier)
    (hd : d.isMark .less) (hq : q.isIdentifier) (hl : l.isMark .leftBrace)
    (hm : TakesMany (inBody (function inn .method)) ts (r :: rest) fs)
    (hr : r.isMark .rightBrace) :
    Takes (declaration inn) (w :: n :: d :: q :: l :: (ts ++ [r])) rest
      (.classDecl n.name (some q.name.reference) fs) := by
  refine Takes.hit hw ((Takes.identifier hn).bind (l := [n]) ?_)
  refine Takes.bind (l := [d, q]) (a := some q.name.reference) ?_ ((Takes.mark hl).bind (l := [l])
    (hm.many.bind (Takes.mark hr).give))
  exact (Takes.mark?_hit hd).bind (l := [d]) (Takes.identifier hq).give

/-- Behind `fun` a name makes the function a declaration. -/
theorem takes_funDecl {f : Function} (hw : w.isMark .funWord) (hn : n.isIdentifier)
    (hf : Takes (function inn .function) (n :: us) rest f) :
    Takes (declaration inn) (w :: n :: us) rest (.function f) := by
  refine Takes.miss (by simp [Token.isMark_eq_decide hw]) ?_
  refine Takes.bind (l := [w]) (k := n :: us) (a := true) (fun ms => ?_) hf.give
  simp [namedFunction?, hw, hn]

theorem takes_varDeclaration {s : Stmt} (hs : Behind .varWord (varDecl inn) ts s) :
    Takes (declaration inn) ts rest s := by
  obtain ⟨w, us, rfl, hw, hus⟩ := hs
  refine Takes.miss (by simp [Token.isMark_eq_decide hw]) ?_
  refine Takes.bind (l := []) (takes_namedFunction?_false (.of_isMark hw (by decide) _)) ?_
  exact Takes.hit hw (hus rest)

theorem takes_plain {s : Stmt} (hb : Begins Mark.beginsStatement ts) (hu : Unnamed ts)
    (hs : Takes (statement inn) ts rest s) : Takes (declaration inn) ts rest s := by
  refine Takes.miss ((hb.append rest).head_ne rfl) ?_
  refine Takes.bind (l := []) (takes_namedFunction?_false (hu.append hb.ne_nil rest)) ?_
  exact Takes.miss ((hb.append rest).head_ne rfl) hs

/-! ## Statements by their first word -/

theorem head_ne_of_isMark {m o : Mark} {k : List Token} (ht : t.isMark m) (ho : m ≠ o) :
    (t :: k).head?.any (·.isMark o) = false := by
  simp [Token.isMark_eq_decide ht, ho]

theorem takes_for {s : Stmt} (hw : w.isMark .forWord) (h : Takes (forLoop inn w.place) us rest s) :
    Takes (statement inn) (w :: us) rest s := Takes.hit hw h

theorem takes_if {s : Stmt} (hw : w.isMark .ifWord) (h : Takes (branch inn w.place) us rest s) :
    Takes (statement inn) (w :: us) rest s :=
  .miss (head_ne_of_isMark hw (by decide)) (.hit hw h)

theorem takes_while {s : Stmt} (hw : w.isMark .whileWord)
    (h : Takes (whileLoop inn w.place) us rest s) : Takes (statement inn) (w :: us) rest s :=
  have off {k : Mark} (hk : Mark.whileWord ≠ k) := head_ne_of_isMark (k := us ++ rest) hw hk
  .miss (off (by decide)) (.miss (off (by decide)) (.hit hw h))

theorem takes_return {s : Stmt} (hw : w.isMark .returnWord)
    (h : Takes (returnWith inn w.place) us rest s) : Takes (statement inn) (w :: us) rest s :=
  have off {k : Mark} (hk : Mark.returnWord ≠ k) := head_ne_of_isMark (k := us ++ rest) hw hk
  .miss (off (by decide)) (.miss (off (by decide)) (.miss (off (by decide)) (.hit hw h)))

theorem takes_break (hw : w.isMark .breakWord) (hr : r.isMark .semicolon) :
    Takes (statement inn) [w, r] rest (.breakOut w.place) :=
  have off {k : Mark} (hk : Mark.breakWord ≠ k) := head_ne_of_isMark (k := r :: rest) hw hk
  .miss (off (by decide)) (.miss (off (by decide)) (.miss (off (by decide)) (.miss (off (by decide))
    (.hit hw (Takes.mark hr).give))))

theorem takes_blockStmt (hl : l.isMark .leftBrace) (h : Takes (blockBody inn) us rest ss) :
    Takes (statement inn) (l :: us) rest (.block ss l.place) :=
  have off {k : Mark} (hk : Mark.leftBrace ≠ k) := head_ne_of_isMark (k := us ++ rest) hl hk
  .miss (off (by decide)) (.miss (off (by decide)) (.miss (off (by decide)) (.miss (off (by decide))
    (.miss (off (by decide)) (.hit hl h.give)))))

theorem takes_printWord {s : Stmt} (hw : w.isMark .printWord)
    (h : Takes (print inn w.place) us rest s) : Takes (statement inn) (w :: us) rest s :=
  have off {k : Mark} (hk : Mark.printWord ≠ k) := head_ne_of_isMark (k := us ++ rest) hw hk
  .miss (off (by decide)) (.miss (off (by decide)) (.miss (off (by decide)) (.miss (off (by decide))
    (.miss (off (by decide)) (.miss (off (by decide)) (.hit hw h))))))

theorem takes_exprStmt {s : Stmt} (hb : Begins Mark.beginsExpression ts)
    (h : Takes (expressionStatement inn) ts rest s) : Takes (statement inn) ts rest s :=
  have off {k : Mark} (hk : k.beginsExpression = false) := (hb.append rest).head_ne hk
  .miss (off rfl) (.miss (off rfl) (.miss (off rfl) (.miss (off rfl) (.miss (off rfl)
    (.miss (off rfl) (.miss (off rfl) h))))))

/-! ## All phrases -/

/-- What the reader of each phrase, nested up to `n` deep, makes of a list. Calls and
operators are left open: more of them may follow. -/
def Symbol.Taken (n : Nat) : (s : Symbol) → List Token → s.Tree → Prop
  | .declarations, ts, ss => ∀ step rest, Declares (inner n) step → elseNext rest = false →
      Takes step [] rest none → TakesMany step ts rest (ss.map some)
  | .declaration, ts, s => ∀ rest, elseNext rest = false → Takes (declaration (inner n)) ts rest s
  | .varDecl, ts, s => Behind .varWord (varDecl (inner n)) ts s
  | .statement o, ts, s => ∀ rest, (o = true → elseNext rest = false) →
      Takes (statement (inner n)) ts rest s
  | .exprStmt, ts, s => ∀ rest, Takes (expressionStatement (inner n)) ts rest s
  | .forStart, ts, o => ∀ rest, Takes (forStart (inner n)) ts rest o
  | .methods, ts, fs => ∀ r rest, r.isMark .rightBrace →
      TakesMany (inBody (function (inner n) .method)) ts (r :: rest) fs
  | .function, ts, f => ∀ word rest, Takes (function (inner n) word) ts rest f
  | .block, ts, ss => Behind .leftBrace (blockBody (inner n)) ts ss
  | .params, ts, ns => TakesParams ts ns
  | .expression, ts, v => TakesExpression (inner n) ts v
  | .optional, ts, o => TakesOptional (inner n) ts o
  | .items, ts, vs => TakesItems (inner n) ts vs
  | .arguments, ts, vs => ∀ r rest, r.isMark .rightParen →
      Takes (argumentList (inner (n + 1))) ts (r :: rest) vs
  | .assignment, ts, v => ∀ rest, Loose 2 rest → Takes (assignment (inner n)) ts rest v
  | .operators r, ts, v => ∀ rest, Loose (r.grip + 1) rest →
      Grows (level r.table (operandOf (inner n) r)) (joined? r.table (operandOf (inner n) r)) ts rest v
  | .operand r, ts, v => ∀ rest, Loose (r.grip + 1) rest → Takes (operandOf (inner n) r) ts rest v
  | .unary, ts, v => ∀ rest, Loose 9 rest → Takes (unary (inner n)) ts rest v
  | .call, ts, v => ∀ rest, Grows (call (inner n)) (suffix? (inner n)) ts rest v
  | .primary, ts, v => ∀ rest, Takes (primary (inner n)) ts rest v

/-- No declaration begins with an `else`. -/
theorem elseNext_append {ss : List Stmt} (h : Derives (reading false) .declarations ts ss)
    (hr : elseNext rest = false) : elseNext (ts ++ rest) = false := by
  cases h with
  | noDeclaration => exact hr
  | nextDeclaration hs =>
    rw [List.append_assoc]
    exact ((begins_of_derives hs).append _).head_ne rfl
  | skipped hk => cases hk

/-- Every list with a derivation is taken, by readers nested as deep as it is long. -/
theorem taken_of_derives {s : Symbol} {ts : List Token} {v : s.Tree}
    (h : Derives (reading false) s ts v) : ∀ n, ts.length ≤ n → Symbol.Taken n s ts v := by
  induction h with
  | noDeclaration => exact fun n _ step rest _ _ hr => .nil hr
  | nextDeclaration hs hss ih ihs =>
    intro n hn step rest hd he hr
    simp only [List.length_append] at hn
    have hb := begins_of_derives hs
    exact (ihs n (by omega) step rest hd he hr).cons hb.ne_nil
      (hd _ _ _ hb (ih n (by omega) _ (elseNext_append hss he)))
  | skipped hk => cases hk
  | classDecl hw hn hl _ hr ih =>
    intro n hlen rest _
    exact takes_classDecl hw hn hl (ih n (by simp at hlen; omega) _ rest hr) hr
  | subclassDecl hw hn ho hp hl _ hr ih =>
    intro n hlen rest _
    exact takes_subclassDecl hw hn ho hp hl (ih n (by simp at hlen; omega) _ rest hr) hr
  | funDecl hw hf ih =>
    intro n hlen rest _
    cases hf with
    | function hn => exact takes_funDecl hw hn (ih n (by simp at hlen ⊢; omega) _ rest)
  | varDeclaration _ ih => exact fun n hn rest _ => takes_varDeclaration (ih n hn)
  | plain hs ih =>
    have hb := begins_of_derives hs
    exact fun n hn rest he => takes_plain hb.1 hb.2 (ih n hn rest fun _ => he)
  | varDecl hw hn he => exact fun _ _ => takes_varDecl hw hn he
  | varDeclWith hw hn hq _ he ih =>
    exact fun n hlen => takes_varDeclWith hw hn hq (ih n (by simp at hlen; omega)) he
  | noMethod => exact fun n _ r rest hr => .nil (takes_inBody_none hr)
  | nextMethod hf _ ih ihs =>
    intro n hlen r rest hr
    simp only [List.length_append] at hlen
    have hb := begins_of_derives hf
    exact (ihs n (by omega) r rest hr).cons hb.ne_nil
      (takes_inBody ((hb.append _).head_ne rfl) hb.ne_nil (ih n (by omega) _ _))
  | function hn hl _ hr _ ihp ihb =>
    intro n hlen word rest
    exact takes_function hn hl (ihp n (by simp at hlen; omega)) hr (ihb n (by simp at hlen; omega))
  | noParams => exact fun _ _ => takes_noParams
  | params hns hm => exact fun _ _ => takes_params hns hm
  | block hl _ hr ih =>
    rintro (- | n) hlen
    · simp at hlen
    · refine takes_block hl (fun rest => ?_) hr
      exact ih n (by simp at hlen; omega) _ _ (declares_inBody n)
        (by simp [elseNext, Token.isMark_eq_decide hr]) (takes_inBody_none hr)
  | exprStmt _ he ih =>
    exact fun n hlen rest => takes_expressionStatement (ih n (by simp at hlen; omega)) he
  | expression hs ih =>
    exact fun n hlen rest _ => takes_exprStmt (begins_of_derives hs).1 (ih n hlen rest)
  | forLoop hw hl _ _ hm _ hr _ ihi iht ihs ihb =>
    rintro (- | n) hlen rest ho
    · simp at hlen
    · simp only [List.length_cons, List.length_append] at hlen
      exact takes_for hw (takes_forLoop hl (ihi (n + 1) (by omega)) (iht (n + 1) (by omega)) hm
        (ihs (n + 1) (by omega)) hr (ihb n (by omega) rest ho))
  | startNone he => exact fun n _ rest => takes_startNone he
  | startVar _ ih => exact fun n hlen rest => takes_startVar (ih n hlen)
  | startExpression hs ih =>
    exact fun n hlen rest => takes_startExpression (begins_of_derives hs).1 (ih n hlen rest)
  | ifThen hw hl _ hr _ ihc iht =>
    rintro (- | n) hlen rest ho
    · simp at hlen
    · simp only [List.length_cons, List.length_append] at hlen
      exact takes_if hw (takes_branch hl (ihc (n + 1) (by omega)) hr
        (iht n (by omega) rest fun _ => ho rfl) (ho rfl))
  | ifElse hw hl _ hr _ hnear he _ ihc iht ihe =>
    rintro (- | n) hlen rest ho
    · simp at hlen
    · simp only [List.length_cons, List.length_append] at hlen
      exact takes_if hw (takes_branchElse hl (ihc (n + 1) (by omega)) hr
        (iht n (by omega) _ fun h => absurd (hnear rfl) (by simp [h])) he (ihe n (by omega) rest ho))
  | whileLoop hw hl _ hr _ ihc ihb =>
    rintro (- | n) hlen rest ho
    · simp at hlen
    · simp only [List.length_cons, List.length_append] at hlen
      exact takes_while hw (takes_whileLoop hl (ihc (n + 1) (by omega)) hr (ihb n (by omega) rest ho))
  | print hw _ he ih =>
    exact fun n hlen rest _ => takes_printWord hw (takes_print (ih n (by simp at hlen; omega)) he)
  | returnWith hw _ he ih =>
    exact fun n hlen rest _ => takes_return hw (takes_returnWith (ih n (by simp at hlen; omega)) he)
  | breakOut hw he => exact fun n _ rest _ => takes_break hw he
  | blockStmt _ ih =>
    intro n hlen rest _
    obtain ⟨l, us, ⟨rfl, rfl⟩, hl, hus⟩ := ih n hlen
    exact takes_blockStmt hl (hus rest)
  | absent => exact fun _ _ => takes_absent
  | present hv ih => exact fun n hlen => takes_present (begins_of_derives hv).1 (ih n hlen)
  | single _ ih => exact fun n hlen rest hr => takes_single (ih n hlen) hr
  | sequence _ hc _ ih ihs =>
    intro n hlen rest hr
    simp only [List.length_cons, List.length_append] at hlen
    exact takes_sequence (ih n (by omega)) hc (ihs n (by omega)) hr
  | item _ ih => exact fun n hlen => takesItems_one (ih n hlen)
  | nextItem _ hc _ ih ihs =>
    intro n hlen
    simp only [List.length_cons, List.length_append] at hlen
    exact takesItems_cons (ih n (by omega)) hc (ihs n (by omega))
  | noArgument => exact fun _ _ r rest hr => takes_noArgument hr
  | arguments hvs hm ih =>
    exact fun n hlen r rest hr => takes_argumentList (begins_of_derives hvs).1 rfl (ih n hlen) hm hr
  | assign hn hq _ ih =>
    rintro (- | n) hlen rest hr
    · simp at hlen
    · exact takes_assign hn hq (ih n (by simp at hlen; omega) rest hr)
  | set ho hd hn hq _ iho ihv =>
    rintro (- | n) hlen rest hr
    · simp at hlen
    · simp only [List.length_cons, List.length_append] at hlen
      exact takes_set (begins_of_derives ho).1 (iho (n + 1) (by omega) _) hd hn hq
        (ihv n (by omega) rest hr)
  | value _ ih =>
    exact fun n hlen rest hr => takes_value
      (takes_level (ih n hlen rest (hr.mono (by decide))) (hr.mono (by decide))) hr
  | first _ ih => exact fun n hlen rest hr => .first (ih n hlen rest hr)
  | joined _ hm ht _ ihl ihr =>
    intro n hlen rest hr
    simp only [List.length_cons, List.length_append] at hlen
    refine grows_level_next (ihl n (by omega) _ ?_) hm ht (ihr n (by omega) rest hr)
    exact loose_cons ht (Nat.lt_succ_of_le (Nat.le_of_eq (grip_of_mem_table hm))) _
  | tighter hq _ ih =>
    intro n hlen rest hr
    rw [← grip_of_tighter hq] at hr
    rw [operandOf_tighter hq]
    exact takes_level (ih n hlen rest (hr.mono (Nat.le_succ _))) hr
  | tightest hq _ ih =>
    intro n hlen rest hr
    rw [operandOf_tightest hq]
    exact ih n hlen rest (by rwa [grip_of_tightest hq] at hr)
  | not ht _ ih =>
    rintro (- | n) hlen rest hr
    · simp at hlen
    · exact takes_unary (by decide) ht (ih n (by simpa using hlen) rest hr)
  | negate ht _ ih =>
    rintro (- | n) hlen rest hr
    · simp at hlen
    · exact takes_unary (by decide) ht (ih n (by simpa using hlen) rest hr)
  | called hv ih =>
    exact fun n hlen rest hr => takes_unary_call (begins_of_derives hv).1 (takes_call (ih n hlen rest) hr)
  | primary _ ih => exact fun n hlen rest => .first (ih n hlen rest)
  | call _ hl _ hr ihf iha =>
    rintro (- | n) hlen rest
    · simp at hlen
    · simp only [List.length_cons, List.length_append] at hlen
      exact grows_call_call (ihf (n + 1) (by omega) _) hl (iha n (by omega) _ rest hr) hr
  | get _ hd hn ih =>
    exact fun n hlen rest => grows_call_get (ih n (by simp at hlen; omega) _) hd hn
  | number hk | string hk => exact fun n _ rest => takes_atom (by rw [atom?, hk])
  | yes ht | no ht | nil ht | this ht =>
    exact fun n _ rest => takes_atom (by rw [atom?, Token.isMark_iff.1 ht])
  | read hn => exact fun n _ rest => takes_atom (by rw [atom?, Token.isIdentifier_iff.1 hn])
  | group hl _ hr ih =>
    rintro (- | n) hlen rest
    · simp at hlen
    · exact takes_group hl (ih n (by simp at hlen; omega) _ (loose_cons hr (by decide) rest)) hr
  | super hw hd hn => exact fun n _ rest => takes_super hw hd hn
  | lambda hw hl _ hr _ ihp ihb =>
    intro n hlen rest
    simp only [List.length_cons, List.length_append] at hlen
    exact takes_lambda hw hl (ihp n (by omega)) hr (ihb n (by omega))

end Grammar

end LoxLang
