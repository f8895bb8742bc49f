import LoxLang.Proofs.Curbed.Run

/-!
# A sink that fills up

A run that prints to a sink with room for `n` bytes goes as the run that prints to one with room
for all, up to the print statement whose text has the byte `n`: there it is stopped, with `n` bytes
printed. `Host.full_sink_truncates` says that nothing else can come of it, wherever that statement
is: a fault passes through loops, calls, initializers and methods alike.
-/

namespace LoxLang

open Watching (Erases)

/-! ## Where the bytes run out -/

/-- The visit is to the print statement whose text has the byte `n` of the output: so many bytes
were printed ahead of it, and more with it. -/
def Visit.Crosses (v : Visit) (n : Nat) (place : Place) (output : ByteArray) : Prop :=
  ∃ text m rest, v.Prints place text m ∧ output = m.sink.bytes ++ text.toUTF8 ++ rest ∧
    m.sink.bytes.size ≤ n ∧ n < m.sink.bytes.size + text.toUTF8.size

theorem Visit.Crosses.size_gt {v : Visit} {n : Nat} {place : Place} {output : ByteArray}
    (h : v.Crosses n place output) : n < output.size := by
  obtain ⟨text, m, rest, -, rfl, -, hlt⟩ := h
  rw [ByteArray.size_append, ByteArray.size_append]
  omega

theorem Visit.Crosses.append {v : Visit} {n : Nat} {place : Place} {output : ByteArray}
    (h : v.Crosses n place output) (more : ByteArray) : v.Crosses n place (output ++ more) := by
  obtain ⟨text, m, rest, hp, rfl, hle, hlt⟩ := h
  exact ⟨text, m, rest ++ more, hp, by rw [ByteArray.append_assoc], hle, hlt⟩

/-- More output does not change the first bytes of it. -/
theorem extract_append_of_le {b more : ByteArray} {n : Nat} (h : n ≤ b.size) :
    (b ++ more).extract 0 n = b.extract 0 n := by
  rw [ByteArray.extract_append, Nat.sub_eq_zero_of_le h, Nat.zero_sub, ByteArray.extract_same,
    ByteArray.append_empty]

/-! ## Limited sinks -/

/-- The second sink was given what the first was, and kept all of it; it takes `n` bytes in
all. -/
structure Sink.Limited (n : Nat) (s s' : Sink) : Prop where
  free : s.answer = within none false
  limited : s' = { s with answer := within (some n) false }
  size : s.bytes.size = sizeOf s.given
  fits : s.bytes.size ≤ n

theorem Sink.limited_empty (n : Nat) :
    Sink.Limited n (.empty none false) (.empty (some n) false) :=
  ⟨rfl, rfl, rfl, Nat.zero_le n⟩

/-- A sink with room for all keeps a text. -/
theorem Sink.put_of_free {s : Sink} (h : s.answer = within none false) (text : String) :
    s.put text = ({ s with bytes := s.bytes ++ text.toUTF8, given := text :: s.given }, none) := by
  have hall : text.toUTF8.extract 0 text.toUTF8.size = text.toUTF8 := ByteArray.extract_zero_size
  simp only [put, h, within, Bool.false_eq_true, if_false, hall]

/-- A text fits into both sinks, or the limited one takes the first part of it. -/
theorem Sink.Limited.put {n : Nat} {s s' : Sink} (h : s.Limited n s') (text : String) :
    (s.put text).1.bytes = s.bytes ++ text.toUTF8 ∧
      ((s.put text).1.Limited n (s'.put text).1 ∧ (s'.put text).2 = (s.put text).2 ∨
      n < s.bytes.size + text.toUTF8.size ∧ (s'.put text).2 = some .full ∧
        (s'.put text).1.bytes = (s.put text).1.bytes.extract 0 n) := by
  obtain ⟨hfree, rfl, hsize, hfits⟩ := h
  rw [Sink.put_of_free hfree text]
  refine ⟨rfl, ?_⟩
  have hanswer : within (some n) false s.given text =
      if text.toUTF8.size ≤ n - s.bytes.size then ⟨text.toUTF8.size, none⟩
      else ⟨n - s.bytes.size, some .full⟩ := by rw [hsize]; rfl
  by_cases hle : text.toUTF8.size ≤ n - s.bytes.size
  · rw [if_pos hle] at hanswer
    refine .inl ⟨⟨hfree, ?_, ?_, ?_⟩, ?_⟩
    · simp only [Sink.put, hanswer, ByteArray.extract_zero_size]
    · simp [sizeOf, ByteArray.size_append, hsize, Nat.add_comm]
    · rw [ByteArray.size_append]
      omega
    · simp only [Sink.put, hanswer]
  · rw [if_neg hle] at hanswer
    refine .inr ⟨by omega, by simp only [Sink.put, hanswer], ?_⟩
    have hbytes : s.bytes.extract 0 n = s.bytes := by
      rw [ByteArray.extract_eq_extract_append_extract s.bytes.size (Nat.zero_le _) hfits,
        ByteArray.extract_zero_size, ByteArray.extract_eq_empty_iff.2 (Nat.min_le_right _ _),
        ByteArray.append_empty]
    simp only [Sink.put, hanswer]
    rw [ByteArray.extract_append, hbytes, Nat.zero_sub]

/-- A run with room for `n` bytes is stopped where the byte `n` would be printed. -/
def limited (n : Nat) : Curb where
  allows b c := c = b
  sinks := Sink.Limited n
  stops t f s := ∃ v ∈ t.record.visits, v.Crosses n f.place t.machine.sink.bytes ∧
    f.value = .output .full ∧ s.bytes = t.machine.sink.bytes.extract 0 n
  allows_false := rfl
  free h := h.symm
  stricter h := by cases h
  print {t s v place text} hs hv hp := by
    obtain ⟨hbytes, ⟨hs', he⟩ | ⟨hlt, he, hcut⟩⟩ := hs.put text
    · exact .inl ⟨hs', he⟩
    · refine .inr ⟨.full, he, v, hv, ⟨text, t.machine, .empty, hp, ?_, hs.fits, hlt⟩, rfl, hcut⟩
      rw [ByteArray.append_empty]
      exact hbytes
  later {t u f s} hb := by
    rintro ⟨v, hv, hc, hf, hs⟩
    obtain ⟨more, hbytes⟩ := hb.bytes
    refine ⟨v, hb.visits hv, hbytes ▸ hc.append more, hf, ?_⟩
    rw [hs, hbytes, extract_append_of_le (Nat.le_of_lt hc.size_gt)]

/-! ## Machines and hosts -/

def Machine.printingTo (m : Machine) (sink : Sink) : Machine := { m with sink }

def Host.printingTo (h : Host) (sink : Sink) : Host :=
  { h with machine := h.machine.printingTo sink }

def Session.printingTo (s : Session) (sink : Sink) : Session :=
  s.withMachine (s.watched.machine.printingTo sink)

theorem Machine.curbed_limited (m : Machine) (n : Nat) :
    (m.printingTo (.empty none false)).Curbed (limited n)
      (m.printingTo (.empty (some n) false)) := by
  refine ⟨fun id => ?_, rfl, rfl, rfl, rfl, Sink.limited_empty n, rfl⟩
  show Option.Rel _ m.scopes[id]? m.scopes[id]?
  cases m.scopes[id]? with
  | none => exact .none
  | some s => exact .some ⟨rfl, rfl, rfl⟩

/-- But for the sink, the machines are the same. -/
theorem Machine.Curbed.eq_of_limited {m m' : Machine} {n : Nat} (h : m.Curbed (limited n) m') :
    m'.printingTo m.sink = m := by
  have hscopes : m'.scopes = m.scopes := by
    refine Array.ext_getElem? fun id => ?_
    have hi := h.scopes id
    generalize m.scopes[id]? = o at hi ⊢
    generalize m'.scopes[id]? = o' at hi ⊢
    cases hi with
    | none => rfl
    | @some s s' hs =>
      obtain ⟨bindings, parent, allow⟩ := s
      obtain ⟨bindings', parent', allow'⟩ := s'
      obtain ⟨rfl, rfl, rfl⟩ := hs
      rfl
  obtain ⟨scopes, objects, fresh, globals, current, sink, clock⟩ := m
  obtain ⟨scopes', objects', fresh', globals', current', sink', clock'⟩ := m'
  obtain ⟨-, rfl, rfl, rfl, rfl, -, rfl⟩ := h
  obtain rfl := hscopes
  rfl

/-! ## Runs -/

/-- The report of a run on a limited sink, and the host after it, beside those of the run on one
with room for all. -/
structure Host.Truncates (n : Nat) (visits : List Visit) (r r' : Report) (h h' : Host) : Prop where
  problems : r'.problems = r.problems
  unread : r'.unread = r.unread
  /-- All fits, and the sink is the only difference. -/
  whole : h.machine.sink.bytes.size ≤ n →
    r'.fault = r.fault ∧ h'.machine.sink.bytes = h.machine.sink.bytes ∧
      h'.printingTo h.machine.sink = h
  /-- The first bytes fit, and the print statement that has the next one fails. -/
  cut : n < h.machine.sink.bytes.size →
    h'.machine.sink.bytes = h.machine.sink.bytes.extract 0 n ∧
      ∃ v ∈ visits, ∃ place, v.Crosses n place h.machine.sink.bytes ∧
        r'.fault = some ⟨place, .output .full⟩

/-- Without a run the sinks stay empty. -/
theorem Host.truncates_still (h : Host) (n : Nat) (visits : List Visit) (r : Report) :
    Truncates n visits r r (h.printingTo (.empty none false))
      (h.printingTo (.empty (some n) false)) :=
  ⟨rfl, rfl, fun _ => ⟨rfl, rfl, rfl⟩, fun hn => absurd hn (Nat.not_lt_zero n)⟩

/-- A watched run ends where the run does that it watches. -/
theorem Watching.Erases.endOf {α : Type} {x : Watching α} {y : Run α} (h : Erases x y) {t : Watched}
    {result : Except Fault α} {m : Machine} (ho : y.outcome? t.machine = some (result, m)) :
    (Watching.endOf (x t)).machine = m := by
  unfold Run.outcome? at ho
  rw [← h t] at ho
  cases hx : x t with
  | ok a u =>
    rw [hx] at ho
    cases ho
    rfl
  | error i u =>
    rw [hx] at ho
    obtain ⟨f, -, hf⟩ := Option.map_eq_some_iff.1 ho
    cases hf
    rfl

theorem Session.watched_watch {α : Type} (s : Session) (x : Watching α)
    (reply : Except Fault α → Response) :
    (s.watch x reply).2.watched = Watching.endOf (x s.watched) := by
  unfold Session.watch
  cases x s.watched <;> rfl

/-- The report once the run has ended. -/
def Report.ended (r : Report) : Except Fault Unit → Report
  | .ok () => r
  | .error f => { r with fault := some f }

theorem Response.ofRun_eq (r : Report) (result : Except Fault Unit) :
    Response.ofRun r result = .ran (r.ended result) := by
  cases result <;> rfl

theorem Report.problems_ended (r : Report) (result : Except Fault Unit) :
    (r.ended result).problems = r.problems ∧ (r.ended result).unread = r.unread := by
  cases result <;> exact ⟨rfl, rfl⟩

/-- What comes of statements on a limited sink, beside what comes of them on one with room for
all. -/
theorem Session.statements_truncated (s : Session) (n fuel : Nat) (σ : Site) (ss : List Stmt)
    (r : Report) {result : Except Fault Unit} {m : Machine}
    (ho : (execAll fuel ss).outcome? (s.watched.machine.printingTo (.empty none false)) =
      some (result, m)) :
    let x := Watching.forEach (Watching.exec fuel) σ ss
    let u := Watching.endOf (x (s.printingTo (.empty none false)).watched)
    ∃ result' m',
      (execAll fuel ss).outcome? (s.watched.machine.printingTo (.empty (some n) false)) =
        some (result', m') ∧
      Host.Truncates n u.record.visits (r.ended result) (r.ended result') ⟨s.config, m⟩
        ⟨s.config, m'⟩ := by
  intro x u
  obtain ⟨hproblems, hunread⟩ := r.problems_ended result
  have he : Erases x (execAll fuel ss) := .forEach (Watching.erases_exec fuel) σ ss
  have hm : u.machine = m := he.endOf (t := (s.printingTo (.empty none false)).watched) ho
  have hc := Watching.curbs_statements (limited n) fuel σ ss
    (s.printingTo (.empty none false)).watched
  rcases hc.outcome? he (s.watched.machine.curbed_limited n) with ⟨f, m', ho', hs⟩ | hrel
  · obtain ⟨v, hv, hcross, hfull, hbytes⟩ := hs
    change v.Crosses n f.place u.machine.sink.bytes at hcross
    change m'.sink.bytes = u.machine.sink.bytes.extract 0 n at hbytes
    rw [hm] at hcross hbytes
    refine ⟨.error f, m', ho', hproblems.symm, hunread.symm, fun hle => ?_, fun _ => ?_⟩
    · exact absurd hle (Nat.not_le.2 hcross.size_gt)
    · obtain ⟨place, value⟩ := f
      cases hfull
      exact ⟨hbytes, v, hv, place, hcross, rfl⟩
  · change Option.Rel _ ((execAll fuel ss).outcome? (s.watched.machine.printingTo _)) _ at hrel
    rw [ho] at hrel
    generalize (execAll fuel ss).outcome? (s.watched.machine.printingTo (.empty (some n) false)) =
      o' at hrel ⊢
    cases hrel with
    | @some p p' hp =>
      obtain ⟨result', m'⟩ := p'
      obtain ⟨rfl, hm'⟩ := hp
      have hsink : m.sink.Limited n m'.sink := hm'.sink
      refine ⟨result', m', rfl, rfl, rfl, fun _ => ⟨rfl, ?_, ?_⟩, fun hn => ?_⟩
      · dsimp only
        rw [hsink.limited]
      · exact congrArg (Host.mk s.config) hm'.eq_of_limited
      · exact absurd hsink.fits (Nat.not_le.2 hn)

theorem Session.run_truncated (s : Session) (n fuel : Nat) (source : String) {r : Report} {h : Host}
    (hanswer : Session.answer ((s.printingTo (.empty none false)).run fuel source) =
      some (.ran r, h)) :
    ∃ r' h', (s.host.printingTo (.empty (some n) false)).run fuel source = some (r', h') ∧
      Host.Truncates n ((s.printingTo (.empty none false)).run fuel source).2.visits r r' h h' := by
  have hconfig : (s.printingTo (.empty none false)).config = s.config := rfl
  have hconfig' : (s.host.printingTo (.empty (some n) false)).config = s.config := rfl
  unfold Session.run at hanswer ⊢
  unfold Host.run
  rw [hconfig] at hanswer ⊢
  rw [hconfig']
  dsimp only at hanswer ⊢
  cases hs : (Checked.ofSource s.config source).statements with
  | none =>
    rw [hs] at hanswer
    obtain ⟨hr, rfl⟩ := Prod.mk.inj (Option.some.inj hanswer)
    obtain rfl := Response.ran.inj hr
    exact ⟨_, _, rfl, s.host.truncates_still n _ _⟩
  | some ss =>
    rw [hs] at hanswer
    dsimp only at hanswer ⊢
    by_cases hd : s.config.dryRun = true
    · rw [if_pos hd] at hanswer ⊢
      rw [if_pos hd]
      obtain ⟨hr, rfl⟩ := Prod.mk.inj (Option.some.inj hanswer)
      obtain rfl := Response.ran.inj hr
      exact ⟨_, _, rfl, s.host.truncates_still n _ _⟩
    · rw [if_neg hd] at hanswer ⊢
      rw [if_neg hd]
      rw [Session.answer_watch _ (.forEach (Watching.erases_exec fuel) _ ss)] at hanswer
      obtain ⟨⟨result, m⟩, ho, heq⟩ := Option.map_eq_some_iff.1 hanswer
      dsimp only at heq
      rw [Response.ofRun_eq] at heq
      cases heq
      obtain ⟨result', m', ho', ht⟩ := s.statements_truncated n fuel
        (s.printingTo (.empty none false)).site ss _ ho
      rw [← Session.watched_watch] at ht
      refine ⟨_, _, ?_, ht⟩
      change Option.map _ ((execAll fuel ss).outcome? (s.watched.machine.printingTo _)) = _
      rw [ho']
      cases result' <;> rfl

namespace Host

/-- **A full sink cuts the output and nothing else.** Let a host in any state run a source and print
to a sink with room for all, and let it run the source from the same state and print to one that
takes `n` bytes. If the first run ends, so does the second, with the same problems and unread
names. If no more than `n` bytes are printed, the second has the same output and fault and leaves
the same host behind. Otherwise its output is the first `n` bytes, and it fails for want of room at
the print statement whose text has the next byte. -/
theorem full_sink_truncates (config : Config) (sink : Sink) (clock : Clock)
    (past : List (Nat × Request)) (n fuel : Nat) (source : String) :
    let h := after config sink clock past
    let p := ((Session.after config sink clock past).printingTo (.empty none false)).attempt fuel
      (.run source)
    (h.printingTo (.empty none false)).perform fuel (.run source) = Session.answer p ∧
      ∀ r h₁, (h.printingTo (.empty none false)).run fuel source = some (r, h₁) →
        ∃ r' h₂, (h.printingTo (.empty (some n) false)).run fuel source = some (r', h₂) ∧
          Truncates n p.2.visits r r' h₁ h₂ := by
  intro h p
  have hh : h = (Session.after config sink clock past).host := (Session.after_host ..).symm
  have hp : (h.printingTo (.empty none false)).perform fuel (.run source) = Session.answer p := by
    rw [hh]
    exact ((Session.after config sink clock past).printingTo _).attempt_host fuel _
  refine ⟨hp, fun r h₁ hrun => ?_⟩
  have hanswer : Session.answer p = some (.ran r, h₁) := by
    rw [← hp, perform, hrun]
    rfl
  rw [hh]
  exact (Session.after config sink clock past).fresh.run_truncated n fuel source hanswer

/-- Of six bytes the last two do not fit. -/
theorem twoPrints_truncated :
    (((after ⟨false, false, "main.lox"⟩ (.empty none false) (.ticking 0) []).printingTo
        (.empty (some 4) false)).run 9 "print 12; print 34;").map (·.2.machine.sink.bytes) =
      some ("12\n34\n".toUTF8.extract 0 4) := by
  have hends : (((after ⟨false, false, "main.lox"⟩ (.empty none false) (.ticking 0) []).printingTo
      (.empty none false)).run 9 "print 12; print 34;").map (·.2.machine.sink.bytes) =
        some "12\n34\n".toUTF8 := by decide +kernel
  obtain ⟨⟨r, h₁⟩, hrun, hw⟩ := Option.map_eq_some_iff.1 hends
  obtain ⟨r', h₂, hrun', ht⟩ := (full_sink_truncates ⟨false, false, "main.lox"⟩
    (.empty none false) (.ticking 0) [] 4 9 "print 12; print 34;").2 r h₁ hrun
  dsimp only at hw
  rw [hrun', Option.map_some, (ht.cut (by rw [hw]; decide +kernel)).1, hw]

/-- The newline of the second print does not fit, and the fault is there. -/
example :
    (((start ⟨false, false, "main.lox"⟩ (.empty (some 5) false) (.ticking 0)).run 9
        "print 12; print 34; print 5;").bind (·.1.fault)) =
      some ⟨⟨"main.lox", 1, 11⟩, .output .full⟩ := by
  decide +kernel

end Host

end LoxLang
