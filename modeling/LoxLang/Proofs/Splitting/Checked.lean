import LoxLang.Proofs.Session.Agreement
import LoxLang.Proofs.Splitting.Reading
import LoxLang.Proofs.Splitting.Resolving
import LoxLang.Proofs.Twins.Session

/-!
# Front ends

`Program.Clean` says that nothing is wrong with a source, and what its program is. A clean
source is clean in each file; two clean sources, if they are one, have the program of the one
and that of the other further down (`Program.Clean.joined`).
-/

namespace LoxLang

theorem Place.keepsOrder_shift (file : String) (k : Nat) : Place.KeepsOrder (Place.shift file k) :=
  Place.le_shift file k

/-! ## Clean sources -/

/-- Nothing is wrong with the source, and these are its statements before depths are known. -/
structure Program.Clean (config : Config) (source : String) (ss : List Stmt) : Prop where
  scan : (Token.scan config.file source).2 = []
  read : Program.ofTokens (Token.scan config.file source).1 = ⟨ss, []⟩
  resolved : (Resolved.program config.allowRedefinition ss).problems = []

namespace Program

variable {config : Config} {source first second : String} {ss tt : List Stmt}

/-- What the front end makes of a clean source. -/
theorem Clean.checked (h : Clean config source ss) : Checked.ofSource config source =
    ⟨some (Resolved.program config.allowRedefinition ss).tree, [],
      (Resolved.program config.allowRedefinition ss).unread⟩ := by
  unfold Checked.ofSource
  simp only [h.scan, h.read, h.resolved, isLost]
  simp

/-- The front end finds no problem just in clean sources. -/
theorem clean_iff :
    (Checked.ofSource config source).problems = [] ↔ ∃ ss, Clean config source ss := by
  refine ⟨fun h => ?_, fun ⟨ss, h⟩ => by rw [h.checked]⟩
  unfold Checked.ofSource at h
  dsimp only at h
  split at h
  next hlost =>
    simp only [isLost, Bool.and_eq_true, Bool.not_eq_true', List.isEmpty_eq_false_iff] at hlost
    simp only [List.append_eq_nil_iff, List.map_eq_nil_iff] at h
    exact absurd h.2 hlost.2
  next =>
    split at h
    next hresolved =>
      simp only [List.append_eq_nil_iff, List.map_eq_nil_iff] at h
      refine ⟨_, h.1, ?_, hresolved⟩
      rw [← h.2]
    next hresolved =>
      simp only [List.append_eq_nil_iff, List.map_eq_nil_iff] at h
      exact absurd h.2 hresolved

/-- What is read of a clean source names its file. -/
theorem Clean.stays (h : Clean config source ss) :
    Stmt.allMoved (Place.shift config.file 0) ss = ss := by
  have hread := moved_ofTokens config.file source
  rw [h.read] at hread
  exact hread

/-- A clean source is clean in another file. -/
theorem Clean.named (h : Clean config source ss) (file : String) :
    Clean { config with file } source (Stmt.allMoved (Place.shift file 0) ss) where
  scan := Token.scan_file h.scan
  read := ofTokens_file h.read file
  resolved := by
    have hlength := (Resolved.program_moved (Place.keepsOrder_shift file 0)
      config.allowRedefinition ss).2.2
    rw [h.resolved] at hlength
    exact List.length_eq_zero_iff.1 hlength

/-- Two clean sources that are clean together. -/
theorem Clean.joined (h : Clean config first ss) (h' : Clean config second tt)
    (hj : (Checked.ofSource config (first ++ "\n" ++ second)).problems = []) :
    Clean config (first ++ "\n" ++ second)
      (ss ++ Stmt.allMoved (Place.shift config.file (1 + first.toList.count '\n')) tt) := by
  obtain ⟨uu, hu⟩ := clean_iff.1 hj
  have hread := hu.read.symm.trans (ofTokens_joined h.scan h.read h'.read)
  obtain rfl := (Program.mk.inj hread).1
  exact hu

end Program

/-! ## Places of a source -/

/-- Resolving moves nothing. -/
theorem Resolved.moved_program {f : Place → Place} (hf : Place.KeepsOrder f) (allow : Bool)
    {ss : List Stmt} (h : Stmt.allMoved f ss = ss) :
    Stmt.allMoved f (Resolved.program allow ss).tree = (Resolved.program allow ss).tree := by
  have htree := (Resolved.program_moved hf allow ss).1
  rw [h] at htree
  exact htree.symm

theorem Resolved.moved_expression {f : Place → Place} (hf : Place.KeepsOrder f) (allow : Bool)
    {e : Expr} (h : e.moved f = e) :
    (Resolved.expression allow e).tree.moved f = (Resolved.expression allow e).tree := by
  have htree := (e.walks_moved hf _ _ (alongside_start f allow)).1
  rw [h] at htree
  exact htree.symm

/-- All that a source says is said in its file. -/
theorem sources_of_file {R : Place → Place → Prop} {file : String}
    (hR : ∀ p : Place, p.file = file → R p p) : Sources R file where
  statements {config source ss} hfile hs := by
    subst hfile
    obtain ⟨-, rfl⟩ := Checked.of_statements hs
    rw [← Resolved.moved_program (Place.keepsOrder_shift config.file 0) config.allowRedefinition
      (Program.moved_ofTokens config.file source)]
    exact Stmt.allElsewhere_moved (fun p => hR _ rfl) _
  expression {config source e} hfile he := by
    subst hfile
    obtain ⟨read, hread, -, rfl⟩ := Expr.of_ofSource he
    rw [← Resolved.moved_expression (Place.keepsOrder_shift config.file 0)
      config.allowRedefinition (Expr.moved_ofTokens hread)]
    exact Expr.elsewhere_moved (fun p => hR _ rfl) _

end LoxLang
