import Horn.Proofs.Reload

/-!
Texts that fail.  The statements of a text are taken one after the other up to the first that fails,
and what those before it have done stays; the failing statement does nothing.  Loading keeps all that
they declare.  Generating examples keeps their modes and determinations, which are declared to the
program while the rules are not, and adds no example.
-/

namespace Horn

open Source

/-- Whether a statement declares a mode or a determination. -/
def Statement.declaresModes : Statement → Bool
  | .mode _ | .determination _ => true
  | _ => false

namespace Program

variable {p q : Program}

/-- Declarations fail at the first statement that does. -/
theorem declareAll_eq_error_iff {s : Section} {statements : List Statement} {e : Failure} :
    p.declareAll s statements = (.error e, q) ↔ ∃ front st back t,
      statements = front ++ st :: back ∧ p.Declares s front q t ∧ q.declare t st = .error e := by
  constructor
  · intro h
    induction statements generalizing p s with
    | nil => cases h
    | cons st rest ih =>
      rw [declareAll] at h
      split at h
      next why hst =>
        cases h
        exact ⟨[], st, rest, s, rfl, declares_nil _ s, hst⟩
      next r t hst =>
        obtain ⟨front, last, back, u, rfl, hfront, hlast⟩ := ih h
        exact ⟨st :: front, last, back, u, rfl, .cons hst hfront, hlast⟩
  · rintro ⟨front, st, back, t, rfl, hfront, hst⟩
    rw [hfront, declareAll, hst]

end Program

/-! ## Generators -/

namespace Generator

/-- Taking the statements leads from one generator and program to another, whatever comes next. -/
def Takes (gen : Generator) (p : Program) (statements : List Statement) (last : Generator)
    (q : Program) : Prop :=
  ∀ rest, gen.declareAll p (statements ++ rest) = last.declareAll q rest

variable {gen next last : Generator} {p q r : Program}

theorem takes_nil (gen : Generator) (p : Program) : gen.Takes p [] gen p := fun _ => rfl

theorem Takes.cons {st : Statement} {back : List Statement} (h : gen.declare p st = .ok (next, q))
    (hback : next.Takes q back last r) : gen.Takes p (st :: back) last r := by
  intro rest
  rw [List.cons_append, declareAll, h]
  exact hback rest

theorem declareAll_eq_error_iff {statements : List Statement} {e : Failure} :
    gen.declareAll p statements = (.error e, q) ↔ ∃ front st back last,
      statements = front ++ st :: back ∧ gen.Takes p front last q ∧ last.declare q st = .error e := by
  constructor
  · intro h
    induction statements generalizing gen p with
    | nil => cases h
    | cons st rest ih =>
      rw [declareAll] at h
      split at h
      next why hst =>
        cases h
        exact ⟨[], st, rest, gen, rfl, takes_nil gen _, hst⟩
      next more r hst =>
        obtain ⟨front, st', back, last, rfl, hfront, hlast⟩ := ih h
        exact ⟨st :: front, st', back, last, rfl, .cons hst hfront, hlast⟩
  · rintro ⟨front, st, back, last, rfl, hfront, hst⟩
    rw [hfront, declareAll, hst]

/-- A statement does to the program what it does when it is loaded, if it declares a mode or a
determination, and otherwise nothing. -/
theorem declares_of_declare {st : Statement} (h : gen.declare p st = .ok (next, q)) :
    p.Declares .background ([st].filter Statement.declaresModes) q .background ∧
      q = { p with modes := q.modes } := by
  cases st with
  | clause c =>
    obtain ⟨r, -, h⟩ := exists_of_bind_eq_ok h
    cases h
    exact ⟨Program.declares_nil _ _, rfl⟩
  | mode m =>
    cases h
    exact ⟨Program.declares_singleton rfl, rfl⟩
  | determination d =>
    obtain ⟨r, hr, h⟩ := exists_of_bind_eq_ok h
    cases h
    refine ⟨Program.declares_singleton ?_, ?_⟩
    · rw [Program.declare, hr]
      rfl
    · obtain ⟨t, -, hr⟩ := exists_of_bind_eq_ok hr
      cases hr
      rfl
  | _ => cases h

/-- Statements that are taken declare their modes and determinations to the program, nothing else. -/
theorem Takes.declares {statements : List Statement} (h : gen.Takes p statements last q) :
    p.Declares .background (statements.filter Statement.declaresModes) q .background ∧
      q = { p with modes := q.modes } := by
  have hall : gen.declareAll p statements = (.ok last, q) := by
    have hall := h []
    rwa [List.append_nil, declareAll] at hall
  clear h
  induction statements generalizing gen p with
  | nil =>
    cases hall
    exact ⟨Program.declares_nil _ _, rfl⟩
  | cons st rest ih =>
    rw [declareAll] at hall
    split at hall
    next => cases hall
    next more r hst =>
      obtain ⟨hfirst, hr⟩ := declares_of_declare hst
      obtain ⟨hrest, hq⟩ := ih hall
      rw [← List.singleton_append, List.filter_append]
      refine ⟨hfirst.append hrest, ?_⟩
      rw [hq, hr]

end Generator

/-! ## Texts -/

namespace Program

theorem generateExamples_eq_error_iff {text : String} {statements : List Statement} {e : Failure}
    (h : parseStatements text = .ok statements) : p.generateExamples text = (.error e, q) ↔
      Generator.empty.declareAll p statements = (.error e, q) := by
  rw [generateExamples, h]
  dsimp only
  split
  next hall => simp [hall]
  next hall => simp [hall]

/-- A text that fails cannot be read, and then nothing changes, or it fails at one of its statements,
which does nothing itself.  When it is loaded the program becomes what the statements before make of
it.  When it is to generate examples the program becomes what the modes and determinations before make
of it, while its options, background, examples and logs stay. -/
theorem failure_keeps_front (p : Program) (text : String) (e : Failure) (q : Program) :
    (p.load text = (.error e, q) ↔
      (∃ why, parseStatements text = .error why ∧ e = .parse why ∧ q = p) ∨
      ∃ front st back t, parseStatements text = .ok (front ++ st :: back) ∧
        p.Declares .background front q t ∧ q.declare t st = .error e) ∧
    (p.generateExamples text = (.error e, q) ↔
      (∃ why, parseStatements text = .error why ∧ e = .parse why ∧ q = p) ∨
      ∃ front st back gen, parseStatements text = .ok (front ++ st :: back) ∧
        Generator.empty.Takes p front gen q ∧ gen.declare q st = .error e ∧
        p.Declares .background (front.filter Statement.declaresModes) q .background ∧
        q = { p with modes := q.modes }) := by
  constructor
  · rw [load]
    cases parseStatements text with
    | error why => simp [eq_comm]
    | ok statements => simp [declareAll_eq_error_iff]
  · cases hread : parseStatements text with
    | error why =>
      rw [generateExamples, hread]
      simp [eq_comm]
    | ok statements =>
      rw [generateExamples_eq_error_iff hread, Generator.declareAll_eq_error_iff]
      simp only [reduceCtorEq, false_and, exists_false, false_or, Except.ok.injEq]
      refine exists_congr fun front => exists_congr fun st => exists_congr fun back =>
        exists_congr fun gen => and_congr_right fun _ => ?_
      exact ⟨fun h => ⟨h.1, h.2, h.1.declares⟩, fun h => ⟨h.1, h.2.1⟩⟩

/-- A clause stays that stands before a determination without modes, and so does a mode. -/
theorem failure_keeps_fact_and_mode :
    let c : Clause := .fact (.predicate ⟨"p", [.symbol "a"]⟩)
    let m : Mode := ⟨.head, .unbounded, ⟨"p", [.placeholder ⟨.input, "t"⟩]⟩, by decide⟩
    (∃ e q, empty.load "p(a).\ndetermination(p/1, q/1).\n" = (.error e, q) ∧
      empty.knowledge.clauses = [] ∧ q.knowledge.clauses = [c]) ∧
    ∃ e q, empty.generateExamples "modeh(*, p(+t)).\ndetermination(p/1, q/1).\n" = (.error e, q) ∧
      empty.modes.modes = [] ∧ q.modes.modes = [m] := by
  intro c m
  let d : Determination := ⟨⟨"p", 1⟩, [⟨"q", 1⟩]⟩
  have hd : Denotes d.text (.determination d) := by
    refine denotes_determination ?_
    unfold Determination.IsLegible Signature.IsLegible IsReadable
    decide
  have hc : Denotes c.text (.clause c) := by
    have hlegible : c.IsLegible := ⟨by decide, by decide, by decide, by decide⟩
    have hself : readBack c = c := by decide
    rw [← hself]
    exact denotes_clause hlegible rfl
  have hm : Denotes m.text (.mode m) := denotes_mode ⟨trivial, by decide⟩
  have hread {text s : String} {st : Statement} (hst : Denotes s st)
      (htext : text = String.join
        ([(s, st), (d.text, .determination d)].map fun part => part.1 ++ ".\n")) :
      parseStatements text = .ok [st, .determination d] := by
    have hparts : ∀ part ∈ [(s, st), (d.text, .determination d)], Denotes part.1 part.2 :=
      List.forall_mem_cons.2 ⟨hst, List.forall_mem_singleton.2 hd⟩
    rw [htext, parseStatements_join hparts]
    rfl
  constructor
  · let q : Program := { empty with knowledge := Store.empty.insertNew c ⟨"p", [.symbol "a"]⟩ }
    have hclauses : q.knowledge.clauses = [c] :=
      (Store.isFiled_empty.clauses_insertNew c _).trans (by rw [Store.clauses_empty]; rfl)
    have hfirst : empty.declare .background (.clause c) = .ok (q, .background) := by
      have hadd : Store.empty.add c = .ok (true, q.knowledge) :=
        Store.add_of_not_contains rfl (by decide) (Store.contains_empty c)
      rw [declare, addTo, addClause, show empty.knowledge = Store.empty from rfl, hadd]
      rfl
    refine ⟨.unknownMode .head ⟨"p", 1⟩, q, ?_, Store.clauses_empty, hclauses⟩
    rw [load, hread hc (by decide +kernel)]
    exact declareAll_eq_error_iff.2
      ⟨[.clause c], .determination d, [], .background, rfl, declares_singleton hfirst, rfl⟩
  · let q : Program := { empty with modes := ⟨[m], []⟩ }
    have htakes : Generator.empty.Takes empty [.mode m] ⟨Store.empty, [m]⟩ q :=
      .cons rfl (Generator.takes_nil _ _)
    refine ⟨.unknownMode .body ⟨"q", 1⟩, q, ?_, rfl, rfl⟩
    rw [generateExamples_eq_error_iff (hread hm (by decide +kernel))]
    exact Generator.declareAll_eq_error_iff.2 ⟨[.mode m], .determination d, [], _, rfl, htakes, rfl⟩

end Program
end Horn
