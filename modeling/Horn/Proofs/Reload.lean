import Horn.Proofs.ProgramStates
import Horn.Proofs.Statements

/-!
Reloading the text of a program.  The text denotes the declarations of the program one by one, and
making them from the empty program gives the program back, with its clauses up to the names of their
variables.  This needs what the program holds to be legible: every part of it has a text that can be
read, no clause has two variables with one text, and no two background clauses have one text.
-/

namespace Horn

open Source

/-- The second clause is the first one with its variables renamed one to one. -/
def Clause.IsRenamed (c d : Clause) : Prop :=
  ∃ ρ : Var → Var, (∀ v ∈ «variables» c, ∀ w ∈ «variables» c, ρ v = ρ w → v = w) ∧
    d = instantiate (fun v => .var (ρ v)) c

namespace Program

/-! ## Declarations one after the other -/

/-- Making the declarations leads from one program and section to another, whatever comes next. -/
def Declares (p : Program) (s : Section) (statements : List Statement) (q : Program)
    (t : Section) : Prop :=
  ∀ rest, p.declareAll s (statements ++ rest) = q.declareAll t rest

section

variable {p q r : Program} {s t u : Section}

theorem declares_nil (p : Program) (s : Section) : p.Declares s [] p s := fun _ => rfl

theorem declares_singleton {st : Statement} (h : p.declare s st = .ok (q, t)) :
    p.Declares s [st] q t := by
  intro rest
  rw [List.singleton_append, declareAll, h]

theorem Declares.append {front back : List Statement} (h : p.Declares s front q t)
    (h' : q.Declares t back r u) : p.Declares s (front ++ back) r u := by
  intro rest
  rw [List.append_assoc, h, h']

theorem Declares.cons {st : Statement} {back : List Statement} (h : p.declare s st = .ok (q, t))
    (h' : q.Declares t back r u) : p.Declares s (st :: back) r u :=
  (declares_singleton h).append h'

end

section

variable {p : Program} {s : Section}

theorem declares_settings {o : Options} (ho : o.InRange) (ks : List OptionKey) (p : Program)
    (s : Section) : p.Declares s (ks.map fun k => .set k.name (o.get k).text)
      { p with options := ks.foldl (fun b k => b.put k (o.get k)) p.options } s := by
  induction ks generalizing p with
  | nil => exact declares_nil p s
  | cons k ks ih =>
    refine Declares.cons ?_ (ih { p with options := p.options.put k (o.get k) })
    rw [declare, Program.set, Options.set_text p.options (ho k)]
    rfl

theorem declares_modes {ms : List Mode} (h : (p.modes.modes ++ ms).Nodup) :
    p.Declares s (ms.map Statement.mode)
      { p with modes := { p.modes with modes := p.modes.modes ++ ms } } s := by
  induction ms generalizing p with
  | nil =>
    rw [List.append_nil]
    exact declares_nil p s
  | cons m ms ih =>
    rw [List.append_cons] at h ⊢
    have hnew : m ∉ p.modes.modes := fun hm =>
      List.disjoint_of_nodup_append (List.nodup_append.1 h).1 hm List.mem_cons_self
    have hadd : p.addMode m = { p with modes := { p.modes with modes := p.modes.modes ++ [m] } } := by
      rw [addMode, ModeTable.addMode, if_neg (by simpa using hnew)]
    have hmore := ih (p := p.addMode m) (by rwa [hadd])
    rw [hadd] at hmore
    exact Declares.cons (by rw [declare, hadd]) hmore

theorem declares_determinations {ds : List Determination}
    (h : ((p.modes.determinations ++ ds).map Determination.head).Nodup)
    (hds : ∀ d ∈ ds, p.modes.requireMode .head d.head = .ok () ∧
      ∀ s ∈ d.body, p.modes.requireMode .body s = .ok ()) :
    p.Declares s (ds.map Statement.determination)
      { p with modes := { p.modes with determinations := p.modes.determinations ++ ds } } s := by
  induction ds generalizing p with
  | nil =>
    rw [List.append_nil]
    exact declares_nil p s
  | cons d ds ih =>
    obtain ⟨hd, hmore⟩ := List.forall_mem_cons.1 hds
    rw [List.append_cons] at h ⊢
    let t : ModeTable := { p.modes with determinations := p.modes.determinations ++ [d] }
    have hnone : ModeTable.mapFirst? (fun e => e.head == d.head) (fun e => ModeTable.merged e d)
        p.modes.determinations = none := by
      rw [ModeTable.mapFirst?_eq_none]
      intro e he
      rw [List.map_append, List.map_append] at h
      have hdisjoint := List.disjoint_of_nodup_append (List.nodup_append.1 h).1
      rw [beq_eq_false_iff_ne]
      intro heq
      exact hdisjoint (List.mem_map_of_mem he) (by simp [heq])
    have hadd : p.modes.addDetermination d = .ok t :=
      ModeTable.addDetermination_eq_ok.2 ⟨hd, by rw [hnone]; rfl⟩
    refine Declares.cons (q := { p with modes := t }) ?_ (ih (p := { p with modes := t }) h hmore)
    rw [declare, addDetermination, hadd]
    rfl

theorem declares_clauses {cs : List Clause} (hp : p.knowledge.IsFiled)
    (h : (p.knowledge.clauses ++ cs).Nodup)
    (hcs : ∀ c ∈ cs, (∃ head, c.headPredicate = some head) ∧ hasPlaceholders c = false) :
    ∃ k, k.clauses = p.knowledge.clauses ++ cs ∧
      p.Declares .background (cs.map Statement.clause) { p with knowledge := k } .background := by
  induction cs generalizing p with
  | nil => exact ⟨p.knowledge, (List.append_nil _).symm, declares_nil p _⟩
  | cons c cs ih =>
    obtain ⟨⟨⟨head, hhead⟩, hplain⟩, hmore⟩ := List.forall_mem_cons.1 hcs
    rw [List.append_cons] at h ⊢
    have hnew : p.knowledge.contains c = false := by
      rw [Bool.eq_false_iff, ne_eq, hp.contains_iff]
      exact fun hc =>
        List.disjoint_of_nodup_append (List.nodup_append.1 h).1 hc List.mem_cons_self
    have hadd := Store.add_of_not_contains hhead hplain hnew
    have hclauses := hp.clauses_insertNew c head
    obtain ⟨k, hk, hdeclares⟩ :=
      ih (p := { p with knowledge := p.knowledge.insertNew c head }) (hp.add hadd)
        (by rwa [hclauses]) hmore
    refine ⟨k, by rw [hk, hclauses], Declares.cons ?_ hdeclares⟩
    rw [declare, addTo, addClause, hadd]
    rfl

theorem addTo_positive {c : Clause} (hc : c.headPredicate.isSome = true)
    (positive negative : List Clause) :
    { p with examples := ⟨positive, negative⟩ }.addTo .positive c =
      .ok { p with examples := ⟨positive ++ [c], negative⟩ } := by
  have hadd : Examples.addPositive ⟨positive, negative⟩ c = .ok ⟨positive ++ [c], negative⟩ :=
    Examples.addPositive_eq_ok.2 ⟨hc, rfl⟩
  rw [addTo, addPositive, hadd]
  rfl

theorem addTo_negative {c : Clause} (hc : c.headPredicate.isSome = true)
    (positive negative : List Clause) :
    { p with examples := ⟨positive, negative⟩ }.addTo .negative c =
      .ok { p with examples := ⟨positive, negative ++ [c]⟩ } := by
  have hadd : Examples.addNegative ⟨positive, negative⟩ c = .ok ⟨positive, negative ++ [c]⟩ :=
    Examples.addNegative_eq_ok.2 ⟨hc, rfl⟩
  rw [addTo, addNegative, hadd]
  rfl

/-- Where each clause of a section leads from the program with the clauses before it to the program
with that clause as well, all of them lead to the program with all of them. -/
theorem declares_each (holding : List Clause → Program)
    (hadd : ∀ c, c.headPredicate.isSome = true → ∀ cs,
      (holding cs).addTo s c = .ok (holding (cs ++ [c])))
    {cs : List Clause} (h : ∀ c ∈ cs, c.headPredicate.isSome = true) (held : List Clause) :
    (holding held).Declares s (cs.map Statement.clause) (holding (held ++ cs)) s := by
  induction cs generalizing held with
  | nil =>
    rw [List.append_nil]
    exact declares_nil _ s
  | cons c cs ih =>
    obtain ⟨hc, hmore⟩ := List.forall_mem_cons.1 h
    rw [List.append_cons]
    refine Declares.cons ?_ (ih hmore (held ++ [c]))
    rw [declare, hadd c hc held]
    rfl

end

/-! ## The text of a program -/

/-- The lines of a section with the statements they denote. -/
def sectionParts (s : Section) (examples : List Clause) : List (String × Statement) :=
  if examples.isEmpty then []
  else (":- " ++ s.beginMark, .enter s) :: examples.map (fun c => (c.text, .clause (readBack c))) ++
    [(":- " ++ s.endMark, .leave s)]

/-- The statements of a program's text with what they denote. -/
def parts (p : Program) : List (String × Statement) :=
  ((OptionKey.all.filter fun k => p.options.get k != Options.default.get k).map fun k =>
    ("set(" ++ k.name ++ ", " ++ (p.options.get k).text ++ ")",
      .set k.name (p.options.get k).text)) ++
    p.modes.modes.map (fun m => (m.text, .mode m)) ++
    p.modes.determinations.map (fun d => (d.text, .determination d)) ++
    p.knowledge.clauses.map (fun c => (c.text, .clause (readBack c))) ++
    sectionParts .positive p.examples.positive ++ sectionParts .negative p.examples.negative

theorem map_fst_sectionParts (s : Section) (examples : List Clause) :
    (sectionParts s examples).map Prod.fst = sectionLines s examples := by
  unfold sectionParts sectionLines
  split
  · rfl
  · simp [Function.comp_def]

theorem source_eq (p : Program) :
    p.source = String.join (p.parts.map fun q => q.1 ++ ".\n") := by
  have htexts : p.parts.map Prod.fst = p.statementTexts := by
    simp [parts, statementTexts, Options.changedEntries, map_fst_sectionParts, Function.comp_def]
  rw [source, ← htexts, List.map_map]
  rfl

/-- A program whose text can be read back. -/
structure IsLegible (p : Program) : Prop where
  options : ∀ k, (p.options.get k).IsLegible
  modes : ∀ m ∈ p.modes.modes, m.IsLegible
  determinations : ∀ d ∈ p.modes.determinations, d.IsLegible
  clauses : ∀ c ∈ p.knowledge.clauses ++ (p.examples.positive ++ p.examples.negative), c.IsLegible
  /-- No clause has two variables with one text. -/
  unambiguous : ∀ c ∈ p.knowledge.clauses ++ (p.examples.positive ++ p.examples.negative),
    ∀ v ∈ «variables» c, ∀ w ∈ «variables» c, v.text = w.text → v = w
  /-- No two background clauses are read as one. -/
  distinct : ∀ c ∈ p.knowledge.clauses, ∀ d ∈ p.knowledge.clauses, readBack c = readBack d → c = d

section

variable {p : Program}

theorem denotes_sectionParts {s : Section} {examples : List Clause}
    (hlegible : ∀ c ∈ examples, c.IsLegible)
    (hheaded : ∀ c ∈ examples, c.headPredicate.isSome = true) :
    ∀ q ∈ sectionParts s examples, Denotes q.1 q.2 := by
  unfold sectionParts
  split
  · nofun
  · refine List.forall_mem_cons.2 ⟨denotes_beginMark s, List.forall_mem_append.2 ⟨?_, ?_⟩⟩
    · rw [List.forall_mem_map]
      intro c hc
      obtain ⟨head, hhead⟩ := Option.isSome_iff_exists.1 (hheaded c hc)
      exact denotes_clause (hlegible c hc) hhead
    · exact List.forall_mem_singleton.2 (denotes_endMark s)

theorem denotes_parts (hp : p.IsWellFormed) (h : p.IsLegible) :
    ∀ q ∈ p.parts, Denotes q.1 q.2 := by
  obtain ⟨hbackground, hexamples⟩ := List.forall_mem_append.1 h.clauses
  obtain ⟨hpositive, hnegative⟩ := List.forall_mem_append.1 hexamples
  obtain ⟨hheadedPositive, hheadedNegative⟩ := Examples.areHeaded_iff.1 hp.examples
  simp only [parts, List.forall_mem_append, List.forall_mem_map]
  refine ⟨⟨⟨⟨⟨?_, ?_⟩, ?_⟩, ?_⟩, ?_⟩, ?_⟩
  · exact fun k _ => denotes_setting k (h.options k)
  · exact fun m hm => denotes_mode (h.modes m hm)
  · exact fun d hd => denotes_determination (h.determinations d hd)
  · intro c hc
    obtain ⟨⟨head, hhead⟩, -⟩ := hp.knowledge.plain c hc
    exact denotes_clause (hbackground c hc) hhead
  · exact denotes_sectionParts hpositive hheadedPositive
  · exact denotes_sectionParts hnegative hheadedNegative

theorem headPredicate_readBack {c : Clause} (h : c.headPredicate.isSome = true) :
    (readBack c).headPredicate.isSome = true := by
  rw [readBack, Clause.headPredicate_instantiate, Option.isSome_map]
  exact h

theorem hasPlaceholders_readBack {c : Clause} (h : hasPlaceholders c = false) :
    hasPlaceholders (readBack c) = false := by
  rw [hasPlaceholders_eq_false] at h ⊢
  rintro u hu g rfl
  rw [readBack, instantiate_eq_rewrite] at hu
  obtain ⟨t, ht, hut⟩ := LawfulTerms.subterms_rewrite hu
  exact h _ (LawfulTerms.subterms_subterms ht (placeholder_of_mem_readBack hut)) g rfl

theorem isRenamed_readBack {c : Clause}
    (h : ∀ v ∈ «variables» c, ∀ w ∈ «variables» c, v.text = w.text → v = w) :
    c.IsRenamed (readBack c) :=
  ⟨fun v => Var.named v.text, fun v hv w hw heq => h v hv w hw (Var.mk.inj heq).1, rfl⟩

theorem forall₂_isRenamed {cs : List Clause}
    (h : ∀ c ∈ cs, ∀ v ∈ «variables» c, ∀ w ∈ «variables» c, v.text = w.text → v = w) :
    List.Forall₂ Clause.IsRenamed cs (cs.map readBack) := by
  rw [List.forall₂_map_right_iff, List.forall₂_same]
  exact fun c hc => isRenamed_readBack (h c hc)

/-- The lines of a section add its clauses and lead back to the background. -/
theorem declares_sectionParts {s : Section} (holding : List Clause → Program)
    (hadd : ∀ c, c.headPredicate.isSome = true → ∀ cs,
      (holding cs).addTo s c = .ok (holding (cs ++ [c])))
    {cs : List Clause} (h : ∀ c ∈ cs, c.headPredicate.isSome = true) :
    (holding []).Declares .background ((sectionParts s cs).map Prod.snd)
      (holding (cs.map readBack)) .background := by
  unfold sectionParts
  split
  next hempty =>
    rw [List.isEmpty_iff.1 hempty]
    exact declares_nil _ _
  next =>
    have hclauses := declares_each holding hadd
      (List.forall_mem_map.2 fun c hc => headPredicate_readBack (h c hc)) []
    rw [List.nil_append, List.map_map] at hclauses
    rw [List.cons_append, List.map_cons, List.map_append, List.map_map, List.map_singleton]
    exact Declares.cons rfl (hclauses.append (declares_singleton rfl))

/-- The background clauses of a program, as they are read, are filed anew. -/
theorem declares_knowledge (hp : p.IsWellFormed)
    (hdistinct : ∀ c ∈ p.knowledge.clauses, ∀ d ∈ p.knowledge.clauses,
      readBack c = readBack d → c = d)
    {q : Program} (hq : q.knowledge = Store.empty) :
    ∃ k, k.clauses = p.knowledge.clauses.map readBack ∧
      q.Declares .background (p.knowledge.clauses.map fun c => .clause (readBack c))
        { q with knowledge := k } .background := by
  have hnodup : (p.knowledge.clauses.map readBack).Nodup :=
    List.Nodup.map_on hdistinct hp.knowledge.isFiled.nodup_clauses
  have hplain : ∀ c ∈ p.knowledge.clauses.map readBack,
      (∃ head, c.headPredicate = some head) ∧ hasPlaceholders c = false := by
    rw [List.forall_mem_map]
    intro c hc
    obtain ⟨⟨head, hhead⟩, hplain⟩ := hp.knowledge.plain c hc
    refine ⟨Option.isSome_iff_exists.1 (headPredicate_readBack ?_), hasPlaceholders_readBack hplain⟩
    rw [hhead, Option.isSome_some]
  have hempty : q.knowledge.clauses = [] := by rw [hq, Store.clauses_empty]
  obtain ⟨k, hk, hclauses⟩ := declares_clauses (p := q) (by rw [hq]; exact Store.isFiled_empty)
    (by rwa [hempty, List.nil_append]) hplain
  rw [hempty, List.nil_append] at hk
  rw [List.map_map] at hclauses
  exact ⟨k, hk, hclauses⟩

/-- The declarations of a program's text lead from the empty program to the program with its clauses
as they are read. -/
theorem declares_parts (hp : p.IsWellFormed)
    (hdistinct : ∀ c ∈ p.knowledge.clauses, ∀ d ∈ p.knowledge.clauses,
      readBack c = readBack d → c = d) :
    ∃ k, k.clauses = p.knowledge.clauses.map readBack ∧
      empty.Declares .background (p.parts.map Prod.snd)
        ⟨p.options, k, p.modes,
          ⟨p.examples.positive.map readBack, p.examples.negative.map readBack⟩, []⟩
        .background := by
  obtain ⟨hpositive, hnegative⟩ := Examples.areHeaded_iff.1 hp.examples
  -- the programs after the settings, the modes, the determinations, the clauses and the first section
  let p1 : Program := { empty with options := p.options }
  let p2 : Program := { p1 with modes := ⟨p.modes.modes, []⟩ }
  let p3 : Program := { p2 with modes := p.modes }
  have hsettings := declares_settings hp.options
    (OptionKey.all.filter fun k => p.options.get k != Options.default.get k) empty .background
  have hchanged : (OptionKey.all.filter fun k => p.options.get k != Options.default.get k).foldl
      (fun b k => b.put k (p.options.get k)) empty.options = p.options :=
    Options.foldl_put_changed hp.options
  rw [hchanged] at hsettings
  have hmodes : p1.Declares .background (p.modes.modes.map Statement.mode) p2 .background :=
    declares_modes hp.modes.modes
  have hdeterminations : p2.Declares .background
      (p.modes.determinations.map Statement.determination) p3 .background :=
    declares_determinations hp.modes.heads fun d hd => by
      obtain ⟨hhead, hbody⟩ := hp.modes.declared d hd
      simp only [ModeTable.requireMode_iff] at hhead hbody ⊢
      exact ⟨hhead, hbody⟩
  obtain ⟨k, hk, hclauses⟩ := declares_knowledge hp hdistinct (q := p3) rfl
  let p4 : Program := { p3 with knowledge := k }
  let p5 : Program := { p4 with examples := ⟨p.examples.positive.map readBack, []⟩ }
  have hyes : p4.Declares .background ((sectionParts .positive p.examples.positive).map Prod.snd)
      p5 .background :=
    declares_sectionParts (fun cs => { p4 with examples := ⟨cs, []⟩ })
      (fun _ hc cs => addTo_positive hc cs []) hpositive
  have hno := declares_sectionParts
    (fun cs => { p5 with examples := ⟨p.examples.positive.map readBack, cs⟩ })
    (fun _ hc cs => addTo_negative hc _ cs) hnegative
  have hall := ((((hsettings.append hmodes).append hdeterminations).append hclauses).append
    hyes).append hno
  refine ⟨k, hk, ?_⟩
  simp only [parts, List.map_append, List.map_map]
  exact hall

end

/-- The text of a legible program is loaded as the program with its clauses as they are read. -/
theorem load_source {p : Program} (hp : p.IsWellFormed) (h : p.IsLegible) :
    ∃ k, k.clauses = p.knowledge.clauses.map readBack ∧
      empty.load p.source = (.ok (), ⟨p.options, k, p.modes,
        ⟨p.examples.positive.map readBack, p.examples.negative.map readBack⟩, []⟩) := by
  obtain ⟨k, hk, hdeclares⟩ := declares_parts hp h.distinct
  have hread := parseStatements_join (denotes_parts hp h)
  have hall := hdeclares []
  rw [List.append_nil, declareAll] at hall
  refine ⟨k, hk, ?_⟩
  rw [load, source_eq, hread]
  simp only [hall]

/-- Loading the text of a legible program into the empty one gives its options, modes and
determinations, and its clauses and examples in their order, each with its variables renamed one to
one. -/
theorem ofSource_source {p : Program} (hp : p.Reachable) (h : p.IsLegible) :
    ∃ q, ofSource p.source = .ok q ∧ q.options = p.options ∧ q.modes = p.modes ∧
      List.Forall₂ Clause.IsRenamed p.knowledge.clauses q.knowledge.clauses ∧
      List.Forall₂ Clause.IsRenamed p.examples.positive q.examples.positive ∧
      List.Forall₂ Clause.IsRenamed p.examples.negative q.examples.negative := by
  obtain ⟨k, hk, hload⟩ := load_source hp.isWellFormed h
  obtain ⟨hbackground, hexamples⟩ := List.forall_mem_append.1 h.unambiguous
  obtain ⟨hpositive, hnegative⟩ := List.forall_mem_append.1 hexamples
  refine ⟨⟨p.options, k, p.modes,
    ⟨p.examples.positive.map readBack, p.examples.negative.map readBack⟩, []⟩, ?_, rfl, rfl, ?_,
    forall₂_isRenamed hpositive, forall₂_isRenamed hnegative⟩
  · rw [ofSource, hload]
  · rw [hk]
    exact forall₂_isRenamed hbackground

/-- The rule `large(A) :- size(A, B), B > 2.5`. -/
def largeRule : Clause :=
  .rule (.predicate ⟨"large", [.var (.named "A")]⟩)
    [.predicate ⟨"size", [.var (.named "A"), .var (.named "B")]⟩,
      .compare ⟨.greater, .term (.var (.named "B")), .term (.const (.float ⟨0x4004000000000000⟩))⟩]

/-- The modes `modeh(1, large(+thing))` and `modeb(*, size(+thing, -number))`, with
`determination(large/1, size/2)`. -/
def largeModes : ModeTable where
  modes := [
    ⟨.head, .bounded 1, ⟨"large", [.placeholder ⟨.input, "thing"⟩]⟩, by decide⟩,
    ⟨.body, .unbounded,
      ⟨"size", [.placeholder ⟨.input, "thing"⟩, .placeholder ⟨.output, "number"⟩]⟩, by decide⟩]
  determinations := [⟨⟨"large", 1⟩, [⟨"size", 2⟩]⟩]

/-- The examples `large(box)` and `large(ant)`, the second one negative. -/
def largeExamples : Examples :=
  ⟨[.fact (.predicate ⟨"large", [.symbol "box"]⟩)], [.fact (.predicate ⟨"large", [.symbol "ant"]⟩)]⟩

/-- A program with two settings, the modes, the rule and the examples is loaded from its text. -/
theorem ofSource_source_rule :
    let options : Options := { Options.default with h := 500, updateKnowledge := false }
    ∃ p q : Program, p.Reachable ∧ p.IsLegible ∧ p.options = options ∧ p.modes = largeModes ∧
      p.knowledge.clauses = [largeRule] ∧ p.examples = largeExamples ∧
      ofSource p.source = .ok q ∧ q.options = options ∧ q.modes = largeModes ∧
      List.Forall₂ Clause.IsRenamed [largeRule] q.knowledge.clauses ∧
      List.Forall₂ Clause.IsRenamed largeExamples.positive q.examples.positive ∧
      List.Forall₂ Clause.IsRenamed largeExamples.negative q.examples.negative := by
  intro options
  have hlegible : ∀ p : Program, p.options = options → p.modes = largeModes →
      p.knowledge.clauses = [largeRule] → p.examples = largeExamples → p.IsLegible := by
    intro p hoptions hmodes hclauses hexamples
    refine ⟨?_, ?_, ?_, ?_, ?_, ?_⟩
    · rw [hoptions]
      intro k
      cases k <;> decide
    · rw [hmodes]
      decide
    · rw [hmodes]
      decide
    · rw [hclauses, hexamples]
      decide
    · rw [hclauses, hexamples]
      decide
    · rw [hclauses]
      decide
  obtain ⟨s, hs, hclauses⟩ : ∃ s, Store.Reachable s ∧ s.clauses = [largeRule] :=
    Store.exists_clauses (by decide) (by decide)
  let written : Program := ⟨options, s, largeModes, largeExamples, []⟩
  have hoptions : options.InRange := by
    intro k
    cases k <;> decide
  have hmodes : largeModes.IsOrdered := ⟨by decide, by decide,
    List.forall_mem_singleton.2 ⟨rfl, List.forall_mem_singleton.2 rfl⟩⟩
  have hheaded : largeExamples.AreHeaded := by
    unfold Examples.AreHeaded
    decide
  have hform : written.IsWellFormed := ⟨hoptions, hmodes, hs, hheaded⟩
  obtain ⟨k, hk, hload⟩ := load_source hform (hlegible written rfl rfl hclauses rfl)
  have hread : k.clauses = [largeRule] := by
    rw [hk, hclauses]
    decide
  have hexamples : Examples.mk (largeExamples.positive.map readBack)
      (largeExamples.negative.map readBack) = largeExamples := by decide
  let p : Program := ⟨options, k, largeModes, ⟨largeExamples.positive.map readBack,
    largeExamples.negative.map readBack⟩, []⟩
  have hp : p.Reachable := .load .empty hload
  have h : p.IsLegible := hlegible p rfl rfl hread hexamples
  obtain ⟨q, hq, hoptions, hmodes, hbackground, hyes, hno⟩ := ofSource_source hp h
  rw [hread] at hbackground
  rw [show p.examples = largeExamples from hexamples] at hyes hno
  exact ⟨p, q, hp, h, rfl, rfl, hread, hexamples, hq, hoptions, hmodes, hbackground, hyes, hno⟩

end Program
end Horn
