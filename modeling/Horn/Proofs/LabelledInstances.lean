import Horn.Proofs.Assignments
import Horn.Proofs.ProgramStates
import Horn.Proofs.FrameSearch

/-!
Examples generated from a clause.  The variables of the head range over the values of their types,
which are the arguments of ground facts in the background.  Every assignment gives one example, the
instance of the head, and it is positive just when the instance of the body succeeds.
-/

namespace Horn

/-! ## Labelled examples -/

namespace Examples

variable {α β : Type}

theorem labelled_eq (fact : α → Clause) (holds : α → Bool) (instances : List α) :
    labelled fact holds instances =
      ⟨(instances.filter holds).map fact, (instances.filter fun i => !holds i).map fact⟩ := by
  rw [labelled, List.partition_eq_filter_filter]
  rfl

theorem labelled_map (f : α → β) (fact : β → Clause) (holds : β → Bool) (instances : List α) :
    labelled fact holds (instances.map f) = labelled (fact ∘ f) (holds ∘ f) instances := by
  simp only [labelled_eq, List.filter_map, List.map_map]
  rfl

end Examples

/-! ## Values of types -/

namespace Clause

/-- The fact that a term is a value of a type. -/
def typeFact (typeName : String) (t : Term) : Clause := .fact (.predicate ⟨typeName, [t]⟩)

/-- The value that a clause gives a type when it is one of the type's ground facts. -/
def valueFor? (typeName : String) : Clause → Option Term
  | ⟨some (.predicate ⟨name, [t]⟩), []⟩ =>
    if name = typeName ∧ isGround t = true then some t else none
  | _ => none

theorem valueFor?_eq_some {typeName : String} {c : Clause} {t : Term} :
    c.valueFor? typeName = some t ↔ isGround t = true ∧ c = typeFact typeName t := by
  unfold valueFor?
  split
  next name u =>
    rw [Option.ite_none_right_eq_some, Option.some.injEq]
    constructor
    · rintro ⟨⟨rfl, hu⟩, rfl⟩
      exact ⟨hu, rfl⟩
    · rintro ⟨ht, heq⟩
      obtain ⟨rfl, rfl⟩ : name = typeName ∧ u = t := by simpa [typeFact, fact] using heq
      exact ⟨⟨rfl, ht⟩, rfl⟩
  next hother =>
    refine iff_of_false (by simp) fun h => ?_
    exact hother typeName t h.2

end Clause

theorem Predicate.agrees_probe {q : Predicate} {typeName : String} {v : Var} :
    q.agrees ⟨typeName, [.var v]⟩ = true ↔ ∃ t, q = ⟨typeName, [t]⟩ := by
  obtain ⟨name, args⟩ := q
  rw [agrees, Bool.and_eq_true, beq_iff_eq]
  rcases args with _ | ⟨t, _ | ⟨u, rest⟩⟩
  · simp [Term.agreesAll]
  · simp [Term.agreesAll, Term.agrees_var]
  · simp [Term.agreesAll]

namespace Program

variable {p : Program}

/-- The values of a type are the arguments of its ground facts in the background. -/
theorem domainValues_eq (h : p.knowledge.IsFiled) (typeName : String) :
    p.domainValues typeName = p.knowledge.clauses.filterMap (Clause.valueFor? typeName) := by
  unfold domainValues
  simp only [h.candidates_eq, List.filterMap_filter, List.filter_filterMap]
  refine List.filterMap_congr fun c _ => Option.ext fun t => ?_
  simp only [Clause.valueFor?_eq_some, Option.filter_eq_some_iff, Option.ite_none_right_eq_some,
    Option.any_eq_true, Predicate.agrees_probe]
  constructor
  · rintro ⟨⟨⟨_, hhead, u, rfl⟩, hfact, hvalue⟩, ht⟩
    rw [hhead] at hvalue
    obtain rfl : u = t := Option.some.inj hvalue
    obtain ⟨head, body⟩ := c
    obtain rfl := Clause.headPredicate_eq_some.1 hhead
    obtain rfl : body = [] := List.isEmpty_iff.1 hfact
    exact ⟨ht, rfl⟩
  · rintro ⟨ht, rfl⟩
    exact ⟨⟨⟨_, rfl, t, rfl⟩, rfl, rfl⟩, ht⟩

theorem mem_domainValues (h : p.knowledge.IsFiled) {typeName : String} {t : Term} :
    t ∈ p.domainValues typeName ↔
      isGround t = true ∧ Clause.typeFact typeName t ∈ p.knowledge.clauses := by
  simp only [domainValues_eq h, List.mem_filterMap, Clause.valueFor?_eq_some]
  constructor
  · rintro ⟨c, hc, ht, rfl⟩
    exact ⟨ht, hc⟩
  · rintro ⟨ht, hc⟩
    exact ⟨_, hc, ht, rfl⟩

/-- The values of a type stand in the order of their facts. -/
theorem pairwise_domainValues (h : p.knowledge.IsFiled) (typeName : String) :
    (p.domainValues typeName).Pairwise fun t u =>
      [Clause.typeFact typeName t, Clause.typeFact typeName u].Sublist p.knowledge.clauses := by
  rw [domainValues_eq h, List.pairwise_filterMap, List.pairwise_iff_forall_sublist]
  intro c d hsublist t ht u hu
  obtain ⟨-, rfl⟩ := Clause.valueFor?_eq_some.1 ht
  obtain ⟨-, rfl⟩ := Clause.valueFor?_eq_some.1 hu
  exact hsublist

/-! ## Assignments -/

section

variable (p) (domains : List (String × String))

/-- A term is a value of the type that is given for a variable. -/
def HasValue (v : Var) (t : Term) : Prop :=
  ∃ typeName, domains.lookup v.symbol = some typeName ∧ isGround t = true ∧
    Clause.typeFact typeName t ∈ p.knowledge.clauses

/-- The fact of one value of a variable stands before that of another. -/
def Precedes (v : Var) (t u : Term) : Prop :=
  ∃ typeName, domains.lookup v.symbol = some typeName ∧
    [Clause.typeFact typeName t, Clause.typeFact typeName u].Sublist p.knowledge.clauses

/-- All assignments of values to variables, each once, in lexicographic order. -/
structure ListsAssignments (vs : List Var) (rows : List (List Term)) : Prop where
  mem : ∀ ts, ts ∈ rows ↔ List.Forall₂ (p.HasValue domains) vs ts
  nodup : rows.Nodup
  ordered : rows.Pairwise (LexBefore (vs.map (p.Precedes domains)))

end

section

variable {domains : List (String × String)} {vs : List Var} {columns : List (Var × List Term)}

/-- The columns of variables that all have a type, or the first variable that has none. -/
theorem mapM_columnOf (p : Program) (domains : List (String × String)) (vs : List Var) :
    (∃ v, vs.find? (fun v => (domains.lookup v.symbol).isNone) = some v ∧
      vs.mapM (p.columnOf domains) = .error (.missingDomain v)) ∨
    (∀ v ∈ vs, (domains.lookup v.symbol).isSome = true) ∧
      ∃ columns, vs.mapM (p.columnOf domains) = .ok columns ∧ columns.map Prod.fst = vs ∧
        ∀ column ∈ columns, p.columnOf domains column.1 = .ok column := by
  induction vs with
  | nil => exact .inr ⟨nofun, [], rfl, rfl, nofun⟩
  | cons v vs ih =>
    cases htype : domains.lookup v.symbol with
    | none =>
      refine .inl ⟨v, by rw [List.find?_cons, htype]; rfl, ?_⟩
      rw [List.mapM_cons, columnOf, htype]
      rfl
    | some typeName =>
      have hcolumn : p.columnOf domains v = .ok (v, p.domainValues typeName) := by
        rw [columnOf, htype]
      rcases ih with ⟨w, hw, hrest⟩ | ⟨htypes, columns, hrest, hkeys, hcolumns⟩
      · refine .inl ⟨w, by rw [List.find?_cons, htype]; exact hw, ?_⟩
        rw [List.mapM_cons, hcolumn, hrest]
        rfl
      · refine .inr ⟨List.forall_mem_cons.2 ⟨by rw [htype]; rfl, htypes⟩,
          (v, p.domainValues typeName) :: columns, ?_, by rw [List.map_cons, hkeys],
          List.forall_mem_cons.2 ⟨hcolumn, hcolumns⟩⟩
        rw [List.mapM_cons, hcolumn, hrest]
        rfl

theorem columnOf_eq_ok {column : Var × List Term} :
    p.columnOf domains column.1 = .ok column ↔
      ∃ typeName, domains.lookup column.1.symbol = some typeName ∧
        column.2 = p.domainValues typeName := by
  obtain ⟨v, values⟩ := column
  rw [columnOf]
  cases domains.lookup v.symbol with
  | none => simp
  | some typeName => simp [eq_comm]

theorem before_asymm (h : p.knowledge.IsFiled) {ts us : List Term}
    (hlt : LexBefore (vs.map (p.Precedes domains)) ts us) :
    ¬LexBefore (vs.map (p.Precedes domains)) us ts := by
  refine hlt.asymm fun r hr t u htu hut => ?_
  obtain ⟨v, -, rfl⟩ := List.mem_map.1 hr
  obtain ⟨typeName, htype, hsublist⟩ := htu
  obtain ⟨typeName', htype', hsublist'⟩ := hut
  obtain rfl := Option.some.inj (htype.symm.trans htype')
  exact not_sublist_swap h.nodup_clauses hsublist hsublist'

theorem mem_column (h : p.knowledge.IsFiled) {column : Var × List Term}
    (hcolumn : p.columnOf domains column.1 = .ok column) {t : Term} :
    t ∈ column.2 ↔ p.HasValue domains column.1 t := by
  obtain ⟨typeName, htype, hvalues⟩ := columnOf_eq_ok.1 hcolumn
  rw [hvalues, mem_domainValues h, HasValue]
  simp [htype]

theorem forall₂_mem_iff (h : p.knowledge.IsFiled)
    (hcolumns : ∀ column ∈ columns, p.columnOf domains column.1 = .ok column) {ts : List Term} :
    List.Forall₂ (· ∈ ·) ts (columns.map Prod.snd) ↔
      List.Forall₂ (p.HasValue domains) (columns.map Prod.fst) ts := by
  induction columns generalizing ts with
  | nil => simp
  | cons column columns ih =>
    obtain ⟨hcolumn, hcolumns⟩ := List.forall_mem_cons.1 hcolumns
    cases ts with
    | nil => simp
    | cons t ts =>
      rw [List.map_cons, List.map_cons, List.forall₂_cons, List.forall₂_cons, ih hcolumns,
        mem_column h hcolumn]

/-- The choices from the columns are the assignments. -/
theorem listsAssignments_choices (h : p.knowledge.IsFiled)
    (hcolumns : ∀ column ∈ columns, p.columnOf domains column.1 = .ok column) :
    p.ListsAssignments domains (columns.map Prod.fst) (choices (columns.map Prod.snd)) := by
  have hordered : (choices (columns.map Prod.snd)).Pairwise
      (LexBefore ((columns.map Prod.fst).map (p.Precedes domains))) := by
    refine pairwise_choices ?_
    rw [List.map_map, List.forall₂_map_left_iff, List.forall₂_map_right_iff, List.forall₂_same]
    intro column hcolumn
    obtain ⟨typeName, htype, hvalues⟩ := columnOf_eq_ok.1 (hcolumns column hcolumn)
    rw [hvalues]
    exact (pairwise_domainValues h typeName).imp fun hsublist => ⟨typeName, htype, hsublist⟩
  have hnodup : (choices (columns.map Prod.snd)).Nodup := by
    refine hordered.imp ?_
    rintro ts _ hlt rfl
    exact before_asymm h hlt hlt
  exact ⟨fun ts => mem_choices.trans (forall₂_mem_iff h hcolumns), hnodup, hordered⟩

/-- There is one list of the assignments. -/
theorem ListsAssignments.eq (h : p.knowledge.IsFiled) {rows rows' : List (List Term)}
    (hrows : p.ListsAssignments domains vs rows) (hrows' : p.ListsAssignments domains vs rows') :
    rows = rows' := by
  have hperm : rows.Perm rows' := (List.perm_ext_iff_of_nodup hrows.nodup hrows'.nodup).2
    fun ts => (hrows.mem ts).trans (hrows'.mem ts).symm
  exact hperm.eq_of_pairwise (fun _ _ _ _ hlt hgt => absurd hgt (before_asymm h hlt)) hrows.ordered
    hrows'.ordered

end

end Program

/-! ## Examples from a clause -/

theorem Predicate.nodup_variables (head : Predicate) : («variables» head).Nodup := nodup_eraseDups _

/-- The head under an assignment of terms to its variables, as an example. -/
def Predicate.exampleAt (head : Predicate) (ts : List Term) : Clause :=
  .fact (.predicate ((Valuation.choosing («variables» head) ts).apply head))

theorem Predicate.value_eq_of_exampleAt_eq {head : Predicate} {ts us : List Term}
    (h : head.exampleAt ts = head.exampleAt us) {v : Var} (hv : v ∈ «variables» head) :
    (Valuation.choosing («variables» head) ts).value v =
      (Valuation.choosing («variables» head) us).value v := by
  refine Predicate.value_eq_of_apply_eq ?_ hv
  simpa [Predicate.exampleAt, Clause.fact] using h

namespace Program

/-- Whether the body of a clause succeeds under an assignment of terms to the variables of its head. -/
def succeedsAt (p : Program) (c : Clause) (head : Predicate) (ts : List Term) : Bool :=
  Goal.succeeds (((Valuation.choosing («variables» head) ts).apply c.body).map Literal.atom)
    p.knowledge.candidates p.options.h

/-- Assignments with the same instance of the head have the same instance of the body. -/
theorem succeedsAt_congr (p : Program) {c : Clause} {head : Predicate} {ts us : List Term}
    (h : head.exampleAt ts = head.exampleAt us) : p.succeedsAt c head ts = p.succeedsAt c head us := by
  have hvalue : (Valuation.choosing («variables» head) ts).value =
      (Valuation.choosing («variables» head) us).value := by
    funext v
    by_cases hv : v ∈ «variables» head
    · exact Predicate.value_eq_of_exampleAt_eq h hv
    · rw [Valuation.choosing_of_not_mem hv, Valuation.choosing_of_not_mem hv]
  rw [succeedsAt, succeedsAt, Valuation.apply, Valuation.apply, hvalue]

/-- The assignment can be read off its example when the background is normal. -/
theorem ListsAssignments.exampleAt_injOn {p : Program} {head : Predicate}
    {domains : List (String × String)} {rows : List (List Term)}
    (h : p.ListsAssignments domains («variables» head) rows)
    (hnormal : ∀ d ∈ p.knowledge.clauses, Normal d) {ts us : List Term} (hts : ts ∈ rows)
    (hus : us ∈ rows) (heq : head.exampleAt ts = head.exampleAt us) : ts = us := by
  have hread {ts : List Term} (hts : ts ∈ rows) :
      («variables» head).map (Valuation.choosing («variables» head) ts).value = ts := by
    have hvalues : List.Forall₂ (p.HasValue domains) («variables» head) ts := (h.mem ts).1 hts
    rw [Valuation.map_choosing head.nodup_variables hvalues.length_eq]
    refine (List.map_congr_left fun t ht => Term.apply_identity ?_).trans (List.map_id' ts)
    obtain ⟨v, -, typeName, -, -, hfact⟩ := exists_of_forall₂ hvalues.flip ht
    exact Predicate.isNormal_args (Clause.normal_headPredicate (hnormal _ hfact) rfl)
      List.mem_cons_self
  rw [← hread hts, ← hread hus]
  exact List.map_congr_left fun v hv => Predicate.value_eq_of_exampleAt_eq heq hv

section

variable (p : Program) (c : Clause) (head : Predicate) (rows : List (List Term))

/-- The examples of the assignments under which the body succeeds. -/
def positiveExamples : List Clause := (rows.filter (p.succeedsAt c head)).map head.exampleAt

/-- The examples of the other assignments. -/
def negativeExamples : List Clause :=
  (rows.filter fun ts => !p.succeedsAt c head ts).map head.exampleAt

theorem disjoint_examples :
    (p.positiveExamples c head rows).Disjoint (p.negativeExamples c head rows) := by
  intro e hpositive hnegative
  obtain ⟨ts, hts, rfl⟩ := List.mem_map.1 hpositive
  obtain ⟨us, hus, heq⟩ := List.mem_map.1 hnegative
  have hsucceeds : p.succeedsAt c head ts = true := (List.mem_filter.1 hts).2
  have hfails := (List.mem_filter.1 hus).2
  rw [succeedsAt_congr p heq, hsucceeds] at hfails
  cases hfails

variable {p c head rows}

/-- No example is there twice when the background is normal. -/
theorem ListsAssignments.nodup_examples {domains : List (String × String)}
    (h : p.ListsAssignments domains («variables» head) rows)
    (hnormal : ∀ d ∈ p.knowledge.clauses, Normal d) :
    (p.positiveExamples c head rows ++ p.negativeExamples c head rows).Nodup := by
  have hpart (keep : List Term → Bool) : ((rows.filter keep).map head.exampleAt).Nodup :=
    (h.nodup.filter keep).map_on fun ts hts us hus =>
      h.exampleAt_injOn hnormal (List.mem_of_mem_filter hts) (List.mem_of_mem_filter hus)
  exact (hpart _).append (hpart _) (disjoint_examples p c head rows)

end

/-- The rows of bindings are labelled as the assignments that they are. -/
theorem labelled_product (p : Program) (c : Clause) {head : Predicate}
    {columns : List (Var × List Term)} (hkeys : columns.map Prod.fst = «variables» head)
    (hground : ∀ column ∈ columns, ∀ t ∈ column.2, isGround t = true) :
    Examples.labelled (fun σ : Substitution => .fact (.predicate (σ.apply head)))
        (fun σ => Goal.succeeds ((σ.apply c.body).map Literal.atom) p.knowledge.candidates p.options.h)
        (Substitution.product columns) =
      Examples.labelled head.exampleAt (p.succeedsAt c head) (choices (columns.map Prod.snd)) := by
  let fact (θ : Var → Term) : Clause := .fact (.predicate (instantiate θ head))
  let holds (θ : Var → Term) : Bool :=
    Goal.succeeds ((instantiate θ c.body).map Literal.atom) p.knowledge.candidates p.options.h
  have hrows := Substitution.map_valueOf_product (by rw [hkeys]; exact head.nodup_variables) hground
  rw [hkeys] at hrows
  have hlabelled := (Examples.labelled_map Substitution.valueOf fact holds _).symm.trans
    ((congrArg (Examples.labelled fact holds) hrows).trans (Examples.labelled_map _ fact holds _))
  simp only [Substitution.apply_eq_instantiate]
  exact hlabelled

/-- For a clause with a predicate for its head, the first variable of the head for which no type is
given is the reason to refuse, and the program stays as it is.  Otherwise every assignment to the variables of
the head gives one example, the instance of the head, among the positive ones just when the instance of
the body succeeds.  Both kinds are in the order of the assignments and have no example in common, they
come after the examples of the program, and the rest of the program stays as it is. -/
theorem generateExamplesFromClause_labels {p : Program} (hp : p.knowledge.Reachable) {c : Clause}
    {head : Predicate} (hhead : c.headPredicate = some head) (domains : List (String × String)) :
    (∀ v, («variables» head).find? (fun v => (domains.lookup v.symbol).isNone) = some v →
      p.labelInstances c domains = (.error (.missingDomain v), p) ∧
        p.generateExamplesFromClause c domains = .error (.missingDomain v)) ∧
    ((∀ v ∈ «variables» head, (domains.lookup v.symbol).isSome = true) →
      ∃ rows, p.ListsAssignments domains («variables» head) rows ∧
        let positive := p.positiveExamples c head rows
        let negative := p.negativeExamples c head rows
        let q := { p with examples :=
          ⟨p.examples.positive ++ positive, p.examples.negative ++ negative⟩ }
        p.labelInstances c domains = (.ok ⟨positive, negative⟩, q) ∧
        p.generateExamplesFromClause c domains = .ok (⟨positive, negative⟩, q) ∧
        positive.Disjoint negative ∧
        ((∀ d ∈ p.knowledge.clauses, Normal d) → (positive ++ negative).Nodup)) := by
  have hfiled : p.knowledge.IsFiled := hp.isFiled
  have hclash {v : Var}
      (hv : («variables» head).find? (fun v => (domains.lookup v.symbol).isNone) = some v)
      (htypes : ∀ v ∈ «variables» head, (domains.lookup v.symbol).isSome = true) : False := by
    have hsome := htypes v (List.mem_of_find?_eq_some hv)
    have hnone : (domains.lookup v.symbol).isNone = true := (List.find?_eq_some_iff_append.1 hv).1
    rw [Option.isNone_iff_eq_none.1 hnone] at hsome
    cases hsome
  unfold generateExamplesFromClause labelInstances
  simp only [hhead]
  rcases p.mapM_columnOf domains («variables» head) with
    ⟨v, hv, hcolumns⟩ | ⟨htypes, columns, hcolumns, hkeys, hcolumn⟩
  · refine ⟨fun w hw => ?_, fun htypes => (hclash hv htypes).elim⟩
    rw [hcolumns, ← Option.some.inj (hv.symm.trans hw)]
    exact ⟨rfl, rfl⟩
  · refine ⟨fun v hv => (hclash hv htypes).elim, fun _ => ?_⟩
    have hrows := listsAssignments_choices hfiled hcolumn
    have hground : ∀ column ∈ columns, ∀ t ∈ column.2, isGround t = true := by
      intro column hmem t ht
      obtain ⟨-, -, ht, -⟩ := (mem_column hfiled (hcolumn column hmem)).1 ht
      exact ht
    rw [hkeys] at hrows
    have hlabelled := labelled_product p c hkeys hground
    rw [Examples.labelled_eq head.exampleAt] at hlabelled
    refine ⟨choices (columns.map Prod.snd), hrows, ?_, ?_, disjoint_examples p c head _,
      fun hnormal => hrows.nodup_examples hnormal⟩
    · rw [hcolumns]
      show (Except.ok _, p.appendExamples _) = _
      rw [hlabelled]
      rfl
    · rw [hcolumns]
      show Except.ok (_, p.appendExamples _) = _
      rw [hlabelled]
      rfl

/-- Two variables with two values each, and a body that wants them to be the same. -/
theorem generateExamplesFromClause_labels_pairs :
    let x := Var.named "X"
    let y := Var.named "Y"
    let head : Predicate := ⟨"same", [.var x, .var y]⟩
    let c : Clause :=
      .rule (.predicate head) [.compare ⟨.identical, .term (.var x), .term (.var y)⟩]
    let pair (s t : String) : Clause := .fact (.predicate ⟨"same", [.symbol s, .symbol t]⟩)
    c.headPredicate = some head ∧ ∃ p : Program, p.knowledge.Reachable ∧
      p.labelInstances c [("Y", "t")] = (.error (.missingDomain x), p) ∧
      p.generateExamplesFromClause c [("X", "t"), ("Y", "t")] =
        .ok (⟨[pair "a" "a", pair "b" "b"], [pair "a" "b", pair "b" "a"]⟩,
          { p with examples := ⟨[pair "a" "a", pair "b" "b"], [pair "a" "b", pair "b" "a"]⟩ }) := by
  intro x y head c pair
  let values : List Term := [.symbol "a", .symbol "b"]
  obtain ⟨s, hs, hclauses⟩ :
      ∃ s : Store, s.Reachable ∧ s.clauses = values.map (Clause.typeFact "t") :=
    Store.exists_clauses (by decide) (by decide)
  let p : Program := { empty with knowledge := s }
  have hvalues : p.domainValues "t" = values := by
    rw [domainValues_eq hs.isFiled, hclauses]
    rfl
  have hsucceeds (t u : String) : p.succeedsAt c head [.symbol t, .symbol u] = decide (t = u) := by
    let same : Comparison := ⟨.identical, .term (.symbol t), .term (.symbol u)⟩
    have hbody : ((Valuation.choosing («variables» head) [.symbol t, .symbol u]).apply c.body).map
        Literal.atom = [.atom (.compare same)] := rfl
    have hsolution (σ : Substitution) : same.solution? σ = if t = u then some σ else none := by
      show (if Term.symbol t = Term.symbol u then some σ else none) = _
      simp only [Term.symbol, Term.const.injEq, Constant.symbol.injEq]
    rw [succeedsAt, Goal.succeeds_eq, Search.start, hbody, Search.next_compare (d := same) rfl, hsolution]
    by_cases htu : t = u
    · rw [if_pos htu, decide_eq_true htu]
      exact congrArg (fun r => r.1.isSome) Search.next_answer
    · rw [if_neg htu, decide_eq_false htu]
      exact congrArg (fun r => r.1.isSome) Search.next_nil
  have hrows : choices [values, values] = [[.symbol "a", .symbol "a"], [.symbol "a", .symbol "b"],
      [.symbol "b", .symbol "a"], [.symbol "b", .symbol "b"]] := rfl
  have hpositive : p.positiveExamples c head (choices [values, values]) =
      [pair "a" "a", pair "b" "b"] := by
    simp only [positiveExamples, hrows, List.filter_cons, hsucceeds]
    rfl
  have hnegative : p.negativeExamples c head (choices [values, values]) =
      [pair "a" "b", pair "b" "a"] := by
    simp only [negativeExamples, hrows, List.filter_cons, hsucceeds]
    rfl
  have hcolumns : ∀ column ∈ [(x, values), (y, values)],
      p.columnOf [("X", "t"), ("Y", "t")] column.1 = .ok column :=
    List.forall_mem_cons.2 ⟨columnOf_eq_ok.2 ⟨"t", rfl, hvalues.symm⟩,
      List.forall_mem_singleton.2 (columnOf_eq_ok.2 ⟨"t", rfl, hvalues.symm⟩)⟩
  have hlisted := listsAssignments_choices hs.isFiled hcolumns
  refine ⟨rfl, p, hs, ?_, ?_⟩
  · exact ((generateExamplesFromClause_labels hs (c := c) rfl [("Y", "t")]).1 x rfl).1
  · obtain ⟨rows, hrows, -, hresult, -⟩ := (generateExamplesFromClause_labels hs (p := p) (c := c) rfl
      [("X", "t"), ("Y", "t")]).2 (by decide)
    obtain rfl : rows = choices [values, values] := hrows.eq hs.isFiled hlisted
    rw [hresult, hpositive, hnegative]
    rfl

end Program
end Horn
