import Horn.Proofs.ParsedForms

/-!
What the productions of the grammar leave and what they give.  Each goes on over the tokens of the text
in their order, never past a fault, and whatever it gives has its lists in normal form: a list is built
in one place, which puts it into that form.
-/

namespace Horn

/-! ## The terms of a statement -/

def Directive.subterms : Directive → List Term
  | .pos c | .neg c | .verify c => HasTerms.subterms c
  | .load _ | .save _ | .set _ _ | .induce | .display | .log | .next | .quit => []

/-- Every term and subterm of a statement. -/
def Statement.subterms : Statement → List Term
  | .clause c => HasTerms.subterms c
  | .query g => HasTerms.subterms g
  | .mode m => HasTerms.subterms m.atom
  | .directive d => d.subterms
  | .determination _ | .set _ _ | .enter _ | .leave _ => []

/-- Every term of the statement is in list normal form. -/
def Statement.IsNormal (s : Statement) : Prop := ∀ t ∈ s.subterms, t.isNormal = true

def Directive.IsNormal (d : Directive) : Prop := ∀ t ∈ d.subterms, t.isNormal = true

theorem Statement.isNormal_of_nil {s : Statement} (h : s.subterms = []) : s.IsNormal := by
  rw [IsNormal, h]
  exact List.forall_mem_nil _

theorem Directive.isNormal_of_nil {d : Directive} (h : d.subterms = []) : d.IsNormal := by
  rw [IsNormal, h]
  exact List.forall_mem_nil _

/-! ## Normal forms out of normal parts -/

theorem Term.isNormal_app {f : String} {args : List Term} (h : ∀ t ∈ args, t.isNormal = true) :
    (app f args).isNormal = true := by
  rw [app]
  split
  · rfl
  · rw [isNormal, allNormal_iff]
    exact h

theorem normal_cons {α : Type} [HasTerms α] {x : α} {xs : List α} :
    Normal (x :: xs) ↔ Normal x ∧ Normal xs :=
  List.forall_mem_append

theorem normal_predicate {name : String} {args : List Term} (h : ∀ t ∈ args, t.isNormal = true) :
    Normal (Predicate.mk name args) := by
  intro u hu
  obtain ⟨t, ht, hut⟩ := List.mem_flatMap.1 hu
  exact Term.isNormal_of_mem_subterms (h t ht) hut

theorem Term.normal_asPredicate {t : Term} {p : Predicate} (ht : t.isNormal = true)
    (hp : t.asPredicate = some p) : Normal p := by
  unfold Term.asPredicate at hp
  split at hp
  next => exact Option.some.inj hp ▸ normal_predicate (List.forall_mem_nil _)
  next => exact Option.some.inj hp ▸ normal_predicate fun t => isNormal_args ht
  next => cases hp

theorem Expr.normal_asPredicate {e : Expr} {p : Predicate} (he : Normal e)
    (hp : e.asPredicate = some p) : Normal p := by
  unfold Expr.asPredicate at hp
  split at hp
  next t => exact Term.normal_asPredicate (Term.normal_iff.1 he) hp
  next f t =>
    obtain rfl := Option.some.inj hp
    exact normal_predicate (List.forall_mem_singleton.2 (Term.normal_iff.1 he))
  next => cases hp

theorem Literal.normal_not {g : Goal} (hg : Normal g) : Normal (Literal.not g) := by
  have hsame : subtermsAll g = HasTerms.subterms g := by
    induction g with
    | nil => rfl
    | cons l g ih => exact congrArg (l.subterms ++ ·) (ih (normal_cons.1 hg).2)
  show ∀ t ∈ subtermsAll g, _
  rwa [hsame]

namespace Source

/-! ## Going on -/

/-- The second cursor stands later in the same text than the first, or at the same token, and not on a
fault. -/
structure Cursor.Follows (b c : Cursor) : Prop where
  items : c.left.items <:+ b.left.items
  fault : c.left.fault = b.left.fault
  settled : c.left.items = [] → c.left.fault = none

/-- What is read satisfies the predicate, and reading has gone on from the given cursor. -/
def Advances {α : Type} {n : Nat} (b : Cursor) (r : Reading α n) (P : α → Prop) : Prop :=
  Yields r fun p => P p.value ∧ b.Follows p.rest

/-- Nothing is read, or reading has gone on from the given cursor. -/
def MayAdvance {α : Type} {n : Nat} (b : Cursor) (r : Except Fault (Option (Parsed α n)))
    (P : α → Prop) : Prop :=
  Yields r fun o => ∀ p ∈ o, P p.value ∧ b.Follows p.rest

section

variable {α β : Type} {n : Nat} {b : Cursor} {P : α → Prop} {Q : β → Prop}

theorem Advances.bind {r : Reading α n} {f : Parsed α n → Except Fault β} (hr : Advances b r P)
    (hf : ∀ a c h, P a → b.Follows c → Yields (f ⟨a, c, h⟩) Q) : Yields (r >>= f) Q :=
  Yields.bind hr fun p hp => hf p.value p.rest p.fewer hp.1 hp.2

theorem MayAdvance.bind {r : Except Fault (Option (Parsed α n))}
    {f : Option (Parsed α n) → Except Fault β} (hr : MayAdvance b r P) (hnone : Yields (f none) Q)
    (hsome : ∀ a c h, P a → b.Follows c → Yields (f (some ⟨a, c, h⟩)) Q) : Yields (r >>= f) Q := by
  refine Yields.bind hr fun o ho => ?_
  cases o with
  | none => exact hnone
  | some p => exact hsome p.value p.rest p.fewer (ho p rfl).1 (ho p rfl).2

end

namespace Cursor

variable {α : Type} {P : α → Prop} {b c : Cursor}

theorem Follows.refl (h : c.left.items = [] → c.left.fault = none) : c.Follows c :=
  ⟨List.suffix_refl _, rfl, h⟩

theorem Follows.trans {d : Cursor} (h : b.Follows c) (h' : c.Follows d) : b.Follows d :=
  ⟨h'.items.trans h.items, h'.fault.trans h.fault, h'.settled⟩

theorem settled_start {source : String} (h : start source = .ok c) :
    c.left = lexemes source.toList ∧ (c.left.items = [] → c.left.fault = none) := by
  rw [start, settle] at h
  split at h
  next => cases h
  next hsettled =>
    cases h
    refine ⟨rfl, fun hnil => Option.eq_none_iff_forall_ne_some.2 fun f hf => hsettled f hnil hf⟩

/-- Moving on reads the value and leaves the tokens that it is to, and does not end on a fault. -/
theorem of_moveTo_eq_ok {a : α} {more : List Lexeme} {fewer : more.length < c.size}
    {p : Parsed α c.size} (h : c.moveTo a more fewer = .ok p) :
    p.value = a ∧ p.rest = c.withItems more ∧ (more = [] → c.left.fault = none) := by
  unfold moveTo at h
  cases more with
  | nil =>
    cases hf : c.left.fault with
    | none =>
      rw [hf] at h
      cases h
      exact ⟨rfl, rfl, fun _ => rfl⟩
    | some f =>
      rw [hf] at h
      cases h
  | cons l more =>
    cases h
    exact ⟨rfl, rfl, nofun⟩

theorem Follows.accept {kind : Token → Option α} (hc : b.Follows c)
    (hP : ∀ t a, kind t = some a → P a) : MayAdvance b (c.accept kind) P := by
  intro o ho
  unfold Cursor.accept at ho
  split at ho
  next =>
    cases ho
    exact nofun
  next l more hl =>
    split at ho
    next =>
      cases ho
      exact nofun
    next a ha =>
      obtain ⟨p, hp, rfl⟩ := ok_of_map ho
      rintro q hq
      obtain rfl := Option.some.inj hq
      have hmore : more <:+ b.left.items := (List.suffix_cons l more).trans (hl ▸ hc.items)
      obtain ⟨hvalue, hrest, hsettled⟩ := of_moveTo_eq_ok hp
      rw [hvalue, hrest]
      exact ⟨hP _ _ ha, hmore, hc.fault, hsettled⟩

theorem Follows.acceptAny (hc : b.Follows c) (kind : Token → Option α) :
    MayAdvance b (c.accept kind) fun _ => True :=
  hc.accept fun _ _ _ => trivial

theorem Follows.acceptToken (hc : b.Follows c) (t : Token) :
    MayAdvance b (c.acceptToken t) fun _ => True :=
  hc.acceptAny _

theorem Follows.expect (hc : b.Follows c) (t : Token) : Advances b (c.expect t) fun _ => True :=
  (hc.acceptToken t).bind yields_error fun _ _ _ h hd => yields_ok ⟨h, hd⟩

theorem Follows.require {kind : Token → Option α} (hc : b.Follows c)
    (hP : ∀ t a, kind t = some a → P a) (wanted : String) : Advances b (c.require kind wanted) P :=
  (hc.accept hP).bind yields_error fun _ _ _ h hd => yields_ok ⟨h, hd⟩

theorem Follows.requireAny (hc : b.Follows c) (kind : Token → Option α) (wanted : String) :
    Advances b (c.require kind wanted) fun _ => True :=
  hc.require (fun _ _ _ => trivial) wanted

theorem Follows.acceptCall (hc : b.Follows c) (kind : Token → Option α) :
    MayAdvance b (c.acceptCall kind) fun _ => True := by
  refine (hc.acceptAny kind).bind (yields_ok nofun) fun a d _ _ hd => ?_
  refine (hd.acceptAny _).bind (yields_ok nofun) fun _ e _ _ he => yields_ok fun p hp => ?_
  obtain rfl := Option.some.inj hp
  exact ⟨trivial, he⟩

theorem Follows.nextAnonymous (hc : b.Follows c) : b.Follows c.nextAnonymous.2 :=
  ⟨hc.items, hc.fault, hc.settled⟩

end Cursor

variable {b : Cursor}

/-! ## Terms -/

/-- What the functions for terms do from a cursor. -/
structure AdvancesTerms (b c : Cursor) : Prop where
  term : Advances b (term c) fun t => t.isNormal = true
  terms (close : Token) : Advances b (terms close c) fun ts => ∀ t ∈ ts, t.isNormal = true
  moreTerms : Advances b (moreTerms c) fun ts => ∀ t ∈ ts, t.isNormal = true

theorem isNormal_signed {sign : Sign} {t : Token} {x : Term} (h : signedTerm? sign t = some x) :
    x.isNormal = true := by
  unfold signedTerm? at h
  split at h
  next => exact Option.some.inj (Option.ite_none_right_eq_some.1 h).2 ▸ rfl
  next => exact Option.some.inj (Option.ite_none_right_eq_some.1 h).2 ▸ rfl
  next => exact Option.some.inj h ▸ rfl
  next => cases h

section

variable {c : Cursor} (hc : b.Follows c)
  (ih : ∀ d : Cursor, d.size < c.size → b.Follows d → AdvancesTerms b d)

include hc ih

theorem advances_term : Advances b (term c) fun t => t.isNormal = true := by
  rw [term]
  refine (hc.requireAny TermStart.ofToken? "a term").bind fun start c1 h1 _ hc1 => ?_
  cases start with
  | var name =>
    dsimp only
    split
    · exact yields_ok ⟨rfl, hc1.nextAnonymous⟩
    · exact yields_ok ⟨rfl, hc1⟩
  | constant k => exact yields_ok ⟨rfl, hc1⟩
  | word s =>
    refine (hc1.acceptToken .leftParen).bind (yields_ok ⟨rfl, hc1⟩) fun _ c2 h2 _ hc2 => ?_
    refine ((ih c2 (by omega) hc2).terms .rightParen).bind fun args c3 h3 hargs hc3 => ?_
    refine (hc3.expect .rightParen).bind fun _ c4 h4 _ hc4 => ?_
    exact yields_ok ⟨Term.isNormal_app hargs, hc4⟩
  | list =>
    refine ((ih c1 h1 hc1).terms .rightBracket).bind fun items c2 h2 hitems hc2 => ?_
    refine (hc2.acceptToken .bar).bind ?_ fun _ c3 h3 _ hc3 => ?_
    · refine (hc2.expect .rightBracket).bind fun _ c3 h3 _ hc3 => ?_
      exact yields_ok ⟨Term.isNormal_listOf hitems nofun, hc3⟩
    · refine (ih c3 (by omega) hc3).term.bind fun tail c4 h4 htail hc4 => ?_
      refine (hc4.expect .rightBracket).bind fun _ c5 h5 _ hc5 => ?_
      exact yields_ok ⟨Term.isNormal_listOf hitems fun t ht => Option.some.inj ht ▸ htail, hc5⟩
  | signed sign =>
    refine (hc1.accept fun _ _ => isNormal_signed).bind yields_error fun x c2 h2 hx hc2 => ?_
    exact yields_ok ⟨hx, hc2⟩

theorem advances_terms (close : Token) :
    Advances b (terms close c) fun ts => ∀ t ∈ ts, t.isNormal = true := by
  rw [terms]
  split
  · exact yields_ok ⟨List.forall_mem_nil _, hc⟩
  · refine (advances_term hc ih).bind fun t c1 h1 ht hc1 => ?_
    refine (ih c1 h1 hc1).moreTerms.bind fun rest c2 h2 hrest hc2 => ?_
    exact yields_ok ⟨List.forall_mem_cons.2 ⟨ht, hrest⟩, hc2⟩

theorem advances_moreTerms : Advances b (moreTerms c) fun ts => ∀ t ∈ ts, t.isNormal = true := by
  rw [moreTerms]
  refine (hc.acceptToken .comma).bind (yields_ok ⟨List.forall_mem_nil _, hc⟩) ?_
  intro _ c1 h1 _ hc1
  refine (ih c1 h1 hc1).term.bind fun t c2 h2 ht hc2 => ?_
  refine (ih c2 (by omega) hc2).moreTerms.bind fun rest c3 h3 hrest hc3 => ?_
  exact yields_ok ⟨List.forall_mem_cons.2 ⟨ht, hrest⟩, hc3⟩

end

theorem advancesTerms (c : Cursor) (hc : b.Follows c) : AdvancesTerms b c :=
  have ih (d : Cursor) (_hd : d.size < c.size) (h : b.Follows d) := advancesTerms d h
  ⟨advances_term hc ih, advances_terms hc ih, advances_moreTerms hc ih⟩
termination_by c.size

/-! ## Expressions -/

/-- What the functions for expressions do from a cursor. -/
structure AdvancesExprs (b c : Cursor) : Prop where
  expr : Advances b (expr c) fun e => Normal e
  moreSummands {left : Expr} : Normal left → Advances b (moreSummands left c) fun e => Normal e
  product : Advances b (product c) fun e => Normal e
  moreFactors {left : Expr} : Normal left → Advances b (moreFactors left c) fun e => Normal e
  power : Advances b (power c) fun e => Normal e
  unary : Advances b (unary c) fun e => Normal e

theorem normal_binary {op : BinOp} {l r : Expr} (hl : Normal l) (hr : Normal r) :
    Normal (Expr.binary op l r) := List.forall_mem_append.2 ⟨hl, hr⟩

theorem advances_operand {c : Cursor} (hc : b.Follows c) :
    Advances b (do let ⟨t, c1, h1⟩ ← term c; return ⟨.term t, c1, h1⟩ : Reading Expr c.size)
      fun e => Normal e :=
  (advancesTerms c hc).term.bind fun _ _ _ ht hc1 => yields_ok ⟨Term.normal_iff.2 ht, hc1⟩

section

variable {c : Cursor} (hc : b.Follows c)
  (ih : ∀ d : Cursor, d.size < c.size → b.Follows d → AdvancesExprs b d)

include hc ih

theorem advances_primary : Advances b (primary c) fun e => Normal e := by
  rw [primary]
  refine (hc.acceptToken .leftParen).bind ?_ fun _ c1 h1 _ hc1 => ?_
  · refine (hc.acceptCall function?).bind (advances_operand hc) fun f c1 h1 _ hc1 => ?_
    refine (ih c1 h1 hc1).expr.bind fun e c2 h2 he hc2 => ?_
    refine (hc2.expect .rightParen).bind fun _ c3 h3 _ hc3 => ?_
    exact yields_ok ⟨he, hc3⟩
  · refine (ih c1 h1 hc1).expr.bind fun e c2 h2 he hc2 => ?_
    refine (hc2.expect .rightParen).bind fun _ c3 h3 _ hc3 => ?_
    exact yields_ok ⟨he, hc3⟩

theorem advances_unary : Advances b (unary c) fun e => Normal e := by
  rw [unary]
  split
  · refine Yields.bind (P := fun _ => True) (fun _ _ => trivial) fun t _ => ?_
    split
    · exact advances_operand hc
    · refine (hc.expect (.op "-")).bind fun _ c1 h1 _ hc1 => ?_
      refine (ih c1 h1 hc1).unary.bind fun e c2 h2 he hc2 => ?_
      exact yields_ok ⟨he, hc2⟩
  · exact advances_primary hc ih

theorem advances_power : Advances b (power c) fun e => Normal e := by
  rw [power]
  refine (advances_unary hc ih).bind fun base c1 h1 hbase hc1 => ?_
  refine (hc1.acceptToken (.op "**")).bind (yields_ok ⟨hbase, hc1⟩) fun _ c2 h2 _ hc2 => ?_
  refine (ih c2 (by omega) hc2).power.bind fun exponent c3 h3 hexponent hc3 => ?_
  exact yields_ok ⟨normal_binary hbase hexponent, hc3⟩

theorem advances_moreFactors {left : Expr} (hleft : Normal left) :
    Advances b (moreFactors left c) fun e => Normal e := by
  rw [moreFactors]
  refine (hc.acceptAny multiplicative?).bind (yields_ok ⟨hleft, hc⟩) fun op c1 h1 _ hc1 => ?_
  refine (ih c1 h1 hc1).power.bind fun right c2 h2 hright hc2 => ?_
  refine ((ih c2 (by omega) hc2).moreFactors (normal_binary hleft hright)).bind ?_
  exact fun e c3 h3 he hc3 => yields_ok ⟨he, hc3⟩

theorem advances_product : Advances b (product c) fun e => Normal e := by
  rw [product]
  refine (advances_power hc ih).bind fun left c1 h1 hleft hc1 => ?_
  refine ((ih c1 h1 hc1).moreFactors hleft).bind fun e c2 h2 he hc2 => ?_
  exact yields_ok ⟨he, hc2⟩

theorem advances_moreSummands {left : Expr} (hleft : Normal left) :
    Advances b (moreSummands left c) fun e => Normal e := by
  rw [moreSummands]
  refine (hc.acceptAny additive?).bind (yields_ok ⟨hleft, hc⟩) fun op c1 h1 _ hc1 => ?_
  refine (ih c1 h1 hc1).product.bind fun right c2 h2 hright hc2 => ?_
  refine ((ih c2 (by omega) hc2).moreSummands (normal_binary hleft hright)).bind ?_
  exact fun e c3 h3 he hc3 => yields_ok ⟨he, hc3⟩

theorem advances_expr : Advances b (expr c) fun e => Normal e := by
  rw [expr]
  refine (advances_product hc ih).bind fun left c1 h1 hleft hc1 => ?_
  refine ((ih c1 h1 hc1).moreSummands hleft).bind fun e c2 h2 he hc2 => ?_
  exact yields_ok ⟨he, hc2⟩

end

theorem advancesExprs (c : Cursor) (hc : b.Follows c) : AdvancesExprs b c :=
  have ih (d : Cursor) (_hd : d.size < c.size) (h : b.Follows d) := advancesExprs d h
  ⟨advances_expr hc ih, advances_moreSummands hc ih, advances_product hc ih,
    advances_moreFactors hc ih, advances_power hc ih, advances_unary hc ih⟩
termination_by c.size

/-! ## Atoms, literals and clauses -/

theorem advances_atom {c : Cursor} (hc : b.Follows c) : Advances b (atom c) fun a => Normal a := by
  rw [atom]
  refine (advancesExprs c hc).expr.bind fun left c1 h1 hleft hc1 => ?_
  refine (hc1.acceptAny comparison?).bind ?_ fun op c2 h2 _ hc2 => ?_
  · cases hp : left.asPredicate with
    | none => exact yields_error
    | some p => exact yields_ok ⟨Expr.normal_asPredicate hleft hp, hc1⟩
  · refine (advancesExprs c2 hc2).expr.bind fun right c3 h3 hright hc3 => ?_
    exact yields_ok ⟨List.forall_mem_append.2 ⟨hleft, hright⟩, hc3⟩

/-- What the functions for literals do from a cursor. -/
structure AdvancesLiterals (b c : Cursor) : Prop where
  literals : Advances b (literals c) fun g => Normal g
  moreLiterals : Advances b (moreLiterals c) fun g => Normal g
  literal : Advances b (literal c) fun l => Normal l

section

variable {c : Cursor} (hc : b.Follows c)
  (ih : ∀ d : Cursor, d.size < c.size → b.Follows d → AdvancesLiterals b d)

include hc ih

theorem advances_literal : Advances b (literal c) fun l => Normal l := by
  rw [literal]
  refine (hc.acceptCall not?).bind ?_ fun _ c1 h1 _ hc1 => ?_
  · refine (hc.acceptToken (.op "\\+")).bind ?_ fun _ c1 h1 _ hc1 => ?_
    · exact (advances_atom hc).bind fun a c1 h1 ha hc1 => yields_ok ⟨ha, hc1⟩
    · refine (hc1.acceptToken .leftParen).bind ?_ fun _ c2 h2 _ hc2 => ?_
      · refine (ih c1 h1 hc1).literal.bind fun l c2 h2 hl hc2 => ?_
        exact yields_ok ⟨Literal.normal_not (normal_cons.2 ⟨hl, List.forall_mem_nil _⟩), hc2⟩
      · refine (ih c2 (by omega) hc2).literals.bind fun g c3 h3 hg hc3 => ?_
        refine (hc3.expect .rightParen).bind fun _ c4 h4 _ hc4 => ?_
        exact yields_ok ⟨Literal.normal_not hg, hc4⟩
  · refine (ih c1 h1 hc1).literals.bind fun g c2 h2 hg hc2 => ?_
    refine (hc2.expect .rightParen).bind fun _ c3 h3 _ hc3 => ?_
    exact yields_ok ⟨Literal.normal_not hg, hc3⟩

theorem advances_literals : Advances b (literals c) fun g => Normal g := by
  rw [literals]
  refine (advances_literal hc ih).bind fun l c1 h1 hl hc1 => ?_
  refine (ih c1 h1 hc1).moreLiterals.bind fun rest c2 h2 hrest hc2 => ?_
  exact yields_ok ⟨normal_cons.2 ⟨hl, hrest⟩, hc2⟩

theorem advances_moreLiterals : Advances b (moreLiterals c) fun g => Normal g := by
  rw [moreLiterals]
  refine (hc.acceptToken .comma).bind (yields_ok ⟨List.forall_mem_nil _, hc⟩) fun _ c1 h1 _ hc1 => ?_
  refine (ih c1 h1 hc1).literal.bind fun l c2 h2 hl hc2 => ?_
  refine (ih c2 (by omega) hc2).moreLiterals.bind fun rest c3 h3 hrest hc3 => ?_
  exact yields_ok ⟨normal_cons.2 ⟨hl, hrest⟩, hc3⟩

end

theorem advancesLiterals (c : Cursor) (hc : b.Follows c) : AdvancesLiterals b c :=
  have ih (d : Cursor) (_hd : d.size < c.size) (h : b.Follows d) := advancesLiterals d h
  ⟨advances_literals hc ih, advances_moreLiterals hc ih, advances_literal hc ih⟩
termination_by c.size

theorem normal_bodyAtoms {c : Cursor} {g : Goal} (hg : Normal g) :
    Yields (bodyAtoms c g) fun body => Normal body := by
  rw [bodyAtoms]
  cases h : positiveAtoms? g with
  | none => exact yields_error
  | some body =>
    refine yields_ok fun t ht => ?_
    obtain ⟨a, ha, hta⟩ := List.mem_flatMap.1 ht
    exact hg t (List.mem_flatMap.2 ⟨.atom a, atom_mem_of_positiveAtoms? h ha, hta⟩)

theorem advances_clause {c : Cursor} (hc : b.Follows c) :
    Advances b (clause c) fun k => Normal k := by
  rw [clause]
  refine (advances_atom hc).bind fun head c1 h1 hhead hc1 => ?_
  cases head with
  | compare k => exact yields_error
  | predicate p =>
    refine (hc1.acceptToken .neck).bind ?_ fun _ c2 h2 _ hc2 => ?_
    · exact yields_ok ⟨List.forall_mem_append.2 ⟨hhead, List.forall_mem_nil _⟩, hc1⟩
    · refine (advancesLiterals c2 hc2).literals.bind fun g c3 h3 hg hc3 => ?_
      refine (normal_bodyAtoms hg).bind fun body hbody => ?_
      exact yields_ok ⟨List.forall_mem_append.2 ⟨hhead, hbody⟩, hc3⟩

theorem advances_endOfStatement {c : Cursor} (hc : b.Follows c) :
    Advances b (endOfStatement c) fun _ => True := by
  rw [endOfStatement]
  refine (hc.acceptToken .dot).bind ?_ fun _ c1 h1 _ hc1 => yields_ok ⟨trivial, hc1⟩
  dsimp only
  split
  · exact yields_ok ⟨trivial, hc⟩
  · exact yields_error

theorem isNormal_mark {name : String} {s : Statement}
    (h : ((Section.ofBeginMark? name).map Statement.enter <|>
      (Section.ofEndMark? name).map Statement.leave) = some s) : s.IsNormal := by
  cases hbegin : Section.ofBeginMark? name with
  | some mark =>
    rw [hbegin] at h
    exact Option.some.inj h ▸ Statement.isNormal_of_nil rfl
  | none =>
    rw [hbegin] at h
    obtain ⟨mark, -, rfl⟩ := Option.map_eq_some_iff.1 h
    exact Statement.isNormal_of_nil rfl

theorem advances_neckStatement {c : Cursor} (hc : b.Follows c) :
    Advances b (neckStatement c) Statement.IsNormal := by
  rw [neckStatement]
  refine (hc.expect .neck).bind fun _ c1 h1 _ hc1 => ?_
  refine (advancesLiterals c1 hc1).literals.bind fun g c2 h2 hg hc2 => ?_
  refine (advances_endOfStatement hc2).bind fun _ c3 h3 _ hc3 => ?_
  dsimp only
  split
  next s hs =>
    refine yields_ok ⟨?_, hc3⟩
    split at hs
    next name => exact isNormal_mark hs
    next => cases hs
  next =>
    exact (normal_bodyAtoms hg).bind fun body hbody => yields_ok ⟨hbody, hc3⟩

/-! ## Declarations and directives -/

theorem advances_signature {c : Cursor} (hc : b.Follows c) :
    Advances b (signature c) fun _ => True := by
  rw [signature]
  refine (hc.requireAny name? "predicate name").bind fun name c1 h1 _ hc1 => ?_
  refine (hc1.expect (.op "/")).bind fun _ c2 h2 _ hc2 => ?_
  refine (hc2.requireAny count? "arity").bind fun arity c3 h3 _ hc3 => ?_
  exact yields_ok ⟨trivial, hc3⟩

theorem advances_moreSignatures (c : Cursor) (hc : b.Follows c) :
    Advances b (moreSignatures c) fun _ => True := by
  rw [moreSignatures]
  refine (hc.acceptToken .comma).bind (yields_ok ⟨trivial, hc⟩) fun _ c1 h1 _ hc1 => ?_
  refine (advances_signature hc1).bind fun s c2 h2 _ hc2 => ?_
  refine (advances_moreSignatures c2 hc2).bind fun rest c3 h3 _ hc3 => ?_
  exact yields_ok ⟨trivial, hc3⟩
termination_by c.size

theorem atom_of_make {kind : ModeKind} {recalls : Recall} {p : Predicate} {m : Mode}
    (h : Mode.make kind recalls p = .ok m) : m.atom = p := by
  unfold Mode.make at h
  split at h
  · cases h
    rfl
  · cases h

theorem advances_mode {c : Cursor} (kind : ModeKind) (hc : b.Follows c) :
    Advances b (mode kind c) Statement.IsNormal := by
  rw [mode]
  refine (hc.requireAny recallOf? "recall (integer or '*')").bind fun recalls c1 h1 _ hc1 => ?_
  refine (hc1.expect .comma).bind fun _ c2 h2 _ hc2 => ?_
  refine (advancesTerms c2 hc2).term.bind fun t c3 h3 ht hc3 => ?_
  dsimp only
  split
  · exact yields_error
  next p hp =>
    split
    · exact yields_error
    next m hm =>
      have hatom : Normal m.atom := (atom_of_make hm).symm ▸ Term.normal_asPredicate ht hp
      exact yields_ok ⟨hatom, hc3⟩

theorem advances_determination {c : Cursor} (hc : b.Follows c) :
    Advances b (determination c) Statement.IsNormal := by
  rw [determination]
  refine (advances_signature hc).bind fun head c1 h1 _ hc1 => ?_
  refine (advances_moreSignatures c1 hc1).bind fun body c2 h2 _ hc2 => ?_
  exact yields_ok ⟨Statement.isNormal_of_nil rfl, hc2⟩

theorem advances_setting {c : Cursor} (hc : b.Follows c) :
    Advances b (setting c) Statement.IsNormal := by
  rw [setting]
  refine (hc.requireAny value? "a value").bind fun key c1 h1 _ hc1 => ?_
  refine (hc1.expect .comma).bind fun _ c2 h2 _ hc2 => ?_
  refine (hc2.requireAny value? "a value").bind fun value c3 h3 _ hc3 => ?_
  exact yields_ok ⟨Statement.isNormal_of_nil rfl, hc3⟩

theorem advances_declaration {c : Cursor} (kind : Declaration) (hc : b.Follows c) :
    Advances b (declaration kind c) Statement.IsNormal := by
  unfold declaration
  cases kind with
  | mode kind =>
    refine (advances_mode kind hc).bind fun s c1 h1 hs hc1 => ?_
    refine (hc1.expect .rightParen).bind fun _ c2 h2 _ hc2 => ?_
    exact (advances_endOfStatement hc2).bind fun _ c3 h3 _ hc3 => yields_ok ⟨hs, hc3⟩
  | determination =>
    refine (advances_determination hc).bind fun s c1 h1 hs hc1 => ?_
    refine (hc1.expect .rightParen).bind fun _ c2 h2 _ hc2 => ?_
    exact (advances_endOfStatement hc2).bind fun _ c3 h3 _ hc3 => yields_ok ⟨hs, hc3⟩
  | setting =>
    refine (advances_setting hc).bind fun s c1 h1 hs hc1 => ?_
    refine (hc1.expect .rightParen).bind fun _ c2 h2 _ hc2 => ?_
    exact (advances_endOfStatement hc2).bind fun _ c3 h3 _ hc3 => yields_ok ⟨hs, hc3⟩

theorem advances_pathArgument {c : Cursor} (name : String) (hc : b.Follows c) :
    Advances b (pathArgument name c) fun _ => True := by
  rw [pathArgument]
  exact (hc.acceptAny path?).bind yields_error fun _ _ _ h hc1 => yields_ok ⟨h, hc1⟩

theorem advances_directiveArguments {c : Cursor} (name : String) (hc : b.Follows c) :
    Advances b (directiveArguments name c) Directive.IsNormal := by
  unfold directiveArguments
  split
  · exact (advances_pathArgument _ hc).bind fun _ _ _ _ hc1 =>
      yields_ok ⟨Directive.isNormal_of_nil rfl, hc1⟩
  · exact (advances_pathArgument _ hc).bind fun _ _ _ _ hc1 =>
      yields_ok ⟨Directive.isNormal_of_nil rfl, hc1⟩
  · refine (hc.requireAny value? "a value").bind fun key c1 h1 _ hc1 => ?_
    refine (hc1.requireAny value? "a value").bind fun value c2 h2 _ hc2 => ?_
    exact yields_ok ⟨Directive.isNormal_of_nil rfl, hc2⟩
  · exact (advances_clause hc).bind fun _ _ _ hk hc1 => yields_ok ⟨hk, hc1⟩
  · exact (advances_clause hc).bind fun _ _ _ hk hc1 => yields_ok ⟨hk, hc1⟩
  · exact (advances_clause hc).bind fun _ _ _ hk hc1 => yields_ok ⟨hk, hc1⟩
  · exact yields_ok ⟨Directive.isNormal_of_nil rfl, hc⟩
  · exact yields_ok ⟨Directive.isNormal_of_nil rfl, hc⟩
  · exact yields_ok ⟨Directive.isNormal_of_nil rfl, hc⟩
  · exact yields_ok ⟨Directive.isNormal_of_nil rfl, hc⟩
  · exact yields_ok ⟨Directive.isNormal_of_nil rfl, hc⟩
  · exact yields_error

theorem advances_directive {c : Cursor} (hc : b.Follows c) :
    Advances b (directive c) Statement.IsNormal := by
  rw [directive]
  refine (hc.acceptAny name?).bind yields_error fun name c1 h1 _ hc1 => ?_
  refine (advances_directiveArguments name hc1).bind fun d c2 h2 hd hc2 => ?_
  refine (advances_endOfStatement hc2).bind fun _ c3 h3 _ hc3 => ?_
  exact yields_ok ⟨hd, hc3⟩

/-! ## Statements -/

theorem advances_statement {c : Cursor} (hc : b.Follows c) :
    Advances b (statement c) Statement.IsNormal := by
  rw [statement]
  refine (hc.acceptCall declaration?).bind ?_ fun kind c1 h1 _ hc1 => ?_
  · refine (hc.acceptToken .colon).bind ?_ fun _ c1 h1 _ hc1 => ?_
    · refine (hc.acceptToken .query).bind ?_ fun _ c1 h1 _ hc1 => ?_
      · dsimp only
        split
        · exact advances_neckStatement hc
        · refine (advances_clause hc).bind fun k c1 h1 hk hc1 => ?_
          refine (advances_endOfStatement hc1).bind fun _ c2 h2 _ hc2 => ?_
          exact yields_ok ⟨hk, hc2⟩
      · refine (advancesLiterals c1 hc1).literals.bind fun g c2 h2 hg hc2 => ?_
        refine (advances_endOfStatement hc2).bind fun _ c3 h3 _ hc3 => ?_
        exact yields_ok ⟨hg, hc3⟩
    · exact (advances_directive hc1).bind fun s c2 h2 hs hc2 => yields_ok ⟨hs, hc2⟩
  · exact (advances_declaration kind hc1).bind fun s c2 h2 hs hc2 => yields_ok ⟨hs, hc2⟩

end Source
end Horn
