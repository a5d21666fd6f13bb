import Horn.Proofs.Expressions

/-!
Reading printed clauses, declarations and section marks, and whole texts of them.  A text denotes a
statement when it spells tokens from which, with a point after them, the statement is read.
-/

namespace Horn
namespace Source

/-! ## Atoms -/

theorem asPredicate_app (p : Predicate) :
    (readBack (Term.app p.name p.args)).asPredicate = some (readBack p) := by
  obtain ⟨name, args⟩ := p
  show (readBack (Term.app name args)).asPredicate = some ⟨name, args.map readBack⟩
  cases args with
  | nil => rfl
  | cons t ts =>
    show (readBack (Term.compound name (t :: ts))).asPredicate = _
    rw [readBack, Term.instantiate_compound]
    rfl

theorem asPredicate_readBack (p : Predicate) :
    (readBack p.expr).asPredicate = some (readBack p) := by
  unfold Predicate.expr
  split
  next f t hf hargs =>
    obtain ⟨name, args⟩ := p
    obtain rfl : args = [t] := hargs
    obtain rfl : f.name = name := name_of_ofName? hf
    rfl
  next => exact asPredicate_app p

theorem comparison?_token (op : CompareOp) : comparison? op.token = some op := by
  cases op <;> rfl

/-- A token that may start an atom. -/
def startsAtom (t : Token) : Bool := t == .leftParen || (TermStart.ofToken? t).isSome

theorem exists_start_expr (e : Expr) : ∃ u us, e.tokens = u :: us ∧ startsAtom u = true := by
  induction e with
  | term t =>
    obtain ⟨u, us, hu, hstart⟩ := exists_start t
    exact ⟨u, us, hu, by simp [startsAtom, hstart]⟩
  | binary op l r ihl ihr =>
    obtain ⟨u, us, hu, hstart⟩ := ihl
    rw [Expr.tokens, Expr.enclosed]
    split
    · exact ⟨_, _, rfl, rfl⟩
    · exact ⟨u, _, by rw [hu]; rfl, hstart⟩
  | neg e ih => exact ⟨_, _, rfl, rfl⟩
  | call f e ih => exact ⟨_, _, rfl, rfl⟩

theorem exists_start_atom (a : Atom) : ∃ u us, a.tokens = u :: us ∧ startsAtom u = true := by
  cases a with
  | predicate p => exact exists_start_expr p.expr
  | compare k =>
    obtain ⟨u, us, hu, hstart⟩ := exists_start_expr k.left
    exact ⟨u, _, by rw [Atom.tokens, hu]; rfl, hstart⟩

theorem Cursor.Stands.atom {a : Atom} {c : Cursor} {rest : List Token} (ha : a.IsLegible)
    (hc : c.Stands (a.tokens ++ rest)) (hrest : Below 1 rest) :
    Gives (atom c) (readBack a) rest := by
  cases a with
  | predicate p =>
    obtain ⟨⟨e, c1, h1⟩, hread, rfl, hst⟩ := hc.expr ha (hrest.mono (by decide))
    rw [Source.atom, hread]
    simp only [bind, Except.bind, hst.accept_none fun t ht => hrest.comparison? ht,
      asPredicate_readBack]
    exact gives_ok hst
  | compare k =>
    have hc : c.Stands (k.left.tokens ++ k.op.token :: (k.right.tokens ++ rest)) := by
      simpa [Atom.tokens] using hc
    obtain ⟨⟨e, c1, h1⟩, hread1, rfl, hst1⟩ :=
      hc.expr ha.1 (below_cons (by rw [binding_compareOp]; decide))
    obtain ⟨c2, h2, hread2, hst2⟩ := hst1.accept (comparison?_token k.op)
    obtain ⟨⟨e', c3, h3⟩, hread3, rfl, hst3⟩ := hst2.expr ha.2 (hrest.mono (by decide))
    rw [Source.atom, hread1]
    simp only [bind, Except.bind, hread2, hread3]
    exact gives_ok hst3

/-! ## Goals -/

/-- A call that opens in the tokens of an atom and what follows them opens in these tokens. -/
theorem opensCall_of_append {word : String} {ts rest more : List Token} (hts : ts ≠ [])
    (hrest : rest.head? ≠ some .leftParen)
    (h : ts ++ rest = .atom word :: .leftParen :: more) : opensCall word ts = true := by
  match ts, hts with
  | [t], _ =>
    obtain ⟨-, rfl⟩ := List.cons.inj h
    exact absurd rfl hrest
  | t :: u :: us, _ =>
    obtain ⟨rfl, h'⟩ := List.cons.inj h
    obtain ⟨rfl, -⟩ := List.cons.inj h'
    exact beq_self_eq_true word

theorem Cursor.Stands.literal {a : Atom} {c : Cursor} {rest : List Token} (ha : a.IsLegible)
    (hnot : opensCall "not" a.tokens = false) (hc : c.Stands (a.tokens ++ rest))
    (hrest : Below 1 rest) : Gives (literal c) (.atom (readBack a)) rest := by
  obtain ⟨u, us, hu, hstart⟩ := exists_start_atom a
  have hopen := (hrest.mono (by decide : 1 ≤ 5)).not_leftParen
  have hcall : c.acceptCall not? = .ok none := by
    refine hc.acceptCall_none fun t more ht => ?_
    unfold not?
    split
    next =>
      rw [opensCall_of_append (by simp [hu]) hopen ht] at hnot
      cases hnot
    next => rfl
  have hsign : c.acceptToken (.op "\\+") = .ok none := by
    refine hc.acceptToken_none ?_
    rw [hu]
    rintro h
    obtain rfl : u = _ := Option.some.inj h
    exact absurd hstart (by decide)
  obtain ⟨⟨x, c1, h1⟩, hread, rfl, hst⟩ := hc.atom ha hrest
  rw [Source.literal, hcall]
  simp only [bind, Except.bind, hsign, hread]
  exact gives_ok hst

theorem Cursor.Stands.moreLiterals {as : List Atom} {c : Cursor} {rest : List Token}
    (has : ∀ a ∈ as, a.IsLegible) (hnot : ∀ a ∈ as, opensCall "not" a.tokens = false)
    (hc : c.Stands ((as.map Atom.tokens).flatMap (Token.comma :: ·) ++ rest))
    (hrest : Below 1 rest) (hcomma : rest.head? ≠ some .comma) :
    Gives (moreLiterals c) ((readBack as).map Literal.atom) rest := by
  induction as generalizing c with
  | nil =>
    rw [Source.moreLiterals, hc.acceptToken_none hcomma]
    exact gives_ok hc
  | cons a as ih =>
    obtain ⟨ha, has⟩ := List.forall_mem_cons.1 has
    obtain ⟨hna, hnot⟩ := List.forall_mem_cons.1 hnot
    simp only [List.map_cons, List.flatMap_cons, List.cons_append, List.append_assoc] at hc
    obtain ⟨c1, h1, hread1, hst1⟩ := hc.acceptToken
    have hnext : Below 1 ((as.map Atom.tokens).flatMap (Token.comma :: ·) ++ rest) := by
      cases as with
      | nil => exact hrest
      | cons b bs => exact below_cons (by decide)
    obtain ⟨⟨x, c2, h2⟩, hread2, rfl, hst2⟩ := hst1.literal ha hna hnext
    obtain ⟨⟨xs, c3, h3⟩, hread3, rfl, hst3⟩ := ih has hnot hst2
    rw [Source.moreLiterals, hread1]
    simp only [bind, Except.bind, hread2, hread3]
    exact gives_ok hst3

theorem Cursor.Stands.literals {as : List Atom} {c : Cursor} {rest : List Token} (hne : as ≠ [])
    (has : ∀ a ∈ as, a.IsLegible) (hnot : ∀ a ∈ as, opensCall "not" a.tokens = false)
    (hc : c.Stands (separated (as.map Atom.tokens) ++ rest))
    (hrest : Below 1 rest) (hcomma : rest.head? ≠ some .comma) :
    Gives (literals c) ((readBack as).map Literal.atom) rest := by
  cases as with
  | nil => exact absurd rfl hne
  | cons a as =>
    obtain ⟨ha, has⟩ := List.forall_mem_cons.1 has
    obtain ⟨hna, hnot⟩ := List.forall_mem_cons.1 hnot
    rw [List.map_cons, separated, List.append_assoc] at hc
    have hnext : Below 1 ((as.map Atom.tokens).flatMap (Token.comma :: ·) ++ rest) := by
      cases as with
      | nil => exact hrest
      | cons b bs => exact below_cons (by decide)
    obtain ⟨⟨x, c1, h1⟩, hread1, rfl, hst1⟩ := hc.literal ha hna hnext
    obtain ⟨⟨xs, c2, h2⟩, hread2, rfl, hst2⟩ := hst1.moreLiterals has hnot hrest hcomma
    rw [Source.literals, hread1]
    simp only [bind, Except.bind, hread2]
    exact gives_ok hst2

/-! ## Clauses -/

theorem bodyAtoms_atoms (c : Cursor) (as : List Atom) :
    bodyAtoms c (as.map Literal.atom) = .ok as := by
  have hall : positiveAtoms? (as.map Literal.atom) = some as := by
    rw [positiveAtoms?, List.mapM_map]
    induction as with
    | nil => rfl
    | cons a as ih => rw [List.mapM_cons, ih]; rfl
  rw [bodyAtoms, hall]

theorem Cursor.Stands.clause {k : Clause} {p : Predicate} {c : Cursor} {rest : List Token}
    (hhead : ∀ a ∈ k.head, a.IsLegible) (hbody : ∀ a ∈ k.body, a.IsLegible)
    (hnot : ∀ a ∈ k.body, opensCall "not" a.tokens = false) (hp : k.headPredicate = some p)
    (hc : c.Stands (k.tokens ++ .dot :: rest)) :
    Gives (clause c) (readBack k) (.dot :: rest) := by
  obtain ⟨head, body⟩ := k
  match head, hp with
  | some (.predicate q), _ =>
    have hq : (Atom.predicate q).IsLegible := hhead _ rfl
    cases body with
    | nil =>
      obtain ⟨⟨x, c1, h1⟩, hread, hx, hst⟩ := Cursor.Stands.atom hq hc (below_cons (by decide))
      obtain rfl : x = .predicate (readBack q) := hx
      rw [Source.clause, hread]
      simp only [bind, Except.bind, hst.acceptToken_none (t := .neck) (by simp)]
      exact gives_ok hst
    | cons b bs =>
      have hc : c.Stands ((Atom.predicate q).tokens ++
          .neck :: (separated ((b :: bs).map Atom.tokens) ++ .dot :: rest)) := by
        simpa [Clause.tokens] using hc
      obtain ⟨⟨x, c1, h1⟩, hread1, hx, hst1⟩ :=
        Cursor.Stands.atom hq hc (below_cons (by decide))
      obtain rfl : x = .predicate (readBack q) := hx
      obtain ⟨c2, h2, hread2, hst2⟩ := hst1.acceptToken
      obtain ⟨⟨g, c3, h3⟩, hread3, rfl, hst3⟩ :=
        hst2.literals (by simp) hbody hnot (below_cons (by decide)) (by simp)
      rw [Source.clause, hread1]
      simp only [bind, Except.bind, hread2, hread3, bodyAtoms_atoms]
      exact gives_ok hst3

theorem Cursor.Stands.endOfStatement {c : Cursor} {rest : List Token}
    (hc : c.Stands (.dot :: rest)) : Gives (endOfStatement c) () rest := by
  obtain ⟨c1, h1, hread, hst⟩ := hc.acceptToken
  rw [Source.endOfStatement, hread]
  exact gives_ok hst

/-! ## Statements -/

/-- The tokens are read as the statement when a point follows them. -/
structure ReadsStatement (ts : List Token) (s : Statement) : Prop where
  starts : ∃ u us, ts = u :: us ∧ u ≠ .endOfText
  reads (c : Cursor) (rest : List Token) : c.Stands (ts ++ .dot :: rest) → Gives (statement c) s rest

theorem head_of_headPredicate {k : Clause} {p : Predicate} (hp : k.headPredicate = some p) :
    k.head = some (.predicate p) := by
  obtain ⟨head, body⟩ := k
  match head, hp with
  | some (.predicate q), hp => exact congrArg (some ∘ Atom.predicate) (Option.some.inj hp)

/-- A clause starts with its head. -/
theorem exists_start_clause {k : Clause} {p : Predicate} (hp : k.headPredicate = some p) :
    ∃ more, k.tokens = (Atom.predicate p).tokens ++ more ∧ more.head? ≠ some .leftParen := by
  obtain ⟨head, body⟩ := k
  match head, hp with
  | some (.predicate q), hp =>
    obtain rfl : q = p := Option.some.inj hp
    cases body with
    | nil => exact ⟨[], by simp [Clause.tokens], by simp⟩
    | cons b bs => exact ⟨_, rfl, by simp⟩

/-- The words of declarations are among those that a legible clause does not start with. -/
theorem mem_of_declaration? {t : Token} {kind : Declaration} (h : declaration? t = some kind) :
    ∃ word ∈ ["modeh", "modeb", "determination", "set"], t = .atom word := by
  unfold declaration? at h
  split at h
  all_goals first | cases h; done | exact ⟨_, by simp, rfl⟩

theorem readsStatement_clause {k : Clause} {p : Predicate} (hk : k.IsLegible)
    (hp : k.headPredicate = some p) : ReadsStatement k.tokens (.clause (readBack k)) := by
  obtain ⟨more, hmore, hopen⟩ := exists_start_clause hp
  obtain ⟨u, us, hu, hstart⟩ := exists_start_atom (.predicate p)
  have hk' : k.tokens = u :: (us ++ more) := by rw [hmore, hu, List.cons_append]
  have hfirst : ∀ t, startsAtom t = false → u ≠ t := by
    rintro t ht rfl
    rw [ht] at hstart
    cases hstart
  refine ⟨⟨u, _, hk', hfirst _ rfl⟩, fun c rest hc => ?_⟩
  obtain ⟨⟨x, c1, h1⟩, hread1, rfl, hst1⟩ := hc.clause hk.head hk.body hk.notNegation hp
  obtain ⟨⟨y, c2, h2⟩, hread2, rfl, hst2⟩ := hst1.endOfStatement
  have hdeclaration : c.acceptCall declaration? = .ok none := by
    refine hc.acceptCall_none fun t after ht => ?_
    cases hkind : declaration? t with
    | none => rfl
    | some kind =>
      obtain ⟨word, hword, rfl⟩ := mem_of_declaration? hkind
      have hhead := head_of_headPredicate hp
      have hnot := hk.notDeclaration _ hhead word hword
      have hrest : (more ++ .dot :: rest).head? ≠ some .leftParen := by
        cases more with
        | nil => simp
        | cons v vs => simpa using hopen
      rw [hmore, List.append_assoc] at ht
      rw [opensCall_of_append (by simp [hu]) hrest ht] at hnot
      cases hnot
  have hhead : ∀ t, startsAtom t = false → (k.tokens ++ .dot :: rest).head? ≠ some t := by
    intro t ht
    simpa [hk'] using hfirst t ht
  have hcurrent : c.current ≠ .neck := by
    rw [hk'] at hc
    rw [hc.current]
    exact hfirst _ rfl
  rw [statement, hdeclaration]
  simp only [bind, Except.bind, hc.acceptToken_none (hhead .colon rfl),
    hc.acceptToken_none (hhead .query rfl), if_neg hcurrent, hread1, hread2]
  exact gives_ok hst2

/-- What is read inside the parentheses of a declaration. -/
def inside (kind : Declaration) (c : Cursor) : Reading Statement c.size :=
  match kind with
  | .mode kind => mode kind c
  | .determination => determination c
  | .setting => setting c

/-- A declaration is what the tokens inside its parentheses say. -/
theorem readsStatement_call {word : String} {kind : Declaration} {ts : List Token} {s : Statement}
    (hword : declaration? (.atom word) = some kind)
    (h : ∀ (c : Cursor) (rest : List Token), c.Stands (ts ++ .rightParen :: rest) →
      Gives (inside kind c) s (.rightParen :: rest)) : ReadsStatement (callTokens word ts) s := by
  refine ⟨⟨_, _, rfl, nofun⟩, fun c rest hc => ?_⟩
  rw [callTokens_append] at hc
  obtain ⟨c1, h1, hread1, hst1⟩ := hc.acceptCall hword
  obtain ⟨⟨x, c2, h2⟩, hread2, rfl, hst2⟩ := h c1 _ hst1
  obtain ⟨c3, h3, hread3, hst3⟩ := hst2.expect
  obtain ⟨⟨y, c4, h4⟩, hread4, rfl, hst4⟩ := hst3.endOfStatement
  have hsize : c4.size < c1.size := by
    have h3 : c3.size < c2.size := h3
    omega
  have hread : declaration kind c1 = .ok ⟨x, c4, hsize⟩ := by
    cases kind <;> simp only [inside] at hread2 <;>
      simp only [declaration, bind, Except.bind, hread2, hread3, hread4] <;> rfl
  rw [statement, hread1]
  simp only [bind, Except.bind, hread]
  exact gives_ok hst4

theorem toInt_ofNat {n : Nat} (h : IsReadable n) : (Int64.ofNat n).toInt = n :=
  Int64.toInt_ofNat_of_lt h

theorem count?_ofNat {n : Nat} (h : IsReadable n) : count? (.int (Int64.ofNat n)) = some n := by
  have hnonneg : 0 ≤ Int64.ofNat n := by
    rw [Int64.le_iff_toInt_le, toInt_ofNat h]
    exact Int.natCast_nonneg n
  rw [count?, if_pos hnonneg, toInt_ofNat h, Int.toNat_natCast]

theorem recallOf?_token {r : Recall} (h : r.IsLegible) : recallOf? r.token = some r := by
  cases r with
  | bounded n =>
    have hcount := count?_ofNat h
    rw [Recall.token, recallOf?, hcount]
    · rfl
    · nofun
  | unbounded => rfl

/-- The atom of a mode has no variables. -/
theorem readBack_atom {m : Mode} (hm : m.IsLegible) : readBack m.atom = m.atom := by
  have hnormal : Normal m.atom := by
    intro u hu
    obtain ⟨t, ht, hut⟩ := List.mem_flatMap.1 hu
    have happ : Legible (Term.compound m.atom.name m.atom.args) := by
      have hlegible := hm.2
      rwa [Term.app, if_neg (by simp [List.ne_nil_of_mem ht])] at hlegible
    exact Term.isNormal_of_mem_subterms (happ.args t ht).isNormal hut
  have hsame : readBack m.atom = Valuation.identity.apply m.atom := by
    refine instantiate_congr fun v hv => ?_
    have hmem := mem_variables_iff.2 hv
    rw [m.closed] at hmem
    cases hmem
  rw [hsame, Valuation.apply_of_normal hnormal]

theorem make_self (m : Mode) : Mode.make m.kind m.recall m.atom = .ok m := by
  unfold Mode.make
  split
  next => rfl
  next h => simp [m.closed] at h

theorem readsStatement_mode {m : Mode} (hm : m.IsLegible) : ReadsStatement m.tokens (.mode m) := by
  have hword : declaration? (.atom m.kind.keyword) = some (.mode m.kind) := by
    cases m.kind <;> rfl
  refine readsStatement_call hword fun c rest hc => ?_
  rw [List.cons_append, List.cons_append] at hc
  obtain ⟨c1, h1, hread1, hst1⟩ := hc.require (recallOf?_token hm.1) "recall (integer or '*')"
  obtain ⟨c2, h2, hread2, hst2⟩ := hst1.expect
  obtain ⟨⟨x, c3, h3⟩, hread3, rfl, hst3⟩ := hst2.term hm.2 (by simp)
  simp only [inside, mode, hread1, hread2, bind, Except.bind, hread3, asPredicate_app,
    readBack_atom hm, make_self]
  exact gives_ok hst3

theorem Cursor.Stands.signature {s : Signature} (hs : s.IsLegible) {c : Cursor} {rest : List Token}
    (hc : c.Stands (s.tokens ++ rest)) : Gives (signature c) s rest := by
  obtain ⟨c1, h1, hread1, hst1⟩ := hc.require (rfl : name? (.atom s.name) = _) "predicate name"
  obtain ⟨c2, h2, hread2, hst2⟩ := hst1.expect
  obtain ⟨c3, h3, hread3, hst3⟩ := hst2.require (count?_ofNat hs.2) "arity"
  simp only [Source.signature, bind, Except.bind, hread1, hread2, hread3]
  exact gives_ok hst3

theorem Cursor.Stands.moreSignatures {ss : List Signature} (hs : ∀ s ∈ ss, s.IsLegible)
    {c : Cursor} {rest : List Token}
    (hc : c.Stands ((ss.map Signature.tokens).flatMap (Token.comma :: ·) ++ rest))
    (hcomma : rest.head? ≠ some .comma) : Gives (moreSignatures c) ss rest := by
  induction ss generalizing c with
  | nil =>
    rw [Source.moreSignatures, hc.acceptToken_none hcomma]
    exact gives_ok hc
  | cons s ss ih =>
    obtain ⟨hfirst, hmore⟩ := List.forall_mem_cons.1 hs
    simp only [List.map_cons, List.flatMap_cons, List.cons_append, List.append_assoc] at hc
    obtain ⟨c1, h1, hread1, hst1⟩ := hc.acceptToken
    obtain ⟨⟨x, c2, h2⟩, hread2, rfl, hst2⟩ := hst1.signature hfirst
    obtain ⟨⟨xs, c3, h3⟩, hread3, rfl, hst3⟩ := ih hmore hst2
    rw [Source.moreSignatures, hread1]
    simp only [bind, Except.bind, hread2, hread3]
    exact gives_ok hst3

theorem readsStatement_determination {d : Determination} (hd : d.IsLegible) :
    ReadsStatement d.tokens (.determination d) := by
  obtain ⟨hhead, hbody⟩ := List.forall_mem_cons.1 hd
  refine readsStatement_call (rfl : declaration? (.atom "determination") = _) fun c rest hc => ?_
  rw [List.map_cons, separated, List.append_assoc] at hc
  obtain ⟨⟨x, c1, h1⟩, hread1, rfl, hst1⟩ := hc.signature hhead
  obtain ⟨⟨xs, c2, h2⟩, hread2, hxs, hst2⟩ := hst1.moreSignatures hbody (by simp)
  obtain rfl : xs = d.body := hxs
  simp only [inside, determination, bind, Except.bind, hread1, hread2]
  exact gives_ok hst2

theorem readsStatement_setting (k : OptionKey) {value : OptionValue} (h : value.IsLegible) :
    ReadsStatement (settingTokens k.name value) (.set k.name value.text) := by
  have hvalue : value? value.token = some value.text := by
    cases value with
    | number n =>
      rw [OptionValue.token, value?, toInt_ofNat h]
      rfl
    | flag b => rfl
  refine readsStatement_call (rfl : declaration? (.atom "set") = _) fun c rest hc => ?_
  obtain ⟨c1, h1, hread1, hst1⟩ := hc.require (rfl : value? (.atom k.name) = _) "a value"
  obtain ⟨c2, h2, hread2, hst2⟩ := hst1.expect
  obtain ⟨c3, h3, hread3, hst3⟩ := hst2.require hvalue "a value"
  simp only [inside, setting, bind, Except.bind, hread1, hread2, hread3]
  exact gives_ok hst3

theorem expr_word (name : String) : (Predicate.mk name []).expr = .term (Term.symbol name) := by
  unfold Predicate.expr
  split
  next h => cases h
  next => rfl

/-- A word without arguments before a point is a goal. -/
theorem Cursor.Stands.word {name : String} (hname : '\n' ∉ name.toList) {c : Cursor}
    {rest : List Token} (hc : c.Stands (.atom name :: .dot :: rest)) :
    Gives (Source.literals c) [.atom (.predicate ⟨name, []⟩)] (.dot :: rest) := by
  have hlegible : (Atom.predicate ⟨name, []⟩).IsLegible := by
    rw [Atom.IsLegible, expr_word]
    refine ⟨fun t ht => ?_, rfl⟩
    obtain rfl : t = Term.symbol name := List.mem_singleton.1 ht
    exact hname
  have htokens : (Atom.predicate ⟨name, []⟩).tokens = [.atom name] := by
    rw [Atom.tokens, expr_word]
    rfl
  have hall : c.Stands (separated ([Atom.predicate ⟨name, []⟩].map Atom.tokens) ++ .dot :: rest) := by
    simpa [separated, htokens] using hc
  exact hall.literals (by simp) (by simpa using hlegible) (by simp [htokens, opensCall])
    (below_cons (by decide)) (by simp)

/-- A section mark is read as what its word stands for. -/
theorem readsStatement_mark {name : String} {s : Statement} (hname : '\n' ∉ name.toList)
    (hs : ((Section.ofBeginMark? name).map Statement.enter <|>
      (Section.ofEndMark? name).map Statement.leave) = some s) :
    ReadsStatement [.neck, .atom name] s := by
  refine ⟨⟨_, _, rfl, nofun⟩, fun c rest hc => ?_⟩
  obtain ⟨c1, h1, hread1, hst1⟩ := hc.expect
  obtain ⟨⟨g, c2, h2⟩, hread2, rfl, hst2⟩ := hst1.word hname
  obtain ⟨⟨y, c3, h3⟩, hread3, rfl, hst3⟩ := hst2.endOfStatement
  have hcall : c.acceptCall declaration? = .ok none := hc.acceptCall_none fun t more ht => by cases ht
  rw [statement, hcall]
  simp only [bind, Except.bind, hc.acceptToken_none (t := .colon) (by simp),
    hc.acceptToken_none (t := .query) (by simp), if_pos hc.current, neckStatement, hread1, hread2,
    hread3, hs]
  exact gives_ok hst3

/-! ## Texts -/

/-- The text, with a point after it, is read as the statement. -/
def Denotes (text : String) (s : Statement) : Prop :=
  ∃ ts, Spells text ts ∧ ReadsStatement ts s

theorem denotes_clause {k : Clause} {p : Predicate} (hk : k.IsLegible)
    (hp : k.headPredicate = some p) : Denotes k.text (.clause (readBack k)) :=
  ⟨_, spells_clause hk.head hk.body, readsStatement_clause hk hp⟩

theorem denotes_mode {m : Mode} (hm : m.IsLegible) : Denotes m.text (.mode m) :=
  ⟨_, spells_mode hm, readsStatement_mode hm⟩

theorem denotes_determination {d : Determination} (hd : d.IsLegible) :
    Denotes d.text (.determination d) :=
  ⟨_, spells_determination hd, readsStatement_determination hd⟩

theorem denotes_setting (k : OptionKey) {value : OptionValue} (h : value.IsLegible) :
    Denotes ("set(" ++ k.name ++ ", " ++ value.text ++ ")") (.set k.name value.text) :=
  ⟨_, spells_setting k h, readsStatement_setting k h⟩

theorem spells_mark {name : String} (h : isPlainSymbol name = true) :
    Spells (":- " ++ name) [.neck, .atom name] :=
  (marks_neck.append marks_blank).append_spells (spells_plain h)

theorem denotes_beginMark (b : Section) : Denotes (":- " ++ b.beginMark) (.enter b) := by
  refine ⟨_, spells_mark ?_, readsStatement_mark ?_ ?_⟩
  · cases b <;> decide
  · cases b <;> decide
  · cases b <;> rfl

theorem denotes_endMark (b : Section) : Denotes (":- " ++ b.endMark) (.leave b) := by
  refine ⟨_, spells_mark ?_, readsStatement_mark ?_ ?_⟩
  · cases b <;> decide
  · cases b <;> decide
  · cases b <;> rfl

theorem Cursor.Stands.statements {parts : List (List Token × Statement)}
    (hparts : ∀ p ∈ parts, ReadsStatement p.1 p.2) {c : Cursor}
    (hc : c.Stands (parts.flatMap fun p => p.1 ++ [.dot])) :
    statements c = .ok (parts.map Prod.snd) := by
  induction parts generalizing c with
  | nil =>
    rw [Source.statements, if_pos hc.current_nil]
    rfl
  | cons p parts ih =>
    obtain ⟨hp, hmore⟩ := List.forall_mem_cons.1 hparts
    rw [List.flatMap_cons, List.append_assoc] at hc
    obtain ⟨u, us, hu, hend⟩ := hp.starts
    have hcurrent : c.current ≠ .endOfText := by
      rw [hu] at hc
      rwa [hc.current]
    obtain ⟨⟨x, c1, h1⟩, hread, hx, hst⟩ := hp.reads c _ hc
    have hx : x = p.2 := hx
    rw [Source.statements, if_neg hcurrent]
    simp only [bind, Except.bind, hread, ih hmore hst]
    rw [hx]
    rfl

theorem exists_tokens {parts : List (String × Statement)} (h : ∀ p ∈ parts, Denotes p.1 p.2) :
    ∃ qs : List (List Token × Statement), (∀ q ∈ qs, ReadsStatement q.1 q.2) ∧
      qs.map Prod.snd = parts.map Prod.snd ∧
      Marks (String.join (parts.map fun p => p.1 ++ ".\n")) (qs.flatMap fun q => q.1 ++ [.dot]) := by
  induction parts with
  | nil => exact ⟨[], nofun, rfl, marks_empty⟩
  | cons p parts ih =>
    obtain ⟨⟨ts, hspells, hreads⟩, hmore⟩ := List.forall_mem_cons.1 h
    obtain ⟨qs, hqs, hsnd, hmarks⟩ := ih hmore
    refine ⟨(ts, p.2) :: qs, List.forall_mem_cons.2 ⟨hreads, hqs⟩, by simp [hsnd], ?_⟩
    rw [List.map_cons, String.join_cons, List.flatMap_cons]
    exact (hspells.append_marks (fun _ => rfl) marks_point).append hmarks

/-- The cursor at the start of a text that splits into tokens stands on them. -/
theorem exists_start_of_lexed {s : String} {ts : List Token} (h : lexed s.toList = (ts, none)) :
    ∃ c, Cursor.start s = .ok c ∧ c.Stands ts := by
  obtain ⟨htokens, hfault⟩ := Prod.mk.inj h
  refine ⟨⟨lexemes s.toList, 0⟩, ?_, htokens, hfault⟩
  rw [Cursor.start, Cursor.settle]
  split
  next hf => simp [hfault] at hf
  next => rfl

/-- A text of statements on lines of their own is read as these statements. -/
theorem parseStatements_join {parts : List (String × Statement)}
    (h : ∀ p ∈ parts, Denotes p.1 p.2) :
    parseStatements (String.join (parts.map fun p => p.1 ++ ".\n")) =
      .ok (parts.map Prod.snd) := by
  obtain ⟨qs, hqs, hsnd, hmarks⟩ := exists_tokens h
  obtain ⟨c, hstart, hst⟩ := exists_start_of_lexed hmarks.spells.lexed
  rw [parseStatements, reading, hstart, ← hsnd, Except.bind, hst.statements hqs]
  rfl

end Source
end Horn
