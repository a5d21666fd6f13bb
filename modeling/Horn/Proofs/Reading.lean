import Horn.Proofs.Spelling
import Horn.Proofs.Valuation
import Horn.Source.Grammar

/-!
Reading the tokens of printed forms.  A cursor stands on tokens when they are what is left of a text
without faults.  Each reading function that starts on the tokens of a printed form gives that form,
with the variables that the texts of its variables name, and leaves what followed it.
-/

namespace Horn
namespace Source

/-! ## Cursors -/

/-- The cursor has these tokens left, in a text without faults. -/
structure Cursor.Stands (c : Cursor) (ts : List Token) : Prop where
  tokens : c.left.items.map Lexeme.token = ts
  faultless : c.left.fault = none

/-- The reading gives the value and leaves the tokens. -/
def Gives {α : Type} {n : Nat} (r : Reading α n) (a : α) (rest : List Token) : Prop :=
  ∃ p, r = .ok p ∧ p.value = a ∧ p.rest.Stands rest

theorem gives_ok {α : Type} {n : Nat} {a : α} {c : Cursor} {h : c.size < n} {rest : List Token}
    (hc : c.Stands rest) : Gives (.ok ⟨a, c, h⟩) a rest := ⟨_, rfl, rfl, hc⟩

namespace Cursor.Stands

variable {α : Type} {c : Cursor} {t : Token} {ts : List Token}

theorem current (h : c.Stands (t :: ts)) : c.current = t := by
  obtain ⟨l, ls, hl, rfl, -⟩ := List.map_eq_cons_iff.1 h.tokens
  rw [Cursor.current, hl]

theorem current_nil (h : c.Stands []) : c.current = .endOfText := by
  have hl := List.map_eq_nil_iff.1 h.tokens
  rw [Cursor.current, hl]

theorem peek {u : Token} (h : c.Stands (t :: u :: ts)) : c.peek = .ok u := by
  obtain ⟨l, ls, hl, rfl, hls⟩ := List.map_eq_cons_iff.1 h.tokens
  obtain ⟨m, ms, rfl, rfl, -⟩ := List.map_eq_cons_iff.1 hls
  rw [Cursor.peek, hl]
  rfl

theorem accept {f : Token → Option α} {a : α} (h : c.Stands (t :: ts)) (ht : f t = some a) :
    ∃ c1 h1, c.accept f = .ok (some ⟨a, c1, h1⟩) ∧ c1.Stands ts := by
  obtain ⟨l, ls, hl, rfl, rfl⟩ := List.map_eq_cons_iff.1 h.tokens
  have hmove : ∀ hlt, c.moveTo a ls hlt = .ok ⟨a, c.withItems ls, hlt⟩ := by
    intro hlt
    rw [Cursor.moveTo]
    intro f _ _ hf
    simp [h.faultless] at hf
  unfold Cursor.accept
  split
  next hnil => simp [hl] at hnil
  next l' ls' hl' =>
    rw [hl] at hl'
    cases hl'
    rw [ht]
    have hlt : ls.length < c.size := by simp [Cursor.size, hl]
    exact ⟨c.withItems ls, hlt, congrArg (Except.map some) (hmove hlt), rfl, h.faultless⟩

theorem accept_none {f : Token → Option α} (h : c.Stands ts)
    (ht : ∀ t, ts.head? = some t → f t = none) : c.accept f = .ok none := by
  unfold Cursor.accept
  split
  next => rfl
  next l ls hl =>
    have hhead : ts.head? = some l.token := by rw [← h.tokens, hl]; rfl
    rw [ht _ hhead]

theorem acceptToken (h : c.Stands (t :: ts)) :
    ∃ c1 h1, c.acceptToken t = .ok (some ⟨(), c1, h1⟩) ∧ c1.Stands ts := h.accept (if_pos rfl)

theorem acceptToken_none (h : c.Stands ts) (ht : ts.head? ≠ some t) :
    c.acceptToken t = .ok none :=
  h.accept_none fun u hu => if_neg fun (hut : u = t) => ht (hut ▸ hu)

theorem expect (h : c.Stands (t :: ts)) :
    ∃ c1 h1, c.expect t = .ok ⟨(), c1, h1⟩ ∧ c1.Stands ts := by
  obtain ⟨c1, h1, hread, hst⟩ := h.acceptToken
  exact ⟨c1, h1, by rw [Cursor.expect, hread]; rfl, hst⟩

theorem require {f : Token → Option α} {a : α} (h : c.Stands (t :: ts)) (ht : f t = some a)
    (wanted : String) : ∃ c1 h1, c.require f wanted = .ok ⟨a, c1, h1⟩ ∧ c1.Stands ts := by
  obtain ⟨c1, h1, hread, hst⟩ := h.accept ht
  exact ⟨c1, h1, by rw [Cursor.require, hread]; rfl, hst⟩

theorem acceptCall {f : Token → Option α} {a : α} (h : c.Stands (t :: .leftParen :: ts))
    (ht : f t = some a) :
    ∃ c1 h1, c.acceptCall f = .ok (some ⟨a, c1, h1⟩) ∧ c1.Stands ts := by
  obtain ⟨c1, h1, hread1, hst1⟩ := h.accept ht
  obtain ⟨c2, h2, hread2, hst2⟩ :=
    hst1.accept (f := fun t => if t = .leftParen then some () else none) (if_pos rfl)
  refine ⟨c2, Nat.lt_trans h2 h1, ?_, hst2⟩
  simp only [Cursor.acceptCall, hread1, bind, Except.bind, hread2]
  rfl

/-- No call opens here: the token is not of the kind, or no parenthesis follows it. -/
theorem acceptCall_none {f : Token → Option α} (h : c.Stands ts)
    (ht : ∀ t more, ts = t :: .leftParen :: more → f t = none) :
    c.acceptCall f = .ok none := by
  cases ts with
  | nil =>
    rw [Cursor.acceptCall, h.accept_none nofun]
    rfl
  | cons t more =>
    cases hk : f t with
    | none =>
      rw [Cursor.acceptCall, h.accept_none fun u hu => by simp at hu; rwa [← hu]]
      rfl
    | some a =>
      obtain ⟨c1, h1, hread1, hst1⟩ := h.accept hk
      have hopen : more.head? ≠ some .leftParen := by
        intro hm
        obtain ⟨after, rfl⟩ := List.head?_eq_some_iff.1 hm
        rw [ht t after rfl] at hk
        cases hk
      have hread2 := hst1.accept_none (f := fun t => if t = .leftParen then some () else none)
        fun u hu => if_neg fun (hut : u = .leftParen) => hopen (hut ▸ hu)
      simp only [Cursor.acceptCall, hread1, bind, Except.bind, hread2]
      rfl

end Cursor.Stands

/-! ## Terms -/

/-- A variable as its text is read. -/
def readVar (v : Var) : Term := .var (Var.named v.text)

/-- A form as its text is read: its variables are those that their texts name. -/
def readBack {α : Type} [HasTerms α] (x : α) : α := instantiate readVar x

theorem mem_subterms_listOf {u : Term} (hu : u.asList = none) (items : List Term)
    (tail : Option Term) : u ∈ (Term.listOf items tail).subterms ↔
      u ∈ Term.subtermsAll items ∨ u ∈ Term.subtermsTail tail := by
  have hlist : ∀ items tail, u ≠ .list items tail := by
    rintro items tail rfl
    cases hu
  fun_induction Term.listOf items tail with
  | case1 items => simp [Term.subterms, Term.subtermsTail, hlist]
  | case2 items rest tail ih =>
    refine ih.trans ?_
    simp [Term.subterms, Term.subtermsTail, hlist, Term.mem_subtermsAll, or_and_right, exists_or,
      or_assoc]
  | case3 items t _ h =>
    have hnil : items = [] := by simpa using h
    simp [hnil, Term.subtermsAll, Term.subtermsTail]
  | case4 items t _ h => simp [Term.subterms, Term.subtermsTail, hlist]

theorem placeholder_of_mem_readBack {t : Term} {p : Placeholder}
    (h : .placeholder p ∈ (instantiate readVar t).subterms) : .placeholder p ∈ t.subterms := by
  induction t using Term.induct with
  | const c => exact h
  | placeholder q => exact h
  | var v =>
    rw [Term.instantiate_var, readVar] at h
    simp [Term.subterms] at h
  | compound f args ih =>
    rw [Term.instantiate_compound] at h
    simp [Term.subterms, Term.mem_subtermsAll] at h ⊢
    obtain ⟨t, ht, hp⟩ := h
    exact ⟨t, ht, ih t ht hp⟩
  | list items tail ihitems ihtail =>
    rw [Term.instantiate_list, mem_subterms_listOf rfl, Term.mem_subtermsAll] at h
    rw [Term.subterms, List.mem_cons, List.mem_append, Term.mem_subtermsAll]
    rcases h with ⟨u, hu, hp⟩ | h
    · obtain ⟨t, ht, rfl⟩ := List.mem_map.1 hu
      exact .inr (.inl ⟨t, ht, ihitems t ht hp⟩)
    · cases tail with
      | none => cases h
      | some t => exact .inr (.inr (ihtail t rfl h))

/-- Reading a term from its tokens gives it back.  A parenthesis after it would make a symbol the
name of a compound term. -/
def ReadsBack (t : Term) : Prop :=
  ∀ (c : Cursor) (rest : List Token), c.Stands (t.tokens ++ rest) →
    rest.head? ≠ some .leftParen → Gives (term c) (readBack t) rest

theorem callTokens_append (name : String) (ts rest : List Token) :
    callTokens name ts ++ rest = .atom name :: .leftParen :: (ts ++ .rightParen :: rest) := by
  simp [callTokens]

/-- The first token of a term starts a term. -/
theorem exists_start (t : Term) :
    ∃ u us, t.tokens = u :: us ∧ (TermStart.ofToken? u).isSome = true := by
  cases t with
  | const k =>
    cases k with
    | int n =>
      rw [Term.tokens, Constant.tokens, intTokens]
      split <;> exact ⟨_, _, rfl, rfl⟩
    | float x =>
      rw [Term.tokens, Constant.tokens, floatTokens]
      split <;> exact ⟨_, _, rfl, rfl⟩
    | symbol s => exact ⟨_, _, by rw [Term.tokens, Constant.tokens], rfl⟩
  | var v => exact ⟨_, _, by rw [Term.tokens], rfl⟩
  | compound f args => exact ⟨_, _, by rw [Term.tokens, callTokens], rfl⟩
  | list items tail => exact ⟨_, _, by rw [Term.tokens], rfl⟩
  | placeholder p =>
    obtain ⟨g, typeName⟩ := p
    cases g <;> exact ⟨_, _, by rw [Term.tokens], rfl⟩

namespace Cursor.Stands

variable {c : Cursor} {t u : Token} {ts rest : List Token}

theorem term_constant {k : Constant} (h : c.Stands (t :: rest))
    (ht : TermStart.ofToken? t = some (.constant k)) : Gives (term c) (.const k) rest := by
  obtain ⟨c1, h1, hread, hst⟩ := h.require ht "a term"
  rw [term, hread]
  exact gives_ok hst

theorem term_var {name : String} (h : c.Stands (.var name :: rest)) (hname : name ≠ "_") :
    Gives (term c) (.var (Var.named name)) rest := by
  obtain ⟨c1, h1, hread, hst⟩ := h.require (rfl : TermStart.ofToken? (.var name) = _) "a term"
  rw [term, hread]
  simp only [bind, Except.bind, if_neg hname]
  exact gives_ok hst

theorem term_symbol {s : String} (h : c.Stands (.atom s :: rest))
    (hrest : rest.head? ≠ some .leftParen) : Gives (term c) (Term.symbol s) rest := by
  obtain ⟨c1, h1, hread, hst⟩ := h.require (rfl : TermStart.ofToken? (.atom s) = _) "a term"
  rw [term, hread]
  simp only [bind, Except.bind, hst.acceptToken_none hrest]
  exact gives_ok hst

theorem term_signed {g : Sign} {x : Term} (h : c.Stands (t :: u :: rest))
    (ht : TermStart.ofToken? t = some (.signed g)) (hu : signedTerm? g u = some x) :
    Gives (term c) x rest := by
  obtain ⟨c1, h1, hread1, hst1⟩ := h.require ht "a term"
  obtain ⟨c2, h2, hread2, hst2⟩ := hst1.accept hu
  rw [term, hread1]
  simp only [bind, Except.bind, hread2]
  exact gives_ok hst2

/-- Reading the terms after a first one, up to a token that does not go on with them. -/
theorem moreTerms {ts : List Term} (hts : ∀ t ∈ ts, ReadsBack t)
    (h : c.Stands ((ts.map Term.tokens).flatMap (Token.comma :: ·) ++ rest))
    (hopen : rest.head? ≠ some .leftParen) (hcomma : rest.head? ≠ some .comma) :
    Gives (moreTerms c) (ts.map readBack) rest := by
  induction ts generalizing c with
  | nil =>
    rw [Source.moreTerms, h.acceptToken_none hcomma]
    exact gives_ok h
  | cons t ts ih =>
    simp only [List.map_cons, List.flatMap_cons, List.cons_append, List.append_assoc] at h
    obtain ⟨c1, h1, hread1, hst1⟩ := h.acceptToken
    have hnext : ((ts.map Term.tokens).flatMap (Token.comma :: ·) ++ rest).head? ≠
        some .leftParen := by
      cases ts with
      | nil => exact hopen
      | cons u ts => simp
    obtain ⟨⟨x, c2, h2⟩, hread2, rfl, hst2⟩ := hts t List.mem_cons_self c1 _ hst1 hnext
    obtain ⟨⟨xs, c3, h3⟩, hread3, rfl, hst3⟩ :=
      ih (fun u hu => hts u (List.mem_cons_of_mem _ hu)) hst2
    rw [Source.moreTerms, hread1]
    simp only [bind, Except.bind, hread2, hread3]
    exact gives_ok hst3

/-- Reading terms up to a token that ends them. -/
theorem terms {ts : List Term} (hts : ∀ t ∈ ts, ReadsBack t) {close stop : Token}
    (hclose : TermStart.ofToken? close = none) (hstop : stop = close ∨ stop = .bar)
    (hopen : stop ≠ .leftParen) (hcomma : stop ≠ .comma)
    (h : c.Stands (separated (ts.map Term.tokens) ++ stop :: rest)) :
    Gives (terms close c) (ts.map readBack) (stop :: rest) := by
  cases ts with
  | nil =>
    have hcurrent : c.current = close ∨ c.current = .bar := by rwa [h.current]
    rw [Source.terms, if_pos hcurrent]
    exact gives_ok h
  | cons t ts =>
    rw [List.map_cons, separated, List.append_assoc] at h
    obtain ⟨u, us, hu, hstart⟩ := exists_start t
    have hcurrent : ¬(c.current = close ∨ c.current = .bar) := by
      rw [hu, List.cons_append] at h
      rw [h.current]
      rintro (rfl | rfl)
      · rw [hclose] at hstart
        cases hstart
      · cases hstart
    have hnext : ((ts.map Term.tokens).flatMap (Token.comma :: ·) ++ stop :: rest).head? ≠
        some .leftParen := by
      cases ts with
      | nil => simpa using hopen
      | cons u ts => simp
    obtain ⟨⟨x, c1, h1⟩, hread1, rfl, hst1⟩ := hts t List.mem_cons_self c _ h hnext
    obtain ⟨⟨xs, c2, h2⟩, hread2, rfl, hst2⟩ :=
      hst1.moreTerms (fun u hu => hts u (List.mem_cons_of_mem _ hu)) (by simpa using hopen)
        (by simpa using hcomma)
    rw [Source.terms, if_neg hcurrent]
    simp only [bind, Except.bind, hread1, hread2]
    exact gives_ok hst2

theorem term_compound {f : String} {args : List Term} (hargs : ∀ t ∈ args, ReadsBack t)
    (hne : args ≠ []) (h : c.Stands ((Term.compound f args).tokens ++ rest)) :
    Gives (term c) (readBack (.compound f args)) rest := by
  rw [Term.tokens, Term.tokensAll_eq_map, callTokens_append] at h
  obtain ⟨c1, h1, hread1, hst1⟩ := h.require (rfl : TermStart.ofToken? (.atom f) = _) "a term"
  obtain ⟨c2, h2, hread2, hst2⟩ := hst1.acceptToken
  obtain ⟨⟨xs, c3, h3⟩, hread3, rfl, hst3⟩ :=
    hst2.terms hargs rfl (.inl rfl) (by decide) (by decide)
  obtain ⟨c4, h4, hread4, hst4⟩ := hst3.expect
  have happ : Term.app f (args.map readBack) = readBack (.compound f args) := by
    rw [readBack, Term.instantiate_compound, Term.app, if_neg (by simpa using hne)]
    rfl
  rw [term, hread1]
  simp only [bind, Except.bind, hread2, hread3, hread4, happ]
  exact gives_ok hst4

theorem term_list {items : List Term} {tail : Option Term} (hitems : ∀ t ∈ items, ReadsBack t)
    (htail : ∀ t, tail = some t → ReadsBack t)
    (h : c.Stands ((Term.list items tail).tokens ++ rest)) :
    Gives (term c) (readBack (.list items tail)) rest := by
  rw [Term.tokens, Term.tokensAll_eq_map] at h
  simp only [List.cons_append, List.append_assoc, List.nil_append] at h
  obtain ⟨c1, h1, hread1, hst1⟩ := h.require (rfl : TermStart.ofToken? .leftBracket = _) "a term"
  rw [readBack, Term.instantiate_list, term, hread1]
  cases tail with
  | none =>
    obtain ⟨⟨xs, c2, h2⟩, hread2, rfl, hst2⟩ :=
      hst1.terms hitems rfl (.inl rfl) (by decide) (by decide)
    have hbar := hst2.acceptToken_none (t := .bar) (by simp)
    obtain ⟨c3, h3, hread3, hst3⟩ := hst2.expect
    simp only [bind, Except.bind, hread2, hbar, hread3]
    exact gives_ok hst3
  | some u =>
    obtain ⟨⟨xs, c2, h2⟩, hread2, rfl, hst2⟩ :=
      hst1.terms hitems (rfl : TermStart.ofToken? .rightBracket = none) (.inr rfl) (by decide)
        (by decide)
    obtain ⟨c3, h3, hread3, hst3⟩ := hst2.acceptToken
    obtain ⟨⟨x, c4, h4⟩, hread4, rfl, hst4⟩ := htail u rfl c3 _ hst3 (by simp)
    obtain ⟨c5, h5, hread5, hst5⟩ := hst4.expect
    simp only [bind, Except.bind, hread2, hread3, hread4, hread5]
    exact gives_ok hst5

end Cursor.Stands

theorem Cursor.Stands.term {t : Term} {c : Cursor} {rest : List Token} (ht : Legible t)
    (h : c.Stands (t.tokens ++ rest)) (hrest : rest.head? ≠ some .leftParen) :
    Gives (term c) (readBack t) rest := by
  induction t using Term.induct generalizing c rest with
  | const k =>
    cases k with
    | int n =>
      rw [Term.tokens, Constant.tokens, intTokens] at h
      split at h
      · have hsigned : signedTerm? .output (.int (-n)) = some (.int n) := by
          simp [signedTerm?]
        exact h.term_signed rfl hsigned
      · exact h.term_constant rfl
    | float x =>
      rw [Term.tokens, Constant.tokens, floatTokens] at h
      split at h
      · have hsigned : signedTerm? .output (.float x.neg) = some (.float x) := by
          simp [signedTerm?, Double.neg_neg]
        exact h.term_signed rfl hsigned
      · exact h.term_constant rfl
    | symbol s => exact h.term_symbol hrest
  | var v => exact h.term_var ht.self.2
  | placeholder p =>
    obtain ⟨g, typeName⟩ := p
    cases g <;> exact h.term_signed rfl rfl
  | compound f args ih =>
    exact h.term_compound (fun t ht' c rest hc hr => ih t ht' (ht.args t ht') hc hr) ht.self.2
  | list items tail ihitems ihtail =>
    refine h.term_list (fun t ht' c rest hc hr => ihitems t ht' (ht.items t ht') hc hr) ?_
    rintro t rfl c rest hc hr
    exact ihtail t rfl ht.tail hc hr

end Source
end Horn
