import Horn.Proofs.Reading

/-!
What the grammar can give.  The names in a token stay on one line, a variable is a variable word
and a number has no sign; so the terms that a text is read as can be read back from their own text,
except for those that print as something else: an overflowing number and a type name that needs
quotes.  The operands of an expression are such terms, and so are those of the atoms of a clause.
-/

namespace Horn

open Source

/-! ## Written terms -/

/-- A term whose text is not the text of something else.  A number that overflows prints as a word,
and a type name prints without quotes. -/
def Term.IsUnmistakable : Term → Prop
  | .const (.float x) => x.IsFinite
  | .placeholder p => isPlainSymbol p.typeName = true
  | _ => True

instance : DecidablePred Term.IsUnmistakable
  | .const (.float x) => inferInstanceAs (Decidable (x.magnitude < Double.infinityMagnitude))
  | .placeholder p => inferInstanceAs (Decidable (isPlainSymbol p.typeName = true))
  | .const (.int _) | .const (.symbol _) | .var _ | .compound _ _ | .list _ _ =>
    inferInstanceAs (Decidable True)

/-- A form without terms whose text is the text of something else. -/
def Unmistakable {α : Type} [HasTerms α] (x : α) : Prop :=
  ∀ t ∈ HasTerms.subterms x, t.IsUnmistakable

instance {α : Type} [HasTerms α] (x : α) : Decidable (Unmistakable x) :=
  inferInstanceAs (Decidable (∀ t ∈ HasTerms.subterms x, t.IsUnmistakable))

namespace Term

/-- A term that can be read: lists are in normal form and everything else can be read back unless
its text is that of something else. -/
structure IsWritten (t : Term) : Prop where
  normal : t.isNormal = true
  legible : ∀ u ∈ t.subterms, u.asList = none → u.IsUnmistakable → u.IsLegible

theorem IsWritten.legible_of {t : Term} (h : t.IsWritten) (ht : Unmistakable t) : Legible t := by
  intro u hu
  cases hlist : u.asList with
  | none => exact h.legible u hu hlist (ht u hu)
  | some parts =>
    obtain ⟨items, tail⟩ := parts
    obtain rfl : u = .list items tail := by cases u <;> simp_all [asList]
    have hnormal := isNormal_list.1 (isNormal_of_mem_subterms h.normal hu)
    intro v hv
    obtain ⟨hne, hlist, -⟩ := hnormal.2 v hv
    exact ⟨hne, hlist⟩

/-- A term without parts. -/
theorem isWritten_leaf {t : Term} (hnormal : t.isNormal = true) (hself : t.subterms = [t])
    (h : t.IsUnmistakable → t.IsLegible) : t.IsWritten := by
  refine ⟨hnormal, fun u hu _ => ?_⟩
  rw [hself, List.mem_singleton] at hu
  rwa [hu]

theorem isWritten_app {f : String} {args : List Term} (hf : '\n' ∉ f.toList)
    (hargs : ∀ t ∈ args, t.IsWritten) : (app f args).IsWritten := by
  rw [app]
  split
  next => exact isWritten_leaf rfl rfl fun _ => hf
  next hne =>
    refine ⟨?_, fun u hu hlist hplain => ?_⟩
    · rw [isNormal, allNormal_iff]
      exact fun t ht => (hargs t ht).normal
    · rw [subterms, List.mem_cons, mem_subtermsAll] at hu
      rcases hu with rfl | ⟨t, ht, hu⟩
      · exact ⟨hf, by simpa using hne⟩
      · exact (hargs t ht).legible u hu hlist hplain

theorem isWritten_listOf {items : List Term} {tail : Option Term}
    (hitems : ∀ t ∈ items, t.IsWritten) (htail : ∀ t, tail = some t → t.IsWritten) :
    (listOf items tail).IsWritten := by
  refine ⟨isNormal_listOf (fun t ht => (hitems t ht).normal) fun t ht => (htail t ht).normal,
    fun u hu hlist hplain => ?_⟩
  rw [mem_subterms_listOf hlist, mem_subtermsAll] at hu
  rcases hu with ⟨t, ht, hu⟩ | hu
  · exact (hitems t ht).legible u hu hlist hplain
  · cases tail with
    | none => cases hu
    | some t => exact (htail t rfl).legible u hu hlist hplain

end Term

theorem Term.IsWritten.args {f : String} {args : List Term} (h : (compound f args).IsWritten) :
    ∀ t ∈ args, t.IsWritten := fun _ ht =>
  ⟨isNormal_args h.normal ht, fun u hu =>
    h.legible u (List.mem_cons_of_mem _ (mem_subtermsAll.2 ⟨_, ht, hu⟩))⟩

/-! ## Written expressions and atoms -/

namespace Expr

/-- The terms that stand as operands. -/
def operands : Expr → List Term
  | .term t => [t]
  | .binary _ l r => l.operands ++ r.operands
  | .neg e => e.operands
  | .call _ e => e.operands

/-- An expression whose terms are written. -/
def IsWritten (e : Expr) : Prop := ∀ t ∈ e.operands, t.IsWritten

theorem mem_subterms_iff {e : Expr} {u : Term} :
    u ∈ HasTerms.subterms e ↔ ∃ t ∈ e.operands, u ∈ t.subterms := by
  induction e with
  | term s => simp [operands, HasTerms.subterms, Expr.subterms]
  | binary op l r ihl ihr =>
    simp only [operands, List.mem_append, or_and_right, exists_or, ← ihl, ← ihr]
    exact List.mem_append
  | neg e ih => exact ih
  | call f e ih => exact ih

theorem IsWritten.normal {e : Expr} (h : e.IsWritten) : Normal e := by
  intro u hu
  obtain ⟨t, ht, hut⟩ := mem_subterms_iff.1 hu
  exact Term.isNormal_of_mem_subterms (h t ht).normal hut

theorem isLegible_of_operands {e : Expr} (h : ∀ t ∈ e.operands, Legible t ∧ t.isOperand = true) :
    e.IsLegible := by
  induction e with
  | term t => exact h t (List.mem_singleton.2 rfl)
  | binary op l r ihl ihr =>
    obtain ⟨hl, hr⟩ := List.forall_mem_append.1 h
    exact ⟨ihl hl, ihr hr⟩
  | neg e ih => exact ih h
  | call f e ih => exact ih h

theorem IsWritten.isLegible {e : Expr} (h : e.IsWritten) (he : Unmistakable e)
    (hop : ∀ t ∈ e.operands, t.isOperand = true) : e.IsLegible :=
  isLegible_of_operands fun t ht =>
    ⟨(h t ht).legible_of fun _ hu => he _ (mem_subterms_iff.2 ⟨t, ht, hu⟩), hop t ht⟩

end Expr

namespace Atom

/-- The terms that stand as operands when the atom is read. -/
def operands : Atom → List Term
  | .predicate p => p.expr.operands
  | .compare c => c.left.operands ++ c.right.operands

/-- An atom whose terms are written. -/
def IsWritten (a : Atom) : Prop := ∀ t ∈ a.operands, t.IsWritten

end Atom

/-- The terms of a predicate are those of its expression, where the predicate itself can be one. -/
theorem Predicate.mem_subterms_expr {p : Predicate} {u : Term} :
    u ∈ HasTerms.subterms p → u ∈ HasTerms.subterms p.expr := by
  intro hu
  obtain ⟨t, ht, hut⟩ := List.mem_flatMap.1 hu
  unfold Predicate.expr
  split
  next f s hf hargs =>
    rw [hargs, List.mem_singleton] at ht
    exact ht ▸ hut
  next =>
    change u ∈ (Term.app p.name p.args).subterms
    rw [Term.app, if_neg (by simpa using List.ne_nil_of_mem ht), Term.subterms]
    exact List.mem_cons_of_mem _ (Term.mem_subtermsAll.2 ⟨t, ht, hut⟩)

theorem Predicate.mem_subterms_of_expr {p : Predicate} {u : Term}
    (hu : u ∈ HasTerms.subterms p.expr) : u ∈ HasTerms.subterms p ∨ u.IsUnmistakable := by
  unfold Predicate.expr at hu
  split at hu
  next f t hf hargs => exact .inl (List.mem_flatMap.2 ⟨t, by simp [hargs], hu⟩)
  next =>
    change u ∈ (Term.app p.name p.args).subterms at hu
    rw [Term.app] at hu
    split at hu
    · rw [List.mem_singleton.1 hu]
      exact .inr trivial
    · rw [Term.subterms, List.mem_cons, Term.mem_subtermsAll] at hu
      rcases hu with rfl | ⟨t, ht, hu⟩
      · exact .inr trivial
      · exact .inl (List.mem_flatMap.2 ⟨t, ht, hu⟩)

theorem Predicate.unmistakable_expr {p : Predicate} (h : Unmistakable p) : Unmistakable p.expr :=
  fun u hu => (mem_subterms_of_expr hu).elim (h u) id

theorem Atom.IsWritten.normal {a : Atom} (h : a.IsWritten) : Normal a := by
  cases a with
  | predicate p => exact fun u hu => Expr.IsWritten.normal h u (Predicate.mem_subterms_expr hu)
  | compare c =>
    obtain ⟨hl, hr⟩ := List.forall_mem_append.1 h
    exact List.forall_mem_append.2 ⟨Expr.IsWritten.normal hl, Expr.IsWritten.normal hr⟩

theorem Atom.IsWritten.isLegible {a : Atom} (h : a.IsWritten) (ha : Unmistakable a)
    (hop : ∀ t ∈ a.operands, t.isOperand = true) : a.IsLegible := by
  cases a with
  | predicate p => exact Expr.IsWritten.isLegible h (Predicate.unmistakable_expr ha) hop
  | compare c =>
    obtain ⟨hl, hr⟩ := List.forall_mem_append.1 h
    obtain ⟨hopl, hopr⟩ := List.forall_mem_append.1 hop
    exact ⟨Expr.IsWritten.isLegible hl (fun t ht => ha t (List.mem_append_left _ ht)) hopl,
      Expr.IsWritten.isLegible hr (fun t ht => ha t (List.mem_append_right _ ht)) hopr⟩

theorem Predicate.isWritten_expr {p : Predicate} (hname : '\n' ∉ p.name.toList)
    (hargs : ∀ t ∈ p.args, t.IsWritten) : p.expr.IsWritten := by
  unfold Predicate.expr
  split
  next f t hf ht =>
    exact List.forall_mem_singleton.2 (hargs t (ht ▸ List.mem_singleton.2 rfl))
  next => exact List.forall_mem_singleton.2 (Term.isWritten_app hname hargs)

/-- An expression in the place of an atom is taken for a predicate whose terms are written. -/
theorem Expr.IsWritten.predicate {e : Expr} {p : Predicate} (h : e.IsWritten)
    (hp : e.asPredicate = some p) : p.expr.IsWritten := by
  match e, hp with
  | .term (.const (.symbol name)), hp =>
    obtain rfl := Option.some.inj hp
    have hself : (Term.const (.symbol name)).IsWritten := h _ (List.mem_singleton.2 rfl)
    exact Predicate.isWritten_expr (hself.legible _ (Term.self_mem_subterms _) rfl trivial) nofun
  | .term (.compound name args), hp =>
    obtain rfl := Option.some.inj hp
    have hself : (Term.compound name args).IsWritten := h _ (List.mem_singleton.2 rfl)
    exact Predicate.isWritten_expr (hself.legible _ (Term.self_mem_subterms _) rfl trivial).1
      hself.args
  | .call f (.term t), hp =>
    obtain rfl := Option.some.inj hp
    have hname : '\n' ∉ f.name.toList := by cases f <;> decide
    exact Predicate.isWritten_expr hname h

/-! ## Tokens -/

/-- A token as texts have them: names stay on one line, variables are variable words and numbers
have no sign. -/
def Token.IsProper : Token → Prop
  | .atom s | .string s => '\n' ∉ s.toList
  | .var s => isVariableWord s = true
  | .int n => 0 ≤ n
  | _ => True

namespace Source

theorem newline_not_mem_quoted {quote : Char} {cs s rest : List Char}
    (h : quoted quote cs = .ok (s, rest)) : '\n' ∉ s := by
  fun_induction quoted quote cs generalizing s with
  | case1 => cases h
  | case2 => cases h
  | case3 => cases h
  | case4 c r hc ih =>
    obtain ⟨⟨s', after⟩, hread, hs⟩ := ok_of_map h
    cases hs
    rw [List.mem_cons, not_or]
    exact ⟨fun hn => hc (by simp [← hn]), ih hread⟩
  | case5 => cases h
  | case6 =>
    cases h
    exact List.not_mem_nil
  | case7 c r _ _ hc _ ih =>
    obtain ⟨⟨s', after⟩, hread, hs⟩ := ok_of_map h
    cases hs
    rw [List.mem_cons, not_or]
    exact ⟨fun hn => hc (by simp [← hn]), ih hread⟩

theorem newline_not_mem_word (cs : List Char) :
    '\n' ∉ (String.ofList (cs.takeWhile isWordChar)).toList := by
  rw [String.toList_ofList]
  intro hn
  exact absurd (List.all_eq_true.1 List.all_takeWhile _ hn) (by decide)

theorem isProper_number {cs rest : List Char} {t : Token} (h : number cs = .ok (t, rest)) :
    t.IsProper := by
  simp only [number] at h
  split at h
  · cases h
    exact trivial
  · split at h
    next hfits =>
      cases h
      have hmax : Int64.maxValue.toInt = 2 ^ 63 - 1 := rfl
      have hself := Int64.toInt_ofInt_of_le (n := Decimal.ofDigits (Decimal.spanDigits cs).1)
        (by omega) (by omega)
      rw [Token.IsProper, Int64.le_iff_toInt_le, hself]
      exact Int.natCast_nonneg _
    next => cases h

theorem isProper_longToken {c : Char} {cs rest : List Char} {t : Token}
    (h : longToken c cs = .ok (t, rest)) : t.IsProper := by
  simp only [longToken] at h
  split at h
  · exact isProper_number h
  split at h
  · cases h
    exact newline_not_mem_word _
  split at h
  next hc =>
    cases h
    have hword : isWordChar c = true := by
      rcases Bool.or_eq_true_iff.1 hc with hc | hc <;> simp [isWordChar_eq, hc]
    have hlist : (spanWord (c :: cs)).1.toList = c :: cs.takeWhile isWordChar := by
      rw [spanWord, String.toList_ofList, List.takeWhile_cons_of_pos hword]
    rw [Token.IsProper, isVariableWord, hlist]
    exact Bool.and_eq_true_iff.2 ⟨hc, List.all_takeWhile⟩
  split at h
  · cases h
    exact trivial
  · cases h

theorem isProper_token {c : Char} {cs rest : List Char} {t : Token}
    (h : token c cs = .ok (t, rest)) : t.IsProper := by
  unfold token at h
  split at h
  case h_10 | h_11 =>
    obtain ⟨⟨s, after⟩, hread, hs⟩ := ok_of_map h
    cases hs
    simpa [Token.IsProper] using newline_not_mem_quoted hread
  case h_12 =>
    split at h
    · cases h
      exact trivial
    · exact isProper_longToken h
  case h_13 => exact isProper_longToken h
  all_goals
    cases h
    exact trivial

theorem isProper_lexemes (cs : List Char) : ∀ l ∈ (lexemes cs).items, l.token.IsProper := by
  fun_induction lexemes cs with
  | case1 => exact nofun
  | case2 => exact nofun
  | case3 => exact nofun
  | case4 cs c rest hskip t after ht _ _ _ ih =>
    exact List.forall_mem_cons.2 ⟨isProper_token ht, ih⟩

/-! ## Readings -/

/-- Whatever the computation returns satisfies the predicate. -/
def Yields {ε α : Type} (r : Except ε α) (P : α → Prop) : Prop := ∀ a, r = .ok a → P a

/-- The tokens that are left are proper. -/
def Cursor.IsProper (c : Cursor) : Prop := ∀ l ∈ c.left.items, l.token.IsProper

/-- Whatever is read satisfies the predicate and leaves proper tokens. -/
def Reads {α : Type} {n : Nat} (r : Reading α n) (P : α → Prop) : Prop :=
  Yields r fun p => P p.value ∧ p.rest.IsProper

/-- Nothing is read, or what is read satisfies the predicate and leaves proper tokens. -/
def Accepts {α : Type} {n : Nat} (r : Except Fault (Option (Parsed α n))) (P : α → Prop) : Prop :=
  Yields r fun o => ∀ p ∈ o, P p.value ∧ p.rest.IsProper

section

variable {α β : Type} {n : Nat} {P P' : α → Prop} {Q : β → Prop}

theorem yields_ok {a : α} (h : P a) : Yields (.ok a : Except Fault α) P :=
  fun _ hb => Except.ok.inj hb ▸ h

theorem yields_error {f : Fault} : Yields (.error f) P := nofun

theorem Yields.bind {r : Except Fault α} {f : α → Except Fault β} (hr : Yields r P)
    (hf : ∀ a, P a → Yields (f a) Q) : Yields (r >>= f) Q := by
  cases r with
  | error e => exact yields_error
  | ok a => exact hf a (hr a rfl)

theorem Reads.mono {r : Reading α n} (hr : Reads r P) (h : ∀ a, P a → P' a) : Reads r P' :=
  fun p hp => ⟨h _ (hr p hp).1, (hr p hp).2⟩

/-- What follows a reading goes on from what was read and from the cursor after it. -/
theorem Reads.bind {r : Reading α n} {f : Parsed α n → Except Fault β} (hr : Reads r P)
    (hf : ∀ a c h, P a → c.IsProper → Yields (f ⟨a, c, h⟩) Q) : Yields (r >>= f) Q :=
  Yields.bind hr fun p hp => hf p.value p.rest p.fewer hp.1 hp.2

theorem Accepts.bind {r : Except Fault (Option (Parsed α n))}
    {f : Option (Parsed α n) → Except Fault β} (hr : Accepts r P) (hnone : Yields (f none) Q)
    (hsome : ∀ a c h, P a → c.IsProper → Yields (f (some ⟨a, c, h⟩)) Q) : Yields (r >>= f) Q := by
  refine Yields.bind hr fun o ho => ?_
  cases o with
  | none => exact hnone
  | some p => exact hsome p.value p.rest p.fewer (ho p rfl).1 (ho p rfl).2

end

namespace Cursor

variable {α : Type} {P : α → Prop} {c : Cursor}

theorem isProper_start (source : String) : Yields (start source) IsProper := by
  intro c hc
  rw [start, settle] at hc
  split at hc
  next => cases hc
  next =>
    cases hc
    exact isProper_lexemes _

theorem IsProper.accept {kind : Token → Option α} (hc : c.IsProper)
    (hP : ∀ t a, t.IsProper → kind t = some a → P a) : Accepts (c.accept kind) P := by
  intro o ho
  unfold Cursor.accept at ho
  split at ho
  next =>
    cases ho
    exact nofun
  next l more hl =>
    have hproper : ∀ l' ∈ l :: more, l'.token.IsProper := hl ▸ hc
    obtain ⟨hfirst, hmore⟩ := List.forall_mem_cons.1 hproper
    split at ho
    next =>
      cases ho
      exact nofun
    next a ha =>
      obtain ⟨p, hp, rfl⟩ := ok_of_map ho
      rintro q hq
      obtain rfl := Option.some.inj hq
      unfold moveTo at hp
      split at hp
      next => cases hp
      next =>
        cases hp
        exact ⟨hP _ _ hfirst ha, hmore⟩

theorem IsProper.acceptToken (hc : c.IsProper) (t : Token) :
    Accepts (c.acceptToken t) fun _ => True :=
  hc.accept fun _ _ _ _ => trivial

theorem IsProper.expect (hc : c.IsProper) (t : Token) : Reads (c.expect t) fun _ => True :=
  (hc.acceptToken t).bind yields_error fun _ _ _ h hd => yields_ok ⟨h, hd⟩

theorem IsProper.require {kind : Token → Option α} (hc : c.IsProper)
    (hP : ∀ t a, t.IsProper → kind t = some a → P a) (wanted : String) :
    Reads (c.require kind wanted) P :=
  (hc.accept hP).bind yields_error fun _ _ _ h hd => yields_ok ⟨h, hd⟩

theorem IsProper.acceptCall (hc : c.IsProper) (kind : Token → Option α) :
    Accepts (c.acceptCall kind) fun _ => True := by
  refine (hc.accept (P := fun _ => True) fun _ _ _ _ => trivial).bind (yields_ok nofun) ?_
  intro a d _ _ hd
  refine (hd.accept (P := fun _ => True) fun _ _ _ _ => trivial).bind (yields_ok nofun) ?_
  intro _ e _ _ he
  refine yields_ok fun p hp => ?_
  obtain rfl := Option.some.inj hp
  exact ⟨trivial, he⟩

theorem IsProper.nextAnonymous (hc : c.IsProper) : c.nextAnonymous.2.IsProper := hc

end Cursor

/-! ## Terms -/

/-- What a term starts with has a name on one line, is a variable word or is a number or a string
that can be read. -/
def TermStart.IsProper : TermStart → Prop
  | .var name => isVariableWord name = true
  | .constant k => (Term.const k).IsWritten
  | .word s => '\n' ∉ s.toList
  | _ => True

theorem isProper_start {t : Token} {start : TermStart} (ht : t.IsProper)
    (h : TermStart.ofToken? t = some start) : start.IsProper := by
  unfold TermStart.ofToken? at h
  split at h
  next => cases h; trivial
  next => cases h; exact ht
  next =>
    cases h
    refine Term.isWritten_leaf rfl rfl fun _ => ?_
    rintro rfl
    have hpos : 0 ≤ Int64.minValue := ht
    exact absurd hpos (by decide)
  next => cases h; exact Term.isWritten_leaf rfl rfl id
  next => cases h; exact Term.isWritten_leaf rfl rfl fun _ => ht
  next => cases h; exact ht
  next =>
    obtain ⟨g, -, rfl⟩ := Option.map_eq_some_iff.1 h
    trivial
  next => cases h

theorem isWritten_signed {t : Token} {sign : Sign} {x : Term} (ht : t.IsProper)
    (h : signedTerm? sign t = some x) : x.IsWritten := by
  unfold signedTerm? at h
  split at h
  next n =>
    obtain ⟨-, h⟩ := Option.ite_none_right_eq_some.1 h
    obtain rfl := Option.some.inj h
    refine Term.isWritten_leaf rfl rfl fun _ hn => ?_
    obtain rfl : n = -Int64.minValue := by rw [← hn, Int64.neg_neg]
    have hpos : 0 ≤ -Int64.minValue := ht
    exact absurd hpos (by decide)
  next =>
    obtain ⟨-, h⟩ := Option.ite_none_right_eq_some.1 h
    obtain rfl := Option.some.inj h
    exact Term.isWritten_leaf rfl rfl id
  next =>
    cases h
    exact Term.isWritten_leaf rfl rfl id
  next => cases h

/-- An underscore is given a number, and then it reads as a name. -/
theorem isVariableWord_anonymous (k : Nat) :
    isVariableWord (Var.text ⟨"_", k + 1⟩) = true ∧ Var.text ⟨"_", k + 1⟩ ≠ "_" := by
  have htext : (Var.text ⟨"_", k + 1⟩).toList = '_' :: Nat.toDigits 10 (k + 1) := by
    rw [Var.text, if_neg (Nat.succ_ne_zero k), String.toList_append, toList_toString]
    exact congrArg (· ++ _) (by decide : "_".toList = ['_'])
  constructor
  · rw [isVariableWord, htext]
    refine Bool.and_eq_true_iff.2 ⟨rfl, List.all_eq_true.2 fun d hd => ?_⟩
    exact isWordChar_of_isDigit (isDigit_of_mem_toDigits d hd)
  · intro hname
    rw [hname] at htext
    exact Nat.toDigits_ne_nil (List.tail_eq_of_cons_eq htext).symm

/-- What the functions for terms read from a cursor. -/
structure ReadsTerms (c : Cursor) : Prop where
  term : Reads (term c) Term.IsWritten
  terms (close : Token) : Reads (terms close c) fun ts => ∀ t ∈ ts, t.IsWritten
  moreTerms : Reads (moreTerms c) fun ts => ∀ t ∈ ts, t.IsWritten

section

variable {c : Cursor}

theorem reads_term (hc : c.IsProper)
    (ih : ∀ d : Cursor, d.size < c.size → d.IsProper → ReadsTerms d) :
    Reads (term c) Term.IsWritten := by
  rw [term]
  refine (hc.require (fun _ _ => isProper_start) "a term").bind fun start c1 h1 hstart hc1 => ?_
  cases start with
  | var name =>
    dsimp only
    split
    · exact yields_ok ⟨Term.isWritten_leaf rfl rfl fun _ => isVariableWord_anonymous _,
        hc1.nextAnonymous⟩
    next hname => exact yields_ok ⟨Term.isWritten_leaf rfl rfl fun _ => ⟨hstart, hname⟩, hc1⟩
  | constant k => exact yields_ok ⟨hstart, hc1⟩
  | word s =>
    refine (hc1.acceptToken .leftParen).bind ?_ fun _ c2 h2 _ hc2 => ?_
    · exact yields_ok ⟨Term.isWritten_leaf rfl rfl fun _ => hstart, hc1⟩
    · refine ((ih c2 (by omega) hc2).terms .rightParen).bind fun args c3 h3 hargs hc3 => ?_
      refine (hc3.expect .rightParen).bind fun _ c4 h4 _ hc4 => ?_
      exact yields_ok ⟨Term.isWritten_app hstart hargs, hc4⟩
  | list =>
    refine ((ih c1 h1 hc1).terms .rightBracket).bind fun items c2 h2 hitems hc2 => ?_
    refine (hc2.acceptToken .bar).bind ?_ fun _ c3 h3 _ hc3 => ?_
    · refine (hc2.expect .rightBracket).bind fun _ c3 h3 _ hc3 => ?_
      exact yields_ok ⟨Term.isWritten_listOf hitems nofun, hc3⟩
    · refine (ih c3 (by omega) hc3).term.bind fun tail c4 h4 htail hc4 => ?_
      refine (hc4.expect .rightBracket).bind fun _ c5 h5 _ hc5 => ?_
      exact yields_ok ⟨Term.isWritten_listOf hitems fun t ht => Option.some.inj ht ▸ htail, hc5⟩
  | signed sign =>
    refine (hc1.accept fun _ _ => isWritten_signed).bind yields_error fun x c2 h2 hx hc2 => ?_
    exact yields_ok ⟨hx, hc2⟩

theorem reads_terms (hc : c.IsProper)
    (ih : ∀ d : Cursor, d.size < c.size → d.IsProper → ReadsTerms d) (close : Token) :
    Reads (terms close c) fun ts => ∀ t ∈ ts, t.IsWritten := by
  rw [terms]
  split
  · exact yields_ok ⟨List.forall_mem_nil _, hc⟩
  · refine (reads_term hc ih).bind fun t c1 h1 ht hc1 => ?_
    refine (ih c1 h1 hc1).moreTerms.bind fun rest c2 h2 hrest hc2 => ?_
    exact yields_ok ⟨List.forall_mem_cons.2 ⟨ht, hrest⟩, hc2⟩

theorem reads_moreTerms (hc : c.IsProper)
    (ih : ∀ d : Cursor, d.size < c.size → d.IsProper → ReadsTerms d) :
    Reads (moreTerms c) fun ts => ∀ t ∈ ts, t.IsWritten := by
  rw [moreTerms]
  refine (hc.acceptToken .comma).bind (yields_ok ⟨List.forall_mem_nil _, hc⟩) ?_
  intro _ c1 h1 _ hc1
  refine (ih c1 h1 hc1).term.bind fun t c2 h2 ht hc2 => ?_
  refine (ih c2 (by omega) hc2).moreTerms.bind fun rest c3 h3 hrest hc3 => ?_
  exact yields_ok ⟨List.forall_mem_cons.2 ⟨ht, hrest⟩, hc3⟩

theorem readsTerms (c : Cursor) (hc : c.IsProper) : ReadsTerms c :=
  have ih (d : Cursor) (_hd : d.size < c.size) (hproper : d.IsProper) := readsTerms d hproper
  ⟨reads_term hc ih, reads_terms hc ih, reads_moreTerms hc ih⟩
termination_by c.size

end

/-! ## Expressions -/

/-- What the functions for expressions read from a cursor. -/
structure ReadsExprs (c : Cursor) : Prop where
  expr : Reads (expr c) Expr.IsWritten
  moreSummands {left : Expr} : left.IsWritten → Reads (moreSummands left c) Expr.IsWritten
  product : Reads (product c) Expr.IsWritten
  moreFactors {left : Expr} : left.IsWritten → Reads (moreFactors left c) Expr.IsWritten
  power : Reads (power c) Expr.IsWritten
  unary : Reads (unary c) Expr.IsWritten

theorem isWritten_binary {op : BinOp} {l r : Expr} (hl : l.IsWritten) (hr : r.IsWritten) :
    (Expr.binary op l r).IsWritten := List.forall_mem_append.2 ⟨hl, hr⟩

theorem reads_operand {c : Cursor} (hc : c.IsProper) :
    Reads (do let ⟨t, c1, h1⟩ ← term c; return ⟨.term t, c1, h1⟩ : Reading Expr c.size)
      Expr.IsWritten :=
  (readsTerms c hc).term.bind fun _ _ _ ht hc1 => yields_ok ⟨List.forall_mem_singleton.2 ht, hc1⟩

section

variable {c : Cursor} (hc : c.IsProper)
  (ih : ∀ d : Cursor, d.size < c.size → d.IsProper → ReadsExprs d)

include hc ih

theorem reads_primary : Reads (primary c) Expr.IsWritten := by
  rw [primary]
  refine (hc.acceptToken .leftParen).bind ?_ fun _ c1 h1 _ hc1 => ?_
  · refine (hc.acceptCall function?).bind ?_ fun f c1 h1 _ hc1 => ?_
    · exact reads_operand hc
    · refine (ih c1 h1 hc1).expr.bind fun e c2 h2 he hc2 => ?_
      refine (hc2.expect .rightParen).bind fun _ c3 h3 _ hc3 => ?_
      exact yields_ok ⟨he, hc3⟩
  · refine (ih c1 h1 hc1).expr.bind fun e c2 h2 he hc2 => ?_
    refine (hc2.expect .rightParen).bind fun _ c3 h3 _ hc3 => ?_
    exact yields_ok ⟨he, hc3⟩

theorem reads_unary : Reads (unary c) Expr.IsWritten := by
  rw [unary]
  split
  · refine Yields.bind (P := fun _ => True) (fun _ _ => trivial) fun t _ => ?_
    split
    · exact reads_operand hc
    · refine (hc.expect (.op "-")).bind fun _ c1 h1 _ hc1 => ?_
      refine (ih c1 h1 hc1).unary.bind fun e c2 h2 he hc2 => ?_
      exact yields_ok ⟨he, hc2⟩
  · exact reads_primary hc ih

theorem reads_power : Reads (power c) Expr.IsWritten := by
  rw [power]
  refine (reads_unary hc ih).bind fun base c1 h1 hbase hc1 => ?_
  refine (hc1.acceptToken (.op "**")).bind (yields_ok ⟨hbase, hc1⟩) fun _ c2 h2 _ hc2 => ?_
  refine (ih c2 (by omega) hc2).power.bind fun exponent c3 h3 hexponent hc3 => ?_
  exact yields_ok ⟨isWritten_binary hbase hexponent, hc3⟩

theorem reads_moreFactors {left : Expr} (hleft : left.IsWritten) :
    Reads (moreFactors left c) Expr.IsWritten := by
  rw [moreFactors]
  refine (hc.accept (P := fun _ => True) fun _ _ _ _ => trivial).bind (yields_ok ⟨hleft, hc⟩) ?_
  intro op c1 h1 _ hc1
  refine (ih c1 h1 hc1).power.bind fun right c2 h2 hright hc2 => ?_
  refine ((ih c2 (by omega) hc2).moreFactors (isWritten_binary hleft hright)).bind ?_
  exact fun e c3 h3 he hc3 => yields_ok ⟨he, hc3⟩

theorem reads_product : Reads (product c) Expr.IsWritten := by
  rw [product]
  refine (reads_power hc ih).bind fun left c1 h1 hleft hc1 => ?_
  refine ((ih c1 h1 hc1).moreFactors hleft).bind fun e c2 h2 he hc2 => ?_
  exact yields_ok ⟨he, hc2⟩

theorem reads_moreSummands {left : Expr} (hleft : left.IsWritten) :
    Reads (moreSummands left c) Expr.IsWritten := by
  rw [moreSummands]
  refine (hc.accept (P := fun _ => True) fun _ _ _ _ => trivial).bind (yields_ok ⟨hleft, hc⟩) ?_
  intro op c1 h1 _ hc1
  refine (ih c1 h1 hc1).product.bind fun right c2 h2 hright hc2 => ?_
  refine ((ih c2 (by omega) hc2).moreSummands (isWritten_binary hleft hright)).bind ?_
  exact fun e c3 h3 he hc3 => yields_ok ⟨he, hc3⟩

theorem reads_expr : Reads (expr c) Expr.IsWritten := by
  rw [expr]
  refine (reads_product hc ih).bind fun left c1 h1 hleft hc1 => ?_
  refine ((ih c1 h1 hc1).moreSummands hleft).bind fun e c2 h2 he hc2 => ?_
  exact yields_ok ⟨he, hc2⟩

end

theorem readsExprs (c : Cursor) (hc : c.IsProper) : ReadsExprs c :=
  have ih (d : Cursor) (_hd : d.size < c.size) (hproper : d.IsProper) := readsExprs d hproper
  ⟨reads_expr hc ih, reads_moreSummands hc ih, reads_product hc ih, reads_moreFactors hc ih,
    reads_power hc ih, reads_unary hc ih⟩
termination_by c.size

/-! ## Atoms and clauses -/

theorem reads_atom {c : Cursor} (hc : c.IsProper) : Reads (atom c) Atom.IsWritten := by
  rw [atom]
  refine (readsExprs c hc).expr.bind fun left c1 h1 hleft hc1 => ?_
  refine (hc1.accept (P := fun _ => True) fun _ _ _ _ => trivial).bind ?_ fun op c2 h2 _ hc2 => ?_
  · cases hp : left.asPredicate with
    | none => exact yields_error
    | some p => exact yields_ok ⟨hleft.predicate hp, hc1⟩
  · refine (readsExprs c2 hc2).expr.bind fun right c3 h3 hright hc3 => ?_
    exact yields_ok ⟨List.forall_mem_append.2 ⟨hleft, hright⟩, hc3⟩

/-- The atoms of a literal. -/
def Literal.IsWritten (l : Literal) : Prop := ∀ a, l = .atom a → a.IsWritten

theorem isWritten_not {g : Goal} : Literal.IsWritten (.not g) := nofun

/-- What the functions for literals read from a cursor. -/
structure ReadsLiterals (c : Cursor) : Prop where
  literals : Reads (literals c) fun g => ∀ l ∈ g, Literal.IsWritten l
  moreLiterals : Reads (moreLiterals c) fun g => ∀ l ∈ g, Literal.IsWritten l
  literal : Reads (literal c) Literal.IsWritten

section

variable {c : Cursor} (hc : c.IsProper)
  (ih : ∀ d : Cursor, d.size < c.size → d.IsProper → ReadsLiterals d)

include hc ih

theorem reads_literal : Reads (literal c) Literal.IsWritten := by
  rw [literal]
  refine (hc.acceptCall not?).bind ?_ fun _ c1 h1 _ hc1 => ?_
  · refine (hc.acceptToken (.op "\\+")).bind ?_ fun _ c1 h1 _ hc1 => ?_
    · refine (reads_atom hc).bind fun a c1 h1 ha hc1 => ?_
      exact yields_ok ⟨fun b hb => Literal.atom.inj hb ▸ ha, hc1⟩
    · refine (hc1.acceptToken .leftParen).bind ?_ fun _ c2 h2 _ hc2 => ?_
      · refine (ih c1 h1 hc1).literal.bind fun l c2 h2 hl hc2 => ?_
        exact yields_ok ⟨isWritten_not, hc2⟩
      · refine (ih c2 (by omega) hc2).literals.bind fun g c3 h3 hg hc3 => ?_
        refine (hc3.expect .rightParen).bind fun _ c4 h4 _ hc4 => ?_
        exact yields_ok ⟨isWritten_not, hc4⟩
  · refine (ih c1 h1 hc1).literals.bind fun g c2 h2 hg hc2 => ?_
    refine (hc2.expect .rightParen).bind fun _ c3 h3 _ hc3 => ?_
    exact yields_ok ⟨isWritten_not, hc3⟩

theorem reads_literals : Reads (literals c) fun g => ∀ l ∈ g, Literal.IsWritten l := by
  rw [literals]
  refine (reads_literal hc ih).bind fun l c1 h1 hl hc1 => ?_
  refine (ih c1 h1 hc1).moreLiterals.bind fun rest c2 h2 hrest hc2 => ?_
  exact yields_ok ⟨List.forall_mem_cons.2 ⟨hl, hrest⟩, hc2⟩

theorem reads_moreLiterals : Reads (moreLiterals c) fun g => ∀ l ∈ g, Literal.IsWritten l := by
  rw [moreLiterals]
  refine (hc.acceptToken .comma).bind (yields_ok ⟨List.forall_mem_nil _, hc⟩) ?_
  intro _ c1 h1 _ hc1
  refine (ih c1 h1 hc1).literal.bind fun l c2 h2 hl hc2 => ?_
  refine (ih c2 (by omega) hc2).moreLiterals.bind fun rest c3 h3 hrest hc3 => ?_
  exact yields_ok ⟨List.forall_mem_cons.2 ⟨hl, hrest⟩, hc3⟩

end

theorem readsLiterals (c : Cursor) (hc : c.IsProper) : ReadsLiterals c :=
  have ih (d : Cursor) (_hd : d.size < c.size) (hproper : d.IsProper) := readsLiterals d hproper
  ⟨reads_literals hc ih, reads_moreLiterals hc ih, reads_literal hc ih⟩
termination_by c.size

theorem atom_mem_of_positiveAtoms? {g : Goal} {as : List Atom} (h : positiveAtoms? g = some as)
    {a : Atom} (ha : a ∈ as) : Literal.atom a ∈ g := by
  rw [positiveAtoms?] at h
  induction g generalizing as with
  | nil =>
    cases h
    cases ha
  | cons l g ih =>
    rw [List.mapM_cons] at h
    cases l with
    | not goal => cases h
    | atom b =>
      obtain ⟨b', hb, h⟩ := Option.bind_eq_some_iff.1 h
      obtain ⟨bs, hbs, has⟩ := Option.bind_eq_some_iff.1 h
      cases hb
      cases has
      rcases List.mem_cons.1 ha with rfl | ha
      · exact List.mem_cons_self
      · exact List.mem_cons_of_mem _ (ih hbs ha)

theorem yields_bodyAtoms {c : Cursor} {g : Goal} (hg : ∀ l ∈ g, Literal.IsWritten l) :
    Yields (bodyAtoms c g) fun body => ∀ a ∈ body, a.IsWritten := by
  rw [bodyAtoms]
  cases h : positiveAtoms? g with
  | none => exact yields_error
  | some body => exact yields_ok fun a ha => hg _ (atom_mem_of_positiveAtoms? h ha) a rfl

/-- A clause that is read has a predicate for its head, and its atoms are written. -/
theorem reads_clause {c : Cursor} (hc : c.IsProper) : Reads (clause c) fun k =>
    k.headPredicate.isSome = true ∧ ∀ a ∈ k.head.toList ++ k.body, a.IsWritten := by
  rw [clause]
  refine (reads_atom hc).bind fun head c1 h1 hhead hc1 => ?_
  cases head with
  | compare k => exact yields_error
  | predicate p =>
    refine (hc1.acceptToken .neck).bind ?_ fun _ c2 h2 _ hc2 => ?_
    · exact yields_ok ⟨⟨rfl, List.forall_mem_singleton.2 hhead⟩, hc1⟩
    · refine (readsLiterals c2 hc2).literals.bind fun g c3 h3 hg hc3 => ?_
      refine (yields_bodyAtoms hg).bind fun body hbody => ?_
      exact yields_ok ⟨⟨rfl, List.forall_mem_cons.2 ⟨hhead, hbody⟩⟩, hc3⟩

/-- What is read from a text is read from its first token on. -/
theorem exists_start_of_reading {α : Type} {read : Cursor → Except Fault α} {source : String} {a : α}
    (h : reading source read = .ok a) : ∃ c, Cursor.start source = .ok c ∧ read c = .ok a := by
  rw [reading] at h
  cases hstart : Cursor.start source with
  | error f =>
    rw [hstart] at h
    cases h
  | ok c =>
    rw [hstart] at h
    refine ⟨c, rfl, ?_⟩
    change (read c).mapError _ = _ at h
    cases hread : read c with
    | error f =>
      rw [hread] at h
      cases h
    | ok b =>
      rw [hread] at h
      cases h
      rfl

/-- What is read from the start of any text is what is read from proper tokens. -/
theorem of_reading_eq_ok {α : Type} {P : α → Prop} {read : Cursor → Except Fault α} {s : String}
    {a : α} (hread : ∀ c, c.IsProper → Yields (read c) P) (h : reading s read = .ok a) : P a := by
  obtain ⟨c, hstart, hc⟩ := exists_start_of_reading h
  exact hread c (Cursor.isProper_start s c hstart) a hc

/-- Whatever a clause text is read as has a predicate for its head, and its atoms are written. -/
theorem isWritten_of_parseClause {s : String} {k : Clause} (h : parseClause s = .ok k) :
    k.headPredicate.isSome = true ∧ ∀ a ∈ k.head.toList ++ k.body, a.IsWritten := by
  refine of_reading_eq_ok (P := fun k : Clause => k.headPredicate.isSome = true ∧
    ∀ a ∈ k.head.toList ++ k.body, a.IsWritten) (fun c hc => ?_) h
  refine (reads_clause hc).bind fun k c1 h1 hk _ => ?_
  refine Yields.bind (P := fun _ => True) (fun _ _ => trivial) fun c2 _ => ?_
  refine Yields.bind (P := fun _ => True) (fun _ _ => trivial) fun _ _ => ?_
  exact yields_ok hk

end Source
end Horn
