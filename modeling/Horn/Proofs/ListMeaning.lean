import Horn.Proofs.Productions
import Horn.Proofs.Freshness
import Horn.Proofs.Statements
import Horn.Proofs.TextIdentity

/-!
List normal form and what it is for.  A list denotes a chain of cells that ends in nothing or in what its
tail denotes, however it is written; in normal form it is written in one way, so that terms which denote
the same are the same term.  The grammar and the substitutions keep to the normal form, from whatever
texts and terms they start.
-/

namespace Horn

/-! ## The normal form -/

/-- A term is in list normal form when every tail in it stands after at least one item and is no list. -/
theorem Term.isNormal_iff_tails {t : Term} : t.isNormal = true ↔
    ∀ items u, Term.list items (some u) ∈ t.subterms → items ≠ [] ∧ u.asList = none := by
  constructor
  · intro ht items u hu
    have hlist := isNormal_list.1 (isNormal_of_mem_subterms ht hu)
    exact ⟨(hlist.2 u rfl).1, (hlist.2 u rfl).2.1⟩
  · intro h
    induction t using Term.induct with
    | const c => rfl
    | var v => rfl
    | placeholder p => rfl
    | compound f args ih =>
      rw [isNormal, allNormal_iff]
      refine fun t ht => ih t ht fun items u hu => h items u ?_
      exact List.mem_cons_of_mem _ (mem_subtermsAll.2 ⟨t, ht, hu⟩)
    | list xs s ihitems ihtail =>
      have hbelow {t : Term} (ht : t ∈ subtermsAll xs ++ subtermsTail s) :
          t ∈ (Term.list xs s).subterms := List.mem_cons_of_mem _ ht
      refine isNormal_list.2 ⟨fun t ht => ihitems t ht fun items u hu => h items u ?_, ?_⟩
      · exact hbelow (List.mem_append_left _ (mem_subtermsAll.2 ⟨t, ht, hu⟩))
      · rintro t rfl
        obtain ⟨hne, htail⟩ := h xs t (self_mem_subterms _)
        refine ⟨hne, htail, ihtail t rfl fun items u hu => h items u ?_⟩
        exact hbelow (List.mem_append_right _ hu)

/-! ## Chains of cells -/

/-- What terms denote: lists are chains of cells, whatever they are written like. -/
inductive Cell where
  | const (c : Constant)
  | var (v : Var)
  | compound (functor : String) (args : List Cell)
  | placeholder (p : Placeholder)
  | nil
  | cons (first rest : Cell)

namespace Cell

def isChain : Cell → Bool
  | .nil | .cons _ _ => true
  | _ => false

/-- The chain of the given cells before an end. -/
def chain (items : List Cell) (last : Cell) : Cell := items.foldr .cons last

theorem chain_append (xs ys : List Cell) (last : Cell) :
    chain (xs ++ ys) last = chain xs (chain ys last) :=
  List.foldr_append

/-- Chains whose ends are no cells that go on have the same items and the same end. -/
theorem chain_inj {xs ys : List Cell} {a b : Cell} (ha : ∀ first rest, a ≠ .cons first rest)
    (hb : ∀ first rest, b ≠ .cons first rest) (h : chain xs a = chain ys b) : xs = ys ∧ a = b := by
  induction xs generalizing ys with
  | nil =>
    cases ys with
    | nil => exact ⟨rfl, h⟩
    | cons y ys => exact absurd h (ha _ _)
  | cons x xs ih =>
    cases ys with
    | nil => exact absurd h.symm (hb _ _)
    | cons y ys =>
      obtain ⟨hfirst, hrest⟩ := Cell.cons.inj h
      obtain ⟨hitems, hends⟩ := ih hrest
      exact ⟨congrArg₂ List.cons hfirst hitems, hends⟩

end Cell

namespace Term

mutual
/-- What a term denotes. -/
def meaning : Term → Cell
  | .const c => .const c
  | .var v => .var v
  | .compound f args => .compound f (meaningAll args)
  | .list items tail => .chain (meaningAll items) (meaningTail tail)
  | .placeholder p => .placeholder p

def meaningAll : List Term → List Cell
  | [] => []
  | t :: rest => meaning t :: meaningAll rest

/-- The end of the chain of a list. -/
def meaningTail : Option Term → Cell
  | none => .nil
  | some t => meaning t
end

theorem meaningAll_eq_map (ts : List Term) : meaningAll ts = ts.map meaning := by
  induction ts with
  | nil => rfl
  | cons t ts ih => rw [meaningAll, ih, List.map_cons]

theorem meaning_compound (f : String) (args : List Term) :
    (compound f args).meaning = .compound f (args.map meaning) := by
  rw [meaning, meaningAll_eq_map]

theorem meaning_list (items : List Term) (tail : Option Term) :
    (list items tail).meaning = .chain (items.map meaning) (meaningTail tail) := by
  rw [meaning, meaningAll_eq_map]

/-- Putting a list into normal form does not change what it denotes. -/
theorem meaning_listOf (items : List Term) (tail : Option Term) :
    (listOf items tail).meaning = (list items tail).meaning := by
  fun_induction listOf items tail with
  | case1 items => rfl
  | case2 items rest tail ih =>
    rw [ih, meaning_list, meaning_list, meaningTail, meaning_list, List.map_append,
      Cell.chain_append]
  | case3 items t _ h =>
    have hnil : items = [] := by simpa using h
    rw [hnil]
    rfl
  | case4 items t _ h => rfl

/-- Nor does putting every list in a term into normal form. -/
theorem meaning_normalised (t : Term) : (instantiate .var t).meaning = t.meaning := by
  induction t using Term.induct with
  | const c => rfl
  | var v => rfl
  | placeholder p => rfl
  | compound f args ih =>
    rw [instantiate_compound, meaning_compound, meaning_compound, List.map_map]
    exact congrArg _ (List.map_congr_left ih)
  | list items tail ihitems ihtail =>
    have hitems : (items.map (instantiate .var)).map meaning = items.map meaning := by
      rw [List.map_map]
      exact List.map_congr_left ihitems
    have htail : meaningTail (tail.map (instantiate .var)) = meaningTail tail := by
      cases tail with
      | none => rfl
      | some t => exact ihtail t rfl
    rw [instantiate_list, meaning_listOf, meaning_list, meaning_list, hitems, htail]

/-- In normal form just the lists denote chains. -/
theorem isChain_meaning {t : Term} (ht : t.isNormal = true) :
    t.meaning.isChain = t.asList.isSome := by
  cases t with
  | list items tail =>
    rw [meaning_list]
    cases items with
    | cons t ts => rfl
    | nil =>
      cases tail with
      | none => rfl
      | some u => exact absurd rfl ((isNormal_list.1 ht).2 u rfl).1
  | _ => rfl

/-- The end of a list in normal form is no cell that goes on. -/
theorem meaningTail_ne_cons {items : List Term} {tail : Option Term}
    (h : (list items tail).isNormal = true) (first rest : Cell) :
    meaningTail tail ≠ .cons first rest := by
  intro hcons
  cases tail with
  | none => cases hcons
  | some t =>
    obtain ⟨-, hlist, ht⟩ := (isNormal_list.1 h).2 t rfl
    have hchain := isChain_meaning ht
    rw [hlist, show t.meaning = .cons first rest from hcons] at hchain
    cases hchain

/-- Terms that are told apart by what they denote are told apart item by item. -/
theorem map_meaning_inj {xs ys : List Term} (h : xs.map meaning = ys.map meaning)
    (hys : ∀ u ∈ ys, u.isNormal = true)
    (ih : ∀ t ∈ xs, ∀ u : Term, u.isNormal = true → t.meaning = u.meaning → t = u) : xs = ys := by
  induction xs generalizing ys with
  | nil => exact (List.map_eq_nil_iff.1 h.symm).symm
  | cons x xs ihxs =>
    obtain ⟨y, ys', rfl, hfirst, hrest⟩ := List.map_eq_cons_iff.1 h.symm
    obtain ⟨hy, hys⟩ := List.forall_mem_cons.1 hys
    obtain ⟨ihx, ihrest⟩ := List.forall_mem_cons.1 ih
    rw [ihx y hy hfirst.symm, ihxs hrest.symm hys ihrest]

theorem meaningTail_inj {xs ys : List Term} {u w : Option Term} (hu : (list xs u).isNormal = true)
    (hw : (list ys w).isNormal = true) (h : meaningTail u = meaningTail w)
    (ih : ∀ t, u = some t → ∀ t' : Term, t'.isNormal = true → t.meaning = t'.meaning → t = t') :
    u = w := by
  have hend {items : List Term} {t : Term} (ht : (list items (some t)).isNormal = true) :
      t.meaning ≠ .nil := by
    intro hnil
    obtain ⟨-, hlist, ht⟩ := (isNormal_list.1 ht).2 t rfl
    have hchain := isChain_meaning ht
    rw [hlist, hnil] at hchain
    cases hchain
  cases u with
  | none =>
    cases w with
    | none => rfl
    | some t => exact absurd h.symm (hend hw)
  | some t =>
    cases w with
    | none => exact absurd h (hend hu)
    | some t' => rw [ih t rfl t' (isNormal_tail hw) h]

/-- Terms in normal form that denote the same are the same. -/
theorem meaning_inj {s t : Term} (hs : s.isNormal = true) (ht : t.isNormal = true)
    (h : s.meaning = t.meaning) : s = t := by
  induction s using Term.induct generalizing t with
  | list xs u ihitems ihtail =>
    have hlist : t.asList.isSome = true := by
      rw [← isChain_meaning ht, ← h, isChain_meaning hs]
      rfl
    obtain ⟨ys, w, rfl⟩ : ∃ ys w, t = .list ys w := by
      cases t with
      | list ys w => exact ⟨ys, w, rfl⟩
      | _ => cases hlist
    rw [meaning_list, meaning_list] at h
    obtain ⟨hitems, hends⟩ :=
      Cell.chain_inj (meaningTail_ne_cons hs) (meaningTail_ne_cons ht) h
    have hsame : xs = ys := map_meaning_inj hitems (fun _ => isNormal_items ht)
      fun t hmem _ => ihitems t hmem (isNormal_items hs hmem)
    rw [hsame, meaningTail_inj hs ht hends fun t hu _ => ihtail t hu (isNormal_tail (hu ▸ hs))]
  | compound f args ih =>
    have hlist : t.asList.isSome = false := by
      rw [← isChain_meaning ht, ← h, isChain_meaning hs]
      rfl
    rw [meaning_compound] at h
    cases t with
    | compound g args' =>
      rw [meaning_compound] at h
      obtain ⟨rfl, hargs⟩ := Cell.compound.inj h
      rw [map_meaning_inj hargs (fun _ => isNormal_args ht)
        fun t hmem _ => ih t hmem (isNormal_args hs hmem)]
    | list ys w => cases hlist
    | _ => cases h
  | _ =>
    have hlist : t.asList.isSome = false := by
      rw [← isChain_meaning ht, ← h, isChain_meaning hs]
      rfl
    cases t with
    | list ys w => cases hlist
    | _ => cases h <;> rfl

end Term

theorem Substitution.meaning_apply_empty (t : Term) :
    (Substitution.empty.apply t).meaning = t.meaning := by
  rw [apply_eq_instantiate]
  exact t.meaning_normalised

/-! ## What the grammar reads -/

namespace Source

/-- What is read from the start of a text goes on from there. -/
theorem of_reading {α : Type} {P : α → Prop} {read : Cursor → Except Fault α} {s : String} {a : α}
    (hread : ∀ c, c.Follows c → Yields (read c) P) (h : reading s read = .ok a) : P a := by
  obtain ⟨c, hstart, hc⟩ := exists_start_of_reading h
  exact hread c (.refl (Cursor.settled_start hstart).2) a hc

theorem isNormal_statements {b : Cursor} (c : Cursor) (hc : b.Follows c) :
    Yields (statements c) fun ss => ∀ s ∈ ss, s.IsNormal := by
  rw [statements]
  split
  · exact yields_ok (List.forall_mem_nil _)
  · refine (advances_statement hc).bind fun s c1 h1 hs hc1 => ?_
    refine (isNormal_statements c1 hc1).bind fun ss hss => ?_
    exact yields_ok (List.forall_mem_cons.2 ⟨hs, hss⟩)
termination_by c.size

theorem isNormal_of_parseStatements {source : String} {ss : List Statement}
    (h : parseStatements source = .ok ss) : ∀ s ∈ ss, s.IsNormal :=
  of_reading (P := fun ss => ∀ s ∈ ss, s.IsNormal) (fun c hc => isNormal_statements c hc) h

theorem follows_skipToken {b c : Cursor} (hc : b.Follows c) (t : Token) :
    Yields (skipToken c t) b.Follows := by
  refine Yields.bind (hc.acceptToken t) fun o ho => yields_ok ?_
  cases o with
  | none => exact hc
  | some p => exact (ho p rfl).2

theorem yields_true {α : Type} (r : Except Fault α) : Yields r fun _ => True := fun _ _ => trivial

theorem normal_of_parseGoal {source : String} {g : Goal} (h : parseGoal source = .ok g) : Normal g := by
  refine of_reading (P := Normal) (fun c hc => ?_) h
  refine (follows_skipToken hc .query).bind fun c1 hc1 => ?_
  refine (advancesLiterals c1 hc1).literals.bind fun g c2 h2 hg _ => ?_
  exact (yields_true _).bind fun c3 _ => (yields_true _).bind fun _ _ => yields_ok hg

end Source

/-- Every term in what the grammar reads is in list normal form, and so is everything that a substitution
built by its operations holds or makes, also out of terms that are not.  In that form terms are equal just
when they denote the same; and out of it, just when they become the same in it. -/
theorem listNormalForm_preserved :
    (∀ source ss, Source.parseStatements source = .ok ss → ∀ s ∈ ss, s.IsNormal) ∧
    (∀ source g, Source.parseGoal source = .ok g → Normal g) ∧
    (∀ source c, Source.parseClause source = .ok c → Normal c) ∧
    (∀ σ : Substitution, σ.Reachable →
      (∀ v t, σ.lookup v = some t → t.isNormal = true) ∧
      ∀ (α : Type) [HasTerms α] [LawfulTerms α] (x : α), Normal (σ.apply x) ∧
        ∀ ρ, Normal (σ.rename ρ x).1 ∧ ∀ y, Substitution.renameKnown ρ x = .ok y → Normal y) ∧
    (∀ s t : Term, s.isNormal = true → t.isNormal = true → (s = t ↔ s.meaning = t.meaning)) ∧
    ∀ s t : Term, s.meaning = t.meaning ↔ Substitution.empty.apply s = Substitution.empty.apply t := by
  have hequal (s t : Term) (hs : s.isNormal = true) (ht : t.isNormal = true) :
      s = t ↔ s.meaning = t.meaning := ⟨fun h => h ▸ rfl, Term.meaning_inj hs ht⟩
  refine ⟨fun _ _ => Source.isNormal_of_parseStatements, fun _ _ => Source.normal_of_parseGoal,
    fun _ _ => normal_of_parseClause, fun σ hσ => ⟨?_, fun α _ _ x => ⟨?_, fun ρ => ⟨?_, ?_⟩⟩⟩,
    hequal, fun s t => ?_⟩
  · exact Substitution.isNormal_iff.1 hσ.isNormal
  · rw [← Substitution.valuation_apply hσ.isNormal]
    exact Valuation.normal_apply _ x
  · exact Renaming.normal_apply _ x
  · intro y hy
    unfold Substitution.renameKnown at hy
    split at hy
    · cases hy
    · exact Except.ok.inj hy ▸ Renaming.normal_apply ρ x
  · rw [hequal _ _ (Substitution.isNormal_apply Substitution.isNormal_empty s)
      (Substitution.isNormal_apply Substitution.isNormal_empty t), Substitution.meaning_apply_empty,
      Substitution.meaning_apply_empty]

namespace Sample

/-- The term `[|[x|T]]`, a tail without items before a list with a tail. -/
def looseList (x : String) (tail : Option Term) : Term := .list [] (some (.list [.symbol x] tail))

theorem instantiate_looseList (θ : Var → Term) (x : String) (tail : Option Term) :
    instantiate θ (looseList x tail) =
      Term.listOf [] (some (Term.listOf [.symbol x] (tail.map (instantiate θ)))) := by
  rw [looseList, Term.instantiate_list, Option.map_some, Term.instantiate_list]
  rfl

theorem exists_bind_looseList : ∃ σ : Substitution,
    Substitution.empty.bind (.named "T") (looseList "b" none) = .ok σ ∧
    σ.apply (looseList "a" (some (.var (.named "T")))) = .list [.symbol "a", .symbol "b"] none := by
  have hvalue : Substitution.empty.apply (looseList "b" none) = .list [.symbol "b"] none := by
    rw [Substitution.apply_eq_instantiate, instantiate_looseList]
    simp [Term.listOf]
  have hfree : (Substitution.empty.apply (looseList "b" none)).occurs (.named "T") = false := by
    rw [hvalue]
    decide
  refine ⟨Substitution.empty.extend (.named "T") (Substitution.empty.apply (looseList "b" none))
    (fun _ => Substitution.empty.unbound_of_occurs_apply) hfree, ?_, ?_⟩
  · have hunbound : Substitution.empty.bindings[Var.named "T"]? = none := by decide +kernel
    rw [Substitution.bind, hunbound]
    show (if _ then _ else dite _ _ _) = _
    rw [if_neg (by rw [hvalue]; exact Term.noConfusion), dif_neg (by rw [hfree]; decide)]
  · rw [Substitution.apply_eq_instantiate, instantiate_looseList, Option.map_some,
      Term.instantiate_var, Substitution.valueOf_extend, if_pos rfl, hvalue]
    simp [Term.listOf]

/-- The fact `p([x|T])`. -/
def openFact (x : String) : Clause :=
  .fact (.predicate ⟨"p", [.list [.symbol x] (some (.var (.named "T")))]⟩)

theorem parseStatements_openFact : Source.parseStatements
    (String.join ([((openFact "a").text, Statement.clause (openFact "a"))].map fun p => p.1 ++ ".\n")) =
      .ok [.clause (openFact "a")] := by
  have hlegible : (openFact "a").IsLegible := ⟨by decide, by decide, by decide, by decide⟩
  have hself : Source.readBack (openFact "a") = openFact "a" := by
    rw [readBack_eq_relabel (by decide)]
    decide
  have hdenotes : Source.Denotes (openFact "a").text (.clause (openFact "a")) := by
    have h := Source.denotes_clause hlegible rfl
    rwa [hself] at h
  exact Source.parseStatements_join (List.forall_mem_singleton.2 hdenotes)

/-- The value `[|[b]]` of `T` is bound as `[b]`, and `[|[a|T]]` becomes `[a, b]`. -/
theorem listNormalForm_preserved_looseList :
    Statement.IsNormal (.clause (openFact "a")) ∧
    (∃ σ : Substitution, Substitution.empty.bind (.named "T") (looseList "b" none) = .ok σ ∧
      (∀ t, σ.lookup (.named "T") = some t → t.isNormal = true) ∧
      Normal (σ.apply (looseList "a" (some (.var (.named "T")))))) ∧
    Substitution.empty.apply (looseList "a" none) =
      Substitution.empty.apply (.list [.symbol "a"] none) := by
  obtain ⟨hread, -, -, hkeep, -, hsame⟩ := listNormalForm_preserved
  obtain ⟨σ, hσ, -⟩ := exists_bind_looseList
  obtain ⟨hvalues, hforms⟩ := hkeep σ (.bind .empty hσ)
  refine ⟨hread _ _ parseStatements_openFact _ List.mem_cons_self, ⟨σ, hσ, hvalues _, ?_⟩, ?_⟩
  · exact (hforms Term (looseList "a" (some (.var (.named "T"))))).1
  · exact (hsame _ _).1 rfl

end Sample
end Horn
