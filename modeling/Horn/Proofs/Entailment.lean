import Horn.Proofs.Composition
import Horn.Proofs.FactBases

/-!
A bottom clause entails its example.  Giving every variable back the term that it stands for makes the
head the head of the example and every body atom one that was found, so the background clauses and the
facts of the example prove it.
-/

namespace Horn

/-! ## Undoing the naming -/

namespace Composition

variable {k : Composition} {t : Term} {v w : Var}

/-- The terms that have variables. -/
def terms (k : Composition) : List Term := (k.head :: k.body).flatMap fun f => f.inputs ++ f.outputs

theorem mem_terms : t ∈ k.terms ↔ k.Named t := by
  simp only [terms, Named, Finding.lifts_iff, List.mem_flatMap, List.mem_append]

/-- The term that a variable stands for. -/
def termOf (k : Composition) (v : Var) : Term :=
  (k.terms.find? fun t => k.name t == v).getD (.symbol "")

theorem termOf_name (ht : k.Named t) : k.termOf (k.name t) = t := by
  unfold termOf
  cases h : k.terms.find? fun u => k.name u == k.name t with
  | none => exact absurd (beq_self_eq_true (k.name t)) (List.find?_eq_none.1 h t (mem_terms.2 ht))
  | some u =>
    have hu := mem_terms.1 (List.mem_of_find?_eq_some h)
    exact name_inj hu ht (beq_iff_eq.1 (List.find?_some (p := fun u => k.name u == k.name t) h))

theorem termOf_spec (v : Var) : isGround (k.termOf v) = true ∧ (k.termOf v).isNormal = true := by
  unfold termOf
  cases h : k.terms.find? fun u => k.name u == v with
  | none => exact ⟨rfl, rfl⟩
  | some u =>
    obtain ⟨f, hf, hu⟩ := mem_terms.1 (List.mem_of_find?_eq_some h)
    exact (k.proper f hf).ground_of_lifts hu

/-- Every variable gets its term back. -/
def original (k : Composition) : Valuation := ⟨k.termOf, fun v => (termOf_spec v).2⟩

theorem original_atom {f : Finding} (hf : f ∈ k.head :: k.body) :
    k.original.apply (f.atom k.name) = f.fact :=
  (k.proper f hf).apply_atom fun _ ht => termOf_name ⟨f, hf, ht⟩

theorem original_inj (hv : v ∈ «variables» k.clause) (hw : w ∈ «variables» k.clause)
    (h : k.original.value v = k.original.value w) : v = w := by
  obtain ⟨t, ht, rfl⟩ := var_mem_clause.1 (mem_variables_iff.1 hv)
  obtain ⟨u, hu, rfl⟩ := var_mem_clause.1 (mem_variables_iff.1 hw)
  exact congrArg k.name ((termOf_name ht).symm.trans (h.trans (termOf_name hu)))

end Composition

/-! ## What proves the body -/

namespace BottomClause

/-- The facts of the example and the background are what saturation looks clauses up in. -/
theorem mem_clauses_lookupOf {c d : Clause} {background : LayeredStore} {facts : Store}
    (hfacts : Store.ofClauses (c.body.map Clause.fact) = .ok facts) :
    d ∈ (background.under .owned facts).clauses ↔
      d ∈ c.body.map Clause.fact ++ background.clauses := by
  rw [LayeredStore.mem_clauses_under, (Store.isFiled_empty.addAll hfacts).2, Store.clauses_empty,
    List.mem_append]
  simp

/-- Some ground terms for the variables, a different one for each, make the head of a bottom clause
the head of the example and its body atoms what background and example prove. -/
theorem ofExample_entails {c : Clause} {modes : ModeTable} {background : LayeredStore}
    {options : Options} {b : BottomClause} {p : Predicate} (hp : c.headPredicate = some p)
    (hground : isGround p = true) (hplain : ∀ d ∈ background.clauses, d.IsPlain)
    (h : ofExample c modes background options = .ok b) :
    ∃ θ : Valuation, (∀ v ∈ «variables» b.clause, isGround (θ.value v) = true) ∧
      (∀ v ∈ «variables» b.clause, ∀ w ∈ «variables» b.clause, θ.value v = θ.value w → v = w) ∧
      b.clause.head.map θ.apply = some (.predicate (Valuation.identity.apply p)) ∧
      (Normal p → b.clause.head.map θ.apply = c.head) ∧
      ∀ a ∈ b.clause.body,
        Proves (c.body.map Clause.fact ++ background.clauses) (θ.apply a) := by
  obtain ⟨m, facts, k, -, hfacts, -, hfact, hk⟩ := exists_composition hp hground h
  have hclauses : ∀ d ∈ (background.under .owned facts).clauses, d.IsPlain := by
    intro d hd
    rcases List.mem_append.1 ((mem_clauses_lookupOf hfacts).1 hd) with hd | hd
    · obtain ⟨a, -, rfl⟩ := List.mem_map.1 hd
      exact nofun
    · exact hplain d hd
  have hhead : k.original.apply (k.head.atom k.name) = Valuation.identity.apply p :=
    (Composition.original_atom List.mem_cons_self).trans hfact
  obtain rfl := hk.bottom
  have hheads : k.bottom.clause.head.map k.original.apply =
      some (.predicate (Valuation.identity.apply p)) :=
    congrArg (fun q => some (Atom.predicate q)) hhead
  refine ⟨k.original, fun v _ => (Composition.termOf_spec v).1,
    fun v hv w hw => Composition.original_inj hv hw, hheads, fun hn => ?_, fun a ha => ?_⟩
  · rw [hheads, Valuation.apply_of_normal hn, Clause.headPredicate_eq_some.1 hp]
  · obtain ⟨f, hf, rfl⟩ := List.mem_map.1 ha
    have hfound := Saturation.findings_spec (ground_start k) (hk.found f hf)
    have hproved := hfound.2 (background.under .owned facts).knowledge rfl hclauses
    rw [← Composition.original_atom (List.mem_cons_of_mem _ hf)] at hproved
    exact hproved.mono fun d => (mem_clauses_lookupOf hfacts).1

end BottomClause

/-! ## Samples -/

namespace Sample

def x : Term := .symbol "x"

def y : Term := .symbol "y"

/-- The head `p(x)`. -/
def head : Predicate := ⟨"p", [x]⟩

/-- An example for the head with some facts. -/
def clause (qs : List Predicate) : Clause := ⟨some (.predicate head), qs.map Atom.predicate⟩

/-- A mode whose arguments have the given signs. -/
def mode (kind : ModeKind) (name : String) (signs : List Sign) : Mode where
  kind := kind
  «recall» := .unbounded
  atom := ⟨name, signs.map fun sign => .placeholder ⟨sign, "t"⟩⟩
  closed := by
    refine List.eq_nil_iff_forall_not_mem.2 fun v hv => ?_
    obtain ⟨t, ht, hv⟩ := List.mem_flatMap.1 (mem_variables_iff.1 hv)
    obtain ⟨sign, -, rfl⟩ := List.mem_map.1 ht
    simp [HasTerms.subterms, Term.subterms] at hv

section

variable {qs : List Predicate}

theorem holds (hqs : ∀ q ∈ qs, isGround q = true ∧ Normal q) {facts : Store}
    (hfacts : Store.ofClauses ((clause qs).body.map Clause.fact) = .ok facts) :
    ((⟨[]⟩ : LayeredStore).under .owned facts).Holds qs := by
  have hheld := LayeredStore.Holds.empty.under hqs hfacts
  rwa [List.append_nil] at hheld

theorem exists_bottom (hplain : ∀ q ∈ qs, hasPlaceholders (Clause.fact (.predicate q)) = false)
    {modes : ModeTable} {sign : Sign}
    (hm : modes.headMode head.signature = .ok (mode .head "p" [sign])) (options : Options) :
    ∃ b, BottomClause.ofExample (clause qs) modes ⟨[]⟩ options = .ok b := by
  have haccepted : ∀ c ∈ (clause qs).body.map Clause.fact,
      c.headPredicate.isSome = true ∧ hasPlaceholders c = false := by
    intro c hc
    obtain ⟨a, ha, rfl⟩ := List.mem_map.1 hc
    obtain ⟨q, hq, rfl⟩ := List.mem_map.1 ha
    exact ⟨rfl, hplain q hq⟩
  obtain ⟨facts, hfacts⟩ := Store.exists_addAll .empty haccepted
  let θ : Valuation := ⟨fun _ => x, fun _ => rfl⟩
  have htemplate : Normal ((mode .head "p" [sign]).headTemplate head).atom :=
    List.forall_mem_singleton.2 rfl
  obtain ⟨r, hr⟩ := Saturation.exists_liftHead (θ := θ) (by decide) htemplate rfl
  exact BottomClause.exists_ofExample rfl hm hfacts hr

/-- The term of the head. -/
theorem terms_head {k : Composition} {sign : Sign}
    (htemplate : k.head.template = (mode .head "p" [sign]).headTemplate head)
    (hfact : k.head.fact = Valuation.identity.apply head) : k.head.terms = [x] := by
  have hflat := (k.proper k.head List.mem_cons_self).fact_of_flat (by rw [htemplate]; rfl)
  exact congrArg Predicate.args (hflat.symm.trans hfact)

end

theorem inputs_head {k : Composition} {sign : Sign}
    (htemplate : k.head.template = (mode .head "p" [sign]).headTemplate head)
    (hfact : k.head.fact = Valuation.identity.apply head) :
    k.head.inputs = if sign = .input then [x] else [] := by
  have hhead : k.head = ⟨(mode .head "p" [sign]).headTemplate head, [x]⟩ := by
    rw [← htemplate, ← terms_head htemplate hfact]
  rw [hhead]
  cases sign <;> rfl

/-- Leads from a term to another one. -/
def next : Mode := mode .body "q" [.input, .output]

/-- Takes two terms. -/
def pair : Mode := mode .body "r" [.input, .input]

def modes : ModeTable := ⟨[mode .head "p" [.input], next, pair], []⟩

/-- The facts `q(x, y)` and `r(x, y)`. -/
def facts : List Predicate := [⟨"q", [x, y]⟩, ⟨"r", [x, y]⟩]

theorem ground_facts : ∀ q ∈ facts, isGround q = true ∧ Normal q := by decide

theorem exists_bottom_facts : ∃ b, BottomClause.ofExample (clause facts) modes ⟨[]⟩ .default = .ok b :=
  exists_bottom (by decide) rfl .default

/-- The bottom clause for the facts has a body, and what its variables stand for proves it. -/
theorem ofExample_entails_facts :
    (clause facts).headPredicate = some head ∧ isGround head = true ∧
      (∀ d ∈ (⟨[]⟩ : LayeredStore).clauses, d.IsPlain) ∧
      ∃ b, BottomClause.ofExample (clause facts) modes ⟨[]⟩ .default = .ok b ∧ b.clause.body ≠ [] ∧
        ∃ θ : Valuation, (∀ v ∈ «variables» b.clause, isGround (θ.value v) = true) ∧
          (∀ v ∈ «variables» b.clause, ∀ w ∈ «variables» b.clause, θ.value v = θ.value w → v = w) ∧
          b.clause.head.map θ.apply = some (.predicate (Valuation.identity.apply head)) ∧
          (Normal head → b.clause.head.map θ.apply = (clause facts).head) ∧
          ∀ a ∈ b.clause.body, Proves ((clause facts).body.map Clause.fact ++ []) (θ.apply a) := by
  obtain ⟨b, hb⟩ := exists_bottom_facts
  refine ⟨rfl, rfl, List.forall_mem_nil _, b, hb, ?_,
    BottomClause.ofExample_entails rfl rfl (List.forall_mem_nil _) hb⟩
  obtain ⟨m, stored, k, hm, hstored, htemplate, hfact, hk⟩ :=
    BottomClause.exists_composition (p := head) rfl rfl hb
  obtain rfl : mode .head "p" [.input] = m := Except.ok.inj hm
  have hheld := holds ground_facts hstored
  have hstart : BottomClause.start k = [x] := by
    rw [BottomClause.start, inputs_head htemplate hfact]
    rfl
  have hfinding : ⟨next.template, [x, y]⟩ ∈
      next.findings (BottomClause.lookupOf ⟨[]⟩ stored) .default (BottomClause.start k) := by
    rw [hstart]
    exact (next.mem_findings_flat (hheld.holdsFor _) (by decide) rfl (by decide) (by decide) (by decide)).2
      ⟨rfl, rfl, by decide, by decide⟩
  obtain ⟨g, hg, -⟩ := hk.recorded _ <| Saturation.mem_findings.2 ⟨0, Nat.zero_lt_two,
    Saturation.mem_round.2 ⟨_, List.mem_cons_self, hfinding⟩⟩
  obtain rfl := hk.bottom
  exact List.map_eq_nil_iff.not.2 (List.ne_nil_of_mem hg)

end Sample
end Horn
