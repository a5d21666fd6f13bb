import Horn.Proofs.FactBases
import Horn.Proofs.Flattening
import Horn.Proofs.SingleAnswers
import Horn.Proofs.VariantSearch

/-!
Goals with a name.  A clause whose body is a goal and whose head lists the variables of the goal stands
for the goal: calling it costs one step, after which the same is left to do as for the goal itself.  The
head's variables are renamed apart and bound to those of the call, so the goal is searched under other
names, in front of a call that has no clauses left.  The stack of branches and the frames of literals
are the same search, so what is a body to one and a conjunction to the other has the same answers.
-/

namespace Horn

/-! ## Adding a clause -/

namespace Knowledge

/-- One more clause: added to a store, to the first of several layers, or in a new layer in front. -/
inductive Adds (c : Clause) : Knowledge → Knowledge → Prop where
  | store {s t : Store} {isNew : Bool} (hs : s.Reachable) (h : s.add c = .ok (isNew, t)) :
    Adds c s.knowledge t.knowledge
  | layers {s t : LayeredStore} {isNew : Bool} (hs : ∀ l ∈ s.layers, l.store.Reachable)
      (h : s.add c = .ok (isNew, t)) : Adds c s.knowledge t.knowledge
  | inFront {s : LayeredStore} {own : Ownership} {first : Store}
      (hs : ∀ l ∈ s.layers, l.store.Reachable) (hfirst : first.Reachable) (h : first.clauses = [c]) :
    Adds c s.knowledge (s.under own first).knowledge

end Knowledge

namespace Store

variable {s t : Store} {c : Clause} {isNew : Bool}

/-- The other clauses are the same as before, in the same order. -/
theorem IsFiled.filter_add (h : s.IsFiled) (ht : s.add c = .ok (isNew, t)) {keep : Clause → Bool}
    (hc : keep c = false) : t.clauses.filter keep = s.clauses.filter keep := by
  obtain ⟨head, -, -, ⟨-, rfl⟩ | ⟨-, rfl⟩⟩ := add_cases ht
  · rfl
  · rw [h.clauses_insertNew, List.filter_append, List.filter_singleton, hc]
    exact List.append_nil _

end Store

namespace LayeredStore

variable {s t : LayeredStore} {c : Clause} {isNew : Bool}

theorem add_cases (h : s.add c = .ok (isNew, t)) :
    ∃ l rest first, s = ⟨l :: rest⟩ ∧ l.store.add c = .ok (isNew, first) ∧
      t = ⟨{ l with store := first } :: rest⟩ := by
  obtain ⟨layers⟩ := s
  unfold add tryAdd at h
  dsimp only at h
  split at h
  · cases h
  · rename_i l rest
    split at h
    · cases htry : l.store.tryAdd c with
      | mk answer first =>
        rw [htry] at h
        obtain ⟨isNew', hanswer, hpair⟩ := exists_of_map_eq_ok h
        obtain ⟨rfl, rfl⟩ := Prod.mk.inj hpair
        refine ⟨l, rest, first, rfl, ?_, rfl⟩
        dsimp only at hanswer
        rw [Store.add, htry, hanswer]
        rfl
    · cases h

theorem IsFiled.add (hs : s.IsFiled) (h : s.add c = .ok (isNew, t)) : t.IsFiled := by
  obtain ⟨l, rest, first, rfl, hadd, rfl⟩ := add_cases h
  obtain ⟨hl, hrest⟩ := List.forall_mem_cons.1 hs
  exact List.forall_mem_cons.2 ⟨hl.add hadd, hrest⟩

theorem IsFiled.mem_add (hs : s.IsFiled) (h : s.add c = .ok (isNew, t)) : c ∈ t.clauses := by
  obtain ⟨l, rest, first, rfl, hadd, rfl⟩ := add_cases h
  have hc : c ∈ first.clauses := ((hs l List.mem_cons_self).mem_clauses_add hadd).2 (.inl rfl)
  exact mem_union.2 ⟨_, List.mem_cons_self, hc⟩

theorem IsFiled.filter_add (hs : s.IsFiled) (h : s.add c = .ok (isNew, t)) {keep : Clause → Bool}
    (hc : keep c = false) : t.clauses.filter keep = s.clauses.filter keep := by
  obtain ⟨l, rest, first, rfl, hadd, rfl⟩ := add_cases h
  have hfirst := (hs l List.mem_cons_self).filter_add hadd hc
  rw [clauses, clauses, union, union, ← eraseDups_filter, ← eraseDups_filter, List.flatMap_cons,
    List.flatMap_cons, List.filter_append, List.filter_append, hfirst]

theorem filter_under {own : Ownership} {first : Store} (h : first.clauses = [c])
    {keep : Clause → Bool} (hc : keep c = false) :
    (s.under own first).clauses.filter keep = s.clauses.filter keep := by
  have hnone : [c].filter keep = [] := by rw [List.filter_singleton, hc]; rfl
  rw [clauses, clauses, union, union, ← eraseDups_filter, ← eraseDups_filter, under,
    List.flatMap_cons, List.flatMap_map, h, List.filter_append, hnone, List.nil_append]

end LayeredStore

namespace Knowledge

variable {c : Clause} {k k' : Knowledge}

theorem Adds.lookup_eq (h : Adds c k k') :
    k.lookup = matching k.clauses ∧ k'.lookup = matching k'.clauses := by
  cases h with
  | store hs h => exact ⟨funext hs.isFiled.candidates_eq, funext (hs.add h).isFiled.candidates_eq⟩
  | layers hs h =>
    have hs := fun l hl => (hs l hl).isFiled
    exact ⟨funext (LayeredStore.IsFiled.candidates_eq hs),
      funext (LayeredStore.IsFiled.add hs h).candidates_eq⟩
  | inFront hs hfirst h =>
    have hs := fun l hl => (hs l hl).isFiled
    exact ⟨funext (LayeredStore.IsFiled.candidates_eq hs),
      funext (LayeredStore.IsFiled.under hs _ hfirst.isFiled).candidates_eq⟩

theorem Adds.mem (h : Adds c k k') : c ∈ k'.clauses := by
  cases h with
  | store hs h => exact (hs.isFiled.mem_clauses_add h).2 (.inl rfl)
  | layers hs h => exact LayeredStore.IsFiled.mem_add (fun l hl => (hs l hl).isFiled) h
  | inFront hs hfirst h =>
    refine LayeredStore.mem_clauses_under.2 (.inl ?_)
    rw [h]
    exact List.mem_singleton_self c

theorem Adds.nodup (h : Adds c k k') : k'.clauses.Nodup := by
  cases h with
  | store hs h => exact (hs.add h).isFiled.nodup_clauses
  | layers hs h => exact LayeredStore.nodup_clauses _
  | inFront hs hfirst h => exact LayeredStore.nodup_clauses _

/-- The other clauses are the same as before, in the same order. -/
theorem Adds.filter (h : Adds c k k') {keep : Clause → Bool} (hc : keep c = false) :
    k'.clauses.filter keep = k.clauses.filter keep := by
  cases h with
  | store hs h => exact hs.isFiled.filter_add h hc
  | layers hs h => exact LayeredStore.IsFiled.filter_add (fun l hl => (hs l hl).isFiled) h hc
  | inFront hs hfirst h => exact LayeredStore.filter_under h hc

/-- Calls that the clause does not fit find what they found before. -/
theorem Adds.lookup_other (h : Adds c k k') {p : Predicate}
    (hp : c.headPredicate.any (·.agrees p) = false) : k'.lookup p = k.lookup p := by
  rw [h.lookup_eq.1, h.lookup_eq.2]
  exact h.filter hp

/-- A call that no other clause fits finds this one. -/
theorem Adds.lookup_only (h : Adds c k k') {p : Predicate}
    (hp : c.headPredicate.any (·.agrees p) = true)
    (hothers : ∀ d ∈ k.clauses, d.headPredicate.any (·.agrees p) = false) : k'.lookup p = [c] := by
  have honly : ∀ d ∈ k'.lookup p, d = c := by
    intro d hd
    rw [h.lookup_eq.2] at hd
    obtain ⟨hmem, hagrees⟩ := List.mem_filter.1 hd
    by_contra hne
    -- another clause was there before
    have hold : d ∈ k'.clauses.filter (· != c) := List.mem_filter.2 ⟨hmem, by simpa using hne⟩
    rw [h.filter (by simp)] at hold
    rw [hothers d (List.mem_filter.1 hold).1] at hagrees
    cases hagrees
  have hnodup : (k'.lookup p).Nodup := by
    rw [h.lookup_eq.2]
    exact h.nodup.filter _
  have hmem : c ∈ k'.lookup p := by
    rw [h.lookup_eq.2]
    exact List.mem_filter.2 ⟨h.mem, hp⟩
  obtain ⟨n, hn⟩ : ∃ n, k'.lookup p = List.replicate n c := ⟨_, List.eq_replicate_of_mem honly⟩
  rw [hn] at hnodup hmem ⊢
  have hpos : 0 < n := by simpa using List.length_pos_of_mem hmem
  have hle : n ≤ 1 := List.nodup_replicate.1 hnodup
  rw [show n = 1 by omega, List.replicate_one]

end Knowledge

/-! ## Calling a named goal -/

namespace Substitution

variable {σ τ : Substitution}

/-- Of two different variables without values the right one gets the left one. -/
theorem step_unbound {v w : Var} (hv : σ.valueOf v = .var v) (hw : σ.valueOf w = .var w)
    (hne : v ≠ w) : ∃ τ, σ.step (.var v) (.var w) = .ok (τ, []) ∧
      ∀ x, τ.valueOf x = if x = w then .var v else replaceIn w (.var v) (σ.valueOf x) := by
  have happly : σ.apply (Term.var v) = .var v := hv
  have hstep : σ.step (.var v) (.var w) = (σ.bindUnbound w (.var v)).map fun τ => (τ, []) := by
    show σ.stepResolved (σ.valueOf v) (σ.valueOf w) = _
    rw [hv, hw]
    rfl
  have hoccurs : ¬ (σ.apply (Term.var v)).occurs w = true := by
    rw [happly]
    simpa [Term.occurs] using hne
  have hself : ¬ σ.apply (Term.var v) = .var w := by
    rw [happly]
    exact fun h => hne (Term.var.inj h)
  rw [hstep, bindUnbound, if_neg hself, dif_neg hoccurs]
  refine ⟨_, rfl, fun x => ?_⟩
  rw [valueOf_extend, happly]

/-- Variables are unified with new ones: these get the values, and nothing else changes. -/
theorem solve_fresh {W : Var → Var} {vs : List Var} (hW : (vs.map W).Nodup)
    (hfree : ∀ v ∈ vs, σ.valueOf v = .var v ∧ σ.valueOf (W v) = .var (W v))
    (hapart : ∀ v ∈ vs, ∀ u ∈ vs, v ≠ W u) :
    ∃ τ, σ.solve (vs.map fun v => .equal (.var v) (.var (W v))) = .ok τ ∧
      (∀ v ∈ vs, τ.valueOf (W v) = .var v) ∧
      ∀ x, (∀ v ∈ vs, x ≠ W v ∧ (σ.valueOf x).occurs (W v) = false) → τ.valueOf x = σ.valueOf x := by
  induction vs generalizing σ with
  | nil => exact ⟨σ, by rw [List.map_nil, solve], nofun, fun x _ => rfl⟩
  | cons v vs ih =>
    have hvar : ∀ {x y : Var}, x ≠ y → (Term.var x).occurs y = false := by
      intro x y hne
      simpa [Term.occurs] using hne
    obtain ⟨⟨hv, hWv⟩, hfree⟩ := List.forall_mem_cons.1 hfree
    obtain ⟨hnew, hW⟩ := List.nodup_cons.1 hW
    have hWne : ∀ u ∈ vs, W u ≠ W v := fun u hu heq => hnew (heq ▸ List.mem_map_of_mem hu)
    have hu : ∀ u ∈ vs, u ∈ v :: vs := fun u hu => List.mem_cons_of_mem v hu
    obtain ⟨ρ, hstep, hρ⟩ := step_unbound hv hWv (hapart v List.mem_cons_self v List.mem_cons_self)
    have hkept : ∀ x, x ≠ W v → (σ.valueOf x).occurs (W v) = false → ρ.valueOf x = σ.valueOf x := by
      intro x hx hoccurs
      rw [hρ, if_neg hx, replaceIn_of_not_occurs hoccurs]
    have hfreeρ : ∀ u ∈ vs, ρ.valueOf u = .var u ∧ ρ.valueOf (W u) = .var (W u) := by
      intro u hmem
      obtain ⟨hσ, hσW⟩ := hfree u hmem
      have hne := hapart u (hu u hmem) v List.mem_cons_self
      rw [hkept u hne (hσ ▸ hvar hne), hkept (W u) (hWne u hmem) (hσW ▸ hvar (hWne u hmem))]
      exact ⟨hσ, hσW⟩
    obtain ⟨τ, hsolve, hvalues, hothers⟩ :=
      ih hW hfreeρ fun u hmem w hw => hapart u (hu u hmem) w (hu w hw)
    refine ⟨τ, (solve_equal hstep _).trans hsolve, List.forall_mem_cons.2 ⟨?_, hvalues⟩, ?_⟩
    · have hvalue : ρ.valueOf (W v) = .var v := (hρ (W v)).trans (if_pos rfl)
      rw [hothers (W v) fun u hmem => ⟨(hWne u hmem).symm, ?_⟩, hvalue]
      rw [hvalue]
      exact hvar (hapart v List.mem_cons_self u (hu u hmem))
    · intro x hx
      obtain ⟨⟨hxv, hoccurs⟩, hx⟩ := List.forall_mem_cons.1 hx
      have hsame := hkept x hxv hoccurs
      rw [hothers x fun u hmem => ⟨(hx u hmem).1, hsame ▸ (hx u hmem).2⟩, hsame]

end Substitution

/-- A call of the name with the given variables. -/
def Predicate.ofVars (name : String) (vs : List Var) : Predicate := ⟨name, vs.map .var⟩

section

variable {q : String} {vs : List Var} {body : List Atom}

/-- Whether an atom calls a predicate of some name. -/
def Atom.isCallOf (name : String) (a : Atom) : Bool := a.asPredicate.any (·.name == name)

theorem mem_ofVars {v : Var} : Term.var v ∈ HasTerms.subterms (Predicate.ofVars q vs) ↔ v ∈ vs := by
  show Term.var v ∈ (vs.map Term.var).flatMap Term.subterms ↔ v ∈ vs
  simp [Term.subterms]

theorem mem_call {v : Var} :
    Term.var v ∈ HasTerms.subterms [Literal.atom (.predicate (.ofVars q vs))] ↔ v ∈ vs := by
  show Term.var v ∈ [Literal.atom (.predicate (.ofVars q vs))].flatMap HasTerms.subterms ↔ _
  rw [List.flatMap_singleton]
  exact mem_ofVars

theorem Renaming.mem_image {ρ : Renaming} {v w : Var} (h : ρ.lookup v = some w) :
    (v, ρ.image v) ∈ ρ := by
  have himage : ρ.image v = w := by rw [Renaming.image, h, Option.getD_some]
  rw [himage]
  exact Substitution.mem_of_lookup_eq_some h

/-- A call with variables that have no values is unified with the renamed call: the images get the
variables, which stay without values. -/
theorem Substitution.IsApart.unify_ofVars {σ σ' : Substitution} {ρ : Renaming}
    (h : σ.IsApart (ρ, σ')) (hσ : σ.Reachable) (hbindings : σ'.bindings = σ.bindings)
    (hρ : ∀ v ∈ vs, (v, ρ.image v) ∈ ρ) (hfree : ∀ v ∈ vs, σ.valueOf v = .var v)
    (hknown : ∀ v ∈ vs, v.text ∈ σ.names) (hvs : vs.Nodup) :
    ∃ τ, σ'.unifyPredicates (.ofVars q vs) (.ofVars q (vs.map ρ.image)) = .ok τ ∧
      ∀ v ∈ vs, τ.valueOf v = .var v ∧ τ.valueOf (ρ.image v) = .var v := by
  have hnew : ∀ v ∈ vs, (ρ.image v).text ∉ σ.names := fun v hv => h.unused _ (hρ v hv)
  have hne : ∀ v ∈ vs, ∀ u ∈ vs, v ≠ ρ.image u := fun v hv u hu heq => hnew u hu (heq ▸ hknown v hv)
  have hdistinct : (vs.map ρ.image).Nodup :=
    hvs.map_on fun v hv u hu heq => h.single _ (hρ v hv) _ (hρ u hu) heq
  have hvalues : ∀ v ∈ vs, σ'.valueOf v = .var v ∧ σ'.valueOf (ρ.image v) = .var (ρ.image v) := by
    intro v hv
    rw [valueOf_congr hbindings, valueOf_congr hbindings]
    exact ⟨hfree v hv, hσ.isClosed.isScoped.valueOf_of_not_mem (hnew v hv)⟩
  obtain ⟨τ, hsolve, himage, hkept⟩ := solve_fresh hdistinct hvalues hne
  refine ⟨τ, ?_, fun v hv => ⟨?_, himage v hv⟩⟩
  · show σ'.solve (predicateDemands ⟨q, vs.map .var⟩ ⟨q, (vs.map ρ.image).map .var⟩) = _
    rw [predicateDemands, if_neg (by simp), if_neg (by simp), List.map_map, List.zipWith_map,
      List.zipWith_self]
    exact hsolve
  · rw [hkept v fun u hu => ⟨hne v hv u hu, ?_⟩, (hvalues v hv).1]
    rw [(hvalues v hv).1]
    simpa [Term.occurs] using hne v hv u hu

/-- A call with the variables of a named goal leaves the goal to be solved, and its variables without
values. -/
theorem Branch.resolve?_ofVars {σ : Substitution} (hσ : σ.Reachable)
    (hfree : ∀ v ∈ vs, σ.valueOf v = .var v) (hknown : ∀ v ∈ vs, v.text ∈ σ.names) (hvs : vs.Nodup)
    (hbody : ∀ v, Term.var v ∈ HasTerms.subterms (body.map Literal.atom) → v ∈ vs) :
    ∃ τ todo, resolve? (.ofVars q vs) (.rule (.predicate (.ofVars q vs)) body) [] σ =
        some (.goal todo τ) ∧ σ.Advances τ ∧ (∀ v ∈ vs, τ.valueOf v = .var v) ∧
      τ.apply todo = instantiate .var (body.map Literal.atom) := by
  generalize hc : Clause.rule (.predicate (.ofVars q vs)) body = c
  obtain ⟨hapart, himages⟩ := Substitution.isApart_rename σ c
  have hρ : ∀ v ∈ vs, (v, (σ.rename [] c).2.1.image v) ∈ (σ.rename [] c).2.1 := by
    intro v hv
    obtain ⟨w, hw⟩ := himages v (hc ▸ List.mem_append_left _ (mem_ofVars.2 hv))
    exact Renaming.mem_image hw
  have hrenamed : (σ.rename [] c).1 = instantiate (fun v => .var ((σ.rename [] c).2.1.image v)) c :=
    Renaming.apply_eq_instantiate _ c
  have hhead : (σ.rename [] c).1.headPredicate =
      some (.ofVars q (vs.map (σ.rename [] c).2.1.image)) := by
    rw [hrenamed, Clause.headPredicate_instantiate, ← hc]
    refine congrArg (fun args => some (Predicate.mk q args)) ?_
    show (vs.map Term.var).map (instantiate _) = (vs.map _).map Term.var
    rw [List.map_map, List.map_map]
    rfl
  obtain ⟨τ, hunify, hvalues⟩ : ∃ τ, (σ.rename [] c).2.2.unifyPredicates (.ofVars q vs)
      (.ofVars q (vs.map (σ.rename [] c).2.1.image)) = .ok τ ∧
      ∀ v ∈ vs, τ.valueOf v = .var v ∧ τ.valueOf ((σ.rename [] c).2.1.image v) = .var v :=
    hapart.unify_ofVars hσ (Substitution.bindings_rename σ [] c) hρ hfree hknown hvs
  have hτ := (hσ.advances_rename c).reachable.advances_unifyPredicates hunify
  refine ⟨τ, (σ.rename [] c).1.bodyGoal, ?_, (hσ.advances_rename c).trans hτ,
    fun v hv => (hvalues v hv).1, ?_⟩
  · exact resolve?_eq_some_iff.2 ⟨_, τ, hhead, hunify, by rw [List.append_nil]⟩
  · have hbodyGoal : (σ.rename [] c).1.bodyGoal =
        instantiate (fun v => .var ((σ.rename [] c).2.1.image v)) (body.map Literal.atom) := by
      rw [hrenamed, ← hc]
      exact Clause.bodyGoal_rewrite _ _
    rw [hbodyGoal, ← Substitution.valuation_apply hτ.reachable.isNormal,
      Valuation.apply_instantiate]
    exact instantiate_congr fun v hv => (hvalues v (hbody v hv)).2

theorem Predicate.agrees_of_name_ne {p p' : Predicate} (h : p.name ≠ p'.name) :
    p.agrees p' = false := by
  rw [agrees, beq_eq_false_iff_ne.2 h, Bool.false_and]

theorem Predicate.agrees_ofVars (q : String) (vs : List Var) :
    (ofVars q vs).agrees (ofVars q vs) = true := by
  rw [agrees, beq_self_eq_true, Bool.true_and, ofVars]
  induction vs with
  | nil => rfl
  | cons v vs ih => exact ih

/-- Where no stored clause has the name, everything else finds what it found before. -/
theorem Knowledge.Adds.findVariants {k k' : Knowledge} {c : Clause} (h : Adds c k k')
    (hc : c.headPredicate = some (.ofVars q vs))
    (horder : ∀ d ∈ k.clauses, ∀ a ∈ d.body, a.usesOrder = false)
    (hcalls : ∀ d ∈ k.clauses, ∀ a ∈ d.body, a.isCallOf q = false) :
    FindVariants (fun a => a.usesOrder = false ∧ a.isCallOf q = false) k.lookup k'.lookup where
  instance_of {a} θ ha := by
    cases a with
    | predicate p => exact ha
    | compare d => exact ha
  unordered ha := ha.1
  bodies _ d hd a ha := ⟨horder d (k.within _ d hd) a ha, hcalls d (k.within _ d hd) a ha⟩
  found {p} f hp := by
    have hname : q ≠ p.name := fun heq => absurd hp.2 (by simp [Atom.isCallOf, Atom.asPredicate, heq])
    have hother : c.headPredicate.any (·.agrees (relabel f p)) = false := by
      rw [hc]
      exact Predicate.agrees_of_name_ne hname
    rw [h.lookup_other hother, h.lookup_eq.1]
    exact matching_variants (List.forall₂_same.2 fun d _ => .refl d) f p

/-- Where no stored clause has the name, the call finds the added clause alone. -/
theorem Knowledge.Adds.lookup_ofVars {k k' : Knowledge} {c : Clause} (h : Adds c k k')
    (hc : c.headPredicate = some (.ofVars q vs))
    (hcalls : ∀ d ∈ k.clauses, ∀ a ∈ d.head, a.isCallOf q = false) :
    k'.lookup (.ofVars q vs) = [c] := by
  refine h.lookup_only ?_ fun d hd => ?_
  · rw [hc]
    exact Predicate.agrees_ofVars q vs
  · cases hhead : d.headPredicate with
    | none => rfl
    | some p =>
      have hp := hcalls d hd (.predicate p) (Clause.headPredicate_eq_some.1 hhead)
      refine Predicate.agrees_of_name_ne fun heq => ?_
      simp [Atom.isCallOf, Atom.asPredicate, heq, Predicate.ofVars] at hp

/-- A call that finds only a clause that names a goal comes to this goal with one step, and a call
without clauses is left behind it. -/
theorem Search.next_ofVars {lookup : Lookup} (hq : q ∉ ["true", "fail", "false"])
    (honly : lookup (.ofVars q vs) = [.rule (.predicate (.ofVars q vs)) body]) (hvs : vs.Nodup)
    (hbody : ∀ v, Term.var v ∈ HasTerms.subterms (body.map Literal.atom) → v ∈ vs) (steps : Nat) :
    ∃ σ τ todo, next lookup
        (start [.atom (.predicate (.ofVars q vs))] Substitution.empty (steps + 1)) =
        next lookup ⟨[.goal todo τ, .call (.ofVars q vs) [] [] σ], steps, false⟩ ∧ τ.Reachable ∧
      (∀ v ∈ vs, τ.valueOf v = .var v ∧ v.text ∈ τ.names) ∧
      τ.apply todo = instantiate .var (body.map Literal.atom) := by
  let call : Goal := [.atom (.predicate (.ofVars q vs))]
  let σ := Substitution.empty.addVariables call
  have hknown : ∀ v ∈ vs, v.text ∈ σ.names := fun v hv =>
    Substitution.knows_addVariables Substitution.empty call v (mem_call.2 hv)
  obtain ⟨τ, todo, hresolve, hτ, hfree, hsame⟩ := Branch.resolve?_ofVars (q := q)
    (.addVariables call .empty : σ.Reachable) (fun v _ => rfl) hknown hvs hbody
  refine ⟨σ, τ, todo, ?_, hτ.reachable, fun v hv => ⟨hfree v hv, hτ.keeps _ (hknown v hv)⟩, hsame⟩
  have ha : σ.apply (Atom.predicate (.ofVars q vs)) = .predicate (.ofVars q vs) := by
    refine congrArg (fun args => Atom.predicate ⟨q, args⟩) ?_
    show (vs.map Term.var).map σ.apply = vs.map Term.var
    rw [List.map_map]
    rfl
  show next lookup ⟨[.goal call σ], steps + 1, false⟩ = _
  rw [next_call ha (builtin?_of_name hq), honly, next_tried, hresolve]
  rfl

/-- With one stack of branches, the goal and the call of its name go the same way. -/
theorem Goal.answersFrom_named {k k' : Knowledge} (hq : q ∉ ["true", "fail", "false"])
    (hadds : Knowledge.Adds (.rule (.predicate (.ofVars q vs)) body) k k') (hvs : vs.Nodup)
    (hvars : ∀ v, v ∈ vs ↔ v ∈ «variables» (body.map Literal.atom))
    (horder : ∀ c ∈ k.clauses, ∀ a ∈ c.body, a.usesOrder = false)
    (hcalls : ∀ c ∈ k.clauses, ∀ a ∈ c.head.toList ++ c.body, a.isCallOf q = false)
    (hgoal : ∀ a ∈ body, a.usesOrder = false ∧ a.isCallOf q = false) (steps : Nat) :
    let g : Goal := body.map Literal.atom
    let call : Goal := [.atom (.predicate (.ofVars q vs))]
    let r := g.answersFrom k.lookup steps Substitution.empty none
    let r' := call.answersFrom k'.lookup (steps + 1) Substitution.empty none
    List.Forall₂ (Substitution.IsVariant («variables» g)) r.1 r'.1 ∧
      r'.2.cut = r.2.cut ∧ r'.2.steps = r.2.steps := by
  intro g call
  let P (a : Atom) : Prop := a.usesOrder = false ∧ a.isCallOf q = false
  have hfind : FindVariants P k.lookup k'.lookup := hadds.findVariants rfl horder fun c hc a ha =>
    hcalls c hc a (List.mem_append_right _ ha)
  have honly := hadds.lookup_ofVars rfl fun c hc a ha =>
    hcalls c hc a (List.mem_append_left _ (Option.mem_toList.2 ha))
  obtain ⟨σ, τ, todo, hnext, hτ, hfree, hsame⟩ := Search.next_ofVars hq honly hvs
    (fun v hv => (hvars v).2 (mem_variables_iff.2 hv)) steps
  let σ₀ := Substitution.empty.addVariables g
  have hagrees : Substitution.Agrees («variables» g) { v | v ∈ «variables» g } id σ₀ τ := by
    refine Substitution.agrees_of_unbound (.addVariables g .empty) hτ (fun v hv => ?_) fun v hv => ?_
    · exact ⟨rfl, (hfree v ((hvars v).2 hv)).1⟩
    · exact ⟨Substitution.knows_addVariables Substitution.empty g v (mem_variables_iff.1 hv),
        (hfree v ((hvars v).2 hv)).2⟩
  have hpending : Pending P («variables» g) { v | v ∈ «variables» g } id σ₀ τ g todo := by
    refine ⟨hagrees, ⟨hagrees.corresponds.over_apply fun v hv => mem_variables_iff.2 hv, ?_⟩, ?_⟩
    · rw [relabel_id, hsame, Substitution.apply_eq_instantiate]
      exact instantiate_congr fun v _ => rfl
    · rw [Goal.atoms, Literal.atomsAll_map]
      exact hgoal
  -- the call is left behind the goal as one that has no clauses
  have hstart : (Search.start g Substitution.empty steps).Alike P («variables» g)
      ⟨[.goal todo τ, .call (.ofVars q vs) [] [] σ], steps, false⟩ :=
    ⟨.cons (.goal hpending) (.exhausted .nil), rfl, rfl⟩
  obtain ⟨hanswers, hended⟩ := Search.rest_alike hfind hstart
  have hcallvars : ∀ v, v ∈ «variables» call ↔ v ∈ «variables» g := fun v =>
    mem_variables_iff.trans (mem_call.trans (hvars v))
  unfold Goal.answersFrom
  dsimp only
  rw [Search.rest_congr hnext]
  exact ⟨Goal.restricted_variants hcallvars hanswers, hended.cut, hended.steps⟩

/-- A goal and the call of its name, among clauses with one more that names the goal, have the same
answers in the same order but for the names of variables that the goal does not have, when the call
may take one more step.  The goal is solved with a frame for each of its literals, the call in one
frame, where the renamed body of its clause is put on the atoms of a resolution. -/
theorem Goal.solutions_named {k k' : Knowledge} (hq : q ∉ ["true", "fail", "false"])
    (hadds : Knowledge.Adds (.rule (.predicate (.ofVars q vs)) body) k k') (hvs : vs.Nodup)
    (hvars : ∀ v, v ∈ vs ↔ v ∈ «variables» (body.map Literal.atom))
    (horder : ∀ c ∈ k.clauses, ∀ a ∈ c.body, a.usesOrder = false)
    (hcalls : ∀ c ∈ k.clauses, ∀ a ∈ c.head.toList ++ c.body, a.isCallOf q = false)
    (hgoal : ∀ a ∈ body, a.usesOrder = false ∧ a.isCallOf q = false) (steps : Nat) :
    let g : Goal := body.map Literal.atom
    let call : Goal := [.atom (.predicate (.ofVars q vs))]
    let r := g.solutions k.lookup steps Substitution.empty none
    let r' := call.solutions k'.lookup (steps + 1) Substitution.empty none
    List.Forall₂ (Substitution.IsVariant («variables» g)) r.1 r'.1 ∧
      r'.2.budget.exhausted = r.2.budget.exhausted ∧
      r'.2.budget.remaining = r.2.budget.remaining := by
  intro g call r r'
  obtain ⟨hanswers, hcut, hsteps⟩ :=
    answersFrom_named hq hadds hvs hvars horder hcalls hgoal steps
  obtain ⟨hr, hrsteps, hrcut⟩ := (g.solutions_eq_answersFrom k.lookup steps .empty).1 none
  obtain ⟨hr', hrsteps', hrcut'⟩ :=
    (call.solutions_eq_answersFrom k'.lookup (steps + 1) .empty).1 none
  refine ⟨?_, hrcut'.trans (hcut.trans hrcut.symm), hrsteps'.trans (hsteps.trans hrsteps.symm)⟩
  show List.Forall₂ _ r.1 r'.1
  rw [hr, hr']
  exact hanswers

end

/-- The goal `p(X), q(X, Y)`. -/
def pairBody : List Atom :=
  [.predicate ⟨"p", [.var (.named "X")]⟩, .predicate ⟨"q", [.var (.named "X"), .var (.named "Y")]⟩]

/-- The clauses `p(a)` and `q(U, f(V)) :- p(U)`. -/
def pairClauses : List Clause :=
  [.fact (.predicate ⟨"p", [.symbol "a"]⟩),
    .rule (.predicate ⟨"q", [.var (.named "U"), .compound "f" [.var (.named "V")]]⟩)
      [.predicate ⟨"p", [.var (.named "U")]⟩]]

/-- What the clauses prove of the goal. -/
theorem values_of_proves_pair {x y : Term}
    (hp : Proves pairClauses (.predicate ⟨"p", [x]⟩))
    (hq : Proves pairClauses (.predicate ⟨"q", [x, y]⟩)) :
    x = .symbol "a" ∧ ∃ u, y = .compound "f" [u] := by
  obtain ⟨c, hc, θ, q, hhead, hname, hargs, -⟩ := hp.exists_instance rfl
  obtain ⟨d, hd, η, q', hhead', hname', hargs', -⟩ := hq.exists_instance rfl
  constructor
  · rcases List.mem_pair.1 hc with rfl | rfl <;> cases hhead
    · exact (List.cons.inj hargs).1.symm
    · simp at hname
  · rcases List.mem_pair.1 hd with rfl | rfl <;> cases hhead'
    · simp at hname'
    · exact ⟨_, (List.cons.inj (List.cons.inj hargs').2).1.symm⟩

/-- Three clauses answer the goal. -/
theorem answersFrom_pair {s : Store} (hs : s.Reachable) (hclauses : s.clauses = pairClauses) :
    ∃ σ u, Goal.answersFrom (pairBody.map .atom) s.candidates 3 Substitution.empty none =
        ([σ], ⟨[], 0, false⟩) ∧ σ.apply (Term.var (.named "X")) = .symbol "a" ∧
      σ.apply (Term.var (.named "Y")) = .compound "f" [u] := by
  have hnormal : ∀ c ∈ s.clauses, Normal c := by
    rw [hclauses]
    decide
  have hplain : ∀ c ∈ s.clauses, c.IsPlain := by
    rw [hclauses]
    exact List.forall_mem_cons.2
      ⟨nofun, List.forall_mem_singleton.2 (List.forall_mem_singleton.2 trivial)⟩
  have hsole : ∀ p, (s.candidates p).length ≤ 1 := by
    refine hs.length_candidates_le_one ?_
    rw [hclauses]
    decide
  let η : Valuation :=
    { value := fun v => if v = .named "X" then .symbol "a" else .compound "f" [.var v]
      normal := fun v => by split <;> rfl }
  let ζ : Valuation :=
    { value := fun v => if v = .named "U" then .symbol "a" else .var (.named "Y")
      normal := fun v => by split <;> rfl }
  have hproof : ProvedWith s.clauses 3 (pairBody.map η.apply) := by
    rw [hclauses]
    refine .clause ζ List.mem_cons_self rfl rfl ?_
    refine .clause ζ (List.mem_cons_of_mem _ List.mem_cons_self) rfl rfl ?_
    exact .clause ζ List.mem_cons_self rfl rfl .done
  have hgoal : ∀ a ∈ pairBody, a.IsPlain :=
    List.forall_mem_cons.2 ⟨trivial, List.forall_mem_singleton.2 trivial⟩
  have hcomplete := (Knowledge.IsStored.store hs).isComplete hnormal
  obtain ⟨σ, hσ, hproved⟩ := Goal.exists_single_answer hcomplete hsole hplain hgoal hproof 0
  have hproved : ∀ a ∈ pairBody, Proves pairClauses (σ.apply a) := hclauses ▸ hproved
  obtain ⟨hx, u, hy⟩ := values_of_proves_pair (hproved _ List.mem_cons_self)
    (hproved _ (List.mem_cons_of_mem _ List.mem_cons_self))
  exact ⟨σ, u, hσ, hx, hy⟩

/-- The goal `p(X), q(X, Y)` gets the name `both`.  It is answered once, by itself and by its name, with
`a` for `X` and some `f(_)` for `Y`, and all steps are spent. -/
theorem Goal.solutions_named_pair :
    let x : Var := .named "X"
    let y : Var := .named "Y"
    let call : Goal := [.atom (.predicate (.ofVars "both" [x, y]))]
    ∃ s t : Store, s.clauses = pairClauses ∧
      s.add (.rule (.predicate (.ofVars "both" [x, y])) pairBody) = .ok (true, t) ∧
      let r := Goal.solutions (pairBody.map .atom) s.candidates 3 Substitution.empty none
      let r' := call.solutions t.candidates 4 Substitution.empty none
      List.Forall₂ (Substitution.IsVariant («variables» (pairBody.map Literal.atom))) r.1 r'.1 ∧
        (∃ σ u, r.1 = [σ] ∧ σ.apply (Term.var x) = .symbol "a" ∧
          σ.apply (Term.var y) = .compound "f" [u]) ∧
        (∃ τ u, r'.1 = [τ] ∧ τ.apply (Term.var x) = .symbol "a" ∧
          τ.apply (Term.var y) = .compound "f" [u]) ∧
        r.2.budget.remaining = 0 ∧ r'.2.budget.remaining = 0 ∧
        r.2.budget.exhausted = false ∧ r'.2.budget.exhausted = false := by
  intro x y call
  obtain ⟨s, hs, hclauses⟩ : ∃ s, Store.Reachable s ∧ s.clauses = pairClauses :=
    Store.exists_clauses (by decide) (by decide)
  have hnew : s.contains (.rule (.predicate (.ofVars "both" [x, y])) pairBody) = false := by
    rw [Bool.eq_false_iff, ne_eq, hs.isFiled.contains_iff, hclauses]
    decide
  have hhead : (Clause.rule (.predicate (.ofVars "both" [x, y])) pairBody).headPredicate =
      some (.ofVars "both" [x, y]) := rfl
  have hadd := Store.add_of_not_contains hhead (by decide) hnew
  have hvars : «variables» (pairBody.map Literal.atom) = [x, y] := by decide
  have horder : ∀ c ∈ s.clauses, ∀ a ∈ c.body, a.usesOrder = false := by
    rw [hclauses]
    decide
  have hcalls : ∀ c ∈ s.clauses, ∀ a ∈ c.head.toList ++ c.body, a.isCallOf "both" = false := by
    rw [hclauses]
    decide
  obtain ⟨hanswers, hcut, hsteps⟩ := solutions_named (by decide) (.store hs hadd) (by decide)
    (fun v => by rw [hvars]) horder hcalls (by decide) 3
  obtain ⟨hr, hrsteps, hrcut⟩ := (Goal.solutions_eq_answersFrom (pairBody.map .atom) s.candidates 3
    .empty).1 none
  obtain ⟨σ, u, hσ, hx, hy⟩ := answersFrom_pair hs hclauses
  rw [hσ] at hr hrsteps hrcut
  -- the call has the same answer but for the names of other variables
  have hpaired := hanswers
  dsimp only [Store.knowledge] at hpaired
  rw [hr] at hpaired
  obtain ⟨τ, others, hvariant, hothers, hτ⟩ := List.forall₂_cons_left_iff.1 hpaired
  rw [List.forall₂_nil_left_iff.1 hothers] at hτ
  obtain ⟨f, hf⟩ := hvariant.apply
  refine ⟨s, _, hclauses, hadd, hanswers, ⟨σ, u, hr, hx, hy⟩, ⟨τ, Term.relabel f u, hτ, ?_, ?_⟩,
    hrsteps, hsteps.trans hrsteps, hrcut, hcut.trans hrcut⟩
  · rw [hf x (by decide), hx]
    rfl
  · rw [hf y (by decide), hy]
    rfl

end Horn
