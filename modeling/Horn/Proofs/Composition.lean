import Horn.Proofs.Calls
import Horn.Proofs.GenericNames

/-!
What a bottom clause is composed of: the lifted head of the example, the lifted atoms of findings, and
one naming of the terms in them.  Generic names are another naming of the same terms.
-/

namespace Horn

/-! ## Heads -/

/-- Variables that are not there make no difference. -/
theorem isGround_apply {p : Predicate} (θ : Valuation) (h : isGround p = true) :
    isGround (θ.apply p) = true := by
  rw [isGround_iff] at h ⊢
  intro w hw
  obtain ⟨v, hv, -⟩ := Predicate.var_mem_replaceVars.1 hw
  exact h v hv

/-- The template in which the head of an example is matched. -/
def Mode.headTemplate (m : Mode) (p : Predicate) : Template :=
  (m.instantiate (Substitution.empty.addVariables p)).1

/-- The head of a ground example is found in the template of its mode. -/
theorem Saturation.liftHead_spec {m : Mode} {p head : Predicate} {l : Lifting}
    (h : liftHead m p = .ok (head, l)) (hground : isGround p = true) :
    ∃ f : Finding, f.IsProper ∧ f.template = m.headTemplate p ∧
      f.fact = Valuation.identity.apply p ∧ head = l.atom f.template.atom ∧
      l = Lifting.slots .input .empty [] f.places := by
  unfold liftHead at h
  dsimp only at h
  split at h
  · cases h
  · rename_i σ hunify
    obtain ⟨rfl, rfl⟩ := Prod.mk.inj (Except.ok.inj h)
    have hσ : σ.Reachable := .unifyAtoms (a := .predicate _) (b := .predicate p)
      (m.reachable_instantiate (.addVariables p .empty)) hunify
    let t := m.headTemplate p
    have ht : t.IsProper := (m.instantiate_spec _).1
    let η : Valuation := σ.valuation hσ.isNormal
    have hequal : η.apply t.atom = η.apply p :=
      ((Substitution.respects_of_unifyPredicates hunify).1
        (Substitution.valuation_respects hσ.isNormal)).2
    have hterms : ∀ u ∈ (Finding.ofValuation t η).terms, isGround u = true := by
      intro u hu
      obtain ⟨s, hs, rfl⟩ := List.mem_map.1 hu
      exact Predicate.isGround_of_apply (hequal ▸ isGround_apply η hground)
        ((ht.occurs _).2 ⟨s, hs, rfl⟩)
    have hproper := Finding.isProper_ofValuation ht hterms
    have hplaces : (Finding.ofValuation t η).places = t.slots.map fun s => (s, σ.valueOf s.var) :=
      Finding.places_ofValuation
    refine ⟨.ofValuation t η, hproper, rfl, ?_, rfl, ?_⟩
    · rw [hproper.fact_ofValuation, hequal]
      exact instantiate_of_isGround hground
    · rw [hplaces]
      rfl

/-- The head of an example is lifted when it is an instance of the template. -/
theorem Saturation.exists_liftHead {m : Mode} {p : Predicate} {θ : Valuation} (hp : Normal p)
    (htemplate : Normal (m.headTemplate p).atom)
    (heq : θ.apply (m.headTemplate p).atom = θ.apply p) : ∃ r, liftHead m p = .ok r := by
  have hscope := m.instantiate_spec (Substitution.empty.addVariables p)
  obtain ⟨σ, hσ⟩ := Substitution.exists_unifyPredicates
    (m.reachable_instantiate (.addVariables p .empty)).isNormal htemplate hp
    ((Valuation.respects_congr hscope.2).2 fun _ => rfl) heq
  unfold liftHead
  dsimp only
  split
  next why h => cases hσ.symm.trans h
  next τ h => exact ⟨_, rfl⟩

/-! ## Compositions -/

/-- A lifted head and lifted body atoms under one naming of their terms. -/
structure Composition where
  head : Finding
  body : List Finding
  name : Term → Var
  proper : ∀ f ∈ head :: body, f.IsProper
  single : ∀ f ∈ head :: body, ∀ g ∈ head :: body, ∀ t u, f.Lifts t → g.Lifts u →
    name t = name u → t = u

namespace Composition

def clause (k : Composition) : Clause :=
  .rule (.predicate (k.head.atom k.name)) (k.body.map fun f => .predicate (f.atom k.name))

/-- The bottom clause that is composed. -/
def bottom (k : Composition) : BottomClause :=
  ⟨k.clause, k.head.link k.name, k.body.map fun f => f.link k.name⟩

/-- A term that has a variable. -/
def Named (k : Composition) (t : Term) : Prop := ∃ f ∈ k.head :: k.body, f.Lifts t

variable {k : Composition} {t u : Term} {v w : Var}

theorem name_inj (ht : k.Named t) (hu : k.Named u) (h : k.name t = k.name u) : t = u := by
  obtain ⟨f, hf, ht⟩ := ht
  obtain ⟨g, hg, hu⟩ := hu
  exact k.single f hf g hg t u ht hu h

theorem var_mem_clause :
    Term.var v ∈ HasTerms.subterms k.clause ↔ ∃ t, k.Named t ∧ k.name t = v := by
  rw [Clause.subterms_eq]
  have hatoms : k.clause.head.toList ++ k.clause.body =
      (k.head :: k.body).map fun f => Atom.predicate (f.atom k.name) := rfl
  rw [hatoms]
  constructor
  · intro h
    obtain ⟨a, ha, hv⟩ := List.mem_flatMap.1 h
    obtain ⟨f, hf, rfl⟩ := List.mem_map.1 ha
    obtain ⟨t, ht, hname⟩ := (k.proper f hf).var_mem_atom.1 hv
    exact ⟨t, ⟨f, hf, ht⟩, hname⟩
  · rintro ⟨t, ⟨f, hf, ht⟩, hname⟩
    refine List.mem_flatMap.2 ⟨_, List.mem_map.2 ⟨f, hf, rfl⟩, ?_⟩
    exact (k.proper f hf).var_mem_atom.2 ⟨t, ht, hname⟩

/-- The same findings under the naming after a renaming that keeps their variables apart. -/
def renamed (k : Composition) (ρ : Var → Var)
    (h : ∀ t u, k.Named t → k.Named u → ρ (k.name t) = ρ (k.name u) → k.name t = k.name u) :
    Composition where
  head := k.head
  body := k.body
  name := ρ ∘ k.name
  proper := k.proper
  single f hf g hg t u ht hu heq := k.single f hf g hg t u ht hu (h t u ⟨f, hf, ht⟩ ⟨g, hg, hu⟩ heq)

theorem generic_apart (k : Composition) (t u : Term) (ht : k.Named t) (hu : k.Named u)
    (h : (genericRenaming («variables» k.clause)).image (k.name t) =
      (genericRenaming («variables» k.clause)).image (k.name u)) : k.name t = k.name u :=
  image_genericRenaming_inj (mem_variables_iff.2 (var_mem_clause.2 ⟨t, ht, rfl⟩))
    (mem_variables_iff.2 (var_mem_clause.2 ⟨u, hu, rfl⟩)) h

/-- Generic names are another naming. -/
def generic (k : Composition) : Composition := k.renamed _ k.generic_apart

/-- The renaming to generic names. -/
def toGeneric (k : Composition) : Renaming := genericRenaming («variables» k.clause)

theorem atom_generic (k : Composition) {f : Finding} (hf : f.IsProper) :
    f.atom k.generic.name = instantiate (fun v => .var (k.toGeneric.image v)) (f.atom k.name) :=
  (hf.rename_atom k.toGeneric.image).symm

theorem bottom_withGenericNames (k : Composition) :
    k.bottom.withGenericNames = k.generic.bottom := by
  let ρ := k.toGeneric
  have hatom : ∀ f ∈ k.head :: k.body,
      ρ.apply (Atom.predicate (f.atom k.name)) = .predicate (f.atom k.generic.name) := by
    intro f hf
    rw [Renaming.apply_eq_instantiate]
    exact congrArg Atom.predicate (k.atom_generic (k.proper f hf)).symm
  have hlink : ∀ f : Finding, (f.link k.name).rename ρ = f.link k.generic.name := fun f =>
    congrArg₂ Link.mk List.map_map List.map_map
  have hhead := hatom k.head List.mem_cons_self
  have hbody := List.map_congr_left fun f hf => hatom f (List.mem_cons_of_mem _ hf)
  have hclause : ρ.apply k.clause = k.generic.clause := by
    refine congrArg₂ Clause.mk (congrArg some hhead) (Eq.trans ?_ hbody)
    exact List.map_map
  have hlinks : (k.body.map fun f => f.link k.name).map (fun l => l.rename ρ) =
      k.body.map fun f => f.link k.generic.name := by
    rw [List.map_map]
    exact List.map_congr_left fun f _ => hlink f
  exact congr (congr (congrArg BottomClause.mk hclause) (hlink k.head)) hlinks

end Composition

/-! ## Where a bottom clause comes from -/

namespace BottomClause

/-- The stores that an example is saturated with. -/
def lookupOf (background : LayeredStore) (facts : Store) : Lookup :=
  (background.under .owned facts).candidates

/-- The terms at the input places of the head, with which the first round is called. -/
def start (k : Composition) : List Term := k.head.inputs.foldl withTerm []

theorem mem_start {k : Composition} {t : Term} : t ∈ start k ↔ t ∈ k.head.inputs := by
  simp [start, mem_foldl_withTerm]

theorem ground_start (k : Composition) :
    ∀ t ∈ start k, isGround t = true ∧ t.isNormal = true := fun _ ht =>
  (k.proper k.head List.mem_cons_self).ground_of_lifts (Finding.lifts_iff.2 (.inl (mem_start.1 ht)))

/-- The bottom clause is composed of the head and of what the rounds find, each atom
once and in the order in which its inputs become available. -/
structure ComesFrom (b : BottomClause) (head : Finding) (lookup : Lookup) (options : Options)
    (modes : List Mode) (k : Composition) : Prop where
  bottom : b = k.bottom
  head : k.head = head
  found : ∀ f ∈ k.body, f ∈ Saturation.findings lookup options modes options.i (start k)
  recorded : ∀ f ∈ Saturation.findings lookup options modes options.i (start k),
    ∃ g ∈ k.body, g.atom k.name = f.atom k.name
  /-- A finding that is left out has no terms but those of an atom that is there. -/
  named : ∀ f ∈ Saturation.findings lookup options modes options.i (start k), ∀ t, f.Lifts t →
    k.Named t
  once : (k.body.map fun f => f.atom k.name).Nodup
  flows : Saturation.Flows k.head.inputs k.body

section

variable {b : BottomClause} {head : Finding} {lookup : Lookup} {options : Options}
  {modes : List Mode} {k : Composition}

theorem ComesFrom.withGenericNames (h : b.ComesFrom head lookup options modes k) :
    b.withGenericNames.ComesFrom head lookup options modes k.generic := by
  have hrecorded : ∀ f ∈ Saturation.findings lookup options modes options.i (start k),
      ∃ g ∈ k.body, g.atom k.generic.name = f.atom k.generic.name := by
    intro f hf
    obtain ⟨g, hg, heq⟩ := h.recorded f hf
    refine ⟨g, hg, ?_⟩
    rw [k.atom_generic (k.proper g (List.mem_cons_of_mem _ hg)), heq,
      k.atom_generic (Saturation.findings_spec (ground_start k) hf).1]
  have honce : (k.body.map fun f => f.atom k.generic.name).Nodup := by
    refine List.pairwise_map.2 ((List.pairwise_map.1 h.once).imp_of_mem fun hf hg hne heq => hne ?_)
    refine (k.proper _ (List.mem_cons_of_mem _ hf)).atom_eq_of_atom_eq
      (k.proper _ (List.mem_cons_of_mem _ hg)) (fun t u ht hu => k.generic_apart t u ?_ ?_) heq
    · exact ht.elim (fun ht => ⟨_, List.mem_cons_of_mem _ hf, ht⟩)
        fun ht => ⟨_, List.mem_cons_of_mem _ hg, ht⟩
    · exact hu.elim (fun hu => ⟨_, List.mem_cons_of_mem _ hf, hu⟩)
        fun hu => ⟨_, List.mem_cons_of_mem _ hg, hu⟩
  have hbottom : b.withGenericNames = k.generic.bottom :=
    h.bottom ▸ k.bottom_withGenericNames
  exact ⟨hbottom, h.head, h.found, hrecorded, h.named, honce, h.flows⟩

/-- The final naming gives different variables to different terms of the head and what is recorded. -/
theorem naming_inj {l : Lifting} {s : Saturation} {f : Finding} {fs : List Finding}
    (hadds : (⟨.empty, [], ⟨[], []⟩, []⟩ : Lifting).Adds f.places l)
    (hrecords : (⟨l.names, []⟩ : Saturation).Records fs s) :
    ∀ g ∈ f :: fs, ∀ x ∈ f :: fs, ∀ t u, g.Lifts t → x.Lifts u →
      s.names.naming t = s.names.naming u → t = u := by
  have hfollows : s.names.Follows s.names.naming := s.names.follows_naming
  have hnamed : ∀ g ∈ f :: fs, ∀ t, g.Lifts t → ∃ v, s.names.varOf[t]? = some v := by
    refine List.forall_mem_cons.2 ⟨?_, hrecords.named⟩
    rintro t ⟨place, hplace, hlift, rfl⟩
    exact (hadds.named place hplace hlift).imp fun v hv => hrecords.keeps _ v hv
  intro g hg x hx t u ht hu heq
  obtain ⟨v, hv⟩ := hnamed g hg t ht
  obtain ⟨w, hw⟩ := hnamed x hx u hu
  rw [hfollows t v hv, hfollows u w hw] at heq
  exact (hrecords.proper (hadds.proper TermNames.isProper_empty)).single t u v hv (heq ▸ hw)

/-- The state after all rounds, put together with the head. -/
theorem exists_comesFrom (lookup : Lookup) (options : Options) (modes : List Mode) {f : Finding}
    (hf : f.IsProper) :
    let l := Lifting.slots .input .empty [] f.places
    let s := Saturation.rounds lookup options modes options.i l.found ⟨l.names, []⟩
    ∃ k, ComesFrom ⟨.rule (.predicate (l.atom f.template.atom)) (s.atoms.map fun a => .predicate a.1),
      l.link, s.atoms.map Prod.snd⟩ f lookup options modes k := by
  intro l s
  have hadds : (⟨.empty, [], ⟨[], []⟩, []⟩ : Lifting).Adds f.places l :=
    Lifting.adds_foldl_slot .input _ f.places
  have hfound : l.found = f.inputs.foldl withTerm [] :=
    congrArg Lifting.found (Lifting.slots_found .input nofun .empty [] f.places)
  let fs := Saturation.findings lookup options modes options.i (f.inputs.foldl withTerm [])
  have hs : s = fs.foldl Saturation.record ⟨l.names, []⟩ :=
    (congrArg (Saturation.rounds lookup options modes options.i · ⟨l.names, []⟩) hfound).trans
      (Saturation.rounds_eq lookup options modes ..)
  have hrecords : (⟨l.names, []⟩ : Saturation).Records fs s :=
    hs ▸ Saturation.records_foldl_record _ fs
  -- the variables of all terms come from one naming
  let name := s.names.naming
  have hfollows : s.names.Follows name := s.names.follows_naming
  have hinputs : ∀ t ∈ f.inputs.foldl withTerm [], isGround t = true ∧ t.isNormal = true := by
    intro t ht
    have ht : t ∈ f.inputs := by simpa [mem_foldl_withTerm] using ht
    exact hf.ground_of_lifts (Finding.lifts_iff.2 (.inl ht))
  have hfs : ∀ g ∈ fs, g.IsProper := fun g hg => (Saturation.findings_spec hinputs hg).1
  have hsingle : ∀ g ∈ f :: fs, ∀ x ∈ f :: fs, ∀ t u, g.Lifts t → x.Lifts u →
      name t = name u → t = u := naming_inj hadds hrecords
  have hnamed : ∀ g ∈ fs, ∀ t, g.Lifts t →
      ∃ x ∈ f :: Saturation.kept name fs, x.Lifts t := by
    intro g hg t ht
    obtain ⟨x, hx, heq⟩ : ∃ x ∈ Saturation.kept name fs, x.atom name = g.atom name :=
      Saturation.exists_kept hg
    have hxfs := Saturation.mem_of_mem_kept hx
    refine ⟨x, List.mem_cons_of_mem _ hx, (hfs g hg).lifts_of_atom_eq (hfs x hxfs) ?_ heq.symm ht⟩
    exact hsingle g (List.mem_cons_of_mem _ hg) x (List.mem_cons_of_mem _ hxfs)
  have hkept : ∀ g ∈ f :: Saturation.kept name fs, g ∈ f :: fs :=
    List.forall_mem_cons.2 ⟨List.mem_cons_self,
      fun g hg => List.mem_cons_of_mem _ (Saturation.mem_of_mem_kept hg)⟩
  let k : Composition :=
    { head := f
      body := Saturation.kept name fs
      name := name
      proper := fun g hg => (List.forall_mem_cons.2 ⟨hf, hfs⟩) g (hkept g hg)
      single := fun g hg x hx => hsingle g (hkept g hg) x (hkept x hx) }
  have hatoms : s.atoms = (Saturation.kept name fs).map (Saturation.lifted name) :=
    hrecords.atoms name [] hfollows rfl
  have hlfollows := hfollows.of_extends hrecords.keeps
  have hhead : l.atom f.template.atom = f.atom name := by
    have himages : l.images = f.images fun place => place.image name :=
      (hadds.images name hlfollows).trans (List.append_nil _)
    rw [Lifting.atom, himages]
    rfl
  have hlink : l.link = f.link name := hadds.link name hlfollows
  refine ⟨k, ?_, rfl, fun g hg => Saturation.mem_of_mem_kept hg,
    fun g hg => Saturation.exists_kept hg, hnamed, Saturation.nodup_kept fs, ?_⟩
  · rw [hhead, hlink, hatoms, List.map_map, List.map_map]
    rfl
  · refine ((Saturation.flows_findings hinputs options.i).kept hfs ?_).mono fun t ht => ?_
    · exact fun g hg x hx => hsingle g (List.mem_cons_of_mem _ hg) x (List.mem_cons_of_mem _ hx)
    · simpa [mem_foldl_withTerm] using ht

end

variable {c : Clause} {modes : ModeTable} {background : LayeredStore} {options : Options}
  {b : BottomClause} {p : Predicate}

theorem exists_composition (hp : c.headPredicate = some p) (hground : isGround p = true)
    (h : ofExample c modes background options = .ok b) :
    ∃ m facts k, modes.headMode p.signature = .ok m ∧
      Store.ofClauses (c.body.map Clause.fact) = .ok facts ∧
      k.head.template = m.headTemplate p ∧ k.head.fact = Valuation.identity.apply p ∧
      b.ComesFrom k.head (lookupOf background facts) options (modes.bodyModesFor m) k := by
  unfold ofExample at h
  rw [hp] at h
  dsimp only at h
  obtain ⟨m, hm, h⟩ := exists_of_bind_eq_ok h
  obtain ⟨facts, hfacts, h⟩ := exists_of_bind_eq_ok h
  obtain ⟨⟨head, l⟩, hlift, h⟩ := exists_of_bind_eq_ok h
  obtain ⟨f, hproper, htemplate, hfact, rfl, rfl⟩ := Saturation.liftHead_spec hlift hground
  obtain ⟨k, hk⟩ := exists_comesFrom (lookupOf background facts) options (modes.bodyModesFor m)
    hproper
  obtain rfl := hk.head
  obtain rfl := Except.ok.inj h
  split
  · exact ⟨m, facts, k.generic, hm, hfacts, htemplate, hfact, hk.withGenericNames⟩
  · exact ⟨m, facts, k, hm, hfacts, htemplate, hfact, hk⟩

theorem exists_ofExample {m : Mode} {facts : Store} {r : Predicate × Lifting}
    (hp : c.headPredicate = some p) (hm : modes.headMode p.signature = .ok m)
    (hfacts : Store.ofClauses (c.body.map Clause.fact) = .ok facts)
    (hlift : Saturation.liftHead m p = .ok r) :
    ∃ b, ofExample c modes background options = .ok b := by
  unfold ofExample
  rw [hp]
  dsimp only
  rw [hm]
  show ∃ b, (Store.ofClauses (c.body.map Clause.fact) >>= _) = _
  rw [hfacts]
  show ∃ b, (Saturation.liftHead m p >>= _) = _
  rw [hlift]
  exact ⟨_, rfl⟩

end BottomClause
end Horn
