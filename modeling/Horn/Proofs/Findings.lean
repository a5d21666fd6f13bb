import Horn.Learning.Saturation
import Horn.Proofs.Templates

/-!
Lifted answers.  An answer puts a term in every slot of a template.  Lifting it replaces the terms at
input and output places by variables, one for each term whichever answers it comes from, so when
all answers are known the variables amount to a single naming of terms.
-/

namespace Horn

/-! ## Names of terms -/

namespace TermNames

/-- The texts of the variables are in use, and no variable stands for two terms. -/
structure IsProper (names : TermNames) : Prop where
  used : ∀ (t : Term) (v : Var), names.varOf[t]? = some v → v.text ∈ names.used
  single : ∀ (t u : Term) (v : Var), names.varOf[t]? = some v → names.varOf[u]? = some v → t = u

/-- Every term keeps its variable. -/
def Extends (names more : TermNames) : Prop :=
  ∀ (t : Term) (v : Var), names.varOf[t]? = some v → more.varOf[t]? = some v

/-- The variables are those that a function gives to terms. -/
def Follows (names : TermNames) (name : Term → Var) : Prop :=
  ∀ (t : Term) (v : Var), names.varOf[t]? = some v → name t = v

section

variable {names more most : TermNames} {name : Term → Var}

theorem Extends.refl (names : TermNames) : names.Extends names := fun _ _ h => h

theorem Extends.trans (h : names.Extends more) (h' : more.Extends most) : names.Extends most :=
  fun t v ht => h' t v (h t v ht)

theorem Follows.of_extends (h : more.Follows name) (hle : names.Extends more) :
    names.Follows name :=
  fun t v ht => h t v (hle t v ht)

theorem isProper_empty : empty.IsProper :=
  ⟨fun t v h => by simp [empty] at h, fun t u v h => by simp [empty] at h⟩

theorem name_eq_of_some {t : Term} {v : Var} (h : names.varOf[t]? = some v) :
    names.name t = (v, names) := by
  rw [TermNames.name, h]

/-- A term without a variable gets one whose text is not in use. -/
theorem exists_name_of_none {t : Term} (h : names.varOf[t]? = none) :
    ∃ v : Var, v.text ∉ names.used ∧
      names.name t = (v, ⟨names.varOf.insert t v, names.used.insert v.text⟩) := by
  refine ⟨_, Scope.firstFree_not_mem t.variableSymbol names.used 0, ?_⟩
  rw [TermNames.name, h]

theorem getElem?_name (names : TermNames) (t : Term) :
    (names.name t).2.varOf[t]? = some (names.name t).1 := by
  cases h : names.varOf[t]? with
  | some v => rw [name_eq_of_some h, h]
  | none =>
    obtain ⟨v, -, hname⟩ := exists_name_of_none h
    rw [hname, Std.HashMap.getElem?_insert_self]

theorem extends_name (names : TermNames) (t : Term) : names.Extends (names.name t).2 := by
  cases h : names.varOf[t]? with
  | some v =>
    rw [name_eq_of_some h]
    exact .refl names
  | none =>
    obtain ⟨v, -, hname⟩ := exists_name_of_none h
    intro u w hu
    have htu : (t == u) = false := by
      refine beq_eq_false_iff_ne.2 fun heq => ?_
      rw [← heq, h] at hu
      cases hu
    rw [hname, Std.HashMap.getElem?_insert, htu]
    exact hu

theorem isProper_name (h : names.IsProper) (t : Term) : (names.name t).2.IsProper := by
  cases ht : names.varOf[t]? with
  | some v =>
    rw [name_eq_of_some ht]
    exact h
  | none =>
    obtain ⟨v, hfree, hname⟩ := exists_name_of_none ht
    have hlookup : ∀ (u : Term) (w : Var), (names.varOf.insert t v)[u]? = some w →
        t = u ∧ v = w ∨ names.varOf[u]? = some w := by
      intro u w hu
      rw [Std.HashMap.getElem?_insert] at hu
      split at hu
      · rename_i htu
        exact .inl ⟨beq_iff_eq.1 htu, Option.some.inj hu⟩
      · exact .inr hu
    rw [hname]
    refine ⟨fun u w hu => ?_, fun u x w hu hx => ?_⟩
    · rcases hlookup u w hu with ⟨-, rfl⟩ | hu
      · exact Std.TreeSet.mem_insert.2 (.inl Std.ReflCmp.compare_self)
      · exact Std.TreeSet.mem_insert.2 (.inr (h.used u w hu))
    · rcases hlookup u w hu with ⟨rfl, rfl⟩ | hu <;> rcases hlookup x _ hx with ⟨rfl, heq⟩ | hx
      · rfl
      · exact absurd (h.used x _ hx) hfree
      · exact absurd (heq ▸ h.used u _ hu) hfree
      · exact h.single u x w hu hx

/-- The naming that the variables amount to. -/
def naming (names : TermNames) (t : Term) : Var := (names.varOf[t]?).getD (.named "")

theorem follows_naming (names : TermNames) : names.Follows names.naming := by
  intro t v h
  rw [naming, h, Option.getD_some]

end
end TermNames

/-! ## Filled slots -/

/-- A slot and the term in it. -/
abbrev Place := Slot × Term

namespace Place

/-- Constants stay when an atom is lifted; all other terms become variables. -/
def IsLifted (s : Place) : Prop := s.1.placeholder.sign ≠ .constant

instance (s : Place) : Decidable s.IsLifted := inferInstanceAs (Decidable (_ ≠ _))

/-- What stands in the place when terms are named. -/
def image (name : Term → Var) (s : Place) : Term := if s.IsLifted then .var (name s.2) else s.2

/-- The terms at the places of one sign. -/
def termsAt (sign : Sign) (places : List Place) : List Term :=
  (places.filter fun s => s.1.placeholder.sign == sign).map Prod.snd

/-- The flow of variables through the places. -/
def link (name : Term → Var) (places : List Place) : Link :=
  ⟨(termsAt .input places).map name, (termsAt .output places).map name⟩

end Place

namespace Lifting

/-- What lifting some places adds, in terms of a naming that agrees with the variables used. -/
structure Adds (l : Lifting) (places : List Place) (l' : Lifting) : Prop where
  keeps : l.names.Extends l'.names
  proper : l.names.IsProper → l'.names.IsProper
  named : ∀ s ∈ places, s.IsLifted → ∃ v, l'.names.varOf[s.2]? = some v
  images : ∀ name, l'.names.Follows name →
    l'.images = (places.map fun s => (s.1.var, s.image name)).reverse ++ l.images
  link : ∀ name, l'.names.Follows name →
    l'.link = ⟨l.link.inputs ++ (Place.link name places).inputs,
      l.link.outputs ++ (Place.link name places).outputs⟩

section

variable {l l' l'' : Lifting} {places more : List Place} {noted : Sign}

theorem Adds.nil (l : Lifting) : l.Adds [] l where
  keeps := .refl _
  proper := id
  named := nofun
  images _ _ := rfl
  link _ _ := by simp [Place.link, Place.termsAt]

theorem Adds.append (h : l.Adds places l') (h' : l'.Adds more l'') :
    l.Adds (places ++ more) l'' where
  keeps := h.keeps.trans h'.keeps
  proper := h'.proper ∘ h.proper
  named := List.forall_mem_append.2
    ⟨fun s hs hlift => (h.named s hs hlift).imp fun v hv => h'.keeps _ v hv, h'.named⟩
  images name hname := by
    rw [h'.images name hname, h.images name (hname.of_extends h'.keeps)]
    simp
  link name hname := by
    rw [h'.link name hname, h.link name (hname.of_extends h'.keeps)]
    simp [Place.link, Place.termsAt]

theorem adds_slot (noted : Sign) (l : Lifting) (s : Place) : l.Adds [s] (l.slot noted s) := by
  obtain ⟨⟨v, sign, typeName⟩, t⟩ := s
  have hnamed := TermNames.getElem?_name l.names t
  have hkeeps := TermNames.extends_name l.names t
  have hproper (h : l.names.IsProper) := TermNames.isProper_name h t
  cases sign with
  | constant =>
    refine ⟨.refl _, id, List.forall_mem_singleton.2 fun h => absurd rfl h, fun name _ => rfl,
      fun name _ => ?_⟩
    show l.link = _
    simp [Place.link, Place.termsAt]
  | input =>
    refine ⟨hkeeps, hproper, List.forall_mem_singleton.2 fun _ => ⟨_, hnamed⟩, fun name h => ?_,
      fun name h => ?_⟩
    · show (v, Term.var (l.names.name t).1) :: l.images = _
      rw [← h _ _ hnamed]
      rfl
    · show (⟨l.link.inputs ++ [(l.names.name t).1], l.link.outputs⟩ : Link) = _
      rw [← h _ _ hnamed]
      simp [Place.link, Place.termsAt]
  | output =>
    refine ⟨hkeeps, hproper, List.forall_mem_singleton.2 fun _ => ⟨_, hnamed⟩, fun name h => ?_,
      fun name h => ?_⟩
    · show (v, Term.var (l.names.name t).1) :: l.images = _
      rw [← h _ _ hnamed]
      rfl
    · show (⟨l.link.inputs, l.link.outputs ++ [(l.names.name t).1]⟩ : Link) = _
      rw [← h _ _ hnamed]
      simp [Place.link, Place.termsAt]

theorem adds_foldl_slot (noted : Sign) (l : Lifting) (places : List Place) :
    l.Adds places (places.foldl (slot noted) l) := by
  induction places generalizing l with
  | nil => exact .nil l
  | cons s places ih => exact (adds_slot noted l s).append (ih _)

end

/-! The terms noted do not bear on anything else. -/

theorem slot_found (noted : Sign) (hnoted : noted ≠ .constant) (l : Lifting) (found : List Term)
    (s : Place) :
    ({ l with found := found } : Lifting).slot noted s =
      { l.slot noted s with found := (Place.termsAt noted [s]).foldl withTerm found } := by
  obtain ⟨⟨v, sign, typeName⟩, t⟩ := s
  by_cases h : sign = noted
  · subst h
    cases sign <;> first | exact absurd rfl hnoted | simp [slot, Place.termsAt]
  · cases sign <;> simp [slot, Place.termsAt, h]

theorem foldl_slot_found (noted : Sign) (hnoted : noted ≠ .constant) (l : Lifting)
    (found : List Term) (places : List Place) :
    places.foldl (slot noted) { l with found := found } =
      { places.foldl (slot noted) l with
        found := (Place.termsAt noted places).foldl withTerm found } := by
  induction places generalizing l found with
  | nil => rfl
  | cons s places ih =>
    have hterms : Place.termsAt noted (s :: places) =
        Place.termsAt noted [s] ++ Place.termsAt noted places := by
      simp [Place.termsAt, List.filter_cons]
      split <;> simp
    rw [List.foldl_cons, List.foldl_cons, slot_found noted hnoted, ih, hterms, List.foldl_append]

theorem slots_found (noted : Sign) (hnoted : noted ≠ .constant) (names : TermNames)
    (found : List Term) (places : List Place) :
    slots noted names found places =
      { slots noted names [] places with
        found := (Place.termsAt noted places).foldl withTerm found } :=
  foldl_slot_found noted hnoted ⟨names, [], ⟨[], []⟩, []⟩ found places

end Lifting

/-! ## Lifted atoms -/

theorem lookup_of_mem {β : Type} {images : List (Var × β)}
    (hkeys : images.Pairwise fun e e' => e.1 ≠ e'.1) {v : Var} {b : β} (h : (v, b) ∈ images) :
    images.lookup v = some b := by
  induction images with
  | nil => cases h
  | cons e images ih =>
    obtain ⟨hfirst, hrest⟩ := List.pairwise_cons.1 hkeys
    rcases List.mem_cons.1 h with rfl | h
    · exact List.lookup_cons_self
    · have hne : (v == e.1) = false := beq_eq_false_iff_ne.2 (hfirst _ h).symm
      rw [List.lookup_cons, hne]
      exact ih hrest h

theorem Predicate.var_mem_replaceVars {p : Predicate} {image : Var → Option Term} {w : Var} :
    Term.var w ∈ HasTerms.subterms (replaceVars image p) ↔
      ∃ v, Term.var v ∈ HasTerms.subterms p ∧ ((image v).getD (.var v)).occurs w = true := by
  simp only [Predicate.var_mem_subterms]
  show Term.occursAny w (p.args.map (Term.rewrite (varImage image))) = true ↔ _
  rw [← Term.rewriteAll_eq_map, Term.occursAny_replaceVars]

theorem isGround_iff {α : Type} [HasTerms α] {x : α} :
    isGround x = true ↔ ∀ v, Term.var v ∉ HasTerms.subterms x := by
  rw [isGround, List.all_eq_true]
  constructor
  · exact fun h v hv => nomatch h _ hv
  · intro h t ht
    cases t with
    | var v => exact absurd ht (h v)
    | _ => rfl

/-- The terms for the variables of a form are ground when the form becomes ground. -/
theorem Predicate.isGround_of_apply {p : Predicate} {θ : Valuation}
    (h : isGround (θ.apply p) = true) {v : Var} (hv : Term.var v ∈ HasTerms.subterms p) :
    isGround (θ.value v) = true := by
  rw [isGround_iff] at h ⊢
  intro w hw
  exact h w (var_mem_replaceVars.2 ⟨v, hv, (Term.var_mem_subterms w _).1 hw⟩)

/-- A template with a term for every slot. -/
structure Finding where
  template : Template
  terms : List Term

namespace Finding

def places (f : Finding) : List Place := f.template.slots.zip f.terms

def inputs (f : Finding) : List Term := Place.termsAt .input f.places

def outputs (f : Finding) : List Term := Place.termsAt .output f.places

/-- What is put for the variables of the template, in the order in which lifting leaves it. -/
def images (image : Place → Term) (f : Finding) : List (Var × Term) :=
  (f.places.map fun s => (s.1.var, image s)).reverse

/-- The atom of the template with something in every place. -/
def fill (image : Place → Term) (f : Finding) : Predicate :=
  replaceVars (fun v => (f.images image).lookup v) f.template.atom

/-- The ground atom that was found. -/
def fact (f : Finding) : Predicate := f.fill Prod.snd

/-- The lifted atom. -/
def atom (name : Term → Var) (f : Finding) : Predicate := f.fill fun s => s.image name

def link (name : Term → Var) (f : Finding) : Link := Place.link name f.places

/-- The terms are ground and in list normal form, one for each slot of a proper template. -/
structure IsProper (f : Finding) : Prop where
  template : f.template.IsProper
  length : f.terms.length = f.template.slots.length
  ground : ∀ t ∈ f.terms, isGround t = true
  normal : ∀ t ∈ f.terms, t.isNormal = true

/-- The term stands at an input or output place. -/
def Lifts (f : Finding) (t : Term) : Prop := ∃ s ∈ f.places, s.IsLifted ∧ s.2 = t

section

variable {f g : Finding} {name : Term → Var} {s : Place} {t : Term} {image : Place → Term}

theorem mem_termsAt {sign : Sign} {places : List Place} :
    t ∈ Place.termsAt sign places ↔ ∃ s ∈ places, s.1.placeholder.sign = sign ∧ s.2 = t := by
  simp [Place.termsAt, and_assoc]

theorem lifts_iff : f.Lifts t ↔ t ∈ f.inputs ∨ t ∈ f.outputs := by
  rw [inputs, outputs, mem_termsAt, mem_termsAt, ← exists_or]
  refine exists_congr fun s => ?_
  have hsign : s.IsLifted ↔ s.1.placeholder.sign = .input ∨ s.1.placeholder.sign = .output := by
    unfold Place.IsLifted
    cases s.1.placeholder.sign <;> simp
  rw [hsign, or_and_right, and_or_left]

theorem IsProper.map_fst_places (h : f.IsProper) : f.places.map Prod.fst = f.template.slots :=
  List.map_fst_zip (Nat.le_of_eq h.length.symm)

theorem IsProper.lookup_images (h : f.IsProper) (hs : s ∈ f.places) :
    (f.images image).lookup s.1.var = some (image s) := by
  refine lookup_of_mem ?_ (List.mem_reverse.2 (List.mem_map.2 ⟨s, hs, rfl⟩))
  rw [images, List.pairwise_reverse, List.pairwise_map]
  have hdistinct := h.template.distinct
  rw [← h.map_fst_places, List.pairwise_map] at hdistinct
  exact hdistinct.imp Ne.symm

/-- Every variable of the template has a place. -/
theorem IsProper.exists_place (h : f.IsProper) {v : Var}
    (hv : Term.var v ∈ HasTerms.subterms f.template.atom) : ∃ s ∈ f.places, s.1.var = v := by
  obtain ⟨x, hx, rfl⟩ := (h.template.occurs v).1 hv
  rw [← h.map_fst_places] at hx
  obtain ⟨s, hs, rfl⟩ := List.mem_map.1 hx
  exact ⟨s, hs, rfl⟩

theorem IsProper.ground_place (h : f.IsProper) (hs : s ∈ f.places) :
    isGround s.2 = true ∧ s.2.isNormal = true :=
  ⟨h.ground _ (List.of_mem_zip hs).2, h.normal _ (List.of_mem_zip hs).2⟩

theorem IsProper.ground_of_lifts (h : f.IsProper) (ht : f.Lifts t) :
    isGround t = true ∧ t.isNormal = true := by
  obtain ⟨s, hs, -, rfl⟩ := ht
  exact h.ground_place hs

theorem IsProper.fill_eq (h : f.IsProper) {η : Var → Term}
    (hη : ∀ s ∈ f.places, η s.1.var = image s) : f.fill image = instantiate η f.template.atom := by
  rw [fill, replaceVars_eq_instantiate]
  refine instantiate_congr fun v hv => ?_
  obtain ⟨s, hs, rfl⟩ := h.exists_place hv
  rw [h.lookup_images hs, Option.getD_some, hη s hs]

theorem fill_congr {image' : Place → Term} (h : ∀ s ∈ f.places, image s = image' s) :
    f.fill image = f.fill image' := by
  have himages : f.images image = f.images image' :=
    congrArg List.reverse (List.map_congr_left fun s hs => congrArg (s.1.var, ·) (h s hs))
  rw [fill, fill, himages]

/-- A valuation takes effect in every place. -/
theorem IsProper.apply_fill (h : f.IsProper) (θ : Valuation) :
    θ.apply (f.fill image) = f.fill fun s => θ.apply (image s) := by
  refine Eq.trans ?_ (h.fill_eq (η := (θ.after fun v =>
    ((f.images image).lookup v).getD (.var v)).value) fun s hs => ?_).symm
  · rw [fill, replaceVars_eq_instantiate, Valuation.apply_instantiate]
    rfl
  · show θ.apply (((f.images image).lookup s.1.var).getD _) = _
    rw [h.lookup_images hs, Option.getD_some]

/-- The lifted atom becomes the one that was found when every variable gets its term back. -/
theorem IsProper.apply_atom (h : f.IsProper) {θ : Valuation}
    (hθ : ∀ t, f.Lifts t → θ.value (name t) = t) : θ.apply (f.atom name) = f.fact := by
  rw [atom, h.apply_fill]
  refine fill_congr fun s hs => ?_
  unfold Place.image
  split
  · rename_i hlift
    exact hθ s.2 ⟨s, hs, hlift, rfl⟩
  · exact θ.apply_of_isGround (h.ground_place hs).1 (h.ground_place hs).2

/-- Renaming its variables lifts the atom with other names. -/
theorem IsProper.rename_atom (h : f.IsProper) (r : Var → Var) :
    instantiate (fun v => Term.var (r v)) (f.atom name) = f.atom (r ∘ name) := by
  let θ : Valuation := ⟨fun v => .var (r v), fun _ => rfl⟩
  refine (h.apply_fill θ).trans (fill_congr fun s hs => ?_)
  unfold Place.image
  split
  · rfl
  · exact θ.apply_of_isGround (h.ground_place hs).1 (h.ground_place hs).2

theorem atom_congr {name' : Term → Var} (h : ∀ t, f.Lifts t → name t = name' t) :
    f.atom name = f.atom name' := by
  refine fill_congr fun s hs => ?_
  unfold Place.image
  split
  · rename_i hlift
    rw [h s.2 ⟨s, hs, hlift, rfl⟩]
  · rfl

/-- Names that tell no more terms apart make no more atoms differ. -/
theorem IsProper.atom_eq_of_atom_eq (hf : f.IsProper) (hg : g.IsProper) {name' : Term → Var}
    (h : ∀ t u, f.Lifts t ∨ g.Lifts t → f.Lifts u ∨ g.Lifts u → name t = name u →
      name' t = name' u) (heq : f.atom name = g.atom name) : f.atom name' = g.atom name' := by
  classical
  -- the other name of a term is read off the name that it has
  let r (v : Var) : Var :=
    if hv : ∃ t, (f.Lifts t ∨ g.Lifts t) ∧ name t = v then name' hv.choose else v
  have hr : ∀ t, f.Lifts t ∨ g.Lifts t → name' t = (r ∘ name) t := by
    intro t ht
    have hv : ∃ u, (f.Lifts u ∨ g.Lifts u) ∧ name u = name t := ⟨t, ht, rfl⟩
    have hchosen : r (name t) = name' hv.choose := dif_pos hv
    exact (h t _ ht hv.choose_spec.1 hv.choose_spec.2.symm).trans hchosen.symm
  rw [atom_congr fun t ht => hr t (.inl ht), ← hf.rename_atom r, heq, hg.rename_atom r]
  exact (atom_congr fun t ht => hr t (.inr ht)).symm

/-- The variables of a lifted atom are those of the terms at its input and output places. -/
theorem IsProper.var_mem_atom (h : f.IsProper) {v : Var} :
    Term.var v ∈ HasTerms.subterms (f.atom name) ↔ ∃ t, f.Lifts t ∧ name t = v := by
  have himage : ∀ s ∈ f.places, (s.image name).occurs v = true ↔ s.IsLifted ∧ name s.2 = v := by
    intro s hs
    unfold Place.image
    split
    · rename_i hlift
      simp [Term.occurs, hlift]
    · rename_i hlift
      refine iff_of_false (fun hv => ?_) fun hs => hlift hs.1
      have hvar := List.all_eq_true.1 (h.ground_place hs).1 _ ((Term.var_mem_subterms v s.2).2 hv)
      cases hvar
  rw [atom, fill, Predicate.var_mem_replaceVars]
  constructor
  · rintro ⟨x, hx, hv⟩
    obtain ⟨s, hs, rfl⟩ := h.exists_place hx
    rw [h.lookup_images hs, Option.getD_some, himage s hs] at hv
    exact ⟨s.2, ⟨s, hs, hv.1, rfl⟩, hv.2⟩
  · rintro ⟨t, ⟨s, hs, hlift, rfl⟩, hv⟩
    have hslot : s.1 ∈ f.template.slots := (List.of_mem_zip hs).1
    refine ⟨s.1.var, (h.template.occurs _).2 ⟨s.1, hslot, rfl⟩, ?_⟩
    rw [h.lookup_images hs, Option.getD_some, himage s hs]
    exact ⟨hlift, hv⟩

/-- Answers that are lifted to one atom have the same terms at input and output places. -/
theorem IsProper.lifts_of_atom_eq (hf : f.IsProper) (hg : g.IsProper)
    (hname : ∀ t u, f.Lifts t → g.Lifts u → name t = name u → t = u)
    (heq : f.atom name = g.atom name) (ht : f.Lifts t) : g.Lifts t := by
  have hv : Term.var (name t) ∈ HasTerms.subterms (f.atom name) := hf.var_mem_atom.2 ⟨t, ht, rfl⟩
  rw [heq, hg.var_mem_atom] at hv
  obtain ⟨u, hu, hut⟩ := hv
  rwa [hname t u ht hu hut.symm]

end

/-! ## Findings read off a valuation -/

/-- The terms that a valuation gives to the variables of the slots. -/
def ofValuation (t : Template) (η : Valuation) : Finding := ⟨t, t.slots.map fun s => η.value s.var⟩

section

variable {t : Template} {η : Valuation}

theorem places_ofValuation :
    (ofValuation t η).places = t.slots.map fun s => (s, η.value s.var) := by
  show t.slots.zip (t.slots.map fun s => η.value s.var) = _
  induction t.slots with
  | nil => rfl
  | cons s slots ih => rw [List.map_cons, List.zip_cons_cons, ih, List.map_cons]

theorem isProper_ofValuation (ht : t.IsProper)
    (hground : ∀ u ∈ (ofValuation t η).terms, isGround u = true) : (ofValuation t η).IsProper := by
  refine ⟨ht, List.length_map _, hground, fun u hu => ?_⟩
  obtain ⟨s, -, rfl⟩ := List.mem_map.1 hu
  exact η.normal _

theorem IsProper.fact_ofValuation (h : (ofValuation t η).IsProper) :
    (ofValuation t η).fact = η.apply t.atom := by
  refine h.fill_eq fun s hs => ?_
  rw [places_ofValuation] at hs
  obtain ⟨x, -, rfl⟩ := List.mem_map.1 hs
  rfl

theorem termsAt_ofValuation {sign : Sign} : Place.termsAt sign (ofValuation t η).places =
    ((t.slots.filter fun s => s.placeholder.sign == sign).map Slot.var).map η.value := by
  rw [Place.termsAt, places_ofValuation, List.filter_map, List.map_map, List.map_map]
  rfl

/-- The terms of a proper finding are those that some valuation gives. -/
theorem IsProper.exists_valuation {f : Finding} (h : f.IsProper) :
    ∃ η : Valuation, f = .ofValuation f.template η := by
  have hterm : ∀ v, (((f.images Prod.snd).lookup v).getD (.symbol "")).isNormal = true := by
    intro v
    cases hv : (f.images Prod.snd).lookup v with
    | none => rfl
    | some t =>
      obtain ⟨s, hs, heq⟩ := List.mem_map.1
        (List.mem_reverse.1 (Substitution.mem_of_lookup_eq_some hv))
      obtain ⟨-, rfl⟩ := Prod.mk.inj heq
      exact (h.ground_place hs).2
  refine ⟨⟨_, hterm⟩, congrArg (Finding.mk f.template) ?_⟩
  have hsnd : f.places.map Prod.snd = f.terms := List.map_snd_zip (Nat.le_of_eq h.length)
  rw [← hsnd, ← h.map_fst_places, List.map_map]
  refine List.map_congr_left fun s hs => ?_
  show s.2 = ((f.images Prod.snd).lookup s.1.var).getD _
  rw [h.lookup_images hs, Option.getD_some]

end
end Finding
end Horn
