import Horn.Proofs.RenamingApart

/-!
Generic names as a canonical form.  A clause with generic names is a variant of the clause, and
which one it is depends on the places where variables stand and not on the variables that stand
there; so two clauses get the same form just when they are variants of each other.
-/

namespace Horn

variable {f : Var → Var}

/-! ## The variables of a relabelled form -/

namespace Term

theorem subterms_relabel (f : Var → Var) (t : Term) :
    (t.relabel f).subterms = t.subterms.map (relabel f) := by
  have hall (ts : List Term) (ih : ∀ t ∈ ts, (t.relabel f).subterms = t.subterms.map (relabel f)) :
      subtermsAll (ts.map (relabel f)) = (subtermsAll ts).map (relabel f) := by
    induction ts with
    | nil => rfl
    | cons t ts ihts =>
      obtain ⟨hfirst, hrest⟩ := List.forall_mem_cons.1 ih
      rw [List.map_cons, subtermsAll, subtermsAll, List.map_append, hfirst, ihts hrest]
  induction t using Term.induct with
  | const c => rfl
  | placeholder p => rfl
  | var v => rfl
  | compound name args ih =>
    rw [relabel_compound, subterms, hall args ih, subterms, List.map_cons, relabel_compound]
  | list items tail ihitems ihtail =>
    have htail : subtermsTail (tail.map (relabel f)) = (subtermsTail tail).map (relabel f) := by
      cases tail with
      | none => rfl
      | some t => exact ihtail t rfl
    rw [relabel_list, subterms, hall items ihitems, htail, subterms, List.map_cons, List.map_append,
      relabel_list]

end Term

/-- The subterms of a form stay in their places. -/
def KeepsPlaces {α : Type} [HasTerms α] (f : Var → Var) (x : α) : Prop :=
  HasTerms.subterms (relabel f x) = (HasTerms.subterms x).map (Term.relabel f)

theorem keepsPlaces_term (f : Var → Var) (t : Term) : KeepsPlaces f t := by
  rw [KeepsPlaces, relabel_term]
  exact Term.subterms_relabel f t

theorem keepsPlaces_list {α : Type} [HasTerms α] {xs : List α} (h : ∀ x ∈ xs, KeepsPlaces f x) :
    KeepsPlaces f xs := by
  show (xs.map (relabel f)).flatMap HasTerms.subterms = (xs.flatMap HasTerms.subterms).map _
  rw [List.flatMap_map, List.map_flatMap]
  exact List.flatMap_congr h

theorem keepsPlaces_predicate (f : Var → Var) (p : Predicate) : KeepsPlaces f p :=
  keepsPlaces_list fun t _ => keepsPlaces_term f t

theorem keepsPlaces_expr (f : Var → Var) (e : Expr) : KeepsPlaces f e := by
  induction e with
  | term t => exact keepsPlaces_term f t
  | binary op l r ihl ihr => exact (congrArg₂ (· ++ ·) ihl ihr).trans List.map_append.symm
  | neg e ih => exact ih
  | call m e ih => exact ih

theorem keepsPlaces_atom (f : Var → Var) (a : Atom) : KeepsPlaces f a := by
  cases a with
  | predicate p => exact keepsPlaces_predicate f p
  | compare c =>
    exact (congrArg₂ (· ++ ·) (keepsPlaces_expr f c.left) (keepsPlaces_expr f c.right)).trans
      List.map_append.symm

theorem keepsPlaces_clause (f : Var → Var) (c : Clause) : KeepsPlaces f c := by
  have hatoms : KeepsPlaces f (c.head.toList ++ c.body) :=
    keepsPlaces_list fun a _ => keepsPlaces_atom f a
  rw [KeepsPlaces, Clause.subterms_eq, Clause.subterms_eq, ← hatoms]
  obtain ⟨head, body⟩ := c
  cases head <;> rfl

/-- Labels that keep the elements of a list apart keep its repetitions. -/
theorem eraseDups_map {xs : List Var} (hf : Set.InjOn f { v | v ∈ xs }) :
    (xs.map f).eraseDups = xs.eraseDups.map f := by
  match xs with
  | [] => rfl
  | v :: vs =>
    have hother : (vs.map f).filter (fun w => !w == f v) = (vs.filter fun w => !w == v).map f := by
      rw [List.filter_map]
      refine congrArg (List.map f) (List.filter_congr fun w hw => ?_)
      have hsame : f w = f v ↔ w = v :=
        ⟨fun h => hf (List.mem_cons_of_mem _ hw) List.mem_cons_self h, fun h => h ▸ rfl⟩
      simp [hsame]
    have hless : Set.InjOn f { w | w ∈ vs.filter fun w => !w == v } :=
      hf.mono fun w hw => List.mem_cons_of_mem _ (List.mem_filter.1 hw).1
    rw [List.map_cons, List.eraseDups_cons, List.eraseDups_cons, hother, eraseDups_map hless,
      List.map_cons]
termination_by xs.length
decreasing_by exact Nat.lt_succ_of_le (List.length_filter_le _ _)

/-- The variables of a variant are the images of those of the clause, in the same order. -/
theorem variables_relabel {c : Clause} (hf : Set.InjOn f { v | v ∈ «variables» c }) :
    «variables» (relabel f c) = («variables» c).map f := by
  have hvars (ts : List Term) :
      (ts.map (Term.relabel f)).filterMap Term.asVar = (ts.filterMap Term.asVar).map f := by
    rw [List.filterMap_map, List.map_filterMap]
    refine List.filterMap_congr fun t _ => ?_
    cases t <;> rfl
  rw [«variables», keepsPlaces_clause f c, hvars, eraseDups_map, «variables»]
  exact hf.mono fun v hv => List.mem_eraseDups.2 hv

/-! ## Variants -/

namespace Clause

variable {c d e : Clause}

theorem mem_variables_relabel (hf : Set.InjOn f { v | v ∈ «variables» c }) {w : Var} :
    w ∈ «variables» (relabel f c) ↔ w ∈ f '' { v | v ∈ «variables» c } := by
  rw [variables_relabel hf, List.mem_map]
  rfl

theorem over_variables (c : Clause) : Over { v | v ∈ «variables» c } c :=
  fun _ hv => mem_variables_iff.2 hv

theorem IsVariant.symm (h : c.IsVariant d) : d.IsVariant c := by
  obtain ⟨f, hf, rfl⟩ := h
  refine ⟨Function.invFunOn f { v | v ∈ «variables» c }, ?_,
    (relabel_invFunOn hf c.over_variables).symm⟩
  exact (Function.invFunOn_injOn_image f _).mono fun w hw => (mem_variables_relabel hf).1 hw

theorem IsVariant.trans (hcd : c.IsVariant d) (hde : d.IsVariant e) : c.IsVariant e := by
  obtain ⟨f, hf, rfl⟩ := hcd
  obtain ⟨g, hg, rfl⟩ := hde
  refine ⟨fun v => g (f v), fun v hv w hw h => hf hv hw ?_, relabel_relabel g f c⟩
  exact hg ((mem_variables_relabel hf).2 ⟨v, hv, rfl⟩)
    ((mem_variables_relabel hf).2 ⟨w, hw, rfl⟩) h

/-- Labels do not disturb list normal form. -/
theorem IsVariant.normal (h : c.IsVariant d) (hc : Normal c) : Normal d := by
  obtain ⟨f, -, rfl⟩ := h
  have hself : instantiate Term.var c = c := Valuation.apply_of_normal hc
  rw [← hself, relabel_instantiate]
  exact Valuation.normal_apply ⟨fun v => .var (f v), fun _ => rfl⟩ c

end Clause

/-! ## The canonical form -/

/-- The variable at a place of the order of first occurrence gets the name of the place. -/
theorem image_genericRenaming {vs : List Var} (hvs : vs.Nodup) {i : Nat} {v : Var}
    (hv : vs[i]? = some v) : (genericRenaming vs).image v = Var.named (genericName i) := by
  obtain ⟨j, hj, hlookup⟩ := lookup_mapIdx (fun i => Var.named (genericName i))
    (List.mem_of_getElem? hv)
  have hlt : i < vs.length := List.getElem?_eq_some_iff.1 hv |>.1
  obtain rfl : i = j := (List.getElem?_inj hlt hvs).1 (hv.trans hj.symm)
  rw [Renaming.image, genericRenaming, hlookup]
  rfl

/-- In list normal form, generic names are labels. -/
theorem withGenericNames_eq_relabel {c : Clause} (hc : Normal c) :
    withGenericNames c = relabel (genericRenaming («variables» c)).image c :=
  Renaming.apply_of_normal _ hc

theorem nodup_variables (c : Clause) : («variables» c).Nodup := nodup_eraseDups _

theorem injOn_genericRenaming (vs : List Var) :
    Set.InjOn (genericRenaming vs).image { v | v ∈ vs } :=
  fun _ hv _ hw h => image_genericRenaming_inj hv hw h

theorem isVariant_withGenericNames {c : Clause} (hc : Normal c) :
    c.IsVariant (withGenericNames c) :=
  ⟨_, injOn_genericRenaming _, withGenericNames_eq_relabel hc⟩

/-- Variants have their variables in the same places, which get the same names. -/
theorem withGenericNames_eq_of_isVariant {c d : Clause} (hc : Normal c) (h : c.IsVariant d) :
    withGenericNames d = withGenericNames c := by
  have hd := h.normal hc
  obtain ⟨f, hf, rfl⟩ := h
  rw [withGenericNames_eq_relabel hd, withGenericNames_eq_relabel hc, relabel_relabel]
  refine c.over_variables.relabel_congr fun v hv => ?_
  obtain ⟨i, hi⟩ := List.mem_iff_getElem?.1 hv
  rw [image_genericRenaming (nodup_variables c) hi]
  refine image_genericRenaming (nodup_variables _) ?_
  rw [variables_relabel hf, List.getElem?_map, hi]
  rfl

theorem withGenericNames_eq_iff {c d : Clause} (hc : Normal c) (hd : Normal d) :
    withGenericNames c = withGenericNames d ↔ c.IsVariant d := by
  refine ⟨fun h => ?_, fun h => (withGenericNames_eq_of_isVariant hc h).symm⟩
  exact (isVariant_withGenericNames hc).trans (h ▸ (isVariant_withGenericNames hd).symm)

theorem variables_withGenericNames {c : Clause} (hc : Normal c) :
    «variables» (withGenericNames c) =
      («variables» c).mapIdx fun i _ => Var.named (genericName i) := by
  rw [withGenericNames_eq_relabel hc, variables_relabel (injOn_genericRenaming _)]
  refine List.ext_getElem? fun i => ?_
  rw [List.getElem?_map, List.getElem?_mapIdx]
  cases hi : («variables» c)[i]? with
  | none => rfl
  | some v => exact congrArg some (image_genericRenaming (nodup_variables c) hi)

/-- Generic names are a canonical form for variants: two clauses get the same one just when they are
variants, it is a variant in which the variables are named by their places in the order of first
occurrence, and naming it again changes nothing. -/
theorem withGenericNames_canonical (c d : Clause) (hc : Normal c) (hd : Normal d) :
    (withGenericNames c = withGenericNames d ↔ c.IsVariant d) ∧
    withGenericNames (withGenericNames c) = withGenericNames c ∧
    (∃ f : Var → Var, Set.InjOn f { v | v ∈ «variables» c } ∧ withGenericNames c = relabel f c ∧
      ∀ i v, («variables» c)[i]? = some v → f v = Var.named (genericName i)) ∧
    «variables» (withGenericNames c) =
      («variables» c).mapIdx fun i _ => Var.named (genericName i) :=
  ⟨withGenericNames_eq_iff hc hd,
    withGenericNames_eq_of_isVariant hc (isVariant_withGenericNames hc),
    ⟨_, injOn_genericRenaming _, withGenericNames_eq_relabel hc,
      fun _ _ => image_genericRenaming (nodup_variables c)⟩,
    variables_withGenericNames hc⟩

namespace Sample

/-- The clause `p(x, y) :- q(y, x)` over two variables. -/
def crossing (x y : String) : Clause :=
  ⟨some (.predicate ⟨"p", [.var (.named x), .var (.named y)]⟩),
    [.predicate ⟨"q", [.var (.named y), .var (.named x)]⟩]⟩

end Sample

/-- The names `B` and `A` change places, as they must for the variant with `X` and `Y` to get the
same form. -/
theorem withGenericNames_canonical_crossing :
    withGenericNames (Sample.crossing "B" "A") = Sample.crossing "A" "B" ∧
    (Sample.crossing "B" "A").IsVariant (Sample.crossing "X" "Y") ∧
    withGenericNames (withGenericNames (Sample.crossing "B" "A")) =
      withGenericNames (Sample.crossing "B" "A") := by
  have hnames : withGenericNames (Sample.crossing "B" "A") = Sample.crossing "A" "B" := by
    decide +kernel
  have hsame : withGenericNames (Sample.crossing "B" "A") =
      withGenericNames (Sample.crossing "X" "Y") := by decide +kernel
  obtain ⟨hiff, htwice, -⟩ := withGenericNames_canonical (Sample.crossing "B" "A")
    (Sample.crossing "X" "Y") (by decide) (by decide)
  exact ⟨hnames, hiff.1 hsame, htwice⟩

end Horn
