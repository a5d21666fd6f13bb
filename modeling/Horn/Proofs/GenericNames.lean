import Horn.Proofs.Valuation

/-!
Generic names.  The letters of a position determine it, so a renaming to generic names takes different
variables to different ones.
-/

namespace Horn

theorem genericLetters_ne_nil (index : Nat) : genericLetters index ≠ [] := by
  rw [genericLetters]
  split <;> exact List.cons_ne_nil _ _

/-- The letter that a remainder stands for. -/
theorem letter_inj {m n : Nat} (hm : m < 26) (hn : n < 26)
    (h : Char.ofNat ('A'.toNat + m) = Char.ofNat ('A'.toNat + n)) : m = n := by
  have hcode : ∀ k < 26, (Char.ofNat ('A'.toNat + k)).toNat = 65 + k := by decide
  have hmn := congrArg Char.toNat h
  rw [hcode m hm, hcode n hn] at hmn
  omega

theorem genericLetters_inj {i j : Nat} (h : genericLetters i = genericLetters j) : i = j := by
  induction i using genericLetters.induct generalizing j with
  | case1 i hi =>
    rw [genericLetters.eq_def i, genericLetters.eq_def j, if_pos hi] at h
    split at h
    · have hletter := letter_inj (by omega) (by omega) (List.head_eq_of_cons_eq h)
      omega
    · exact absurd (List.tail_eq_of_cons_eq h).symm (genericLetters_ne_nil _)
  | case2 i hi ih =>
    rw [genericLetters.eq_def i, genericLetters.eq_def j, if_neg hi] at h
    split at h
    · exact absurd (List.tail_eq_of_cons_eq h) (genericLetters_ne_nil _)
    · have hletter := letter_inj (by omega) (by omega) (List.head_eq_of_cons_eq h)
      have hrest := ih (List.tail_eq_of_cons_eq h)
      omega

theorem genericName_inj {i j : Nat} (h : genericName i = genericName j) : i = j :=
  genericLetters_inj (List.reverse_inj.1 (String.ofList_inj.1 h))

theorem lookup_mapIdx {α : Type} (g : Nat → α) {vs : List Var} {v : Var} (h : v ∈ vs) :
    ∃ i, vs[i]? = some v ∧ (vs.mapIdx fun i v => (v, g i)).lookup v = some (g i) := by
  induction vs generalizing g with
  | nil => cases h
  | cons w vs ih =>
    rw [List.mapIdx_cons]
    by_cases hvw : v = w
    · exact ⟨0, by rw [hvw]; rfl, by rw [hvw, List.lookup_cons_self]⟩
    · obtain ⟨i, hi, hlookup⟩ := ih (fun i => g (i + 1)) ((List.mem_cons.1 h).resolve_left hvw)
      refine ⟨i + 1, hi, ?_⟩
      rw [List.lookup_cons, beq_eq_false_iff_ne.2 hvw]
      exact hlookup

/-- The new name of a variable; one that has none keeps its own. -/
def Renaming.image (ρ : Renaming) (v : Var) : Var := (ρ.lookup v).getD v

theorem Renaming.apply_eq_instantiate {α : Type} [HasTerms α] [LawfulTerms α] (ρ : Renaming) (x : α) :
    ρ.apply x = instantiate (fun v => .var (ρ.image v)) x := by
  rw [Renaming.apply, replaceVars_eq_instantiate]
  exact instantiate_congr fun v _ => Option.getD_map Term.var v _

/-- Different variables get different generic names. -/
theorem image_genericRenaming_inj {vs : List Var} {v w : Var} (hv : v ∈ vs) (hw : w ∈ vs)
    (h : (genericRenaming vs).image v = (genericRenaming vs).image w) : v = w := by
  obtain ⟨i, hi, hvi⟩ := lookup_mapIdx (fun i => Var.named (genericName i)) hv
  obtain ⟨j, hj, hwj⟩ := lookup_mapIdx (fun i => Var.named (genericName i)) hw
  have hnames : Var.named (genericName i) = Var.named (genericName j) := by
    unfold Renaming.image genericRenaming at h
    rwa [hvi, hwj] at h
  obtain rfl := genericName_inj (congrArg Var.symbol hnames)
  exact Option.some.inj (hi.symm.trans hj)

end Horn
