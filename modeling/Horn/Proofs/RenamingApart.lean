import Horn.Proofs.Domains
import Horn.Proofs.GenericNames
import Horn.Proofs.Relabelling

/-!
Renaming apart as a whole.  Clauses that are renamed with one renaming get their variables replaced
through one map, which each of them extends.  A fresh variable has a text that is not in use, and
its text is in use from then on, so the images have other texts than everything met before and
than each other.  The texts of a substitution are those of its domain, hence the images are outside
it.
-/

namespace Horn

/-! ## The search for a free name -/

/-- The tallies before the free one have names that are taken, and so there are not more of them
than names. -/
theorem Scope.firstFree_tries (symbol : String) (names : Std.TreeSet String) (tally : Nat) :
    ∃ n ≤ names.size, firstFree symbol names tally = tally + n ∧
      ∀ k < n, Var.text ⟨symbol, tally + k⟩ ∈ names := by
  fun_induction firstFree symbol names tally with
  | case1 names tally hmem ih =>
    obtain ⟨n, hn, hfree, htaken⟩ := ih
    have hsize : (names.erase (Var.text ⟨symbol, tally⟩)).size + 1 = names.size := by
      have hpos : names.size ≠ 0 := fun h0 =>
        Std.TreeSet.not_mem_of_isEmpty (by simp [Std.TreeSet.isEmpty_eq_size_eq_zero, h0]) hmem
      rw [Std.TreeSet.size_erase, if_pos (Std.TreeSet.contains_iff_mem.2 hmem)]
      omega
    refine ⟨n + 1, by omega, by omega, fun k hk => ?_⟩
    cases k with
    | zero => exact hmem
    | succ k =>
      have hlater := (Std.TreeSet.mem_erase.1 (htaken k (by omega))).2
      rwa [Nat.add_right_comm] at hlater
  | case2 names tally hfree => exact ⟨0, Nat.zero_le _, rfl, fun k hk => absurd hk k.not_lt_zero⟩

namespace Renaming

variable {α : Type} [HasTerms α] [LawfulTerms α] {ρ ρ' : Renaming} {v w : Var} {x : α}

/-- The first gives every image that the second gives. -/
def Extends (ρ' ρ : Renaming) : Prop := ∀ v w, ρ.lookup v = some w → ρ'.lookup v = some w

theorem Extends.refl (ρ : Renaming) : ρ.Extends ρ := fun _ _ h => h

theorem Extends.trans {ρ'' : Renaming} (h : ρ''.Extends ρ') (h' : ρ'.Extends ρ) : ρ''.Extends ρ :=
  fun v w hv => h v w (h' v w hv)

theorem image_of_lookup (h : ρ.lookup v = some w) : ρ.image v = w := by
  rw [image, h, Option.getD_some]

theorem Extends.image_eq (h : ρ'.Extends ρ) (hv : (ρ.lookup v).isSome = true) :
    ρ'.image v = ρ.image v := by
  obtain ⟨w, hw⟩ := Option.isSome_iff_exists.1 hv
  rw [image_of_lookup hw, image_of_lookup (h v w hw)]

/-- In list normal form nothing but the variables changes. -/
theorem apply_of_normal (ρ : Renaming) (hx : Normal x) : ρ.apply x = relabel ρ.image x := by
  have hself : instantiate Term.var x = x := Valuation.apply_of_normal hx
  have hrelabel := relabel_instantiate ρ.image Term.var x
  rw [hself] at hrelabel
  rw [apply_eq_instantiate]
  exact hrelabel.symm

end Renaming

namespace Substitution

/-- The renaming has images for the variables `V` and for no others.  It maps them one to one to
variables outside the domain whose texts differ from each other and from those of the domain. -/
structure MapsApart (σ : Substitution) (V : Set Var) (ρ : Renaming) : Prop where
  recorded : ∀ v, (ρ.lookup v).isSome = true ↔ v ∈ V
  oneToOne : Set.InjOn ρ.image V
  outside : ∀ v ∈ V, ρ.image v ∉ σ.domain
  unlike : ∀ v ∈ V, ∀ u ∈ σ.domain, (ρ.image v).text ≠ u.text
  distinct : ∀ v ∈ V, ∀ w ∈ V, v ≠ w → (ρ.image v).text ≠ (ρ.image w).text

/-- Renames forms one after the other with the same renaming. -/
def renameAll {α : Type} [HasTerms α] (state : Renaming × Substitution) :
    List α → List α × Renaming × Substitution
  | [] => ([], state)
  | x :: xs =>
    let (y, state) := state.2.rename state.1 x
    let (ys, state) := renameAll state xs
    (y :: ys, state)

/-- What has been renamed since a substitution, and what that has left. -/
structure Renamed (σ : Substitution) (V : Set Var) (state : Renaming × Substitution) : Prop where
  apart : σ.IsApart state
  recorded : ∀ v, (state.1.lookup v).isSome = true ↔ v ∈ V
  distinct : ∀ e ∈ state.1, ∀ e' ∈ state.1, e.2.text = e'.2.text → e.1 = e'.1

section

variable {α : Type} [HasTerms α] {σ : Substitution} {V : Set Var} {state : Renaming × Substitution}

theorem renamed_nil (σ : Substitution) : σ.Renamed ∅ ([], σ) :=
  ⟨isApart_nil σ, fun v => by simp, fun _ he => absurd he List.not_mem_nil⟩

theorem Renamed.congr {W : Set Var} (h : σ.Renamed V state) (hVW : ∀ v, v ∈ V ↔ v ∈ W) :
    σ.Renamed W state :=
  ⟨h.apart, fun v => (h.recorded v).trans (hVW v), h.distinct⟩

/-- One more variable: it has an image already, or its image is new and unlike the others. -/
theorem Renamed.renameVar (h : σ.Renamed V state) (v : Var) :
    σ.Renamed (insert v V) (renameVar state v) ∧ (renameVar state v).1.Extends state.1 := by
  have hapart := (h.apart.renameVar v).1
  obtain ⟨ρ, τ⟩ := state
  by_cases hv : (ρ.lookup v).isSome = true
  · have hsame : Substitution.renameVar (ρ, τ) v = (ρ, τ) := if_pos hv
    have hmem : v ∈ V := (h.recorded v).1 hv
    rw [hsame, Set.insert_eq_of_mem hmem]
    exact ⟨h, .refl ρ⟩
  · have hnone : ρ.lookup v = none := Option.not_isSome_iff_eq_none.1 hv
    have hnew : Substitution.renameVar (ρ, τ) v =
        ((v, (τ.fresh v.symbol).1) :: ρ, (τ.fresh v.symbol).2) := if_neg hv
    have hunlike : ∀ e ∈ ρ, (τ.fresh v.symbol).1.text ≠ e.2.text := fun e he heq =>
      fresh_not_mem τ v.symbol (heq ▸ h.apart.known e he)
    have hlookup : ∀ w, ((v, (τ.fresh v.symbol).1) :: ρ).lookup w =
        if w = v then some (τ.fresh v.symbol).1 else ρ.lookup w := by
      intro w
      by_cases hw : w = v
      · rw [if_pos hw, hw, List.lookup_cons_self]
      · rw [if_neg hw, List.lookup_cons, beq_eq_false_iff_ne.2 hw]
    rw [hnew] at hapart ⊢
    refine ⟨⟨hapart, fun w => ?_, ?_⟩, fun w u hw => ?_⟩
    · rw [hlookup, Set.mem_insert_iff]
      by_cases hw : w = v
      · simp [hw]
      · simpa [hw] using h.recorded w
    · intro e he e' he' heq
      rcases List.mem_cons.1 he with rfl | he <;> rcases List.mem_cons.1 he' with rfl | he'
      · rfl
      · exact absurd heq (hunlike e' he')
      · exact absurd heq.symm (hunlike e he)
      · exact h.distinct e he e' he' heq
    · have hne : w ≠ v := by
        rintro rfl
        rw [hnone] at hw
        cases hw
      rw [hlookup, if_neg hne]
      exact hw

theorem Renamed.foldl_renameVar (h : σ.Renamed V state) (vs : List Var) :
    σ.Renamed (V ∪ { v | v ∈ vs }) (vs.foldl Substitution.renameVar state) ∧
      (vs.foldl Substitution.renameVar state).1.Extends state.1 := by
  induction vs generalizing state V with
  | nil => exact ⟨h.congr (by simp), .refl _⟩
  | cons v vs ih =>
    obtain ⟨hstep, hextends⟩ := h.renameVar v
    obtain ⟨hall, hmore⟩ := ih hstep
    refine ⟨hall.congr fun w => ?_, hmore.trans hextends⟩
    simp only [Set.mem_union, Set.mem_insert_iff, Set.mem_ofPred_eq, List.mem_cons]
    rw [or_comm (a := w = v), or_assoc]

theorem Renamed.rename (h : σ.Renamed V state) (x : α) :
    σ.Renamed (V ∪ { v | v ∈ «variables» x }) (state.2.rename state.1 x).2 ∧
      (state.2.rename state.1 x).2.1.Extends state.1 :=
  h.foldl_renameVar («variables» x)

theorem Renamed.image_mem (h : σ.Renamed V state) {v : Var} (hv : v ∈ V) :
    (v, state.1.image v) ∈ state.1 := by
  obtain ⟨w, hw⟩ := Option.isSome_iff_exists.1 ((h.recorded v).2 hv)
  rw [Renaming.image_of_lookup hw]
  exact mem_of_lookup_eq_some hw

theorem Renamed.mapsApart (h : σ.Renamed V state) (hσ : σ.IsClosed) : σ.MapsApart V state.1 := by
  have hunlike : ∀ v ∈ V, ∀ u ∈ σ.domain, (state.1.image v).text ≠ u.text := by
    intro v hv u hu heq
    exact h.apart.unused _ (h.image_mem hv) ((hσ.named _).2 ⟨u, hu, heq.symm⟩)
  have hdistinct : ∀ v ∈ V, ∀ w ∈ V, v ≠ w → (state.1.image v).text ≠ (state.1.image w).text :=
    fun v hv w hw hne heq => hne (h.distinct _ (h.image_mem hv) _ (h.image_mem hw) heq)
  refine ⟨h.recorded, fun v hv w hw heq => ?_, fun v hv hmem => hunlike v hv _ hmem rfl, hunlike,
    hdistinct⟩
  by_contra hne
  exact hdistinct v hv w hw hne (congrArg Var.text heq)

variable [LawfulTerms α]

/-- A form that has been renamed stays an image of its original, also under later extensions. -/
theorem Renamed.relabel_extends {ρ : Renaming} (h : σ.Renamed V state) (hρ : ρ.Extends state.1)
    {x : α} (hx : Over V x) : relabel ρ.image x = relabel state.1.image x :=
  hx.relabel_congr fun v hv => hρ.image_eq ((h.recorded v).2 hv)

/-- Each form is renamed through the map that there is in the end. -/
theorem Renamed.renameAll (h : σ.Renamed V state) {xs : List α} (hxs : ∀ x ∈ xs, Normal x) :
    let all := Substitution.renameAll state xs
    σ.Renamed (V ∪ { v | ∃ x ∈ xs, v ∈ «variables» x }) all.2 ∧ all.2.1.Extends state.1 ∧
      all.1 = xs.map (relabel all.2.1.image) := by
  induction xs generalizing state V with
  | nil => exact ⟨h.congr (by simp), .refl _, rfl⟩
  | cons x xs ih =>
    intro all
    obtain ⟨hx, hrest⟩ := List.forall_mem_cons.1 hxs
    obtain ⟨hfirst, hextends⟩ := h.rename x
    obtain ⟨hall, hmore, heq⟩ := ih hfirst hrest
    have hover : Over (V ∪ { v | v ∈ «variables» x }) x := fun v hv => .inr (mem_variables_iff.2 hv)
    have hhead : (state.2.rename state.1 x).1 = relabel all.2.1.image x :=
      (Renaming.apply_of_normal _ hx).trans (hfirst.relabel_extends hmore hover).symm
    refine ⟨hall.congr fun v => ?_, hmore.trans hextends, congrArg₂ List.cons hhead heq⟩
    simp only [Set.mem_union, Set.mem_ofPred_eq, List.exists_mem_cons_iff, or_assoc]

end

/-- A fresh variable has the first tally whose name is free. -/
theorem fresh_tries (σ : Substitution) (symbol : String) :
    ∃ n ≤ σ.names.size, (∀ k < n, Var.text ⟨symbol, σ.scope.tallies.getD symbol 0 + k⟩ ∈ σ.names) ∧
      (σ.fresh symbol).1 = ⟨symbol, σ.scope.tallies.getD symbol 0 + n⟩ ∧
      (σ.fresh symbol).1.text ∉ σ.names := by
  obtain ⟨n, hn, hfree, htaken⟩ :=
    Scope.firstFree_tries symbol σ.names (σ.scope.tallies.getD symbol 0)
  exact ⟨n, hn, htaken, congrArg (Var.mk symbol) hfree, fresh_not_mem σ symbol⟩

/-- A clause is renamed through a map that keeps its variables apart from each other and from everything
met before, and more clauses renamed with the same renaming extend this map.  Every search for a fresh
variable ends. -/
theorem Reachable.rename_apart {σ : Substitution} (hσ : σ.Reachable) {c : Clause} {cs : List Clause}
    (hnormal : ∀ d ∈ c :: cs, Normal d) :
    let first := σ.rename [] c
    let all := renameAll first.2 cs
    (first.1 = relabel first.2.1.image c ∧ σ.MapsApart { v | v ∈ «variables» c } first.2.1) ∧
      (all.2.1.Extends first.2.1 ∧ first.1 :: all.1 = (c :: cs).map (relabel all.2.1.image) ∧
        σ.MapsApart { v | ∃ d ∈ c :: cs, v ∈ «variables» d } all.2.1) ∧
      ∀ (τ : Substitution) (symbol : String), ∃ n ≤ τ.names.size,
        (∀ k < n, Var.text ⟨symbol, τ.scope.tallies.getD symbol 0 + k⟩ ∈ τ.names) ∧
        (τ.fresh symbol).1 = ⟨symbol, τ.scope.tallies.getD symbol 0 + n⟩ ∧
        (τ.fresh symbol).1.text ∉ τ.names := by
  intro first all
  obtain ⟨hc, hcs⟩ := List.forall_mem_cons.1 hnormal
  have hfirst : σ.Renamed { v | v ∈ «variables» c } first.2 :=
    ((renamed_nil σ).rename c).1.congr fun v => by simp
  obtain ⟨hall, hextends, hmore⟩ := hfirst.renameAll hcs
  have happly : first.1 = relabel first.2.1.image c := Renaming.apply_of_normal _ hc
  have hlater : relabel all.2.1.image c = relabel first.2.1.image c :=
    hfirst.relabel_extends hextends fun v hv => mem_variables_iff.2 hv
  refine ⟨⟨happly, hfirst.mapsApart hσ.isClosed⟩, ⟨hextends, ?_, ?_⟩, fresh_tries⟩
  · exact congrArg₂ List.cons (happly.trans hlater.symm) hmore
  · exact (hall.congr fun v => by simp).mapsApart hσ.isClosed

/-- With `X` and `X1` in use, `p(X)` becomes `p(X2)`, and then `q(X, X1)` becomes `q(X2, X11)`. -/
theorem rename_apart_twice :
    let x : Var := .named "X"
    let x1 : Var := .named "X1"
    let c : Clause := .fact (.predicate ⟨"p", [.var x]⟩)
    let d : Clause := .fact (.predicate ⟨"q", [.var x, .var x1]⟩)
    let σ := empty.addVariables d
    let first := σ.rename [] c
    let all := renameAll first.2 [d]
    σ.Reachable ∧ (∀ e ∈ [c, d], Normal e) ∧
      first.1 = .fact (.predicate ⟨"p", [.var ⟨"X", 2⟩]⟩) ∧
      all.1 = [.fact (.predicate ⟨"q", [.var ⟨"X", 2⟩, .var ⟨"X1", 1⟩]⟩)] ∧
      σ.MapsApart { v | ∃ e ∈ [c, d], v ∈ «variables» e } all.2.1 := by
  intro x x1 c d σ first all
  have hσ : σ.Reachable := .addVariables d .empty
  have hnormal : ∀ e ∈ [c, d], Normal e := by decide
  exact ⟨hσ, hnormal, by decide +kernel, by decide +kernel, (hσ.rename_apart hnormal).2.1.2.2⟩

end Substitution
end Horn
