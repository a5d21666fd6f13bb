import Horn.Proofs.Estimates
import Mathlib.Data.Finset.Lattice.Fold
import Mathlib.Order.Bounds.Basic

/-!
Depths as heights of derivations.  A variable is derived from the inputs of the head when it is one of
them or an atom provides it whose own inputs are derived; the height of a derivation is the number of
atoms on its longest branch.  Just the variables with a derivation have a depth, and it is the least of
the heights.

Depths can also be found by sweeping over the links and lowering depths in place until a sweep changes
nothing.  What one sweep lowers is read by the rest of it, so the depths on the way depend on the
order of the links; where the sweeps come to rest does not.
-/

namespace Horn
namespace Depths

variable {head l : Link} {links order : List Link} {depths : Depths} {state : Depths × Bool} {v w : Var}
  {d k n : Nat}

/-! ## Derivations -/

/-- How a variable is had from the inputs of the head. -/
inductive Derivation (head : Link) (links : List Link) : Var → Type where
  | input {v : Var} (given : v ∈ head.inputs) : Derivation head links v
  | output {v : Var} (l : Link) (listed : l ∈ links) (provided : v ∈ l.outputs)
    (premises : ∀ i : Fin l.inputs.length, Derivation head links l.inputs[i]) :
    Derivation head links v

namespace Derivation

/-- How many atoms are on the longest branch.  An atom without inputs is a branch of its own. -/
def height : {v : Var} → Derivation head links v → Nat
  | _, .input _ => 0
  | _, .output _ _ _ premises => (Finset.univ.sup fun i => (premises i).height) + 1

/-- The same derivation from other links among which are those that it uses. -/
def relist {links' : List Link} (h : links ⊆ links') :
    {v : Var} → Derivation head links v → Derivation head links' v
  | _, .input given => .input given
  | _, .output l listed provided premises =>
    .output l (h listed) provided fun i => (premises i).relist h

theorem height_relist {links' : List Link} (h : links ⊆ links') (t : Derivation head links v) :
    (t.relist h).height = t.height := by
  induction t with
  | input given => rfl
  | output l listed provided premises ih =>
    show (Finset.univ.sup fun i => ((premises i).relist h).height) + 1 = _
    rw [funext ih]
    rfl

/-- No derivation is lower than the depth. -/
theorem exists_depth_le (t : Derivation head links v) :
    ∃ d ≤ t.height, (ofLinks head links)[v]? = some d := by
  induction t with
  | input given => exact ⟨0, Nat.le_refl 0, depth_of_mem_inputs given⟩
  | output l listed provided premises ih =>
    refine exists_depth_output listed provided fun u hu => ?_
    obtain ⟨i, hi, rfl⟩ := List.mem_iff_getElem.1 hu
    obtain ⟨d, hd, hdepth⟩ := ih ⟨i, hi⟩
    exact ⟨d, hd.trans (Finset.le_sup (f := fun i => (premises i).height) (Finset.mem_univ _)), hdepth⟩

end Derivation

theorem depth_eq_zero_iff : (ofLinks head links)[v]? = some 0 ↔ v ∈ head.inputs := by
  refine ⟨fun h => ?_, depth_of_mem_inputs⟩
  have hlevel := (level_of_depth (r := links.length) h).2
  rw [getElem?_level_zero] at hlevel
  by_contra hv
  rw [if_neg hv] at hlevel
  cases hlevel

/-- A derivation that is no higher than the depth. -/
theorem exists_derivation (h : (ofLinks head links)[v]? = some d) :
    ∃ t : Derivation head links v, t.height ≤ d := by
  induction d using Nat.strong_induction_on generalizing v with
  | _ d ih =>
    cases d with
    | zero => exact ⟨.input (depth_eq_zero_iff.1 h), Nat.le_refl 0⟩
    | succ d =>
      rcases exists_provider h with hv | ⟨l, hl, hv, hinputs⟩
      · exact ⟨.input hv, Nat.zero_le _⟩
      have hpremises (i : Fin l.inputs.length) :
          ∃ t : Derivation head links l.inputs[i], t.height ≤ d := by
        obtain ⟨e, he, hdepth⟩ := hinputs l.inputs[i] (List.getElem_mem _)
        obtain ⟨t, ht⟩ := ih e he hdepth
        exact ⟨t, ht.trans (Nat.le_of_lt_succ he)⟩
      choose premises hheight using hpremises
      exact ⟨.output l hl hv premises, Nat.succ_le_succ (Finset.sup_le fun i _ => hheight i)⟩

theorem depth_iff_isLeast : (ofLinks head links)[v]? = some d ↔
    IsLeast (Set.range fun t : Derivation head links v => t.height) d := by
  have hleast {d : Nat} (h : (ofLinks head links)[v]? = some d) :
      IsLeast (Set.range fun t : Derivation head links v => t.height) d := by
    have hlower : ∀ t : Derivation head links v, d ≤ t.height := by
      intro t
      obtain ⟨e, he, hdepth⟩ := t.exists_depth_le
      obtain rfl : d = e := Option.some.inj (h.symm.trans hdepth)
      exact he
    obtain ⟨t, ht⟩ := exists_derivation h
    exact ⟨⟨t, Nat.le_antisymm ht (hlower t)⟩, Set.forall_mem_range.2 hlower⟩
  refine ⟨hleast, fun h => ?_⟩
  obtain ⟨t, -⟩ := h.1
  obtain ⟨e, -, hdepth⟩ := t.exists_depth_le
  rwa [h.unique (hleast hdepth)]

theorem contains_iff_nonempty :
    (ofLinks head links).contains v = true ↔ Nonempty (Derivation head links v) := by
  rw [contains_iff_exists]
  constructor
  · rintro ⟨d, hd⟩
    obtain ⟨t, -⟩ := exists_derivation hd
    exact ⟨t⟩
  · rintro ⟨t⟩
    obtain ⟨d, -, hd⟩ := t.exists_depth_le
    exact ⟨d, hd⟩

/-! ### Other links -/

section

variable {links' : List Link}

/-- More links give no greater depths. -/
theorem exists_depth_le_of_subset (h : links ⊆ links') (hv : (ofLinks head links)[v]? = some d) :
    ∃ e ≤ d, (ofLinks head links')[v]? = some e := by
  obtain ⟨t, ht⟩ := exists_derivation hv
  obtain ⟨e, he, hdepth⟩ := (t.relist h).exists_depth_le
  rw [t.height_relist] at he
  exact ⟨e, he.trans ht, hdepth⟩

theorem depth_of_subset (h : links ⊆ links') (h' : links' ⊆ links)
    (hv : (ofLinks head links)[v]? = some d) : (ofLinks head links')[v]? = some d := by
  obtain ⟨e, he, hdepth⟩ := exists_depth_le_of_subset h hv
  obtain ⟨d', hd', hdepth'⟩ := exists_depth_le_of_subset h' hdepth
  obtain rfl : d = d' := Option.some.inj (hv.symm.trans hdepth')
  rwa [Nat.le_antisymm he hd'] at hdepth

/-- Order and repetition of the links do not matter. -/
theorem getElem?_ofLinks_congr (h : links ⊆ links') (h' : links' ⊆ links) (v : Var) :
    (ofLinks head links)[v]? = (ofLinks head links')[v]? :=
  Option.ext fun _ => ⟨depth_of_subset h h', depth_of_subset h' h⟩

end

/-! ## Sweeps -/

/-- The largest depth of the inputs of a link, when all of them have one. -/
def level? (depths : Depths) (l : Link) : Option Nat :=
  l.inputs.foldlM (fun most v => (depths[v]?).map (max most)) 0

/-- Gives a variable a depth that it has none below, and notes that something changed. -/
def lower (n : Nat) (state : Depths × Bool) (v : Var) : Depths × Bool :=
  if (state.1[v]?).all (n < ·) then (state.1.insert v n, true) else state

/-- Lowers what a link provides, when all its inputs have depths. -/
def lowerOutputs (state : Depths × Bool) (l : Link) : Depths × Bool :=
  match state.1.level? l with
  | none => state
  | some n => l.outputs.foldl (lower (n + 1)) state

/-- Goes through the links once.  The flag tells whether anything changed. -/
def sweep (links : List Link) (depths : Depths) : Depths × Bool :=
  links.foldl lowerOutputs (depths, false)

/-- Sweeps until one changes nothing. -/
inductive Settles (links : List Link) : Nat → Depths → Depths → Prop where
  | rest {depths : Depths} (still : (sweep links depths).2 = false) :
    Settles links 1 depths (sweep links depths).1
  | again {depths settled : Depths} {n : Nat} (moved : (sweep links depths).2 = true)
    (more : Settles links n (sweep links depths).1 settled) : Settles links (n + 1) depths settled

theorem foldlM_level {vs : List Var} {most : Nat} :
    (vs.foldlM (fun most v => (depths[v]?).map (max most)) most = some n →
      most ≤ n ∧ ∀ v ∈ vs, ∃ e ≤ n, depths[v]? = some e) ∧
    (most ≤ d → (∀ v ∈ vs, ∃ e ≤ d, depths[v]? = some e) →
      ∃ n ≤ d, vs.foldlM (fun most v => (depths[v]?).map (max most)) most = some n) := by
  induction vs generalizing most with
  | nil =>
    refine ⟨fun h => ?_, fun hmost _ => ⟨most, hmost, rfl⟩⟩
    obtain rfl : most = n := Option.some.inj h
    exact ⟨Nat.le_refl _, nofun⟩
  | cons v vs ih =>
    rw [List.foldlM_cons]
    refine ⟨fun h => ?_, fun hmost hall => ?_⟩
    · obtain ⟨m, hm, h⟩ := Option.bind_eq_some_iff.1 h
      obtain ⟨e, he, rfl⟩ := Option.map_eq_some_iff.1 hm
      obtain ⟨hle, hvs⟩ := ih.1 h
      exact ⟨by omega, List.forall_mem_cons.2 ⟨⟨e, by omega, he⟩, hvs⟩⟩
    · obtain ⟨⟨e, hle, he⟩, hvs⟩ := List.forall_mem_cons.1 hall
      rw [he]
      exact ih.2 (by omega) hvs

theorem inputs_of_level? (h : depths.level? l = some n) :
    ∀ u ∈ l.inputs, ∃ e ≤ n, depths[u]? = some e := (foldlM_level (d := 0).1 h).2

theorem exists_level? (h : ∀ u ∈ l.inputs, ∃ e ≤ d, depths[u]? = some e) :
    ∃ n ≤ d, depths.level? l = some n := (foldlM_level (n := 0).2 (Nat.zero_le d) h)

theorem lower_cases (n : Nat) (state : Depths × Bool) (v : Var) :
    (lower n state v = state ∧ ∃ e ≤ n, state.1[v]? = some e) ∨
      lower n state v = (state.1.insert v n, true) ∧ ∀ e, state.1[v]? = some e → n < e := by
  unfold lower
  cases hv : state.1[v]? with
  | none => exact .inr ⟨rfl, nofun⟩
  | some e =>
    by_cases he : n < e
    · refine .inr ⟨if_pos (by simpa using he), fun e' he' => ?_⟩
      obtain rfl : e = e' := Option.some.inj he'
      exact he
    · exact .inl ⟨if_neg (by simpa using he), e, Nat.le_of_not_lt he, rfl⟩

theorem getElem?_insert_depth (depths : Depths) (v w : Var) (n : Nat) :
    (depths.insert v n)[w]? = if v = w then some n else depths[w]? := by
  rw [Std.TreeMap.getElem?_insert]
  exact if_congr Std.LawfulEqOrd.compare_eq_iff_eq rfl rfl

/-! ### What is lowered -/

/-- Every depth before is there after, or a smaller one is. -/
def Lowered (before after : Depths) : Prop :=
  ∀ (v : Var) (e : Nat), before[v]? = some e → ∃ d ≤ e, after[v]? = some d

theorem Lowered.refl (depths : Depths) : depths.Lowered depths := fun _ e h => ⟨e, Nat.le_refl e, h⟩

theorem Lowered.trans {a b c : Depths} (hab : a.Lowered b) (hbc : b.Lowered c) : a.Lowered c := by
  intro v e h
  obtain ⟨d, hd, h⟩ := hab v e h
  obtain ⟨c, hc, h⟩ := hbc v d h
  exact ⟨c, hc.trans hd, h⟩

theorem lowered_lower (n : Nat) (state : Depths × Bool) (v : Var) :
    state.1.Lowered (lower n state v).1 ∧ ∃ e ≤ n, (lower n state v).1[v]? = some e := by
  rcases lower_cases n state v with ⟨hsame, hle⟩ | ⟨hnew, hlt⟩
  · rw [hsame]
    exact ⟨.refl _, hle⟩
  · rw [hnew]
    refine ⟨fun w e he => ?_, n, Nat.le_refl n, by rw [getElem?_insert_depth, if_pos rfl]⟩
    rw [getElem?_insert_depth]
    split
    · rename_i hw
      exact ⟨n, Nat.le_of_lt (hlt e (hw ▸ he)), rfl⟩
    · exact ⟨e, Nat.le_refl e, he⟩

theorem lowered_foldl_lower (n : Nat) (vs : List Var) (state : Depths × Bool) :
    state.1.Lowered (vs.foldl (lower n) state).1 ∧
      ∀ v ∈ vs, ∃ e ≤ n, (vs.foldl (lower n) state).1[v]? = some e := by
  induction vs generalizing state with
  | nil => exact ⟨.refl _, nofun⟩
  | cons v vs ih =>
    obtain ⟨hfirst, e, he, hv⟩ := lowered_lower n state v
    obtain ⟨hrest, hvs⟩ := ih (lower n state v)
    obtain ⟨d, hd, hv⟩ := hrest v e hv
    exact ⟨hfirst.trans hrest, List.forall_mem_cons.2 ⟨⟨d, hd.trans he, hv⟩, hvs⟩⟩

theorem lowered_lowerOutputs (state : Depths × Bool) (l : Link) :
    state.1.Lowered (lowerOutputs state l).1 := by
  unfold lowerOutputs
  split
  · exact .refl _
  · exact (lowered_foldl_lower _ _ state).1

theorem lowered_foldl_lowerOutputs (order : List Link) (state : Depths × Bool) :
    state.1.Lowered (order.foldl lowerOutputs state).1 := by
  induction order generalizing state with
  | nil => exact .refl _
  | cons l order ih => exact (lowered_lowerOutputs state l).trans (ih _)

/-! ### One sweep -/

/-- No depth is too small, and up to a bound all are right. -/
structure ExactUpTo (head : Link) (links : List Link) (k : Nat) (depths : Depths) : Prop where
  above : ∀ (v : Var) (e : Nat), depths[v]? = some e → ∃ d ≤ e, (ofLinks head links)[v]? = some d
  exact : ∀ (v : Var) (d : Nat), (ofLinks head links)[v]? = some d → d ≤ k → depths[v]? = some d

theorem ExactUpTo.lower (h : ExactUpTo head links k state.1)
    (hv : ∃ d ≤ n, (ofLinks head links)[v]? = some d) :
    ExactUpTo head links k (lower n state v).1 := by
  rcases lower_cases n state v with ⟨hsame, -⟩ | ⟨hnew, hlt⟩
  · rwa [hsame]
  obtain ⟨d, hd, hv⟩ := hv
  rw [hnew]
  refine ⟨fun w e he => ?_, fun w e he hk => ?_⟩
  · rw [getElem?_insert_depth] at he
    split at he
    · rename_i hw
      obtain rfl : n = e := Option.some.inj he
      exact ⟨d, hd, hw ▸ hv⟩
    · exact h.above w e he
  · rw [getElem?_insert_depth, if_neg, h.exact w e he hk]
    rintro rfl
    obtain rfl : d = e := Option.some.inj (hv.symm.trans he)
    have := hlt d (h.exact v d hv hk)
    omega

theorem ExactUpTo.foldl_lower {vs : List Var} (h : ExactUpTo head links k state.1)
    (hvs : ∀ v ∈ vs, ∃ d ≤ n, (ofLinks head links)[v]? = some d) :
    ExactUpTo head links k (vs.foldl (Depths.lower n) state).1 :=
  List.foldlRecOn (motive := fun s : Depths × Bool => ExactUpTo head links k s.1) vs _ h
    fun _ hs v hv => hs.lower (hvs v hv)

/-- The depths that a link would give are not too small. -/
theorem ExactUpTo.outputs (h : ExactUpTo head links k depths) (hl : l ∈ links)
    (hn : depths.level? l = some n) (hv : v ∈ l.outputs) :
    ∃ d ≤ n + 1, (ofLinks head links)[v]? = some d := by
  refine exists_depth_output hl hv fun u hu => ?_
  obtain ⟨e, he, hdepth⟩ := inputs_of_level? hn u hu
  obtain ⟨d, hd, hdepth⟩ := h.above u e hdepth
  exact ⟨d, hd.trans he, hdepth⟩

theorem ExactUpTo.lowerOutputs (h : ExactUpTo head links k state.1) (hl : l ∈ links) :
    ExactUpTo head links k (lowerOutputs state l).1 := by
  unfold Depths.lowerOutputs
  split
  · exact h
  · rename_i n hn
    exact h.foldl_lower fun v hv => h.outputs hl hn hv

/-- A link whose inputs are right gives its outputs depths that are small enough. -/
theorem ExactUpTo.exists_output (h : ExactUpTo head links k state.1)
    (hinputs : ∀ u ∈ l.inputs, ∃ d ≤ k, (ofLinks head links)[u]? = some d) (hv : v ∈ l.outputs) :
    ∃ e ≤ k + 1, (Depths.lowerOutputs state l).1[v]? = some e := by
  have hknown : ∀ u ∈ l.inputs, ∃ d ≤ k, state.1[u]? = some d := fun u hu => by
    obtain ⟨d, hd, hdepth⟩ := hinputs u hu
    exact ⟨d, hd, h.exact u d hdepth hd⟩
  obtain ⟨n, hn, hlevel⟩ := exists_level? hknown
  unfold Depths.lowerOutputs
  rw [hlevel]
  obtain ⟨e, he, hdepth⟩ := (lowered_foldl_lower (n + 1) l.outputs state).2 v hv
  exact ⟨e, by omega, hdepth⟩

theorem ExactUpTo.foldl_lowerOutputs (h : ExactUpTo head links k state.1) (horder : order ⊆ links) :
    ExactUpTo head links k (order.foldl Depths.lowerOutputs state).1 ∧
      ∀ l ∈ order, (∀ u ∈ l.inputs, ∃ d ≤ k, (ofLinks head links)[u]? = some d) →
        ∀ v ∈ l.outputs, ∃ e ≤ k + 1, (order.foldl Depths.lowerOutputs state).1[v]? = some e := by
  induction order generalizing state with
  | nil => exact ⟨h, nofun⟩
  | cons l order ih =>
    obtain ⟨hl, horder⟩ := List.cons_subset.1 horder
    obtain ⟨hexact, hrest⟩ := ih (h.lowerOutputs hl) horder
    refine ⟨hexact, List.forall_mem_cons.2 ⟨fun hinputs v hv => ?_, hrest⟩⟩
    obtain ⟨e, he, hdepth⟩ := h.exists_output hinputs hv
    obtain ⟨d, hd, hdepth⟩ := lowered_foldl_lowerOutputs order _ v e hdepth
    exact ⟨d, hd.trans he, hdepth⟩

/-- A sweep makes the next depths right, in whatever order it goes through the links. -/
theorem ExactUpTo.sweep (h : ExactUpTo head links k depths) (hsub : order ⊆ links)
    (hsup : links ⊆ order) : ExactUpTo head links (k + 1) (sweep order depths).1 := by
  have hstart : ExactUpTo head links k (depths, false).1 := h
  obtain ⟨⟨habove, hexact⟩, hnext⟩ := hstart.foldl_lowerOutputs hsub
  refine ⟨habove, fun v d hd hle => ?_⟩
  rcases Nat.lt_or_eq_of_le hle with hlt | rfl
  · exact hexact v d hd (Nat.le_of_lt_succ hlt)
  · rcases exists_provider hd with hv | ⟨l, hl, hv, hinputs⟩
    · cases hd.symm.trans (depth_of_mem_inputs hv)
    · obtain ⟨e, he, hdepth⟩ := hnext l (hsup hl) (fun u hu => by
        obtain ⟨d, hd, hdepth⟩ := hinputs u hu
        exact ⟨d, Nat.le_of_lt_succ hd, hdepth⟩) v hv
      obtain ⟨d, hde, hdepth'⟩ := habove v e hdepth
      obtain rfl : k + 1 = d := Option.some.inj (hd.symm.trans hdepth')
      obtain rfl : e = k + 1 := Nat.le_antisymm he hde
      exact hdepth

/-! ### Coming to rest -/

theorem foldl_still {α : Type} {f : Depths × Bool → α → Depths × Bool}
    (hf : ∀ s a, (f s a).2 = false → f s a = s) (as : List α) (s : Depths × Bool)
    (h : (as.foldl f s).2 = false) : as.foldl f s = s := by
  induction as generalizing s with
  | nil => rfl
  | cons a as ih =>
    have hrest : as.foldl f (f s a) = f s a := ih (f s a) h
    rw [List.foldl_cons, hrest] at h ⊢
    exact hf s a h

theorem lower_still (n : Nat) (s : Depths × Bool) (v : Var) (h : (lower n s v).2 = false) :
    lower n s v = s := by
  rcases lower_cases n s v with ⟨hsame, -⟩ | ⟨hnew, -⟩
  · exact hsame
  · rw [hnew] at h
    cases h

theorem lowerOutputs_still (s : Depths × Bool) (l : Link) (h : (lowerOutputs s l).2 = false) :
    lowerOutputs s l = s := by
  unfold lowerOutputs at h ⊢
  split at h
  · rfl
  · exact foldl_still (lower_still _) _ _ h

/-- A sweep that notes no change made none. -/
theorem sweep_still (h : (sweep order depths).2 = false) : (sweep order depths).1 = depths :=
  congrArg Prod.fst (foldl_still lowerOutputs_still order _ h)

/-- Depths that are all right are not lowered. -/
theorem ExactUpTo.lowerOutputs_eq (h : ExactUpTo head links k state.1) (hk : links.length ≤ k)
    (hl : l ∈ links) : Depths.lowerOutputs state l = state := by
  unfold Depths.lowerOutputs
  split
  · rfl
  rename_i n hn
  refine List.foldlRecOn (motive := (· = state)) l.outputs _ rfl fun s hs v hv => ?_
  rw [hs]
  obtain ⟨d, hd, hdepth⟩ := h.outputs hl hn hv
  have hright := h.exact v d hdepth ((atMost_ofLinks head links v d hdepth).trans hk)
  rcases lower_cases (n + 1) state v with ⟨hsame, -⟩ | ⟨-, hlt⟩
  · exact hsame
  · exact absurd (hlt d hright) (Nat.not_lt_of_le hd)

theorem ExactUpTo.sweep_eq (h : ExactUpTo head links k depths) (hk : links.length ≤ k)
    (hsub : order ⊆ links) : Depths.sweep order depths = (depths, false) := by
  refine List.foldlRecOn (motive := (· = (depths, false))) order _ rfl fun s hs l hl => ?_
  rw [hs]
  exact h.lowerOutputs_eq hk (hsub hl)

theorem ExactUpTo.getElem? (h : ExactUpTo head links k depths) (hk : links.length ≤ k) (v : Var) :
    depths[v]? = (ofLinks head links)[v]? := by
  cases hv : (ofLinks head links)[v]? with
  | some d => exact h.exact v d hv ((atMost_ofLinks head links v d hv).trans hk)
  | none =>
    cases he : depths[v]? with
    | none => rfl
    | some e =>
      obtain ⟨d, -, hd⟩ := h.above v e he
      cases hv.symm.trans hd

/-- When a sweep changes nothing, right depths for as many rounds as one likes follow from those it
had. -/
theorem ExactUpTo.of_still (h : ExactUpTo head links k depths) (hsub : order ⊆ links)
    (hsup : links ⊆ order) (hstill : (Depths.sweep order depths).2 = false) (j : Nat) :
    ExactUpTo head links (k + j) depths := by
  induction j with
  | zero => exact h
  | succ j ih =>
    have hnext := ih.sweep hsub hsup
    rwa [sweep_still hstill] at hnext

theorem ExactUpTo.settles_of_still (h : ExactUpTo head links k depths) (hsub : order ⊆ links)
    (hsup : links ⊆ order) (hstill : (Depths.sweep order depths).2 = false) :
    ∃ settled, Settles order 1 depths settled ∧ ∀ v : Var, settled[v]? = (ofLinks head links)[v]? := by
  refine ⟨_, .rest hstill, ?_⟩
  rw [sweep_still hstill]
  exact (h.of_still hsub hsup hstill links.length).getElem? (Nat.le_add_left _ _)

/-- One more sweep than depths are not right yet is enough. -/
theorem ExactUpTo.exists_settled (h : ExactUpTo head links k depths) (hsub : order ⊆ links)
    (hsup : links ⊆ order) {j : Nat} (hj : links.length ≤ k + j) :
    ∃ n ≤ j + 1, ∃ settled, Settles order n depths settled ∧
      ∀ v : Var, settled[v]? = (ofLinks head links)[v]? := by
  induction j generalizing k depths with
  | zero => exact ⟨1, Nat.le_refl 1, h.settles_of_still hsub hsup (by rw [h.sweep_eq hj hsub])⟩
  | succ j ih =>
    cases hflag : (Depths.sweep order depths).2 with
    | false => exact ⟨1, Nat.le_add_left 1 _, h.settles_of_still hsub hsup hflag⟩
    | true =>
      obtain ⟨n, hn, settled, hsettles, hdepths⟩ := ih (h.sweep hsub hsup) (by omega)
      exact ⟨n + 1, Nat.succ_le_succ hn, settled, .again hflag hsettles, hdepths⟩

theorem exactUpTo_start (head : Link) (links : List Link) :
    ExactUpTo head links 0 (fill ∅ head.inputs 0) := by
  have hstart (v : Var) : (fill ∅ head.inputs 0)[v]? = if v ∈ head.inputs then some 0 else none :=
    show (level head links 0)[v]? = _ from getElem?_level_zero
  refine ⟨fun v e he => ?_, fun v d hd hle => ?_⟩
  · rw [hstart] at he
    split at he
    · rename_i hv
      exact ⟨0, Nat.zero_le e, depth_of_mem_inputs hv⟩
    · cases he
  · obtain rfl : d = 0 := Nat.le_zero.1 hle
    rw [hstart, if_pos (depth_eq_zero_iff.1 hd)]

/-! ## Depths and heights -/

/-- Just the variables with a derivation have depths, the least of the heights.  In whatever order the
links are swept over, this takes at most one sweep more than there are links and ends at these depths,
which do not depend on the order either. -/
theorem depths_are_least_heights (head : Link) (links : List Link) :
    (∀ v, (ofLinks head links).contains v = true ↔ Nonempty (Derivation head links v)) ∧
    (∀ (v : Var) (d : Nat), (ofLinks head links)[v]? = some d ↔
      IsLeast (Set.range fun t : Derivation head links v => t.height) d) ∧
    ∀ order : List Link, order.Perm links →
      (∃ sweeps ≤ links.length + 1, ∃ settled,
        Settles order sweeps (fill ∅ head.inputs 0) settled ∧
          ∀ v : Var, settled[v]? = (ofLinks head links)[v]?) ∧
      ∀ v : Var, (ofLinks head order)[v]? = (ofLinks head links)[v]? := by
  refine ⟨fun v => contains_iff_nonempty, fun v d => depth_iff_isLeast, fun order h => ⟨?_, ?_⟩⟩
  · exact (exactUpTo_start head links).exists_settled h.subset h.symm.subset (Nat.le_add_left _ _)
  · exact getElem?_ofLinks_congr h.subset h.symm.subset

end Depths

namespace Sample

/-- Links with a cycle between `B` and `C`, one without inputs, and one whose input `F` nothing
provides. -/
def tangle : List Link :=
  let v (name : String) : Var := .named name
  [⟨[v "C"], [v "B", v "G"]⟩, ⟨[v "B", v "D"], [v "C"]⟩, ⟨[v "A"], [v "B"]⟩, ⟨[], [v "D"]⟩,
    ⟨[v "F"], [v "E"]⟩]

/-- From `A` the variables `B` and `D` are one atom away, `C` two and `G` three, also when the links are
swept over from the last to the first. -/
theorem depths_of_tangle :
    tangle.reverse.Perm tangle ∧
    ∃ sweeps ≤ 6, ∃ settled,
      Depths.Settles tangle.reverse sweeps (Depths.fill ∅ [.named "A"] 0) settled ∧
        (["A", "B", "C", "D", "E", "F", "G"].map fun name => settled[Var.named name]?) =
          [some 0, some 1, some 2, some 1, none, none, some 3] := by
  obtain ⟨-, -, hall⟩ := Depths.depths_are_least_heights ⟨[.named "A"], []⟩ tangle
  have hperm := List.reverse_perm tangle
  obtain ⟨⟨sweeps, hle, settled, hsettles, hdepths⟩, -⟩ := hall tangle.reverse hperm
  refine ⟨hperm, sweeps, hle, settled, hsettles, ?_⟩
  rw [funext fun name => hdepths (Var.named name)]
  decide +kernel

end Sample
end Horn
