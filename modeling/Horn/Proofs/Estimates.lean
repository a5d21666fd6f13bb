import Horn.Proofs.ModeFlow
import Mathlib.Data.Finset.Max
import Mathlib.Data.Fintype.Card

/-!
How far the estimate of a choice can be trusted.  The depth of a variable is the least number of
atoms in a chain that provides it from the inputs of the head, so a choice of which nothing is
chosen yet needs at least as many atoms as the estimate says.  Once a part of a chain is chosen the
depths still count that part: then the estimate exceeds the truth by no more than the depth of what
is provided already, and by as much on a chain.
-/

namespace Horn

/-! ## Depths round by round -/

namespace Depths

variable {head l : Link} {links : List Link} {depths : Depths} {v : Var} {d n r s : Nat}

/-- The depths after some rounds. -/
def level (head : Link) (links : List Link) (rounds : Nat) : Depths :=
  grow links (fill ∅ head.inputs 0) 0 rounds

theorem contains_iff_exists : depths.contains v = true ↔ ∃ e, depths[v]? = some e := by
  rw [Std.TreeMap.contains_eq_isSome_getElem?, Option.isSome_iff_exists]

theorem getElem?_fill (depths : Depths) (vs : List Var) (n : Nat) (v : Var) :
    (depths.fill vs n)[v]? = (depths[v]?).or (if v ∈ vs then some n else none) := by
  induction vs generalizing depths with
  | nil => simp [fill]
  | cons w vs ih =>
    have hstep : (depths.fill (w :: vs) n) =
        (if depths.contains w then depths else depths.insert w n).fill vs n := rfl
    rw [hstep, ih]
    by_cases hw : depths.contains w = true
    · rw [if_pos hw]
      by_cases hv : v = w
      · subst hv
        obtain ⟨e, he⟩ := contains_iff_exists.1 hw
        simp [he]
      · simp [hv]
    · have hnone : depths[w]? = none := by simpa using hw
      rw [if_neg hw, Std.TreeMap.getElem?_insert]
      by_cases hv : w = v
      · subst hv
        simp [hnone]
      · have hne : compare w v ≠ .eq := fun h => hv (Std.LawfulEqOrd.eq_of_compare h)
        rw [if_neg hne]
        simp [Ne.symm hv]

theorem grow_succ (links : List Link) (depths : Depths) (n rounds : Nat) :
    grow links depths n (rounds + 1) =
      (grow links depths n rounds).fill ((grow links depths n rounds).provided links)
        (n + rounds + 1) := by
  induction rounds generalizing depths n with
  | zero => rfl
  | succ rounds ih =>
    have hnext := ih (depths.fill (depths.provided links) (n + 1)) (n + 1)
    rwa [Nat.add_right_comm n 1 rounds] at hnext

theorem getElem?_level_zero :
    (level head links 0)[v]? = if v ∈ head.inputs then some 0 else none := by
  simp [level, grow, getElem?_fill]

theorem getElem?_level_succ : (level head links (r + 1))[v]? =
    ((level head links r)[v]?).or
      (if v ∈ (level head links r).provided links then some (r + 1) else none) := by
  rw [level, grow_succ, getElem?_fill, Nat.zero_add]
  rfl

/-- A link all of whose inputs have depths. -/
def Ready (depths : Depths) (l : Link) : Prop := ∀ u ∈ l.inputs, ∃ e, depths[u]? = some e

theorem mem_provided : v ∈ depths.provided links ↔ ∃ l ∈ links, depths.Ready l ∧ v ∈ l.outputs := by
  simp only [provided, Ready, List.mem_flatMap, List.mem_filter, List.all_eq_true,
    contains_iff_exists, and_assoc]

/-- A depth does not change in later rounds. -/
theorem level_mono (hrs : r ≤ s) (h : (level head links r)[v]? = some d) :
    (level head links s)[v]? = some d := by
  induction hrs with
  | refl => exact h
  | step _ ih => rw [getElem?_level_succ, ih, Option.some_or]

/-- A depth is the number of the round that gave it. -/
theorem level_of_depth (h : (level head links r)[v]? = some d) :
    d ≤ r ∧ (level head links d)[v]? = some d := by
  induction r with
  | zero =>
    obtain rfl : 0 = d := by
      rw [getElem?_level_zero] at h
      split at h
      · exact Option.some.inj h
      · cases h
    exact ⟨Nat.le_refl 0, h⟩
  | succ r ih =>
    cases hr : (level head links r)[v]? with
    | some e =>
      have hlater := level_mono (Nat.le_succ r) hr
      obtain rfl : e = d := Option.some.inj (hlater.symm.trans h)
      obtain ⟨hle, hd⟩ := ih hr
      exact ⟨Nat.le_succ_of_le hle, hd⟩
    | none =>
      have hnew := h
      rw [getElem?_level_succ, hr, Option.none_or] at hnew
      split at hnew
      · obtain rfl : r + 1 = d := Option.some.inj hnew
        exact ⟨Nat.le_refl _, h⟩
      · cases hnew

theorem Ready.mono (hrs : r ≤ s) (h : (level head links r).Ready l) : (level head links s).Ready l := by
  intro u hu
  obtain ⟨e, he⟩ := h u hu
  exact ⟨e, level_mono hrs he⟩

/-- What a ready link provides has a depth after one more round. -/
theorem exists_level_succ (hl : l ∈ links) (hready : (level head links r).Ready l)
    (hv : v ∈ l.outputs) : ∃ e ≤ r + 1, (level head links (r + 1))[v]? = some e := by
  have hnext : (level head links (r + 1))[v]? = _ := getElem?_level_succ
  rw [if_pos (mem_provided.2 ⟨l, hl, hready, hv⟩)] at hnext
  cases hr : (level head links r)[v]? with
  | some e => exact ⟨e, Nat.le_succ_of_le (level_of_depth hr).1, level_mono (Nat.le_succ r) hr⟩
  | none => exact ⟨r + 1, Nat.le_refl _, by rw [hnext, hr, Option.none_or]⟩

/-! ## Enough rounds -/

/-- No round adds anything. -/
def Saturated (links : List Link) (depths : Depths) : Prop :=
  ∀ v ∈ depths.provided links, ∃ e, depths[v]? = some e

/-- The places of the links that are ready after some rounds. -/
noncomputable def ready (head : Link) (links : List Link) (rounds : Nat) : Finset (Fin links.length) :=
  open Classical in Finset.univ.filter fun k => (level head links rounds).Ready links[k]

theorem mem_ready {k : Fin links.length} :
    k ∈ ready head links r ↔ (level head links r).Ready links[k] := by
  simp [ready]

/-- A round that is not the last makes another link ready. -/
theorem card_ready_lt (h : ¬ Saturated links (level head links (r + 1))) :
    (ready head links r).card < (ready head links (r + 1)).card := by
  refine Finset.card_lt_card ⟨fun k hk => mem_ready.2 ((mem_ready.1 hk).mono (Nat.le_succ r)), ?_⟩
  intro hall
  refine h fun v hv => ?_
  obtain ⟨l, hl, hready, hv⟩ := mem_provided.1 hv
  obtain ⟨k, hk, rfl⟩ := List.mem_iff_getElem.1 hl
  have hafter : ⟨k, hk⟩ ∈ ready head links (r + 1) := mem_ready.2 hready
  have hbefore := mem_ready.1 (hall hafter)
  obtain ⟨e, -, he⟩ := exists_level_succ hl hbefore hv
  exact ⟨e, he⟩

theorem exists_saturated (head : Link) (links : List Link) :
    ∃ r ≤ links.length, Saturated links (level head links r) := by
  by_contra hnone
  push Not at hnone
  -- each round that adds something makes another link ready, and there are not so many links
  have hmany : ∀ r ≤ links.length, r < (ready head links r).card := by
    intro r
    induction r with
    | zero =>
      intro h
      obtain ⟨v, hv, -⟩ : ∃ v ∈ (level head links 0).provided links, _ := by
        simpa [Saturated] using hnone 0 h
      obtain ⟨l, hl, hready, -⟩ := mem_provided.1 hv
      obtain ⟨k, hk, rfl⟩ := List.mem_iff_getElem.1 hl
      exact Finset.card_pos.2 ⟨⟨k, hk⟩, mem_ready.2 hready⟩
    | succ r ih =>
      intro h
      have hbefore := ih (Nat.le_of_succ_le h)
      have hmore := card_ready_lt (hnone (r + 1) h)
      omega
  have hall := hmany links.length (Nat.le_refl _)
  have hfew := Finset.card_le_univ (ready head links links.length)
  rw [Fintype.card_fin] at hfew
  omega

theorem Saturated.level_succ (h : Saturated links (level head links r)) :
    (level head links (r + 1))[v]? = (level head links r)[v]? := by
  rw [getElem?_level_succ]
  split
  · rename_i hv
    obtain ⟨e, he⟩ := h v hv
    rw [he, Option.some_or]
  · exact Option.or_none

theorem Saturated.mono (hrs : r ≤ s) (h : Saturated links (level head links r)) :
    Saturated links (level head links s) := by
  induction hrs with
  | refl => exact h
  | step _ ih =>
    intro v hv
    obtain ⟨l, hl, hready, hv⟩ := mem_provided.1 hv
    have hbefore := fun u hu => ih.level_succ ▸ hready u hu
    rw [ih.level_succ]
    exact ih v (mem_provided.2 ⟨l, hl, hbefore, hv⟩)

theorem saturated_ofLinks (head : Link) (links : List Link) :
    Saturated links (ofLinks head links) := by
  obtain ⟨r, hr, h⟩ := exists_saturated head links
  exact h.mono hr

theorem depth_of_mem_inputs (h : v ∈ head.inputs) : (ofLinks head links)[v]? = some 0 :=
  level_mono (Nat.zero_le _) (by rw [getElem?_level_zero, if_pos h])

theorem exists_depth (hl : l ∈ links) (hready : (ofLinks head links).Ready l) (hv : v ∈ l.outputs) :
    ∃ e, (ofLinks head links)[v]? = some e :=
  saturated_ofLinks head links v (mem_provided.2 ⟨l, hl, hready, hv⟩)

/-- A link provides its outputs one step after its last input. -/
theorem exists_depth_output (hl : l ∈ links) (hv : v ∈ l.outputs)
    (h : ∀ u ∈ l.inputs, ∃ e ≤ d, (ofLinks head links)[u]? = some e) :
    ∃ e ≤ d + 1, (ofLinks head links)[v]? = some e := by
  rcases Nat.lt_or_ge d links.length with hd | hd
  · have hready : (level head links d).Ready l := by
      intro u hu
      obtain ⟨e, he, hu⟩ := h u hu
      exact ⟨e, level_mono he (level_of_depth hu).2⟩
    obtain ⟨e, he, hlevel⟩ := exists_level_succ hl hready hv
    exact ⟨e, he, level_mono hd hlevel⟩
  · have hready : (ofLinks head links).Ready l := by
      intro u hu
      obtain ⟨e, -, hu⟩ := h u hu
      exact ⟨e, hu⟩
    obtain ⟨e, he⟩ := exists_depth hl hready hv
    have hle := atMost_ofLinks head links v e he
    exact ⟨e, by omega, he⟩

/-- What has a depth is an input of the head or an output of a link whose inputs have smaller
depths. -/
theorem exists_provider (h : (ofLinks head links)[v]? = some d) : v ∈ head.inputs ∨
    ∃ l ∈ links, v ∈ l.outputs ∧ ∀ u ∈ l.inputs, ∃ e < d, (ofLinks head links)[u]? = some e := by
  obtain ⟨hd, hlevel⟩ := level_of_depth (r := links.length) h
  cases d with
  | zero =>
    rw [getElem?_level_zero] at hlevel
    split at hlevel
    · exact .inl ‹_›
    · cases hlevel
  | succ d =>
    right
    have hbefore : (level head links d)[v]? = none := by
      cases hv : (level head links d)[v]? with
      | none => rfl
      | some e =>
        obtain rfl : e = d + 1 := Option.some.inj ((level_mono (Nat.le_succ d) hv).symm.trans hlevel)
        exact absurd (level_of_depth hv).1 (Nat.not_succ_le_self d)
    rw [getElem?_level_succ, hbefore, Option.none_or] at hlevel
    split at hlevel
    · rename_i hprovided
      obtain ⟨l, hl, hready, hv⟩ := mem_provided.1 hprovided
      refine ⟨l, hl, hv, fun u hu => ?_⟩
      obtain ⟨e, he⟩ := hready u hu
      exact ⟨e, Nat.lt_succ_of_le (level_of_depth he).1,
        level_mono (Nat.le_of_succ_le hd) he⟩
    · cases hlevel

/-- Of variables that have depths, one has the greatest. -/
theorem exists_deepest (hne : l.inputs ≠ []) (h : depths.Ready l) : ∃ u ∈ l.inputs, ∃ d,
    depths[u]? = some d ∧ ∀ w ∈ l.inputs, ∃ e ≤ d, depths[w]? = some e := by
  obtain ⟨u, hu, hmost⟩ := l.inputs.toFinset.exists_max_image (fun u => (depths[u]?).getD 0)
    (by simpa using hne)
  obtain ⟨d, hd⟩ := h u (List.mem_toFinset.1 hu)
  refine ⟨u, List.mem_toFinset.1 hu, d, hd, fun w hw => ?_⟩
  obtain ⟨e, he⟩ := h w hw
  have hle := hmost w (List.mem_toFinset.2 hw)
  simp only [hd, he, Option.getD_some] at hle
  exact ⟨e, hle, he⟩

end Depths

/-! ## Estimates -/

namespace BottomClause

variable {b : BottomClause} {ks more : List Nat} {v : Var} {d m : Nat}

/-- The atoms of the choice can be fed by each other from the inputs of the head. -/
def IsFed (b : BottomClause) (ks : List Nat) : Prop :=
  ∀ l ∈ b.chosenLinks ks, ∀ v ∈ l.inputs, (Depths.ofLinks b.head (b.chosenLinks ks)).contains v = true

instance (b : BottomClause) (ks : List Nat) : Decidable (b.IsFed ks) :=
  inferInstanceAs (Decidable (∀ l ∈ b.chosenLinks ks, ∀ v ∈ l.inputs,
    (Depths.ofLinks b.head (b.chosenLinks ks)).contains v = true))

/-- The variable can be had from what the choice provides, of which no depth is over `m`, by as many
new atoms as its depth is over `m`.  The atoms come before a place of the order in which those of the
larger choice can be fed. -/
structure Chain (b : BottomClause) (ks more : List Nat) (m : Nat) (v : Var) (place : Nat)
    (new : Finset Nat) : Prop where
  depth : ∃ d, b.depths[v]? = some d ∧ d ≤ new.card + m
  added : new ⊆ more.toFinset \ ks.toFinset
  before : ∀ k ∈ new, ∀ l, b.links[k]? = some l → ∀ u ∈ l.inputs, ∃ e < place,
    (Depths.ofLinks b.head (b.chosenLinks more))[u]? = some e

theorem exists_chain (hdepth : ∀ v d, b.Provides ks v → b.depths[v]? = some d → d ≤ m)
    (h : (Depths.ofLinks b.head (b.chosenLinks more))[v]? = some d) :
    ∃ new, b.Chain ks more m v d new := by
  -- on the place in the order: what comes before it, and only that, may be in the chain
  induction d using Nat.strong_induction_on generalizing v with
  | _ d ih =>
    have provided (hv : b.Provides ks v) (hd : ∃ e, b.depths[v]? = some e) :
        ∃ new, b.Chain ks more m v d new := by
      obtain ⟨e, he⟩ := hd
      exact ⟨∅, ⟨e, he, by simpa using hdepth v e hv he⟩, Finset.empty_subset _, by simp⟩
    obtain hhead | ⟨l, hl, hv, hinputs⟩ := Depths.exists_provider h
    · exact provided (.inl hhead) ⟨0, Depths.depth_of_mem_inputs hhead⟩
    obtain ⟨k, hk, hkl⟩ := mem_chosenLinks.1 hl
    have hlinks : l ∈ b.links := List.mem_of_getElem? hkl
    have hready : b.depths.Ready l := by
      intro u hu
      obtain ⟨e, he, hu⟩ := hinputs u hu
      obtain ⟨_, ⟨d, hd, -⟩, -, -⟩ := ih e he hu
      exact ⟨d, hd⟩
    by_cases hks : k ∈ ks
    · exact provided (.inr ⟨k, hks, l, hkl, hv⟩) (Depths.exists_depth hlinks hready hv)
    have hadded : k ∈ more.toFinset \ ks.toFinset := by simp [hk, hks]
    have hbefore : ∀ l', b.links[k]? = some l' → ∀ u ∈ l'.inputs, ∃ e < d,
        (Depths.ofLinks b.head (b.chosenLinks more))[u]? = some e := by
      intro l' hl'
      obtain rfl : l = l' := Option.some.inj (hkl.symm.trans hl')
      exact hinputs
    by_cases hnil : l.inputs = []
    · obtain ⟨e, he, hd⟩ := Depths.exists_depth_output (d := 0) hlinks hv (by simp [hnil])
      refine ⟨{k}, ⟨e, hd, ?_⟩, by simpa using hadded, by simpa using hbefore⟩
      rw [Finset.card_singleton]
      omega
    · -- the chain of the deepest input, followed by this atom
      obtain ⟨u, hu, d', hd', hdeepest⟩ := Depths.exists_deepest hnil hready
      obtain ⟨e, he, hplace⟩ := hinputs u hu
      obtain ⟨new, ⟨d'', hd'', hle⟩, hsub, hnew⟩ := ih e he hplace
      obtain rfl : d' = d'' := Option.some.inj (hd'.symm.trans hd'')
      have hfresh : k ∉ new := by
        intro hmem
        obtain ⟨e', he', hplace'⟩ := hnew k hmem l hkl u hu
        have : e = e' := Option.some.inj (hplace.symm.trans hplace')
        omega
      obtain ⟨dv, hdv, hv⟩ := Depths.exists_depth_output hlinks hv hdeepest
      refine ⟨insert k new, ⟨dv, hv, ?_⟩, Finset.insert_subset hadded hsub, ?_⟩
      · rw [Finset.card_insert_of_notMem hfresh]
        omega
      · rw [Finset.forall_mem_insert]
        refine ⟨hbefore, fun k' hk' l' hl' w hw => ?_⟩
        obtain ⟨e', he', hw⟩ := hnew k' hk' l' hl' w hw
        exact ⟨e', he'.trans he, hw⟩

theorem remainingDepth_le_of_mem {depths : Depths} (hv : v ∈ b.unresolved ks)
    (hd : depths[v]? = some d) : b.remainingDepth depths ks ≤ max 1 d := by
  unfold remainingDepth
  split
  · exact Nat.zero_le _
  · have hmem : d ∈ (b.unresolved ks).filterMap fun v => depths[v]? :=
      List.mem_filterMap.2 ⟨v, hv, hd⟩
    obtain ⟨e, he⟩ := Option.isSome_iff_exists.1
      (List.isSome_min?_of_ne_nil (List.ne_nil_of_mem hmem))
    have hle : e ≤ d := (List.min?_eq_some_iff.1 he).2 d hmem
    rw [he, Option.getD_some]
    omega

/-- What a choice still needs is had by atoms that a larger choice adds, where this one needs nothing
more and can be fed. -/
theorem exists_depth_le (hsub : ks ⊆ more) (hnone : b.remainingDepth b.depths more = 0)
    (hfed : b.IsFed more) (hdepth : ∀ v d, b.Provides ks v → b.depths[v]? = some d → d ≤ m)
    (hv : v ∈ b.unresolved ks) :
    ∃ d, b.depths[v]? = some d ∧ max 1 d ≤ (more.toFinset \ ks.toFinset).card + m := by
  obtain ⟨hneeded, hnot⟩ := mem_unresolved.1 hv
  have hprovided : b.Provides more v := by
    by_contra hmissing
    have hmem : v ∈ b.unresolved more := mem_unresolved.2 ⟨hneeded.imp_right fun ⟨l, hl, hu⟩ => by
      obtain ⟨k, hk, hl⟩ := mem_chosenLinks.1 hl
      exact ⟨l, mem_chosenLinks.2 ⟨k, hsub hk, hl⟩, hu⟩, hmissing⟩
    rw [remainingDepth_eq_zero_iff.1 hnone] at hmem
    exact List.not_mem_nil hmem
  obtain hhead | ⟨k, hk, l, hl, hu⟩ := hprovided
  · exact absurd (.inl hhead) hnot
  have hnew : k ∈ more.toFinset \ ks.toFinset := by
    rw [Finset.mem_sdiff, List.mem_toFinset, List.mem_toFinset]
    exact ⟨hk, fun hks => hnot (.inr ⟨k, hks, l, hl, hu⟩)⟩
  have hlmore := mem_chosenLinks.2 ⟨k, hk, hl⟩
  obtain ⟨place, hplace⟩ := Depths.exists_depth hlmore
    (fun u hu => Depths.contains_iff_exists.1 (hfed l hlmore u hu)) hu
  obtain ⟨new, ⟨d, hd, hle⟩, hadded, -⟩ := exists_chain hdepth hplace
  have hcard := Finset.card_le_card hadded
  have hpos := Finset.card_pos.2 ⟨k, hnew⟩
  exact ⟨d, hd, by omega⟩

/-- A choice that needs nothing more and can be fed has as many atoms more than a part of it as the
estimate for the part says, but for the depth of what the part provides. -/
theorem remainingDepth_le_card (hsub : ks ⊆ more) (hnone : b.remainingDepth b.depths more = 0)
    (hfed : b.IsFed more) (hdepth : ∀ v d, b.Provides ks v → b.depths[v]? = some d → d ≤ m) :
    b.remainingDepth b.depths ks ≤ (more.toFinset \ ks.toFinset).card + m := by
  by_cases hzero : b.remainingDepth b.depths ks = 0
  · omega
  obtain ⟨v, hv⟩ := List.exists_mem_of_ne_nil _ (mt remainingDepth_eq_zero_iff.2 hzero)
  obtain ⟨d, hd, hle⟩ := exists_depth_le hsub hnone hfed hdepth hv
  exact (remainingDepth_le_of_mem hv hd).trans hle

end BottomClause

namespace Sample

/-- The bottom clause `reach(A, B) :- edge(A, C), edge(C, D), edge(D, B)`, whose atoms each take their
first variable and give the second. -/
def path : BottomClause :=
  let link (v w : String) : Link := ⟨[.named v], [.named w]⟩
  let atom (name v w : String) : Atom := .predicate ⟨name, [.var (.named v), .var (.named w)]⟩
  ⟨.rule (atom "reach" "A" "B") [atom "edge" "A" "C", atom "edge" "C" "D", atom "edge" "D" "B"],
    link "A" "B", [link "A" "C", link "C" "D", link "D" "B"]⟩

/-- With two of its three atoms chosen one is missing, and the estimate exceeds this by two, the depth
of the variable that the two provide. -/
theorem remainingDepth_path :
    [0, 1] ⊆ [0, 1, 2] ∧ path.remainingDepth path.depths [0, 1, 2] = 0 ∧ path.IsFed [0, 1, 2] ∧
      (∀ v d, path.Provides [0, 1] v → path.depths[v]? = some d → d ≤ 2) ∧
      path.remainingDepth path.depths [0, 1] ≤
        ([0, 1, 2].toFinset \ [0, 1].toFinset).card + 2 := by
  have hnone : path.remainingDepth path.depths [0, 1, 2] = 0 := by decide +kernel
  have hfed : path.IsFed [0, 1, 2] := by decide +kernel
  have hdepth : ∀ v d, path.Provides [0, 1] v → path.depths[v]? = some d → d ≤ 2 := by
    intro v d hv hd
    have hmem : v ∈ [Var.named "A", .named "C", .named "D"] := by
      simpa [BottomClause.Provides, path] using hv
    have hall : ∀ v ∈ [Var.named "A", .named "C", .named "D"], ∀ d ∈ path.depths[v]?, d ≤ 2 := by
      decide +kernel
    exact hall v hmem d hd
  exact ⟨by decide, hnone, hfed, hdepth,
    BottomClause.remainingDepth_le_card (by decide) hnone hfed hdepth⟩

/-- The estimate is not what is missing: it stays at three when two of the three atoms are chosen. -/
theorem remainingDepth_path_exceeds :
    [0, 1] ⊆ [0, 1, 2] ∧ (∀ k ∈ [0, 1, 2], k < path.body.length) ∧
      path.remainingDepth path.depths [0, 1, 2] = 0 ∧
      ([0, 1, 2].toFinset \ [0, 1].toFinset).card < path.remainingDepth path.depths [0, 1] := by
  decide +kernel

end Sample
end Horn
