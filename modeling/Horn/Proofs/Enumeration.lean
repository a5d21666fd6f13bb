import Horn.Proofs.IncrementalCoverage
import Mathlib.Data.List.Infix
import Mathlib.Data.List.Nodup
import Mathlib.Data.Set.Function

/-!
The hypotheses that refinement leads to, one for each choice of places that is not too long.  A
hypothesis records the places of its atoms and scores depend on the way to it, but there is one way only:
the one through the beginnings of its choice.  So a search meets no choice twice and misses none.
-/

namespace Horn
namespace HypothesisSpace

variable {s : HypothesisSpace} {h h' : Hypothesis} {hs : List Hypothesis}

/-! ## One refinement -/

/-- What is not full is refined by every place from the cursor on. -/
theorem mem_refine : h' ∈ s.refine h ↔ h.c < s.maxBody ∧
    ∃ k a, h.cursor ≤ k ∧ s.bottom.body[k]? = some a ∧ h' = s.refined h k a := by
  constructor
  · intro hmem
    refine ⟨Nat.lt_of_not_le fun hfull => ?_, exists_of_mem_refine hmem⟩
    rw [refine, if_pos hfull] at hmem
    cases hmem
  · rintro ⟨hc, k, a, hk, ha, rfl⟩
    refine List.mem_of_getElem? (i := k - h.cursor) ?_
    rw [getElem?_refine, if_neg (Nat.not_le.2 hc), Nat.add_sub_cancel' hk, ha]
    rfl

/-- The refinements of a hypothesis differ in their last places. -/
theorem nodup_refine (s : HypothesisSpace) (h : Hypothesis) : (s.refine h).Nodup := by
  refine List.nodup_iff_getElem?_ne_getElem?.2 fun i j hij hj heq => ?_
  obtain ⟨x, hx⟩ : ∃ x, (s.refine h)[j]? = some x := ⟨_, List.getElem?_eq_getElem hj⟩
  have hcursor : ∀ n, (s.refine h)[n]? = some x → x.cursor = h.cursor + n + 1 := by
    intro n hn
    rw [getElem?_refine] at hn
    split at hn
    · cases hn
    · obtain ⟨a, -, rfl⟩ := Option.map_eq_some_iff.1 hn
      rfl
  have hlast := (hcursor i (heq.trans hx)).symm.trans (hcursor j hx)
  omega

/-! ## All refinements -/

theorem Reached.length_chosen_le (hh : s.Reached h) : h.chosen.length ≤ s.maxBody := by
  cases hh with
  | root start =>
    rw [root?_eq] at start
    obtain ⟨-, -, rfl⟩ := Option.map_eq_some_iff.1 start
    exact Nat.zero_le _
  | @refine before _ hbefore step =>
    obtain ⟨hchoice, halong⟩ := hbefore.spec
    obtain ⟨hc, k, a, -, -, rfl⟩ := mem_refine.1 step
    have hlength : before.c = before.chosen.length := by
      rw [halong, c_along hchoice, ← halong]
    show (before.chosen ++ [k]).length ≤ _
    rw [List.length_append, List.length_singleton]
    omega

theorem reached_along {head : Atom} (hhead : s.bottom.clause.head = some head) {ks : List Nat}
    (hks : s.IsChoice ks) (hlength : ks.length ≤ s.maxBody) : s.Reached (s.along ks) := by
  induction ks using List.reverseRecOn with
  | nil => exact .root (by rw [root?_eq, hhead]; rfl)
  | append_singleton ks k ih =>
    obtain ⟨hbefore, hnext, hk⟩ := isChoice_append.1 hks
    rw [List.length_append, List.length_singleton] at hlength
    have hbody := List.getElem?_eq_getElem hk
    refine .refine (ih hbefore (by omega)) (mem_refine.2 ⟨?_, k, _, ?_, hbody, along_append hbody⟩)
    · rw [c_along hbefore]
      omega
    · rwa [(along_spec hbefore).2.2.1]

/-- What is reached is told apart by its places, and every choice that is not too long is reached. -/
theorem bijOn_chosen {head : Atom} (hhead : s.bottom.clause.head = some head) :
    Set.BijOn Hypothesis.chosen {h | s.Reached h} {ks | s.IsChoice ks ∧ ks.length ≤ s.maxBody} := by
  refine ⟨fun h hh => ⟨hh.spec.1, hh.length_chosen_le⟩, fun h hh h' hh' heq => ?_, fun ks hks => ?_⟩
  · rw [hh.spec.2, hh'.spec.2, heq]
  · exact ⟨s.along ks, reached_along hhead hks.1 hks.2, (along_spec hks.1).2.1⟩

theorem map_some_atomsAt {ks : List Nat} (h : s.IsChoice ks) :
    (s.atomsAt ks).map some = ks.map fun k => s.bottom.body[k]? := by
  induction ks using List.reverseRecOn with
  | nil => rfl
  | append_singleton ks k ih =>
    obtain ⟨hks, -, hk⟩ := isChoice_append.1 h
    have hbody := List.getElem?_eq_getElem hk
    rw [atomsAt_append hbody, List.map_append, List.map_append, ih hks, List.map_singleton,
      List.map_singleton, hbody]

/-! ## The ways to a hypothesis -/

/-- The hypotheses on a way from the bare head, each refined to the next one. -/
inductive Way (s : HypothesisSpace) : List Hypothesis → Hypothesis → Prop where
  | root {h : Hypothesis} (start : s.root? = some h) : s.Way [h] h
  | refine {hs : List Hypothesis} {h h' : Hypothesis} (before : s.Way hs h) (step : h' ∈ s.refine h) :
    s.Way (hs ++ [h']) h'

theorem Way.reached (hw : s.Way hs h) : s.Reached h := by
  induction hw with
  | root start => exact .root start
  | refine _ step ih => exact .refine ih step

/-- A way goes through the beginnings of the choice at its end. -/
theorem Way.eq (hw : s.Way hs h) : hs = h.chosen.inits.map s.along := by
  induction hw with
  | root start =>
    rw [root?_eq] at start
    obtain ⟨-, -, rfl⟩ := Option.map_eq_some_iff.1 start
    rfl
  | @refine hs h h' before step ih =>
    have halong := (Reached.refine before.reached step).spec.2
    obtain ⟨-, k, a, -, -, rfl⟩ := mem_refine.1 step
    have hchosen : (s.refined h k a).chosen = h.chosen ++ [k] := rfl
    rw [ih, hchosen, List.inits_append, List.map_append]
    exact congrArg (_ ++ [·]) halong

theorem Reached.exists_way (hh : s.Reached h) : ∃ hs, s.Way hs h := by
  induction hh with
  | root start => exact ⟨_, .root start⟩
  | refine _ step ih =>
    obtain ⟨hs, hw⟩ := ih
    exact ⟨_, hw.refine step⟩

theorem Reached.existsUnique_way (hh : s.Reached h) : ∃! hs, s.Way hs h := by
  obtain ⟨hs, hw⟩ := hh.exists_way
  exact ⟨hs, hw, fun hs' hw' => hw'.eq.trans hw.eq.symm⟩

/-- A bottom clause without a head has no hypotheses.  Below any other one those that refinement reaches
from the bare head correspond to the increasing lists of places that are not longer than a body may be.
Each is reached on one way only, on which no refinement is offered twice, and its clause has the head of
the bottom clause and the atoms at its places. -/
theorem reached_enumerates (s : HypothesisSpace) :
    (s.bottom.clause.head = none → s.root? = none ∧ ∀ h, ¬ s.Reached h) ∧
      (∀ head, s.bottom.clause.head = some head →
        (∃ root, s.root? = some root ∧ root.chosen = []) ∧
        Set.BijOn Hypothesis.chosen {h | s.Reached h}
          {ks | ks.Pairwise (· < ·) ∧ (∀ k ∈ ks, k < s.bottom.body.length) ∧
            ks.length ≤ s.maxBody}) ∧
      ∀ h, s.Reached h → (∃! hs, s.Way hs h) ∧ (s.refine h).Nodup ∧
        h.clause.head = s.bottom.clause.head ∧
        h.clause.body.map some = h.chosen.map fun k => s.bottom.body[k]? := by
  refine ⟨fun hhead => ?_, fun head hhead => ⟨?_, ?_⟩, fun h hh => ?_⟩
  · have hroot : s.root? = none := by rw [root?_eq, hhead]; rfl
    refine ⟨hroot, fun h hh => ?_⟩
    induction hh with
    | root start => cases hroot.symm.trans start
    | refine _ _ ih => exact ih
  · exact ⟨s.scored [], by rw [root?_eq, hhead]; rfl, rfl⟩
  · have hchoices : {ks | s.IsChoice ks ∧ ks.length ≤ s.maxBody} =
        {ks | ks.Pairwise (· < ·) ∧ (∀ k ∈ ks, k < s.bottom.body.length) ∧
          ks.length ≤ s.maxBody} :=
      Set.ext fun ks => ⟨fun h => ⟨h.1.increasing, h.1.inside, h.2⟩, fun h => ⟨⟨h.1, h.2.1⟩, h.2.2⟩⟩
    exact hchoices ▸ bijOn_chosen hhead
  · obtain ⟨hchoice, halong⟩ := hh.spec
    have hclause := (along_spec hchoice).1
    rw [← halong] at hclause
    rw [hclause]
    exact ⟨hh.existsUnique_way, s.nodup_refine h, rfl, map_some_atomsAt hchoice⟩

end HypothesisSpace

namespace Sample

open HypothesisSpace

/-- The bottom clause `p(X) :- q(X), r(X), s(X)`, or one with its body and no head. -/
def wide (head : Option Atom) : BottomClause :=
  let v : Var := .named "X"
  ⟨⟨head, ["q", "r", "s"].map fun name => .predicate ⟨name, [.var v]⟩⟩, ⟨[v], []⟩,
    List.replicate 3 ⟨[v], []⟩⟩

/-- The hypotheses with two body atoms or fewer. -/
def pairs (head : Option Atom) : HypothesisSpace :=
  .make (wide head) (.ofStore Store.empty) [] [] 1 2

/-- The first and the last atom are chosen on one way, all three on none. -/
theorem reached_pairs :
    let atom (name : String) : Atom := .predicate ⟨name, [.var (.named "X")]⟩
    let head := atom "p"
    (∃ h, (pairs (some head)).Reached h ∧ h.chosen = [0, 2] ∧
        (∃! hs, (pairs (some head)).Way hs h) ∧ h.clause = .rule head [atom "q", atom "s"]) ∧
      (∀ h, (pairs (some head)).Reached h → h.chosen ≠ [0, 1, 2]) ∧ (pairs none).root? = none := by
  intro atom head
  obtain ⟨-, hbijOn, hreached⟩ := reached_enumerates (pairs (some head))
  obtain ⟨-, hmaps, -, honto⟩ := hbijOn head rfl
  obtain ⟨h, hh, hchosen⟩ := honto (show [0, 2] ∈ _ from ⟨by decide, by decide, by decide⟩)
  obtain ⟨hway, -, hhead, hbody⟩ := hreached h hh
  refine ⟨⟨h, hh, hchosen, hway, ?_⟩, fun h hh heq => ?_, ?_⟩
  · rw [hchosen] at hbody
    have hbody : h.clause.body = [atom "q", atom "s"] := (Option.some_injective _).list_map hbody
    exact congrArg₂ Clause.mk hhead hbody
  · have hlength : h.chosen.length ≤ 2 := (hmaps hh).2.2
    rw [heq] at hlength
    exact absurd hlength (by decide)
  · exact ((reached_enumerates (pairs none)).1 rfl).1

end Sample
end Horn
