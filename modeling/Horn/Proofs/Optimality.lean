import Horn.Proofs.Attributes
import Mathlib.Data.List.Sublists

/-!
The best solution that a search can find.  Where nothing that leads to a solution is left out, a search
that ends has taken the solution up or holds a hypothesis on the way to it.  Then the order of the open
hypotheses decides: the search stops by the bound of the open hypothesis with the highest value, so it
misses nothing where a higher value goes with a higher bound.
-/

namespace Horn
namespace HypothesisSpace

variable {s : HypothesisSpace}

/-! ## The end of a search -/

/-- A search has ended by its own rule. -/
structure Concluded (s : HypothesisSpace) (st : State) : Prop where
  invariant : s.Invariant st
  held : IsHeld st
  finished : s.isFinished st.closed st.opened = true

section

variable {st : State} {h y : Hypothesis} {log : EventLog}

theorem ended_eq (hroot : s.root? = some (s.scored [])) :
    s.ended log = s.explore maxExpansions (State.push ⟨∅, [], [], log⟩ (s.scored [])) := by
  rw [ended, hroot]

theorem concluded_ended (hroot : s.root? = some (s.scored []))
    (hended : (s.ended log).closed.length < maxExpansions) : s.Concluded (s.ended log) := by
  rw [ended_eq hroot] at hended ⊢
  refine ⟨invariant_explore _ (invariant_start log), isHeld_explore _ (isHeld_start s log), ?_⟩
  refine isFinished_explore _ ?_
  rw [closed_push]
  simpa using hended

/-- The clauses taken up are clauses of choices, and no two the same, so there are no more of them than
there are choices of body atoms. -/
theorem length_closed_le (s : HypothesisSpace) (log : EventLog) :
    (s.ended log).closed.length ≤ 2 ^ s.bottom.body.length := by
  cases hhead : s.root? with
  | none =>
    rw [ended, hhead]
    exact Nat.zero_le _
  | some root =>
    have hroot : s.root? = some (s.scored []) := by
      rw [root?_eq] at hhead ⊢
      obtain ⟨a, ha, -⟩ := Option.map_eq_some_iff.1 hhead
      rw [ha]
      rfl
    rw [ended_eq hroot]
    have hinv := invariant_explore maxExpansions (invariant_start (s := s) log)
    have hheld := isHeld_explore (s := s) maxExpansions (isHeld_start s log)
    generalize s.explore maxExpansions _ = st at hinv hheld
    let choices := (List.range s.bottom.body.length).sublists.map fun ks =>
      (⟨s.bottom.clause.head, s.atomsAt ks⟩ : Clause)
    have hsub : (st.closed.map Hypothesis.clause).Subperm choices := by
      refine List.subperm_of_subset ?_ fun c hc => ?_
      · have := hheld.apart.distinct
        rw [List.map_append] at this
        exact this.of_append_right
      · obtain ⟨h, hh, rfl⟩ := List.mem_map.1 hc
        have ht := hinv.traced h (List.mem_append_right _ hh)
        rw [ht.clause_eq]
        exact List.mem_map.2 ⟨_, List.mem_sublists.2 ht.choice.sublist_range, rfl⟩
    simpa [choices] using hsub.length_le

end

/-! ## The way to a solution -/

section

variable {st : State} {h : Hypothesis} {js : List Nat} {k : Nat}

/-- A clause met on the way of a choice is held with the scores that it has there. -/
theorem Invariant.exists_alike (hst : s.Invariant st) (hlimit : s.maxBody < 2 ^ 63)
    (hlinks : s.bottom.LinksAgree) (hjs : s.IsChoice js) (hlen : js.length ≤ s.maxBody)
    (hseen : (s.along js).clause ∈ st.seen) :
    ∃ h ∈ st.opened ++ st.closed, s.Traced h ∧ Alike h (s.along js) ∧ s.withinLimit h = true := by
  obtain ⟨h, hh, hclause⟩ := hst.kept _ hseen
  have ht := hst.traced h hh
  have hatoms : s.atomsAt h.chosen = s.atomsAt js := by
    have := ht.clause_eq.symm.trans (hclause.trans (along_spec hjs).1)
    exact (Clause.mk.inj this).2
  have halike : Alike h (s.along js) := by
    have := along_alike hlinks ht.choice hjs hatoms
    rwa [← ht.along] at this
  refine ⟨h, hh, ht, halike, withinLimit_of_le hlimit ?_⟩
  rwa [halike.c, c_along hjs]

/-- Where a hypothesis on the way is taken up and not left out, the next clause on the way is met. -/
theorem Invariant.mem_seen_extended (hst : s.Invariant st) (hh : h ∈ st.closed) (ht : s.Traced h)
    (hopen : s.isPruned h = false) (halike : Alike h (s.along js)) (hjs : s.IsChoice (js ++ [k]))
    (hlen : js.length < s.maxBody) : (s.along (js ++ [k])).clause ∈ st.seen := by
  obtain ⟨hbefore, -, hk⟩ := isChoice_append.1 hjs
  have hbody := List.getElem?_eq_getElem hk
  have hc : h.c < s.maxBody := by rwa [halike.c, c_along hbefore]
  have hatoms : s.atomsAt js = h.clause.body := by
    rw [halike.clause, (along_spec hbefore).1]
  have hseen := hst.expanded h hh hopen _ (ht.refined_mem_refine hc hjs hatoms hbody)
  have hclause : (s.refined h k s.bottom.body[k]).clause = (s.along (js ++ [k])).clause := by
    rw [along_append hbody]
    show h.clause.extended _ = (s.along js).clause.extended _
    rw [halike.clause]
  exact hclause ▸ hseen

end

/-- A search that was not stopped early finds something where nothing on the way to some solution is left
out. -/
theorem exists_run (hlimit : s.maxBody < 2 ^ 63) (hlinks : s.bottom.LinksAgree) (log : EventLog)
    (hended : (s.ended log).closed.length < maxExpansions) (hroot : s.root? = some (s.scored []))
    {ks : List Nat} (hks : s.IsChoice ks) (hlen : ks.length ≤ s.maxBody)
    (hsol : (s.along ks).isSolution = true)
    (hopen : ∀ i < ks.length, s.isPruned (s.along (ks.take i)) = false) :
    ∃ h, (s.run log).1 = some h := by
  rw [run_eq]
  by_contra hnone
  have hst := concluded_ended hroot hended
  have hunsolved : s.bestSolution? (s.ended log).closed = none :=
    Option.eq_none_iff_forall_ne_some.2 fun h hh => hnone ⟨h, hh⟩
  -- without a solution a search ends only when no open hypothesis is within the limit
  have hbest : s.best? (s.ended log).opened = none := by
    have hfinished := hst.finished
    rw [isFinished, hunsolved] at hfinished
    split at hfinished
    · assumption
    · cases hfinished
  have hclosed : ∀ i ≤ ks.length, (s.along (ks.take i)).clause ∈ (s.ended log).seen →
      ∃ h ∈ (s.ended log).closed, s.Traced h ∧ Alike h (s.along (ks.take i)) ∧
        s.withinLimit h = true := by
    intro i hi hseen
    obtain ⟨h, hh, hspec⟩ := hst.invariant.exists_alike hlimit hlinks (hks.take i)
      (by rw [List.length_take]; omega) hseen
    refine ⟨h, (List.mem_append.1 hh).resolve_left fun hh => ?_, hspec⟩
    have hwithin := hspec.2.2
    rw [best?_eq_none hbest hh] at hwithin
    cases hwithin
  have hseen : ∀ i ≤ ks.length, (s.along (ks.take i)).clause ∈ (s.ended log).seen := by
    intro i hi
    induction i with
    | zero => exact hst.invariant.started
    | succ i ih =>
      obtain ⟨h, hh, ht, halike, -⟩ := hclosed i (by omega) (ih (by omega))
      have htake : ks.take (i + 1) = ks.take i ++ [ks[i]] := List.take_succ_eq_append_getElem hi
      rw [htake]
      refine hst.invariant.mem_seen_extended hh ht ?_ halike (htake ▸ hks.take (i + 1))
        (by rw [List.length_take]; omega)
      rw [halike.isPruned]
      exact hopen i hi
  obtain ⟨h, hh, -, halike, hwithin⟩ := hclosed ks.length (Nat.le_refl _) (hseen _ (Nat.le_refl _))
  rw [List.take_length] at halike
  obtain ⟨b, hb, -⟩ := bestSolution?_ge hh (halike.isSolution.trans hsol) hwithin
  exact hnone ⟨b, hb⟩

/-! ## Choices that are met -/

section

variable {st : State} {ks : List Nat}

end

namespace Sorts

variable {k : Classification} {v : Var} {attributes positives negatives : List String} {ks : List Nat}

end Sorts

section

section

variable {knowledge : LayeredStore} {js : List Nat}

end

end

/-! ## A bottom clause with one atom -/

section

/-- A predicate without arguments. -/
def flag : Predicate := ⟨"flag", []⟩

/-- The bottom clause `flag :- true`, whose atom provides the given variables and whose head needs
them, with three positive examples. -/
def flagSpace (needed : List Var) : HypothesisSpace :=
  make ⟨.rule (.predicate flag) [.predicate ⟨"true", []⟩], ⟨[], needed⟩, [⟨[], needed⟩]⟩ ⟨[]⟩
    (List.replicate 3 (.fact (.predicate flag))) [] 1 1

/-- A store of one clause for `flag` gives it back. -/
theorem candidates_flag {c : Clause} (hhead : c.headPredicate = some flag)
    (hplace : hasPlaceholders c = false) :
    ∃ store, Store.ofClauses [c] = .ok store ∧
      ((⟨[]⟩ : LayeredStore).under .owned store).candidates flag = [c] := by
  refine ⟨Store.empty.insertNew c flag, ?_, ?_⟩
  · have hnew : Store.empty.contains c = false := by simp [Store.contains, Store.empty]
    have hadd : Store.empty.add c = .ok (true, Store.empty.insertNew c flag) := by
      simp [Store.add, Store.tryAdd, hhead, hplace, hnew, Except.map]
    rw [Store.ofClauses, Store.addAll, List.foldlM_cons, hadd]
    rfl
  · have hfound : (Store.empty.insertNew c flag).candidates flag = [c] := by
      have hids : ((∅ : IdSet).insert 0).toList = [0] := rfl
      have hfiled : (Store.empty.insertNew c flag).index[flag.signature]? =
          some ⟨(∅ : IdSet).insert 0, []⟩ := by
        simp [Store.insertNew, Store.empty]
        rfl
      have hclause : (Store.empty.insertNew c flag).clauseOf[0]? = some c := by
        simp [Store.insertNew, Store.empty]
      unfold Store.candidates
      rw [hfiled]
      show ((∅ : IdSet).insert 0).toList.filterMap _ = [c]
      rw [hids, List.filterMap_cons, hclause]
      rfl
    show (([(Store.empty.insertNew c flag)].flatMap fun k => k.candidates flag)).eraseDups = [c]
    rw [List.flatMap_cons, hfound]
    rfl

theorem unifyPredicates_flag (σ : Substitution) : σ.unifyPredicates flag flag = .ok σ := by
  rw [Substitution.unifyPredicates]
  show σ.solve [] = .ok σ
  rw [Substitution.solve]

/-- Either clause for `flag` covers it in one step. -/
theorem isCovered_flag {body : List Atom} {lookup : Lookup}
    (hbody : body = [] ∨ body = [.predicate ⟨"true", []⟩])
    (hlookup : lookup flag = [.rule (.predicate flag) body]) :
    Clause.isCovered (.fact (.predicate flag)) lookup 1 = true := by
  let σ := Substitution.empty.addVariables [Literal.atom (.predicate flag)]
  show Goal.succeeds [.atom (.predicate flag)] lookup 1 = true
  rw [Goal.succeeds_eq]
  show ((Search.next lookup ⟨[.goal [.atom (.predicate flag)] σ], 0 + 1, false⟩).1).isSome = true
  rw [Search.next_call (p := flag) rfl rfl, hlookup, Search.next_tried]
  have hresolve : Branch.resolve? flag (.rule (.predicate flag) body) [] σ =
      some (.goal (body.map .atom) σ) := by
    rcases hbody with rfl | rfl <;> exact Branch.resolve?_closed [] rfl rfl rfl (unifyPredicates_flag σ)
  rw [hresolve]
  show ((Search.next lookup ⟨.goal (body.map .atom) σ :: _, 0, false⟩).1).isSome = true
  rcases hbody with rfl | rfl
  · rw [List.map_nil, Search.next_answer]
    rfl
  · show ((Search.next lookup ⟨.goal [.atom (.predicate ⟨"true", []⟩)] σ :: _, 0, false⟩).1).isSome =
      true
    rw [Search.next_true (p := ⟨"true", []⟩) rfl rfl, Search.next_answer]
    rfl

theorem positives_flag (needed : List Var) {body : List Atom}
    (hbody : body = [] ∨ body = [.predicate ⟨"true", []⟩]) :
    (flagSpace needed).covered (.rule (.predicate flag) body) (flagSpace needed).positives
      (List.range 3) = [0, 1, 2] := by
  obtain ⟨store, hstore, hlookup⟩ := candidates_flag (c := .rule (.predicate flag) body) rfl (by
    rcases hbody with rfl | rfl <;> rfl)
  have hcovers := isCovered_flag hbody hlookup
  unfold covered
  rw [hstore]
  show [0, 1, 2].filter _ = _
  rw [List.filter_eq_self]
  intro i hi
  have hi : i < 3 := by
    simp only [List.mem_cons, List.not_mem_nil, or_false] at hi
    omega
  rw [show (flagSpace needed).positives[i]? = some (.fact (.predicate flag)) from
    List.getElem?_replicate_of_lt hi]
  exact hcovers

theorem scored_flag (needed : List Var) {ks : List Nat} (h : ks = [] ∨ ks = [0]) :
    (flagSpace needed).scored ks =
      ⟨.rule (.predicate flag) ((flagSpace needed).atomsAt ks), ks, nextPlace ks,
        (flagSpace needed).bottom.remainingDepth (flagSpace needed).depths ks, [0, 1, 2], []⟩ := by
  have hbody : (flagSpace needed).atomsAt ks = [] ∨
      (flagSpace needed).atomsAt ks = [.predicate ⟨"true", []⟩] := by
    rcases h with rfl | rfl
    · exact .inl rfl
    · exact .inr rfl
  have hpos := positives_flag needed hbody
  have hneg : (flagSpace needed).covered (.rule (.predicate flag) ((flagSpace needed).atomsAt ks))
      [] [] = [] := by
    rw [covered_eq_filter]
    rfl
  exact congrArg₂ (Hypothesis.mk _ _ _ _) hpos hneg

end

end HypothesisSpace
end Horn
