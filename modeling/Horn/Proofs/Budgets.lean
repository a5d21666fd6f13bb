import Horn.Proofs.Derivation
import Horn.Proofs.MostGeneral
import Horn.Proofs.Provability
import Horn.Proofs.SearchStep

/-!
Searches that differ only in the steps they may take.  As long as the one with fewer steps is not cut
both do the same, nested searches included.  A search for a goal without negations gives nothing after
it is cut, so what it has given by then is the beginning of what more steps give.
-/

namespace Horn
namespace Search

/-- The same search with more steps to spend. -/
def extended (s : Search) (extra : Nat) : Search := { s with steps := s.steps + extra }

section

variable {lookup : Lookup} {s : Search} {branches : List Branch} (extra : Nat)

theorem resumed_extended (inner : Search) :
    (s.extended extra).resumed (inner.extended extra) branches =
      (s.resumed inner branches).extended extra := by
  have hsteps : min (s.steps + extra) (inner.steps + extra) = min s.steps inner.steps + extra := by
    omega
  simp only [resumed, extended, hsteps]

theorem tried_extended (h : s.steps ≠ 0) (p : Predicate) (c : Clause) (left : List Clause)
    (todo : List Literal) (σ : Substitution) (rest : List Branch) :
    (s.extended extra).tried p c left todo σ rest =
      (s.tried p c left todo σ rest).extended extra := by
  have hsteps : s.steps + extra - 1 = s.steps - 1 + extra := by omega
  simp only [tried, extended, hsteps]

end

/-! ## One answer -/

/-- A search that is cut stays cut. -/
theorem cut_next (lookup : Lookup) (s : Search) (hs : s.cut = true) :
    (s.next lookup).2.cut = true := by
  fun_induction next lookup s with
  | case1 s h => exact hs
  | case2 s p todo σ rest h hb ih => exact ih hs
  | case3 s p c left todo σ rest h h0 => rfl
  | case4 s p c left todo σ rest h h0 hb ih => exact ih hs
  | case5 s σ rest h => exact hs
  | case6 s a todo σ rest h c hc hnone hb ih => exact ih hs
  | case7 s a todo σ rest h c hc τ hτ hb ih => exact ih hs
  | case8 s a todo σ rest h p hp hbuilt hb ih => exact ih hs
  | case9 s a todo σ rest h p hp hbuilt hb ih => exact ih hs
  | case10 s a todo σ rest h p hp hbuilt hb ih => exact ih hs
  | case11 s g todo σ rest h hb answer inner hnext hb' ihin ih =>
    refine ih ?_
    have hinner := ihin hs
    rw [hnext] at hinner
    exact hinner

theorem uncut_of_next {lookup : Lookup} {s : Search} (h : (s.next lookup).2.cut = false) :
    s.cut = false := by
  cases hs : s.cut with
  | false => rfl
  | true => cases (cut_next lookup s hs).symm.trans h

/-- A search without negations that has an answer is not cut on the way to it. -/
theorem cut_of_next_some (lookup : Lookup) (s : Search) (hs : s.IsPositive)
    (h : (s.next lookup).1.isSome = true) : (s.next lookup).2.cut = s.cut := by
  fun_induction next lookup s with
  | case1 s hb => rfl
  | case2 s p todo σ rest hb _ ih => exact ih (hs.cons hb).2 h
  | case3 s p c left todo σ rest hb h0 => cases h
  | case4 s p c left todo σ rest hb h0 _ ih =>
    obtain ⟨hcall, hrest⟩ := hs.cons hb
    refine ih (List.forall_mem_append.2 ⟨fun b hb => ?_, List.forall_mem_cons.2 ⟨hcall, hrest⟩⟩) h
    exact Branch.isPositive_of_resolve? hcall (Option.mem_toList.1 hb)
  | case5 s σ rest hb => rfl
  | case6 s a todo σ rest hb c hc hnone _ ih => exact ih (hs.cons hb).2 h
  | case7 s a todo σ rest hb c hc τ hτ _ ih => exact ih (hs.replace hb id) h
  | case8 s a todo σ rest hb p hp hbuilt _ ih => exact ih (hs.replace hb id) h
  | case9 s a todo σ rest hb p hp hbuilt _ ih => exact ih (hs.cons hb).2 h
  | case10 s a todo σ rest hb p hp hbuilt _ ih => exact ih (hs.replace hb id) h
  | case11 s g todo σ rest hb => cases (List.forall_mem_cons.1 (hs.cons hb).1).1

/-- More steps change nothing where the search is not cut, and what is not spent is left over. -/
theorem next_extended (lookup : Lookup) (s : Search) (extra : Nat)
    (h : (s.next lookup).2.cut = false) :
    (s.extended extra).next lookup =
      ((s.next lookup).1, (s.next lookup).2.extended extra) := by
  fun_induction next lookup s with
  | case1 s hb =>
    obtain ⟨branches, steps, cut⟩ := s
    subst hb
    exact next_nil
  | case2 s p todo σ rest hb _ ih =>
    obtain ⟨branches, steps, cut⟩ := s
    subst hb
    exact next_exhausted.trans (ih h)
  | case3 s p c left todo σ rest hb h0 => cases h
  | case4 s p c left todo σ rest hb h0 _ ih =>
    rw [← ih h, ← tried_extended extra h0]
    obtain ⟨branches, steps, cut⟩ := s
    obtain ⟨n, rfl⟩ := Nat.exists_eq_succ_of_ne_zero h0
    subst hb
    have hn : n.succ + extra = n + extra + 1 := by omega
    rw [extended, hn]
    exact next_tried
  | case5 s σ rest hb =>
    obtain ⟨branches, steps, cut⟩ := s
    subst hb
    exact next_answer
  | case6 s a todo σ rest hb c hc hnone _ ih =>
    obtain ⟨branches, steps, cut⟩ := s
    subst hb
    have hstep : next lookup ⟨.goal (.atom a :: todo) σ :: rest, steps + extra, cut⟩ = _ :=
      next_compare hc
    rw [hnone] at hstep
    exact hstep.trans (ih h)
  | case7 s a todo σ rest hb c hc τ hτ _ ih =>
    obtain ⟨branches, steps, cut⟩ := s
    subst hb
    have hstep : next lookup ⟨.goal (.atom a :: todo) σ :: rest, steps + extra, cut⟩ = _ :=
      next_compare hc
    rw [hτ] at hstep
    exact hstep.trans (ih h)
  | case8 s a todo σ rest hb p hp hbuilt _ ih =>
    obtain ⟨branches, steps, cut⟩ := s
    subst hb
    exact (next_true hp hbuilt).trans (ih h)
  | case9 s a todo σ rest hb p hp hbuilt _ ih =>
    obtain ⟨branches, steps, cut⟩ := s
    subst hb
    exact (next_fail hp hbuilt).trans (ih h)
  | case10 s a todo σ rest hb p hp hbuilt _ ih =>
    obtain ⟨branches, steps, cut⟩ := s
    subst hb
    exact (next_call hp hbuilt).trans (ih h)
  | case11 s g todo σ rest hb _ answer inner hnext hb' ihin ih =>
    -- The search goes on with the flag of the nested one, so neither is cut.
    have hresumed := uncut_of_next h
    have hinner : inner.cut = false := hresumed
    have hin := ihin (by rw [hnext]; exact hinner)
    rw [hnext] at hin
    have hstep := ih h
    rw [← resumed_extended] at hstep
    obtain ⟨branches, steps, cut⟩ := s
    subst hb
    refine next_not.trans (Eq.trans ?_ hstep)
    change next lookup ⟨[.goal g (σ.addVariables g)], steps + extra, cut⟩ = _ at hin
    rw [hin]
    rfl

/-! ## All answers -/

theorem cut_rest (lookup : Lookup) (s : Search) (hs : s.cut = true) :
    (s.rest lookup).2.cut = true := by
  fun_induction Search.rest lookup s with
  | case1 s t h =>
    have hcut := cut_next lookup s hs
    rw [h] at hcut
    exact hcut
  | case2 s σ t h _ more ended hrest ih =>
    have hcut := cut_next lookup s hs
    rw [h] at hcut
    rw [hrest] at ih
    exact ih hcut

theorem uncut_of_rest {lookup : Lookup} {s : Search} (h : (s.rest lookup).2.cut = false) :
    s.cut = false := by
  cases hs : s.cut with
  | false => rfl
  | true => cases (cut_rest lookup s hs).symm.trans h

theorem rest_extended (lookup : Lookup) (s : Search) (extra : Nat)
    (h : (s.rest lookup).2.cut = false) :
    (s.extended extra).rest lookup =
      ((s.rest lookup).1, (s.rest lookup).2.extended extra) := by
  fun_induction Search.rest lookup s with
  | case1 s t hnext =>
    have hlong := next_extended lookup s extra (by rw [hnext]; exact h)
    rw [hnext] at hlong
    exact rest_of_next_none hlong
  | case2 s σ t hnext _ more ended hrest ih =>
    have ht : t.cut = false := uncut_of_rest (by rw [hrest]; exact h)
    have hlong := next_extended lookup s extra (by rw [hnext]; exact ht)
    rw [hnext] at hlong
    rw [hrest] at ih
    rw [rest_of_next_some hlong, ih h]

/-- The answers of a search without negations come first among those of one with more steps: up to an
answer nothing was cut. -/
theorem rest_prefix_extended (lookup : Lookup) (s : Search) (extra : Nat) (hs : s.IsPositive)
    (hcut : s.cut = false) : (s.rest lookup).1 <+: ((s.extended extra).rest lookup).1 := by
  fun_induction Search.rest lookup s with
  | case1 s t hnext => exact List.nil_prefix
  | case2 s σ t hnext _ more ended hrest ih =>
    have hexplores := next_explores lookup s hs
    have ht := cut_of_next_some lookup s hs (by rw [hnext]; rfl)
    rw [hnext] at hexplores ht
    have hlong := next_extended lookup s extra (by rw [hnext]; exact ht.trans hcut)
    rw [hnext] at hlong
    rw [rest_of_next_some hlong]
    rw [hrest] at ih
    exact List.cons_prefix_cons.2 ⟨rfl, ih hexplores.1 (ht.trans hcut)⟩

end Search

namespace Goal

theorem start_extended (g : Goal) (σ : Substitution) (steps extra : Nat) :
    Search.start g σ (steps + extra) = (Search.start g σ steps).extended extra := rfl

/-- With more steps a goal has the same answers if the search was not cut, and a goal without
negations has at least the answers that it had, first and in the same order. -/
theorem answersFrom_mono (g : Goal) (lookup : Lookup) (σ : Substitution) {fewer more : Nat}
    (h : fewer ≤ more) :
    ((g.answersFrom lookup fewer σ none).2.cut = false →
      (g.answersFrom lookup more σ none).1 = (g.answersFrom lookup fewer σ none).1 ∧
        (g.answersFrom lookup more σ none).2.cut = false) ∧
      ((∀ l ∈ g, l.isNegation = false) →
        (g.answersFrom lookup fewer σ none).1 <+: (g.answersFrom lookup more σ none).1) := by
  obtain ⟨extra, rfl⟩ := Nat.exists_eq_add_of_le h
  simp only [answersFrom, start_extended]
  refine ⟨fun hcut => ?_, fun hg => ?_⟩
  · rw [Search.rest_extended lookup _ extra hcut]
    exact ⟨rfl, hcut⟩
  · have hpositive : (Search.start g σ fewer).IsPositive := List.forall_mem_singleton.2 hg
    exact (Search.rest_prefix_extended lookup _ extra hpositive rfl).map _

/-- One step is enough for the answer to `p(X)` from the fact `p(a)`, so five give no other. -/
theorem answersFrom_mono_fact :
    let goal : Goal := [.atom (.predicate ⟨"p", [.var (.named "X")]⟩)]
    let k := Knowledge.ofClauses [.fact (.predicate ⟨"p", [.symbol "a"]⟩)]
    let run steps := goal.answersFrom k.lookup steps Substitution.empty none
    (run 1).1.length = 1 ∧ (run 1).2.cut = false ∧ (run 5).1 = (run 1).1 ∧
      (run 5).2.cut = false ∧ (run 1).1 <+: (run 5).1 := by
  intro goal k run
  obtain ⟨τ, hresolve, -⟩ := Branch.exists_resolve?_symbol "a" goal
  have hrest : Search.rest k.lookup ⟨[.goal goal _], 0 + 1, false⟩ = ([τ], ⟨[], 0, false⟩) :=
    Search.rest_of_fact rfl rfl rfl hresolve
  have hrun : run 1 = (goal.restricted [τ], ⟨[], 0, false⟩) :=
    congrArg (fun r => (goal.restricted r.1, r.2)) hrest
  have hlength : (run 1).1.length = 1 := by
    rw [hrun]
    rfl
  have hcut : (run 1).2.cut = false := by rw [hrun]
  have hle : 1 ≤ 5 := by decide
  obtain ⟨hsame, hstarts⟩ := answersFrom_mono goal k.lookup Substitution.empty hle
  exact ⟨hlength, hcut, (hsame hcut).1, (hsame hcut).2, hstarts (List.forall_mem_singleton.2 rfl)⟩

end Goal
end Horn
