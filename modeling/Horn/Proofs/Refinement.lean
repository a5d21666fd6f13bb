import Horn.Learning.Hypothesis
import Mathlib.Data.List.Induction
import Mathlib.Data.List.Sort

/-!
The hypotheses between the bare head and a bottom clause.  Each stands for a choice of places in
the body, taken in order.  A search scores a hypothesis on the examples that the one before it
covers, so its scores depend on the way to it; `along` is the hypothesis at the end of that way and
`scored` the same choice scored on every example.
-/

namespace Horn
namespace BottomClause

/-- Equal atoms take and provide the same variables. -/
def LinksAgree (b : BottomClause) : Prop :=
  ∀ (i j : Nat) (a : Atom), b.body[i]? = some a → b.body[j]? = some a → b.links[i]? = b.links[j]?

theorem linksAgree_of_nodup {b : BottomClause} (h : b.body.Nodup) : b.LinksAgree := by
  intro i j a hi hj
  have hplace : i < b.body.length := (List.getElem?_eq_some_iff.1 hi).1
  rw [(List.getElem?_inj hplace h).1 (hi.trans hj.symm)]

end BottomClause

namespace HypothesisSpace

variable (s : HypothesisSpace)

/-! ## Coverage -/

/-- Whether the example at a place follows from the knowledge and a clause. -/
def covers (c : Clause) (examples : List Clause) (place : Nat) : Bool :=
  match Store.ofClauses [c] with
  | .error _ => false
  | .ok store => examples[place]?.any fun e =>
      e.isCovered (s.knowledge.under .owned store).candidates s.steps

theorem covered_eq_filter (c : Clause) (examples : List Clause) (places : List Nat) :
    s.covered c examples places = places.filter (s.covers c examples) := by
  unfold covered covers
  cases Store.ofClauses [c] with
  | error why => simp
  | ok store => rfl

/-! ## Choices -/

/-- The atoms at the given places of the body. -/
def atomsAt (ks : List Nat) : List Atom := ks.filterMap fun k => s.bottom.body[k]?

/-- The place after the last of the given ones. -/
def nextPlace (ks : List Nat) : Nat := (ks.getLast?.map (· + 1)).getD 0

/-- Places of the body, each after the one before. -/
structure IsChoice (ks : List Nat) : Prop where
  increasing : ks.Pairwise (· < ·)
  inside : ∀ k ∈ ks, k < s.bottom.body.length

theorem nextPlace_append (ks : List Nat) (k : Nat) : nextPlace (ks ++ [k]) = k + 1 := by
  simp [nextPlace]

variable {s}

theorem isChoice_nil : s.IsChoice [] := ⟨.nil, nofun⟩

theorem isChoice_append {ks : List Nat} {k : Nat} :
    s.IsChoice (ks ++ [k]) ↔ s.IsChoice ks ∧ nextPlace ks ≤ k ∧ k < s.bottom.body.length := by
  have hlast : ks.Pairwise (· < ·) → ((∀ j ∈ ks, j < k) ↔ nextPlace ks ≤ k) := by
    intro hinc
    induction ks using List.reverseRecOn with
    | nil => simp [nextPlace]
    | append_singleton js j _ =>
      rw [nextPlace_append]
      constructor
      · intro h
        exact h j (by simp)
      · intro h i hi
        rcases List.mem_append.1 hi with hi | hi
        · have : i < j := (List.pairwise_append.1 hinc).2.2 i hi j (by simp)
          omega
        · rw [List.mem_singleton.1 hi]
          omega
  constructor
  · intro ⟨hinc, hin⟩
    have hks := (List.pairwise_append.1 hinc).1
    refine ⟨⟨hks, fun j hj => hin j (by simp [hj])⟩, ?_, hin k (by simp)⟩
    exact (hlast hks).1 fun j hj => (List.pairwise_append.1 hinc).2.2 j hj k (by simp)
  · intro ⟨⟨hinc, hin⟩, hnext, hk⟩
    refine ⟨List.pairwise_append.2 ⟨hinc, List.pairwise_singleton _ _, ?_⟩, ?_⟩
    · intro j hj i hi
      rw [List.mem_singleton.1 hi]
      exact (hlast hinc).2 hnext j hj
    · intro j hj
      rcases List.mem_append.1 hj with hj | hj
      · exact hin j hj
      · rw [List.mem_singleton.1 hj]
        exact hk

theorem IsChoice.take {ks : List Nat} (h : s.IsChoice ks) (i : Nat) : s.IsChoice (ks.take i) :=
  ⟨h.increasing.sublist (List.take_sublist i ks), fun k hk => h.inside k (List.mem_of_mem_take hk)⟩

/-- A choice leaves out some of the places. -/
theorem IsChoice.sublist_range {ks : List Nat} (h : s.IsChoice ks) :
    ks.Sublist (List.range s.bottom.body.length) := by
  have hsub : ks.Subperm (List.range s.bottom.body.length) :=
    List.subperm_of_subset (h.increasing.imp Nat.ne_of_lt) fun i hi =>
      List.mem_range.2 (h.inside i hi)
  exact List.sublist_of_subperm_of_sortedLE hsub
    (h.increasing.imp Nat.le_of_lt).sortedLE (List.pairwise_lt_range.imp Nat.le_of_lt).sortedLE

theorem atomsAt_append {ks : List Nat} {k : Nat} {a : Atom} (h : s.bottom.body[k]? = some a) :
    s.atomsAt (ks ++ [k]) = s.atomsAt ks ++ [a] := by
  simp [atomsAt, h]

theorem length_atomsAt {ks : List Nat} (h : s.IsChoice ks) : (s.atomsAt ks).length = ks.length := by
  induction ks using List.reverseRecOn with
  | nil => rfl
  | append_singleton ks k ih =>
    obtain ⟨hks, -, hk⟩ := isChoice_append.1 h
    rw [atomsAt_append (List.getElem?_eq_getElem hk), List.length_append, List.length_append, ih hks]
    rfl

theorem mem_atomsAt_split {ks : List Nat} (h : s.IsChoice ks) {atoms : List Atom} {a : Atom}
    (heq : s.atomsAt ks = atoms ++ [a]) :
    ∃ js k, ks = js ++ [k] ∧ s.atomsAt js = atoms ∧ s.bottom.body[k]? = some a := by
  induction ks using List.reverseRecOn with
  | nil => simp [atomsAt] at heq
  | append_singleton js k _ =>
    obtain ⟨-, -, hk⟩ := isChoice_append.1 h
    have hbody := List.getElem?_eq_getElem hk
    rw [atomsAt_append hbody] at heq
    obtain ⟨hjs, ha⟩ := List.append_inj' heq rfl
    exact ⟨js, k, rfl, hjs, by rw [hbody, List.singleton_inj.1 ha]⟩

variable (s)

/-! ## Hypotheses -/

/-- A choice scored on every example. -/
def scored (ks : List Nat) : Hypothesis :=
  s.score ⟨s.bottom.clause.head, s.atomsAt ks⟩ ks (nextPlace ks)
    (List.range s.positives.length) (List.range s.negatives.length)

/-- A hypothesis with one more atom, scored on the examples that it covers. -/
def refined (h : Hypothesis) (k : Nat) (a : Atom) : Hypothesis :=
  s.score (h.clause.extended a) (h.chosen ++ [k]) (k + 1) h.positives h.negatives

/-- A choice scored on the way to it. -/
def along (ks : List Nat) : Hypothesis :=
  ks.foldl (fun h k => (s.bottom.body[k]?).elim h (s.refined h k)) (s.scored [])

theorem root?_eq : s.root? = s.bottom.clause.head.map fun _ => s.scored [] := by
  cases h : s.bottom.clause.head with
  | none => simp [root?, h]
  | some a => simp [root?, scored, h, Clause.fact, atomsAt, nextPlace]

theorem getElem?_refine (h : Hypothesis) (j : Nat) :
    (s.refine h)[j]? = if s.maxBody ≤ h.c then none
      else (s.bottom.body[h.cursor + j]?).map (s.refined h (h.cursor + j)) := by
  unfold refine
  by_cases hc : s.maxBody ≤ h.c
  · rw [if_pos hc, if_pos hc, List.getElem?_nil]
  · rw [if_neg hc, if_neg hc, List.getElem?_map, List.getElem?_drop, List.getElem?_zipIdx,
      Option.map_map]
    congr 1
    funext a
    simp [refined]

variable {s}

theorem along_append {ks : List Nat} {k : Nat} {a : Atom} (h : s.bottom.body[k]? = some a) :
    s.along (ks ++ [k]) = s.refined (s.along ks) k a := by
  rw [along, List.foldl_append, List.foldl_cons, List.foldl_nil, h]
  rfl

/-- What a choice is made of and whom it covers, as found on the way to it. -/
theorem along_spec {ks : List Nat} (h : s.IsChoice ks) :
    (s.along ks).clause = ⟨s.bottom.clause.head, s.atomsAt ks⟩ ∧ (s.along ks).chosen = ks ∧
      (s.along ks).cursor = nextPlace ks ∧
      (s.along ks).missing = s.bottom.remainingDepth s.depths ks ∧
      (s.along ks).positives.Sublist (s.scored ks).positives ∧
      (s.along ks).negatives.Sublist (s.scored ks).negatives := by
  induction ks using List.reverseRecOn with
  | nil => exact ⟨rfl, rfl, rfl, rfl, .refl _, .refl _⟩
  | append_singleton ks k ih =>
    obtain ⟨hks, -, hk⟩ := isChoice_append.1 h
    have hbody := List.getElem?_eq_getElem hk
    obtain ⟨hclause, hchosen, -, -, hpos, hneg⟩ := ih hks
    have hext : (s.along ks).clause.extended s.bottom.body[k] =
        ⟨s.bottom.clause.head, s.atomsAt (ks ++ [k])⟩ := by
      rw [hclause, atomsAt_append hbody]
      rfl
    have hrange : ∀ (c : Clause) (examples : List Clause) {places : List Nat},
        places.Sublist (s.covered c examples (List.range examples.length)) →
        places.Sublist (List.range examples.length) := by
      intro c examples places hsub
      rw [covered_eq_filter] at hsub
      exact hsub.trans List.filter_sublist
    rw [along_append hbody, refined, hext, hchosen]
    refine ⟨rfl, rfl, (nextPlace_append ks k).symm, rfl, ?_, ?_⟩
    · show List.Sublist (s.covered _ _ _) (s.covered _ _ _)
      rw [covered_eq_filter, covered_eq_filter]
      exact (hrange _ _ hpos).filter _
    · show List.Sublist (s.covered _ _ _) (s.covered _ _ _)
      rw [covered_eq_filter, covered_eq_filter]
      exact (hrange _ _ hneg).filter _

theorem c_along {ks : List Nat} (h : s.IsChoice ks) : (s.along ks).c = ks.length := by
  rw [Hypothesis.c, (along_spec h).1]
  exact length_atomsAt h

/-- Two hypotheses that can differ only in the places of their atoms. -/
structure Alike (h h' : Hypothesis) : Prop where
  clause : h.clause = h'.clause
  positives : h.positives = h'.positives
  negatives : h.negatives = h'.negatives
  missing : h.missing = h'.missing

section

variable {h h' : Hypothesis}

theorem Alike.p (e : Alike h h') : h.p = h'.p := congrArg List.length e.positives

theorem Alike.n (e : Alike h h') : h.n = h'.n := congrArg List.length e.negatives

theorem Alike.c (e : Alike h h') : h.c = h'.c := congrArg (·.body.length) e.clause

theorem Alike.g (e : Alike h h') : h.g = h'.g := by
  rw [Hypothesis.g, Hypothesis.g, e.p, e.c, e.missing]

theorem Alike.f (e : Alike h h') : h.f = h'.f := by
  rw [Hypothesis.f, Hypothesis.f, e.g, e.n]

theorem Alike.isSolution (e : Alike h h') : h.isSolution = h'.isSolution := by
  rw [Hypothesis.isSolution, Hypothesis.isSolution, e.n, e.missing, e.p]

theorem Alike.isPruned (e : Alike h h') : s.isPruned h = s.isPruned h' := by
  rw [HypothesisSpace.isPruned, HypothesisSpace.isPruned, withinLimit, withinLimit, e.n, e.f, e.g, e.c]

end

/-- Where equal atoms have equal links, it does not matter which of them is chosen. -/
theorem along_alike (hlinks : s.bottom.LinksAgree) {ks js : List Nat} (hks : s.IsChoice ks)
    (hjs : s.IsChoice js) (heq : s.atomsAt ks = s.atomsAt js) :
    Alike (s.along ks) (s.along js) := by
  have key : s.bottom.chosenLinks ks = s.bottom.chosenLinks js ∧
      (s.along ks).clause = (s.along js).clause ∧
      (s.along ks).positives = (s.along js).positives ∧
      (s.along ks).negatives = (s.along js).negatives := by
    induction ks using List.reverseRecOn generalizing js with
    | nil =>
      have : js = [] := by
        refine List.eq_nil_of_length_eq_zero ?_
        rw [← length_atomsAt hjs, ← heq]
        rfl
      rw [this]
      exact ⟨rfl, rfl, rfl, rfl⟩
    | append_singleton ks k ih =>
      obtain ⟨hks', -, hk⟩ := isChoice_append.1 hks
      have hbody := List.getElem?_eq_getElem hk
      rw [atomsAt_append hbody] at heq
      obtain ⟨js, j, rfl, hatoms, hj⟩ := mem_atomsAt_split hjs heq.symm
      obtain ⟨hlinks', hclause, hpos, hneg⟩ := ih hks' (isChoice_append.1 hjs).1 hatoms.symm
      have hchosen : s.bottom.chosenLinks (ks ++ [k]) = s.bottom.chosenLinks (js ++ [j]) := by
        rw [BottomClause.chosenLinks, BottomClause.chosenLinks, List.filterMap_append,
          List.filterMap_append]
        refine congrArg₂ _ hlinks' ?_
        rw [List.filterMap_cons, List.filterMap_cons, hlinks k j _ hbody hj]
      rw [along_append hbody, along_append hj, refined, refined, hclause, hpos, hneg]
      exact ⟨hchosen, rfl, rfl, rfl⟩
  have hmissing : s.bottom.remainingDepth s.depths ks = s.bottom.remainingDepth s.depths js := by
    unfold BottomClause.remainingDepth BottomClause.unresolved
    rw [key.1]
  refine ⟨key.2.1, key.2.2.1, key.2.2.2, ?_⟩
  rw [(along_spec hks).2.2.2.1, (along_spec hjs).2.2.2.1, hmissing]

end HypothesisSpace
end Horn
