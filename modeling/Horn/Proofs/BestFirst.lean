import Horn.Proofs.Refinement
import Mathlib.Algebra.Group.Nat.Defs
import Mathlib.Data.List.Perm.Basic

/-!
The rounds of a best-first search.  The hypotheses taken up and those still open are kept closed under
refinement, except below a hypothesis that is left out.  So a hypothesis that the search does not reach
has one on the way to it that was left out or is still open.
-/

namespace Horn
namespace HypothesisSpace

variable {s : HypothesisSpace}

/-! ## The best of a list -/

section

variable {es : List (Nat × Hypothesis)} {b : Option (Nat × Hypothesis)}

theorem better_some (candidate : Nat × Hypothesis) :
    ∃ e, better b candidate = some e ∧ (b = some e ∨ e = candidate) ∧ candidate.2.f ≤ e.2.f ∧
      ∀ e', b = some e' → e'.2.f ≤ e.2.f := by
  cases b with
  | none => exact ⟨candidate, rfl, .inr rfl, Int.le_refl _, nofun⟩
  | some old =>
    by_cases hlt : old.2.f < candidate.2.f
    · refine ⟨candidate, if_pos hlt, .inr rfl, Int.le_refl _, fun e' h => ?_⟩
      obtain rfl := Option.some.inj h
      omega
    · refine ⟨old, if_neg hlt, .inl rfl, by omega, fun e' h => ?_⟩
      obtain rfl := Option.some.inj h
      exact Int.le_refl _

theorem foldl_better_eq_none : es.foldl better b = none ↔ b = none ∧ es = [] := by
  induction es generalizing b with
  | nil => simp
  | cons e es ih =>
    obtain ⟨e', he, -⟩ := better_some (b := b) e
    rw [List.foldl_cons, ih, he]
    simp

theorem foldl_better_eq_some {e : Nat × Hypothesis} (h : es.foldl better b = some e) :
    (b = some e ∨ e ∈ es) ∧ (∀ e' ∈ es, e'.2.f ≤ e.2.f) ∧
      ∀ e', b = some e' → e'.2.f ≤ e.2.f := by
  induction es generalizing b with
  | nil =>
    refine ⟨.inl h, nofun, fun e' he' => ?_⟩
    rw [List.foldl_nil, he'] at h
    obtain rfl := Option.some.inj h
    exact Int.le_refl _
  | cons x es ih =>
    obtain ⟨y, hy, hfrom, hx, hb⟩ := better_some (b := b) x
    rw [List.foldl_cons, hy] at h
    obtain ⟨hmem, hes, hle⟩ := ih h
    have hye : y.2.f ≤ e.2.f := hle y rfl
    refine ⟨?_, List.forall_mem_cons.2 ⟨Int.le_trans hx hye, hes⟩,
      fun e' he' => Int.le_trans (hb e' he') hye⟩
    rcases hmem with hmem | hmem
    · rw [← Option.some.inj hmem]
      rcases hfrom with hfrom | rfl
      · exact .inl hfrom
      · exact .inr List.mem_cons_self
    · exact .inr (List.mem_cons_of_mem _ hmem)

end

theorem mem_candidates {hs : List Hypothesis} {place : Nat} {h : Hypothesis} :
    (place, h) ∈ (hs.zipIdx.map Prod.swap).filter (fun e => s.withinLimit e.2) ↔
      hs[place]? = some h ∧ s.withinLimit h = true := by
  rw [List.mem_filter, List.mem_map]
  refine and_congr_left fun _ => ⟨?_, fun hp => ?_⟩
  · rintro ⟨⟨x, i⟩, hx, heq⟩
    obtain ⟨rfl, rfl⟩ := Prod.mk.inj heq
    exact List.mem_zipIdx_iff_getElem?.1 hx
  · exact ⟨(h, place), List.mem_zipIdx_iff_getElem?.2 hp, rfl⟩

theorem best?_eq_none {hs : List Hypothesis} (hbest : s.best? hs = none) {h : Hypothesis}
    (hh : h ∈ hs) : s.withinLimit h = false := by
  have hnil := (foldl_better_eq_none.1 hbest).2
  obtain ⟨place, hp⟩ := List.getElem?_of_mem hh
  cases hlimit : s.withinLimit h with
  | false => rfl
  | true =>
    have hmem := mem_candidates.2 ⟨hp, hlimit⟩
    rw [hnil] at hmem
    exact absurd hmem List.not_mem_nil

theorem best?_eq_some {hs : List Hypothesis} {place : Nat} {h : Hypothesis}
    (hbest : s.best? hs = some (place, h)) :
    hs[place]? = some h ∧ ∀ h' ∈ hs, s.withinLimit h' = true → h'.f ≤ h.f := by
  obtain ⟨hmem, hmax, -⟩ := foldl_better_eq_some hbest
  refine ⟨(mem_candidates.1 (hmem.resolve_left nofun)).1, fun h' hh' hlimit => ?_⟩
  obtain ⟨i, hi⟩ := List.getElem?_of_mem hh'
  exact hmax (i, h') (mem_candidates.2 ⟨hi, hlimit⟩)

/-- A solution taken up has a best solution that is no worse. -/
theorem bestSolution?_ge {closed : List Hypothesis} {h : Hypothesis} (hh : h ∈ closed)
    (hsol : h.isSolution = true) (hlimit : s.withinLimit h = true) :
    ∃ b, s.bestSolution? closed = some b ∧ h.f ≤ b.f := by
  have hmem : h ∈ closed.filter Hypothesis.isSolution := List.mem_filter.2 ⟨hh, hsol⟩
  cases hbest : s.best? (closed.filter Hypothesis.isSolution) with
  | none =>
    rw [best?_eq_none hbest hmem] at hlimit
    cases hlimit
  | some e =>
    refine ⟨e.2, ?_, (best?_eq_some hbest).2 h hmem hlimit⟩
    rw [bestSolution?, hbest]
    rfl

/-! ## Opening hypotheses -/

section

variable {hs : List Hypothesis} {st : State}

theorem closed_push (st : State) (h : Hypothesis) : (st.push h).closed = st.closed := by
  unfold State.push
  split <;> rfl

theorem closed_foldl_push (hs : List Hypothesis) (st : State) :
    (hs.foldl State.push st).closed = st.closed := by
  induction hs generalizing st with
  | nil => rfl
  | cons h hs ih => rw [List.foldl_cons, ih, closed_push]

theorem mem_seen_push {c : Clause} {h : Hypothesis} :
    c ∈ (st.push h).seen ↔ c ∈ st.seen ∨ c = h.clause := by
  unfold State.push
  split
  · rename_i hseen
    refine ⟨.inl, fun hc => hc.elim id fun heq => ?_⟩
    rw [heq]
    exact Std.HashSet.contains_iff_mem.1 hseen
  · show c ∈ st.seen.insert h.clause ↔ _
    rw [Std.HashSet.mem_insert, beq_iff_eq, or_comm, eq_comm]

theorem mem_seen_foldl_push {c : Clause} :
    c ∈ (hs.foldl State.push st).seen ↔ c ∈ st.seen ∨ ∃ h ∈ hs, c = h.clause := by
  induction hs generalizing st with
  | nil => simp
  | cons h hs ih =>
    rw [List.foldl_cons, ih, mem_seen_push, or_assoc]
    simp

theorem mem_opened_push {h x : Hypothesis} (hx : x ∈ (st.push h).opened) :
    x ∈ st.opened ∨ x = h ∧ h.clause ∉ st.seen := by
  unfold State.push at hx
  split at hx
  · exact .inl hx
  · rename_i hseen
    rcases List.mem_append.1 hx with hx | hx
    · exact .inl hx
    · refine .inr ⟨List.mem_singleton.1 hx, fun hc => hseen ?_⟩
      exact Std.HashSet.contains_iff_mem.2 hc

theorem opened_push {h : Hypothesis} (hnew : h.clause ∉ st.seen) :
    (st.push h).opened = st.opened ++ [h] := by
  unfold State.push
  rw [if_neg fun hseen => hnew (Std.HashSet.contains_iff_mem.1 hseen)]

theorem opened_subset_push {h x : Hypothesis} (hx : x ∈ st.opened) : x ∈ (st.push h).opened := by
  unfold State.push
  split
  · exact hx
  · exact List.mem_append_left _ hx

theorem opened_subset_foldl_push {x : Hypothesis} (hx : x ∈ st.opened) :
    x ∈ (hs.foldl State.push st).opened := by
  induction hs generalizing st with
  | nil => exact hx
  | cons h hs ih => exact ih (opened_subset_push hx)

/-- Of several hypotheses with one clause only the first is opened. -/
theorem mem_opened_foldl_push {x : Hypothesis} (hx : x ∈ (hs.foldl State.push st).opened) :
    x ∈ st.opened ∨ ∃ j : Nat, hs[j]? = some x ∧ ∀ i < j, ∀ y, hs[i]? = some y →
      y.clause ≠ x.clause := by
  induction hs using List.reverseRecOn with
  | nil => exact .inl hx
  | append_singleton hs h ih =>
    rw [List.foldl_append, List.foldl_cons, List.foldl_nil] at hx
    rcases mem_opened_push hx with hx | ⟨rfl, hnew⟩
    · rcases ih hx with hx | ⟨j, hj, hfirst⟩
      · exact .inl hx
      · have hlen : j < hs.length := (List.getElem?_eq_some_iff.1 hj).1
        refine .inr ⟨j, by rw [List.getElem?_append_left hlen, hj], fun i hi y hy => ?_⟩
        rw [List.getElem?_append_left (Nat.lt_trans hi hlen)] at hy
        exact hfirst i hi y hy
    · refine .inr ⟨hs.length, by simp, fun i hi y hy hclause => hnew ?_⟩
      rw [List.getElem?_append_left hi] at hy
      exact mem_seen_foldl_push.2 (.inr ⟨y, List.mem_of_getElem? hy, hclause.symm⟩)

/-- Every clause met belongs to a hypothesis that is open. -/
theorem exists_opened_of_mem_seen_foldl_push {c : Clause}
    (hc : c ∈ (hs.foldl State.push st).seen) :
    c ∈ st.seen ∨ ∃ h ∈ (hs.foldl State.push st).opened, h.clause = c := by
  induction hs generalizing st with
  | nil => exact .inl hc
  | cons h hs ih =>
    rcases ih hc with hc | hopen
    · by_cases hseen : c ∈ st.seen
      · exact .inl hseen
      · have hclause := (mem_seen_push.1 hc).resolve_left hseen
        have hopen : h ∈ (st.push h).opened := by
          rw [opened_push (hclause ▸ hseen)]
          exact List.mem_append_right _ (List.mem_singleton_self h)
        refine .inr ⟨h, ?_, hclause.symm⟩
        show h ∈ (hs.foldl State.push (st.push h)).opened
        exact opened_subset_foldl_push hopen
    · exact .inr hopen

end

/-! ## The search -/

/-- A hypothesis at the end of a way to it whose places come no later than on any other. -/
structure Traced (s : HypothesisSpace) (h : Hypothesis) : Prop where
  choice : s.IsChoice h.chosen
  along : h = s.along h.chosen
  leftmost : ∀ ks, s.IsChoice ks → s.atomsAt ks = h.clause.body → h.cursor ≤ nextPlace ks

/-- What holds between any two expansions. -/
structure Invariant (s : HypothesisSpace) (st : State) : Prop where
  traced : ∀ h ∈ st.opened ++ st.closed, s.Traced h
  /-- A clause met belongs to a hypothesis that is open or taken up. -/
  kept : ∀ c ∈ st.seen, ∃ h ∈ st.opened ++ st.closed, h.clause = c
  /-- Below a hypothesis that is not left out every clause has been met. -/
  expanded : ∀ h ∈ st.closed, s.isPruned h = false → ∀ h' ∈ s.refine h, h'.clause ∈ st.seen
  started : (s.scored []).clause ∈ st.seen

theorem Traced.clause_eq {h : Hypothesis} (ht : s.Traced h) :
    h.clause = ⟨s.bottom.clause.head, s.atomsAt h.chosen⟩ := by
  have := (along_spec ht.choice).1
  rwa [← ht.along] at this

theorem Traced.cursor_eq {h : Hypothesis} (ht : s.Traced h) : h.cursor = nextPlace h.chosen := by
  have := (along_spec ht.choice).2.2.1
  rwa [← ht.along] at this

theorem traced_root : s.Traced (s.scored []) :=
  ⟨isChoice_nil, rfl, fun _ _ _ => Nat.zero_le _⟩

/-- The first refinement with its clause is traced when the hypothesis is. -/
theorem Traced.refine {h x : Hypothesis} (ht : s.Traced h) {j : Nat}
    (hj : (s.refine h)[j]? = some x)
    (hfirst : ∀ i < j, ∀ y, (s.refine h)[i]? = some y → y.clause ≠ x.clause) : s.Traced x := by
  have hcut : ¬ s.maxBody ≤ h.c := by
    intro hc
    rw [getElem?_refine, if_pos hc] at hj
    cases hj
  rw [getElem?_refine, if_neg hcut] at hj
  obtain ⟨a, ha, rfl⟩ := Option.map_eq_some_iff.1 hj
  have hchoice : s.IsChoice (h.chosen ++ [h.cursor + j]) :=
    isChoice_append.2 ⟨ht.choice, ht.cursor_eq ▸ Nat.le_add_right _ _,
      (List.getElem?_eq_some_iff.1 ha).1⟩
  have halong : s.refined h (h.cursor + j) a = s.along (h.chosen ++ [h.cursor + j]) := by
    rw [along_append ha, ← ht.along]
  refine ⟨hchoice, halong, fun ks hks hatoms => ?_⟩
  have hbody : (s.refined h (h.cursor + j) a).clause.body = h.clause.body ++ [a] := rfl
  rw [hbody] at hatoms
  obtain ⟨js, k, rfl, hjs, hk⟩ := mem_atomsAt_split hks hatoms
  obtain ⟨hchoice', hnext, -⟩ := isChoice_append.1 hks
  have hcursor : h.cursor ≤ k := Nat.le_trans (ht.leftmost js hchoice' hjs) hnext
  rw [nextPlace_append]
  show h.cursor + j + 1 ≤ k + 1
  by_contra hlt
  -- an earlier place of the same atom would give the same clause before
  refine hfirst (k - h.cursor) (by omega) (s.refined h k a) ?_ rfl
  rw [getElem?_refine, if_neg hcut, show h.cursor + (k - h.cursor) = k by omega, hk]
  rfl

/-- A place that can follow any way to the hypothesis gives one of its refinements. -/
theorem Traced.refined_mem_refine {h : Hypothesis} (ht : s.Traced h) (hc : h.c < s.maxBody)
    {js : List Nat} {k : Nat} {a : Atom} (hjs : s.IsChoice (js ++ [k]))
    (hatoms : s.atomsAt js = h.clause.body) (ha : s.bottom.body[k]? = some a) :
    s.refined h k a ∈ s.refine h := by
  obtain ⟨hchoice, hnext, -⟩ := isChoice_append.1 hjs
  have hcursor : h.cursor ≤ k := Nat.le_trans (ht.leftmost js hchoice hatoms) hnext
  refine List.mem_of_getElem? (i := k - h.cursor) ?_
  rw [getElem?_refine, if_neg (Nat.not_le.2 hc), show h.cursor + (k - h.cursor) = k by omega, ha]
  rfl

theorem invariant_start (log : EventLog) :
    s.Invariant (State.push ⟨∅, [], [], log⟩ (s.scored [])) := by
  have hstate : State.push ⟨∅, [], [], log⟩ (s.scored []) =
      ⟨(∅ : Std.HashSet Clause).insert (s.scored []).clause, [s.scored []], [],
        log.recordWith "Candidate" fun _ => (s.scored []).text⟩ := by
    unfold State.push
    rw [if_neg (by simp)]
    rfl
  rw [hstate]
  refine ⟨List.forall_mem_singleton.2 traced_root, fun c hc => ?_, nofun, by simp⟩
  have : (s.scored []).clause = c := by simpa using hc
  exact ⟨s.scored [], List.mem_singleton_self _, this⟩

theorem mem_eraseIdx_or {hs : List Hypothesis} {place : Nat} {h x : Hypothesis}
    (hp : hs[place]? = some h) (hx : x ∈ hs) : x ∈ hs.eraseIdx place ∨ x = h := by
  obtain ⟨i, hi⟩ := List.getElem?_of_mem hx
  by_cases heq : i = place
  · rw [heq, hp] at hi
    exact .inr (Option.some.inj hi).symm
  · exact .inl (List.mem_eraseIdx_iff_getElem?.2 ⟨i, heq, hi⟩)

/-- The hypotheses that an expansion tries to open. -/
def offspring (s : HypothesisSpace) (h : Hypothesis) : List Hypothesis :=
  if s.isPruned h then [] else s.refine h

theorem exists_body_of_mem_offspring {h x : Hypothesis} (hx : x ∈ s.offspring h) :
    ∃ a, x.clause.body = h.clause.body ++ [a] := by
  unfold offspring at hx
  split at hx
  · cases hx
  · unfold refine at hx
    split at hx
    · cases hx
    · obtain ⟨⟨a, k⟩, -, rfl⟩ := List.mem_map.1 hx
      exact ⟨a, rfl⟩

/-- A state without one of its open hypotheses. -/
def takeUp (st : State) (place : Nat) : State := { st with opened := st.opened.eraseIdx place }

theorem expand_eq (s : HypothesisSpace) (st : State) (place : Nat) (h : Hypothesis) :
    s.expand st place h =
      { (s.offspring h).foldl State.push (takeUp st place) with closed := st.closed ++ [h] } := by
  have hclosed := closed_foldl_push (s.refine h) (takeUp st place)
  unfold expand offspring
  split
  · rfl
  · show { (s.refine h).foldl State.push (takeUp st place) with
      closed := ((s.refine h).foldl State.push (takeUp st place)).closed ++ [h] } = _
    rw [hclosed]
    rfl

theorem Invariant.expand {st : State} (hst : s.Invariant st) {place : Nat} {h : Hypothesis}
    (hp : st.opened[place]? = some h) : s.Invariant (s.expand st place h) := by
  have hopen : h ∈ st.opened := List.mem_of_getElem? hp
  have hsub : ∀ x ∈ (takeUp st place).opened, x ∈ st.opened := fun x hx =>
    List.mem_of_mem_eraseIdx hx
  have hseen : ∀ c ∈ st.seen, c ∈ ((s.offspring h).foldl State.push (takeUp st place)).seen :=
    fun c hc => mem_seen_foldl_push.2 (.inl hc)
  rw [expand_eq]
  refine ⟨fun x hx => ?_, fun c hc => ?_, fun x hx hpruned x' hx' => ?_, hseen _ hst.started⟩
  · rcases List.mem_append.1 hx with hx | hx
    · rcases mem_opened_foldl_push hx with hx | ⟨j, hj, hfirst⟩
      · exact hst.traced x (List.mem_append_left _ (hsub x hx))
      · have ht := hst.traced h (List.mem_append_left _ hopen)
        unfold offspring at hj hfirst
        split at hj
        · cases hj
        · rename_i hpruned
          rw [if_neg hpruned] at hfirst
          exact ht.refine hj hfirst
    · rcases List.mem_append.1 hx with hx | hx
      · exact hst.traced x (List.mem_append_right _ hx)
      · rw [List.mem_singleton.1 hx]
        exact hst.traced h (List.mem_append_left _ hopen)
  · rcases exists_opened_of_mem_seen_foldl_push hc with hc | ⟨x, hx, hclause⟩
    · obtain ⟨x, hx, hclause⟩ := hst.kept c hc
      refine ⟨x, ?_, hclause⟩
      rcases List.mem_append.1 hx with hx | hx
      · rcases mem_eraseIdx_or hp hx with hx | rfl
        · exact List.mem_append_left _ (opened_subset_foldl_push hx)
        · exact List.mem_append_right _ (List.mem_append_right _ (List.mem_singleton_self x))
      · exact List.mem_append_right _ (List.mem_append_left _ hx)
    · exact ⟨x, List.mem_append_left _ hx, hclause⟩
  · rcases List.mem_append.1 hx with hx | hx
    · exact hseen _ (hst.expanded x hx hpruned x' hx')
    · rw [List.mem_singleton.1 hx] at hpruned hx'
      have hoff : s.offspring h = s.refine h := if_neg (by simp [hpruned])
      exact mem_seen_foldl_push.2 (.inr ⟨x', hoff ▸ hx', rfl⟩)

/-- What every expansion of an open hypothesis keeps holds when a search ends. -/
theorem explore_inv {P : State → Prop}
    (hstep : ∀ {st : State} {place : Nat} {h : Hypothesis}, P st → st.opened[place]? = some h →
      P (s.expand st place h)) (n : Nat) {st : State} (hst : P st) : P (s.explore n st) := by
  induction n generalizing st with
  | zero => exact hst
  | succ n ih =>
    rw [explore]
    split
    · exact hst
    · rename_i place h hbest
      have hnext := hstep hst (best?_eq_some hbest).1
      dsimp only
      split
      · exact hnext
      · exact ih hnext

theorem invariant_explore (n : Nat) {st : State} (hst : s.Invariant st) :
    s.Invariant (s.explore n st) :=
  explore_inv (fun hst hp => hst.expand hp) n hst

/-! ## What is held -/

/-- The open hypotheses and the others have clauses that were met, and no two of them the same. -/
structure Apart (st : State) (others : List Hypothesis) : Prop where
  met : ∀ h ∈ st.opened ++ others, h.clause ∈ st.seen
  distinct : ((st.opened ++ others).map Hypothesis.clause).Nodup

/-- What a hypothesis was refined from has been taken up. -/
def Lineage (st : State) : Prop :=
  ∀ h ∈ st.opened ++ st.closed, ∀ i < h.clause.body.length,
    ∃ x ∈ st.closed, x.clause.body = h.clause.body.take i

section

variable {st : State} {others : List Hypothesis} {h : Hypothesis} {place : Nat}

theorem Apart.push (hst : Apart st others) (h : Hypothesis) : Apart (st.push h) others := by
  by_cases hseen : h.clause ∈ st.seen
  · have hsame : st.push h = st := if_pos (Std.HashSet.contains_iff_mem.2 hseen)
    rwa [hsame]
  · have hperm : (st.opened ++ [h] ++ others).Perm (h :: (st.opened ++ others)) := by
      rw [List.append_assoc]
      exact List.perm_middle
    refine ⟨fun x hx => mem_seen_push.2 ?_, ?_⟩
    · rw [opened_push hseen, hperm.mem_iff] at hx
      exact (List.mem_cons.1 hx).symm.imp (hst.met x) (congrArg _)
    · rw [opened_push hseen, (hperm.map _).nodup_iff, List.map_cons, List.nodup_cons]
      refine ⟨fun hmem => hseen ?_, hst.distinct⟩
      obtain ⟨x, hx, hclause⟩ := List.mem_map.1 hmem
      exact hclause ▸ hst.met x hx

theorem Apart.foldl_push {hs : List Hypothesis} (hst : Apart st others) :
    Apart (hs.foldl State.push st) others :=
  List.foldlRecOn (motive := fun st => Apart st others) hs _ hst fun _ h x _ => h.push x

theorem perm_takeUp (hp : st.opened[place]? = some h) :
    (st.opened ++ st.closed).Perm ((takeUp st place).opened ++ (st.closed ++ [h])) := by
  obtain ⟨hplace, rfl⟩ := List.getElem?_eq_some_iff.1 hp
  have hopened : st.opened.Perm (st.opened[place] :: st.opened.eraseIdx place) :=
    (List.getElem_cons_eraseIdx_perm hplace).symm
  refine (hopened.append_right _).trans ?_
  rw [← List.append_assoc]
  exact (List.perm_append_singleton _ _).symm

theorem Apart.expand (hst : Apart st st.closed) (hp : st.opened[place]? = some h) :
    Apart (s.expand st place h) (s.expand st place h).closed := by
  have hperm := perm_takeUp hp
  have htaken : Apart (takeUp st place) (st.closed ++ [h]) :=
    ⟨fun x hx => hst.met x (hperm.mem_iff.2 hx), (hperm.map _).nodup_iff.1 hst.distinct⟩
  rw [expand_eq]
  have hpushed : Apart ((s.offspring h).foldl State.push (takeUp st place)) (st.closed ++ [h]) :=
    htaken.foldl_push
  exact ⟨hpushed.met, hpushed.distinct⟩

theorem Lineage.expand (hst : Lineage st) (hp : st.opened[place]? = some h) :
    Lineage (s.expand st place h) := by
  have hkept : ∀ x ∈ st.opened ++ st.closed, ∀ i < x.clause.body.length,
      ∃ y ∈ st.closed ++ [h], y.clause.body = x.clause.body.take i := by
    intro x hx i hi
    obtain ⟨y, hy, hbody⟩ := hst x hx i hi
    exact ⟨y, List.mem_append_left _ hy, hbody⟩
  rw [expand_eq]
  intro x hx i hi
  rcases List.mem_append.1 hx with hx | hx
  · rcases mem_opened_foldl_push hx with hx | ⟨j, hj, -⟩
    · exact hkept x (List.mem_append_left _ (List.mem_of_mem_eraseIdx hx)) i hi
    · obtain ⟨a, hbody⟩ : ∃ a, x.clause.body = h.clause.body ++ [a] :=
        exists_body_of_mem_offspring (List.mem_of_getElem? hj)
      rw [hbody, List.length_append, List.length_singleton] at hi
      rw [hbody, List.take_append_of_le_length (Nat.le_of_lt_succ hi)]
      rcases Nat.lt_or_eq_of_le (Nat.le_of_lt_succ hi) with hlt | rfl
      · exact hkept h (List.mem_append_left _ (List.mem_of_getElem? hp)) i hlt
      · exact ⟨h, List.mem_append_right _ (List.mem_singleton_self h), List.take_length.symm⟩
  · exact hkept x ((perm_takeUp hp).mem_iff.2 (List.mem_append_right _ hx)) i hi

end

/-- The held hypotheses are apart, and what they were refined from has been taken up. -/
structure IsHeld (st : State) : Prop where
  apart : Apart st st.closed
  lineage : Lineage st

theorem isHeld_start (s : HypothesisSpace) (log : EventLog) :
    IsHeld (State.push ⟨∅, [], [], log⟩ (s.scored [])) := by
  have hempty : Apart ⟨∅, [], [], log⟩ [] := ⟨List.forall_mem_nil _, List.nodup_nil⟩
  refine ⟨?_, fun h hh i hi => ?_⟩
  · rw [closed_push]
    exact hempty.push _
  · rw [closed_push, opened_push (by simp)] at hh
    obtain rfl := List.mem_singleton.1 hh
    exact absurd hi (Nat.not_lt_zero i)

theorem isHeld_explore (n : Nat) {st : State} (hst : IsHeld st) : IsHeld (s.explore n st) :=
  explore_inv (fun hst hp => ⟨hst.apart.expand hp, hst.lineage.expand hp⟩) n hst

/-- A search that takes up fewer hypotheses than it may is finished. -/
theorem isFinished_explore (n : Nat) {st : State}
    (h : (s.explore n st).closed.length < st.closed.length + n) :
    s.isFinished (s.explore n st).closed (s.explore n st).opened = true := by
  induction n generalizing st with
  | zero => exact absurd h (Nat.lt_irrefl _)
  | succ n ih =>
    rw [explore] at h ⊢
    cases hbest : s.best? st.opened with
    | none =>
      simp only [isFinished, hbest]
    | some e =>
      obtain ⟨place, x⟩ := e
      have hlen : (s.expand st place x).closed.length = st.closed.length + 1 := by
        rw [expand_eq]
        simp
      rw [hbest] at h
      dsimp only at h ⊢
      split at h
      · rename_i hfinished
        rw [if_pos hfinished]
        exact hfinished
      · rename_i hfinished
        rw [if_neg hfinished]
        exact ih (by omega)

/-- The state in which a search ends. -/
def ended (s : HypothesisSpace) (log : EventLog) : State :=
  match s.root? with
  | none => ⟨∅, [], [], log⟩
  | some root => s.explore maxExpansions (State.push ⟨∅, [], [], log⟩ root)

theorem run_eq (s : HypothesisSpace) (log : EventLog) :
    s.run log = (s.bestSolution? (s.ended log).closed, (s.ended log).log) := by
  unfold run ended
  cases s.root? <;> rfl

/-! The event log has no bearing on what a search finds. -/

theorem push_log (st : State) (h : Hypothesis) (log : EventLog) :
    ∃ log', State.push { st with log := log } h = { st.push h with log := log' } := by
  unfold State.push
  dsimp only
  split
  · exact ⟨log, rfl⟩
  · exact ⟨_, rfl⟩

theorem foldl_push_log (hs : List Hypothesis) (st : State) (log : EventLog) :
    ∃ log', hs.foldl State.push { st with log := log } =
      { hs.foldl State.push st with log := log' } := by
  induction hs generalizing st log with
  | nil => exact ⟨log, rfl⟩
  | cons h hs ih =>
    obtain ⟨log', hpush⟩ := push_log st h log
    rw [List.foldl_cons, List.foldl_cons, hpush]
    exact ih _ _

theorem expand_log (st : State) (place : Nat) (h : Hypothesis) (log : EventLog) :
    ∃ log', s.expand { st with log := log } place h = { s.expand st place h with log := log' } := by
  obtain ⟨log', hfold⟩ := foldl_push_log (s.offspring h) (takeUp st place) log
  refine ⟨log', ?_⟩
  rw [expand_eq, expand_eq]
  show { (s.offspring h).foldl State.push { takeUp st place with log := log } with
    closed := st.closed ++ [h] } = _
  rw [hfold]

theorem explore_log (n : Nat) (st : State) (log : EventLog) :
    ∃ log', s.explore n { st with log := log } = { s.explore n st with log := log' } := by
  induction n generalizing st log with
  | zero => exact ⟨log, rfl⟩
  | succ n ih =>
    rw [explore, explore]
    dsimp only
    cases s.best? st.opened with
    | none => exact ⟨log, rfl⟩
    | some e =>
      obtain ⟨log', hexpand⟩ := expand_log st e.1 e.2 log
      dsimp only
      rw [hexpand]
      dsimp only
      split
      · exact ⟨log', rfl⟩
      · exact ih _ _

theorem run_log (s : HypothesisSpace) (log log' : EventLog) : (s.run log).1 = (s.run log').1 := by
  rw [run_eq, run_eq]
  dsimp only
  unfold ended
  cases s.root? with
  | none => rfl
  | some root =>
    dsimp only
    obtain ⟨log₁, hpush⟩ := push_log ⟨∅, [], [], log'⟩ root log
    obtain ⟨log₂, hexplore⟩ := explore_log (s := s) maxExpansions (.push ⟨∅, [], [], log'⟩ root) log₁
    have hstate : s.explore maxExpansions (.push ⟨∅, [], [], log⟩ root) =
        { s.explore maxExpansions (.push ⟨∅, [], [], log'⟩ root) with log := log₂ } :=
      (congrArg (s.explore maxExpansions) hpush).trans hexplore
    rw [hstate]

/-! ## The result -/

theorem withinLimit_of_le (hlimit : s.maxBody < 2 ^ 63) {h : Hypothesis} (hc : h.c ≤ s.maxBody) :
    s.withinLimit h = true := by
  unfold withinLimit lengthLimit
  rw [Int64.toInt_ofNat_of_lt hlimit, decide_eq_true_iff]
  omega

theorem f_eq_of_isSolution {h : Hypothesis} (hsol : h.isSolution = true) :
    h.n = 0 ∧ h.missing = 0 ∧ h.f = h.p - h.c := by
  unfold Hypothesis.isSolution at hsol
  simp only [Bool.and_eq_true, beq_iff_eq] at hsol
  refine ⟨hsol.1.1, hsol.1.2, ?_⟩
  rw [Hypothesis.f, Hypothesis.g, hsol.1.1, hsol.1.2]
  omega

/-- A search with two refinements of the bare head, of which the second is the better one and a
solution that the first cannot lead beyond, finds it. -/
theorem run_eq_of_refine {x y : Hypothesis} (log : EventLog)
    (hroot : s.root? = some (s.scored [])) (hopen : s.isPruned (s.scored []) = false)
    (hunsolved : (s.scored []).isSolution = false) (hrefine : s.refine (s.scored []) = [x, y])
    (hnew : ∀ h ∈ [x, y], h.clause ≠ (s.scored []).clause) (hne : y.clause ≠ x.clause)
    (hlimit : ∀ h ∈ [s.scored [], x, y], s.withinLimit h = true) (hbetter : x.f < y.f)
    (hbound : x.g ≤ y.f) (hsol : y.isSolution = true) (hpos : 0 < y.f) :
    (s.run log).1 = some y := by
  obtain ⟨hrootlimit, hxlimit, hylimit, -⟩ := by simpa only [List.forall_mem_cons] using hlimit
  have hpruned : s.isPruned y = true := by
    simp [isPruned, (f_eq_of_isSolution hsol).1, hpos]
  have hbestroot : s.best? [s.scored []] = some (0, s.scored []) := by
    simp [best?, better, hrootlimit]
  have hbestboth : s.best? [x, y] = some (1, y) := by
    simp [best?, better, hxlimit, hylimit, hbetter]
  have hbestleft : s.best? [x] = some (0, x) := by
    simp [best?, better, hxlimit]
  have hsolved : s.bestSolution? [s.scored [], y] = some y := by
    simp [bestSolution?, best?, better, hunsolved, hsol, hylimit]
  have hnone : s.bestSolution? [s.scored []] = none := by
    simp [bestSolution?, best?, hunsolved]
  let start := State.push ⟨∅, [], [], log⟩ (s.scored [])
  have hstart : start.opened = [s.scored []] ∧ start.closed = [] ∧
      ∀ c, c ∈ start.seen ↔ c = (s.scored []).clause := by
    refine ⟨opened_push (by simp), closed_push _ _, fun c => mem_seen_push.trans ?_⟩
    simp
  let middle := s.expand start 0 (s.scored [])
  have hmiddle : middle.opened = [x, y] ∧ middle.closed = [s.scored []] := by
    have hxnew : x.clause ∉ (takeUp start 0).seen := fun h =>
      hnew x List.mem_cons_self ((hstart.2.2 _).1 h)
    have hynew : y.clause ∉ ((takeUp start 0).push x).seen := fun h =>
      (mem_seen_push.1 h).elim
        (fun h => hnew y (List.mem_cons_of_mem _ List.mem_cons_self) ((hstart.2.2 _).1 h)) hne
    have hexpand : middle = { ((takeUp start 0).push x).push y with
        closed := start.closed ++ [s.scored []] } := by
      show s.expand start 0 (s.scored []) = _
      rw [expand_eq, offspring, if_neg (by simp [hopen]), hrefine, List.foldl_cons, List.foldl_cons,
        List.foldl_nil]
    rw [hexpand]
    refine ⟨?_, congrArg (· ++ [s.scored []]) hstart.2.1⟩
    show (((takeUp start 0).push x).push y).opened = _
    rw [opened_push hynew, opened_push hxnew]
    show start.opened.eraseIdx 0 ++ [x] ++ [y] = _
    rw [hstart.1]
    rfl
  let last := s.expand middle 1 y
  have hlast : last.opened = [x] ∧ last.closed = [s.scored [], y] := by
    have hexpand : last = { takeUp middle 1 with closed := middle.closed ++ [y] } := by
      show s.expand middle 1 y = _
      rw [expand_eq, offspring, if_pos hpruned]
      rfl
    rw [hexpand]
    refine ⟨?_, congrArg (· ++ [y]) hmiddle.2⟩
    show middle.opened.eraseIdx 1 = _
    rw [hmiddle.1]
    rfl
  have hended : s.ended log = last := by
    have hfirst : s.isFinished middle.closed middle.opened = false := by
      rw [isFinished, hmiddle.1, hmiddle.2, hbestboth, hnone]
      rfl
    have hsecond : s.isFinished last.closed last.opened = true := by
      rw [isFinished, hlast.1, hlast.2, hbestleft, hsolved]
      simp [hpos, hbound]
    rw [ended, hroot]
    show explore s (98 + 1 + 1) start = last
    rw [explore, hstart.1, hbestroot]
    show (if s.isFinished middle.closed middle.opened then middle else explore s (98 + 1) middle) = _
    rw [if_neg (by simp [hfirst]), explore, hmiddle.1, hbestboth]
    exact if_pos hsecond
  rw [run_eq, hended, hlast.2]
  exact hsolved

/-- What a search finds is a solution at the end of a way to it. -/
theorem run_eq_some {log : EventLog} {h : Hypothesis} (hrun : (s.run log).1 = some h) :
    s.Traced h ∧ h.isSolution = true := by
  rw [run_eq] at hrun
  obtain ⟨⟨place, x⟩, hbest, rfl⟩ := Option.map_eq_some_iff.1 hrun
  have hmem := List.mem_of_getElem? (best?_eq_some hbest).1
  obtain ⟨hclosed, hsol⟩ := List.mem_filter.1 hmem
  refine ⟨?_, hsol⟩
  unfold ended at hclosed
  rw [root?_eq] at hclosed
  cases hhead : s.bottom.clause.head with
  | none =>
    rw [hhead] at hclosed
    cases hclosed
  | some a =>
    rw [hhead] at hclosed
    have hinv := invariant_explore maxExpansions (s := s) (invariant_start log)
    exact hinv.traced x (List.mem_append_right _ hclosed)

end HypothesisSpace
end Horn
