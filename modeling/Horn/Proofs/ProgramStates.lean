import Horn.Program.Generation
import Horn.Proofs.Settings
import Horn.Proofs.StoreRefinement

/-!
What programs can become.  Starting from the empty program, texts are loaded, examples are generated
and clauses are learned; every program that this leads to has options in their ranges, each mode
once, one determination for a head and only of predicates with modes, a store that adding clauses
makes, and examples with predicates for heads.
-/

namespace Horn

/-! ## Modes and determinations -/

namespace ModeTable

/-- Each mode is there once, a head has one determination, and every predicate of a determination has
a mode. -/
structure IsOrdered (t : ModeTable) : Prop where
  modes : t.modes.Nodup
  heads : (t.determinations.map Determination.head).Nodup
  declared : ∀ d ∈ t.determinations, t.requireMode .head d.head = .ok () ∧
    ∀ s ∈ d.body, t.requireMode .body s = .ok ()

theorem isOrdered_empty : empty.IsOrdered := ⟨.nil, .nil, nofun⟩

theorem requireMode_iff {t : ModeTable} {kind : ModeKind} {s : Signature} :
    t.requireMode kind s = .ok () ↔ ∃ m ∈ t.modes, m.kind = kind ∧ m.signature = s := by
  unfold requireMode ofKind
  split
  next h => simpa [and_assoc] using h
  next h => simpa [and_assoc] using h

@[simp] theorem determinations_addMode (t : ModeTable) (m : Mode) :
    (t.addMode m).2.determinations = t.determinations := by
  rw [addMode]
  split <;> rfl

theorem mem_modes_addMode {t : ModeTable} {m n : Mode} :
    n ∈ (t.addMode m).2.modes ↔ n ∈ t.modes ∨ n = m := by
  rw [addMode]
  split
  next h =>
    rw [List.contains_iff_mem] at h
    exact ⟨.inl, fun hn => hn.elim id (· ▸ h)⟩
  next => simp

theorem nodup_modes_addMode {t : ModeTable} (h : t.modes.Nodup) (m : Mode) :
    (t.addMode m).2.modes.Nodup := by
  rw [addMode]
  split
  next => exact h
  next hnew =>
    rw [List.contains_iff_mem] at hnew
    exact List.nodup_append.2 ⟨h, List.nodup_singleton m,
      fun a ha b hb hab => hnew (List.mem_singleton.1 hb ▸ hab ▸ ha)⟩

theorem IsOrdered.addMode {t : ModeTable} (h : t.IsOrdered) (m : Mode) :
    (t.addMode m).2.IsOrdered := by
  have hmore {kind : ModeKind} {s : Signature} (hs : t.requireMode kind s = .ok ()) :
      (t.addMode m).2.requireMode kind s = .ok () := by
    rw [requireMode_iff] at hs ⊢
    obtain ⟨n, hn, hns⟩ := hs
    exact ⟨n, mem_modes_addMode.2 (.inl hn), hns⟩
  refine ⟨nodup_modes_addMode h.modes m, ?_, fun d hd => ?_⟩
  · rw [determinations_addMode]
    exact h.heads
  · rw [determinations_addMode] at hd
    obtain ⟨hhead, hbody⟩ := h.declared d hd
    exact ⟨hmore hhead, fun s hs => hmore (hbody s hs)⟩

theorem mapFirst?_eq_some {α : Type} {fits : α → Bool} {f : α → α} {xs ys : List α}
    (h : mapFirst? fits f xs = some ys) :
    ∃ front a back, xs = front ++ a :: back ∧ ys = front ++ f a :: back ∧ fits a = true := by
  induction xs generalizing ys with
  | nil => cases h
  | cons x xs ih =>
    rw [mapFirst?] at h
    split at h
    next hx => exact ⟨[], x, xs, rfl, (Option.some.inj h).symm, hx⟩
    next =>
      obtain ⟨zs, hzs, rfl⟩ := Option.map_eq_some_iff.1 h
      obtain ⟨front, a, back, rfl, rfl, ha⟩ := ih hzs
      exact ⟨x :: front, a, back, rfl, rfl, ha⟩

theorem mapFirst?_eq_none {α : Type} {fits : α → Bool} {f : α → α} {xs : List α} :
    mapFirst? fits f xs = none ↔ ∀ a ∈ xs, fits a = false := by
  induction xs with
  | nil => simp [mapFirst?]
  | cons x xs ih =>
    rw [mapFirst?, List.forall_mem_cons]
    cases hx : fits x <;> simp [ih]

theorem mem_merged {d new : Determination} {s : Signature} (h : s ∈ (merged d new).body) :
    s ∈ d.body ∨ s ∈ new.body := by
  have hall : ∀ (xs ys : List Signature), s ∈ ys.foldl withMember xs → s ∈ xs ∨ s ∈ ys := by
    intro xs ys hs
    induction ys generalizing xs with
    | nil => exact .inl hs
    | cons y ys ih =>
      rcases ih _ hs with hs | hs
      · rw [withMember] at hs
        split at hs
        next => exact .inl hs
        next =>
          rcases List.mem_append.1 hs with hs | hs
          · exact .inl hs
          · rw [List.mem_singleton.1 hs]
            exact .inr List.mem_cons_self
      · exact .inr (List.mem_cons_of_mem _ hs)
  exact hall _ _ h

theorem forM_eq_ok {ε α : Type} {f : α → Except ε Unit} {xs : List α} :
    xs.forM f = .ok () ↔ ∀ x ∈ xs, f x = .ok () := by
  induction xs with
  | nil => simp [List.forM, pure, Except.pure]
  | cons x xs ih =>
    rw [List.forM, List.forall_mem_cons, ← ih]
    cases h : f x with
    | error why => simp [bind, Except.bind]
    | ok u => simp [bind, Except.bind]

/-- A determination is accepted when its predicates have modes. -/
theorem addDetermination_eq_ok {t t' : ModeTable} {d : Determination} :
    t.addDetermination d = .ok t' ↔
      (t.requireMode .head d.head = .ok () ∧ ∀ s ∈ d.body, t.requireMode .body s = .ok ()) ∧
        t' = { t with determinations := (mapFirst? (fun e => e.head == d.head)
          (fun e => merged e d) t.determinations).getD (t.determinations ++ [d]) } := by
  rw [← forM_eq_ok]
  unfold addDetermination
  cases hhead : t.requireMode .head d.head with
  | error why => simp [bind, Except.bind]
  | ok u =>
    cases hbody : d.body.forM (t.requireMode .body) with
    | error why => simp [bind, Except.bind]
    | ok u => simp [bind, Except.bind, pure, Except.pure, eq_comm]

/-- A determination that is accepted stands at the end, or its body predicates are merged into the
determination of its head. -/
theorem determinations_addDetermination {t t' : ModeTable} {d : Determination}
    (h : t.addDetermination d = .ok t') :
    (t'.determinations = t.determinations ++ [d] ∧ ∀ e ∈ t.determinations, e.head ≠ d.head) ∨
      ∃ front old back, t.determinations = front ++ old :: back ∧ old.head = d.head ∧
        t'.determinations = front ++ merged old d :: back := by
  obtain ⟨-, rfl⟩ := addDetermination_eq_ok.1 h
  cases hfound : mapFirst? (fun e => e.head == d.head) (fun e => merged e d) t.determinations with
  | none => exact .inl ⟨rfl, by simpa using mapFirst?_eq_none.1 hfound⟩
  | some ds =>
    obtain ⟨front, old, back, hold, rfl, hfits⟩ := mapFirst?_eq_some hfound
    exact .inr ⟨front, old, back, hold, by simpa using hfits, rfl⟩

theorem nodup_heads_addDetermination {t t' : ModeTable} {d : Determination}
    (h : (t.determinations.map Determination.head).Nodup) (ht : t.addDetermination d = .ok t') :
    (t'.determinations.map Determination.head).Nodup := by
  rcases determinations_addDetermination ht with ⟨hnew, hother⟩ | ⟨front, old, back, hold, -, hnew⟩
  · rw [hnew, List.map_append, List.nodup_append]
    refine ⟨h, List.nodup_singleton _, fun a ha b hb hab => ?_⟩
    obtain ⟨e, he, rfl⟩ := List.mem_map.1 ha
    rw [List.map_singleton, List.mem_singleton] at hb
    exact hother e he (hab.trans hb)
  · rw [hold] at h
    rw [hnew]
    simpa [merged] using h

theorem IsOrdered.addDetermination {t t' : ModeTable} (h : t.IsOrdered) {d : Determination}
    (ht : t.addDetermination d = .ok t') : t'.IsOrdered := by
  obtain ⟨hnew, hmodes⟩ := addDetermination_eq_ok.1 ht
  have hmodes : t'.modes = t.modes := hmodes ▸ rfl
  have hkeeps {kind : ModeKind} {s : Signature} (hs : t.requireMode kind s = .ok ()) :
      t'.requireMode kind s = .ok () := by
    rw [requireMode_iff] at hs ⊢
    rwa [hmodes]
  have hold (e) (he : e ∈ t.determinations) : t'.requireMode .head e.head = .ok () ∧
      ∀ s ∈ e.body, t'.requireMode .body s = .ok () :=
    ⟨hkeeps (h.declared e he).1, fun s hs => hkeeps ((h.declared e he).2 s hs)⟩
  refine ⟨hmodes ▸ h.modes, nodup_heads_addDetermination h.heads ht, fun e he => ?_⟩
  rcases determinations_addDetermination ht with ⟨hdets, -⟩ | ⟨front, old, back, hsplit, -, hdets⟩ <;>
    rw [hdets] at he
  · rcases List.mem_append.1 he with he | he
    · exact hold e he
    · rw [List.mem_singleton.1 he]
      exact ⟨hkeeps hnew.1, fun s hs => hkeeps (hnew.2 s hs)⟩
  · simp only [List.mem_append, List.mem_cons] at he
    rcases he with he | rfl | he
    · exact hold e (by simp [hsplit, he])
    · obtain ⟨hhead, hbody⟩ := hold old (by simp [hsplit])
      refine ⟨hhead, fun s hs => ?_⟩
      rcases mem_merged hs with hs | hs
      · exact hbody s hs
      · exact hkeeps (hnew.2 s hs)
    · exact hold e (by simp [hsplit, he])

end ModeTable

/-! ## Stores and examples -/

namespace Store

theorem Reachable.addAll {s t : Store} (h : s.Reachable) {cs : List Clause}
    (ht : s.addAll cs = .ok t) : t.Reachable := by
  induction cs generalizing s with
  | nil =>
    cases ht
    exact h
  | cons c cs ih =>
    rw [Store.addAll, List.foldlM_cons] at ht
    obtain ⟨u, hu, ht⟩ := exists_of_bind_eq_ok ht
    obtain ⟨⟨isNew, u⟩, hadd, rfl⟩ := exists_of_map_eq_ok hu
    exact ih (h.add hadd) ht

end Store

namespace Examples

/-- Every example has a predicate for its head. -/
def AreHeaded (e : Examples) : Prop :=
  ∀ c ∈ e.positive ++ e.negative, c.headPredicate.isSome = true

theorem areHeaded_empty : empty.AreHeaded := nofun

theorem areHeaded_iff {e : Examples} : e.AreHeaded ↔
    (∀ c ∈ e.positive, c.headPredicate.isSome = true) ∧
      ∀ c ∈ e.negative, c.headPredicate.isSome = true := List.forall_mem_append

theorem areHeaded_append {e f : Examples} (he : e.AreHeaded) (hf : f.AreHeaded) :
    (e.append f).AreHeaded := by
  rw [areHeaded_iff] at he hf ⊢
  exact ⟨List.forall_mem_append.2 ⟨he.1, hf.1⟩, List.forall_mem_append.2 ⟨he.2, hf.2⟩⟩

theorem check_eq_ok {c : Clause} : check c = .ok () ↔ c.headPredicate.isSome = true := by
  unfold check
  split <;> simp_all

theorem addPositive_eq_ok {e f : Examples} {c : Clause} :
    e.addPositive c = .ok f ↔ c.headPredicate.isSome = true ∧
      f = { e with positive := e.positive ++ [c] } := by
  rw [← check_eq_ok]
  unfold addPositive
  cases h : check c <;> simp [bind, Except.bind, pure, Except.pure, eq_comm]

theorem addNegative_eq_ok {e f : Examples} {c : Clause} :
    e.addNegative c = .ok f ↔ c.headPredicate.isSome = true ∧
      f = { e with negative := e.negative ++ [c] } := by
  rw [← check_eq_ok]
  unfold addNegative
  cases h : check c <;> simp [bind, Except.bind, pure, Except.pure, eq_comm]

theorem areHeaded_labelled {α : Type} {fact : α → Clause} (holds : α → Bool) (instances : List α)
    (hfact : ∀ i, (fact i).headPredicate.isSome = true) :
    (labelled fact holds instances).AreHeaded := by
  intro c hc
  simp only [labelled, List.mem_append, List.mem_map] at hc
  rcases hc with ⟨i, -, rfl⟩ | ⟨i, -, rfl⟩
  · exact hfact i
  · exact hfact i

end Examples

/-! ## Programs -/

namespace Program

/-- What declarations, generated examples and inductions keep. -/
structure IsWellFormed (p : Program) : Prop where
  options : p.options.InRange
  modes : p.modes.IsOrdered
  knowledge : p.knowledge.Reachable
  examples : p.examples.AreHeaded

theorem isWellFormed_empty : empty.IsWellFormed :=
  ⟨Options.inRange_default, ModeTable.isOrdered_empty, .empty, Examples.areHeaded_empty⟩

section

variable {p q : Program}

theorem IsWellFormed.addTo (h : p.IsWellFormed) {s : Section} {c : Clause}
    (hq : p.addTo s c = .ok q) : q.IsWellFormed := by
  cases s with
  | background =>
    obtain ⟨⟨isNew, q⟩, hadd, rfl⟩ := exists_of_map_eq_ok hq
    obtain ⟨⟨isNew, k⟩, hk, hq⟩ := exists_of_bind_eq_ok hadd
    cases hq
    exact ⟨h.options, h.modes, h.knowledge.add hk, h.examples⟩
  | positive =>
    obtain ⟨e, he, hq⟩ := exists_of_bind_eq_ok hq
    cases hq
    obtain ⟨hhead, rfl⟩ := Examples.addPositive_eq_ok.1 he
    obtain ⟨hpositive, hnegative⟩ := Examples.areHeaded_iff.1 h.examples
    refine ⟨h.options, h.modes, h.knowledge, Examples.areHeaded_iff.2 ⟨?_, hnegative⟩⟩
    exact List.forall_mem_append.2 ⟨hpositive, by simpa using hhead⟩
  | negative =>
    obtain ⟨e, he, hq⟩ := exists_of_bind_eq_ok hq
    cases hq
    obtain ⟨hhead, rfl⟩ := Examples.addNegative_eq_ok.1 he
    obtain ⟨hpositive, hnegative⟩ := Examples.areHeaded_iff.1 h.examples
    refine ⟨h.options, h.modes, h.knowledge, Examples.areHeaded_iff.2 ⟨hpositive, ?_⟩⟩
    exact List.forall_mem_append.2 ⟨hnegative, by simpa using hhead⟩

theorem IsWellFormed.addMode (h : p.IsWellFormed) (m : Mode) : (p.addMode m).IsWellFormed :=
  ⟨h.options, h.modes.addMode m, h.knowledge, h.examples⟩

theorem IsWellFormed.addDetermination (h : p.IsWellFormed) {d : Determination}
    (hq : p.addDetermination d = .ok q) : q.IsWellFormed := by
  obtain ⟨t, ht, hq⟩ := exists_of_bind_eq_ok hq
  cases hq
  exact ⟨h.options, h.modes.addDetermination ht, h.knowledge, h.examples⟩

theorem IsWellFormed.appendExamples (h : p.IsWellFormed) {e : Examples} (he : e.AreHeaded) :
    (p.appendExamples e).IsWellFormed :=
  ⟨h.options, h.modes, h.knowledge, Examples.areHeaded_append h.examples he⟩

/-- One declaration. -/
theorem IsWellFormed.declare (h : p.IsWellFormed) {s t : Section} {st : Statement}
    (hq : p.declare s st = .ok (q, t)) : q.IsWellFormed := by
  cases st with
  | clause c =>
    obtain ⟨r, hr, hq⟩ := exists_of_bind_eq_ok hq
    cases hq
    exact h.addTo hr
  | mode m =>
    cases hq
    exact h.addMode m
  | determination d =>
    obtain ⟨r, hr, hq⟩ := exists_of_bind_eq_ok hq
    cases hq
    exact h.addDetermination hr
  | set key value =>
    obtain ⟨r, hr, hq⟩ := exists_of_bind_eq_ok hq
    cases hq
    obtain ⟨o, ho, hr⟩ := exists_of_bind_eq_ok hr
    cases hr
    exact ⟨h.options.set ho, h.modes, h.knowledge, h.examples⟩
  | enter b =>
    cases hq
    exact h
  | leave b =>
    cases hq
    exact h
  | query g => cases hq
  | directive d => cases hq

/-- Any number of declarations, also those before one that fails. -/
theorem IsWellFormed.declareAll (h : p.IsWellFormed) (s : Section) (statements : List Statement) :
    (p.declareAll s statements).2.IsWellFormed := by
  induction statements generalizing p s with
  | nil => exact h
  | cons st rest ih =>
    rw [Program.declareAll]
    split
    next => exact h
    next hq => exact ih (h.declare hq) _

theorem IsWellFormed.load (h : p.IsWellFormed) (source : String) :
    (p.load source).2.IsWellFormed := by
  unfold Program.load
  split
  · exact h
  · exact h.declareAll _ _

/-! ## Generated examples and learned clauses -/

theorem IsWellFormed.generator_declareAll (h : p.IsWellFormed) (gen : Generator)
    (statements : List Statement) : (gen.declareAll p statements).2.IsWellFormed := by
  induction statements generalizing p gen with
  | nil => exact h
  | cons st rest ih =>
    rw [Generator.declareAll]
    split
    next => exact h
    next gen' q hq =>
      refine ih ?_ _
      unfold Generator.declare at hq
      split at hq
      next =>
        obtain ⟨r, -, hq⟩ := exists_of_bind_eq_ok hq
        cases hq
        exact h
      next m =>
        cases hq
        exact h.addMode m
      next =>
        obtain ⟨r, hr, hq⟩ := exists_of_bind_eq_ok hq
        cases hq
        exact h.addDetermination hr
      next => cases hq

theorem IsWellFormed.generateExamples (h : p.IsWellFormed) (text : String) :
    (p.generateExamples text).2.IsWellFormed := by
  unfold Program.generateExamples
  split
  next => exact h
  next statements _ =>
    have hall := h.generator_declareAll Generator.empty statements
    split
    next hq =>
      rw [hq] at hall
      exact hall
    next hq =>
      rw [hq] at hall
      exact hall.appendExamples (Examples.areHeaded_labelled _ _ fun _ => rfl)

theorem IsWellFormed.labelInstances (h : p.IsWellFormed) (c : Clause)
    (domains : List (String × String)) : (p.labelInstances c domains).2.IsWellFormed := by
  unfold Program.labelInstances
  split
  next => exact h
  next head _ =>
    split
    next => exact h
    next => exact h.appendExamples (Examples.areHeaded_labelled _ _ fun _ => rfl)

theorem IsWellFormed.generateExamplesFromClause (h : p.IsWellFormed) {c : Clause}
    {domains : List (String × String)} {e : Examples}
    (hq : p.generateExamplesFromClause c domains = .ok (e, q)) : q.IsWellFormed := by
  obtain ⟨e', -, hpair⟩ := exists_of_map_eq_ok hq
  obtain ⟨-, rfl⟩ := Prod.mk.inj hpair
  exact h.labelInstances c domains

theorem IsWellFormed.induce (h : p.IsWellFormed) {i : Induction} (hq : p.induce = .ok (i, q)) :
    q.IsWellFormed := by
  obtain ⟨j, -, hq⟩ := exists_of_bind_eq_ok hq
  dsimp only at hq
  split at hq
  next =>
    obtain ⟨k, hk, hq⟩ := exists_of_bind_eq_ok hq
    cases hq
    exact ⟨h.options, h.modes, h.knowledge.addAll hk, h.examples⟩
  next =>
    cases hq
    exact ⟨h.options, h.modes, h.knowledge, h.examples⟩

end

/-- The programs that loading texts, generating examples and learning lead to. -/
inductive Reachable : Program → Prop where
  | empty : Reachable empty
  | load {p q : Program} {source : String} :
    Reachable p → p.load source = (.ok (), q) → Reachable q
  | generateExamples {p q : Program} {text : String} {e : Examples} :
    Reachable p → p.generateExamples text = (.ok e, q) → Reachable q
  | generateExamplesFromClause {p q : Program} {c : Clause} {domains : List (String × String)}
    {e : Examples} :
    Reachable p → p.generateExamplesFromClause c domains = .ok (e, q) → Reachable q
  | induce {p q : Program} {i : Induction} : Reachable p → p.induce = .ok (i, q) → Reachable q

theorem Reachable.isWellFormed {p : Program} (h : p.Reachable) : p.IsWellFormed := by
  induction h with
  | empty => exact isWellFormed_empty
  | @load p q source _ hq ih =>
    have hload := ih.load source
    rwa [hq] at hload
  | @generateExamples p q text e _ hq ih =>
    have hall := ih.generateExamples text
    rwa [hq] at hall
  | generateExamplesFromClause _ hq ih => exact ih.generateExamplesFromClause hq
  | induce _ hq ih => exact ih.induce hq

end Program
end Horn
