import Horn.Proofs.Candidates
import Mathlib.Data.List.Dedup
import Mathlib.Data.List.Induction

/-!
A store as the list of its clauses.  Whatever is added and removed, the store answers as a list would
to which new clauses are appended and from which clauses are deleted, and what it holds, counts, names
and offers for a call can be read off that list.
-/

namespace Horn

/-! ## Shapes -/

theorem hasPlaceholders_eq_false {α : Type} [HasTerms α] {x : α} :
    hasPlaceholders x = false ↔ ∀ t ∈ HasTerms.subterms x, ∀ p, t ≠ .placeholder p := by
  rw [hasPlaceholders, List.any_eq_false]
  refine forall₂_congr fun t _ => ?_
  cases t <;> simp

namespace Term

mutual
/-- The shape test.  A variable fits everything and a list fits every list. -/
def fits : Term → Term → Bool
  | .var _, _ | _, .var _ => true
  | .const c, .const d => c == d
  | .compound f xs, .compound g ys => f == g && fitsAll xs ys
  | .list _ _, .list _ _ => true
  | _, _ => false

def fitsAll : List Term → List Term → Bool
  | [], [] => true
  | x :: xs, y :: ys => fits x y && fitsAll xs ys
  | _, _ => false
end

theorem agreesAll_eq_fitsAll {ts us : List Term}
    (h : ∀ t ∈ ts, ∀ u ∈ us, t.agrees u = t.fits u) : agreesAll ts us = fitsAll ts us := by
  induction ts generalizing us with
  | nil => cases us <;> rfl
  | cons t ts ih =>
    cases us with
    | nil => rfl
    | cons u us =>
      rw [agreesAll, fitsAll, h t List.mem_cons_self u List.mem_cons_self,
        ih fun t ht u hu => h t (List.mem_cons_of_mem _ ht) u (List.mem_cons_of_mem _ hu)]

theorem hasPlaceholders_arg {f : String} {args : List Term}
    (h : hasPlaceholders (compound f args) = false) {t : Term} (ht : t ∈ args) :
    hasPlaceholders t = false := by
  rw [hasPlaceholders_eq_false] at h ⊢
  intro u hu
  refine h u ?_
  show u ∈ subterms (.compound f args)
  rw [subterms, List.mem_cons, mem_subtermsAll]
  exact .inr ⟨t, ht, hu⟩

/-- Only placeholders, which agree with lists, make a difference between the two tests. -/
theorem agrees_eq_fits {t u : Term} (ht : hasPlaceholders t = false)
    (hu : hasPlaceholders u = false) : t.agrees u = t.fits u := by
  induction t using Term.induct generalizing u with
  | var v => cases u <;> rfl
  | const c => cases u <;> rfl
  | placeholder p => cases ht
  | list items tail _ _ =>
    cases u with
    | placeholder p => cases hu
    | _ => rfl
  | compound f xs ih =>
    cases u with
    | compound g ys =>
      rw [agrees, fits, agreesAll_eq_fitsAll fun x hx y hy =>
        ih x hx (hasPlaceholders_arg ht hx) (hasPlaceholders_arg hu hy)]
    | _ => rfl

end Term

namespace Predicate

def fits (p q : Predicate) : Bool := p.name == q.name && Term.fitsAll p.args q.args

theorem hasPlaceholders_arg {p : Predicate} (h : hasPlaceholders p = false) {t : Term}
    (ht : t ∈ p.args) : hasPlaceholders t = false := by
  rw [hasPlaceholders_eq_false] at h ⊢
  exact fun u hu => h u (List.mem_flatMap.2 ⟨t, ht, hu⟩)

theorem agrees_eq_fits {p q : Predicate} (hp : hasPlaceholders p = false)
    (hq : hasPlaceholders q = false) : p.agrees q = p.fits q := by
  rw [agrees, fits, Term.agreesAll_eq_fitsAll fun t ht u hu =>
    Term.agrees_eq_fits (hasPlaceholders_arg hp ht) (hasPlaceholders_arg hq hu)]

end Predicate

theorem Clause.hasPlaceholders_head {c : Clause} {p : Predicate} (h : hasPlaceholders c = false)
    (hp : c.headPredicate = some p) : hasPlaceholders p = false := by
  rw [hasPlaceholders_eq_false] at h ⊢
  intro t ht
  refine h t ?_
  rw [subterms_eq, headPredicate_eq_some.1 hp]
  exact List.mem_append_left _ ht

/-! ## Changes -/

/-- One change to a set of clauses. -/
inductive Change where
  | add (c : Clause)
  | remove (c : Clause)

/-- What a change is answered with: whether it made a difference, or why it was refused. -/
abbrev Change.Answer := Except Failure Bool

/-- Makes changes one after the other. -/
def Change.run {α : Type} (make : α → Change → Change.Answer × α) (x : α) :
    List Change → List Change.Answer × α
  | [] => ([], x)
  | change :: more =>
    let (answer, y) := make x change
    let (answers, z) := run make y more
    (answer :: answers, z)

/-- Why a clause is not stored. -/
def Clause.refusal? (c : Clause) : Option Failure :=
  if c.headPredicate.isNone then some (.headlessClause c)
  else if hasPlaceholders c then some (.placeholderInClause c)
  else none

/-- A change to a list of clauses. -/
def Change.toList (cs : List Clause) : Change → Change.Answer × List Clause
  | .add c =>
    match c.refusal? with
    | some why => (.error why, cs)
    | none => if c ∈ cs then (.ok false, cs) else (.ok true, cs ++ [c])
  | .remove c => (.ok (decide (c ∈ cs)), cs.erase c)

theorem Change.run_simulates {α β : Type} {make : α → Change → Change.Answer × α}
    {make' : β → Change → Change.Answer × β} {R : α → β → Prop}
    (hstep : ∀ x y change, R x y →
      (make x change).1 = (make' y change).1 ∧ R (make x change).2 (make' y change).2)
    (changes : List Change) {x : α} {y : β} (h : R x y) :
    (run make x changes).1 = (run make' y changes).1 ∧
      R (run make x changes).2 (run make' y changes).2 := by
  induction changes generalizing x y with
  | nil => exact ⟨rfl, h⟩
  | cons change more ih =>
    obtain ⟨hanswer, hnext⟩ := hstep x y change h
    obtain ⟨hanswers, hlast⟩ := ih hnext
    rw [run, run]
    dsimp only
    exact ⟨by rw [hanswer, hanswers], hlast⟩

/-- The predicates with clauses in a list, by name and then by arity. -/
def Clause.signatures (cs : List Clause) : List Signature :=
  (cs.filterMap fun c => c.headPredicate.map Predicate.signature).dedup.mergeSort Signature.le

namespace Signature

theorem le_iff {a b : Signature} : a.le b = true ↔ a.name < b.name ∨ a.name = b.name ∧ a.arity ≤ b.arity := by
  unfold le
  by_cases hname : a.name = b.name
  · simp [hname]
  · simp [hname]

theorem le_trans (a b c : Signature) (hab : a.le b = true) (hbc : b.le c = true) : a.le c = true := by
  rw [le_iff] at *
  rcases hab with hab | ⟨hab, hle⟩
  · rcases hbc with hbc | ⟨hbc, -⟩
    · exact .inl (String.lt_trans hab hbc)
    · exact .inl (hbc ▸ hab)
  · rcases hbc with hbc | ⟨hbc, hle'⟩
    · exact .inl (hab ▸ hbc)
    · exact .inr ⟨hab.trans hbc, Nat.le_trans hle hle'⟩

theorem le_total (a b : Signature) : (a.le b || b.le a) = true := by
  rw [Bool.or_eq_true, le_iff, le_iff]
  rcases Std.lt_trichotomy a.name b.name with h | h | h
  · exact .inl (.inl h)
  · rcases Nat.le_total a.arity b.arity with hle | hle
    · exact .inl (.inr ⟨h, hle⟩)
    · exact .inr (.inr ⟨h.symm, hle⟩)
  · exact .inr (.inl h)

theorem le_antisymm {a b : Signature} (hab : a.le b = true) (hba : b.le a = true) : a = b := by
  rw [le_iff] at *
  obtain ⟨name, arity⟩ := a
  obtain ⟨name', arity'⟩ := b
  rcases hab with hab | ⟨rfl, hle⟩
  · rcases hba with hba | ⟨hba, -⟩
    · exact absurd hba (String.lt_asymm hab)
    · exact absurd (hba ▸ hab) (String.lt_irrefl _)
  · rcases hba with hba | ⟨-, hle'⟩
    · exact absurd hba (String.lt_irrefl _)
    · exact congrArg _ (Nat.le_antisymm hle hle')

/-- Sorting does not depend on the order before it. -/
theorem mergeSort_eq {l l' : List Signature} (h : l.Perm l') : l.mergeSort le = l'.mergeSort le := by
  have hperm : (l.mergeSort le).Perm (l'.mergeSort le) :=
    ((List.mergeSort_perm l le).trans h).trans (List.mergeSort_perm l' le).symm
  exact hperm.eq_of_pairwise (fun _ _ _ _ => le_antisymm) (List.pairwise_mergeSort le_trans le_total l)
    (List.pairwise_mergeSort le_trans le_total l')

end Signature

namespace Store

def change (s : Store) : Change → Change.Answer × Store
  | .add c => s.tryAdd c
  | .remove c =>
    let (had, t) := s.remove c
    (.ok had, t)

/-! ## One change -/

section

variable {s : Store} {c : Clause} {head : Predicate}

theorem add_of_refusal {why : Failure} (h : c.refusal? = some why) : s.add c = .error why := by
  unfold Clause.refusal? at h
  unfold Store.add tryAdd
  cases hhead : c.headPredicate with
  | none => simpa [hhead, Except.map] using h
  | some head =>
    cases hplain : hasPlaceholders c with
    | true => simpa [hhead, hplain, Except.map] using h
    | false => simp [hhead, hplain] at h

theorem refusal?_eq_none :
    c.refusal? = none ↔ (∃ head, c.headPredicate = some head) ∧ hasPlaceholders c = false := by
  unfold Clause.refusal?
  cases c.headPredicate <;> simp

theorem IsFiled.nodup_clauses (h : s.IsFiled) : s.clauses.Nodup := by
  rw [clauses_eq]
  refine List.pairwise_map.2 (s.ordered_entries.imp_of_mem fun {e e'} he he' hlt heq => ?_)
  have hid : s.idOf[e.2]? = some e.1 := (h.numbered e.2 e.1).2 (mem_entries.1 he)
  have hid' : s.idOf[e'.2]? = some e'.1 := (h.numbered e'.2 e'.1).2 (mem_entries.1 he')
  rw [heq, hid'] at hid
  have := Option.some.inj hid
  omega

theorem IsFiled.clauses_remove (h : s.IsFiled) (c : Clause) :
    (s.remove c).2.clauses = s.clauses.erase c := by
  unfold Store.remove
  split
  · rename_i hnone
    refine (List.erase_of_not_mem fun hc => ?_).symm
    obtain ⟨id, hid⟩ := mem_clauses.1 hc
    rw [(h.numbered c id).2 hid] at hnone
    cases hnone
  · rename_i id hid
    dsimp only
    generalize ht : Store.mk (s.clauseOf.erase id) _ _ _ = t
    have herase : t.clauseOf = s.clauseOf.erase id := by rw [← ht]
    have hentries : t.clauseOf.toList = s.clauseOf.toList.filter fun e => e.2 != c := by
      refine eq_of_ordered t.ordered_entries (s.ordered_entries.filter _) fun ⟨i, d⟩ => ?_
      rw [List.mem_filter, mem_entries, mem_entries, filing_erase id herase, bne_iff_ne]
      by_cases hi : i = id
      · rw [hi, Function.update_self]
        refine iff_of_false nofun fun ⟨hd, hne⟩ => hne ?_
        exact Option.some.inj (hd.symm.trans ((h.numbered c id).1 hid))
      · rw [Function.update_of_ne hi]
        refine (and_iff_left_of_imp fun hd hdc => hi ?_).symm
        rw [← h.numbered, show d = c from hdc, hid] at hd
        exact (Option.some.inj hd).symm
    rw [h.nodup_clauses.erase_eq_filter, clauses_eq, clauses_eq, hentries, List.filter_map]
    rfl

theorem IsFiled.remove_fst (h : s.IsFiled) (c : Clause) :
    (s.remove c).1 = decide (c ∈ s.clauses) := by
  have hcontains : (s.remove c).1 = s.contains c := by
    unfold Store.remove contains
    rw [Std.HashMap.contains_eq_isSome_getElem?]
    cases s.idOf[c]? <;> rfl
  rw [hcontains, Bool.eq_iff_iff, decide_eq_true_iff]
  exact h.contains_iff

/-- A change to a store is a change to the list of its clauses. -/
theorem IsFiled.change (h : s.IsFiled) (change : Change) :
    (s.change change).2.IsFiled ∧
      change.toList s.clauses = ((s.change change).1, (s.change change).2.clauses) := by
  cases change with
  | remove c =>
    refine ⟨h.remove c, ?_⟩
    show (_, s.clauses.erase c) = (_, (s.remove c).2.clauses)
    rw [h.clauses_remove, ← h.remove_fst]
    rfl
  | add c =>
    cases hwhy : c.refusal? with
    | some why =>
      rw [Store.change, tryAdd_of_error (add_of_refusal hwhy), Change.toList, hwhy]
      exact ⟨h, rfl⟩
    | none =>
      obtain ⟨⟨head, hhead⟩, hplain⟩ := refusal?_eq_none.1 hwhy
      rw [Store.change, Change.toList, hwhy]
      cases hold : s.contains c with
      | true =>
        have hadd : s.tryAdd c = (.ok false, s) := by
          rw [tryAdd, hhead]
          simp [hplain, hold]
        rw [hadd]
        exact ⟨h, if_pos (h.contains_iff.1 hold)⟩
      | false =>
        have hadd := add_of_not_contains hhead hplain hold
        have hnew : c ∉ s.clauses := fun hc => by
          rw [h.contains_iff.2 hc] at hold
          cases hold
        rw [tryAdd_of_ok hadd]
        refine ⟨h.add hadd, ?_⟩
        dsimp only
        rw [if_neg hnew, h.clauses_insertNew]

/-! ## Signatures -/

/-- No signature stays in the index without clauses. -/
def IsTidy (s : Store) : Prop :=
  ∀ (sig : Signature) (b : FunctorIndex ArgumentIndex), s.index[sig]? = some b →
    b.all.isEmpty = false

theorem isTidy_empty : empty.IsTidy := by
  intro sig b hb
  simp [empty] at hb

theorem IsTidy.insertNew (h : s.IsTidy) (c : Clause) (head : Predicate) :
    (s.insertNew c head).IsTidy := by
  intro sig b hb
  rw [Store.insertNew, Std.HashMap.getElem?_insert] at hb
  split at hb
  · obtain rfl := Option.some.inj hb
    exact Std.TreeSet.isEmpty_insert
  · exact h sig b hb

theorem IsTidy.unfile (h : s.IsTidy) (id : Nat) (head : Predicate) {sig : Signature}
    {b : FunctorIndex ArgumentIndex} (hb : (s.unfile id head)[sig]? = some b) :
    b.all.isEmpty = false := by
  by_cases hsig : head.signature = sig
  · unfold Store.unfile at hb
    cases hold : s.index[head.signature]? with
    | none =>
      rw [hold] at hb
      exact h sig b hb
    | some old =>
      rw [hold] at hb
      dsimp only at hb
      split at hb
      · rw [Std.HashMap.getElem?_erase, if_pos (by simp [hsig])] at hb
        cases hb
      · rename_i hleft
        rw [Std.HashMap.getElem?_insert, if_pos (by simp [hsig])] at hb
        obtain rfl := Option.some.inj hb
        simpa using hleft
  · rw [unfile_other hsig] at hb
    exact h sig b hb

theorem IsTidy.change (h : s.IsTidy) (change : Change) : (s.change change).2.IsTidy := by
  cases change with
  | add c =>
    rw [Store.change]
    cases hadd : s.add c with
    | error why =>
      rw [tryAdd_of_error hadd]
      exact h
    | ok r =>
      obtain ⟨isNew, t⟩ := r
      rw [tryAdd_of_ok hadd]
      obtain ⟨head, -, -, ⟨-, rfl⟩ | ⟨-, rfl⟩⟩ := add_cases hadd
      · exact h
      · exact h.insertNew c head
  | remove c =>
    show (s.remove c).2.IsTidy
    unfold Store.remove
    cases s.idOf[c]? with
    | none => exact h
    | some id =>
      intro sig b hb
      cases hhead : c.headPredicate with
      | none =>
        rw [hhead] at hb
        exact h sig b hb
      | some head =>
        rw [hhead] at hb
        exact h.unfile id head hb

theorem IsFiled.mem_index (h : s.IsFiled) (htidy : s.IsTidy) {sig : Signature} :
    sig ∈ s.index ↔ ∃ c ∈ s.clauses, c.headPredicate.map Predicate.signature = some sig := by
  constructor
  · intro hsig
    obtain ⟨b, hb⟩ := Option.isSome_iff_exists.1 (Std.HashMap.isSome_getElem?_iff_mem.2 hsig)
    have hentry := h.indexed sig
    rw [hb] at hentry
    cases hentry with
    | present hfiles =>
      obtain ⟨id, hid⟩ := Std.TreeSet.isEmpty_eq_false_iff_exists_mem.1 (htidy sig b hb)
      obtain ⟨ts, hts, -⟩ := (hfiles.all id).1 hid
      obtain ⟨c, hc, hargs⟩ := Option.bind_eq_some_iff.1 hts
      obtain ⟨p, hp, hpsig, -⟩ := Clause.headArgs_eq_some.1 hargs
      exact ⟨c, mem_clauses.2 ⟨id, hc⟩, Option.map_eq_some_iff.2 ⟨p, hp, hpsig⟩⟩
  · rintro ⟨c, hc, hhead⟩
    obtain ⟨p, hp, hpsig⟩ := Option.map_eq_some_iff.1 hhead
    obtain ⟨id, hid⟩ := mem_clauses.1 hc
    have hargs : (s.filing.through (Clause.headArgs sig)) id = some p.args := by
      rw [Filing.through, hid]
      exact Clause.headArgs_eq_some.2 ⟨p, hp, hpsig, rfl⟩
    obtain ⟨b, hb, -⟩ := (h.indexed sig).files hargs
    exact Std.HashMap.isSome_getElem?_iff_mem.1 (hb ▸ rfl)

theorem IsFiled.signatures_eq (h : s.IsFiled) (htidy : s.IsTidy) :
    s.signatures = Clause.signatures s.clauses := by
  have hperm : s.index.keys.Perm
      (s.clauses.filterMap fun c => c.headPredicate.map Predicate.signature).dedup := by
    refine (List.perm_ext_iff_of_nodup Std.HashMap.nodup_keys (List.nodup_dedup _)).2 fun sig => ?_
    rw [Std.HashMap.mem_keys, h.mem_index htidy, List.mem_dedup, List.mem_filterMap]
  exact Signature.mergeSort_eq hperm

/-! ## Any number of changes -/

/-- The list holds the clauses of the store, none of them with placeholders. -/
structure Lists (s : Store) (cs : List Clause) : Prop where
  filed : s.IsFiled
  tidy : s.IsTidy
  clauses : s.clauses = cs
  plain : ∀ c ∈ cs, hasPlaceholders c = false

theorem lists_empty : empty.Lists [] := ⟨isFiled_empty, isTidy_empty, clauses_empty, nofun⟩

theorem Lists.change {cs : List Clause} (h : s.Lists cs) (change : Change) :
    (s.change change).1 = (change.toList cs).1 ∧
      (s.change change).2.Lists (change.toList cs).2 := by
  obtain ⟨hfiled, hlist⟩ := h.filed.change change
  rw [h.clauses] at hlist
  rw [hlist]
  refine ⟨rfl, hfiled, h.tidy.change change, rfl, fun c hc => ?_⟩
  have hc : c ∈ (change.toList cs).2 := by rwa [hlist]
  cases change with
  | remove d => exact h.plain c (List.mem_of_mem_erase hc)
  | add d =>
    rw [Change.toList] at hc
    split at hc
    · exact h.plain c hc
    · rename_i hwhy
      split at hc
      · exact h.plain c hc
      · rcases List.mem_append.1 hc with hc | hc
        · exact h.plain c hc
        · rw [List.mem_singleton.1 hc]
          exact (refusal?_eq_none.1 hwhy).2

theorem Lists.candidates_eq {cs : List Clause} (h : s.Lists cs) {q : Predicate}
    (hq : hasPlaceholders q = false) :
    s.candidates q = cs.filter fun c => c.headPredicate.any (·.fits q) := by
  rw [h.filed.candidates_eq, h.clauses]
  refine List.filter_congr fun c hc => ?_
  cases hp : c.headPredicate with
  | none => rfl
  | some p => exact Predicate.agrees_eq_fits (Clause.hasPlaceholders_head (h.plain c hc) hp) hq

end

/-- A store holds clauses with predicate heads and without placeholders. -/
theorem Reachable.plain {s : Store} (h : s.Reachable) :
    ∀ c ∈ s.clauses, (∃ head, c.headPredicate = some head) ∧ hasPlaceholders c = false := by
  induction h with
  | empty => simp [clauses_empty]
  | @add s t c isNew hs ht ih =>
    intro d hd
    rcases (hs.isFiled.mem_clauses_add ht).1 hd with rfl | hd
    · obtain ⟨head, hhead, hplain, -⟩ := add_cases ht
      exact ⟨⟨head, hhead⟩, hplain⟩
    · exact ih d hd
  | @remove s c hs ih =>
    intro d hd
    rw [hs.isFiled.clauses_remove] at hd
    exact ih d (List.mem_of_mem_erase hd)

/-- Distinct clauses that are not refused are what the store holds to which they are added. -/
theorem exists_replayed {cs : List Clause} (hnodup : cs.Nodup) (h : ∀ c ∈ cs, c.refusal? = none) :
    ∃ s, Reachable s ∧ s.IsReplayed ∧ s.clauses = cs := by
  induction cs using List.reverseRecOn with
  | nil => exact ⟨empty, .empty, isReplayed_empty, clauses_empty⟩
  | append_singleton cs c ih =>
    obtain ⟨hnodup, -, hdisjoint⟩ := List.nodup_append'.1 hnodup
    obtain ⟨s, hs, hreplayed, rfl⟩ := ih hnodup fun d hd => h d (List.mem_append_left _ hd)
    obtain ⟨⟨head, hhead⟩, hplain⟩ :=
      refusal?_eq_none.1 (h c (List.mem_append_right _ List.mem_cons_self))
    have hnew : s.contains c = false := by
      rw [Bool.eq_false_iff, ne_eq, hs.isFiled.contains_iff]
      exact fun hc => hdisjoint hc List.mem_cons_self
    have hadd := add_of_not_contains hhead hplain hnew
    exact ⟨_, hs.add hadd, hreplayed.add hs.isFiled hadd, hs.isFiled.clauses_insertNew c head⟩

theorem exists_clauses {cs : List Clause} (hnodup : cs.Nodup) (h : ∀ c ∈ cs, c.refusal? = none) :
    ∃ s, Reachable s ∧ s.clauses = cs := by
  obtain ⟨s, hs, -, hclauses⟩ := exists_replayed hnodup h
  exact ⟨s, hs, hclauses⟩

/-- Whatever is added to the empty store and removed from it, its answers and its clauses are those of
a list, which also gives its contents, its size, its signatures and its candidates. -/
theorem run_refines (changes : List Change) :
    let answers := (Change.run change Store.empty changes).1
    let s := (Change.run change Store.empty changes).2
    let cs := (Change.run Change.toList [] changes).2
    answers = (Change.run Change.toList [] changes).1 ∧ s.clauses = cs ∧
      (∀ c, s.contains c = true ↔ c ∈ cs) ∧ s.size = cs.length ∧
      s.signatures = Clause.signatures cs ∧
      (∀ q, s.candidates q = cs.filter fun c => c.headPredicate.any (·.agrees q)) ∧
      ∀ q, hasPlaceholders q = false →
        s.candidates q = cs.filter fun c => c.headPredicate.any (·.fits q) := by
  obtain ⟨hanswers, h⟩ := Change.run_simulates (R := Lists) (fun s cs change h => h.change change)
    changes lists_empty
  refine ⟨hanswers, h.clauses, fun c => ?_, ?_, ?_, fun q => ?_, fun q hq => h.candidates_eq hq⟩
  · rw [h.filed.contains_iff, h.clauses]
  · rw [← h.clauses, clauses_eq, List.length_map, Std.TreeMap.length_toList]
    rfl
  · rw [h.filed.signatures_eq h.tidy, h.clauses]
  · rw [h.filed.candidates_eq, h.clauses]

/-- A clause that is added twice is there once, and can be added again when it was removed. -/
theorem run_refines_fact :
    let c := Clause.fact (.predicate ⟨"p", [.list [.symbol "a"] none]⟩)
    let q : Predicate := ⟨"p", [.list [] none]⟩
    let run := Change.run change Store.empty [.add c, .add c, .remove c, .add c]
    run.1 = [.ok true, .ok false, .ok true, .ok true] ∧ run.2.clauses = [c] ∧ run.2.size = 1 ∧
      run.2.signatures = [⟨"p", 1⟩] ∧ hasPlaceholders q = false ∧ run.2.candidates q = [c] := by
  intro c q run
  have hlist : Change.run Change.toList [] [.add c, .add c, .remove c, .add c] =
      ([.ok true, .ok false, .ok true, .ok true], [c]) := rfl
  have hsignatures : Clause.signatures [c] = [⟨"p", 1⟩] := by
    simp [Clause.signatures, Clause.headPredicate, c, Clause.fact, Atom.asPredicate,
      Predicate.signature]
  have hplain : hasPlaceholders q = false := by decide
  have hrun := run_refines [.add c, .add c, .remove c, .add c]
  rw [hlist] at hrun
  obtain ⟨hanswers, hclauses, -, hsize, hnames, -, hcandidates⟩ := hrun
  exact ⟨hanswers, hclauses, hsize, hnames.trans hsignatures, hplain, hcandidates q hplain⟩

/-- A placeholder, which fits only variables, is offered the clauses with a list in its place. -/
theorem placeholder_finds_list :
    let c := Clause.fact (.predicate ⟨"p", [.list [.symbol "a"] none]⟩)
    let q : Predicate := ⟨"p", [.placeholder ⟨.input, "x"⟩]⟩
    (Change.run Change.toList [] [.add c]).2.filter (fun c => c.headPredicate.any (·.fits q)) = [] ∧
      (Change.run change Store.empty [.add c]).2.candidates q = [c] := by
  intro c q
  obtain ⟨-, h⟩ := Change.run_simulates (R := Lists) (fun s cs change h => h.change change)
    [.add c] lists_empty
  refine ⟨rfl, ?_⟩
  rw [h.filed.candidates_eq, h.clauses]
  rfl

end Store
end Horn
