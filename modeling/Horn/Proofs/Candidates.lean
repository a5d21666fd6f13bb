import Horn.Proofs.Filing
import Horn.Proofs.MostGeneral
import Horn.Proofs.Provability

/-!
The clauses that a store offers for a call.  A store keeps its index in step with its clauses, so the
candidates are the clauses whose heads agree with the call in shape.  Terms with a common instance
agree in shape, which is why no clause is missing that unification would accept.
-/

namespace Horn

/-- The arguments of the head when it has the given signature. -/
def Clause.headArgs (sig : Signature) (c : Clause) : Option (List Term) :=
  c.headPredicate.bind fun p => if p.signature = sig then some p.args else none

/-- Predicates of one signature whose arguments agree in shape. -/
def Predicate.agrees (p q : Predicate) : Bool := p.name == q.name && Term.agreesAll p.args q.args

theorem Clause.headArgs_eq_some {sig : Signature} {c : Clause} {ts : List Term} :
    c.headArgs sig = some ts ↔
      ∃ p, c.headPredicate = some p ∧ p.signature = sig ∧ p.args = ts := by
  rw [headArgs, Option.bind_eq_some_iff]
  simp only [Option.ite_none_right_eq_some, Option.some.injEq]

namespace Store

/-- The clause of each number. -/
def filing (s : Store) : Filing Clause := fun id => s.clauseOf[id]?

theorem mem_entries {s : Store} {id : Nat} {c : Clause} :
    (id, c) ∈ s.clauseOf.toList ↔ s.filing id = some c :=
  Std.TreeMap.mem_toList_iff_getElem?_eq_some

theorem mem_clauses {s : Store} {c : Clause} : c ∈ s.clauses ↔ ∃ id, s.filing id = some c := by
  rw [clauses_eq, List.mem_map]
  constructor
  · rintro ⟨⟨id, d⟩, hmem, rfl⟩
    exact ⟨id, mem_entries.1 hmem⟩
  · rintro ⟨id, hid⟩
    exact ⟨(id, c), mem_entries.2 hid, rfl⟩

theorem ordered_entries (s : Store) : s.clauseOf.toList.Pairwise fun e e' => e.1 < e'.1 :=
  Std.TreeMap.ordered_keys_toList.imp Nat.compare_eq_lt.1

/-- Entries in the order of their numbers are the same list when they are the same entries. -/
theorem eq_of_ordered {l l' : List (Nat × Clause)} (h : l.Pairwise fun e e' => e.1 < e'.1)
    (h' : l'.Pairwise fun e e' => e.1 < e'.1) (hmem : ∀ e, e ∈ l ↔ e ∈ l') : l = l' := by
  have hne : ∀ e e' : Nat × Clause, e.1 < e'.1 → e ≠ e' := fun e e' hlt heq =>
    Nat.ne_of_lt hlt (congrArg Prod.fst heq)
  have hperm : l.Perm l' := (List.perm_ext_iff_of_nodup (h.imp (hne _ _)) (h'.imp (hne _ _))).2 hmem
  exact hperm.eq_of_pairwise (fun e e' _ _ hlt hgt => absurd hgt (Nat.lt_asymm hlt)) h h'

/-- Every clause has one number, below the next one, and is in the index under its head. -/
structure IsFiled (s : Store) : Prop where
  numbered : ∀ (c : Clause) (id : Nat), s.idOf[c]? = some id ↔ s.filing id = some c
  unused : ∀ id, s.nextId ≤ id → s.filing id = none
  headed : ∀ (id : Nat) (c : Clause), s.filing id = some c → c.headPredicate.isSome = true
  indexed : ∀ sig, FunctorIndex.Entry s.index[sig]? sig.arity
    (s.filing.through (Clause.headArgs sig))

/-! ## What a store can become -/

theorem filing_empty : empty.filing = fun _ => none := by
  funext id
  simp [filing, empty]

theorem isFiled_empty : empty.IsFiled := by
  refine ⟨fun c id => ?_, fun id _ => ?_, fun id c h => ?_, fun sig => ?_⟩
  · rw [filing_empty]
    simp [empty]
  · rw [filing_empty]
  · rw [filing_empty] at h
    cases h
  · rw [filing_empty, show empty.index[sig]? = none by simp [empty]]
    exact .missing

section

variable {s : Store} {c : Clause} {head : Predicate}

theorem filing_insertNew :
    (s.insertNew c head).filing = Function.update s.filing s.nextId (some c) := by
  funext id
  rw [filing, insertNew, Std.TreeMap.getElem?_insert]
  by_cases hid : id = s.nextId
  · rw [hid, Function.update_self, if_pos (by simp)]
  · rw [Function.update_of_ne hid, if_neg (by simpa using Ne.symm hid)]
    rfl

/-- A new clause comes after the others, since its number does. -/
theorem IsFiled.clauses_insertNew (h : s.IsFiled) (c : Clause) (head : Predicate) :
    (s.insertNew c head).clauses = s.clauses ++ [c] := by
  have hbelow : ∀ e ∈ s.clauseOf.toList, e.1 < s.nextId := by
    intro e he
    by_contra hle
    have hfiled : s.filing e.1 = some e.2 := mem_entries.1 he
    rw [h.unused e.1 (by omega)] at hfiled
    cases hfiled
  have hlist : (s.insertNew c head).clauseOf.toList = s.clauseOf.toList ++ [(s.nextId, c)] := by
    refine eq_of_ordered (ordered_entries _) ?_ fun ⟨id, d⟩ => ?_
    · refine List.pairwise_append.2
        ⟨s.ordered_entries, List.pairwise_singleton _ _, fun e he e' he' => ?_⟩
      rw [List.mem_singleton.1 he']
      exact hbelow e he
    · rw [mem_entries, filing_insertNew, List.mem_append, mem_entries, List.mem_singleton,
        Prod.mk.injEq]
      by_cases hid : id = s.nextId
      · rw [hid, Function.update_self, h.unused _ (Nat.le_refl _), Option.some.injEq]
        simp [eq_comm]
      · rw [Function.update_of_ne hid]
        simp [hid]
  rw [clauses_eq, clauses_eq, hlist, List.map_append]
  rfl

theorem IsFiled.mem_clauses_insertNew (h : s.IsFiled) (c : Clause) (head : Predicate) {d : Clause} :
    d ∈ (s.insertNew c head).clauses ↔ d = c ∨ d ∈ s.clauses := by
  rw [h.clauses_insertNew, List.mem_append, List.mem_singleton, or_comm]

theorem IsFiled.insertNew (h : s.IsFiled) (hnew : s.idOf[c]? = none)
    (hhead : c.headPredicate = some head) : (s.insertNew c head).IsFiled := by
  have hnext : s.filing s.nextId = none := h.unused _ (Nat.le_refl _)
  refine ⟨fun d id => ?_, fun id hid => ?_, fun id d hd => ?_, fun sig => ?_⟩
  · rw [filing_insertNew, Store.insertNew, Std.HashMap.getElem?_insert]
    by_cases hd : c = d
    · rw [if_pos (by simp [hd])]
      by_cases hid : id = s.nextId
      · simp [hid, hd]
      · rw [Function.update_of_ne hid, ← h.numbered, ← hd, hnew]
        simpa using Ne.symm hid
    · rw [if_neg (by simp [hd]), h.numbered]
      by_cases hid : id = s.nextId
      · simp [hid, hd, hnext]
      · rw [Function.update_of_ne hid]
  · have hid : s.nextId + 1 ≤ id := hid
    rw [filing_insertNew, Function.update_of_ne (by omega)]
    exact h.unused id (by omega)
  · rw [filing_insertNew] at hd
    by_cases hid : id = s.nextId
    · rw [hid, Function.update_self] at hd
      rw [← Option.some.inj hd, hhead]
      rfl
    · rw [Function.update_of_ne hid] at hd
      exact h.headed id d hd
  · rw [filing_insertNew, Store.insertNew, Std.HashMap.getElem?_insert]
    by_cases hsig : head.signature = sig
    · have hargs : c.headArgs sig = some head.args := Clause.headArgs_eq_some.2 ⟨head, hhead, hsig, rfl⟩
      have hnone : (s.filing.through (Clause.headArgs sig)) s.nextId = none := by
        rw [Filing.through, hnext]
        rfl
      have hwidth : head.args.length = sig.arity := by
        rw [← hsig]
        rfl
      have hold := (h.indexed sig).getD
      rw [if_pos (by simp [hsig]), Filing.through_update, Option.bind_some, hargs, hsig,
        Std.HashMap.getD_eq_getD_getElem?]
      have harity : head.arity = sig.arity := hwidth
      rw [harity]
      exact .present (hold.insert hnone hwidth fun t _ ix m hix hid => hix.insert hid)
    · rw [if_neg (by simp [hsig]), Filing.through_update_of_eq]
      · exact h.indexed sig
      · rw [hnext, Option.bind_none, Option.bind_some]
        refine (Option.eq_none_iff_forall_not_mem.2 fun ts hts => hsig ?_).symm
        obtain ⟨p, hp, hpsig, -⟩ := Clause.headArgs_eq_some.1 hts
        rw [hhead] at hp
        rw [Option.some.inj hp, hpsig]

theorem tryAdd_of_ok {isNew : Bool} {t : Store} (h : s.add c = .ok (isNew, t)) :
    s.tryAdd c = (.ok isNew, t) := by
  rw [add] at h
  cases htry : s.tryAdd c with
  | mk answer u =>
    rw [htry] at h
    obtain ⟨isNew', hanswer, hpair⟩ := exists_of_map_eq_ok h
    obtain ⟨rfl, rfl⟩ := Prod.mk.inj hpair
    exact congrArg (·, u) hanswer

/-- A clause that is refused changes nothing. -/
theorem tryAdd_of_error {why : Failure} (h : s.add c = .error why) :
    s.tryAdd c = (.error why, s) := by
  unfold add tryAdd at h
  unfold tryAdd
  cases hhead : c.headPredicate with
  | none =>
    rw [hhead] at h
    exact congrArg (·, s) (congrArg Except.error (Except.error.inj h))
  | some head =>
    rw [hhead] at h
    dsimp only at h ⊢
    by_cases hplaced : hasPlaceholders c
    · rw [if_pos hplaced] at h ⊢
      exact congrArg (·, s) (congrArg Except.error (Except.error.inj h))
    · rw [if_neg hplaced] at h
      split at h <;> cases h

/-- Adding a clause leaves a store as it is or puts the clause in as a new one. -/
theorem add_cases {isNew : Bool} {t : Store} (h : s.add c = .ok (isNew, t)) :
    ∃ head, c.headPredicate = some head ∧ hasPlaceholders c = false ∧
      (s.contains c = true ∧ t = s ∨ s.contains c = false ∧ t = s.insertNew c head) := by
  have h := tryAdd_of_ok h
  unfold tryAdd at h
  split at h
  · cases h
  · rename_i head hhead
    split at h
    · cases h
    · rename_i hplain
      refine ⟨head, hhead, by simpa using hplain, ?_⟩
      split at h
      · rename_i hold
        obtain ⟨-, rfl⟩ := Prod.mk.inj h
        exact .inl ⟨hold, rfl⟩
      · rename_i hnew
        obtain ⟨-, rfl⟩ := Prod.mk.inj h
        exact .inr ⟨by simpa using hnew, rfl⟩

theorem IsFiled.contains_iff (h : s.IsFiled) : s.contains c = true ↔ c ∈ s.clauses := by
  rw [contains, Std.HashMap.contains_eq_isSome_getElem?, Option.isSome_iff_exists, mem_clauses]
  exact exists_congr fun id => h.numbered c id

theorem IsFiled.add (h : s.IsFiled) {isNew : Bool} {t : Store} (ht : s.add c = .ok (isNew, t)) :
    t.IsFiled := by
  obtain ⟨head, hhead, -, ⟨-, rfl⟩ | ⟨hnew, rfl⟩⟩ := add_cases ht
  · exact h
  · refine h.insertNew ?_ hhead
    rw [contains, Std.HashMap.contains_eq_isSome_getElem?] at hnew
    simpa using hnew

theorem IsFiled.mem_clauses_add (h : s.IsFiled) {isNew : Bool} {t : Store}
    (ht : s.add c = .ok (isNew, t)) {d : Clause} : d ∈ t.clauses ↔ d = c ∨ d ∈ s.clauses := by
  obtain ⟨head, -, -, ⟨hold, rfl⟩ | ⟨-, rfl⟩⟩ := add_cases ht
  · refine (or_iff_right_of_imp fun heq => ?_).symm
    rw [heq]
    exact h.contains_iff.1 hold
  · exact h.mem_clauses_insertNew c head

/-- Adding several clauses adds each of them. -/
theorem IsFiled.addAll {s t : Store} (h : s.IsFiled) {cs : List Clause} (ht : s.addAll cs = .ok t) :
    t.IsFiled ∧ ∀ d, d ∈ t.clauses ↔ d ∈ cs ∨ d ∈ s.clauses := by
  induction cs generalizing s with
  | nil =>
    obtain rfl := Except.ok.inj ht
    exact ⟨h, fun d => by simp⟩
  | cons c cs ih =>
    rw [Store.addAll, List.foldlM_cons] at ht
    obtain ⟨u, hu, ht⟩ := exists_of_bind_eq_ok ht
    obtain ⟨⟨isNew, u⟩, hadd, rfl⟩ := exists_of_map_eq_ok hu
    obtain ⟨hfiled, hmem⟩ := ih (h.add hadd) ht
    refine ⟨hfiled, fun d => ?_⟩
    rw [hmem, h.mem_clauses_add hadd, List.mem_cons, or_left_comm, or_assoc]

/-- An added clause comes last, unless it is there. -/
theorem IsFiled.clauses_add (h : s.IsFiled) {isNew : Bool} {t : Store}
    (ht : s.add c = .ok (isNew, t)) :
    c ∈ s.clauses ∧ t = s ∨ c ∉ s.clauses ∧ t.clauses = s.clauses ++ [c] := by
  obtain ⟨head, -, -, ⟨hold, rfl⟩ | ⟨hnew, rfl⟩⟩ := add_cases ht
  · exact .inl ⟨h.contains_iff.1 hold, rfl⟩
  · refine .inr ⟨fun hmem => ?_, h.clauses_insertNew c head⟩
    rw [h.contains_iff.2 hmem] at hnew
    cases hnew

theorem exists_add (s : Store) {c : Clause} (hhead : c.headPredicate.isSome = true)
    (hplain : hasPlaceholders c = false) : ∃ r, s.add c = .ok r := by
  obtain ⟨head, hhead⟩ := Option.isSome_iff_exists.1 hhead
  unfold add tryAdd
  rw [hhead, hplain]
  cases s.contains c <;> exact ⟨_, rfl⟩

/-- Clauses with plain predicates as heads can be added. -/
theorem exists_addAll (s : Store) {cs : List Clause}
    (h : ∀ c ∈ cs, c.headPredicate.isSome = true ∧ hasPlaceholders c = false) :
    ∃ t, s.addAll cs = .ok t := by
  induction cs generalizing s with
  | nil => exact ⟨s, rfl⟩
  | cons c cs ih =>
    obtain ⟨⟨hhead, hplain⟩, hrest⟩ := List.forall_mem_cons.1 h
    obtain ⟨r, hr⟩ := s.exists_add hhead hplain
    obtain ⟨t, ht⟩ := ih r.2 hrest
    refine ⟨t, ?_⟩
    rw [addAll, List.foldlM_cons, hr]
    exact ht

theorem filing_erase (id : Nat) {t : Store} (ht : t.clauseOf = s.clauseOf.erase id) :
    t.filing = Function.update s.filing id none := by
  funext i
  rw [filing, ht, Std.TreeMap.getElem?_erase]
  by_cases hi : i = id
  · rw [hi, Function.update_self, if_pos (by simp)]
  · rw [Function.update_of_ne hi, if_neg (by simpa using Ne.symm hi)]
    rfl

theorem unfile_other {id : Nat} {sig : Signature} (hsig : head.signature ≠ sig) :
    (s.unfile id head)[sig]? = s.index[sig]? := by
  unfold unfile
  split
  · rfl
  · dsimp only
    split
    · rw [Std.HashMap.getElem?_erase, if_neg (by simp [hsig])]
    · rw [Std.HashMap.getElem?_insert, if_neg (by simp [hsig])]

/-- Taking the head out leaves the index of its signature without the number. -/
theorem IsFiled.unfile (h : s.IsFiled) {id : Nat} (hid : s.filing id = some c)
    (hhead : c.headPredicate = some head) :
    FunctorIndex.Entry (s.unfile id head)[head.signature]? head.signature.arity
      (Function.update (s.filing.through (Clause.headArgs head.signature)) id none) := by
  have hargs : (s.filing.through (Clause.headArgs head.signature)) id = some head.args := by
    rw [Filing.through, hid]
    exact Clause.headArgs_eq_some.2 ⟨head, hhead, rfl, rfl⟩
  obtain ⟨b, hb, hfiles⟩ := (h.indexed head.signature).files hargs
  have hleft := hfiles.remove hargs fun t _ ix m hix hid => hix.remove hid
  rw [Store.unfile, hb]
  dsimp only
  split
  · rename_i hempty
    rw [Std.HashMap.getElem?_erase, if_pos (by simp)]
    exact .of_isEmpty hleft hempty
  · rw [Std.HashMap.getElem?_insert, if_pos (by simp)]
    exact .present hleft

theorem IsFiled.remove (h : s.IsFiled) (c : Clause) : (s.remove c).2.IsFiled := by
  unfold Store.remove
  split
  · exact h
  · rename_i id hid
    have hfiled : s.filing id = some c := (h.numbered c id).1 hid
    refine ⟨fun d i => ?_, fun i hi => ?_, fun i d hd => ?_, fun sig => ?_⟩
    all_goals rw [filing_erase id rfl] at *
    · rw [Std.HashMap.getElem?_erase]
      by_cases hd : c = d
      · rw [if_pos (by simp [hd])]
        by_cases hi : i = id
        · simp [hi]
        · rw [Function.update_of_ne hi, ← h.numbered, ← hd, hid]
          simpa using Ne.symm hi
      · rw [if_neg (by simp [hd]), h.numbered]
        by_cases hi : i = id
        · simp [hi, hfiled, hd]
        · rw [Function.update_of_ne hi]
    · by_cases hid : i = id
      · rw [hid, Function.update_self]
      · rw [Function.update_of_ne hid]
        exact h.unused i hi
    · by_cases hid : i = id
      · rw [hid, Function.update_self] at hd
        cases hd
      · rw [Function.update_of_ne hid] at hd
        exact h.headed i d hd
    · obtain ⟨head, hhead⟩ := Option.isSome_iff_exists.1 (h.headed id c hfiled)
      rw [hhead]
      dsimp only
      by_cases hsig : head.signature = sig
      · rw [Filing.through_update, Option.bind_none, ← hsig]
        exact h.unfile hfiled hhead
      · rw [unfile_other hsig, Filing.through_update_of_eq]
        · exact h.indexed sig
        · rw [hfiled]
          refine Option.eq_none_iff_forall_not_mem.2 fun ts hts => hsig ?_
          obtain ⟨p, hp, hpsig, -⟩ := Clause.headArgs_eq_some.1 hts
          rw [hhead] at hp
          rw [Option.some.inj hp, hpsig]

end

theorem contains_empty (c : Clause) : empty.contains c = false := by
  simp [contains, empty]

theorem clauses_empty : empty.clauses = [] := by
  refine List.eq_nil_iff_forall_not_mem.2 fun c hc => ?_
  obtain ⟨id, hid⟩ := mem_clauses.1 hc
  rw [filing_empty] at hid
  cases hid

theorem add_of_not_contains {s : Store} {c : Clause} {head : Predicate}
    (hhead : c.headPredicate = some head) (hplain : hasPlaceholders c = false)
    (hnew : s.contains c = false) : s.add c = .ok (true, s.insertNew c head) := by
  rw [add, tryAdd, hhead]
  dsimp only
  rw [if_neg (by simp [hplain]), if_neg (by simp [hnew])]
  rfl

theorem ofClauses_singleton (c : Clause) : ofClauses [c] = (empty.add c).map Prod.snd := by
  rw [ofClauses, addAll, List.foldlM_cons]
  cases empty.add c <;> rfl

/-- A store that its clauses give when they are added in their order. -/
def IsReplayed (s : Store) : Prop := ofClauses s.clauses = .ok s

theorem isReplayed_empty : empty.IsReplayed := by
  rw [IsReplayed, clauses_empty]
  rfl

theorem IsReplayed.add {s t : Store} {c : Clause} {isNew : Bool} (h : s.IsReplayed) (hs : s.IsFiled)
    (ht : s.add c = .ok (isNew, t)) : t.IsReplayed := by
  obtain ⟨head, hhead, hplain, ⟨-, rfl⟩ | ⟨hnew, rfl⟩⟩ := add_cases ht
  · exact h
  · rw [IsReplayed, hs.clauses_insertNew, ofClauses, addAll, List.foldlM_append]
    have hs : List.foldlM (fun s c => (s.add c).map Prod.snd) empty s.clauses = .ok s := h
    rw [hs]
    show (s.add c).map Prod.snd >>= pure = _
    rw [add_of_not_contains hhead hplain hnew]
    rfl

/-- What adding and removing clauses make of the empty store. -/
inductive Reachable : Store → Prop where
  | empty : Reachable Store.empty
  | add {s t : Store} {c : Clause} {isNew : Bool} :
    Reachable s → s.add c = .ok (isNew, t) → Reachable t
  | remove {s : Store} (c : Clause) : Reachable s → Reachable (s.remove c).2

theorem Reachable.isFiled {s : Store} (h : s.Reachable) : s.IsFiled := by
  induction h with
  | empty => exact isFiled_empty
  | add _ h ih => exact ih.add h
  | remove c _ ih => exact ih.remove c

/-! ## What a lookup gives -/

/-- A call's numbers in the index are those of the clauses whose heads agree in shape with it. -/
theorem IsFiled.selects {s : Store} (h : s.IsFiled) (q : Predicate) :
    s.filing.Selects (fun c => c.headPredicate.any (·.agrees q) = true)
      (s.index[q.signature]?.elim ∅ fun b => b.agreeing q.args) := by
  have harity : q.args.length = q.signature.arity := rfl
  have hselect := ((h.indexed q.signature).agreeing harity
    fun q _ ix m hix ids hids => hix.agreeing hids).of_through
  refine hselect.congr fun d => ?_
  simp only [Clause.headArgs_eq_some, Option.any_eq_true, Predicate.agrees, Bool.and_eq_true,
    beq_iff_eq]
  constructor
  · rintro ⟨_, ⟨p, hp, hsig, rfl⟩, hargs⟩
    exact ⟨p, hp, congrArg Signature.name hsig, hargs⟩
  · rintro ⟨p, hp, hname, hargs⟩
    refine ⟨p.args, ⟨p, hp, ?_, rfl⟩, hargs⟩
    rw [Predicate.signature, hname, (Term.agreesAll_iff.1 hargs).1]
    rfl

/-- The candidates are the clauses whose heads agree in shape with the call, in their order. -/
theorem IsFiled.candidates_eq {s : Store} (h : s.IsFiled) (q : Predicate) :
    s.candidates q = s.clauses.filter fun c => c.headPredicate.any (·.agrees q) := by
  generalize hids : (s.index[q.signature]?.elim ∅ fun b => b.agreeing q.args : IdSet) = ids
  have hselect := h.selects q
  rw [hids] at hselect
  let entry (id : Nat) : Option (Nat × Clause) := s.clauseOf[id]?.map (id, ·)
  let entries := ids.toList.filterMap entry
  have hfound : s.candidates q = entries.map Prod.snd := by
    have hsnd : (fun id => (entry id).map Prod.snd) = fun id => s.clauseOf[id]? := by
      funext id
      rw [Option.map_map]
      exact Option.map_id'
    rw [List.map_filterMap, hsnd, candidates, ← hids]
    cases s.index[q.signature]? <;> rfl
  have hsorted : entries.Pairwise fun e e' => e.1 < e'.1 := by
    refine List.Pairwise.filterMap _ (fun i j hij e he e' he' => ?_) Std.TreeSet.ordered_toList
    obtain ⟨c, -, rfl⟩ := Option.map_eq_some_iff.1 he
    obtain ⟨d, -, rfl⟩ := Option.map_eq_some_iff.1 he'
    exact Nat.compare_eq_lt.1 hij
  have hentries : entries = s.clauseOf.toList.filter fun e => e.2.headPredicate.any (·.agrees q) := by
    refine eq_of_ordered hsorted (s.ordered_entries.filter _) fun ⟨id, c⟩ => ?_
    rw [List.mem_filter, mem_entries, List.mem_filterMap]
    constructor
    · rintro ⟨i, hi, hic⟩
      obtain ⟨d, hd, heq⟩ := Option.map_eq_some_iff.1 hic
      obtain ⟨rfl, rfl⟩ := Prod.mk.inj heq
      obtain ⟨x, hx, hagree⟩ := (hselect i).1 (Std.TreeSet.mem_toList.1 hi)
      obtain rfl := Option.some.inj (hx.symm.trans hd)
      exact ⟨hd, hagree⟩
    · rintro ⟨hid, hagree⟩
      refine ⟨id, Std.TreeSet.mem_toList.2 ((hselect id).2 ⟨c, hid, hagree⟩), ?_⟩
      exact Option.map_eq_some_iff.2 ⟨c, hid, rfl⟩
  rw [hfound, hentries, clauses_eq, List.filter_map]
  rfl

theorem IsFiled.mem_candidates {s : Store} (h : s.IsFiled) {q : Predicate} {c : Clause} :
    c ∈ s.candidates q ↔
      c ∈ s.clauses ∧ ∃ p, c.headPredicate = some p ∧ p.agrees q = true := by
  rw [h.candidates_eq, List.mem_filter, Option.any_eq_true]

end Store

/-! ## Unifiable heads -/

/-- Normal terms with a common instance are of one kind when neither is a variable. -/
theorem Term.ctorIdx_eq_of_apply_eq {θ η : Valuation} {t q : Term} (ht : t.isNormal = true)
    (hq : q.isNormal = true) (hvar : t.asVar = none) (hqvar : q.asVar = none)
    (h : θ.apply t = η.apply q) : t.ctorIdx = q.ctorIdx := by
  have hne : ∀ {u : Term}, u.asVar = none → ∀ v, u ≠ .var v := by
    rintro u hu v rfl
    cases hu
  rw [← Substitution.ctorIdx_apply (θ := θ) (hne hvar) ht, h]
  exact Substitution.ctorIdx_apply (hne hqvar) hq

/-- Terms with the same instances agree in shape when each of them does. -/
theorem Term.agreesAll_of_map_eq {θ η : Valuation} {ts qs : List Term}
    (h : ts.map θ.apply = qs.map η.apply)
    (hall : ∀ t ∈ ts, ∀ q ∈ qs, θ.apply t = η.apply q → t.agrees q = true) :
    agreesAll ts qs = true := by
  refine agreesAll_iff.2 ⟨by simpa using congrArg List.length h, fun i t q ht hq => ?_⟩
  refine hall t (List.mem_of_getElem? ht) q (List.mem_of_getElem? hq) ?_
  simpa [ht, hq] using congrArg (fun us : List Term => us[i]?) h

/-- Normal terms with a common instance agree in shape. -/
theorem Term.agrees_of_apply_eq {θ η : Valuation} {t q : Term} (ht : t.isNormal = true)
    (hq : q.isNormal = true) (h : θ.apply t = η.apply q) : t.agrees q = true := by
  induction t using Term.induct generalizing q with
  | var v => rfl
  | const c =>
    cases q with
    | var w => rfl
    | const d =>
      obtain rfl : c = d := Term.const.inj h
      simp [agrees]
    | _ => cases ctorIdx_eq_of_apply_eq ht hq rfl rfl h
  | placeholder p =>
    cases q <;> first | rfl | cases ctorIdx_eq_of_apply_eq ht hq rfl rfl h
  | list items tail _ _ =>
    cases q <;> first | rfl | cases ctorIdx_eq_of_apply_eq ht hq rfl rfl h
  | compound f args ih =>
    cases q with
    | var w => rfl
    | compound g qs =>
      have hinst : Term.compound f (args.map θ.apply) = Term.compound g (qs.map η.apply) := by
        have h : instantiate θ.value (Term.compound f args) =
          instantiate η.value (Term.compound g qs) := h
        rwa [instantiate_compound, instantiate_compound] at h
      obtain ⟨rfl, hargs⟩ := Term.compound.inj hinst
      rw [agrees, beq_self_eq_true, Bool.true_and]
      exact agreesAll_of_map_eq hargs fun x hx y hy hxy =>
        ih x hx (isNormal_args ht hx) (isNormal_args hq hy) hxy
    | _ => cases ctorIdx_eq_of_apply_eq ht hq rfl rfl h

theorem Predicate.agrees_of_apply_eq {θ η : Valuation} {p q : Predicate} (hp : Normal p)
    (hq : Normal q) (h : θ.apply p = η.apply q) : p.agrees q = true := by
  obtain ⟨hname, hargs⟩ := Predicate.mk.inj h
  have hname : p.name = q.name := hname
  rw [agrees, hname, beq_self_eq_true, Bool.true_and]
  exact Term.agreesAll_of_map_eq hargs fun t ht u hu htu =>
    Term.agrees_of_apply_eq (isNormal_args hp ht) (isNormal_args hq hu) htu

namespace Clause

variable {c : Clause} {p : Predicate}

theorem headPredicate_eq_some : c.headPredicate = some p ↔ c.head = some (.predicate p) := by
  rw [headPredicate, Option.bind_eq_some_iff]
  constructor
  · rintro ⟨a, ha, hp⟩
    cases a with
    | predicate q => rw [ha, Option.some.inj hp]
    | compare d => cases hp
  · exact fun h => ⟨_, h, rfl⟩

theorem normal_headPredicate (hc : Normal c) (h : c.headPredicate = some p) : Normal p := by
  intro t ht
  refine hc t ?_
  rw [subterms_eq, headPredicate_eq_some.1 h]
  exact List.mem_append_left _ ht

theorem headPredicate_instantiate (θ : Var → Term) :
    (instantiate θ c).headPredicate = c.headPredicate.map (instantiate θ) := by
  obtain ⟨head, body⟩ := c
  cases head with
  | none => rfl
  | some a => cases a <;> rfl

end Clause

namespace Store

section

variable {s : Store} {c : Clause} {p q : Predicate} {θ η : Valuation}

/-- A stored clause is a candidate for every call of which its head has an instance. -/
theorem IsFiled.mem_candidates_of_instance (h : s.IsFiled) (hc : c ∈ s.clauses) (hn : Normal c)
    (hq : Normal q) (hhead : c.headPredicate = some p) (heq : θ.apply p = η.apply q) :
    c ∈ s.candidates q :=
  h.mem_candidates.2
    ⟨hc, p, hhead, Predicate.agrees_of_apply_eq (Clause.normal_headPredicate hn hhead) hq heq⟩

/-- The index never drops a match: a stored clause whose head, renamed apart, unifies with a call is
among the candidates for it. -/
theorem mem_candidates_of_unify (hs : s.Reachable) (hc : c ∈ s.clauses) (hn : Normal c)
    (hq : Normal q) {σ τ : Substitution} (hσ : σ.Reachable) {ρ : Renaming} {head : Predicate}
    (hhead : (σ.rename ρ c).1.headPredicate = some head)
    (hunify : (σ.rename ρ c).2.2.unifyPredicates q head = .ok τ) : c ∈ s.candidates q := by
  have hτ : τ.IsNormal := (hσ.isNormal.congr (Substitution.bindings_rename σ ρ c)).solve hunify
  obtain ⟨-, heq⟩ :=
    (Substitution.respects_of_unifyPredicates hunify).1 (Substitution.valuation_respects hτ)
  let rename := fun v => (((σ.rename ρ c).2.1.lookup v).map Term.var).getD (.var v)
  have hrenamed : (σ.rename ρ c).1 = instantiate rename c :=
    replaceVars_eq_instantiate (fun v => ((σ.rename ρ c).2.1.lookup v).map Term.var) c
  rw [hrenamed, Clause.headPredicate_instantiate] at hhead
  obtain ⟨p, hp, rfl⟩ := Option.map_eq_some_iff.1 hhead
  rw [Valuation.apply_instantiate] at heq
  exact hs.isFiled.mem_candidates_of_instance hc hn hq hp heq.symm

/-- The fact `p(f(a))` is found for the call `p(f(X))`. -/
theorem mem_candidates_of_fact :
    let c := Clause.fact (.predicate ⟨"p", [.compound "f" [.symbol "a"]]⟩)
    ∃ s, Store.empty.add c = .ok (true, s) ∧
      c ∈ s.candidates ⟨"p", [.compound "f" [.var (.named "X")]]⟩ := by
  intro c
  let head : Predicate := ⟨"p", [.compound "f" [.symbol "a"]]⟩
  let call : Predicate := ⟨"p", [.compound "f" [.var (.named "X")]]⟩
  have hadd : Store.empty.add c = .ok (true, Store.empty.insertNew c head) :=
    add_of_not_contains rfl (by decide) (contains_empty c)
  have hc : c ∈ (Store.empty.insertNew c head).clauses :=
    (isFiled_empty.mem_clauses_insertNew c head).2 (.inl rfl)
  have hn : Normal c := by decide
  have hq : Normal call := by decide
  let θ : Valuation :=
    ⟨fun v => if v = .named "X" then .symbol "a" else .var v, fun v => by split <;> rfl⟩
  obtain ⟨τ, hτ⟩ := Substitution.exists_unifyPredicates (p := call) (q := head) (θ := θ)
    Substitution.isNormal_empty hq (Clause.normal_headPredicate hn rfl) (fun _ => rfl) rfl
  exact ⟨_, hadd, mem_candidates_of_unify (.add .empty hadd) hc hn hq .empty (ρ := []) rfl hτ⟩

end

end Store
end Horn
