import Horn.Proofs.NormalForm
import Horn.Store.Index
import Mathlib.Logic.Function.Basic

/-!
What an argument index holds.  An index stands for a filing, which gives each number the term under
which it was filed.  A lookup finds exactly the numbers whose terms agree in shape with the term asked
for; inserting and removing a number change the filing there and nowhere else.
-/

namespace Horn

/-! ## Shapes -/

namespace Term

mutual
/-- Agreement in shape.  A variable agrees with everything, and lists are not told apart. -/
def agrees : Term → Term → Bool
  | .var _, _ => true
  | .const c, t =>
    match t with
    | .var _ => true
    | .const d => c == d
    | _ => false
  | .compound f xs, t =>
    match t with
    | .var _ => true
    | .compound g ys => f == g && agreesAll xs ys
    | _ => false
  | .list _ _, t | .placeholder _, t =>
    match t with
    | .var _ | .list _ _ | .placeholder _ => true
    | _ => false

def agreesAll : List Term → List Term → Bool
  | [], [] => true
  | x :: xs, y :: ys => agrees x y && agreesAll xs ys
  | _, _ => false
end

theorem agreesAll_iff {xs ys : List Term} :
    agreesAll xs ys = true ↔ xs.length = ys.length ∧
      ∀ (i : Nat) (x y : Term), xs[i]? = some x → ys[i]? = some y → x.agrees y = true := by
  induction xs generalizing ys with
  | nil => cases ys <;> simp [agreesAll]
  | cons x xs ih =>
    cases ys with
    | nil => simp [agreesAll]
    | cons y ys =>
      rw [agreesAll, Bool.and_eq_true, ih]
      constructor
      · intro ⟨hxy, hlen, hall⟩
        refine ⟨by simpa using hlen, fun i u v hu hv => ?_⟩
        cases i with
        | zero =>
          obtain rfl : x = u := by simpa using hu
          obtain rfl : y = v := by simpa using hv
          exact hxy
        | succ i => exact hall i u v (by simpa using hu) (by simpa using hv)
      · intro ⟨hlen, hall⟩
        refine ⟨hall 0 x y rfl rfl, by simpa using hlen, fun i u v hu hv => ?_⟩
        exact hall (i + 1) u v (by simpa using hu) (by simpa using hv)

theorem agrees_var (t : Term) (v : Var) : t.agrees (.var v) = true := by
  cases t <;> simp [agrees]

/-- The terms that are filed together without looking inside. -/
def isOpaque : Term → Bool
  | .list _ _ | .placeholder _ => true
  | _ => false

/-- The arguments of a compound term that has the given key. -/
def argsAt (key : Signature) : Term → Option (List Term)
  | .compound f args => if functorKey f args = key then some args else none
  | _ => none

theorem argsAt_eq_some {key : Signature} {t : Term} {args : List Term} :
    t.argsAt key = some args ↔ t = .compound key.name args ∧ args.length = key.arity := by
  cases t with
  | compound f ts =>
    rw [argsAt, Option.ite_none_right_eq_some, functorKey, Term.compound.injEq]
    constructor
    · rintro ⟨rfl, h⟩
      obtain rfl := Option.some.inj h
      exact ⟨⟨rfl, rfl⟩, rfl⟩
    · rintro ⟨⟨rfl, rfl⟩, hlen⟩
      exact ⟨by rw [hlen], rfl⟩
  | _ => simp [argsAt]

end Term

/-! ## Filings -/

theorem mem_insert_iff {ids : IdSet} {id i : Nat} : i ∈ ids.insert id ↔ i = id ∨ i ∈ ids := by
  rw [Std.TreeSet.mem_insert, Nat.compare_eq_eq, eq_comm]

theorem mem_erase_iff {ids : IdSet} {id i : Nat} : i ∈ ids.erase id ↔ i ≠ id ∧ i ∈ ids := by
  rw [Std.TreeSet.mem_erase, ne_eq, Nat.compare_eq_eq, eq_comm]

/-- The term under which each number was filed. -/
abbrev Filing (α : Type) := Nat → Option α

namespace Filing

section

variable {α β : Type} {m : Filing α} {P Q : α → Prop} {ids more : IdSet} {id : Nat} {x : α}

/-- The numbers are those of the terms with a property. -/
def Selects (m : Filing α) (P : α → Prop) (ids : IdSet) : Prop :=
  ∀ i, i ∈ ids ↔ ∃ x, m i = some x ∧ P x

theorem Selects.congr (h : m.Selects P ids) (hPQ : ∀ x, P x ↔ Q x) : m.Selects Q ids :=
  fun i => (h i).trans (exists_congr fun x => and_congr_right fun _ => hPQ x)

theorem Selects.union (h : m.Selects P ids) (h' : m.Selects Q more) :
    m.Selects (fun x => P x ∨ Q x) (ids ∪ more) := by
  intro i
  rw [Std.TreeSet.mem_union_iff, h i, h' i, ← exists_or]
  exact exists_congr fun x => and_or_left.symm

theorem Selects.insert (h : m.Selects P ids) (id : Nat) (hx : P x) :
    Selects (Function.update m id (some x)) P (ids.insert id) := by
  intro i
  rw [mem_insert_iff, h i]
  by_cases hi : i = id
  · simp [hi, hx]
  · rw [Function.update_of_ne hi]
    exact or_iff_right hi

theorem Selects.insert_other (h : m.Selects P ids) (hid : m id = none) (hx : ¬ P x) :
    Selects (Function.update m id (some x)) P ids := by
  intro i
  rw [h i]
  by_cases hi : i = id
  · simp [hi, hid, hx]
  · rw [Function.update_of_ne hi]

theorem Selects.erase (h : m.Selects P ids) (id : Nat) :
    Selects (Function.update m id none) P (ids.erase id) := by
  intro i
  rw [mem_erase_iff, h i]
  by_cases hi : i = id
  · simp [hi]
  · rw [Function.update_of_ne hi]
    exact and_iff_right hi

theorem Selects.erase_other (h : m.Selects P ids) (hid : m id = some x) (hx : ¬ P x) :
    Selects (Function.update m id none) P ids := by
  intro i
  rw [h i]
  by_cases hi : i = id
  · simp [hi, hid, hx]
  · rw [Function.update_of_ne hi]

/-- A filing seen through a part of its terms. -/
def through (m : Filing α) (part : α → Option β) : Filing β := fun i => (m i).bind part

theorem through_update (m : Filing α) (id : Nat) (x : Option α) (part : α → Option β) :
    through (Function.update m id x) part = Function.update (m.through part) id (x.bind part) := by
  funext i
  by_cases hi : i = id
  · rw [hi, through, Function.update_self, Function.update_self]
  · rw [through, Function.update_of_ne hi, Function.update_of_ne hi]
    rfl

theorem through_update_of_eq {x : Option α} {part : α → Option β}
    (h : (m id).bind part = x.bind part) :
    through (Function.update m id x) part = m.through part := by
  rw [through_update, ← h]
  exact Function.update_eq_self id (m.through part)

theorem Selects.of_through {part : α → Option β} {P : β → Prop}
    (h : (m.through part).Selects P ids) :
    m.Selects (fun x => ∃ y, part x = some y ∧ P y) ids := by
  intro i
  rw [h i]
  constructor
  · rintro ⟨y, hy, hP⟩
    obtain ⟨x, hx, hxy⟩ := Option.bind_eq_some_iff.1 hy
    exact ⟨x, hx, y, hxy, hP⟩
  · rintro ⟨x, hx, y, hxy, hP⟩
    exact ⟨y, Option.bind_eq_some_iff.2 ⟨x, hx, hxy⟩, hP⟩

end

end Filing

mutual
/-- The index holds the filing. -/
inductive ArgumentIndex.Files : ArgumentIndex → Filing Term → Prop where
  | intro {ix : ArgumentIndex} {m : Filing Term}
    (vars : m.Selects (fun t => t.asVar.isSome = true) ix.vars)
    (constants : ∀ c, m.Selects (fun t => t = .const c) (ix.constants.getD c ∅))
    (lists : m.Selects (fun t => t.isOpaque = true) ix.lists)
    (nested : ∀ key, FunctorIndex.Entry (ix.nested.lookup key) key.arity
      (m.through (Term.argsAt key))) : ArgumentIndex.Files ix m

/-- Where a functor has no index nothing is filed under it. -/
inductive FunctorIndex.Entry :
    Option (FunctorIndex ArgumentIndex) → Nat → Filing (List Term) → Prop where
  | missing {n : Nat} : FunctorIndex.Entry none n fun _ => none
  | present {b : FunctorIndex ArgumentIndex} {n : Nat} {m : Filing (List Term)}
    (files : FunctorIndex.Files b n m) : FunctorIndex.Entry (some b) n m

/-- The index of a functor holds the arguments, of which there are as many as the functor has. -/
inductive FunctorIndex.Files : FunctorIndex ArgumentIndex → Nat → Filing (List Term) → Prop where
  | intro {b : FunctorIndex ArgumentIndex} {n : Nat} {m : Filing (List Term)}
    (all : m.Selects (fun _ => True) b.all)
    (length : b.args.length = n)
    (width : ∀ id ts, m id = some ts → ts.length = n)
    (args : ∀ (i : Nat) (ix : ArgumentIndex), b.args[i]? = some ix →
      ArgumentIndex.Files ix (m.through fun ts => ts[i]?)) : FunctorIndex.Files b n m
end

section

variable {ix : ArgumentIndex} {m : Filing Term}

theorem ArgumentIndex.Files.vars : ix.Files m → m.Selects (fun t => t.asVar.isSome = true) ix.vars
  | .intro h _ _ _ => h

theorem ArgumentIndex.Files.constants :
    ix.Files m → ∀ c, m.Selects (fun t => t = .const c) (ix.constants.getD c ∅)
  | .intro _ h _ _ => h

theorem ArgumentIndex.Files.lists : ix.Files m → m.Selects (fun t => t.isOpaque = true) ix.lists
  | .intro _ _ h _ => h

theorem ArgumentIndex.Files.nested :
    ix.Files m → ∀ key,
      FunctorIndex.Entry (ix.nested.lookup key) key.arity (m.through (Term.argsAt key))
  | .intro _ _ _ h => h

end

section

variable {b : FunctorIndex ArgumentIndex} {n : Nat} {m : Filing (List Term)}

theorem FunctorIndex.Files.all : b.Files n m → m.Selects (fun _ => True) b.all
  | .intro h _ _ _ => h

theorem FunctorIndex.Files.length : b.Files n m → b.args.length = n
  | .intro _ h _ _ => h

theorem FunctorIndex.Files.width : b.Files n m → ∀ {id ts}, m id = some ts → ts.length = n
  | .intro _ _ h _, id, ts => h id ts

theorem FunctorIndex.Files.args : b.Files n m → ∀ {i : Nat} {ix : ArgumentIndex},
    b.args[i]? = some ix → ix.Files (m.through fun ts => ts[i]?)
  | .intro _ _ _ h, i, ix => h i ix

end

theorem ArgumentIndex.files_empty : ArgumentIndex.empty.Files fun _ => none := by
  refine .intro (fun i => ?_) (fun c i => ?_) (fun i => ?_) fun _ => .missing
  · simp [empty]
  · simp [empty]
  · simp [empty]

namespace FunctorIndex

theorem files_empty (n : Nat) : (empty n).Files n fun _ => none := by
  refine .intro (fun i => ?_) (by simp [empty]) nofun fun i ix h => ?_
  · simp [empty]
  · obtain ⟨-, rfl⟩ : i < n ∧ ArgumentIndex.empty = ix := by
      simpa [empty, List.getElem?_replicate] using h
    exact ArgumentIndex.files_empty

theorem Entry.getD {o : Option (FunctorIndex ArgumentIndex)} {n : Nat} {m : Filing (List Term)}
    (h : Entry o n m) : (o.getD (empty n)).Files n m := by
  cases h with
  | missing => exact files_empty n
  | present h => exact h

theorem Entry.files {o : Option (FunctorIndex ArgumentIndex)} {n : Nat} {m : Filing (List Term)}
    (h : Entry o n m) {id : Nat} {ts : List Term} (hid : m id = some ts) :
    ∃ b, o = some b ∧ b.Files n m := by
  cases h with
  | missing => cases hid
  | present h => exact ⟨_, rfl, h⟩

/-- An index without numbers is as good as none. -/
theorem Entry.of_isEmpty {b : FunctorIndex ArgumentIndex} {n : Nat} {m : Filing (List Term)}
    (h : b.Files n m) (hempty : b.all.isEmpty = true) : Entry none n m := by
  have hnone : m = fun _ => none := by
    funext i
    refine Option.eq_none_iff_forall_not_mem.2 fun ts hts => ?_
    exact Std.TreeSet.not_mem_of_isEmpty hempty ((h.all i).2 ⟨ts, hts, trivial⟩)
  rw [hnone]
  exact .missing

end FunctorIndex

/-! ## Looking up -/

namespace ArgumentIndex

theorem agreeing_eq_none {ix : ArgumentIndex} {q : Term} (h : agreeing ix q = none) :
    ∃ v, q = .var v := by
  cases q with
  | var v => exact ⟨v, rfl⟩
  | compound f args =>
    rw [agreeing] at h
    split at h <;> cases h
  | _ => simp [agreeing] at h

theorem mem_narrow {id : Nat} {ids : IdSet} {ixs : List ArgumentIndex} {qs : List Term} :
    id ∈ narrow ids ixs qs ↔ id ∈ ids ∧ ∀ (i : Nat) (ix : ArgumentIndex) (q : Term),
      ixs[i]? = some ix → qs[i]? = some q → ∀ found, agreeing ix q = some found → id ∈ found := by
  induction ixs generalizing ids qs with
  | nil => simp [narrow]
  | cons ix ixs ih =>
    cases qs with
    | nil => simp [narrow]
    | cons q qs =>
      have hcons : (∀ (i : Nat) (ix' : ArgumentIndex) (q' : Term), (ix :: ixs)[i]? = some ix' →
            (q :: qs)[i]? = some q' → ∀ found, agreeing ix' q' = some found → id ∈ found) ↔
          (∀ found, agreeing ix q = some found → id ∈ found) ∧
            ∀ (i : Nat) (ix' : ArgumentIndex) (q' : Term), ixs[i]? = some ix' →
              qs[i]? = some q' → ∀ found, agreeing ix' q' = some found → id ∈ found := by
        constructor
        · intro h
          exact ⟨h 0 ix q rfl rfl, fun i ix' q' hix hq => h (i + 1) ix' q' (by simpa using hix)
            (by simpa using hq)⟩
        · intro ⟨hfirst, hrest⟩ i ix' q' hix hq
          cases i with
          | zero =>
            obtain rfl : ix = ix' := by simpa using hix
            obtain rfl : q = q' := by simpa using hq
            exact hfirst
          | succ i => exact hrest i ix' q' (by simpa using hix) (by simpa using hq)
      rw [hcons, narrow]
      cases h : agreeing ix q with
      | none =>
        dsimp only
        rw [ih]
        simp
      | some found =>
        dsimp only
        rw [ih, Std.TreeSet.mem_inter_iff, and_assoc]
        simp

end ArgumentIndex

/-- A lookup by arguments is right where the lookup by each of them is. -/
theorem FunctorIndex.Files.agreeing {b : FunctorIndex ArgumentIndex} {n : Nat}
    {m : Filing (List Term)} (h : b.Files n m) {qs : List Term} (hlen : qs.length = n)
    (hqs : ∀ q ∈ qs, ∀ (ix : ArgumentIndex) (m : Filing Term), ix.Files m → ∀ ids,
      ix.agreeing q = some ids → m.Selects (fun t => t.agrees q = true) ids) :
    m.Selects (fun ts => Term.agreesAll ts qs = true) (b.agreeing qs) := by
  intro id
  rw [FunctorIndex.agreeing, ArgumentIndex.mem_narrow, h.all id]
  constructor
  · intro ⟨⟨ts, hts, _⟩, hfound⟩
    refine ⟨ts, hts, Term.agreesAll_iff.2 ⟨(h.width hts).trans hlen.symm, ?_⟩⟩
    intro i t q ht hq
    have hi : i < b.args.length := by
      have := (List.getElem?_eq_some_iff.1 hq).1
      have := h.length
      omega
    have hix := List.getElem?_eq_getElem hi
    cases hag : ArgumentIndex.agreeing b.args[i] q with
    | none =>
      obtain ⟨v, rfl⟩ := ArgumentIndex.agreeing_eq_none hag
      exact t.agrees_var v
    | some ids =>
      have hselect := hqs q (List.mem_of_getElem? hq) _ _ (h.args hix) ids hag
      obtain ⟨u, hu, hagree⟩ := (hselect id).1 (hfound i _ q hix hq ids hag)
      obtain rfl : t = u := by simpa [Filing.through, hts, ht] using hu
      exact hagree
  · intro ⟨ts, hts, hagree⟩
    obtain ⟨-, hall⟩ := Term.agreesAll_iff.1 hagree
    refine ⟨⟨ts, hts, trivial⟩, fun i ix q hix hq ids hag => ?_⟩
    have hi : i < ts.length := by
      have := (List.getElem?_eq_some_iff.1 hq).1
      have := h.width hts
      omega
    have ht := List.getElem?_eq_getElem hi
    have hselect := hqs q (List.mem_of_getElem? hq) ix _ (h.args hix) ids hag
    refine (hselect id).2 ⟨ts[i], ?_, hall i _ q ht hq⟩
    rw [Filing.through, hts]
    exact ht

theorem FunctorIndex.Entry.agreeing {o : Option (FunctorIndex ArgumentIndex)} {n : Nat}
    {m : Filing (List Term)} (h : Entry o n m) {qs : List Term} (hlen : qs.length = n)
    (hqs : ∀ q ∈ qs, ∀ (ix : ArgumentIndex) (m : Filing Term), ix.Files m → ∀ ids,
      ix.agreeing q = some ids → m.Selects (fun t => t.agrees q = true) ids) :
    m.Selects (fun ts => Term.agreesAll ts qs = true) (o.elim ∅ fun b => b.agreeing qs) := by
  cases h with
  | missing => exact fun i => by simp
  | present h => exact h.agreeing hlen hqs

namespace ArgumentIndex

theorem Files.agreeing_opaque {q : Term} {ix : ArgumentIndex} {m : Filing Term} (h : ix.Files m)
    (hshape : q.isOpaque = true) {ids : IdSet} (hq : ix.agreeing q = some ids) :
    m.Selects (fun t => t.agrees q = true) ids := by
  have hids : ids = ix.vars ∪ ix.lists := by
    cases q <;> simp_all [ArgumentIndex.agreeing, Term.isOpaque]
  rw [hids]
  refine (h.vars.union h.lists).congr fun t => ?_
  cases q <;> cases t <;> simp_all [Term.agrees, Term.isOpaque, Term.asVar]

/-- A lookup finds the numbers whose terms agree in shape with the term asked for. -/
theorem Files.agreeing {q : Term} {ix : ArgumentIndex} {m : Filing Term} (h : ix.Files m)
    {ids : IdSet} (hq : ix.agreeing q = some ids) :
    m.Selects (fun t => t.agrees q = true) ids := by
  induction q using Term.induct generalizing ix m ids with
  | var v => simp [ArgumentIndex.agreeing] at hq
  | const c =>
    obtain rfl : ix.vars ∪ ix.constants.getD c ∅ = ids := by
      simpa [ArgumentIndex.agreeing] using hq
    refine (h.vars.union (h.constants c)).congr fun t => ?_
    cases t <;> simp [Term.agrees, Term.asVar]
  | list items tail _ _ => exact h.agreeing_opaque rfl hq
  | placeholder p => exact h.agreeing_opaque rfl hq
  | compound f args ih =>
    have hagrees : ∀ t : Term, (t.asVar.isSome = true ∨ ∃ ts, t.argsAt (functorKey f args) = some ts ∧
        Term.agreesAll ts args = true) ↔ t.agrees (.compound f args) = true := by
      intro t
      simp only [Term.argsAt_eq_some]
      cases t with
      | compound g ts =>
        have hlen : Term.agreesAll ts args = true → ts.length = args.length :=
          fun hall => (Term.agreesAll_iff.1 hall).1
        simp only [Term.asVar, Term.agrees, functorKey, Bool.and_eq_true, beq_iff_eq,
          Term.compound.injEq]
        constructor
        · rintro (h | ⟨_, ⟨⟨rfl, rfl⟩, _⟩, hall⟩)
          · cases h
          · exact ⟨rfl, hall⟩
        · rintro ⟨rfl, hall⟩
          exact .inr ⟨ts, ⟨⟨rfl, rfl⟩, hlen hall⟩, hall⟩
      | _ => simp [Term.agrees, Term.asVar]
    have hfound : (m.through (Term.argsAt (functorKey f args))).Selects
        (fun ts => Term.agreesAll ts args = true)
        ((ix.nested.lookup (functorKey f args)).elim ∅ fun b => b.agreeing args) :=
      (h.nested (functorKey f args)).agreeing rfl fun q hq ix m h ids hids => ih q hq h hids
    have hunion := (h.vars.union hfound.of_through).congr hagrees
    rw [ArgumentIndex.agreeing] at hq
    split at hq
    · rename_i hkey
      obtain rfl := Option.some.inj hq
      rw [hkey] at hunion
      intro i
      rw [← hunion i, Std.TreeSet.mem_union_iff]
      simp
    · rename_i b hkey
      obtain rfl := Option.some.inj hq
      rw [hkey] at hunion
      exact hunion

end ArgumentIndex

/-! ## Changing -/

section

variable {κ ν : Type} [BEq κ] [LawfulBEq κ]

theorem lookup_unassign (key k : κ) (entries : List (κ × ν)) :
    (unassign key entries).lookup k = if k == key then none else entries.lookup k := by
  unfold unassign
  induction entries with
  | nil => simp
  | cons e entries ih =>
    rw [List.filter_cons, List.lookup_cons]
    by_cases he : e.1 = key
    · rw [if_neg (by simp [he]), ih, he]
      cases k == key <;> rfl
    · rw [if_pos (by simp [he]), List.lookup_cons, ih]
      by_cases hk : k = e.1
      · simp [hk, he]
      · rw [beq_false_of_ne hk]

theorem lookup_assign (key k : κ) (value : ν) (entries : List (κ × ν)) :
    (assign key value entries).lookup k = if k == key then some value else entries.lookup k := by
  have h := lookup_unassign key k entries
  unfold unassign at h
  rw [assign, List.lookup_cons, h]
  cases k == key <;> rfl

end

namespace ArgumentIndex

/-- Changes the index at each place by the term there. -/
def zipInto (change : ArgumentIndex → Term → ArgumentIndex) :
    List ArgumentIndex → List Term → List ArgumentIndex
  | ix :: more, t :: rest => change ix t :: zipInto change more rest
  | more, [] => more
  | [], _ => []

section

variable (change : ArgumentIndex → Term → ArgumentIndex) (ixs : List ArgumentIndex) (ts : List Term)

theorem length_zipInto : (zipInto change ixs ts).length = ixs.length := by
  fun_induction zipInto change ixs ts with
  | case1 ix more t rest ih => rw [List.length_cons, List.length_cons, ih]
  | case2 more => rfl
  | case3 ts => rfl

theorem getElem?_zipInto (i : Nat) :
    (zipInto change ixs ts)[i]? = ixs[i]?.map fun ix => (ts[i]?).elim ix (change ix) := by
  fun_induction zipInto change ixs ts generalizing i with
  | case1 ix more t rest ih =>
    cases i with
    | zero => rfl
    | succ i => simpa using ih i
  | case2 more => simp
  | case3 ts => simp

theorem insertAll_eq (id : Nat) : insertAll id ixs ts = zipInto (insert id) ixs ts := by
  induction ixs generalizing ts with
  | nil => cases ts <;> simp [insertAll, zipInto]
  | cons ix ixs ih => cases ts <;> simp [insertAll, zipInto, ih]

theorem removeAll_eq (id : Nat) : removeAll id ixs ts = zipInto (remove id) ixs ts := by
  induction ixs generalizing ts with
  | nil => cases ts <;> simp [removeAll, zipInto]
  | cons ix ixs ih => cases ts <;> simp [removeAll, zipInto, ih]

end

end ArgumentIndex

namespace FunctorIndex

section

variable {b : FunctorIndex ArgumentIndex} {n id : Nat} {m : Filing (List Term)} {ts : List Term}

/-- A change of the arguments at one number is right where it is right for each of them. -/
theorem Files.change (h : b.Files n m) {all : IdSet} {x : Option (List Term)}
    {change : ArgumentIndex → Term → ArgumentIndex} (hlen : ts.length = n)
    (hall : Filing.Selects (Function.update m id x) (fun _ => True) all)
    (hwidth : ∀ us, x = some us → us.length = n)
    (hchange : ∀ (i : Nat) (ix : ArgumentIndex) (t : Term), ts[i]? = some t →
      ix.Files (m.through fun ts => ts[i]?) →
      (change ix t).Files (Function.update (m.through fun ts => ts[i]?) id (x.bind fun ts => ts[i]?))) :
    Files ⟨all, ArgumentIndex.zipInto change b.args ts⟩ n (Function.update m id x) := by
  refine .intro hall ?_ (fun i us hus => ?_) fun i ix hix => ?_
  · rw [ArgumentIndex.length_zipInto, h.length]
  · by_cases hi : i = id
    · rw [hi, Function.update_self] at hus
      exact hwidth us hus
    · rw [Function.update_of_ne hi] at hus
      exact h.width hus
  · rw [ArgumentIndex.getElem?_zipInto] at hix
    obtain ⟨old, hold, rfl⟩ := Option.map_eq_some_iff.1 hix
    have hi : i < ts.length := by
      have := (List.getElem?_eq_some_iff.1 hold).1
      have := h.length
      omega
    have ht := List.getElem?_eq_getElem hi
    rw [Filing.through_update, ht]
    exact hchange i old _ ht (h.args hold)

/-- Arguments are filed under a new number where each of them is. -/
theorem Files.insert (h : b.Files n m) (hid : m id = none) (hlen : ts.length = n)
    (hts : ∀ t ∈ ts, ∀ (ix : ArgumentIndex) (m : Filing Term), ix.Files m → m id = none →
      (ix.insert id t).Files (Function.update m id (some t))) :
    (b.insert id ts).Files n (Function.update m id (some ts)) := by
  rw [FunctorIndex.insert, ArgumentIndex.insertAll_eq]
  refine h.change hlen (h.all.insert id trivial) (fun us hus => ?_) fun i ix t ht hix => ?_
  · rw [← Option.some.inj hus, hlen]
  · rw [Option.bind_some, ht]
    exact hts t (List.mem_of_getElem? ht) ix _ hix (by rw [Filing.through, hid]; rfl)

/-- Arguments are taken out where each of them is. -/
theorem Files.remove (h : b.Files n m) (hid : m id = some ts)
    (hts : ∀ t ∈ ts, ∀ (ix : ArgumentIndex) (m : Filing Term), ix.Files m → m id = some t →
      (ix.remove id t).Files (Function.update m id none)) :
    (b.remove id ts).Files n (Function.update m id none) := by
  rw [FunctorIndex.remove, ArgumentIndex.removeAll_eq]
  refine h.change (h.width hid) (h.all.erase id) nofun fun i ix t ht hix => ?_
  exact hts t (List.mem_of_getElem? ht) ix _ hix (by rw [Filing.through, hid]; exact ht)

end

end FunctorIndex

namespace ArgumentIndex

section

variable {ix new : ArgumentIndex} {m : Filing Term} {id : Nat}

/-- A change at one number is right where it is right for each kind of term. -/
theorem Files.change (h : ix.Files m) {x : Option Term}
    (hvars : Filing.Selects (Function.update m id x) (fun t => t.asVar.isSome = true) new.vars)
    (hconstants : ∀ c, Filing.Selects (Function.update m id x) (fun t => t = .const c)
      (new.constants.getD c ∅))
    (hlists : Filing.Selects (Function.update m id x) (fun t => t.isOpaque = true) new.lists)
    (hnested : ∀ key, new.nested.lookup key = ix.nested.lookup key ∧
        (m id).bind (Term.argsAt key) = x.bind (Term.argsAt key) ∨
      FunctorIndex.Entry (new.nested.lookup key) key.arity
        (Function.update (m.through (Term.argsAt key)) id (x.bind (Term.argsAt key)))) :
    new.Files (Function.update m id x) := by
  refine .intro hvars hconstants hlists fun key => ?_
  rcases hnested key with ⟨hsame, hpart⟩ | hchanged
  · rw [Filing.through_update_of_eq hpart, hsame]
    exact h.nested key
  · rw [Filing.through_update]
    exact hchanged

/-- A term is filed under a number that the filing does not have yet. -/
theorem Files.insert {t : Term} (h : ix.Files m) (hid : m id = none) :
    (ix.insert id t).Files (Function.update m id (some t)) := by
  induction t using Term.induct generalizing ix m with
  | var v =>
    rw [ArgumentIndex.insert]
    exact h.change (h.vars.insert id rfl) (fun d => (h.constants d).insert_other hid nofun)
      (h.lists.insert_other hid nofun) fun key => .inl ⟨rfl, by rw [hid]; rfl⟩
  | const c =>
    rw [ArgumentIndex.insert]
    refine h.change (h.vars.insert_other hid nofun) (fun d => ?_) (h.lists.insert_other hid nofun)
      fun key => .inl ⟨rfl, by rw [hid]; rfl⟩
    rw [Std.HashMap.getD_insert]
    by_cases hd : c = d
    · rw [if_pos (by simp [hd]), ← hd]
      exact (h.constants c).insert id rfl
    · rw [if_neg (by simp [hd])]
      exact (h.constants d).insert_other hid fun h => hd (Term.const.inj h)
  | placeholder p =>
    rw [ArgumentIndex.insert]
    exact h.change (h.vars.insert_other hid nofun) (fun d => (h.constants d).insert_other hid nofun)
      (h.lists.insert id rfl) fun key => .inl ⟨rfl, by rw [hid]; rfl⟩
  | list items tail _ _ =>
    rw [ArgumentIndex.insert]
    exact h.change (h.vars.insert_other hid nofun) (fun d => (h.constants d).insert_other hid nofun)
      (h.lists.insert id rfl) fun key => .inl ⟨rfl, by rw [hid]; rfl⟩
  | compound f args ih =>
    rw [ArgumentIndex.insert]
    refine h.change (h.vars.insert_other hid nofun)
      (fun c => (h.constants c).insert_other hid nofun) (h.lists.insert_other hid nofun) fun key => ?_
    dsimp only
    rw [lookup_assign]
    by_cases hkey : key = functorKey f args
    · have hargs : (Term.compound f args).argsAt key = some args :=
        Term.argsAt_eq_some.2 (by rw [hkey]; exact ⟨rfl, rfl⟩)
      rw [if_pos (by simp [hkey]), Option.bind_some, hargs, hkey]
      have hnone : (m.through (Term.argsAt (functorKey f args))) id = none := by
        rw [Filing.through, hid]
        rfl
      have hold := (h.nested (functorKey f args)).getD
      exact .inr (.present (hold.insert hnone rfl fun t ht ix m h hid => ih t ht h hid))
    · rw [if_neg (by simp [hkey]), hid]
      exact .inl ⟨rfl, by simp [Term.argsAt, Ne.symm hkey]⟩

/-- A term is taken out of the index when it is the one filed under the number. -/
theorem Files.remove {t : Term} (h : ix.Files m) (hid : m id = some t) :
    (ix.remove id t).Files (Function.update m id none) := by
  induction t using Term.induct generalizing ix m with
  | var v =>
    rw [ArgumentIndex.remove]
    exact h.change (h.vars.erase id) (fun d => (h.constants d).erase_other hid nofun)
      (h.lists.erase_other hid nofun) fun key => .inl ⟨rfl, by rw [hid]; rfl⟩
  | const c =>
    rw [ArgumentIndex.remove]
    refine h.change (h.vars.erase_other hid nofun) (fun d => ?_) (h.lists.erase_other hid nofun)
      fun key => .inl ⟨rfl, by rw [hid]; rfl⟩
    have hleft := (h.constants c).erase id
    by_cases hd : c = d
    · rw [← hd]
      dsimp only
      split
      · rename_i hempty
        rw [Std.HashMap.getD_erase, if_pos (by simp)]
        intro i
        rw [← hleft i]
        exact iff_of_false Std.TreeSet.not_mem_emptyc (Std.TreeSet.not_mem_of_isEmpty hempty)
      · rw [Std.HashMap.getD_insert, if_pos (by simp)]
        exact hleft
    · have hother := (h.constants d).erase_other hid fun h => hd (Term.const.inj h)
      dsimp only
      split
      · rw [Std.HashMap.getD_erase, if_neg (by simp [hd])]
        exact hother
      · rw [Std.HashMap.getD_insert, if_neg (by simp [hd])]
        exact hother
  | placeholder p =>
    rw [ArgumentIndex.remove]
    exact h.change (h.vars.erase_other hid nofun) (fun d => (h.constants d).erase_other hid nofun)
      (h.lists.erase id) fun key => .inl ⟨rfl, by rw [hid]; rfl⟩
  | list items tail _ _ =>
    rw [ArgumentIndex.remove]
    exact h.change (h.vars.erase_other hid nofun) (fun d => (h.constants d).erase_other hid nofun)
      (h.lists.erase id) fun key => .inl ⟨rfl, by rw [hid]; rfl⟩
  | compound f args ih =>
    have hargs : (Term.compound f args).argsAt (functorKey f args) = some args :=
      Term.argsAt_eq_some.2 ⟨rfl, rfl⟩
    have hfiled : (m.through (Term.argsAt (functorKey f args))) id = some args := by
      rw [Filing.through, hid]
      exact hargs
    obtain ⟨b, hb, hfiles⟩ := (h.nested (functorKey f args)).files hfiled
    have hleft := hfiles.remove hfiled fun t ht ix m h hid => ih t ht h hid
    rw [ArgumentIndex.remove]
    dsimp only
    rw [hb]
    dsimp only
    refine h.change (h.vars.erase_other hid nofun)
      (fun c => (h.constants c).erase_other hid nofun) (h.lists.erase_other hid nofun)
      fun key => ?_
    dsimp only
    by_cases hkey : key = functorKey f args
    · refine .inr ?_
      rw [hkey, Option.bind_none]
      split
      · rename_i hempty
        rw [lookup_unassign, if_pos (by simp)]
        exact .of_isEmpty hleft hempty
      · rw [lookup_assign, if_pos (by simp)]
        exact .present hleft
    · refine .inl ⟨?_, by rw [hid]; simp [Term.argsAt, Ne.symm hkey]⟩
      split
      · rw [lookup_unassign, if_neg (by simp [hkey])]
      · rw [lookup_assign, if_neg (by simp [hkey])]

end

end ArgumentIndex
end Horn
