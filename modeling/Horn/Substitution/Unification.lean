import Horn.Substitution
import Horn.Atom

/-!
Unification.  Two terms are made equal by working through a list of demands from left to right;
each step either settles a demand, replaces it by smaller ones or binds a variable.  Binding leaves
fewer unbound variables in the demands and every other step makes them smaller, so the work ends.
A failure leaves the caller with the substitution it had.
-/

namespace Horn
namespace Substitution

/-- One thing left to do: make two terms equal, or give up for a reason found earlier. -/
inductive Demand where
  | equal (s t : Term)
  | refuse (why : UnifyFailure)
deriving DecidableEq, Inhabited

/-- Binds an unbound variable after applying the substitution to the value.  Binding a variable to
itself changes nothing. -/
def bindUnbound (σ : Substitution) (v : Var) (t : Term) : Except UnifyFailure Substitution :=
  let u := σ.apply t
  if u = .var v then .ok σ
  else if h : u.occurs v = true then .error (.occursCheck v u)
  else .ok (σ.extend v u (fun _ => σ.unbound_of_occurs_apply) (by simpa using h))

/-- The demands that make two lists equal: item by item, then what is left of the longer list
against the tail of the shorter one. -/
def listDemands (xs : List Term) (s : Option Term) (ys : List Term) (t : Option Term) :
    List Demand :=
  let shared := List.zipWith Demand.equal xs ys
  let mismatch := Demand.refuse (.lengthMismatch xs.length ys.length)
  if xs.length = ys.length then
    match s, t with
    | none, none => shared
    | some s, none => shared ++ [.equal s Term.emptyList]
    | none, some t => shared ++ [.equal Term.emptyList t]
    | some s, some t => shared ++ [.equal s t]
  else if xs.length < ys.length then
    match s with
    | some s => shared ++ [.equal s (Term.listOf (ys.drop xs.length) t)]
    | none => shared ++ [mismatch]
  else
    match t with
    | some t => shared ++ [.equal (Term.listOf (xs.drop ys.length) s) t]
    | none => shared ++ [mismatch]

def clash (s t : Term) : UnifyFailure := .symbolClash s.text t.text

/-- One step on two terms whose bound variables at the root are already replaced.  Of two variables
the right one is bound. -/
def stepResolved (σ : Substitution) (s t : Term) :
    Except UnifyFailure (Substitution × List Demand) :=
  match s, t with
  | s, .var y => (σ.bindUnbound y s).map fun τ => (τ, [])
  | .var x, t => (σ.bindUnbound x t).map fun τ => (τ, [])
  | .const a, .const b => if a = b then .ok (σ, []) else .error (clash (.const a) (.const b))
  | .compound f xs, .compound g ys =>
    if f ≠ g then .error (clash (.compound f xs) (.compound g ys))
    else if xs.length ≠ ys.length then .error (.arityMismatch f xs.length ys.length)
    else .ok (σ, List.zipWith Demand.equal xs ys)
  | .list xs s, .list ys t => .ok (σ, listDemands xs s ys t)
  | .placeholder p, .placeholder q =>
    if p = q then .ok (σ, []) else .error (.placeholderMismatch (.placeholder p) (.placeholder q))
  | .placeholder p, t => .error (.placeholderMismatch (.placeholder p) t)
  | s, .placeholder q => .error (.placeholderMismatch (.placeholder q) s)
  | s, t => .error (clash s t)

/-- One step on two terms. -/
def step (σ : Substitution) (s t : Term) : Except UnifyFailure (Substitution × List Demand) :=
  σ.stepResolved (σ.resolve s) (σ.resolve t)

/-! ## The measure -/

/-- What stands for a variable under a substitution. -/
def valueOf (σ : Substitution) (v : Var) : Term := (σ.bindings[v]?).getD (.var v)

mutual
/-- The size of a term once every bound variable is replaced, before lists are normalised. -/
def sizeUnder (σ : Substitution) : Term → Nat
  | .var v => (σ.valueOf v).size
  | .compound _ args => 1 + sizeUnderAll σ args
  | .list items tail => 1 + sizeUnderAll σ items + sizeUnderTail σ tail
  | _ => 1

def sizeUnderAll (σ : Substitution) : List Term → Nat
  | [] => 0
  | t :: rest => sizeUnder σ t + sizeUnderAll σ rest

def sizeUnderTail (σ : Substitution) : Option Term → Nat
  | none => 0
  | some t => sizeUnder σ t
end

/-- The unbound variables that a term mentions through the substitution. -/
def openVars (σ : Substitution) (t : Term) : List Var :=
  («variables» t).flatMap fun v => «variables» (σ.valueOf v)

namespace Demand

def openVars (σ : Substitution) : Demand → List Var
  | .equal s t => σ.openVars s ++ σ.openVars t
  | .refuse _ => []

def weight (σ : Substitution) : Demand → Nat
  | .equal s t => σ.sizeUnder s + σ.sizeUnder t
  | .refuse _ => 1

end Demand

/-- How many unbound variables the demands mention. -/
def openCount (σ : Substitution) (demands : List Demand) : Nat :=
  (demands.flatMap (Demand.openVars σ)).eraseDups.length

/-- How large the demands are under the substitution. -/
def weight (σ : Substitution) : List Demand → Nat
  | [] => 0
  | d :: rest => d.weight σ + weight σ rest

theorem weight_append (σ : Substitution) (a b : List Demand) :
    σ.weight (a ++ b) = σ.weight a + σ.weight b := by
  induction a with
  | nil => simp [weight]
  | cons d a ih => simp [weight, ih, Nat.add_assoc]

theorem distinct_le {vs ws : List Var} (h : ∀ v ∈ vs, v ∈ ws) :
    vs.eraseDups.length ≤ ws.eraseDups.length := by
  refine List.Nodup.length_le_of_subset (nodup_eraseDups vs) fun v hv => ?_
  simp only [List.mem_eraseDups] at hv ⊢
  exact h v hv

theorem distinct_lt {vs ws : List Var} {w : Var} (h : ∀ v ∈ vs, v ∈ ws ∧ v ≠ w) (hw : w ∈ ws) :
    vs.eraseDups.length < ws.eraseDups.length := by
  have hnodup : (w :: vs.eraseDups).Nodup := by
    rw [List.nodup_cons]
    refine ⟨fun hmem => ?_, nodup_eraseDups vs⟩
    exact (h w (by simpa using hmem)).2 rfl
  have hsub : ∀ v ∈ w :: vs.eraseDups, v ∈ ws.eraseDups := by
    intro v hv
    rw [List.mem_cons] at hv
    rcases hv with rfl | hv
    · simpa using hw
    · simpa using (h v (by simpa using hv)).1
  exact List.Nodup.length_le_of_subset hnodup hsub

theorem mem_openVars {σ : Substitution} {t : Term} {w : Var} :
    w ∈ σ.openVars t ↔ ∃ x, t.occurs x = true ∧ (σ.valueOf x).occurs w = true := by
  simp [openVars, Term.mem_variables]

theorem occurs_apply_iff {σ : Substitution} {t : Term} {w : Var} :
    (σ.apply t).occurs w = true ↔ w ∈ σ.openVars t := by
  rw [mem_openVars]
  exact Term.occurs_replaceVars _ w t

theorem valueOf_of_unbound {σ : Substitution} {v : Var} (h : σ.bindings[v]? = none) :
    σ.valueOf v = .var v := by
  simp [valueOf, h]

mutual
/-- Replacing nothing keeps the size. -/
theorem sizeUnder_of_unbound {σ : Substitution} : ∀ {t : Term},
    (∀ w, t.occurs w = true → σ.bindings[w]? = none) → σ.sizeUnder t = t.size
  | .const c, _ => by simp [sizeUnder, Term.size]
  | .placeholder p, _ => by simp [sizeUnder, Term.size]
  | .var v, h => by
    simp [sizeUnder, Term.size, valueOf_of_unbound (h v (by simp [Term.occurs]))]
  | .compound f args, h => by
    simp only [sizeUnder, Term.size]
    rw [sizeUnderAll_of_unbound fun w hw => h w (by simpa [Term.occurs] using hw)]
  | .list items tail, h => by
    simp only [sizeUnder, Term.size]
    rw [sizeUnderAll_of_unbound fun w hw => h w (by simp [Term.occurs, hw]),
      sizeUnderTail_of_unbound fun w hw => h w (by simp [Term.occurs, hw])]

theorem sizeUnderAll_of_unbound {σ : Substitution} : ∀ {ts : List Term},
    (∀ w, Term.occursAny w ts = true → σ.bindings[w]? = none) →
      σ.sizeUnderAll ts = Term.sizeAll ts
  | [], _ => by simp [sizeUnderAll, Term.sizeAll]
  | t :: ts, h => by
    simp only [sizeUnderAll, Term.sizeAll]
    rw [sizeUnder_of_unbound fun w hw => h w (by simp [Term.occursAny, hw]),
      sizeUnderAll_of_unbound fun w hw => h w (by simp [Term.occursAny, hw])]

theorem sizeUnderTail_of_unbound {σ : Substitution} : ∀ {t : Option Term},
    (∀ w, Term.occursTail w t = true → σ.bindings[w]? = none) →
      σ.sizeUnderTail t = Term.sizeTail t
  | none, _ => by simp [sizeUnderTail, Term.sizeTail]
  | some t, h => by
    simp only [sizeUnderTail, Term.sizeTail]
    exact sizeUnder_of_unbound fun w hw => h w (by simpa [Term.occursTail] using hw)
end

theorem sizeUnder_resolve (σ : Substitution) (t : Term) :
    σ.sizeUnder (σ.resolve t) = σ.sizeUnder t := by
  cases t with
  | var v =>
    cases hv : σ.bindings[v]? with
    | none => simp [resolve, hv]
    | some u =>
      rw [show σ.resolve (.var v) = u by simp [resolve, hv],
        sizeUnder_of_unbound (σ.compressed v u hv)]
      simp [sizeUnder, valueOf, hv]
  | _ => rfl

theorem mem_openVars_resolve {σ : Substitution} {t : Term} {w : Var} :
    w ∈ σ.openVars (σ.resolve t) ↔ w ∈ σ.openVars t := by
  cases t with
  | var v =>
    cases hv : σ.bindings[v]? with
    | none => simp [resolve, hv]
    | some u =>
      rw [show σ.resolve (.var v) = u by simp [resolve, hv], mem_openVars, mem_openVars]
      constructor
      · rintro ⟨x, hx, hw⟩
        rw [valueOf_of_unbound (σ.compressed v u hv x hx)] at hw
        have : x = w := by simpa [Term.occurs] using hw
        exact ⟨v, by simp [Term.occurs], by simpa [valueOf, hv] using this ▸ hx⟩
      · rintro ⟨x, hx, hw⟩
        have : v = x := by simpa [Term.occurs] using hx
        subst this
        have hw' : u.occurs w = true := by simpa [valueOf, hv] using hw
        exact ⟨w, hw', by simp [valueOf_of_unbound (σ.compressed v u hv w hw'), Term.occurs]⟩
  | _ => rfl

/-- A variable at the root of a resolved term is unbound. -/
theorem unbound_of_resolve {σ : Substitution} {t : Term} {v : Var}
    (h : σ.resolve t = .var v) : σ.bindings[v]? = none := by
  cases t with
  | var w =>
    cases hw : σ.bindings[w]? with
    | none =>
      have : w = v := by simpa [resolve, hw] using h
      exact this ▸ hw
    | some u =>
      have : u = .var v := by simpa [resolve, hw] using h
      exact σ.compressed w u hw v (by simp [this, Term.occurs])
  | _ => simp [resolve] at h

theorem size_pos (t : Term) : 0 < t.size := by
  cases t <;> simp only [Term.size] <;> omega

theorem sizeUnder_pos (σ : Substitution) (t : Term) : 0 < σ.sizeUnder t := by
  cases t <;> simp only [sizeUnder, size_pos] <;> omega

theorem sizeUnderAll_append (σ : Substitution) (xs ys : List Term) :
    σ.sizeUnderAll (xs ++ ys) = σ.sizeUnderAll xs + σ.sizeUnderAll ys := by
  induction xs with
  | nil => simp [sizeUnderAll]
  | cons x xs ih => simp [sizeUnderAll, ih, Nat.add_assoc]

theorem sizeUnder_listOf (σ : Substitution) (items : List Term) (tail : Option Term) :
    σ.sizeUnder (Term.listOf items tail) ≤ 1 + σ.sizeUnderAll items + σ.sizeUnderTail tail := by
  fun_induction Term.listOf items tail with
  | case1 items => simp [sizeUnder, sizeUnderTail]
  | case2 items rest tail ih =>
    refine Nat.le_trans ih ?_
    simp only [sizeUnderAll_append, sizeUnderTail, sizeUnder]
    omega
  | case3 items t _ h => simp only [sizeUnderTail]; omega
  | case4 items t _ h => simp [sizeUnder, sizeUnderTail]

/-- What a binding leaves open: the new variable is gone, and nothing else is new that the value
does not mention. -/
theorem mem_openVars_extend {σ : Substitution} {v w : Var} {u t : Term}
    {hu : ∀ w, u.occurs w = true → σ.bindings[w]? = none} {hv : u.occurs v = false}
    (h : w ∈ (σ.extend v u hu hv).openVars t) :
    w ≠ v ∧ (w ∈ σ.openVars t ∨ u.occurs w = true) := by
  obtain ⟨x, hx, hw⟩ := mem_openVars.1 h
  have hne : ∀ {y}, u.occurs y = true → y ≠ v := by
    rintro y hy rfl
    simp [hv] at hy
  by_cases hxv : compare v x = .eq
  · have : (σ.extend v u hu hv).valueOf x = u := by
      simp only [valueOf, extend]
      rw [Std.TreeMap.getElem?_insert, if_pos hxv]
      rfl
    rw [this] at hw
    exact ⟨hne hw, .inr hw⟩
  · have hval : (σ.extend v u hu hv).valueOf x =
        ((σ.bindings[x]?).map (replaceIn v u)).getD (.var x) := by
      simp only [valueOf, extend]
      rw [Std.TreeMap.getElem?_insert, if_neg hxv, getElem?_replacedBindings]
    rw [hval] at hw
    cases hb : σ.bindings[x]? with
    | none =>
      have : x = w := by simpa [hb, Term.occurs] using hw
      subst this
      refine ⟨?_, .inl (mem_openVars.2 ⟨x, hx, by simp [valueOf, hb, Term.occurs]⟩)⟩
      rintro rfl
      exact hxv (by simp)
    | some p =>
      rcases occurs_replaceIn (by simpa [hb] using hw) with ⟨hp, hwv⟩ | ⟨_, huw⟩
      · exact ⟨hwv, .inl (mem_openVars.2 ⟨x, hx, by simpa [valueOf, hb] using hp⟩)⟩
      · exact ⟨hne huw, .inr huw⟩

theorem weight_zipWith (σ : Substitution) (xs ys : List Term) :
    σ.weight (List.zipWith Demand.equal xs ys) =
      σ.sizeUnderAll (xs.take ys.length) + σ.sizeUnderAll (ys.take xs.length) := by
  induction xs generalizing ys with
  | nil => simp [weight, sizeUnderAll]
  | cons x xs ih =>
    cases ys with
    | nil => simp [weight, sizeUnderAll]
    | cons y ys =>
      simp only [List.zipWith_cons_cons, weight, Demand.weight, ih, List.length_cons,
        List.take_succ_cons, sizeUnderAll]
      omega

theorem sizeUnderAll_take_drop (σ : Substitution) (n : Nat) (xs : List Term) :
    σ.sizeUnderAll (xs.take n) + σ.sizeUnderAll (xs.drop n) = σ.sizeUnderAll xs := by
  rw [← sizeUnderAll_append, List.take_append_drop]

/-- Comparing two lists leaves smaller demands. -/
theorem weight_listDemands_lt (σ : Substitution) (xs : List Term) (s : Option Term)
    (ys : List Term) (t : Option Term) :
    σ.weight (listDemands xs s ys t) < σ.sizeUnder (.list xs s) + σ.sizeUnder (.list ys t) := by
  have hx := sizeUnderAll_take_drop σ ys.length xs
  have hy := sizeUnderAll_take_drop σ xs.length ys
  have hxr := sizeUnder_listOf σ (xs.drop ys.length) s
  have hyr := sizeUnder_listOf σ (ys.drop xs.length) t
  have hnil : σ.sizeUnder Term.emptyList = 1 := by
    simp [Term.emptyList, sizeUnder, sizeUnderAll, sizeUnderTail]
  unfold listDemands
  simp only [sizeUnder]
  split
  · cases s <;> cases t <;>
      simp only [weight_append, weight, Demand.weight, weight_zipWith, sizeUnderTail, hnil] <;>
      omega
  · split
    · cases s <;>
        simp only [weight_append, weight, Demand.weight, weight_zipWith, sizeUnderTail] <;>
        omega
    · cases t <;>
        simp only [weight_append, weight, Demand.weight, weight_zipWith, sizeUnderTail] <;>
        omega

/-- The demands mention only variables that the given terms leave open. -/
def Within (σ : Substitution) (demands : List Demand) (vs : List Var) : Prop :=
  ∀ d ∈ demands, ∀ w ∈ d.openVars σ, w ∈ vs

theorem mem_openVars_of_mem_args {σ : Substitution} {f : String} {args : List Term} {t : Term}
    (ht : t ∈ args) {w : Var} (h : w ∈ σ.openVars t) : w ∈ σ.openVars (.compound f args) := by
  obtain ⟨x, hx, hw⟩ := mem_openVars.1 h
  exact mem_openVars.2 ⟨x, by simpa [Term.occurs] using Term.occursAny_iff.2 ⟨t, ht, hx⟩, hw⟩

theorem mem_openVars_of_mem_items {σ : Substitution} {items : List Term} {tail : Option Term}
    {t : Term} (ht : t ∈ items) {w : Var} (h : w ∈ σ.openVars t) :
    w ∈ σ.openVars (.list items tail) := by
  obtain ⟨x, hx, hw⟩ := mem_openVars.1 h
  exact mem_openVars.2 ⟨x, by simp [Term.occurs, Term.occursAny_iff.2 ⟨t, ht, hx⟩], hw⟩

theorem mem_openVars_of_tail {σ : Substitution} {items : List Term} {t : Term} {w : Var}
    (h : w ∈ σ.openVars t) : w ∈ σ.openVars (.list items (some t)) := by
  obtain ⟨x, hx, hw⟩ := mem_openVars.1 h
  exact mem_openVars.2 ⟨x, by simp [Term.occurs, Term.occursTail, hx], hw⟩

theorem mem_openVars_of_drop {σ : Substitution} {items : List Term} {tail : Option Term} {n : Nat}
    {w : Var} (h : w ∈ σ.openVars (Term.listOf (items.drop n) tail)) :
    w ∈ σ.openVars (.list items tail) := by
  obtain ⟨x, hx, hw⟩ := mem_openVars.1 h
  rw [Term.occurs_listOf, Bool.or_eq_true] at hx
  refine mem_openVars.2 ⟨x, ?_, hw⟩
  rcases hx with hx | hx
  · obtain ⟨t, ht, hxt⟩ := Term.occursAny_iff.1 hx
    simp [Term.occurs, Term.occursAny_iff.2 ⟨t, List.mem_of_mem_drop ht, hxt⟩]
  · simp [Term.occurs, hx]

theorem within_zipWith {σ : Substitution} {xs ys : List Term} {vs : List Var}
    (hx : ∀ t ∈ xs, ∀ w ∈ σ.openVars t, w ∈ vs) (hy : ∀ t ∈ ys, ∀ w ∈ σ.openVars t, w ∈ vs) :
    σ.Within (List.zipWith Demand.equal xs ys) vs := by
  induction xs generalizing ys with
  | nil => intro d hd; simp at hd
  | cons x xs ih =>
    cases ys with
    | nil => intro d hd; simp at hd
    | cons y ys =>
      intro d hd w hw
      rw [List.zipWith_cons_cons, List.mem_cons] at hd
      rcases hd with rfl | hd
      · rcases List.mem_append.1 hw with hw | hw
        · exact hx x (by simp) w hw
        · exact hy y (by simp) w hw
      · exact ih (fun t ht => hx t (by simp [ht])) (fun t ht => hy t (by simp [ht])) d hd w hw

theorem within_append {σ : Substitution} {a b : List Demand} {vs : List Var}
    (ha : σ.Within a vs) (hb : σ.Within b vs) : σ.Within (a ++ b) vs := by
  intro d hd
  rcases List.mem_append.1 hd with h | h
  · exact ha d h
  · exact hb d h

theorem within_equal {σ : Substitution} {s t : Term} {vs : List Var}
    (hs : ∀ w ∈ σ.openVars s, w ∈ vs) (ht : ∀ w ∈ σ.openVars t, w ∈ vs) :
    σ.Within [.equal s t] vs := by
  intro d hd w hw
  obtain rfl := List.mem_singleton.1 hd
  rcases List.mem_append.1 hw with h | h
  · exact hs w h
  · exact ht w h

theorem within_refuse {σ : Substitution} {why : UnifyFailure} {vs : List Var} :
    σ.Within [.refuse why] vs := by
  intro d hd w hw
  obtain rfl := List.mem_singleton.1 hd
  simp [Demand.openVars] at hw

theorem not_mem_openVars_emptyList {σ : Substitution} {w : Var} :
    w ∉ σ.openVars Term.emptyList := by
  intro h
  obtain ⟨x, hx, _⟩ := mem_openVars.1 h
  simp [Term.emptyList, Term.occurs, Term.occursAny, Term.occursTail] at hx

theorem within_listDemands (σ : Substitution) (xs : List Term) (s : Option Term)
    (ys : List Term) (t : Option Term) :
    σ.Within (listDemands xs s ys t) (σ.openVars (.list xs s) ++ σ.openVars (.list ys t)) := by
  have hshared : σ.Within (List.zipWith Demand.equal xs ys)
      (σ.openVars (.list xs s) ++ σ.openVars (.list ys t)) :=
    within_zipWith
      (fun u hu w hw => List.mem_append_left _ (mem_openVars_of_mem_items hu hw))
      (fun u hu w hw => List.mem_append_right _ (mem_openVars_of_mem_items hu hw))
  have hleft : ∀ u, s = some u → ∀ w ∈ σ.openVars u,
      w ∈ σ.openVars (.list xs s) ++ σ.openVars (.list ys t) := by
    rintro u rfl w hw
    exact List.mem_append_left _ (mem_openVars_of_tail hw)
  have hright : ∀ u, t = some u → ∀ w ∈ σ.openVars u,
      w ∈ σ.openVars (.list xs s) ++ σ.openVars (.list ys t) := by
    rintro u rfl w hw
    exact List.mem_append_right _ (mem_openVars_of_tail hw)
  have hnil : ∀ w ∈ σ.openVars Term.emptyList,
      w ∈ σ.openVars (.list xs s) ++ σ.openVars (.list ys t) :=
    fun w hw => absurd hw not_mem_openVars_emptyList
  have hrestLeft : ∀ w ∈ σ.openVars (Term.listOf (xs.drop ys.length) s),
      w ∈ σ.openVars (.list xs s) ++ σ.openVars (.list ys t) :=
    fun w hw => List.mem_append_left _ (mem_openVars_of_drop hw)
  have hrestRight : ∀ w ∈ σ.openVars (Term.listOf (ys.drop xs.length) t),
      w ∈ σ.openVars (.list xs s) ++ σ.openVars (.list ys t) :=
    fun w hw => List.mem_append_right _ (mem_openVars_of_drop hw)
  unfold listDemands
  dsimp only
  split
  · cases s <;> cases t
    · exact hshared
    · exact within_append hshared (within_equal hnil (hright _ rfl))
    · exact within_append hshared (within_equal (hleft _ rfl) hnil)
    · exact within_append hshared (within_equal (hleft _ rfl) (hright _ rfl))
  · split
    · cases s
      · exact within_append hshared within_refuse
      · exact within_append hshared (within_equal (hleft _ rfl) hrestRight)
    · cases t
      · exact within_append hshared within_refuse
      · exact within_append hshared (within_equal hrestLeft (hright _ rfl))

/-- A step either keeps the substitution and leaves smaller demands on the same variables, or
binds a variable that the terms left open. -/
inductive Progress (σ : Substitution) (s t : Term) : Substitution → List Demand → Prop where
  | smaller {new : List Demand} (lt : σ.weight new < σ.sizeUnder s + σ.sizeUnder t)
      (within : σ.Within new (σ.openVars s ++ σ.openVars t)) : Progress σ s t σ new
  | bound {v : Var} {u : Term} {hu : ∀ w, u.occurs w = true → σ.bindings[w]? = none}
      {hv : u.occurs v = false} (mem : v ∈ σ.openVars s ++ σ.openVars t)
      (value : ∀ w, u.occurs w = true → w ∈ σ.openVars s ++ σ.openVars t) :
      Progress σ s t (σ.extend v u hu hv) []

theorem within_nil {σ : Substitution} {vs : List Var} : σ.Within [] vs := by
  intro d hd
  simp at hd

theorem progress_of_bindUnbound {σ τ : Substitution} {s t u : Term} {v : Var} {new : List Demand}
    (h : (σ.bindUnbound v u).map (fun τ => (τ, ([] : List Demand))) = .ok (τ, new))
    (hmem : v ∈ σ.openVars s ++ σ.openVars t)
    (hsub : ∀ w ∈ σ.openVars u, w ∈ σ.openVars s ++ σ.openVars t) : Progress σ s t τ new := by
  unfold bindUnbound at h
  dsimp only at h
  split at h
  · simp only [Except.map, Except.ok.injEq, Prod.mk.injEq] at h
    obtain ⟨rfl, rfl⟩ := h
    refine .smaller ?_ within_nil
    have := sizeUnder_pos σ s
    simp only [weight]
    omega
  · split at h
    · simp [Except.map] at h
    · simp only [Except.map, Except.ok.injEq, Prod.mk.injEq] at h
      obtain ⟨rfl, rfl⟩ := h
      exact .bound hmem fun w hw => hsub w (occurs_apply_iff.1 hw)

theorem mem_openVars_var {σ : Substitution} {v : Var} (h : σ.bindings[v]? = none) :
    v ∈ σ.openVars (.var v) :=
  mem_openVars.2 ⟨v, by simp [Term.occurs], by simp [valueOf_of_unbound h, Term.occurs]⟩

theorem progress_of_stepResolved {σ τ : Substitution} {s t : Term} {new : List Demand}
    (hs : ∀ v, s = .var v → σ.bindings[v]? = none) (ht : ∀ v, t = .var v → σ.bindings[v]? = none)
    (h : σ.stepResolved s t = .ok (τ, new)) : Progress σ s t τ new := by
  have hstop : ∀ {τ' : Substitution}, (.ok (σ, []) : Except UnifyFailure _) = .ok (τ', new) →
      Progress σ s t τ' new := by
    intro τ' h
    simp only [Except.ok.injEq, Prod.mk.injEq] at h
    obtain ⟨rfl, rfl⟩ := h
    have := sizeUnder_pos σ s
    exact .smaller (by simp only [weight]; omega) within_nil
  unfold stepResolved at h
  split at h
  · exact progress_of_bindUnbound h (List.mem_append_right _ (mem_openVars_var (ht _ rfl)))
      fun w hw => List.mem_append_left _ hw
  · exact progress_of_bindUnbound h (List.mem_append_left _ (mem_openVars_var (hs _ rfl)))
      fun w hw => List.mem_append_right _ hw
  · split at h
    · exact hstop h
    · simp at h
  · rename_i f xs g ys
    split at h
    · simp at h
    · split at h
      · simp at h
      · rename_i hlen
        simp only [Except.ok.injEq, Prod.mk.injEq] at h
        obtain ⟨rfl, rfl⟩ := h
        refine .smaller ?_ (within_zipWith
          (fun u hu w hw => List.mem_append_left _ (mem_openVars_of_mem_args hu hw))
          (fun u hu w hw => List.mem_append_right _ (mem_openVars_of_mem_args hu hw)))
        have hx := sizeUnderAll_take_drop σ ys.length xs
        have hy := sizeUnderAll_take_drop σ xs.length ys
        rw [weight_zipWith]
        simp only [sizeUnder]
        omega
  · simp only [Except.ok.injEq, Prod.mk.injEq] at h
    obtain ⟨rfl, rfl⟩ := h
    exact .smaller (weight_listDemands_lt σ _ _ _ _) (within_listDemands σ _ _ _ _)
  · split at h
    · exact hstop h
    · simp at h
  · simp at h
  · simp at h
  · simp at h

theorem progress_of_step {σ τ : Substitution} {s t : Term} {new : List Demand}
    (h : σ.step s t = .ok (τ, new)) : Progress σ s t τ new := by
  have := progress_of_stepResolved (fun v => unbound_of_resolve) (fun v => unbound_of_resolve) h
  cases this with
  | smaller lt within =>
    rw [sizeUnder_resolve, sizeUnder_resolve] at lt
    refine .smaller lt fun d hd w hw => ?_
    simpa [mem_openVars_resolve] using within d hd w hw
  | bound mem value =>
    refine .bound (by simpa [mem_openVars_resolve] using mem) fun w hw => ?_
    simpa [mem_openVars_resolve] using value w hw

/-- The measure falls with every step, whatever else is still to do. -/
theorem Progress.decreases {σ τ : Substitution} {s t : Term} {new : List Demand}
    (h : Progress σ s t τ new) (rest : List Demand) :
    τ.openCount (new ++ rest) < σ.openCount (.equal s t :: rest) ∨
      τ.openCount (new ++ rest) ≤ σ.openCount (.equal s t :: rest) ∧
        τ.weight (new ++ rest) < σ.weight (.equal s t :: rest) := by
  cases h with
  | smaller lt within =>
    refine .inr ⟨distinct_le fun w hw => ?_, ?_⟩
    · rw [List.mem_flatMap] at hw
      obtain ⟨d, hd, hw⟩ := hw
      rw [List.flatMap_cons, List.mem_append]
      rcases List.mem_append.1 hd with hd | hd
      · exact .inl (within d hd w hw)
      · exact .inr (List.mem_flatMap.2 ⟨d, hd, hw⟩)
    · rw [weight_append]
      simp only [weight, Demand.weight]
      omega
  | bound mem value =>
    refine .inl (distinct_lt (fun w hw => ?_) (List.mem_append_left _ mem))
    rw [List.nil_append, List.mem_flatMap] at hw
    obtain ⟨d, hd, hw⟩ := hw
    rw [List.flatMap_cons, List.mem_append]
    cases d with
    | refuse why => simp [Demand.openVars] at hw
    | equal a b =>
      rcases List.mem_append.1 hw with hw | hw
      · obtain ⟨hne, hw | hw⟩ := mem_openVars_extend hw
        · exact ⟨.inr (List.mem_flatMap.2 ⟨_, hd, List.mem_append_left _ hw⟩), hne⟩
        · exact ⟨.inl (value w hw), hne⟩
      · obtain ⟨hne, hw | hw⟩ := mem_openVars_extend hw
        · exact ⟨.inr (List.mem_flatMap.2 ⟨_, hd, List.mem_append_right _ hw⟩), hne⟩
        · exact ⟨.inl (value w hw), hne⟩

/-! ## The unifier -/

/-- Works through the demands from the front. -/
def solve (σ : Substitution) : List Demand → Except UnifyFailure Substitution
  | [] => .ok σ
  | .refuse why :: _ => .error why
  | .equal s t :: rest =>
    match _h : σ.step s t with
    | .error why => .error why
    | .ok (τ, new) => solve τ (new ++ rest)
termination_by demands => (σ.openCount demands, σ.weight demands)
decreasing_by
  rcases (progress_of_step _h).decreases rest with hlt | ⟨hle, hlt⟩
  · exact Prod.Lex.left _ _ hlt
  · rcases Nat.lt_or_eq_of_le hle with hlt' | heq
    · exact Prod.Lex.left _ _ hlt'
    · rw [heq]
      exact Prod.Lex.right _ hlt

/-- The most general extension that makes two terms equal. -/
def unify (σ : Substitution) (s t : Term) : Except UnifyFailure Substitution :=
  σ.solve [.equal s t]

/-- Binds a variable.  A variable that has a value already keeps it, and both values are unified. -/
def bind (σ : Substitution) (v : Var) (t : Term) : Except UnifyFailure Substitution :=
  match σ.bindings[v]? with
  | some u => σ.unify u t
  | none => σ.bindUnbound v t

/-- Binds pairs one after the other. -/
def bindAll (σ : Substitution) (pairs : List (Var × Term)) : Except UnifyFailure Substitution :=
  pairs.foldlM (fun τ (v, t) => τ.bind v t) σ

/-- The demands that make two expressions equal; operators and functions must agree. -/
def exprDemands : Expr → Expr → List Demand
  | .term s, .term t => [.equal s t]
  | .binary o l r, .binary p m q =>
    if o = p then exprDemands l m ++ exprDemands r q
    else [.refuse (.symbolClash (Expr.binary o l r).text (Expr.binary p m q).text)]
  | .neg a, .neg b => exprDemands a b
  | .call f a, .call g b =>
    if f = g then exprDemands a b
    else [.refuse (.symbolClash (Expr.call f a).text (Expr.call g b).text)]
  | a, b => [.refuse (.symbolClash a.text b.text)]

/-- The demands that make two predicates equal. -/
def predicateDemands (p q : Predicate) : List Demand :=
  if p.name ≠ q.name then [.refuse (.symbolClash p.name q.name)]
  else if p.args.length ≠ q.args.length then
    [.refuse (.arityMismatch p.name p.args.length q.args.length)]
  else List.zipWith Demand.equal p.args q.args

def atomDemands : Atom → Atom → List Demand
  | .predicate p, .predicate q => predicateDemands p q
  | .compare c, .compare d =>
    if c.op = d.op then exprDemands c.left d.left ++ exprDemands c.right d.right
    else [.refuse (.symbolClash c.text d.text)]
  | a, b => [.refuse (.symbolClash a.text b.text)]

/-- The most general extension that makes two atoms equal. -/
def unifyAtoms (σ : Substitution) (a b : Atom) : Except UnifyFailure Substitution :=
  σ.solve (atomDemands a b)

def unifyPredicates (σ : Substitution) (p q : Predicate) : Except UnifyFailure Substitution :=
  σ.solve (predicateDemands p q)

end Substitution
end Horn
