import Horn.Term

/-!
Inspecting and replacing the terms inside larger forms.  A form gives its terms and their subterms
from the top down and from left to right, and can have terms replaced in the same order; variables,
groundness and placeholders follow from the first.
-/

namespace Horn

/-- A form built over terms. -/
class HasTerms (α : Type) where
  /-- Every term and subterm, each before its own subterms. -/
  subterms : α → List Term
  /-- Replaces terms from the top down.  A replaced term is not searched further; lists that are
  kept are put back into normal form. -/
  rewrite : (Term → Option Term) → α → α

namespace Term

mutual
def subterms : Term → List Term
  | .compound f args => .compound f args :: subtermsAll args
  | .list items tail => .list items tail :: (subtermsAll items ++ subtermsTail tail)
  | t => [t]

def subtermsAll : List Term → List Term
  | [] => []
  | t :: rest => subterms t ++ subtermsAll rest

def subtermsTail : Option Term → List Term
  | none => []
  | some t => subterms t
end

mutual
def rewrite (f : Term → Option Term) : Term → Term
  | .compound g args => (f (.compound g args)).getD (.compound g (rewriteAll f args))
  | .list items tail =>
    (f (.list items tail)).getD (listOf (rewriteAll f items) (rewriteTail f tail))
  | t => (f t).getD t

def rewriteAll (f : Term → Option Term) : List Term → List Term
  | [] => []
  | t :: rest => rewrite f t :: rewriteAll f rest

def rewriteTail (f : Term → Option Term) : Option Term → Option Term
  | none => none
  | some t => some (rewrite f t)
end

mutual
/-- The number of nodes of a term. -/
def size : Term → Nat
  | .compound _ args => 1 + sizeAll args
  | .list items tail => 1 + sizeAll items + sizeTail tail
  | _ => 1

def sizeAll : List Term → Nat
  | [] => 0
  | t :: rest => size t + sizeAll rest

def sizeTail : Option Term → Nat
  | none => 0
  | some t => size t
end

mutual
/-- Whether a variable occurs in a term. -/
def occurs (v : Var) : Term → Bool
  | .var w => w == v
  | .compound _ args => occursAny v args
  | .list items tail => occursAny v items || occursTail v tail
  | _ => false

def occursAny (v : Var) : List Term → Bool
  | [] => false
  | t :: rest => occurs v t || occursAny v rest

def occursTail (v : Var) : Option Term → Bool
  | none => false
  | some t => occurs v t
end

end Term

instance : HasTerms Term := ⟨Term.subterms, Term.rewrite⟩

/-- The replacement of terms that replaces only variables. -/
def varImage (image : Var → Option Term) : Term → Option Term
  | .var v => image v
  | _ => none

instance {α : Type} [HasTerms α] : HasTerms (List α) where
  subterms xs := xs.flatMap HasTerms.subterms
  rewrite f xs := xs.map (HasTerms.rewrite f)

theorem nodup_eraseDups {α : Type} [BEq α] [LawfulBEq α] (as : List α) : as.eraseDups.Nodup := by
  match as with
  | [] => exact .nil
  | a :: as =>
    rw [List.eraseDups_cons, List.nodup_cons]
    exact ⟨by simp, nodup_eraseDups _⟩
termination_by as.length
decreasing_by exact Nat.lt_succ_of_le (List.length_filter_le _ _)

section

variable {α : Type} [HasTerms α]

/-- The variables of a form in the order of their first occurrence. -/
def «variables» (x : α) : List Var :=
  ((HasTerms.subterms x).filterMap Term.asVar).eraseDups

def isGround (x : α) : Bool :=
  (HasTerms.subterms x).all fun t => t.asVar.isNone

def hasPlaceholders (x : α) : Bool :=
  (HasTerms.subterms x).any fun
    | .placeholder _ => true
    | _ => false

/-- Replaces the variables for which an image is given. -/
def replaceVars (image : Var → Option Term) (x : α) : α :=
  HasTerms.rewrite (varImage image) x

end

namespace Term

theorem occursAny_append (v : Var) (xs ys : List Term) :
    occursAny v (xs ++ ys) = (occursAny v xs || occursAny v ys) := by
  induction xs with
  | nil => simp [occursAny]
  | cons x xs ih => simp [occursAny, ih, Bool.or_assoc]

theorem occursAny_iff {v : Var} {xs : List Term} :
    occursAny v xs = true ↔ ∃ t ∈ xs, occurs v t = true := by
  induction xs with
  | nil => simp [occursAny]
  | cons x xs ih => simp [occursAny, ih]

mutual
theorem var_mem_subterms (v : Var) : ∀ t : Term, .var v ∈ subterms t ↔ occurs v t = true
  | .const c => by simp [subterms, occurs]
  | .placeholder p => by simp [subterms, occurs]
  | .var w => by
    simp only [subterms, occurs, List.mem_singleton, Term.var.injEq, beq_iff_eq]
    exact eq_comm
  | .compound f args => by simp [subterms, occurs, var_mem_subtermsAll v args]
  | .list items tail => by
    simp [subterms, occurs, var_mem_subtermsAll v items, var_mem_subtermsTail v tail]

theorem var_mem_subtermsAll (v : Var) : ∀ ts : List Term,
    .var v ∈ subtermsAll ts ↔ occursAny v ts = true
  | [] => by simp [subtermsAll, occursAny]
  | t :: ts => by simp [subtermsAll, occursAny, var_mem_subterms v t, var_mem_subtermsAll v ts]

theorem var_mem_subtermsTail (v : Var) : ∀ t : Option Term,
    .var v ∈ subtermsTail t ↔ occursTail v t = true
  | none => by simp [subtermsTail, occursTail]
  | some t => by simp [subtermsTail, occursTail, var_mem_subterms v t]
end

theorem asVar_eq_some {t : Term} {v : Var} : t.asVar = some v ↔ t = .var v := by
  cases t <;> simp [asVar]

theorem mem_variables {v : Var} {t : Term} : v ∈ «variables» t ↔ t.occurs v = true := by
  simp only [«variables», HasTerms.subterms, List.mem_eraseDups, List.mem_filterMap, asVar_eq_some,
    exists_eq_right]
  exact var_mem_subterms v t

/-- Normal form keeps the occurrences. -/
theorem occurs_listOf (v : Var) (items : List Term) (tail : Option Term) :
    occurs v (listOf items tail) = (occursAny v items || occursTail v tail) := by
  fun_induction listOf items tail with
  | case1 items => simp [occurs, occursTail]
  | case2 items rest tail ih =>
    rw [ih, occursAny_append, Bool.or_assoc]
    simp [occurs, occursTail]
  | case3 items t _ h =>
    have : items = [] := by simpa using h
    simp [this, occursAny, occursTail]
  | case4 items t _ h => simp [occurs, occursTail]

mutual
/-- The variables of a replaced term are those of the images of its variables. -/
theorem occurs_replaceVars (image : Var → Option Term) (w : Var) : ∀ t : Term,
    occurs w (rewrite (varImage image) t) = true ↔
      ∃ x, occurs x t = true ∧ occurs w ((image x).getD (.var x)) = true
  | .const c => by simp [rewrite, varImage, occurs]
  | .placeholder p => by simp [rewrite, varImage, occurs]
  | .var v => by simp [rewrite, varImage, occurs]
  | .compound f args => by
    simp only [rewrite, varImage, Option.getD_none, occurs]
    exact occursAny_replaceVars image w args
  | .list items tail => by
    simp only [rewrite, varImage, Option.getD_none, occurs_listOf, occurs, Bool.or_eq_true,
      occursAny_replaceVars image w items, occursTail_replaceVars image w tail]
    constructor
    · rintro (⟨x, hx, h⟩ | ⟨x, hx, h⟩)
      · exact ⟨x, .inl hx, h⟩
      · exact ⟨x, .inr hx, h⟩
    · rintro ⟨x, hx | hx, h⟩
      · exact .inl ⟨x, hx, h⟩
      · exact .inr ⟨x, hx, h⟩

theorem occursAny_replaceVars (image : Var → Option Term) (w : Var) : ∀ ts : List Term,
    occursAny w (rewriteAll (varImage image) ts) = true ↔
      ∃ x, occursAny x ts = true ∧ occurs w ((image x).getD (.var x)) = true
  | [] => by simp [rewriteAll, occursAny]
  | t :: ts => by
    simp only [rewriteAll, occursAny, Bool.or_eq_true, occurs_replaceVars image w t,
      occursAny_replaceVars image w ts]
    constructor
    · rintro (⟨x, hx, h⟩ | ⟨x, hx, h⟩)
      · exact ⟨x, .inl hx, h⟩
      · exact ⟨x, .inr hx, h⟩
    · rintro ⟨x, hx | hx, h⟩
      · exact .inl ⟨x, hx, h⟩
      · exact .inr ⟨x, hx, h⟩

theorem occursTail_replaceVars (image : Var → Option Term) (w : Var) : ∀ t : Option Term,
    occursTail w (rewriteTail (varImage image) t) = true ↔
      ∃ x, occursTail x t = true ∧ occurs w ((image x).getD (.var x)) = true
  | none => by simp [rewriteTail, occursTail]
  | some t => by
    simp only [rewriteTail, occursTail]
    exact occurs_replaceVars image w t
end

end Term

end Horn
