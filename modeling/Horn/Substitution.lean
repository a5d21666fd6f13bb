import Horn.Substitution.Scope

/-!
Substitutions.  Bindings are kept compressed: no value mentions a bound variable, so applying a
substitution looks up every variable once.  The type carries this, and every operation that adds a
binding replaces the new variable inside the old values.
-/

namespace Horn

/-- Why two terms have no unifier, or a renaming is not possible. -/
inductive UnifyFailure where
  | occursCheck (v : Var) (t : Term)
  | symbolClash (expected found : String)
  | arityMismatch (symbol : String) (expected found : Nat)
  | lengthMismatch (expected found : Nat)
  | placeholderMismatch (placeholder term : Term)
  | unmappedVariable (v : Var)
deriving DecidableEq, Inhabited

namespace UnifyFailure

def message : UnifyFailure → String
  | .occursCheck v t => "occurs check: " ++ v.text ++ " occurs in " ++ t.text
  | .symbolClash expected found => "cannot unify " ++ expected ++ " with " ++ found
  | .arityMismatch symbol expected found =>
    "arity mismatch for " ++ symbol ++ ": " ++ toString expected ++ " vs " ++ toString found
  | .lengthMismatch expected found =>
    "closed lists of length " ++ toString expected ++ " and " ++ toString found
  | .placeholderMismatch placeholder term =>
    "mode placeholder " ++ placeholder.text ++ " cannot match " ++ term.text
  | .unmappedVariable v => "no renaming given for variable " ++ v.text

end UnifyFailure

/-- Bindings of variables over a scope of names in use. -/
structure Substitution where
  scope : Scope
  bindings : Std.TreeMap Var Term
  compressed : ∀ (v : Var) (t : Term), bindings[v]? = some t →
    ∀ w : Var, t.occurs w = true → bindings[w]? = none

namespace Substitution

def empty : Substitution where
  scope := Scope.empty
  bindings := ∅
  compressed := by simp

instance : Inhabited Substitution := ⟨empty⟩

def lookup (σ : Substitution) (v : Var) : Option Term := σ.bindings[v]?

/-- The value of a term that is a bound variable; every other term is its own value. -/
def resolve (σ : Substitution) (t : Term) : Term :=
  match t with
  | .var v => (σ.bindings[v]?).getD t
  | _ => t

/-- Replaces every bound variable by its value. -/
def apply {α : Type} [HasTerms α] (σ : Substitution) (x : α) : α :=
  replaceVars (fun v => σ.bindings[v]?) x

/-- The bindings in the order of their variables. -/
def toList (σ : Substitution) : List (Var × Term) := σ.bindings.toList

def isEmpty (σ : Substitution) : Bool := σ.bindings.isEmpty

def size (σ : Substitution) : Nat := σ.bindings.size

/-- Whether two substitutions have the same bindings, whatever their scopes. -/
def sameBindings (σ τ : Substitution) : Bool := σ.toList == τ.toList

def bindingTexts (σ : Substitution) : List String :=
  σ.toList.map fun (v, t) => v.text ++ " = " ++ t.text

def text (σ : Substitution) : String :=
  "\x7b" ++ String.intercalate ", " σ.bindingTexts ++ "\x7d"

/-- Enters the variables of a form into the scope. -/
def addVariables {α : Type} [HasTerms α] (σ : Substitution) (x : α) : Substitution :=
  { σ with scope := σ.scope.addVariables x }

/-- A variable whose text no variable of the scope has, now in the scope. -/
def fresh (σ : Substitution) (symbol : String) : Var × Substitution :=
  let (v, scope) := σ.scope.fresh symbol
  (v, { σ with scope := scope })

/-- What is left after applying a compressed substitution is unbound. -/
theorem unbound_of_occurs_apply (σ : Substitution) {t : Term} {w : Var}
    (h : (σ.apply t).occurs w = true) : σ.bindings[w]? = none := by
  obtain ⟨x, _, hw⟩ := (Term.occurs_replaceVars _ w t).1 h
  cases hx : σ.bindings[x]? with
  | none =>
    have : x = w := by simpa [hx, Term.occurs] using hw
    exact this ▸ hx
  | some u => exact σ.compressed x u hx w (by simpa [hx] using hw)

/-- Replaces one variable in a value that mentions it. -/
def replaceIn (v : Var) (u t : Term) : Term :=
  if t.occurs v then replaceVars (fun w => if w = v then some u else none) t else t

theorem occurs_replaceIn {v w : Var} {u t : Term} (h : (replaceIn v u t).occurs w = true) :
    (t.occurs w = true ∧ w ≠ v) ∨ (t.occurs v = true ∧ u.occurs w = true) := by
  unfold replaceIn at h
  split at h
  · obtain ⟨x, hx, hw⟩ := (Term.occurs_replaceVars _ w t).1 h
    by_cases hxv : x = v
    · subst hxv
      exact .inr ⟨hx, by simpa using hw⟩
    · have : x = w := by simpa [hxv, Term.occurs] using hw
      exact .inl ⟨this ▸ hx, this ▸ hxv⟩
  · rename_i hv
    refine .inl ⟨h, ?_⟩
    rintro rfl
    exact hv h

/-- Whether some value mentions a variable. -/
def mentions (σ : Substitution) (v : Var) : Bool :=
  σ.bindings.foldl (fun found _ t => found || t.occurs v) false

/-- The values after a variable got a value.  Nothing is rebuilt when no value mentions it. -/
def replacedBindings (σ : Substitution) (v : Var) (u : Term) : Std.TreeMap Var Term :=
  if σ.mentions v then σ.bindings.map fun _ t => replaceIn v u t else σ.bindings

theorem foldl_or_eq_true {α : Type} (p : α → Bool) (xs : List α) (b : Bool) :
    xs.foldl (fun found x => found || p x) b = true ↔ b = true ∨ ∃ x ∈ xs, p x = true := by
  induction xs generalizing b with
  | nil => simp
  | cons x xs ih => simp [ih, or_assoc]

theorem mentions_iff {σ : Substitution} {v : Var} :
    σ.mentions v = true ↔ ∃ (w : Var) (t : Term), σ.bindings[w]? = some t ∧ t.occurs v = true := by
  unfold mentions
  rw [Std.TreeMap.foldl_eq_foldl_toList,
    foldl_or_eq_true (fun p : Var × Term => p.2.occurs v)]
  simp only [Bool.false_eq_true, false_or, Prod.exists,
    Std.TreeMap.mem_toList_iff_getElem?_eq_some]

theorem replaceIn_of_not_occurs {v : Var} {u t : Term} (h : t.occurs v = false) :
    replaceIn v u t = t := by
  simp [replaceIn, h]

theorem getElem?_replacedBindings (σ : Substitution) (v : Var) (u : Term) (w : Var) :
    (σ.replacedBindings v u)[w]? = (σ.bindings[w]?).map (replaceIn v u) := by
  unfold replacedBindings
  split
  · simp [Std.TreeMap.getElem?_map]
  · rename_i h
    cases hw : σ.bindings[w]? with
    | none => rfl
    | some t =>
      have : t.occurs v = false := by
        cases ho : t.occurs v with
        | false => rfl
        | true => exact absurd (mentions_iff.2 ⟨w, t, hw, ho⟩) h
      simp [replaceIn_of_not_occurs this]

/-- Binds an unbound variable to a term that mentions neither it nor a bound variable. -/
def extend (σ : Substitution) (v : Var) (u : Term)
    (unbound : ∀ w, u.occurs w = true → σ.bindings[w]? = none)
    (acyclic : u.occurs v = false) : Substitution where
  scope := (σ.scope.register v).addVariables u
  bindings := (σ.replacedBindings v u).insert v u
  compressed := by
    intro x t hx w hw
    have huw : u.occurs w = true → w ≠ v ∧ σ.bindings[w]? = none := by
      intro h
      refine ⟨?_, unbound w h⟩
      rintro rfl
      simp [acyclic] at h
    have key : w ≠ v ∧ σ.bindings[w]? = none := by
      rw [Std.TreeMap.getElem?_insert] at hx
      split at hx
      · obtain rfl : u = t := by simpa using hx
        exact huw hw
      · rw [getElem?_replacedBindings] at hx
        obtain ⟨t', ht', rfl⟩ := Option.map_eq_some_iff.1 hx
        rcases occurs_replaceIn hw with ⟨h, hne⟩ | ⟨_, h⟩
        · exact ⟨hne, σ.compressed x t' ht' w h⟩
        · exact huw h
    have hne : compare v w ≠ .eq := fun h => key.1 (Std.LawfulEqOrd.eq_of_compare h).symm
    rw [Std.TreeMap.getElem?_insert, if_neg hne, getElem?_replacedBindings, key.2]
    rfl

/-- Copies the binding of one variable, if it has one. -/
def copyBinding (σ : Substitution) (m : Std.TreeMap Var Term) (v : Var) : Std.TreeMap Var Term :=
  match σ.bindings[v]? with
  | some t => m.insert v t
  | none => m

/-- The bindings of the given variables only. -/
def restrictedBindings (σ : Substitution) (vs : List Var) : Std.TreeMap Var Term :=
  vs.foldl σ.copyBinding ∅

theorem getElem?_of_copyBinding {σ : Substitution} {m : Std.TreeMap Var Term} {v : Var}
    (hm : ∀ (w : Var) (t : Term), m[w]? = some t → σ.bindings[w]? = some t) (w : Var) (t : Term)
    (h : (σ.copyBinding m v)[w]? = some t) : σ.bindings[w]? = some t := by
  unfold copyBinding at h
  split at h
  · rename_i u hu
    rw [Std.TreeMap.getElem?_insert] at h
    split at h
    · rename_i hv
      obtain rfl : u = t := by simpa using h
      rw [← Std.LawfulEqOrd.eq_of_compare hv]
      exact hu
    · exact hm w t h
  · exact hm w t h

theorem getElem?_of_foldl_copyBinding {σ : Substitution} (vs : List Var)
    {m : Std.TreeMap Var Term}
    (hm : ∀ (w : Var) (t : Term), m[w]? = some t → σ.bindings[w]? = some t) (w : Var) (t : Term)
    (h : (vs.foldl σ.copyBinding m)[w]? = some t) : σ.bindings[w]? = some t := by
  induction vs generalizing m with
  | nil => exact hm w t h
  | cons v vs ih => exact ih (getElem?_of_copyBinding hm) h

theorem getElem?_of_restrictedBindings {σ : Substitution} {vs : List Var} {w : Var} {t : Term}
    (h : (σ.restrictedBindings vs)[w]? = some t) : σ.bindings[w]? = some t :=
  getElem?_of_foldl_copyBinding vs (by simp) w t h

/-- The restriction to some variables.  Its scope is those variables and the variables of their
values. -/
def restrict (σ : Substitution) (vs : List Var) : Substitution where
  scope := vs.foldl (fun s v => match σ.bindings[v]? with
    | some t => (s.register v).addVariables t
    | none => s.register v) Scope.empty
  bindings := σ.restrictedBindings vs
  compressed := by
    intro v t hv w hw
    cases h : (σ.restrictedBindings vs)[w]? with
    | none => rfl
    | some u =>
      have := σ.compressed v t (getElem?_of_restrictedBindings hv) w hw
      rw [getElem?_of_restrictedBindings h] at this
      cases this

end Substitution
end Horn
