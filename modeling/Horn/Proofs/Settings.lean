import Horn.Options
import Horn.Proofs.Lexing

/-!
Options as a record of values by key.  A key accepts numbers below its bound, or flags; the value put
under a key is the one found there and leaves the others, and the text of an accepted value sets it.
-/

namespace Horn

namespace OptionKey

/-- Whether an option can have the value. -/
def accepts (k : OptionKey) (v : OptionValue) : Bool :=
  match k.bound?, v with
  | some bound, .number n => n < bound
  | none, .flag _ => true
  | _, _ => false

theorem ofName?_name (k : OptionKey) : ofName? k.name = some k := by
  cases k <;> decide

end OptionKey

namespace Options

/-- Every option has a value that its key accepts. -/
def InRange (o : Options) : Prop := ∀ k : OptionKey, k.accepts (o.get k) = true

theorem inRange_default : default.InRange := by
  intro k
  cases k <;> decide

/-- Options are what is found under their keys. -/
theorem ext_get {o o' : Options} (h : ∀ k, o.get k = o'.get k) : o = o' := by
  obtain ⟨i, c, steps, clauses, answers, update, logging, verbose, names⟩ := o
  obtain ⟨i', c', steps', clauses', answers', update', logging', verbose', names'⟩ := o'
  simp only [Options.mk.injEq]
  exact ⟨OptionValue.number.inj (h .i), OptionValue.number.inj (h .c),
    OptionValue.number.inj (h .h), OptionValue.number.inj (h .maxClauses),
    OptionValue.number.inj (h .maxRecall), OptionValue.flag.inj (h .updateKnowledge),
    OptionValue.flag.inj (h .logging), OptionValue.number.inj (h .verbose),
    OptionValue.flag.inj (h .genericVariableNames)⟩

theorem get_put {o : Options} {k : OptionKey} {v : OptionValue} (h : k.accepts v = true)
    (j : OptionKey) : (o.put k v).get j = if j = k then v else o.get j := by
  cases v <;> cases k <;> first | cases h; done | (cases j <;> rfl)

theorem InRange.put {o : Options} (ho : o.InRange) {k : OptionKey} {v : OptionValue}
    (h : k.accepts v = true) : (o.put k v).InRange := by
  intro j
  rw [get_put h]
  split
  next hj => rwa [hj]
  next => exact ho j

theorem number?_lt {bound n : Nat} {s : String} (h : number? bound s = some n) : n < bound := by
  simp only [number?, Option.ite_none_left_eq_some, Option.ite_none_right_eq_some,
    Option.some.injEq] at h
  exact h.2.2 ▸ h.2.1

/-- Setting an option from text puts a value that its key accepts. -/
theorem exists_of_set {o o' : Options} {key value : String} (h : o.set key value = .ok o') :
    ∃ k v, OptionKey.accepts k v = true ∧ o' = o.put k v := by
  simp only [set] at h
  split at h
  next => cases h
  next k _ =>
    split at h
    next bound hbound =>
      split at h
      next n hn =>
        refine ⟨k, .number n, ?_, (Except.ok.inj h).symm⟩
        simpa [OptionKey.accepts, hbound] using number?_lt hn
      next => cases h
    next hbound =>
      split at h
      next b _ => exact ⟨k, .flag b, by simp [OptionKey.accepts, hbound], (Except.ok.inj h).symm⟩
      next => cases h

theorem InRange.set {o o' : Options} (ho : o.InRange) {key value : String}
    (h : o.set key value = .ok o') : o'.InRange := by
  obtain ⟨k, v, hv, rfl⟩ := exists_of_set h
  exact ho.put hv

/-! ## Setting an option from the text of its value -/

theorem trim_of_not_blank {s : String} (h : ∀ c ∈ s.toList, Text.isBlank c = false) :
    Text.trim s = s := by
  have hdrop : ∀ cs : List Char, (∀ c ∈ cs, Text.isBlank c = false) →
      cs.dropWhile Text.isBlank = cs := by
    intro cs hcs
    cases cs with
    | nil => rfl
    | cons c cs => exact List.dropWhile_cons_of_neg (by simp [hcs c List.mem_cons_self])
  rw [Text.trim, hdrop _ h, String.ofList_toList, Text.trimRight,
    hdrop _ fun c hc => h c (List.mem_reverse.1 hc), List.reverse_reverse, String.ofList_toList]

theorem number?_toString {bound n : Nat} (h : n < bound) : number? bound (toString n) = some n := by
  obtain ⟨c, w, htext, hcw, hc⟩ := Source.exists_digit n
  have hplus : c ≠ '+' := by
    rintro rfl
    exact absurd hc (by decide)
  have hall : (c :: w).all Char.isDigit = true := by
    rw [← hcw, List.all_eq_true]
    exact Source.isDigit_of_mem_toDigits
  have hvalue : (c :: w).foldl (fun n c => 10 * n + (c.toNat - '0'.toNat)) 0 = n := by
    rw [← hcw]
    exact Source.ofDigits_toDigits n
  unfold number?
  rw [htext]
  split
  next r hr =>
    cases hr
    exact absurd rfl hplus
  next =>
    rw [if_neg (by simp [hall])]
    simp only [hvalue, if_pos h]

theorem set_text (o : Options) {k : OptionKey} {v : OptionValue} (h : k.accepts v = true) :
    o.set k.name v.text = .ok (o.put k v) := by
  have htrim : Text.trim v.text = v.text := by
    cases v with
    | number n =>
      refine trim_of_not_blank fun c hc => ?_
      rw [OptionValue.text, Source.toList_toString] at hc
      exact Source.not_isBlank_of_isWordChar
        (Source.isWordChar_of_isDigit (Source.isDigit_of_mem_toDigits c hc))
    | flag b => cases b <;> rfl
  rw [set, OptionKey.ofName?_name, htrim]
  cases hbound : k.bound? with
  | none =>
    cases v with
    | number n => simp [OptionKey.accepts, hbound] at h
    | flag b =>
      simp only [hbound]
      cases b <;> rfl
  | some bound =>
    cases v with
    | number n =>
      have hn : n < bound := by simpa [OptionKey.accepts, hbound] using h
      simp only [hbound, OptionValue.text, number?_toString hn]
    | flag b => simp [OptionKey.accepts, hbound] at h

/-! ## The changed options -/

theorem get_foldl_put {o : Options} (ho : o.InRange) (ks : List OptionKey) (base : Options)
    (j : OptionKey) : (ks.foldl (fun b k => b.put k (o.get k)) base).get j =
      if j ∈ ks then o.get j else base.get j := by
  induction ks generalizing base with
  | nil => simp
  | cons k ks ih =>
    rw [List.foldl_cons, ih, get_put (ho k)]
    by_cases hj : j = k
    · simp [hj]
    · simp [hj]

/-- The options that differ from the defaults, put over the defaults. -/
theorem foldl_put_changed {o : Options} (ho : o.InRange) :
    (OptionKey.all.filter fun k => o.get k != default.get k).foldl (fun b k => b.put k (o.get k))
      default = o := by
  refine ext_get fun j => ?_
  have hall : j ∈ OptionKey.all := by cases j <;> decide
  rw [get_foldl_put ho]
  split
  next => rfl
  next hj =>
    rw [List.mem_filter, bne_iff_ne] at hj
    exact (Classical.not_not.1 fun hne => hj ⟨hall, hne⟩).symm

end Options
end Horn
