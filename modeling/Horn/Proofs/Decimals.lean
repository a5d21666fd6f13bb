import Horn.Proofs.Lexing
import Horn.Proofs.ShortestDecimals

/-!
Doubles in program text.  However a double is written, the digits before and after the point and the
power of ten denote its shortest decimal, so reading the text gives the double back.
-/

namespace Horn

/-! ## The sign bit -/

namespace Double

theorem neg_neg (x : Double) : x.neg.neg = x := by
  rw [neg, neg, UInt64.xor_assoc, UInt64.xor_self, UInt64.xor_zero]

theorem magnitude_neg (x : Double) : x.neg.magnitude = x.magnitude := by
  show x.neg.bits.toNat % 2 ^ 63 = x.bits.toNat % 2 ^ 63
  rw [neg, UInt64.toNat_xor, Nat.xor_mod_two_pow]
  exact Nat.xor_zero _

theorem isNegative_neg {x : Double} (h : x.isNegative = true) : x.neg.isNegative = false := by
  have hlow : 2 ^ 63 ≤ x.bits.toNat := of_decide_eq_true h
  have hhigh := x.bits.toNat_lt
  have hbit : x.bits.toNat / 2 ^ 63 = 1 := by omega
  have hdiv : x.neg.bits.toNat / 2 ^ 63 = 0 := by
    unfold neg
    rw [UInt64.toNat_xor, Nat.xor_div_two_pow, hbit]
    rfl
  refine decide_eq_false ?_
  omega

/-- The digits and the power of ten depend on the absolute value only. -/
theorem shortest_neg (x : Double) : x.neg.shortest = x.shortest := by
  unfold shortest roundingInterval significand exponent
  rw [magnitude_neg]

end Double

namespace Source

/-! ## Runs of digits -/

section

variable {a b : List Char} (n : Nat)

theorem ofDigits_append_zeros :
    Decimal.ofDigits (a ++ Double.zeros n) = Decimal.ofDigits a * 10 ^ n := by
  rw [Nat.mul_comm]
  exact (Nat.ofDigitChars_append 0).trans Nat.ofDigitChars_replicate_zero

theorem ofDigits_zeros_append : Decimal.ofDigits (Double.zeros n ++ b) = Decimal.ofDigits b := by
  refine (Nat.ofDigitChars_append 0).trans ?_
  rw [Double.zeros, Nat.ofDigitChars_replicate_zero, Nat.mul_zero]
  rfl

end

theorem exists_zeros (digits : List Char) :
    ∃ n, digits = Double.dropTrailingZeros digits ++ Double.zeros n := by
  refine ⟨(digits.reverse.takeWhile (· == '0')).length, ?_⟩
  have hzeros : digits.reverse.takeWhile (· == '0') =
      Double.zeros (digits.reverse.takeWhile (· == '0')).length :=
    List.eq_replicate_iff.2 ⟨rfl, fun c hc =>
      beq_iff_eq.1 (List.all_eq_true.1 List.all_takeWhile c hc)⟩
  have hreverse := congrArg List.reverse
    (List.takeWhile_append_dropWhile (p := (· == '0')) (l := digits.reverse))
  rw [List.reverse_append, List.reverse_reverse, hzeros, Double.zeros, List.reverse_replicate]
    at hreverse
  exact hreverse.symm

/-! ## Reading the parts of a number -/

theorem isDigit_of_mem_zeros (n : Nat) : ∀ c ∈ Double.zeros n, c.isDigit = true := by
  intro c hc
  obtain rfl := List.eq_of_mem_replicate hc
  decide

/-- A text that stands for a power of ten after the digits of a number. -/
def IsPower (e : List Char) (k : Int) : Prop := ∀ rest, isBoundary rest = true →
  (exponent? (e ++ rest)).getD (0, e ++ rest) = (k, rest) ∧
    ∀ c, (e ++ rest).head? = some c → c.isDigit = false

theorem isPower_nil : IsPower [] 0 := by
  intro rest hrest
  rw [List.nil_append, exponent?_of_isBoundary hrest]
  exact ⟨rfl, isDigit_of_isBoundary hrest⟩

theorem exponent?_int (k : Int) {rest : List Char} (hrest : isBoundary rest = true) :
    exponent? ('e' :: ((toString k).toList ++ rest)) = some (k, rest) := by
  have hspan (n : Nat) : Decimal.spanDigits (Nat.toDigits 10 n ++ rest) =
      (Nat.toDigits 10 n, rest) :=
    spanDigits_run isDigit_of_mem_toDigits (isDigit_of_isBoundary hrest)
  rw [exponent?]
  unfold signedDigits?
  cases k with
  | ofNat n =>
    have htext : (toString (Int.ofNat n)).toList = Nat.toDigits 10 n := toList_toString n
    have hsign : Decimal.splitSign (Nat.toDigits 10 n ++ rest) =
        (false, Nat.toDigits 10 n ++ rest) := by
      obtain ⟨c, w, -, hcw, hc⟩ := exists_digit n
      rw [hcw, List.cons_append, Decimal.splitSign]
      · rintro more hmore
        cases hmore
        exact absurd hc (by decide)
      · rintro more hmore
        cases hmore
        exact absurd hc (by decide)
    rw [htext]
    simp [hsign, hspan, Decimal.signed, ofDigits_toDigits]
  | negSucc n =>
    have htext : (toString (Int.negSucc n)).toList = '-' :: Nat.toDigits 10 (n + 1) := by
      change ("-" ++ toString (n + 1)).toList = _
      rw [String.toList_append, toList_toString]
      rfl
    rw [htext]
    simp [Decimal.splitSign, hspan, Decimal.signed, ofDigits_toDigits, Int.negSucc_eq]

theorem isPower_int (k : Int) : IsPower ('e' :: (toString k).toList) k := by
  intro rest hrest
  rw [List.cons_append, exponent?_int k hrest]
  exact ⟨rfl, fun c hc => by cases hc; decide⟩

section

variable {whole fraction e rest : List Char} {k : Int}
  (hwhole : ∀ c ∈ whole, c.isDigit = true)

include hwhole

theorem number_fraction (hfraction : ∀ c ∈ fraction, c.isDigit = true) (hne : fraction ≠ [])
    (he : IsPower e k) (hrest : isBoundary rest = true) :
    number (whole ++ '.' :: (fraction ++ (e ++ rest))) =
      .ok (.float (Decimal.ofParts whole fraction k).toDouble, rest) := by
  obtain ⟨hpower, hstop⟩ := he rest hrest
  have hspan : Decimal.spanDigits (whole ++ '.' :: (fraction ++ (e ++ rest))) = (whole, _) :=
    spanDigits_run hwhole (fun c hc => by cases hc; decide)
  have hpoint : fraction? ('.' :: (fraction ++ (e ++ rest))) = some (fraction, e ++ rest) := by
    rw [fraction?, spanDigits_run hfraction hstop]
    simp [hne]
  simp [number, hspan, hpoint, hpower]

theorem number_power (hrest : isBoundary rest = true) :
    number (whole ++ ('e' :: (toString k).toList ++ rest)) =
      .ok (.float (Decimal.ofParts whole [] k).toDouble, rest) := by
  have hspan : Decimal.spanDigits (whole ++ 'e' :: ((toString k).toList ++ rest)) = (whole, _) :=
    spanDigits_run hwhole (fun c hc => by cases hc; decide)
  have hpoint : fraction? ('e' :: ((toString k).toList ++ rest)) = none := rfl
  simp only [number, List.cons_append, hspan, hpoint, Option.getD_none, exponent?_int k hrest,
    Option.getD_some, Option.isSome_some, Bool.or_true, if_true]

end

/-! ## The written forms -/

section

variable {s : String} {whole fraction e : List Char} {k : Int}
  (hwhole : ∀ c ∈ whole, c.isDigit = true) (hne : whole ≠ [])

include hwhole hne

theorem spells_fraction (hs : s.toList = whole ++ '.' :: (fraction ++ e))
    (hfraction : ∀ c ∈ fraction, c.isDigit = true) (hsome : fraction ≠ []) (he : IsPower e k) :
    Spells s [.float (Decimal.ofParts whole fraction k).toDouble] := by
  refine spells_number hs hwhole hne fun rest hrest => ?_
  rw [List.cons_append, List.append_assoc]
  exact number_fraction hwhole hfraction hsome he hrest

theorem spells_power (hs : s.toList = whole ++ 'e' :: (toString k).toList) :
    Spells s [.float (Decimal.ofParts whole [] k).toDouble] :=
  spells_number hs hwhole hne fun _ hrest => number_power hwhole hrest

end

section

variable {digits : List Char} (hdigits : ∀ c ∈ digits, c.isDigit = true) (hne : digits ≠ [])
  (point : Int)

include hdigits hne

/-- Digits with a point among them. -/
theorem spells_positional (hpoint : Double.sourceForm.positional point = true) :
    ∃ d : Decimal, d.value = Decimal.ofDigits digits * 10 ^ (point - digits.length) ∧
      Spells (Double.sourceForm.write digits point) [.float d.toDouble] := by
  rw [Double.WrittenForm.write, if_pos hpoint]
  split
  next hle =>
    refine ⟨Decimal.ofParts ['0'] (Double.zeros (-point).toNat ++ digits) 0, ?_, ?_⟩
    · have hcoefficient : Decimal.ofDigits (['0'] ++ (Double.zeros (-point).toNat ++ digits)) =
          Decimal.ofDigits digits :=
        (ofDigits_zeros_append 1).trans (ofDigits_zeros_append _)
      rw [Decimal.value, Decimal.ofParts, hcoefficient]
      congr 2
      simp [Double.zeros]
      omega
    · refine spells_fraction (isDigit_of_mem_zeros 1) (List.cons_ne_nil _ _) (by simp) ?_
        (by simp [hne]) isPower_nil
      exact List.forall_mem_append.2 ⟨isDigit_of_mem_zeros _, hdigits⟩
  next hgt =>
    split
    next hlength =>
      refine ⟨Decimal.ofParts (digits ++ Double.zeros (point.toNat - digits.length)) ['0'] 0, ?_, ?_⟩
      · have hcoefficient : Decimal.ofDigits
            (digits ++ Double.zeros (point.toNat - digits.length) ++ ['0']) =
              Decimal.ofDigits digits * 10 ^ (point.toNat - digits.length) * 10 :=
          (ofDigits_append_zeros 1).trans (congrArg (· * 10 ^ 1) (ofDigits_append_zeros _))
        have hplaces : point - digits.length = (point.toNat - digits.length : Nat) := by omega
        rw [Decimal.value, Decimal.ofParts, hcoefficient, hplaces, zpow_natCast]
        push_cast
        simp
      · refine spells_fraction ?_ (by simp [hne]) (by simp [Double.sourceForm])
          (isDigit_of_mem_zeros 1) (List.cons_ne_nil _ _) isPower_nil
        exact List.forall_mem_append.2 ⟨hdigits, isDigit_of_mem_zeros _⟩
    next hlength =>
      refine ⟨Decimal.ofParts (digits.take point.toNat) (digits.drop point.toNat) 0, ?_, ?_⟩
      · rw [Decimal.value, Decimal.ofParts, List.take_append_drop]
        congr 2
        simp
        omega
      · refine spells_fraction (fun c hc => hdigits c (List.mem_of_mem_take hc)) ?_ (by simp)
          (fun c hc => hdigits c (List.mem_of_mem_drop hc)) ?_ isPower_nil
        · simp [hne]
          omega
        · simp
          omega

/-- One digit before the point and a power of ten. -/
theorem spells_scientific (hpoint : Double.sourceForm.positional point = false) :
    ∃ d : Decimal, d.value = Decimal.ofDigits digits * 10 ^ (point - digits.length) ∧
      Spells (Double.sourceForm.write digits point) [.float d.toDouble] := by
  obtain ⟨c, fraction, rfl⟩ := List.exists_cons_of_ne_nil hne
  obtain ⟨hc, hfraction⟩ := List.forall_mem_cons.1 hdigits
  refine ⟨Decimal.ofParts [c] fraction (point - 1), ?_, ?_⟩
  · rw [Decimal.value, Decimal.ofParts]
    congr 2
    simp
    omega
  · have hfirst : ∀ d ∈ [c], d.isDigit = true := by simpa using hc
    rw [Double.WrittenForm.write, hpoint]
    cases fraction with
    | nil => exact spells_power hfirst (List.cons_ne_nil _ _) (by simp)
    | cons f fraction =>
      exact spells_fraction hfirst (List.cons_ne_nil _ _) (by simp) hfraction
        (List.cons_ne_nil _ _) (isPower_int (point - 1))

end

/-! ## Doubles -/

/-- The text of the shortest decimal of a positive double. -/
theorem spells_shortest {x : Double} (hx : x.IsFinite) (hpos : 0 < x.magnitude)
    (hsign : x.isNegative = false) :
    Spells (Double.sourceForm.write
        (Double.dropTrailingZeros (Nat.toDigits 10 x.shortest.coefficient))
        ((Nat.toDigits 10 x.shortest.coefficient).length + x.shortest.exponent)) [.float x] := by
  have hrounds := Double.rounds_shortest hpos
  obtain ⟨n, hn⟩ := exists_zeros (Nat.toDigits 10 x.shortest.coefficient)
  have hdigits := isDigit_of_mem_toDigits (n := x.shortest.coefficient)
  have hcoefficient := ofDigits_toDigits x.shortest.coefficient
  generalize Nat.toDigits 10 x.shortest.coefficient = all at hn hdigits hcoefficient ⊢
  generalize Double.dropTrailingZeros all = digits at hn ⊢
  subst hn
  rw [ofDigits_append_zeros] at hcoefficient
  have hne : digits ≠ [] := by
    rintro rfl
    have hpositive := hrounds.coefficient_pos hpos
    rw [← hcoefficient] at hpositive
    exact absurd hpositive (by simp [Decimal.ofDigits])
  have hread : ∃ d : Decimal, d.value = Decimal.ofDigits digits *
      10 ^ ((digits ++ Double.zeros n).length + x.shortest.exponent - digits.length) ∧
        Spells (Double.sourceForm.write digits
          ((digits ++ Double.zeros n).length + x.shortest.exponent)) [.float d.toDouble] := by
    cases hpoint : Double.sourceForm.positional
        ((digits ++ Double.zeros n).length + x.shortest.exponent)
    · exact spells_scientific (List.forall_mem_append.1 hdigits).1 hne _ hpoint
    · exact spells_positional (List.forall_mem_append.1 hdigits).1 hne _ hpoint
  obtain ⟨d, hvalue, hspells⟩ := hread
  have hsame : d.value = x.shortest.value := by
    have hplaces : ((digits ++ Double.zeros n).length : Int) + x.shortest.exponent -
        digits.length = n + x.shortest.exponent := by
      simp [Double.zeros]
      omega
    rw [hvalue, hplaces, Decimal.value, ← hcoefficient, zpow_add₀ (by norm_num), zpow_natCast]
    push_cast
    ring
  rwa [Double.toDouble_of_rounds hx hpos (hsame ▸ hrounds), Double.ofNat_magnitude hsign] at hspells

theorem text_of_nonneg {x : Double} (hx : x.IsFinite) (hsign : x.isNegative = false) :
    x.text = if x.magnitude = 0 then "0.0" else Double.sourceForm.write
      (Double.dropTrailingZeros (Nat.toDigits 10 x.shortest.coefficient))
      ((Nat.toDigits 10 x.shortest.coefficient).length + x.shortest.exponent) := by
  have hnan : x.isNaN = false := decide_eq_false hx.not_gt
  have hinfinite : x.isInfinite = false := beq_eq_false_iff_ne.2 hx.ne
  simp only [Double.text, Double.written, hnan, hinfinite, hsign, Bool.false_eq_true, if_false,
    String.empty_append]
  rfl

theorem text_of_isNegative {x : Double} (hx : x.IsFinite) (hsign : x.isNegative = true) :
    x.text = "-" ++ x.neg.text := by
  have hnan : x.isNaN = false := decide_eq_false hx.not_gt
  have hinfinite : x.isInfinite = false := beq_eq_false_iff_ne.2 hx.ne
  have hneg : x.neg.IsFinite := by rwa [Double.IsFinite, Double.magnitude_neg]
  rw [text_of_nonneg hneg (Double.isNegative_neg hsign), Double.magnitude_neg, Double.shortest_neg]
  simp only [Double.text, Double.written, hnan, hinfinite, hsign, Bool.false_eq_true, if_false,
    if_true, String.append_assoc]
  split <;> rfl

/-- The tokens of a double: a minus is a token of its own. -/
def floatTokens (x : Double) : List Token :=
  if x.isNegative then [.op "-", .float x.neg] else [.float x]

theorem spells_float_of_nonneg {x : Double} (hx : x.IsFinite) (hsign : x.isNegative = false) :
    Spells x.text [.float x] := by
  rw [text_of_nonneg hx hsign]
  split
  next hzero =>
    have hself := Double.ofNat_magnitude hsign
    rw [hzero] at hself
    rw [← hself]
    exact spells_fraction (isDigit_of_mem_zeros 1) (List.cons_ne_nil _ _) rfl
      (isDigit_of_mem_zeros 1) (List.cons_ne_nil _ _) isPower_nil
  next hpos => exact spells_shortest hx (Nat.pos_of_ne_zero hpos) hsign

/-- The text of a double is read as this double. -/
theorem spells_float {x : Double} (h : x.IsFinite) : Spells x.text (floatTokens x) := by
  unfold floatTokens
  split
  next hsign =>
    have hneg : x.neg.IsFinite := by rwa [Double.IsFinite, Double.magnitude_neg]
    rw [text_of_isNegative h hsign]
    exact marks_minus.append_spells (spells_float_of_nonneg hneg (Double.isNegative_neg hsign))
  next hsign => exact spells_float_of_nonneg h (Bool.eq_false_iff.2 hsign)

end Source
end Horn
