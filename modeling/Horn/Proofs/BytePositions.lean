import Horn.Source.Token
import Mathlib.Data.String.Basic

/-!
Positions in a text.  A position counts the bytes before it in UTF-8, and a slice of a text exists where
both of its ends stand between two characters or at an end of the text.  Lines and columns count
characters, and can be kept up to date on the way.
-/

namespace Horn

open String (utf8Len)

namespace Text

/-! ## Slices -/

/-- What follows a number of bytes, when they are whole characters of the text. -/
def dropBytes? : Nat → List Char → Option (List Char)
  | 0, cs => some cs
  | _ + 1, [] => none
  | n + 1, c :: cs => if c.utf8Size ≤ n + 1 then dropBytes? (n + 1 - c.utf8Size) cs else none

/-- The given number of bytes, when they are whole characters of the text. -/
def takeBytes? : Nat → List Char → Option (List Char)
  | 0, _ => some []
  | _ + 1, [] => none
  | n + 1, c :: cs =>
    if c.utf8Size ≤ n + 1 then (takeBytes? (n + 1 - c.utf8Size) cs).map (c :: ·) else none

/-- What stands between two byte positions. -/
def slice? (text : List Char) (first last : Nat) : Option (List Char) :=
  if first ≤ last then (dropBytes? first text).bind (takeBytes? (last - first)) else none

theorem dropBytes?_append (front rest : List Char) :
    dropBytes? (utf8Len front) (front ++ rest) = some rest := by
  induction front with
  | nil => rw [String.utf8Len_nil, List.nil_append, dropBytes?]
  | cons c front ih =>
    have hpos := c.utf8Size_pos
    obtain ⟨n, hn⟩ : ∃ n, utf8Len front + c.utf8Size = n + 1 :=
      ⟨utf8Len front + c.utf8Size - 1, by omega⟩
    rw [String.utf8Len_cons, hn, List.cons_append, dropBytes?, if_pos (by omega), ← hn,
      Nat.add_sub_cancel, ih]

theorem dropBytes?_eq_some_iff {n : Nat} {cs rest : List Char} :
    dropBytes? n cs = some rest ↔ ∃ front, front ++ rest = cs ∧ utf8Len front = n := by
  constructor
  · intro h
    fun_induction dropBytes? n cs with
    | case1 cs => exact ⟨[], Option.some.inj h.symm, String.utf8Len_nil⟩
    | case2 => cases h
    | case3 n c cs hle ih =>
      obtain ⟨front, rfl, hlen⟩ := ih h
      exact ⟨c :: front, rfl, by rw [String.utf8Len_cons, hlen]; omega⟩
    | case4 => cases h
  · rintro ⟨front, rfl, rfl⟩
    exact dropBytes?_append front rest

theorem takeBytes?_append (front rest : List Char) :
    takeBytes? (utf8Len front) (front ++ rest) = some front := by
  induction front with
  | nil => rw [String.utf8Len_nil, takeBytes?]
  | cons c front ih =>
    have hpos := c.utf8Size_pos
    obtain ⟨n, hn⟩ : ∃ n, utf8Len front + c.utf8Size = n + 1 :=
      ⟨utf8Len front + c.utf8Size - 1, by omega⟩
    rw [String.utf8Len_cons, hn, List.cons_append, takeBytes?, if_pos (by omega), ← hn,
      Nat.add_sub_cancel, ih, Option.map_some]

theorem takeBytes?_eq_some_iff {n : Nat} {cs word : List Char} :
    takeBytes? n cs = some word ↔ ∃ rest, word ++ rest = cs ∧ utf8Len word = n := by
  constructor
  · intro h
    fun_induction takeBytes? n cs generalizing word with
    | case1 cs => exact Option.some.inj h ▸ ⟨cs, rfl, String.utf8Len_nil⟩
    | case2 => cases h
    | case3 n c cs hle ih =>
      obtain ⟨word, hword, rfl⟩ := Option.map_eq_some_iff.1 h
      obtain ⟨rest, rfl, hlen⟩ := ih hword
      exact ⟨rest, rfl, by rw [String.utf8Len_cons, hlen]; omega⟩
    | case4 => cases h
  · rintro ⟨rest, rfl, rfl⟩
    exact takeBytes?_append word rest

/-- A slice exists exactly between positions that stand before characters of the text or at its end. -/
theorem slice?_eq_some_iff {text word : List Char} {first last : Nat} :
    slice? text first last = some word ↔ ∃ front rest, front ++ (word ++ rest) = text ∧
      utf8Len front = first ∧ utf8Len front + utf8Len word = last := by
  rw [slice?]
  constructor
  · intro h
    obtain ⟨hle, h⟩ := Option.ite_none_right_eq_some.1 h
    obtain ⟨after, hafter, hword⟩ := Option.bind_eq_some_iff.1 h
    obtain ⟨front, rfl, hfront⟩ := dropBytes?_eq_some_iff.1 hafter
    obtain ⟨rest, rfl, hlen⟩ := takeBytes?_eq_some_iff.1 hword
    exact ⟨front, rest, rfl, hfront, by omega⟩
  · rintro ⟨front, rest, rfl, rfl, rfl⟩
    rw [if_pos (Nat.le_add_right _ _), dropBytes?_append, Option.bind_some, Nat.add_sub_cancel_left,
      takeBytes?_append]

theorem slice?_append (front word rest : List Char) :
    slice? (front ++ (word ++ rest)) (utf8Len front) (utf8Len front + utf8Len word) = some word :=
  slice?_eq_some_iff.2 ⟨front, rest, rfl, rfl, rfl⟩

/-! ## Searching -/

/-- The byte position at which a text first has a pattern. -/
def find? (pattern : List Char) : List Char → Option Nat
  | [] => none
  | c :: cs =>
    if pattern.isPrefixOf (c :: cs) then some 0 else (find? pattern cs).map (· + c.utf8Size)

/-- What stands before a character is as long as the position of the character, or all of the text. -/
theorem find?_char (d : Char) (cs : List Char) :
    (find? [d] cs).getD (utf8Len cs) = utf8Len (cs.takeWhile (· != d)) := by
  induction cs with
  | nil => rfl
  | cons c cs ih =>
    by_cases hc : c = d
    · subst hc
      simp [find?]
    · have hne : ¬ d = c := fun h => hc h.symm
      have hgo : (c :: cs).takeWhile (· != d) = c :: cs.takeWhile (· != d) :=
        List.takeWhile_cons_of_pos (by simpa using hc)
      rw [hgo, String.utf8Len_cons, String.utf8Len_cons, ← ih, find?, if_neg (by simpa using hne)]
      cases find? [d] cs <;> rfl

/-- The end of a block comment is found where it is, and not found where there is none. -/
theorem find?_afterComment (cs : List Char) :
    match find? ['*', '/'] cs with
    | some n => ∃ inside rest, inside ++ '*' :: '/' :: rest = cs ∧ utf8Len inside = n ∧
        Source.afterComment? cs = some rest
    | none => Source.afterComment? cs = none := by
  fun_induction Source.afterComment? cs with
  | case1 rest => exact ⟨[], rest, rfl, String.utf8Len_nil, rfl⟩
  | case2 c cs hne ih =>
    have hmiss : ¬ ['*', '/'].isPrefixOf (c :: cs) = true := by
      intro h
      obtain ⟨more, hmore⟩ := List.isPrefixOf_iff_prefix.1 h
      obtain ⟨rfl, rfl⟩ := List.cons.inj hmore
      exact hne more rfl rfl
    rw [find?, if_neg hmiss]
    cases hfind : find? ['*', '/'] cs with
    | none =>
      rw [hfind] at ih
      exact ih
    | some n =>
      rw [hfind] at ih
      obtain ⟨inside, rest, rfl, hlen, hafter⟩ := ih
      exact ⟨c :: inside, rest, rfl, by rw [String.utf8Len_cons, hlen], hafter⟩
  | case3 => rfl

end Text

theorem Source.suffix_afterComment? {cs after : List Char}
    (h : afterComment? cs = some after) : after <:+ cs := by
  fun_induction afterComment? cs with
  | case1 cs => exact Option.some.inj h ▸ (List.suffix_cons _ _).trans (List.suffix_cons _ _)
  | case2 c cs _ ih => exact (ih h).trans (List.suffix_cons _ _)
  | case3 => cases h

/-! ## Lines and columns -/

/-- The line and the column after one more character. -/
def Fault.stepPlace (place : Nat × Nat) (c : Char) : Nat × Nat :=
  if c = '\n' then (place.1 + 1, 1) else (place.1, place.2 + 1)

theorem Fault.place_concat (front : List Char) (c : Char) :
    Fault.place (front ++ [c]) = Fault.stepPlace (Fault.place front) c := by
  by_cases hc : c = '\n'
  · simp [Fault.place, Fault.stepPlace, hc]
  · simp [Fault.place, Fault.stepPlace, hc]

/-- The line and the column after a text are found by counting on from any place in it. -/
theorem Fault.foldl_stepPlace (word front : List Char) :
    word.foldl Fault.stepPlace (Fault.place front) = Fault.place (front ++ word) := by
  induction word generalizing front with
  | nil => rw [List.append_nil, List.foldl_nil]
  | cons c word ih =>
    rw [List.foldl_cons, ← Fault.place_concat, ih, List.append_assoc, List.singleton_append]

end Horn
