import Horn.Proofs.Productions
import Horn.Proofs.ScannedTokens

/-!
Parsing ends and stays in the text.  A reader keeps a scan, the current token and its place, and looks
ahead by scanning on and putting back what the scan keeps; it shows the cursor that the grammar works on.
Each statement takes a piece of the text that is not empty, so that no text holds more statements than
characters.
-/

namespace Horn
namespace Source

/-! ## Readers -/

/-- A scan with the token before it and the place of that token. -/
structure Reader where
  scan : Scan
  current : Token
  place : Nat × Nat

namespace Reader

section

variable (text : List Char)

/-- Reads the next token of a scan. -/
def read (s : Scan) : Except Halt Reader := do
  let (t, after) ← s.next text (text.length + 1)
  return ⟨after, t, after.start⟩

/-- The reader at the first token. -/
def start : Except Halt Reader := read text Scan.begin

def advance (r : Reader) : Except Halt Reader := read text r.scan

/-- The token after the current one.  The scan is put back to where it was. -/
def peek (r : Reader) : Except Halt (Token × Reader) := do
  let (t, after) ← r.scan.next text (text.length + 1)
  return (t, { r with
    scan := { after with
      position := r.scan.position
      place := r.scan.place
      start := r.scan.start } })

/-- The reader has read the current token of the cursor, at its place, and will scan those after it. -/
structure Shows (r : Reader) (c : Cursor) : Prop where
  current : r.current = c.current
  place : r.place = placeBefore text c.text
  scan : ∃ rest, rest <:+ text ∧ r.scan = Scan.before text rest r.place ∧
    lexemes rest = ⟨c.left.items.tail, c.left.fault⟩

/-- The outcome shows what the cursor comes to. -/
def ShowsOutcome (r : Except Halt Reader) (c : Except Fault Cursor) : Prop :=
  match c with
  | .ok c => ∃ r', r = .ok r' ∧ r'.Shows text c
  | .error f => r = .error (haltOf text f)

end

variable {text rest : List Char} {r : Reader} {c : Cursor}

theorem read_before (h : rest <:+ text) (start : Nat × Nat) (anonymous : Nat) :
    ShowsOutcome text (read text (Scan.before text rest start))
      (Cursor.settle ⟨lexemes rest, anonymous⟩) := by
  have hnil : lexemes [] = ⟨[], none⟩ := by
    rw [lexemes_eq, skipBlanks.eq_def]
  rw [read, Scan.next_before h (Nat.lt_succ_of_le h.length_le), lexemes_eq]
  cases hskip : skipBlanks rest with
  | error f => rfl
  | ok left =>
    cases left with
    | nil => exact ⟨_, rfl, rfl, rfl, [], List.nil_suffix, rfl, hnil⟩
    | cons c cs =>
      have hleft := suffix_skipBlanks hskip
      cases ht : token c cs with
      | error f =>
        dsimp only
        rw [ht]
        rfl
      | ok p =>
        have hafter := suffix_token ht
        dsimp only
        rw [ht]
        exact ⟨_, rfl, rfl, rfl, p.2, (hafter.trans hleft).trans h, rfl, rfl⟩

/-- The reader of a text starts as the cursor does. -/
theorem start_shows (source : String) :
    ShowsOutcome source.toList (start source.toList) (Cursor.start source) := by
  have hbegin : Scan.begin = Scan.before source.toList source.toList (1, 1) :=
    (Scan.before_append [] source.toList (1, 1)).symm
  rw [start, hbegin]
  exact read_before (List.suffix_refl _) (1, 1) 0

/-- Moving on shows the cursor on the next token. -/
theorem Shows.advance (h : r.Shows text c) :
    ShowsOutcome text (r.advance text) (c.withItems c.left.items.tail).settle := by
  obtain ⟨rest, hrest, hscan, hlexemes⟩ := h.scan
  rw [Reader.advance, hscan]
  have hread := read_before hrest r.place c.anonymous
  rwa [hlexemes] at hread

/-- Looking ahead finds the next token and leaves the reader as it is. -/
theorem Shows.peek (h : r.Shows text c) : r.peek text =
    match c.peek with
    | .ok t => .ok (t, r)
    | .error f => .error (haltOf text f) := by
  have hadvance := h.advance
  rw [Reader.advance, read] at hadvance
  rw [Reader.peek, Cursor.peek]
  cases hnext : r.scan.next text (text.length + 1) with
  | error halt =>
    rw [hnext] at hadvance
    cases hsettle : (c.withItems c.left.items.tail).settle with
    | error f =>
      rw [hsettle] at hadvance
      obtain rfl : halt = haltOf text f := Except.error.inj hadvance
      rfl
    | ok d =>
      rw [hsettle] at hadvance
      obtain ⟨r', hr', -⟩ := hadvance
      cases hr'
  | ok p =>
    rw [hnext] at hadvance
    cases hsettle : (c.withItems c.left.items.tail).settle with
    | error f =>
      rw [hsettle] at hadvance
      cases hadvance
    | ok d =>
      rw [hsettle] at hadvance
      obtain ⟨r', hr', hshows⟩ := hadvance
      cases hr'
      exact congrArg (fun t => Except.ok (t, r)) hshows.current

theorem Shows.of_left_eq {d : Cursor} (h : r.Shows text c) (hleft : d.left = c.left) :
    r.Shows text d := by
  obtain ⟨left, anonymous⟩ := d
  obtain rfl : left = c.left := hleft
  exact ⟨h.current, h.place, h.scan⟩

theorem settle_eq_ok (h : c.left.items = [] → c.left.fault = none) : c.settle = .ok c := by
  unfold Cursor.settle
  split
  next f hitems hfault =>
    rw [h hitems] at hfault
    cases hfault
  next => rfl

/-- A cursor that goes on from the start of a text is shown by a reader of the text. -/
theorem exists_shows {source : String} {b : Cursor} (hb : Cursor.start source = .ok b)
    (h : b.Follows c) : ∃ r : Reader, r.Shows source.toList c := by
  have hstart := start_shows source
  rw [hb] at hstart
  obtain ⟨r, -, hr⟩ := hstart
  obtain ⟨⟨front, hfront⟩, hfault, hsettled⟩ := h
  clear hb
  -- The reader moves on by the tokens between the two cursors.
  induction front generalizing b r with
  | nil =>
    refine ⟨r, hr.of_left_eq ?_⟩
    rw [List.nil_append] at hfront
    show Lexemes.mk c.left.items c.left.fault = b.left
    rw [hfront, hfault]
  | cons l front ih =>
    have htail : b.left.items.tail = front ++ c.left.items := by rw [← hfront]; rfl
    have hadvance := hr.advance
    rw [htail, settle_eq_ok] at hadvance
    · obtain ⟨r', -, hr'⟩ := hadvance
      exact ih r' hr' hfault rfl
    · intro hnil
      exact hfault.symm.trans (hsettled (List.append_eq_nil_iff.1 hnil).2)

end Reader

/-! ## Statements take text away -/

theorem length_items_lexemes (cs : List Char) : (lexemes cs).items.length ≤ cs.length := by
  fun_induction lexemes cs with
  | case1 => exact Nat.zero_le _
  | case2 => exact Nat.zero_le _
  | case3 => exact Nat.zero_le _
  | case4 cs c rest hskip t after ht hle hlt _ ih =>
    have hafter := length_token ht
    have hskipped := length_skipBlanks hskip
    exact Nat.lt_of_le_of_lt ih (Nat.lt_of_lt_of_le hafter hskipped)

/-- Each token of a text was read from an end of it. -/
theorem of_mem_lexemes (cs : List Char) : ∀ l ∈ (lexemes cs).items, l.text <:+ cs ∧
    ∃ c rest after, l.text = c :: rest ∧ token c rest = .ok (l.token, after) := by
  fun_induction lexemes cs with
  | case1 => exact List.forall_mem_nil _
  | case2 => exact List.forall_mem_nil _
  | case3 => exact List.forall_mem_nil _
  | case4 cs c rest hskip t after ht _ _ _ ih =>
    have hleft := suffix_skipBlanks hskip
    refine List.forall_mem_cons.2 ⟨⟨hleft, c, rest, after, rfl, ht⟩, fun l hl => ?_⟩
    obtain ⟨hsuffix, hread⟩ := ih l hl
    exact ⟨hsuffix.trans ((suffix_token ht).trans hleft), hread⟩

/-- Text that is not empty stands before what is left. -/
def Takes (cs rest : List Char) : Prop := ∃ taken, taken ≠ [] ∧ taken ++ rest = cs

theorem takes_of_suffix {cs rest more : List Char} (h : Takes cs rest) (hmore : more <:+ rest) :
    Takes cs more := by
  obtain ⟨taken, hne, rfl⟩ := h
  obtain ⟨front, rfl⟩ := hmore
  exact ⟨taken ++ front, by simp [hne], by simp⟩

/-- Every token of a text takes text away from the later ones. -/
theorem pairwise_lexemes (cs : List Char) :
    (lexemes cs).items.Pairwise fun l m => Takes l.text m.text := by
  fun_induction lexemes cs with
  | case1 => exact .nil
  | case2 => exact .nil
  | case3 => exact .nil
  | case4 cs c rest hskip t after ht _ _ _ ih =>
    exact .cons (fun m hm => takes_of_suffix (exists_word ht) (of_mem_lexemes after m hm).1) ih

/-- What is read goes on from the cursor and takes text away. -/
def TakesText {α : Type} (b c : Cursor) (r : Reading α c.size) : Prop :=
  Yields r fun p => b.Follows p.rest ∧ Takes c.text p.rest.text

section

variable {source : String} {b c : Cursor} (hb : Cursor.start source = .ok b) (hc : b.Follows c)

include hb hc

theorem items_of_follows : c.left.items <:+ (lexemes source.toList).items := by
  have hleft := (Cursor.settled_start hb).1
  rw [← hleft]
  exact hc.items

/-- A cursor with fewer tokens left has text taken away before it. -/
theorem takes_of_fewer {d : Cursor} (hd : c.Follows d) (hfewer : d.size < c.size) :
    Takes c.text d.text := by
  have hitems := items_of_follows hb hc
  have hsuffix := hd.items
  unfold Cursor.size at hfewer
  unfold Cursor.text
  cases hcs : c.left.items with
  | nil =>
    rw [hcs] at hfewer
    exact absurd hfewer (Nat.not_lt_zero _)
  | cons l more =>
    rw [hcs] at hitems hsuffix hfewer
    rcases List.suffix_cons_iff.1 hsuffix with hsame | hmore
    · rw [hsame] at hfewer
      exact absurd hfewer (Nat.lt_irrefl _)
    · cases hds : d.left.items with
      | nil =>
        have hl := hitems.subset List.mem_cons_self
        obtain ⟨-, first, rest, -, htext, -⟩ := of_mem_lexemes _ l hl
        exact ⟨l.text, htext ▸ List.cons_ne_nil _ _, List.append_nil _⟩
      | cons m rest =>
        rw [hds] at hmore
        have hpairs := (pairwise_lexemes source.toList).sublist hitems.sublist
        exact (List.pairwise_cons.1 hpairs).1 m (hmore.subset List.mem_cons_self)

theorem takesText_of_advances {α : Type} {r : Reading α c.size} {P : α → Prop}
    (h : c.Follows c → Advances c r P) : TakesText b c r := by
  intro p hp
  have hrest := (h (.refl hc.settled) p hp).2
  exact ⟨hc.trans hrest, takes_of_fewer hb hc hrest p.fewer⟩

theorem text_eq_nil (h : c.current = .endOfText) : c.text = [] := by
  have hitems := items_of_follows hb hc
  unfold Cursor.current at h
  unfold Cursor.text
  cases hcs : c.left.items with
  | nil => rfl
  | cons l more =>
    rw [hcs] at h hitems
    obtain ⟨-, first, rest, after, -, hread⟩ := of_mem_lexemes _ l (hitems.subset List.mem_cons_self)
    exact absurd h (ne_endOfText hread)

end

/-- Statements take one piece of the text each. -/
theorem exists_pieces {source : String} {b : Cursor} (hb : Cursor.start source = .ok b) (c : Cursor)
    (hc : b.Follows c) : Yields (statements c) fun ss =>
      ∃ pieces : List (List Char), pieces.length = ss.length ∧ (∀ w ∈ pieces, w ≠ []) ∧
        pieces.flatten = c.text := by
  rw [statements]
  split
  next hend =>
    exact yields_ok ⟨[], rfl, List.forall_mem_nil _, (text_eq_nil hb hc hend).symm⟩
  next =>
    refine (takesText_of_advances hb hc advances_statement).bind ?_
    rintro ⟨s, d, hfewer⟩ ⟨hd, taken, hne, htaken⟩
    refine (exists_pieces hb d hd).bind ?_
    rintro ss ⟨pieces, hlen, hall, hflat⟩
    refine yields_ok ⟨taken :: pieces, ?_, List.forall_mem_cons.2 ⟨hne, hall⟩, ?_⟩
    · rw [List.length_cons, List.length_cons, hlen]
    · rw [List.flatten_cons, hflat, htaken]
termination_by c.size

/-- Reads statements in at most the given number of rounds. -/
def statementsWithin : Nat → Cursor → Option (Except Fault (List Statement))
  | 0, _ => none
  | rounds + 1, c =>
    if c.current = .endOfText then some (.ok [])
    else
      match statement c with
      | .error f => some (.error f)
      | .ok p => (statementsWithin rounds p.rest).map fun r => r.map (p.value :: ·)

theorem statementsWithin_eq {rounds : Nat} {c : Cursor} (h : c.size < rounds) :
    statementsWithin rounds c = some (statements c) := by
  induction rounds generalizing c with
  | zero => omega
  | succ rounds ih =>
    rw [statementsWithin, statements]
    split
    next => rfl
    next =>
      cases hs : statement c with
      | error f => rfl
      | ok p =>
        have hfewer := p.fewer
        dsimp only
        rw [ih (by omega)]
        cases hrest : statements p.rest <;> simp [hrest, Except.map, bind, Except.bind, pure, Except.pure]

/-! ## Whole texts -/

/-- The outcome is a value, or a fault in the line and the column of a place in the text. -/
def HasOutcome {α : Type} (source : String) (r : Except ParseError α) : Prop :=
  (∃ a, r = .ok a) ∨ ∃ e front rest, r = .error e ∧ front ++ rest = source.toList ∧
    e.line = 1 + front.count '\n' ∧ e.column = 1 + (front.reverse.takeWhile (· != '\n')).length

theorem hasOutcome_reading {α : Type} (source : String) (read : Cursor → Except Fault α) :
    HasOutcome source (reading source read) := by
  rw [reading]
  cases (Cursor.start source).bind read with
  | ok a => exact .inl ⟨a, rfl⟩
  | error f =>
    have hsplit := List.take_append_drop (source.toList.length - f.rest.length) source.toList
    exact .inr ⟨_, _, _, rfl, hsplit, Nat.add_comm _ _, Nat.add_comm _ _⟩

/-- The first token of a text starts after its blanks. -/
theorem skipBlanks_of_start {source : String} {b : Cursor} (hb : Cursor.start source = .ok b) :
    skipBlanks source.toList = .ok b.text := by
  obtain ⟨hleft, hsettled⟩ := Cursor.settled_start hb
  rw [hleft] at hsettled
  rw [Cursor.text, hleft]
  rw [lexemes_eq] at hsettled ⊢
  cases hskip : skipBlanks source.toList with
  | error f =>
    rw [hskip] at hsettled
    cases hsettled rfl
  | ok left =>
    rw [hskip] at hsettled
    cases left with
    | nil => rfl
    | cons c cs =>
      dsimp only at hsettled ⊢
      cases ht : token c cs with
      | error f =>
        rw [ht] at hsettled
        cases hsettled rfl
      | ok p => rfl

/-- Parsing ends and stays in the text.  Scanning by byte positions takes only slices that exist, reads
the tokens that the grammar gets, each from a piece of the text that is not empty and with its line and
column, and ends at the end of the text or at its fault.  A reader follows the grammar and is not changed
by looking ahead.  Whatever the grammar reads takes text away, the statements of a text are read in no
more rounds than it has characters and one more, and every outcome is a value or a fault with its place. -/
theorem parsing_ends_in_bounds (source : String) :
    let text := source.toList
    let scanned := Scan.begin.spots text (text.length + 1)
    (scanned.1.map (fun s => (s.token, s.place)) =
        (lexemes text).items.map (fun l => (l.token, placeBefore text l.text)) ∧
      scanned.2 = (lexemes text).ending text ∧ ∀ s ∈ scanned.1, s.LiesIn text) ∧
    (∀ b, Cursor.start source = .ok b →
      (∀ c, b.Follows c →
        (∃ r : Reader, r.Shows text c ∧ r.peek text =
          match c.peek with
          | .ok t => .ok (t, r)
          | .error f => .error (haltOf text f)) ∧
        TakesText b c (term c) ∧ TakesText b c (expr c) ∧ TakesText b c (literals c) ∧
        TakesText b c (clause c) ∧ TakesText b c (statement c)) ∧
      statementsWithin (text.length + 1) b = some (statements b)) ∧
    (∀ ss, parseStatements source = .ok ss → ∃ (blanks : List Char) (pieces : List (List Char)),
      blanks ++ pieces.flatten = text ∧ skipBlanks text = .ok pieces.flatten ∧
        pieces.length = ss.length ∧ ∀ w ∈ pieces, w ≠ []) ∧
    HasOutcome source (parseStatements source) ∧ HasOutcome source (parseGoal source) ∧
      HasOutcome source (parseClause source) := by
  refine ⟨?_, fun b hb => ⟨fun c hc => ⟨?_, ?_⟩, ?_⟩, fun ss hss => ?_, hasOutcome_reading _ _,
    hasOutcome_reading _ _, hasOutcome_reading _ _⟩
  · have hbegin : Scan.begin = Scan.before source.toList source.toList (1, 1) :=
      (Scan.before_append [] source.toList (1, 1)).symm
    rw [hbegin]
    exact spots_before (List.suffix_refl _) (1, 1) (Nat.lt_succ_self _)
  · obtain ⟨r, hr⟩ := Reader.exists_shows hb hc
    exact ⟨r, hr, hr.peek⟩
  · exact ⟨takesText_of_advances hb hc fun h => (advancesTerms c h).term,
      takesText_of_advances hb hc fun h => (advancesExprs c h).expr,
      takesText_of_advances hb hc fun h => (advancesLiterals c h).literals,
      takesText_of_advances hb hc advances_clause, takesText_of_advances hb hc advances_statement⟩
  · refine statementsWithin_eq (Nat.lt_succ_of_le ?_)
    rw [Cursor.size, (Cursor.settled_start hb).1]
    exact length_items_lexemes _
  · obtain ⟨b, hb, hread⟩ := exists_start_of_reading hss
    obtain ⟨pieces, hlen, hall, hflat⟩ := exists_pieces hb b (.refl (Cursor.settled_start hb).2) ss hread
    have hskip := skipBlanks_of_start hb
    obtain ⟨blanks, hblanks⟩ := suffix_skipBlanks hskip
    rw [← hflat] at hskip hblanks
    exact ⟨blanks, pieces, hblanks, hskip, hlen, hall⟩

end Source
end Horn
