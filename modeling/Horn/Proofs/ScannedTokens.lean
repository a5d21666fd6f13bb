import Horn.Proofs.Scanning

/-!
The tokens of a text by byte positions.  Scanning a text reads the tokens that it is split into, every
one from a piece of the text that is not empty and with the line and the column where that piece starts,
up to the end of the text or to its fault.
-/

namespace Horn

open String (utf8Len)

namespace Source

/-! ## What is left -/

theorem suffix_quoted {quote : Char} {cs content after : List Char}
    (h : quoted quote cs = .ok (content, after)) : after <:+ cs := by
  fun_induction quoted quote cs generalizing content with
  | case1 => cases h
  | case2 => cases h
  | case3 => cases h
  | case4 c cs _ ih =>
    obtain ⟨r, hr, hafter⟩ := ok_of_map h
    cases hafter
    exact (ih hr).trans ((List.suffix_cons _ _).trans (List.suffix_cons _ _))
  | case5 => cases h
  | case6 c cs =>
    cases h
    exact List.suffix_cons _ _
  | case7 c cs _ _ _ _ ih =>
    obtain ⟨r, hr, hafter⟩ := ok_of_map h
    cases hafter
    exact (ih hr).trans (List.suffix_cons _ _)

theorem suffix_number {cs after : List Char} {t : Token} (h : number cs = .ok (t, after)) :
    after <:+ cs := by
  have hsuffix := ((Scan.suffix_exponent? _).trans (Scan.suffix_fraction? _)).trans
    (Scan.suffix_spanDigits cs)
  simp only [number] at h
  split at h
  · cases h
    exact hsuffix
  · split at h
    · cases h
      exact hsuffix
    · cases h

theorem suffix_longToken {c : Char} {cs after : List Char} {t : Token}
    (h : longToken c cs = .ok (t, after)) : after <:+ c :: cs := by
  simp only [longToken] at h
  split at h
  · exact suffix_number h
  split at h
  · cases h
    exact List.dropWhile_suffix _
  split at h
  · cases h
    exact List.dropWhile_suffix _
  split at h
  · cases h
    exact List.drop_suffix _ _
  · cases h

theorem suffix_token {c : Char} {cs after : List Char} {t : Token}
    (h : token c cs = .ok (t, after)) : after <:+ c :: cs := by
  have hquoted {quote : Char} {f : List Char × List Char → Token × List Char}
      (hf : ∀ p, (f p).2 = p.2) (h : (quoted quote cs).map f = .ok (t, after)) :
      after <:+ c :: cs := by
    obtain ⟨r, hr, hafter⟩ := ok_of_map h
    obtain rfl : r.2 = after := by rw [← hf r, hafter]
    exact (suffix_quoted hr).trans (List.suffix_cons _ _)
  unfold token at h
  split at h
  case h_10 => exact hquoted (fun _ => rfl) h
  case h_11 => exact hquoted (fun _ => rfl) h
  case h_12 =>
    split at h
    · cases h
      exact List.suffix_cons _ _
    · exact suffix_longToken h
  case h_13 => exact suffix_longToken h
  case h_7 =>
    cases h
    exact (List.suffix_cons _ _).trans (List.suffix_cons _ _)
  case h_8 =>
    cases h
    exact (List.suffix_cons _ _).trans (List.suffix_cons _ _)
  all_goals
    cases h
    exact List.suffix_cons _ _

/-- A token is a piece of the text that is not empty. -/
theorem exists_word {c : Char} {cs after : List Char} {t : Token}
    (h : token c cs = .ok (t, after)) : ∃ word, word ≠ [] ∧ word ++ after = c :: cs := by
  obtain ⟨word, hword⟩ := suffix_token h
  refine ⟨word, ?_, hword⟩
  rintro rfl
  have hlt := length_token h
  rw [List.nil_append] at hword
  exact absurd hlt (by rw [hword]; exact Nat.lt_irrefl _)

/-- What is left after blanks and comments is an end of the text. -/
theorem suffix_skipBlanks {cs after : List Char} (h : skipBlanks cs = .ok after) : after <:+ cs := by
  fun_induction skipBlanks cs with
  | case1 => exact (Except.ok.inj h) ▸ List.nil_suffix
  | case2 cs _ ih =>
    exact (ih h).trans ((List.dropWhile_suffix _).trans (List.suffix_cons _ _))
  | case3 => cases h
  | case4 cs rest hrest _ ih =>
    exact (ih h).trans ((suffix_afterComment? hrest).trans
      ((List.suffix_cons _ _).trans (List.suffix_cons _ _)))
  | case5 c cs _ _ _ ih => exact (ih h).trans (List.suffix_cons _ _)
  | case6 => exact (Except.ok.inj h) ▸ List.suffix_refl _

theorem ne_endOfText_longToken {c : Char} {cs after : List Char} {t : Token}
    (h : longToken c cs = .ok (t, after)) : t ≠ .endOfText := by
  rintro rfl
  simp only [longToken, number] at h
  repeat' split at h
  all_goals cases h

/-- The token at the end of the text is read nowhere else. -/
theorem ne_endOfText {c : Char} {cs after : List Char} {t : Token}
    (h : token c cs = .ok (t, after)) : t ≠ .endOfText := by
  rintro rfl
  unfold token at h
  split at h
  case h_10 | h_11 =>
    obtain ⟨r, -, hr⟩ := ok_of_map h
    cases hr
  case h_12 =>
    split at h
    · cases h
    · exact ne_endOfText_longToken h rfl
  case h_13 => exact ne_endOfText_longToken h rfl
  all_goals cases h

namespace Scan

variable {text rest : List Char} {start : Nat × Nat}

/-! ## Quoted text -/

/-- Text before what is collected. -/
def collect (content : List Char) (r : List Char × List Char) : List Char × List Char :=
  (content ++ r.1, r.2)

/-- A round that takes one character. -/
theorem quotedFrom_plain {quote c : Char} (content : List Char) (hc : c ≠ '\\')
    (h : c :: rest <:+ text) (rounds : Nat) :
    (before text (c :: rest) start).quotedFrom text quote (rounds + 1) content =
      if c = '\n' then (before text rest start).fail "unterminated quoted text"
      else if c = quote then .ok (content, before text rest start)
      else (before text rest start).quotedFrom text quote rounds (content ++ [c]) := by
  rw [quotedFrom, left_before h]
  dsimp only [bind, Except.bind]
  rw [advance_char h]
  dsimp only
  rw [if_neg hc]
  rfl

/-- A round that takes a backslash and the character after it. -/
theorem quotedFrom_escape {quote d : Char} (content : List Char) (h : '\\' :: d :: rest <:+ text)
    (rounds : Nat) :
    (before text ('\\' :: d :: rest) start).quotedFrom text quote (rounds + 1) content =
      if d = '\n' then (before text (d :: rest) start).fail "unterminated quoted text"
      else (before text rest start).quotedFrom text quote rounds (content ++ [d]) := by
  have hrest : d :: rest <:+ text := (List.suffix_cons _ _).trans h
  rw [quotedFrom, left_before h]
  dsimp only [bind, Except.bind]
  rw [advance_char h]
  dsimp only
  rw [if_pos rfl, left_before hrest]
  dsimp only
  rw [advance_char hrest]

/-- A character that escapes nothing, since neither the end nor a character follows it as escaped. -/
theorem ne_backslash {c : Char} (hnil : c = '\\' → rest = [] → False)
    (hcons : ∀ d more, c = '\\' → rest = d :: more → False) : c ≠ '\\' := by
  intro hc
  cases rest with
  | nil => exact hnil hc rfl
  | cons d more => exact hcons d more hc rfl

theorem map_collect (content : List Char) (c : Char) (r : Except Fault (List Char × List Char)) :
    (r.map fun (cs, after) => (c :: cs, after)).map (collect content) =
      r.map (collect (content ++ [c])) := by
  cases r with
  | error f => rfl
  | ok r => simp [Except.map, collect]

theorem quotedFrom_before {quote : Char} (content : List Char) (h : rest <:+ text) {rounds : Nat}
    (hrounds : rest.length < rounds) :
    (before text rest start).quotedFrom text quote rounds content =
      ofReading text start ((Source.quoted quote rest).map (collect content)) := by
  obtain ⟨rounds, rfl⟩ := Nat.exists_eq_add_one.2 (Nat.zero_lt_of_lt hrounds)
  fun_induction Source.quoted quote rest generalizing content rounds with
  | case1 =>
    rw [quotedFrom, left_before h]
    rfl
  | case2 =>
    rw [quotedFrom, left_before h]
    dsimp only [bind, Except.bind]
    rw [advance_char h]
    dsimp only
    rw [if_pos rfl, left_before List.nil_suffix]
    rfl
  | case3 d rest hline =>
    rw [quotedFrom_escape content h, if_pos (beq_iff_eq.1 hline)]
    rfl
  | case4 d rest hline ih =>
    have hrest : rest <:+ text := ((List.suffix_cons _ _).trans (List.suffix_cons _ _)).trans h
    have hlen : rest.length + 1 < rounds := by simpa using hrounds
    obtain ⟨rounds, rfl⟩ := Nat.exists_eq_add_one.2 (Nat.zero_lt_of_lt hlen)
    rw [quotedFrom_escape content h, if_neg (fun hd => hline (beq_iff_eq.2 hd)),
      ih (content ++ [d]) hrest rounds (Nat.lt_of_succ_lt hlen), map_collect]
  | case5 c rest hnil hcons hline =>
    rw [quotedFrom_plain content (ne_backslash hnil hcons) h, if_pos (beq_iff_eq.1 hline)]
    rfl
  | case6 c rest hnil hcons hline hquote =>
    rw [quotedFrom_plain content (ne_backslash hnil hcons) h,
      if_neg (fun hc => hline (beq_iff_eq.2 hc)), if_pos (beq_iff_eq.1 hquote)]
    simp [Except.map, collect, ofReading]
  | case7 c rest hnil hcons hline hquote ih =>
    have hrest : rest <:+ text := (List.suffix_cons _ _).trans h
    have hlen : rest.length < rounds := by simpa using hrounds
    obtain ⟨rounds, rfl⟩ := Nat.exists_eq_add_one.2 (Nat.zero_lt_of_lt hlen)
    rw [quotedFrom_plain content (ne_backslash hnil hcons) h,
      if_neg (fun hc => hline (beq_iff_eq.2 hc)), if_neg (fun hc => hquote (beq_iff_eq.2 hc)),
      ih (content ++ [c]) hrest rounds hlen, map_collect]

theorem quoted_before {quote c : Char} (hc : c.utf8Size = 1) (h : c :: rest <:+ text) {rounds : Nat}
    (hrounds : rest.length < rounds) :
    (before text (c :: rest) start).quoted text quote rounds =
      ofReading text start ((Source.quoted quote rest).map fun (cs, after) =>
        (String.ofList cs, after)) := by
  rw [Scan.quoted, advance_sign hc h]
  dsimp only [bind, Except.bind]
  rw [quotedFrom_before [] ((List.suffix_cons c rest).trans h) hrounds]
  cases Source.quoted quote rest <;> rfl

/-! ## Tokens -/

theorem longToken_before {c : Char} (hdouble : c ≠ '"') (hsingle : c ≠ '\'') (h : c :: rest <:+ text)
    {rounds : Nat} (hrounds : (c :: rest).length < rounds) :
    (before text (c :: rest) start).longToken text rounds c rest =
      ofReading text start (Source.longToken c rest) := by
  rw [Scan.longToken, Source.longToken, if_neg hdouble, if_neg hsingle, word_before h hrounds]
  dsimp only
  split
  next hdigit => exact number_before hdigit h hrounds
  next =>
  split
  next => rfl
  next =>
  split
  next => rfl
  next =>
  cases hs : operator? (c :: rest) with
  | none => rfl
  | some symbol =>
    have hstarts : symbol.toList.isPrefixOf (c :: rest) = true :=
      List.find?_some (p := fun s : String => s.toList.isPrefixOf (c :: rest)) hs
    obtain ⟨after, hafter⟩ := List.isPrefixOf_iff_prefix.1 hstarts
    have hdrop : (c :: rest).drop symbol.length = after := by
      rw [← hafter, ← String.length_toList, List.drop_left]
    have hmove : (before text (c :: rest) start).advance text symbol.utf8ByteSize =
        .ok (before text after start) := by
      rw [← hafter] at h ⊢
      exact advance_before _ _ h (String.utf8Len_toList symbol).symm
    dsimp only
    rw [hmove, hdrop]
    rfl

theorem token_single {c : Char} {t : Token} (hsign : single? c = some t) (hc : c.utf8Size = 1)
    (h : c :: rest <:+ text) (rounds : Nat) :
    (before text (c :: rest) start).token text rounds c rest = .ok (t, before text rest start) := by
  rw [Scan.token, hsign]
  dsimp only
  rw [advance_sign hc h]
  rfl

theorem token_before {c : Char} (h : c :: rest <:+ text) {rounds : Nat}
    (hrounds : (c :: rest).length < rounds) :
    (before text (c :: rest) start).token text rounds c rest =
      ofReading text start (Source.token c rest) := by
  have hlt : rest.length < rounds := Nat.lt_of_succ_lt hrounds
  fun_cases Source.token c rest with
  | case1 => exact token_single rfl rfl h rounds
  | case2 => exact token_single rfl rfl h rounds
  | case3 => exact token_single rfl rfl h rounds
  | case4 => exact token_single rfl rfl h rounds
  | case5 => exact token_single rfl rfl h rounds
  | case6 => exact token_single rfl rfl h rounds
  | case7 after =>
    have hmove : (before text (':' :: '-' :: after) start).advance text 2 =
        .ok (before text after start) := advance_before [':', '-'] after h rfl
    exact congrArg (· >>= _) hmove
  | case8 after =>
    have hmove : (before text ('?' :: '-' :: after) start).advance text 2 =
        .ok (before text after start) := advance_before ['?', '-'] after h rfl
    exact congrArg (· >>= _) hmove
  | case9 _ hneck =>
    have hno : ¬ [':', '-'].isPrefixOf (':' :: rest) = true := by
      intro hstarts
      obtain ⟨after, -, hafter⟩ := of_isPrefixOf_pair hstarts
      exact hneck after hafter
    show (if _ then _ else _) = _
    rw [if_neg hno]
    exact congrArg (· >>= _) (advance_sign rfl h)
  | case10 =>
    refine (congrArg (· >>= _) (quoted_before rfl h hlt)).trans ?_
    cases Source.quoted '"' rest <;> rfl
  | case11 =>
    refine (congrArg (· >>= _) (quoted_before rfl h hlt)).trans ?_
    cases Source.quoted '\'' rest <;> rfl
  | case12 _ hends =>
    have hdrop : Text.dropBytes? 1 ('.' :: rest) = some rest := Text.dropBytes?_append ['.'] rest
    show (orOutside _ >>= fun after => if endsStatement after then _ else _) = _
    rw [hdrop, if_pos hends]
    refine (if_pos hends).trans ?_
    exact congrArg (· >>= _) (advance_sign rfl h)
  | case13 _ hends =>
    have hdrop : Text.dropBytes? 1 ('.' :: rest) = some rest := Text.dropBytes?_append ['.'] rest
    show (orOutside _ >>= fun after => if endsStatement after then _ else _) = _
    rw [hdrop, if_neg hends]
    refine (if_neg hends).trans ?_
    exact longToken_before (by decide) (by decide) h hrounds
  | case14 _ _ hopen hclose hopens hcloses hcomma hbar hcolon hdouble hsingle hpoint _ hquery =>
    have hsign : single? c = none := by
      unfold single?
      split <;> first | contradiction | rfl
    have hneck : ¬ [':', '-'].isPrefixOf (c :: rest) = true := fun hstarts =>
      let ⟨_, hc, _⟩ := of_isPrefixOf_pair hstarts
      hcolon hc
    have hask : ¬ ['?', '-'].isPrefixOf (c :: rest) = true := fun hstarts =>
      let ⟨_, hc, hafter⟩ := of_isPrefixOf_pair hstarts
      hquery _ hc hafter
    rw [Scan.token, hsign]
    dsimp only
    rw [if_neg hneck, if_neg hask, if_neg hcolon, if_neg hpoint]
    exact longToken_before hdouble hsingle h hrounds

/-- Reading the next token by positions reads it from the text. -/
theorem next_before (h : rest <:+ text) {rounds : Nat} (hrounds : rest.length < rounds) :
    (before text rest start).next text rounds =
      match skipBlanks rest with
      | .error f => .error (haltOf text f)
      | .ok [] => .ok (.endOfText, before text [] (placeBefore text []))
      | .ok (c :: cs) => ofReading text (placeBefore text (c :: cs)) (Source.token c cs) := by
  rw [next, skip_before h hrounds]
  cases hskip : skipBlanks rest with
  | error f => rfl
  | ok after =>
    have hafter := suffix_skipBlanks hskip
    have hleft : (before text after (placeBefore text after)).left text = .ok after :=
      left_before (hafter.trans h)
    show (before text after (placeBefore text after)).left text >>= _ = _
    rw [hleft]
    cases after with
    | nil => rfl
    | cons c cs => exact token_before (hafter.trans h) (Nat.lt_of_le_of_lt hafter.length_le hrounds)

end Scan

/-! ## Whole texts -/

/-- A token as it is scanned: the line and the column where it starts, and the byte positions between
which it was read, blanks before it included. -/
structure Spot where
  token : Token
  place : Nat × Nat
  first : Nat
  last : Nat

/-- Scans tokens up to the end of the text or to a halt, and gives the place of the end. -/
def Scan.spots (text : List Char) : Nat → Scan → List Spot × Except Halt (Nat × Nat)
  | 0, _ => ([], .error .endless)
  | rounds + 1, s =>
    match s.next text (text.length + 1) with
    | .error halt => ([], .error halt)
    | .ok (t, after) =>
      if t = .endOfText then ([], .ok after.start)
      else
        let more := spots text rounds after
        (⟨t, after.start, s.position, after.position⟩ :: more.1, more.2)

/-- The token is read from a piece of the text that is not empty, after blanks; the positions stand
before the blanks and after the piece, and the place is that of the first character of the piece. -/
def Spot.LiesIn (text : List Char) (s : Spot) : Prop :=
  ∃ front blanks word rest, front ++ (blanks ++ (word ++ rest)) = text ∧ word ≠ [] ∧
    skipBlanks (blanks ++ (word ++ rest)) = .ok (word ++ rest) ∧
    (∃ c cs, c :: cs = word ++ rest ∧ Source.token c cs = .ok (s.token, rest)) ∧
    s.first = utf8Len front ∧ s.last = utf8Len (front ++ (blanks ++ word)) ∧
    s.place = (1 + (front ++ blanks).count '\n',
      1 + ((front ++ blanks).reverse.takeWhile (· != '\n')).length)

/-- Where the scan of a text ends: at the end of the text or at its fault. -/
def Lexemes.ending (ls : Lexemes) (text : List Char) : Except Halt (Nat × Nat) :=
  match ls.fault with
  | none => .ok (placeBefore text [])
  | some f => .error (haltOf text f)

section

variable {text rest : List Char} {start : Nat × Nat}

/-- A token that is read after blanks lies in the text. -/
theorem liesIn_of_token {c : Char} {cs after : List Char} {t : Token} (h : rest <:+ text)
    (hskip : skipBlanks rest = .ok (c :: cs)) (ht : token c cs = .ok (t, after)) :
    Spot.LiesIn text ⟨t, placeBefore text (c :: cs), (Scan.before text rest start).position,
      (Scan.before text after start).position⟩ := by
  obtain ⟨front, rfl⟩ := h
  obtain ⟨blanks, hblanks⟩ := suffix_skipBlanks hskip
  obtain ⟨word, hne, hword⟩ := exists_word ht
  rw [← hword] at hblanks
  subst hblanks
  have hafter : blanks ++ (word ++ after) = (blanks ++ word) ++ after := by simp
  have hplace : front ++ (blanks ++ (word ++ after)) = (front ++ blanks) ++ (c :: cs) := by
    simp [hword]
  refine ⟨front, blanks, word, after, rfl, hne, hword ▸ hskip, ⟨c, cs, hword.symm, ht⟩, ?_, ?_, ?_⟩
  · rw [Scan.before_append]
  · rw [hafter, Scan.before_piece]
  · rw [hplace, placeBefore_append, Fault.place, Nat.add_comm, Nat.add_comm _ 1]

/-- Scanning what is left of a text reads its tokens where they are. -/
theorem spots_before (h : rest <:+ text) (start : Nat × Nat) {rounds : Nat}
    (hrounds : rest.length < rounds) :
    ((Scan.before text rest start).spots text rounds).1.map (fun s => (s.token, s.place)) =
        (lexemes rest).items.map (fun l => (l.token, placeBefore text l.text)) ∧
      ((Scan.before text rest start).spots text rounds).2 = (lexemes rest).ending text ∧
      ∀ s ∈ ((Scan.before text rest start).spots text rounds).1, s.LiesIn text := by
  induction rounds generalizing rest start with
  | zero => omega
  | succ rounds ih =>
    rw [Scan.spots, Scan.next_before h (Nat.lt_succ_of_le h.length_le), lexemes_eq]
    cases hskip : skipBlanks rest with
    | error f => exact ⟨rfl, rfl, List.forall_mem_nil _⟩
    | ok left =>
      cases left with
      | nil => exact ⟨rfl, rfl, List.forall_mem_nil _⟩
      | cons c cs =>
        cases ht : token c cs with
        | error f =>
          dsimp only
          rw [ht]
          exact ⟨rfl, rfl, List.forall_mem_nil _⟩
        | ok r =>
          obtain ⟨t, after⟩ := r
          have hleft := suffix_skipBlanks hskip
          have hafter := suffix_token ht
          have hlt : after.length < rounds := by
            have hshorter := length_token ht
            have hle := hleft.length_le
            omega
          obtain ⟨htokens, hending, hlie⟩ := ih ((hafter.trans hleft).trans h)
            (placeBefore text (c :: cs)) hlt
          dsimp only
          rw [ht]
          dsimp only [Scan.ofReading]
          rw [if_neg (ne_endOfText ht), List.map_cons, List.map_cons, htokens, hending]
          refine ⟨rfl, rfl, List.forall_mem_cons.2 ⟨liesIn_of_token h hskip ht, hlie⟩⟩

end

/-- Places count characters and positions count bytes. -/
example : ((Scan.begin.spots "% \u00e9\n\u3000p.".toList 10).1.map fun s => (s.place, s.first, s.last)) =
    [((2, 2), 0, 9), ((2, 3), 9, 10)] := by decide +kernel

end Source
end Horn
