import CrossAssembler.Proofs.Token.Seam

/-!
# Numbers that are too long

One thing in a source text cannot be read: a decimal number with too many digits. `Overlong` says
where such a number stands without speaking of pieces, and `exists_excess_iff` says that it is exactly
what cutting a text into pieces finds.

From the digits to the piece, the text comes apart in front of the number (`pieces_append`). From the
piece to the digits, the argument goes from the last piece to the first, and each piece in front of
the number leaves the code as code (`Overlong.of_cut`).
-/

namespace CrossAssembler

open Piece

/-- **A decimal number of too many digits**: the digits stand in the code, not in a comment or a
string, they are not the rest of a name or of a number of another base, and nothing goes on with
them. -/
structure Overlong (source : List Char) (digits : Nat) : Prop where
  exceeds : Text.maxDecimalDigits < digits
  stands : ∃ front body back, source = front ++ (body ++ back) ∧ body.length = digits ∧
    (∀ c ∈ body, Text.isDigit 10 c = true) ∧ Zone.code.afterAll front = .code ∧
    (∀ c ∈ front.getLast?, isNameChar c = false ∧ c ≠ '$' ∧ c ≠ '%') ∧ Stops isNameChar back

/-! ### What is too long as a piece -/

/-- A word that spells a number is a word of digits. -/
theorem NumberBase.isNumber_of_lexeme {base : NumberBase} {word : List Char} {v : Int}
    (h : base.lexeme word = .number v) :
    base.isNumber word = true ∧ v = Text.ofDigits base.radix word := by
  unfold NumberBase.lexeme at h
  split at h
  next hdigits =>
    cases h
    exact ⟨hdigits, rfl⟩
  · cases h

/-- A piece that exceeds the limit is a number, starts with a digit and has too many characters. -/
theorem Piece.excess?_eq_some {p : Piece} {digits : Nat} (h : p.excess? = some digits) :
    ∃ value c cs, p.lexeme = some (.number value) ∧ p.chars = c :: cs ∧
      Text.isDigit 10 c = true ∧ p.chars.length = digits ∧ Text.maxDecimalDigits < digits := by
  unfold Piece.excess? at h
  split at h
  next value c cs hlexeme hchars =>
    split at h
    next hlong =>
      cases h
      rw [Bool.and_eq_true, decide_eq_true_eq] at hlong
      exact ⟨value, c, cs, hlexeme, hchars, hlong.1, rfl, hlong.2⟩
    · cases h
  · cases h

/-- Only a decimal number exceeds the limit: all its characters are digits, and nothing goes on with
them. -/
theorem Cut.digits_of_excess {text rest : List Char} {p : Piece} (h : Cut text p rest) {digits : Nat}
    (hexcess : p.excess? = some digits) :
    (∀ c ∈ p.chars, Text.isDigit 10 c = true) ∧ Stops isNameChar rest := by
  obtain ⟨value, c, cs, hlexeme, hchars, hdigit, -, -⟩ := Piece.excess?_eq_some hexcess
  cases h with
  | decimal hstart hword hrest =>
    obtain ⟨hdigits, -⟩ := NumberBase.isNumber_of_lexeme (Option.some.inj hlexeme)
    exact ⟨(NumberBase.isNumber_iff.1 hdigits).2, hrest⟩
  | marked hmark hword hrest =>
    -- a number of another base starts with its mark, which is no digit
    cases hchars
    rcases mark_cases hmark with rfl | rfl <;> cases hdigit
  | single hgap hname hother hmark =>
    cases hchars
    rw [hother] at hdigit
    cases hdigit
  | _ => cases hlexeme

/-- A decimal number of too many digits is a piece of its own. -/
theorem excess?_of_digits {c : Char} {word back : List Char}
    (hbody : ∀ d ∈ c :: word, Text.isDigit 10 d = true) (hback : Stops isNameChar back)
    (hlong : Text.maxDecimalDigits < (c :: word).length) :
    (Piece.next c (word ++ back)).1.excess? = some (c :: word).length := by
  have hc : Text.isDigit 10 c = true := hbody c List.mem_cons_self
  have hcut := Cut.decimal hc (fun d hd => isNameChar_of_isDigit (hbody d hd)) hback
  have hlexeme : NumberBase.decimal.lexeme (c :: word) = .number (Text.ofDigits 10 (c :: word)) :=
    if_pos (NumberBase.isNumber_iff.2 ⟨List.cons_ne_nil _ _, hbody⟩)
  rw [hcut.next_eq, hlexeme]
  unfold Piece.excess?
  dsimp only
  rw [hc, Bool.true_and, if_pos (decide_eq_true hlong)]

/-! ### The pieces in front of the digits -/

theorem isNameChar_cases {c : Char} (h : isNameChar c = true) :
    isNameStart c = true ∨ Text.isDigit 10 c = true := by
  rw [isNameChar, Char.isAlphanum, Bool.or_eq_true, Bool.or_eq_true] at h
  rcases h with (halpha | hdigit) | hunderscore
  · left
    rw [isNameStart, halpha, Bool.true_or]
  · right
    have hrange : '0' ≤ c ∧ c ≤ '9' := by
      simpa [Char.isDigit, Char.le_def] using hdigit
    have hvalue : Text.digitValue? c = some (c.toNat - 48) := if_pos hrange
    have hle : c.toNat ≤ 57 := by
      have := hrange.2
      rw [Char.le_def, UInt32.le_iff_toNat_le] at this
      exact this
    rw [Text.isDigit, hvalue]
    exact decide_eq_true (by omega)
  · left
    rw [isNameStart, hunderscore, Bool.or_true]

/-- A piece with a digit behind it does not end in a character that the digit would go on with. -/
theorem Cut.last_of_digit {text rest : List Char} {p : Piece} {d : Char}
    (h : Cut text p (d :: rest)) (hd : Text.isDigit 10 d = true) :
    ∀ c ∈ p.chars.getLast?, isNameChar c = false ∧ c ≠ '$' ∧ c ≠ '%' := by
  have hname : isNameChar d = true := isNameChar_of_isDigit hd
  -- a digit goes on with any word, so no rule that ends a word there applies
  have hgoes : ¬ Stops isNameChar (d :: rest) := by
    intro hstops
    rw [Stops.cons_iff.1 hstops] at hname
    cases hname
  have hline : ¬ AtLineEnd (d :: rest) := by
    intro hrest
    exact (ne_of_isNameChar hname).2.2.1 hrest.eq_lineEnd
  cases h with
  | @gap e run _ hrun hrest =>
    intro c hc
    have hgap := hrun c (List.mem_of_getLast? hc)
    refine ⟨?_, ?_, ?_⟩
    · rw [← Bool.not_eq_true]
      intro hname
      rw [(ne_of_isNameChar hname).1] at hgap
      cases hgap
    all_goals
      rintro rfl
      cases hgap
  | comment hbody hrest => exact absurd hrest hline
  | lineEnd =>
    rintro c ⟨⟩
    decide
  | name hstart hword hrest hshadow => exact absurd hrest hgoes
  | @shadow e word _ hstart hword hshadow =>
    intro c hc
    dsimp only at hc
    rw [← List.cons_append, List.getLast?_append] at hc
    cases hc
    decide
  | decimal hstart hword hrest => exact absurd hrest hgoes
  | marked hmark hword hrest => exact absurd hrest hgoes
  | @string value written _ h =>
    intro c hc
    dsimp only at hc
    rw [← List.cons_append, List.getLast?_append] at hc
    cases hc
    decide
  | openString h htail hrest => exact absurd hrest hline
  | @single e _ hgap hstart hdigit hmark =>
    have hother : isNameChar e = false := by
      rw [← Bool.not_eq_true]
      intro hname
      rcases isNameChar_cases hname with h | h
      · rw [hstart] at h
        cases h
      · rw [hdigit] at h
        cases h
    simp only [List.mem_cons, List.not_mem_nil, or_false, not_or] at hmark
    rintro c ⟨⟩
    exact ⟨hother, hmark.2.2.1, hmark.2.2.2.1⟩

/-- A piece in front of a text with such a number in it: the number is still outside comments and
strings. -/
theorem Overlong.of_cut {text rest : List Char} {p : Piece} (hcut : Cut text p rest) {digits : Nat}
    (h : Overlong rest digits) : Overlong text digits := by
  obtain ⟨hexceeds, front, body, back, rfl, hlength, hbody, hzone, hlast, hback⟩ := h
  obtain ⟨c, word, rfl⟩ : ∃ c word, body = c :: word := by
    rw [← hlength] at hexceeds
    exact List.exists_cons_of_length_pos (Nat.zero_lt_of_lt hexceeds)
  have hdigit := hbody c List.mem_cons_self
  refine ⟨hexceeds, p.chars ++ front, c :: word, back, ?_, hlength, hbody, ?_, ?_, hback⟩
  · rw [hcut.text_eq, List.append_assoc]
  · rw [Zone.afterAll_append]
    rcases hcut.zone_chars with hcode | hline
    · rw [hcode, hzone]
    · -- behind a comment or an open string the line ends, so the number is on a later line
      cases front with
      | nil =>
        rw [hline.eq_lineEnd] at hdigit
        cases hdigit
      | cons d front =>
        obtain rfl := hline.eq_lineEnd
        exact hzone
  · cases front with
    | nil =>
      rw [List.append_nil]
      exact hcut.last_of_digit hdigit
    | cons d front =>
      have hsame : (p.chars ++ d :: front).getLast? = (d :: front).getLast? := by
        rw [List.getLast?_append, List.getLast?_eq_some_getLast (List.cons_ne_nil d front)]
        rfl
      rw [hsame]
      exact hlast

/-! ### Finding the number -/

theorem exists_excess_of_overlong {source : List Char} {digits : Nat} (h : Overlong source digits) :
    ∃ p ∈ pieces source, p.excess? = some digits := by
  obtain ⟨hexceeds, front, body, back, rfl, rfl, hbody, hzone, hlast, hback⟩ := h
  cases body with
  | nil => exact absurd hexceeds (Nat.not_lt_zero _)
  | cons c word =>
    -- the digits join nothing in front of them, so they start a piece of their own
    have hseam : Seam front (c :: word ++ back) := by
      refine ⟨hzone, fun d hd e he => ?_⟩
      cases he
      obtain ⟨hname, hdollar, hpercent⟩ := hlast d hd
      -- a digit is no blank, so it could only go on with a word
      have hdigit := isNameChar_of_isDigit (hbody c List.mem_cons_self)
      simp [joins, hname, hdollar, hpercent, (ne_of_isNameChar hdigit).1]
    refine ⟨_, ?_, excess?_of_digits hbody hback hexceeds⟩
    rw [pieces_append hseam, List.cons_append, pieces_cons]
    exact List.mem_append_right _ List.mem_cons_self

theorem overlong_of_excess {source : List Char} {p : Piece} (hp : p ∈ pieces source) {digits : Nat}
    (hexcess : p.excess? = some digits) : Overlong source digits := by
  -- the number is the first piece, or lies in what follows it
  fun_induction pieces source with
  | case1 => cases hp
  | case2 c cs ih =>
    have hcut := Cut.of_next c cs
    rcases List.mem_cons.1 hp with rfl | hp
    · obtain ⟨-, -, -, -, -, -, hlength, hexceeds⟩ := Piece.excess?_eq_some hexcess
      obtain ⟨hbody, hrest⟩ := hcut.digits_of_excess hexcess
      -- nothing stands in front of the first piece
      refine ⟨hexceeds, [], _, _, ?_, hlength, hbody, rfl, fun _ h => (by cases h), hrest⟩
      exact hcut.text_eq
    · exact (ih hp).of_cut hcut

/-- **What cannot be read is a decimal number of too many digits**, and nothing else. The left side is what
the scanner finds, and the right side speaks of the text alone. -/
theorem exists_excess_iff (source : List Char) (digits : Nat) :
    (∃ p ∈ pieces source, p.excess? = some digits) ↔ Overlong source digits := by
  constructor
  · rintro ⟨p, hp, hexcess⟩
    exact overlong_of_excess hp hexcess
  · exact exists_excess_of_overlong

example : Overlong ("LD HL,".toList ++ List.replicate 4301 '7') 4301 where
  exceeds := by decide
  stands := by
    have hdigits : ∀ c ∈ List.replicate 4301 '7', Text.isDigit 10 c = true := by
      intro c hc
      rw [List.eq_of_mem_replicate hc]
      decide
    refine ⟨"LD HL,".toList, List.replicate 4301 '7', [], ?_, List.length_replicate, hdigits, ?_⟩
    · rw [List.append_nil]
    · refine ⟨by decide, ?_, Stops.nil _⟩
      rintro c ⟨⟩
      decide

/-- Tokens are found unless a number is too long, and then the fault names the digits of one. -/
theorem tokenize_cases (source file : String) (firstLine : Int) :
    (∃ digits, Overlong source.toList digits ∧
        tokenize source file firstLine = .error (.literalTooLong digits)) ∨
      (¬ ∃ digits, Overlong source.toList digits) ∧
        tokenize source file firstLine =
          .ok (locate ⟨file, firstLine, 1⟩ (pieces source.toList)) := by
  unfold tokenize
  dsimp only
  cases hfound : (pieces source.toList).findSome? Piece.excess? with
  | some digits =>
    left
    obtain ⟨p, hp, hexcess⟩ := List.exists_of_findSome?_eq_some hfound
    exact ⟨digits, (exists_excess_iff _ _).1 ⟨p, hp, hexcess⟩, rfl⟩
  | none =>
    right
    refine ⟨?_, rfl⟩
    rintro ⟨digits, h⟩
    obtain ⟨p, hp, hexcess⟩ := (exists_excess_iff _ _).2 h
    rw [List.findSome?_eq_none_iff.1 hfound p hp] at hexcess
    cases hexcess

end CrossAssembler
