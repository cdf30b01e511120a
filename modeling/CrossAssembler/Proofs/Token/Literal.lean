import CrossAssembler.Proofs.Text.Digit
import CrossAssembler.Proofs.Token.CaseFold
import CrossAssembler.Proofs.Token.Order
import CrossAssembler.Proofs.Token.Overlong

/-!
# Literals read back

A number can be written in three bases, with zeros in front and with letters of either case, and a text
can be written between quotes with more backslashes than it needs. `Literal written lexeme` says what is
written and what it stands for, and does not speak of how it is read.

* **One literal** (`Literal.cut`): what is written is the first piece of a text, and it spells what it
  stands for.
* **Texts side by side** (`tokensFrom_append`): the tokens of a text that comes apart are those of its two
  parts, the second read from where the first one ends.
* **Literals anywhere** (`tokenize_literal`): so a literal behind a line end or a blank is one token, and
  reading goes on right behind it.
-/

namespace CrossAssembler

open Piece

/-! ### How literals are written -/

/-- A text as it stands between quotes. Each of its characters comes with a wish for a backslash in front
of it; a quote and a backslash get one in any case. -/
def backslashed (text : List (Char × Bool)) : List Char :=
  text.flatMap fun x => if x.2 || x.1 == '"' || x.1 == '\\' then ['\\', x.1] else [x.1]

/-- **A literal, and what it stands for.** Numbers are written in digits, with zeros in front; the letters
among the hexadecimal digits are capital or small as they come. -/
inductive Literal : List Char → Lexeme → Prop where
  /-- Decimal digits have no mark in front, and there may not be too many of them. -/
  | decimal (v zeros : Nat) (hshort : (List.replicate zeros '0' ++ Nat.toDigits 10 v).length ≤ 4300) :
      Literal (List.replicate zeros '0' ++ Nat.toDigits 10 v) (.number v)
  | hexadecimal (v zeros : Nat) (word : List Char)
      (hword : capitals word = capitals (List.replicate zeros '0' ++ Nat.toDigits 16 v)) :
      Literal ('$' :: word) (.number v)
  | binary (v zeros : Nat) :
      Literal ('%' :: (List.replicate zeros '0' ++ Nat.toDigits 2 v)) (.number v)
  /-- A text of one line between quotes. -/
  | string (text : List (Char × Bool)) (hline : ∀ x ∈ text, x.1 ≠ '\n') :
      Literal ('"' :: (backslashed text ++ ['"'])) (.string (String.ofList (text.map Prod.fst)))

/-- A place where a literal may start: the front of a text, the front of a line, or behind a space that is
in no string and no comment. -/
def Opens (front : List Char) : Prop :=
  front = [] ∨ front.getLast? = some '\n' ∨
    front.getLast? = some ' ' ∧ Zone.code.afterAll front = .code

/-- What may stand behind a literal: nothing may go on with the digits of a number, and a string ends with
its quote. -/
def Bounds (lexeme : Lexeme) (back : List Char) : Prop :=
  ∀ v, lexeme = .number v → Stops isNameChar back

/-! ### Numbers -/

theorem NumberBase.radix_bounds (base : NumberBase) : 1 < base.radix ∧ base.radix ≤ 16 := by
  cases base <;> decide

/-- A word of digits is read as the number that it was written for. -/
theorem NumberBase.lexeme_of_digits (base : NumberBase) (v zeros : Nat) {word : List Char}
    (hword : capitals word = capitals (List.replicate zeros '0' ++ Nat.toDigits base.radix v)) :
    base.isNumber word = true ∧ base.lexeme word = .number v := by
  obtain ⟨hlow, hhigh⟩ := base.radix_bounds
  have hplain : base.isNumber (List.replicate zeros '0' ++ Nat.toDigits base.radix v) = true := by
    refine NumberBase.isNumber_iff.2 ⟨?_, List.forall_mem_append.2 ⟨?_, ?_⟩⟩
    · exact List.append_ne_nil_of_right_ne_nil _ Nat.toDigits_ne_nil
    · intro c hc
      rw [List.eq_of_mem_replicate hc, Text.isDigit]
      exact decide_eq_true (Nat.zero_lt_of_lt hlow)
    · exact Text.isDigit_of_mem_toDigits hlow hhigh v
  -- digits and value are the same in capitals, so the word may be written in them
  have hnumber : base.isNumber word = true := by
    rw [← NumberBase.isNumber_capitals, hword, NumberBase.isNumber_capitals]
    exact hplain
  have hvalue : Text.ofDigits base.radix word = v := by
    calc Text.ofDigits base.radix word
        = Text.ofDigits base.radix (capitals word) := (Text.ofDigits_map_toUpper _ _).symm
      _ = Text.ofDigits base.radix (List.replicate zeros '0' ++ Nat.toDigits base.radix v) := by
        rw [hword]
        exact Text.ofDigits_map_toUpper _ _
      _ = Text.ofDigits base.radix (Nat.toDigits base.radix v) := Text.ofDigits_zeros _ _ _
      _ = v := Text.ofDigits_toDigits hlow hhigh v
  refine ⟨hnumber, ?_⟩
  rw [NumberBase.lexeme, if_pos hnumber, hvalue]

/-- A number is one piece, whatever its base. -/
theorem Cut.number {base : NumberBase} {word rest : List Char} (hnumber : base.isNumber word = true)
    (hrest : Stops isNameChar rest) :
    Cut (base.mark ++ word ++ rest) ⟨base.mark ++ word, some (base.lexeme word)⟩ rest := by
  obtain ⟨hne, hdigits⟩ := NumberBase.isNumber_iff.1 hnumber
  have hword : ∀ d ∈ word, isNameChar d = true := fun d hd => isNameChar_of_isDigit (hdigits d hd)
  -- only a decimal number is told by its first digit; the others have a mark
  cases base with
  | decimal =>
    obtain ⟨c, word, rfl⟩ := List.exists_cons_of_ne_nil hne
    exact .decimal (hdigits c List.mem_cons_self) hword hrest
  | hexadecimal => exact .marked rfl hword hrest
  | binary => exact .marked rfl hword hrest

/-! ### Strings -/

/-- However many backslashes a text is written with, it is the text that is written. -/
theorem quotes_backslashed {text : List (Char × Bool)} (hline : ∀ x ∈ text, x.1 ≠ '\n') :
    Quotes (text.map Prod.fst) (backslashed text) := by
  induction text with
  | nil => exact .nil
  | cons x text ih =>
    obtain ⟨hx, htext⟩ := List.forall_mem_cons.1 hline
    have hrest := ih htext
    unfold backslashed at hrest ⊢
    rw [List.map_cons, List.flatMap_cons]
    -- a backslash is written where it is wished for or needed
    split
    · exact .escaped hx hrest
    next hplain =>
      rw [Bool.not_eq_true, Bool.or_eq_false_iff, Bool.or_eq_false_iff, beq_eq_false_iff_ne,
        beq_eq_false_iff_ne] at hplain
      obtain ⟨⟨-, hquote⟩, hescape⟩ := hplain
      exact .plain hx hquote hescape hrest

/-! ### One literal -/

namespace Literal

variable {written back : List Char} {lexeme : Lexeme}

/-- A literal is a number in one of the bases or a text between quotes. -/
theorem number_or_string (h : Literal written lexeme) :
    (∃ (base : NumberBase) (word : List Char) (v : Nat), written = base.mark ++ word ∧
        lexeme = .number v ∧ base.isNumber word = true ∧ base.lexeme word = .number v ∧
        (base = .decimal → word.length ≤ 4300)) ∨
      ∃ text : List (Char × Bool), (∀ x ∈ text, x.1 ≠ '\n') ∧ written = '"' :: (backslashed text ++ ['"']) ∧
        lexeme = .string (String.ofList (text.map Prod.fst)) := by
  cases h with
  | decimal v zeros hshort =>
    obtain ⟨hnumber, hlexeme⟩ := NumberBase.decimal.lexeme_of_digits v zeros rfl
    exact .inl ⟨.decimal, _, v, rfl, rfl, hnumber, hlexeme, fun _ => hshort⟩
  | hexadecimal v zeros word hword =>
    obtain ⟨hnumber, hlexeme⟩ := NumberBase.hexadecimal.lexeme_of_digits v zeros hword
    exact .inl ⟨.hexadecimal, word, v, rfl, rfl, hnumber, hlexeme, by rintro ⟨⟩⟩
  | binary v zeros =>
    obtain ⟨hnumber, hlexeme⟩ := NumberBase.binary.lexeme_of_digits v zeros rfl
    exact .inl ⟨.binary, _, v, rfl, rfl, hnumber, hlexeme, by rintro ⟨⟩⟩
  | string text hline => exact .inr ⟨text, hline, rfl, rfl⟩

/-- **A literal is the first piece of a text**, and the piece spells what it stands for. -/
theorem cut (h : Literal written lexeme) (hback : Bounds lexeme back) :
    Cut (written ++ back) ⟨written, some lexeme⟩ back := by
  rcases h.number_or_string with ⟨base, word, v, rfl, rfl, hnumber, hlexeme, -⟩ | ⟨text, hline, rfl, rfl⟩
  · rw [← hlexeme]
    exact Cut.number hnumber (hback v rfl)
  · have htext : '"' :: (backslashed text ++ ['"']) ++ back = '"' :: (backslashed text ++ '"' :: back) := by
      rw [List.cons_append, List.append_assoc]
      rfl
    rw [htext]
    exact .string (quotes_backslashed hline)

/-- No literal is too long to be read. -/
theorem excess?_eq_none (h : Literal written lexeme) : Piece.excess? ⟨written, some lexeme⟩ = none := by
  rw [Option.eq_none_iff_forall_ne_some]
  -- what is too long starts with a digit, and decimal literals are short enough
  intro digits hdigits
  obtain ⟨value, c, cs, hvalue, hchars, hstart, hlength, hlong⟩ := Piece.excess?_eq_some hdigits
  dsimp only at hvalue hchars hlength
  rcases h.number_or_string with ⟨base, word, v, rfl, rfl, -, -, hshort⟩ | ⟨text, -, -, rfl⟩
  · cases base with
    | decimal =>
      have hfew : word.length ≤ 4300 := hshort rfl
      change word.length = digits at hlength
      change 4300 < digits at hlong
      omega
    -- the mark of another base is no digit
    | hexadecimal =>
      cases hchars
      cases hstart
    | binary =>
      cases hchars
      cases hstart
  · cases hvalue

/-- A literal does not start with a blank. -/
theorem isGap_head (h : Literal written lexeme) : ∀ c ∈ (written ++ back).head?, isGap c = false := by
  intro c hc
  rcases h.number_or_string with ⟨base, word, v, rfl, -, hnumber, -, -⟩ | ⟨text, -, rfl, -⟩
  · cases base with
    | decimal =>
      obtain ⟨hne, hdigits⟩ := NumberBase.isNumber_iff.1 hnumber
      obtain ⟨d, word, rfl⟩ := List.exists_cons_of_ne_nil hne
      cases hc
      have hdigit := hdigits c List.mem_cons_self
      exact (ne_of_isNameChar (isNameChar_of_isDigit hdigit)).1
    | hexadecimal =>
      cases hc
      rfl
    | binary =>
      cases hc
      rfl
  · cases hc
    rfl

theorem lexeme_ne_newline (h : Literal written lexeme) : lexeme ≠ .newline := by
  cases h <;> rintro ⟨⟩

end Literal

/-! ### Texts side by side -/

/-- The tokens of a text that starts at a place. -/
def tokensFrom (start : Location) (text : List Char) : Except Fault (List Token) :=
  match (pieces text).findSome? Piece.excess? with
  | some digits => .error (.literalTooLong digits)
  | none => .ok (locate start (pieces text))

theorem tokenize_eq_tokensFrom (source file : String) (firstLine : Int) :
    tokenize source file firstLine = tokensFrom ⟨file, firstLine, 1⟩ source.toList :=
  rfl

/-- **The tokens of a text that comes apart** are those of its parts, with one end of the input. The second
part is read from the place where the first one ends, so its tokens stand where they did. -/
theorem tokensFrom_append (start : Location) {front back : List Char} (h : Seam front back) :
    tokensFrom start (front ++ back) = do
      let before ← tokensFrom start front
      let after ← tokensFrom (start.advanceOver front) back
      return before.dropLast ++ after := by
  have hfinish : finishOf start (pieces front) = start.advanceOver front := by
    rw [finishOf, pieces_flatten]
  unfold tokensFrom
  rw [pieces_append h, List.findSome?_append]
  -- a number too long in either part stops the whole, the front one first
  cases hfront : (pieces front).findSome? Piece.excess? with
  | some digits => rfl
  | none =>
    rw [Option.none_or]
    cases hback : (pieces back).findSome? Piece.excess? with
    | some digits => rfl
    | none =>
      have htokens : locate start (pieces front ++ pieces back) =
          (locate start (pieces front)).dropLast ++ locate (start.advanceOver front) (pieces back) := by
        rw [locate_eq, locate_eq start (pieces front), locate_eq _ (pieces back), List.dropLast_concat,
          located_append, finishOf_append, hfinish, List.append_assoc]
      exact congrArg Except.ok htokens

/-- A first piece that spells a token of its own line is the first token. -/
theorem tokensFrom_cut (start : Location) {text written back : List Char} {lexeme : Lexeme}
    (h : Cut text ⟨written, some lexeme⟩ back) (hshort : Piece.excess? ⟨written, some lexeme⟩ = none)
    (hline : lexeme ≠ .newline) :
    tokensFrom start text = do
      let after ← tokensFrom (start.advanceOver written) back
      return ⟨lexeme, start⟩ :: after := by
  -- the piece does not reach over a line end, so it ends on the line where it starts
  have hreported : reportedLine start.line (start.advanceOver written).line = start.line := by
    refine reportedLine_of_piece (p := ⟨written, some lexeme⟩) fun hmem => absurd ?_ hline
    cases h.eq_lineEnd_of_mem hmem
    rfl
  unfold tokensFrom
  rw [h.pieces_eq, List.findSome?_cons, hshort]
  dsimp only
  cases (pieces back).findSome? Piece.excess? with
  | some digits => rfl
  | none =>
    rw [locate]
    dsimp only
    rw [hreported]
    rfl

/-! ### Literals anywhere -/

/-- Where a literal may start, a text comes apart. -/
theorem Opens.seam {front back : List Char} (h : Opens front)
    (hback : ∀ c ∈ back.head?, isGap c = false) : Seam front back := by
  rcases h with rfl | hline | ⟨hspace, hcode⟩
  · refine ⟨rfl, ?_⟩
    rintro c ⟨⟩
  · obtain ⟨lines, rfl⟩ := List.getLast?_eq_some_iff.1 hline
    exact Seam.lineEnd lines back
  · refine ⟨hcode, fun c hc d hd => ?_⟩
    rw [hspace] at hc
    cases hc
    -- a space joins only another blank
    simp [joins, hback d hd, show isNameChar ' ' = false from rfl]

/-- **A literal is one token wherever it stands**: the tokens in front of it are those of the text in
front, the next one is the literal, at its place and with what it stands for, and reading goes on right
behind it. -/
theorem tokenize_literal (file : String) (firstLine : Int) {front written back : List Char}
    {lexeme : Lexeme} (h : Literal written lexeme) (hfront : Opens front)
    (hback : Bounds lexeme back) :
    let place := (⟨file, firstLine, 1⟩ : Location).advanceOver front
    tokenize (String.ofList (front ++ (written ++ back))) file firstLine = do
      let before ← tokenize (String.ofList front) file firstLine
      let after ← tokensFrom (place.advanceOver written) back
      return before.dropLast ++ ⟨lexeme, place⟩ :: after := by
  intro place
  have hcut := tokensFrom_cut place (h.cut hback) h.excess?_eq_none h.lexeme_ne_newline
  rw [tokenize_eq_tokensFrom, tokenize_eq_tokensFrom, String.toList_ofList, String.toList_ofList,
    tokensFrom_append _ (hfront.seam h.isGap_head), hcut]
  cases tokensFrom ⟨file, firstLine, 1⟩ front with
  | error fault => rfl
  | ok before =>
    cases tokensFrom (place.advanceOver written) back with
    | error fault => rfl
    | ok after => rfl

theorem tokenize_literal_hexadecimal :
    (tokenize "DB $0fF,7" "a.asm" 3).map (List.map fun t => (t.lexeme, t.location.line, t.location.column)) =
      .ok [(.name "DB", 3, 1), (.number 255, 3, 4), (.comma, 3, 8), (.number 7, 3, 9),
        (.endOfInput, 3, 10)] := by
  have hliteral : Literal ['$', '0', 'f', 'F'] (.number 255) :=
    .hexadecimal 255 1 ['0', 'f', 'F'] (by decide)
  have hfront : Opens ['D', 'B', ' '] := .inr (.inr ⟨rfl, rfl⟩)
  have hback : Bounds (.number 255) [',', '7'] := fun _ _ => Stops.cons_iff.2 rfl
  have htokens := tokenize_literal "a.asm" 3 hliteral hfront hback
  have hsource : String.ofList (['D', 'B', ' '] ++ (['$', '0', 'f', 'F'] ++ [',', '7'])) =
      "DB $0fF,7" := by decide
  rw [hsource] at htokens
  rw [htokens]
  decide +kernel

end CrossAssembler
