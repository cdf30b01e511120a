import CrossAssembler.Proofs.Text.Digit
import CrossAssembler.Proofs.Token.Place
import Mathlib

/-!
# Capital and small letters

A text is read alike whether its letters are capital or small. What a token may keep of its letters
is inside a string, and in the message of a malformed literal; the *outline* of a token leaves both
out.

* **Characters** (`toUpper_class`): a class that does not tell letters apart does not tell a letter
  from its capital.
* **One piece** (`Cut.exists_capitals`): the first piece of a text in capitals is the first piece of
  the text, in capitals and with the same outline.
* **A whole text** (`tokenize_capitals`): two texts that are the same in capitals are both too long
  to be read, or have tokens with the same outlines at the same places.
-/

namespace CrossAssembler

open Piece

/-! ### Characters -/

/-- A class that holds of all letters, or of none, does not tell a letter from its capital. -/
theorem toUpper_class {p : Char → Bool} {b : Bool} (hp : ∀ c : Char, c.isAlpha = true → p c = b)
    (c : Char) : p c.toUpper = p c := by
  -- a letter and its capital are both letters; anything else is its own capital
  by_cases hletter : c.isAlpha = true
  · rw [hp c hletter, hp _ ((Char.isAlpha_toUpper_eq_isAlpha c).trans hletter)]
  · have hlower : ¬ c.isLower = true := by
      intro hlower
      apply hletter
      change (c.isUpper || c.isLower) = true
      rw [hlower, Bool.or_true]
    rw [Char.toUpper_eq_of_not_isLower hlower]

theorem isNameStart_of_isAlpha {c : Char} (h : c.isAlpha = true) : isNameStart c = true := by
  rw [isNameStart, h, Bool.true_or]

theorem isGap_toUpper (c : Char) : isGap c.toUpper = isGap c :=
  toUpper_class (fun _ h => (ne_of_isNameChar
    (isNameChar_of_isNameStart (isNameStart_of_isAlpha h))).1) c

theorem isNameStart_toUpper_eq (c : Char) : isNameStart c.toUpper = isNameStart c :=
  toUpper_class (fun _ h => isNameStart_of_isAlpha h) c

theorem isNameChar_toUpper_eq (c : Char) : isNameChar c.toUpper = isNameChar c :=
  toUpper_class (fun _ h => isNameChar_of_isNameStart (isNameStart_of_isAlpha h)) c

/-- A character that is no letter is the capital of itself alone. -/
theorem toUpper_beq {d : Char} (hd : d.isAlpha = false) (c : Char) :
    (c.toUpper == d) = (c == d) := by
  refine toUpper_class (p := (· == d)) (b := false) ?_ c
  intro e he
  rw [beq_eq_false_iff_ne]
  rintro rfl
  rw [hd] at he
  cases he

theorem toUpper_eq_iff {c d : Char} (hd : d.isAlpha = false) : c.toUpper = d ↔ c = d := by
  rw [← beq_iff_eq, toUpper_beq hd, beq_iff_eq]

/-! ### Texts in capitals -/

/-- A text with capital letters in place of small ones. -/
def capitals (cs : List Char) : List Char :=
  cs.map Char.toUpper

theorem capitals_cons (c : Char) (cs : List Char) : capitals (c :: cs) = c.toUpper :: capitals cs :=
  rfl

theorem capitals_append (front back : List Char) :
    capitals (front ++ back) = capitals front ++ capitals back :=
  List.map_append

theorem length_capitals (cs : List Char) : (capitals cs).length = cs.length :=
  List.length_map _

theorem capitals_capitals (cs : List Char) : capitals (capitals cs) = capitals cs := by
  unfold capitals
  rw [List.map_map]
  exact List.map_congr_left fun c _ => Char.toUpper_toUpper_eq_toUpper c

theorem forall_mem_capitals {p : Char → Bool} (hp : ∀ c : Char, p c.toUpper = p c)
    {cs : List Char} (h : ∀ c ∈ cs, p c = true) : ∀ c ∈ capitals cs, p c = true := by
  intro c hc
  obtain ⟨d, hd, rfl⟩ := List.mem_map.1 hc
  rw [hp, h d hd]

theorem stops_capitals {p : Char → Bool} (hp : ∀ c : Char, p c.toUpper = p c) {rest : List Char}
    (h : Stops p rest) : Stops p (capitals rest) := by
  cases rest with
  | nil => exact .nil p
  | cons c rest =>
    refine Stops.cons_iff.2 ?_
    rw [hp]
    exact h c rfl

theorem atLineEnd_capitals {rest : List Char} (h : AtLineEnd rest) :
    AtLineEnd (capitals rest) := by
  refine stops_capitals ?_ h
  intro c
  rw [bne, bne, toUpper_beq rfl]

/-- A string stays a string, with its contents in capitals. -/
theorem quotes_capitals {value written : List Char} (h : Quotes value written) :
    Quotes (capitals value) (capitals written) := by
  induction h with
  | nil => exact .nil
  | plain hline hquote hescape h ih =>
    refine .plain ?_ ?_ ?_ ih
    · rwa [ne_eq, toUpper_eq_iff rfl]
    · rwa [ne_eq, toUpper_eq_iff rfl]
    · rwa [ne_eq, toUpper_eq_iff rfl]
  | escaped hline h ih =>
    refine .escaped ?_ ih
    rwa [ne_eq, toUpper_eq_iff rfl]

/-- The number that a row of digits means is the same in capitals. -/
theorem NumberBase.isNumber_capitals (base : NumberBase) (word : List Char) :
    base.isNumber (capitals word) = base.isNumber word := by
  have hdigit : (Text.isDigit base.radix ∘ Char.toUpper) = Text.isDigit base.radix :=
    funext (Text.isDigit_toUpper base.radix)
  unfold isNumber capitals
  rw [List.isEmpty_map, List.all_map, hdigit]

/-! ### Outlines -/

/-- A lexeme without the contents of a string and without the message of a malformed literal. Names are
in capitals already, so these are the only parts of a lexeme that keep the case of the text. -/
def Lexeme.outline : Lexeme → Lexeme
  | string _ => string ""
  | malformed _ => malformed ""
  | l => l

/-- A piece in capitals, with the outline of its lexeme. -/
def Piece.outline (p : Piece) : Piece :=
  ⟨capitals p.chars, p.lexeme.map Lexeme.outline⟩

/-- A token with the outline of its lexeme. -/
def Token.outline (t : Token) : Token :=
  ⟨t.lexeme.outline, t.location⟩

theorem NumberBase.outline_lexeme_capitals (base : NumberBase) (word : List Char) :
    (base.lexeme (capitals word)).outline = (base.lexeme word).outline := by
  unfold lexeme
  rw [isNumber_capitals, capitals, Text.ofDigits_map_toUpper]
  by_cases hnumber : base.isNumber word = true
  · rw [if_pos hnumber, if_pos hnumber]
  · rw [if_neg hnumber, if_neg hnumber]
    rfl

theorem Piece.outline_eq {chars chars' : List Char} {l l' : Option Lexeme}
    (hchars : chars' = capitals chars) (hl : l'.map Lexeme.outline = l.map Lexeme.outline) :
    Piece.outline ⟨chars', l'⟩ = Piece.outline ⟨chars, l⟩ := by
  unfold Piece.outline
  rw [hchars, capitals_capitals, hl]

/-- **One piece.** The first piece of a text in capitals is the first piece of the text, in capitals
and with the same outline. -/
theorem Cut.exists_capitals {text rest : List Char} {p : Piece} (h : Cut text p rest) :
    ∃ q : Piece, Cut (capitals text) q (capitals rest) ∧ q.outline = p.outline := by
  -- each rule asks for classes and characters that do not tell letters apart
  cases h with
  | gap hrun hrest =>
    rw [capitals_cons, capitals_append]
    exact ⟨_, .gap (forall_mem_capitals isGap_toUpper hrun) (stops_capitals isGap_toUpper hrest),
      outline_eq rfl rfl⟩
  | @comment body _ hbody hrest =>
    have hcapitals : ∀ c ∈ capitals body, c ≠ '\n' := by
      intro c hc
      obtain ⟨d, hd, rfl⟩ := List.mem_map.1 hc
      rw [ne_eq, toUpper_eq_iff rfl]
      exact hbody d hd
    rw [capitals_cons, capitals_append]
    exact ⟨_, .comment hcapitals (atLineEnd_capitals hrest), outline_eq rfl rfl⟩
  | lineEnd rest => exact ⟨_, .lineEnd _, rfl⟩
  | @name c word _ hstart hword hrest hshadow =>
    -- the name is folded already
    have hfolded : (c.toUpper :: capitals word).map Char.toUpper = (c :: word).map Char.toUpper :=
      capitals_capitals (c :: word)
    have hquote : (c.toUpper :: capitals word).map Char.toUpper = ['A', 'F'] →
        Stops (· == '\'') (capitals rest) := by
      intro hname
      exact stops_capitals (toUpper_beq rfl) (hshadow (hfolded ▸ hname))
    rw [capitals_cons, capitals_append]
    refine ⟨_, .name ((isNameStart_toUpper_eq c).trans hstart)
      (forall_mem_capitals isNameChar_toUpper_eq hword)
      (stops_capitals isNameChar_toUpper_eq hrest) hquote, outline_eq rfl ?_⟩
    rw [hfolded]
  | @shadow c word _ hstart hword hshadow =>
    have hfolded : (c.toUpper :: capitals word).map Char.toUpper = ['A', 'F'] :=
      (capitals_capitals (c :: word)).trans hshadow
    rw [capitals_cons, capitals_append]
    refine ⟨_, .shadow ((isNameStart_toUpper_eq c).trans hstart)
      (forall_mem_capitals isNameChar_toUpper_eq hword) hfolded, outline_eq ?_ rfl⟩
    rw [capitals_cons, capitals_append]
    rfl
  | @decimal c word _ hstart hword hrest =>
    rw [capitals_cons, capitals_append]
    exact ⟨_, .decimal ((Text.isDigit_toUpper 10 c).trans hstart)
      (forall_mem_capitals isNameChar_toUpper_eq hword)
      (stops_capitals isNameChar_toUpper_eq hrest),
      outline_eq rfl (congrArg some (NumberBase.decimal.outline_lexeme_capitals (c :: word)))⟩
  | @marked base c word _ hmark hword hrest =>
    -- the marks in front of numbers are no letters
    have hc : c.toUpper = c := by rcases mark_cases hmark with rfl | rfl <;> rfl
    rw [capitals_cons, capitals_append, hc]
    refine ⟨_, .marked hmark (forall_mem_capitals isNameChar_toUpper_eq hword)
      (stops_capitals isNameChar_toUpper_eq hrest),
      outline_eq ?_ (congrArg some (base.outline_lexeme_capitals word))⟩
    rw [capitals_cons, hc]
  | @string value written _ h =>
    rw [capitals_cons, capitals_append]
    refine ⟨_, .string (quotes_capitals h), outline_eq ?_ rfl⟩
    rw [capitals_cons, capitals_append]
    rfl
  | @openString value written tail _ h htail hrest =>
    have htail' : capitals tail = [] ∨ capitals tail = ['\\'] := by
      rcases htail with rfl | rfl
      · exact .inl rfl
      · exact .inr rfl
    rw [capitals_cons, capitals_append, capitals_append]
    refine ⟨_, .openString (quotes_capitals h) htail' (atLineEnd_capitals hrest), outline_eq ?_ rfl⟩
    rw [capitals_cons, capitals_append]
    rfl
  | @single c _ hgap hname hdigit hmark =>
    -- a character that starts nothing else is no letter
    have hc : c.toUpper = c := by
      have hletter : c.isAlpha = false := by
        rw [← Bool.not_eq_true]
        intro hletter
        rw [isNameStart_of_isAlpha hletter] at hname
        cases hname
      exact (toUpper_eq_iff hletter).2 rfl
    rw [capitals_cons, hc]
    exact ⟨_, .single hgap hname hdigit hmark, rfl⟩

/-! ### Whole texts -/

/-- The pieces of a text in capitals are those of the text, up to their outlines. -/
theorem outline_pieces_capitals (cs : List Char) :
    (pieces (capitals cs)).map Piece.outline = (pieces cs).map Piece.outline := by
  -- what follows the first piece in capitals is what follows it in the text, in capitals
  fun_induction pieces cs with
  | case1 => rw [capitals, List.map_nil, pieces_nil]
  | case2 c cs ih =>
    obtain ⟨q, hcut, hq⟩ := (Cut.of_next c cs).exists_capitals
    rw [capitals_cons] at hcut ⊢
    rw [pieces_cons, hcut.next_eq, List.map_cons, List.map_cons, hq, ih]

theorem outline_pieces {cs cs' : List Char} (h : capitals cs = capitals cs') :
    (pieces cs).map Piece.outline = (pieces cs').map Piece.outline := by
  rw [← outline_pieces_capitals cs, h, outline_pieces_capitals]

/-- A number is too long by its outline. -/
theorem Piece.excess?_outline (p : Piece) : p.outline.excess? = p.excess? := by
  obtain ⟨chars, lexeme⟩ := p
  cases lexeme with
  | none => rfl
  | some l =>
    cases l with
    | number value =>
      cases chars with
      | nil => rfl
      | cons c cs =>
        -- the first character stays a digit, and the length stays as it is
        change (if Text.isDigit 10 c.toUpper &&
            Text.maxDecimalDigits < (capitals (c :: cs)).length then
          some (capitals (c :: cs)).length else none) = _
        rw [Text.isDigit_toUpper, length_capitals]
        rfl
    | _ => rfl

/-- A place moves on over a text in capitals as it does over the text. -/
theorem advanceOver_capitals (l : Location) (cs : List Char) :
    l.advanceOver (capitals cs) = l.advanceOver cs := by
  induction cs generalizing l with
  | nil => rfl
  | cons c cs ih =>
    have hstep : l.advance c.toUpper = l.advance c := by
      unfold Location.advance
      simp only [toUpper_eq_iff (d := '\n') rfl]
    rw [capitals_cons, Location.advanceOver_cons, Location.advanceOver_cons, hstep, ih]

theorem locate_outline (start : Location) (ps : List Piece) :
    locate start (ps.map Piece.outline) = (locate start ps).map Token.outline := by
  induction ps generalizing start with
  | nil => rfl
  | cons p ps ih =>
    rw [List.map_cons, locate, locate]
    dsimp only [Piece.outline]
    rw [advanceOver_capitals]
    cases p.lexeme with
    | none => exact ih _
    | some l => exact congrArg _ (ih _)

/-- **A whole text.** Texts that are the same in capitals are both too long to be read, or have
tokens with the same outlines. -/
theorem tokenize_capitals {source source' : String}
    (h : capitals source.toList = capitals source'.toList) (file : String) (firstLine : Int) :
    (∃ fault, tokenize source file firstLine = .error fault ∧
        tokenize source' file firstLine = .error fault) ∨
      ∃ ts ts', tokenize source file firstLine = .ok ts ∧
        tokenize source' file firstLine = .ok ts' ∧
        ts.map Token.outline = ts'.map Token.outline := by
  have houtlines := outline_pieces h
  -- both steps of the scan, the search for a number too long and the tokens, go by outlines
  have hexcess : ∀ ps : List Piece,
      ps.findSome? Piece.excess? = (ps.map Piece.outline).findSome? Piece.excess? := by
    intro ps
    rw [List.findSome?_map]
    exact congrArg (fun g => ps.findSome? g) (funext fun p => (Piece.excess?_outline p).symm)
  unfold tokenize
  dsimp only
  rw [hexcess (pieces source.toList), hexcess (pieces source'.toList), houtlines]
  cases ((pieces source'.toList).map Piece.outline).findSome? Piece.excess? with
  | some digits => exact .inl ⟨_, rfl, rfl⟩
  | none =>
    refine .inr ⟨_, _, rfl, rfl, ?_⟩
    rw [← locate_outline, ← locate_outline, houtlines]

end CrossAssembler
