import CrossAssembler.Proofs.Token.Overlong
import CrossAssembler.Proofs.Token.Place

/-!
# Lines that end in a carriage return

A text may have a carriage return in front of each of its line feeds. Between tokens a carriage return
is blank, but it comes to stand wherever a line can end: behind a word, in a comment, in a string that is
not closed, or behind a backslash in such a string.

* **One piece** (`Cut.returned`): the first piece of a text is kept, or its line ends with it and it takes
  the carriage return, and then it spells what it spelled.
* **A whole text** (`returned_pieces`): so the pieces of both texts go side by side.
* **Tokens** (`tokenize_withReturns`): the tokens of both texts are the same, at the same places, but that
  line feeds stand one column further. If one text is too long to be read, so is the other.
-/

namespace CrossAssembler

open Piece

/-! ### Texts with carriage returns -/

/-- A text with a carriage return in front of each of its line feeds. -/
def withReturns (cs : List Char) : List Char :=
  cs.flatMap fun c => if c = '\n' then ['\r', '\n'] else [c]

theorem withReturns_lineEnd (cs : List Char) :
    withReturns ('\n' :: cs) = '\r' :: '\n' :: withReturns cs :=
  rfl

theorem withReturns_cons_of_ne {c : Char} (hc : c ≠ '\n') (cs : List Char) :
    withReturns (c :: cs) = c :: withReturns cs := by
  rw [withReturns, List.flatMap_cons, if_neg hc]
  rfl

theorem withReturns_append (front back : List Char) :
    withReturns (front ++ back) = withReturns front ++ withReturns back :=
  List.flatMap_append

/-- What stands on one line is kept. -/
theorem withReturns_of_not_mem {cs : List Char} (h : '\n' ∉ cs) : withReturns cs = cs := by
  induction cs with
  | nil => rfl
  | cons c cs ih =>
    rw [List.mem_cons, not_or] at h
    rw [withReturns_cons_of_ne (Ne.symm h.1), ih h.2]

/-- What stops a run still stops it, unless it is a line end and the run would go on with the carriage
return in front of it. -/
theorem stops_withReturns {p : Char → Bool} {rest : List Char} (h : Stops p rest)
    (hp : p '\r' = false ∨ ¬ ∃ more, rest = '\n' :: more) : Stops p (withReturns rest) := by
  cases rest with
  | nil => exact .nil p
  | cons c rest =>
    by_cases hc : c = '\n'
    · subst hc
      exact Stops.cons_iff.2 (hp.resolve_right fun hline => hline ⟨rest, rfl⟩)
    · rw [withReturns_cons_of_ne hc]
      exact Stops.cons_iff.2 (h c rfl)

/-- The text in front of the end of its line is at its end, or a line feed follows. -/
theorem AtLineEnd.eq_nil {rest : List Char} (h : AtLineEnd rest)
    (hline : ¬ ∃ more, rest = '\n' :: more) : rest = [] := by
  cases rest with
  | nil => rfl
  | cons c rest => exact absurd ⟨rest, by rw [h.eq_lineEnd]⟩ hline

/-- A string that its line cuts off takes one more character, also behind a backslash. -/
theorem Quotes.exists_return {value written tail : List Char} (h : Quotes value written)
    (htail : tail = [] ∨ tail = ['\\']) : ∃ value', Quotes value' (written ++ tail ++ ['\r']) := by
  induction h with
  | nil =>
    rcases htail with rfl | rfl
    · exact ⟨_, .plain (by decide) (by decide) (by decide) .nil⟩
    · exact ⟨_, .escaped (by decide) .nil⟩
  | plain hline hquote hescape _ ih =>
    obtain ⟨value', h⟩ := ih
    exact ⟨_, .plain hline hquote hescape h⟩
  | escaped hline _ ih =>
    obtain ⟨value', h⟩ := ih
    exact ⟨_, .escaped hline h⟩

/-! ### One piece -/

/-- A piece that goes on with a carriage return behind it. It spells what it spelled. A piece in front of
a line end takes the return with it if it goes on to the end of its line, as a comment does. -/
def Piece.longer (p : Piece) : Piece :=
  ⟨p.chars ++ ['\r'], p.lexeme⟩

/-- **One piece.** The first piece of a text is that of the text with carriage returns, unless its line
ends with it: then it may take the carriage return, if it spells no number. -/
theorem Cut.returned {text rest : List Char} {p : Piece} (h : Cut text p rest)
    (hp : p.lexeme ≠ some .newline) :
    Cut (withReturns text) p (withReturns rest) ∨
      ∃ more, rest = '\n' :: more ∧ (∀ v, p.lexeme ≠ some (.number v)) ∧
        Cut (withReturns text) p.longer ('\n' :: withReturns more) := by
  -- the piece itself is kept, so only what follows it has changed
  have htext : withReturns text = p.chars ++ withReturns rest := by
    rw [h.text_eq, withReturns_append, withReturns_of_not_mem]
    exact fun hmem => hp (h.lineEnd_mem_iff.1 hmem)
  rw [htext]
  cases h with
  | @gap c run _ hrun hrest =>
    by_cases hline : ∃ more, rest = '\n' :: more
    · obtain ⟨more, rfl⟩ := hline
      -- the carriage return is one more blank of the run
      have hlonger : ∀ d ∈ c :: (run ++ ['\r']), isGap d = true := by
        rw [← List.cons_append, List.forall_mem_append]
        exact ⟨hrun, List.forall_mem_singleton.2 rfl⟩
      have hstops : Stops isGap ('\n' :: withReturns more) := Stops.cons_iff.2 rfl
      have hcut := Cut.gap hlonger hstops
      rw [List.append_assoc] at hcut
      exact .inr ⟨more, rfl, by rintro v ⟨⟩, hcut⟩
    · exact .inl (.gap hrun (stops_withReturns hrest (.inr hline)))
  | @comment body _ hbody hrest =>
    by_cases hline : ∃ more, rest = '\n' :: more
    · obtain ⟨more, rfl⟩ := hline
      have hlonger : ∀ d ∈ body ++ ['\r'], d ≠ '\n' := by
        rw [List.forall_mem_append]
        exact ⟨hbody, List.forall_mem_singleton.2 (by decide)⟩
      have hcut := Cut.comment hlonger (.lineEnd (withReturns more))
      rw [List.append_assoc] at hcut
      exact .inr ⟨more, rfl, by rintro v ⟨⟩, hcut⟩
    · obtain rfl := hrest.eq_nil hline
      exact .inl (.comment hbody .nil)
  | lineEnd => exact absurd rfl hp
  -- a carriage return stops a word as a line feed does
  | name hstart hword hrest hshadow =>
    exact .inl (.name hstart hword (stops_withReturns hrest (.inl rfl))
      fun hfolded => stops_withReturns (hshadow hfolded) (.inl rfl))
  | shadow hstart hword hshadow =>
    left
    dsimp only
    rw [List.cons_append, List.append_assoc]
    exact .shadow hstart hword hshadow
  | decimal hstart hword hrest =>
    exact .inl (.decimal hstart hword (stops_withReturns hrest (.inl rfl)))
  | marked hmark hword hrest =>
    exact .inl (.marked hmark hword (stops_withReturns hrest (.inl rfl)))
  | string h =>
    left
    dsimp only
    rw [List.cons_append, List.append_assoc]
    exact .string h
  | @openString value written tail _ h htail hrest =>
    by_cases hline : ∃ more, rest = '\n' :: more
    · obtain ⟨more, rfl⟩ := hline
      -- behind a backslash the carriage return is an escaped character
      obtain ⟨value', hlonger⟩ := h.exists_return htail
      have hcut := Cut.openString hlonger (.inl rfl) (.lineEnd (withReturns more))
      refine .inr ⟨more, rfl, by rintro v ⟨⟩, ?_⟩
      rw [List.append_nil, List.nil_append, List.append_assoc (written ++ tail)] at hcut
      exact hcut
    · obtain rfl := hrest.eq_nil hline
      left
      dsimp only
      rw [List.cons_append, List.append_assoc]
      exact .openString h htail .nil
  | single hgap hname hdigit hmark => exact .inl (.single hgap hname hdigit hmark)

/-! ### Rows of pieces -/

/-- The line end as a piece. -/
def Piece.lineEnd : Piece := ⟨['\n'], some .newline⟩

/-- The pieces of a text, and those of the text with carriage returns: a carriage return is blank, or
belongs to the piece in front of it, which spells no number. -/
inductive Returned : List Piece → List Piece → Prop where
  | nil : Returned [] []
  | kept {p : Piece} {ps qs : List Piece} (hp : p.lexeme ≠ some .newline) (h : Returned ps qs) :
      Returned (p :: ps) (p :: qs)
  | lineEnd {ps qs : List Piece} (h : Returned ps qs) :
      Returned (.lineEnd :: ps) (.blank ['\r'] :: .lineEnd :: qs)
  | longer {p : Piece} {ps qs : List Piece} (hp : p.lexeme ≠ some .newline)
      (hnumber : ∀ v, p.lexeme ≠ some (.number v)) (h : Returned ps qs) :
      Returned (p :: .lineEnd :: ps) (p.longer :: .lineEnd :: qs)

theorem pieces_lineEnd (cs : List Char) : pieces ('\n' :: cs) = .lineEnd :: pieces cs :=
  (Cut.lineEnd cs).pieces_eq

theorem pieces_return (cs : List Char) :
    pieces ('\r' :: '\n' :: cs) = .blank ['\r'] :: .lineEnd :: pieces cs := by
  have hstops : Stops isGap ('\n' :: cs) := Stops.cons_iff.2 rfl
  have hcut := Cut.gap (List.forall_mem_singleton.2 (rfl : isGap '\r' = true)) hstops
  rw [← pieces_lineEnd]
  exact hcut.pieces_eq

theorem Returned.of_lineEnd {ps qs : List Piece}
    (h : Returned (.lineEnd :: ps) (.blank ['\r'] :: .lineEnd :: qs)) : Returned ps qs := by
  cases h with
  | lineEnd h => exact h

/-- **The pieces of a text with carriage returns** go side by side with those of the text. -/
theorem returned_pieces (cs : List Char) : Returned (pieces cs) (pieces (withReturns cs)) := by
  -- one piece at a time; a piece that takes the carriage return takes the line end behind it along, because
  -- both rows have that in common
  fun_induction pieces cs with
  | case1 =>
    rw [withReturns, List.flatMap_nil, pieces_nil]
    exact .nil
  | case2 c cs ih =>
    have hcut := Cut.of_next c cs
    generalize Piece.next c cs = q at hcut ih ⊢
    obtain ⟨p, rest⟩ := q
    dsimp only at hcut ih ⊢
    by_cases hp : p.lexeme = some .newline
    · -- no piece has taken the carriage return, so it is blank
      have hend := hcut.eq_lineEnd_of_mem (hcut.lineEnd_mem_iff.2 hp)
      rw [hcut.text_eq, hend, List.singleton_append, withReturns_lineEnd, pieces_return]
      exact .lineEnd ih
    · rcases hcut.returned hp with hkept | ⟨more, rfl, hnumber, hlonger⟩
      · rw [hkept.pieces_eq]
        exact .kept hp ih
      · -- the line end behind the piece was compared already, with the carriage return in front of it
        rw [withReturns_lineEnd, pieces_return, pieces_lineEnd] at ih
        rw [hlonger.pieces_eq, pieces_lineEnd, pieces_lineEnd]
        exact .longer hp hnumber ih.of_lineEnd

/-! ### Tokens -/

/-- The place one column further. -/
def Location.right (l : Location) : Location :=
  { l with column := l.column + 1 }

/-- A token of a text in the text with carriage returns: a line feed stands one column further. -/
def Token.behindReturn (t : Token) : Token :=
  if t.lexeme = .newline then t.moved Location.right else t

theorem Piece.excess?_eq_none {p : Piece} (h : ∀ v, p.lexeme ≠ some (.number v)) :
    p.excess? = none := by
  rw [Option.eq_none_iff_forall_ne_some]
  intro digits hexcess
  obtain ⟨v, -, -, hlexeme, -⟩ := Piece.excess?_eq_some hexcess
  exact h v hlexeme

namespace Returned

variable {ps qs : List Piece}

/-- Carriage returns do not make numbers longer. -/
theorem findSome?_excess (h : Returned ps qs) :
    qs.findSome? Piece.excess? = ps.findSome? Piece.excess? := by
  induction h with
  | nil => rfl
  | kept hp h ih => rw [List.findSome?_cons, List.findSome?_cons, ih]
  | lineEnd h ih => exact ih
  | @longer p ps qs hp hnumber h ih =>
    have hshort : p.longer.excess? = none := Piece.excess?_eq_none hnumber
    rw [List.findSome?_cons_of_isNone (Option.isNone_iff_eq_none.2 hshort),
      List.findSome?_cons_of_isNone (Option.isNone_iff_eq_none.2 (Piece.excess?_eq_none hnumber))]
    exact ih

/-- A line end one column further, and what follows it where it was. -/
theorem locate_lineEnd (h : ∀ start, locate start qs = (locate start ps).map Token.behindReturn)
    (l : Location) :
    locate l.right (.lineEnd :: qs) = (locate l (.lineEnd :: ps)).map Token.behindReturn :=
  congrArg _ (h _)

/-- A piece that is no line end spells the same token, however many blanks it has taken. -/
theorem locate_cons {p q : Piece} {start : Location} (hp : p.lexeme ≠ some .newline)
    (hlexeme : q.lexeme = p.lexeme)
    (hline : (start.advanceOver q.chars).line = (start.advanceOver p.chars).line)
    (hrest : locate (start.advanceOver q.chars) qs =
      (locate (start.advanceOver p.chars) ps).map Token.behindReturn) :
    locate start (q :: qs) = (locate start (p :: ps)).map Token.behindReturn := by
  unfold locate
  dsimp only
  rw [hlexeme, hline, hrest]
  cases hspelled : p.lexeme with
  | none => rfl
  | some lexeme =>
    have hne : lexeme ≠ .newline := fun hnewline => hp (hspelled.trans (congrArg some hnewline))
    rw [List.map_cons, Token.behindReturn, if_neg hne]

/-- **The tokens of both rows** are the same, but for the columns of line ends. -/
theorem locate_eq (h : Returned ps qs) (start : Location) :
    locate start qs = (locate start ps).map Token.behindReturn := by
  -- the start may be anywhere, since a row goes on where its first piece ends
  induction h generalizing start with
  | nil => rfl
  | kept hp h ih => exact locate_cons hp rfl rfl (ih _)
  | lineEnd h ih => exact locate_lineEnd ih start
  | @longer p ps qs hp hnumber h ih =>
    have hfinish : start.advanceOver p.longer.chars = (start.advanceOver p.chars).right := by
      rw [Piece.longer, Location.advanceOver_append]
      rfl
    refine locate_cons hp rfl ?_ ?_
    · rw [hfinish]
      rfl
    · rw [hfinish]
      exact locate_lineEnd ih _

end Returned

/-- **The tokens of a text with carriage returns** are those of the text, with line feeds one column
further, and what cannot be read in one cannot be read in the other. -/
theorem tokenize_withReturns (source file : String) (firstLine : Int) :
    tokenize (String.ofList (withReturns source.toList)) file firstLine =
      (tokenize source file firstLine).map (List.map Token.behindReturn) := by
  have hpieces := returned_pieces source.toList
  unfold tokenize
  dsimp only
  rw [String.toList_ofList, hpieces.findSome?_excess, hpieces.locate_eq]
  cases (pieces source.toList).findSome? Piece.excess? with
  | some digits => rfl
  | none => rfl

end CrossAssembler
