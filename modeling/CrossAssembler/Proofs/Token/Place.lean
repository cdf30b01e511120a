import CrossAssembler.Proofs.Token.Seam

/-!
# Places of tokens

The places of tokens are found by walking over the pieces of a text. Here the tokens are taken apart
from the end of the input (`located`, `locate_eq`), and three facts are drawn from that:

* **Rows of pieces** (`located_append`): the second of two rows starts where the first one ends.
* **Lines further down** (`located_down`): a text that starts some lines further down has the same
  tokens, all of them that many lines further down.
* **Line ends** (`exists_located_lineEnd`): the last token of a text that ends with its line is the
  line end, whatever was left open on the line.
-/

namespace CrossAssembler

open Piece

/-! ### Pieces and line ends -/

/-- What holds of every piece by the rules holds of the pieces of a text. -/
theorem forall_mem_pieces {P : Piece → Prop} (hP : ∀ text p rest, Cut text p rest → P p)
    (cs : List Char) : ∀ p ∈ pieces cs, P p := by
  fun_induction pieces cs with
  | case1 =>
    intro p hp
    cases hp
  | case2 c cs ih =>
    rw [List.forall_mem_cons]
    exact ⟨hP _ _ _ (Cut.of_next c cs), ih⟩

/-- No string, however it is written, holds a line end. -/
theorem Quotes.lineEnd_not_mem {value written : List Char} (h : Quotes value written) :
    '\n' ∉ written := by
  induction h with
  | nil => exact List.not_mem_nil
  | plain hline hquote hescape h ih =>
    rw [List.mem_cons, not_or]
    exact ⟨hline.symm, ih⟩
  | escaped hline h ih =>
    rw [List.mem_cons, List.mem_cons, not_or, not_or]
    exact ⟨by decide, hline.symm, ih⟩

theorem lineEnd_not_mem_word {word : List Char} (hword : ∀ d ∈ word, isNameChar d = true) :
    '\n' ∉ word := by
  intro hmem
  cases hword '\n' hmem

/-- **No piece reaches over a line end**: a piece that holds one is the line end itself. -/
theorem Cut.eq_lineEnd_of_mem {text rest : List Char} {p : Piece} (h : Cut text p rest)
    (hmem : '\n' ∈ p.chars) : p = ⟨['\n'], some .newline⟩ := by
  -- only the rule for line ends has one in what it takes; every other rule says what it may take
  cases h with
  | gap hrun hrest => cases hrun '\n' hmem
  | comment hbody hrest =>
    rcases List.mem_cons.1 hmem with hmark | hmem
    · cases hmark
    · exact absurd rfl (hbody '\n' hmem)
  | lineEnd => rfl
  | name hstart hword hrest hshadow => exact absurd hmem (lineEnd_not_mem_word hword)
  | shadow hstart hword hshadow =>
    rw [← List.cons_append] at hmem
    rcases List.mem_append.1 hmem with hmem | hquote
    · exact absurd hmem (lineEnd_not_mem_word hword)
    · cases List.mem_singleton.1 hquote
  | decimal hstart hword hrest => exact absurd hmem (lineEnd_not_mem_word hword)
  | marked hmark hword hrest =>
    rcases List.mem_cons.1 hmem with rfl | hmem
    · rcases mark_cases hmark with hc | hc <;> cases hc
    · exact absurd hmem (lineEnd_not_mem_word hword)
  | string h =>
    rcases List.mem_cons.1 hmem with hquote | hmem
    · cases hquote
    · rcases List.mem_append.1 hmem with hmem | hquote
      · exact absurd hmem h.lineEnd_not_mem
      · cases List.mem_singleton.1 hquote
  | openString h htail hrest =>
    rcases List.mem_cons.1 hmem with hquote | hmem
    · cases hquote
    · rcases List.mem_append.1 hmem with hmem | hmem
      · exact absurd hmem h.lineEnd_not_mem
      · rcases htail with rfl | rfl
        · cases hmem
        · cases List.mem_singleton.1 hmem
  | single hgap hname hdigit hmark =>
    obtain rfl := List.mem_singleton.1 hmem
    exact absurd (by simp) hmark

/-- A word that starts like a number spells a number or a malformed literal. -/
theorem NumberBase.lexeme_ne {l : Lexeme} (hnumber : ∀ v, l ≠ .number v)
    (hmalformed : ∀ message, l ≠ .malformed message) (base : NumberBase) (word : List Char) :
    base.lexeme word ≠ l := by
  unfold NumberBase.lexeme
  split
  · exact (hnumber _).symm
  · exact (hmalformed _).symm

/-- Nothing in a text spells the end of the input. -/
theorem Cut.lexeme_ne_end {text rest : List Char} {p : Piece} (h : Cut text p rest) :
    p.lexeme ≠ some .endOfInput := by
  have hnumber := @NumberBase.lexeme_ne .endOfInput (by rintro v ⟨⟩) (by rintro message ⟨⟩)
  intro hend
  -- words and single characters compute what they spell; the other rules name it
  cases h with
  | decimal hstart hword hrest => exact hnumber _ _ (Option.some.inj hend)
  | marked hmark hword hrest => exact hnumber _ _ (Option.some.inj hend)
  | single hgap hname hdigit hmark =>
    unfold single? at hend
    split at hend <;> cases hend
  | _ => cases hend

/-- **Only a line end spells a line end.** -/
theorem Cut.lineEnd_mem_iff {text rest : List Char} {p : Piece} (h : Cut text p rest) :
    '\n' ∈ p.chars ↔ p.lexeme = some .newline := by
  have hnumber := @NumberBase.lexeme_ne .newline (by rintro v ⟨⟩) (by rintro message ⟨⟩)
  constructor
  · intro hmem
    rw [h.eq_lineEnd_of_mem hmem]
  intro hlexeme
  cases h with
  | lineEnd => exact List.mem_cons_self
  | decimal hstart hword hrest => exact absurd (Option.some.inj hlexeme) (hnumber _ _)
  | marked hmark hword hrest => exact absurd (Option.some.inj hlexeme) (hnumber _ _)
  | single hgap hname hdigit hmark =>
    unfold single? at hlexeme
    split at hlexeme <;> cases hlexeme
  | _ => cases hlexeme

theorem Cut.chars_ne_nil {text rest : List Char} {p : Piece} (h : Cut text p rest) :
    p.chars ≠ [] := by
  cases h <;> exact List.cons_ne_nil _ _

/-- The last piece of a text that ends with its line is the line end. -/
theorem exists_pieces_lineEnd (cs : List Char) :
    ∃ ps, pieces (cs ++ ['\n']) = ps ++ [⟨['\n'], some .newline⟩] := by
  have hflatten := pieces_flatten (cs ++ ['\n'])
  have hpiece : ∀ p ∈ pieces (cs ++ ['\n']),
      p.chars ≠ [] ∧ ('\n' ∈ p.chars → p = ⟨['\n'], some .newline⟩) :=
    forall_mem_pieces (fun _ _ _ h => ⟨h.chars_ne_nil, h.eq_lineEnd_of_mem⟩) _
  generalize pieces (cs ++ ['\n']) = all at hflatten hpiece ⊢
  -- from the right: the last piece holds the line end, so it is one
  rcases List.eq_nil_or_concat all with rfl | ⟨ps, p, rfl⟩
  · simp at hflatten
  · rw [List.concat_eq_append] at hflatten hpiece ⊢
    obtain ⟨hne, hlineEnd⟩ := hpiece p (by simp)
    -- a piece is not empty, so the last piece holds the last character
    have hlast : p.chars.getLast hne = '\n' := by
      have hlast := congrArg List.getLast? hflatten
      rw [List.flatMap_append, List.flatMap_cons, List.flatMap_nil, List.append_nil,
        List.getLast?_append, List.getLast?_eq_some_getLast hne, List.getLast?_concat] at hlast
      exact Option.some.inj hlast
    have hmem : '\n' ∈ p.chars := hlast ▸ List.getLast_mem hne
    exact ⟨ps, by rw [hlineEnd hmem]⟩

/-! ### Tokens without the end of the input -/

/-- The tokens of a row of pieces that starts at a place. Unlike `locate` it puts no end of the input
behind them, so that it can be taken apart where the row is. -/
def located (start : Location) : List Piece → List Token
  | [] => []
  | p :: ps =>
    let finish := start.advanceOver p.chars
    match p.lexeme with
    | none => located finish ps
    | some lexeme =>
      ⟨lexeme, { start with line := reportedLine start.line finish.line }⟩ :: located finish ps

/-- The place behind a row of pieces. -/
def finishOf (start : Location) (ps : List Piece) : Location :=
  start.advanceOver (ps.flatMap Piece.chars)

theorem finishOf_cons (start : Location) (p : Piece) (ps : List Piece) :
    finishOf start (p :: ps) = finishOf (start.advanceOver p.chars) ps := by
  rw [finishOf, List.flatMap_cons, Location.advanceOver_append]
  rfl

theorem locate_eq (start : Location) (ps : List Piece) :
    locate start ps = located start ps ++ [⟨.endOfInput, finishOf start ps⟩] := by
  -- the end of the input stands behind the last piece, which the start of the walk leads to
  induction ps generalizing start with
  | nil => rfl
  | cons p ps ih =>
    rw [locate, located, finishOf_cons]
    cases p.lexeme with
    | none => exact ih _
    | some lexeme => exact congrArg _ (ih _)

/-- A row of pieces starts where the row in front of it ends. -/
theorem located_append (start : Location) (ps qs : List Piece) :
    located start (ps ++ qs) = located start ps ++ located (finishOf start ps) qs := by
  induction ps generalizing start with
  | nil => rfl
  | cons p ps ih =>
    rw [List.cons_append, located, located, finishOf_cons]
    cases p.lexeme with
    | none => exact ih _
    | some lexeme => exact congrArg _ (ih _)

/-- None of the tokens of a text is the end of the input. -/
theorem isEnd_of_mem_located {start : Location} {ps : List Piece}
    (hps : ∀ p ∈ ps, p.lexeme ≠ some .endOfInput) : ∀ t ∈ located start ps, t.isEnd = false := by
  induction ps generalizing start with
  | nil =>
    intro t ht
    cases ht
  | cons p ps ih =>
    obtain ⟨hp, hps⟩ := List.forall_mem_cons.1 hps
    rw [located]
    cases hlexeme : p.lexeme with
    | none => exact ih hps
    | some lexeme =>
      refine List.forall_mem_cons.2 ⟨?_, ih hps⟩
      rw [Token.isEnd, beq_eq_false_iff_ne]
      intro hend
      rw [hlexeme] at hp
      exact hp (congrArg some hend)

/-! ### Further down -/

namespace Location

/-- The place some lines further down, in the same column. -/
def down (n : Nat) (l : Location) : Location :=
  { l with line := l.line + n }

theorem advance_down (n : Nat) (l : Location) (c : Char) :
    (l.down n).advance c = (l.advance c).down n := by
  unfold advance down
  split
  · rw [Location.mk.injEq]
    exact ⟨rfl, by dsimp only; omega, rfl⟩
  · rfl

theorem advanceOver_down (n : Nat) (l : Location) (cs : List Char) :
    (l.down n).advanceOver cs = (l.advanceOver cs).down n := by
  induction cs generalizing l with
  | nil => rfl
  | cons c cs ih => rw [advanceOver_cons, advanceOver_cons, advance_down, ih]

/-- Behind a text the line is further down by its line ends. -/
theorem line_advanceOver (l : Location) (cs : List Char) :
    (l.advanceOver cs).line = l.line + (cs.count '\n' : Nat) := by
  induction cs generalizing l with
  | nil => simp
  | cons c cs ih =>
    rw [advanceOver_cons, ih, advance]
    by_cases hc : c = '\n'
    · rw [if_pos hc, hc, List.count_cons_self]
      dsimp only
      omega
    · rw [if_neg hc, List.count_cons_of_ne hc]

theorem file_advanceOver (l : Location) (cs : List Char) : (l.advanceOver cs).file = l.file := by
  induction cs generalizing l with
  | nil => rfl
  | cons c cs ih =>
    rw [advanceOver_cons, ih, advance]
    split <;> rfl

/-- Behind a line end a new line starts. -/
theorem advanceOver_lineEnd (l : Location) (cs : List Char) :
    l.advanceOver (cs ++ ['\n']) = ⟨l.file, l.line + (cs.count '\n' + 1 : Nat), 1⟩ := by
  rw [advanceOver_append, advanceOver_cons, advanceOver_nil, advance, if_pos rfl, Location.mk.injEq]
  refine ⟨file_advanceOver l cs, ?_, rfl⟩
  rw [line_advanceOver]
  omega

end Location

/-- A token with its place moved. -/
def Token.moved (g : Location → Location) (t : Token) : Token :=
  { t with location := g t.location }

@[simp] theorem Token.moved_lexeme (g : Location → Location) (t : Token) :
    (t.moved g).lexeme = t.lexeme := rfl

@[simp] theorem Token.moved_id (t : Token) : t.moved id = t := rfl

/-- **A text that starts further down** has its tokens further down. On line zero a line end is reported on
the line behind it, so lines are numbered from one on here. -/
theorem located_down (n : Nat) {start : Location} (hline : 0 < start.line) (ps : List Piece) :
    located (start.down n) ps = (located start ps).map (Token.moved (Location.down n)) := by
  induction ps generalizing start with
  | nil => rfl
  | cons p ps ih =>
    -- lines only grow, so no line further on is line zero
    have hfinish : 0 < (start.advanceOver p.chars).line := by
      rw [Location.line_advanceOver]
      omega
    have hrest := ih hfinish
    rw [← Location.advanceOver_down] at hrest
    rw [located, located]
    cases p.lexeme with
    | none => exact hrest
    | some lexeme =>
      rw [hrest, List.map_cons]
      -- lines are numbered from one on, so a token is reported where it starts
      have hplace : ∀ (l : Location) (finish : Int), 0 < l.line →
          { l with line := reportedLine l.line finish } = l := by
        intro l finish hl
        rw [reportedLine, if_neg (by omega)]
      have hdown : 0 < (start.down n).line := by
        change 0 < start.line + (n : Int)
        omega
      rw [hplace _ _ hline, hplace _ _ hdown]
      rfl

theorem finishOf_down (n : Nat) (start : Location) (ps : List Piece) :
    finishOf (start.down n) ps = (finishOf start ps).down n :=
  Location.advanceOver_down n start _

theorem finishOf_append (start : Location) (ps qs : List Piece) :
    finishOf start (ps ++ qs) = finishOf (finishOf start ps) qs := by
  rw [finishOf, List.flatMap_append, Location.advanceOver_append]
  rfl

/-- Behind a text that ends with its line, a line starts. -/
theorem finishOf_lineEnd {start : Location} (hcolumn : start.column = 1) (cs : List Char) :
    finishOf start (pieces (cs ++ ['\n'])) = start.down (cs.count '\n' + 1) := by
  rw [finishOf, pieces_flatten, Location.advanceOver_lineEnd, Location.down, hcolumn]

/-- The last token of a text that ends with its line is the line end. -/
theorem exists_located_lineEnd (start : Location) (cs : List Char) :
    ∃ ts place, located start (pieces (cs ++ ['\n'])) = ts ++ [⟨.newline, place⟩] := by
  obtain ⟨ps, hps⟩ := exists_pieces_lineEnd cs
  rw [hps, located_append]
  exact ⟨_, _, rfl⟩

end CrossAssembler
