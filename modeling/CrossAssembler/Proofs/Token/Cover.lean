import CrossAssembler.Proofs.Token.Order
import CrossAssembler.Proofs.Token.Overlong

/-!
# Tokens cover the text

The tokens of a text say where they stand, but not how much of the text they are. Here the text is laid
out as a row of *stretches*, each with the token that it spells if it spells one. The row is told from
the outside (`Cover`): it is the whole text and nothing else, every stretch is what the rules say at its
place, and a token states the lines and characters that are in front of it.

* **Places** (`advanceOver_eq_placeBehind`): walking over a text character by character counts its line
  ends and what stands behind the last of them.
* **Stretches** (`exists_piece_of_stretches`): every stretch is a piece, and begins where the pieces in front
  of it end.
* **Covers** (`tokenize_cover`): the tokens of a text cover it.
-/

namespace CrossAssembler

open Piece

/-! ### Places told from the text -/

/-- The place behind a text that starts on the line `firstLine`: each line end leads to the next line, and
the columns count the characters behind the last one. -/
def placeBehind (file : String) (firstLine : Int) (cs : List Char) : Location :=
  ⟨file, firstLine + cs.count '\n', 1 + (cs.reverse.takeWhile (· != '\n')).length⟩

/-- **Walking over a text counts its lines and columns.** -/
theorem advanceOver_eq_placeBehind (file : String) (firstLine : Int) (cs : List Char) :
    (⟨file, firstLine, 1⟩ : Location).advanceOver cs = placeBehind file firstLine cs := by
  -- from the right, since the columns count back from the end to the last line end
  induction cs using List.reverseRecOn with
  | nil =>
    rw [Location.advanceOver_nil, placeBehind, List.count_nil, List.reverse_nil, List.takeWhile_nil]
    simp
  | append_singleton cs c ih =>
    rw [Location.advanceOver_append, ih, Location.advanceOver_cons, Location.advanceOver_nil, placeBehind,
      placeBehind, Location.advance, List.count_append, List.reverse_append, List.reverse_singleton,
      List.singleton_append]
    by_cases hc : c = '\n'
    · subst hc
      simp [Int.add_assoc]
    · simp [hc, Int.add_assoc]

/-! ### Stretches -/

/-- A stretch of a text, and the token that it spells, if any. Blanks and comments spell none, and are
kept so that the stretches add up to the text. -/
structure Stretch where
  chars : List Char
  token : Option Token

/-- A run of blanks, or a comment up to the end of its line. -/
def Stretch.IsBlank (s : Stretch) : Prop :=
  (∀ c ∈ s.chars, isGap c = true) ∨ ∃ body, s.chars = ';' :: body ∧ '\n' ∉ body

/-- A stretch does not reach over a line end: if it holds one it is one, and these stretches are the ones
that spell a line end. -/
structure Stretch.KeepsLine (s : Stretch) : Prop where
  chars_eq : '\n' ∈ s.chars → s.chars = ['\n']
  spelled_iff : '\n' ∈ s.chars ↔ s.token.map Token.lexeme = some .newline

/-- The text of a row of stretches. -/
def textOf (row : List Stretch) : List Char :=
  row.flatMap Stretch.chars

/-- **The tokens of a text cover it.** The text starts on the line `firstLine` of a file. -/
structure Cover (file : String) (firstLine : Int) (source : List Char) (tokens : List Token)
    (row : List Stretch) : Prop where
  /-- Nothing of the text is left out, and nothing is there twice. -/
  text : textOf row = source
  nonempty : ∀ s ∈ row, s.chars ≠ []
  /-- What a stretch spells is what the rules say of the text at this place. -/
  spelled : ∀ front s back, row = front ++ s :: back →
    Cut (s.chars ++ textOf back) ⟨s.chars, s.token.map Token.lexeme⟩ (textOf back)
  /-- A stretch without a token is blank. -/
  blank : ∀ s ∈ row, s.token = none → s.IsBlank
  /-- A token is placed by the text in front of it. -/
  placed : ∀ front s back, row = front ++ s :: back →
    ∀ t, s.token = some t → t.location = placeBehind file firstLine (textOf front)
  /-- Line ends are stretches of their own. -/
  keepsLine : ∀ s ∈ row, s.KeepsLine
  /-- So there are as many line ends among the tokens as in the text. -/
  lineEnds : tokens.countP (·.lexeme = .newline) = source.count '\n'
  /-- The tokens come in the order of their stretches, and the end of the input is the last one. -/
  tokens_eq : tokens =
    row.filterMap Stretch.token ++ [⟨.endOfInput, placeBehind file firstLine source⟩]
  /-- No other token is the end of the input. -/
  inside : ∀ s ∈ row, ∀ t, s.token = some t → t.lexeme ≠ .endOfInput

/-- A piece at a place. -/
def Stretch.ofPiece (start : Location) (p : Piece) : Stretch :=
  ⟨p.chars, p.lexeme.map fun lexeme => ⟨lexeme, start⟩⟩

theorem Stretch.lexeme_ofPiece (start : Location) (p : Piece) :
    (ofPiece start p).token.map Token.lexeme = p.lexeme := by
  rw [ofPiece, Option.map_map]
  exact Option.map_id_apply

/-- The stretches of a row of pieces that starts at a place. -/
def stretches (start : Location) : List Piece → List Stretch
  | [] => []
  | p :: ps => .ofPiece start p :: stretches (start.advanceOver p.chars) ps

theorem textOf_stretches (start : Location) (ps : List Piece) :
    textOf (stretches start ps) = ps.flatMap Piece.chars := by
  induction ps generalizing start with
  | nil => rfl
  | cons p ps ih =>
    rw [stretches, textOf, List.flatMap_cons, List.flatMap_cons]
    exact congrArg _ (ih _)

/-- Where lines are numbered from one on, the tokens of the stretches are those of the pieces. -/
theorem locate_eq_filterMap {start : Location} (hstart : 0 < start.line) (ps : List Piece) :
    locate start ps = (stretches start ps).filterMap Stretch.token ++
      [⟨.endOfInput, start.advanceOver (ps.flatMap Piece.chars)⟩] := by
  induction ps generalizing start with
  | nil => rfl
  | cons p ps ih =>
    rw [locate_cons hstart, ih (line_advanceOver_pos hstart p.chars), stretches, List.filterMap_cons,
      List.flatMap_cons, Location.advanceOver_append, Stretch.ofPiece]
    cases p.lexeme <;> rfl

/-- **A stretch is a piece**, placed behind the text in front of it. -/
theorem exists_piece_of_stretches {start : Location} {ps : List Piece} {front back : List Stretch}
    {s : Stretch} (h : stretches start ps = front ++ s :: back) :
    ∃ before p after, ps = before ++ p :: after ∧ textOf back = after.flatMap Piece.chars ∧
      s = .ofPiece (start.advanceOver (textOf front)) p := by
  -- each stretch in front is one piece, and moves the start over its characters
  induction front generalizing start ps with
  | nil =>
    cases ps with
    | nil => cases h
    | cons p ps =>
      obtain ⟨rfl, rfl⟩ := List.cons.inj h
      exact ⟨[], p, ps, rfl, textOf_stretches _ _, rfl⟩
  | cons u front ih =>
    cases ps with
    | nil => cases h
    | cons q ps =>
      obtain ⟨rfl, hrest⟩ := List.cons.inj h
      obtain ⟨before, p, after, rfl, hback, rfl⟩ := ih hrest
      refine ⟨q :: before, p, after, rfl, hback, ?_⟩
      change _ = Stretch.ofPiece (start.advanceOver (q.chars ++ textOf front)) p
      rw [Location.advanceOver_append]

/-! ### Pieces at their places -/

/-- Every piece is cut off where it stands, whatever stands in front of it. -/
theorem cut_of_pieces {cs : List Char} {before after : List Piece} {p : Piece}
    (h : pieces cs = before ++ p :: after) :
    Cut (p.chars ++ after.flatMap Piece.chars) p (after.flatMap Piece.chars) := by
  fun_induction pieces cs generalizing before with
  | case1 => cases before <;> cases h
  | case2 c cs ih =>
    cases before with
    | cons q before =>
      obtain ⟨-, hrest⟩ := List.cons.inj h
      exact ih hrest
    | nil =>
      obtain ⟨rfl, rfl⟩ := List.cons.inj h
      rw [pieces_flatten, Piece.next_append]
      exact Cut.of_next c cs

/-- A piece that spells nothing is blank. -/
theorem Cut.isBlank {text rest : List Char} {p : Piece} (h : Cut text p rest) (hlexeme : p.lexeme = none)
    (token : Option Token) : Stretch.IsBlank ⟨p.chars, token⟩ := by
  cases h with
  | gap hrun hrest => exact .inl hrun
  | comment hbody hrest => exact .inr ⟨_, rfl, fun hmem => hbody _ hmem rfl⟩
  | _ => cases hlexeme

/-- What is cut off does not reach over a line end. -/
theorem Cut.keepsLine {text rest : List Char} {p : Piece} (h : Cut text p rest) (place : Location) :
    (Stretch.ofPiece place p).KeepsLine := by
  refine ⟨fun hend => ?_, ?_⟩
  · change p.chars = _
    rw [h.eq_lineEnd_of_mem hend]
  · rw [Stretch.lexeme_ofPiece]
    exact h.lineEnd_mem_iff

/-- Line ends are counted alike among the tokens and in the text. -/
theorem countP_newline {row : List Stretch} (h : ∀ s ∈ row, s.KeepsLine) :
    (row.filterMap Stretch.token).countP (·.lexeme = .newline) = (textOf row).count '\n' := by
  induction row with
  | nil => rfl
  | cons s row ih =>
    obtain ⟨hs, hrow⟩ := List.forall_mem_cons.1 h
    have htext : textOf (s :: row) = s.chars ++ textOf row := List.flatMap_cons
    rw [htext, List.count_append, ← ih hrow, List.filterMap_cons]
    -- a stretch holds one line end and spells it, or holds none and spells none
    by_cases hmem : '\n' ∈ s.chars
    · obtain ⟨t, htoken, hlexeme⟩ := Option.map_eq_some_iff.1 (hs.spelled_iff.1 hmem)
      rw [htoken, hs.chars_eq hmem]
      have hcount := List.countP_cons_of_pos (p := fun t : Token => t.lexeme = .newline)
        (l := row.filterMap Stretch.token) (decide_eq_true hlexeme)
      exact hcount.trans (Nat.add_comm _ _)
    · rw [List.count_eq_zero_of_not_mem hmem, Nat.zero_add]
      cases htoken : s.token with
      | none => rfl
      | some t =>
        have hother : t.lexeme ≠ .newline := by
          intro hlexeme
          apply hmem
          rw [hs.spelled_iff, htoken, Option.map_some, hlexeme]
        exact List.countP_cons_of_neg (by rwa [decide_eq_true_eq])

/-! ### The cover -/

section

variable {file : String} {firstLine : Int} {cs : List Char}

/-- Every stretch of a text is a piece cut off there, placed by the text in front of it. -/
theorem exists_cut_of_stretches {front back : List Stretch} {s : Stretch}
    (h : stretches ⟨file, firstLine, 1⟩ (pieces cs) = front ++ s :: back) :
    ∃ p, s = .ofPiece (placeBehind file firstLine (textOf front)) p ∧
      Cut (p.chars ++ textOf back) p (textOf back) := by
  obtain ⟨before, p, after, hpieces, hback, hs⟩ := exists_piece_of_stretches h
  rw [advanceOver_eq_placeBehind] at hs
  refine ⟨p, hs, ?_⟩
  rw [hback]
  exact cut_of_pieces hpieces

/-- What holds of one stretch does not depend on its neighbours. -/
theorem exists_cut_of_mem_stretches {s : Stretch} (h : s ∈ stretches ⟨file, firstLine, 1⟩ (pieces cs)) :
    ∃ place p text rest, s = .ofPiece place p ∧ Cut text p rest := by
  obtain ⟨front, back, hrow⟩ := List.append_of_mem h
  obtain ⟨p, hp, hcut⟩ := exists_cut_of_stretches hrow
  exact ⟨_, p, _, _, hp, hcut⟩

/-- **The pieces of a text cover it**, with the tokens that are found in it. -/
theorem cover_stretches (file : String) (hline : 1 ≤ firstLine) (cs : List Char) :
    Cover file firstLine cs (locate ⟨file, firstLine, 1⟩ (pieces cs))
      (stretches ⟨file, firstLine, 1⟩ (pieces cs)) := by
  have htext : textOf (stretches ⟨file, firstLine, 1⟩ (pieces cs)) = cs := by
    rw [textOf_stretches, pieces_flatten]
  have hkeeps : ∀ s ∈ stretches ⟨file, firstLine, 1⟩ (pieces cs), s.KeepsLine := by
    intro s hs
    obtain ⟨place, p, text, rest, rfl, hcut⟩ := exists_cut_of_mem_stretches hs
    exact hcut.keepsLine place
  have htokens : locate ⟨file, firstLine, 1⟩ (pieces cs) =
      (stretches ⟨file, firstLine, 1⟩ (pieces cs)).filterMap Stretch.token ++
        [⟨.endOfInput, placeBehind file firstLine cs⟩] := by
    rw [locate_eq_filterMap (show 0 < firstLine by omega), pieces_flatten, advanceOver_eq_placeBehind]
  -- what is left holds of each stretch because it is a piece cut off at its place
  refine ⟨htext, ?_, ?_, ?_, ?_, hkeeps, ?_, htokens, ?_⟩
  · intro s hs
    obtain ⟨place, p, text, rest, rfl, hcut⟩ := exists_cut_of_mem_stretches hs
    exact hcut.chars_ne_nil
  · intro front s back hrow
    obtain ⟨p, rfl, hcut⟩ := exists_cut_of_stretches hrow
    rw [Stretch.lexeme_ofPiece]
    exact hcut
  · intro s hs hnone
    obtain ⟨place, p, text, rest, rfl, hcut⟩ := exists_cut_of_mem_stretches hs
    exact hcut.isBlank (Option.map_eq_none_iff.1 hnone) _
  · intro front s back hrow t ht
    obtain ⟨p, rfl, hcut⟩ := exists_cut_of_stretches hrow
    obtain ⟨lexeme, -, rfl⟩ := Option.map_eq_some_iff.1 ht
    rfl
  · rw [htokens, List.countP_append, countP_newline hkeeps, htext]
    rfl
  · intro s hs t ht hend
    obtain ⟨place, p, text, rest, rfl, hcut⟩ := exists_cut_of_mem_stretches hs
    apply hcut.lexeme_ne_end
    rw [← Stretch.lexeme_ofPiece place p, ht, Option.map_some, hend]

end

/-- **The tokens of a text cover it**, wherever its lines are numbered from one on or from further down. -/
theorem tokenize_cover {source file : String} {firstLine : Int} {tokens : List Token}
    (hline : 1 ≤ firstLine) (h : tokenize source file firstLine = .ok tokens) :
    ∃ row, Cover file firstLine source.toList tokens row := by
  rcases tokenize_cases source file firstLine with ⟨digits, -, hfault⟩ | ⟨-, htokens⟩
  · -- a text that is too long to be read has no tokens
    rw [hfault] at h
    cases h
  · rw [htokens] at h
    cases h
    exact ⟨_, cover_stretches file hline source.toList⟩

theorem tokenize_cover_two_lines :
    ∃ row, Cover "a.asm" 5 "X: NOP;\"\n %".toList
      [⟨.name "X", ⟨"a.asm", 5, 1⟩⟩, ⟨.colon, ⟨"a.asm", 5, 2⟩⟩, ⟨.name "NOP", ⟨"a.asm", 5, 4⟩⟩,
        ⟨.newline, ⟨"a.asm", 5, 9⟩⟩, ⟨.malformed "malformed binary literal '%'", ⟨"a.asm", 6, 2⟩⟩,
        ⟨.endOfInput, ⟨"a.asm", 6, 3⟩⟩] row :=
  tokenize_cover (by decide) (by decide +kernel)

end CrossAssembler
