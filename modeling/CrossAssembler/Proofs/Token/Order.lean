import CrossAssembler.Proofs.Token.Place
import Mathlib.Data.List.Chain

/-!
# Tokens in the order of the text

A walk over the pieces of a text only moves forward, so the places where tokens start grow from left to
right and from line to line. A token states the place where it starts, with one exception: a line end on
line zero states the line behind it (`reportedLine`). So every token is kept together with the place where
it starts (`Spot`).

* **Neighbours** (`isChain_spots`): every token starts in front of the next one, the end of the input
  included: on the same line unless it is a line end, and on an earlier one if it is.
* **Stated places** (`stated_of_mem_spots`, `location_of_mem_spots`): a token states the place where it
  starts, but for a line end on line zero. There is none where lines are numbered from one on.
* **Distinct places** (`pairwise_locate`): of two tokens that are no line ends, the first one stands in
  front of the second, however the lines are numbered.
* **Lines numbered from one on** (`pairwise_precedes`): there every token stands in front of those that
  follow it, and a line end on an earlier line.
-/

namespace CrossAssembler

/-! ### The order of places -/

namespace Location

/-- A place in front of another one of the same file: on an earlier line, or further left on the same
line. -/
def Before (l l' : Location) : Prop :=
  l.file = l'.file ∧ (l.line < l'.line ∨ l.line = l'.line ∧ l.column < l'.column)

theorem Before.trans {l m n : Location} (h : l.Before m) (h' : m.Before n) : l.Before n := by
  obtain ⟨hfile, hplace⟩ := h
  obtain ⟨hfile', hplace'⟩ := h'
  refine ⟨hfile.trans hfile', ?_⟩
  omega

instance : Trans Before Before Before := ⟨Before.trans⟩

/-- A place that is not behind another one. -/
def NotAfter (l l' : Location) : Prop :=
  l = l' ∨ l.Before l'

theorem NotAfter.refl (l : Location) : l.NotAfter l :=
  .inl rfl

theorem Before.notAfter {l l' : Location} (h : l.Before l') : l.NotAfter l' :=
  .inr h

theorem Before.trans_notAfter {l m n : Location} (h : l.Before m) (h' : m.NotAfter n) : l.Before n := by
  rcases h' with rfl | h'
  · exact h
  · exact h.trans h'

theorem Before.ne {l l' : Location} (h : l.Before l') : l ≠ l' := by
  rintro rfl
  obtain ⟨-, hplace⟩ := h
  omega

theorem NotAfter.line_le {l l' : Location} (h : l.NotAfter l') : l.line ≤ l'.line := by
  rcases h with rfl | ⟨-, hplace⟩
  · exact Int.le_refl _
  · omega

theorem NotAfter.file_eq {l l' : Location} (h : l.NotAfter l') : l.file = l'.file := by
  rcases h with rfl | ⟨hfile, -⟩
  · rfl
  · exact hfile

theorem before_advance (l : Location) (c : Char) : l.Before (l.advance c) := by
  unfold advance
  split
  · exact ⟨rfl, .inl (Int.lt_succ l.line)⟩
  · exact ⟨rfl, .inr ⟨rfl, Int.lt_succ l.column⟩⟩

/-- A text that is not empty leads forward. -/
theorem before_advanceOver (l : Location) {cs : List Char} (hcs : cs ≠ []) :
    l.Before (l.advanceOver cs) := by
  induction cs generalizing l with
  | nil => exact absurd rfl hcs
  | cons c cs ih =>
    rw [advanceOver_cons]
    cases cs with
    | nil => exact before_advance l c
    | cons d cs => exact (before_advance l c).trans (ih _ (List.cons_ne_nil d cs))

end Location

/-! ### Pieces and their places -/

/-- What every piece of a text has: it is not empty, it holds a line end only if it is one, and what
spells a line end holds one. -/
structure Piece.Whole (p : Piece) : Prop where
  chars_ne_nil : p.chars ≠ []
  eq_lineEnd : '\n' ∈ p.chars → p = ⟨['\n'], some .newline⟩
  lineEnd_mem : p.lexeme = some .newline → '\n' ∈ p.chars

theorem whole_of_mem_pieces (cs : List Char) : ∀ p ∈ pieces cs, p.Whole :=
  forall_mem_pieces (fun _ _ _ h => ⟨h.chars_ne_nil, h.eq_lineEnd_of_mem, h.lineEnd_mem_iff.2⟩) cs

/-- A piece that is no line end holds none. -/
theorem Piece.Whole.not_mem {p : Piece} (hp : p.Whole) (hlexeme : p.lexeme ≠ some .newline) :
    '\n' ∉ p.chars := by
  intro hmem
  rw [hp.eq_lineEnd hmem] at hlexeme
  exact hlexeme rfl

/-- A piece that is no line end leads on along its line. -/
theorem Piece.Whole.line_advanceOver {p : Piece} (hp : p.Whole) (hlexeme : p.lexeme ≠ some .newline)
    (start : Location) : (start.advanceOver p.chars).line = start.line := by
  rw [Location.line_advanceOver, List.count_eq_zero_of_not_mem (hp.not_mem hlexeme)]
  exact Int.add_zero _

/-- A line end leads to a later line. -/
theorem Piece.Whole.line_lt_advanceOver {p : Piece} (hp : p.Whole) (hlexeme : p.lexeme = some .newline)
    (start : Location) : start.line < (start.advanceOver p.chars).line := by
  have hcount := List.count_pos_iff.2 (hp.lineEnd_mem hlexeme)
  rw [Location.line_advanceOver]
  omega

/-! ### Where tokens start -/

/-- A token and the place where it starts. The two differ for a line end on line zero, which states the
line that it opens. -/
structure Spot where
  token : Token
  place : Location

/-- The tokens of pieces with the places where they start, up to the end of the input. -/
def spots (start : Location) : List Piece → List Spot
  | [] => [⟨⟨.endOfInput, start⟩, start⟩]
  | p :: ps =>
    let finish := start.advanceOver p.chars
    match p.lexeme with
    | none => spots finish ps
    | some lexeme =>
      ⟨⟨lexeme, { start with line := reportedLine start.line finish.line }⟩, start⟩ :: spots finish ps

theorem spots_of_blank {p : Piece} (hlexeme : p.lexeme = none) (start : Location) (ps : List Piece) :
    spots start (p :: ps) = spots (start.advanceOver p.chars) ps := by
  rw [spots, hlexeme]

theorem spots_of_lexeme {p : Piece} {lexeme : Lexeme} (hlexeme : p.lexeme = some lexeme)
    (start : Location) (ps : List Piece) :
    spots start (p :: ps) =
      ⟨⟨lexeme, { start with line := reportedLine start.line (start.advanceOver p.chars).line }⟩, start⟩ ::
        spots (start.advanceOver p.chars) ps := by
  rw [spots, hlexeme]

theorem map_token_spots (start : Location) (ps : List Piece) :
    (spots start ps).map Spot.token = locate start ps := by
  induction ps generalizing start with
  | nil => rfl
  | cons p ps ih =>
    rw [spots, locate]
    cases p.lexeme with
    | none => exact ih _
    | some lexeme => exact congrArg _ (ih _)

/-! ### Neighbours -/

/-- A token that stands in front of another one, and on an earlier line if it ends its line. The second
part is what keeps the items of different lines apart. -/
structure Token.Precedes (t t' : Token) : Prop where
  before : t.location.Before t'.location
  line_lt : t.lexeme = .newline → t.location.line < t'.location.line

theorem Token.Precedes.trans {t u v : Token} (h : t.Precedes u) (h' : u.Precedes v) : t.Precedes v :=
  ⟨h.before.trans h'.before, fun hlexeme =>
    Int.lt_of_lt_of_le (h.line_lt hlexeme) h'.before.notAfter.line_le⟩

instance : Trans Token.Precedes Token.Precedes Token.Precedes := ⟨Token.Precedes.trans⟩

/-- A token at the place where it starts, whatever place it states. -/
def Spot.placed (s : Spot) : Token :=
  ⟨s.token.lexeme, s.place⟩

/-- What neighbours have: at the places where they start, the first precedes the second, which is on the
same line unless the first ends it. -/
structure Spot.Adjoins (s s' : Spot) : Prop extends s.placed.Precedes s'.placed where
  line_eq : s.token.lexeme ≠ .newline → s'.place.line = s.place.line

/-- The first token behind a place starts there, or further right on the same line. -/
theorem exists_spots_head {ps : List Piece} (hps : ∀ p ∈ ps, p.Whole) (start : Location) :
    ∃ s row, spots start ps = s :: row ∧ start.NotAfter s.place ∧ s.place.line = start.line := by
  -- a blank piece moves the start on along the line; the first other piece is the token
  induction ps generalizing start with
  | nil => exact ⟨_, _, rfl, .refl _, rfl⟩
  | cons p ps ih =>
    obtain ⟨hp, hps⟩ := List.forall_mem_cons.1 hps
    cases hlexeme : p.lexeme with
    | some lexeme => exact ⟨_, _, spots_of_lexeme hlexeme start ps, .refl _, rfl⟩
    | none =>
      -- blanks and comments hold no line end
      have hsame : (start.advanceOver p.chars).line = start.line := by
        refine hp.line_advanceOver ?_ start
        rw [hlexeme]
        rintro ⟨⟩
      have hforward := Location.before_advanceOver start hp.chars_ne_nil
      obtain ⟨s, row, hrow, hplace, hs⟩ := ih hps (start.advanceOver p.chars)
      have hstart : start.NotAfter s.place := (hforward.trans_notAfter hplace).notAfter
      exact ⟨s, row, (spots_of_blank hlexeme start ps).trans hrow, hstart, hs.trans hsame⟩

/-- **Every token starts in front of the next one**: on the same line unless it is a line end, and on an
earlier one if it is. -/
theorem isChain_spots {ps : List Piece} (hps : ∀ p ∈ ps, p.Whole) (start : Location) :
    (spots start ps).IsChain Spot.Adjoins := by
  induction ps generalizing start with
  | nil => exact .singleton _
  | cons p ps ih =>
    obtain ⟨hp, hps⟩ := List.forall_mem_cons.1 hps
    cases hlexeme : p.lexeme with
    | none =>
      rw [spots_of_blank hlexeme]
      exact ih hps _
    | some lexeme =>
      rw [spots_of_lexeme hlexeme, List.isChain_cons]
      refine ⟨fun s hs => ?_, ih hps _⟩
      obtain ⟨u, row, hrow, hplace, hu⟩ := exists_spots_head hps (start.advanceOver p.chars)
      rw [hrow] at hs
      obtain rfl : u = s := Option.some.inj hs
      -- the next token is on the line where the piece ends, which its own kind tells
      have hforward := Location.before_advanceOver start hp.chars_ne_nil
      refine ⟨⟨hforward.trans_notAfter hplace, fun hnewline => ?_⟩, fun hnewline => hu.trans ?_⟩
      · have hlater := hp.line_lt_advanceOver (hlexeme.trans (congrArg some hnewline)) start
        exact hlater.trans_eq hu.symm
      · refine hp.line_advanceOver ?_ start
        rw [hlexeme]
        exact fun h => hnewline (Option.some.inj h)

/-- The places of tokens that precede each other grow. -/
theorem pairwise_of_isChain {row us : List Spot} (hchain : row.IsChain Spot.Adjoins)
    (hsublist : us.Sublist row) : (us.map Spot.place).Pairwise Location.Before := by
  have hplaces : (row.map Spot.place).IsChain Location.Before :=
    List.isChain_map_of_isChain Spot.place (fun _ _ h => h.before) hchain
  exact hplaces.pairwise.sublist (hsublist.map Spot.place)

/-! ### Stated places -/

/-- A place stated for another one: the same, or the line behind instead of line zero. -/
def Location.StatedFor (l place : Location) : Prop :=
  l = place ∨ place.line = 0 ∧ l = { place with line := 1 }

/-- A piece is reported where it starts, unless it is a line end on line zero. -/
theorem reportedLine_of_piece {p : Piece} {start : Location} (h : '\n' ∈ p.chars → start.line ≠ 0) :
    reportedLine start.line (start.advanceOver p.chars).line = start.line := by
  unfold reportedLine
  split
  next hzero =>
    have hnone : '\n' ∉ p.chars := fun hmem => h hmem hzero
    rw [Location.line_advanceOver, List.count_eq_zero_of_not_mem hnone]
    exact Int.add_zero _
  · rfl

/-- **A token states the place where it starts**, unless it is a line end on line zero. -/
theorem stated_of_mem_spots {ps : List Piece} (hps : ∀ p ∈ ps, p.Whole) {start : Location} {s : Spot}
    (hs : s ∈ spots start ps) :
    s.token.location.StatedFor s.place ∧
      (s.token.lexeme ≠ .newline → s.token.location = s.place) := by
  induction ps generalizing start with
  | nil =>
    obtain rfl := List.mem_singleton.1 hs
    exact ⟨.inl rfl, fun _ => rfl⟩
  | cons p ps ih =>
    obtain ⟨hp, hps⟩ := List.forall_mem_cons.1 hps
    cases hlexeme : p.lexeme with
    | none =>
      rw [spots_of_blank hlexeme] at hs
      exact ih hps hs
    | some lexeme =>
      rw [spots_of_lexeme hlexeme] at hs
      -- only a line end leaves its line, so only there the stated line can differ
      rcases List.mem_cons.1 hs with rfl | hs
      · by_cases hend : '\n' ∈ p.chars ∧ start.line = 0
        · obtain ⟨hmem, hzero⟩ := hend
          obtain rfl := hp.eq_lineEnd hmem
          refine ⟨.inr ⟨hzero, ?_⟩, fun hnewline => absurd (Option.some.inj hlexeme).symm hnewline⟩
          rw [Location.line_advanceOver, hzero]
          rfl
        · have hline := reportedLine_of_piece fun hmem hzero => hend ⟨hmem, hzero⟩
          dsimp only
          rw [hline]
          exact ⟨.inl rfl, fun _ => rfl⟩
      · exact ih hps hs

/-- Lines numbered from `first` on, none of which has the number zero and an end. -/
def NoEndOnLineZero (first : Int) (cs : List Char) : Prop :=
  0 < first ∨ first + (cs.count '\n' : Int) ≤ 0

/-- What is left of a text has no end on line zero either. -/
theorem NoEndOnLineZero.behind {start : Location} {cs ds : List Char}
    (h : NoEndOnLineZero start.line (cs ++ ds)) :
    NoEndOnLineZero (start.advanceOver cs).line ds := by
  unfold NoEndOnLineZero at h ⊢
  rw [List.count_append] at h
  rw [Location.line_advanceOver]
  omega

theorem NoEndOnLineZero.ne_zero {first : Int} {cs ds : List Char}
    (h : NoEndOnLineZero first (cs ++ ds)) (hmem : '\n' ∈ cs) : first ≠ 0 := by
  unfold NoEndOnLineZero at h
  rw [List.count_append] at h
  have hpositive := List.count_pos_iff.2 hmem
  omega

theorem location_of_mem_spots {ps : List Piece} {start : Location}
    (hzero : NoEndOnLineZero start.line (ps.flatMap Piece.chars)) {s : Spot} (hs : s ∈ spots start ps) :
    s.token.location = s.place := by
  induction ps generalizing start with
  | nil =>
    obtain rfl := List.mem_singleton.1 hs
    rfl
  | cons p ps ih =>
    rw [List.flatMap_cons] at hzero
    cases hlexeme : p.lexeme with
    | none =>
      rw [spots_of_blank hlexeme] at hs
      exact ih hzero.behind hs
    | some lexeme =>
      rw [spots_of_lexeme hlexeme, reportedLine_of_piece hzero.ne_zero] at hs
      rcases List.mem_cons.1 hs with rfl | hs
      · rfl
      · exact ih hzero.behind hs

/-! ### Distinct places -/

/-- **Distinct tokens have distinct places**: of two tokens that are no line ends, the first one stands
in front of the second. -/
theorem pairwise_locate {ps : List Piece} (hps : ∀ p ∈ ps, p.Whole) (start : Location) :
    (locate start ps).Pairwise fun t t' =>
      t.lexeme ≠ .newline → t'.lexeme ≠ .newline → t.location.Before t'.location := by
  -- the places where tokens start grow, and these two tokens state them
  have hplaces := pairwise_of_isChain (isChain_spots hps start) (List.Sublist.refl _)
  rw [← map_token_spots, List.pairwise_map]
  rw [List.pairwise_map] at hplaces
  refine hplaces.imp_of_mem fun hs hs' hbefore hnewline hnewline' => ?_
  rw [(stated_of_mem_spots hps hs).2 hnewline, (stated_of_mem_spots hps hs').2 hnewline']
  exact hbefore

/-! ### Lines numbered from one on -/

/-- Where lines are numbered from one on, a token states the place where its piece starts. -/
theorem locate_cons {start : Location} (hstart : 0 < start.line) (p : Piece) (ps : List Piece) :
    locate start (p :: ps) =
      (p.lexeme.map fun lexeme => ⟨lexeme, start⟩).toList ++ locate (start.advanceOver p.chars) ps := by
  have hreported : reportedLine start.line (start.advanceOver p.chars).line = start.line :=
    reportedLine_of_piece fun _ => (Int.ne_of_lt hstart).symm
  rw [locate]
  cases p.lexeme with
  | none => rfl
  | some lexeme =>
    dsimp only
    rw [hreported]
    rfl

theorem line_advanceOver_pos {start : Location} (hstart : 0 < start.line) (cs : List Char) :
    0 < (start.advanceOver cs).line := by
  rw [Location.line_advanceOver]
  omega

/-- Where lines are numbered from one on, the tokens are those at the places where they start. -/
theorem map_placed_spots {start : Location} (hstart : 0 < start.line) (ps : List Piece) :
    (spots start ps).map Spot.placed = locate start ps := by
  rw [← map_token_spots]
  refine List.map_congr_left fun s hs => ?_
  have hplace : s.token.location = s.place := location_of_mem_spots (.inl hstart) hs
  rw [Spot.placed, ← hplace]

/-- **Every token stands in front of the tokens that follow it**, and on an earlier line if it ends its
line. -/
theorem pairwise_precedes {ps : List Piece} (hps : ∀ p ∈ ps, p.Whole) {start : Location}
    (hstart : 0 < start.line) : (locate start ps).Pairwise Token.Precedes := by
  have hplaced : ((spots start ps).map Spot.placed).IsChain Token.Precedes :=
    List.isChain_map_of_isChain Spot.placed (fun _ _ h => h.toPrecedes) (isChain_spots hps start)
  rw [map_placed_spots hstart] at hplaced
  exact hplaced.pairwise

/-- All tokens of a text are of its file. -/
theorem file_of_mem_locate {ps : List Piece} {start : Location} :
    ∀ t ∈ locate start ps, t.location.file = start.file := by
  induction ps generalizing start with
  | nil => exact List.forall_mem_singleton.2 rfl
  | cons p ps ih =>
    rw [locate]
    cases p.lexeme with
    | none =>
      intro t ht
      exact (ih t ht).trans (Location.file_advanceOver start p.chars)
    | some lexeme =>
      refine List.forall_mem_cons.2 ⟨rfl, fun t ht => ?_⟩
      exact (ih t ht).trans (Location.file_advanceOver start p.chars)

end CrossAssembler
