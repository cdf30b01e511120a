import CrossAssembler.Proofs.Text.Hex
import CrossAssembler.Proofs.Token.Overlong
import CrossAssembler.Proofs.Token.Place
import Mathlib

/-!
# Spelling lexemes

Two facts meet here. What a text spells is known: a name is a word in capital letters, or the shadow
pair with its quote, and a number is never negative (`spelled_of_mem_located`). And what is known to be
spelled can be written again: `Writes text lexemes` says that a text is cut into these lexemes, with
nothing in it that could join a neighbour or be too long.

* **Single lexemes** (`Writes.name`, `Writes.hex`, `Writes.single`).
* **Texts side by side** (`Writes.append`), if the characters where they meet do not join.
* **Texts with a blank between them** (`Writes.spaced`), always.
-/

namespace CrossAssembler

open Piece

/-! ### What a text spells -/

/-- A character of a name in capital letters. -/
def IsFolded (c : Char) : Prop :=
  isNameChar c = true ∧ c.toUpper = c

/-- The text of a name: a word in capital letters, or the shadow pair. -/
inductive IsNameText : List Char → Prop where
  | word {c : Char} {word : List Char} (hstart : isNameStart c = true)
      (hword : ∀ d ∈ c :: word, IsFolded d) : IsNameText (c :: word)
  | shadow : IsNameText ['A', 'F', '\'']

theorem IsNameText.ne_nil {cs : List Char} (h : IsNameText cs) : cs ≠ [] := by
  rintro rfl
  cases h

/-- A lexeme that a text can spell. The scanner makes no others, and the ones it cannot make are of no
concern to what is read from a text. -/
def Lexeme.Spelled : Lexeme → Prop
  | .name text => IsNameText text.toList
  | .number v => 0 ≤ v
  | _ => True

theorem isNameStart_toUpper {c : Char} (h : isNameStart c = true) :
    isNameStart c.toUpper = true := by
  rw [isNameStart, Bool.or_eq_true, beq_iff_eq] at h
  rcases h with h | rfl
  · rw [isNameStart, Char.isAlpha_toUpper_eq_isAlpha, h, Bool.true_or]
  · rfl

theorem isFolded_toUpper {c : Char} (h : isNameChar c = true) : IsFolded c.toUpper := by
  refine ⟨?_, Char.toUpper_toUpper_eq_toUpper c⟩
  rcases isNameChar_cases h with hstart | hdigit
  · exact isNameChar_of_isNameStart (isNameStart_toUpper hstart)
  · -- a digit has no capital letter
    have hnat := toNat_of_isDigit hdigit
    have hlower : ¬ c.isLower = true := by
      intro hlower
      have halpha : c.isAlpha = true := by
        change (c.isUpper || c.isLower) = true
        rw [hlower, Bool.or_true]
      have hletter := isAlpha_iff.1 halpha
      omega
    rw [Char.toUpper_eq_of_not_isLower hlower]
    exact h

/-- What a piece spells is spelled well. -/
theorem Cut.spelled {text rest : List Char} {p : Piece} (h : Cut text p rest) :
    ∀ l, p.lexeme = some l → l.Spelled := by
  -- digits have no sign, so what they spell is not negative
  have hnumber : ∀ (base : NumberBase) (word : List Char), (base.lexeme word).Spelled := by
    intro base word
    unfold NumberBase.lexeme
    split
    · exact Int.natCast_nonneg _
    · trivial
  rintro l hl
  cases h with
  | name hstart hword hrest hshadow =>
    cases hl
    change IsNameText (String.ofList _).toList
    rw [String.toList_ofList]
    refine .word (isNameStart_toUpper hstart) ?_
    rw [← List.map_cons]
    intro d hd
    obtain ⟨e, he, rfl⟩ := List.mem_map.1 hd
    exact isFolded_toUpper (hword e he)
  | shadow hstart hword hshadow =>
    cases hl
    exact .shadow
  | decimal hstart hword hrest =>
    cases hl
    exact hnumber _ _
  | marked hmark hword hrest =>
    cases hl
    exact hnumber _ _
  | single hgap hname hdigit hmark =>
    cases hl
    unfold single?
    split <;> trivial
  | gap hrun hrest => cases hl
  | comment hbody hrest => cases hl
  | lineEnd rest =>
    cases hl
    trivial
  | string h =>
    cases hl
    trivial
  | openString h htail hrest =>
    cases hl
    trivial

/-- The lexemes of some pieces. -/
def lexemes (ps : List Piece) : List Lexeme :=
  ps.filterMap Piece.lexeme

theorem map_lexeme_located (start : Location) (ps : List Piece) :
    (located start ps).map Token.lexeme = lexemes ps := by
  induction ps generalizing start with
  | nil => rfl
  | cons p ps ih =>
    rw [located, lexemes, List.filterMap_cons]
    cases p.lexeme with
    | none => exact ih _
    | some l => exact congrArg _ (ih _)

/-- **Whatever a text spells is spelled well.** -/
theorem spelled_of_mem_located {start : Location} {cs : List Char} :
    ∀ t ∈ located start (pieces cs), t.lexeme.Spelled := by
  intro t ht
  have hmem := List.mem_map_of_mem (f := Token.lexeme) ht
  rw [map_lexeme_located] at hmem
  obtain ⟨p, hp, hl⟩ := List.mem_filterMap.1 hmem
  exact forall_mem_pieces (P := fun p => ∀ l, p.lexeme = some l → l.Spelled)
    (fun _ _ _ h => h.spelled) cs p hp _ hl

/-! ### Texts that spell lexemes -/

/-- **A text that writes some lexemes**: it is cut into them, wherever it stands in the code. -/
structure Writes (text : List Char) (ls : List Lexeme) : Prop where
  lexemes_eq : lexemes (pieces text) = ls
  short : ∀ p ∈ pieces text, p.excess? = none
  code : Zone.code.afterAll text = .code
  head : ∀ c ∈ text.head?, isGap c = false
  last : ∀ c ∈ text.getLast?, isGap c = false

theorem pieces_of_cut {text : List Char} {p : Piece} (h : Cut text p []) : pieces text = [p] := by
  rw [h.pieces_eq, pieces_nil]

namespace Writes

variable {text text' : List Char} {ls ls' : List Lexeme}

theorem nil : Writes [] [] := by
  refine ⟨?_, ?_, rfl, ?_, ?_⟩
  · rw [pieces_nil]
    rfl
  · rw [pieces_nil]
    intro p hp
    cases hp
  · rintro c ⟨⟩
  · rintro c ⟨⟩

/-- Texts side by side, if the characters where they meet do not join. -/
theorem append (h : Writes text ls) (h' : Writes text' ls') (hne : text ≠ []) (hne' : text' ≠ [])
    (happart : ∀ c ∈ text.getLast?, ∀ d ∈ text'.head?, joins c d = false) :
    Writes (text ++ text') (ls ++ ls') := by
  have hpieces := pieces_append ⟨h.code, happart⟩
  refine ⟨?_, ?_, ?_, ?_, ?_⟩
  · rw [hpieces, lexemes, List.filterMap_append]
    exact congrArg₂ _ h.lexemes_eq h'.lexemes_eq
  · rw [hpieces, List.forall_mem_append]
    exact ⟨h.short, h'.short⟩
  · rw [Zone.afterAll_append, h.code, h'.code]
  · rw [List.head?_append_of_ne_nil _ hne]
    exact h.head
  · rw [List.getLast?_append_of_ne_nil _ hne']
    exact h'.last

/-- Texts with a blank between them. -/
theorem spaced (h : Writes text ls) (h' : Writes text' ls') (hne : text ≠ []) (hne' : text' ≠ []) :
    Writes (text ++ ' ' :: text') (ls ++ ls') := by
  have hblank : pieces [' '] = [blank [' ']] :=
    pieces_of_cut (Cut.gap (List.forall_mem_singleton.2 rfl) (Stops.nil _))
  -- neither text has a blank where it meets the space, so the space is a piece of its own
  have hfront : Seam text (' ' :: text') := by
    refine ⟨h.code, ?_⟩
    rintro c hc d ⟨⟩
    simp [joins, h.last c hc, show isNameChar ' ' = false from rfl]
  have hback : Seam [' '] text' := by
    refine ⟨rfl, ?_⟩
    rintro c ⟨⟩ d hd
    simp [joins, h'.head d hd, show isNameChar ' ' = false from rfl]
  have hpieces : pieces (text ++ ' ' :: text') = pieces text ++ (blank [' '] :: pieces text') := by
    have hrest := pieces_append hback
    rw [hblank] at hrest
    rw [pieces_append hfront]
    exact congrArg _ hrest
  refine ⟨?_, ?_, ?_, ?_, ?_⟩
  · rw [hpieces, lexemes, List.filterMap_append]
    exact congrArg₂ _ h.lexemes_eq h'.lexemes_eq
  · rw [hpieces, List.forall_mem_append, List.forall_mem_cons]
    exact ⟨h.short, rfl, h'.short⟩
  · rw [Zone.afterAll_append, h.code]
    exact h'.code
  · rw [List.head?_append_of_ne_nil _ hne]
    exact h.head
  · rw [List.append_cons, List.getLast?_append_of_ne_nil _ hne']
    exact h'.last

/-- A text that is one piece. -/
theorem of_cut {c : Char} {cs : List Char} {l : Lexeme} (h : Cut (c :: cs) ⟨c :: cs, some l⟩ [])
    (hshort : Piece.excess? ⟨c :: cs, some l⟩ = none) (hcode : Zone.code.afterAll (c :: cs) = .code)
    (hends : ∀ d ∈ c :: cs, isGap d = false) : Writes (c :: cs) [l] := by
  have hpieces := pieces_of_cut h
  refine ⟨?_, ?_, hcode, ?_, ?_⟩
  · rw [hpieces]
    rfl
  · rw [hpieces]
    exact List.forall_mem_singleton.2 hshort
  · rintro d ⟨⟩
    exact hends c List.mem_cons_self
  · intro d hd
    exact hends d (List.mem_of_getLast? hd)

/-- The characters that are lexemes by themselves. -/
theorem single {c : Char} {l : Lexeme} (hc : single? c = some l) : Writes [c] [l] := by
  unfold single? at hc
  split at hc
  -- one case for each of these characters, all closed alike
  all_goals cases hc
  all_goals
    refine of_cut (.single rfl rfl rfl ?_) rfl rfl (List.forall_mem_singleton.2 rfl)
    decide

theorem lineEnd : Writes ['\n'] [.newline] :=
  of_cut (.lineEnd []) rfl rfl (List.forall_mem_singleton.2 rfl)

/-- A name is written as it is spelled. -/
theorem name {cs : List Char} (h : IsNameText cs) : Writes cs [.name (String.ofList cs)] := by
  cases h with
  | @word c word hstart hword =>
    have hname : ∀ d ∈ c :: word, isNameChar d = true := fun d hd => (hword d hd).1
    -- the name is in capitals already, so folding keeps it
    have hfolded : (c :: word).map Char.toUpper = c :: word := by
      rw [List.map_congr_left (g := id) fun d hd => (hword d hd).2, List.map_id]
    have hcut := Cut.name hstart hname (Stops.nil _) fun _ => Stops.nil _
    rw [List.append_nil, hfolded] at hcut
    exact of_cut hcut rfl (Cut.zone_word hname) fun d hd => (ne_of_isNameChar (hname d hd)).1
  | shadow =>
    have hname : ∀ d ∈ ['A', 'F'], isNameChar d = true :=
      List.forall_mem_cons.2 ⟨rfl, List.forall_mem_singleton.2 rfl⟩
    have hcut : Cut ['A', 'F', '\''] ⟨['A', 'F', '\''], some (.name "AF'")⟩ [] :=
      @Cut.shadow 'A' ['F'] [] rfl hname rfl
    refine of_cut hcut rfl rfl ?_
    rw [List.forall_mem_cons, List.forall_mem_cons]
    exact ⟨rfl, rfl, List.forall_mem_singleton.2 rfl⟩

theorem nameText {name : String} (h : IsNameText name.toList) : Writes name.toList [.name name] := by
  have hwrites := Writes.name h
  rwa [String.ofList_toList] at hwrites

/-- A number is written in hexadecimal digits, with any number of zeros in front. -/
theorem hex {digits : List Char} (hne : digits ≠ [])
    (hdigits : ∀ c ∈ digits, Text.isDigit 16 c = true) :
    Writes ('$' :: digits) [.number (Text.ofDigits 16 digits)] := by
  have hname : ∀ d ∈ digits, isNameChar d = true := fun d hd => isNameChar_of_isDigit (hdigits d hd)
  have hnumber : NumberBase.hexadecimal.isNumber digits = true :=
    NumberBase.isNumber_iff.2 ⟨hne, hdigits⟩
  have hlexeme : NumberBase.hexadecimal.lexeme digits = .number (Text.ofDigits 16 digits) :=
    if_pos hnumber
  have hcut := @Cut.marked .hexadecimal '$' digits [] rfl hname (Stops.nil _)
  rw [List.append_nil, hlexeme] at hcut
  refine of_cut hcut rfl ?_ ?_
  · rw [Zone.afterAll_cons]
    exact Cut.zone_word hname
  · rw [List.forall_mem_cons]
    exact ⟨rfl, fun d hd => (ne_of_isNameChar (hname d hd)).1⟩

end Writes

end CrossAssembler
