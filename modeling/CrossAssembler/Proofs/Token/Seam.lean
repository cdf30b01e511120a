import CrossAssembler.Proofs.Token.Cut

/-!
# Where a text comes apart

Pieces are found from left to right, so what stands behind a place could in principle change the
pieces in front of it, and the other way round. It does not at a **seam**.

* **Zones** (`Zone`): whether the end of a text stands in the code, in a comment or in a string can be
  told character by character. A piece that starts in the code ends in the code, or its line ends with
  it (`Cut.zone_chars`).
* **Seams** (`pieces_append`): a text that ends in the code comes apart there, so that the pieces of
  the whole are those of both parts, unless the characters on both sides join into one blank or one
  word. Behind a line end a text always comes apart (`Seam.lineEnd`).
-/

namespace CrossAssembler

open Piece

/-! ### Zones -/

/-- Where in a line a character stands. Only in the code do a semicolon and a quote open something; a
comment lasts to the end of the line, a string to its own quote or to the end of the line. -/
inductive Zone where
  | code
  | comment
  | string
  /-- In a string, right behind a backslash. -/
  | escape
  deriving DecidableEq, Repr

namespace Zone

/-- The zone behind a character. Every line starts in the code. -/
def after (z : Zone) (c : Char) : Zone :=
  if c = '\n' then code
  else match z with
    | code => if c = ';' then comment else if c = '"' then string else code
    | comment => comment
    | string => if c = '"' then code else if c = '\\' then escape else string
    | escape => string

/-- The zone behind a row of characters. -/
def afterAll (z : Zone) (cs : List Char) : Zone :=
  cs.foldl after z

@[simp] theorem afterAll_nil (z : Zone) : z.afterAll [] = z := rfl

@[simp] theorem afterAll_cons (z : Zone) (c : Char) (cs : List Char) :
    z.afterAll (c :: cs) = (z.after c).afterAll cs := rfl

theorem afterAll_append (z : Zone) (cs ds : List Char) :
    z.afterAll (cs ++ ds) = (z.afterAll cs).afterAll ds :=
  List.foldl_append

@[simp] theorem after_lineEnd (z : Zone) : z.after '\n' = code := rfl

/-- Only a semicolon and a quote lead out of the code. -/
theorem afterAll_code {cs : List Char} (hcs : ∀ c ∈ cs, c ≠ ';' ∧ c ≠ '"') :
    code.afterAll cs = code := by
  induction cs with
  | nil => rfl
  | cons c cs ih =>
    obtain ⟨⟨hsemicolon, hquote⟩, hcs⟩ := List.forall_mem_cons.1 hcs
    have hc : code.after c = code := by simp [after, hsemicolon, hquote]
    rw [afterAll_cons, hc, ih hcs]

theorem afterAll_comment {cs : List Char} (hcs : ∀ c ∈ cs, c ≠ '\n') :
    comment.afterAll cs = comment := by
  induction cs with
  | nil => rfl
  | cons c cs ih =>
    obtain ⟨hc, hcs⟩ := List.forall_mem_cons.1 hcs
    rw [afterAll_cons, after, if_neg hc]
    exact ih hcs

/-- Where a line ends, it does not matter from which zone. -/
theorem afterAll_of_atLineEnd {cs : List Char} (h : AtLineEnd cs) (hne : cs ≠ []) (z z' : Zone) :
    z.afterAll cs = z'.afterAll cs := by
  cases cs with
  | nil => exact absurd rfl hne
  | cons c cs =>
    obtain rfl := h.eq_lineEnd
    rfl

end Zone

/-! ### Seams -/

/-- Two neighbouring characters that may belong to one piece: two blanks, or a name or the mark of a
number and a character that goes on with it. -/
def joins (c d : Char) : Bool :=
  (isGap c && isGap d) || ((isNameChar c || c == '$' || c == '%') && isNameChar d) ||
    (isNameChar c && d == '\'')

theorem joins_of_isGap {c d : Char} (hc : isGap c = true) (hd : isGap d = true) :
    joins c d = true := by
  rw [joins, hc, hd]
  rfl

theorem joins_of_isNameChar {c d : Char} (hc : isNameChar c = true ∨ c = '$' ∨ c = '%')
    (hd : isNameChar d = true) : joins c d = true := by
  rcases hc with hc | rfl | rfl
  · simp [joins, hc, hd]
  · simp [joins, hd]
  · simp [joins, hd]

theorem joins_quote {c : Char} (hc : isNameChar c = true) : joins c '\'' = true := by
  simp [joins, hc]

/-- A place where a text comes apart: what stands in front of it ends in the code, and the characters
on both sides do not join. -/
structure Seam (front back : List Char) : Prop where
  code : Zone.code.afterAll front = .code
  apart : ∀ c ∈ front.getLast?, ∀ d ∈ back.head?, joins c d = false

/-- A run does not go on behind a seam if its characters would join what goes on with it. -/
theorem Seam.stops {c : Char} {run back : List Char} (h : Seam (c :: run) back) {p : Char → Bool}
    (hjoins : ∀ e ∈ c :: run, ∀ d, p d = true → joins e d = true) : Stops p back := by
  intro d hd
  -- only the last character of the run meets what follows
  have hlast := List.getLast?_eq_some_getLast (List.cons_ne_nil c run)
  have happart := h.apart _ hlast d hd
  rw [← Bool.not_eq_true]
  intro hp
  rw [hjoins _ (List.getLast_mem _) d hp] at happart
  cases happart

/-- Behind a line end a text always comes apart. -/
theorem Seam.lineEnd (front back : List Char) : Seam (front ++ ['\n']) back where
  code := by
    rw [Zone.afterAll_append]
    rfl
  apart := by
    intro c hc d _
    rw [List.getLast?_append] at hc
    cases hc
    rfl

theorem Piece.ne_of_isGap {c : Char} (h : isGap c = true) : c ≠ ';' ∧ c ≠ '"' := by
  constructor
  all_goals
    rintro rfl
    cases h

namespace Cut

variable {text rest : List Char} {p : Piece}

theorem text_eq (h : Cut text p rest) : text = p.chars ++ rest := by
  cases h with
  | shadow hstart hword hshadow => simp
  | string h => simp
  | openString h htail hrest => simp
  | _ => rfl

/-- A word leaves the zone in the code. -/
theorem zone_word {word : List Char} (hword : ∀ d ∈ word, isNameChar d = true) :
    Zone.code.afterAll word = .code := by
  refine Zone.afterAll_code fun d hd => ?_
  obtain ⟨-, hsemicolon, -, hquote, -⟩ := ne_of_isNameChar (hword d hd)
  exact ⟨hsemicolon, hquote⟩

theorem mark_cases {base : NumberBase} {c : Char} (hmark : base.mark = [c]) : c = '$' ∨ c = '%' := by
  cases base with
  | decimal => cases hmark
  | hexadecimal =>
    cases hmark
    exact .inl rfl
  | binary =>
    cases hmark
    exact .inr rfl

theorem zone_comment {body : List Char} (hbody : ∀ c ∈ body, c ≠ '\n') :
    Zone.code.afterAll (';' :: body) ≠ .code := by
  change Zone.comment.afterAll body ≠ .code
  rw [Zone.afterAll_comment hbody]
  decide

theorem zone_written {value written : List Char} (h : Quotes value written) :
    Zone.string.afterAll written = .string := by
  induction h with
  | nil => rfl
  | plain hline hquote hescape h ih => simp [Zone.after, hline, hquote, hescape, ih]
  | escaped hline h ih => simp [Zone.after, hline, ih]

theorem zone_openString {value written tail : List Char} (h : Quotes value written)
    (htail : tail = [] ∨ tail = ['\\']) : Zone.code.afterAll ('"' :: (written ++ tail)) ≠ .code := by
  change Zone.string.afterAll (written ++ tail) ≠ .code
  rw [Zone.afterAll_append, zone_written h]
  rcases htail with rfl | rfl <;> decide

/-- **A piece ends in the code, or its line ends with it.** The second is the case of a comment and of a
string that is not closed. -/
theorem zone_chars (h : Cut text p rest) :
    Zone.code.afterAll p.chars = .code ∨ AtLineEnd rest := by
  cases h with
  | gap hrun hrest => exact .inl (Zone.afterAll_code fun d hd => ne_of_isGap (hrun d hd))
  | comment hbody hrest => exact .inr hrest
  | lineEnd => exact .inl rfl
  | name hstart hword hrest hshadow => exact .inl (zone_word hword)
  | shadow hstart hword hshadow =>
    left
    dsimp only
    rw [← List.cons_append, Zone.afterAll_append, zone_word hword]
    rfl
  | decimal hstart hword hrest => exact .inl (zone_word hword)
  | marked hmark hword hrest =>
    left
    dsimp only
    rw [Zone.afterAll_cons]
    rcases mark_cases hmark with rfl | rfl <;> exact zone_word hword
  | string h =>
    left
    change Zone.string.afterAll _ = _
    rw [Zone.afterAll_append, zone_written h]
    rfl
  | openString h htail hrest => exact .inr hrest
  | single hgap hstart hdigit hmark =>
    left
    simp only [List.mem_cons, List.not_mem_nil, or_false, not_or] at hmark
    simp [Zone.after, hmark]

/-- A piece stays the first piece of a longer text, unless the text ends with it and what follows is
not apart from it. -/
theorem append (h : Cut text p rest) {back : List Char} (hseam : rest = [] → Seam p.chars back) :
    Cut (text ++ back) p (rest ++ back) := by
  -- a comment or an open string is never the end of the text here, so a line end follows it
  have hopen : Zone.code.afterAll p.chars ≠ .code → rest ≠ [] :=
    fun hzone hnil => hzone (hseam hnil).code
  cases h with
  | gap hrun hrest =>
    rw [List.cons_append, List.append_assoc]
    refine .gap hrun (hrest.append fun hnil => (hseam hnil).stops fun e he d hd => ?_)
    exact joins_of_isGap (hrun e he) hd
  | comment hbody hrest =>
    rw [List.cons_append, List.append_assoc]
    exact .comment hbody (hrest.append fun hnil => absurd hnil (hopen (zone_comment hbody)))
  | lineEnd => exact .lineEnd _
  | name hstart hword hrest hshadow =>
    rw [List.cons_append, List.append_assoc]
    refine .name hstart hword (hrest.append fun hnil => (hseam hnil).stops fun e he d hd => ?_)
      fun hfolded => (hshadow hfolded).append fun hnil => (hseam hnil).stops fun e he d hd => ?_
    · exact joins_of_isNameChar (.inl (hword e he)) hd
    · rw [beq_iff_eq] at hd
      exact hd ▸ joins_quote (hword e he)
  | shadow hstart hword hshadow =>
    rw [List.cons_append, List.append_assoc]
    exact .shadow hstart hword hshadow
  | decimal hstart hword hrest =>
    rw [List.cons_append, List.append_assoc]
    refine .decimal hstart hword (hrest.append fun hnil => (hseam hnil).stops fun e he d hd => ?_)
    exact joins_of_isNameChar (.inl (hword e he)) hd
  | marked hmark hword hrest =>
    rw [List.cons_append, List.append_assoc]
    refine .marked hmark hword (hrest.append fun hnil => (hseam hnil).stops fun e he d hd => ?_)
    rcases List.mem_cons.1 he with rfl | he
    · exact joins_of_isNameChar (.inr (mark_cases hmark)) hd
    · exact joins_of_isNameChar (.inl (hword e he)) hd
  | string h =>
    rw [List.cons_append, List.append_assoc]
    exact .string h
  | openString h htail hrest =>
    rw [List.cons_append, List.append_assoc, List.append_assoc]
    refine .openString h htail (hrest.append fun hnil => ?_)
    exact absurd hnil (hopen (zone_openString h htail))
  | single hgap hstart hdigit hmark => exact .single hgap hstart hdigit hmark

/-- The zone behind a text is the zone behind what follows its first piece. -/
theorem zone_text (h : Cut text p rest) (hne : rest ≠ []) :
    Zone.code.afterAll text = Zone.code.afterAll rest := by
  rw [h.text_eq, Zone.afterAll_append]
  rcases h.zone_chars with hcode | hline
  · rw [hcode]
  · exact Zone.afterAll_of_atLineEnd hline hne _ _

end Cut

/-- **A text comes apart at a seam**: its pieces are those of the front, followed by those of the back. A
seam is a place where no piece can go on, whatever stands behind it. -/
theorem pieces_append {front back : List Char} (h : Seam front back) :
    pieces (front ++ back) = pieces front ++ pieces back := by
  -- the front loses one piece after the other, and stays a seam as long as something is left
  fun_induction pieces front with
  | case1 => simp
  | case2 c cs ih =>
    have hcut := Cut.of_next c cs
    generalize Piece.next c cs = q at hcut ih ⊢
    obtain ⟨p, rest⟩ := q
    dsimp only at hcut ih ⊢
    -- the first piece of the front is the first piece of the whole
    have hcut' : Cut (c :: (cs ++ back)) p (rest ++ back) := by
      refine hcut.append fun hnil => ?_
      have htext := hcut.text_eq
      rw [hnil, List.append_nil] at htext
      exact htext ▸ h
    rw [List.cons_append, pieces_cons, hcut'.next_eq, List.cons_append]
    -- the last piece of the front meets the back, the others do not
    by_cases hnil : rest = []
    · rw [hnil, List.nil_append, pieces_nil, List.nil_append]
    · rw [ih ⟨?_, ?_⟩]
      · rw [← hcut.zone_text hnil]
        exact h.code
      · intro d hd
        refine h.apart d ?_
        rw [hcut.text_eq, List.getLast?_append, Option.mem_def.1 hd]
        rfl

end CrossAssembler
