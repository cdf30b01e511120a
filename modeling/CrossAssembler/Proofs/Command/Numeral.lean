import CrossAssembler.Command.Run
import CrossAssembler.Proofs.Text.Numeral
import CrossAssembler.Proofs.Token.Cover
import CrossAssembler.Proofs.Token.Spelling

/-!
# Numbers in the source and in settings

Numbers are read in two places: in the source, where a text is cut into pieces, and in options and
variables of the environment, where a text is trimmed and read as a whole. A number that the source
accepts in decimal or hexadecimal form means the same in a setting.

* **In the source** (`exists_loneNumber`): a text that spells one number and nothing else is a row of
  digits with its mark in front and blanks on both sides.
* **In a setting** (`LoneNumber.number?_eq`): such a text is read as the number that the digits write.
-/

namespace CrossAssembler

open Piece

/-! ### One number in the source -/

/-- **A text that is one number**: its digits with the mark of their base, not too many to be read, and
blanks on both sides. -/
structure LoneNumber (text : List Char) (base : NumberBase) (word : List Char) : Prop where
  stands : ∃ front back, text = front ++ (base.mark ++ word ++ back) ∧
    (∀ c ∈ front, isGap c = true) ∧ ∀ c ∈ back, isGap c = true
  digits : base.isNumber word = true
  short : base = .decimal → word.length ≤ Text.maxDecimalDigits

theorem LoneNumber.of_gap {front text word : List Char} {base : NumberBase}
    (h : LoneNumber text base word) (hfront : ∀ c ∈ front, isGap c = true) :
    LoneNumber (front ++ text) base word := by
  obtain ⟨⟨gap, back, rfl, hgap, hback⟩, hdigits, hshort⟩ := h
  refine ⟨⟨front ++ gap, back, ?_, List.forall_mem_append.2 ⟨hfront, hgap⟩, hback⟩, hdigits, hshort⟩
  exact (List.append_assoc front gap _).symm

/-- A piece that spells a number is the mark of a base and digits, and only as many digits as can be
read. -/
theorem Cut.number_chars {text rest : List Char} {p : Piece} {v : Int} (h : Cut text p rest)
    (hlexeme : p.lexeme = some (.number v)) (hshort : p.excess? = none) :
    ∃ base word, p.chars = NumberBase.mark base ++ word ∧ base.isNumber word = true ∧
      v = Text.ofDigits base.radix word ∧
      (base = .decimal → word.length ≤ Text.maxDecimalDigits) := by
  cases h with
  | @decimal c word _ hstart hword hrest =>
    obtain ⟨hdigits, hv⟩ := NumberBase.isNumber_of_lexeme (Option.some.inj hlexeme)
    refine ⟨.decimal, c :: word, rfl, hdigits, hv, fun _ => ?_⟩
    -- with more digits than that the piece would be one that exceeds the limit
    by_contra hlong
    have hexcess := excess?_of_digits (NumberBase.isNumber_iff.1 hdigits).2 hrest
      (Nat.lt_of_not_le hlong)
    rw [(Cut.decimal hstart hword hrest).next_eq, hshort] at hexcess
    cases hexcess
  -- only decimal numbers are limited, and they have no mark
  | @marked base c word _ hmark hword hrest =>
    obtain ⟨hdigits, hv⟩ := NumberBase.isNumber_of_lexeme (Option.some.inj hlexeme)
    refine ⟨base, word, ?_, hdigits, hv, ?_⟩
    · rw [hmark]
      rfl
    · rintro rfl
      cases hmark
  | single hgap hname hdigit hmark =>
    -- a character that is a piece of its own spells no number
    unfold single? at hlexeme
    split at hlexeme <;> cases hlexeme
  | _ => cases hlexeme

/-- Without a comment, a piece that spells nothing is a run of blanks. -/
theorem Cut.isGap_of_mem {text rest : List Char} {p : Piece} (h : Cut text p rest)
    (hlexeme : p.lexeme = none) (hcomment : ';' ∉ text) : ∀ c ∈ p.chars, isGap c = true := by
  rcases h.isBlank hlexeme none with hgap | ⟨body, hbody, -⟩
  · exact hgap
  · -- a comment starts with a semicolon, which the text does not hold
    change p.chars = _ at hbody
    rw [h.text_eq, hbody] at hcomment
    exact absurd List.mem_cons_self hcomment

/-- A text that spells nothing and holds no comment is blank. -/
theorem isGap_of_lexemes_eq_nil {cs : List Char} (h : lexemes (pieces cs) = [])
    (hcomment : ';' ∉ cs) : ∀ c ∈ cs, isGap c = true := by
  fun_induction pieces cs with
  | case1 =>
    intro c hc
    cases hc
  | case2 c cs ih =>
    have hcut := Cut.of_next c cs
    rw [lexemes, List.filterMap_eq_nil_iff, List.forall_mem_cons] at h
    obtain ⟨hfirst, hlater⟩ := h
    have hgap := hcut.isGap_of_mem hfirst hcomment
    rw [hcut.text_eq] at hcomment ⊢
    refine List.forall_mem_append.2 ⟨hgap, ih (List.filterMap_eq_nil_iff.2 hlater) ?_⟩
    exact fun hmem => hcomment (List.mem_append_right _ hmem)

/-- **A text that spells one number and holds no comment is that number and blanks.** -/
theorem exists_loneNumber {cs : List Char} {v : Int} (h : lexemes (pieces cs) = [.number v])
    (hshort : ∀ p ∈ pieces cs, p.excess? = none) (hcomment : ';' ∉ cs) :
    ∃ base word, LoneNumber cs base word ∧ v = Text.ofDigits base.radix word := by
  -- the pieces are taken off one after the other, as the scanner does
  fun_induction pieces cs with
  | case1 => cases h
  | case2 c cs ih =>
    have hcut := Cut.of_next c cs
    obtain ⟨hfirst, hlater⟩ := List.forall_mem_cons.1 hshort
    have hrest : ';' ∉ (Piece.next c cs).2 := by
      rw [hcut.text_eq] at hcomment
      exact fun hmem => hcomment (List.mem_append_right _ hmem)
    rw [lexemes, List.filterMap_cons] at h
    cases hlexeme : (Piece.next c cs).1.lexeme with
    | none =>
      -- blanks: the number is behind them
      rw [hlexeme] at h
      obtain ⟨base, word, hlone, hv⟩ := ih h hlater hrest
      refine ⟨base, word, ?_, hv⟩
      rw [hcut.text_eq]
      exact hlone.of_gap (hcut.isGap_of_mem hlexeme hcomment)
    | some l =>
      -- the number: nothing but blanks is behind it
      rw [hlexeme] at h
      obtain ⟨rfl, hnone⟩ := List.cons.inj h
      obtain ⟨base, word, hchars, hdigits, hv, hfits⟩ := hcut.number_chars hlexeme hfirst
      have hback := isGap_of_lexemes_eq_nil hnone hrest
      refine ⟨base, word, ⟨⟨[], (Piece.next c cs).2, ?_, List.forall_mem_nil _, hback⟩, hdigits, hfits⟩,
        hv⟩
      rw [hcut.text_eq, hchars]
      rfl

/-- The tokens of a text are a number and the end of the input only if the text is that number. -/
theorem loneNumber_of_tokenize {source file : String} {firstLine v : Int} {place finish : Location}
    (h : tokenize source file firstLine = .ok [⟨.number v, place⟩, ⟨.endOfInput, finish⟩])
    (hcomment : ';' ∉ source.toList) :
    ∃ base word, LoneNumber source.toList base word ∧ v = Text.ofDigits base.radix word := by
  rcases tokenize_cases source file firstLine with ⟨digits, -, hfault⟩ | ⟨hshort, htokens⟩
  · rw [hfault] at h
    cases h
  rw [htokens, locate_eq] at h
  -- the end of the input is the last token of every text, so the number is all of the rest
  have hrow : located ⟨file, firstLine, 1⟩ (pieces source.toList) ++ [_] =
      [⟨.number v, place⟩] ++ [⟨.endOfInput, finish⟩] := Except.ok.inj h
  have hlocated := List.append_inj_left' hrow rfl
  refine exists_loneNumber ?_ ?_ hcomment
  · rw [← map_lexeme_located ⟨file, firstLine, 1⟩, hlocated]
    rfl
  · intro p hp
    rw [Option.eq_none_iff_forall_ne_some]
    -- a number that is too long would have stopped the scanner
    intro digits hexcess
    exact hshort ⟨digits, (exists_excess_iff _ _).1 ⟨p, hp, hexcess⟩⟩

/-! ### One number in a setting -/

theorem isBlank_of_isGap {c : Char} (h : isGap c = true) : Text.isBlank c = true := by
  simp only [isGap, Bool.or_eq_true, beq_iff_eq] at h
  rcases h with (rfl | rfl) | rfl <;> rfl

/-- **One number is read in a setting as it is in the source**, unless it is binary. -/
theorem LoneNumber.number?_eq {s : String} {base : NumberBase} {word : List Char}
    (h : LoneNumber s.toList base word) (hbinary : '%' ∉ s.toList) :
    Text.number? s = some (Text.ofDigits base.radix word : Int) := by
  obtain ⟨⟨front, back, htext, hfront, hback⟩, hdigits, hshort⟩ := h
  obtain ⟨hne, hword⟩ := NumberBase.isNumber_iff.1 hdigits
  -- what the scanner skips around a number is trimmed from a setting
  have htrim : base.mark ++ word ≠ [] → (∀ c ∈ base.mark ++ word, Text.isBlank c = false) →
      Text.trim s.toList = base.mark ++ word := by
    intro hnonempty hstays
    rw [htext]
    exact Text.trim_append (fun c hc => isBlank_of_isGap (hfront c hc)) hnonempty hstays
      fun c hc => isBlank_of_isGap (hback c hc)
  cases base with
  | decimal =>
    -- neither mark nor digits are blanks, so the number is kept whole
    have hstays : ∀ c ∈ word, Text.isBlank c = false := fun c hc =>
      Text.isBlank_of_isDigit (Text.isDigit_mono (by decide) (hword c hc))
    exact Text.number?_of_decimal (htrim hne hstays) hne hword (hshort rfl)
  | hexadecimal =>
    have hstays : ∀ c ∈ '$' :: word, Text.isBlank c = false :=
      List.forall_mem_cons.2 ⟨rfl, fun c hc => Text.isBlank_of_isDigit (hword c hc)⟩
    exact Text.number?_of_hexadecimal (htrim (List.cons_ne_nil _ _) hstays) hne hword
  | binary =>
    -- its mark means nothing in a setting
    rw [htext] at hbinary
    exact absurd (List.mem_append_right _ List.mem_cons_self) hbinary

theorem numberUpTo?_of_number? {limit v : Int} {text : String} (h : Text.number? text = some v)
    (hlow : 0 ≤ v) (hhigh : v ≤ limit) : numberUpTo? limit text = some v :=
  Option.filter_eq_some_iff.2 ⟨h, decide_eq_true ⟨hlow, hhigh⟩⟩

/-- A setting whose text can be used is not left to its default. -/
theorem getD_numberUpTo? {limit v : Int} {text : String} {text? : Option String}
    (h : text? = some text) (hread : numberUpTo? limit text = some v) (default : Int) :
    (text?.bind (numberUpTo? limit)).getD default = v := by
  rw [h, Option.bind_some, hread, Option.getD_some]

namespace Command

theorem checkNumber_of_numberUpTo? {s : Switch} {limit v : Int} {text : String}
    (h : numberUpTo? limit text = some v) : checkNumber s limit text = none := by
  unfold checkNumber
  rw [h]

/-- **A number means the same in the source and in the settings.** If a text without comment and percent
sign is one number in the source, it is read as that number in a setting. If the number is an address,
an option for the origin that is given this text is accepted, and the origin is that number; so it is if
the environment gives the text. If the number is a byte, the same is true of the fill. -/
theorem settings_read_source_numbers {m : Type → Type} [Monad m] (files : FileAccess m)
    {source file : String} {firstLine v : Int} {place finish : Location}
    (hcomment : ';' ∉ source.toList) (hbinary : '%' ∉ source.toList)
    (h : tokenize source file firstLine = .ok [⟨.number v, place⟩, ⟨.endOfInput, finish⟩]) :
    Text.number? source = some v ∧ ∀ (env : Environment) (a : Arguments),
      (v ≤ 0xFFFF →
        (env.origin = some source → (Settings.ofEnvironment env).origin = v) ∧
        (a.value? .origin = some source → checkSwitch files a .origin = pure none ∧
          (Job.ofArguments env a).settings.origin = v)) ∧
      (v ≤ 0xFF →
        (env.fill = some source → (Settings.ofEnvironment env).fill = v) ∧
        (a.value? .fill = some source → checkSwitch files a .fill = pure none ∧
          (Job.ofArguments env a).settings.fill = v)) := by
  obtain ⟨base, word, hlone, rfl⟩ := loneNumber_of_tokenize h hcomment
  have hnumber := hlone.number?_eq hbinary
  -- a row of digits has no sign, so only the upper limit matters
  have hlow : (0 : Int) ≤ Text.ofDigits base.radix word := Int.natCast_nonneg _
  have hread : ∀ limit, (Text.ofDigits base.radix word : Int) ≤ limit →
      numberUpTo? limit source = some (Text.ofDigits base.radix word : Int) :=
    fun limit hhigh => numberUpTo?_of_number? hnumber hlow hhigh
  refine ⟨hnumber, fun env a => ⟨fun hhigh => ?_, fun hhigh => ?_⟩⟩
  · have horigin := hread 0xFFFF hhigh
    refine ⟨fun henv => getD_numberUpTo? henv horigin _, fun hvalue => ⟨?_, ?_⟩⟩
    · -- the option passes its check, and then it is read by the same function
      unfold checkSwitch
      rw [hvalue]
      exact congrArg pure (checkNumber_of_numberUpTo? horigin)
    · exact getD_numberUpTo? hvalue horigin _
  · have hfill := hread 0xFF hhigh
    refine ⟨fun henv => getD_numberUpTo? henv hfill _, fun hvalue => ⟨?_, ?_⟩⟩
    · unfold checkSwitch
      rw [hvalue]
      exact congrArg pure (checkNumber_of_numberUpTo? hfill)
    · exact getD_numberUpTo? hvalue hfill _

/-- Blanks on both sides and letters of either case, in the source, in an option and in the
environment. -/
theorem settings_read_source_numbers_mixed :
    tokenize " \t$0fE\r" "a" 1 =
        .ok [⟨.number 254, ⟨"a", 1, 3⟩⟩, ⟨.endOfInput, ⟨"a", 1, 8⟩⟩] ∧
      Text.number? " \t$0fE\r" = some 254 ∧
      (Settings.ofEnvironment { fill := some " \t$0fE\r" }).fill = 254 ∧
      checkSwitch FileTree.system.host.toFileAccess ⟨[⟨.fill, some " \t$0fE\r"⟩], []⟩ .fill =
        pure none ∧
      (Job.ofArguments {} ⟨[⟨.fill, some " \t$0fE\r"⟩], []⟩).settings.fill = 254 := by
  have htokens : tokenize " \t$0fE\r" "a" 1 =
      .ok [⟨.number 254, ⟨"a", 1, 3⟩⟩, ⟨.endOfInput, ⟨"a", 1, 8⟩⟩] := by
    decide +kernel
  obtain ⟨hnumber, hsettings⟩ :=
    settings_read_source_numbers FileTree.system.host.toFileAccess (by decide) (by decide) htokens
  obtain ⟨hset, -⟩ := (hsettings { fill := some " \t$0fE\r" } {}).2 (by decide)
  obtain ⟨-, hgiven⟩ := (hsettings {} ⟨[⟨.fill, some " \t$0fE\r"⟩], []⟩).2 (by decide)
  obtain ⟨hchecked, hfill⟩ := hgiven rfl
  exact ⟨htokens, hnumber, hset rfl, hchecked, hfill⟩

end Command

end CrossAssembler
