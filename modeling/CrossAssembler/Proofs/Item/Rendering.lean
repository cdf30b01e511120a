import CrossAssembler.Proofs.Item.Phrase

/-!
# Items written as a source

Items can be written as a source text again, with `Item.render` and a line end for each separator. The
text is not the one they were read from: marks, blanks, comments and the spelling of numbers are
gone. But it reads as the same items (`written_items_read_back`).

* **One item** (`Phrase.exists_writtenAs`): it is written in the lexemes of a phrase, and any tokens with
  these lexemes are a phrase of the same item.
* **Rows of items** (`Item.exists_source`): so are items with blanks between them.
* **Separators** (`squeeze_squeeze`): no separator is lost in the second reading, as those that a
  reading leaves out are gone already.
-/

namespace CrossAssembler

open Piece

namespace Item

/-- An item as it is written in a source, where a separator is a line end. -/
def written (i : Item) : String :=
  if i.kind = .separator then "\n" else i.render

/-- Items as a source text, with single blanks between them. -/
def source (items : List Item) : String :=
  " ".intercalate (items.map written)

/-- An item but for its place. -/
def unplaced (i : Item) : Item :=
  { i with location := ⟨"", 0, 0⟩ }

/-- The lexemes that an item is written in, and that read as the item at whatever places they
stand. -/
structure WrittenAs (i : Item) (ls : List Lexeme) : Prop where
  writes : Writes i.written.toList ls
  ne_nil : i.written.toList ≠ []
  reads : ∀ us : List Token, us.map Token.lexeme = ls →
    ∃ i', Phrase us i' ∧ i'.unplaced = i.unplaced

end Item

/-! ### Lexemes next to single characters -/

/-- A character that is a lexeme by itself joins no other. -/
theorem joins_of_single {c : Char} {l : Lexeme} (h : single? c = some l) (d : Char) :
    joins c d = false ∧ joins d c = false := by
  have hc : isGap c = false ∧ isNameChar c = false ∧ (c == '$') = false ∧ (c == '%') = false ∧
      (c == '\'') = false := by
    unfold single? at h
    split at h
    all_goals cases h
    all_goals exact ⟨rfl, rfl, rfl, rfl, rfl⟩
  obtain ⟨hgap, hname, hdollar, hpercent, hquote⟩ := hc
  constructor
  · simp [joins, hgap, hname, hdollar, hpercent]
  · simp [joins, hgap, hname, hquote]

namespace Writes

variable {text : List Char} {ls : List Lexeme} {c : Char} {l : Lexeme}

theorem single_append (hc : single? c = some l) (h : Writes text ls) (hne : text ≠ []) :
    Writes (c :: text) (l :: ls) := by
  refine append (single hc) h (List.cons_ne_nil _ _) hne ?_
  rintro e ⟨⟩ d _
  exact (joins_of_single hc d).1

theorem append_single (h : Writes text ls) (hne : text ≠ []) (hc : single? c = some l) :
    Writes (text ++ [c]) (ls ++ [l]) := by
  refine append h (single hc) hne (List.cons_ne_nil _ _) ?_
  rintro e _ d ⟨⟩
  exact (joins_of_single hc e).2

/-- A text between brackets. -/
theorem bracketed (h : Writes text ls) (hne : text ≠ []) :
    Writes ('(' :: (text ++ [')'])) (.openBracket :: (ls ++ [.closeBracket])) :=
  single_append rfl (append_single h hne rfl) (by simp)

/-- A number, in hexadecimal digits. -/
theorem digits (n : Nat) : Writes ('$' :: Hex.digits n) [.number n] := by
  have hwrites := hex (Hex.digits_ne_nil n) (Hex.isDigit_of_mem_digits n)
  rwa [Hex.ofDigits_digits] at hwrites

/-- A name, a sign and a number. -/
theorem displaced {name : String} (hname : IsNameText name.toList) (hc : single? c = some l)
    (n : Nat) : Writes (name.toList ++ c :: '$' :: Hex.digits n) [.name name, l, .number n] := by
  -- the sign stands between the name and the number, and joins neither
  refine append (.nameText hname) (single_append hc (.digits n) (List.cons_ne_nil _ _))
    hname.ne_nil (List.cons_ne_nil _ _) ?_
  rintro e _ d ⟨⟩
  exact (joins_of_single hc e).2

/-- A number that is not negative, filled up with zeros. -/
theorem wide {v : Int} (h : 0 ≤ v) (width : Nat) :
    Writes ('$' :: (Hex.wide width v).toList) [.number v] := by
  have hne : (Hex.wide width v).toList ≠ [] := by
    rw [Hex.toList_wide h]
    exact List.append_ne_nil_of_right_ne_nil _ (Hex.digits_ne_nil _)
  have hwrites := hex hne (Hex.isDigit_of_mem_wide h)
  rwa [Hex.ofDigits_wide h] at hwrites

end Writes

/-! ### Numbers, names and labels -/

namespace Item

/-- A bare name is written as its text. -/
theorem written_ofBareName (text : String) (l : Location) : (ofBareName text l).written = text := by
  -- all the kinds that a name can have are shown by their text
  have hrender : (ofBareName text l).render = text := by
    rcases ItemKind.ofName_cases text with ⟨-, -, h⟩ | ⟨-, -, h⟩ | ⟨-, -, h⟩ | ⟨-, h⟩ | ⟨-, h⟩ |
      ⟨-, -, h⟩ | ⟨-, -, h⟩ | h
    all_goals
      have hkind : (ofBareName text l).kind = _ := h
      simp only [render, hkind]
      rfl
  have hkind : (ofBareName text l).kind ≠ .separator := ItemKind.ofName_ne (by decide) text
  rw [written, if_neg hkind, hrender]

end Item

namespace Phrase

variable {us : List Token} {i : Item} {start : Location} {text : List Char} {l : Lexeme}

/-- Tokens of one lexeme. -/
theorem exists_of_map_singleton (h : us.map Token.lexeme = [l]) : ∃ place, us = [⟨l, place⟩] := by
  obtain ⟨⟨lexeme, place⟩, rest, rfl, rfl, hrest⟩ := List.map_eq_cons_iff.1 h
  rw [List.map_eq_nil_iff.1 hrest]
  exact ⟨place, rfl⟩

/-- Tokens of a lexeme and others behind it. -/
theorem exists_of_map_cons {ls : List Lexeme} (h : us.map Token.lexeme = l :: ls) :
    ∃ place rest, us = ⟨l, place⟩ :: rest ∧ rest.map Token.lexeme = ls := by
  obtain ⟨⟨lexeme, place⟩, rest, rfl, rfl, hrest⟩ := List.map_eq_cons_iff.1 h
  exact ⟨place, rest, rfl, hrest⟩

/-- An item that is written in one lexeme. -/
theorem writtenAs_of_lexeme (htext : i.written.toList = text) (hwrites : Writes text [l])
    (hne : text ≠ [])
    (hreads : ∀ place, ∃ i', Phrase [⟨l, place⟩] i' ∧ i'.unplaced = i.unplaced) :
    i.WrittenAs [l] := by
  subst htext
  refine ⟨hwrites, hne, ?_⟩
  intro us hus
  obtain ⟨place, rfl⟩ := exists_of_map_singleton hus
  exact hreads place

/-- A number, name or label is written in lexemes that read as it. -/
theorem Value.exists_writtenAs (h : Value us i) (hspelled : ∀ t ∈ us, t.lexeme.Spelled) :
    ∃ ls, i.WrittenAs ls := by
  -- a number has no sign, a name is in capitals, and a label has its colon: all are written as they are read
  cases h with
  | number v l =>
    have hpos : 0 ≤ v := hspelled ⟨.number v, l⟩ List.mem_cons_self
    have htext : (Item.ofNumber v l).written.toList = '$' :: Hex.digits v.natAbs := by
      change ("$" ++ Hex.plain v).toList = _
      rw [String.toList_append, Hex.toList_plain hpos]
      rfl
    have hwrites : Writes ('$' :: Hex.digits v.natAbs) [.number v] := by
      have hdigits := Writes.digits v.natAbs
      rwa [Int.natAbs_of_nonneg hpos] at hdigits
    exact ⟨_, writtenAs_of_lexeme htext hwrites (List.cons_ne_nil _ _) fun place =>
      ⟨_, .value (.number v place), rfl⟩⟩
  | name name l =>
    have hname : IsNameText name.toList := hspelled ⟨.name name, l⟩ List.mem_cons_self
    have htext : (Item.ofBareName name l).written.toList = name.toList := by
      rw [Item.written_ofBareName]
    exact ⟨_, writtenAs_of_lexeme htext (.nameText hname) hname.ne_nil fun place =>
      ⟨_, .value (.name name place), rfl⟩⟩
  | label name l colon =>
    have hname : IsNameText name.toList := hspelled ⟨.name name, l⟩ List.mem_cons_self
    have htext : (Item.named .label name l).written.toList = name.toList ++ [':'] := by
      change (name ++ ":").toList = _
      rw [String.toList_append]
      rfl
    refine ⟨[.name name, .colon], ?_, ?_, ?_⟩
    · rw [htext]
      exact .append_single (.nameText hname) hname.ne_nil rfl
    · rw [htext]
      exact List.append_ne_nil_of_right_ne_nil _ (List.cons_ne_nil _ _)
    · intro us hus
      obtain ⟨place, rest, rfl, hrest⟩ := exists_of_map_cons hus
      obtain ⟨colon, rfl⟩ := exists_of_map_singleton hrest
      exact ⟨_, .value (.label name place colon), rfl⟩

/-! ### Brackets -/

/-- What an item between brackets is written as, and the lexemes that read as it. -/
structure WrittenInside (i : Item) (text : List Char) (ls : List Lexeme) : Prop where
  written : i.written.toList = '(' :: (text ++ [')'])
  writes : Writes text ls
  ne_nil : text ≠ []
  reads : ∀ (start : Location) (us : List Token), us.map Token.lexeme = ls →
    ∃ i', Inside start us i' ∧ i'.unplaced = i.unplaced

namespace WrittenInside

theorem writtenAs {ls : List Lexeme} (h : WrittenInside i text ls) :
    i.WrittenAs (.openBracket :: (ls ++ [.closeBracket])) := by
  refine ⟨?_, ?_, ?_⟩
  · rw [h.written]
    exact .bracketed h.writes h.ne_nil
  · rw [h.written]
    exact List.cons_ne_nil _ _
  · intro us hus
    obtain ⟨start, rest, rfl, hrest⟩ := exists_of_map_cons hus
    obtain ⟨us, last, rfl, hinner, hlast⟩ := List.map_eq_append_iff.1 hrest
    obtain ⟨close, rfl⟩ := exists_of_map_singleton hlast
    obtain ⟨i', hinside, hi'⟩ := h.reads start us hinner
    exact ⟨i', .bracket hinside close, hi'⟩

/-- One lexeme between brackets. -/
theorem of_lexeme (hwritten : i.written.toList = '(' :: (text ++ [')'])) (hwrites : Writes text [l])
    (hne : text ≠ [])
    (hreads : ∀ start place, ∃ i', Inside start [⟨l, place⟩] i' ∧ i'.unplaced = i.unplaced) :
    WrittenInside i text [l] := by
  refine ⟨hwritten, hwrites, hne, ?_⟩
  intro start us hus
  obtain ⟨place, rfl⟩ := exists_of_map_singleton hus
  exact hreads start place

theorem of_name {name : String} (hname : IsNameText name.toList)
    (hwritten : i.written = "(" ++ name ++ ")")
    (hreads : ∀ start l, ∃ i', Inside start [⟨.name name, l⟩] i' ∧ i'.unplaced = i.unplaced) :
    WrittenInside i name.toList [.name name] := by
  refine of_lexeme ?_ (.nameText hname) hname.ne_nil hreads
  rw [hwritten, String.toList_append, String.toList_append]
  rfl

end WrittenInside

/-- The lexemes of an index register, a sign and a number. -/
theorem exists_of_map_index {name : String} {v : Int}
    (h : us.map Token.lexeme = [.name name, l, .number v]) :
    ∃ place sign last, us = [⟨.name name, place⟩, ⟨l, sign⟩, ⟨.number v, last⟩] := by
  obtain ⟨place, rest, rfl, hrest⟩ := exists_of_map_cons h
  obtain ⟨sign, rest, rfl, hlast⟩ := exists_of_map_cons hrest
  obtain ⟨last, rfl⟩ := exists_of_map_singleton hlast
  exact ⟨place, sign, last, rfl⟩

/-- A displacement is written with its sign. Zero is written with a plus, whichever sign it was read
with. -/
theorem exists_writtenInside_ofIndex (r : IndexRegister) {d : Int} (hlow : -128 ≤ d)
    (hhigh : d ≤ 127) (hname : IsNameText r.name.toList) (start : Location) :
    ∃ text ls, WrittenInside (.ofIndex r d start) text ls := by
  have hwritten : ∀ {c : Char}, (if d < 0 then "-" else "+") = String.singleton c →
      (Item.ofIndex r d start).written.toList =
        '(' :: (r.name.toList ++ c :: '$' :: Hex.digits d.natAbs ++ [')']) := by
    intro c hc
    have hdigits : (Hex.plain (d.natAbs : Int)).toList = Hex.digits d.natAbs :=
      Hex.toList_plain (Int.natCast_nonneg _)
    change ("(" ++ r.name ++ (if d < 0 then "-" else "+") ++ "$" ++ Hex.plain (d.natAbs : Int) ++
      ")").toList = _
    rw [hc]
    simp only [String.toList_append, hdigits, String.toList_singleton, List.append_assoc]
    rfl
  have hne : ∀ {c : Char}, r.name.toList ++ c :: '$' :: Hex.digits d.natAbs ≠ [] :=
    List.append_ne_nil_of_left_ne_nil hname.ne_nil _
  -- the sign that is written is that of the displacement, not the one it was read with
  by_cases hneg : d < 0
  · have hminus : single? '-' = some .minus := rfl
    refine ⟨_, _, hwritten (if_pos hneg), .displaced hname hminus d.natAbs, hne, ?_⟩
    intro start us hus
    obtain ⟨place, sign, last, rfl⟩ := exists_of_map_index hus
    refine ⟨_, .behind r (by omega) place sign last, ?_⟩
    rw [← Int.eq_neg_natAbs_of_nonpos hneg.le]
    rfl
  · have hplus : single? '+' = some .plus := rfl
    refine ⟨_, _, hwritten (if_neg hneg), .displaced hname hplus d.natAbs, hne, ?_⟩
    intro start us hus
    obtain ⟨place, sign, last, rfl⟩ := exists_of_map_index hus
    refine ⟨_, .ahead r (by omega) place sign last, ?_⟩
    rw [Int.natAbs_of_nonneg (Int.not_lt.1 hneg)]
    rfl

theorem Inside.exists_writtenInside (h : Inside start us i)
    (hspelled : ∀ t ∈ us, t.lexeme.Spelled) : ∃ text ls, WrittenInside i text ls := by
  cases h with
  | @address v h l =>
    have hpos : 0 ≤ v := hspelled ⟨.number v, l⟩ List.mem_cons_self
    refine ⟨_, _, .of_lexeme ?_ (.wide hpos 4) (List.cons_ne_nil _ _)
      fun start place => ⟨_, .address h place, rfl⟩⟩
    change ("(" ++ ("$" ++ Hex.wide 4 v) ++ ")").toList = _
    rw [String.toList_append, String.toList_append, String.toList_append]
    rfl
  | @pair p h l =>
    exact ⟨_, _, .of_name (hspelled ⟨.name p.name, l⟩ List.mem_cons_self) rfl
      fun start place => ⟨_, .pair h place, rfl⟩⟩
  | portC l =>
    exact ⟨_, _, .of_name (hspelled ⟨.name "C", l⟩ List.mem_cons_self) rfl
      fun start place => ⟨_, .portC place, rfl⟩⟩
  | index r l =>
    exact ⟨_, _, .of_name (hspelled ⟨.name r.name, l⟩ List.mem_cons_self) rfl
      fun start place => ⟨_, .index r place, rfl⟩⟩
  | @ahead r v h l sign place =>
    have hpos : 0 ≤ v := hspelled ⟨.number v, place⟩ (by simp)
    have hname : IsNameText r.name.toList := hspelled ⟨.name r.name, l⟩ List.mem_cons_self
    exact exists_writtenInside_ofIndex r (by omega) h hname start
  | @behind r v h l sign place =>
    have hpos : 0 ≤ v := hspelled ⟨.number v, place⟩ (by simp)
    have hname : IsNameText r.name.toList := hspelled ⟨.name r.name, l⟩ List.mem_cons_self
    exact exists_writtenInside_ofIndex r (by omega) (by omega) hname start
  | @reference text h l =>
    exact ⟨_, _, .of_name (hspelled ⟨.name text, l⟩ List.mem_cons_self) rfl
      fun start place => ⟨_, .reference h place, rfl⟩⟩

/-- **An item is written as it reads**, unless it is a string. -/
theorem exists_writtenAs (h : Phrase us i) (hspelled : ∀ t ∈ us, t.lexeme.Spelled)
    (hstring : i.kind ≠ .string) : ∃ ls, i.WrittenAs ls := by
  cases h with
  | lineEnd l =>
    have htext : (Item.written { kind := .separator, location := l }).toList = ['\n'] := by
      change "\n".toList = _
      rfl
    exact ⟨_, writtenAs_of_lexeme htext .lineEnd (List.cons_ne_nil _ _) fun place =>
      ⟨_, .lineEnd place, rfl⟩⟩
  | comma l =>
    have htext : (Item.written { kind := .comma, location := l }).toList = [','] := by
      change ",".toList = _
      rfl
    have hcomma : single? ',' = some .comma := rfl
    exact ⟨_, writtenAs_of_lexeme htext (.single hcomma) (List.cons_ne_nil _ _) fun place =>
      ⟨_, .comma place, rfl⟩⟩
  | string text l => exact absurd rfl hstring
  | value h => exact h.exists_writtenAs hspelled
  | marked mark h =>
    -- the mark is not written again
    exact h.exists_writtenAs fun t ht => hspelled t (List.mem_cons_of_mem _ ht)
  | bracket h close =>
    obtain ⟨text, ls, hwritten⟩ := h.exists_writtenInside fun t ht =>
      hspelled t (List.mem_cons_of_mem _ (List.mem_append_left _ ht))
    exact ⟨_, hwritten.writtenAs⟩

end Phrase

/-! ### Rows of items -/

/-- The first of several items in a source. -/
theorem Item.toList_source_cons_cons (i j : Item) (items : List Item) :
    (source (i :: j :: items)).toList = i.written.toList ++ ' ' :: (source (j :: items)).toList := by
  have hsource : source (i :: j :: items) = i.written ++ " " ++ source (j :: items) :=
    String.intercalate_cons_cons
  rw [hsource, String.toList_append, String.toList_append, List.append_assoc]
  rfl

theorem Item.source_singleton (i : Item) : source [i] = i.written :=
  String.intercalate_singleton

/-- **Items in a row are written as they read.** Single blanks keep the items apart, so the lexemes of the row
are those of the items one after the other. -/
theorem Item.exists_source {items : List Item} (h : ∀ i ∈ items, ∃ ls, i.WrittenAs ls) :
    ∃ ls, Writes (source items).toList ls ∧ (items ≠ [] → (source items).toList ≠ []) ∧
      ∀ ts : List Token, ts.map Token.lexeme = ls →
        ∃ items', Phrases ts items' ∧ items'.map unplaced = items.map unplaced := by
  induction items with
  | nil =>
    refine ⟨[], .nil, fun hne => absurd rfl hne, ?_⟩
    intro ts hts
    rw [List.map_eq_nil_iff.1 hts]
    exact ⟨[], .nil, rfl⟩
  | cons i items ih =>
    rw [List.forall_mem_cons] at h
    obtain ⟨ls, hi⟩ := h.1
    obtain ⟨ls', hwrites, hne, hreads⟩ := ih h.2
    -- tokens of the whole row are those of the first item and those of the others
    have hread : ∀ ts : List Token, ts.map Token.lexeme = ls ++ ls' →
        ∃ items', Phrases ts items' ∧ items'.map unplaced = (i :: items).map unplaced := by
      intro ts hts
      obtain ⟨us, vs, rfl, hus, hvs⟩ := List.map_eq_append_iff.1 hts
      obtain ⟨i', hphrase, hi'⟩ := hi.reads us hus
      obtain ⟨items', hphrases, hitems'⟩ := hreads vs hvs
      refine ⟨i' :: items', .cons hphrase hphrases, ?_⟩
      rw [List.map_cons, List.map_cons, hi', hitems']
    -- a blank is written only if there is a second item
    refine ⟨ls ++ ls', ?_, fun _ => ?_, hread⟩
    · cases items with
      | nil =>
        have hnil : ls' = [] := hwrites.lexemes_eq.symm.trans Writes.nil.lexemes_eq
        rw [source_singleton, hnil, List.append_nil]
        exact hi.writes
      | cons j items =>
        rw [toList_source_cons_cons]
        exact .spaced hi.writes hwrites hi.ne_nil (hne (List.cons_ne_nil _ _))
    · cases items with
      | nil =>
        rw [source_singleton]
        exact hi.ne_nil
      | cons j items =>
        rw [toList_source_cons_cons]
        exact List.append_ne_nil_of_left_ne_nil hi.ne_nil _

/-! ### Separators -/

theorem squeeze_sublist (blank : Bool) (items : List Item) : (squeeze blank items).Sublist items := by
  induction items generalizing blank with
  | nil => exact .slnil
  | cons i items ih =>
    rw [squeeze]
    split
    · exact (ih true).cons i
    · exact (ih _).cons_cons i

/-- Separators are left out once. -/
theorem squeeze_squeeze (blank : Bool) (items : List Item) :
    squeeze blank (squeeze blank items) = squeeze blank items := by
  -- whether a separator is dropped is told by what was kept in front of it
  induction items generalizing blank with
  | nil => rfl
  | cons i items ih =>
    rw [squeeze]
    split
    next hdrop =>
      rw [Bool.and_eq_true] at hdrop
      rw [hdrop.2]
      exact ih true
    next hkeep => rw [squeeze, if_neg hkeep, ih]

/-- Which separators are left out depends on the kinds alone. -/
theorem squeeze_eq_self_of_map_kind {items items' : List Item} {blank : Bool}
    (hkinds : items'.map Item.kind = items.map Item.kind) (h : squeeze blank items = items) :
    squeeze blank items' = items' := by
  induction items generalizing items' blank with
  | nil =>
    rw [List.map_eq_nil_iff.1 hkinds]
    rfl
  | cons i items ih =>
    obtain ⟨i', rest, rfl, hi', hrest⟩ := List.map_eq_cons_iff.1 hkinds
    rw [squeeze] at h
    rw [squeeze, hi']
    split at h
    · -- an item left out is missed in the result
      have hlength := (squeeze_sublist true items).length_le
      rw [h, List.length_cons] at hlength
      omega
    next hkeep =>
      rw [if_neg hkeep, ih hrest (List.cons.inj h).2]

/-- The items of a row of phrases are written as they read, but for strings. -/
theorem Phrases.forall_writtenAs {ts : List Token} {items : List Item} (h : Phrases ts items)
    (hspelled : ∀ t ∈ ts, t.lexeme.Spelled) :
    ∀ i ∈ items, i.kind ≠ .string → ∃ ls, i.WrittenAs ls := by
  induction h with
  | nil =>
    intro i hi
    cases hi
  | cons hphrase hrest ih =>
    rw [List.forall_mem_append] at hspelled
    rw [List.forall_mem_cons]
    exact ⟨hphrase.exists_writtenAs hspelled.1, ih hspelled.2⟩

/-! ### Reading back -/

/-- A text that writes some lexemes is made into tokens of these lexemes. -/
theorem Writes.exists_tokenize {source : String} {ls : List Lexeme} (h : Writes source.toList ls)
    (name : String) (firstLine : Int) :
    ∃ tokens, tokenize source name firstLine = .ok tokens ∧
      (tokensToEnd tokens).map Token.lexeme = ls := by
  have hshort : (pieces source.toList).findSome? Piece.excess? = none :=
    List.findSome?_eq_none_iff.2 h.short
  have htokens : tokenize source name firstLine =
      .ok (locate ⟨name, firstLine, 1⟩ (pieces source.toList)) := by
    unfold tokenize
    dsimp only
    rw [hshort]
  refine ⟨_, htokens, ?_⟩
  rw [tokensToEnd_of_tokenize htokens, map_lexeme_located]
  exact h.lexemes_eq

/-- **Items are written and read back.** If a source without strings is read without a report, its items
can be written as a source. That source is made into tokens, it is read without a report, and its items
are the same but for their places. -/
theorem written_items_read_back {source name : String} {firstLine : Int} {tokens : List Token}
    (file : String) (htokens : tokenize source name firstLine = .ok tokens)
    (hreports : (parse file tokens).reports = [])
    (hstring : ∀ i ∈ (parse file tokens).items, i.kind ≠ .string)
    (name' file' : String) (firstLine' : Int) :
    ∃ tokens', tokenize (Item.source (parse file tokens).items) name' firstLine' = .ok tokens' ∧
      (parse file' tokens').reports = [] ∧
      (parse file' tokens').items.map Item.unplaced =
        (parse file tokens).items.map Item.unplaced := by
  have hspelled := spelled_of_tokenize htokens
  obtain ⟨items, hphrases⟩ := exists_phrases_of_entries hreports
  have hparse : (parse file tokens).items = squeeze true items := by
    rw [hphrases.parse_eq hspelled, foldl_collect]
    rfl
  rw [hparse] at hstring ⊢
  -- each item that was kept is one of a phrase
  have hwritten : ∀ i ∈ squeeze true items, ∃ ls, i.WrittenAs ls := fun i hi =>
    hphrases.forall_writtenAs hspelled i ((squeeze_sublist true items).subset hi) (hstring i hi)
  obtain ⟨ls, hwrites, -, hreads⟩ := Item.exists_source hwritten
  obtain ⟨tokens', htokens', hlexemes⟩ := hwrites.exists_tokenize name' firstLine'
  obtain ⟨items', hphrases', hitems'⟩ := hreads _ hlexemes
  -- the second reading leaves nothing out, as it meets the same kinds
  have hkinds : items'.map Item.kind = (squeeze true items).map Item.kind := by
    have hmap := congrArg (List.map Item.kind) hitems'
    rwa [List.map_map, List.map_map] at hmap
  have hparse' : parse file' tokens' = ⟨items', []⟩ := by
    have hkept := squeeze_eq_self_of_map_kind hkinds (squeeze_squeeze true items)
    rw [hphrases'.parse_eq (spelled_of_tokenize htokens'), foldl_collect]
    change Parsed.mk (squeeze true items') [] = _
    rw [hkept]
  refine ⟨tokens', htokens', ?_, ?_⟩
  · rw [hparse']
  · rw [hparse', hitems']

/-- A displacement of `-0`, a label with the name of a register, and a line without items. -/
theorem written_items_read_back_zero :
    ∃ tokens tokens', tokenize "ix: ld (IX-0),#70000\n\n ex AF,af' ; (5)" "p" = .ok tokens ∧
      Item.source (parse "p" tokens).items = "IX: LD (IX+$0) , $11170 \n EX AF , AF'" ∧
      tokenize "IX: LD (IX+$0) , $11170 \n EX AF , AF'" "q" = .ok tokens' ∧
      (parse "q" tokens').reports = [] ∧
      (parse "q" tokens').items.map Item.unplaced = (parse "p" tokens).items.map Item.unplaced := by
  have hread : (tokenize "ix: ld (IX-0),#70000\n\n ex AF,af' ; (5)" "p").toOption.map
      (fun tokens => ((parse "p" tokens).reports, Item.source (parse "p" tokens).items,
        (parse "p" tokens).items.all (·.kind != .string))) =
        some ([], "IX: LD (IX+$0) , $11170 \n EX AF , AF'", true) := by
    decide +kernel
  obtain ⟨tokens, htokens, hread⟩ := exists_ok_of_toOption hread
  obtain ⟨hreports, hrest⟩ := Prod.mk.inj hread
  obtain ⟨hsource, hstring⟩ := Prod.mk.inj hrest
  have hkinds : ∀ i ∈ (parse "p" tokens).items, i.kind ≠ .string := by
    simpa using hstring
  obtain ⟨tokens', htokens', hreports', hitems'⟩ :=
    written_items_read_back "p" htokens hreports hkinds "q" "q" 1
  rw [hsource] at htokens'
  exact ⟨tokens, tokens', htokens, hsource, htokens', hreports', hitems'⟩

end CrossAssembler
