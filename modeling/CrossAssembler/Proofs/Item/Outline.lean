import CrossAssembler.Proofs.Instruction.Renaming
import CrossAssembler.Proofs.Item.Isolation
import CrossAssembler.Proofs.Token.CaseFold

/-!
# Reading tokens by their outlines

Reading never looks into a string or into the message of a malformed literal: both are handed on,
the one to an item and the other to a report. So tokens are read by their outlines.

* **Readings** (`Reading.outlined_start`): the reading of outlines is the outline of the reading.
  One lemma for each kind of reading.
* **Rows of tokens** (`outline_parse`): so is the reading of whole rows.
* **Items** (`respelled_parse`): tokens with the same outlines give the same items, up to the
  contents of strings, and reports of the same families at the same places.
-/

namespace CrossAssembler

/-- An item without the contents of a string. -/
def Item.outline (i : Item) : Item :=
  if i.kind = .string then { i with text := some "" } else i

/-- Items with one outline differ at most in the contents of a string. -/
theorem Item.respelled_of_outline {i i' : Item} (h : i.outline = i'.outline) :
    i.Respelled id i' := by
  have hkind : i.kind = i'.kind := by
    have hsame : ∀ j : Item, j.outline.kind = j.kind := by
      intro j
      unfold outline
      split <;> rfl
    rw [← hsame i, ← hsame i', h]
  unfold outline at h
  rw [← hkind] at h
  -- the outline leaves out the text of a string and nothing else
  by_cases hstring : i.kind = .string
  · rw [if_pos hstring, if_pos hstring] at h
    have heq : i' = { i with text := i'.text } := by
      obtain ⟨kind, location, text, value, indexByte, low, high, fits8, fits16⟩ := i
      cases i'
      simp_all only [Item.mk.injEq]
    rw [heq]
    exact .string i hstring _
  · rw [if_neg hstring, if_neg hstring] at h
    subst h
    -- a name is kept by the identity, and anything else as it is
    by_cases hname : i.kind.holdsName = true
    · have hrenamed := Item.Respelled.renamed (f := id) i hname
      rwa [Option.map_id] at hrenamed
    · exact .kept i (by simpa using hname)

/-! ### Readings -/

/-- What a reading gives and what the reading of outlines gives: an item and its outline, or reports
of one family and place. -/
inductive Reading.SameResult : Except Diagnostic Item → Except Diagnostic Item → Prop where
  | ok (i : Item) : SameResult (.ok i) (.ok i.outline)
  | error {d d' : Diagnostic} (h : d.gist = d'.gist) : SameResult (.error d) (.error d')

/-- A reading of tokens and the reading of their outlines. They give the same item but for the contents
of a string, or reports of one family at one place, and they leave the same tokens. -/
structure Reading.Outlined (r r' : Reading) : Prop where
  result : Reading.SameResult r.1 r'.1
  rest : r'.2 = r.2.map Token.outline

/-- A lexeme that is no string and not malformed is its own outline alone. -/
theorem Lexeme.outline_eq_iff {l k : Lexeme} (hstring : ∀ text, k ≠ .string text)
    (hmalformed : ∀ message, k ≠ .malformed message) : l.outline = k ↔ l = k := by
  cases l with
  | string text => exact ⟨fun h => absurd h.symm (hstring _), fun h => absurd h.symm (hstring _)⟩
  | malformed message =>
    exact ⟨fun h => absurd h.symm (hmalformed _), fun h => absurd h.symm (hmalformed _)⟩
  | _ => exact Iff.rfl

theorem Token.outline_eq_newline {t : Token} : t.outline.lexeme = .newline ↔ t.lexeme = .newline :=
  Lexeme.outline_eq_iff (fun _ h => by cases h) fun _ h => by cases h

theorem Token.outline_eq_closeBracket {t : Token} :
    t.outline.lexeme = .closeBracket ↔ t.lexeme = .closeBracket :=
  Lexeme.outline_eq_iff (fun _ h => by cases h) fun _ h => by cases h

theorem Token.isEnd_outline (t : Token) : t.outline.isEnd = t.isEnd := by
  have hiff : t.outline.lexeme = .endOfInput ↔ t.lexeme = .endOfInput :=
    Lexeme.outline_eq_iff (fun _ h => by cases h) fun _ h => by cases h
  rw [isEnd, isEnd, Bool.eq_iff_iff, beq_iff_eq, beq_iff_eq, hiff]

namespace Reading

theorem current_outline (stop : Location) (ts : List Token) :
    current stop (ts.map Token.outline) = (current stop ts).outline := by
  cases ts <;> rfl

theorem skipBracket_outline (ts : List Token) :
    skipBracket (ts.map Token.outline) = (skipBracket ts).map Token.outline := by
  induction ts with
  | nil => rfl
  | cons t ts ih =>
    rw [List.map_cons, skipBracket_cons, skipBracket_cons]
    simp only [Token.outline_eq_closeBracket, Token.outline_eq_newline]
    by_cases hclose : t.lexeme = .closeBracket
    · rw [if_pos hclose, if_pos hclose]
    · rw [if_neg hclose, if_neg hclose]
      by_cases hline : t.lexeme = .newline
      · rw [if_pos hline, if_pos hline, List.map_cons]
      · rw [if_neg hline, if_neg hline, ih]

variable {stop start place : Location} {ts : List Token}

/-- A report of one family at one place, and the same tokens left. -/
theorem outlined_error (ts : List Token) {p p' : Problem} (hcategory : p'.category = p.category) :
    Outlined (.error (.placed place p), ts) (.error (.placed place p'), ts.map Token.outline) := by
  refine ⟨.error ?_, rfl⟩
  change (p.category, some place) = (p'.category, some place)
  rw [hcategory]

theorem outlined_giveUp {p p' : Problem} (hcategory : p'.category = p.category) :
    Outlined (giveUp place p ts) (giveUp place p' (ts.map Token.outline)) := by
  unfold giveUp
  rw [skipBracket_outline]
  exact outlined_error _ hcategory

/-- Giving up at the first token that is left, whatever that is. -/
theorem outlined_giveUp_current (stop : Location) (ts : List Token) (problem : Lexeme → Problem)
    (hcategory : ∀ l l', (problem l').category = (problem l).category) :
    Outlined (giveUp (current stop ts).location (problem (current stop ts).lexeme) ts)
      (giveUp (current stop (ts.map Token.outline)).location
        (problem (current stop (ts.map Token.outline)).lexeme) (ts.map Token.outline)) := by
  rw [current_outline]
  exact outlined_giveUp (hcategory _ _)

/-- An item that is no string is its own outline. -/
theorem outlined_ok {i : Item} (hi : i.kind ≠ .string) :
    Outlined (.ok i, ts) (.ok i, ts.map Token.outline) := by
  have houtline : i.outline = i := if_neg hi
  refine ⟨?_, rfl⟩
  have hresult := SameResult.ok i
  rwa [houtline] at hresult

theorem outlined_close {item : Item} (hitem : item.kind ≠ .string) :
    Outlined (close stop item ts) (close stop item (ts.map Token.outline)) := by
  have hfails := outlined_giveUp_current stop ts (fun l => .unclosedIndirection l.describe)
    fun _ _ => rfl
  -- only a closing bracket is looked for, and it is its own outline
  cases ts with
  | nil => exact hfails
  | cons t ts =>
    obtain ⟨lexeme, place⟩ := t
    cases lexeme with
    | closeBracket => exact outlined_ok hitem
    | _ => exact hfails

theorem outlined_displacement (register : IndexRegister) (negative : Bool) :
    Outlined (displacement stop start register negative ts)
      (displacement stop start register negative (ts.map Token.outline)) := by
  have hfails := outlined_giveUp_current stop ts
    (fun l => .noDisplacement register.name (if negative then "-" else "+") l.describe)
    fun _ _ => rfl
  cases ts with
  | nil => exact hfails
  | cons t ts =>
    obtain ⟨lexeme, place⟩ := t
    cases lexeme with
    | number v =>
      rw [List.map_cons]
      unfold displacement
      dsimp only [Token.outline, Lexeme.outline]
      by_cases hrange : -128 ≤ (if negative = true then -v else v) ∧
          (if negative = true then -v else v) ≤ 127
      · rw [if_pos hrange, if_pos hrange]
        exact outlined_close (fun h => by cases h)
      · rw [if_neg hrange, if_neg hrange]
        exact outlined_giveUp rfl
    | _ => exact hfails

theorem outlined_index (register : IndexRegister) :
    Outlined (index stop start register ts) (index stop start register (ts.map Token.outline)) := by
  have hplain : Outlined (close stop (Item.mk .indirectRegister16 start (some register.name) 0
        (some (register.code.toNat : Int)) 0 0 false false) ts)
      (close stop (Item.mk .indirectRegister16 start (some register.name) 0
        (some (register.code.toNat : Int)) 0 0 false false) (ts.map Token.outline)) :=
    outlined_close (fun h => by cases h)
  cases ts with
  | nil => exact hplain
  | cons t ts =>
    obtain ⟨lexeme, place⟩ := t
    cases lexeme with
    | plus => exact outlined_displacement register false
    | minus => exact outlined_displacement register true
    | _ => exact hplain

theorem outlined_bracketedName (name : String) :
    Outlined (bracketedName stop start place name ts)
      (bracketedName stop start place name (ts.map Token.outline)) := by
  have hclose : ∀ kind, kind ≠ ItemKind.string →
      Outlined (close stop (Item.named kind name start) ts)
        (close stop (Item.named kind name start) (ts.map Token.outline)) :=
    fun kind hkind => outlined_close hkind
  have hfails : Outlined (giveUp place (.noIndirection (some s!"'{name}'")) ts)
      (giveUp place (.noIndirection (some s!"'{name}'")) (ts.map Token.outline)) :=
    outlined_giveUp rfl
  unfold bracketedName
  -- the name is the same in both rows, so both readings take the same way
  cases Pair.ofName? name with
  | none =>
    dsimp only
    split
    · exact hclose .indirectC (fun h => by cases h)
    · split
      · exact hclose .indirectImmediate (fun h => by cases h)
      · exact hfails
  | some pair =>
    cases pair with
    | index register => exact outlined_index register
    | _ =>
      dsimp only
      split
      · exact hclose .indirectRegister16 (fun h => by cases h)
      · exact hfails

theorem outlined_bracket :
    Outlined (bracket stop start ts) (bracket stop start (ts.map Token.outline)) := by
  cases ts with
  | nil => exact outlined_error [] rfl
  | cons t ts =>
    obtain ⟨lexeme, place⟩ := t
    cases lexeme with
    | newline => exact outlined_error (⟨.newline, place⟩ :: ts) rfl
    | endOfInput => exact outlined_error (⟨.endOfInput, place⟩ :: ts) rfl
    | closeBracket => exact outlined_error ts rfl
    | number v =>
      rw [List.map_cons]
      unfold bracket
      dsimp only [Token.outline, Lexeme.outline]
      by_cases hrange : 0xFFFF < v
      · rw [if_pos hrange, if_pos hrange]
        exact outlined_giveUp rfl
      · rw [if_neg hrange, if_neg hrange]
        exact outlined_close (fun h => by cases h)
    | name name => exact outlined_bracketedName name
    | _ => exact outlined_giveUp rfl

theorem outlined_name (text : String) :
    Outlined (name text place ts) (name text place (ts.map Token.outline)) := by
  have hkind : ∀ indexByte : Option Int,
      Outlined
        (.ok (Item.mk (ItemKind.ofName text) place (some text) 0 indexByte 0 0 false false), ts)
        (.ok (Item.mk (ItemKind.ofName text) place (some text) 0 indexByte 0 0 false false),
          ts.map Token.outline) :=
    fun _ => outlined_ok (ItemKind.ofName_ne (by decide) text)
  cases ts with
  | nil => exact hkind _
  | cons t ts =>
    obtain ⟨lexeme, place⟩ := t
    cases lexeme with
    | colon => exact outlined_ok (fun h => by cases h)
    | _ => exact hkind _

theorem outlined_marked :
    Outlined (marked stop start ts) (marked stop start (ts.map Token.outline)) := by
  cases ts with
  | nil => exact outlined_error [] rfl
  | cons t ts =>
    obtain ⟨lexeme, place⟩ := t
    cases lexeme with
    | number v => exact outlined_ok (fun h => by cases h)
    | name text => exact outlined_name text
    | _ => exact outlined_error (_ :: ts) rfl

/-- **One reading**, whatever token it starts with. -/
theorem outlined_start (t : Token) :
    Outlined (Reading.start stop t ts) (Reading.start stop t.outline (ts.map Token.outline)) := by
  obtain ⟨lexeme, place⟩ := t
  cases lexeme with
  | newline => exact outlined_ok (fun h => by cases h)
  | comma => exact outlined_ok (fun h => by cases h)
  | number v => exact outlined_ok (fun h => by cases h)
  | string text => exact ⟨.ok (Item.named .string text place), rfl⟩
  | name text => exact outlined_name text
  -- a pound sign or a bracket takes more tokens, which are outlined as well
  | pound => exact outlined_marked
  | openBracket => exact outlined_bracket
  | _ => exact outlined_error ts rfl

end Reading

/-! ### Rows of tokens -/

/-- An entry and the entry that the outlines give. -/
inductive Entry.Outlined : Entry → Entry → Prop where
  | item (i : Item) : Outlined (item i) (item i.outline)
  | invalid (place : Location) {d d' : Diagnostic} (h : d.gist = d'.gist) :
      Outlined (invalid place d) (invalid place d')

theorem Entry.outlined_ofReading (place : Location) {r r' : Except Diagnostic Item}
    (h : Reading.SameResult r r') :
    (Entry.ofReading place r).Outlined (Entry.ofReading place r') := by
  cases h with
  | ok i => exact .item i
  | error h => exact .invalid place h

/-- **Rows of tokens are read by their outlines.** -/
theorem entries_outline (stop : Location) (blank : Bool) (ts : List Token) :
    List.Forall₂ Entry.Outlined (entries stop blank ts)
      (entries stop blank (ts.map Token.outline)) := by
  fun_induction entries stop blank ts with
  | case1 blank =>
    rw [List.map_nil, entries]
    exact .nil
  | case2 blank t ts hblank ih =>
    have hblank' : t.outline.lexeme = .newline ∧ blank = true :=
      ⟨Token.outline_eq_newline.2 hblank.1, hblank.2⟩
    rw [List.map_cons, entries, if_pos hblank']
    exact ih
  | case3 blank t ts hblank ih =>
    -- the reading of the outlines stops at the same token, so the rest is the rest outlined
    have hread : Reading.Outlined (Reading.start stop t ts) _ := Reading.outlined_start t
    have hline : (t.outline.lexeme == Lexeme.newline) = (t.lexeme == .newline) := by
      rw [Bool.eq_iff_iff, beq_iff_eq, beq_iff_eq, Token.outline_eq_newline]
    have hblank' : ¬ (t.outline.lexeme = .newline ∧ blank = true) :=
      fun h => hblank ⟨Token.outline_eq_newline.1 h.1, h.2⟩
    rw [List.map_cons, entries, if_neg hblank', hline, hread.rest]
    exact .cons (Entry.outlined_ofReading t.location hread.result) ih

theorem tokensToEnd_outline (ts : List Token) :
    tokensToEnd (ts.map Token.outline) = (tokensToEnd ts).map Token.outline := by
  unfold tokensToEnd
  rw [List.takeWhile_map]
  exact congrArg (fun p => (ts.takeWhile p).map Token.outline)
    (funext fun t => congrArg not t.isEnd_outline)

theorem endLocation_outline (file : String) (ts : List Token) :
    endLocation file (ts.map Token.outline) = endLocation file ts := by
  have hend : (Token.isEnd ∘ Token.outline) = Token.isEnd := funext Token.isEnd_outline
  unfold endLocation
  rw [List.find?_map, hend, List.getLast?_map]
  cases ts.find? Token.isEnd with
  | some t => rfl
  | none =>
    cases ts.getLast? with
    | some t => rfl
    | none => rfl

theorem outline_items {es es' : List Entry} (h : List.Forall₂ Entry.Outlined es es') :
    es'.map Entry.toItem = (es.map Entry.toItem).map Item.outline := by
  induction h with
  | nil => rfl
  | cons hentry _ ih =>
    rw [List.map_cons, List.map_cons, List.map_cons, ih]
    cases hentry <;> rfl

theorem gist_reports_outline {es es' : List Entry} (h : List.Forall₂ Entry.Outlined es es') :
    (es'.filterMap Entry.report?).map Diagnostic.gist =
      (es.filterMap Entry.report?).map Diagnostic.gist := by
  induction h with
  | nil => rfl
  | cons hentry _ ih =>
    cases hentry with
    | item i => exact ih
    | invalid place hgist =>
      change Diagnostic.gist _ :: _ = Diagnostic.gist _ :: _
      rw [hgist, ih]

/-- The items of outlines are the outlines of the items, and their reports differ in words alone. -/
theorem outline_parse (file : String) (ts : List Token) :
    (parse file (ts.map Token.outline)).items = (parse file ts).items.map Item.outline ∧
      (parse file (ts.map Token.outline)).reports.map Diagnostic.gist =
        (parse file ts).reports.map Diagnostic.gist := by
  have hentries : List.Forall₂ Entry.Outlined (allEntries file ts)
      (allEntries file (ts.map Token.outline)) := by
    unfold allEntries
    rw [tokensToEnd_outline, endLocation_outline]
    exact entries_outline _ _ _
  exact ⟨outline_items hentries, gist_reports_outline hentries⟩

/-- **Tokens with the same outlines** give the same items, up to the contents of strings, and
reports of the same families at the same places. -/
theorem respelled_parse (file : String) {ts ts' : List Token}
    (h : ts.map Token.outline = ts'.map Token.outline) :
    List.Forall₂ (Item.Respelled id) (parse file ts).items (parse file ts').items ∧
      (parse file ts).reports.map Diagnostic.gist =
        (parse file ts').reports.map Diagnostic.gist := by
  obtain ⟨hitems, hreports⟩ := outline_parse file ts
  obtain ⟨hitems', hreports'⟩ := outline_parse file ts'
  -- both lists of tokens are compared with the one list of their outlines
  rw [h] at hitems hreports
  refine ⟨?_, hreports.symm.trans hreports'⟩
  have hsame : List.Forall₂ Eq ((parse file ts).items.map Item.outline)
      ((parse file ts').items.map Item.outline) := by
    rw [List.forall₂_eq_eq_eq]
    exact hitems.symm.trans hitems'
  rw [List.forall₂_map_left_iff, List.forall₂_map_right_iff] at hsame
  exact hsame.imp fun _ _ houtline => Item.respelled_of_outline houtline

end CrossAssembler
