import CrossAssembler.Item.Parse
import CrossAssembler.Proofs.Token.Place

/-!
# Lines do not touch each other

Whatever stands on a line, an open bracket, an open string, half an operand, the lines around it are
read as if it were not there. A text cut at a line end gives the tokens of both parts, and the items
and reports of both parts, those of the second part only further down.

* **Readings** (`Reading.carried_start`): reading looks at lexemes and not at places, and never behind
  a line end. So the reading of some tokens is carried over to any tokens that go on with others
  behind a line end, or that end where they end; and places may be moved on the way. Both uses are
  one row of lemmas, as the condition for them is one (`Settled`).
* **Entries** (`entries_carried`): so is the reading of whole rows of tokens.
* **Texts** (`locate_lineEnd`, `allEntries_lineEnd`): a text is cut at a line end, and both parts are
  read apart.
-/

namespace CrossAssembler

/-! ### Moving places -/

/-- An item with its place moved. -/
def Item.moved (g : Location → Location) (i : Item) : Item :=
  { i with location := g i.location }

/-- A diagnostic with its place moved. -/
def Diagnostic.moved (g : Location → Location) (d : Diagnostic) : Diagnostic :=
  { d with location := d.location.map g }

/-- An entry with its places moved. -/
def Entry.moved (g : Location → Location) : Entry → Entry
  | item i => item (i.moved g)
  | invalid place d => invalid (g place) (d.moved g)

namespace Entry

theorem map_toItem_moved (g : Location → Location) (es : List Entry) :
    (es.map (moved g)).map toItem = (es.map toItem).map (Item.moved g) := by
  have hentry : ∀ e : Entry, (e.moved g).toItem = e.toItem.moved g := by
    intro e
    cases e <;> rfl
  rw [List.map_map, List.map_map]
  exact List.map_congr_left fun e _ => hentry e

theorem filterMap_report?_moved (g : Location → Location) (es : List Entry) :
    (es.map (moved g)).filterMap report? = (es.filterMap report?).map (Diagnostic.moved g) := by
  have hentry : ∀ e : Entry, (e.moved g).report? = e.report?.map (Diagnostic.moved g) := by
    intro e
    cases e <;> rfl
  rw [List.filterMap_map, List.map_filterMap]
  exact congrArg (fun f => es.filterMap f) (funext hentry)

theorem moved_id (e : Entry) : e.moved id = e := by
  cases e with
  | item i => rfl
  | invalid place d =>
    obtain ⟨problem, location⟩ := d
    cases location <;> rfl

end Entry

/-! ### Readings -/

/-- When a reading of some tokens is carried over to the same tokens, moved by `g`, with `more` behind
them: the tokens end with a line end, behind which reading does not look, or nothing follows them and
the input ends where it did. -/
inductive Settled (g : Location → Location) (stop : Location) :
    Location → List Token → List Token → Prop where
  | finish : Settled g stop (g stop) [] []
  | lineEnd (place stop' : Location) (more : List Token) :
      Settled g stop stop' more [⟨.newline, place⟩]
  | cons (lexeme : Lexeme) (place : Location) {stop' : Location} {more ts : List Token}
      (h : Settled g stop stop' more ts) : Settled g stop stop' more (⟨lexeme, place⟩ :: ts)

namespace Reading

variable {g : Location → Location} {stop stop' : Location} {more ts : List Token}

/-- What a reading gives, with its places moved. -/
def movedResult (g : Location → Location) (r : Except Diagnostic Item) : Except Diagnostic Item :=
  (r.map (Item.moved g)).mapError (Diagnostic.moved g)

/-- A reading is carried over: it gives the same, moved, and leaves the same tokens, with `more`
behind them. -/
structure Carried (g : Location → Location) (stop stop' : Location) (more : List Token)
    (r r' : Reading) : Prop where
  result : r'.1 = movedResult g r.1
  rest : r'.2 = r.2.map (Token.moved g) ++ more
  settled : Settled g stop stop' more r.2

theorem current_carried (h : Settled g stop stop' more ts) :
    current stop' (ts.map (Token.moved g) ++ more) = (current stop ts).moved g := by
  cases h <;> rfl

/-- Skipping goes on to the closing bracket or the end of the line. -/
theorem skipBracket_cons (t : Token) (ts : List Token) :
    skipBracket (t :: ts) =
      if t.lexeme = .closeBracket then ts
      else if t.lexeme = .newline then t :: ts
      else skipBracket ts := by
  unfold skipBracket
  rw [List.dropWhile_cons]
  by_cases hclose : t.lexeme = .closeBracket
  · simp [hclose]
  · by_cases hline : t.lexeme = .newline
    · simp [hline]
    · simp [hclose, hline]

/-- Skipping never goes behind a line end. -/
theorem skipBracket_carried (h : Settled g stop stop' more ts) :
    skipBracket (ts.map (Token.moved g) ++ more) =
        (skipBracket ts).map (Token.moved g) ++ more ∧
      Settled g stop stop' more (skipBracket ts) := by
  -- skipping stops at the line end at the latest, so it never meets what follows
  induction h with
  | finish => exact ⟨rfl, .finish⟩
  | lineEnd place stop' more => exact ⟨rfl, .lineEnd place stop' more⟩
  | cons lexeme place h ih =>
    rw [List.map_cons, List.cons_append, skipBracket_cons, skipBracket_cons, Token.moved_lexeme]
    by_cases hclose : lexeme = .closeBracket
    · rw [if_pos hclose, if_pos hclose]
      exact ⟨rfl, h⟩
    · rw [if_neg hclose, if_neg hclose]
      by_cases hline : lexeme = .newline
      · rw [if_pos hline, if_pos hline]
        exact ⟨rfl, .cons lexeme place h⟩
      · rw [if_neg hline, if_neg hline]
        exact ih

theorem carried_giveUp (h : Settled g stop stop' more ts) (place : Location) (problem : Problem) :
    Carried g stop stop' more (giveUp place problem ts)
      (giveUp (g place) problem (ts.map (Token.moved g) ++ more)) := by
  obtain ⟨hrest, hsettled⟩ := skipBracket_carried h
  exact ⟨rfl, hrest, hsettled⟩

/-- The token at which reading fails is the same in both rows. -/
theorem carried_giveUp_current (h : Settled g stop stop' more ts) (problem : Lexeme → Problem) :
    Carried g stop stop' more
      (giveUp (current stop ts).location (problem (current stop ts).lexeme) ts)
      (giveUp (current stop' (ts.map (Token.moved g) ++ more)).location
        (problem (current stop' (ts.map (Token.moved g) ++ more)).lexeme)
        (ts.map (Token.moved g) ++ more)) := by
  rw [current_carried h]
  exact carried_giveUp h _ _

theorem carried_close (h : Settled g stop stop' more ts) (item : Item) :
    Carried g stop stop' more (close stop item ts)
      (close stop' (item.moved g) (ts.map (Token.moved g) ++ more)) := by
  have hfails := carried_giveUp_current h fun lexeme => .unclosedIndirection lexeme.describe
  cases h with
  | finish => exact hfails
  | lineEnd => exact hfails
  | cons lexeme place h =>
    cases lexeme with
    -- the bracket is taken, and what is left is settled as before
    | closeBracket => exact ⟨rfl, rfl, h⟩
    | _ => exact hfails

theorem carried_displacement (h : Settled g stop stop' more ts) (start : Location)
    (register : IndexRegister) (negative : Bool) :
    Carried g stop stop' more (displacement stop start register negative ts)
      (displacement stop' (g start) register negative (ts.map (Token.moved g) ++ more)) := by
  have hfails := carried_giveUp_current h fun lexeme =>
    .noDisplacement register.name (if negative then "-" else "+") lexeme.describe
  cases h with
  | finish => exact hfails
  | lineEnd => exact hfails
  | cons lexeme place h =>
    cases lexeme with
    | number v =>
      rw [List.map_cons, List.cons_append]
      unfold displacement
      dsimp only [Token.moved]
      by_cases hrange : -128 ≤ (if negative = true then -v else v) ∧
          (if negative = true then -v else v) ≤ 127
      · rw [if_pos hrange, if_pos hrange]
        exact carried_close h (Item.ofIndex register _ start)
      · rw [if_neg hrange, if_neg hrange]
        exact carried_giveUp h place _
    | _ => exact hfails

theorem carried_index (h : Settled g stop stop' more ts) (start : Location)
    (register : IndexRegister) :
    Carried g stop stop' more (index stop start register ts)
      (index stop' (g start) register (ts.map (Token.moved g) ++ more)) := by
  have hplain := carried_close h (Item.mk .indirectRegister16 start (some register.name) 0
    (some (register.code.toNat : Int)) 0 0 false false)
  cases h with
  | finish => exact hplain
  | lineEnd => exact hplain
  | cons lexeme place h =>
    cases lexeme with
    | plus => exact carried_displacement h start register false
    | minus => exact carried_displacement h start register true
    | _ => exact hplain

theorem carried_bracketedName (h : Settled g stop stop' more ts) (start place : Location)
    (name : String) :
    Carried g stop stop' more (bracketedName stop start place name ts)
      (bracketedName stop' (g start) (g place) name (ts.map (Token.moved g) ++ more)) := by
  have hclose := fun kind => carried_close h (Item.named kind name start)
  have hfails := carried_giveUp h place (.noIndirection (some s!"'{name}'"))
  unfold bracketedName
  cases Pair.ofName? name with
  | none =>
    dsimp only
    split
    · exact hclose .indirectC
    · split
      · exact hclose .indirectImmediate
      · exact hfails
  | some pair =>
    cases pair with
    | index register => exact carried_index h start register
    | _ =>
      dsimp only
      split
      · exact hclose .indirectRegister16
      · exact hfails

theorem carried_bracket (h : Settled g stop stop' more ts) (start : Location) :
    Carried g stop stop' more (bracket stop start ts)
      (bracket stop' (g start) (ts.map (Token.moved g) ++ more)) := by
  have hsettled := h
  cases h with
  | finish => exact ⟨rfl, rfl, hsettled⟩
  | lineEnd => exact ⟨rfl, rfl, hsettled⟩
  | cons lexeme place h =>
    cases lexeme with
    | newline => exact ⟨rfl, rfl, hsettled⟩
    | endOfInput => exact ⟨rfl, rfl, hsettled⟩
    | closeBracket => exact ⟨rfl, rfl, h⟩
    | number v =>
      rw [List.map_cons, List.cons_append]
      unfold bracket
      dsimp only [Token.moved]
      by_cases hrange : 0xFFFF < v
      · rw [if_pos hrange, if_pos hrange]
        exact carried_giveUp h place _
      · rw [if_neg hrange, if_neg hrange]
        exact carried_close h (Item.ofNumber v start .indirectImmediate)
    | name name => exact carried_bracketedName h start place name
    | _ => exact carried_giveUp h place _

theorem carried_name (h : Settled g stop stop' more ts) (text : String) (place : Location) :
    Carried g stop stop' more (name text place ts)
      (name text (g place) (ts.map (Token.moved g) ++ more)) := by
  have hsettled := h
  cases h with
  | finish => exact ⟨rfl, rfl, hsettled⟩
  | lineEnd => exact ⟨rfl, rfl, hsettled⟩
  | cons lexeme place h =>
    cases lexeme with
    | colon => exact ⟨rfl, rfl, h⟩
    | _ => exact ⟨rfl, rfl, hsettled⟩

theorem carried_marked (h : Settled g stop stop' more ts) (start : Location) :
    Carried g stop stop' more (marked stop start ts)
      (marked stop' (g start) (ts.map (Token.moved g) ++ more)) := by
  have hsettled := h
  cases h with
  | finish => exact ⟨rfl, rfl, hsettled⟩
  | lineEnd => exact ⟨rfl, rfl, hsettled⟩
  | cons lexeme place h =>
    cases lexeme with
    | number v => exact ⟨rfl, rfl, h⟩
    | name text => exact carried_name h text place
    | _ => exact ⟨rfl, rfl, hsettled⟩

/-- **One reading is carried over**, whatever token it starts with. -/
theorem carried_start (h : Settled g stop stop' more ts) (t : Token) :
    Carried g stop stop' more (start stop t ts)
      (start stop' (t.moved g) (ts.map (Token.moved g) ++ more)) := by
  obtain ⟨lexeme, place⟩ := t
  cases lexeme with
  | name text => exact carried_name h text place
  | pound => exact carried_marked h place
  | openBracket => exact carried_bracket h place
  | _ => exact ⟨rfl, rfl, h⟩

end Reading

/-! ### Rows of tokens -/

theorem Entry.ofReading_moved (g : Location → Location) (place : Location)
    (r : Except Diagnostic Item) :
    Entry.ofReading (g place) (Reading.movedResult g r) = (Entry.ofReading place r).moved g := by
  cases r <;> rfl

/-- **Rows of tokens are read apart.** The entries of a row that ends with a line end, or behind which
the input ends, are followed by those of the tokens behind it, which are read from the start of a
line. -/
theorem entries_carried {g : Location → Location} {stop stop' : Location} {more ts : List Token}
    {blank : Bool} (h : Settled g stop stop' more ts ∨ ts = [] ∧ blank = true) :
    entries stop' blank (ts.map (Token.moved g) ++ more) =
      (entries stop blank ts).map (Entry.moved g) ++ entries stop' true more := by
  -- each reading leaves a shorter row that is settled again; the row in front is used up at its line end, and
  -- reading goes on behind it as at the start of a line
  fun_induction entries stop blank ts with
  | case1 blank =>
    rcases h with h | ⟨-, rfl⟩
    · cases h with
      | finish => rw [List.map_nil, List.map_nil, List.nil_append, List.nil_append, entries, entries]
    · rfl
  | case2 blank t ts hblank ih =>
    -- an empty line gives nothing, and behind it a line starts again
    have hrest : Settled g stop stop' more ts ∨ ts = [] ∧ true = true := by
      rcases h with h | ⟨h, -⟩
      · cases h with
        | lineEnd => exact .inr ⟨rfl, rfl⟩
        | cons _ _ h => exact .inl h
      · cases h
    rw [List.map_cons, List.cons_append, entries, Token.moved_lexeme, if_pos hblank]
    exact ih hrest
  | case3 blank t ts hblank ih =>
    rcases h with h | ⟨h, -⟩
    · rw [List.map_cons, List.cons_append, entries, Token.moved_lexeme, if_neg hblank, List.map_cons,
        List.cons_append]
      cases h with
      | lineEnd =>
        -- the line end is read by itself, and leaves nothing of the row
        have hrest := ih (.inr ⟨rfl, rfl⟩)
        exact congrArg _ hrest
      | cons lexeme place h =>
        obtain ⟨hresult, hleft, hsettled⟩ := Reading.carried_start h ⟨lexeme, place⟩
        have hrest := ih (.inl hsettled)
        rw [hresult, hleft, hrest, ← Entry.ofReading_moved]
        rfl
    · cases h

/-! ### Texts -/

theorem Settled.of_lineEnd (g : Location → Location) (stop stop' place : Location)
    (more ts : List Token) : Settled g stop stop' more (ts ++ [⟨.newline, place⟩]) := by
  induction ts with
  | nil => exact .lineEnd place stop' more
  | cons t ts ih => exact .cons t.lexeme t.location ih

theorem Settled.of_finish (g : Location → Location) (stop : Location) (ts : List Token) :
    Settled g stop (g stop) [] ts := by
  induction ts with
  | nil => exact .finish
  | cons t ts ih => exact .cons t.lexeme t.location ih

/-- Behind a line end, reading starts anew. -/
theorem entries_lineEnd (stop stop' place : Location) (ts more : List Token) :
    entries stop' true (ts ++ [⟨.newline, place⟩] ++ more) =
      entries stop true (ts ++ [⟨.newline, place⟩]) ++ entries stop' true more := by
  have hsettled := Settled.of_lineEnd id stop stop' place more ts
  have hentries := entries_carried (Or.inl hsettled : _ ∨ _ ∧ true = true)
  rwa [List.map_id'' Token.moved_id, List.map_id'' Entry.moved_id] at hentries

/-- Reading does not look at places. -/
theorem entries_moved (g : Location → Location) (stop : Location) (ts : List Token) :
    entries (g stop) true (ts.map (Token.moved g)) = (entries stop true ts).map (Entry.moved g) := by
  have hsettled := Settled.of_finish g stop ts
  have hentries := entries_carried (Or.inl hsettled : _ ∨ _ ∧ true = true)
  rwa [entries, List.append_nil, List.append_nil] at hentries

theorem isEnd_of_mem_text {start : Location} {cs : List Char} :
    ∀ t ∈ located start (pieces cs), t.isEnd = false :=
  isEnd_of_mem_located (forall_mem_pieces (fun _ _ _ h => h.lexeme_ne_end) cs)

theorem tokensToEnd_locate (start : Location) (cs : List Char) :
    tokensToEnd (locate start (pieces cs)) = located start (pieces cs) := by
  have hgo : ∀ t ∈ located start (pieces cs), (!t.isEnd) = true := by
    intro t ht
    rw [isEnd_of_mem_text t ht]
    rfl
  rw [tokensToEnd, locate_eq, List.takeWhile_append_of_pos hgo]
  exact List.append_nil _

theorem endLocation_locate (file : String) (start : Location) (cs : List Char) :
    endLocation file (locate start (pieces cs)) = finishOf start (pieces cs) := by
  have hnone : (located start (pieces cs)).find? Token.isEnd = none := by
    rw [List.find?_eq_none]
    intro t ht
    rw [isEnd_of_mem_text t ht]
    exact Bool.false_ne_true
  rw [endLocation, locate_eq, List.find?_append, hnone]
  rfl

/-- The entries of a text are those of its tokens, up to the place where it ends. -/
theorem allEntries_locate (file : String) (start : Location) (cs : List Char) :
    allEntries file (locate start (pieces cs)) =
      entries (finishOf start (pieces cs)) true (located start (pieces cs)) := by
  rw [allEntries, tokensToEnd_locate, endLocation_locate]

/-- **The tokens of a text cut at a line end** are those of both parts. The end of the input of the first part
is left out, and the second part stands further down. -/
theorem locate_lineEnd {start : Location} (hline : 0 < start.line) (hcolumn : start.column = 1)
    (front back : List Char) :
    locate start (pieces (front ++ ['\n'] ++ back)) =
      tokensToEnd (locate start (pieces (front ++ ['\n']))) ++
        (locate start (pieces back)).map (Token.moved (Location.down (front.count '\n' + 1))) := by
  rw [tokensToEnd_locate, pieces_append (Seam.lineEnd front back), locate_eq, locate_eq,
    located_append, finishOf_append, finishOf_lineEnd hcolumn, located_down _ hline, finishOf_down,
    List.map_append, List.append_assoc]
  rfl

/-- **The entries of a text cut at a line end** are those of both parts. No reading goes on behind the
end of its line, even a failed one. -/
theorem allEntries_lineEnd (file : String) {start : Location} (hline : 0 < start.line)
    (hcolumn : start.column = 1) (front back : List Char) :
    allEntries file (locate start (pieces (front ++ ['\n'] ++ back))) =
      allEntries file (locate start (pieces (front ++ ['\n']))) ++
        (allEntries file (locate start (pieces back))).map
          (Entry.moved (Location.down (front.count '\n' + 1))) := by
  rw [allEntries_locate, allEntries_locate, allEntries_locate,
    pieces_append (Seam.lineEnd front back), located_append, finishOf_append,
    finishOf_lineEnd hcolumn, located_down _ hline, finishOf_down, ← entries_moved]
  -- the last token of the front is its line end, whatever was left open on the line
  obtain ⟨ts, place, hfront⟩ := exists_located_lineEnd start front
  rw [hfront]
  exact entries_lineEnd _ _ place ts _

/-- **Lines do not touch each other.** A text cut at a line end has the tokens of both parts, without
the end of the input that closes the first, and the items and reports of both parts; those of the
second part are further down by the lines of the first. If a number of either part is too long to be
read, the text as a whole stops with the same fault. -/
theorem lines_read_apart (front back file : String) :
    (tokenize (front ++ "\n" ++ back) file = do
        let first ← tokenize (front ++ "\n") file
        let second ← tokenize back file
        return tokensToEnd first ++
          second.map (Token.moved (Location.down (front.toList.count '\n' + 1)))) ∧
      ((tokenize (front ++ "\n" ++ back) file).map (parse file) = do
        let first ← tokenize (front ++ "\n") file
        let second ← tokenize back file
        return {
          items := (parse file first).items ++ (parse file second).items.map
            (Item.moved (Location.down (front.toList.count '\n' + 1)))
          reports := (parse file first).reports ++ (parse file second).reports.map
            (Diagnostic.moved (Location.down (front.toList.count '\n' + 1))) }) := by
  have htext : (front ++ "\n" ++ back).toList = front.toList ++ ['\n'] ++ back.toList := by
    rw [String.toList_append, String.toList_append]
    rfl
  have hfirst : (front ++ "\n").toList = front.toList ++ ['\n'] := by
    rw [String.toList_append]
    rfl
  generalize hn : Location.down (front.toList.count '\n' + 1) = lower
  have hline : 0 < (Location.mk file 1 1).line := Int.one_pos
  have hlocate := locate_lineEnd hline rfl front.toList back.toList
  have hentries := allEntries_lineEnd file hline rfl front.toList back.toList
  rw [hn] at hlocate hentries
  unfold tokenize
  dsimp only
  rw [htext, hfirst]
  have hpieces := pieces_append (Seam.lineEnd front.toList back.toList)
  have hfound := congrArg (List.findSome? Piece.excess?) hpieces
  rw [List.findSome?_append] at hfound
  rw [hfound]
  -- a number that is too long stops the whole text, that of the first part first
  cases (pieces (front.toList ++ ['\n'])).findSome? Piece.excess? with
  | some digits => exact ⟨rfl, rfl⟩
  | none =>
    cases (pieces back.toList).findSome? Piece.excess? with
    | some digits => exact ⟨rfl, rfl⟩
    | none =>
      refine ⟨congrArg Except.ok hlocate, congrArg Except.ok ?_⟩
      rw [parse, hentries, List.map_append, List.filterMap_append, Entry.map_toItem_moved,
        Entry.filterMap_report?_moved]
      rfl

end CrossAssembler
