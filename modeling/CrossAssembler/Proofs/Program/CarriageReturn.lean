import CrossAssembler.Proofs.Program.Arrival
import CrossAssembler.Proofs.Program.ReportOrder
import CrossAssembler.Proofs.Token.CarriageReturn

/-!
# Sources with carriage returns

A source whose lines end in a carriage return and a line feed is assembled like one whose lines end in a
line feed alone. Its tokens are the same, but line ends stand one column further
(`tokenize_withReturns`). This can be seen in two things that reading gives: in separators, which stand at
line ends, and in reports on an address that its line cuts off.

* **Places** (`map_behindReturn`): no two tokens stand at one place, so that moving line ends is moving
  their places, and reading does not look at places (`parse_moved`).
* **Lines** (`Line.rows_moved`): separators part the lines of a program and are in none of them.
* **Runs** (`parse_behindReturn`): so both sources are walked over alike, and what is reported is the
  same and on the same lines.
-/

namespace CrossAssembler

/-! ### Places of line ends -/

/-- The places where the line ends among some tokens stand. -/
def lineEnds (ts : List Token) : List Location :=
  (ts.filter fun t => t.lexeme == .newline).map Token.location

/-- A place in a text with carriage returns: that of a line end is one column further. -/
def Location.behindReturn (ends : List Location) (l : Location) : Location :=
  if l ∈ ends then l.right else l

theorem mem_lineEnds {ts : List Token} {l : Location} :
    l ∈ lineEnds ts ↔ ∃ t ∈ ts, t.lexeme = .newline ∧ t.location = l := by
  simp only [lineEnds, List.mem_map, List.mem_filter, beq_iff_eq, and_assoc]

/-- Where tokens stand at different places, a line end is known by its place. -/
theorem mem_lineEnds_iff {ts : List Token} (h : ts.Pairwise Token.Precedes) {t : Token}
    (ht : t ∈ ts) : t.location ∈ lineEnds ts ↔ t.lexeme = .newline := by
  rw [mem_lineEnds]
  constructor
  · rintro ⟨t', ht', hnewline, hplace⟩
    -- two tokens at one place would be one token, and that one is a line end
    by_contra hne
    have hdistinct : t' ≠ t := fun heq => hne (heq ▸ hnewline)
    have hsymm : Std.Symm fun t t' : Token => t.location ≠ t'.location := ⟨fun _ _ => Ne.symm⟩
    exact (h.imp fun hprecedes => hprecedes.before.ne).forall ht' ht hdistinct hplace
  · intro hnewline
    exact ⟨t, ht, hnewline, rfl⟩

theorem map_behindReturn {ts : List Token} (h : ts.Pairwise Token.Precedes) :
    ts.map Token.behindReturn = ts.map (Token.moved (Location.behindReturn (lineEnds ts))) := by
  refine List.map_congr_left fun t ht => ?_
  -- a token is moved for what it is on one side, and for where it stands on the other
  unfold Token.behindReturn Token.moved Location.behindReturn
  simp only [mem_lineEnds_iff h ht]
  split <;> rfl

/-! ### Items and reports -/

/-- **Reading does not look at places**, if the end of the input is among the tokens. -/
theorem allEntries_moved (g : Location → Location) (file : String) {ts : List Token}
    (hend : ∃ t ∈ ts, t.isEnd = true) :
    allEntries file (ts.map (Token.moved g)) = (allEntries file ts).map (Entry.moved g) := by
  have hisEnd : (Token.isEnd ∘ Token.moved g) = Token.isEnd := rfl
  have htokens : tokensToEnd (ts.map (Token.moved g)) = (tokensToEnd ts).map (Token.moved g) := by
    unfold tokensToEnd
    rw [List.takeWhile_map]
    rfl
  have hstop : endLocation file (ts.map (Token.moved g)) = g (endLocation file ts) := by
    -- without an end among the tokens the end would stand at a place that is not moved
    obtain ⟨u, hu⟩ := Option.isSome_iff_exists.1 (List.find?_isSome.2 hend)
    unfold endLocation
    rw [List.find?_map, hisEnd, hu]
    rfl
  unfold allEntries
  rw [htokens, hstop, entries_moved]

theorem parse_moved (g : Location → Location) (file : String) {ts : List Token}
    (hend : ∃ t ∈ ts, t.isEnd = true) :
    parse file (ts.map (Token.moved g)) =
      ⟨(parse file ts).items.map (Item.moved g), (parse file ts).reports.map (Diagnostic.moved g)⟩ := by
  unfold parse
  rw [allEntries_moved g file hend, Entry.map_toItem_moved, Entry.filterMap_report?_moved]

/-! ### Lines -/

theorem Line.rows_moved {g : Location → Location} {items : List Item}
    (h : ∀ i ∈ items, i.kind ≠ .separator → g i.location = i.location) :
    rows (items.map (Item.moved g)) = rows items := by
  -- a separator ends a row and is dropped from it; all other items are where they were
  induction items with
  | nil => rfl
  | cons i rest ih =>
    obtain ⟨hi, hrest⟩ := List.forall_mem_cons.1 h
    rw [List.map_cons, rows, rows, ih hrest]
    change (if i.kind = .separator then _ else _) = _
    by_cases hkind : i.kind = .separator
    · rw [if_pos hkind, if_pos hkind]
    · have hkept : i.moved g = i := by
        rw [Item.moved, hi hkind]
      rw [if_neg hkind, if_neg hkind, hkept]

/-- A program is its lines: how they are parted is not looked at. -/
theorem Machine.assemble_of_lines (m : Machine) {items items' : List Item}
    (h : Line.ofItems items' = Line.ofItems items) : m.assemble items' = m.assemble items := by
  unfold Machine.assemble
  rw [h]

/-! ### Runs -/

/-- What reading a text with carriage returns gives: the same lines of items, and the same reports, some
of them one column further. -/
theorem parse_behindReturn {start : Location} (hstart : 0 < start.line) (cs : List Char) (file : String) :
    Line.ofItems (parse file ((locate start (pieces cs)).map Token.behindReturn)).items =
        Line.ofItems (parse file (locate start (pieces cs))).items ∧
      (parse file ((locate start (pieces cs)).map Token.behindReturn)).reports.map
          (fun d => (d.problem, d.line)) =
        (parse file (locate start (pieces cs))).reports.map fun d => (d.problem, d.line) := by
  -- each item stands at a token of its own, and the tokens at different places
  have hordered := pairwise_precedes (whole_of_mem_pieces cs) hstart
  obtain ⟨row, hitems, hsublist, hrow⟩ := exists_item_tokens_of_text start cs file
  have hend : ∃ t ∈ locate start (pieces cs), t.isEnd = true := by
    rw [locate_eq]
    exact ⟨_, List.mem_append_right _ List.mem_cons_self, rfl⟩
  generalize locate start (pieces cs) = ts at hordered hitems hsublist hend ⊢
  rw [map_behindReturn hordered, parse_moved _ file hend]
  constructor
  · -- only separators stand at line ends
    unfold Line.ofItems
    rw [Line.rows_moved]
    intro i hi hkind
    rw [← hitems] at hi
    obtain ⟨q, hq, rfl⟩ := List.mem_map.1 hi
    have hstands := hrow q hq
    have htoken : q.2 ∈ ts := hsublist.mem (List.mem_map_of_mem hq)
    -- an item that is no separator stands at a token that is no line end
    have hnot : q.2.location ∉ lineEnds ts := by
      rw [mem_lineEnds_iff hordered htoken, hstands.newline_iff]
      exact hkind
    rw [hstands.location_eq, Location.behindReturn, if_neg hnot]
  · -- one column further is on the same line
    have hline : ∀ l, (Location.behindReturn (lineEnds ts) l).line = l.line := by
      intro l
      unfold Location.behindReturn
      split <;> rfl
    dsimp only
    rw [List.map_map]
    refine List.map_congr_left fun d _ => ?_
    obtain ⟨problem, location⟩ := d
    cases location with
    | none => rfl
    | some l => exact Prod.ext rfl (hline l)

/-- **Carriage returns make no difference.** A source with a carriage return in front of every line feed
has the tokens of the source, at the same places but for line feeds, which stand one column further; or
neither of them can be read. Under the same settings both are refused for the same reason, or both give the
same bytes at the same addresses with the same lines and labels, the same regions, the same symbols, and
the same problems, one by one and on the same lines. -/
theorem carriage_returns_ignored (settings : Settings) (source file : String) :
    let returned := String.ofList (withReturns source.toList)
    (∀ name firstLine, tokenize returned name firstLine =
        (tokenize source name firstLine).map (List.map Token.behindReturn)) ∧
      ((∃ fault, assemble settings source file = .error fault ∧
          assemble settings returned file = .error fault) ∨
        ∃ a a', assemble settings source file = .ok a ∧ assemble settings returned file = .ok a' ∧
          a'.emissions = a.emissions ∧ a'.regions = a.regions ∧ a'.symbols = a.symbols ∧
          a'.problems.map (fun d => (d.problem, d.line)) =
            a.problems.map fun d => (d.problem, d.line)) := by
  intro returned
  refine ⟨tokenize_withReturns source, ?_⟩
  have htokens' := tokenize_withReturns source (if file = "" then settings.file else file) 1
  rcases tokenize_cases source (if file = "" then settings.file else file) 1 with
    ⟨digits, -, htokens⟩ | ⟨-, htokens⟩
  · -- neither source can be read, and for the same digits
    rw [htokens] at htokens'
    exact .inl ⟨_, assemble_of_tokenize_error htokens, assemble_of_tokenize_error htokens'⟩
  right
  rw [htokens] at htokens'
  obtain ⟨a, hrun⟩ : ∃ a, assemble settings source file = .ok a := assemble_of_tokenize htokens
  obtain ⟨a', hrun'⟩ : ∃ a', assemble settings returned file = .ok a' := assemble_of_tokenize htokens'
  obtain ⟨ts, hts, p, hemissions, hregions, hproblems, hsymbols, -⟩ := assemble_stages hrun
  obtain ⟨ts', hts', p', hemissions', hregions', hproblems', hsymbols', -⟩ := assemble_stages hrun'
  obtain rfl := Except.ok.inj (hts.symm.trans htokens)
  obtain rfl := Except.ok.inj (hts'.symm.trans htokens')
  have hstart : 0 < (Location.mk (if file = "" then settings.file else file) 1 1).line := Int.one_pos
  obtain ⟨hlines, hreports⟩ := parse_behindReturn hstart source.toList _
  -- the lines are the same, so both runs walk over them alike
  have hlisting : p'.listing = p.listing := by
    have hsame := Machine.assemble_of_lines { address := settings.origin, cpu := settings.cpu } hlines
    exact Except.ok.inj (p'.assemble_eq.symm.trans (hsame.trans p.assemble_eq))
  refine ⟨a, a', hrun, hrun', ?_, ?_, ?_, ?_⟩
  · rw [hemissions', hemissions, hlisting]
  · rw [hregions', hregions, hlisting]
  · rw [hsymbols', hsymbols, hlisting]
  · rw [hproblems', hproblems, hlisting]
    refine map_byLine (fun d => (d.problem, d.line)) Prod.snd (fun _ => rfl) ?_
    rw [List.map_append, List.map_append, hreports]

end CrossAssembler
