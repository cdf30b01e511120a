import CrossAssembler.Proofs.Item.Outline
import CrossAssembler.Proofs.Program.Arrival
import CrossAssembler.Proofs.Program.Renaming
import CrossAssembler.Proofs.Program.ReportOrder

/-!
# Sources in capital and small letters

Whether a letter of a source is capital or small makes no difference to what is assembled, nor to
what is wrong and where. The three stages are put together here: tokens keep their outlines
(`tokenize_capitals`), items keep all but the contents of strings (`respelled_parse`), and no
statement looks at those (`Passes.renamed`, with every name kept).
-/

namespace CrossAssembler

/-! ### Keeping every name -/

theorem Emission.rename_id (e : Emission) : e.rename id = e := by
  unfold Emission.rename
  rw [Option.map_id]
  rfl

theorem SymbolTable.rename_id (t : SymbolTable) : t.rename id = t := by
  have hsymbol : Symbol.rename id = id := by
    funext s
    unfold Symbol.rename
    rw [Option.map_id]
    rfl
  unfold SymbolTable.rename
  rw [hsymbol, List.map_id]

/-! ### Problems by line -/

/-- The order of problems does not depend on their words. -/
theorem gist_byLine {ds ds' : List Diagnostic}
    (h : ds.map Diagnostic.gist = ds'.map Diagnostic.gist) :
    (byLine ds).map Diagnostic.gist = (byLine ds').map Diagnostic.gist := by
  -- problems are sorted by their lines, and the place of a problem is part of its gist
  refine map_byLine Diagnostic.gist (fun gist => gist.2.elim 0 Location.line) ?_ h
  intro d
  obtain ⟨problem, location⟩ := d
  cases location <;> rfl

/-! ### Runs -/

/-- **Letters of either case.** Two sources that are the same in capitals, under the same settings,
are both refused for the same reason, or both give the same bytes at the same addresses with the
same lines and labels, the same regions, the same symbols in the same order, and as many problems,
the same in family and place one by one. -/
theorem assemble_ignores_case (settings : Settings) (source source' file : String)
    (h : source.toList.map Char.toUpper = source'.toList.map Char.toUpper) :
    (∃ fault, assemble settings source file = .error fault ∧
        assemble settings source' file = .error fault) ∨
      ∃ a a', assemble settings source file = .ok a ∧ assemble settings source' file = .ok a' ∧
        a'.emissions = a.emissions ∧ a'.regions = a.regions ∧ a'.symbols = a.symbols ∧
        a'.problems.map (fun d => (d.category, d.location)) =
          a.problems.map (fun d => (d.category, d.location)) := by
  rcases tokenize_capitals h (if file = "" then settings.file else file) 1 with
    ⟨fault, hfault, hfault'⟩ | ⟨tokens, tokens', htokens, htokens', houtlines⟩
  · exact .inl ⟨fault, assemble_of_tokenize_error hfault, assemble_of_tokenize_error hfault'⟩
  right
  obtain ⟨a, hrun⟩ : ∃ a, assemble settings source file = .ok a := assemble_of_tokenize htokens
  obtain ⟨a', hrun'⟩ : ∃ a', assemble settings source' file = .ok a' :=
    assemble_of_tokenize htokens'
  obtain ⟨ts, hts, p, hemissions, hregions, hproblems, hsymbols, -⟩ := assemble_stages hrun
  obtain ⟨ts', hts', p', hemissions', hregions', hproblems', hsymbols', -⟩ := assemble_stages hrun'
  -- the stages of both runs start from the tokens found above
  obtain rfl : ts = tokens := Except.ok.inj (hts.symm.trans htokens)
  obtain rfl : ts' = tokens' := Except.ok.inj (hts'.symm.trans htokens')
  obtain ⟨hitems, hreports⟩ :=
    respelled_parse (if file = "" then settings.file else file) houtlines
  -- the names are kept, so the second listing is the first one up to the words of its reports
  obtain ⟨q, hlisting⟩ := p.renamed Function.injective_id hitems
  have hsame : p'.listing = q.listing := Except.ok.inj (p'.assemble_eq.symm.trans q.assemble_eq)
  have hlisted : p'.listing.emissions = p.listing.emissions := by
    rw [hsame, hlisting.emissions_eq]
    exact List.map_id'' Emission.rename_id _
  have hbound : p'.listing.machine.symbols = p.listing.machine.symbols := by
    rw [hsame, hlisting.machine_eq]
    exact SymbolTable.rename_id _
  have hgists : p'.listing.reports.map Diagnostic.gist = p.listing.reports.map Diagnostic.gist := by
    rw [hsame, hlisting.gists_eq]
  refine ⟨a, a', hrun, hrun', ?_, ?_, ?_, ?_⟩
  · rw [hemissions', hemissions, hlisted]
  · rw [hregions', hregions, hlisted]
  · rw [hsymbols', hsymbols, hbound]
  · rw [hproblems', hproblems]
    -- the reports of reading come first and those of the walk behind them, in both runs
    refine gist_byLine ?_
    rw [List.map_append, List.map_append, hreports, hgists]

/-- A label, a number and a malformed number in letters of either case, and a string where none
belongs. -/
theorem assemble_ignores_case_mixed :
    ∃ a a', assemble { origin := 0x8000 } "x: Jp X\ncall $aB\nrst $0g\nPush \"q\"" = .ok a ∧
      assemble { origin := 0x8000 } "X: jP x\nCALL $Ab\nRST $0G\npush \"Q\"" = .ok a' ∧
      a'.emissions = a.emissions ∧ a'.regions = a.regions ∧ a'.symbols = a.symbols ∧
      a'.emissions.map (fun e => (e.address, e.data, e.label)) =
        [(0x8000, [0xC3, 0x00, 0x80], some "X"), (0x8003, [0xCD, 0xAB, 0x00], none)] ∧
      a'.problems.map (fun d => (d.category, d.location)) =
        [(.lexical, some ⟨"<input>", 3, 5⟩), (.addressingMode, some ⟨"<input>", 4, 1⟩)] := by
  have hvalue : (assemble { origin := 0x8000 }
      "x: Jp X\ncall $aB\nrst $0g\nPush \"q\"").toOption.map (fun a =>
        (a.emissions.map (fun e => (e.address, e.data, e.label)),
          a.problems.map fun d => (d.category, d.location))) =
      some ([(0x8000, [0xC3, 0x00, 0x80], some "X"), (0x8003, [0xCD, 0xAB, 0x00], none)],
        [(.lexical, some ⟨"<input>", 3, 5⟩), (.addressingMode, some ⟨"<input>", 4, 1⟩)]) := by
    cbv
  obtain ⟨a, hrun, hvalue⟩ := exists_ok_of_toOption hvalue
  simp only [Prod.mk.injEq] at hvalue
  obtain ⟨hemissions, hproblems⟩ := hvalue
  rcases assemble_ignores_case { origin := 0x8000 } "x: Jp X\ncall $aB\nrst $0g\nPush \"q\""
      "X: jP x\nCALL $Ab\nRST $0G\npush \"Q\"" "" (by decide +kernel) with
    ⟨fault, hfault, -⟩ | ⟨b, a', hrun₀, hrun', hsame, hregions, hsymbols, hgists⟩
  · rw [hrun] at hfault
    cases hfault
  · obtain rfl : b = a := Except.ok.inj (hrun₀.symm.trans hrun)
    refine ⟨b, a', hrun, hrun', hsame, hregions, hsymbols, ?_, hgists.trans hproblems⟩
    rw [hsame, hemissions]

end CrossAssembler
