import CrossAssembler.Proofs.Program.Account
import CrossAssembler.Proofs.Program.Drift

/-!
# Statements that can be deleted

A statement that the survey already refuses, or of which something was left out in reading, is as
good as absent: the program without it gives the same bytes at the same addresses, the same symbols
and the same reports, but for the one report on the statement itself.

The two programs are walked side by side. Their stops are the same, except that an empty statement
stands in place of the deleted one, and that the deleted one does no more than an empty one rests on
two facts.

* **One statement** (`Statement.idle_final`): what is idle in the survey is idle in the final walk,
  since what the final walk encodes, the survey has encoded.
* **A whole walk** (`Walk.SameOutput.along`): walks that differ in their reports and notes alone stay
  so over any stops.
-/

namespace CrossAssembler

/-! ### Idle statements -/

/-- An effect that leaves all but the reports as it was. A statement with such an effect might as well
not be there, as far as bytes and symbols go. -/
inductive Effect.Idle : Effect → Prop where
  | nothing : Idle .nothing
  | report (d : Diagnostic) : Idle (.report d)

namespace Statement

variable {m m' : Machine} {items : List Item} {e e' : Effect}

/-- **A statement that is idle in the survey is idle in the final walk**, though it may be reported
for another reason. -/
theorem idle_final (hcpu : m'.cpu = m.cpu) (he : effect .survey m items = .ok e) (hidle : e.Idle)
    (he' : effect .final m' items = .ok e') : e'.Idle := by
  rcases effect_cases items with ⟨head, rest, hinstruction⟩ | hplain
  · rw [hinstruction.effect_eq] at he he'
    rcases outcome_cases he' with ⟨data', hdata', rfl⟩ | ⟨d', -, rfl⟩
    · -- bytes in the final walk would have been bytes in the survey
      obtain ⟨data, hdata, -⟩ :=
        instruction_survey hcpu (List.forall₂_same.2 fun i _ => .refl i) hdata'
      rw [hdata] at he
      cases he
      cases hidle
    · exact .report d'
  · -- the effect of any other statement depends on its items alone
    rw [hplain] at he he'
    cases he
    cases he'
    exact hidle

/-- An idle statement is passed over if something of it was left out, and reported once if not. -/
theorem reports_of_idle (hne : items ≠ []) (he : effect .final m items = .ok e) (hidle : e.Idle) :
    ((∃ i ∈ items, i.kind = .invalid) → e.reports = []) ∧
      ((∀ i ∈ items, i.kind ≠ .invalid) → ∃ d, e = .report d ∧ e.reports = [d]) := by
  -- nothing is done exactly for an empty statement and for one of which something was left out
  have hnothing := @effect_nothing_iff .final m items
  rw [he, Except.ok.injEq] at hnothing
  constructor
  · intro hinvalid
    rw [hnothing.2 (.inr hinvalid)]
    rfl
  · intro hvalid
    cases hidle with
    | nothing =>
      rcases hnothing.1 rfl with hempty | ⟨i, hi, hinvalid⟩
      · exact absurd hempty hne
      · exact absurd hinvalid (hvalid i hi)
    | report d => exact ⟨d, rfl, rfl⟩

end Statement

/-! ### Walks with the same output -/

namespace Walk

/-- Walks that differ in their reports and notes alone. Neither is ever read by a walk, so such walks go
on alike. -/
structure SameOutput (w w' : Walk) : Prop where
  machine_eq : w'.machine = w.machine
  label_eq : w'.label = w.label
  emissions_eq : w'.emissions = w.emissions

theorem bind_label (pass : Pass) (w : Walk) (item : Item) : (w.bind pass item).label = item.text := rfl

/-- The survey keeps no reports, so an idle statement leaves no trace in it. -/
theorem apply_survey_of_idle (w : Walk) {e : Effect} (hidle : e.Idle) : w.apply .survey e = w := by
  cases hidle <;> rfl

theorem sameOutput_apply_of_idle (w : Walk) {e : Effect} (hidle : e.Idle) :
    (w.apply .final e).SameOutput w := by
  cases hidle <;> exact ⟨rfl, rfl, rfl⟩

namespace SameOutput

variable {pass : Pass} {w w' u : Walk}

theorem bind (h : w.SameOutput w') (item : Item) :
    (w.bind pass item).SameOutput (w'.bind pass item) := by
  refine ⟨?_, ?_, ?_⟩
  · rw [bind_machine, bind_machine, h.machine_eq]
  · rw [bind_label, bind_label]
  · rw [bind_emissions, bind_emissions, h.emissions_eq]

theorem apply (h : w.SameOutput w') (e : Effect) :
    (w.apply pass e).SameOutput (w'.apply pass e) := by
  obtain ⟨hmachine, hlabel, hemissions⟩ := h
  have hmachines : (w'.apply pass e).machine = (w.apply pass e).machine := by
    rw [apply_machine, apply_machine, hmachine]
  -- an emission takes its address and label from the walk, and both are the same in the two
  cases e with
  | nothing => exact ⟨hmachine, hlabel, hemissions⟩
  | emit place data =>
    refine ⟨hmachines, rfl, ?_⟩
    change w'.emissions.push _ = w.emissions.push _
    rw [hmachine, hlabel, hemissions]
  | moveTo line address =>
    refine ⟨hmachines, rfl, ?_⟩
    cases pass <;> exact hemissions
  | choose cpu => exact ⟨hmachines, hlabel, hemissions⟩
  | report d =>
    refine ⟨hmachines, ?_, ?_⟩
    · change (w'.report pass d).label = (w.report pass d).label
      rw [report_label, report_label, hlabel]
    · change (w'.report pass d).emissions = (w.report pass d).emissions
      rw [report_emissions, report_emissions, hemissions]

/-- One stop: both walks get past it or neither does. -/
theorem act (h : w.SameOutput w') {s : Stop} (hact : w.act pass s = .ok u) :
    ∃ u', w'.act pass s = .ok u' ∧ u.SameOutput u' := by
  cases s with
  | label item =>
    cases hact
    exact ⟨_, rfl, h.bind item⟩
  | statement items =>
    obtain ⟨e, he, rfl⟩ := act_statement_iff.1 hact
    -- an effect is found from the machine, which is the same
    have he' : Statement.effect pass w'.machine items = .ok e := by
      rw [h.machine_eq, he]
    exact ⟨_, act_statement_iff.2 ⟨e, he', rfl⟩, h.apply e⟩

/-- **A whole walk.** Where one of the walks arrives, the other does, with the same output. -/
theorem along (h : w.SameOutput w') {stops : List Stop} (halong : w.along pass stops = .ok u) :
    ∃ u', w'.along pass stops = .ok u' ∧ u.SameOutput u' := by
  -- the invariant is the output so far; the reports of the two walks may differ from the start
  induction stops generalizing w w' with
  | nil =>
    cases halong
    exact ⟨w', rfl, h⟩
  | cons s stops ih =>
    obtain ⟨v, hact, halong⟩ := along_cons_iff.1 halong
    obtain ⟨v', hact', hv⟩ := h.act hact
    obtain ⟨u', halong', hu⟩ := ih hv halong
    exact ⟨u', along_cons_iff.2 ⟨v', hact', halong'⟩, hu⟩

end SameOutput

/-- An empty statement is walked over without a trace. -/
theorem along_empty_statement (pass : Pass) (w : Walk) (stops : List Stop) :
    w.along pass (.statement [] :: stops) = w.along pass stops := rfl

end Walk

/-! ### Statements between other items -/

namespace Line

/-- A separator keeps the rows on its two sides apart. -/
theorem rows_append_separator (front back : List Item) {i : Item} (hi : i.kind = .separator) :
    rows (front ++ i :: back) = rows front ++ rows back := by
  rw [rows_eq_splitOnP (front ++ i :: back), rows_eq_splitOnP front, rows_eq_splitOnP back]
  exact List.splitOnP_append_cons front back (beq_iff_eq.2 hi)

/-- Rows in front of a line do not depend on what the line holds. -/
theorem exists_rows_ahead {front : List Item} (hfront : ∀ i ∈ front.getLast?, i.kind = .separator) :
    ∃ ahead, ∀ items, rows (front ++ items) = ahead ++ rows items := by
  -- rows are cut at separators, so what ends in one is cut apart from what follows
  rcases List.eq_nil_or_concat front with rfl | ⟨start, i, rfl⟩
  · exact ⟨[], fun _ => rfl⟩
  · rw [List.concat_eq_append] at hfront ⊢
    have hseparator := hfront i List.getLast?_concat
    refine ⟨rows start, fun items => ?_⟩
    rw [List.append_assoc, List.singleton_append, rows_append_separator start items hseparator]

/-- Nor do the rows behind it. -/
theorem exists_rows_behind {back : List Item} (hback : ∀ i ∈ back.head?, i.kind = .separator) :
    ∃ behind, ∀ items, rows (items ++ back) = rows items ++ behind := by
  cases back with
  | nil =>
    refine ⟨[], fun items => ?_⟩
    rw [List.append_nil, List.append_nil]
  | cons i back => exact ⟨rows back, fun items => rows_append_separator items back (hback i rfl)⟩

/-- Items without a separator are one row. -/
theorem rows_eq_singleton {items : List Item} (h : ∀ i ∈ items, i.kind ≠ .separator) :
    rows items = [items] := by
  rw [rows_eq_splitOnP]
  exact List.splitOnP_eq_singleton fun i hi => beq_eq_false_iff_ne.2 (h i hi)

/-- Labels with a statement behind them. -/
theorem ofRow_labels {labels statement : List Item} (hlabels : ∀ i ∈ labels, i.kind = .label)
    (hstatement : ∀ i ∈ statement.head?, i.kind ≠ .label) :
    ofRow (labels ++ statement) = ⟨labels, statement⟩ := by
  have hall : ∀ i ∈ labels, (i.kind == .label) = true := fun i hi => beq_iff_eq.2 (hlabels i hi)
  have htake := List.takeWhile_eq_self_iff.2 hall
  have hdrop := List.dropWhile_eq_nil_iff.2 hall
  cases statement with
  | nil => rw [List.append_nil, ofRow, htake, hdrop]
  | cons head rest =>
    rw [ofRow_append labels rest (hstatement head rfl), htake, hdrop, List.nil_append]

end Line

/-- The stops of a program, with those of one row told apart. -/
theorem Stop.ofItems_of_rows {items row labels statement : List Item} {ahead behind : List (List Item)}
    (hrows : Line.rows items = ahead ++ row :: behind) (hrow : Line.ofRow row = ⟨labels, statement⟩) :
    ofItems items =
      ahead.flatMap (fun row => ofLine (.ofRow row)) ++ labels.map label ++
        .statement statement :: behind.flatMap fun row => ofLine (.ofRow row) := by
  unfold ofItems Line.ofItems
  rw [hrows, List.flatMap_map, List.flatMap_append, List.flatMap_cons, hrow, ofLine]
  simp only [List.append_assoc, List.singleton_append]

namespace Statement

/-- **A statement in its program**: it starts with the first item of a line that is no label, and ends
where the line ends. -/
structure Between (front statement back : List Item) : Prop where
  starts : ∃ head rest, statement = head :: rest ∧ head.kind ≠ .label
  within : ∀ i ∈ statement, i.kind ≠ .separator
  labelled : ∃ before labels, front = before ++ labels ∧
    (∀ i ∈ before.getLast?, i.kind = .separator) ∧ ∀ i ∈ labels, i.kind = .label
  ended : ∀ i ∈ back.head?, i.kind = .separator

/-- A statement that the survey reports, after the items in front of it. -/
def Refused (m : Machine) (front statement : List Item) : Prop :=
  ∃ w d, Walk.run .survey m (Line.ofItems front) = .ok w ∧
    effect .survey w.machine statement = .ok (.report d)

/-- **The stops around a statement.** If it is deleted, an empty statement stands in its place. -/
theorem Between.exists_stops {front statement back : List Item} (h : Between front statement back) :
    ∃ before after,
      Stop.ofItems (front ++ statement ++ back) = before ++ .statement statement :: after ∧
        Stop.ofItems (front ++ back) = before ++ .statement [] :: after ∧
        Stop.ofItems front = before ++ [.statement []] := by
  obtain ⟨⟨head, rest, hstarts, hhead⟩, hwithin, ⟨lines, labels, rfl, hlines, hlabels⟩, hended⟩ := h
  obtain ⟨ahead, hahead⟩ := Line.exists_rows_ahead hlines
  obtain ⟨behind, hbehind⟩ := Line.exists_rows_behind hended
  have hlabel : ∀ i ∈ labels, i.kind ≠ .separator := by
    intro i hi hseparator
    rw [hlabels i hi] at hseparator
    cases hseparator
  -- the labels and the statement are one row, and without the statement the labels are
  have hrow : ∀ i ∈ labels ++ statement, i.kind ≠ .separator := by
    intro i hi
    rcases List.mem_append.1 hi with hi | hi
    · exact hlabel i hi
    · exact hwithin i hi
  have hfull : Line.ofRow (labels ++ statement) = ⟨labels, statement⟩ := by
    refine Line.ofRow_labels hlabels ?_
    rw [hstarts]
    rintro i ⟨⟩
    exact hhead
  have hbare : Line.ofRow labels = ⟨labels, []⟩ := by
    have hnone := @Line.ofRow_labels labels [] hlabels (by rintro i ⟨⟩)
    rwa [List.append_nil] at hnone
  have hrows : Line.rows (lines ++ labels ++ statement ++ back) =
      ahead ++ (labels ++ statement) :: behind := by
    rw [List.append_assoc lines, hbehind, hahead, Line.rows_eq_singleton hrow, List.append_assoc,
      List.singleton_append]
  have hrows' : Line.rows (lines ++ labels ++ back) = ahead ++ labels :: behind := by
    rw [hbehind, hahead, Line.rows_eq_singleton hlabel, List.append_assoc, List.singleton_append]
  have hrowsFront : Line.rows (lines ++ labels) = ahead ++ [labels] := by
    rw [hahead, Line.rows_eq_singleton hlabel]
  exact ⟨_, _, Stop.ofItems_of_rows hrows hfull, Stop.ofItems_of_rows hrows' hbare,
    Stop.ofItems_of_rows hrowsFront hbare⟩

end Statement

/-! ### Programs without a statement -/

/-- **Both walks without an idle statement.** The survey ends as before. The final walk ends with the
same output, and with the reports of the statement gone. -/
theorem Passes.exists_deleted {m : Machine} {items items' statement : List Item}
    {before after : List Stop} (p : Passes m items)
    (hstops : Stop.ofItems items = before ++ .statement statement :: after)
    (hstops' : Stop.ofItems items' = before ++ .statement [] :: after)
    (hidle : ∀ w e, Walk.along .survey { machine := m } before = .ok w →
      Statement.effect .survey w.machine statement = .ok e → e.Idle) :
    ∃ (p' : Passes m items') (w : Walk) (e : Effect) (reports : List Diagnostic),
      p'.listing.machine = p.listing.machine ∧ p'.listing.emissions = p.listing.emissions ∧
        Walk.along .final { machine := { m with symbols := p.listing.machine.symbols } } before =
          .ok w ∧
        Statement.effect .final w.machine statement = .ok e ∧ e.Idle ∧
        p.listing.reports = w.reports.toList ++ e.reports ++ reports ∧
        p'.listing.reports = w.reports.toList ++ reports := by
  have hsurvey := p.survey_along
  have hfinal := p.final_along
  rw [hstops] at hsurvey hfinal
  obtain ⟨v, v', hbefore, hact, hafter, -⟩ := Walk.exists_split hsurvey
  obtain ⟨w, w', hbefore', hact', hafter', -⟩ := Walk.exists_split hfinal
  obtain ⟨e, he, rfl⟩ := Walk.act_statement_iff.1 hact
  obtain ⟨e', he', rfl⟩ := Walk.act_statement_iff.1 hact'
  have hquiet : e.Idle := hidle v e hbefore he
  -- the processor is chosen by directives alone, which do the same in both walks
  have hcpu : w.machine.cpu = v.machine.cpu := by
    refine Walk.cpu_along ?_ hbefore hbefore'
    rfl
  have hquiet' : e'.Idle := Statement.idle_final hcpu he hquiet he'
  -- the survey has not noticed the statement, so it hands on the same symbols
  rw [Walk.apply_survey_of_idle v hquiet] at hafter
  have hsurvey' : Walk.run .survey m (Line.ofItems items') = .ok p.survey := by
    rw [Walk.run_eq_along, hstops', Walk.along_append, hbefore]
    exact (Walk.along_empty_statement .survey v after).trans hafter
  -- the final walk goes on from behind the statement with the same output
  obtain ⟨final, halong, houtput⟩ := (Walk.sameOutput_apply_of_idle w hquiet').along hafter'
  have hfinal' : Walk.run .final { m with symbols := p.survey.machine.symbols }
      (Line.ofItems items') = .ok final := by
    rw [Walk.run_eq_along, hstops', Walk.along_append, hbefore']
    exact (Walk.along_empty_statement .final w after).trans halong
  -- the rest is visited with the same machines, and so has the same reports
  have hvisits : (w.apply .final e').visits .final after = w.visits .final after :=
    Walk.visits_eq (Walk.sameOutput_apply_of_idle w hquiet').machine_eq.symm hafter' halong
  refine ⟨⟨p.survey, final, hsurvey', hfinal'⟩, w, e',
    (w.visits .final after).flatMap Visit.reports, houtput.machine_eq,
    congrArg Array.toList houtput.emissions_eq, ?_, he', hquiet', ?_, Walk.reports_of_along halong⟩
  · rw [p.symbols_eq]
    exact hbefore'
  · calc p.listing.reports
        = (w.apply .final e').reports.toList ++
            ((w.apply .final e').visits .final after).flatMap Visit.reports :=
          Walk.reports_of_along hafter'
      _ = w.reports.toList ++ e'.reports ++ (w.visits .final after).flatMap Visit.reports := by
          rw [Walk.apply_reports, hvisits]

/-- **A statement without consequences.** Let a parsed program hold a statement of which something was
left out, or that the survey refuses. From every address and processor the program assembles with and
without the statement, to the same emissions and the same machine. The reports are those of the walk
in front of the statement, then the one on the statement, if nothing of it was left out, and then the
others; without the statement its report is gone. -/
theorem refused_statement_deletable (file : String) (tokens : List Token) (address : Int) (cpu : Cpu)
    (front statement back : List Item)
    (hitems : (parse file tokens).items = front ++ statement ++ back)
    (hbetween : Statement.Between front statement back)
    (hbad : (∃ i ∈ statement, i.kind = .invalid) ∨
      Statement.Refused { address := address, cpu := cpu } front statement) :
    ∃ listing listing' : Listing, ∃ (w : Walk) (e : Effect) (reports : List Diagnostic),
      Machine.assemble { address := address, cpu := cpu } (front ++ statement ++ back) =
          .ok listing ∧
        Machine.assemble { address := address, cpu := cpu } (front ++ back) = .ok listing' ∧
        listing'.emissions = listing.emissions ∧
        listing'.machine = listing.machine ∧
        Walk.run .final { address := address, cpu := cpu, symbols := listing.machine.symbols }
            (Line.ofItems front) = .ok w ∧
        Statement.effect .final w.machine statement = .ok e ∧
        listing.reports = w.reports.toList ++ e.reports ++ reports ∧
        listing'.reports = w.reports.toList ++ reports ∧
        ((∃ i ∈ statement, i.kind = .invalid) → e.reports = []) ∧
        ((∀ i ∈ statement, i.kind ≠ .invalid) → ∃ d, e = .report d ∧ e.reports = [d]) := by
  obtain ⟨before, after, hstops, hstops', hfront⟩ := hbetween.exists_stops
  obtain ⟨head, rest, hstarts, -⟩ := hbetween.starts
  have hne : statement ≠ [] := hstarts ▸ List.cons_ne_nil head rest
  obtain ⟨p⟩ := @Passes.exists_passes { address := address, cpu := cpu } rfl file tokens
  rw [hitems] at p
  -- the walk over the items in front ends with the labels of the statement's own line
  have hrun : ∀ (pass : Pass) (m : Machine),
      Walk.run pass m (Line.ofItems front) = Walk.along pass { machine := m } before := by
    intro pass m
    rw [Walk.run_eq_along, hfront, Walk.along_append]
    cases Walk.along pass { machine := m } before <;> rfl
  -- either reason for deleting the statement makes it idle in the survey
  have hidle : ∀ w e, Walk.along .survey { machine := { address := address, cpu := cpu } } before =
      .ok w → Statement.effect .survey w.machine statement = .ok e → e.Idle := by
    intro w e hw he
    rcases hbad with hinvalid | ⟨w', d, hw', hreport⟩
    · rw [Statement.effect_nothing_iff.2 (.inr hinvalid)] at he
      cases he
      exact .nothing
    · rw [hrun, hw] at hw'
      cases hw'
      rw [hreport] at he
      cases he
      exact .report d
  obtain ⟨p', w, e, reports, hmachine, hemissions, hw, he, hquiet, hreports, hreports'⟩ :=
    p.exists_deleted hstops hstops' hidle
  obtain ⟨hinvalid, hvalid⟩ := Statement.reports_of_idle hne he hquiet
  exact ⟨p.listing, p'.listing, w, e, reports, p.assemble_eq, p'.assemble_eq, hemissions, hmachine,
    (hrun _ _).trans hw, he, hreports, hreports', hinvalid, hvalid⟩

/-- A line, and the label of the next one. -/
def nopAndLabel : List Item :=
  [.named .mnemonic "NOP" ⟨"p", 1, 1⟩, { kind := .separator, location := ⟨"p", 1, 4⟩ },
    .named .label "X" ⟨"p", 2, 1⟩]

/-- A load that lacks its second operand. -/
def loadOfNothing : List Item :=
  [.named .mnemonic "LD" ⟨"p", 2, 4⟩, .named .register8 "A" ⟨"p", 2, 7⟩]

/-- Two more lines, the second with a value out of range. -/
def retAndRestart : List Item :=
  [{ kind := .separator, location := ⟨"p", 2, 8⟩ }, .named .mnemonic "RET" ⟨"p", 3, 1⟩,
    { kind := .separator, location := ⟨"p", 3, 4⟩ }, .named .mnemonic "RST" ⟨"p", 4, 1⟩,
    .ofNumber 9 ⟨"p", 4, 5⟩]

/-- The load can be deleted, and one report goes with it. -/
theorem refused_statement_deletable_load :
    ∃ listing listing' : Listing,
      Machine.assemble {} (nopAndLabel ++ loadOfNothing ++ retAndRestart) = .ok listing ∧
        Machine.assemble {} (nopAndLabel ++ retAndRestart) = .ok listing' ∧
        listing'.emissions = listing.emissions ∧ listing'.machine = listing.machine ∧
        listing.reports.length = listing'.reports.length + 1 := by
  have hparse : (parse "p" ((tokenize "NOP\nX: LD A\nRET\nRST 9" "p").toOption.getD [])).items =
      nopAndLabel ++ loadOfNothing ++ retAndRestart := by
    decide +kernel
  have hbetween : Statement.Between nopAndLabel loadOfNothing retAndRestart :=
    { starts := ⟨_, _, rfl, by decide⟩
      within := by decide
      labelled := ⟨nopAndLabel.take 2, nopAndLabel.drop 2, rfl, by decide, by decide⟩
      ended := by decide }
  have hrefused : Statement.Refused {} nopAndLabel loadOfNothing := ⟨_, _, rfl, rfl⟩
  obtain ⟨listing, listing', w, e, reports, hwith, hwithout, hemissions, hmachine, -, -, hreports,
      hreports', -, hvalid⟩ :=
    refused_statement_deletable "p" _ 0 .z80 nopAndLabel loadOfNothing retAndRestart hparse hbetween
      (.inr hrefused)
  refine ⟨listing, listing', hwith, hwithout, hemissions, hmachine, ?_⟩
  obtain ⟨d, -, hd⟩ := hvalid (by decide)
  rw [hreports, hreports', hd]
  simp only [List.length_append, List.length_singleton]
  omega

end CrossAssembler
