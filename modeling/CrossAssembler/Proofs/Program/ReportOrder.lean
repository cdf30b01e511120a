import CrossAssembler.Proofs.Item.Order
import CrossAssembler.Proofs.Program.Account
import CrossAssembler.Proofs.Program.Founded
import CrossAssembler.Proofs.Region.Image

/-!
# The order of the problems of a run

Problems are reported by two stages, by reading the source and by the final walk, and put together by
their lines. Each stage reports in the order of the text, and sorting by lines keeps that order. But the
columns are never compared: on a line with reports of both stages, those of reading come first. There the
statement was dropped, so all that the walk has reported are labels in front of it, and these reports stand
in front of the ones that they follow.

* **Sorting** (`filter_byLine`): the problems of a line keep their order.
* **Reading** (`exists_invalid_of_report`): every report of reading is on the line of an invalid item, and
  not in front of it.
* **Walking** (`Account.Closes.places_sublist`, `reports_sublist`): the reports of a walk stand at items, in
  order.
* **Both** (`shared_line`): what reports of both stages on one line look like.
-/

namespace CrossAssembler

/-! ### Sorting -/

theorem Diagnostic.line_trans (a b c : Diagnostic) (hab : decide (a.line ≤ b.line) = true)
    (hbc : decide (b.line ≤ c.line) = true) : decide (a.line ≤ c.line) = true := by
  rw [decide_eq_true_eq] at hab hbc ⊢
  exact Int.le_trans hab hbc

theorem Diagnostic.line_total (a b : Diagnostic) :
    (decide (a.line ≤ b.line) || decide (b.line ≤ a.line)) = true := by
  rw [Bool.or_eq_true, decide_eq_true_eq, decide_eq_true_eq]
  exact Int.le_total _ _

theorem pairwise_byLine (ds : List Diagnostic) : (byLine ds).Pairwise fun d e => d.line ≤ e.line :=
  (List.pairwise_mergeSort Diagnostic.line_trans Diagnostic.line_total ds).imp of_decide_eq_true

/-- **Problems of one line keep their order.** Problems are sorted by a stable sort, and the problems of
one line are equal to it. -/
theorem filter_byLine (ds : List Diagnostic) (k : Int) :
    (byLine ds).filter (·.line = k) = ds.filter (·.line = k) := by
  -- problems of one line are sorted as they are
  have hsame : (ds.filter (·.line = k)).Pairwise fun a b => decide (a.line ≤ b.line) = true := by
    refine List.pairwise_of_forall_mem_list fun a ha b hb => ?_
    have ha := of_decide_eq_true (List.mem_filter.1 ha).2
    have hb := of_decide_eq_true (List.mem_filter.1 hb).2
    exact decide_eq_true (by omega)
  -- sorting does not part what is sorted already, and it loses nothing
  have hsublist := (List.sublist_mergeSort Diagnostic.line_trans Diagnostic.line_total hsame
    List.filter_sublist).filter (·.line = k)
  rw [List.filter_filter] at hsublist
  simp only [Bool.and_self] at hsublist
  refine (hsublist.eq_of_length ?_).symm
  exact ((List.mergeSort_perm ds _).filter _).length_eq.symm

/-- Problems that are alike in some view, one by one, are alike in it when they are sorted, if the view
shows their lines. -/
theorem map_byLine {β : Type} (view : Diagnostic → β) (line : β → Int)
    (hline : ∀ d, line (view d) = d.line) {ds ds' : List Diagnostic} (h : ds.map view = ds'.map view) :
    (byLine ds).map view = (byLine ds').map view := by
  -- sorting looks at lines only, so it can be done on the views
  have hsort : ∀ ds : List Diagnostic, (byLine ds).map view =
      (ds.map view).mergeSort fun a b => line a ≤ line b := by
    intro ds
    refine List.map_mergeSort fun a _ b _ => ?_
    rw [hline, hline]
  rw [hsort, hsort, h]

/-! ### Places of reports -/

namespace Diagnostic

/-- A report that stands in front of another one in the text. -/
def Precedes (d e : Diagnostic) : Prop :=
  ∃ l l', d.location = some l ∧ e.location = some l' ∧ l.Before l'

/-- A report that does not stand behind another one in the text. -/
def NotAfter (d e : Diagnostic) : Prop :=
  ∃ l l', d.location = some l ∧ e.location = some l' ∧ l.NotAfter l'

theorem Precedes.notAfter {d e : Diagnostic} (h : d.Precedes e) : d.NotAfter e := by
  obtain ⟨l, l', hl, hl', hbefore⟩ := h
  exact ⟨l, l', hl, hl', hbefore.notAfter⟩

/-- What stands in front of a report does not stand behind it. -/
theorem Precedes.not_notAfter {d e : Diagnostic} (h : d.Precedes e) : ¬ e.NotAfter d := by
  rintro ⟨l', l, hl', hl, hnot⟩
  obtain ⟨k, k', hk, hk', hbefore⟩ := h
  obtain rfl : k = l := Option.some.inj (hk.symm.trans hl)
  obtain rfl : k' = l' := Option.some.inj (hk'.symm.trans hl')
  exact (hbefore.trans_notAfter hnot).ne rfl

theorem line_of_location {d : Diagnostic} {l : Location} (h : d.location = some l) : d.line = l.line := by
  rw [line, h]

end Diagnostic

/-- Reports at places that grow are in the order of the text. -/
theorem pairwise_of_places {ds : List Diagnostic} {places : List Location}
    (h : (ds.map Diagnostic.location).Sublist (places.map some))
    (hplaces : places.Pairwise Location.Before) : ds.Pairwise Diagnostic.Precedes := by
  -- places of problems are optional, so the order is lifted to such places
  let Before (o o' : Option Location) : Prop := ∃ l l', o = some l ∧ o' = some l' ∧ l.Before l'
  have hsome : (places.map some).Pairwise Before := by
    rw [List.pairwise_map]
    exact hplaces.imp fun hbefore => ⟨_, _, rfl, rfl, hbefore⟩
  have hreports := hsome.sublist h
  rw [List.pairwise_map] at hreports
  exact hreports

/-! ### Reading -/

/-- The reports of reading are in the order of the text. -/
theorem pairwise_read {start : Location} (hstart : 0 < start.line) (cs : List Char) (file : String) :
    (parse file (locate start (pieces cs))).reports.Pairwise Diagnostic.Precedes := by
  obtain ⟨us, hus, hsublist⟩ := exists_pointsTo_of_text start cs file
  -- each fault is at a token of its own, and the tokens are met in the order of the text
  have hplaces := pairwise_of_isChain (isChain_spots (whole_of_mem_pieces cs) start) hsublist
  -- a token states the place where it starts
  have hstated : us.map (fun u => some u.token.location) = (us.map Spot.place).map some := by
    rw [List.map_map]
    refine List.map_congr_left fun u hu => congrArg some ?_
    exact location_of_mem_spots (.inl hstart) (hsublist.mem hu)
  have hlocations := (map_location_of_pointsTo hus).trans hstated
  rw [← reports_eq_faults] at hlocations
  refine pairwise_of_places ?_ hplaces
  rw [hlocations]

/-- **Every report of reading is on an invalid item**: on its line, and not in front of it. -/
theorem exists_invalid_of_report {start : Location} (hstart : 0 < start.line) (cs : List Char)
    (file : String) :
    ∀ d ∈ (parse file (locate start (pieces cs))).reports,
      ∃ i ∈ (parse file (locate start (pieces cs))).items, i.kind = .invalid ∧
        ∃ l, d.location = some l ∧ i.ReportedAt l := by
  intro d hd
  obtain ⟨us, hus, hsublist⟩ := exists_pointsTo_of_text start cs file
  rw [reports_eq_faults] at hd
  obtain ⟨fault, hfault, rfl⟩ := List.mem_map.1 hd
  -- the token that the report is at
  obtain ⟨u, hu, hplace, hline, hnot⟩ : ∃ u ∈ us, PointsTo fault u := by
    obtain ⟨k, hk, rfl⟩ := List.getElem_of_mem hfault
    have hk' : k < us.length := hus.length_eq ▸ hk
    exact ⟨us[k], List.getElem_mem hk', hus.get hk hk'⟩
  have hstated := location_of_mem_spots (.inl hstart) (hsublist.mem hu)
  -- an invalid item stands where reading its statement has failed
  refine ⟨{ kind := .invalid, location := fault.1 }, ?_, rfl, u.token.location, hplace, ?_⟩
  · have hinvalid := invalidItems_eq_faults file (locate start (pieces cs))
    have hmem : { kind := .invalid, location := fault.1 } ∈
        (parse file (locate start (pieces cs))).invalidItems := by
      rw [hinvalid]
      exact List.mem_map.2 ⟨fault, hfault, rfl⟩
    exact (List.mem_filter.1 hmem).1
  · rw [hstated]
    exact ⟨hline, hnot⟩

/-! ### Walking -/

theorem Line.labels_append_statement (row : List Item) : (ofRow row).labels ++ (ofRow row).statement = row :=
  List.takeWhile_append_dropWhile

/-- What is no label is part of the statement. -/
theorem Line.mem_statement {row : List Item} {i : Item} (hi : i ∈ row) (hkind : i.kind ≠ .label) :
    i ∈ (ofRow row).statement := by
  rw [← labels_append_statement row] at hi
  rcases List.mem_append.1 hi with hlabel | hstatement
  · have htaken := List.mem_takeWhile_imp (p := fun i : Item => i.kind == .label) hlabel
    exact absurd (beq_iff_eq.1 htaken) hkind
  · exact hstatement

namespace Account

variable {a : Account}

/-- A statement is reported once at most, at one of its items, and only if it is valid. -/
theorem Closes.reports_cases (h : a.Closes) :
    a.reports = [] ∨ ∃ d, a.reports = [d] ∧ (∀ i ∈ a.line.statement, i.kind ≠ .invalid) ∧
      ∃ i ∈ a.line.statement, d.location = some i.location := by
  obtain ⟨e, he, hfinish⟩ := h.exists_effect
  rw [reports_eq hfinish]
  -- only a report is a report; and one report is all that a statement gives
  cases e with
  | report d =>
    refine .inr ⟨d, rfl, fun i hi hinvalid => ?_, ?_⟩
    · -- an invalid statement has no effect at all
      rw [Statement.effect_nothing_iff.2 (.inr ⟨i, hi, hinvalid⟩)] at he
      cases he
    · obtain ⟨-, l, hl, hlocation⟩ := Statement.sound_of_effect he
      obtain ⟨i, hi, rfl⟩ := List.mem_map.1 hl
      exact ⟨i, hi, hlocation⟩
  | _ => exact .inl rfl

/-- **The reports on a line stand at items of the line, in order.** -/
theorem Closes.places_sublist (h : a.Closes) :
    ((a.duplicates ++ a.reports).map Diagnostic.location).Sublist
      ((a.line.labels ++ a.line.statement).map fun i => some i.location) := by
  rw [List.map_append, List.map_append]
  refine a.duplicates_sublist.1.append ?_
  rcases h.reports_cases with hnone | ⟨d, hd, -, i, hi, hlocation⟩
  · rw [hnone]
    exact List.nil_sublist _
  · rw [hd, List.map_singleton, hlocation]
    exact List.singleton_sublist.2 (List.mem_map.2 ⟨i, hi, rfl⟩)

/-- If something on a line is invalid, only labels of the line are reported. -/
theorem Closes.exists_label (h : a.Closes) {i : Item} (hi : i ∈ a.line.statement)
    (hinvalid : i.kind = .invalid) {d : Diagnostic} (hd : d ∈ a.duplicates ++ a.reports) :
    d.category = .duplicateSymbol ∧ ∃ k ∈ a.line.labels, d.location = some k.location := by
  -- the statement is dropped, so its line has no other reports than those on labels
  have hnone : a.reports = [] := by
    rcases h.reports_cases with hnone | ⟨-, -, hvalid, -⟩
    · exact hnone
    · exact absurd hinvalid (hvalid i hi)
  rw [hnone, List.append_nil] at hd
  obtain ⟨hplaces, hcategory⟩ := a.duplicates_sublist
  obtain ⟨k, hk, hlocation⟩ := List.mem_map.1 (hplaces.mem (List.mem_map_of_mem hd))
  exact ⟨hcategory d hd, k, hk, hlocation.symm⟩

end Account

section Walks

variable {m : Machine} {items : List Item} {listing : Listing}

/-- The reports of a run, line by line. -/
theorem Machine.reports_ledger (h : m.assemble items = .ok listing) :
    (m.ledger items).map Account.line = Line.ofItems items ∧ (∀ a ∈ m.ledger items, a.Closes) ∧
      listing.reports = (m.ledger items).flatMap fun a => a.duplicates ++ a.reports := by
  obtain ⟨w, w', hfinal, hledger, -, hsilent, -, hreports⟩ := Machine.exists_final h
  obtain ⟨hlines, hcloses⟩ := Walk.ledger_lines hfinal
  rw [hledger]
  refine ⟨hlines, hcloses, ?_⟩
  rw [hreports, Walk.reports_ledger hfinal, hsilent]
  rfl

/-- **The reports of a walk stand at items, in order.** -/
theorem reports_sublist (h : m.assemble items = .ok listing) :
    (listing.reports.map Diagnostic.location).Sublist (items.map fun i => some i.location) := by
  obtain ⟨hlines, hcloses, hreports⟩ := Machine.reports_ledger h
  let place (i : Item) : Option Location := some i.location
  -- the items of all lines are those of the rows, which are the items without separators
  have hrows : ((m.ledger items).flatMap fun a => (a.line.labels ++ a.line.statement).map place) =
      (Line.rows items).flatten.map place := by
    calc ((m.ledger items).flatMap fun a => (a.line.labels ++ a.line.statement).map place)
        = ((m.ledger items).map Account.line).flatMap
            fun line => (line.labels ++ line.statement).map place := by
          rw [List.flatMap_map]
      _ = (Line.rows items).flatMap fun row => row.map place := by
          rw [hlines, Line.ofItems, List.flatMap_map]
          refine List.flatMap_congr fun row _ => ?_
          rw [Line.labels_append_statement]
      _ = (Line.rows items).flatten.map place := by
          rw [List.map_flatten, List.flatMap_def]
  have hplaces :
      ((m.ledger items).flatMap fun a => (a.duplicates ++ a.reports).map Diagnostic.location).Sublist
        ((m.ledger items).flatMap fun a => (a.line.labels ++ a.line.statement).map place) :=
    List.Sublist.flatMap_right _ fun a ha => (hcloses a ha).places_sublist
  rw [hreports, List.map_flatMap]
  rw [hrows] at hplaces
  exact hplaces.trans ((Line.flatten_rows_sublist items).map place)

/-- Every report of a walk is on the line of a row. -/
theorem exists_row_of_report (h : m.assemble items = .ok listing) {e : Diagnostic}
    (he : e ∈ listing.reports) :
    ∃ row ∈ Line.rows items, ∃ a : Account, a.Closes ∧ a.line = Line.ofRow row ∧
      e ∈ a.duplicates ++ a.reports := by
  obtain ⟨hlines, hcloses, hreports⟩ := Machine.reports_ledger h
  rw [hreports] at he
  obtain ⟨a, ha, he⟩ := List.mem_flatMap.1 he
  have hmem : a.line ∈ Line.ofItems items := by
    rw [← hlines]
    exact List.mem_map_of_mem ha
  obtain ⟨row, hrow, hline⟩ := List.mem_map.1 hmem
  exact ⟨row, hrow, a, hcloses a ha, hline.symm, he⟩

/-- **Reports of both stages on one line.** If something invalid is on the line of a report of the walk,
the report is on a label of that line, in front of what is invalid. -/
theorem shared_line (h : m.assemble items = .ok listing) (hitems : items.Pairwise Item.Precedes)
    {i : Item} (hi : i ∈ items) (hinvalid : i.kind = .invalid) {e : Diagnostic} (he : e ∈ listing.reports)
    (hline : e.line = i.location.line) :
    e.category = .duplicateSymbol ∧ ∃ l, e.location = some l ∧ l.Before i.location := by
  obtain ⟨row, hrow, a, hcloses, hofRow, he⟩ := exists_row_of_report h he
  have hall : a.line.labels ++ a.line.statement = row := by
    rw [hofRow]
    exact Line.labels_append_statement row
  -- the row of the report is the row of what is invalid, because the lines are the same
  have hsame : i ∈ row := by
    have hkind : i.kind ≠ .separator := by
      rw [hinvalid]
      rintro ⟨⟩
    obtain ⟨row', hrow', hi'⟩ := Line.exists_row_of_mem hi hkind
    obtain ⟨k, hk, hlocation⟩ := List.mem_map.1 (hcloses.places_sublist.mem (List.mem_map_of_mem he))
    rw [hall] at hk
    have hline' : k.location.line = i.location.line := by
      rw [← hline, Diagnostic.line_of_location hlocation.symm]
    rw [Line.eq_row_of_line hitems hrow hrow' hk hi' hline']
    exact hi'
  -- so the statement was dropped, and the report is on a label in front of it
  have hstatement : i ∈ a.line.statement := by
    rw [hofRow]
    refine Line.mem_statement hsame ?_
    rw [hinvalid]
    rintro ⟨⟩
  obtain ⟨hcategory, k, hk, hlocation⟩ := hcloses.exists_label hstatement hinvalid he
  have hrowItems : row.Pairwise Item.Precedes :=
    hitems.sublist ((List.sublist_flatten_of_mem hrow).trans (Line.flatten_rows_sublist items))
  rw [← hall, List.pairwise_append] at hrowItems
  exact ⟨hcategory, k.location, hlocation, (hrowItems.2.2 k hk i hstatement).before⟩

/-- The reports of a walk are in the order of the text. -/
theorem pairwise_made (h : m.assemble items = .ok listing) (hitems : items.Pairwise Item.Precedes) :
    listing.reports.Pairwise Diagnostic.Precedes := by
  have hsublist := reports_sublist h
  have hplaces : items.map (fun i => some i.location) = (items.map Item.location).map some :=
    List.map_map.symm
  rw [hplaces] at hsublist
  refine pairwise_of_places hsublist ?_
  rw [List.pairwise_map]
  exact hitems.imp fun hprecedes => hprecedes.before

end Walks

/-! ### Both stages -/

/-- **How the reports of two stages are put together**: those of reading a source that is called `name`,
and those of the walk over what was read. -/
structure Assembly.Merges (a : Assembly) (name : String) (read made : List Diagnostic) : Prop where
  /-- Nothing is lost, and nothing is reported twice. -/
  perm : a.problems.Perm (read ++ made)
  placed : ∀ d ∈ a.problems, ∃ l, d.location = some l ∧ l.file = name
  /-- Each stage reports in the order of the text. -/
  read_ordered : read.Pairwise Diagnostic.Precedes
  made_ordered : made.Pairwise Diagnostic.Precedes
  /-- The lines are in order, and on each line the reports of reading come first. -/
  lines_ordered : a.problems.Pairwise fun d e => d.line ≤ e.line
  line_eq : ∀ k, a.problems.filter (·.line = k) =
    read.filter (·.line = k) ++ made.filter (·.line = k)
  /-- On a line of both stages, the walk has reported labels in front of what could not be read. -/
  shared : ∀ d ∈ read, ∀ e ∈ made, d.line = e.line → e.category = .duplicateSymbol ∧ e.Precedes d
  /-- So the problems are in the order of the text if no line has reports of both stages, and only
  then. -/
  ordered_iff : a.problems.Pairwise Diagnostic.NotAfter ↔ ∀ d ∈ read, ∀ e ∈ made, d.line ≠ e.line

/-- Reports in the order of their lines are in the order of the text if those of each line are. -/
theorem pairwise_of_lines {ds : List Diagnostic} {name : String}
    (hplaced : ∀ d ∈ ds, ∃ l, d.location = some l ∧ l.file = name)
    (hlines : ds.Pairwise fun d e => d.line ≤ e.line)
    (hline : ∀ k, (ds.filter (·.line = k)).Pairwise Diagnostic.Precedes) :
    ds.Pairwise Diagnostic.Precedes := by
  rw [List.pairwise_iff_forall_sublist]
  intro d e hsublist
  have hle := List.pairwise_iff_forall_sublist.1 hlines hsublist
  -- on different lines the lines decide, on one line the reports of that line do
  rcases Int.lt_or_eq_of_le hle with hlt | heq
  · obtain ⟨l, hl, hfile⟩ := hplaced d (hsublist.mem List.mem_cons_self)
    obtain ⟨l', hl', hfile'⟩ := hplaced e (hsublist.mem (List.mem_cons_of_mem _ List.mem_cons_self))
    rw [Diagnostic.line_of_location hl, Diagnostic.line_of_location hl'] at hlt
    exact ⟨l, l', hl, hl', hfile.trans hfile'.symm, .inl hlt⟩
  · have hboth : [d, e].filter (·.line = e.line) = [d, e] := by
      refine List.filter_eq_self.2 (List.forall_mem_cons.2 ⟨decide_eq_true heq, ?_⟩)
      exact List.forall_mem_singleton.2 (decide_eq_true rfl)
    have hfilter := hsublist.filter (·.line = e.line)
    rw [hboth] at hfilter
    exact List.pairwise_iff_forall_sublist.1 (hline e.line) hfilter

/-- If no line has reports of both stages, then on each line those of one stage are all that there is. -/
theorem pairwise_filter_append {read made : List Diagnostic} (hread : read.Pairwise Diagnostic.Precedes)
    (hmade : made.Pairwise Diagnostic.Precedes) (hapart : ∀ d ∈ read, ∀ e ∈ made, d.line ≠ e.line)
    (k : Int) :
    (read.filter (·.line = k) ++ made.filter (·.line = k)).Pairwise Diagnostic.Precedes := by
  rw [List.pairwise_append]
  -- a pair of both stages on this line is what there is not
  refine ⟨hread.filter _, hmade.filter _, fun d hd e he => ?_⟩
  obtain ⟨hd, hdk⟩ := List.mem_filter.1 hd
  obtain ⟨he, hek⟩ := List.mem_filter.1 he
  exact absurd ((of_decide_eq_true hdk).trans (of_decide_eq_true hek).symm) (hapart d hd e he)

/-- A report of reading in front of a report of the walk, if both are on the same line. -/
theorem sublist_of_line {problems read made : List Diagnostic} {d e : Diagnostic} (hd : d ∈ read)
    (he : e ∈ made) (hline : d.line = e.line)
    (hproblems : problems.filter (·.line = d.line) =
      read.filter (·.line = d.line) ++ made.filter (·.line = d.line)) : [d, e].Sublist problems := by
  have hd' : d ∈ read.filter (·.line = d.line) := List.mem_filter.2 ⟨hd, decide_eq_true rfl⟩
  have he' : e ∈ made.filter (·.line = d.line) := List.mem_filter.2 ⟨he, decide_eq_true hline.symm⟩
  have hboth := (List.singleton_sublist.2 hd').append (List.singleton_sublist.2 he')
  rw [← hproblems] at hboth
  exact hboth.trans List.filter_sublist

/-- **The order of the problems of a run.** The problems are those of reading the source and those of the
walk over what was read, by their lines. They are in the order of the text if and only if no line has
reports of both stages. -/
theorem problems_merged {settings : Settings} {source file : String} {a : Assembly}
    (h : assemble settings source file = .ok a) :
    let name := if file = "" then settings.file else file
    ∃ tokens listing, tokenize source name = .ok tokens ∧
      ({ address := settings.origin, cpu := settings.cpu } : Machine).assemble
        (parse name tokens).items = .ok listing ∧
      a.Merges name (parse name tokens).reports listing.reports := by
  intro name
  obtain ⟨tokens, htokens, p, -, -, hproblems, -⟩ := assemble_stages h
  refine ⟨tokens, p.listing, htokens, p.assemble_eq, ?_⟩
  have hassemble := p.assemble_eq
  generalize p.listing = listing at hproblems hassemble ⊢
  obtain rfl := eq_locate_of_tokenize htokens
  -- both stages look at items that are in the order of the text
  have hstart : 0 < (⟨name, 1, 1⟩ : Location).line := Int.one_pos
  obtain ⟨hitems, hfile⟩ := pairwise_items hstart source.toList name
  have hread := pairwise_read hstart source.toList name
  have hmade := pairwise_made hassemble hitems
  have hinvalid := exists_invalid_of_report hstart source.toList name
  generalize parse name (locate ⟨name, 1, 1⟩ (pieces source.toList)) = parsed at *
  have hperm : a.problems.Perm (parsed.reports ++ listing.reports) := by
    rw [hproblems]
    exact List.mergeSort_perm _ _
  have hplaced : ∀ d ∈ a.problems, ∃ l, d.location = some l ∧ l.file = name := by
    intro d hd
    rcases List.mem_append.1 (hperm.mem_iff.1 hd) with hd | hd
    · obtain ⟨i, hi, -, l, hl, -, hnot⟩ := hinvalid d hd
      exact ⟨l, hl, hnot.file_eq.symm.trans (hfile i hi)⟩
    · have hmem := (reports_sublist hassemble).mem (List.mem_map_of_mem hd)
      obtain ⟨i, hi, hlocation⟩ := List.mem_map.1 hmem
      exact ⟨i.location, hlocation.symm, hfile i hi⟩
  have hlines : a.problems.Pairwise fun d e => d.line ≤ e.line := by
    rw [hproblems]
    exact pairwise_byLine _
  have hline : ∀ k, a.problems.filter (·.line = k) =
      parsed.reports.filter (·.line = k) ++ listing.reports.filter (·.line = k) := by
    intro k
    rw [hproblems, filter_byLine, List.filter_append]
  have hshared : ∀ d ∈ parsed.reports, ∀ e ∈ listing.reports, d.line = e.line →
      e.category = .duplicateSymbol ∧ e.Precedes d := by
    intro d hd e he hsame
    obtain ⟨i, hi, hkind, l, hl, hrow, hnot⟩ := hinvalid d hd
    have hitem : e.line = i.location.line := by rw [← hsame, Diagnostic.line_of_location hl, hrow]
    obtain ⟨hcategory, l', hl', hbefore⟩ := shared_line hassemble hitems hi hkind he hitem
    exact ⟨hcategory, l', l, hl', hl, hbefore.trans_notAfter hnot⟩
  refine ⟨hperm, hplaced, hread, hmade, hlines, hline, hshared, ?_, ?_⟩
  · -- a line with reports of both stages has them in the wrong order
    intro hordered d hd e he hsame
    have hnot := List.pairwise_iff_forall_sublist.1 hordered (sublist_of_line hd he hsame (hline d.line))
    exact (hshared d hd e he hsame).2.not_notAfter hnot
  · intro hapart
    -- with one stage per line, each line is in order, and the lines are
    have hordered : a.problems.Pairwise Diagnostic.Precedes := by
      refine pairwise_of_lines hplaced hlines fun k => ?_
      rw [hline k]
      exact pairwise_filter_append hread hmade hapart k
    exact hordered.imp Diagnostic.Precedes.notAfter

/-- A line with a label that is defined again and with a character that cannot be read. -/
theorem problems_of_shared_line :
    (assemble {} "X:\nX: ?").map Assembly.problems =
      .ok [.placed ⟨"<input>", 2, 4⟩ (.unexpectedCharacter "?"),
        .placed ⟨"<input>", 2, 1⟩ (.duplicateSymbol "X" (some ⟨"<input>", 1, 1⟩))] := by
  cbv

theorem problems_merged_shared :
    ∃ a, assemble {} "X:\nX: ?" = .ok a ∧ a.problems.length = 2 ∧
      ∃ tokens listing, tokenize "X:\nX: ?" "<input>" = .ok tokens ∧
        ({} : Machine).assemble (parse "<input>" tokens).items = .ok listing ∧
        a.Merges "<input>" (parse "<input>" tokens).reports listing.reports := by
  obtain ⟨a, ha, hproblems⟩ := map_eq_ok_iff.1 problems_of_shared_line
  refine ⟨a, ha, ?_, problems_merged ha⟩
  rw [hproblems]
  rfl

/-- **Problems are not always in the order of the text**: the label is reported behind the character that
follows it. -/
theorem problems_out_of_order :
    ∃ a, assemble {} "X:\nX: ?" = .ok a ∧ ¬ a.problems.Pairwise Diagnostic.NotAfter := by
  obtain ⟨a, ha, hproblems⟩ := map_eq_ok_iff.1 problems_of_shared_line
  refine ⟨a, ha, fun hordered => ?_⟩
  rw [hproblems] at hordered
  have hprecedes : Diagnostic.Precedes
      (.placed ⟨"<input>", 2, 1⟩ (.duplicateSymbol "X" (some ⟨"<input>", 1, 1⟩)))
      (.placed ⟨"<input>", 2, 4⟩ (.unexpectedCharacter "?")) :=
    ⟨_, _, rfl, rfl, rfl, .inr ⟨rfl, by decide⟩⟩
  exact hprecedes.not_notAfter (List.rel_of_pairwise_cons hordered List.mem_cons_self)

end CrossAssembler
