import CrossAssembler.Proofs.Item.Order
import CrossAssembler.Proofs.Program.Founded

/-!
# What is said about symbols is exact

The survey binds a label if its name is free, and the final walk reports a label if another place is bound
to its name. So a label is told from the first one of its name by its place alone, which is sound because
no two labels of a text stand at the same place.

* **Labels of a text** (`pairwise_labels`): every label stands where its name does, and so in front of
  all labels that follow it.
* **Labels that are reached** (`mem_reachedLabels_iff`): a label is reached by both walks unless it is part
  of a statement, and a statement with a label in it is dropped by both.
* **The table** (`SymbolTable.Holds`, `Walk.holds_of_along`): behind the survey it holds the names of the
  labels that were reached, each with the place of the first one.
* **Reports** (`SymbolTable.Holds.filterMap_verify?`, `Passes.undefined_name`): which labels are reported,
  and when a name is called undefined.
-/

namespace CrossAssembler

/-! ### Labels of a text -/

/-- The labels among some items. -/
def labelsOf (items : List Item) : List Item :=
  items.filter fun i => i.kind == .label

theorem labelsOf_append (items items' : List Item) :
    labelsOf (items ++ items') = labelsOf items ++ labelsOf items' :=
  List.filter_append _ _

theorem mem_labelsOf {items : List Item} {i : Item} : i ∈ labelsOf items ↔ i ∈ items ∧ i.kind = .label := by
  rw [labelsOf, List.mem_filter, beq_iff_eq]

/-- **Every label stands in front of the labels that follow it.** So no two labels stand at one place,
and the place of a label tells it from all others. -/
theorem pairwise_labels {source name : String} {firstLine : Int} {tokens : List Token}
    (htokens : tokenize source name firstLine = .ok tokens) (file : String) :
    (labelsOf (parse file tokens).items).Pairwise fun l l' => l.location.Before l'.location := by
  obtain rfl := eq_locate_of_tokenize htokens
  obtain ⟨row, hitems, hsublist, hrow⟩ :=
    exists_item_tokens_of_text ⟨name, firstLine, 1⟩ source.toList file
  -- places of tokens grow, but a line end states the line behind it and has to be left out
  have htext := pairwise_locate (whole_of_mem_pieces source.toList) ⟨name, firstLine, 1⟩
  have hpairwise := List.pairwise_map.1 (htext.sublist hsublist)
  -- a label does not stand at a line end
  have hlabel : ∀ q ∈ row.filter (fun q => q.1.kind == .label),
      q.1.location = q.2.location ∧ q.2.lexeme ≠ .newline := by
    intro q hq
    obtain ⟨hq, hkind⟩ := List.mem_filter.1 hq
    have hstands := hrow q hq
    refine ⟨hstands.location_eq, fun hnewline => ?_⟩
    rw [hstands.newline_iff.1 hnewline] at hkind
    cases hkind
  rw [← hitems, labelsOf, List.filter_map, List.pairwise_map]
  refine (hpairwise.sublist List.filter_sublist).imp_of_mem fun {q r} hq hr hbefore => ?_
  obtain ⟨hplace, hnewline⟩ := hlabel q hq
  obtain ⟨hplace', hnewline'⟩ := hlabel r hr
  rw [hplace, hplace']
  exact hbefore hnewline hnewline'

/-! ### Labels that are reached -/

/-- The label of a stop. -/
def Stop.label? : Stop → Option Item
  | label item => some item
  | statement _ => none

/-- The label of a visit. -/
def Visit.label? (v : Visit) : Option Item :=
  v.stop.label?

/-- The labels of a program that a walk over it reaches, in order. A label behind the head of a statement
belongs to the statement and is not reached. -/
def reachedLabels (items : List Item) : List Item :=
  (Stop.ofItems items).filterMap Stop.label?

/-- A statement of which a walk takes nothing: something of it was left out in reading, or it is reported
in every pass and on every machine. -/
def Statement.Dropped (items : List Item) : Prop :=
  (∃ i ∈ items, i.kind = .invalid) ∨ ∀ pass m, ∃ d, effect pass m items = .ok (.report d)

/-- An item inside a statement that is dropped. -/
def Skipped (items : List Item) (i : Item) : Prop :=
  ∃ statement, .statement statement ∈ Stop.ofItems items ∧ i ∈ statement ∧ Statement.Dropped statement

theorem reachedLabels_eq (items : List Item) :
    reachedLabels items = (Line.ofItems items).flatMap Line.labels := by
  rw [reachedLabels, Stop.ofItems, List.filterMap_flatMap]
  refine congrArg (fun f => List.flatMap f _) (funext fun line => ?_)
  rw [Stop.ofLine, List.filterMap_append, List.filterMap_map]
  show List.filterMap some line.labels ++ [] = line.labels
  rw [List.filterMap_some, List.append_nil]

/-- The rows of a program hold all its labels, in order. -/
theorem flatMap_labelsOf_rows (items : List Item) :
    (Line.rows items).flatMap labelsOf = labelsOf items := by
  -- a separator is no label, and any other item goes to the front of the row behind it
  fun_induction Line.rows items with
  | case1 => rfl
  | case2 i rest hseparator ih =>
    have hkind : ¬ (i.kind == .label) = true := by
      rw [hseparator]
      decide
    rw [List.flatMap_cons, ih, labelsOf, labelsOf, labelsOf, List.filter_cons, if_neg hkind]
    rfl
  | case3 i rest hseparator hrows ih =>
    have hcons : labelsOf (i :: rest) = labelsOf [i] ++ labelsOf rest := labelsOf_append [i] rest
    rw [hcons, ← ih, hrows]
    rfl
  | case4 i rest hseparator row more hrows ih =>
    rw [hrows, List.flatMap_cons] at ih
    have hcons : labelsOf (i :: rest) = labelsOf [i] ++ labelsOf rest := labelsOf_append [i] rest
    have hrow : labelsOf (i :: row) = labelsOf [i] ++ labelsOf row := labelsOf_append [i] row
    rw [List.flatMap_cons, hrow, hcons, ← ih, List.append_assoc]

/-- The labels of a line are those that it starts with, and those in its statement. -/
theorem labelsOf_row (row : List Item) :
    labelsOf row = (Line.ofRow row).labels ++ labelsOf (Line.ofRow row).statement := by
  have hkind : ∀ i ∈ row.takeWhile (fun i => i.kind == .label), (i.kind == .label) = true :=
    fun i hi => List.mem_takeWhile_imp (p := fun i : Item => i.kind == .label) hi
  have hlabels : labelsOf (Line.ofRow row).labels = (Line.ofRow row).labels :=
    List.filter_eq_self.2 hkind
  have hrow : row = (Line.ofRow row).labels ++ (Line.ofRow row).statement :=
    (List.takeWhile_append_dropWhile).symm
  conv_lhs => rw [hrow]
  rw [labelsOf_append, hlabels]

/-- The labels that are reached are some of the labels of the program, in order. -/
theorem reachedLabels_sublist (items : List Item) :
    (reachedLabels items).Sublist (labelsOf items) := by
  rw [reachedLabels_eq, ← flatMap_labelsOf_rows, Line.ofItems, List.flatMap_map]
  refine List.Sublist.flatMap_right _ fun row _ => ?_
  rw [labelsOf_row]
  exact List.sublist_append_left _ _

/-- The labels of a program are those that are reached and those inside statements. -/
theorem reachedLabels_append_perm (items : List Item) :
    (reachedLabels items ++ (Line.ofItems items).flatMap fun line => labelsOf line.statement).Perm
      (labelsOf items) := by
  rw [reachedLabels_eq, ← flatMap_labelsOf_rows]
  -- line by line the labels in front and those inside; so the order of the program is lost
  refine (List.flatMap_append_perm _ _ _).trans (List.Perm.of_eq ?_)
  rw [Line.ofItems, List.flatMap_map]
  exact congrArg (fun f => List.flatMap f _) (funext fun row => (labelsOf_row row).symm)

namespace Statement

/-- Among well separated operands there is no label. -/
theorem kind_ne_label_of_moreOperands {mnemonic : String} {items ops : List Item}
    (h : moreOperands mnemonic items = .ok ops) : ∀ i ∈ items, i.kind ≠ .label := by
  -- labels are neither commas nor operands
  fun_induction moreOperands mnemonic items generalizing ops with
  | case1 => exact List.forall_mem_nil _
  | case6 comma operand rest hcomma hoperand ih =>
    obtain ⟨others, hothers, -⟩ := map_eq_ok_iff.1 h
    refine List.forall_mem_cons.2 ⟨?_, List.forall_mem_cons.2 ⟨?_, ih hothers⟩⟩
    · rw [not_not.1 hcomma]
      rintro ⟨⟩
    · intro hlabel
      rw [hlabel] at hoperand
      exact hoperand rfl
  | _ => cases h

theorem kind_ne_label_of_operands {mnemonic : String} {items ops : List Item}
    (h : operands mnemonic items = .ok ops) : ∀ i ∈ items, i.kind ≠ .label := by
  cases items with
  | nil => exact List.forall_mem_nil _
  | cons operand rest =>
    rw [operands] at h
    split at h
    · cases h
    next hoperand =>
      obtain ⟨others, hothers, -⟩ := map_eq_ok_iff.1 h
      refine List.forall_mem_cons.2 ⟨?_, kind_ne_label_of_moreOperands hothers⟩
      intro hlabel
      rw [hlabel] at hoperand
      exact hoperand rfl

/-- What is no instruction and has a label behind its head is reported. -/
theorem plainEffect_of_label {head i : Item} {rest : List Item} (hi : i ∈ rest)
    (hkind : i.kind = .label) (hvalid : ¬ ∃ j ∈ head :: rest, j.kind = .invalid) :
    ∃ d, plainEffect (head :: rest) = .report d := by
  have hnone : ¬ ((head :: rest).any fun j => j.kind == .invalid) = true := by
    rw [List.any_eq_true]
    rintro ⟨j, hj, hinvalid⟩
    exact hvalid ⟨j, hj, beq_iff_eq.1 hinvalid⟩
  rw [plainEffect, if_neg hnone]
  split
  · rcases directive_cases head rest with ⟨operand, rfl, -, hoperand, -⟩ | ⟨cpu, rfl, -⟩ | hreport
    · -- the number behind the keyword is no label
      rw [List.mem_singleton.1 hi, hoperand] at hkind
      cases hkind
    · cases hi
    · exact hreport
  · exact ⟨_, rfl⟩
  · exact ⟨_, rfl⟩

/-- **A statement with a label behind its head is dropped**, whatever else it holds. -/
theorem dropped_of_label {head i : Item} {rest : List Item} (hi : i ∈ rest) (hkind : i.kind = .label) :
    Dropped (head :: rest) := by
  by_cases hvalid : ∃ j ∈ head :: rest, j.kind = .invalid
  · exact .inl hvalid
  refine .inr fun pass m => ?_
  -- an instruction is refused for its operands, before the encoder or the processor counts
  rcases effect_cases (head :: rest) with ⟨head', rest', hinstruction⟩ | hplain
  · obtain ⟨rfl, rfl⟩ := List.cons.inj hinstruction.items_eq
    rw [hinstruction.effect_eq, instruction_eq]
    cases hops : operands head.shownText rest with
    | error d => exact ⟨d, rfl⟩
    | ok ops => exact absurd hkind (kind_ne_label_of_operands hops i hi)
  · obtain ⟨d, hd⟩ := plainEffect_of_label hi hkind hvalid
    exact ⟨d, (hplain pass m).trans (congrArg _ hd)⟩

end Statement

/-- A statement does not start with a label. -/
theorem Line.dropped_of_mem {row : List Item} {i : Item} (hi : i ∈ (Line.ofRow row).statement)
    (hkind : i.kind = .label) : Statement.Dropped (Line.ofRow row).statement := by
  cases hstatement : (Line.ofRow row).statement with
  | nil =>
    rw [hstatement] at hi
    cases hi
  | cons head rest =>
    rw [hstatement] at hi
    -- all labels in front are taken off, so that the head is none
    have hhead : head.kind ≠ .label := by
      have hnot := List.head?_dropWhile_not (fun i : Item => i.kind == .label) row
      rw [show row.dropWhile (fun i => i.kind == .label) = head :: rest from hstatement] at hnot
      exact ne_of_beq_false hnot
    rcases List.mem_cons.1 hi with rfl | hi
    · exact absurd hkind hhead
    · exact Statement.dropped_of_label hi hkind

theorem Stop.mem_ofItems_statement {items statement : List Item} :
    .statement statement ∈ Stop.ofItems items ↔
      ∃ line ∈ Line.ofItems items, line.statement = statement := by
  rw [Stop.ofItems, List.mem_flatMap]
  refine exists_congr fun line => and_congr_right fun _ => ?_
  rw [Stop.ofLine, List.mem_append, List.mem_singleton, Stop.statement.injEq]
  constructor
  · rintro (hlabel | hstatement)
    · obtain ⟨l, -, hl⟩ := List.mem_map.1 hlabel
      cases hl
    · exact hstatement.symm
  · exact fun hstatement => .inr hstatement.symm

/-- **Which labels are reached**: those that are in no statement that is dropped. Labels with the same
place are one label, so nothing can be both reached and skipped. -/
theorem mem_reachedLabels_iff {items : List Item}
    (hdistinct : (labelsOf items).Pairwise fun l l' => l.location.Before l'.location) {i : Item}
    (hi : i ∈ items) (hkind : i.kind = .label) : i ∈ reachedLabels items ↔ ¬ Skipped items i := by
  have hperm := reachedLabels_append_perm items
  have hnodup : (labelsOf items).Nodup := hdistinct.imp fun h heq => h.ne (congrArg _ heq)
  -- no label is listed twice, so none is both in front of a statement and inside one
  have hdisjoint := List.disjoint_of_nodup_append (hperm.nodup_iff.2 hnodup)
  constructor
  · rintro hreached ⟨statement, hstatement, hmem, -⟩
    obtain ⟨line, hline, rfl⟩ := Stop.mem_ofItems_statement.1 hstatement
    exact hdisjoint hreached (List.mem_flatMap.2 ⟨line, hline, mem_labelsOf.2 ⟨hmem, hkind⟩⟩)
  · intro hskipped
    rcases List.mem_append.1 (hperm.mem_iff.2 (mem_labelsOf.2 ⟨hi, hkind⟩)) with hreached | hinside
    · exact hreached
    · obtain ⟨line, hline, hmem⟩ := List.mem_flatMap.1 hinside
      obtain ⟨row, hrow, rfl⟩ := List.mem_map.1 hline
      obtain ⟨hmem, -⟩ := mem_labelsOf.1 hmem
      have hstatement := Stop.mem_ofItems_statement.2 ⟨_, hline, rfl⟩
      exact absurd ⟨_, hstatement, hmem, Line.dropped_of_mem hmem hkind⟩ hskipped

/-! ### The table -/

namespace SymbolTable

/-- The table of some labels: their names, each one once and in the order in which they are first met,
with the places of the first ones. -/
structure Holds (t : SymbolTable) (labels : List Item) : Prop where
  names_eq : t.symbols.map Symbol.name = (labels.map Item.text).eraseDups
  place_eq : ∀ name, (t.find? name).map Symbol.location =
    (labels.find? fun l => l.text == name).map Item.location

/-- No labels, no symbols. -/
theorem holds_nil : Holds {} [] :=
  ⟨rfl, fun _ => rfl⟩

theorem Holds.contains_iff {t : SymbolTable} {labels : List Item} (h : t.Holds labels)
    (name : Option String) : t.contains name = true ↔ ∃ l ∈ labels, l.text = name := by
  have hplace := congrArg Option.isSome (h.place_eq name)
  rw [Option.isSome_map, Option.isSome_map] at hplace
  rw [contains, hplace, List.find?_isSome]
  simp only [beq_iff_eq]

/-- One more element behind a list without repetitions. -/
theorem eraseDups_concat (names : List (Option String)) (name : Option String) :
    (names ++ [name]).eraseDups =
      if name ∈ names then names.eraseDups else names.eraseDups ++ [name] := by
  rw [List.eraseDups_append]
  by_cases hmem : name ∈ names
  · have hnone : [name].removeAll names = [] := by simp [List.removeAll, hmem]
    rw [if_pos hmem, hnone, List.eraseDups_nil, List.append_nil]
  · have hall : [name].removeAll names = [name] := by simp [List.removeAll, hmem]
    rw [if_neg hmem, hall]
    rfl

/-- **One more label**: its name is added if it is new, and the place of its name stays if it is not. -/
theorem Holds.define {t : SymbolTable} {labels : List Item} (h : t.Holds labels) (l : Item)
    (value : Int) : (t.define l.text value l.location).Holds (labels ++ [l]) := by
  refine ⟨?_, fun name => ?_⟩
  · have hcontains := h.contains_iff l.text
    rw [← List.mem_map] at hcontains
    rw [List.map_append, List.map_singleton, eraseDups_concat, ← h.names_eq]
    unfold SymbolTable.define
    -- the table grows exactly if the name is not among those of the labels so far
    by_cases hknown : t.contains l.text = true
    · rw [if_pos hknown, if_pos (hcontains.1 hknown)]
    · rw [if_neg hknown, if_neg fun hmem => hknown (hcontains.2 hmem), List.map_append]
      rfl
  · rw [find?_define, Option.map_or, h.place_eq, List.find?_append, Option.map_or]
    refine congrArg _ ?_
    by_cases hname : l.text = name
    · have hhead : (l.text == name) = true := beq_iff_eq.2 hname
      rw [if_pos hname, List.find?_cons, hhead]
      rfl
    · have hhead : (l.text == name) = false := beq_false_of_ne hname
      rw [if_neg hname, List.find?_cons, hhead]
      rfl

end SymbolTable

/-- **The survey leaves the table of the labels that it reaches.** The labels of a line are among them
even if its statement is dropped. -/
theorem Walk.holds_of_along {w u : Walk} {stops : List Stop} (halong : w.along .survey stops = .ok u)
    {labels : List Item} (h : w.machine.symbols.Holds labels) :
    u.machine.symbols.Holds (labels ++ stops.filterMap Stop.label?) := by
  -- the invariant: the table holds the labels so far, and each stop adds its own
  induction stops generalizing w labels with
  | nil =>
    cases halong
    rw [List.filterMap_nil, List.append_nil]
    exact h
  | cons s stops ih =>
    obtain ⟨v, hact, hrest⟩ := along_cons_iff.1 halong
    rcases act_machine hact with ⟨item, rfl, hv⟩ | ⟨items, e, rfl, -, hv⟩
    · have hstep : v.machine.symbols.Holds (labels ++ [item]) := by
        rw [hv]
        exact h.define item _
      have hrest := ih hrest hstep
      rw [List.append_assoc] at hrest
      exact hrest
    · have hstep : v.machine.symbols.Holds labels := by
        rw [hv, Effect.onMachine_symbols]
        exact h
      exact ih hrest hstep

/-! ### Reports -/

/-- The reports on labels that are not the first ones of their names. Each is at the place of its label
and names the place of the first one. -/
def duplicateReports (labels : List Item) : List Diagnostic :=
  labels.zipIdx.filterMap fun q =>
    ((labels.take q.2).find? fun first => first.text == q.1.text).map fun first =>
      .placed q.1.location (.duplicateSymbol q.1.shownText (some first.location))

namespace SymbolTable

/-- The report on a label, by the place that its name is bound to. -/
theorem verify?_eq {t : SymbolTable} {l : Item} {place : Location}
    (h : (t.find? l.text).map Symbol.location = some place) :
    t.verify? l.text l.location =
      if place = l.location then none
      else some (.placed l.location (.duplicateSymbol l.shownText (some place))) := by
  obtain ⟨s, hs, rfl⟩ := Option.map_eq_some_iff.1 h
  unfold verify?
  rw [hs]
  rfl

/-- **A label is reported if and only if it is not the first one of its name**, provided that no two
labels stand at the same place. -/
theorem Holds.filterMap_verify? {t : SymbolTable} {labels : List Item} (h : t.Holds labels)
    (hdistinct : labels.Pairwise fun l l' => l.location.Before l'.location) :
    labels.filterMap (fun l => t.verify? l.text l.location) = duplicateReports labels := by
  have hzip : labels.filterMap (fun l => t.verify? l.text l.location) =
      (labels.zipIdx.map Prod.fst).filterMap fun l => t.verify? l.text l.location := by
    rw [List.zipIdx_map_fst]
  rw [hzip, List.filterMap_map]
  refine List.filterMap_congr fun q hq => ?_
  obtain ⟨l, k⟩ := q
  -- the labels in front of this one, and those behind it
  obtain ⟨hk, hl⟩ := List.getElem?_eq_some_iff.1 (List.mem_zipIdx_iff_getElem?.1 hq)
  dsimp only at hk hl ⊢
  have hcut : labels = labels.take k ++ l :: labels.drop (k + 1) := by
    rw [← hl, ← List.drop_eq_getElem_cons hk, List.take_append_drop]
  have hself : (l.text == l.text) = true := beq_self_eq_true _
  have hfind : labels.find? (fun first => first.text == l.text) =
      ((labels.take k).find? fun first => first.text == l.text).or (some l) := by
    conv_lhs => rw [hcut]
    rw [List.find?_append, List.find?_cons, hself]
  have hplace := h.place_eq l.text
  rw [hfind] at hplace
  -- the name is bound to this label or to one in front of it, at another place
  cases hfirst : (labels.take k).find? fun first => first.text == l.text with
  | none =>
    rw [hfirst] at hplace
    show t.verify? l.text l.location = none
    rw [verify?_eq hplace, if_pos rfl]
  | some first =>
    rw [hfirst] at hplace
    rw [hcut, List.pairwise_append] at hdistinct
    have hbefore : first.location.Before l.location :=
      hdistinct.2.2 first (List.mem_of_find?_eq_some hfirst) l List.mem_cons_self
    show t.verify? l.text l.location = _
    rw [verify?_eq hplace, if_neg hbefore.ne]
    rfl

end SymbolTable

/-- All visits of the final walk see the same symbols. -/
theorem Walk.symbols_of_mem_visits {w u : Walk} {stops : List Stop}
    (halong : w.along .final stops = .ok u) :
    ∀ v ∈ w.visits .final stops, v.machine.symbols = w.machine.symbols := by
  induction stops generalizing w with
  | nil => exact List.forall_mem_nil _
  | cons s stops ih =>
    obtain ⟨w', hact, hrest⟩ := along_cons_iff.1 halong
    rw [visits_cons hact]
    refine List.forall_mem_cons.2 ⟨rfl, fun v hv => ?_⟩
    exact (ih hrest v hv).trans (act_symbols_final hact)

/-- What is reported on a statement is founded on the symbols of the visit. -/
theorem Visit.founded_of_mem_reports {items : List Item} {m : Machine} {d : Diagnostic}
    (hd : d ∈ (Visit.mk (.statement items) m).reports) : d.Founded m.symbols := by
  unfold Visit.reports at hd
  dsimp only at hd
  split at hd
  next e he =>
    cases e with
    | report d' =>
      rw [List.mem_singleton.1 hd]
      exact (Statement.sound_of_effect he).founded
    | _ => cases hd
  · cases hd

/-- Only a label is reported as defined again. -/
theorem Visit.filter_reports (v : Visit) :
    v.reports.filter (fun d => d.category == .duplicateSymbol) =
      (v.label?.bind fun l => v.machine.symbols.verify? l.text l.location).toList := by
  obtain ⟨stop, m⟩ := v
  cases stop with
  | label l =>
    show ((m.symbols.verify? l.text l.location).toList).filter _ =
      (m.symbols.verify? l.text l.location).toList
    refine List.filter_eq_self.2 fun d hd => ?_
    exact beq_iff_eq.2 (SymbolTable.reported_of_verify? (Option.mem_toList.1 hd)).2
  | statement items =>
    show List.filter _ _ = []
    refine List.filter_eq_nil_iff.2 fun d hd => ?_
    rw [beq_iff_eq]
    exact (Visit.founded_of_mem_reports hd).category_ne

namespace Passes

variable {m : Machine} {items : List Item}

/-- Both walks reach the same labels. -/
theorem label?_first (p : Passes m items) : p.first.filterMap Visit.label? = reachedLabels items := by
  have hstops := Walk.map_stop_visits p.survey_along
  rw [reachedLabels, ← hstops, List.filterMap_map]
  rfl

theorem label?_second (p : Passes m items) : p.second.filterMap Visit.label? = reachedLabels items := by
  have hstops := Walk.map_stop_visits p.final_along
  rw [reachedLabels, ← hstops, List.filterMap_map]
  rfl

theorem symbols_of_mem_second (p : Passes m items) :
    ∀ v ∈ p.second, v.machine.symbols = p.survey.machine.symbols :=
  Walk.symbols_of_mem_visits p.final_along

/-- The reports on labels are those that the table of the survey gives. -/
theorem filter_reports (p : Passes m items) :
    p.listing.reports.filter (fun d => d.category == .duplicateSymbol) =
      (reachedLabels items).filterMap fun l =>
        p.survey.machine.symbols.verify? l.text l.location := by
  rw [p.reports_eq, List.filter_flatMap, ← p.label?_second, List.filterMap_filterMap,
    List.filterMap_eq_flatMap_toList]
  refine List.flatMap_congr fun v hv => ?_
  rw [Visit.filter_reports, p.symbols_of_mem_second v hv]

/-- **A name is called undefined only if no label that is reached has it**, whether in front of the
reference or behind it. -/
theorem undefined_name (p : Passes m items) (hholds : p.survey.machine.symbols.Holds (reachedLabels items))
    {d : Diagnostic} (hd : d ∈ p.listing.reports) {name : String} {similar : List String}
    (hproblem : d.problem = .undefinedSymbol name similar) :
    ∀ l ∈ reachedLabels items, l.text ≠ some name := by
  rw [p.reports_eq] at hd
  obtain ⟨v, hv, hd⟩ := List.mem_flatMap.1 hd
  have hsymbols := p.symbols_of_mem_second v hv
  obtain ⟨stop, machine⟩ := v
  cases stop with
  -- on a label the report is on the label itself, whatever its name
  | label l =>
    obtain ⟨-, hcategory⟩ := SymbolTable.reported_of_verify? (Option.mem_toList.1 hd)
    rw [Diagnostic.category, hproblem] at hcategory
    cases hcategory
  | statement items =>
    have hnone := (Visit.founded_of_mem_reports hd).undefined name similar hproblem
    rw [show machine.symbols = p.survey.machine.symbols from hsymbols] at hnone
    intro l hl htext
    have hcontains := (hholds.contains_iff (some name)).2 ⟨l, hl, htext⟩
    rw [SymbolTable.contains, Option.map_eq_none_iff.1 hnone] at hcontains
    cases hcontains

/-- What two walks over a program say about its labels. -/
structure SymbolsExact (p : Passes m items) : Prop where
  /-- Both walks reach the same labels, in the order of the program. -/
  reached_survey : p.first.filterMap Visit.label? = reachedLabels items
  reached_final : p.second.filterMap Visit.label? = reachedLabels items
  reached_sublist : (reachedLabels items).Sublist items
  /-- These are the labels that are not part of a statement that is dropped. -/
  reached_iff : ∀ i ∈ items, i.kind = .label → (i ∈ reachedLabels items ↔ ¬ Skipped items i)
  /-- The table holds their names, each one once and in the order of the first ones. -/
  names_eq : p.listing.machine.symbols.symbols.map Symbol.name =
    ((reachedLabels items).map Item.text).eraseDups
  /-- The final walk leaves the table of the survey as it is. -/
  unchanged : p.listing.machine.symbols = p.survey.machine.symbols
  /-- A label is reported if and only if it is not the first one of its name. -/
  duplicates_eq : p.listing.reports.filter (fun d => d.category == .duplicateSymbol) =
    duplicateReports (reachedLabels items)
  /-- A name is called undefined only if no label that is reached has it. -/
  undefined : ∀ d ∈ p.listing.reports, ∀ name similar, d.problem = .undefinedSymbol name similar →
    ∀ l ∈ reachedLabels items, l.text ≠ some name

end Passes

/-- **What is said about symbols is exact**: a program that was read from a text is assembled by two walks
which reach the same labels, bind their names once each, and report exactly the labels defined again and
only names that no label has. -/
theorem symbols_exact {source name : String} {firstLine : Int} {tokens : List Token}
    (htokens : tokenize source name firstLine = .ok tokens) (file : String) {m : Machine}
    (hfresh : m.symbols = {}) :
    ∃ p : Passes m (parse file tokens).items,
      m.assemble (parse file tokens).items = .ok p.listing ∧ p.SymbolsExact := by
  have hnamed : m.symbols.AllNamed := by
    rw [hfresh]
    rfl
  obtain ⟨p⟩ := Passes.exists_passes hnamed file tokens
  have hdistinct := pairwise_labels htokens file
  have hholds : p.survey.machine.symbols.Holds (reachedLabels (parse file tokens).items) :=
    Walk.holds_of_along p.survey_along (hfresh ▸ SymbolTable.holds_nil)
  have hsublist := reachedLabels_sublist (parse file tokens).items
  refine ⟨p, p.assemble_eq, ?_⟩
  exact {
    reached_survey := p.label?_first
    reached_final := p.label?_second
    reached_sublist := hsublist.trans List.filter_sublist
    reached_iff := fun i hi hkind => mem_reachedLabels_iff hdistinct hi hkind
    names_eq := p.symbols_eq ▸ hholds.names_eq
    unchanged := p.symbols_eq
    duplicates_eq := p.filter_reports.trans (hholds.filterMap_verify? (hdistinct.sublist hsublist))
    undefined := fun d hd name similar hproblem => p.undefined_name hholds hd hproblem }

/-- A label defined again, and one that is lost with its statement, so that its name stays undefined. -/
theorem symbols_exact_again :
    ∃ tokens, tokenize "x:\nx: JP y\nNOP y:" "f" 0 = .ok tokens ∧
      duplicateReports (reachedLabels (parse "f" tokens).items) =
        [.placed ⟨"f", 1, 1⟩ (.duplicateSymbol "X" (some ⟨"f", 0, 1⟩))] ∧
      ∃ p : Passes {} (parse "f" tokens).items,
        ({} : Machine).assemble (parse "f" tokens).items = .ok p.listing ∧ p.SymbolsExact := by
  have htokens : tokenize "x:\nx: JP y\nNOP y:" "f" 0 = .ok
      [⟨.name "X", ⟨"f", 0, 1⟩⟩, ⟨.colon, ⟨"f", 0, 2⟩⟩, ⟨.newline, ⟨"f", 1, 3⟩⟩,
       ⟨.name "X", ⟨"f", 1, 1⟩⟩, ⟨.colon, ⟨"f", 1, 2⟩⟩, ⟨.name "JP", ⟨"f", 1, 4⟩⟩,
       ⟨.name "Y", ⟨"f", 1, 7⟩⟩, ⟨.newline, ⟨"f", 1, 8⟩⟩, ⟨.name "NOP", ⟨"f", 2, 1⟩⟩,
       ⟨.name "Y", ⟨"f", 2, 5⟩⟩, ⟨.colon, ⟨"f", 2, 6⟩⟩, ⟨.endOfInput, ⟨"f", 2, 7⟩⟩] := by
    decide +kernel
  refine ⟨_, htokens, ?_, symbols_exact htokens "f" rfl⟩
  decide +kernel

end CrossAssembler
