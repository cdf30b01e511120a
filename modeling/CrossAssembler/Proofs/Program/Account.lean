import CrossAssembler.Proofs.Program.Phase

/-!
# Accounts of statements

What has become of a statement can be told from the final walk: the walk in front of its line, with
the labels bound, is compared with the walk behind it. Such a comparison is an *account*, and the
accounts of all lines are the *ledger* of a run. What a statement contributes is what the walk has
gained, and no more is assumed of it.

* **Inversion** (`Statement.effect_emit`, `effect_moveTo`, `effect_choose`, `effect_nothing_iff`): what
  a statement looks like that has a given effect.
* **One line** (`Account.Closes.shows_ofEffect`, `Account.Shows.unique`): a statement is accepted,
  reported, dropped or obeyed, and never two of these.
* **A whole run** (`Walk.emissions_ledger`, `Walk.reports_ledger`): the emissions and the reports of a
  walk are those of its ledger, line by line.
* **Counting** (`Account.Closes.length_emissions`): a run without reports emits once for each statement
  that starts with a mnemonic.
-/

namespace CrossAssembler

/-! ### Statements by their effect -/

namespace Statement

variable {pass : Pass} {m : Machine} {items : List Item}

/-- Only an instruction emits, only on a processor with an encoder, and only if nothing of it was left
out. -/
theorem effect_emit {place : Location} {data : List UInt8}
    (h : effect pass m items = .ok (.emit place data)) :
    ∃ head rest, items = head :: rest ∧ head.kind = .mnemonic ∧ m.cpu = .z80 ∧
      ∀ i ∈ items, i.kind ≠ .invalid := by
  rcases effect_cases items with ⟨head, rest, hinstruction⟩ | hplain
  · rw [hinstruction.effect_eq] at h
    obtain ⟨-, hdata⟩ := outcome_emit_iff.1 h
    obtain ⟨-, -, -, hcpu, -⟩ := instruction_eq_ok_iff.1 hdata
    obtain ⟨rfl, hvalid, hkind⟩ := hinstruction
    refine ⟨head, rest, rfl, hkind, hcpu, fun i hi hinvalid => ?_⟩
    have hnone := List.any_eq_false.1 hvalid i hi
    exact hnone (beq_iff_eq.2 hinvalid)
  · rw [hplain] at h
    exact absurd (Except.ok.inj h) (plainEffect_ne_emit _ _ _)

/-- An instruction emits or is reported. -/
theorem effect_of_mnemonic {head : Item} {rest : List Item} {e : Effect}
    (hkind : head.kind = .mnemonic) (hvalid : ∀ i ∈ head :: rest, i.kind ≠ .invalid)
    (h : effect pass m (head :: rest) = .ok e) :
    (∃ place data, e = .emit place data) ∨ ∃ d, e = .report d := by
  rw [(isInstruction_of_valid hkind hvalid).effect_eq] at h
  rcases outcome_cases h with ⟨data, -, he⟩ | ⟨d, -, he⟩
  · exact .inl ⟨_, data, he⟩
  · exact .inr ⟨d, he⟩

/-- An effect that no instruction has is the plain effect. -/
theorem effect_plain {e : Effect} (h : effect pass m items = .ok e)
    (hemit : ∀ place data, e ≠ .emit place data) (hreport : ∀ d, e ≠ .report d) :
    plainEffect items = e := by
  rcases effect_cases items with ⟨head, rest, hinstruction⟩ | hplain
  · rw [hinstruction.effect_eq] at h
    rcases outcome_cases h with ⟨data, -, he⟩ | ⟨d, -, he⟩
    · exact absurd he (hemit _ _)
    · exact absurd he (hreport _)
  · rw [hplain] at h
    exact Except.ok.inj h

/-- Only the keyword of the origin, with an address behind it, moves the counter. -/
theorem effect_moveTo {line address : Int} (h : effect pass m items = .ok (.moveTo line address)) :
    ∃ head operand, items = [head, operand] ∧ head.kind = .keyword ∧
      head.text.bind Keyword.ofName? = some .origin ∧ operand.kind = .number ∧
      operand.fits16 = true ∧ operand.value = address := by
  have hplain := effect_plain h (by rintro place data ⟨⟩) (by rintro d ⟨⟩)
  exact plainEffect_eq_moveTo hplain

theorem plainEffect_eq_choose {cpu : Cpu} (h : plainEffect items = .choose cpu) :
    ∃ head, items = [head] ∧ head.kind = .keyword ∧
      head.text.bind Keyword.ofName? = some (.processor cpu) := by
  -- of all plain statements only a directive can do this, and `directive_cases` says which
  unfold plainEffect at h
  split at h
  · cases h
  next head rest =>
    split at h
    · cases h
    · split at h
      next hkeyword =>
        rcases directive_cases head rest with
          ⟨operand, -, -, -, -, hd⟩ | ⟨cpu', rfl, hcpu, hd⟩ | ⟨d, hd⟩
        · rw [hd] at h
          cases h
        · rw [hd] at h
          cases h
          exact ⟨head, rfl, hkeyword, hcpu⟩
        · rw [hd] at h
          cases h
      all_goals cases h

/-- Only the keyword of a processor, with nothing behind it, chooses one. -/
theorem effect_choose {cpu : Cpu} (h : effect pass m items = .ok (.choose cpu)) :
    ∃ head, items = [head] ∧ head.kind = .keyword ∧
      head.text.bind Keyword.ofName? = some (.processor cpu) := by
  have hplain := effect_plain h (by rintro place data ⟨⟩) (by rintro d ⟨⟩)
  exact plainEffect_eq_choose hplain

theorem plainEffect_eq_nothing (h : plainEffect items = .nothing) :
    items = [] ∨ ∃ i ∈ items, i.kind = .invalid := by
  unfold plainEffect at h
  split at h
  · exact .inl rfl
  next head rest =>
    right
    split at h
    next hinvalid =>
      obtain ⟨i, hi, hkind⟩ := List.any_eq_true.1 hinvalid
      exact ⟨i, hi, beq_iff_eq.1 hkind⟩
    · split at h
      · rcases directive_cases head rest with ⟨operand, -, -, -, -, hd⟩ | ⟨cpu, -, -, hd⟩ | ⟨d, hd⟩
        all_goals
          rw [hd] at h
          cases h
      all_goals cases h

/-- A statement does nothing if it is empty or something of it was left out, and never otherwise. -/
theorem effect_nothing_iff :
    effect pass m items = .ok .nothing ↔ items = [] ∨ ∃ i ∈ items, i.kind = .invalid := by
  constructor
  · intro h
    have hplain := effect_plain h (by rintro place data ⟨⟩) (by rintro d ⟨⟩)
    exact plainEffect_eq_nothing hplain
  · rintro (rfl | ⟨i, hi, hkind⟩)
    · rfl
    · -- invalid items are looked for first, whatever the head is
      have hinvalid : (items.any fun i => i.kind == .invalid) = true :=
        List.any_eq_true.2 ⟨i, hi, beq_iff_eq.2 hkind⟩
      cases items with
      | nil => rfl
      | cons head rest => rw [effect, if_pos hinvalid]

/-- A statement that starts with a mnemonic. -/
def startsWithMnemonic (items : List Item) : Bool :=
  items.head?.any fun i => i.kind == .mnemonic

end Statement

/-! ### What a walk gains -/

namespace Effect

/-- The emissions of an effect on a walk. -/
def emissions (e : Effect) (w : Walk) : List Emission :=
  match e with
  | emit place data =>
    [{ address := w.machine.address, data := data, location := some place, label := w.label,
       standing := .accepted }]
  | _ => []

end Effect

namespace Walk

theorem apply_emissions (pass : Pass) (w : Walk) (e : Effect) :
    (w.apply pass e).emissions.toList = w.emissions.toList ++ e.emissions w := by
  cases e with
  | emit place data =>
    change (w.emissions.push _).toList = _
    rw [Array.toList_push]
    rfl
  | moveTo line address =>
    cases pass <;> exact (List.append_nil _).symm
  | report d =>
    rw [apply, report_emissions]
    exact (List.append_nil _).symm
  | _ => exact (List.append_nil _).symm

/-- Labels emit nothing. -/
theorem emissions_labels (w : Walk) (labels : List Item) :
    (labels.foldl (bind .final) w).emissions = w.emissions := by
  induction labels generalizing w with
  | nil => rfl
  | cons item labels ih => rw [List.foldl_cons, ih, bind_emissions]

/-- Labels are reported one by one, each by the symbols of the walk. -/
theorem reports_labels (w : Walk) (labels : List Item) :
    (labels.foldl (bind .final) w).reports.toList = w.reports.toList ++
      labels.filterMap fun l => w.machine.symbols.verify? l.text l.location := by
  -- a label does not change the symbols, so all are verified by those of the first
  induction labels generalizing w with
  | nil => exact (List.append_nil _).symm
  | cons item labels ih =>
    rw [List.foldl_cons, ih, bind_reports, bind_machine, Machine.bind, List.append_assoc,
      List.filterMap_cons]
    congr 1
    change (w.machine.symbols.verify? item.text item.location).toList ++ _ = _
    cases w.machine.symbols.verify? item.text item.location <;> rfl

end Walk

/-! ### Accounts -/

/-- A line, with the final walk in front of it and behind it. Nothing ties the two walks together yet;
this is what `Closes` says. -/
structure Account where
  line : Line
  start : Walk
  finish : Walk

namespace Account

/-- The walk with the labels of the line bound, in front of the statement. -/
def bound (a : Account) : Walk :=
  a.line.labels.foldl (Walk.bind .final) a.start

/-- The reports that the labels have added. -/
def duplicates (a : Account) : List Diagnostic :=
  a.bound.reports.toList.drop a.start.reports.toList.length

/-- The reports that the statement has added. -/
def reports (a : Account) : List Diagnostic :=
  a.finish.reports.toList.drop a.bound.reports.toList.length

/-- The emissions that the statement has added. -/
def emissions (a : Account) : List Emission :=
  a.finish.emissions.toList.drop a.bound.emissions.toList.length

/-- The statement is a directive that was obeyed: it has set the counter to the address behind the
keyword of the origin, or chosen the processor of its keyword. -/
def Obeyed (a : Account) : Prop :=
  (∃ head operand, a.line.statement = [head, operand] ∧ head.kind = .keyword ∧
      head.text.bind Keyword.ofName? = some .origin ∧ operand.kind = .number ∧
      (0 ≤ operand.value ∧ operand.value ≤ 0xFFFF) ∧
      a.finish.machine = { a.bound.machine with address := operand.value }) ∨
    ∃ head cpu, a.line.statement = [head] ∧ head.kind = .keyword ∧
      head.text.bind Keyword.ofName? = some (.processor cpu) ∧
      a.finish.machine = { a.bound.machine with cpu := cpu }

/-- What can become of a statement. Its bytes are emitted, or it is reported, or it is passed over in
silence, or it is a directive that was obeyed. -/
inductive Outcome where
  | accepted
  | reported
  | dropped
  | obeyed
  deriving DecidableEq, Repr

/-- What becomes of a statement with an effect. -/
def Outcome.ofEffect : Effect → Outcome
  | .emit _ _ => .accepted
  | .report _ => .reported
  | .nothing => .dropped
  | .moveTo _ _ | .choose _ => .obeyed

theorem Outcome.ofEffect_eq_dropped {e : Effect} (h : ofEffect e = .dropped) : e = .nothing := by
  cases e with
  | nothing => rfl
  | _ => cases h

/-- What an account shows: one accepted emission and no report; one report and nothing else; nothing
at all, without a directive to obey; or a directive that was obeyed, without emission or report. -/
def Shows (a : Account) : Outcome → Prop
  | .accepted => (∃ e, a.emissions = [e] ∧ e.standing = .accepted) ∧ a.reports = []
  | .reported => (∃ d, a.reports = [d]) ∧ a.emissions = [] ∧ a.finish.machine = a.bound.machine
  | .dropped => a.finish = a.bound ∧ ¬ a.Obeyed
  | .obeyed => a.Obeyed ∧ a.emissions = [] ∧ a.reports = []

/-- The account is closed: the walk has stepped over the line. -/
def Closes (a : Account) : Prop :=
  a.start.step .final a.line = .ok a.finish

variable {a : Account}

/-- A closed account comes from one effect of the statement. -/
theorem Closes.exists_effect (h : a.Closes) :
    ∃ e, Statement.effect .final a.bound.machine a.line.statement = .ok e ∧
      a.finish = a.bound.apply .final e := by
  have hact : a.bound.act .final (.statement a.line.statement) = .ok a.finish := h
  exact Walk.act_statement_iff.1 hact

theorem duplicates_eq (a : Account) :
    a.duplicates =
      a.line.labels.filterMap fun l => a.start.machine.symbols.verify? l.text l.location := by
  rw [duplicates, bound, Walk.reports_labels, List.drop_left]

/-- What the effect of the statement adds is what the account shows. -/
theorem reports_eq {e : Effect} (h : a.finish = a.bound.apply .final e) : a.reports = e.reports := by
  rw [reports, h, Walk.apply_reports, List.drop_left]

theorem emissions_eq {e : Effect} (h : a.finish = a.bound.apply .final e) :
    a.emissions = e.emissions a.bound := by
  rw [emissions, h, Walk.apply_emissions, List.drop_left]

/-- Labels add at most one report each, in order, at their own places. -/
theorem duplicates_sublist (a : Account) :
    (a.duplicates.map Diagnostic.location).Sublist (a.line.labels.map fun l => some l.location) ∧
      ∀ d ∈ a.duplicates, d.category = .duplicateSymbol := by
  rw [duplicates_eq]
  -- a label that is verified adds nothing, and any other one adds one report at its place
  induction a.line.labels with
  | nil =>
    refine ⟨List.Sublist.slnil, fun d hd => ?_⟩
    cases hd
  | cons l labels ih =>
    obtain ⟨hsublist, hcategory⟩ := ih
    rw [List.filterMap_cons]
    cases hd : a.start.machine.symbols.verify? l.text l.location with
    | none => exact ⟨hsublist.cons _, hcategory⟩
    | some d =>
      obtain ⟨hlocation, hduplicate⟩ := SymbolTable.reported_of_verify? hd
      refine ⟨?_, List.forall_mem_cons.2 ⟨hduplicate, hcategory⟩⟩
      dsimp only
      rw [List.map_cons, List.map_cons, hlocation]
      exact hsublist.cons_cons _

/-- A statement of which something was left out is no directive to obey. -/
theorem Obeyed.valid (h : a.Obeyed) : ∀ i ∈ a.line.statement, i.kind ≠ .invalid := by
  rcases h with ⟨head, operand, hstatement, hhead, -, hoperand, -⟩ | ⟨head, cpu, hstatement, hhead, -⟩
  · rw [hstatement]
    intro i hi hinvalid
    rcases List.mem_cons.1 hi with rfl | hi
    · rw [hhead] at hinvalid
      cases hinvalid
    · rw [List.mem_singleton.1 hi, hoperand] at hinvalid
      cases hinvalid
  · rw [hstatement]
    intro i hi hinvalid
    rw [List.mem_singleton.1 hi, hhead] at hinvalid
    cases hinvalid

/-- No account shows two outcomes. -/
theorem Shows.unique {o o' : Outcome} (h : a.Shows o) (h' : a.Shows o') : o = o' := by
  have hreports : a.finish = a.bound → a.reports = [] := by
    intro hsame
    rw [reports, hsame, List.drop_length]
  have hemissions : a.finish = a.bound → a.emissions = [] := by
    intro hsame
    rw [emissions, hsame, List.drop_length]
  -- the outcomes differ in what they say of emissions, of reports or of being obeyed
  cases o <;> cases o' <;> simp_all [Shows]

/-- An account of a statement shows what its effect makes of it. -/
theorem Closes.shows_ofEffect (hgenuine : ∀ i ∈ a.line.statement, i.Genuine)
    (hne : a.line.statement ≠ []) {e : Effect}
    (he : Statement.effect .final a.bound.machine a.line.statement = .ok e)
    (hfinish : a.finish = a.bound.apply .final e) : a.Shows (Outcome.ofEffect e) := by
  have hreports := reports_eq hfinish
  have hemissions := emissions_eq hfinish
  have hmachine : a.finish.machine = e.onMachine a.bound.machine := by
    rw [hfinish, Walk.apply_machine]
  cases e with
  | emit place data => exact ⟨⟨_, hemissions, rfl⟩, hreports⟩
  | report d => exact ⟨⟨d, hreports⟩, hemissions, hmachine⟩
  | nothing =>
    -- a statement that is not empty does nothing only if something of it was left out
    refine ⟨hfinish, fun hobeyed => ?_⟩
    rcases Statement.effect_nothing_iff.1 he with hnil | ⟨i, hi, hinvalid⟩
    · exact hne hnil
    · exact hobeyed.valid i hi hinvalid
  -- the number is one that the parser has made, so that fitting means being an address
  | moveTo line address =>
    obtain ⟨head, operand, hstatement, hhead, horigin, hnumber, hfits, rfl⟩ :=
      Statement.effect_moveTo he
    have hoperand : operand.Genuine := by
      apply hgenuine
      rw [hstatement]
      exact List.mem_cons_of_mem _ List.mem_cons_self
    refine ⟨.inl ⟨head, operand, hstatement, hhead, horigin, hnumber, ?_, hmachine⟩, hemissions,
      hreports⟩
    exact hoperand.number_fits hnumber hfits
  | choose cpu =>
    obtain ⟨head, hstatement, hhead, hcpu⟩ := Statement.effect_choose he
    exact ⟨.inr ⟨head, cpu, hstatement, hhead, hcpu, hmachine⟩, hemissions, hreports⟩

/-- **What becomes of a statement.** A statement that is not empty has exactly one outcome. It is
accepted only if it starts with a mnemonic, on a processor with an encoder; it is dropped exactly if
something of it was left out; and an empty statement leaves no trace. -/
structure Balances (a : Account) : Prop where
  duplicates_places :
    (a.duplicates.map Diagnostic.location).Sublist (a.line.labels.map fun l => some l.location)
  duplicates_category : ∀ d ∈ a.duplicates, d.category = .duplicateSymbol
  empty : a.line.statement = [] → a.finish = a.bound
  outcome : a.line.statement ≠ [] → ∃! o, a.Shows o
  accepted : a.Shows .accepted → Statement.startsWithMnemonic a.line.statement = true ∧
    a.bound.machine.cpu = .z80 ∧ ∀ i ∈ a.line.statement, i.kind ≠ .invalid
  dropped : a.line.statement ≠ [] →
    (a.Shows .dropped ↔ ∃ i ∈ a.line.statement, i.kind = .invalid)

theorem Closes.balances (h : a.Closes) (hgenuine : ∀ i ∈ a.line.statement, i.Genuine) :
    a.Balances := by
  obtain ⟨e, he, hfinish⟩ := h.exists_effect
  have hshows : a.line.statement ≠ [] → a.Shows (Outcome.ofEffect e) :=
    fun hne => Closes.shows_ofEffect hgenuine hne he hfinish
  have hnothing := @Statement.effect_nothing_iff .final a.bound.machine a.line.statement
  rw [he, Except.ok.injEq] at hnothing
  obtain ⟨hplaces, hcategory⟩ := a.duplicates_sublist
  refine ⟨hplaces, hcategory, ?_, ?_, ?_, ?_⟩
  · intro hnil
    rw [hfinish, hnothing.2 (.inl hnil)]
    rfl
  · intro hne
    exact ⟨_, hshows hne, fun o ho => ho.unique (hshows hne)⟩
  · intro haccepted
    -- an accepted emission comes from an effect that emits
    obtain ⟨⟨emission, hemission, -⟩, -⟩ := haccepted
    rw [emissions_eq hfinish] at hemission
    cases e with
    | emit place data =>
      obtain ⟨head, rest, hstatement, hkind, hcpu, hvalid⟩ := Statement.effect_emit he
      refine ⟨?_, hcpu, hvalid⟩
      rw [hstatement, Statement.startsWithMnemonic]
      exact beq_iff_eq.2 hkind
    | _ => cases hemission
  · intro hne
    constructor
    · intro hdropped
      have heffect : Outcome.ofEffect e = .dropped := (hshows hne).unique hdropped
      exact (hnothing.1 (Outcome.ofEffect_eq_dropped heffect)).resolve_left hne
    · intro hinvalid
      have hdropped := hshows hne
      rwa [hnothing.2 (.inr hinvalid)] at hdropped

/-- Without reports, and with nothing left out, a statement emits once if it starts with a mnemonic
and not at all otherwise. -/
theorem Closes.length_emissions (h : a.Closes)
    (hvalid : ∀ i ∈ a.line.statement, i.kind ≠ .invalid) (hreports : a.reports = []) :
    a.emissions.length = if Statement.startsWithMnemonic a.line.statement then 1 else 0 := by
  obtain ⟨e, he, hfinish⟩ := h.exists_effect
  rw [reports_eq hfinish] at hreports
  rw [emissions_eq hfinish]
  split
  next hstarts =>
    cases hstatement : a.line.statement with
    | nil =>
      rw [hstatement] at hstarts
      cases hstarts
    | cons head rest =>
      rw [hstatement] at hstarts he hvalid
      have hkind : head.kind = .mnemonic := beq_iff_eq.1 hstarts
      rcases Statement.effect_of_mnemonic hkind hvalid he with ⟨place, data, rfl⟩ | ⟨d, rfl⟩
      · rfl
      · cases hreports
  next hstarts =>
    cases e with
    | emit place data =>
      obtain ⟨head, rest, hstatement, hkind, -⟩ := Statement.effect_emit he
      rw [hstatement] at hstarts
      exact absurd (beq_iff_eq.2 hkind) hstarts
    | _ => rfl

/-- So a row of such statements emits once for each that starts with a mnemonic. -/
theorem length_flatMap_emissions {accounts : List Account} (hcloses : ∀ a ∈ accounts, a.Closes)
    (hvalid : ∀ a ∈ accounts, ∀ i ∈ a.line.statement, i.kind ≠ .invalid)
    (hreports : ∀ a ∈ accounts, a.reports = []) :
    (accounts.flatMap emissions).length =
      ((accounts.map fun a => a.line.statement).filter Statement.startsWithMnemonic).length := by
  -- account by account: each adds as much to both sides
  induction accounts with
  | nil => rfl
  | cons a accounts ih =>
    obtain ⟨hclose, hcloses⟩ := List.forall_mem_cons.1 hcloses
    obtain ⟨hkinds, hvalid⟩ := List.forall_mem_cons.1 hvalid
    obtain ⟨hsilent, hreports⟩ := List.forall_mem_cons.1 hreports
    rw [List.flatMap_cons, List.length_append, ih hcloses hvalid hreports,
      hclose.length_emissions hkinds hsilent, List.map_cons, List.filter_cons]
    split
    · rw [List.length_cons]
      omega
    · omega

end Account

/-! ### Ledgers -/

namespace Walk

/-- The accounts of a final walk over some lines. -/
def ledger (w : Walk) : List Line → List Account
  | [] => []
  | line :: lines =>
    match w.step .final line with
    | .ok w' => ⟨line, w, w'⟩ :: w'.ledger lines
    | .error _ => []

variable {w w' : Walk} {lines : List Line}

/-- The induction over the ledger of a walk that arrives: a fact about the walk, the lines left and
the walk at the end that holds at the end holds at the start if every closed account carries it back
over its line. -/
theorem ledger_induction {P : Walk → List Line → List Account → Prop}
    (h : lines.foldlM (step .final) w = .ok w') (hnil : P w' [] [])
    (hcons : ∀ (a : Account) (rest : List Line) (accounts : List Account), a.Closes →
      P a.finish rest accounts → P a.start (a.line :: rest) (a :: accounts)) :
    P w lines (w.ledger lines) := by
  induction lines generalizing w with
  | nil =>
    cases h
    exact hnil
  | cons line lines ih =>
    rw [List.foldlM_cons, bind_eq_ok_iff] at h
    obtain ⟨u, hstep, h⟩ := h
    rw [ledger, hstep]
    exact hcons ⟨line, w, u⟩ lines _ hstep (ih h)

/-- Every line has its account, in order, and every account is closed. -/
theorem ledger_lines (h : lines.foldlM (step .final) w = .ok w') :
    (w.ledger lines).map Account.line = lines ∧ ∀ a ∈ w.ledger lines, a.Closes := by
  refine ledger_induction (P := fun _ lines accounts =>
    accounts.map Account.line = lines ∧ ∀ a ∈ accounts, a.Closes) h ⟨rfl, ?_⟩ ?_
  · intro a ha
    cases ha
  · rintro a rest accounts hcloses ⟨hlines, haccounts⟩
    exact ⟨congrArg _ hlines, List.forall_mem_cons.2 ⟨hcloses, haccounts⟩⟩

/-- **The emissions of a walk are those of its ledger.** -/
theorem emissions_ledger (h : lines.foldlM (step .final) w = .ok w') :
    w'.emissions.toList =
      w.emissions.toList ++ (w.ledger lines).flatMap Account.emissions := by
  refine ledger_induction (P := fun u _ accounts =>
    w'.emissions.toList = u.emissions.toList ++ accounts.flatMap Account.emissions) h ?_ ?_
  · exact (List.append_nil _).symm
  · intro a rest accounts hcloses hrest
    obtain ⟨e, -, hfinish⟩ := hcloses.exists_effect
    rw [hrest, List.flatMap_cons, Account.emissions_eq hfinish, ← List.append_assoc]
    congr 1
    -- labels emit nothing
    rw [hfinish, apply_emissions, Account.bound, emissions_labels]

/-- **The reports of a walk are those of its ledger**, those on the labels of a line in front of the
one on its statement. -/
theorem reports_ledger (h : lines.foldlM (step .final) w = .ok w') :
    w'.reports.toList =
      w.reports.toList ++ (w.ledger lines).flatMap fun a => a.duplicates ++ a.reports := by
  refine ledger_induction (P := fun u _ accounts =>
    w'.reports.toList = u.reports.toList ++ accounts.flatMap fun a => a.duplicates ++ a.reports)
    h ?_ ?_
  · exact (List.append_nil _).symm
  · intro a rest accounts hcloses hrest
    obtain ⟨e, -, hfinish⟩ := hcloses.exists_effect
    rw [hrest, List.flatMap_cons, Account.reports_eq hfinish, Account.duplicates_eq,
      ← List.append_assoc, ← List.append_assoc]
    congr 1
    rw [hfinish, apply_reports, Account.bound, reports_labels]

end Walk

/-- The ledger of the final walk over a program. It is empty if the survey does not arrive, since there
is no final walk then. -/
def Machine.ledger (m : Machine) (items : List Item) : List Account :=
  match Walk.run .survey m (Line.ofItems items) with
  | .ok survey =>
    Walk.ledger { machine := { m with symbols := survey.machine.symbols } } (Line.ofItems items)
  | .error _ => []

/-! ### Programs -/

/-- Rows of items are what separators leave between them. -/
theorem Line.rows_eq_splitOnP (items : List Item) :
    rows items = items.splitOnP fun i => i.kind == .separator := by
  induction items with
  | nil => rfl
  | cons i items ih =>
    rw [rows, List.splitOnP_cons_eq_if_modifyHead, ← ih]
    by_cases hi : i.kind = .separator
    · rw [if_pos hi, if_pos (beq_iff_eq.2 hi)]
    · rw [if_neg hi, if_neg fun h => hi (beq_iff_eq.1 h)]
      -- there is always a row, though it may be empty
      cases hrows : rows items with
      | nil => exact absurd (ih.symm.trans hrows) (List.splitOnP_ne_nil _ _)
      | cons row more => rfl

/-- The statements of a program: what its separators leave between them, without the labels in front,
unless nothing is left. -/
def statementsOf (items : List Item) : List (List Item) :=
  ((items.splitOnP fun i => i.kind == .separator).map fun row =>
    row.dropWhile fun i => i.kind == .label).filter fun statement => !statement.isEmpty

/-- An empty statement does not start with a mnemonic, so it does not matter whether it is counted. -/
theorem filter_statementsOf (items : List Item) :
    (statementsOf items).filter Statement.startsWithMnemonic =
      ((Line.ofItems items).map Line.statement).filter Statement.startsWithMnemonic := by
  rw [statementsOf, Line.ofItems, Line.rows_eq_splitOnP, List.map_map, List.filter_filter]
  refine List.filter_congr fun statement _ => ?_
  cases statement with
  | nil => rfl
  | cons head rest => exact Bool.and_true _

/-- **A run and its ledger.** Every part of the program between separators has its account, every
account balances, and the emissions and reports of the run are those of the accounts, in order. If
neither reading the program nor assembling it has led to a report, there are as many emissions as
statements that start with a mnemonic. -/
structure Accounted (m : Machine) (parsed : Parsed) (listing : Listing) : Prop where
  lines : (m.ledger parsed.items).map Account.line =
    (parsed.items.splitOnP fun i => i.kind == .separator).map Line.ofRow
  emissions : listing.emissions = (m.ledger parsed.items).flatMap Account.emissions
  reports : listing.reports =
    (m.ledger parsed.items).flatMap fun a => a.duplicates ++ a.reports
  balances : ∀ a ∈ m.ledger parsed.items, a.Balances
  count : parsed.reports = [] → listing.reports = [] →
    listing.emissions.length =
      ((statementsOf parsed.items).filter Statement.startsWithMnemonic).length

/-- A run that arrives has stepped over all lines in the final walk. -/
theorem Machine.exists_final {m : Machine} {items : List Item} {listing : Listing}
    (h : m.assemble items = .ok listing) :
    ∃ w w' : Walk, (Line.ofItems items).foldlM (Walk.step .final) w = .ok w' ∧
      m.ledger items = w.ledger (Line.ofItems items) ∧ w.emissions = #[] ∧ w.reports = #[] ∧
      listing.emissions = w'.emissions.toList ∧ listing.reports = w'.reports.toList := by
  unfold Machine.assemble at h
  obtain ⟨survey, hsurvey, h⟩ := bind_eq_ok_iff.1 h
  obtain ⟨final, hfinal, h⟩ := bind_eq_ok_iff.1 h
  cases h
  refine ⟨_, final, hfinal, ?_, rfl, rfl, rfl, rfl⟩
  rw [Machine.ledger, hsurvey]

/-- **Every statement is accounted for.** A parsed program assembles on every machine whose labels
have names, and wherever it does, nothing of it is lost and nothing is reported twice. -/
theorem statements_accounted (m : Machine) (file : String) (tokens : List Token) :
    (m.symbols.AllNamed → ∃ listing, m.assemble (parse file tokens).items = .ok listing) ∧
      ∀ listing, m.assemble (parse file tokens).items = .ok listing →
        Accounted m (parse file tokens) listing := by
  constructor
  · intro hnamed
    obtain ⟨p⟩ := Passes.exists_passes hnamed file tokens
    exact ⟨p.listing, p.assemble_eq⟩
  intro listing hlisting
  obtain ⟨w, w', hfinal, hledger, hempty, hsilent, hemissions, hreports⟩ :=
    Machine.exists_final hlisting
  obtain ⟨hlines, hcloses⟩ := Walk.ledger_lines hfinal
  rw [← hledger] at hlines hcloses
  have hemitted : listing.emissions =
      (m.ledger (parse file tokens).items).flatMap Account.emissions := by
    rw [hemissions, hledger, Walk.emissions_ledger hfinal, hempty]
    rfl
  have hsaid : listing.reports =
      (m.ledger (parse file tokens).items).flatMap fun a => a.duplicates ++ a.reports := by
    rw [hreports, hledger, Walk.reports_ledger hfinal, hsilent]
    rfl
  have hline : ∀ a ∈ m.ledger (parse file tokens).items,
      a.line ∈ Line.ofItems (parse file tokens).items := by
    intro a ha
    rw [← hlines]
    exact List.mem_map_of_mem ha
  refine ⟨?_, hemitted, hsaid, fun a ha => ?_, fun hread hassembled => ?_⟩
  · rw [hlines, Line.ofItems, Line.rows_eq_splitOnP]
  · exact (hcloses a ha).balances fun i hi => genuine_of_mem_line (hline a ha) (.inr hi)
  · -- nothing was left out, and no account shows a report
    have hvalid : ∀ a ∈ m.ledger (parse file tokens).items,
        ∀ i ∈ a.line.statement, i.kind ≠ .invalid := by
      intro a ha i hi
      exact kind_ne_invalid_of_reports hread i (Line.mem_of_mem_ofItems (hline a ha) (.inr hi))
    have hquiet : ∀ a ∈ m.ledger (parse file tokens).items, a.reports = [] := by
      intro a ha
      rw [hsaid, List.flatMap_eq_nil_iff] at hassembled
      exact (List.append_eq_nil_iff.1 (hassembled a ha)).2
    rw [hemitted, Account.length_flatMap_emissions hcloses hvalid hquiet, filter_statementsOf, ← hlines,
      List.map_map]
    rfl

end CrossAssembler
