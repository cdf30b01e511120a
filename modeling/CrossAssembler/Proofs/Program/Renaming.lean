import CrossAssembler.Proofs.Instruction.Renaming
import CrossAssembler.Proofs.Program.Phase
import CrossAssembler.Token.Scan
import Mathlib.Logic.Equiv.Basic

/-!
# Programs under new names

The names of labels carry no meaning but that of being told apart. So a program whose labels and
references are renamed, one name for one name, assembles to the same bytes at the same addresses,
and what is wrong with it is wrong in the same places.

* **One statement** (`Statement.alike_effect`): under new names a statement has the same effect, up
  to the words of a report.
* **One stop, one walk** (`Walk.Renamed.act`, `Walk.Renamed.along`): two walks that agree up to
  names and words still do behind any stops that do.
* **Both walks** (`Passes.renamed`), and with them a program (`assemble_rename`).

All of it holds of items that differ in the contents of strings as well (`Item.Respelled`).
-/

namespace CrossAssembler

variable {f : String → String}

theorem Diagnostic.gist_placed {l l' : Location} {p p' : Problem} (hl : l' = l)
    (hp : p'.category = p.category) :
    (Diagnostic.placed l p).gist = (Diagnostic.placed l' p').gist := by
  change (p.category, some l) = (p'.category, some l')
  rw [hl, hp]

theorem mapError_map {α β ε ε' : Type} (g : ε → ε') (h : α → β) (x : Except ε α) :
    (x.map h).mapError g = (x.mapError g).map h := by
  cases x <;> rfl

/-! ### Machines and effects -/

/-- A machine with its symbols under new names. -/
def Machine.rename (f : String → String) (m : Machine) : Machine :=
  { m with symbols := m.symbols.rename f }

/-- An emission whose label has its new name. -/
def Emission.rename (f : String → String) (e : Emission) : Emission :=
  { e with label := e.label.map f }

/-- Effects that are the same up to the words of a report. Bytes and addresses hold no names, so nothing
else of an effect can change. -/
inductive Effect.Alike : Effect → Effect → Prop where
  | refl (e : Effect) : Alike e e
  | report {d d' : Diagnostic} (h : d.gist = d'.gist) : Alike (report d) (report d')

theorem Effect.Alike.onMachine_rename {e e' : Effect} (h : e.Alike e') (m : Machine) :
    e'.onMachine (m.rename f) = (e.onMachine m).rename f := by
  cases h with
  | refl => cases e <;> rfl
  | report h => rfl

/-! ### One statement -/

namespace Statement

variable {items items' : List Item}

theorem reworded_moreOperands (mnemonic : String)
    (h : List.Forall₂ (Item.Respelled f) items items') :
    Reworded (List.Forall₂ (Item.Respelled f)) ((moreOperands mnemonic items).mapError .problem)
      ((moreOperands mnemonic items').mapError .problem) := by
  -- what is refused is decided by kinds, which stay; only the words of the report may be others
  fun_induction moreOperands mnemonic items generalizing items' with
  | case1 =>
    cases h
    exact .ok .nil
  | case2 comma hcomma =>
    obtain _ | ⟨hsep, ⟨⟩⟩ := h
    rw [moreOperands, if_pos (hsep.kind_eq.trans hcomma)]
    exact .problem (Diagnostic.gist_placed hsep.location_eq rfl)
  | case3 comma hcomma =>
    obtain _ | ⟨hsep, ⟨⟩⟩ := h
    rw [moreOperands, hsep.kind_eq, if_neg hcomma]
    exact .problem (Diagnostic.gist_placed hsep.location_eq rfl)
  | case4 comma operand rest hcomma =>
    obtain _ | ⟨hsep, _ | ⟨hhead, hrest⟩⟩ := h
    rw [moreOperands, hsep.kind_eq, if_pos hcomma]
    exact .problem (Diagnostic.gist_placed hsep.location_eq rfl)
  | case5 comma operand rest hcomma hoperand =>
    obtain _ | ⟨hsep, _ | ⟨hhead, hrest⟩⟩ := h
    rw [moreOperands, hsep.kind_eq, if_neg hcomma, hhead.kind_eq, if_pos hoperand]
    exact .problem (Diagnostic.gist_placed hhead.location_eq rfl)
  | case6 comma operand rest hcomma hoperand ih =>
    obtain _ | ⟨hsep, _ | ⟨hhead, hrest⟩⟩ := h
    rw [moreOperands, hsep.kind_eq, if_neg hcomma, hhead.kind_eq, if_neg hoperand,
      mapError_map, mapError_map]
    exact (ih hrest).map fun _ _ hothers => .cons hhead hothers

theorem reworded_operands (mnemonic : String)
    (h : List.Forall₂ (Item.Respelled f) items items') :
    Reworded (List.Forall₂ (Item.Respelled f)) ((operands mnemonic items).mapError .problem)
      ((operands mnemonic items').mapError .problem) := by
  cases h with
  | nil => exact .ok .nil
  | @cons operand operand' rest rest' hhead hrest =>
    rw [operands, operands, hhead.kind_eq]
    by_cases hoperand : operand.kind.isOperand = false
    · rw [if_pos hoperand, if_pos hoperand]
      exact .problem (Diagnostic.gist_placed hhead.location_eq rfl)
    · rw [if_neg hoperand, if_neg hoperand, mapError_map, mapError_map]
      exact (reworded_moreOperands mnemonic hrest).map fun _ _ hothers => .cons hhead hothers

/-- What an instruction gives under new names. -/
theorem reworded_instruction (hf : Function.Injective f) (pass : Pass) (m : Machine) (head : Item)
    (h : List.Forall₂ (Item.Respelled f) items items') :
    Reworded Eq (instruction pass m head items) (instruction pass (m.rename f) head items') := by
  unfold instruction
  refine (reworded_operands head.shownText h).bind fun ops ops' hops => ?_
  change Reworded Eq
    (if m.cpu ≠ .z80 then _ else _ : Except Failure _) (if m.cpu ≠ .z80 then _ else _)
  -- the processor is the same on both machines
  by_cases hcpu : m.cpu ≠ .z80
  · rw [if_pos hcpu, if_pos hcpu]
    exact .problem rfl
  · rw [if_neg hcpu, if_neg hcpu]
    cases head.text.bind Mnemonic.ofName? with
    | none => exact .fault _
    | some mnemonic =>
      exact Instruction.reworded_encode hf ⟨pass, m.address, m.symbols⟩ mnemonic hops head.location

/-- An item that is left over is reported at its place. -/
theorem alike_expectEnd (head : Item) (e : Effect)
    (h : List.Forall₂ (Item.Respelled f) items items') :
    (expectEnd head e items).Alike (expectEnd head e items') := by
  cases h with
  | nil => exact .refl e
  | cons hextra _ => exact .report (Diagnostic.gist_placed hextra.location_eq rfl)

theorem alike_origin (head : Item) (h : List.Forall₂ (Item.Respelled f) items items') :
    (origin head items).Alike (origin head items') := by
  cases h with
  | nil => exact .refl _
  | @cons operand operand' rest rest' hoperand hrest =>
    -- an operand is judged by its kind and value, and reported at its place
    rw [origin, origin, hoperand.kind_eq, hoperand.fits16_eq, hoperand.value_eq]
    by_cases hkind : operand.kind ≠ .number
    · rw [if_pos hkind, if_pos hkind]
      exact .refl _
    · rw [if_neg hkind, if_neg hkind]
      by_cases hfits : operand.fits16 = false
      · rw [if_pos hfits, if_pos hfits]
        exact .report (Diagnostic.gist_placed hoperand.location_eq rfl)
      · rw [if_neg hfits, if_neg hfits]
        exact alike_expectEnd head _ hrest

theorem alike_directive (head : Item) (h : List.Forall₂ (Item.Respelled f) items items') :
    (directive head items).Alike (directive head items') := by
  unfold directive
  cases head.text.bind Keyword.ofName? with
  | none => exact .refl _
  | some keyword =>
    cases keyword with
    | origin => exact alike_origin head h
    | processor cpu => exact alike_expectEnd head _ h
    | _ => exact .refl _

/-- The kinds of the items stay, so an invalid item stays one. -/
theorem any_invalid_eq (h : List.Forall₂ (Item.Respelled f) items items') :
    (items'.any fun i => i.kind == .invalid) = items.any fun i => i.kind == .invalid := by
  induction h with
  | nil => rfl
  | cons hi _ ih => rw [List.any_cons, List.any_cons, hi.kind_eq, ih]

/-- An instruction stays an instruction, with the same mnemonic. -/
theorem IsInstruction.respelled {head : Item} {rest : List Item}
    (hinstruction : IsInstruction items head rest)
    (h : List.Forall₂ (Item.Respelled f) items items') :
    ∃ rest', IsInstruction items' head rest' ∧ List.Forall₂ (Item.Respelled f) rest rest' := by
  have hvalid := any_invalid_eq h
  obtain ⟨rfl, hall, hkind⟩ := hinstruction
  obtain _ | ⟨hhead, hrest⟩ := h
  -- mnemonics are no names, so that they are not renamed
  obtain rfl := hhead.eq_of_kind (.inl hkind)
  exact ⟨_, ⟨rfl, hvalid.trans hall, hkind⟩, hrest⟩

theorem alike_plainEffect (h : List.Forall₂ (Item.Respelled f) items items') :
    (plainEffect items).Alike (plainEffect items') := by
  have hvalid := any_invalid_eq h
  cases h with
  | nil => exact .refl _
  | @cons head head' rest rest' hhead hrest =>
    rw [plainEffect, plainEffect, hvalid]
    by_cases hinvalid : ((head :: rest).any fun i => i.kind == .invalid) = true
    · rw [if_pos hinvalid, if_pos hinvalid]
      exact .refl _
    · rw [if_neg hinvalid, if_neg hinvalid, hhead.kind_eq]
      cases hkind : head.kind with
      | keyword =>
        obtain rfl := hhead.eq_of_kind (.inr hkind)
        exact alike_directive _ hrest
      -- a head that is out of place is named in the report, under its new name
      | _ => exact .report (Diagnostic.gist_placed hhead.location_eq rfl)

/-- **One statement.** Under new names it has the same effect, up to the words of a report. -/
theorem alike_effect (hf : Function.Injective f) {pass : Pass} {m : Machine} {e : Effect}
    (h : List.Forall₂ (Item.Respelled f) items items') (he : effect pass m items = .ok e) :
    ∃ e', effect pass (m.rename f) items' = .ok e' ∧ e.Alike e' := by
  -- only an instruction looks at the symbols, and so only it has to be compared on both machines
  by_cases hkind : ∃ head rest, IsInstruction items head rest
  · obtain ⟨head, rest, hinstruction⟩ := hkind
    obtain ⟨rest', hinstruction', hrest⟩ := hinstruction.respelled h
    have hresult := reworded_instruction hf pass m head hrest
    rw [hinstruction.effect_eq] at he
    rw [hinstruction'.effect_eq]
    generalize instruction pass m head rest = r at he hresult
    generalize instruction pass (m.rename f) head rest' = r' at hresult
    cases hresult with
    | ok hdata =>
      cases he
      exact ⟨_, rfl, hdata ▸ .refl _⟩
    | problem hgist =>
      cases he
      exact ⟨_, rfl, .report hgist⟩
    | fault fault => cases he
  · have hkind' : ¬ ∃ head rest, IsInstruction items' head rest := by
      rintro ⟨head', rest', rfl, hall, hmnemonic⟩
      have hvalid := any_invalid_eq h
      obtain _ | ⟨hhead, hrest⟩ := h
      exact hkind ⟨_, _, rfl, hvalid.symm.trans hall, hhead.kind_eq.symm.trans hmnemonic⟩
    rw [effect_eq_plainEffect hkind] at he
    cases he
    exact ⟨_, effect_eq_plainEffect hkind' _ _, alike_plainEffect h⟩

end Statement

/-! ### Stops -/

/-- Labels and statements that are the same up to names. -/
inductive Stop.Respelled (f : String → String) : Stop → Stop → Prop where
  | label {item item' : Item} (hkind : item.kind = .label) (h : item.Respelled f item') :
      Respelled f (label item) (label item')
  | statement {items items' : List Item} (h : List.Forall₂ (Item.Respelled f) items items') :
      Respelled f (statement items) (statement items')

namespace Line

variable {items items' : List Item}

theorem respelled_rows (h : List.Forall₂ (Item.Respelled f) items items') :
    List.Forall₂ (List.Forall₂ (Item.Respelled f)) (rows items) (rows items') := by
  induction h with
  | nil => exact .cons .nil .nil
  | @cons i i' rest rest' hi _ ih =>
    -- rows end where the kind of an item says so, and kinds stay
    rw [rows, rows, hi.kind_eq]
    by_cases hseparator : i.kind = .separator
    · rw [if_pos hseparator, if_pos hseparator]
      exact .cons .nil ih
    · rw [if_neg hseparator, if_neg hseparator]
      generalize rows rest = before at ih
      generalize rows rest' = after at ih
      cases ih with
      | nil => exact .cons (.cons hi .nil) .nil
      | cons hrow hmore => exact .cons (.cons hi hrow) hmore

/-- The labels in front of a row, and the statement behind them. -/
theorem respelled_ofRow (h : List.Forall₂ (Item.Respelled f) items items') :
    List.Forall₂ (Stop.Respelled f) ((ofRow items).labels.map Stop.label)
        ((ofRow items').labels.map Stop.label) ∧
      List.Forall₂ (Item.Respelled f) (ofRow items).statement (ofRow items').statement := by
  unfold ofRow
  dsimp only
  -- labels are taken off as long as the kinds say so
  induction h with
  | nil => exact ⟨.nil, .nil⟩
  | @cons i i' rest rest' hi hrest ih =>
    rw [List.takeWhile_cons, List.takeWhile_cons, List.dropWhile_cons, List.dropWhile_cons,
      hi.kind_eq]
    by_cases hlabel : (i.kind == .label) = true
    · rw [if_pos hlabel, if_pos hlabel, if_pos hlabel, if_pos hlabel]
      exact ⟨.cons (.label (beq_iff_eq.1 hlabel) hi) ih.1, ih.2⟩
    · rw [if_neg hlabel, if_neg hlabel, if_neg hlabel, if_neg hlabel]
      exact ⟨.nil, .cons hi hrest⟩

end Line

/-- The stops of a program under new names are its stops under new names. -/
theorem Stop.respelled_ofItems {items items' : List Item}
    (h : List.Forall₂ (Item.Respelled f) items items') :
    List.Forall₂ (Stop.Respelled f) (ofItems items) (ofItems items') := by
  have hrows := Line.respelled_rows h
  unfold ofItems Line.ofItems
  generalize Line.rows items = before at hrows
  generalize Line.rows items' = after at hrows
  induction hrows with
  | nil => exact .nil
  | cons hrow _ ih =>
    obtain ⟨hlabels, hstatement⟩ := Line.respelled_ofRow hrow
    rw [List.map_cons, List.map_cons, List.flatMap_cons, List.flatMap_cons]
    exact List.rel_append (List.rel_append hlabels (.cons (.statement hstatement) .nil)) ih

/-! ### Walks -/

/-- The survey binds a new name as it binds the old one. -/
theorem Machine.bind_rename (hf : Function.Injective f) (m : Machine) {item item' : Item}
    (htext : item'.text = item.text.map f) (hlocation : item'.location = item.location) :
    (m.rename f).bind .survey item' = (m.bind .survey item).rename f := by
  change Machine.mk m.address m.cpu
    ((m.symbols.rename f).define item'.text m.address item'.location) = _
  rw [htext, hlocation, SymbolTable.define_rename hf]
  rfl

namespace Walk

/-- Walks that have done the same, one of them under new names. Notes count and locate things but name
none, so that they are the same on both sides. -/
structure Renamed (f : String → String) (w w' : Walk) : Prop where
  machine_eq : w'.machine = w.machine.rename f
  label_eq : w'.label = w.label.map f
  emissions_eq : w'.emissions.toList = w.emissions.toList.map (Emission.rename f)
  gists_eq : w'.reports.toList.map Diagnostic.gist = w.reports.toList.map Diagnostic.gist
  notes_eq : w'.notes = w.notes

namespace Renamed

variable {w w' u : Walk} {pass : Pass}

theorem report (h : w.Renamed f w') {d d' : Diagnostic} (hgist : d.gist = d'.gist) :
    (w.report pass d).Renamed f (w'.report pass d') := by
  cases pass with
  | survey => exact h
  | final =>
    refine { h with gists_eq := ?_ }
    -- both walks add a report of the same family at the same place
    change (w'.reports.push d').toList.map _ = (w.reports.push d).toList.map _
    rw [Array.toList_push, Array.toList_push, List.map_append, List.map_append, h.gists_eq,
      List.map_singleton, List.map_singleton, hgist]

theorem note (h : w.Renamed f w') (n : Note) : (w.note pass n).Renamed f (w'.note pass n) := by
  cases pass with
  | survey => exact h
  | final => exact { h with notes_eq := congrArg (·.push n) h.notes_eq }

/-- A label is bound, or verified, under its new name. -/
theorem bind (hf : Function.Injective f) (h : w.Renamed f w') {item item' : Item}
    (hkind : item.kind = .label) (hitem : item.Respelled f item') :
    (w.bind pass item).Renamed f (w'.bind pass item') := by
  have htext : item'.text = item.text.map f := hitem.text_eq_of_label hkind
  cases pass with
  | survey =>
    refine { h with machine_eq := ?_, label_eq := htext }
    rw [bind_machine, bind_machine, h.machine_eq]
    exact Machine.bind_rename hf _ htext hitem.location_eq
  | final =>
    have hverify : (w'.machine.symbols.verify? item'.text item'.location).map Diagnostic.gist =
        (w.machine.symbols.verify? item.text item.location).map Diagnostic.gist := by
      rw [h.machine_eq, htext, hitem.location_eq]
      exact SymbolTable.gist_verify?_rename hf _ _ _
    unfold Walk.bind
    dsimp only
    -- a name bound elsewhere is bound elsewhere under its new name
    cases hfound : w.machine.symbols.verify? item.text item.location with
    | none =>
      rw [hfound, Option.map_none, Option.map_eq_none_iff] at hverify
      rw [hverify]
      exact { h with label_eq := htext }
    | some d =>
      rw [hfound, Option.map_some, Option.map_eq_some_iff] at hverify
      obtain ⟨d', hfound', hgist⟩ := hverify
      rw [hfound']
      have hreported : (w.report .final d).Renamed f (w'.report .final d') := h.report hgist.symm
      exact { hreported with label_eq := htext }

theorem apply (h : w.Renamed f w') {e e' : Effect} (he : e.Alike e') :
    (w.apply pass e).Renamed f (w'.apply pass e') := by
  have hmachine : (w'.apply pass e').machine = (w.apply pass e).machine.rename f := by
    rw [apply_machine, apply_machine, h.machine_eq, he.onMachine_rename]
  cases he with
  | report hgist => exact h.report hgist
  | refl =>
    cases e with
    | nothing => exact h
    | choose cpu => exact { h with machine_eq := hmachine }
    | report d => exact h.report rfl
    | moveTo line address =>
      exact { h.note (.moved line address) with machine_eq := hmachine, label_eq := rfl }
    | emit location data =>
      have haddress : w'.machine.address = w.machine.address := by
        rw [h.machine_eq]
        rfl
      have hnoted : (if 0xFFFF < w.machine.address + data.length then
            w.note pass (.wrapped location.line) else w).Renamed f
          (if 0xFFFF < w'.machine.address + data.length then
            w'.note pass (.wrapped location.line) else w') := by
        rw [haddress]
        by_cases hwraps : 0xFFFF < w.machine.address + data.length
        · rw [if_pos hwraps, if_pos hwraps]
          exact h.note _
        · rw [if_neg hwraps, if_neg hwraps]
          exact h
      -- the label that waits is used up by the emission on both sides
      refine { hnoted with machine_eq := hmachine, label_eq := rfl, emissions_eq := ?_ }
      change (w'.emissions.push _).toList = (w.emissions.push _).toList.map _
      rw [Array.toList_push, Array.toList_push, List.map_append, h.emissions_eq, haddress,
        h.label_eq]
      rfl

/-- **One stop.** -/
theorem act (hf : Function.Injective f) (h : w.Renamed f w') {s s' : Stop}
    (hstop : s.Respelled f s') (hact : w.act pass s = .ok u) :
    ∃ u', w'.act pass s' = .ok u' ∧ u.Renamed f u' := by
  cases hstop with
  | label hkind hitem =>
    cases hact
    exact ⟨_, rfl, h.bind hf hkind hitem⟩
  | statement hitems =>
    obtain ⟨e, he, rfl⟩ := act_statement_iff.1 hact
    obtain ⟨e', he', halike⟩ := Statement.alike_effect hf hitems he
    rw [← h.machine_eq] at he'
    exact ⟨_, act_statement_iff.2 ⟨e', he', rfl⟩, h.apply halike⟩

/-- **A whole walk.** Where one walk arrives, the other does. -/
theorem along (hf : Function.Injective f) (h : w.Renamed f w') {stops stops' : List Stop}
    (hstops : List.Forall₂ (Stop.Respelled f) stops stops') (halong : w.along pass stops = .ok u) :
    ∃ u', w'.along pass stops' = .ok u' ∧ u.Renamed f u' := by
  -- the invariant is `Renamed`, and it is kept stop by stop
  induction hstops generalizing w w' with
  | nil =>
    cases halong
    exact ⟨w', rfl, h⟩
  | cons hstop _ ih =>
    obtain ⟨v, hact, halong⟩ := along_cons_iff.1 halong
    obtain ⟨v', hact', hv⟩ := h.act hf hstop hact
    obtain ⟨u', halong', hu⟩ := ih hv halong
    exact ⟨u', along_cons_iff.2 ⟨v', hact', halong'⟩, hu⟩

end Renamed

end Walk

/-! ### Both walks -/

/-- Listings that are the same up to names and words. -/
structure Listing.Renamed (f : String → String) (l l' : Listing) : Prop where
  machine_eq : l'.machine = l.machine.rename f
  emissions_eq : l'.emissions = l.emissions.map (Emission.rename f)
  gists_eq : l'.reports.map Diagnostic.gist = l.reports.map Diagnostic.gist
  notes_eq : l'.notes = l.notes

/-- **A program under new names** assembles if the program does, to the same listing up to names and
words. -/
theorem Passes.renamed (hf : Function.Injective f) {m : Machine} {items items' : List Item}
    (p : Passes m items) (hitems : List.Forall₂ (Item.Respelled f) items items') :
    ∃ p' : Passes (m.rename f) items', p.listing.Renamed f p'.listing := by
  have hstops := Stop.respelled_ofItems hitems
  have hfirst : Walk.Renamed f { machine := m } { machine := m.rename f } :=
    ⟨rfl, rfl, rfl, rfl, rfl⟩
  obtain ⟨survey, hsurvey, hsurveyed⟩ := hfirst.along hf hstops p.survey_along
  have hsymbols : survey.machine.symbols = p.survey.machine.symbols.rename f :=
    congrArg Machine.symbols hsurveyed.machine_eq
  -- the final walk starts with the symbols that the survey has found
  have hsecond : Walk.Renamed f { machine := { m with symbols := p.survey.machine.symbols } }
      { machine := { m.rename f with symbols := survey.machine.symbols } } :=
    ⟨congrArg (fun symbols => { m.rename f with symbols := symbols }) hsymbols, rfl, rfl, rfl, rfl⟩
  obtain ⟨final, hfinal, hfinished⟩ := hsecond.along hf hstops p.final_along
  rw [← Walk.run_eq_along] at hsurvey hfinal
  refine ⟨⟨survey, final, hsurvey, hfinal⟩, hfinished.machine_eq, hfinished.emissions_eq,
    hfinished.gists_eq, ?_⟩
  -- the first note counts the symbols, and the last one the emissions and the reports
  have hsize : survey.machine.symbols.size = p.survey.machine.symbols.size := by
    rw [hsymbols, SymbolTable.size_rename]
  have hemissions : final.emissions.size = p.final.emissions.size := by
    simpa using congrArg List.length hfinished.emissions_eq
  have hreports : final.reports.size = p.final.reports.size := by
    simpa using congrArg List.length hfinished.gists_eq
  unfold listing
  dsimp only
  rw [hsize, hemissions, hreports, hfinished.notes_eq]

/-- **Consistent renaming.** From every address and processor a parsed program assembles, and so
does the program with its labels and references under new names, one for one: to the same emissions
with their labels under new names, with the same notes, to the same address and processor, with the
same symbols in the same order under their new names, and with reports of the same families at the
same places. -/
theorem assemble_rename (f : String → String) (hf : Function.Injective f) (file : String)
    (tokens : List Token) (address : Int) (cpu : Cpu) :
    ∃ l l' : Listing,
      Machine.assemble { address := address, cpu := cpu } (parse file tokens).items = .ok l ∧
      Machine.assemble { address := address, cpu := cpu }
        ((parse file tokens).items.map (Item.rename f)) = .ok l' ∧
      l'.emissions = l.emissions.map (fun e => { e with label := e.label.map f }) ∧
      l'.machine.symbols.bindings =
        l.machine.symbols.bindings.map (fun b => (b.1.map f, b.2)) ∧
      l'.machine.address = l.machine.address ∧ l'.machine.cpu = l.machine.cpu ∧
      l'.reports.map (fun d => (d.category, d.location)) =
        l.reports.map (fun d => (d.category, d.location)) ∧
      l'.notes = l.notes := by
  obtain ⟨p⟩ := Passes.exists_passes (m := { address := address, cpu := cpu }) rfl file tokens
  have hitems : List.Forall₂ (Item.Respelled f) (parse file tokens).items
      ((parse file tokens).items.map (Item.rename f)) := by
    rw [List.forall₂_map_right_iff, List.forall₂_same]
    exact fun i _ => i.respelled_rename f
  obtain ⟨p', h⟩ := p.renamed hf hitems
  refine ⟨p.listing, p'.listing, p.assemble_eq, p'.assemble_eq, h.emissions_eq, ?_, ?_, ?_,
    h.gists_eq, h.notes_eq⟩
  · rw [h.machine_eq]
    exact SymbolTable.bindings_rename f _
  · rw [h.machine_eq]
    rfl
  · rw [h.machine_eq]
    rfl

set_option synthInstance.maxSize 1000 in
/-- A label takes the name of a register, by which no source text could refer to it, and is defined
twice. -/
theorem assemble_rename_register :
    ∃ tokens l l', tokenize "X: LD A,(X)\nX: JR Y\nY:" "s" = .ok tokens ∧
      Machine.assemble { address := 0x8000 } (parse "s" tokens).items = .ok l ∧
      Machine.assemble { address := 0x8000 }
        ((parse "s" tokens).items.map (Item.rename (Equiv.swap "X" "A"))) = .ok l' ∧
      l'.emissions.map (fun e => (e.address, e.data, e.label)) =
        [(0x8000, [0x3A, 0x00, 0x80], some "A"), (0x8003, [0x18, 0x00], some "A")] ∧
      l'.machine.symbols.bindings = [(some "A", 0x8000), (some "Y", 0x8005)] ∧
      l'.reports.map (fun d => (d.category, d.location)) =
        [(.duplicateSymbol, some ⟨"s", 2, 1⟩)] := by
  have hvalue : (tokenize "X: LD A,(X)\nX: JR Y\nY:" "s").toOption.map (fun tokens =>
      (Machine.assemble { address := 0x8000 } (parse "s" tokens).items).toOption.map fun l =>
        (l.emissions.map (fun e => (e.address, e.data, e.label)), l.machine.symbols.bindings,
          l.reports.map fun d => (d.category, d.location))) =
      some (some ([(0x8000, [0x3A, 0x00, 0x80], some "X"), (0x8003, [0x18, 0x00], some "X")],
        [(some "X", 0x8000), (some "Y", 0x8005)],
        [(.duplicateSymbol, some ⟨"s", 2, 1⟩)])) := by
    decide +kernel
  obtain ⟨tokens, htokens, hvalue⟩ := exists_ok_of_toOption hvalue
  obtain ⟨l, hl, hvalue⟩ := exists_ok_of_toOption hvalue
  simp only [Prod.mk.injEq] at hvalue
  obtain ⟨hemissions, hbindings, hreports⟩ := hvalue
  obtain ⟨l₀, l', hl₀, hl', hemissions', hbindings', -, -, hreports', -⟩ :=
    assemble_rename (Equiv.swap "X" "A") (Equiv.swap "X" "A").injective "s" tokens 0x8000 .z80
  obtain rfl : l₀ = l := Except.ok.inj (hl₀.symm.trans hl)
  have hother : Equiv.swap "X" "A" "Y" = "Y" :=
    Equiv.swap_apply_of_ne_of_ne (by decide) (by decide)
  refine ⟨tokens, l₀, l', htokens, hl, hl', ?_, ?_, hreports'.trans hreports⟩
  · rw [hemissions', List.map_map]
    change l₀.emissions.map ((fun q => (q.1, q.2.1, q.2.2.map (Equiv.swap "X" "A"))) ∘
      fun e => (e.address, e.data, e.label)) = _
    rw [← List.map_map, hemissions]
    simp only [List.map_cons, List.map_nil, Option.map_some, Equiv.swap_apply_left]
  · rw [hbindings', hbindings]
    simp only [List.map_cons, List.map_nil, Option.map_some, Equiv.swap_apply_left, hother]

end CrossAssembler
