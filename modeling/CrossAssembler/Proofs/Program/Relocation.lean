import CrossAssembler.Proofs.Instruction.Reference
import CrossAssembler.Proofs.Program.Account
import CrossAssembler.Proofs.Program.Arrival
import CrossAssembler.Proofs.Program.Decodability

/-!
# Code that can be moved

A program that sets no origin, and refers to its labels by relative jumps alone, means the same from
every origin: its bytes do not change, and all its addresses move by the same distance, round the end
of the address space.

The two runs are walked side by side. The machine of one is that of the other with every address
moved (`Machine.relocate`), also where the counter of one wraps and that of the other does not.

* **One statement** (`Statement.effect_relocate`): what the final walk does not report, it does alike on
  the moved machine. A jump and its label move together, so the offset stays.
* **The survey** (`Walk.relocate_along_survey`): it counts the same sizes, so it binds the same labels,
  each at its moved address.
* **The final walk** (`Walk.Relocated.along`): it emits the same bytes and reports nothing.
-/

namespace CrossAssembler

/-! ### Moved addresses -/

/-- An address moved by a distance, round the end of the address space. The distance may be negative, and
the result is an address even if the first number is none. -/
def relocate (d a : Int) : Int :=
  (a + d) % addressSpace

theorem relocate_bounds (d a : Int) : 0 ≤ relocate d a ∧ relocate d a ≤ 0xFFFF := by
  unfold relocate addressSpace
  omega

/-- The counter moves on by as many bytes from a moved address. -/
theorem relocate_advance (d a : Int) (n : Nat) :
    (relocate d a + n) % addressSpace = relocate d ((a + n) % addressSpace) := by
  unfold relocate addressSpace
  omega

/-- A symbol whose address is moved. -/
def Symbol.relocate (d : Int) (s : Symbol) : Symbol :=
  { s with value := CrossAssembler.relocate d s.value }

namespace SymbolTable

/-- A table whose addresses are moved. -/
def relocate (d : Int) (t : SymbolTable) : SymbolTable :=
  ⟨t.symbols.map (Symbol.relocate d)⟩

variable (d : Int) (t : SymbolTable)

theorem find?_relocate (name : Option String) :
    (t.relocate d).find? name = (t.find? name).map (Symbol.relocate d) :=
  List.find?_map

theorem contains_relocate (name : Option String) :
    (t.relocate d).contains name = t.contains name := by
  rw [contains, contains, find?_relocate, Option.isSome_map]

theorem value?_relocate (name : String) :
    (t.relocate d).value? name = (t.value? name).map (CrossAssembler.relocate d) := by
  rw [value?, value?, find?_relocate, Option.map_map, Option.map_map]
  rfl

/-- A label is verified by its place in the source, which does not move. -/
theorem verify?_relocate (name : Option String) (location : Location) :
    (t.relocate d).verify? name location = t.verify? name location := by
  unfold verify?
  rw [find?_relocate]
  cases t.find? name with
  | none => rfl
  | some s => rfl

theorem define_relocate (name : Option String) (value : Int) (location : Location) :
    (t.relocate d).define name (CrossAssembler.relocate d value) location =
      (t.define name value location).relocate d := by
  unfold define
  rw [contains_relocate]
  split
  · rfl
  · unfold relocate
    rw [List.map_append]
    rfl

/-- The names and their order stay, and the addresses are moved. -/
theorem bindings_relocate :
    (t.relocate d).bindings =
      t.bindings.map fun b => (b.1, CrossAssembler.relocate d b.2) := by
  unfold bindings relocate
  rw [List.map_map, List.map_map]
  rfl

end SymbolTable

/-- A machine whose addresses are moved. -/
def Machine.relocate (d : Int) (m : Machine) : Machine :=
  { m with address := CrossAssembler.relocate d m.address, symbols := m.symbols.relocate d }

/-- An emission at a moved address. -/
def Emission.relocate (d : Int) (e : Emission) : Emission :=
  { e with address := CrossAssembler.relocate d e.address }

/-! ### Statements that can be moved -/

/-- A statement that does not say where it stands. It is no origin; if it is a relative jump it ends
with a reference to a label, and any other instruction refers to none. -/
def Statement.isRelocatable : List Item → Bool
  | [] => true
  | head :: rest =>
    match head.kind with
    | .keyword => !decide head.IsOrigin
    | .mnemonic =>
      if (head.text.bind Mnemonic.ofName?).any Mnemonic.isRelative then
        rest.getLast?.any Item.isReference
      else rest.all fun i => !i.isReference
    | _ => true

/-- A jump and its target that move together stay as far apart. -/
theorem Machine.distance_relocate (d : Int) (m : Machine) (target : Int) :
    (m.relocate d).context.distance (CrossAssembler.relocate d target) =
      m.context.distance target := by
  change Int.bmod (CrossAssembler.relocate d target - (CrossAssembler.relocate d m.address + 2))
      0x10000 = Int.bmod (target - (m.address + 2)) 0x10000
  unfold CrossAssembler.relocate addressSpace
  -- both ends move by the same distance, so their difference stays the same modulo the address space
  simp only [Int.bmod_def]
  omega

/-- A label in reach stays in reach, by the same offset. -/
theorem Machine.offsetByte_relocate (d : Int) {m : Machine} {name : String} {location : Location}
    {b : UInt8} (h : m.context.offsetByte ⟨.symbol name, location⟩ = .ok b) :
    (m.relocate d).context.offsetByte ⟨.symbol name, location⟩ = .ok b := by
  obtain ⟨v, hv, hreach, rfl⟩ := Context.offsetByte_eq_ok_iff.1 h
  -- the final walk has found the label, so it has a value
  have hvalue : m.symbols.value? name = some v := by
    change m.symbols.lookup name (some location) = .ok v at hv
    unfold SymbolTable.lookup at hv
    split at hv
    next value hfound =>
      cases hv
      exact hfound
    · split at hv <;> cases hv
  refine Context.offsetByte_eq_ok_iff.2 ⟨CrossAssembler.relocate d v, ?_, fun _ => ?_, ?_⟩
  · change (m.symbols.relocate d).lookup name (some location) = _
    unfold SymbolTable.lookup
    rw [SymbolTable.value?_relocate, hvalue]
    rfl
  · rw [Machine.distance_relocate]
    exact ⟨relocate_bounds d v, (hreach rfl).2⟩
  · rw [Machine.distance_relocate]

namespace Statement

variable {items : List Item} {m : Machine} {e : Effect}

/-- The operands end with the last item of their statement. -/
theorem getLast?_moreOperands {mnemonic : String} {items ops : List Item}
    (h : moreOperands mnemonic items = .ok ops) : ops.getLast? = items.getLast? := by
  fun_induction moreOperands mnemonic items generalizing ops with
  | case1 =>
    cases h
    rfl
  | case6 comma operand rest hcomma hoperand ih =>
    obtain ⟨others, hothers, rfl⟩ := map_eq_ok_iff.1 h
    rw [List.getLast?_cons, List.getLast?_cons, List.getLast?_cons, ih hothers]
    rfl
  | _ => cases h

theorem getLast?_operands {mnemonic : String} {items ops : List Item}
    (h : operands mnemonic items = .ok ops) : ops.getLast? = items.getLast? := by
  cases items with
  | nil =>
    cases h
    rfl
  | cons operand rest =>
    rw [operands] at h
    split at h
    · cases h
    · obtain ⟨others, hothers, rfl⟩ := map_eq_ok_iff.1 h
      rw [List.getLast?_cons, List.getLast?_cons, getLast?_moreOperands hothers]

/-- An instruction that can be moved, and gives bytes in the final walk, gives them anywhere. -/
theorem instruction_relocate (d : Int) {head : Item} {rest : List Item} {data : List UInt8}
    (hkind : head.kind = .mnemonic) (hrelocatable : isRelocatable (head :: rest) = true)
    (h : instruction .final m head rest = .ok data) :
    instruction .final (m.relocate d) head rest = .ok data := by
  obtain ⟨ops, mnemonic, hops, hcpu, hmnemonic, hencode⟩ := instruction_eq_ok_iff.1 h
  refine instruction_eq_ok_iff.2 ⟨ops, mnemonic, hops, hcpu, hmnemonic, ?_⟩
  rw [isRelocatable, hkind, hmnemonic] at hrelocatable
  change (if mnemonic.isRelative = true then _ else _) = true at hrelocatable
  by_cases hrelative : mnemonic.isRelative = true
  · -- a relative jump: its target is its last operand, a label that moves along
    rw [if_pos hrelative, ← getLast?_operands hops, Option.any_eq_true] at hrelocatable
    obtain ⟨i, hlast, hi⟩ := hrelocatable
    obtain ⟨opcode, b, name, rfl, hb, hother⟩ :=
      Instruction.encode_relative hrelative hlast hi hencode
    exact hother _ b (Machine.offsetByte_relocate d hb)
  · -- any other instruction: no operand is a label, so no address gets into its bytes
    rw [if_neg hrelative, List.all_eq_true] at hrelocatable
    have hclosed : ∀ i ∈ ops, i.isReference = false := by
      intro i hi
      simpa using hrelocatable i (mem_of_mem_operands hops hi)
    rw [← hencode]
    apply Instruction.encode_closed
    · rfl
    · simpa using hrelative
    · exact hclosed

/-- **One statement.** What can be moved and is not reported has the same effect on a moved machine,
and it does not set the counter. -/
theorem effect_relocate (d : Int) (hrelocatable : isRelocatable items = true)
    (he : effect .final m items = .ok e) (hquiet : e.reports = []) :
    effect .final (m.relocate d) items = .ok e := by
  rcases effect_cases items with ⟨head, rest, hinstruction⟩ | hplain
  · have hsame := hinstruction.effect_eq .final (m.relocate d)
    rw [hinstruction.effect_eq] at he
    obtain ⟨rfl, -, hkind⟩ := hinstruction
    rcases outcome_cases he with ⟨data, hdata, rfl⟩ | ⟨report, -, rfl⟩
    · rw [hsame, instruction_relocate d hkind hrelocatable hdata]
      rfl
    · cases hquiet
  · -- a directive does the same on every machine
    rw [hplain] at he ⊢
    exact he

/-- What can be moved does not set the counter. -/
theorem ne_moveTo_of_isRelocatable {pass : Pass} (hrelocatable : isRelocatable items = true)
    (he : effect pass m items = .ok e) : ∀ line address, e ≠ .moveTo line address := by
  rintro line address rfl
  obtain ⟨head, operand, rfl, hkind, horigin, -⟩ := effect_moveTo he
  rw [isRelocatable, hkind] at hrelocatable
  have hfree : ¬ head.IsOrigin := by simpa using hrelocatable
  exact hfree ⟨hkind, horigin⟩

end Statement

/-! ### The survey -/

/-- Bytes of one length, on a machine and on the moved one. -/
theorem Effect.onMachine_emit_relocate (d : Int) (m : Machine) (place : Location)
    {data data' : List UInt8} (hlength : data'.length = data.length) :
    onMachine (.emit place data') (m.relocate d) = (onMachine (.emit place data) m).relocate d := by
  change { m.relocate d with
      address := (CrossAssembler.relocate d m.address + data'.length) % addressSpace } = _
  rw [hlength, relocate_advance]
  rfl

/-- An effect that does not set the counter is the same on a moved machine. -/
theorem Effect.onMachine_relocate (d : Int) (m : Machine) {e : Effect}
    (he : ∀ line address, e ≠ .moveTo line address) :
    e.onMachine (m.relocate d) = (e.onMachine m).relocate d := by
  cases e with
  | emit place data => exact onMachine_emit_relocate d m place rfl
  | moveTo line address => exact absurd rfl (he line address)
  | _ => rfl

theorem Machine.bind_relocate (d : Int) (pass : Pass) (m : Machine) (item : Item) :
    (m.relocate d).bind pass item = (m.bind pass item).relocate d := by
  cases pass with
  | survey =>
    change { m.relocate d with
      symbols := (m.symbols.relocate d).define item.text (CrossAssembler.relocate d m.address)
        item.location } = _
    rw [SymbolTable.define_relocate]
    rfl
  | final => rfl

/-- A stop whose statement can be moved. -/
def Stop.isRelocatable : Stop → Bool
  | .label _ => true
  | .statement items => Statement.isRelocatable items

/-- **The survey of a statement** takes as many bytes on a moved machine. -/
theorem Statement.onMachine_relocate_survey (d : Int) {m : Machine} {items : List Item}
    {e e' : Effect} (hrelocatable : isRelocatable items = true)
    (he : effect .survey m items = .ok e) (he' : effect .survey (m.relocate d) items = .ok e') :
    e'.onMachine (m.relocate d) = (e.onMachine m).relocate d := by
  have hmove := ne_moveTo_of_isRelocatable hrelocatable he
  rcases effect_cases items with ⟨head, rest, hinstruction⟩ | hplain
  · rw [hinstruction.effect_eq] at he he'
    have halike : List.Forall₂ Item.Alike rest rest := List.forall₂_same.2 fun i _ => .refl i
    have hcpu : (m.relocate d).cpu = m.cpu := rfl
    rcases outcome_cases he with ⟨data, hdata, rfl⟩ | ⟨report, hreport, rfl⟩
    · -- the survey encodes it here and there, in as many bytes
      obtain ⟨data', hdata', hlength⟩ := instruction_survey hcpu.symm halike hdata
      rw [hdata'] at he'
      cases he'
      exact Effect.onMachine_emit_relocate d m _ hlength
    · -- bytes on the moved machine would have been bytes here
      rcases outcome_cases he' with ⟨data', hdata', rfl⟩ | ⟨report', -, rfl⟩
      · obtain ⟨data, hdata, -⟩ := instruction_survey hcpu halike hdata'
        rw [hdata] at hreport
        cases hreport
      · rfl
  · rw [hplain] at he he'
    cases he
    cases he'
    exact Effect.onMachine_relocate d m hmove

namespace Walk

theorem relocate_act_survey {d : Int} {w w' u u' : Walk} {s : Stop}
    (hmachine : w'.machine = w.machine.relocate d) (hrelocatable : s.isRelocatable = true)
    (hact : w.act .survey s = .ok u) (hact' : w'.act .survey s = .ok u') :
    u'.machine = u.machine.relocate d := by
  cases s with
  | label item =>
    cases hact
    cases hact'
    rw [bind_machine, bind_machine, hmachine, Machine.bind_relocate]
  | statement items =>
    obtain ⟨e, he, rfl⟩ := act_statement_iff.1 hact
    obtain ⟨e', he', rfl⟩ := act_statement_iff.1 hact'
    rw [apply_machine, apply_machine, hmachine]
    rw [hmachine] at he'
    exact Statement.onMachine_relocate_survey d hrelocatable he he'

/-- **A whole survey** on a moved machine ends on the moved machine, with all labels moved. -/
theorem relocate_along_survey {d : Int} {w w' u u' : Walk} {stops : List Stop}
    (hmachine : w'.machine = w.machine.relocate d) (hrelocatable : ∀ s ∈ stops, s.isRelocatable = true)
    (halong : w.along .survey stops = .ok u) (halong' : w'.along .survey stops = .ok u') :
    u'.machine = u.machine.relocate d := by
  -- the invariant: one machine is the other one moved, symbols included
  induction stops generalizing w w' with
  | nil =>
    cases halong
    cases halong'
    exact hmachine
  | cons s stops ih =>
    obtain ⟨v, hact, halong⟩ := along_cons_iff.1 halong
    obtain ⟨v', hact', halong'⟩ := along_cons_iff.1 halong'
    obtain ⟨hs, hstops⟩ := List.forall_mem_cons.1 hrelocatable
    exact ih (relocate_act_survey hmachine hs hact hact') hstops halong halong'

/-! ### The final walk -/

/-- Walks that have emitted the same bytes and reported the same, one of them at moved addresses. Notes
are left out, since the counters of the two walks wrap at different statements. -/
structure Relocated (d : Int) (w w' : Walk) : Prop where
  machine_eq : w'.machine = w.machine.relocate d
  label_eq : w'.label = w.label
  emissions_eq : w'.emissions.toList = w.emissions.toList.map (Emission.relocate d)
  reports_eq : w'.reports = w.reports

namespace Relocated

variable {d : Int} {w w' u : Walk}

theorem bind (h : w.Relocated d w') (item : Item) :
    (w.bind .final item).Relocated d (w'.bind .final item) := by
  -- whether a label is defined again is a matter of places in the source
  have hverify : w'.machine.symbols.verify? item.text item.location =
      w.machine.symbols.verify? item.text item.location := by
    rw [h.machine_eq]
    exact SymbolTable.verify?_relocate d _ _ _
  refine ⟨?_, rfl, ?_, ?_⟩
  · rw [bind_machine, bind_machine, h.machine_eq, Machine.bind_relocate]
  · rw [bind_emissions, bind_emissions, h.emissions_eq]
  · apply Array.toList_inj.1
    rw [bind_reports, bind_reports, h.reports_eq]
    simp only [Visit.reports, hverify]

theorem apply (h : w.Relocated d w') {e : Effect}
    (he : ∀ line address, e ≠ .moveTo line address) :
    (w.apply .final e).Relocated d (w'.apply .final e) := by
  have hmachines : (w'.apply .final e).machine = (w.apply .final e).machine.relocate d := by
    rw [apply_machine, apply_machine, h.machine_eq, Effect.onMachine_relocate d _ he]
  have hreports : (w'.apply .final e).reports = (w.apply .final e).reports := by
    apply Array.toList_inj.1
    rw [apply_reports, apply_reports, h.reports_eq]
  cases e with
  | emit place data =>
    refine ⟨hmachines, rfl, ?_, hreports⟩
    change (w'.emissions.push _).toList = (w.emissions.push _).toList.map _
    rw [Array.toList_push, Array.toList_push, List.map_append, h.emissions_eq, h.machine_eq,
      h.label_eq]
    rfl
  | moveTo line address => exact absurd rfl (he line address)
  | report d =>
    refine ⟨hmachines, ?_, ?_, hreports⟩
    · change (w'.report .final d).label = (w.report .final d).label
      rw [report_label, report_label, h.label_eq]
    · change (w'.report .final d).emissions.toList = (w.report .final d).emissions.toList.map _
      rw [report_emissions, report_emissions, h.emissions_eq]
  | nothing => exact ⟨hmachines, h.label_eq, h.emissions_eq, hreports⟩
  | choose cpu => exact ⟨hmachines, h.label_eq, h.emissions_eq, hreports⟩

/-- One stop that is not reported. -/
theorem act (h : w.Relocated d w') {s : Stop} (hrelocatable : s.isRelocatable = true)
    (hact : w.act .final s = .ok u) (hquiet : (Visit.mk s w.machine).reports = []) :
    ∃ u', w'.act .final s = .ok u' ∧ u.Relocated d u' := by
  cases s with
  | label item =>
    cases hact
    exact ⟨_, rfl, h.bind item⟩
  | statement items =>
    obtain ⟨e, he, rfl⟩ := act_statement_iff.1 hact
    rw [Visit.reports_statement he] at hquiet
    have hsame := Statement.effect_relocate d hrelocatable he hquiet
    rw [← h.machine_eq] at hsame
    exact ⟨_, act_statement_iff.2 ⟨e, hsame, rfl⟩,
      h.apply (Statement.ne_moveTo_of_isRelocatable hrelocatable he)⟩

/-- **A whole final walk.** Where one walk arrives without a report, the other does, with the same
bytes at moved addresses. -/
theorem along (h : w.Relocated d w') {stops : List Stop}
    (hrelocatable : ∀ s ∈ stops, s.isRelocatable = true) (halong : w.along .final stops = .ok u)
    (hquiet : (w.visits .final stops).flatMap Visit.reports = []) :
    ∃ u', w'.along .final stops = .ok u' ∧ u.Relocated d u' := by
  -- a stop that is reported may be reported for its address, so there must be none
  induction stops generalizing w w' with
  | nil =>
    cases halong
    exact ⟨w', rfl, h⟩
  | cons s stops ih =>
    obtain ⟨v, hact, halong⟩ := along_cons_iff.1 halong
    rw [visits_cons hact, List.flatMap_cons, List.append_eq_nil_iff] at hquiet
    obtain ⟨hs, hstops⟩ := List.forall_mem_cons.1 hrelocatable
    obtain ⟨v', hact', hv⟩ := h.act hs hact hquiet.1
    obtain ⟨u', halong', hu⟩ := ih hv hstops halong hquiet.2
    exact ⟨u', along_cons_iff.2 ⟨v', hact', halong'⟩, hu⟩

end Relocated

end Walk

/-! ### Both walks -/

/-- Both walks over a program that can be moved, from an address and from the moved address. -/
theorem Passes.relocated {d : Int} {m : Machine} {items : List Item} (p : Passes m items)
    (p' : Passes (m.relocate d) items)
    (hrelocatable : ∀ line ∈ Line.ofItems items, Statement.isRelocatable line.statement = true)
    (hquiet : p.listing.reports = []) :
    p'.listing.reports = [] ∧
      p'.listing.emissions = p.listing.emissions.map (Emission.relocate d) ∧
      p'.listing.machine.symbols = p.listing.machine.symbols.relocate d := by
  have hstops : ∀ s ∈ Stop.ofItems items, s.isRelocatable = true := by
    intro s hs
    obtain ⟨line, hline, hs⟩ := List.mem_flatMap.1 hs
    rcases List.mem_append.1 hs with hs | hs
    · obtain ⟨label, -, rfl⟩ := List.mem_map.1 hs
      rfl
    · rw [List.mem_singleton.1 hs]
      exact hrelocatable line hline
  have hsurvey : p'.survey.machine = p.survey.machine.relocate d :=
    Walk.relocate_along_survey rfl hstops p.survey_along p'.survey_along
  -- the final walk starts with the moved symbols of the survey
  have hstart : Walk.Relocated d { machine := { m with symbols := p.survey.machine.symbols } }
      { machine := { m.relocate d with symbols := p'.survey.machine.symbols } } := by
    refine ⟨?_, rfl, rfl, rfl⟩
    rw [hsurvey]
    rfl
  obtain ⟨final, hfinal, hrelocated⟩ := hstart.along hstops p.final_along (p.reports_eq ▸ hquiet)
  have hsame : p'.final = final := Except.ok.inj (p'.final_along.symm.trans hfinal)
  refine ⟨?_, ?_, ?_⟩
  · change p'.final.reports.toList = []
    rw [hsame, hrelocated.reports_eq]
    exact hquiet
  · change p'.final.emissions.toList = p.final.emissions.toList.map _
    rw [hsame, hrelocated.emissions_eq]
  · rw [p'.symbols_eq, p.symbols_eq, hsurvey]
    rfl

/-- Sorting by line neither makes problems nor loses any. -/
theorem byLine_eq_nil_iff {problems : List Diagnostic} : byLine problems = [] ↔ problems = [] := by
  rw [← List.length_eq_zero_iff, byLine, List.length_mergeSort, List.length_eq_zero_iff]

/-- **Position independence.** A source that sets no origin and refers to labels by relative jumps alone
is assembled from every origin without problems if it is from one: to the same bytes, with every
address and every symbol moved by the distance of the origins. -/
theorem relative_code_moves (settings : Settings) (source file : String) (o₁ o₂ : Int)
    (hspace : 0 ≤ o₂ ∧ o₂ ≤ 0xFFFF)
    (hrelocatable : ∀ tokens,
      tokenize source (if file = "" then settings.file else file) = .ok tokens →
      ∀ line ∈ Line.ofItems (parse (if file = "" then settings.file else file) tokens).items,
        Statement.isRelocatable line.statement = true)
    {a : Assembly} (hrun : assemble { settings with origin := o₁ } source file = .ok a)
    (hok : a.ok = true) :
    ∃ a', assemble { settings with origin := o₂ } source file = .ok a' ∧ a'.ok = true ∧
      a'.emissions.map Emission.data = a.emissions.map Emission.data ∧
      a'.emissions.map Emission.address =
        a.emissions.map (fun e => (e.address + (o₂ - o₁)) % 0x10000) ∧
      a'.symbols.bindings =
        a.symbols.bindings.map fun b => (b.1, (b.2 + (o₂ - o₁)) % 0x10000) := by
  obtain ⟨tokens, htokens, p, hemissions, -, hproblems, hsymbols, -⟩ := assemble_stages hrun
  obtain ⟨a', hrun'⟩ : ∃ a', assemble { settings with origin := o₂ } source file = .ok a' :=
    assemble_of_tokenize htokens
  obtain ⟨tokens', htokens', p', hemissions', -, hproblems', hsymbols', -⟩ := assemble_stages hrun'
  obtain rfl : tokens' = tokens := Except.ok.inj (htokens'.symm.trans htokens)
  have hmachine : ({ address := o₂, cpu := settings.cpu } : Machine) =
      Machine.relocate (o₂ - o₁) { address := o₁, cpu := settings.cpu } := by
    have haddress : relocate (o₂ - o₁) o₁ = o₂ := by
      unfold relocate addressSpace
      omega
    unfold Machine.relocate
    rw [haddress]
    rfl
  have hnone := byLine_eq_nil_iff.1 (hproblems.symm.trans (List.isEmpty_iff.1 hok))
  obtain ⟨hparsed, hquiet⟩ := List.append_eq_nil_iff.1 hnone
  -- the moved run starts on the moved machine
  obtain ⟨hquiet', hmoved, hbound⟩ :
      p'.listing.reports = [] ∧
        p'.listing.emissions = p.listing.emissions.map (Emission.relocate (o₂ - o₁)) ∧
        p'.listing.machine.symbols = p.listing.machine.symbols.relocate (o₂ - o₁) := by
    clear hemissions' hproblems' hsymbols'
    revert p'
    dsimp only
    rw [hmachine]
    intro p'
    exact p.relocated p' (hrelocatable _ htokens) hquiet
  refine ⟨a', hrun', ?_, ?_, ?_, ?_⟩
  · rw [Assembly.ok, hproblems', byLine_eq_nil_iff.2 (List.append_eq_nil_iff.2 ⟨hparsed, hquiet'⟩)]
    rfl
  · rw [hemissions', hmoved, ← hemissions, List.map_map]
    rfl
  · rw [hemissions', hmoved, ← hemissions, List.map_map]
    rfl
  · rw [hsymbols', hbound, ← hsymbols]
    exact SymbolTable.bindings_relocate _ _

/-- A loop that is moved so that the counter wraps between a jump and its label. -/
theorem relative_code_moves_wrapped :
    ∃ a a', assemble { origin := 0x8000 } "U: NOP\nDJNZ U\nJRNZ V\nLD A,(5)\nV: JR U" = .ok a ∧
      assemble { origin := 0xFFFD } "U: NOP\nDJNZ U\nJRNZ V\nLD A,(5)\nV: JR U" = .ok a' ∧
      a'.emissions.map Emission.data = a.emissions.map Emission.data ∧
      a'.emissions.map Emission.address = [0xFFFD, 0xFFFE, 0, 2, 5] ∧
      a'.symbols.bindings = [(some "U", 0xFFFD), (some "V", 5)] := by
  have hvalue : (assemble { origin := 0x8000 }
        "U: NOP\nDJNZ U\nJRNZ V\nLD A,(5)\nV: JR U").toOption.map (fun a =>
      (a.ok, a.emissions.map Emission.address, a.symbols.bindings)) =
        some (true, [0x8000, 0x8001, 0x8003, 0x8005, 0x8008],
          [(some "U", 0x8000), (some "V", 0x8008)]) := by
    decide +kernel
  have hitems : (tokenize "U: NOP\nDJNZ U\nJRNZ V\nLD A,(5)\nV: JR U" "<input>").toOption.map
      (fun tokens => (Line.ofItems (parse "<input>" tokens).items).all fun line =>
        Statement.isRelocatable line.statement) = some true := by
    decide +kernel
  obtain ⟨a, hrun, hvalue⟩ := exists_ok_of_toOption hvalue
  obtain ⟨hok, haddresses, hsymbols⟩ :
      a.ok = true ∧ a.emissions.map Emission.address = [0x8000, 0x8001, 0x8003, 0x8005, 0x8008] ∧
        a.symbols.bindings = [(some "U", 0x8000), (some "V", 0x8008)] := by
    simpa only [Prod.mk.injEq] using hvalue
  have hrelocatable : ∀ tokens, tokenize "U: NOP\nDJNZ U\nJRNZ V\nLD A,(5)\nV: JR U" "<input>" =
      .ok tokens → ∀ line ∈ Line.ofItems (parse "<input>" tokens).items,
        Statement.isRelocatable line.statement = true := by
    intro tokens htokens
    rw [htokens] at hitems
    exact List.all_eq_true.1 (Option.some.inj hitems)
  obtain ⟨a', hrun', -, hdata, hmoved, hbound⟩ :=
    relative_code_moves {} _ "" 0x8000 0xFFFD ⟨by decide, by decide⟩ hrelocatable hrun hok
  refine ⟨a, a', hrun, hrun', hdata, ?_, ?_⟩
  · rw [hmoved]
    change a.emissions.map ((fun x => (x + (0xFFFD - 0x8000)) % 0x10000) ∘ Emission.address) = _
    rw [← List.map_map, haddresses]
    rfl
  · rw [hbound, hsymbols]
    rfl

end CrossAssembler
