import CrossAssembler.Program.Walk
import CrossAssembler.Proofs.Instruction.Emission

/-!
# Visits

A walk takes the lines of a program, but what it does it does label by label and statement by
statement. Here the lines are cut into these *stops*, and a walk becomes a fold over them
(`Walk.run_eq_along`). A *visit* is a stop together with the machine that the walk has when it gets
there; all that a walk leaves behind is read off its visits.

* **Machines** (`Walk.act_machine`): a label binds its name in the survey and nothing in the final
  walk; a statement does to the machine what its effect says, and never touches the symbols.
* **Reports** (`Walk.reports_of_along`): the reports of the final walk are those of its visits, in
  order.
* **Emissions** (`Walk.emissions_of_along`): the emissions are those of the visits, and each takes its
  label from the last label visit that no emission and no new address has cut off.
* **No faults** (`Walk.exists_along`): over the stops of a parsed program a walk always arrives.
-/

namespace CrossAssembler

/-! ### Stops -/

/-- A label or a statement of a program. A walk does one thing at each stop, whereas a line can bind
several labels and have a statement besides. -/
inductive Stop where
  | label (item : Item)
  | statement (items : List Item)
  deriving DecidableEq, Repr

namespace Stop

/-- The stops of a line: its labels, then its statement. -/
def ofLine (line : Line) : List Stop :=
  line.labels.map label ++ [statement line.statement]

/-- The stops of a program. -/
def ofItems (items : List Item) : List Stop :=
  (Line.ofItems items).flatMap ofLine

/-- The name that a stop defines. -/
def name? : Stop → Option String
  | label item => item.text
  | statement _ => none

/-- A stop that the parser can have made. -/
inductive Genuine : Stop → Prop where
  | label {item : Item} (hitem : item.Genuine) (hkind : item.kind = .label) : Genuine (label item)
  | statement {items : List Item} (hitems : ∀ i ∈ items, i.Genuine) : Genuine (statement items)

theorem genuine_of_mem_ofItems {file : String} {ts : List Token} {s : Stop}
    (hs : s ∈ ofItems (parse file ts).items) : s.Genuine := by
  obtain ⟨line, hline, hs⟩ := List.mem_flatMap.1 hs
  rcases List.mem_append.1 hs with hs | hs
  · obtain ⟨item, hitem, rfl⟩ := List.mem_map.1 hs
    exact .label (genuine_of_mem_line hline (.inl hitem)) (Line.kind_of_mem_labels hline hitem)
  · rw [List.mem_singleton.1 hs]
    exact .statement fun i hi => genuine_of_mem_line hline (.inr hi)

end Stop

namespace Walk

/-- The walk behind a stop, or the fault that stops it there. -/
def act (pass : Pass) (w : Walk) : Stop → Except (Fault × Machine) Walk
  | .label item => .ok (w.bind pass item)
  | .statement items =>
    match Statement.effect pass w.machine items with
    | .ok effect => .ok (w.apply pass effect)
    | .error fault => .error (fault, w.machine)

/-- The walk over some stops. Being a fold, it can be cut between any two stops, and properties go
through it by induction. -/
def along (pass : Pass) (w : Walk) (stops : List Stop) : Except (Fault × Machine) Walk :=
  stops.foldlM (act pass) w

theorem along_cons (pass : Pass) (w : Walk) (s : Stop) (stops : List Stop) :
    w.along pass (s :: stops) = w.act pass s >>= fun w' => w'.along pass stops := by
  unfold along
  rw [List.foldlM_cons]

theorem along_append (pass : Pass) (w : Walk) (front back : List Stop) :
    w.along pass (front ++ back) = w.along pass front >>= fun w' => w'.along pass back := by
  unfold along
  rw [List.foldlM_append]

/-- A walk that arrives gets past its first stop and arrives from there. -/
theorem along_cons_iff {pass : Pass} {w w' : Walk} {s : Stop} {stops : List Stop} :
    w.along pass (s :: stops) = .ok w' ↔
      ∃ u, w.act pass s = .ok u ∧ u.along pass stops = .ok w' := by
  rw [along_cons, bind_eq_ok_iff]

/-- Labels are bound one after another, and none of them can stop the walk. -/
theorem along_labels (pass : Pass) (w : Walk) (labels : List Item) :
    w.along pass (labels.map Stop.label) = .ok (labels.foldl (bind pass) w) := by
  induction labels generalizing w with
  | nil => rfl
  | cons item labels ih => exact ih (w.bind pass item)

theorem along_singleton (pass : Pass) (w : Walk) (s : Stop) : w.along pass [s] = w.act pass s := by
  rw [along_cons]
  cases w.act pass s <;> rfl

/-- A line is walked stop by stop. -/
theorem step_eq_along (pass : Pass) (w : Walk) (line : Line) :
    w.step pass line = w.along pass (Stop.ofLine line) := by
  rw [Stop.ofLine, along_append, along_labels]
  change _ = (line.labels.foldl (bind pass) w).along pass [.statement line.statement]
  rw [along_singleton]
  rfl

/-- **A walk is a fold over the stops** of its lines. -/
theorem run_eq_along (pass : Pass) (m : Machine) (items : List Item) :
    run pass m (Line.ofItems items) = along pass { machine := m } (Stop.ofItems items) := by
  -- for every walk to start with, as a line starts with what the lines before it have left
  have hlines : ∀ (lines : List Line) (w : Walk),
      lines.foldlM (step pass) w = w.along pass (lines.flatMap Stop.ofLine) := by
    intro lines
    induction lines with
    | nil => exact fun _ => rfl
    | cons line lines ih =>
      intro w
      rw [List.foldlM_cons, List.flatMap_cons, along_append, step_eq_along]
      exact congrArg _ (funext ih)
  exact hlines _ _

/-- The induction over a walk that arrives: what every stop keeps, the walk keeps. -/
theorem along_induction {pass : Pass} {P : Walk → Prop} {stops : List Stop} {w w' : Walk}
    (halong : w.along pass stops = .ok w') (hw : P w)
    (hstep : ∀ s ∈ stops, ∀ u u' : Walk, P u → u.act pass s = .ok u' → P u') : P w' := by
  -- the property is that of the walk so far, so it is carried through the stops
  induction stops generalizing w with
  | nil =>
    cases halong
    exact hw
  | cons s stops ih =>
    obtain ⟨u, hact, halong⟩ := along_cons_iff.1 halong
    exact ih halong (hstep s List.mem_cons_self w u hw hact) fun s' hs' =>
      hstep s' (List.mem_cons_of_mem _ hs')

/-- The same for two walks over the same stops, each in its own pass: a relation that every stop
keeps holds where they arrive. -/
theorem along_induction₂ {pass pass' : Pass} {R : Walk → Walk → Prop} {stops : List Stop}
    {w w' u u' : Walk} (halong : w.along pass stops = .ok u) (halong' : w'.along pass' stops = .ok u')
    (hw : R w w')
    (hstep : ∀ s, ∀ v v' x x' : Walk, R v v' → v.act pass s = .ok x → v'.act pass' s = .ok x' →
      R x x') : R u u' := by
  induction stops generalizing w w' with
  | nil =>
    cases halong
    cases halong'
    exact hw
  | cons s stops ih =>
    obtain ⟨x, hact, halong⟩ := along_cons_iff.1 halong
    obtain ⟨x', hact', halong'⟩ := along_cons_iff.1 halong'
    exact ih halong halong' (hstep s w w' x x' hw hact hact')

end Walk

/-! ### What a stop does to a machine -/

namespace Effect

/-- The machine behind a statement with an effect. -/
def onMachine (e : Effect) (m : Machine) : Machine :=
  match e with
  | emit _ data => { m with address := (m.address + data.length) % addressSpace }
  | moveTo _ address => { m with address := address }
  | choose cpu => { m with cpu := cpu }
  | nothing | report _ => m

/-- An effect never touches the symbols. -/
@[simp] theorem onMachine_symbols (e : Effect) (m : Machine) :
    (e.onMachine m).symbols = m.symbols := by
  cases e <;> rfl

/-- The diagnostics of an effect. -/
def reports : Effect → List Diagnostic
  | report d => [d]
  | _ => []

/-- An effect that cuts a label off from the statements behind. -/
def takesLabel : Effect → Bool
  | emit _ _ | moveTo _ _ => true
  | _ => false

end Effect

namespace Machine

/-- The machine behind a label. -/
def bind (pass : Pass) (m : Machine) (label : Item) : Machine :=
  match pass with
  | .survey => { m with symbols := m.symbols.define label.text m.address label.location }
  | .final => m

end Machine

namespace Walk

@[simp] theorem report_machine (pass : Pass) (w : Walk) (d : Diagnostic) :
    (w.report pass d).machine = w.machine := by
  cases pass <;> rfl

@[simp] theorem report_emissions (pass : Pass) (w : Walk) (d : Diagnostic) :
    (w.report pass d).emissions = w.emissions := by
  cases pass <;> rfl

@[simp] theorem report_label (pass : Pass) (w : Walk) (d : Diagnostic) :
    (w.report pass d).label = w.label := by
  cases pass <;> rfl

@[simp] theorem note_reports (pass : Pass) (w : Walk) (n : Note) :
    (w.note pass n).reports = w.reports := by
  cases pass <;> rfl

theorem bind_machine (pass : Pass) (w : Walk) (item : Item) :
    (w.bind pass item).machine = w.machine.bind pass item := by
  -- only the survey defines; the final walk may report the label, and the machine stays
  cases pass with
  | survey => rfl
  | final =>
    unfold bind
    dsimp only
    split
    · exact report_machine _ _ _
    · rfl

theorem apply_machine (pass : Pass) (w : Walk) (e : Effect) :
    (w.apply pass e).machine = e.onMachine w.machine := by
  cases e with
  | report d => exact report_machine pass w d
  | _ => rfl

/-- The walk behind a statement: it has an effect, and the walk has applied it. -/
theorem act_statement_iff {pass : Pass} {w w' : Walk} {items : List Item} :
    w.act pass (.statement items) = .ok w' ↔
      ∃ e, Statement.effect pass w.machine items = .ok e ∧ w' = w.apply pass e := by
  dsimp only [act]
  cases Statement.effect pass w.machine items with
  | ok e =>
    constructor
    · rintro ⟨⟩
      exact ⟨e, rfl, rfl⟩
    · rintro ⟨e, ⟨⟩, rfl⟩
      rfl
  | error fault =>
    constructor
    · exact nofun
    · rintro ⟨e, ⟨⟩, -⟩

/-- What a stop does to a machine. -/
theorem act_machine {pass : Pass} {w w' : Walk} {s : Stop} (hact : w.act pass s = .ok w') :
    (∃ item, s = .label item ∧ w'.machine = w.machine.bind pass item) ∨
      ∃ items e, s = .statement items ∧ Statement.effect pass w.machine items = .ok e ∧
        w'.machine = e.onMachine w.machine := by
  cases s with
  | label item =>
    cases hact
    exact .inl ⟨item, rfl, bind_machine pass w item⟩
  | statement items =>
    obtain ⟨e, he, rfl⟩ := act_statement_iff.1 hact
    exact .inr ⟨items, e, rfl, he, apply_machine pass w e⟩

/-- The final walk keeps the symbols that the survey has found. -/
theorem act_symbols_final {w w' : Walk} {s : Stop} (hact : w.act .final s = .ok w') :
    w'.machine.symbols = w.machine.symbols := by
  rcases act_machine hact with ⟨item, -, hw⟩ | ⟨items, e, -, -, hw⟩
  · rw [hw]
    rfl
  · rw [hw, Effect.onMachine_symbols]

theorem symbols_of_along_final {w w' : Walk} {stops : List Stop}
    (halong : w.along .final stops = .ok w') : w'.machine.symbols = w.machine.symbols :=
  along_induction (P := fun u => u.machine.symbols = w.machine.symbols) halong rfl
    fun _ _ _ _ hu hact => (act_symbols_final hact).trans hu

end Walk

/-! ### Visits -/

/-- A stop with the machine that the walk has when it gets there. What the walk has emitted and reported
before has no influence on the effect of the stop. -/
structure Visit where
  stop : Stop
  machine : Machine
  deriving DecidableEq, Repr

namespace Visit

/-- What the statement of a visit does; a label has no effect. -/
def effect (pass : Pass) (v : Visit) : Except Fault Effect :=
  match v.stop with
  | .label _ => .ok .nothing
  | .statement items => Statement.effect pass v.machine items

/-- A visit to a statement that gives bytes. -/
def Encodes (pass : Pass) (v : Visit) : Prop :=
  ∃ location data, v.effect pass = .ok (.emit location data)

/-- What the final walk reports on a visit: a label that another one has bound, or what is wrong
with the statement. -/
def reports (v : Visit) : List Diagnostic :=
  match v.stop with
  | .label item => (v.machine.symbols.verify? item.text item.location).toList
  | .statement _ =>
    match v.effect .final with
    | .ok e => e.reports
    | .error _ => []

theorem reports_statement {m : Machine} {items : List Item} {e : Effect}
    (he : Statement.effect .final m items = .ok e) :
    (Visit.mk (.statement items) m).reports = e.reports := by
  simp only [reports, effect, he]

/-- The label visit in force behind a visit, if one was in force before it. The last label wins, a
statement without bytes leaves it in force, and bytes or an origin use it up. -/
def labelAfter (pass : Pass) (pending : Option Visit) (v : Visit) : Option Visit :=
  match v.stop with
  | .label _ => some v
  | .statement _ =>
    match v.effect pass with
    | .ok e => if e.takesLabel then none else pending
    | .error _ => pending

/-- The emission of a visit, if a label visit is in force. -/
def emission? (pass : Pass) (pending : Option Visit) (v : Visit) : Option Emission :=
  match v.effect pass with
  | .ok (.emit location data) =>
    some { address := v.machine.address, data := data, location := some location,
           label := pending.bind fun p => p.stop.name?, standing := .accepted }
  | _ => none

/-- The emissions of some visits, each with the label visit that is in force for it. -/
def attributions (pass : Pass) : Option Visit → List Visit → List (Emission × Option Visit)
  | _, [] => []
  | pending, v :: rest =>
    ((v.emission? pass pending).map fun e => (e, pending)).toList ++
      attributions pass (v.labelAfter pass pending) rest

end Visit

namespace Walk

/-- The visits of a walk over some stops, as far as it comes. -/
def visits (pass : Pass) (w : Walk) : List Stop → List Visit
  | [] => []
  | s :: stops =>
    ⟨s, w.machine⟩ ::
      match w.act pass s with
      | .ok w' => w'.visits pass stops
      | .error _ => []

@[simp] theorem visits_nil (pass : Pass) (w : Walk) : w.visits pass [] = [] := rfl

theorem visits_cons {pass : Pass} {w w' : Walk} {s : Stop} (hact : w.act pass s = .ok w')
    (stops : List Stop) :
    w.visits pass (s :: stops) = ⟨s, w.machine⟩ :: w'.visits pass stops := by
  rw [visits, hact]

/-- A walk that arrives visits every stop, in order. -/
theorem map_stop_visits {pass : Pass} {w w' : Walk} {stops : List Stop}
    (halong : w.along pass stops = .ok w') : (w.visits pass stops).map Visit.stop = stops := by
  induction stops generalizing w with
  | nil => rfl
  | cons s stops ih =>
    obtain ⟨u, hact, halong⟩ := along_cons_iff.1 halong
    rw [visits_cons hact, List.map_cons, ih halong]

theorem length_visits {pass : Pass} {w w' : Walk} {stops : List Stop}
    (halong : w.along pass stops = .ok w') : (w.visits pass stops).length = stops.length := by
  rw [← List.length_map Visit.stop, map_stop_visits halong]

/-! ### Reports -/

theorem bind_reports (w : Walk) (item : Item) :
    (w.bind .final item).reports.toList =
      w.reports.toList ++ (Visit.mk (.label item) w.machine).reports := by
  unfold bind Visit.reports
  dsimp only
  cases w.machine.symbols.verify? item.text item.location with
  | none => simp
  | some d => simp [report]

theorem apply_reports (w : Walk) (e : Effect) :
    (w.apply .final e).reports.toList = w.reports.toList ++ e.reports := by
  cases e with
  | emit location data =>
    change (if _ then w.note .final _ else w).reports.toList = _
    split <;> simp [Effect.reports]
  | report d => simp [apply, report, Effect.reports]
  | _ => simp [apply, note, Effect.reports]

theorem act_reports {w w' : Walk} {s : Stop} (hact : w.act .final s = .ok w') :
    w'.reports.toList = w.reports.toList ++ (Visit.mk s w.machine).reports := by
  cases s with
  | label item =>
    cases hact
    exact bind_reports w item
  | statement items =>
    obtain ⟨e, he, rfl⟩ := act_statement_iff.1 hact
    rw [apply_reports, Visit.reports_statement he]

/-- **The reports of the final walk are those of its visits.** The survey has visits too, but it keeps no
reports. -/
theorem reports_of_along {w w' : Walk} {stops : List Stop} (halong : w.along .final stops = .ok w') :
    w'.reports.toList = w.reports.toList ++ (w.visits .final stops).flatMap Visit.reports := by
  -- each stop adds the reports of its visit behind those so far
  induction stops generalizing w with
  | nil =>
    cases halong
    simp
  | cons s stops ih =>
    obtain ⟨u, hact, halong⟩ := along_cons_iff.1 halong
    rw [ih halong, act_reports hact, visits_cons hact, List.flatMap_cons, List.append_assoc]

/-! ### Emissions -/

@[simp] theorem bind_emissions (pass : Pass) (w : Walk) (item : Item) :
    (w.bind pass item).emissions = w.emissions := by
  cases pass with
  | survey => rfl
  | final =>
    unfold bind
    dsimp only
    split
    · exact report_emissions _ _ _
    · rfl

/-- A stop adds its own emission and hands on the label in force. -/
theorem act_emissions {pass : Pass} {w w' : Walk} {s : Stop} (hact : w.act pass s = .ok w')
    {pending : Option Visit} (hlabel : w.label = pending.bind fun p => p.stop.name?) :
    w'.emissions.toList =
        w.emissions.toList ++ ((Visit.mk s w.machine).emission? pass pending).toList ∧
      w'.label = ((Visit.mk s w.machine).labelAfter pass pending).bind fun p => p.stop.name? := by
  cases s with
  | label item =>
    cases hact
    refine ⟨?_, rfl⟩
    rw [bind_emissions]
    simp [Visit.emission?, Visit.effect]
  | statement items =>
    obtain ⟨e, he, rfl⟩ := act_statement_iff.1 hact
    simp only [Visit.emission?, Visit.labelAfter, Visit.effect, he]
    -- only bytes are emitted, and only bytes and a new address take the label away
    cases e with
    | emit location data =>
      refine ⟨?_, rfl⟩
      change (w.emissions.push _).toList = _
      rw [Array.toList_push, hlabel]
      rfl
    | moveTo line address => exact ⟨by cases pass <;> simp [apply, note], rfl⟩
    | report d => exact ⟨by simp [apply], (report_label pass w d).trans hlabel⟩
    | _ => exact ⟨by simp [apply], hlabel⟩

/-- **The emissions of a walk are those of its visits**, with the labels in force. -/
theorem emissions_of_along {pass : Pass} {w w' : Walk} {stops : List Stop}
    (halong : w.along pass stops = .ok w') {pending : Option Visit}
    (hlabel : w.label = pending.bind fun p => p.stop.name?) :
    w'.emissions.toList = w.emissions.toList ++
      (Visit.attributions pass pending (w.visits pass stops)).map Prod.fst := by
  -- `pending` is the label visit that the label of the walk comes from, and changes with it
  induction stops generalizing w pending with
  | nil =>
    cases halong
    simp [Visit.attributions]
  | cons s stops ih =>
    obtain ⟨u, hact, halong⟩ := along_cons_iff.1 halong
    obtain ⟨hemissions, hlabel⟩ := act_emissions hact hlabel
    rw [ih halong hlabel, hemissions, visits_cons hact, Visit.attributions, List.map_append,
      List.append_assoc]
    congr 2
    cases (Visit.mk s w.machine).emission? pass pending <;> rfl

end Walk

/-! ### Walks over parsed programs -/

namespace Statement

/-- Operands that are accepted are all items that are no commas. -/
theorem moreOperands_eq_filter {mnemonic : String} {items ops : List Item}
    (h : moreOperands mnemonic items = .ok ops) :
    ops = items.filter fun i => i.kind != .comma := by
  fun_induction moreOperands mnemonic items generalizing ops with
  | case1 =>
    cases h
    rfl
  | case6 comma operand rest hcomma hoperand ih =>
    rw [map_eq_ok_iff] at h
    obtain ⟨others, hothers, rfl⟩ := h
    -- an accepted operand is of a kind that a comma is not
    have hkind : (operand.kind != .comma) = true := by
      revert hoperand
      cases operand.kind <;> decide
    rw [not_not] at hcomma
    simp [hcomma, hkind, ih hothers]
  | _ => cases h

/-- The same for all operands, the first one of which has no comma in front. -/
theorem operands_eq_filter {mnemonic : String} {items ops : List Item}
    (h : operands mnemonic items = .ok ops) :
    ops = items.filter fun i => i.kind != .comma := by
  unfold operands at h
  split at h
  · cases h
    rfl
  next operand rest =>
    split at h
    · cases h
    next hoperand =>
      rw [map_eq_ok_iff] at h
      obtain ⟨others, hothers, rfl⟩ := h
      have hkind : (operand.kind != .comma) = true := by
        revert hoperand
        cases operand.kind <;> decide
      simp [hkind, moreOperands_eq_filter hothers]

/-- The operands of an instruction are items of its statement. -/
theorem mem_of_mem_operands {mnemonic : String} {items ops : List Item}
    (h : operands mnemonic items = .ok ops) {i : Item} (hi : i ∈ ops) : i ∈ items := by
  rw [operands_eq_filter h] at hi
  exact (List.mem_filter.1 hi).1

/-- The cases of an instruction, in the order in which they are tried. -/
theorem instruction_eq (pass : Pass) (m : Machine) (head : Item) (rest : List Item) :
    instruction pass m head rest =
      match operands head.shownText rest with
      | .error d => .error (.problem d)
      | .ok ops =>
        if m.cpu = .z80 then
          match head.text.bind Mnemonic.ofName? with
          | some mnemonic =>
            Instruction.encode ⟨pass, m.address, m.symbols⟩ mnemonic ops head.location
          | none => .error (.fault (.unknownName head.text))
        else .error (.problem (.placed head.location (.noEncoder head.shownText m.cpu.name))) := by
  unfold instruction
  -- the computation written out: every step hands on the failure of the one before
  cases operands head.shownText rest with
  | error d => rfl
  | ok ops =>
    dsimp only [Except.mapError, bind, Except.bind]
    by_cases hcpu : m.cpu = .z80
    · rw [if_pos hcpu, if_neg (not_not.2 hcpu)]
      rfl
    · rw [if_neg hcpu, if_pos hcpu]
      rfl

/-- An instruction gives bytes if its operands are well separated, the processor has an encoder
and the encoder accepts it. -/
theorem instruction_eq_ok_iff {pass : Pass} {m : Machine} {head : Item} {rest : List Item}
    {data : List UInt8} :
    instruction pass m head rest = .ok data ↔
      ∃ ops mnemonic, operands head.shownText rest = .ok ops ∧ m.cpu = .z80 ∧
        head.text.bind Mnemonic.ofName? = some mnemonic ∧
        Instruction.encode ⟨pass, m.address, m.symbols⟩ mnemonic ops head.location = .ok data := by
  rw [instruction_eq]
  constructor
  · intro h
    split at h
    · cases h
    next ops hops =>
      split at h
      next hcpu =>
        split at h
        next mnemonic hmnemonic => exact ⟨ops, mnemonic, hops, hcpu, hmnemonic, h⟩
        · cases h
      · cases h
  · rintro ⟨ops, mnemonic, hops, hcpu, hmnemonic, hdata⟩
    simp only [hops, hcpu, hmnemonic, hdata, if_true]

theorem faultless_instruction {pass : Pass} {m : Machine} (hnamed : m.symbols.AllNamed)
    {head : Item} {rest : List Item} (hhead : head.Genuine) (hkind : head.kind = .mnemonic)
    (hrest : ∀ i ∈ rest, i.Genuine) : Faultless (instruction pass m head rest) := by
  rw [instruction_eq]
  split
  · exact faultless_problem _
  next ops hops =>
    split
    · -- an item of this kind was given its kind by the table of mnemonics, so the name is found
      obtain ⟨mnemonic, hmnemonic⟩ := hhead.mnemonic hkind
      have hgenuine : ∀ i ∈ ops, i.Genuine := fun i hi => hrest i (mem_of_mem_operands hops hi)
      rw [hmnemonic]
      exact Instruction.encode_faultless hnamed mnemonic head.location hgenuine
    · exact faultless_problem _

/-- A statement of a parsed program has an effect. -/
theorem exists_effect (pass : Pass) {m : Machine} (hnamed : m.symbols.AllNamed)
    {items : List Item} (hitems : ∀ i ∈ items, i.Genuine) :
    ∃ e, effect pass m items = .ok e := by
  -- a statement that is passed over, an instruction, a directive, or a head out of place
  unfold effect
  split
  · exact ⟨_, rfl⟩
  next head rest =>
    split
    · exact ⟨_, rfl⟩
    · split
      next hkind =>
        have hrest : ∀ i ∈ rest, i.Genuine := fun i hi => hitems i (List.mem_cons_of_mem _ hi)
        have hfaultless : Faultless (instruction pass m head rest) :=
          faultless_instruction hnamed (hitems head List.mem_cons_self) hkind hrest
        split
        · exact ⟨_, rfl⟩
        · exact ⟨_, rfl⟩
        next f hf => exact absurd hf (hfaultless f)
      all_goals exact ⟨_, rfl⟩

end Statement

theorem SymbolTable.AllNamed.define {t : SymbolTable} (ht : t.AllNamed) (name : String)
    (value : Int) (location : Location) : (t.define (some name) value location).AllNamed := by
  unfold SymbolTable.define
  split
  · exact ht
  · unfold AllNamed SymbolTable.contains SymbolTable.find? at *
    simpa using ht

namespace Walk

theorem act_allNamed {pass : Pass} {w w' : Walk} {s : Stop} (hs : s.Genuine)
    (hnamed : w.machine.symbols.AllNamed) (hact : w.act pass s = .ok w') :
    w'.machine.symbols.AllNamed := by
  -- only labels define names, and a label that was parsed has one
  rcases act_machine hact with ⟨item, rfl, hw⟩ | ⟨items, e, -, -, hw⟩
  · cases hs with
    | label hitem hkind =>
      obtain ⟨name, hname⟩ := hitem.label_text hkind
      rw [hw]
      cases pass with
      | survey =>
        change (w.machine.symbols.define item.text _ _).AllNamed
        rw [hname]
        exact hnamed.define name _ _
      | final => exact hnamed
  · rw [hw, Effect.onMachine_symbols]
    exact hnamed

/-- **A walk over a parsed program arrives.** No stop of it can stop the walk. -/
theorem exists_along (pass : Pass) {w : Walk} {stops : List Stop} (hstops : ∀ s ∈ stops, s.Genuine)
    (hnamed : w.machine.symbols.AllNamed) :
    ∃ w', w.along pass stops = .ok w' ∧ w'.machine.symbols.AllNamed := by
  induction stops generalizing w with
  | nil => exact ⟨w, rfl, hnamed⟩
  | cons s stops ih =>
    -- the table stays named, so a value never fails for want of a name
    have hs := hstops s List.mem_cons_self
    obtain ⟨u, hact⟩ : ∃ u, w.act pass s = .ok u := by
      cases hs with
      | label hitem hkind => exact ⟨_, rfl⟩
      | statement hitems =>
        obtain ⟨e, he⟩ := Statement.exists_effect pass hnamed hitems
        exact ⟨_, act_statement_iff.2 ⟨e, he, rfl⟩⟩
    obtain ⟨w', halong, hw'⟩ :=
      ih (fun s' hs' => hstops s' (List.mem_cons_of_mem _ hs')) (act_allNamed hs hnamed hact)
    refine ⟨w', ?_, hw'⟩
    rw [along_cons, hact]
    exact halong

end Walk

end CrossAssembler
