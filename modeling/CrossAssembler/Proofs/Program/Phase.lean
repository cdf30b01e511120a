import CrossAssembler.Proofs.Instruction.Shape
import CrossAssembler.Proofs.Program.Visit

/-!
# The two walks keep in phase

The survey binds every label to the address counter it has there, and the final walk is to meet the
same counter at the same label: only then do the bound addresses mean anything. The two walks read
different symbols and check different values, so this rests on sizes alone.

* **One step** (`Statement.inPhase_effect`): on machines at the same address and with the same
  processor, a statement that both walks encode, or both fail to encode, moves both machines alike.
* **A whole walk** (`Walk.place_visits`): if the final walk encodes what the survey has encoded, it
  visits every stop at the same place. A run without reports has encoded everything
  (`Walk.kept_of_reports_nil`).
* **Symbols** (`Walk.value?_of_along`): the survey leaves every name with the address of the first
  visit to a label of that name.
* **Labels of emissions** (`Walk.address_of_mem_attributions`): an emission stands at the address at
  which its label was met.
-/

namespace CrossAssembler

/-! ### Two kinds of statements -/

namespace Statement

/-- What an instruction at a place does, by what its encoding gives. -/
def outcome (location : Location) : Except Failure (List UInt8) → Except Fault Effect
  | .ok data => .ok (.emit location data)
  | .error (.problem d) => .ok (.report d)
  | .error (.fault f) => .error f

theorem outcome_emit_iff {location place : Location} {r : Except Failure (List UInt8)}
    {data : List UInt8} :
    outcome location r = .ok (.emit place data) ↔ place = location ∧ r = .ok data := by
  constructor
  · intro h
    match r, h with
    | .ok _, rfl => exact ⟨rfl, rfl⟩
  · rintro ⟨rfl, rfl⟩
    rfl

/-- What an instruction does, if it does not stop the walk: it gives bytes or it is reported. -/
theorem outcome_cases {location : Location} {r : Except Failure (List UInt8)} {e : Effect}
    (h : outcome location r = .ok e) :
    (∃ data, r = .ok data ∧ e = .emit location data) ∨
      ∃ d, r = .error (.problem d) ∧ e = .report d := by
  match r, h with
  | .ok data, rfl => exact .inl ⟨data, rfl, rfl⟩
  | .error (.problem d), rfl => exact .inr ⟨d, rfl, rfl⟩

/-- A statement whose head is a mnemonic and that holds no invalid item. These are the statements that
get to the encoder, and the only ones that look at symbols or at the pass. -/
structure IsInstruction (items : List Item) (head : Item) (rest : List Item) : Prop where
  items_eq : items = head :: rest
  valid : (items.any fun i => i.kind == .invalid) = false
  kind_head : head.kind = .mnemonic

theorem IsInstruction.effect_eq {items rest : List Item} {head : Item}
    (h : IsInstruction items head rest) (pass : Pass) (m : Machine) :
    effect pass m items = outcome head.location (instruction pass m head rest) := by
  obtain ⟨rfl, hvalid, hkind⟩ := h
  unfold effect
  simp only [hvalid, hkind, Bool.false_eq_true, if_false]
  rcases instruction pass m head rest with (d | f) | data <;> rfl

theorem isInstruction_of_valid {head : Item} {rest : List Item} (hkind : head.kind = .mnemonic)
    (hvalid : ∀ i ∈ head :: rest, i.kind ≠ .invalid) : IsInstruction (head :: rest) head rest := by
  refine ⟨rfl, List.any_eq_false.2 fun i hi hinvalid => ?_, hkind⟩
  exact hvalid i hi (beq_iff_eq.1 hinvalid)

/-- What a directive does: it sets the address to a number that is one, or chooses a processor, or
is reported. -/
theorem directive_cases (head : Item) (rest : List Item) :
    (∃ operand, rest = [operand] ∧ head.text.bind Keyword.ofName? = some .origin ∧
        operand.kind = .number ∧ operand.fits16 = true ∧
        directive head rest = .moveTo head.location.line operand.value) ∨
      (∃ cpu, rest = [] ∧ head.text.bind Keyword.ofName? = some (.processor cpu) ∧
        directive head rest = .choose cpu) ∨ ∃ d, directive head rest = .report d := by
  -- an origin with anything but one number of 16 bits behind it is reported, as is an argument of a processor
  unfold directive
  split
  next horigin =>
    unfold origin
    split
    · exact .inr (.inr ⟨_, rfl⟩)
    next operand rest =>
      split
      · exact .inr (.inr ⟨_, rfl⟩)
      next hkind =>
        split
        · exact .inr (.inr ⟨_, rfl⟩)
        next hfits =>
          cases rest with
          | nil => exact .inl ⟨operand, rfl, horigin, not_not.1 hkind, by simpa using hfits, rfl⟩
          | cons extra rest => exact .inr (.inr ⟨_, rfl⟩)
  next cpu hcpu =>
    cases rest with
    | nil => exact .inr (.inl ⟨cpu, rfl, hcpu, rfl⟩)
    | cons extra rest => exact .inr (.inr ⟨_, rfl⟩)
  · exact .inr (.inr ⟨_, rfl⟩)

/-- What a statement does that is no instruction. -/
def plainEffect : List Item → Effect
  | [] => .nothing
  | head :: rest =>
    if (head :: rest).any fun i => i.kind == .invalid then .nothing
    else match head.kind with
      | .keyword => directive head rest
      | .name => .report (.placed head.location (.unknownMnemonic head.shownText))
      | _ => .report (.placed head.location (.misplacedStart head.render))

theorem plainEffect_ne_emit (items : List Item) (place : Location) (data : List UInt8) :
    plainEffect items ≠ .emit place data := by
  unfold plainEffect
  split
  · exact nofun
  next head rest =>
    split
    · exact nofun
    · split
      · -- a directive is the only plain statement that is not a report or nothing
        rcases directive_cases head rest with ⟨operand, -, -, -, -, h⟩ | ⟨cpu, -, -, h⟩ | ⟨d, h⟩
        all_goals
          rw [h]
          exact nofun
      all_goals exact nofun

/-- Only the keyword of the origin with one number behind it moves the counter, and it moves it to the
number. -/
theorem plainEffect_eq_moveTo {items : List Item} {line address : Int}
    (h : plainEffect items = .moveTo line address) :
    ∃ head operand, items = [head, operand] ∧ head.kind = .keyword ∧
      head.text.bind Keyword.ofName? = some .origin ∧ operand.kind = .number ∧
      operand.fits16 = true ∧ operand.value = address := by
  unfold plainEffect at h
  split at h
  · cases h
  next head rest =>
    split at h
    · cases h
    · split at h
      next hkeyword =>
        rcases directive_cases head rest with
          ⟨operand, rfl, horigin, hkind, hfits, hd⟩ | ⟨cpu, -, -, hd⟩ | ⟨d, hd⟩
        · rw [hd] at h
          cases h
          exact ⟨head, operand, rfl, hkeyword, horigin, hkind, hfits, rfl⟩
        · rw [hd] at h
          cases h
        · rw [hd] at h
          cases h
      all_goals cases h

/-- A statement that is no instruction does the same in every pass and on every machine. -/
theorem effect_eq_plainEffect {items : List Item}
    (h : ¬ ∃ head rest, IsInstruction items head rest) (pass : Pass) (m : Machine) :
    effect pass m items = .ok (plainEffect items) := by
  cases items with
  | nil => rfl
  | cons head rest =>
    by_cases hvalid : ((head :: rest).any fun i => i.kind == .invalid) = true
    · simp only [effect, plainEffect, if_pos hvalid]
    · -- the head is no mnemonic, so the encoder is not asked
      have hkind : head.kind ≠ .mnemonic := by
        intro hkind
        exact h ⟨head, rest, rfl, by simpa using hvalid, hkind⟩
      simp only [effect, plainEffect, if_neg hvalid]
      generalize head.kind = kind at hkind
      cases kind with
      | mnemonic => exact absurd rfl hkind
      | _ => rfl

/-- **Two kinds of statements.** An instruction is left to the encoder. Any other statement has its
plain effect. -/
theorem effect_cases (items : List Item) :
    (∃ head rest, IsInstruction items head rest) ∨
      ∀ pass m, effect pass m items = .ok (plainEffect items) :=
  (Classical.em _).imp_right effect_eq_plainEffect

end Statement

/-! ### One step -/

/-- Machines at the same address and with the same processor. The symbols are left out: the survey is
still collecting what the final walk has from the start. -/
structure Machine.InPhase (m m' : Machine) : Prop where
  address_eq : m'.address = m.address
  cpu_eq : m'.cpu = m.cpu

namespace Statement

/-- Alike items behind a mnemonic are alike operands, or are separated wrongly in both. -/
theorem moreOperands_alike {mnemonic : String} {items items' ops : List Item}
    (halike : List.Forall₂ Item.Alike items items') (h : moreOperands mnemonic items = .ok ops) :
    ∃ ops', moreOperands mnemonic items' = .ok ops' ∧ List.Forall₂ Item.Alike ops ops' := by
  fun_induction moreOperands mnemonic items generalizing items' ops with
  | case1 =>
    cases halike
    cases h
    exact ⟨[], rfl, .nil⟩
  | case6 comma operand rest hcomma hoperand ih =>
    obtain ⟨others, hothers, rfl⟩ := map_eq_ok_iff.1 h
    -- alike items have the same kinds, so they are separated alike
    obtain _ | ⟨hsep, _ | ⟨hhead, hrest⟩⟩ := halike
    obtain ⟨others', hothers', halike⟩ := ih hrest hothers
    refine ⟨_, ?_, .cons hhead halike⟩
    rw [moreOperands, ← hsep.kind_eq, if_neg hcomma, ← hhead.kind_eq, if_neg hoperand, hothers']
    rfl
  | _ => cases h

theorem operands_alike {mnemonic : String} {items items' ops : List Item}
    (halike : List.Forall₂ Item.Alike items items') (h : operands mnemonic items = .ok ops) :
    ∃ ops', operands mnemonic items' = .ok ops' ∧ List.Forall₂ Item.Alike ops ops' := by
  cases halike with
  | nil =>
    cases h
    exact ⟨[], rfl, .nil⟩
  | cons hhead hrest =>
    rw [operands] at h
    split at h
    · cases h
    next hoperand =>
      obtain ⟨others, hothers, rfl⟩ := map_eq_ok_iff.1 h
      obtain ⟨others', hothers', halike⟩ := moreOperands_alike hrest hothers
      refine ⟨_, ?_, .cons hhead halike⟩
      rw [operands, ← hhead.kind_eq, if_neg hoperand, hothers']
      rfl

/-- What an instruction gives in any pass, it gives in the survey, in as many bytes, on every machine
with the same processor and with any numbers in place of those written. -/
theorem instruction_survey {pass : Pass} {m m' : Machine} (hcpu : m'.cpu = m.cpu)
    {head : Item} {rest rest' : List Item} (halike : List.Forall₂ Item.Alike rest rest')
    {data : List UInt8} (h : instruction pass m' head rest = .ok data) :
    ∃ data', instruction .survey m head rest' = .ok data' ∧ data'.length = data.length := by
  obtain ⟨ops, mnemonic, hops, hz80, hmnemonic, hencode⟩ := instruction_eq_ok_iff.1 h
  obtain ⟨ops', hops', halike⟩ := operands_alike halike hops
  obtain ⟨data', hdata', hlength⟩ :=
    Instruction.encode_survey ⟨.survey, m.address, m.symbols⟩ rfl halike hencode
  exact ⟨data', instruction_eq_ok_iff.2
    ⟨ops', mnemonic, hops', hcpu ▸ hz80, hmnemonic, hdata'⟩, hlength⟩

end Statement

/-- **The two walks take a statement alike**, unless the survey encodes it and the final walk does
not. -/
theorem Statement.inPhase_effect {m m' : Machine} (hphase : m.InPhase m') {items : List Item}
    {e e' : Effect} (he : effect .survey m items = .ok e) (he' : effect .final m' items = .ok e')
    (hkept : (∃ place data, e = .emit place data) → ∃ place data, e' = .emit place data) :
    (e.onMachine m).InPhase (e'.onMachine m') := by
  obtain ⟨haddress, hcpu⟩ := hphase
  rcases effect_cases items with ⟨head, rest, hinstruction⟩ | hplain
  · rw [hinstruction.effect_eq] at he he'
    rcases outcome_cases he' with ⟨data', hdata', rfl⟩ | ⟨d', -, rfl⟩
    · -- what the final walk encodes, the survey has encoded in as many bytes
      obtain ⟨data, hdata, hlength⟩ :=
        instruction_survey hcpu (List.forall₂_same.2 fun i _ => .refl i) hdata'
      rw [hdata] at he
      cases he
      refine ⟨?_, hcpu⟩
      simp only [Effect.onMachine, haddress, hlength]
    · -- the final walk has reported it; had the survey encoded it, it would have been kept
      rcases outcome_cases he with ⟨data, -, rfl⟩ | ⟨d, -, rfl⟩
      · obtain ⟨place, data, h⟩ := hkept ⟨_, _, rfl⟩
        cases h
      · exact ⟨haddress, hcpu⟩
  · -- any other statement does the same on both machines
    rw [hplain] at he he'
    cases he
    cases he'
    cases plainEffect items with
    | emit place data => exact ⟨by simp only [Effect.onMachine, haddress], hcpu⟩
    | moveTo line address => exact ⟨rfl, hcpu⟩
    | choose cpu => exact ⟨haddress, rfl⟩
    | nothing => exact ⟨haddress, hcpu⟩
    | report d => exact ⟨haddress, hcpu⟩

/-! ### Whole walks -/

namespace Visit

/-- Where a visit takes place: the stop, the address and the processor. -/
def place (v : Visit) : Stop × Int × Cpu :=
  (v.stop, v.machine.address, v.machine.cpu)

/-- What the survey encodes on its visit, the final walk encodes on its own. The survey checks no values,
so this can fail, and the two walks are then out of phase. -/
def Kept (v v' : Visit) : Prop :=
  v.Encodes .survey → v'.Encodes .final

end Visit

namespace Walk

/-- A stop that the final walk encodes if the survey does leaves the machines in phase. -/
theorem inPhase_act {w w' u u' : Walk} {s : Stop} (hphase : w.machine.InPhase w'.machine)
    (hact : w.act .survey s = .ok u) (hact' : w'.act .final s = .ok u')
    (hkept : Visit.Kept ⟨s, w.machine⟩ ⟨s, w'.machine⟩) : u.machine.InPhase u'.machine := by
  cases s with
  | label item =>
    cases hact
    cases hact'
    rw [bind_machine, bind_machine]
    exact ⟨hphase.address_eq, hphase.cpu_eq⟩
  | statement items =>
    obtain ⟨e, he, rfl⟩ := act_statement_iff.1 hact
    obtain ⟨e', he', rfl⟩ := act_statement_iff.1 hact'
    rw [apply_machine, apply_machine]
    refine Statement.inPhase_effect hphase he he' ?_
    rintro ⟨place, data, rfl⟩
    obtain ⟨place', data', h⟩ := hkept ⟨place, data, he⟩
    exact ⟨place', data', Except.ok.inj (he'.symm.trans h)⟩

/-- **The two walks visit the stops at the same places** if what the survey encodes is kept. The other
direction needs no hypothesis: what the final walk encodes, the survey has encoded. -/
theorem place_visits {w w' u u' : Walk} {stops : List Stop}
    (hphase : w.machine.InPhase w'.machine) (halong : w.along .survey stops = .ok u)
    (halong' : w'.along .final stops = .ok u')
    (hkept : List.Forall₂ Visit.Kept (w.visits .survey stops) (w'.visits .final stops)) :
    (w'.visits .final stops).map Visit.place = (w.visits .survey stops).map Visit.place := by
  -- the invariant is `InPhase`; being kept is what every step needs to preserve it
  induction stops generalizing w w' with
  | nil => rfl
  | cons s stops ih =>
    obtain ⟨v, hact, halong⟩ := along_cons_iff.1 halong
    obtain ⟨v', hact', halong'⟩ := along_cons_iff.1 halong'
    rw [visits_cons hact, visits_cons hact'] at hkept ⊢
    obtain ⟨hhead, htail⟩ := List.forall₂_cons.1 hkept
    rw [List.map_cons, List.map_cons,
      ih (inPhase_act hphase hact hact' hhead) halong halong' htail]
    simp only [Visit.place, hphase.address_eq, hphase.cpu_eq]

/-- A statement that the survey encodes and the final walk does not is reported by the final
walk. -/
theorem kept_of_reports_nil {w' u' : Walk} {s : Stop} (m : Machine)
    (hact' : w'.act .final s = .ok u') (hreports : (Visit.mk s w'.machine).reports = []) :
    Visit.Kept ⟨s, m⟩ ⟨s, w'.machine⟩ := by
  rintro ⟨place, data, he⟩
  cases s with
  | label item => cases he
  | statement items =>
    obtain ⟨e', he', rfl⟩ := act_statement_iff.1 hact'
    change Statement.effect .survey m items = _ at he
    -- an instruction gives bytes or a report, and there is no report
    rcases Statement.effect_cases items with ⟨head, rest, hinstruction⟩ | hplain
    · have houtcome := he'
      rw [hinstruction.effect_eq] at houtcome
      rcases Statement.outcome_cases houtcome with ⟨data', -, rfl⟩ | ⟨d, -, rfl⟩
      · exact ⟨_, _, he'⟩
      · rw [Visit.reports_statement he'] at hreports
        cases hreports
    · rw [hplain] at he
      exact absurd (Except.ok.inj he) (Statement.plainEffect_ne_emit items place data)

/-- A final walk without reports has kept all that the survey encodes. -/
theorem kept_visits {w w' u u' : Walk} {stops : List Stop} (halong : w.along .survey stops = .ok u)
    (halong' : w'.along .final stops = .ok u')
    (hreports : (w'.visits .final stops).flatMap Visit.reports = []) :
    List.Forall₂ Visit.Kept (w.visits .survey stops) (w'.visits .final stops) := by
  induction stops generalizing w w' with
  | nil => exact .nil
  | cons s stops ih =>
    obtain ⟨v, hact, halong⟩ := along_cons_iff.1 halong
    obtain ⟨v', hact', halong'⟩ := along_cons_iff.1 halong'
    rw [visits_cons hact'] at hreports ⊢
    rw [List.flatMap_cons, List.append_eq_nil_iff] at hreports
    rw [visits_cons hact]
    exact .cons (kept_of_reports_nil _ hact' hreports.1) (ih halong halong' hreports.2)

end Walk

/-! ### Symbols -/

namespace SymbolTable

/-- A definition counts only if the name is not bound yet. -/
theorem find?_define (t : SymbolTable) (name : Option String) (value : Int) (location : Location)
    (n : Option String) :
    (t.define name value location).find? n =
      (t.find? n).or (if name = n then some ⟨name, value, location⟩ else none) := by
  unfold SymbolTable.define
  split
  next hcontains =>
    -- a name that is bound already keeps its symbol
    by_cases hn : name = n
    · subst hn
      obtain ⟨s, hs⟩ := Option.isSome_iff_exists.1 hcontains
      rw [hs, Option.some_or]
    · rw [if_neg hn, Option.or_none]
  · -- the new symbol comes last, so an older one of the name is found first
    unfold find?
    rw [List.find?_append]
    by_cases hn : name = n
    · have hhead : ((⟨name, value, location⟩ : Symbol).name == n) = true := beq_iff_eq.2 hn
      rw [List.find?_cons, hhead, if_pos hn]
    · have hhead : ((⟨name, value, location⟩ : Symbol).name == n) = false := beq_false_of_ne hn
      rw [List.find?_cons, hhead, if_neg hn]
      rfl

theorem value?_define (t : SymbolTable) (name : Option String) (value : Int) (location : Location)
    (n : String) :
    (t.define name value location).value? n =
      (t.value? n).or (if name = some n then some value else none) := by
  unfold value?
  rw [find?_define, Option.map_or]
  split <;> rfl

/-- A label that is reported is reported at its place, as defined again. -/
theorem reported_of_verify? {t : SymbolTable} {name : Option String} {location : Location}
    {d : Diagnostic} (h : t.verify? name location = some d) :
    d.location = some location ∧ d.category = .duplicateSymbol := by
  unfold verify? at h
  split at h
  · split at h
    · cases h
    · cases h
      exact ⟨rfl, rfl⟩
  · cases h

end SymbolTable

namespace Walk

/-- **The survey binds every name where it first meets a label of that name**, unless the name was
bound before. -/
theorem value?_of_along {w u : Walk} {stops : List Stop} (halong : w.along .survey stops = .ok u)
    (name : String) :
    u.machine.symbols.value? name = (w.machine.symbols.value? name).or
      (((w.visits .survey stops).find? fun v => v.stop.name? == some name).map
        fun v => v.machine.address) := by
  -- the table at the start may bind names itself, as it does behind the first stop
  induction stops generalizing w with
  | nil =>
    cases halong
    simp
  | cons s stops ih =>
    obtain ⟨v, hact, halong⟩ := along_cons_iff.1 halong
    rw [ih halong, visits_cons hact, List.find?_cons]
    rcases act_machine hact with ⟨item, rfl, hv⟩ | ⟨items, e, rfl, -, hv⟩
    · have hsymbols : v.machine.symbols.value? name = (w.machine.symbols.value? name).or
          (if item.text = some name then some w.machine.address else none) := by
        rw [hv]
        exact SymbolTable.value?_define _ _ _ _ _
      rw [hsymbols, Option.or_assoc]
      -- a label of the name binds it here, unless an earlier one has
      by_cases hname : item.text = some name
      · have hhead : ((Stop.label item).name? == some name) = true := beq_iff_eq.2 hname
        rw [hhead, if_pos hname]
        rfl
      · have hhead : ((Stop.label item).name? == some name) = false := beq_eq_false_iff_ne.2 hname
        rw [hhead, if_neg hname, Option.none_or]
    · -- a statement defines no name and binds none
      rw [hv, Effect.onMachine_symbols]
      rfl

/-! ### Labels of emissions -/

/-- The address of a machine changes only behind a statement that takes the label. -/
theorem act_address {pass : Pass} {w u : Walk} {s : Stop} (hact : w.act pass s = .ok u)
    {pending : Option Visit} (hpending : ∀ p ∈ pending, p.machine.address = w.machine.address) :
    ∀ p ∈ (Visit.mk s w.machine).labelAfter pass pending,
      p.machine.address = u.machine.address := by
  rcases act_machine hact with ⟨item, rfl, hu⟩ | ⟨items, e, rfl, he, hu⟩
  · rintro p ⟨⟩
    rw [hu]
    cases pass <;> rfl
  · intro p hp
    simp only [Visit.labelAfter, Visit.effect, he] at hp
    rw [hu]
    -- whatever moves the counter takes the label with it
    cases e with
    | emit place data => cases hp
    | moveTo line address => cases hp
    | _ => exact hpending p hp

/-- **An emission stands where its label was met.** Statements between the two have emitted nothing, and
none of them has set the counter. -/
theorem address_of_mem_attributions {pass : Pass} {w u : Walk} {stops : List Stop}
    (halong : w.along pass stops = .ok u) (pending : Option Visit)
    (hpending : ∀ p ∈ pending, p.machine.address = w.machine.address) {e : Emission} {p : Visit}
    (h : (e, some p) ∈ Visit.attributions pass pending (w.visits pass stops)) :
    e.address = p.machine.address ∧ e.label = p.stop.name? := by
  -- the invariant: the label in force was met at the address that the counter still has
  induction stops generalizing w pending with
  | nil => cases h
  | cons s stops ih =>
    obtain ⟨v, hact, halong⟩ := along_cons_iff.1 halong
    rw [visits_cons hact, Visit.attributions, List.mem_append] at h
    rcases h with h | h
    · rw [Option.mem_toList, Option.map_eq_some_iff] at h
      obtain ⟨e', he', h⟩ := h
      cases h
      unfold Visit.emission? at he'
      split at he'
      · cases he'
        exact ⟨(hpending p rfl).symm, rfl⟩
      · cases he'
    · exact ih halong _ (act_address hact hpending) h

end Walk

/-! ### Both walks over a program -/

/-- The two walks that assembling a program takes, both of which arrive. The final walk starts from the
first address again, with the symbols that the survey has found. -/
structure Passes (m : Machine) (items : List Item) where
  survey : Walk
  final : Walk
  survey_eq : Walk.run .survey m (Line.ofItems items) = .ok survey
  final_eq :
    Walk.run .final { m with symbols := survey.machine.symbols } (Line.ofItems items) = .ok final

namespace Passes

variable {m : Machine} {items : List Item}

/-- The visits of the survey. -/
def first (_ : Passes m items) : List Visit :=
  Walk.visits .survey { machine := m } (Stop.ofItems items)

/-- The visits of the final walk. -/
def second (p : Passes m items) : List Visit :=
  Walk.visits .final { machine := { m with symbols := p.survey.machine.symbols } }
    (Stop.ofItems items)

/-- What the two walks leave behind. -/
def listing (p : Passes m items) : Listing :=
  { machine := p.final.machine, emissions := p.final.emissions.toList,
    reports := p.final.reports.toList,
    notes := [Note.surveyed p.survey.machine.symbols.size] ++ p.final.notes.toList ++
      [Note.generated p.final.emissions.size p.final.reports.size] }

/-- The emissions, each with the label visit that it takes its label from. -/
def attributions (p : Passes m items) : List (Emission × Option Visit) :=
  Visit.attributions .final none p.second

/-- The final walk encodes every statement that the survey has encoded. -/
def Kept (p : Passes m items) : Prop :=
  List.Forall₂ Visit.Kept p.first p.second

theorem survey_along (p : Passes m items) :
    Walk.along .survey { machine := m } (Stop.ofItems items) = .ok p.survey :=
  Walk.run_eq_along _ _ _ ▸ p.survey_eq

theorem final_along (p : Passes m items) :
    Walk.along .final { machine := { m with symbols := p.survey.machine.symbols } }
      (Stop.ofItems items) = .ok p.final :=
  Walk.run_eq_along _ _ _ ▸ p.final_eq

theorem assemble_eq (p : Passes m items) : m.assemble items = .ok p.listing := by
  unfold Machine.assemble
  dsimp only
  rw [p.survey_eq]
  change (Walk.run .final { m with symbols := p.survey.machine.symbols } _ >>= _) = _
  rw [p.final_eq]
  rfl

theorem symbols_eq (p : Passes m items) :
    p.listing.machine.symbols = p.survey.machine.symbols := by
  have h := Walk.symbols_of_along_final p.final_along
  exact h

theorem reports_eq (p : Passes m items) : p.listing.reports = p.second.flatMap Visit.reports :=
  Walk.reports_of_along p.final_along

theorem emissions_eq (p : Passes m items) : p.listing.emissions = p.attributions.map Prod.fst :=
  Walk.emissions_of_along p.final_along rfl

/-- Both walks arrive on a parsed program. -/
theorem exists_passes {m : Machine} (hnamed : m.symbols.AllNamed) (file : String)
    (tokens : List Token) : Nonempty (Passes m (parse file tokens).items) := by
  have hgenuine : ∀ s ∈ Stop.ofItems (parse file tokens).items, s.Genuine :=
    fun s hs => Stop.genuine_of_mem_ofItems hs
  obtain ⟨survey, hsurvey, hsymbols⟩ :=
    Walk.exists_along .survey (w := { machine := m }) hgenuine hnamed
  obtain ⟨final, hfinal, -⟩ := Walk.exists_along .final
    (w := { machine := { m with symbols := survey.machine.symbols } }) hgenuine hsymbols
  rw [← Walk.run_eq_along] at hsurvey hfinal
  exact ⟨⟨survey, final, hsurvey, hfinal⟩⟩

theorem kept_of_reports (p : Passes m items) (h : p.listing.reports = []) : p.Kept :=
  Walk.kept_visits p.survey_along p.final_along (p.reports_eq ▸ h)

theorem place_eq (p : Passes m items) (hkept : p.Kept) :
    p.second.map Visit.place = p.first.map Visit.place :=
  Walk.place_visits ⟨rfl, rfl⟩ p.survey_along p.final_along hkept

/-- The first visit to a label of a name, in walks that visit the same places. -/
theorem address_find?_eq {first second : List Visit}
    (h : second.map Visit.place = first.map Visit.place) (name : String) :
    ((second.find? fun v => v.stop.name? == some name).map fun v => v.machine.address) =
      (first.find? fun v => v.stop.name? == some name).map fun v => v.machine.address := by
  -- the first visit and its address are read off the places alone
  have hplace : ∀ vs : List Visit,
      ((vs.find? fun v => v.stop.name? == some name).map fun v => v.machine.address) =
        ((vs.map Visit.place).find? fun q => q.1.name? == some name).map fun q => q.2.1 := by
    intro vs
    rw [List.find?_map, Option.map_map]
    rfl
  rw [hplace, hplace, h]

/-- In walks that keep in phase a name has the address at which the final walk first meets it. -/
theorem value?_eq (p : Passes m items) (hfresh : m.symbols = {}) (hkept : p.Kept)
    (name : String) :
    p.listing.machine.symbols.value? name =
      (p.second.find? fun v => v.stop.name? == some name).map fun v => v.machine.address := by
  rw [p.symbols_eq, address_find?_eq (p.place_eq hkept), Walk.value?_of_along p.survey_along, hfresh]
  rfl

end Passes

/-- **The two walks keep in phase.** A parsed program assembles from every address and processor.
If it is assembled without reports, the final walk has encoded all that the survey has; and if it
has, then it has visited every label and every statement at the address and with the processor of
the survey, every name stands for the address at which the final walk first meets a label of that
name, and an emission that takes its label from such a first visit stands at the value of the
label. -/
theorem assemble_inPhase (file : String) (tokens : List Token) (address : Int) (cpu : Cpu) :
    ∃ p : Passes { address := address, cpu := cpu } (parse file tokens).items,
      Machine.assemble { address := address, cpu := cpu } (parse file tokens).items =
          .ok p.listing ∧
        p.first.map Visit.stop = Stop.ofItems (parse file tokens).items ∧
        p.second.map Visit.stop = Stop.ofItems (parse file tokens).items ∧
        p.listing.emissions = p.attributions.map Prod.fst ∧
        (p.listing.reports = [] → p.Kept) ∧
        (p.Kept →
          p.second.map Visit.place = p.first.map Visit.place ∧
          (∀ name, p.listing.machine.symbols.value? name =
            (p.second.find? fun v => v.stop.name? == some name).map fun v => v.machine.address) ∧
          ∀ e label name, (e, some label) ∈ p.attributions →
            (p.second.find? fun v => v.stop.name? == some name) = some label →
            e.label = some name ∧ p.listing.machine.symbols.value? name = some e.address) := by
  obtain ⟨p⟩ := Passes.exists_passes (m := { address := address, cpu := cpu }) rfl file tokens
  refine ⟨p, p.assemble_eq, Walk.map_stop_visits p.survey_along, Walk.map_stop_visits p.final_along,
    p.emissions_eq, p.kept_of_reports, fun hkept => ⟨p.place_eq hkept, p.value?_eq rfl hkept, ?_⟩⟩
  intro e label name he hfirst
  -- no label is in force in front of the first stop
  obtain ⟨haddress, hlabel⟩ :=
    Walk.address_of_mem_attributions p.final_along none (fun _ h => nomatch h) he
  have hname := List.find?_some hfirst
  rw [beq_iff_eq] at hname
  refine ⟨hlabel.trans hname, ?_⟩
  rw [p.value?_eq rfl hkept, hfirst, haddress]
  rfl

end CrossAssembler
