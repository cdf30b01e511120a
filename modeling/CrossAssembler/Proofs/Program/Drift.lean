import CrossAssembler.Proofs.Instruction.Offset
import CrossAssembler.Proofs.Program.Phase
import CrossAssembler.Token.Scan

/-!
# Statements that only the final walk refuses

A value out of range does not keep the survey from counting the bytes of its statement. The final
walk reports the statement and emits nothing, so from there on its counter lags behind the addresses
that labels are bound to, until an origin sets it again. In between, every relative jump counts its
offset from the wrong place: one that is in reach may be reported, and one that is not may pass.

* **Statements** (`Statement.moved_cases`): a statement does the same at every address, or it is a
  relative jump.
* **One step** (`Machine.Lags.effect_cases`, `Walk.lags_act`): on a machine that lags behind another
  one, a stop is reported alike exactly if its jump is in reach with the lag.
* **A whole walk** (`Walk.map_reports_iff`): so are all stops up to the next origin, which ends the
  lag.
* **Two programs** (`Passes.survey_eq_of_alike`, `Passes.exists_lags`): programs that differ in one
  number are surveyed alike, and the statement with the number starts the lag.
-/

namespace CrossAssembler

/-! ### Offsets in the final pass -/

namespace Context

/-- The report on a target that a relative jump does not reach. -/
def outOfReach (ctx : Context) (t : Term) (target : Int) : Failure :=
  .problem (.placed t.location (.valueRange (ctx.distance target) "relative jump offset"
    (some s!"target {Hex.address (target % 0x10000)} is out of reach; use JP")))

/-- The offset of a relative jump in the final pass. -/
theorem offsetByte_final {ctx : Context} (hpass : ctx.pass = .final) (t : Term) :
    ctx.offsetByte t =
      match ctx.valueOf t with
      | .error f => .error f
      | .ok target =>
        if 0 ≤ target ∧ target ≤ 0xFFFF then
          if -128 ≤ ctx.distance target ∧ ctx.distance target ≤ 127 then
            .ok (lowByte (ctx.distance target))
          else .error (ctx.outOfReach t target)
        else .error (.problem (.placed t.location (.valueRange target "jump target" none))) := by
  unfold offsetByte valueWithin require
  simp only [hpass]
  -- the checks in their order: the label has a value, it is an address, it is in reach
  cases ctx.valueOf t with
  | error f => rfl
  | ok target =>
    by_cases hrange : 0 ≤ target ∧ target ≤ 0xFFFF
    · by_cases hreach : -128 ≤ ctx.distance target ∧ ctx.distance target ≤ 127
      · simp [hrange, hreach, bind, Except.bind, pure, Except.pure]
      · simp [hrange, hreach, bind, Except.bind, pure, Except.pure, outOfReach]
    · simp [hrange, bind, Except.bind]

end Context

/-! ### Relative jumps -/

namespace Statement

/-- The term that a statement jumps to, if it is a relative jump. -/
def target? (cpu : Cpu) : List Item → Option Term
  | [] => none
  | head :: rest =>
    if head.kind = .mnemonic ∧ ((head :: rest).any fun i => i.kind == .invalid) = false ∧
        cpu = .z80 then
      match operands head.shownText rest, head.text.bind Mnemonic.ofName? with
      | .ok ops, some mnemonic => Instruction.target? mnemonic ops head.location
      | _, _ => none
    else none

end Statement

/-- What the final walk takes the values of operands from. -/
def Machine.context (m : Machine) : Context :=
  ⟨.final, m.address, m.symbols⟩

/-- **Only relative jumps depend on the address.** In the final walk a statement does the same at
every address, or it is a relative jump, and then its offset decides. -/
theorem Statement.moved_cases (cpu : Cpu) (items : List Item) :
    (target? cpu items = none ∧ ∀ m m' : Machine, m.cpu = cpu → m'.cpu = cpu →
        m'.symbols = m.symbols → effect .final m' items = effect .final m items) ∨
      ∃ t place opcode, target? cpu items = some t ∧ ∀ m : Machine, m.cpu = cpu →
        effect .final m items =
          outcome place ((m.context.offsetByte t).map fun b => [opcode, b]) := by
  by_cases hinstruction : ∃ head rest, IsInstruction items head rest
  · obtain ⟨head, rest, hinstruction⟩ := hinstruction
    have heffect : ∀ m : Machine, effect .final m items =
        outcome head.location (instruction .final m head rest) := hinstruction.effect_eq .final
    obtain ⟨rfl, hvalid, hkind⟩ := hinstruction
    simp only [instruction_eq] at heffect
    -- an instruction that does not get to the encoder does the same everywhere
    cases hops : operands head.shownText rest with
    | error d =>
      refine .inl ⟨by simp [target?, hops], fun m m' _ _ _ => ?_⟩
      rw [heffect, heffect, hops]
    | ok ops =>
      by_cases hcpu : cpu = .z80
      · subst hcpu
        cases hmnemonic : head.text.bind Mnemonic.ofName? with
        | none =>
          refine .inl ⟨by simp [target?, hops, hmnemonic], fun m m' hm hm' _ => ?_⟩
          rw [heffect, heffect, hops, hmnemonic, hm, hm']
        | some mnemonic =>
          have htarget : target? .z80 (head :: rest) =
              Instruction.target? mnemonic ops head.location := by
            rw [target?, if_pos ⟨hkind, hvalid, rfl⟩, hops, hmnemonic]
          have hencode : ∀ m : Machine, m.cpu = .z80 → effect .final m (head :: rest) =
              outcome head.location
                (Instruction.encode m.context mnemonic ops head.location) := by
            intro m hm
            rw [heffect, hops, hmnemonic, hm]
            rfl
          -- only here can the address get into the bytes, and only by an offset
          rcases Instruction.encode_cases mnemonic ops head.location with
            ⟨hnone, hmoved⟩ | ⟨opcode, t, hsome, hoffset⟩
          · refine .inl ⟨htarget.trans hnone, fun m m' hm hm' hsymbols => ?_⟩
            rw [hencode m hm, hencode m' hm', ← hmoved m.context m'.address]
            rw [Machine.context, hsymbols]
            rfl
          · refine .inr ⟨t, head.location, opcode, htarget.trans hsome, fun m hm => ?_⟩
            rw [hencode m hm, hoffset]
      · refine .inl ⟨if_neg fun h => hcpu h.2.2, fun m m' hm hm' _ => ?_⟩
        rw [heffect, heffect, hops, hm, hm']
        simp only [if_neg hcpu]
  · left
    constructor
    · cases items with
      | nil => rfl
      | cons head rest => exact if_neg fun h => hinstruction ⟨head, rest, rfl, h.2.1, h.1⟩
    · intro m m' _ _ _
      rw [effect_eq_plainEffect hinstruction, effect_eq_plainEffect hinstruction]

/-! ### Machines that lag behind -/

/-- The effect of an origin, which sets the counter. -/
def Effect.moves : Effect → Bool
  | moveTo _ _ => true
  | _ => false

namespace Machine

/-- A machine that differs from another one only in that its counter lags some bytes behind. The lag is
taken round the end of the address space, as the counters are. -/
structure Lags (n : Nat) (m m' : Machine) : Prop where
  cpu_eq : m'.cpu = m.cpu
  symbols_eq : m'.symbols = m.symbols
  address_eq : (m'.address - (m.address + n)) % addressSpace = 0

variable {n : Nat} {m m' : Machine}

/-- Behind an origin nothing lags any more, and any other effect keeps the lag. -/
theorem Lags.onMachine (h : Lags n m m') (e : Effect) :
    (e.moves = true ∧ e.onMachine m = e.onMachine m') ∨
      e.moves = false ∧ Lags n (e.onMachine m) (e.onMachine m') := by
  obtain ⟨hcpu, hsymbols, haddress⟩ := h
  -- both counters move on alike, unless they are set to the same address
  cases e with
  | moveTo line address =>
    refine .inl ⟨rfl, ?_⟩
    simp only [Effect.onMachine, hcpu, hsymbols]
  | emit place data =>
    refine .inr ⟨rfl, hcpu, hsymbols, ?_⟩
    simp only [Effect.onMachine, addressSpace] at haddress ⊢
    omega
  | choose cpu => exact .inr ⟨rfl, rfl, hsymbols, haddress⟩
  | nothing => exact .inr ⟨rfl, hcpu, hsymbols, haddress⟩
  | report d => exact .inr ⟨rfl, hcpu, hsymbols, haddress⟩

/-- Two encodings of one length keep the lag. -/
theorem Lags.emit (h : Lags n m m') (place : Location) {data data' : List UInt8}
    (hlength : data'.length = data.length) :
    Lags n (Effect.onMachine (.emit place data) m) (Effect.onMachine (.emit place data') m') := by
  obtain ⟨hcpu, hsymbols, haddress⟩ := h
  refine ⟨hcpu, hsymbols, ?_⟩
  simp only [Effect.onMachine, addressSpace, hlength] at haddress ⊢
  omega

/-- A jump of a machine that lags a few bytes behind is longer by the lag. Both jumps are in reach if
the one is and would still be if it were longer; and their offsets never agree. -/
theorem Lags.distance (h : Lags n m m') (hpos : 0 < n) (hle : n ≤ 4) (target : Int) :
    m.context.distance target ≠ m'.context.distance target ∧
      (((-128 ≤ m.context.distance target ∧ m.context.distance target ≤ 127) ∧
          -128 ≤ m'.context.distance target ∧ m'.context.distance target ≤ 127) ↔
        -128 ≤ m'.context.distance target ∧ m'.context.distance target + n ≤ 127) := by
  have haddress := h.address_eq
  -- a lag of so few bytes takes no jump in reach round to the other side of the address space
  simp only [Context.distance, Machine.context, addressSpace, Int.bmod_def] at haddress ⊢
  omega

end Machine

/-! ### One step -/

namespace Visit

/-- How far a visit jumps, if its statement is a relative jump to an address. A target that is no address
is reported as such, and no distance to it is ever computed. -/
def distance? (v : Visit) : Option Int :=
  match v.stop with
  | .label _ => none
  | .statement items =>
    (Statement.target? v.machine.cpu items).bind fun t =>
      (v.machine.context.valueOf t).toOption.bind fun target =>
        if 0 ≤ target ∧ target ≤ 0xFFFF then some (v.machine.context.distance target) else none

/-- A visit whose jump, if it is one, is in reach and stays in reach if it gets longer by some
bytes. -/
def InReach (n : Nat) (v : Visit) : Prop :=
  ∀ d ∈ v.distance?, -128 ≤ d ∧ d + n ≤ 127

instance (n : Nat) (v : Visit) : Decidable (v.InReach n) :=
  inferInstanceAs (Decidable (∀ d ∈ v.distance?, _))

theorem inReach_of_none {n : Nat} {v : Visit} (h : v.distance? = none) : v.InReach n := by
  intro d hd
  rw [h] at hd
  cases hd

theorem inReach_iff_of_some {n : Nat} {v : Visit} {d : Int} (h : v.distance? = some d) :
    v.InReach n ↔ -128 ≤ d ∧ d + n ≤ 127 := by
  unfold InReach
  rw [h]
  exact ⟨fun hd => hd d rfl, fun hd _ hmem => Option.some.inj hmem ▸ hd⟩

/-- A visit to an origin. -/
def moves (v : Visit) : Bool :=
  match v.effect .final with
  | .ok e => e.moves
  | .error _ => false

theorem moves_statement {m : Machine} {items : List Item} {e : Effect}
    (he : Statement.effect .final m items = .ok e) :
    (Visit.mk (.statement items) m).moves = e.moves := by
  simp only [moves, effect, he]

end Visit

/-- **A statement on a machine that lags behind.** It has the same effect as on the other machine, or
both encode it in as many bytes, and then its jump is in reach with the lag. Otherwise it is reported
in one place only, or in different words, and its jump is not in reach. -/
theorem Machine.Lags.effect_cases {n : Nat} {m m' : Machine} (h : Lags n m m') (hpos : 0 < n)
    (hle : n ≤ 4) {items : List Item} {e e' : Effect}
    (he : Statement.effect .final m items = .ok e)
    (he' : Statement.effect .final m' items = .ok e') :
    ((Visit.mk (.statement items) m').InReach n ∧
        (e' = e ∨ ∃ place data data', e = .emit place data ∧ e' = .emit place data' ∧
          data'.length = data.length)) ∨
      ¬ (Visit.mk (.statement items) m').InReach n ∧ e.reports ≠ e'.reports ∧
        e'.moves = false := by
  -- what is no relative jump has the same effect; of a jump, the value of the target is the same
  rcases Statement.moved_cases m.cpu items with
    ⟨hnone, hmoved⟩ | ⟨t, place, opcode, hsome, hoffset⟩
  · have hdistance : (Visit.mk (.statement items) m').distance? = none := by
      simp only [Visit.distance?, h.cpu_eq, hnone, Option.bind_none]
    rw [hmoved m m' rfl h.cpu_eq h.symbols_eq, he] at he'
    exact .inl ⟨Visit.inReach_of_none hdistance, .inl (Except.ok.inj he').symm⟩
  · rw [hoffset m rfl, Context.offsetByte_final rfl] at he
    rw [hoffset m' h.cpu_eq, Context.offsetByte_final rfl] at he'
    have hvalue : m'.context.valueOf t = m.context.valueOf t := by
      unfold Machine.context
      rw [h.symbols_eq]
      rfl
    have hdistance : (Visit.mk (.statement items) m').distance? =
        (m.context.valueOf t).toOption.bind fun target =>
          if 0 ≤ target ∧ target ≤ 0xFFFF then some (m'.context.distance target) else none := by
      simp only [Visit.distance?, h.cpu_eq, hsome, hvalue, Option.bind_some]
    rw [hvalue] at he'
    cases hv : m.context.valueOf t with
    | error f =>
      -- a label without a value is reported in the same words
      rw [hv] at he he' hdistance
      exact .inl ⟨Visit.inReach_of_none hdistance, .inl (Except.ok.inj (he'.symm.trans he))⟩
    | ok target =>
      rw [hv] at hdistance
      simp only [hv] at he he'
      by_cases hrange : 0 ≤ target ∧ target ≤ 0xFFFF
      · rw [if_pos hrange] at he he'
        have hiff := Visit.inReach_iff_of_some (n := n) (hdistance.trans (if_pos hrange))
        obtain ⟨hne, hreach⟩ := h.distance hpos hle target
        rw [← hreach] at hiff
        by_cases hboth : (-128 ≤ m.context.distance target ∧ m.context.distance target ≤ 127) ∧
            -128 ≤ m'.context.distance target ∧ m'.context.distance target ≤ 127
        · rw [if_pos hboth.1] at he
          rw [if_pos hboth.2] at he'
          cases he
          cases he'
          exact .inl ⟨hiff.2 hboth, .inr ⟨_, _, _, rfl, rfl, rfl⟩⟩
        · refine .inr ⟨fun hin => hboth (hiff.1 hin), ?_⟩
          -- one machine reports the jump and the other encodes it, or both report it
          by_cases hlate : -128 ≤ m.context.distance target ∧ m.context.distance target ≤ 127
          · rw [if_pos hlate] at he
            rw [if_neg fun hearly => hboth ⟨hlate, hearly⟩] at he'
            cases he
            cases he'
            exact ⟨fun hreports => (nomatch hreports), rfl⟩
          · rw [if_neg hlate] at he
            cases he
            split at he'
            · cases he'
              exact ⟨fun hreports => (nomatch hreports), rfl⟩
            · -- out of reach from both places, by different offsets
              cases he'
              refine ⟨fun hreports => hne ?_, rfl⟩
              simpa only [Effect.reports, List.cons.injEq, Diagnostic.placed, Diagnostic.mk.injEq,
                Problem.valueRange.injEq, true_and, and_true] using hreports
      · rw [if_neg hrange] at he he'
        exact .inl ⟨Visit.inReach_of_none (hdistance.trans (if_neg hrange)),
          .inl (Except.ok.inj (he'.symm.trans he))⟩

/-! ### Whole walks -/

namespace Walk

/-- What a stop does to the machine, it does whatever the walk has left behind so far. -/
theorem machine_act {pass : Pass} {w w' u u' : Walk} {s : Stop} (hmachine : w.machine = w'.machine)
    (hact : w.act pass s = .ok u) (hact' : w'.act pass s = .ok u') : u.machine = u'.machine := by
  cases s with
  | label item =>
    cases hact
    cases hact'
    rw [bind_machine, bind_machine, hmachine]
  | statement items =>
    obtain ⟨e, he, rfl⟩ := act_statement_iff.1 hact
    obtain ⟨e', he', rfl⟩ := act_statement_iff.1 hact'
    rw [hmachine, he'] at he
    rw [apply_machine, apply_machine, Except.ok.inj he, hmachine]

theorem machine_along {pass : Pass} {w w' u u' : Walk} {stops : List Stop}
    (hmachine : w.machine = w'.machine) (halong : w.along pass stops = .ok u)
    (halong' : w'.along pass stops = .ok u') : u.machine = u'.machine :=
  along_induction₂ (R := fun v v' => v.machine = v'.machine) halong halong' hmachine
    fun _ _ _ _ _ => machine_act

/-- Walks on one machine visit the stops alike. -/
theorem visits_eq {pass : Pass} {w w' u u' : Walk} {stops : List Stop}
    (hmachine : w.machine = w'.machine) (halong : w.along pass stops = .ok u)
    (halong' : w'.along pass stops = .ok u') : w.visits pass stops = w'.visits pass stops := by
  induction stops generalizing w w' with
  | nil => rfl
  | cons s stops ih =>
    obtain ⟨v, hact, halong⟩ := along_cons_iff.1 halong
    obtain ⟨v', hact', halong'⟩ := along_cons_iff.1 halong'
    rw [visits_cons hact, visits_cons hact', hmachine,
      ih (machine_act hmachine hact hact') halong halong']

theorem visits_append {pass : Pass} {w u : Walk} {front : List Stop}
    (halong : w.along pass front = .ok u) (back : List Stop) :
    w.visits pass (front ++ back) = w.visits pass front ++ u.visits pass back := by
  induction front generalizing w with
  | nil =>
    cases halong
    rfl
  | cons s front ih =>
    obtain ⟨v, hact, halong⟩ := along_cons_iff.1 halong
    rw [List.cons_append, visits_cons hact, visits_cons hact, ih halong, List.cons_append]

/-- **One stop on a walk that lags behind.** An origin ends the lag. Any other stop that is in reach
is reported alike and keeps the lag, and one that is not in reach is not reported alike. -/
theorem lags_act {n : Nat} (hpos : 0 < n) (hle : n ≤ 4) {w w' u u' : Walk} {s : Stop}
    (hlags : w.machine.Lags n w'.machine) (hact : w.act .final s = .ok u)
    (hact' : w'.act .final s = .ok u') :
    ((Visit.mk s w'.machine).moves = true ∧
        (Visit.mk s w.machine).reports = (Visit.mk s w'.machine).reports ∧
        u.machine = u'.machine) ∨
      (Visit.mk s w'.machine).moves = false ∧
        (((Visit.mk s w'.machine).InReach n ∧
            (Visit.mk s w.machine).reports = (Visit.mk s w'.machine).reports ∧
            u.machine.Lags n u'.machine) ∨
          ¬ (Visit.mk s w'.machine).InReach n ∧
            (Visit.mk s w.machine).reports ≠ (Visit.mk s w'.machine).reports) := by
  cases s with
  | label item =>
    -- a label is judged by the table, which both walks share
    cases hact
    cases hact'
    refine .inr ⟨rfl, .inl ⟨Visit.inReach_of_none rfl, ?_, ?_⟩⟩
    · simp only [Visit.reports, hlags.symbols_eq]
    · rw [bind_machine, bind_machine]
      exact hlags
  | statement items =>
    obtain ⟨e, he, rfl⟩ := act_statement_iff.1 hact
    obtain ⟨e', he', rfl⟩ := act_statement_iff.1 hact'
    rw [Visit.reports_statement he, Visit.reports_statement he', Visit.moves_statement he',
      apply_machine, apply_machine]
    rcases hlags.effect_cases hpos hle he he' with ⟨hin, hsame⟩ | ⟨hout, hreports, hstays⟩
    · rcases hsame with rfl | ⟨place, data, data', rfl, rfl, hlength⟩
      · rcases hlags.onMachine e' with ⟨hmoves, hmachine⟩ | ⟨hstays, hlags⟩
        · exact .inl ⟨hmoves, rfl, hmachine⟩
        · exact .inr ⟨hstays, .inl ⟨hin, rfl, hlags⟩⟩
      · exact .inr ⟨rfl, .inl ⟨hin, rfl, hlags.emit place hlength⟩⟩
    · exact .inr ⟨hstays, .inr ⟨hout, hreports⟩⟩

/-- **A walk that lags behind reports every stop alike exactly if all jumps up to the next origin are
in reach with the lag.** -/
theorem map_reports_iff {n : Nat} (hpos : 0 < n) (hle : n ≤ 4) {w w' u u' : Walk}
    {stops : List Stop} (hlags : w.machine.Lags n w'.machine)
    (halong : w.along .final stops = .ok u) (halong' : w'.along .final stops = .ok u') :
    (w.visits .final stops).map Visit.reports = (w'.visits .final stops).map Visit.reports ↔
      ∀ v ∈ (w'.visits .final stops).takeWhile fun v => !v.moves, v.InReach n := by
  -- the lag is the invariant up to the first origin, behind which the walks are one
  induction stops generalizing w w' with
  | nil => exact ⟨fun _ _ h => (nomatch h), fun _ => rfl⟩
  | cons s stops ih =>
    obtain ⟨v, hact, halong⟩ := along_cons_iff.1 halong
    obtain ⟨v', hact', halong'⟩ := along_cons_iff.1 halong'
    rw [visits_cons hact, visits_cons hact', List.map_cons, List.map_cons, List.cons.injEq]
    rcases lags_act hpos hle hlags hact hact' with
      ⟨hmoves, hreports, hmachine⟩ | ⟨hmoves, ⟨hin, hreports, hlags⟩ | ⟨hout, hreports⟩⟩
    · -- behind an origin both walks are on one machine
      have hrest := visits_eq hmachine halong halong'
      rw [List.takeWhile_cons_of_neg (by simp [hmoves])]
      exact ⟨fun _ _ h => (nomatch h), fun _ => ⟨hreports, by rw [hrest]⟩⟩
    · rw [List.takeWhile_cons_of_pos (by simp [hmoves]), List.forall_mem_cons,
        ← ih hlags halong halong']
      exact ⟨fun h => ⟨hin, h.2⟩, fun h => ⟨hreports, h.2⟩⟩
    · -- a jump out of reach tells the walks apart, whatever comes behind it
      rw [List.takeWhile_cons_of_pos (by simp [hmoves]), List.forall_mem_cons]
      exact ⟨fun h => absurd h.1 hreports, fun h => absurd h.1 hout⟩

end Walk

/-! ### Programs that differ in one operand -/

/-- The rows around an item that ends no line. -/
theorem Line.exists_rows (front back : List Item) :
    ∃ before lead trail after, ∀ i : Item, i.kind ≠ .separator →
      rows (front ++ i :: back) = before ++ (lead ++ i :: trail) :: after := by
  -- the row of the item is built from the back: items in front of it join its row up to a separator
  induction front with
  | nil =>
    cases hrows : rows back with
    | nil =>
      refine ⟨[], [], [], [], fun i hi => ?_⟩
      rw [List.nil_append, rows, if_neg hi, hrows]
      rfl
    | cons row more =>
      refine ⟨[], [], row, more, fun i hi => ?_⟩
      rw [List.nil_append, rows, if_neg hi, hrows]
      rfl
  | cons j front ih =>
    obtain ⟨before, lead, trail, after, hrows⟩ := ih
    by_cases hj : j.kind = .separator
    · refine ⟨[] :: before, lead, trail, after, fun i hi => ?_⟩
      rw [List.cons_append, rows, if_pos hj, hrows i hi]
      rfl
    · cases before with
      | nil =>
        refine ⟨[], j :: lead, trail, after, fun i hi => ?_⟩
        rw [List.cons_append, rows, if_neg hj, hrows i hi]
        rfl
      | cons row before =>
        refine ⟨(j :: row) :: before, lead, trail, after, fun i hi => ?_⟩
        rw [List.cons_append, rows, if_neg hj, hrows i hi]
        rfl

/-- An item that is no label belongs to the statement of its line, with all that stands behind it. -/
theorem Line.ofRow_append (lead trail : List Item) {i : Item} (hi : i.kind ≠ .label) :
    ofRow (lead ++ i :: trail) =
      { labels := lead.takeWhile fun j => j.kind == .label,
        statement := (lead.dropWhile fun j => j.kind == .label) ++ i :: trail } := by
  have hstop : (i.kind == .label) = false := beq_eq_false_iff_ne.2 hi
  -- labels in front of the item stay labels, and the first other item starts the statement
  induction lead with
  | nil => simp [ofRow, hstop]
  | cons j lead ih =>
    unfold ofRow at ih ⊢
    obtain ⟨hlabels, hstatement⟩ := Line.mk.inj ih
    by_cases hj : (j.kind == .label) = true
    · simp [hj, hlabels, hstatement]
    · simp [hj]

/-- **The stops around an operand.** Another operand in its place changes one statement. -/
theorem Stop.exists_ofItems (front back : List Item) :
    ∃ before lead trail after, ∀ i : Item, i.kind ≠ .separator → i.kind ≠ .label →
      ofItems (front ++ i :: back) = before ++ .statement (lead ++ i :: trail) :: after := by
  obtain ⟨before, lead, trail, after, hrows⟩ := Line.exists_rows front back
  refine ⟨before.flatMap (fun row => ofLine (.ofRow row)) ++
      (lead.takeWhile fun j => j.kind == .label).map label,
    lead.dropWhile fun j => j.kind == .label, trail,
    after.flatMap fun row => ofLine (.ofRow row), fun i hseparator hlabel => ?_⟩
  unfold ofItems Line.ofItems
  rw [hrows i hseparator, List.map_append, List.map_cons, Line.ofRow_append lead trail hlabel]
  simp [ofLine, List.flatMap_map]

namespace Statement

/-- What one pass encodes, the survey encodes in as many bytes if an operand is replaced by one that
is alike. -/
theorem effect_survey {lead trail : List Item} {i i' : Item} (halike : i.Alike i')
    (hkind : i.kind ≠ .mnemonic) {pass : Pass} {m m' : Machine} (hcpu : m'.cpu = m.cpu)
    {place : Location} {data : List UInt8}
    (h : effect pass m' (lead ++ i :: trail) = .ok (.emit place data)) :
    ∃ data', effect .survey m (lead ++ i' :: trail) = .ok (.emit place data') ∧
      data'.length = data.length := by
  rcases effect_cases (lead ++ i :: trail) with ⟨head, rest, hinstruction⟩ | hplain
  · rw [hinstruction.effect_eq] at h
    obtain ⟨rfl, hdata⟩ := outcome_emit_iff.1 h
    obtain ⟨hitems, hvalid, hhead⟩ := hinstruction
    -- the operand is not the head of the statement, so the mnemonic stays
    cases lead with
    | nil =>
      cases hitems
      exact absurd hhead hkind
    | cons j lead =>
      cases hitems
      have hrest : List.Forall₂ Item.Alike (lead ++ i :: trail) (lead ++ i' :: trail) := by
        refine List.rel_append (List.forall₂_same.2 fun j _ => .refl j) ?_
        exact .cons halike (List.forall₂_same.2 fun j _ => .refl j)
      obtain ⟨data', hdata', hlength⟩ := instruction_survey hcpu hrest hdata
      have hinstruction : IsInstruction (head :: lead ++ i' :: trail) head
          (lead ++ i' :: trail) := by
        refine ⟨rfl, ?_, hhead⟩
        simpa only [List.any_append, List.any_cons, halike.kind_eq] using hvalid
      refine ⟨data', ?_, hlength⟩
      rw [hinstruction.effect_eq, hdata']
      rfl
  · rw [hplain] at h
    exact absurd (Except.ok.inj h) (plainEffect_ne_emit _ _ _)

/-- The processor behind a statement depends on nothing but the one in front of it. -/
theorem cpu_effect {items : List Item} {pass pass' : Pass} {m m' : Machine} {e e' : Effect}
    (he : effect pass m items = .ok e) (he' : effect pass' m' items = .ok e')
    (hcpu : m'.cpu = m.cpu) : (e'.onMachine m').cpu = (e.onMachine m).cpu := by
  rcases effect_cases items with ⟨head, rest, hinstruction⟩ | hplain
  · -- an instruction never chooses a processor
    rw [hinstruction.effect_eq] at he he'
    rcases outcome_cases he with ⟨data, -, rfl⟩ | ⟨d, -, rfl⟩ <;>
      rcases outcome_cases he' with ⟨data', -, rfl⟩ | ⟨d', -, rfl⟩ <;> exact hcpu
  · rw [hplain] at he he'
    cases he
    cases he'
    cases plainEffect items with
    | choose cpu => rfl
    | _ => exact hcpu

/-- The bytes of an instruction are one to four. -/
theorem instruction_size {pass : Pass} {m : Machine} {head : Item} {rest : List Item}
    {data : List UInt8} (h : instruction pass m head rest = .ok data) :
    0 < data.length ∧ data.length ≤ 4 := by
  obtain ⟨ops, mnemonic, -, -, -, hencode⟩ := instruction_eq_ok_iff.1 h
  exact Instruction.encode_size hencode

/-- **What the final pass encodes, the survey encodes in as many bytes**, one to four, at any other
address and with any other symbols. -/
theorem survey_encodes_as_many (cpu : Cpu) (address address' : Int) (symbols symbols' : SymbolTable)
    {head : Item} {rest : List Item} {data : List UInt8}
    (h : instruction .final ⟨address, cpu, symbols⟩ head rest = .ok data) :
    ∃ data', instruction .survey ⟨address', cpu, symbols'⟩ head rest = .ok data' ∧
      data'.length = data.length ∧ 1 ≤ data.length ∧ data.length ≤ 4 := by
  have hcpu : (Machine.mk address cpu symbols).cpu = (Machine.mk address' cpu symbols').cpu := rfl
  obtain ⟨data', hdata', hlength⟩ :=
    instruction_survey hcpu (List.forall₂_same.2 fun i _ => .refl i) h
  exact ⟨data', hdata', hlength, instruction_size h⟩

/-- Operands of a bit operation with a label for the number of the bit. -/
def labelledBit : List Item :=
  [.named .name "N" ⟨"p", 1, 5⟩, { kind := .comma, location := ⟨"p", 1, 6⟩ },
    .ofIndex .ix (-2) ⟨"p", 1, 7⟩]

/-- The label is the number of a bit under the symbols of the final pass only. -/
theorem survey_encodes_as_many_bit :
    instruction .final ⟨0x8000, .z80, ⟨[⟨some "N", 3, ⟨"p", 2, 1⟩⟩]⟩⟩
        (.named .mnemonic "BIT" ⟨"p", 1, 1⟩) labelledBit = .ok [0xDD, 0xCB, 0xFE, 0x5E] ∧
      ∃ data', instruction .survey ⟨-7, .z80, ⟨[⟨some "N", 300, ⟨"p", 9, 1⟩⟩]⟩⟩
        (.named .mnemonic "BIT" ⟨"p", 1, 1⟩) labelledBit = .ok data' ∧ data'.length = 4 := by
  have hfinal : instruction .final ⟨0x8000, .z80, ⟨[⟨some "N", 3, ⟨"p", 2, 1⟩⟩]⟩⟩
      (.named .mnemonic "BIT" ⟨"p", 1, 1⟩) labelledBit = .ok [0xDD, 0xCB, 0xFE, 0x5E] := by
    decide +kernel
  obtain ⟨data', hdata', hlength, -⟩ := survey_encodes_as_many .z80 0x8000 (-7) _ _ hfinal
  exact ⟨hfinal, data', hdata', hlength⟩

/-- An encoded statement takes one to four bytes. -/
theorem effect_size {items : List Item} {pass : Pass} {m : Machine} {place : Location}
    {data : List UInt8} (h : effect pass m items = .ok (.emit place data)) :
    0 < data.length ∧ data.length ≤ 4 := by
  rcases effect_cases items with ⟨head, rest, hinstruction⟩ | hplain
  · rw [hinstruction.effect_eq] at h
    obtain ⟨-, hdata⟩ := outcome_emit_iff.1 h
    exact instruction_size hdata
  · rw [hplain] at h
    exact absurd (Except.ok.inj h) (plainEffect_ne_emit _ _ _)

end Statement

namespace Walk

theorem cpu_act {pass pass' : Pass} {w w' u u' : Walk} {s : Stop}
    (hcpu : w'.machine.cpu = w.machine.cpu) (hact : w.act pass s = .ok u)
    (hact' : w'.act pass' s = .ok u') : u'.machine.cpu = u.machine.cpu := by
  cases s with
  | label item =>
    cases hact
    cases hact'
    rw [bind_machine, bind_machine]
    cases pass <;> cases pass' <;> exact hcpu
  | statement items =>
    obtain ⟨e, he, rfl⟩ := act_statement_iff.1 hact
    obtain ⟨e', he', rfl⟩ := act_statement_iff.1 hact'
    rw [apply_machine, apply_machine]
    exact Statement.cpu_effect he he' hcpu

/-- Walks in either pass have the same processor behind the same stops. -/
theorem cpu_along {pass pass' : Pass} {w w' u u' : Walk} {stops : List Stop}
    (hcpu : w'.machine.cpu = w.machine.cpu) (halong : w.along pass stops = .ok u)
    (halong' : w'.along pass' stops = .ok u') : u'.machine.cpu = u.machine.cpu :=
  along_induction₂ (R := fun v v' => v'.machine.cpu = v.machine.cpu) halong halong' hcpu
    fun _ _ _ _ _ => cpu_act

/-- A walk cut at a stop: the walk in front of it, the stop, and the walk behind it. -/
theorem exists_split {pass : Pass} {w u : Walk} {before after : List Stop} {s : Stop}
    (halong : w.along pass (before ++ s :: after) = .ok u) :
    ∃ v v', w.along pass before = .ok v ∧ v.act pass s = .ok v' ∧ v'.along pass after = .ok u ∧
      w.visits pass (before ++ s :: after) =
        w.visits pass before ++ ⟨s, v.machine⟩ :: v'.visits pass after := by
  rw [along_append, bind_eq_ok_iff] at halong
  obtain ⟨v, hbefore, halong⟩ := halong
  obtain ⟨v', hact, hafter⟩ := along_cons_iff.1 halong
  refine ⟨v, v', hbefore, hact, hafter, ?_⟩
  rw [visits_append hbefore, visits_cons hact]

/-- The visit at the cut. -/
theorem getElem?_visits {pass : Pass} {w v : Walk} {before : List Stop}
    (hbefore : w.along pass before = .ok v) (visit : Visit) (rest : List Visit) :
    (w.visits pass before ++ visit :: rest)[before.length]? = some visit := by
  rw [← length_visits hbefore, List.getElem?_append_right (Nat.le_refl _), Nat.sub_self,
    List.getElem?_cons_zero]

end Walk

namespace Passes

variable {m : Machine} {items items' : List Item} {before after : List Stop}
  {lead trail : List Item} {i i' : Item}

/-- **Programs that differ in one operand are surveyed alike** if the final walk encodes the statement
with one of the operands. -/
theorem survey_eq_of_alike (p : Passes m items) (p' : Passes m items')
    (hstops : Stop.ofItems items = before ++ .statement (lead ++ i :: trail) :: after)
    (hstops' : Stop.ofItems items' = before ++ .statement (lead ++ i' :: trail) :: after)
    (halike : i'.Alike i) (hkind : i'.kind ≠ .mnemonic) {v : Walk}
    (hbefore : Walk.along .final { machine := { m with symbols := p'.survey.machine.symbols } }
      before = .ok v) {place : Location} {data : List UInt8}
    (hencodes : Statement.effect .final v.machine (lead ++ i' :: trail) =
      .ok (.emit place data)) :
    p.survey.machine = p'.survey.machine := by
  have halong := p.survey_along
  have halong' := p'.survey_along
  rw [hstops] at halong
  rw [hstops'] at halong'
  obtain ⟨u, u₁, hu, hact, hafter, -⟩ := Walk.exists_split halong
  obtain ⟨u', u₁', hu', hact', hafter', -⟩ := Walk.exists_split halong'
  obtain rfl : u = u' := Except.ok.inj (hu.symm.trans hu')
  have hcpu : v.machine.cpu = u.machine.cpu := by
    refine Walk.cpu_along ?_ hu hbefore
    rfl
  -- the survey encodes the statement with either operand, and in as many bytes
  obtain ⟨data₁, he, hlength⟩ := Statement.effect_survey halike hkind hcpu hencodes
  obtain ⟨data₂, he', hlength'⟩ := Statement.effect_survey (.refl i') hkind hcpu hencodes
  obtain ⟨e, he₁, rfl⟩ := Walk.act_statement_iff.1 hact
  obtain ⟨e', he₁', rfl⟩ := Walk.act_statement_iff.1 hact'
  obtain rfl := Except.ok.inj (he₁.symm.trans he)
  obtain rfl := Except.ok.inj (he₁'.symm.trans he')
  -- from behind the statement both surveys go on on one machine
  refine Walk.machine_along ?_ hafter hafter'
  rw [Walk.apply_machine, Walk.apply_machine]
  simp only [Effect.onMachine, hlength, hlength']

/-- **Where the lag comes from.** If the statement is reported with one operand and encoded with the
other, both final walks visit the stops in front of it alike, and behind it one of them lags by the
bytes of the statement. -/
theorem exists_lags (p : Passes m items) (p' : Passes m items')
    (hstops : Stop.ofItems items = before ++ .statement (lead ++ i :: trail) :: after)
    (hstops' : Stop.ofItems items' = before ++ .statement (lead ++ i' :: trail) :: after)
    (halike : i'.Alike i) (hkind : i'.kind ≠ .mnemonic) {T T' : Visit}
    (hT : p.second[before.length]? = some T) (hT' : p'.second[before.length]? = some T')
    {d : Diagnostic} (hfails : T.effect .final = .ok (.report d)) {place : Location}
    {data : List UInt8} (hencodes : T'.effect .final = .ok (.emit place data)) :
    ∃ (front : List Visit) (w w' : Walk), front.length = before.length ∧
      (0 < data.length ∧ data.length ≤ 4) ∧ w.machine.Lags data.length w'.machine ∧
      w.along .final after = .ok p.final ∧ w'.along .final after = .ok p'.final ∧
      p.second = front ++ T :: w.visits .final after ∧
      p'.second = front ++ T' :: w'.visits .final after := by
  have halong := p.final_along
  have halong' := p'.final_along
  rw [hstops] at halong
  rw [hstops'] at halong'
  obtain ⟨u, u₁, hu, hact, hafter, hvisits⟩ := Walk.exists_split halong
  obtain ⟨u', u₁', hu', hact', hafter', hvisits'⟩ := Walk.exists_split halong'
  rw [← hstops] at hvisits
  rw [← hstops'] at hvisits'
  change p.second = _ at hvisits
  change p'.second = _ at hvisits'
  rw [hvisits, Walk.getElem?_visits hu] at hT
  rw [hvisits', Walk.getElem?_visits hu'] at hT'
  obtain rfl := Option.some.inj hT
  obtain rfl := Option.some.inj hT'
  -- the final walks start with one table, so they are one walk up to the statement
  have hsurvey := p.survey_eq_of_alike p' hstops hstops' halike hkind hu' hencodes
  rw [hsurvey] at hu hvisits
  obtain rfl : u = u' := Except.ok.inj (hu.symm.trans hu')
  obtain ⟨e, he, rfl⟩ := Walk.act_statement_iff.1 hact
  obtain ⟨e', he', rfl⟩ := Walk.act_statement_iff.1 hact'
  -- one of them counts the bytes of the statement and the other counts none
  obtain rfl := Except.ok.inj (he.symm.trans hfails)
  obtain rfl := Except.ok.inj (he'.symm.trans hencodes)
  refine ⟨_, _, _, Walk.length_visits hu, Statement.effect_size hencodes, ?_, hafter, hafter',
    hvisits, hvisits'⟩
  rw [Walk.apply_machine, Walk.apply_machine]
  refine ⟨rfl, rfl, ?_⟩
  simp only [Effect.onMachine, addressSpace]
  omega

end Passes

/-- Lists that differ in one place differ nowhere else. -/
theorem Stop.eq_length_of_ne {before after : List Stop} {s s' : Stop} {k : Nat}
    (hne : (before ++ s :: after)[k]? ≠ (before ++ s' :: after)[k]?) : k = before.length := by
  by_contra hk
  apply hne
  -- in front of the statement or behind it the lists are the same
  rcases Nat.lt_or_ge k before.length with hlt | hge
  · rw [List.getElem?_append_left hlt, List.getElem?_append_left hlt]
  · obtain ⟨j, hj⟩ : ∃ j, k - before.length = j + 1 := ⟨k - before.length - 1, by omega⟩
    rw [List.getElem?_append_right hge, List.getElem?_append_right hge, hj,
      List.getElem?_cons_succ, List.getElem?_cons_succ]

/-- The visits of the final walk over a program. -/
def Machine.finalVisits (m : Machine) (items : List Item) : List Visit :=
  match Walk.run .survey m (Line.ofItems items) with
  | .ok survey =>
    Walk.visits .final { machine := { m with symbols := survey.machine.symbols } }
      (Stop.ofItems items)
  | .error _ => []

theorem Passes.second_eq {m : Machine} {items : List Item} (p : Passes m items) :
    p.second = m.finalVisits items := by
  unfold Machine.finalVisits
  rw [p.survey_eq]
  rfl

/-- **One bad number.** Two parsed programs differ in the value of one number, or of one address
between brackets. From a machine without labels, the stop at which they differ is reported in the
first program, as a value out of range, and encoded in some bytes in the second. -/
structure OneBadNumber (m : Machine) (items items' : List Item) (k size : Nat) : Prop where
  fresh : m.symbols = {}
  parsed : ∃ file tokens, (parse file tokens).items = items
  parsed' : ∃ file tokens, (parse file tokens).items = items'
  differ : ∃ front back value value' place kind,
    (kind = .number ∨ kind = .indirectImmediate) ∧
      items = front ++ Item.ofNumber value place kind :: back ∧
      items' = front ++ Item.ofNumber value' place kind :: back
  stop_ne : ((m.finalVisits items)[k]?).map Visit.stop ≠ ((m.finalVisits items')[k]?).map Visit.stop
  fails : ∃ d : Diagnostic, d.problem.category = .valueRange ∧
    ((m.finalVisits items)[k]?).map (Visit.effect .final) = some (.ok (.report d))
  encodes : ∃ location data, data.length = size ∧
    ((m.finalVisits items')[k]?).map (Visit.effect .final) = some (.ok (.emit location data))

/-- **What one bad number costs.** The reports on either program are those of its visits. All other
statements and labels are reported alike if and only if, in the program without the bad number, every
relative jump behind its statement and in front of the next origin is in reach, and stays in reach if
it gets longer by the bytes of the statement. -/
theorem others_reported_alike_iff {m : Machine} {items items' : List Item} {k size : Nat}
    (h : OneBadNumber m items items' k size) :
    (∃ listing, m.assemble items = .ok listing ∧
        listing.reports = (m.finalVisits items).flatMap Visit.reports) ∧
      (∃ listing, m.assemble items' = .ok listing ∧
        listing.reports = (m.finalVisits items').flatMap Visit.reports) ∧
      (((m.finalVisits items).map Visit.reports).eraseIdx k =
          ((m.finalVisits items').map Visit.reports).eraseIdx k ↔
        ∀ v ∈ ((m.finalVisits items').drop (k + 1)).takeWhile fun v => !v.moves,
          ∀ distance ∈ v.distance?, -128 ≤ distance ∧ distance + size ≤ 127) := by
  obtain ⟨hfresh, ⟨file, tokens, rfl⟩, ⟨file', tokens', rfl⟩, hdiffer, hne, hfails, hencodes⟩ := h
  obtain ⟨front, back, value, value', place, kind, hkind, hitems, hitems'⟩ := hdiffer
  obtain ⟨d, -, hfails⟩ := hfails
  obtain ⟨location, data, rfl, hencodes⟩ := hencodes
  obtain ⟨T, hT, hreport⟩ := Option.map_eq_some_iff.1 hfails
  obtain ⟨T', hT', hemit⟩ := Option.map_eq_some_iff.1 hencodes
  have hnamed : m.symbols.AllNamed := hfresh ▸ rfl
  obtain ⟨p⟩ := Passes.exists_passes hnamed file tokens
  obtain ⟨p'⟩ := Passes.exists_passes hnamed file' tokens'
  rw [← p.second_eq] at hT hne ⊢
  rw [← p'.second_eq] at hT' hne ⊢
  refine ⟨⟨p.listing, p.assemble_eq, p.reports_eq⟩, ⟨p'.listing, p'.assemble_eq, p'.reports_eq⟩, ?_⟩
  obtain ⟨before, lead, trail, after, hofItems⟩ := Stop.exists_ofItems front back
  have hother : kind ≠ .separator ∧ kind ≠ .label ∧ kind ≠ .mnemonic := by
    rcases hkind with rfl | rfl <;> decide
  have hstops := hofItems (Item.ofNumber value place kind) hother.1 hother.2.1
  have hstops' := hofItems (Item.ofNumber value' place kind) hother.1 hother.2.1
  rw [← hitems] at hstops
  rw [← hitems'] at hstops'
  -- the stop at which the programs differ is the statement with the number
  obtain rfl : k = before.length := by
    rw [← List.getElem?_map, ← List.getElem?_map, Passes.second, Passes.second,
      Walk.map_stop_visits p.final_along, Walk.map_stop_visits p'.final_along, hstops,
      hstops'] at hne
    exact Stop.eq_length_of_ne hne
  obtain ⟨ahead, w, w', hlength, hsize, hlags, hafter, hafter', hsecond, hsecond'⟩ :=
    p.exists_lags p' hstops hstops' (Item.alike_ofNumber hkind value' value place) hother.2.2
      hT hT' hreport hemit
  -- in front of it the visits are the same, so only those behind it can be reported differently
  have hiff := Walk.map_reports_iff hsize.1 hsize.2 hlags hafter hafter'
  have herase : ∀ (v : Visit) (rest : List Visit),
      ((ahead ++ v :: rest).map Visit.reports).eraseIdx ahead.length =
        ahead.map Visit.reports ++ rest.map Visit.reports := by
    intro v rest
    rw [List.map_append, List.map_cons, List.eraseIdx_append_of_length_le
      (Nat.le_of_eq (List.length_map _)), List.length_map, Nat.sub_self]
    rfl
  have hdrop : (ahead ++ T' :: w'.visits .final after).drop (ahead.length + 1) =
      w'.visits .final after := by
    rw [List.drop_append, Nat.add_sub_cancel_left, List.drop_eq_nil_of_le (Nat.le_succ _)]
    rfl
  rw [hsecond, hsecond', ← hlength, herase, herase, List.append_right_inj, hdrop]
  exact hiff

/-- A load of a number, a jump to a label, some items, and the label. -/
def loadAndJump (value : Int) (between : List Item) (target : Location) : List Item :=
  [.named .mnemonic "LD" ⟨"p", 1, 1⟩, .named .register8 "A" ⟨"p", 1, 4⟩,
    { kind := .comma, location := ⟨"p", 1, 5⟩ }, .ofNumber value ⟨"p", 1, 6⟩,
    { kind := .separator, location := ⟨"p", 1, 9⟩ },
    .named .mnemonic "JR" ⟨"p", 2, 1⟩, .named .name "X" ⟨"p", 2, 4⟩,
    { kind := .separator, location := ⟨"p", 2, 5⟩ }] ++
  between ++ [.named .label "X" target]

/-- A bad number in front of a jump to the next line. -/
theorem oneBadNumber_near :
    OneBadNumber {} (loadAndJump 300 [] ⟨"p", 3, 1⟩) (loadAndJump 30 [] ⟨"p", 3, 1⟩) 0 2 where
  fresh := rfl
  parsed := ⟨"p", (tokenize "LD A,300\nJR X\nX:" "p").toOption.getD [], by decide +kernel⟩
  parsed' := ⟨"p", (tokenize "LD A,030\nJR X\nX:" "p").toOption.getD [], by decide +kernel⟩
  differ := ⟨_, _, 300, 30, _, .number, .inl rfl, (List.take_append_drop 3 _).symm, rfl⟩
  stop_ne := ne_of_beq_false (by decide +kernel)
  fails := ⟨.placed ⟨"p", 1, 6⟩ (.valueRange 300 "8-bit value" none), rfl, by decide +kernel⟩
  encodes := ⟨⟨"p", 1, 1⟩, [0x3E, 30], rfl, by decide +kernel⟩

/-- That jump stays in reach, so the bad number costs one report. -/
theorem others_reported_alike_near :
    ((Machine.finalVisits {} (loadAndJump 300 [] ⟨"p", 3, 1⟩)).map Visit.reports).eraseIdx 0 =
      ((Machine.finalVisits {} (loadAndJump 30 [] ⟨"p", 3, 1⟩)).map Visit.reports).eraseIdx 0 := by
  have hreach : ((Machine.finalVisits {} (loadAndJump 30 [] ⟨"p", 3, 1⟩)).drop 1).all
      (fun v => decide (v.InReach 2)) = true := by
    decide +kernel
  refine (others_reported_alike_iff oneBadNumber_near).2.2.2 fun v hv => ?_
  exact of_decide_eq_true (List.all_eq_true.1 hreach v (List.takeWhile_subset _ hv))

/-- The items of an origin that leaves the jump just in reach. -/
def farOrigin : List Item :=
  [.named .keyword "ORG" ⟨"p", 3, 1⟩, .ofNumber 131 ⟨"p", 3, 5⟩,
    { kind := .separator, location := ⟨"p", 3, 8⟩ }]

/-- A bad number in front of a jump that is just in reach. -/
theorem oneBadNumber_far :
    OneBadNumber {} (loadAndJump 300 farOrigin ⟨"p", 4, 1⟩)
      (loadAndJump 30 farOrigin ⟨"p", 4, 1⟩) 0 2 where
  fresh := rfl
  parsed := ⟨"p", (tokenize "LD A,300\nJR X\nORG 131\nX:" "p").toOption.getD [], by decide +kernel⟩
  parsed' := ⟨"p", (tokenize "LD A,030\nJR X\nORG 131\nX:" "p").toOption.getD [], by decide +kernel⟩
  differ := ⟨_, _, 300, 30, _, .number, .inl rfl, (List.take_append_drop 3 _).symm, rfl⟩
  stop_ne := ne_of_beq_false (by decide +kernel)
  fails := ⟨.placed ⟨"p", 1, 6⟩ (.valueRange 300 "8-bit value" none), rfl, by decide +kernel⟩
  encodes := ⟨⟨"p", 1, 1⟩, [0x3E, 30], rfl, by decide +kernel⟩

/-- That jump gets out of reach: the bad number costs a second report, on another statement. -/
theorem others_not_always_reported_alike :
    ¬ ∀ (m : Machine) (items items' : List Item) (k size : Nat),
      OneBadNumber m items items' k size →
      ((m.finalVisits items).map Visit.reports).eraseIdx k =
        ((m.finalVisits items').map Visit.reports).eraseIdx k := by
  intro h
  have hcount := congrArg (List.map List.length) (h _ _ _ _ _ oneBadNumber_far)
  have hfirst : (((Machine.finalVisits {} (loadAndJump 300 farOrigin ⟨"p", 4, 1⟩)).map
      Visit.reports).eraseIdx 0).map List.length = [1, 0, 0, 0] := by
    decide +kernel
  have hsecond : (((Machine.finalVisits {} (loadAndJump 30 farOrigin ⟨"p", 4, 1⟩)).map
      Visit.reports).eraseIdx 0).map List.length = [0, 0, 0, 0] := by
    decide +kernel
  rw [hfirst, hsecond] at hcount
  cases hcount

end CrossAssembler
