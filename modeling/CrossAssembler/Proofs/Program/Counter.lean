import CrossAssembler.Proofs.Program.Account
import Mathlib.Data.List.DropRight

/-!
# The address counter

The counter of a run can be told from the outside, without walking: from the emissions that have come
out so far and from the origins that stand in the program behind the last of them. This rule is
`Account.counterAfter`, and it is compared here with the counter that the final walk carries along.

* **One statement** (`Statement.newAddress?_eq`, `newCpu?_eq`): which statements set the counter or the
  processor can be read off their items.
* **One line** (`Account.Closes.address_eq`, `cpu_eq`): behind a line the counter is where `advance`
  puts it. A line that neither emits nor sets an address leaves it alone (`Closes.address_of_idle`).
* **A whole run** (`Walk.ledger_foldl`, `Account.counterAfter_eq_foldl`): taking such steps over the
  ledger of a run is the same as telling the counter from the outside.
-/

namespace CrossAssembler

/-! ### Statements that set the counter or the processor -/

namespace Keyword

theorem ofName?_eq_origin_iff {s : String} : ofName? s = some .origin ↔ s = "ORG" := by
  constructor
  · intro h
    exact (name_of_memberNamed h).symm
  · rintro rfl
    decide

theorem ofName?_eq_processor_iff {s : String} {cpu : Cpu} :
    ofName? s = some (.processor cpu) ↔ Cpu.ofName? s = some cpu := by
  constructor
  · intro h
    -- the keyword of a processor has its name, so both tables find it
    have hname : (processor cpu).name = s := name_of_memberNamed h
    subst hname
    cases cpu <;> decide
  · intro h
    have hname : cpu.name = s := name_of_memberNamed h
    subst hname
    cases cpu <;> decide

end Keyword

namespace Effect

/-- The address that an effect sets the counter to. -/
def newAddress? : Effect → Option Int
  | moveTo _ address => some address
  | _ => none

/-- The processor that an effect chooses. -/
def newCpu? : Effect → Option Cpu
  | choose cpu => some cpu
  | _ => none

end Effect

namespace Statement

/-- The address that a statement sets the counter to: the number behind the keyword of the origin, if
it is an address and nothing follows it. -/
def newAddress? : List Item → Option Int
  | [head, operand] =>
    if head.kind = .keyword ∧ head.text = some "ORG" ∧ operand.kind = .number ∧
        0 ≤ operand.value ∧ operand.value ≤ 0xFFFF then
      some operand.value
    else none
  | _ => none

/-- The processor that a statement chooses: the one that a keyword names with nothing behind it. -/
def newCpu? : List Item → Option Cpu
  | [head] => if head.kind = .keyword then head.text.bind Cpu.ofName? else none
  | _ => none

variable {pass : Pass} {m : Machine} {items : List Item}

theorem newAddress?_eq_some_iff {address : Int} :
    newAddress? items = some address ↔
      ∃ head operand, items = [head, operand] ∧ head.kind = .keyword ∧ head.text = some "ORG" ∧
        operand.kind = .number ∧ (0 ≤ operand.value ∧ operand.value ≤ 0xFFFF) ∧
        operand.value = address := by
  constructor
  · intro h
    unfold newAddress? at h
    split at h
    next head operand =>
      split at h
      next hset =>
        obtain ⟨hkind, htext, hnumber, hbounds⟩ := hset
        exact ⟨head, operand, rfl, hkind, htext, hnumber, hbounds, Option.some.inj h⟩
      next => cases h
    next => cases h
  · rintro ⟨head, operand, rfl, hkind, htext, hnumber, hbounds, rfl⟩
    exact if_pos ⟨hkind, htext, hnumber, hbounds⟩

theorem newCpu?_eq_some_iff {cpu : Cpu} :
    newCpu? items = some cpu ↔
      ∃ head, items = [head] ∧ head.kind = .keyword ∧
        head.text.bind Keyword.ofName? = some (.processor cpu) := by
  have hnamed : ∀ text : Option String,
      text.bind Cpu.ofName? = some cpu ↔ text.bind Keyword.ofName? = some (.processor cpu) := by
    intro text
    cases text with
    | none => exact ⟨nofun, nofun⟩
    | some s => exact Keyword.ofName?_eq_processor_iff.symm
  constructor
  · intro h
    unfold newCpu? at h
    split at h
    next head =>
      split at h
      next hkind => exact ⟨head, rfl, hkind, (hnamed _).1 h⟩
      next => cases h
    next => cases h
  · rintro ⟨head, rfl, hkind, hcpu⟩
    rw [newCpu?, if_pos hkind]
    exact (hnamed _).2 hcpu

/-- The keyword of the origin. -/
theorem bind_eq_origin_iff {head : Item} :
    head.text.bind Keyword.ofName? = some .origin ↔ head.text = some "ORG" := by
  cases htext : head.text with
  | none => exact ⟨nofun, nofun⟩
  | some s => exact Keyword.ofName?_eq_origin_iff.trans (Option.some.injEq _ _).symm.to_iff

/-- A keyword with nothing left out behind it is a directive. -/
theorem effect_keyword {head : Item} {rest : List Item} (hkind : head.kind = .keyword)
    (hvalid : ∀ i ∈ rest, i.kind ≠ .invalid) :
    effect pass m (head :: rest) = .ok (directive head rest) := by
  have hnone : ((head :: rest).any fun i => i.kind == .invalid) = false := by
    refine List.any_eq_false.2 fun i hi hinvalid => ?_
    rcases List.mem_cons.1 hi with rfl | hi
    · rw [hkind] at hinvalid
      cases hinvalid
    · exact hvalid i hi (beq_iff_eq.1 hinvalid)
  simp only [effect, hnone, hkind, Bool.false_eq_true, if_false]

/-- **A statement sets the counter exactly if it reads so.** -/
theorem newAddress?_eq (hitems : ∀ i ∈ items, i.Genuine) {e : Effect}
    (h : effect pass m items = .ok e) : newAddress? items = e.newAddress? := by
  -- read as an origin it is obeyed, and what is obeyed reads as an origin; a number that fits is an address
  ext address
  constructor
  · intro haddress
    obtain ⟨head, operand, rfl, hkind, htext, hnumber, hbounds, rfl⟩ :=
      newAddress?_eq_some_iff.1 haddress
    have hfits : operand.fits16 = true :=
      ((hitems operand (List.mem_cons_of_mem _ List.mem_cons_self)).fits16_iff hnumber).2 hbounds
    have hvalid : ∀ i ∈ [operand], i.kind ≠ .invalid := by
      intro i hi
      rw [List.mem_singleton.1 hi, hnumber]
      decide
    rw [effect_keyword hkind hvalid, directive, bind_eq_origin_iff.2 htext] at h
    simp only [origin, hnumber, hfits, expectEnd, ne_eq, not_true_eq_false, if_false,
      Bool.true_eq_false, Except.ok.injEq] at h
    rw [← h]
    rfl
  · intro haddress
    cases e with
    | moveTo line moved =>
      cases haddress
      obtain ⟨head, operand, hstatement, hkind, horigin, hnumber, hfits, hvalue⟩ := effect_moveTo h
      have hoperand : operand.Genuine := by
        apply hitems
        rw [hstatement]
        exact List.mem_cons_of_mem _ List.mem_cons_self
      exact newAddress?_eq_some_iff.2 ⟨head, operand, hstatement, hkind, bind_eq_origin_iff.1 horigin,
        hnumber, hoperand.number_fits hnumber hfits, hvalue⟩
    | _ => cases haddress

/-- **A statement chooses a processor exactly if it reads so.** -/
theorem newCpu?_eq {e : Effect} (h : effect pass m items = .ok e) : newCpu? items = e.newCpu? := by
  ext cpu
  constructor
  · intro hcpu
    obtain ⟨head, rfl, hkind, hnamed⟩ := newCpu?_eq_some_iff.1 hcpu
    have hvalid : ∀ i ∈ ([] : List Item), i.kind ≠ .invalid := by
      intro i hi
      cases hi
    rw [effect_keyword hkind hvalid, directive, hnamed] at h
    cases h
    rfl
  · intro hcpu
    cases e with
    | choose chosen =>
      cases hcpu
      exact newCpu?_eq_some_iff.2 (effect_choose h)
    | _ => cases hcpu

end Statement

/-! ### One line -/

/-- Labels are only verified in the final walk, so they leave the machine alone. -/
theorem Walk.machine_labels (w : Walk) (labels : List Item) :
    (labels.foldl (Walk.bind .final) w).machine = w.machine := by
  induction labels generalizing w with
  | nil => rfl
  | cons item labels ih =>
    rw [List.foldl_cons, ih, Walk.bind_machine]
    rfl

namespace Account

/-- The counter behind a line, if it is known in front of it. An emission tells it by its own address, an
address that was set is the counter, and otherwise it stays. -/
def advance (counter : Int) (a : Account) : Int :=
  match a.emissions.getLast?, Statement.newAddress? a.line.statement with
  | some e, _ => (e.address + e.data.length) % 0x10000
  | none, some address => address
  | none, none => counter

variable {a : Account}

theorem machine_bound (a : Account) : a.bound.machine = a.start.machine :=
  Walk.machine_labels _ _

/-- A closed account comes from one effect, which acts on the machine in front of the line. -/
theorem Closes.exists_onMachine (h : a.Closes) :
    ∃ e, Statement.effect .final a.start.machine a.line.statement = .ok e ∧
      a.finish.machine = e.onMachine a.start.machine ∧ a.emissions = e.emissions a.bound ∧
      a.reports = e.reports := by
  obtain ⟨e, he, hfinish⟩ := h.exists_effect
  rw [machine_bound] at he
  refine ⟨e, he, ?_, emissions_eq hfinish, reports_eq hfinish⟩
  rw [hfinish, Walk.apply_machine, machine_bound]

/-- **The counter behind a line.** -/
theorem Closes.address_eq (h : a.Closes) (hgenuine : ∀ i ∈ a.line.statement, i.Genuine) :
    a.finish.machine.address = a.advance a.start.machine.address := by
  obtain ⟨e, he, hmachine, hemissions, -⟩ := h.exists_onMachine
  rw [advance, hemissions, Statement.newAddress?_eq hgenuine he, hmachine]
  -- an emission stands at the counter, so that the counter behind it can be told from the emission
  cases e with
  | emit place data =>
    change _ = (a.bound.machine.address + _) % _
    rw [machine_bound]
    rfl
  | _ => rfl

/-- **The processor behind a line.** -/
theorem Closes.cpu_eq (h : a.Closes) :
    a.finish.machine.cpu = (Statement.newCpu? a.line.statement).getD a.start.machine.cpu := by
  obtain ⟨e, he, hmachine, -⟩ := h.exists_onMachine
  rw [Statement.newCpu?_eq he, hmachine]
  cases e <;> rfl

/-- A line emits at most once, and where the counter stands. -/
theorem Closes.emissions_cases (h : a.Closes) :
    a.emissions = [] ∨ ∃ e, a.emissions = [e] ∧ e.address = a.start.machine.address := by
  obtain ⟨e, -, -, hemissions, -⟩ := h.exists_onMachine
  cases e with
  | emit place data =>
    refine .inr ⟨_, hemissions, ?_⟩
    change a.bound.machine.address = _
    rw [machine_bound]
  | _ => exact .inl hemissions

/-- The lines that have no business with the counter. A line may be idle for several of these reasons at
once. -/
inductive Idle (a : Account) : Prop where
  /-- There are only labels, or nothing at all. -/
  | empty (h : a.line.statement = [])
  /-- A processor is chosen. -/
  | chooses (h : Statement.newCpu? a.line.statement ≠ none)
  /-- The keyword of the origin, without an address to go to. -/
  | failedOrigin {head : Item} {rest : List Item} (hstatement : a.line.statement = head :: rest)
      (hkind : head.kind = .keyword) (htext : head.text = some "ORG")
      (hfailed : Statement.newAddress? a.line.statement = none)
  /-- A keyword of a directive that is not implemented. -/
  | unimplemented {head : Item} {rest : List Item} {directive : Directive}
      (hstatement : a.line.statement = head :: rest) (hkind : head.kind = .keyword)
      (htext : head.text = some directive.name)
  /-- The statement is reported. -/
  | reported (h : a.reports ≠ [])
  /-- Something of the statement was left out. -/
  | leftOut {i : Item} (hi : i ∈ a.line.statement) (hinvalid : i.kind = .invalid)

/-- A keyword emits nothing. -/
theorem Closes.emissions_of_keyword (h : a.Closes) {head : Item} {rest : List Item}
    (hstatement : a.line.statement = head :: rest) (hkind : head.kind = .keyword) :
    a.emissions = [] := by
  obtain ⟨e, he, -, hemissions, -⟩ := h.exists_onMachine
  cases e with
  | emit place data =>
    obtain ⟨head', rest', hstatement', hmnemonic, -⟩ := Statement.effect_emit he
    obtain ⟨rfl, -⟩ := List.cons.inj (hstatement.symm.trans hstatement')
    rw [hkind] at hmnemonic
    cases hmnemonic
  | _ => exact hemissions

/-- Such a line neither emits nor sets an address. -/
theorem Closes.silent_of_idle (h : a.Closes) (hgenuine : ∀ i ∈ a.line.statement, i.Genuine)
    (hidle : a.Idle) :
    a.emissions = [] ∧ Statement.newAddress? a.line.statement = none := by
  obtain ⟨e, he, -, hemissions, hreports⟩ := h.exists_onMachine
  have haddress := Statement.newAddress?_eq hgenuine he
  -- two of the cases are those of a statement that does nothing at all
  have hnothing : (a.line.statement = [] ∨ ∃ i ∈ a.line.statement, i.kind = .invalid) →
      a.emissions = [] ∧ Statement.newAddress? a.line.statement = none := by
    intro hdropped
    have heffect : Statement.effect .final a.start.machine a.line.statement = .ok .nothing :=
      Statement.effect_nothing_iff.2 hdropped
    obtain rfl : e = .nothing := Except.ok.inj (he.symm.trans heffect)
    exact ⟨hemissions, haddress⟩
  cases hidle with
  | empty hempty => exact hnothing (.inl hempty)
  | leftOut hi hinvalid => exact hnothing (.inr ⟨_, hi, hinvalid⟩)
  | chooses hcpu =>
    rw [Statement.newCpu?_eq he] at hcpu
    cases e with
    | choose cpu => exact ⟨hemissions, haddress⟩
    | _ => exact absurd rfl hcpu
  | reported hreported =>
    rw [hreports] at hreported
    cases e with
    | report d => exact ⟨hemissions, haddress⟩
    | _ => exact absurd rfl hreported
  -- a keyword never emits, so these lines are silent as far as emissions go
  | failedOrigin hstatement hkind _ hfailed =>
    exact ⟨h.emissions_of_keyword hstatement hkind, hfailed⟩
  | @unimplemented head rest directive hstatement hkind htext =>
    refine ⟨h.emissions_of_keyword hstatement hkind, Option.eq_none_iff_forall_ne_some.2 ?_⟩
    intro address hset
    -- the name of a directive is not that of the origin
    obtain ⟨head', operand, hstatement', -, horigin, -⟩ := Statement.newAddress?_eq_some_iff.1 hset
    obtain ⟨rfl, -⟩ := List.cons.inj (hstatement.symm.trans hstatement')
    rw [htext] at horigin
    have hname : directive.name ≠ "ORG" := by
      cases directive <;> decide
    exact hname (Option.some.inj horigin)

/-- **What has no business with the counter leaves it alone.** -/
theorem Closes.address_of_idle (h : a.Closes) (hgenuine : ∀ i ∈ a.line.statement, i.Genuine)
    (hidle : a.Idle) : a.finish.machine.address = a.start.machine.address := by
  obtain ⟨hemissions, hnone⟩ := h.silent_of_idle hgenuine hidle
  rw [h.address_eq hgenuine, advance, hemissions, hnone]
  rfl

/-! ### The counter from the outside -/

/-- The addresses that were set behind the last emission of some accounts. -/
def originsSince (accounts : List Account) : List Int :=
  (accounts.rtakeWhile fun a => a.emissions.isEmpty).filterMap fun a =>
    Statement.newAddress? a.line.statement

/-- Where the counter stands behind some accounts: at the last address that was set since the last
emission; if none was, behind the bytes of that emission, back at zero past the end of the address
space; and if nothing was emitted either, where it started. -/
def counterAfter (start : Int) (accounts : List Account) : Int :=
  match (originsSince accounts).getLast?, (accounts.flatMap emissions).getLast? with
  | some address, _ => address
  | none, some e => (e.address + e.data.length) % 0x10000
  | none, none => start

/-- Some account has emitted, or set an address. -/
def Moved (accounts : List Account) : Prop :=
  ∃ a ∈ accounts, a.emissions ≠ [] ∨ Statement.newAddress? a.line.statement ≠ none

theorem originsSince_concat_of_silent {accounts : List Account} (h : a.emissions = []) :
    originsSince (accounts ++ [a]) =
      originsSince accounts ++ (Statement.newAddress? a.line.statement).toList := by
  rw [originsSince, List.rtakeWhile_concat_pos _ _ _ (by rw [h]; rfl), List.filterMap_append,
    originsSince]
  rfl

theorem originsSince_concat_of_emits {accounts : List Account} (h : a.emissions ≠ []) :
    originsSince (accounts ++ [a]) = [] := by
  have hemits : ¬ a.emissions.isEmpty = true := fun hempty => h (List.isEmpty_iff.1 hempty)
  rw [originsSince, List.rtakeWhile_concat_neg (fun a : Account => a.emissions.isEmpty) _ _ hemits]
  rfl

/-- One more account takes the counter one step further. -/
theorem counterAfter_concat (start : Int) (accounts : List Account) (a : Account) :
    counterAfter start (accounts ++ [a]) = a.advance (counterAfter start accounts) := by
  -- an emission outdates all addresses set before it; without one they count on
  by_cases hsilent : a.emissions = []
  · rw [counterAfter, originsSince_concat_of_silent hsilent, List.flatMap_append,
      List.flatMap_singleton, hsilent, List.append_nil, advance, hsilent]
    cases Statement.newAddress? a.line.statement with
    | none => rw [Option.toList_none, List.append_nil]; rfl
    | some address => rw [Option.toList_some, List.getLast?_concat]; rfl
  · rw [counterAfter, originsSince_concat_of_emits hsilent, List.flatMap_append,
      List.flatMap_singleton, List.getLast?_append_of_ne_nil _ hsilent, advance,
      List.getLast?_eq_some_getLast hsilent]
    rfl

/-- **Telling the counter from the outside is taking the steps of the accounts.** The one looks back from
the end of the accounts and the other goes forward, so the proof adds accounts at the end. -/
theorem counterAfter_eq_foldl (start : Int) (accounts : List Account) :
    counterAfter start accounts = accounts.foldl (fun counter a => a.advance counter) start := by
  -- from the end, since the last account decides where the counter stands
  induction accounts using List.reverseRecOn with
  | nil => rfl
  | append_singleton accounts a ih => rw [counterAfter_concat, ih, List.foldl_concat]

/-- Once something was emitted or set, the counter is an address. -/
theorem counterAfter_bounds {accounts : List Account} (h : Moved accounts) (start : Int) :
    0 ≤ counterAfter start accounts ∧ counterAfter start accounts ≤ 0xFFFF := by
  unfold counterAfter
  split
  next address hlast =>
    obtain ⟨a, -, hset⟩ := List.mem_filterMap.1 (List.mem_of_getLast? hlast)
    obtain ⟨head, operand, -, -, -, -, hbounds, rfl⟩ := Statement.newAddress?_eq_some_iff.1 hset
    exact hbounds
  -- behind an emission the counter is taken modulo the address space
  next => omega
  next horigins hemitted =>
    -- without an emission, all accounts are searched for addresses
    have hsilent : ∀ a ∈ accounts, a.emissions = [] :=
      List.flatMap_eq_nil_iff.1 (List.getLast?_eq_none_iff.1 hemitted)
    have hwhole : (accounts.rtakeWhile fun a => a.emissions.isEmpty) = accounts :=
      List.rtakeWhile_eq_self_iff.2 fun a ha => List.isEmpty_iff.2 (hsilent a ha)
    rw [List.getLast?_eq_none_iff, originsSince, hwhole, List.filterMap_eq_nil_iff] at horigins
    obtain ⟨a, ha, hemits | hsets⟩ := h
    · exact absurd (hsilent a ha) hemits
    · exact absurd (horigins a ha) hsets

/-- The account that an emission comes from, behind the accounts of all earlier ones. -/
theorem exists_account_of_emission {accounts : List Account} (hcloses : ∀ a ∈ accounts, a.Closes)
    {k : Nat} {r : Emission} (hr : (accounts.flatMap emissions)[k]? = some r) :
    ∃ front a back, accounts = front ++ a :: back ∧
      front.flatMap emissions = (accounts.flatMap emissions).take k ∧ a.emissions = [r] := by
  -- a line without an emission is skipped, one with an emission is the one asked about or counts one down
  induction accounts generalizing k with
  | nil => cases hr
  | cons b accounts ih =>
    obtain ⟨hclose, hcloses⟩ := List.forall_mem_cons.1 hcloses
    rw [List.flatMap_cons] at hr ⊢
    rcases hclose.emissions_cases with hnone | ⟨e, hone, -⟩
    · rw [hnone, List.nil_append] at hr ⊢
      obtain ⟨front, a, back, rfl, hfront, ha⟩ := ih hcloses hr
      refine ⟨b :: front, a, back, rfl, ?_, ha⟩
      rw [List.flatMap_cons, hnone, List.nil_append, hfront]
    · rw [hone, List.singleton_append] at hr ⊢
      cases k with
      | zero =>
        cases hr
        exact ⟨[], b, accounts, rfl, rfl, hone⟩
      | succ k =>
        rw [List.getElem?_cons_succ] at hr
        obtain ⟨front, a, back, rfl, hfront, ha⟩ := ih hcloses hr
        refine ⟨b :: front, a, back, rfl, ?_, ha⟩
        rw [List.flatMap_cons, hone, List.singleton_append, hfront, List.take_succ_cons]

end Account

/-! ### Whole runs -/

/-- A part of a walk that every line takes further in a known way is known at every line and at the
end. -/
theorem Walk.ledger_foldl {α : Type} (view : Walk → α) (next : α → Account → α) {w w' : Walk}
    {lines : List Line} (h : lines.foldlM (Walk.step .final) w = .ok w')
    (hnext : ∀ a ∈ w.ledger lines, view a.finish = next (view a.start) a) :
    (∀ front a back, w.ledger lines = front ++ a :: back →
        view a.start = front.foldl next (view w)) ∧
      view w' = (w.ledger lines).foldl next (view w) := by
  -- what every line does is a hypothesis of the induction, as it is needed for the rest alone
  revert hnext
  refine Walk.ledger_induction (P := fun u _ accounts =>
    (∀ a ∈ accounts, view a.finish = next (view a.start) a) →
      (∀ front a back, accounts = front ++ a :: back → view a.start = front.foldl next (view u)) ∧
        view w' = accounts.foldl next (view u)) h ?_ ?_
  · intro _
    refine ⟨fun front a back hsplit => ?_, rfl⟩
    exact absurd hsplit.symm (List.append_ne_nil_of_right_ne_nil _ (List.cons_ne_nil _ _))
  · intro b rest accounts _ ih hnext
    obtain ⟨hb, hnext⟩ := List.forall_mem_cons.1 hnext
    obtain ⟨hcut, hend⟩ := ih hnext
    rw [hb] at hend hcut
    refine ⟨fun front a back hsplit => ?_, hend⟩
    -- either the line asked about is the first, or it lies in the rest
    cases front with
    | nil =>
      obtain ⟨rfl, -⟩ := List.cons.inj hsplit
      rfl
    | cons c front =>
      obtain ⟨rfl, hrest⟩ := List.cons.inj hsplit
      exact hcut front a back hrest

/-- The last of some choices, taken one after the other. -/
theorem foldl_getD {α β : Type} (f : α → Option β) (b : β) (l : List α) :
    l.foldl (fun b a => (f a).getD b) b = (l.filterMap f).getLast?.getD b := by
  induction l using List.reverseRecOn with
  | nil => rfl
  | append_singleton l a ih =>
    rw [List.foldl_concat, ih, List.filterMap_append]
    cases ha : f a with
    | none => rw [List.filterMap_cons_none ha, List.filterMap_nil, List.append_nil]; rfl
    | some c => rw [List.filterMap_cons_some ha, List.filterMap_nil, List.getLast?_concat]; rfl

/-- A run that arrives is made of two walks that arrive. -/
theorem exists_passes_of_assemble {m : Machine} {items : List Item} {listing : Listing}
    (h : m.assemble items = .ok listing) : ∃ p : Passes m items, listing = p.listing := by
  unfold Machine.assemble at h
  obtain ⟨survey, hsurvey, h⟩ := bind_eq_ok_iff.1 h
  obtain ⟨final, hfinal, h⟩ := bind_eq_ok_iff.1 h
  cases h
  exact ⟨⟨survey, final, hsurvey, hfinal⟩, rfl⟩

namespace Passes

variable {m : Machine} {items : List Item}

theorem ledger_eq (p : Passes m items) :
    m.ledger items =
      Walk.ledger { machine := { m with symbols := p.survey.machine.symbols } }
        (Line.ofItems items) := by
  rw [Machine.ledger, p.survey_eq]

/-- The accounts of a run are those of its lines, in order, and they are closed. -/
theorem ledger_lines (p : Passes m items) :
    (m.ledger items).map Account.line = Line.ofItems items ∧ ∀ a ∈ m.ledger items, a.Closes := by
  rw [p.ledger_eq]
  exact Walk.ledger_lines p.final_eq

theorem emissions_ledger (p : Passes m items) :
    p.listing.emissions = (m.ledger items).flatMap Account.emissions := by
  rw [p.ledger_eq]
  exact Walk.emissions_ledger p.final_eq

/-- The counter in front of every line and at the end, told from the outside. -/
theorem counter_eq (p : Passes m items)
    (hgenuine : ∀ a ∈ m.ledger items, ∀ i ∈ a.line.statement, i.Genuine) :
    (∀ front a back, m.ledger items = front ++ a :: back →
        a.start.machine.address = Account.counterAfter m.address front) ∧
      p.listing.machine.address = Account.counterAfter m.address (m.ledger items) := by
  have hstep : ∀ a ∈ m.ledger items, a.finish.machine.address = a.advance a.start.machine.address :=
    fun a ha => (p.ledger_lines.2 a ha).address_eq (hgenuine a ha)
  rw [p.ledger_eq] at hstep ⊢
  -- told from the outside or step by step, so the walk is followed step by step
  simp only [Account.counterAfter_eq_foldl]
  exact Walk.ledger_foldl (fun w => w.machine.address) (fun counter a => a.advance counter)
    p.final_eq hstep

/-- The processor at the end is the last that was chosen. -/
theorem cpu_eq (p : Passes m items) :
    p.listing.machine.cpu =
      ((m.ledger items).filterMap fun a => Statement.newCpu? a.line.statement).getLast?.getD m.cpu := by
  have hstep : ∀ a ∈ m.ledger items,
      a.finish.machine.cpu = (Statement.newCpu? a.line.statement).getD a.start.machine.cpu :=
    fun a ha => (p.ledger_lines.2 a ha).cpu_eq
  rw [← foldl_getD]
  rw [p.ledger_eq] at hstep ⊢
  have hfold := Walk.ledger_foldl (fun w => w.machine.cpu)
    (fun cpu a => (Statement.newCpu? a.line.statement).getD cpu) p.final_eq hstep
  exact hfold.2

end Passes

/-- **A run and its counter.** Told line by line along the ledger of a run:

* the `k`-th emission stands where `counterAfter` puts the counter behind the lines in front of it,
  among which are exactly those of the emissions before it;
* so does the counter itself, in front of every line, behind it, and at the end of the run;
* the processor at the end is the last that was chosen, or the one at the start;
* labels and idle lines leave the counter alone;
* behind the first line that emits or sets an address the counter is an address. -/
structure Bookkeeping (m : Machine) (items : List Item) (listing : Listing) : Prop where
  lines : (m.ledger items).map Account.line =
    (items.splitOnP fun i => i.kind == .separator).map Line.ofRow
  emissions : listing.emissions = (m.ledger items).flatMap Account.emissions
  emitted : ∀ (k : Nat) (r : Emission), listing.emissions[k]? = some r →
    ∃ front a back, m.ledger items = front ++ a :: back ∧
      front.flatMap Account.emissions = listing.emissions.take k ∧ a.emissions = [r] ∧
      r.address = Account.counterAfter m.address front
  counter : ∀ front a back, m.ledger items = front ++ a :: back →
    a.start.machine.address = Account.counterAfter m.address front ∧
      a.finish.machine.address = Account.counterAfter m.address (front ++ [a])
  final_address : listing.machine.address = Account.counterAfter m.address (m.ledger items)
  final_cpu : listing.machine.cpu =
    ((m.ledger items).filterMap fun a => Statement.newCpu? a.line.statement).getLast?.getD m.cpu
  labels : ∀ a ∈ m.ledger items, ∀ labels, labels <+: a.line.labels →
    (labels.foldl (Walk.bind .final) a.start).machine.address = a.start.machine.address
  idle : ∀ a ∈ m.ledger items, a.Idle → a.finish.machine.address = a.start.machine.address
  space : ∀ front a back, m.ledger items = front ++ a :: back → Account.Moved (front ++ [a]) →
    0 ≤ a.finish.machine.address ∧ a.finish.machine.address ≤ 0xFFFF
  final_space : Account.Moved (m.ledger items) →
    0 ≤ listing.machine.address ∧ listing.machine.address ≤ 0xFFFF

/-- **The counter follows the emissions and the origins.** A parsed program assembles on every machine
whose labels have names, whatever its counter, and wherever it does, the addresses are as the books
say. -/
theorem counter_bookkeeping (m : Machine) (file : String) (tokens : List Token) :
    (m.symbols.AllNamed → ∃ listing, m.assemble (parse file tokens).items = .ok listing) ∧
      ∀ listing, m.assemble (parse file tokens).items = .ok listing →
        Bookkeeping m (parse file tokens).items listing := by
  constructor
  · intro hnamed
    obtain ⟨p⟩ := Passes.exists_passes hnamed file tokens
    exact ⟨p.listing, p.assemble_eq⟩
  intro listing hlisting
  obtain ⟨p, rfl⟩ := exists_passes_of_assemble hlisting
  obtain ⟨hlines, hcloses⟩ := p.ledger_lines
  have hgenuine : ∀ a ∈ m.ledger (parse file tokens).items, ∀ i ∈ a.line.statement, i.Genuine := by
    intro a ha i hi
    have hline : a.line ∈ Line.ofItems (parse file tokens).items := by
      rw [← hlines]
      exact List.mem_map_of_mem ha
    exact genuine_of_mem_line hline (.inr hi)
  obtain ⟨hstart, hend⟩ := p.counter_eq hgenuine
  have hmem : ∀ {front a back}, m.ledger (parse file tokens).items = front ++ a :: back →
      a ∈ m.ledger (parse file tokens).items := by
    intro front a back hsplit
    rw [hsplit]
    exact List.mem_append_right _ List.mem_cons_self
  have hfinish : ∀ front a back, m.ledger (parse file tokens).items = front ++ a :: back →
      a.finish.machine.address = Account.counterAfter m.address (front ++ [a]) := by
    intro front a back hsplit
    have ha := hmem hsplit
    rw [(hcloses a ha).address_eq (hgenuine a ha), hstart front a back hsplit,
      Account.counterAfter_concat]
  exact {
    lines := by rw [hlines, Line.ofItems, Line.rows_eq_splitOnP]
    emissions := p.emissions_ledger
    emitted := by
      intro k r hr
      rw [p.emissions_ledger] at hr ⊢
      obtain ⟨front, a, back, hsplit, hfront, ha⟩ := Account.exists_account_of_emission hcloses hr
      refine ⟨front, a, back, hsplit, hfront, ha, ?_⟩
      -- the only emission of the line stands where the counter was in front of it
      rcases (hcloses a (hmem hsplit)).emissions_cases with hnone | ⟨e, hone, haddress⟩
      · rw [hnone] at ha
        cases ha
      · obtain rfl : e = r := List.singleton_inj.1 (hone.symm.trans ha)
        rw [haddress, hstart front a back hsplit]
    counter := fun front a back hsplit => ⟨hstart front a back hsplit, hfinish front a back hsplit⟩
    final_address := hend
    final_cpu := p.cpu_eq
    labels := by
      intro a _ labels _
      rw [Walk.machine_labels]
    idle := fun a ha => (hcloses a ha).address_of_idle (hgenuine a ha)
    space := by
      intro front a back hsplit hmoved
      rw [hfinish front a back hsplit]
      exact Account.counterAfter_bounds hmoved _
    final_space := by
      intro hmoved
      rw [hend]
      exact Account.counterAfter_bounds hmoved _ }

/-- From a counter outside the address space, past an origin that is no address, to one whose bytes end
the address space. -/
theorem counter_bookkeeping_wrapped :
    ∃ (tokens : List Token) (listing : Listing),
      tokens.map Token.lexeme = [.name "NOP", .newline, .name "ORG", .number 70000, .newline,
        .name "ORG", .number 0xFFFF, .newline, .name "NOP", .newline, .name "NOP"] ∧
      Machine.assemble { address := -5 } (parse "a" tokens).items = .ok listing ∧
      Bookkeeping { address := -5 } (parse "a" tokens).items listing ∧
      listing.emissions.map Emission.address = [-5, 0xFFFF, 0] ∧ listing.machine.address = 1 := by
  let tokens : List Token :=
    [.name "NOP", .newline, .name "ORG", .number 70000, .newline, .name "ORG", .number 0xFFFF,
      .newline, .name "NOP", .newline, .name "NOP"].map fun lexeme => ⟨lexeme, "a", 1, 1⟩
  have hvalue : (Machine.assemble { address := -5 } (parse "a" tokens).items).toOption.map
      (fun l => (l.emissions.map Emission.address, l.machine.address)) =
        some ([-5, 0xFFFF, 0], 1) := by
    decide +kernel
  obtain ⟨listing, hrun, hvalue⟩ := exists_ok_of_toOption hvalue
  obtain ⟨haddresses, hcounter⟩ := Prod.mk.inj hvalue
  have hbooks := (counter_bookkeeping { address := -5 } "a" tokens).2 listing hrun
  exact ⟨tokens, listing, rfl, hrun, hbooks, haddresses, hcounter⟩

end CrossAssembler
