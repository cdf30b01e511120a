import CrossAssembler.Proofs.Instruction.Alias
import CrossAssembler.Proofs.Program.Deletion
import Mathlib.Logic.Relation

/-!
# Programs with a statement in another spelling

A statement of a program can be exchanged for an alias of it. The program then gives the same bytes at
the same addresses and the same symbols. A report on the statement stays in its family, and the other
reports do not change.

* **Aliases** (`Statement.Alias`): the two spellings of a statement, at any places.
* **One statement** (`Statement.Alias.interchangeable`): in both passes and on every machine the two
  spellings do the same, but for the place of the bytes and the words of a report. Their operands are
  split alike (`Statement.Split`), and what they are split into is encoded alike.
* **A whole walk** (`Walk.exists_replaced`, `Walk.exists_emissions`): behind the statement both walks stand
  on one machine with one label, so from there on they visit, emit and report alike.
-/

namespace CrossAssembler

/-! ### Effects of one kind -/

/-- Effects that are the same but for the place of the bytes, and for the words and the place of a
report. -/
inductive Effect.Akin : Effect → Effect → Prop where
  | same (e : Effect) : Akin e e
  | emit (l l' : Location) (data : List UInt8) : Akin (.emit l data) (.emit l' data)
  | report {d d' : Diagnostic} (h : d.category = d'.category) : Akin (.report d) (.report d')

namespace Effect.Akin

variable {e e' e'' : Effect}

theorem symm (h : e.Akin e') : e'.Akin e := by
  cases h with
  | same => exact .same e
  | emit l l' data => exact .emit l' l data
  | report h => exact .report h.symm

theorem trans (h : e.Akin e') (h' : e'.Akin e'') : e.Akin e'' := by
  cases h with
  | same => exact h'
  | emit l l' data =>
    cases h' with
    | same => exact .emit l l' data
    | emit _ l'' => exact .emit l l'' data
  | report h =>
    cases h' with
    | same => exact .report h
    | report h' => exact .report (h.trans h')

theorem onMachine_eq (h : e.Akin e') (m : Machine) : e.onMachine m = e'.onMachine m := by
  cases h <;> rfl

theorem category_reports (h : e.Akin e') :
    e.reports.map Diagnostic.category = e'.reports.map Diagnostic.category := by
  cases h with
  | same => rfl
  | emit => rfl
  | report h => exact congrArg ([·]) h

end Effect.Akin

namespace Statement

/-- **Statements that can stand for each other**: in both passes and on every machine, both stop the walk
for the same reason or they have effects of one kind. -/
def Interchangeable (s s' : List Item) : Prop :=
  ∀ pass m, (∃ f, effect pass m s = .error f ∧ effect pass m s' = .error f) ∨
    ∃ e e', effect pass m s = .ok e ∧ effect pass m s' = .ok e' ∧ e.Akin e'

namespace Interchangeable

variable {s s' s'' : List Item}

theorem refl (s : List Item) : Interchangeable s s := by
  intro pass m
  cases effect pass m s with
  | error f => exact .inl ⟨f, rfl, rfl⟩
  | ok e => exact .inr ⟨e, e, rfl, rfl, .same e⟩

theorem symm (h : Interchangeable s s') : Interchangeable s' s := by
  intro pass m
  rcases h pass m with ⟨f, hf, hf'⟩ | ⟨e, e', he, he', hakin⟩
  · exact .inl ⟨f, hf', hf⟩
  · exact .inr ⟨e', e, he', he, hakin.symm⟩

/-- What the one does, the other does too. -/
theorem exists_akin (h : Interchangeable s s') {pass : Pass} {m : Machine} {e : Effect}
    (he : effect pass m s = .ok e) : ∃ e', effect pass m s' = .ok e' ∧ e.Akin e' := by
  rcases h pass m with ⟨f, hf, -⟩ | ⟨d, e', hd, he', hakin⟩
  · rw [he] at hf
    cases hf
  · rw [he] at hd
    cases hd
    exact ⟨e', he', hakin⟩

theorem trans (h : Interchangeable s s') (h' : Interchangeable s' s'') : Interchangeable s s'' := by
  intro pass m
  -- a fault of the one is the fault of the statement in between, and so of the other
  rcases h pass m with ⟨f, hf, hf'⟩ | ⟨e, e', he, he', hakin⟩
  · rcases h' pass m with ⟨g, hg, hg'⟩ | ⟨d, -, hd, -⟩
    · rw [hf'] at hg
      cases hg
      exact .inl ⟨f, hf, hg'⟩
    · rw [hf'] at hd
      cases hd
  · obtain ⟨e'', he'', hakin'⟩ := h'.exists_akin he'
    exact .inr ⟨e, e'', he, he'', hakin.trans hakin'⟩

end Interchangeable

/-- Encodings of one class have effects of one kind. -/
theorem outcome_of_classed {r r' : Except Failure (List UInt8)} (h : classed r = classed r')
    (l l' : Location) :
    (∃ f, outcome l r = .error f ∧ outcome l' r' = .error f) ∨
      ∃ e e', outcome l r = .ok e ∧ outcome l' r' = .ok e' ∧ e.Akin e' := by
  rcases classed_cases h with ⟨data, rfl, rfl⟩ | ⟨d, d', rfl, rfl, hcategory⟩ | ⟨f, rfl, rfl⟩
  · exact .inr ⟨_, _, rfl, rfl, .emit l l' data⟩
  · exact .inr ⟨_, _, rfl, rfl, .report hcategory⟩
  · exact .inl ⟨f, rfl, rfl⟩

/-! ### Operands split alike -/

/-- Operands that are refused in one family, or split into related operands. -/
inductive Split (R : List Item → List Item → Prop) :
    Except Diagnostic (List Item) → Except Diagnostic (List Item) → Prop where
  | operands {ops ops' : List Item} (h : R ops ops') : Split R (.ok ops) (.ok ops')
  | refused {d d' : Diagnostic} (h : d.category = d'.category) : Split R (.error d) (.error d')

theorem Split.imp {R S : List Item → List Item → Prop} {r r' : Except Diagnostic (List Item)}
    (h : Split R r r') (himp : ∀ ops ops', R ops ops' → S ops ops') : Split S r r' := by
  cases h with
  | operands h => exact .operands (himp _ _ h)
  | refused h => exact .refused h

/-- An operand in front. -/
theorem Split.cons {R S : List Item → List Item → Prop} {r r' : Except Diagnostic (List Item)}
    (h : Split R r r') {i i' : Item} (hcons : ∀ ops ops', R ops ops' → S (i :: ops) (i' :: ops')) :
    Split S (r.map (i :: ·)) (r'.map (i' :: ·)) := by
  cases h with
  | operands h => exact .operands (hcons _ _ h)
  | refused h => exact .refused h

/-- A single operand, and the same one behind another operand and a comma. -/
theorem split_behind {R : List Item → List Item → Prop} {x x' first comma : Item} (hx : x.Respaced x')
    (hfirst : first.kind.isOperand = true) (hcomma : comma.kind = .comma)
    (h : R [x] [first, x']) (name name' : String) :
    Split R (operands name [x]) (operands name' [first, comma, x']) := by
  have hfirst' : ¬ first.kind.isOperand = false := by rw [hfirst]; decide
  have hcomma' : ¬ comma.kind ≠ .comma := not_not.2 hcomma
  have hkind := hx.kind_eq
  simp only [operands, moreOperands, if_neg hfirst', if_neg hcomma', hkind]
  -- what is added in front is an operand and a comma, so the last operand alone decides
  by_cases hoperand : x.kind.isOperand = false
  · rw [if_pos hoperand, if_pos hoperand]
    exact .refused rfl
  · rw [if_neg hoperand, if_neg hoperand]
    exact .operands h

section ZeroDisplaced

variable {i i' : Item} {rest rest' : List Item}

theorem isOperand_of_zeroDisplaced (h : i.ZeroDisplaced i') :
    i'.kind.isOperand = i.kind.isOperand := by
  cases h with
  | same h => rw [h.kind_eq]
  | zero r l l' => rfl

theorem comma_of_zeroDisplaced (h : i.ZeroDisplaced i') :
    i'.kind = .comma ↔ i.kind = .comma := by
  cases h with
  | same h => rw [h.kind_eq]
  | zero r l l' => exact ⟨by rintro ⟨⟩, by rintro ⟨⟩⟩

theorem split_moreOperands (name : String) (h : List.Forall₂ Item.ZeroDisplaced rest rest') :
    Split (List.Forall₂ Item.ZeroDisplaced) (moreOperands name rest) (moreOperands name rest') := by
  -- both lists take the same branch, as a displacement changes neither commas nor what can be an operand
  fun_induction moreOperands name rest generalizing rest' with
  | case1 =>
    cases h
    exact .operands .nil
  | case2 comma hcomma =>
    obtain ⟨comma', _, hfirst, hnil, rfl⟩ := List.forall₂_cons_left_iff.1 h
    cases hnil
    rw [moreOperands, if_pos ((comma_of_zeroDisplaced hfirst).2 hcomma)]
    exact .refused rfl
  | case3 comma hcomma =>
    obtain ⟨comma', _, hfirst, hnil, rfl⟩ := List.forall₂_cons_left_iff.1 h
    cases hnil
    rw [moreOperands, if_neg (mt (comma_of_zeroDisplaced hfirst).1 hcomma)]
    exact .refused rfl
  | case4 comma operand rest hcomma =>
    obtain ⟨comma', _, hfirst, hmore, rfl⟩ := List.forall₂_cons_left_iff.1 h
    obtain ⟨operand', rest', -, -, rfl⟩ := List.forall₂_cons_left_iff.1 hmore
    rw [moreOperands, if_pos (mt (comma_of_zeroDisplaced hfirst).1 hcomma)]
    exact .refused rfl
  | case5 comma operand rest hcomma hoperand =>
    obtain ⟨comma', _, hfirst, hmore, rfl⟩ := List.forall₂_cons_left_iff.1 h
    obtain ⟨operand', rest', hsecond, -, rfl⟩ := List.forall₂_cons_left_iff.1 hmore
    rw [ne_eq, ← comma_of_zeroDisplaced hfirst] at hcomma
    rw [← isOperand_of_zeroDisplaced hsecond] at hoperand
    rw [moreOperands, if_neg hcomma, if_pos hoperand]
    exact .refused rfl
  | case6 comma operand rest hcomma hoperand ih =>
    obtain ⟨comma', _, hfirst, hmore, rfl⟩ := List.forall₂_cons_left_iff.1 h
    obtain ⟨operand', rest', hsecond, hrest, rfl⟩ := List.forall₂_cons_left_iff.1 hmore
    rw [ne_eq, ← comma_of_zeroDisplaced hfirst] at hcomma
    rw [← isOperand_of_zeroDisplaced hsecond] at hoperand
    rw [moreOperands, if_neg hcomma, if_neg hoperand]
    exact (ih hrest).cons fun _ _ => .cons hsecond

/-- Operands without displacements are split like those with a displacement of zero. -/
theorem split_operands (name : String) (h : List.Forall₂ Item.ZeroDisplaced rest rest') :
    Split (List.Forall₂ Item.ZeroDisplaced) (operands name rest) (operands name rest') := by
  cases h with
  | nil => exact .operands .nil
  | @cons i i' rest rest' hfirst hrest =>
    have hkind := isOperand_of_zeroDisplaced hfirst
    simp only [operands, hkind]
    by_cases hoperand : i.kind.isOperand = false
    · rw [if_pos hoperand, if_pos hoperand]
      exact .refused rfl
    · rw [if_neg hoperand, if_neg hoperand]
      exact (split_moreOperands name hrest).cons fun _ _ => .cons hfirst

end ZeroDisplaced

end Statement

/-! ### Aliases -/

/-- No two mnemonics have the same name, fused spellings included. -/
theorem Mnemonic.ofName?_name {m : Mnemonic} (hm : m ∈ all) : ofName? m.name = some m := by
  -- a finite table, looked up name by name
  revert m
  decide +kernel

/-- The item that the name of a mnemonic is read as. -/
def Item.ofMnemonic (m : Mnemonic) (l : Location) : Item :=
  .ofBareName m.name l

theorem Item.kind_ofMnemonic {m : Mnemonic} (hm : m ∈ Mnemonic.all) (l : Location) :
    (ofMnemonic m l).kind = .mnemonic := by
  have hkeyword : Keyword.ofName? m.name = none := by
    revert m
    decide +kernel
  change ItemKind.ofName m.name = .mnemonic
  rw [ItemKind.ofName, hkeyword, Mnemonic.ofName?_name hm]
  rfl

namespace Statement

/-- Instructions whose operands are split and encoded alike are of one class. -/
theorem classed_instruction {m m' : Mnemonic} (hm : m ∈ Mnemonic.all) (hm' : m' ∈ Mnemonic.all)
    {l l' : Location} {rest rest' : List Item}
    (h : Split (fun ops ops' => ∀ ctx, classed (Instruction.encode ctx m ops l) =
        classed (Instruction.encode ctx m' ops' l'))
      (operands m.name rest) (operands m'.name rest'))
    (pass : Pass) (machine : Machine) :
    classed (instruction pass machine (.ofMnemonic m l) rest) =
      classed (instruction pass machine (.ofMnemonic m' l') rest') := by
  have hname : (Item.ofMnemonic m l).text.bind Mnemonic.ofName? = some m := Mnemonic.ofName?_name hm
  have hname' : (Item.ofMnemonic m' l').text.bind Mnemonic.ofName? = some m' :=
    Mnemonic.ofName?_name hm'
  rw [instruction_eq, instruction_eq, hname, hname']
  -- the operands are split before the processor and the mnemonic are looked at
  change Split _ (operands (Item.ofMnemonic m l).shownText rest)
    (operands (Item.ofMnemonic m' l').shownText rest') at h
  generalize operands (Item.ofMnemonic m l).shownText rest = r at h ⊢
  generalize operands (Item.ofMnemonic m' l').shownText rest' = r' at h ⊢
  cases h with
  | refused h => exact classed_problem h
  | operands h =>
    by_cases hcpu : machine.cpu = .z80
    · simp only [if_pos hcpu]
      exact h _
    · simp only [if_neg hcpu]
      rfl

/-- **Two spellings of a statement**, at any places: the accumulator as destination of an arithmetic
instruction, a condition or an interrupt mode in the mnemonic or behind it, and a displacement of zero from
an index register. -/
inductive Alias : List Item → List Item → Prop where
  | accumulator (op : AluOp) {x x' : Item} (hx : x.Respaced x') (l l' place comma : Location) :
      Alias [.ofMnemonic (.alu op) l, x]
        [.ofMnemonic (.alu op) l', .ofBareName Register8.a.name place,
          { kind := .comma, location := comma }, x']
  | condition (branch : Branch) {cc : Condition} (hcc : cc ∈ branch.conditions) {x x' : Item}
      (hx : x.Respaced x') (l l' place comma : Location) :
      Alias [.ofMnemonic (.fused branch cc) l, x]
        [.ofMnemonic branch.mnemonic l', .ofBareName cc.name place,
          { kind := .comma, location := comma }, x']
  | conditionAlone (branch : Branch) {cc : Condition} (hcc : cc ∈ branch.conditions)
      (l l' place : Location) :
      Alias [.ofMnemonic (.fused branch cc) l]
        [.ofMnemonic branch.mnemonic l', .ofBareName cc.name place]
  | mode (mode : InterruptMode) (l l' place : Location) :
      Alias [.ofMnemonic (.fusedMode mode) l] [.ofMnemonic .im l', .ofNumber mode.number place]
  | zeroDisplacement {m : Mnemonic} (hm : m ∈ Mnemonic.all) (hjump : Instruction.isJump m = false)
      {rest rest' : List Item} (hrest : List.Forall₂ Item.ZeroDisplaced rest rest') (l l' : Location) :
      Alias (.ofMnemonic m l :: rest) (.ofMnemonic m l' :: rest')

namespace Alias

variable {s s' : List Item}

theorem alu_mem_all (op : AluOp) : Mnemonic.alu op ∈ Mnemonic.all := by
  cases op <;> decide

theorem mnemonic_mem_all (branch : Branch) : branch.mnemonic ∈ Mnemonic.all := by
  cases branch <;> decide

theorem fusedMode_mem_all (mode : InterruptMode) : Mnemonic.fusedMode mode ∈ Mnemonic.all := by
  cases mode <;> decide

theorem fused_mem_all {branch : Branch} {cc : Condition} (hcc : cc ∈ branch.conditions) :
    Mnemonic.fused branch cc ∈ Mnemonic.all := by
  have hbranch : branch ∈ Branch.all := by cases branch <;> decide
  have hfused : Mnemonic.fused branch cc ∈ Mnemonic.allFused :=
    List.mem_flatMap.2 ⟨branch, hbranch, List.mem_map_of_mem hcc⟩
  exact List.mem_append_left _ (List.mem_append_right _ hfused)

theorem isOperand_condition (cc : Condition) (place : Location) :
    (Item.ofBareName cc.name place).kind.isOperand = true := by
  change (ItemKind.ofName cc.name).isOperand = true
  cases cc <;> decide

/-- **Both spellings are instructions of one class.** -/
theorem exists_instructions (h : Alias s s') :
    ∃ m ∈ Mnemonic.all, ∃ m' ∈ Mnemonic.all, ∃ l l' rest rest',
      s = .ofMnemonic m l :: rest ∧ s' = .ofMnemonic m' l' :: rest' ∧
      ∀ pass machine, classed (instruction pass machine (.ofMnemonic m l) rest) =
        classed (instruction pass machine (.ofMnemonic m' l') rest') := by
  cases h with
  -- the destination in front is an operand, and an arithmetic instruction with it is encoded alike
  | accumulator op hx l l' place comma =>
    have hop := alu_mem_all op
    refine ⟨_, hop, _, hop, l, l', _, _, rfl, rfl, classed_instruction hop hop ?_⟩
    exact split_behind hx rfl rfl
      (fun ctx => Instruction.classed_encode_accumulator ctx op hx l l' place) _ _
  | @condition branch cc hcc x x' hx l l' place comma =>
    have hplain := mnemonic_mem_all branch
    have hfused := fused_mem_all hcc
    refine ⟨_, hfused, _, hplain, l, l', _, _, rfl, rfl, classed_instruction hfused hplain ?_⟩
    exact split_behind hx (isOperand_condition cc place) rfl
      (fun ctx => Instruction.classed_encode_fused ctx branch cc (.cons hx .nil) l l' place) _ _
  | @conditionAlone branch cc hcc l l' place =>
    have hplain := mnemonic_mem_all branch
    have hone : operands branch.mnemonic.name [.ofBareName cc.name place] =
        .ok [.ofBareName cc.name place] := by
      rw [operands, isOperand_condition]
      rfl
    have hfused := fused_mem_all hcc
    refine ⟨_, hfused, _, hplain, l, l', _, _, rfl, rfl, classed_instruction hfused hplain ?_⟩
    rw [hone]
    exact .operands fun ctx => Instruction.classed_encode_fused ctx branch cc .nil l l' place
  | mode mode l l' place =>
    have hfused := fusedMode_mem_all mode
    have hplain : Mnemonic.im ∈ Mnemonic.all := by decide
    refine ⟨_, hfused, _, hplain, l, l', _, _, rfl, rfl, classed_instruction hfused hplain ?_⟩
    exact .operands fun ctx => Instruction.classed_encode_mode ctx mode l l' place
  | @zeroDisplacement m hm hjump rest rest' hrest l l' =>
    refine ⟨m, hm, m, hm, l, l', rest, rest', rfl, rfl, classed_instruction hm hm ?_⟩
    exact (split_operands m.name hrest).imp fun ops ops' hops ctx =>
      Instruction.classed_encode_zeroDisplaced ctx hjump hops l l'

/-- Items of a kind that is no part of an instruction stand in both spellings or in none. -/
theorem exists_kind_iff (h : Alias s s') {k : ItemKind} (hmnemonic : k ≠ .mnemonic)
    (hcomma : k ≠ .comma) (hoperand : k.isOperand = false) :
    (∃ i ∈ s, i.kind = k) ↔ ∃ i ∈ s', i.kind = k := by
  -- what a spelling adds or changes is a mnemonic, a comma or an operand
  have hne : ∀ i : Item, i.kind.isOperand = true → ¬ i.kind = k := by
    rintro i hi rfl
    rw [hi] at hoperand
    cases hoperand
  have hhead : ∀ m ∈ Mnemonic.all, ∀ l, ¬ (Item.ofMnemonic m l).kind = k := by
    intro m hm l
    rw [Item.kind_ofMnemonic hm]
    exact hmnemonic.symm
  cases h with
  | accumulator op hx l l' place comma =>
    have hop := hhead _ (alu_mem_all op)
    have hfirst := hne (.ofBareName Register8.a.name place) rfl
    simp only [List.exists_mem_cons_iff, hop, hfirst, hcomma.symm, hx.kind_eq, false_or]
  | @condition branch cc hcc x x' hx l l' place comma =>
    have hfused := hhead _ (fused_mem_all hcc)
    have hplain := hhead _ (mnemonic_mem_all branch)
    have hfirst := hne _ (isOperand_condition cc place)
    simp only [List.exists_mem_cons_iff, hfused, hplain, hfirst, hcomma.symm, hx.kind_eq, false_or]
  | @conditionAlone branch cc hcc l l' place =>
    have hfused := hhead _ (fused_mem_all hcc)
    have hplain := hhead _ (mnemonic_mem_all branch)
    have hfirst := hne _ (isOperand_condition cc place)
    simp only [List.exists_mem_cons_iff, hfused, hplain, hfirst, false_or]
  | mode mode l l' place =>
    have hfused := hhead _ (fusedMode_mem_all mode)
    have hplain := hhead .im (by decide)
    have hfirst := hne (.ofNumber mode.number place) rfl
    simp only [List.exists_mem_cons_iff, hfused, hplain, hfirst, false_or]
  | @zeroDisplacement m hm hjump rest rest' hrest l l' =>
    simp only [List.exists_mem_cons_iff, hhead m hm, false_or]
    -- operand by operand: a displacement is added to an operand, which stays one
    induction hrest with
    | nil => rfl
    | @cons i i' rest rest' hfirst _ ih =>
      have hkind : i.kind = k ↔ i'.kind = k := by
        cases hfirst with
        | same h => rw [h.kind_eq]
        | zero r l l' => exact iff_of_false (hne _ rfl) (hne _ rfl)
      simp only [List.exists_mem_cons_iff, hkind, ih]

/-- **Aliases can stand for each other.** -/
theorem interchangeable (h : Alias s s') : Interchangeable s s' := by
  intro pass machine
  have hinvalid : (∃ i ∈ s, i.kind = .invalid) ↔ ∃ i ∈ s', i.kind = .invalid :=
    h.exists_kind_iff (by decide) (by decide) rfl
  obtain ⟨m, hm, m', hm', l, l', rest, rest', rfl, rfl, hclassed⟩ := h.exists_instructions
  by_cases hleft : ∃ i ∈ .ofMnemonic m l :: rest, i.kind = .invalid
  · -- of which something was left out, the statement is passed over
    exact .inr ⟨_, _, effect_nothing_iff.2 (.inr hleft), effect_nothing_iff.2 (.inr (hinvalid.1 hleft)),
      .same _⟩
  · have hvalid : ∀ i ∈ .ofMnemonic m l :: rest, i.kind ≠ .invalid := by
      simpa only [not_exists, not_and] using hleft
    have hvalid' : ∀ i ∈ .ofMnemonic m' l' :: rest', i.kind ≠ .invalid := by
      simpa only [not_exists, not_and] using mt hinvalid.2 hleft
    rw [(isInstruction_of_valid (Item.kind_ofMnemonic hm l) hvalid).effect_eq,
      (isInstruction_of_valid (Item.kind_ofMnemonic hm' l') hvalid').effect_eq]
    exact outcome_of_classed (hclassed pass machine) _ _

/-- An alias stands where the statement stands. -/
theorem between_iff (h : Alias s s') {front back : List Item} :
    Between front s back ↔ Between front s' back := by
  obtain ⟨m, hm, m', hm', l, l', rest, rest', hs, hs', -⟩ := h.exists_instructions
  have hhead : ∀ m ∈ Mnemonic.all, ∀ l, (Item.ofMnemonic m l).kind ≠ .label := by
    intro m hm l
    rw [Item.kind_ofMnemonic hm]
    decide
  -- neither spelling ends its line
  have hseparator : (∃ i ∈ s, i.kind = .separator) ↔ ∃ i ∈ s', i.kind = .separator :=
    h.exists_kind_iff (by decide) (by decide) rfl
  have hwithin : (∀ i ∈ s, i.kind ≠ .separator) ↔ ∀ i ∈ s', i.kind ≠ .separator := by
    simpa only [not_exists, not_and] using not_congr hseparator
  constructor
  · intro hbetween
    exact { hbetween with
      starts := ⟨_, rest', hs', hhead m' hm' l'⟩
      within := hwithin.1 hbetween.within }
  · intro hbetween
    exact { hbetween with
      starts := ⟨_, rest, hs, hhead m hm l⟩
      within := hwithin.2 hbetween.within }

end Alias

/-- **Synonymous statements**: the one becomes the other by exchanging aliases, in either direction and
any number of times. -/
def Synonymous : List Item → List Item → Prop := Relation.EqvGen Alias

namespace Synonymous

variable {s s' : List Item}

theorem interchangeable (h : Synonymous s s') : Interchangeable s s' := by
  induction h with
  | rel s s' h => exact h.interchangeable
  | refl s => exact .refl s
  | symm s s' _ ih => exact ih.symm
  | trans s s' s'' _ _ ih ih' => exact ih.trans ih'

theorem between_iff (h : Synonymous s s') {front back : List Item} :
    Between front s back ↔ Between front s' back := by
  induction h with
  | rel s s' h => exact h.between_iff
  | refl s => rfl
  | symm s s' _ ih => exact ih.symm
  | trans s s' s'' _ _ ih ih' => exact ih.trans ih'

end Synonymous

/-- Two statements between the same items stand between the same stops. -/
theorem Between.exists_stops_pair {front back s s' : List Item} (h : Between front s back)
    (h' : Between front s' back) :
    ∃ before after, Stop.ofItems (front ++ s ++ back) = before ++ .statement s :: after ∧
      Stop.ofItems (front ++ s' ++ back) = before ++ .statement s' :: after ∧
      Stop.ofItems front = before ++ [.statement []] := by
  obtain ⟨before, after, hstops, hbare, hfront⟩ := h.exists_stops
  obtain ⟨before', after', hstops', hbare', hfront'⟩ := h'.exists_stops
  -- what stands in front and behind is known from the program without the statement
  rw [hfront, List.append_cancel_right_eq] at hfront'
  subst hfront'
  rw [hbare, List.append_cancel_left_eq] at hbare'
  cases hbare'
  exact ⟨before, after, hstops, hstops', hfront⟩

end Statement

/-! ### Walks over interchangeable statements -/

/-- An emission without its place. -/
def Emission.unplaced (e : Emission) : Emission :=
  { e with location := none }

namespace Walk

variable {pass : Pass} {w w' u u' : Walk} {e e' : Effect} {s s' : List Item}
  {before after stops : List Stop}

theorem machine_apply_of_akin (h : e.Akin e') (pass : Pass) (w : Walk) :
    (w.apply pass e).machine = (w.apply pass e').machine := by
  rw [apply_machine, apply_machine, h.onMachine_eq]

theorem label_apply_of_akin (h : e.Akin e') (pass : Pass) (w : Walk) :
    (w.apply pass e).label = (w.apply pass e').label := by
  cases h with
  | same => rfl
  | emit l l' data => rfl
  | report h => exact (report_label pass w _).trans (report_label pass w _).symm

theorem emissions_apply_of_akin (h : e.Akin e') (pass : Pass) (w : Walk) :
    (w.apply pass e).emissions.toList.map Emission.unplaced =
      (w.apply pass e').emissions.toList.map Emission.unplaced := by
  cases h with
  | same => rfl
  | emit l l' data =>
    change (w.emissions.push _).toList.map _ = (w.emissions.push _).toList.map _
    simp only [Array.toList_push, List.map_append]
    rfl
  | report h =>
    change (w.report pass _).emissions.toList.map _ = (w.report pass _).emissions.toList.map _
    rw [report_emissions, report_emissions]

/-- A walk on the same machine arrives too. -/
theorem exists_along_of_machine (hmachine : w.machine = w'.machine)
    (halong : w.along pass stops = .ok u) : ∃ u', w'.along pass stops = .ok u' := by
  -- whether a stop is passed depends on the machine, and it stays the same in both walks
  induction stops generalizing w w' with
  | nil => exact ⟨w', rfl⟩
  | cons stop stops ih =>
    obtain ⟨v, hact, hrest⟩ := along_cons_iff.1 halong
    have hact' : ∃ v', w'.act pass stop = .ok v' := by
      cases stop with
      | label item => exact ⟨_, rfl⟩
      | statement items =>
        obtain ⟨e, he, -⟩ := act_statement_iff.1 hact
        rw [hmachine] at he
        exact ⟨_, act_statement_iff.2 ⟨e, he, rfl⟩⟩
    obtain ⟨v', hact'⟩ := hact'
    obtain ⟨u', hrest'⟩ := ih (machine_act hmachine hact hact') hrest
    exact ⟨u', along_cons_iff.2 ⟨v', hact', hrest'⟩⟩

/-- **Walks on one machine with one label emit alike** from there on. -/
theorem exists_emissions (hmachine : w.machine = w'.machine) (hlabel : w.label = w'.label)
    (halong : w.along pass stops = .ok u) (halong' : w'.along pass stops = .ok u') :
    ∃ tail, u.emissions.toList = w.emissions.toList ++ tail ∧
      u'.emissions.toList = w'.emissions.toList ++ tail := by
  -- any visit of a label can stand for the one that has left its label
  obtain ⟨pending, hpending⟩ : ∃ pending : Option Visit,
      w.label = pending.bind fun p => p.stop.name? := by
    cases hname : w.label with
    | none => exact ⟨none, rfl⟩
    | some name => exact ⟨some ⟨.label (.named .label name ⟨"", 0, 0⟩), w.machine⟩, rfl⟩
  refine ⟨_, emissions_of_along halong hpending, ?_⟩
  rw [visits_eq hmachine halong halong']
  exact emissions_of_along halong' (hlabel ▸ hpending)

/-- **A statement replaced on a walk.** The walk arrives with the other statement too, from behind an
effect of the same kind. -/
theorem exists_replaced (h : Statement.Interchangeable s s')
    (halong : w.along pass (before ++ .statement s :: after) = .ok u) :
    ∃ v e e' u', w.along pass before = .ok v ∧ Statement.effect pass v.machine s = .ok e ∧
      Statement.effect pass v.machine s' = .ok e' ∧ e.Akin e' ∧
      (v.apply pass e).along pass after = .ok u ∧ (v.apply pass e').along pass after = .ok u' ∧
      w.along pass (before ++ .statement s' :: after) = .ok u' := by
  obtain ⟨v, v', hbefore, hact, hafter, -⟩ := exists_split halong
  obtain ⟨e, he, rfl⟩ := act_statement_iff.1 hact
  obtain ⟨e', he', hakin⟩ := h.exists_akin he
  obtain ⟨u', hafter'⟩ := exists_along_of_machine (machine_apply_of_akin hakin pass v) hafter
  refine ⟨v, e, e', u', hbefore, he, he', hakin, hafter, hafter', ?_⟩
  rw [along_append, hbefore]
  exact along_cons_iff.2 ⟨_, act_statement_iff.2 ⟨e', he', rfl⟩, hafter'⟩

end Walk

/-! ### Programs with a statement replaced -/

/-- **Both walks with an interchangeable statement.** They end on the same machines. The final walk emits
the same bytes, and its reports differ in those on the statement alone. -/
theorem Passes.exists_replaced {m : Machine} {items items' s s' : List Item} {before after : List Stop}
    (p : Passes m items) (hstops : Stop.ofItems items = before ++ .statement s :: after)
    (hstops' : Stop.ofItems items' = before ++ .statement s' :: after)
    (h : Statement.Interchangeable s s') :
    ∃ (p' : Passes m items') (w : Walk) (e e' : Effect) (reports : List Diagnostic),
      p'.listing.machine = p.listing.machine ∧
        p'.listing.emissions.map Emission.unplaced = p.listing.emissions.map Emission.unplaced ∧
        Walk.along .final { machine := { m with symbols := p.listing.machine.symbols } } before =
          .ok w ∧
        Statement.effect .final w.machine s = .ok e ∧ Statement.effect .final w.machine s' = .ok e' ∧
        e.Akin e' ∧
        p.listing.reports = w.reports.toList ++ e.reports ++ reports ∧
        p'.listing.reports = w.reports.toList ++ e'.reports ++ reports := by
  have hsurvey := p.survey_along
  have hfinal := p.final_along
  rw [hstops] at hsurvey hfinal
  obtain ⟨v, d, d', survey, -, -, -, hakin, hafter, hafter', hsurvey'⟩ := Walk.exists_replaced h hsurvey
  obtain ⟨w, e, e', final, hbefore, he, he', hakin', hbehind, hbehind', hfinal'⟩ :=
    Walk.exists_replaced h hfinal
  -- the survey hands on the same symbols
  have hsymbols : survey.machine = p.survey.machine :=
    (Walk.machine_along (Walk.machine_apply_of_akin hakin .survey v) hafter hafter').symm
  rw [← hstops', ← Walk.run_eq_along] at hsurvey' hfinal'
  rw [← hsymbols] at hfinal'
  let p' : Passes m items' := ⟨survey, final, hsurvey', hfinal'⟩
  -- behind the statement the final walks differ in what they have left behind alone
  have hmachine := Walk.machine_apply_of_akin hakin' .final w
  have hlabel := Walk.label_apply_of_akin hakin' .final w
  obtain ⟨tail, htail, htail'⟩ := Walk.exists_emissions hmachine hlabel hbehind hbehind'
  have hvisits := Walk.visits_eq hmachine hbehind hbehind'
  refine ⟨p', w, e, e', ((w.apply .final e).visits .final after).flatMap Visit.reports,
    (Walk.machine_along hmachine hbehind hbehind').symm, ?_, ?_, he, he', hakin', ?_, ?_⟩
  · change final.emissions.toList.map _ = p.final.emissions.toList.map _
    rw [htail, htail', List.map_append, List.map_append, Walk.emissions_apply_of_akin hakin']
  · rw [p.symbols_eq]
    exact hbefore
  · rw [← Walk.apply_reports]
    exact Walk.reports_of_along hbehind
  · rw [← Walk.apply_reports, hvisits]
    exact Walk.reports_of_along hbehind'

/-- **Synonymous statements are interchangeable in every program.** Let a parsed program hold a statement,
and let another one be synonymous with it. From every address and processor the program assembles with
either, to the same machine, that is to the same symbols, and to the same emissions but for their places.
The reports are those of the walk in front of the statement, then those of the statement, and then the
others. The two statements both emit the same bytes, or both are passed over, or both are reported in the
same family. -/
theorem synonymous_statements_interchangeable (file : String) (tokens : List Token) (address : Int)
    (cpu : Cpu) (front statement statement' back : List Item)
    (hitems : (parse file tokens).items = front ++ statement ++ back)
    (hbetween : Statement.Between front statement back)
    (hsynonymous : Statement.Synonymous statement statement') :
    ∃ listing listing' : Listing, ∃ (w : Walk) (e e' : Effect) (reports : List Diagnostic),
      Machine.assemble { address := address, cpu := cpu } (front ++ statement ++ back) =
          .ok listing ∧
        Machine.assemble { address := address, cpu := cpu } (front ++ statement' ++ back) =
          .ok listing' ∧
        listing'.machine = listing.machine ∧
        listing'.emissions.map Emission.unplaced = listing.emissions.map Emission.unplaced ∧
        Walk.run .final { address := address, cpu := cpu, symbols := listing.machine.symbols }
            (Line.ofItems front) = .ok w ∧
        Statement.effect .final w.machine statement = .ok e ∧
        Statement.effect .final w.machine statement' = .ok e' ∧
        e.Akin e' ∧
        listing.reports = w.reports.toList ++ e.reports ++ reports ∧
        listing'.reports = w.reports.toList ++ e'.reports ++ reports := by
  obtain ⟨before, after, hstops, hstops', hfront⟩ :=
    hbetween.exists_stops_pair (hsynonymous.between_iff.1 hbetween)
  obtain ⟨p⟩ := @Passes.exists_passes { address := address, cpu := cpu } rfl file tokens
  rw [hitems] at p
  obtain ⟨p', w, e, e', reports, hmachine, hemissions, hw, he, he', hakin, hreports, hreports'⟩ :=
    p.exists_replaced hstops hstops' hsynonymous.interchangeable
  refine ⟨p.listing, p'.listing, w, e, e', reports, p.assemble_eq, p'.assemble_eq, hmachine, hemissions,
    ?_, he, he', hakin, hreports, hreports'⟩
  rw [Walk.run_eq_along, hfront, Walk.along_append, hw]
  rfl

/-- A sum with the byte that an index register points to. -/
def addAtIndex : List Item :=
  [.ofMnemonic (.alu .add) ⟨"p", 2, 4⟩, .atIndexRegister .ix ⟨"p", 2, 8⟩]

/-- The sum with its destination and its displacement written out. -/
def addAtIndexInFull : List Item :=
  [.ofMnemonic (.alu .add) ⟨"p", 2, 4⟩, .ofBareName "A" ⟨"p", 2, 8⟩,
    { kind := .comma, location := ⟨"p", 2, 9⟩ }, .ofIndex .ix 0 ⟨"p", 2, 10⟩]

/-- A restart out of range. -/
def badRestart : List Item :=
  [{ kind := .separator, location := ⟨"p", 2, 12⟩ }, .ofMnemonic .rst ⟨"p", 3, 1⟩,
    .ofNumber 9 ⟨"p", 3, 5⟩]

/-- The sum can be written in full. -/
theorem synonymous_statements_interchangeable_add :
    Statement.Synonymous addAtIndex addAtIndexInFull ∧
      ∃ listing listing' : Listing,
        Machine.assemble {} (nopAndLabel ++ addAtIndex ++ badRestart) = .ok listing ∧
          Machine.assemble {} (nopAndLabel ++ addAtIndexInFull ++ badRestart) = .ok listing' ∧
          listing'.machine = listing.machine ∧
          listing'.emissions.map Emission.unplaced = listing.emissions.map Emission.unplaced ∧
          listing'.reports.map Diagnostic.category = listing.reports.map Diagnostic.category := by
  have hparse : (parse "p" ((tokenize "NOP\nX: ADD (IX)\nRST 9" "p").toOption.getD [])).items =
      nopAndLabel ++ addAtIndex ++ badRestart := by
    decide +kernel
  have hbetween : Statement.Between nopAndLabel addAtIndex badRestart :=
    { starts := ⟨_, _, rfl, by decide⟩
      within := by decide
      labelled := ⟨nopAndLabel.take 2, nopAndLabel.drop 2, rfl, by decide, by decide⟩
      ended := by decide }
  have hsynonymous : Statement.Synonymous addAtIndex addAtIndexInFull :=
    .trans _ _ _
      (.rel _ _ (.zeroDisplacement (by decide) rfl (.cons (.zero .ix _ ⟨"p", 2, 10⟩) .nil) _
        ⟨"p", 2, 4⟩))
      (.rel _ _ (.accumulator .add (.refl _) _ _ _ _))
  obtain ⟨listing, listing', w, e, e', reports, hone, hother, hmachine, hemissions, -, -, -, hakin,
      hreports, hreports'⟩ :=
    synonymous_statements_interchangeable "p" _ 0 .z80 nopAndLabel addAtIndex addAtIndexInFull badRestart
      hparse hbetween hsynonymous
  refine ⟨hsynonymous, listing, listing', hone, hother, hmachine, hemissions, ?_⟩
  rw [hreports, hreports']
  simp only [List.map_append, hakin.category_reports]

end CrossAssembler
