import CrossAssembler.Proofs.Instruction.Memory

/-!
# Instructions under another spelling

Some instructions can be written in two ways: with or without the accumulator as destination, with a
condition or an interrupt mode in the mnemonic or behind it, with or without a displacement of zero. The
spellings stand at different places and are reported in different words, so their encodings are compared
by the families of the problems.

* **Verdicts** (`verdict`): the bytes of an instruction or the family of its problem, which depend on the
  plain mnemonic and on what the operands mean (`classed_encode`), and not on the places of their values
  (`verdict_congr`).
* **Spellings**: the two spellings have one verdict (`verdict_accumulator`, `verdict_carry`, `verdict_mode`,
  `verdict_sameUse`).
-/

namespace CrossAssembler

/-! ### Results without words and places -/

/-- What a failure is, its words and its place apart. -/
def Failure.family : Failure → Category ⊕ Fault
  | problem d => .inl d.category
  | fault f => .inr f

/-- A result of which the family of its problem is kept, and not the words and the place. Two spellings
of an instruction cannot agree in more, as their reports quote what was written. -/
def classed {α : Type} (r : Except Failure α) : Except (Category ⊕ Fault) α :=
  r.mapError Failure.family

theorem classed_bind {α β : Type} (r : Except Failure α) (k : α → Except Failure β) :
    classed (r >>= k) = classed r >>= fun a => classed (k a) := by
  cases r <;> rfl

theorem classed_map {α β : Type} (r : Except Failure α) (k : α → β) :
    classed (r.map k) = (classed r).map k := by
  cases r <;> rfl

theorem classed_problem {α : Type} {d d' : Diagnostic} (h : d.category = d'.category) :
    classed (.error (.problem d) : Except Failure α) = classed (.error (.problem d')) :=
  congrArg (fun category => Except.error (Sum.inl category)) h

/-- Results of one class: both succeed, both have a problem of one family, or both fail for one fault. -/
theorem classed_cases {α : Type} {r r' : Except Failure α} (h : classed r = classed r') :
    (∃ a, r = .ok a ∧ r' = .ok a) ∨
      (∃ d d', r = .error (.problem d) ∧ r' = .error (.problem d') ∧ d.category = d'.category) ∨
      ∃ f, r = .error (.fault f) ∧ r' = .error (.fault f) := by
  -- the class tells a success, a problem and a fault apart
  rcases r with (d | f) | a
  · rcases r' with (d' | f') | a'
    · exact .inr (.inl ⟨d, d', rfl, rfl, Sum.inl.inj (Except.error.inj h)⟩)
    · exact absurd (Except.error.inj h) Sum.inl_ne_inr
    · cases h
  · rcases r' with (d' | f') | a'
    · exact absurd (Except.error.inj h) Sum.inr_ne_inl
    · cases Sum.inr.inj (Except.error.inj h)
      exact .inr (.inr ⟨f, rfl, rfl⟩)
    · cases h
  · rcases r' with (d' | f') | a'
    · cases h
    · cases h
    · cases Except.ok.inj h
      exact .inl ⟨a, rfl, rfl⟩

/-- The family of a refusal, whatever the instruction it is reported for. -/
def Refusal.family (r : Refusal) : Category ⊕ Fault :=
  (r.toFailure "" [] ⟨"", 0, 0⟩).family

theorem Refusal.family_toFailure (r : Refusal) (mnemonic : String) (operands : List Item)
    (location : Location) : (r.toFailure mnemonic operands location).family = r.family := by
  cases r <;> rfl

/-! ### Values without places -/

/-- A value without its place. -/
def Term.unplaced (t : Term) : Term :=
  { t with location := ⟨"", 0, 0⟩ }

namespace Context

variable (ctx : Context) (t : Term)

theorem classed_valueOf : classed (ctx.valueOf t.unplaced) = classed (ctx.valueOf t) := by
  obtain ⟨pass, address, symbols⟩ := ctx
  obtain ⟨meaning, location⟩ := t
  cases meaning with
  | literal v => rfl
  | symbol name =>
    cases pass with
    | survey => rfl
    | final =>
      show classed (symbols.lookup name _) = classed (symbols.lookup name _)
      unfold SymbolTable.lookup
      -- the place is used for the report of a missing label, and for nothing else
      cases symbols.value? name with
      | some v => rfl
      | none => cases symbols.contains none <;> rfl

theorem classed_require (holds : Bool) (problem : Problem) :
    classed (ctx.require holds t.unplaced problem) = classed (ctx.require holds t problem) := by
  unfold require
  split <;> rfl

theorem classed_valueWithin (low high : Int) (what : String) :
    classed (ctx.valueWithin t.unplaced low high what) =
      classed (ctx.valueWithin t low high what) := by
  simp only [valueWithin, classed_bind, classed_valueOf, classed_require]

theorem classed_offsetByte : classed (ctx.offsetByte t.unplaced) = classed (ctx.offsetByte t) := by
  simp only [offsetByte, classed_bind, classed_valueWithin, classed_require]

theorem classed_restartByte : classed (ctx.restartByte t.unplaced) = classed (ctx.restartByte t) := by
  simp only [restartByte, classed_bind, classed_valueOf, classed_require]

theorem classed_modeByte : classed (ctx.modeByte t.unplaced) = classed (ctx.modeByte t) := by
  simp only [modeByte, classed_bind, classed_valueOf, classed_require]

end Context

/-- The bytes of a field do not depend on where its value stands. -/
theorem Field.classed_emit (ctx : Context) (field : Field) :
    classed ((field.mapTerm Term.unplaced).emit ctx) = classed (field.emit ctx) := by
  cases field with
  | byteOf t what | wordOf t what =>
    simp only [mapTerm, emit, classed_map, Context.classed_valueWithin]
  | bitNumber opcode t =>
    simp only [mapTerm, emit, Context.bitNumber, classed_map, Context.classed_valueWithin]
  | offsetTo t => simp only [mapTerm, emit, classed_map, Context.classed_offsetByte]
  | restartAt t => simp only [mapTerm, emit, classed_map, Context.classed_restartByte]
  | modeOf t => simp only [mapTerm, emit, classed_map, Context.classed_modeByte]
  | _ => rfl

theorem Template.classed_emit (ctx : Context) (w : Template) :
    classed (Template.emit ctx (w.mapTerm Term.unplaced)) = classed (Template.emit ctx w) := by
  induction w with
  | nil => rfl
  | cons field w ih =>
    show classed (Template.emit ctx (field.mapTerm Term.unplaced :: Template.mapTerm Term.unplaced w)) = _
    simp only [Template.emit, classed_bind, Field.classed_emit, ih]

namespace Instruction

/-! ### Verdicts -/

/-- The bytes of a plain mnemonic with operands, or the family of its problem. -/
def verdict (ctx : Context) (plain : Mnemonic) (xs : List Operand) :
    Except (Category ⊕ Fault) (List UInt8) := do
  classed (checkBit ctx plain xs)
  let w ← (select plain xs).mapError Refusal.family
  classed (Template.emit ctx w)

/-- **An encoding is known by the meaning of its operands**, but for words and places. -/
theorem classed_encode (ctx : Context) {m plain : Mnemonic} {ops written : List Item}
    {location : Location} (hunfuse : unfuse m ops location = (plain, written)) :
    classed (encode ctx m ops location) = verdict ctx plain (written.map Operand.ofItem) := by
  unfold encode verdict
  rw [hunfuse]
  dsimp only
  rw [classed_bind]
  -- both check the bit number first, then choose the form, then fill it
  congr 1
  funext _
  rw [classed_bind]
  cases select plain (written.map Operand.ofItem) with
  | error r => exact congrArg Except.error (r.family_toFailure plain.name written location)
  | ok w => rfl

theorem classed_checkBit (ctx : Context) (m : Mnemonic) (xs : List Operand) :
    classed (checkBit ctx m (xs.map (Operand.mapTerm Term.unplaced))) =
      classed (checkBit ctx m xs) := by
  cases m with
  | bit op =>
    rcases xs with _ | ⟨x, _ | ⟨y, _ | ⟨z, rest⟩⟩⟩
    · rfl
    · cases x <;> rfl
    · cases x with
      | immediate t =>
        simp only [List.map_cons, List.map_nil, Operand.mapTerm, checkBit, Context.bitNumber, classed_map,
          Context.classed_valueWithin]
      | _ => rfl
    · cases x <;> rfl
  | _ => rfl

theorem verdict_unplaced (ctx : Context) (m : Mnemonic) (xs : List Operand) :
    verdict ctx m (xs.map (Operand.mapTerm Term.unplaced)) = verdict ctx m xs := by
  unfold verdict
  rw [classed_checkBit, select_mapTerm]
  congr 1
  funext _
  cases select m xs with
  | error r => rfl
  | ok w => exact w.classed_emit ctx

/-- The places of values do not matter. -/
theorem verdict_congr (ctx : Context) (m : Mnemonic) {xs ys : List Operand}
    (h : xs.map (Operand.mapTerm Term.unplaced) = ys.map (Operand.mapTerm Term.unplaced)) :
    verdict ctx m xs = verdict ctx m ys := by
  rw [← verdict_unplaced, h, verdict_unplaced]

/-! ### Spellings of one operand -/

/-- The accumulator as destination of an arithmetic instruction can be left out. -/
theorem verdict_accumulator (ctx : Context) (op : AluOp) (x : Operand) :
    verdict ctx (.alu op) [.register (.ok .a), x] = verdict ctx (.alu op) [x] := by
  have hselect : select (.alu op) [.register (.ok .a), x] = select (.alu op) [x] := by
    simp only [select, alu]
  unfold verdict
  rw [hselect]
  rfl

/-- A branch takes register C for the carry. -/
theorem select_carry (branch : Branch) (xs : List Operand) :
    select branch.mnemonic (.register (.ok .c) :: xs) =
      select branch.mnemonic (.condition (.ok .c) :: xs) := by
  -- the number of operands decides which forms are tried
  rcases xs with _ | ⟨x, _ | ⟨y, xs⟩⟩ <;> cases branch <;> rfl

/-- Whatever states a condition, a branch reads as the condition. -/
theorem verdict_condition (ctx : Context) (branch : Branch) {x : Operand} {cc : Named Condition}
    (hx : x.condition? = some cc) (xs : List Operand) :
    verdict ctx branch.mnemonic (x :: xs) = verdict ctx branch.mnemonic (.condition cc :: xs) := by
  unfold Operand.condition? at hx
  split at hx
  · cases hx
    rfl
  · cases hx
    unfold verdict
    rw [select_carry]
    cases branch <;> rfl
  · cases hx

/-- An interrupt mode as operand. -/
theorem verdict_mode (ctx : Context) (mode : InterruptMode) (l : Location) :
    verdict ctx .im [.immediate ⟨.literal mode.number, l⟩] = verdict ctx (.fusedMode mode) [] := by
  obtain ⟨pass, address, symbols⟩ := ctx
  cases mode <;> cases pass <;> rfl

end Instruction

/-- Operands that only a jump tells apart: they are the same but for the places of values, or mean the
same byte in memory. -/
inductive Operand.SameUse (x y : Operand) : Prop where
  | same (h : x.mapTerm Term.unplaced = y.mapTerm Term.unplaced)
  | memory {w : MemoryForm} (hx : x.memory? = some w) (hy : y.memory? = some w)

namespace Instruction

section SameUse

variable (ctx : Context) {m : Mnemonic} (hjump : m ≠ .jp) (hfused : ∀ branch cc, m ≠ .fused branch cc)

include hjump hfused

theorem verdict_memory {x y : Operand} {w : MemoryForm} (hx : x.memory? = some w)
    (hy : y.memory? = some w) (front back : List Operand) :
    verdict ctx m (front ++ x :: back) = verdict ctx m (front ++ y :: back) := by
  obtain ⟨check, hcheck⟩ := exists_checkBit ctx m front back
  have hselect : select m (front ++ x :: back) = select m (front ++ y :: back) := by
    rcases select_uniform hjump hfused front back with ⟨refusal, hrefused⟩ | ⟨use, hused⟩
    · exact (hrefused x w hx).trans (hrefused y w hy).symm
    · exact (hused x w hx).trans (hused y w hy).symm
  unfold verdict
  rw [hcheck x w hx, hcheck y w hy, hselect]

/-- **Operands of one use are judged alike**, one after the other. -/
theorem verdict_sameUse {xs ys : List Operand} (h : List.Forall₂ Operand.SameUse xs ys)
    (front : List Operand) : verdict ctx m (front ++ xs) = verdict ctx m (front ++ ys) := by
  -- operands are exchanged one after the other; those done already stand in front
  induction h generalizing front with
  | nil => rfl
  | @cons x y xs ys hxy _ ih =>
    have hfirst : verdict ctx m (front ++ x :: xs) = verdict ctx m (front ++ y :: xs) := by
      cases hxy with
      | same h => exact verdict_congr ctx m (by rw [List.map_append, List.map_append, List.map_cons,
          List.map_cons, h])
      | memory hx hy => exact verdict_memory ctx hjump hfused hx hy front xs
    have hrest := ih (front ++ [y])
    rw [List.append_assoc, List.append_assoc, List.singleton_append, List.singleton_append] at hrest
    exact hfirst.trans hrest

end SameUse

end Instruction

/-! ### Spellings of one instruction -/

namespace Item

/-- The same item, at the same or another place. -/
def Respaced (i i' : Item) : Prop :=
  i' = { i with location := i'.location }

theorem Respaced.refl (i : Item) : i.Respaced i := rfl

theorem Respaced.kind_eq {i i' : Item} (h : i.Respaced i') : i'.kind = i.kind := by
  rw [h]

/-- An item at another place means the same. -/
theorem Respaced.ofItem_unplaced {i i' : Item} (h : i.Respaced i') :
    (Operand.ofItem i).mapTerm Term.unplaced = (Operand.ofItem i').mapTerm Term.unplaced := by
  rw [h]
  generalize i'.location = place
  obtain ⟨kind, location, text, value, indexByte, low, high, fits8, fits16⟩ := i
  cases kind with
  | indirectImmediate | name => cases text <;> rfl
  | _ => rfl

/-- The same item, or an index register with a displacement of zero written out. -/
inductive ZeroDisplaced : Item → Item → Prop where
  | same {i i' : Item} (h : i.Respaced i') : ZeroDisplaced i i'
  | zero (r : IndexRegister) (l l' : Location) : ZeroDisplaced (atIndexRegister r l) (ofIndex r 0 l')

theorem ZeroDisplaced.sameUse {i i' : Item} (h : i.ZeroDisplaced i') :
    (Operand.ofItem i).SameUse (Operand.ofItem i') := by
  cases h with
  | same h => exact .same h.ofItem_unplaced
  | zero r l l' =>
    refine .memory ?_ (Instruction.memory?_ofItem_ofIndex r 0 l')
    rw [ofItem_atIndexRegister]
    rfl

theorem ofItem_register (r : Register8) (l : Location) :
    Operand.ofItem (ofBareName r.name l) = .register (.ok r) := by
  have hkind : ItemKind.ofName r.name = .register8 := by cases r <;> decide
  simp only [Operand.ofItem, ofBareName, hkind, Named.ofText_some (Register8.ofName?_name r)]

/-- A condition can be stated by its name, though the name of the carry is that of a register. -/
theorem condition?_ofBareName (cc : Condition) (l : Location) :
    (Operand.ofItem (ofBareName cc.name l)).condition? = some (.ok cc) := by
  -- the carry is the one condition whose name is a register
  by_cases hcarry : cc = .c
  · subst hcarry
    rw [show Condition.c.name = Register8.c.name from rfl, ofItem_register]
    rfl
  · have hkind : ItemKind.ofName cc.name = .condition := by
      cases cc with
      | c => exact absurd rfl hcarry
      | _ => decide
    simp only [Operand.ofItem, ofBareName, hkind, Named.ofText_some (Condition.ofName?_name cc),
      Operand.condition?]

end Item

namespace Instruction

theorem classed_encode_accumulator (ctx : Context) (op : AluOp) {x x' : Item} (h : x.Respaced x')
    (l l' place : Location) :
    classed (encode ctx (.alu op) [x] l) =
      classed (encode ctx (.alu op) [.ofBareName Register8.a.name place, x'] l') := by
  rw [classed_encode ctx rfl, classed_encode ctx rfl]
  show verdict ctx (.alu op) [Operand.ofItem x] =
    verdict ctx (.alu op) [Operand.ofItem (.ofBareName Register8.a.name place), Operand.ofItem x']
  rw [Item.ofItem_register, verdict_accumulator]
  exact verdict_congr ctx _ (congrArg ([·]) h.ofItem_unplaced)

/-- A condition written into the mnemonic, and as an operand. -/
theorem classed_encode_fused (ctx : Context) (branch : Branch) (cc : Condition) {ops ops' : List Item}
    (h : List.Forall₂ Item.Respaced ops ops') (l l' place : Location) :
    classed (encode ctx (.fused branch cc) ops l) =
      classed (encode ctx branch.mnemonic (.ofBareName cc.name place :: ops') l') := by
  -- the plain mnemonic is written out already
  have hplain : ∀ written, unfuse branch.mnemonic written l' = (branch.mnemonic, written) := by
    intro written
    cases branch <;> rfl
  have hops : (ops.map Operand.ofItem).map (Operand.mapTerm Term.unplaced) =
      (ops'.map Operand.ofItem).map (Operand.mapTerm Term.unplaced) := by
    induction h with
    | nil => rfl
    | cons hfirst _ ih => exact congrArg₂ List.cons hfirst.ofItem_unplaced ih
  rw [classed_encode ctx rfl, classed_encode ctx (hplain _), List.map_cons, List.map_cons,
    ofItem_condition, verdict_condition ctx branch (Item.condition?_ofBareName cc place)]
  refine verdict_congr ctx branch.mnemonic ?_
  rw [List.map_cons, List.map_cons, hops]

theorem classed_encode_mode (ctx : Context) (mode : InterruptMode) (l l' place : Location) :
    classed (encode ctx (.fusedMode mode) [] l) =
      classed (encode ctx .im [.ofNumber mode.number place] l') := by
  rw [classed_encode ctx rfl, classed_encode ctx rfl]
  exact (verdict_mode ctx mode place).symm

/-- A displacement of zero can be left out, but for absolute jumps. -/
theorem classed_encode_zeroDisplaced (ctx : Context) {m : Mnemonic} (hjump : isJump m = false)
    {ops ops' : List Item} (h : List.Forall₂ Item.ZeroDisplaced ops ops') (l l' : Location) :
    classed (encode ctx m ops l) = classed (encode ctx m ops' l') := by
  have huse : List.Forall₂ Operand.SameUse (ops.map Operand.ofItem) (ops'.map Operand.ofItem) := by
    rw [List.forall₂_map_left_iff, List.forall₂_map_right_iff]
    exact h.imp fun _ _ => Item.ZeroDisplaced.sameUse
  cases m with
  | jp => cases hjump
  | fused branch cc =>
    -- the condition stands in front of the operands of the plain mnemonic
    rw [classed_encode ctx rfl, classed_encode ctx rfl, List.map_cons, List.map_cons, ofItem_condition,
      ofItem_condition]
    exact verdict_sameUse ctx (mnemonic_ne_jp hjump) (mnemonic_ne_fused branch) huse
      [.condition (.ok cc)]
  | _ =>
    rw [classed_encode ctx rfl, classed_encode ctx rfl]
    exact verdict_sameUse ctx (by rintro ⟨⟩) (by rintro _ _ ⟨⟩) huse []

end Instruction

end CrossAssembler
