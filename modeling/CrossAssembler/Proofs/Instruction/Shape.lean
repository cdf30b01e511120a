import CrossAssembler.Proofs.Instruction.Emission
import Mathlib.Data.List.Forall2

/-!
# The shape of an instruction does not depend on values

The form of an instruction is chosen without looking into the values of its operands. So an instruction
keeps its size, and its refusal, when a number in it is replaced by another one.

* **Selection** (`select_mapTerm`): if every value is replaced by another one, the template is the
  one that was chosen before, with the values replaced, and a refusal stays what it was. One lemma
  for each kind of instruction; this is the only place where the kinds are gone through.
* **Shapes** (`Template.shape`): what is left of a template without its values, the sizes of its
  fields and which of them are foreign. Two operands are *alike* if they differ at most in the value
  that they stand for. With one value in place of all others they are the same, so alike operands are
  refused for the same reason, or get templates of one shape (`select_shape`).
* **Encoding** (`encode_survey`): what one pass encodes, the survey encodes in as many bytes, with
  alike operands.
-/

namespace CrossAssembler

/-! ### Replacing values -/

/-- An operand with its value replaced. -/
def Operand.mapTerm (g : Term → Term) : Operand → Operand
  | direct t => direct (g t)
  | immediate t => immediate (g t)
  | x => x

/-- A field with its value replaced. -/
def Field.mapTerm (g : Term → Term) : Field → Field
  | byteOf t what => byteOf (g t) what
  | wordOf t what => wordOf (g t) what
  | offsetTo t => offsetTo (g t)
  | restartAt t => restartAt (g t)
  | modeOf t => modeOf (g t)
  | bitNumber opcode t => bitNumber opcode (g t)
  | f => f

/-- A template with its values replaced. -/
def Template.mapTerm (g : Term → Term) (w : Template) : Template :=
  w.map (Field.mapTerm g)

/-- A selection with the values of its template replaced. -/
def Selection.mapTerm (g : Term → Term) (s : Selection) : Selection :=
  s.map (Template.mapTerm g)

section Values

variable (g : Term → Term)

theorem Template.mapTerm_bytes (bytes : List UInt8) :
    Template.mapTerm g (bytes.map Field.byte) = bytes.map Field.byte := by
  rw [Template.mapTerm, List.map_map]
  rfl

theorem Field.mapTerm_ofElement (element : Option Int) :
    (Field.ofElement element).mapTerm g = Field.ofElement element := by
  unfold Field.ofElement
  split
  · split <;> rfl
  · rfl

theorem Operand.condition?_mapTerm (x : Operand) : (x.mapTerm g).condition? = x.condition? := by
  cases x <;> rfl

namespace MemoryForm

variable {x : Operand} {m : MemoryForm}

/-- A byte in memory has no value. -/
theorem mapTerm_eq (h : x.memory? = some m) :
    Template.mapTerm g m.index = m.index ∧ Template.mapTerm g m.displacement = m.displacement := by
  unfold Operand.memory? at h
  split at h
  · cases h
    exact ⟨rfl, rfl⟩
  · cases h
    exact ⟨rfl, rfl⟩
  · cases h
    exact ⟨congrArg ([·]) (Field.mapTerm_ofElement g _),
      congrArg ([·]) (Field.mapTerm_ofElement g _)⟩
  · cases h

theorem mapTerm_around (h : x.memory? = some m) (opcode : UInt8) :
    Template.mapTerm g (m.around opcode) = m.around opcode := by
  obtain ⟨hindex, hdisplacement⟩ := mapTerm_eq g h
  unfold Template.mapTerm at *
  rw [around, List.map_append, List.map_append, hindex, hdisplacement]
  rfl

theorem mapTerm_onBitPage (h : x.memory? = some m) (opcode : Field) :
    Template.mapTerm g (m.onBitPage opcode) = m.onBitPage (opcode.mapTerm g) := by
  obtain ⟨hindex, hdisplacement⟩ := mapTerm_eq g h
  unfold Template.mapTerm at *
  rw [onBitPage, List.map_append, List.map_append, List.map_append, hindex, hdisplacement]
  rfl

end MemoryForm

namespace Instruction

/-- A form that a code completes has no value if none of its fields has one. -/
theorem mapTerm_orForm {w : UInt8 → Template} (hw : ∀ code, Template.mapTerm g (w code) = w code)
    (code? : Option UInt8) :
    Selection.mapTerm g (orForm (code?.map w)) = orForm (code?.map w) := by
  cases code? with
  | none => rfl
  | some code => exact congrArg Except.ok (hw code)

/-- An instruction on a byte in memory has no value. -/
theorem mapTerm_ok_around {x : Operand} {m : MemoryForm} (h : x.memory? = some m) (opcode : UInt8) :
    Selection.mapTerm g (.ok (m.around opcode)) = .ok (m.around opcode) :=
  congrArg Except.ok (MemoryForm.mapTerm_around g h opcode)

/-! ### Kinds of instructions -/

theorem loadRegister_mapTerm (dst : Named Register8) (x : Operand) :
    loadRegister dst (x.mapTerm g) = Selection.mapTerm g (loadRegister dst x) := by
  cases dst with
  | error name => rfl
  | ok r =>
    -- the source tells the form, and only a value of one byte is replaced in it
    cases x with
    | register s => cases s <;> rfl
    | direct t => cases r <;> rfl
    | special s => cases s <;> cases r <;> rfl
    | atIndex index displacement =>
      have hmemory : (Operand.atIndex index displacement).memory? = some _ := rfl
      exact (mapTerm_ok_around g hmemory _).symm
    | atPair p =>
      cases p with
      | bc => cases r <;> rfl
      | de => cases r <;> rfl
      | _ => rfl
    | _ => rfl

theorem storeMemory_mapTerm {x : Operand} {m : MemoryForm} (h : x.memory? = some m)
    (y : Operand) :
    storeMemory m (y.mapTerm g) = Selection.mapTerm g (storeMemory m y) := by
  cases y with
  | register s =>
    cases s with
    | error name => rfl
    | ok s => exact (mapTerm_ok_around g h _).symm
  | immediate t =>
    have haround := MemoryForm.mapTerm_around g h 0x36
    unfold Template.mapTerm at haround
    refine congrArg Except.ok ?_
    rw [Template.mapTerm, List.map_append, haround]
    rfl
  | _ => rfl

theorem loadPair_mapTerm (dst : Pair) (x : Operand) :
    loadPair dst (x.mapTerm g) = Selection.mapTerm g (loadPair dst x) := by
  cases x with
  | direct t => cases dst <;> rfl
  | immediate t => cases dst <;> rfl
  | pair p =>
    cases p with
    | error name => cases dst <;> rfl
    | ok p => cases dst <;> cases p <;> rfl
  | _ => cases dst <;> rfl

theorem storeAccumulator_mapTerm (dst : Operand) (transfer : Template) (src : Operand) :
    storeAccumulator (dst.mapTerm g) (Template.mapTerm g transfer) (src.mapTerm g) =
      Selection.mapTerm g (storeAccumulator dst transfer src) := by
  -- the form for the accumulator is given, and pairs have one of their own at an address
  cases src with
  | register s =>
    cases s with
    | error name => cases dst <;> rfl
    | ok s => cases s <;> cases dst <;> rfl
  | pair p =>
    cases p with
    | error name => cases dst <;> rfl
    | ok p =>
      cases dst with
      | direct t => cases p <;> rfl
      | _ => rfl
  | _ => cases dst <;> rfl

theorem load_mapTerm (x y : Operand) :
    load (x.mapTerm g) (y.mapTerm g) = Selection.mapTerm g (load x y) := by
  -- the destination tells which of the lemmas above applies
  cases x with
  | register r => exact loadRegister_mapTerm g r y
  | pair p =>
    cases p with
    | error name => rfl
    | ok p => exact loadPair_mapTerm g p y
  | direct t => exact storeAccumulator_mapTerm g (.direct t) [.byte 0x32, .wordOf t "address"] y
  | special s =>
    cases s with
    | i => exact storeAccumulator_mapTerm g (.special .i) [.byte extendedPage, .byte 0x47] y
    | r => exact storeAccumulator_mapTerm g (.special .r) [.byte extendedPage, .byte 0x4F] y
  | atIndex index displacement =>
    have hmemory : (Operand.atIndex index displacement).memory? = some _ := rfl
    exact storeMemory_mapTerm g hmemory y
  | atPair p =>
    cases p with
    | hl =>
      have hmemory : (Operand.atPair .hl).memory? = some _ := rfl
      exact storeMemory_mapTerm g hmemory y
    | index r =>
      have hmemory : (Operand.atPair (.index r)).memory? = some _ := rfl
      exact storeMemory_mapTerm g hmemory y
    | bc => exact storeAccumulator_mapTerm g (.atPair .bc) [.byte 0x02] y
    | de => exact storeAccumulator_mapTerm g (.atPair .de) [.byte 0x12] y
    | _ => rfl
  | _ => rfl

theorem stack_mapTerm (opcode : UInt8) (x : Operand) :
    stack opcode (x.mapTerm g) = Selection.mapTerm g (stack opcode x) := by
  cases x with
  | pair p =>
    cases p with
    | error name => rfl
    | ok p => cases p <;> rfl
  | _ => rfl

theorem exchange_mapTerm (x y : Operand) :
    exchange (x.mapTerm g) (y.mapTerm g) = Selection.mapTerm g (exchange x y) := by
  -- an exchange holds no value, and an operand with a value takes part in none
  have hfixed : Selection.mapTerm g (exchange x y) = exchange x y := by
    unfold exchange
    split <;> rfl
  rw [hfixed]
  cases x with
  | pair p =>
    cases p with
    | error name => cases y <;> rfl
    | ok p => cases p <;> cases y <;> rfl
  | atPair p => cases p <;> cases y <;> rfl
  | _ => cases y <;> rfl

theorem arithmetic_mapTerm (op : AluOp) (x : Operand) :
    arithmetic op (x.mapTerm g) = Selection.mapTerm g (arithmetic op x) := by
  cases x with
  | register s => cases s <;> rfl
  | atPair p => cases p <;> rfl
  | atIndex index displacement =>
    have hmemory : (Operand.atIndex index displacement).memory? = some _ := rfl
    exact (mapTerm_ok_around g hmemory _).symm
  | _ => rfl

theorem pairArithmetic_mapTerm (op : AluOp) (dst src : Named Pair) :
    Selection.mapTerm g (pairArithmetic op dst src) = pairArithmetic op dst src := by
  unfold pairArithmetic
  split
  · exact mapTerm_orForm g (fun _ => rfl) _
  · exact mapTerm_orForm g (fun _ => rfl) _
  · exact mapTerm_orForm g (fun _ => rfl) _
  · exact mapTerm_orForm g (fun _ => rfl) _
  · rfl

theorem count_mapTerm (step : UInt8) (x : Operand) :
    count step (x.mapTerm g) = Selection.mapTerm g (count step x) := by
  cases x with
  | register r => cases r <;> rfl
  | pair p =>
    cases p with
    | error name => rfl
    | ok p => cases p <;> rfl
  | atPair p => cases p <;> rfl
  | atIndex index displacement =>
    have hmemory : (Operand.atIndex index displacement).memory? = some _ := rfl
    exact (mapTerm_ok_around g hmemory _).symm
  | _ => rfl

theorem conditional_mapTerm (opcode : UInt8) (what : String) (x y : Operand) :
    conditional opcode what (x.mapTerm g) (y.mapTerm g) =
      Selection.mapTerm g (conditional opcode what x y) := by
  unfold conditional
  rw [Operand.condition?_mapTerm]
  cases x.condition? with
  | none => rfl
  | some named =>
    cases y with
    | immediate t => cases named <;> rfl
    | _ => rfl

theorem input_mapTerm (x y : Operand) :
    input (x.mapTerm g) (y.mapTerm g) = Selection.mapTerm g (input x y) := by
  cases x with
  | register r =>
    cases r with
    | error name => cases y <;> rfl
    | ok r => cases r <;> cases y <;> rfl
  | _ => rfl

theorem output_mapTerm (x y : Operand) :
    output (x.mapTerm g) (y.mapTerm g) = Selection.mapTerm g (output x y) := by
  cases y with
  | register r =>
    cases r with
    | error name => cases x <;> rfl
    | ok r => cases r <;> cases x <;> rfl
  | _ => cases x <;> rfl

theorem onBitPage_mapTerm (opcode : UInt8 → Field) (x : Operand) :
    onBitPage (fun field => (opcode field).mapTerm g) (x.mapTerm g) =
      Selection.mapTerm g (onBitPage opcode x) := by
  cases x with
  | register r => cases r <;> rfl
  | atPair p => cases p <;> rfl
  | atIndex index displacement =>
    have hmemory : (Operand.atIndex index displacement).memory? = some _ := rfl
    exact congrArg Except.ok (MemoryForm.mapTerm_onBitPage g hmemory _).symm
  | _ => rfl

theorem bit_mapTerm (op : BitOp) (x y : Operand) :
    bit op (x.mapTerm g) (y.mapTerm g) = Selection.mapTerm g (bit op x y) := by
  cases x with
  | immediate t =>
    exact onBitPage_mapTerm g
      (fun field => .bitNumber (Opcode.low (Opcode.group op.code) field) t) y
  | _ => rfl

/-! ### Numbers of operands -/

/-- A selection that refuses three operands and more for one reason does not depend on values if it
does not on at most two operands. -/
theorem upToTwo_mapTerm {choose : List Operand → Selection}
    (hnone : Selection.mapTerm g (choose []) = choose [])
    (hone : ∀ x, choose [x.mapTerm g] = Selection.mapTerm g (choose [x]))
    (htwo : ∀ x y, choose [x.mapTerm g, y.mapTerm g] = Selection.mapTerm g (choose [x, y]))
    (hmore : ∃ refusal, ∀ x y z rest, choose (x :: y :: z :: rest) = .error refusal)
    (xs : List Operand) :
    choose (xs.map (Operand.mapTerm g)) = Selection.mapTerm g (choose xs) := by
  obtain ⟨refusal, hmore⟩ := hmore
  -- any number of operands that is not refused outright has its hypothesis
  rcases xs with _ | ⟨x, _ | ⟨y, _ | ⟨z, rest⟩⟩⟩
  · exact hnone.symm
  · exact hone x
  · exact htwo x y
  · rw [List.map_cons, List.map_cons, List.map_cons, hmore, hmore]
    rfl

theorem oneOperand_mapTerm {choose : Operand → Selection}
    (h : ∀ x, choose (x.mapTerm g) = Selection.mapTerm g (choose x)) (xs : List Operand) :
    oneOperand choose (xs.map (Operand.mapTerm g)) = Selection.mapTerm g (oneOperand choose xs) :=
  upToTwo_mapTerm g rfl h (fun _ _ => rfl) ⟨_, fun _ _ _ _ => rfl⟩ xs

theorem twoOperands_mapTerm {choose : Operand → Operand → Selection}
    (h : ∀ x y, choose (x.mapTerm g) (y.mapTerm g) = Selection.mapTerm g (choose x y))
    (xs : List Operand) :
    twoOperands choose (xs.map (Operand.mapTerm g)) =
      Selection.mapTerm g (twoOperands choose xs) :=
  upToTwo_mapTerm g rfl (fun _ => rfl) h ⟨_, fun _ _ _ _ => rfl⟩ xs

theorem noOperand_mapTerm {w : Template} (h : Template.mapTerm g w = w) (xs : List Operand) :
    noOperand w (xs.map (Operand.mapTerm g)) = Selection.mapTerm g (noOperand w xs) := by
  cases xs with
  | nil => exact congrArg Except.ok h.symm
  | cons x xs => rfl

theorem oneValue_mapTerm {template : Term → Template}
    (h : ∀ t, template (g t) = Template.mapTerm g (template t)) (xs : List Operand) :
    oneValue template (xs.map (Operand.mapTerm g)) =
      Selection.mapTerm g (oneValue template xs) := by
  refine oneOperand_mapTerm g (fun x => ?_) xs
  cases x with
  | immediate t => exact congrArg Except.ok (h t)
  | _ => rfl

theorem alu_mapTerm (op : AluOp) (xs : List Operand) :
    alu op (xs.map (Operand.mapTerm g)) = Selection.mapTerm g (alu op xs) := by
  refine upToTwo_mapTerm g rfl ?_ ?_ ⟨.arity 1, fun _ _ _ _ => by simp only [alu]⟩ xs
  · intro x
    simpa only [alu] using arithmetic_mapTerm g op x
  · intro x y
    cases x with
    | register s =>
      cases s with
      | error name => cases y <;> rfl
      | ok s =>
        cases s with
        | a =>
          -- the accumulator written out is left away
          change alu op [.register (.ok .a), y.mapTerm g] = _
          simpa only [alu] using arithmetic_mapTerm g op y
        | _ => cases y <;> rfl
    | pair p =>
      cases y with
      | pair q => exact (pairArithmetic_mapTerm g op p q).symm
      | _ => rfl
    | _ => cases y <;> rfl

theorem jump_mapTerm (xs : List Operand) :
    jump (xs.map (Operand.mapTerm g)) = Selection.mapTerm g (jump xs) := by
  refine upToTwo_mapTerm g rfl ?_ ?_ ⟨.arity 2, fun _ _ _ _ => by simp only [jump]⟩ xs
  · intro x
    cases x with
    | atPair p => cases p <;> rfl
    | _ => rfl
  · intro x y
    simpa only [jump] using conditional_mapTerm g _ _ x y

theorem call_mapTerm (xs : List Operand) :
    call (xs.map (Operand.mapTerm g)) = Selection.mapTerm g (call xs) := by
  refine upToTwo_mapTerm g rfl ?_ ?_ ⟨.arity 2, fun _ _ _ _ => by simp only [call]⟩ xs
  · intro x
    cases x <;> rfl
  · intro x y
    simpa only [call] using conditional_mapTerm g _ _ x y

theorem ret_mapTerm (xs : List Operand) :
    ret (xs.map (Operand.mapTerm g)) = Selection.mapTerm g (ret xs) := by
  refine upToTwo_mapTerm g rfl ?_ (fun _ _ => rfl) ⟨_, fun _ _ _ _ => rfl⟩ xs
  intro x
  rw [ret, ret, Operand.condition?_mapTerm]
  cases x.condition? with
  | none => rfl
  | some named => cases named <;> rfl

theorem relativeJump_mapTerm (xs : List Operand) :
    relativeJump (xs.map (Operand.mapTerm g)) = Selection.mapTerm g (relativeJump xs) := by
  refine upToTwo_mapTerm g rfl ?_ ?_ ⟨.arity 2, fun _ _ _ _ => by simp only [relativeJump]⟩ xs
  · intro x
    cases x <;> rfl
  · intro x y
    have hopcode : relativeOpcode? (x.mapTerm g) = relativeOpcode? x := by
      unfold relativeOpcode?
      rw [Operand.condition?_mapTerm]
    simp only [relativeJump, hopcode]
    cases relativeOpcode? x with
    | none => rfl
    | some opcode => cases y <;> rfl

/-- The choice of a form does not depend on values. -/
theorem select_mapTerm (m : Mnemonic) (xs : List Operand) :
    select m (xs.map (Operand.mapTerm g)) = Selection.mapTerm g (select m xs) := by
  -- one line for each mnemonic, with the lemma of its kind
  cases m with
  | ld => exact twoOperands_mapTerm g (load_mapTerm g) xs
  | push => exact oneOperand_mapTerm g (stack_mapTerm g _) xs
  | pop => exact oneOperand_mapTerm g (stack_mapTerm g _) xs
  | ex => exact twoOperands_mapTerm g (exchange_mapTerm g) xs
  | inc => exact oneOperand_mapTerm g (count_mapTerm g _) xs
  | dec => exact oneOperand_mapTerm g (count_mapTerm g _) xs
  | jp => exact jump_mapTerm g xs
  | jr => exact relativeJump_mapTerm g xs
  | djnz => exact oneValue_mapTerm g (fun _ => rfl) xs
  | call => exact call_mapTerm g xs
  | ret => exact ret_mapTerm g xs
  | rst => exact oneValue_mapTerm g (fun _ => rfl) xs
  | im => exact oneValue_mapTerm g (fun _ => rfl) xs
  | input => exact twoOperands_mapTerm g (input_mapTerm g) xs
  | output => exact twoOperands_mapTerm g (output_mapTerm g) xs
  | alu op => exact alu_mapTerm g op xs
  | rotate op =>
    exact oneOperand_mapTerm g
      (onBitPage_mapTerm g fun field => .byte (Opcode.low (Opcode.middle 0 op.code) field)) xs
  | bit op => exact twoOperands_mapTerm g (bit_mapTerm g op) xs
  | implied op => exact noOperand_mapTerm g (Template.mapTerm_bytes g op.code) xs
  | fused branch cc =>
    -- the condition in the mnemonic is one more operand, without a value
    cases branch with
    | jp => exact jump_mapTerm g (.condition (.ok cc) :: xs)
    | call => exact call_mapTerm g (.condition (.ok cc) :: xs)
    | ret => exact ret_mapTerm g (.condition (.ok cc) :: xs)
    | jr => exact relativeJump_mapTerm g (.condition (.ok cc) :: xs)
  | fusedMode mode => exact noOperand_mapTerm g rfl xs

end Instruction

end Values

/-! ### Alike operands -/

/-- Operands that differ at most in their values. The selection of a template cannot tell them apart, so
their templates have the same shape. -/
inductive Operand.Alike : Operand → Operand → Prop where
  | refl (x : Operand) : Alike x x
  | direct (t t' : Term) : Alike (direct t) (direct t')
  | immediate (t t' : Term) : Alike (immediate t) (immediate t')

/-- With any value in its place, the value that two operands differ in is gone. -/
theorem Operand.Alike.mapTerm_eq {x x' : Operand} (h : x.Alike x') (t : Term) :
    x.mapTerm (fun _ => t) = x'.mapTerm (fun _ => t) := by
  cases h <;> rfl

/-- Items of one kind that are alike as operands. -/
structure Item.Alike (i i' : Item) : Prop where
  kind_eq : i.kind = i'.kind
  operand : (Operand.ofItem i).Alike (Operand.ofItem i')

namespace Item

theorem Alike.refl (i : Item) : i.Alike i :=
  ⟨rfl, .refl _⟩

/-- Two numbers, or two addresses between brackets, are alike. -/
theorem alike_ofNumber {kind : ItemKind} (hkind : kind = .number ∨ kind = .indirectImmediate)
    (value value' : Int) (place : Location) :
    (ofNumber value place kind).Alike (ofNumber value' place kind) := by
  refine ⟨rfl, ?_⟩
  rcases hkind with rfl | rfl
  · exact .immediate _ _
  · exact .direct _ _

end Item

/-! ### Shapes -/

/-- The size of a field, and whether it is solid. -/
def Field.shape (f : Field) : Nat × Bool :=
  (f.size, f.isSolid)

namespace Template

/-- A template without its values. It is all that the survey needs to know of an instruction: how long it
is, and whether it can be encoded at all. -/
def shape (w : Template) : List (Nat × Bool) :=
  w.map Field.shape

/-- Other values leave the shape as it is. -/
theorem shape_mapTerm (g : Term → Term) (w : Template) : (w.mapTerm g).shape = w.shape := by
  unfold shape mapTerm
  rw [List.map_map]
  refine List.map_congr_left fun f _ => ?_
  cases f <;> rfl

theorem size_eq_of_shape {w w' : Template} (h : w.shape = w'.shape) : w.size = w'.size := by
  -- both templates have as many fields, since their shapes are one list
  induction w generalizing w' with
  | nil =>
    cases w' with
    | nil => rfl
    | cons g gs => cases h
  | cons f fs ih =>
    cases w' with
    | nil => cases h
    | cons g gs =>
      obtain ⟨hhead, htail⟩ := List.cons.inj h
      have hsize : f.size = g.size := congrArg Prod.fst hhead
      change f.size + size fs = g.size + size gs
      rw [hsize, ih htail]

theorem Solid.of_shape {w w' : Template} (hw : w.Solid) (h : w.shape = w'.shape) : w'.Solid := by
  intro f hf
  have hmem : f.shape ∈ w.shape := h ▸ List.mem_map_of_mem hf
  obtain ⟨g, hg, hshape⟩ := List.mem_map.1 hmem
  have hsolid : g.isSolid = f.isSolid := congrArg Prod.snd hshape
  rw [← hsolid]
  exact hw g hg

end Template

/-- What is left of a selection without values: why it is refused, or the shape of the template. -/
def Selection.shape (s : Selection) : Except Refusal (List (Nat × Bool)) :=
  s.map Template.shape

theorem Selection.shape_mapTerm (g : Term → Term) (s : Selection) :
    Selection.shape (s.mapTerm g) = s.shape := by
  cases s with
  | error refusal => rfl
  | ok w => exact congrArg Except.ok (Template.shape_mapTerm g w)

namespace Instruction

/-- **The shape of an instruction does not depend on values.** Alike operands are refused for the
same reason, or get templates of one shape. -/
theorem select_shape (m : Mnemonic) {ops ops' : List Operand}
    (h : List.Forall₂ Operand.Alike ops ops') :
    Selection.shape (select m ops) = Selection.shape (select m ops') := by
  -- any value will do in place of all others
  let blank : Term → Term := fun _ => ⟨.literal 0, "", 0, 0⟩
  have hsame : ops.map (Operand.mapTerm blank) = ops'.map (Operand.mapTerm blank) := by
    induction h with
    | nil => rfl
    | cons hx _ ih => rw [List.map_cons, List.map_cons, hx.mapTerm_eq, ih]
  calc Selection.shape (select m ops)
      = Selection.shape (select m (ops.map (Operand.mapTerm blank))) := by
        rw [select_mapTerm, Selection.shape_mapTerm]
    _ = Selection.shape (select m (ops'.map (Operand.mapTerm blank))) := by rw [hsame]
    _ = Selection.shape (select m ops') := by rw [select_mapTerm, Selection.shape_mapTerm]

/-! ### Encoding -/

/-- The operands that alike items mean are alike, under one plain mnemonic. -/
theorem meant_alike (m : Mnemonic) {items items' : List Item}
    (h : List.Forall₂ Item.Alike items items') (location : Location) :
    (unfuse m items location).1 = (unfuse m items' location).1 ∧
      List.Forall₂ Operand.Alike (meant m items location) (meant m items' location) := by
  have hmeant : List.Forall₂ Operand.Alike (items.map Operand.ofItem)
      (items'.map Operand.ofItem) := by
    rw [List.forall₂_map_left_iff, List.forall₂_map_right_iff]
    exact h.imp fun _ _ halike => halike.operand
  cases m with
  | fused branch cc => exact ⟨rfl, .cons (.refl _) hmeant⟩
  | _ => exact ⟨rfl, hmeant⟩

/-- **What one pass encodes, the survey encodes in as many bytes**, at any address, under any table
and with any numbers in place of those written. -/
theorem encode_survey {ctx : Context} (ctx' : Context) (hpass : ctx'.pass = .survey) {m : Mnemonic}
    {items items' : List Item} (halike : List.Forall₂ Item.Alike items items')
    {location : Location} {bytes : List UInt8} (h : encode ctx m items location = .ok bytes) :
    ∃ bytes', encode ctx' m items' location = .ok bytes' ∧ bytes'.length = bytes.length := by
  obtain ⟨-, w, hw, hemit⟩ := encode_eq_ok_iff.1 h
  obtain ⟨hplain, hmeant⟩ := meant_alike m halike location
  -- the other operands get a template too, and of the same shape
  have hshape := select_shape (unfuse m items location).1 hmeant
  rw [hw] at hshape
  obtain ⟨w', hw', hshape⟩ := map_eq_ok_iff.1 hshape.symm
  have hsolid : Template.Solid w' := (Template.solid_of_emit hemit).of_shape hshape.symm
  obtain ⟨bytes', hemit'⟩ := Template.exists_emit_survey hpass hsolid
  refine ⟨bytes', encode_eq_ok_iff.2 ⟨checkBit_survey hpass _ _, w', hplain ▸ hw', hemit'⟩, ?_⟩
  rw [Template.length_emit hemit', Template.length_emit hemit]
  exact Template.size_eq_of_shape hshape

end Instruction

end CrossAssembler
