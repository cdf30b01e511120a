import CrossAssembler.Proofs.Instruction.Emission

/-!
# Offsets

The bytes of an instruction do not depend on where it stands, with one exception: the offset of a
relative jump is counted from the end of the jump. So at another address an instruction gives the
same bytes, or the same report, or it is a relative jump.

* **Offsets** (`Form.offset_cases`): a template holds no offset, or it is an opcode and an offset.
* **Addresses** (`encode_cases`): an instruction without offset is encoded alike at every address, and
  one with an offset is encoded by its offset.
* **Sizes** (`encode_size`): an instruction takes one to four bytes.
-/

namespace CrossAssembler

/-- The same pass and table at another address. -/
def Context.moved (ctx : Context) (address : Int) : Context :=
  { ctx with address := address }

namespace Field

/-- The term that a field counts the distance to. -/
def target? : Field → Option Term
  | offsetTo t => some t
  | _ => none

theorem target?_ofElement (element : Option Int) : (ofElement element).target? = none := by
  unfold ofElement
  split
  · split <;> rfl
  · rfl

theorem size_ofElement (element : Option Int) : (ofElement element).size = 1 := by
  unfold ofElement
  split
  · split <;> rfl
  · rfl

theorem emit_moved (ctx : Context) (address : Int) {f : Field} (hf : f.target? = none) :
    f.emit (ctx.moved address) = f.emit ctx := by
  cases f with
  | offsetTo t => cases hf
  | foreign element => cases element <;> rfl
  | _ => rfl

end Field

namespace Template

/-- A template without an offset. Its bytes are the same at every address. -/
def Fixed (w : Template) : Prop :=
  ∀ f ∈ w, f.target? = none

theorem fixed_append {v w : Template} : Fixed (v ++ w) ↔ v.Fixed ∧ w.Fixed :=
  List.forall_mem_append

theorem size_append (v w : Template) : size (v ++ w) = size v + size w := by
  induction v with
  | nil => exact (Nat.zero_add _).symm
  | cons f fs ih =>
    change f.size + size (fs ++ w) = f.size + size fs + size w
    rw [ih, Nat.add_assoc]

theorem size_singleton (f : Field) : size [f] = f.size :=
  rfl

/-- A template without an offset gives the same bytes, or the same report, at every address. -/
theorem emit_moved (ctx : Context) (address : Int) {w : Template} (hw : w.Fixed) :
    Template.emit (ctx.moved address) w = Template.emit ctx w := by
  induction w with
  | nil => rfl
  | cons f fs ih =>
    have hrest := ih fun g hg => hw g (List.mem_cons_of_mem _ hg)
    rw [Template.emit, Template.emit, hrest, Field.emit_moved ctx address (hw f List.mem_cons_self)]

end Template

/-! ### Offsets and sizes of forms -/

/-- What a byte in memory adds to an instruction: nothing, or two fields of one byte. -/
theorem Operand.memory_fields {x : Operand} {m : MemoryForm} (h : x.memory? = some m) :
    (m.index = [] ∧ m.displacement = []) ∨
      ∃ f g : Field, m.index = [f] ∧ m.displacement = [g] ∧
        (f.target? = none ∧ f.size = 1) ∧ g.target? = none ∧ g.size = 1 := by
  unfold Operand.memory? at h
  split at h
  · cases h
    exact .inl ⟨rfl, rfl⟩
  · cases h
    exact .inr ⟨_, _, rfl, rfl, ⟨rfl, rfl⟩, rfl, rfl⟩
  · cases h
    exact .inr ⟨_, _, rfl, rfl, ⟨Field.target?_ofElement _, Field.size_ofElement _⟩,
      Field.target?_ofElement _, Field.size_ofElement _⟩
  · cases h

/-- Templates that hold no offset, of one to four bytes. -/
structure Template.Plain (w : Template) : Prop where
  fixed : w.Fixed
  size_pos : 0 < w.size
  size_le : w.size ≤ 4

/-- A template whose fields are written out is plain by a look at their kinds. -/
theorem Template.Plain.of_all {w : Template} (hfixed : (w.all fun f => f.target?.isNone) = true)
    (hsize : (Nat.blt 0 w.size && Nat.ble w.size 4) = true) : w.Plain := by
  obtain ⟨hpos, hle⟩ := Bool.and_eq_true_iff.1 hsize
  refine ⟨fun f hf => ?_, Nat.le_of_ble_eq_true hpos, Nat.le_of_ble_eq_true hle⟩
  exact Option.isNone_iff_eq_none.1 (List.all_eq_true.1 hfixed f hf)

namespace Operand

variable {x : Operand} {m : MemoryForm}

/-- An instruction on a byte in memory holds no offset if its last field is none. -/
theorem plain_fields (h : x.memory? = some m) (opcode : UInt8) {last : Template}
    (hlast : last.Fixed) (hsize : last.size ≤ 1) :
    Template.Plain (m.index ++ [.byte opcode] ++ m.displacement ++ last) := by
  have hsum : Template.size (m.index ++ [.byte opcode] ++ m.displacement ++ last) =
      Template.size m.index + 1 + Template.size m.displacement + last.size := by
    rw [Template.size_append, Template.size_append, Template.size_append, Template.size_singleton]
    rfl
  have hopcode : Template.Fixed [.byte opcode] := List.forall_mem_singleton.2 rfl
  -- what the operand contributes is two single bytes at most, and no offset
  have hboth : Template.Fixed m.index ∧ Template.Fixed m.displacement ∧
      Template.size m.index ≤ 1 ∧ Template.size m.displacement ≤ 1 := by
    rcases memory_fields h with ⟨hindex, hdisplacement⟩ | ⟨f, g, hindex, hdisplacement, hf, hg⟩
    · rw [hindex, hdisplacement]
      exact ⟨nofun, nofun, Nat.zero_le 1, Nat.zero_le 1⟩
    · rw [hindex, hdisplacement, Template.size_singleton, Template.size_singleton]
      exact ⟨List.forall_mem_singleton.2 hf.1, List.forall_mem_singleton.2 hg.1, hf.2.le, hg.2.le⟩
  obtain ⟨hindex, hdisplacement, hsizes⟩ := hboth
  refine ⟨?_, ?_, ?_⟩
  · rw [Template.fixed_append, Template.fixed_append, Template.fixed_append]
    exact ⟨⟨⟨hindex, hopcode⟩, hdisplacement⟩, hlast⟩
  · omega
  · omega

theorem plain_around (h : x.memory? = some m) (opcode : UInt8) :
    Template.Plain (m.around opcode) := by
  have hplain : Template.Plain (m.around opcode ++ []) :=
    plain_fields h opcode nofun (Nat.zero_le 1)
  rwa [List.append_nil] at hplain

theorem plain_accumulatorTransfer {load : Bool} {w : Template}
    (h : x.accumulatorTransfer? load = some w) : w.Plain := by
  unfold accumulatorTransfer? at h
  split at h
  all_goals cases h
  all_goals exact .of_all rfl rfl

end Operand

theorem Pair.plain_transfer {load : Bool} {t : Term} {p : Pair} {w : Template}
    (h : p.transfer? load t = some w) : w.Plain := by
  unfold Pair.transfer? at h
  split at h
  · cases h
    exact .of_all rfl rfl
  · cases h
    exact .of_all rfl rfl
  · obtain ⟨code, -, rfl⟩ := Option.map_eq_some_iff.1 h
    exact .of_all rfl rfl

namespace Instruction

theorem LoadForm.plain {x y : Operand} {w : Template} (h : LoadForm x y w) : w.Plain := by
  cases h with
  | memory r h => exact Operand.plain_around h _
  | accumulator h => exact Operand.plain_accumulatorTransfer h
  | storeRegister h s => exact Operand.plain_around h _
  | storeImmediate h t =>
    exact Operand.plain_fields h _ (List.forall_mem_singleton.2 rfl) (Nat.le_refl 1)
  | storeAccumulator h => exact Operand.plain_accumulatorTransfer h
  | storePair h => exact Pair.plain_transfer h
  | pairDirect h => exact Pair.plain_transfer h
  | _ => exact .of_all rfl rfl

theorem StackForm.plain {opcode : UInt8} {x : Operand} {w : Template} (h : StackForm opcode x w) :
    w.Plain := by
  cases h <;> exact .of_all rfl rfl

theorem CountForm.plain {step : UInt8} {x : Operand} {w : Template} (h : CountForm step x w) :
    w.Plain := by
  cases h with
  | memory h => exact Operand.plain_around h _
  | _ => exact .of_all rfl rfl

theorem SourceForm.plain {op : AluOp} {x : Operand} {w : Template} (h : SourceForm op x w) :
    w.Plain := by
  cases h with
  | memory h => exact Operand.plain_around h _
  | _ => exact .of_all rfl rfl

theorem plain_implied (op : ImpliedOp) : Template.Plain (op.code.map .byte) := by
  cases op <;> exact .of_all rfl rfl

/-- **Offsets and sizes.** A template holds no offset and takes one to four bytes, or it is the
opcode and the offset of a relative jump. -/
theorem Form.offset_cases {m : Mnemonic} {ops : List Operand} {w : Template} (h : Form m ops w) :
    w.Plain ∨ ∃ opcode t, w = [.byte opcode, .offsetTo t] ∧ ∀ ctx, checkBit ctx m ops = .ok () := by
  -- only relative jumps hold an offset; a fused mnemonic has the template of the branch it stands for
  induction h with
  | load h => exact .inl h.plain
  | push h => exact .inl h.plain
  | pop h => exact .inl h.plain
  | inc h => exact .inl h.plain
  | dec h => exact .inl h.plain
  | source h => exact .inl h.plain
  | accumulatorSource h => exact .inl h.plain
  | rotateMemory op h =>
    exact .inl (Operand.plain_fields h _ (List.forall_mem_singleton.2 rfl) (Nat.le_refl 1))
  | bitMemory op t h =>
    exact .inl (Operand.plain_fields h _ (List.forall_mem_singleton.2 rfl) (Nat.le_refl 1))
  | implied op => exact .inl (plain_implied op)
  | relative t => exact .inr ⟨_, t, rfl, fun _ => rfl⟩
  | relativeIf h hop t => exact .inr ⟨_, t, rfl, fun _ => rfl⟩
  | loop t => exact .inr ⟨_, t, rfl, fun _ => rfl⟩
  | fused branch cc h ih =>
    rcases ih with hplain | ⟨opcode, t, hw, -⟩
    · exact .inl hplain
    · exact .inr ⟨opcode, t, hw, fun _ => rfl⟩
  | _ => exact .inl (.of_all rfl rfl)

/-! ### Encoding at another address -/

/-- The term that the offset of an instruction leads to. -/
def target? (m : Mnemonic) (items : List Item) (location : Location) : Option Term :=
  match select (unfuse m items location).1 (meant m items location) with
  | .ok w => w.findSome? Field.target?
  | .error _ => none

theorem checkBit_moved (ctx : Context) (address : Int) (m : Mnemonic) (ops : List Operand) :
    checkBit (ctx.moved address) m ops = checkBit ctx m ops := by
  unfold checkBit
  split <;> rfl

/-- The steps of an encoding, one behind the other. -/
theorem encode_eq (ctx : Context) (m : Mnemonic) (items : List Item) (location : Location) :
    encode ctx m items location =
      (checkBit ctx (unfuse m items location).1 (meant m items location) >>= fun _ =>
        (select (unfuse m items location).1 (meant m items location)).mapError
            (·.toFailure (unfuse m items location).1.name (unfuse m items location).2 location) >>=
          Template.emit ctx) :=
  rfl

/-- An opcode and an offset: only the offset can fail. -/
theorem emit_offset (ctx : Context) (opcode : UInt8) (t : Term) :
    Template.emit ctx [.byte opcode, .offsetTo t] =
      (ctx.offsetByte t).map fun b => [opcode, b] := by
  rw [Template.emit, Template.emit, Template.emit]
  change (Except.ok [opcode] >>= fun front => ((ctx.offsetByte t).map (fun b => [b]) >>= _) >>= _) = _
  cases ctx.offsetByte t <;> rfl

/-- **Only offsets depend on the address.** An instruction without offset is encoded, or refused,
alike at every address. Any other one is a relative jump, and fails only by its offset. -/
theorem encode_cases (m : Mnemonic) (items : List Item) (location : Location) :
    (target? m items location = none ∧ ∀ ctx address,
        encode (ctx.moved address) m items location = encode ctx m items location) ∨
      ∃ opcode t, target? m items location = some t ∧ ∀ ctx,
        encode ctx m items location = (ctx.offsetByte t).map fun b => [opcode, b] := by
  unfold target?
  -- the form is chosen without the address, so the address matters in the fields alone
  cases hselect : select (unfuse m items location).1 (meant m items location) with
  | error refusal =>
    refine .inl ⟨rfl, fun ctx address => ?_⟩
    rw [encode_eq, encode_eq, hselect, checkBit_moved]
    rfl
  | ok w =>
    rcases (Form.of_select hselect).offset_cases with hplain | ⟨opcode, t, rfl, hbit⟩
    · refine .inl ⟨List.findSome?_eq_none_iff.2 hplain.fixed, fun ctx address => ?_⟩
      rw [encode_eq, encode_eq, hselect, checkBit_moved]
      change (checkBit ctx _ _ >>= fun _ => Template.emit (ctx.moved address) w) =
        checkBit ctx _ _ >>= fun _ => Template.emit ctx w
      rw [Template.emit_moved ctx address hplain.fixed]
    · refine .inr ⟨opcode, t, rfl, fun ctx => ?_⟩
      rw [encode_eq, hselect, hbit ctx]
      exact emit_offset ctx opcode t

/-- An instruction takes one to four bytes. -/
theorem encode_size {ctx : Context} {m : Mnemonic} {items : List Item} {location : Location}
    {bytes : List UInt8} (h : encode ctx m items location = .ok bytes) :
    0 < bytes.length ∧ bytes.length ≤ 4 := by
  obtain ⟨-, w, hw, hemit⟩ := encode_eq_ok_iff.1 h
  rw [Template.length_emit hemit]
  rcases (Form.of_select hw).offset_cases with hplain | ⟨opcode, t, rfl, -⟩
  · exact ⟨hplain.size_pos, hplain.size_le⟩
  · exact ⟨Nat.zero_lt_two, Nat.le_of_ble_eq_true rfl⟩

end Instruction

end CrossAssembler
