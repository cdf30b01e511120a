import CrossAssembler.Proofs.Instruction.Renaming

/-!
# Bytes in memory are all alike to an instruction

Three operands mean a byte in memory: the one that HL points to, the one that an index register points
to, and the one at a displacement from an index register. Every instruction but the jump takes either none
of them or all three, and it wraps its opcode in the same way around what the operand contributes.

* **Uses** (`MemoryUse`): the two ways to wrap an opcode around a byte in memory.
* **Selection** (`select_uniform`): for every mnemonic but the jump and every position among the operands,
  all bytes in memory are refused for one reason, or used in one way. One lemma for each kind of
  instruction.
* **Encoding** (`reworded_encode_memory`): so two encodings that differ in such an operand alone agree up to
  the bytes that the operand contributes.
-/

namespace CrossAssembler

/-! ### Uses -/

/-- How an instruction is wrapped around a byte in memory: with the displacement behind the opcode, or
behind the byte of the bit page and in front of an opcode of one byte. -/
inductive MemoryUse where
  | around (opcode : UInt8) (hopcode : opcode ≠ bitPage) (rest : Template)
  | onBitPage (last : Field) (hlast : last.size = 1)

/-- The instruction on a byte in memory. -/
def MemoryUse.template : MemoryUse → MemoryForm → Template
  | around opcode _ rest, m => m.around opcode ++ rest
  | onBitPage last _, m => m.onBitPage last

/-- A selection that does not tell bytes in memory apart: it refuses all of them for one reason, or uses
all of them in one way. -/
def Uniform (f : Operand → Selection) : Prop :=
  (∃ refusal, ∀ x m, x.memory? = some m → f x = .error refusal) ∨
    ∃ use : MemoryUse, ∀ x m, x.memory? = some m → f x = .ok (use.template m)

section Uniform

variable {f : Operand → Selection}

/-- What holds of the three bytes in memory holds of all operands that mean one. -/
theorem forall_memory {P : Operand → MemoryForm → Prop} (hpair : P (.atPair .hl) ⟨[], []⟩)
    (hregister : ∀ r : IndexRegister, P (.atPair (.index r)) ⟨[.byte r.code], [.byte 0]⟩)
    (hindex : ∀ i d, P (.atIndex i d) ⟨[.ofElement i], [.ofElement (some d)]⟩) :
    ∀ x m, x.memory? = some m → P x m := by
  intro x m hx
  unfold Operand.memory? at hx
  split at hx
  · cases hx
    exact hpair
  next r =>
    cases hx
    exact hregister r
  next i d =>
    cases hx
    exact hindex i d
  · cases hx

theorem uniform_refused {refusal : Refusal} (hpair : f (.atPair .hl) = .error refusal)
    (hregister : ∀ r, f (.atPair (.index r)) = .error refusal)
    (hindex : ∀ i d, f (.atIndex i d) = .error refusal) : Uniform f :=
  .inl ⟨refusal, forall_memory hpair hregister hindex⟩

theorem uniform_used (use : MemoryUse) (hpair : f (.atPair .hl) = .ok (use.template ⟨[], []⟩))
    (hregister : ∀ r : IndexRegister,
      f (.atPair (.index r)) = .ok (use.template ⟨[.byte r.code], [.byte 0]⟩))
    (hindex : ∀ i d,
      f (.atIndex i d) = .ok (use.template ⟨[.ofElement i], [.ofElement (some d)]⟩)) : Uniform f :=
  .inr ⟨use, forall_memory hpair hregister hindex⟩

theorem Uniform.congr {g : Operand → Selection} (h : Uniform g)
    (hfg : ∀ x m, x.memory? = some m → f x = g x) : Uniform f :=
  h.imp (fun ⟨refusal, hg⟩ => ⟨refusal, fun x m hx => (hfg x m hx).trans (hg x m hx)⟩)
    fun ⟨use, hg⟩ => ⟨use, fun x m hx => (hfg x m hx).trans (hg x m hx)⟩

end Uniform

namespace Instruction

/-! ### One kind of instruction after another -/

theorem uniform_loadRegister (dst : Named Register8) : Uniform (loadRegister dst) := by
  cases dst with
  | error name => exact uniform_refused rfl (fun _ => rfl) fun _ _ => rfl
  | ok r =>
    have hopcode : Opcode.middle 0x46 r.code ≠ bitPage := by cases r <;> decide
    exact uniform_used (.around _ hopcode []) rfl (fun _ => rfl) fun _ _ => rfl

/-- A byte in memory as a destination. -/
theorem uniform_store (src : Operand) : Uniform fun x => load x src := by
  -- only a register and a value can be stored in memory
  cases src with
  | register s =>
    cases s with
    | error name => exact uniform_refused rfl (fun _ => rfl) fun _ _ => rfl
    | ok s =>
      have hopcode : Opcode.low 0x70 s.code ≠ bitPage := by cases s <;> decide
      exact uniform_used (.around _ hopcode []) rfl (fun _ => rfl) fun _ _ => rfl
  | immediate t =>
    have hopcode : (0x36 : UInt8) ≠ bitPage := by decide
    exact uniform_used (.around _ hopcode [.byteOf t "8-bit value"]) rfl (fun _ => rfl) fun _ _ => rfl
  | _ => exact uniform_refused rfl (fun _ => rfl) fun _ _ => rfl

/-- A byte in memory as a source. -/
theorem uniform_load (dst : Operand) : Uniform (load dst) := by
  -- only a register can be loaded from any byte in memory; pairs and special registers refuse it
  cases dst with
  | register r => exact uniform_loadRegister r
  | pair p =>
    cases p with
    | error name => exact uniform_refused rfl (fun _ => rfl) fun _ _ => rfl
    | ok p => cases p <;> exact uniform_refused rfl (fun _ => rfl) fun _ _ => rfl
  | special s => cases s <;> exact uniform_refused rfl (fun _ => rfl) fun _ _ => rfl
  | atPair p => cases p <;> exact uniform_refused rfl (fun _ => rfl) fun _ _ => rfl
  | _ => exact uniform_refused rfl (fun _ => rfl) fun _ _ => rfl

theorem uniform_exchange_first (y : Operand) : Uniform fun x => exchange x y := by
  cases y <;> exact uniform_refused rfl (fun _ => rfl) fun _ _ => rfl

theorem uniform_exchange_second (x : Operand) : Uniform (exchange x) := by
  cases x with
  | pair p =>
    cases p with
    | error name => exact uniform_refused rfl (fun _ => rfl) fun _ _ => rfl
    | ok p => cases p <;> exact uniform_refused rfl (fun _ => rfl) fun _ _ => rfl
  | atPair p => cases p <;> exact uniform_refused rfl (fun _ => rfl) fun _ _ => rfl
  | _ => exact uniform_refused rfl (fun _ => rfl) fun _ _ => rfl

theorem uniform_arithmetic (op : AluOp) : Uniform (arithmetic op) := by
  have hopcode : Opcode.middle 0x86 op.code ≠ bitPage := by cases op <;> decide
  exact uniform_used (.around _ hopcode []) rfl (fun _ => rfl) fun _ _ => rfl

theorem uniform_count {step : UInt8} (hopcode : Opcode.low 0x34 step ≠ bitPage) :
    Uniform (count step) :=
  uniform_used (.around _ hopcode []) rfl (fun _ => rfl) fun _ _ => rfl

/-- A byte in memory states no condition. -/
theorem uniform_conditional_first (opcode : UInt8) (what : String) (y : Operand) :
    Uniform fun x => conditional opcode what x y :=
  uniform_refused rfl (fun _ => rfl) fun _ _ => rfl

/-- A byte in memory is no target, whatever the condition is. -/
theorem uniform_conditional_second (opcode : UInt8) (what : String) (x : Operand) :
    Uniform (conditional opcode what x) := by
  have hform : ∀ y : Operand, (∀ t, y ≠ .immediate t) →
      conditional opcode what x y = .error .form := by
    intro y hy
    unfold conditional
    cases x.condition? with
    | none => rfl
    | some named =>
      cases y with
      | immediate t => exact absurd rfl (hy t)
      | _ => rfl
  refine uniform_refused (hform _ ?_) (fun _ => hform _ ?_) fun _ _ => hform _ ?_
  all_goals
    intro t ht
    cases ht

theorem uniform_input_first (y : Operand) : Uniform fun x => input x y :=
  uniform_refused rfl (fun _ => rfl) fun _ _ => rfl

theorem uniform_input_second (x : Operand) : Uniform (input x) := by
  cases x with
  | register r =>
    cases r with
    | error name => exact uniform_refused rfl (fun _ => rfl) fun _ _ => rfl
    | ok r => cases r <;> exact uniform_refused rfl (fun _ => rfl) fun _ _ => rfl
  | _ => exact uniform_refused rfl (fun _ => rfl) fun _ _ => rfl

theorem uniform_output_first (y : Operand) : Uniform fun x => output x y := by
  cases y <;> exact uniform_refused rfl (fun _ => rfl) fun _ _ => rfl

theorem uniform_output_second (x : Operand) : Uniform (output x) := by
  cases x <;> exact uniform_refused rfl (fun _ => rfl) fun _ _ => rfl

theorem uniform_onBitPage {opcode : UInt8 → Field} (hsize : (opcode memoryField).size = 1) :
    Uniform (onBitPage opcode) :=
  uniform_used (.onBitPage _ hsize) rfl (fun _ => rfl) fun _ _ => rfl

theorem uniform_bit_first (op : BitOp) (y : Operand) : Uniform fun x => bit op x y :=
  uniform_refused rfl (fun _ => rfl) fun _ _ => rfl

theorem uniform_bit_second (op : BitOp) (x : Operand) : Uniform (bit op x) := by
  cases x with
  | immediate t =>
    show Uniform (onBitPage fun field => .bitNumber (Opcode.low (Opcode.group op.code) field) t)
    exact uniform_onBitPage rfl
  | _ => exact uniform_refused rfl (fun _ => rfl) fun _ _ => rfl

/-! ### Numbers of operands -/

/-- A selection that refuses three operands and more for one reason is uniform at every position if it is
so among at most two operands. -/
theorem uniform_upToTwo {choose : List Operand → Selection} (hone : Uniform fun x => choose [x])
    (hfirst : ∀ y, Uniform fun x => choose [x, y]) (hsecond : ∀ y, Uniform fun x => choose [y, x])
    (hmore : ∃ refusal, ∀ x y z rest, choose (x :: y :: z :: rest) = .error refusal)
    (front back : List Operand) : Uniform fun x => choose (front ++ x :: back) := by
  obtain ⟨refusal, hmore⟩ := hmore
  have hrefused : ∀ {f : Operand → List Operand}, (∀ x, ∃ a b c ds, f x = a :: b :: c :: ds) →
      Uniform fun x => choose (f x) := by
    intro f hf
    refine .inl ⟨refusal, fun x m _ => ?_⟩
    obtain ⟨a, b, c, ds, hx⟩ := hf x
    show choose (f x) = _
    rw [hx, hmore]
  -- the operand in question is the first, the second, or one of too many
  rcases front with _ | ⟨a, _ | ⟨b, front⟩⟩
  · rcases back with _ | ⟨b, _ | ⟨c, back⟩⟩
    · exact hone
    · exact hfirst b
    · exact hrefused fun x => ⟨x, b, c, back, rfl⟩
  · rcases back with _ | ⟨c, back⟩
    · exact hsecond a
    · exact hrefused fun x => ⟨a, x, c, back, rfl⟩
  · refine hrefused fun x => ?_
    rcases front with _ | ⟨c, front⟩
    · exact ⟨a, b, x, back, rfl⟩
    · exact ⟨a, b, c, front ++ x :: back, rfl⟩

/-- A list of operands of the wrong length. -/
theorem uniform_const (refusal : Refusal) : Uniform fun _ => .error refusal :=
  .inl ⟨refusal, fun _ _ _ => rfl⟩

theorem uniform_oneOperand {choose : Operand → Selection} (h : Uniform choose)
    (front back : List Operand) : Uniform fun x => oneOperand choose (front ++ x :: back) :=
  uniform_upToTwo h (fun _ => uniform_const _) (fun _ => uniform_const _) ⟨_, fun _ _ _ _ => rfl⟩
    front back

theorem uniform_twoOperands {choose : Operand → Operand → Selection}
    (hfirst : ∀ y, Uniform fun x => choose x y) (hsecond : ∀ x, Uniform (choose x))
    (front back : List Operand) : Uniform fun x => twoOperands choose (front ++ x :: back) :=
  uniform_upToTwo (uniform_const _) hfirst hsecond ⟨_, fun _ _ _ _ => rfl⟩ front back

theorem uniform_noOperand (w : Template) (front back : List Operand) :
    Uniform fun x => noOperand w (front ++ x :: back) :=
  uniform_upToTwo (uniform_const _) (fun _ => uniform_const _) (fun _ => uniform_const _)
    ⟨_, fun _ _ _ _ => rfl⟩ front back

theorem uniform_oneValue (template : Term → Template) (front back : List Operand) :
    Uniform fun x => oneValue template (front ++ x :: back) :=
  uniform_oneOperand (uniform_refused rfl (fun _ => rfl) fun _ _ => rfl) front back

theorem uniform_alu (op : AluOp) (front back : List Operand) :
    Uniform fun x => alu op (front ++ x :: back) := by
  refine uniform_upToTwo (uniform_arithmetic op) (fun y => ?_) (fun y => ?_)
    ⟨.arity 1, fun _ _ _ _ => by simp only [alu]⟩ front back
  · cases y <;> exact uniform_refused rfl (fun _ => rfl) fun _ _ => rfl
  · cases y with
    | pair p => exact uniform_refused rfl (fun _ => rfl) fun _ _ => rfl
    | register r =>
      -- the accumulator may be written as destination
      rcases r with name | r
      · exact uniform_refused rfl (fun _ => rfl) fun _ _ => rfl
      · cases r with
        | a => exact (uniform_arithmetic op).congr (forall_memory rfl (fun _ => rfl) fun _ _ => rfl)
        | _ => exact uniform_refused rfl (fun _ => rfl) fun _ _ => rfl
    | _ => exact uniform_refused rfl (fun _ => rfl) fun _ _ => rfl

theorem uniform_call (front back : List Operand) : Uniform fun x => call (front ++ x :: back) := by
  have htwo : ∀ x y, call [x, y] = conditional 0xC4 "call target" x y := fun x y => by simp only [call]
  refine uniform_upToTwo (uniform_refused rfl (fun _ => rfl) fun _ _ => rfl) (fun y => ?_) (fun y => ?_)
    ⟨.arity 2, fun _ _ _ _ => by simp only [call]⟩ front back
  · exact (uniform_conditional_first _ _ y).congr fun x _ _ => htwo x y
  · exact (uniform_conditional_second _ _ y).congr fun x _ _ => htwo y x

theorem uniform_ret (front back : List Operand) : Uniform fun x => ret (front ++ x :: back) :=
  uniform_upToTwo (uniform_refused rfl (fun _ => rfl) fun _ _ => rfl) (fun _ => uniform_const _)
    (fun _ => uniform_const _) ⟨_, fun _ _ _ _ => rfl⟩ front back

theorem uniform_relativeJump (front back : List Operand) :
    Uniform fun x => relativeJump (front ++ x :: back) := by
  refine uniform_upToTwo (uniform_refused rfl (fun _ => rfl) fun _ _ => rfl)
    (fun y => uniform_refused rfl (fun _ => rfl) fun _ _ => rfl) (fun y => ?_)
    ⟨.arity 2, fun _ _ _ _ => by simp only [relativeJump]⟩ front back
  -- the condition is judged before the target
  cases hopcode : relativeOpcode? y with
  | none =>
    have hrefused : ∀ x, relativeJump [y, x] = .error .relativeCondition :=
      fun x => by simp only [relativeJump, hopcode]
    exact .inl ⟨_, fun x _ _ => hrefused x⟩
  | some opcode =>
    refine .inl ⟨.form, forall_memory ?_ (fun _ => ?_) fun _ _ => ?_⟩
    all_goals simp only [relativeJump, hopcode]

/-- **Every plain mnemonic but the jump treats bytes in memory alike.** The jump is left out, since it
takes an index register as an address and has no use for a displacement. -/
theorem select_uniform {m : Mnemonic} (hjump : m ≠ .jp) (hfused : ∀ branch cc, m ≠ .fused branch cc)
    (front back : List Operand) : Uniform fun x => select m (front ++ x :: back) := by
  -- one line for each mnemonic, with the lemma of its kind
  cases m with
  | ld => exact uniform_twoOperands uniform_store uniform_load front back
  | push | pop =>
    exact uniform_oneOperand (uniform_refused rfl (fun _ => rfl) fun _ _ => rfl) front back
  | ex => exact uniform_twoOperands uniform_exchange_first uniform_exchange_second front back
  | inc | dec => exact uniform_oneOperand (uniform_count (by decide)) front back
  | jp => exact absurd rfl hjump
  | jr => exact uniform_relativeJump front back
  | djnz | rst | im => exact uniform_oneValue _ front back
  | call => exact uniform_call front back
  | ret => exact uniform_ret front back
  | input => exact uniform_twoOperands uniform_input_first uniform_input_second front back
  | output => exact uniform_twoOperands uniform_output_first uniform_output_second front back
  | alu op => exact uniform_alu op front back
  | rotate op => exact uniform_oneOperand (uniform_onBitPage rfl) front back
  | bit op => exact uniform_twoOperands (uniform_bit_first op) (uniform_bit_second op) front back
  | implied op => exact uniform_noOperand _ front back
  | fused branch cc => exact absurd rfl (hfused branch cc)
  | fusedMode mode => exact uniform_noOperand _ front back

/-! ### Encoding -/

/-- Absolute jumps, with or without a condition written into the mnemonic. -/
def isJump : Mnemonic → Bool
  | .jp => true
  | .fused .jp _ => true
  | _ => false

theorem mnemonic_ne_jp {branch : Branch} {cc : Condition} (hjump : isJump (.fused branch cc) = false) :
    branch.mnemonic ≠ .jp := by
  cases branch with
  | jp => cases hjump
  | _ => rintro ⟨⟩

theorem mnemonic_ne_fused (branch branch' : Branch) (cc : Condition) :
    branch.mnemonic ≠ .fused branch' cc := by
  cases branch <;> rintro ⟨⟩

/-- Where an operand stands among those of the plain mnemonic. -/
theorem exists_unfuse {m : Mnemonic} (hjump : isJump m = false) (front back : List Item)
    (location : Location) :
    ∃ plain front', plain ≠ .jp ∧ (∀ branch cc, plain ≠ .fused branch cc) ∧
      ∀ i, unfuse m (front ++ i :: back) location = (plain, front' ++ i :: back) := by
  cases m with
  | fused branch cc =>
    exact ⟨branch.mnemonic, Item.named .condition cc.name location :: front, mnemonic_ne_jp hjump,
      mnemonic_ne_fused branch, fun i => rfl⟩
  | jp => cases hjump
  | _ =>
    refine ⟨_, front, ?_, ?_, fun i => rfl⟩
    · rintro ⟨⟩
    · rintro branch cc ⟨⟩

/-- A byte in memory is no bit number. -/
theorem exists_checkBit (ctx : Context) (m : Mnemonic) (front back : List Operand) :
    ∃ verdict, ∀ x w, x.memory? = some w → checkBit ctx m (front ++ x :: back) = verdict := by
  cases m with
  | bit op =>
    -- the bit number is the first of two operands, and a byte in memory is none
    rcases front with _ | ⟨a, _ | ⟨b, front⟩⟩
    · rcases back with _ | ⟨b, _ | ⟨c, back⟩⟩
      · exact ⟨.ok (), fun _ _ _ => by simp only [List.nil_append, checkBit]⟩
      · exact ⟨.ok (), forall_memory rfl (fun _ => rfl) fun _ _ => rfl⟩
      · exact ⟨.ok (), fun _ _ _ => by simp only [List.nil_append, checkBit]⟩
    · rcases back with _ | ⟨c, back⟩
      · refine ⟨checkBit ctx (.bit op) [a, .other], fun x _ _ => ?_⟩
        cases a <;> rfl
      · exact ⟨.ok (), fun _ _ _ => by simp only [List.cons_append, List.nil_append, checkBit]⟩
    · refine ⟨.ok (), fun _ _ _ => ?_⟩
      cases front <;> simp only [List.cons_append, List.nil_append, checkBit]
  | _ => exact ⟨.ok (), fun _ _ _ => rfl⟩

/-- **Two bytes in memory are encoded alike**, as far as their own bytes go. -/
theorem reworded_encode_memory {R : List UInt8 → List UInt8 → Prop} {ctx : Context} {m : Mnemonic}
    (hjump : isJump m = false) {i j : Item} {w w' : MemoryForm}
    (hi : (Operand.ofItem i).memory? = some w) (hj : (Operand.ofItem j).memory? = some w')
    (hemit : ∀ use : MemoryUse,
      Reworded R (Template.emit ctx (use.template w)) (Template.emit ctx (use.template w')))
    (front back : List Item) (location : Location) :
    Reworded R (encode ctx m (front ++ i :: back) location)
      (encode ctx m (front ++ j :: back) location) := by
  obtain ⟨plain, front', hplain, hfused, hunfuse⟩ := exists_unfuse hjump front back location
  obtain ⟨verdict, hverdict⟩ := exists_checkBit ctx plain (front'.map Operand.ofItem)
    (back.map Operand.ofItem)
  have huniform := select_uniform hplain hfused (front'.map Operand.ofItem)
    (back.map Operand.ofItem)
  unfold encode
  rw [hunfuse, hunfuse]
  dsimp only
  rw [List.map_append, List.map_append, List.map_cons, List.map_cons, hverdict _ _ hi,
    hverdict _ _ hj]
  refine (Reworded.refl verdict).bind fun _ _ _ => ?_
  -- both are refused for one reason, or wrapped in one way
  rcases huniform with ⟨refusal, hrefused⟩ | ⟨use, hused⟩
  · dsimp only at hrefused
    rw [hrefused _ _ hi, hrefused _ _ hj]
    exact refusal.reworded_toFailure _ _ _ _
  · dsimp only at hused
    rw [hused _ _ hi, hused _ _ hj]
    exact hemit use

/-! ### An index register in place of HL -/

/-- Bytes of an instruction on the byte that HL points to, and of the same instruction on the byte at a
displacement `d` from the index register with the byte `p`. -/
inductive Indexed (p d : UInt8) : List UInt8 → List UInt8 → Prop where
  | plain {opcode : UInt8} (h : opcode ≠ bitPage) (rest : List UInt8) :
      Indexed p d (opcode :: rest) (p :: opcode :: d :: rest)
  | onBitPage (opcode : UInt8) : Indexed p d [bitPage, opcode] [p, bitPage, d, opcode]

/-- What an index register adds to an instruction on the byte that HL points to. -/
theorem indexed_emit (ctx : Context) (p d : UInt8) (use : MemoryUse) :
    Reworded (Indexed p d) (Template.emit ctx (use.template ⟨[], []⟩))
      (Template.emit ctx (use.template ⟨[.byte p], [.byte d]⟩)) := by
  cases use with
  | around opcode hopcode rest =>
    show Reworded _ (Template.emit ctx ([opcode].map .byte ++ rest))
      (Template.emit ctx ([p, opcode, d].map .byte ++ rest))
    rw [Template.emit_bytes_append, Template.emit_bytes_append]
    refine (Reworded.refl (Template.emit ctx rest)).map fun bytes _ hbytes => ?_
    subst hbytes
    exact .plain hopcode bytes
  | onBitPage last hlast =>
    show Reworded _ (Template.emit ctx ([bitPage].map .byte ++ [last]))
      (Template.emit ctx ([p, bitPage, d].map .byte ++ [last]))
    rw [Template.emit_bytes_append, Template.emit_bytes_append]
    cases hlast' : Template.emit ctx [last] with
    | error failure =>
      cases failure with
      | problem problem => exact .problem rfl
      | fault f => exact .fault f
    | ok bytes =>
      -- the last field is one byte long
      have hlength : bytes.length = 1 := (Template.length_emit hlast').trans (by simp [Template.size, hlast])
      obtain ⟨opcode, rfl⟩ := List.length_eq_one_iff.1 hlength
      exact .ok (.onBitPage opcode)

theorem memory?_ofItem_hl (l : Location) :
    (Operand.ofItem (.named .indirectRegister16 "HL" l)).memory? = some ⟨[], []⟩ := by
  rw [show "HL" = Pair.hl.name from rfl, Item.ofItem_atPair]
  rfl

/-- The bytes that an index register with a displacement contributes. -/
theorem memory?_ofItem_ofIndex (r : IndexRegister) (d : Int) (l : Location) :
    (Operand.ofItem (.ofIndex r d l)).memory? = some ⟨[.byte r.code], [.byte (lowByte d)]⟩ := by
  show some (MemoryForm.mk [Field.ofElement (some (r.code.toNat : Int))]
    [Field.ofElement (some (lowPart d))]) = _
  rw [Field.ofElement_index, Field.ofElement_lowPart]

/-- **An index register mirrors HL.** Of every instruction but an absolute jump, on every machine and in
both passes: with an operand at a displacement from an index register in place of the byte that HL
points to, it is reported in the same family and at the same place, or it has the same bytes with the
byte of the register in front and the displacement behind the opcode, or in front of the last byte on
the bit page. -/
theorem encode_indexed (ctx : Context) {m : Mnemonic} (hjump : isJump m = false)
    (front back : List Item) (r : IndexRegister) (d : Int) (l l' location : Location) :
    Reworded (Indexed r.code (lowByte d))
      (encode ctx m (front ++ .named .indirectRegister16 "HL" l :: back) location)
      (encode ctx m (front ++ .ofIndex r d l' :: back) location) :=
  reworded_encode_memory hjump (memory?_ofItem_hl l) (memory?_ofItem_ofIndex r d l')
    (indexed_emit ctx r.code (lowByte d)) front back location

/-- A test of the last bit: the displacement stands in front of the opcode. -/
theorem encode_indexed_bit :
    isJump (.bit .bit) = false ∧
      encode ⟨.final, 0, {}⟩ (.bit .bit)
          [.ofNumber 7 ⟨"f", 1, 5⟩, .named .indirectRegister16 "HL" ⟨"f", 1, 7⟩] ⟨"f", 1, 1⟩ =
        .ok [0xCB, 0x7E] ∧
      encode ⟨.final, 0, {}⟩ (.bit .bit)
          [.ofNumber 7 ⟨"f", 1, 5⟩, .ofIndex .ix (-1) ⟨"f", 1, 7⟩] ⟨"f", 1, 1⟩ =
        .ok [0xDD, 0xCB, 0xFF, 0x7E] ∧
      Reworded (Indexed 0xDD 0xFF)
        (encode ⟨.final, 0, {}⟩ (.bit .bit)
          [.ofNumber 7 ⟨"f", 1, 5⟩, .named .indirectRegister16 "HL" ⟨"f", 1, 7⟩] ⟨"f", 1, 1⟩)
        (encode ⟨.final, 0, {}⟩ (.bit .bit)
          [.ofNumber 7 ⟨"f", 1, 5⟩, .ofIndex .ix (-1) ⟨"f", 1, 7⟩] ⟨"f", 1, 1⟩) := by
  have hjump : isJump (.bit .bit) = false := rfl
  refine ⟨hjump, rfl, rfl, ?_⟩
  exact encode_indexed ⟨.final, 0, {}⟩ hjump [.ofNumber 7 ⟨"f", 1, 5⟩] [] .ix (-1) _ _ _

end Instruction

end CrossAssembler
