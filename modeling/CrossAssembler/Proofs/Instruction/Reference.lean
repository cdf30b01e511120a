import CrossAssembler.Proofs.Instruction.Offset

/-!
# References to labels

What an instruction is encoded in depends on the symbols only through the labels that its operands
refer to, and on the address only through an offset. So an instruction that refers to no label, and
is no relative jump, is encoded alike under all symbols and at all addresses; and all that a relative
jump takes from its surroundings is one offset.

* **Terms** (`Form.reads`): every value that a template awaits is the value of an operand, and only the
  templates of relative jumps hold an offset.
* **Closed instructions** (`encode_closed`): without a reference, and without an offset, an encoding
  depends on the pass alone.
* **Relative jumps** (`encode_relative`): the last operand gives the target, and the offset to it gives
  the bytes.
-/

namespace CrossAssembler

/-! ### Terms -/

/-- A term that has its value from the source. -/
def Term.isLiteral (t : Term) : Bool :=
  match t.meaning with
  | .literal _ => true
  | .symbol _ => false

namespace Field

/-- The term that a field awaits the value of. -/
def term? : Field → Option Term
  | byte _ | foreign _ => none
  | byteOf t _ | wordOf t _ | offsetTo t | restartAt t | modeOf t | bitNumber _ t => some t

theorem term?_ofElement (element : Option Int) : (ofElement element).term? = none := by
  unfold ofElement
  split
  · split <;> rfl
  · rfl

end Field

/-- The terms of a template. -/
def Template.terms (w : Template) : List Term :=
  w.filterMap Field.term?

theorem Template.terms_append (v w : Template) : Template.terms (v ++ w) = v.terms ++ w.terms :=
  List.filterMap_append

namespace Operand

/-- The term of an operand. -/
def term? : Operand → Option Term
  | direct t | immediate t => some t
  | _ => none

/-- The terms of some operands. -/
def terms (ops : List Operand) : List Term :=
  ops.filterMap term?

/-- The term of an operand is one of the terms. -/
theorem singleton_subset_terms {ops : List Operand} {x : Operand} {t : Term} (hx : x ∈ ops)
    (ht : x.term? = some t) : [t] ⊆ terms ops := by
  intro t' ht'
  rw [List.mem_singleton.1 ht']
  exact List.mem_filterMap.2 ⟨x, hx, ht⟩

/-- A byte in memory is found without a term. -/
theorem terms_memory {x : Operand} {m : MemoryForm} (h : x.memory? = some m) :
    Template.terms m.index = [] ∧ Template.terms m.displacement = [] := by
  unfold memory? at h
  split at h
  · cases h
    exact ⟨rfl, rfl⟩
  · cases h
    exact ⟨rfl, rfl⟩
  · cases h
    constructor
    · exact List.filterMap_cons_none (Field.term?_ofElement _)
    · exact List.filterMap_cons_none (Field.term?_ofElement _)
  · cases h

theorem terms_around {x : Operand} {m : MemoryForm} (h : x.memory? = some m) (opcode : UInt8) :
    Template.terms (m.around opcode) = [] := by
  obtain ⟨hindex, hdisplacement⟩ := terms_memory h
  unfold MemoryForm.around
  rw [Template.terms_append, Template.terms_append, hindex, hdisplacement]
  rfl

theorem terms_onBitPage {x : Operand} {m : MemoryForm} (h : x.memory? = some m) (opcode : Field) :
    Template.terms (m.onBitPage opcode) = Template.terms [opcode] := by
  obtain ⟨hindex, hdisplacement⟩ := terms_memory h
  unfold MemoryForm.onBitPage
  rw [Template.terms_append, Template.terms_append, Template.terms_append, hindex, hdisplacement]
  rfl

theorem terms_accumulatorTransfer {x : Operand} {load : Bool} {w : Template}
    (h : x.accumulatorTransfer? load = some w) : w.terms ⊆ x.term?.toList := by
  unfold accumulatorTransfer? at h
  split at h
  -- of the operands that go with the accumulator only an address has a term
  case h_3 t =>
    cases h
    exact List.Subset.refl [t]
  all_goals cases h
  all_goals exact List.nil_subset _

end Operand

theorem Pair.terms_transfer {load : Bool} {t : Term} {p : Pair} {w : Template}
    (h : p.transfer? load t = some w) : w.terms = [t] := by
  unfold Pair.transfer? at h
  split at h
  · cases h
    rfl
  · cases h
    rfl
  · obtain ⟨code, -, rfl⟩ := Option.map_eq_some_iff.1 h
    rfl

/-! ### What templates read -/

/-- The relative jumps, fused spellings included. -/
def Mnemonic.isRelative : Mnemonic → Bool
  | .jr | .djnz | .fused .jr _ => true
  | _ => false

namespace Instruction

/-- A template that awaits only values of the operands, and no offset unless the mnemonic is that of
a relative jump. -/
structure Reads (m : Mnemonic) (ops : List Operand) (w : Template) : Prop where
  terms : w.terms ⊆ Operand.terms ops
  fixed : m.isRelative = false → w.Fixed

/-- A template without an offset needs a look at its terms only. -/
theorem Reads.of_plain {m : Mnemonic} {ops : List Operand} {w : Template} (hplain : w.Plain)
    (hterms : w.terms ⊆ Operand.terms ops) : Reads m ops w :=
  ⟨hterms, fun _ => hplain.fixed⟩

theorem LoadForm.terms_subset {x y : Operand} {w : Template} (h : LoadForm x y w) :
    w.terms ⊆ Operand.terms [x, y] := by
  -- the terms of one of the operands
  have hleft : x.term?.toList ⊆ Operand.terms [x, y] := by
    intro t ht
    exact List.mem_filterMap.2 ⟨x, List.mem_cons_self, Option.mem_toList.1 ht⟩
  have hright : y.term?.toList ⊆ Operand.terms [x, y] := by
    intro t ht
    exact List.mem_filterMap.2
      ⟨y, List.mem_cons_of_mem _ List.mem_cons_self, Option.mem_toList.1 ht⟩
  -- loads of a value or an address await that value, and all others await none
  cases h with
  | memory r h =>
    rw [Operand.terms_around h]
    exact List.nil_subset _
  | accumulator h => exact List.Subset.trans (Operand.terms_accumulatorTransfer h) hright
  | storeRegister h s =>
    rw [Operand.terms_around h]
    exact List.nil_subset _
  | storeImmediate h t =>
    rw [Template.terms_append, Operand.terms_around h]
    exact hright
  | storeAccumulator h => exact List.Subset.trans (Operand.terms_accumulatorTransfer h) hleft
  | storePair h =>
    rw [Pair.terms_transfer h]
    exact hleft
  | pairDirect h =>
    rw [Pair.terms_transfer h]
    exact hright
  | immediate r t => exact hright
  | pair h t => exact hright
  | index r t => exact hright
  | _ => exact List.nil_subset _

theorem StackForm.terms_eq_nil {opcode : UInt8} {x : Operand} {w : Template}
    (h : StackForm opcode x w) : w.terms = [] := by
  cases h <;> rfl

theorem CountForm.terms_eq_nil {step : UInt8} {x : Operand} {w : Template}
    (h : CountForm step x w) : w.terms = [] := by
  cases h with
  | memory h => exact Operand.terms_around h _
  | _ => rfl

theorem SourceForm.terms_subset {op : AluOp} {x : Operand} {w : Template} (h : SourceForm op x w) :
    w.terms ⊆ Operand.terms [x] := by
  cases h with
  | register s => exact List.nil_subset _
  | immediate t => exact List.Subset.refl [t]
  | memory h =>
    rw [Operand.terms_around h]
    exact List.nil_subset _

theorem terms_implied (op : ImpliedOp) : Template.terms (op.code.map .byte) = [] := by
  cases op <;> rfl

/-- **What a template reads.** Its terms are terms of the operands, and it holds an offset only for a
relative jump. -/
theorem Form.reads {m : Mnemonic} {ops : List Operand} {w : Template} (h : Form m ops w) :
    Reads m ops w := by
  have hnone : ∀ {m : Mnemonic} {ops : List Operand} {w : Template}, w.Plain → w.terms = [] →
      Reads m ops w := by
    intro m ops w hplain hterms
    exact .of_plain hplain (hterms ▸ List.nil_subset _)
  -- behind a condition, the target
  have hsecond : ∀ (x : Operand) (t : Term), [t] ⊆ Operand.terms [x, .immediate t] := by
    intro x t
    exact Operand.singleton_subset_terms (List.mem_cons_of_mem x List.mem_cons_self) rfl
  -- one rule of the forms after the other; only the three kinds of relative jumps have an offset
  induction h with
  | load h => exact .of_plain h.plain h.terms_subset
  | push h => exact hnone h.plain h.terms_eq_nil
  | pop h => exact hnone h.plain h.terms_eq_nil
  | inc h => exact hnone h.plain h.terms_eq_nil
  | dec h => exact hnone h.plain h.terms_eq_nil
  | source h => exact .of_plain h.plain h.terms_subset
  | accumulatorSource h => exact .of_plain h.plain h.terms_subset
  | jump t => exact .of_plain (.of_all rfl rfl) (List.Subset.refl [t])
  | jumpIf h t => exact .of_plain (.of_all rfl rfl) (hsecond _ t)
  | call t => exact .of_plain (.of_all rfl rfl) (List.Subset.refl [t])
  | callIf h t => exact .of_plain (.of_all rfl rfl) (hsecond _ t)
  | relative t => exact ⟨List.Subset.refl [t], by rintro ⟨⟩⟩
  | relativeIf h hop t => exact ⟨hsecond _ t, by rintro ⟨⟩⟩
  | loop t => exact ⟨List.Subset.refl [t], by rintro ⟨⟩⟩
  | restart t => exact .of_plain (.of_all rfl rfl) (List.Subset.refl [t])
  | interruptMode t => exact .of_plain (.of_all rfl rfl) (List.Subset.refl [t])
  | input t => exact .of_plain (.of_all rfl rfl) (List.Subset.refl [t])
  | output t => exact .of_plain (.of_all rfl rfl) (List.Subset.refl [t])
  | rotateMemory op h =>
    refine hnone ?_ (Operand.terms_onBitPage h _)
    exact Operand.plain_fields h _ (List.forall_mem_singleton.2 rfl) (Nat.le_refl 1)
  | bitRegister op t r => exact .of_plain (.of_all rfl rfl) (List.Subset.refl [t])
  | bitMemory op t h =>
    refine .of_plain ?_ ?_
    · exact Operand.plain_fields h _ (List.forall_mem_singleton.2 rfl) (Nat.le_refl 1)
    · rw [Operand.terms_onBitPage h]
      exact Operand.singleton_subset_terms List.mem_cons_self rfl
  | implied op => exact hnone (plain_implied op) (terms_implied op)
  | fused branch cc h ih =>
    -- the condition in front of the operands has no term
    refine ⟨ih.terms, fun hm => ih.fixed ?_⟩
    cases branch with
    | jr => cases hm
    | _ => rfl
  | _ => exact hnone (.of_all rfl rfl) rfl

/-- The template of a relative jump: its last operand is the target. -/
theorem Form.offset_of_isRelative {m : Mnemonic} {ops : List Operand} {w : Template}
    (h : Form m ops w) (hm : m.isRelative = true) :
    ∃ opcode t, w = [.byte opcode, .offsetTo t] ∧ ops.getLast? = some (.immediate t) := by
  cases h with
  | relative t => exact ⟨_, t, rfl, rfl⟩
  | relativeIf h hop t => exact ⟨_, t, rfl, rfl⟩
  | loop t => exact ⟨_, t, rfl, rfl⟩
  | fused branch cc h =>
    cases branch with
    | jr =>
      cases h with
      | relativeIf h hop t => exact ⟨_, t, rfl, rfl⟩
    | _ => cases hm
  | _ => cases hm

end Instruction

/-! ### References of items -/

/-- An item that gets its value from a label. -/
def Item.isReference (i : Item) : Bool :=
  (i.kind == .name || i.kind == .indirectImmediate) && i.text.isSome

namespace Operand

/-- Without a reference, the value of an operand stands in the source. -/
theorem isLiteral_of_term? {i : Item} (hi : i.isReference = false) {t : Term}
    (ht : (ofItem i).term? = some t) : t.isLiteral = true := by
  unfold Item.isReference at hi
  unfold ofItem at ht
  -- only numbers, names and addresses have a term, and a name without a text is no label
  cases hkind : i.kind with
  | number =>
    rw [hkind] at ht
    cases ht
    rfl
  | name =>
    rw [hkind] at ht hi
    have htext : i.text = none := by simpa using hi
    cases ht
    unfold Term.ofReference
    rw [htext]
    rfl
  | indirectImmediate =>
    rw [hkind] at ht hi
    have htext : i.text = none := by simpa using hi
    cases ht
    unfold Term.ofReference
    rw [htext]
    rfl
  | condition =>
    rw [hkind] at ht
    dsimp only at ht
    split at ht <;> cases ht
  | indirectRegister16 =>
    rw [hkind] at ht
    dsimp only at ht
    split at ht <;> cases ht
  | _ =>
    rw [hkind] at ht
    cases ht

/-- A reference that is an immediate value is the value of a label. -/
theorem exists_of_isReference {i : Item} (hi : i.isReference = true) {t : Term}
    (ht : ofItem i = .immediate t) : ∃ name, t = ⟨.symbol name, i.location⟩ := by
  unfold Item.isReference at hi
  obtain ⟨hkind, htext⟩ := Bool.and_eq_true_iff.1 hi
  obtain ⟨name, hname⟩ := Option.isSome_iff_exists.1 htext
  refine ⟨name, ?_⟩
  unfold ofItem at ht
  rcases Bool.or_eq_true_iff.1 hkind with hkind | hkind
  · rw [beq_iff_eq.1 hkind] at ht
    cases ht
    unfold Term.ofReference
    rw [hname]
  · rw [beq_iff_eq.1 hkind] at ht
    cases ht

end Operand

/-! ### Closed instructions -/

namespace Context

variable {ctx ctx' : Context} {t : Term}

theorem valueOf_literal (ctx ctx' : Context) (ht : t.isLiteral = true) :
    ctx'.valueOf t = ctx.valueOf t := by
  unfold Term.isLiteral at ht
  unfold valueOf
  cases hmeaning : t.meaning with
  | literal v => rfl
  | _ =>
    rw [hmeaning] at ht
    cases ht

theorem require_congr (hpass : ctx'.pass = ctx.pass) (holds : Bool) (t : Term) (p : Problem) :
    ctx'.require holds t p = ctx.require holds t p := by
  unfold require
  rw [hpass]

theorem valueWithin_literal (hpass : ctx'.pass = ctx.pass) (ht : t.isLiteral = true)
    (low high : Int) (what : String) :
    ctx'.valueWithin t low high what = ctx.valueWithin t low high what := by
  unfold valueWithin
  rw [valueOf_literal ctx ctx' ht]
  simp only [require_congr hpass]

theorem restartByte_literal (hpass : ctx'.pass = ctx.pass) (ht : t.isLiteral = true) :
    ctx'.restartByte t = ctx.restartByte t := by
  unfold restartByte
  rw [valueOf_literal ctx ctx' ht]
  simp only [require_congr hpass]

theorem modeByte_literal (hpass : ctx'.pass = ctx.pass) (ht : t.isLiteral = true) :
    ctx'.modeByte t = ctx.modeByte t := by
  unfold modeByte
  rw [valueOf_literal ctx ctx' ht]
  simp only [require_congr hpass]

end Context

/-- A field that is no offset and awaits no label gives the same in every context of a pass. -/
theorem Field.emit_closed {ctx ctx' : Context} (hpass : ctx'.pass = ctx.pass) {f : Field}
    (hfixed : f.target? = none) (hterm : ∀ t, f.term? = some t → t.isLiteral = true) :
    f.emit ctx' = f.emit ctx := by
  cases f with
  | byte b => rfl
  | foreign element => cases element <;> rfl
  | offsetTo t => cases hfixed
  | byteOf t what =>
    change (ctx'.valueWithin t 0 0xFF what).map _ = (ctx.valueWithin t 0 0xFF what).map _
    rw [Context.valueWithin_literal hpass (hterm t rfl)]
  | wordOf t what =>
    change (ctx'.valueWithin t 0 0xFFFF what).map _ = (ctx.valueWithin t 0 0xFFFF what).map _
    rw [Context.valueWithin_literal hpass (hterm t rfl)]
  | restartAt t =>
    change (ctx'.restartByte t).map _ = (ctx.restartByte t).map _
    rw [Context.restartByte_literal hpass (hterm t rfl)]
  | modeOf t =>
    change (ctx'.modeByte t).map _ = (ctx.modeByte t).map _
    rw [Context.modeByte_literal hpass (hterm t rfl)]
  | bitNumber opcode t =>
    change (ctx'.valueWithin t 0 7 _).map _ = (ctx.valueWithin t 0 7 _).map _
    rw [Context.valueWithin_literal hpass (hterm t rfl)]

theorem Template.emit_closed {ctx ctx' : Context} (hpass : ctx'.pass = ctx.pass) {w : Template}
    (hfixed : w.Fixed) (hterms : ∀ t ∈ w.terms, t.isLiteral = true) :
    Template.emit ctx' w = Template.emit ctx w := by
  -- field by field: none is an offset, and none awaits a label
  induction w with
  | nil => rfl
  | cons f fs ih =>
    have hfield : f.emit ctx' = f.emit ctx := by
      refine Field.emit_closed hpass (hfixed f List.mem_cons_self) fun t ht => hterms t ?_
      exact List.mem_filterMap.2 ⟨f, List.mem_cons_self, ht⟩
    have hrest : Template.emit ctx' fs = Template.emit ctx fs := by
      refine ih (fun g hg => hfixed g (List.mem_cons_of_mem _ hg)) fun t ht => hterms t ?_
      obtain ⟨g, hg, ht⟩ := List.mem_filterMap.1 ht
      exact List.mem_filterMap.2 ⟨g, List.mem_cons_of_mem _ hg, ht⟩
    rw [Template.emit, Template.emit, hfield, hrest]

namespace Instruction

theorem checkBit_closed {ctx ctx' : Context} (hpass : ctx'.pass = ctx.pass) (m : Mnemonic)
    {ops : List Operand} (hops : ∀ t ∈ Operand.terms ops, t.isLiteral = true) :
    checkBit ctx' m ops = checkBit ctx m ops := by
  unfold checkBit
  split
  next t x =>
    have ht : t.isLiteral = true := hops t List.mem_cons_self
    unfold Context.bitNumber
    rw [Context.valueWithin_literal hpass ht]
  · rfl

theorem isRelative_unfuse (m : Mnemonic) (items : List Item) (location : Location) :
    (unfuse m items location).1.isRelative = m.isRelative := by
  cases m with
  | fused branch cc => cases branch <;> rfl
  | _ => rfl

/-- The terms of an instruction come from the operands that are written. -/
theorem isLiteral_meant (m : Mnemonic) {items : List Item} (location : Location)
    (hitems : ∀ i ∈ items, i.isReference = false) :
    ∀ t ∈ Operand.terms (meant m items location), t.isLiteral = true := by
  have hwritten : ∀ i ∈ (unfuse m items location).2, i.isReference = false := by
    cases m with
    | fused branch cc => exact List.forall_mem_cons.2 ⟨rfl, hitems⟩
    | _ => exact hitems
  intro t ht
  obtain ⟨x, hx, ht⟩ := List.mem_filterMap.1 ht
  obtain ⟨i, hi, rfl⟩ := List.mem_map.1 hx
  exact Operand.isLiteral_of_term? (hwritten i hi) ht

/-- **Closed instructions.** An instruction that is no relative jump and refers to no label is encoded,
or refused, alike under all symbols and at all addresses. -/
theorem encode_closed {ctx ctx' : Context} (hpass : ctx'.pass = ctx.pass) {m : Mnemonic}
    (hm : m.isRelative = false) {items : List Item} (hitems : ∀ i ∈ items, i.isReference = false)
    (location : Location) : encode ctx' m items location = encode ctx m items location := by
  have hterms := isLiteral_meant m location hitems
  rw [encode_eq, encode_eq, checkBit_closed hpass _ hterms]
  cases hselect : select (unfuse m items location).1 (meant m items location) with
  | error refusal => rfl
  | ok w =>
    have hreads := (Form.of_select hselect).reads
    have hemit : Template.emit ctx' w = Template.emit ctx w := by
      refine Template.emit_closed hpass (hreads.fixed ?_) fun t ht => hterms t (hreads.terms ht)
      rw [isRelative_unfuse, hm]
    change (checkBit ctx _ _ >>= fun _ => Template.emit ctx' w) =
      checkBit ctx _ _ >>= fun _ => Template.emit ctx w
    rw [hemit]

/-! ### Relative jumps -/

theorem checkBit_of_isRelative (ctx : Context) {m : Mnemonic} (hm : m.isRelative = true)
    (ops : List Operand) : checkBit ctx m ops = .ok () := by
  cases m with
  | bit op => cases hm
  | _ => rfl

theorem getLast?_meant (m : Mnemonic) {items : List Item} {i : Item} (location : Location)
    (hlast : items.getLast? = some i) :
    (meant m items location).getLast? = some (Operand.ofItem i) := by
  have hwritten : (unfuse m items location).2.getLast? = some i := by
    cases m with
    | fused branch cc =>
      change (_ :: items).getLast? = some i
      rw [List.getLast?_cons, hlast]
      rfl
    | _ => exact hlast
  rw [meant, List.getLast?_map, hwritten]
  rfl

/-- **Relative jumps.** The bytes of a relative jump to a label are an opcode and the offset of the
label, and with another offset they would be the opcode and the other offset. -/
theorem encode_relative {ctx : Context} {m : Mnemonic} (hm : m.isRelative = true) {items : List Item}
    {location : Location} {i : Item} (hlast : items.getLast? = some i) (hi : i.isReference = true)
    {bytes : List UInt8} (h : encode ctx m items location = .ok bytes) :
    ∃ opcode b name, bytes = [opcode, b] ∧ ctx.offsetByte ⟨.symbol name, i.location⟩ = .ok b ∧
      ∀ ctx' b', Context.offsetByte ctx' ⟨.symbol name, i.location⟩ = .ok b' →
        encode ctx' m items location = .ok [opcode, b'] := by
  obtain ⟨-, w, hw, hemit⟩ := encode_eq_ok_iff.1 h
  have hplain : (unfuse m items location).1.isRelative = true := (isRelative_unfuse _ _ _).trans hm
  obtain ⟨opcode, t, rfl, htarget⟩ := (Form.of_select hw).offset_of_isRelative hplain
  rw [getLast?_meant m location hlast] at htarget
  obtain ⟨name, rfl⟩ := Operand.exists_of_isReference hi (Option.some.inj htarget)
  rw [emit_offset] at hemit
  obtain ⟨b, hb, rfl⟩ := map_eq_ok_iff.1 hemit
  refine ⟨opcode, b, name, rfl, hb, ?_⟩
  intro ctx' b' hb'
  -- the same template is filled with the other offset
  refine encode_eq_ok_iff.2 ⟨checkBit_of_isRelative ctx' hplain _, _, hw, ?_⟩
  rw [emit_offset, hb']
  rfl

end Instruction

end CrossAssembler
