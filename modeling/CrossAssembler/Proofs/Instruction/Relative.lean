import CrossAssembler.Proofs.Instruction.Decode
import CrossAssembler.Proofs.Instruction.Denotation
import CrossAssembler.Proofs.Instruction.Reference

/-!
# Relative jumps

A relative jump is written with its target and encoded with an offset: the signed byte that the
processor adds to the address behind the jump, round the address space. The offset is found by a
division of unbounded integers, and the target is told by the processor from one byte. Here the two
are shown to agree.

* **Offsets** (`reaches_iff`): for a target in the address space, the distance is the one offset that
  leads there, if it is a signed byte, and otherwise none does.
* **Forms** (`select_relative_iff`): the table `RelativeRow` holds the forms that are legal, and no
  others.
* **Encodings** (`encode_relative_eq`): a legal form is encoded as its opcode and the offset byte.
* **Landing** (`relative_jump_lands`): the processor arrives where the source says, or there is a
  report.
-/

namespace CrossAssembler

/-! ### Offsets -/

/-- **The offset of a jump**: a signed byte that leads from the end of a two-byte instruction at an
address to a target, round the address space. -/
structure Reaches (address e target : Int) : Prop where
  bounds : -128 ≤ e ∧ e ≤ 127
  lands : (address + 2 + e) % addressSpace = target

/-- The offset to a target is the distance to it, if that is a signed byte. -/
theorem reaches_iff (ctx : Context) {e target : Int} (htarget : 0 ≤ target ∧ target ≤ 0xFFFF) :
    Reaches ctx.address e target ↔
      e = ctx.distance target ∧ -128 ≤ ctx.distance target ∧ ctx.distance target ≤ 127 := by
  unfold Context.distance
  rw [Int.bmod_def]
  constructor
  · rintro ⟨hbounds, hlands⟩
    -- both sides are the same residue, and a signed byte is the only one in its range
    unfold addressSpace at hlands
    omega
  · rintro ⟨rfl, hbounds⟩
    refine ⟨hbounds, ?_⟩
    unfold addressSpace
    omega

theorem Reaches.unique {address e e' target : Int} (h : Reaches address e target)
    (h' : Reaches address e' target) : e = e' := by
  obtain ⟨hbounds, hlands⟩ := h
  obtain ⟨hbounds', hlands'⟩ := h'
  unfold addressSpace at hlands hlands'
  omega

/-- The byte of an offset is the offset modulo 256, and the processor reads the offset from it. -/
theorem Reaches.byte {address e target : Int} (h : Reaches address e target) :
    ((lowByte e).toNat : Int) = e % 256 ∧
      (address + 2 + signed (lowByte e)) % addressSpace = target := by
  constructor
  · unfold lowByte lowPart
    rw [UInt8.toNat_ofNat']
    omega
  · rw [Instruction.signed_lowByte h.bounds]
    exact h.lands

namespace Context

variable {ctx : Context} {t : Term} {v : Int}

/-- The offset byte of a jump to a target that has an offset. -/
theorem offsetByte_of_reaches (hpass : ctx.pass = .final) (hv : t.HasValue ctx.symbols v)
    (hrange : 0 ≤ v ∧ v ≤ 0xFFFF) {e : Int} (he : Reaches ctx.address e v) :
    ctx.offsetByte t = .ok (lowByte e) := by
  obtain ⟨rfl, hbounds⟩ := (reaches_iff ctx hrange).1 he
  exact offsetByte_eq_ok_iff.2 ⟨v, valueOf_of_hasValue hpass hv, fun _ => ⟨hrange, hbounds⟩, rfl⟩

/-- A target outside the address space, or one that no offset leads to, is reported. -/
theorem reported_offset (hpass : ctx.pass = .final) (hv : t.HasValue ctx.symbols v)
    (hfree : ¬((0 ≤ v ∧ v ≤ 0xFFFF) ∧ ∃ e, Reaches ctx.address e v)) :
    ReportedAs (ctx.offsetByte t) .valueRange := by
  unfold offsetByte
  -- the target is judged before its distance
  by_cases hrange : 0 ≤ v ∧ v ≤ 0xFFFF
  · have hvalue : ctx.valueWithin t 0 0xFFFF "jump target" = .ok v :=
      valueWithin_eq_ok_iff.2 ⟨valueOf_of_hasValue hpass hv, fun _ => hrange⟩
    have hreach : ¬(-128 ≤ ctx.distance v ∧ ctx.distance v ≤ 127) := by
      intro hbounds
      exact hfree ⟨hrange, _, (reaches_iff ctx hrange).2 ⟨rfl, hbounds⟩⟩
    rw [hvalue]
    change ReportedAs (ctx.require _ t _ >>= fun _ => pure _) _
    refine ReportedAs.bind ?_ _
    exact ⟨_, if_pos ⟨hpass, decide_eq_false hreach⟩, rfl⟩
  · exact (reported_of_exceeds hpass hv hrange).bind _

end Context

/-! ### Legal forms -/

/-- The conditions of relative jumps, with the opcodes. -/
def relativeConditions : List (Condition × UInt8) :=
  [(.nz, 0x20), (.z, 0x28), (.nc, 0x30), (.c, 0x38)]

theorem mem_relativeConditions {cc : Condition} {opcode : UInt8} :
    (cc, opcode) ∈ relativeConditions ↔ cc.relativeOpcode? = some opcode := by
  cases cc <;> simp [relativeConditions, Condition.relativeOpcode?, eq_comm]

/-- **Conditions as they are written**: by name, and the carry also by the register C. -/
inductive Operand.States : Operand → Condition → Prop where
  | condition (cc : Condition) : States (.condition (.ok cc)) cc
  | carry : States (.register (.ok .c)) .c

theorem Operand.states_iff {x : Operand} {cc : Condition} :
    x.States cc ↔ x.condition? = some (.ok cc) := by
  constructor
  · rintro (_ | _) <;> rfl
  · intro h
    unfold condition? at h
    split at h
    · cases h
      exact .condition cc
    · cases h
      exact .carry
    · cases h

namespace Instruction

/-- **The relative jumps**: a mnemonic with its operands, the opcode and the target. -/
inductive RelativeRow : Mnemonic → List Operand → UInt8 → Term → Prop where
  | always (t : Term) : RelativeRow .jr [.immediate t] 0x18 t
  | conditional {x : Operand} {cc : Condition} {opcode : UInt8} (hx : x.States cc)
      (hcc : (cc, opcode) ∈ relativeConditions) (t : Term) :
      RelativeRow .jr [x, .immediate t] opcode t
  | fused {cc : Condition} {opcode : UInt8} (hcc : (cc, opcode) ∈ relativeConditions) (t : Term) :
      RelativeRow (.fused .jr cc) [.immediate t] opcode t
  | loop (t : Term) : RelativeRow .djnz [.immediate t] 0x10 t

/-- **The table is exact**: it holds the forms of relative jumps that are selected, and no others. -/
theorem select_relative_iff {m : Mnemonic} (hm : m.isRelative = true) {ops : List Operand}
    {w : Template} :
    select m ops = .ok w ↔
      ∃ opcode t, RelativeRow m ops opcode t ∧ w = [.byte opcode, .offsetTo t] := by
  constructor
  · intro hselect
    cases Form.of_select hselect with
    | relative t => exact ⟨_, t, .always t, rfl⟩
    | relativeIf hx hop t =>
      exact ⟨_, t, .conditional (Operand.states_iff.2 hx) (mem_relativeConditions.2 hop) t, rfl⟩
    | loop t => exact ⟨_, t, .loop t, rfl⟩
    | fused branch cc hform =>
      cases branch with
      | jr =>
        cases hform with
        | relativeIf hx hop t =>
          cases hx
          exact ⟨_, t, .fused (mem_relativeConditions.2 hop) t, rfl⟩
      | _ => cases hm
    | _ => cases hm
  · rintro ⟨opcode, t, hrow, rfl⟩
    -- a fused jump is a conditional one with the condition written out
    have hconditional : ∀ {x : Operand} {cc : Condition}, x.States cc →
        (cc, opcode) ∈ relativeConditions →
          relativeJump [x, .immediate t] = .ok [.byte opcode, .offsetTo t] := by
      intro x cc hx hcc
      have hopcode : relativeOpcode? x = some opcode := by
        unfold relativeOpcode?
        rw [Operand.states_iff.1 hx]
        exact mem_relativeConditions.1 hcc
      simp only [relativeJump, hopcode]
    cases hrow with
    | always => rfl
    | conditional hx hcc => exact hconditional hx hcc
    | fused hcc => exact hconditional (.condition _) hcc
    | loop => rfl

theorem RelativeRow.isRelative {m : Mnemonic} {ops : List Operand} {opcode : UInt8} {t : Term}
    (h : RelativeRow m ops opcode t) : m.isRelative = true := by
  cases h <;> rfl

/-- No operand of a relative jump is an index register with a displacement. -/
theorem RelativeRow.map_ofItem {m : Mnemonic} {ops : List Operand} {opcode : UInt8} {t : Term}
    (h : RelativeRow m ops opcode t) {items : List Item}
    (hitems : List.Forall₂ Item.Denotes items ops) : items.map Operand.ofItem = ops := by
  have hread : ∀ {i : Item} {x : Operand}, i.Denotes x → (∀ index d, x ≠ .atIndex index d) →
      Operand.ofItem i = x := by
    intro i x hi hx
    refine hi.ofItem_eq_of_kind fun hkind => ?_
    cases hi with
    | atIndex r => exact hx _ _ rfl
    | register _ hkind' | interrupt hkind' | refresh hkind' | pair _ hkind' | condition _ hkind'
    | atPair _ hkind' | portC hkind' | address hkind' | labelAddress hkind' | number hkind'
    | label hkind' => cases hkind.symm.trans hkind'
  have hplain : ∀ x ∈ ops, ∀ index d, x ≠ .atIndex index d := by
    rintro x hx index d rfl
    cases h <;> simp only [List.mem_cons, List.not_mem_nil, or_false, reduceCtorEq] at hx
    subst hx
    cases ‹Operand.States _ _›
  -- the row has served its purpose, and would stand in the way of the induction
  clear h
  induction hitems with
  | nil => rfl
  | cons hi _ ih =>
    obtain ⟨hx, hrest⟩ := List.forall_mem_cons.1 hplain
    rw [List.map_cons, hread hi hx, ih hrest]

/-- A legal form is encoded as its opcode and the offset byte, if there is one. -/
theorem encode_relative_eq (ctx : Context) {m : Mnemonic} {items : List Item} {ops : List Operand}
    {opcode : UInt8} {t : Term} (hitems : List.Forall₂ Item.Denotes items ops)
    (hrow : RelativeRow m ops opcode t) (location : Location) :
    encode ctx m items location = (ctx.offsetByte t).map fun b => [opcode, b] := by
  have hmap := hrow.map_ofItem hitems
  have hselect := (select_relative_iff hrow.isRelative).2 ⟨opcode, t, hrow, rfl⟩
  have hunfused : select (unfuse m items location).1 (meant m items location) = select m ops := by
    cases hrow with
    | @fused cc _ hcc =>
      change relativeJump (Operand.ofItem (Item.named .condition cc.name location) ::
        items.map Operand.ofItem) = _
      rw [ofItem_condition, hmap]
      rfl
    | _ => exact congrArg _ hmap
  have hplain : (unfuse m items location).1.isRelative = true :=
    (isRelative_unfuse _ _ _).trans hrow.isRelative
  rw [encode_eq, checkBit_of_isRelative ctx hplain, hunfused, hselect]
  exact emit_offset ctx opcode t

/-- **Relative jumps land on their target.** A legal relative jump at any address, to a target of any
value, is encoded by the final pass exactly if the target is an address and an offset leads to it;
otherwise the value is reported. There is one such offset, the jump is its opcode and the byte of the
offset, and a processor that reads the byte with its sign and adds it to the address behind the jump,
round the address space, arrives at the target. -/
theorem relative_jump_lands (address : Int) (symbols : SymbolTable) (location : Location)
    {m : Mnemonic} {items : List Item} {ops : List Operand} {opcode : UInt8} {t : Term}
    (hitems : List.Forall₂ Item.Denotes items ops) (hrow : RelativeRow m ops opcode t)
    {target : Int} (htarget : t.HasValue symbols target) :
    ((∃ bytes, encode ⟨.final, address, symbols⟩ m items location = .ok bytes) ↔
      (0 ≤ target ∧ target ≤ 0xFFFF) ∧ ∃ e, Reaches address e target) ∧
    (ReportedAs (encode ⟨.final, address, symbols⟩ m items location) .valueRange ↔
      ¬((0 ≤ target ∧ target ≤ 0xFFFF) ∧ ∃ e, Reaches address e target)) ∧
    ∀ bytes, encode ⟨.final, address, symbols⟩ m items location = .ok bytes →
      ∃ e b, Reaches address e target ∧ (∀ e', Reaches address e' target → e' = e) ∧
        bytes = [opcode, b] ∧ (b.toNat : Int) = e % 256 ∧
        (address + 2 + signed b) % addressSpace = target := by
  rw [encode_relative_eq _ hitems hrow location]
  -- the offset byte is given in the one case and reported in the other, and the jump follows it
  by_cases hreach : (0 ≤ target ∧ target ≤ 0xFFFF) ∧ ∃ e, Reaches address e target
  · obtain ⟨hrange, e, he⟩ := hreach
    have hbyte : Context.offsetByte ⟨.final, address, symbols⟩ t = .ok (lowByte e) :=
      Context.offsetByte_of_reaches rfl htarget hrange he
    rw [hbyte]
    refine ⟨⟨fun _ => ⟨hrange, e, he⟩, fun _ => ⟨_, rfl⟩⟩, ⟨?_, ?_⟩, ?_⟩
    · intro hreported
      exact absurd rfl (hreported.ne_ok _)
    · intro hfree
      exact absurd ⟨hrange, e, he⟩ hfree
    · rintro bytes ⟨⟩
      obtain ⟨hmod, hlands⟩ := he.byte
      exact ⟨e, lowByte e, he, fun e' he' => he'.unique he, rfl, hmod, hlands⟩
  · have hreported : ReportedAs (Context.offsetByte ⟨.final, address, symbols⟩ t) .valueRange :=
      Context.reported_offset rfl htarget hreach
    have hjump := hreported.map fun b => [opcode, b]
    refine ⟨⟨?_, fun h => absurd h hreach⟩, ⟨fun _ => hreach, fun _ => hjump⟩, ?_⟩
    · rintro ⟨bytes, hok⟩
      exact absurd hok (hjump.ne_ok bytes)
    · intro bytes hok
      exact absurd hok (hjump.ne_ok bytes)

/-- Across the end of the address space in both directions, to the last target in reach, and one
address too far: `JR C,N` at $FFF0, where N is $0071, `DJNZ $FF82` at 0, and `JR $82` at 0. -/
theorem relative_jump_lands_across :
    encode ⟨.final, 0xFFF0, ⟨[⟨some "N", 0x71, ⟨"", 1, 1⟩⟩]⟩⟩ .jr
        [Item.ofBareName "C" ⟨"", 1, 1⟩, Item.ofBareName "N" ⟨"", 1, 1⟩] ⟨"", 1, 1⟩ =
      .ok [0x38, 0x7F] ∧
    encode ⟨.final, 0, {}⟩ .djnz [Item.ofNumber 0xFF82 ⟨"", 1, 1⟩] ⟨"", 1, 1⟩ =
      .ok [0x10, 0x80] ∧
    ReportedAs (encode ⟨.final, 0, {}⟩ .jr [Item.ofNumber 0x82 ⟨"", 1, 1⟩] ⟨"", 1, 1⟩)
      .valueRange := by
  have hforward : Reaches 0xFFF0 127 0x71 := ⟨by decide, by decide⟩
  have hbackward : Reaches 0 (-128) 0xFF82 := ⟨by decide, by decide⟩
  refine ⟨?_, ?_, ?_⟩
  · have hitems : List.Forall₂ Item.Denotes
        [Item.ofBareName "C" ⟨"", 1, 1⟩, Item.ofBareName "N" ⟨"", 1, 1⟩]
        [.register (.ok .c), .immediate ⟨.symbol "N", ⟨"", 1, 1⟩⟩] :=
      .cons (.register .c (by decide) rfl) (.cons (.label (by decide) rfl) .nil)
    have hcarry : (Condition.c, (0x38 : UInt8)) ∈ relativeConditions := by decide
    obtain ⟨hok, -, hbytes⟩ := relative_jump_lands 0xFFF0 ⟨[⟨some "N", 0x71, ⟨"", 1, 1⟩⟩]⟩
      ⟨"", 1, 1⟩ hitems (.conditional .carry hcarry _) (.label rfl _)
    obtain ⟨bytes, h⟩ := hok.2 ⟨by decide, 127, hforward⟩
    obtain ⟨e, b, he, -, rfl, hmod, -⟩ := hbytes bytes h
    rw [he.unique hforward] at hmod
    have hb : b = 0x7F := UInt8.toNat_inj.1 (Int.ofNat.inj hmod)
    rw [h, hb]
  · have hitems : List.Forall₂ Item.Denotes [Item.ofNumber 0xFF82 ⟨"", 1, 1⟩]
        [.immediate ⟨.literal 0xFF82, ⟨"", 1, 1⟩⟩] := .cons (.number rfl) .nil
    obtain ⟨hok, -, hbytes⟩ :=
      relative_jump_lands 0 {} ⟨"", 1, 1⟩ hitems (.loop _) (.literal _ _)
    obtain ⟨bytes, h⟩ := hok.2 ⟨by decide, -128, hbackward⟩
    obtain ⟨e, b, he, -, rfl, hmod, -⟩ := hbytes bytes h
    rw [he.unique hbackward] at hmod
    have hb : b = 0x80 := UInt8.toNat_inj.1 (Int.ofNat.inj hmod)
    rw [h, hb]
  · have hitems : List.Forall₂ Item.Denotes [Item.ofNumber 0x82 ⟨"", 1, 1⟩]
        [.immediate ⟨.literal 0x82, ⟨"", 1, 1⟩⟩] := .cons (.number rfl) .nil
    refine (relative_jump_lands 0 {} ⟨"", 1, 1⟩ hitems (.always _) (.literal _ _)).2.1.2 ?_
    rintro ⟨-, e, hbounds, hlands⟩
    change (0 + 2 + e) % 0x10000 = 0x82 at hlands
    omega

end Instruction

end CrossAssembler
