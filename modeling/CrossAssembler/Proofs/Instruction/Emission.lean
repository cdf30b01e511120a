import CrossAssembler.Proofs.Instruction.Form

/-!
# Filling templates

How the fields of a template become bytes, one lemma for each function. Two things are drawn from
them.

* **Sizes** (`Template.length_emit`): a template gives as many bytes as its size says, whatever the
  values, and in the survey it always gives them.
* **No faults** (`encode_faultless`): genuine operands, under a table whose labels all have names,
  give bytes or a report, and never stop the run.
-/

namespace CrossAssembler

/-! ### Values -/

namespace Context

variable {ctx : Context} {t : Term}

theorem require_eq_ok_iff {holds : Bool} {p : Problem} {u : Unit} :
    ctx.require holds t p = .ok u ↔ (ctx.pass = .final → holds = true) := by
  unfold require
  split
  next h =>
    refine ⟨nofun, fun himp => ?_⟩
    rw [himp h.1] at h
    cases h.2
  next h =>
    refine ⟨fun _ hpass => ?_, fun _ => rfl⟩
    cases holds with
    | true => rfl
    | false => exact absurd ⟨hpass, rfl⟩ h

/-- In the survey every term has a value. -/
theorem exists_valueOf_survey (hpass : ctx.pass = .survey) (t : Term) :
    ∃ v, ctx.valueOf t = .ok v := by
  unfold valueOf
  split
  next v _ => exact ⟨v, rfl⟩
  next name _ =>
    rw [hpass]
    exact ⟨_, rfl⟩

/-- A value between bounds: there is one, and in the final pass it keeps to the bounds. -/
theorem valueWithin_eq_ok_iff {low high v : Int} {what : String} :
    ctx.valueWithin t low high what = .ok v ↔
      ctx.valueOf t = .ok v ∧ (ctx.pass = .final → low ≤ v ∧ v ≤ high) := by
  unfold valueWithin
  rw [bind_eq_ok_iff]
  constructor
  · rintro ⟨v', hv, h⟩
    rw [bind_eq_ok_iff] at h
    obtain ⟨u, hu, h⟩ := h
    cases h
    exact ⟨hv, fun hpass => of_decide_eq_true (require_eq_ok_iff.1 hu hpass)⟩
  · rintro ⟨hv, hbounds⟩
    refine ⟨v, hv, ?_⟩
    rw [bind_eq_ok_iff]
    exact ⟨(), require_eq_ok_iff.2 fun hpass => decide_eq_true (hbounds hpass), rfl⟩

/-- The offset of a relative jump: the target is an address, and in the final pass it is in
reach. -/
theorem offsetByte_eq_ok_iff {b : UInt8} :
    ctx.offsetByte t = .ok b ↔ ∃ v, ctx.valueOf t = .ok v ∧
      (ctx.pass = .final → (0 ≤ v ∧ v ≤ 0xFFFF) ∧ -128 ≤ ctx.distance v ∧ ctx.distance v ≤ 127) ∧
      b = lowByte (ctx.distance v) := by
  unfold offsetByte
  rw [bind_eq_ok_iff]
  constructor
  · rintro ⟨v, hv, h⟩
    dsimp only at h
    rw [bind_eq_ok_iff] at h
    obtain ⟨u, hu, h⟩ := h
    obtain ⟨hv, hbounds⟩ := valueWithin_eq_ok_iff.1 hv
    cases h
    exact ⟨v, hv,
      fun hpass => ⟨hbounds hpass, of_decide_eq_true (require_eq_ok_iff.1 hu hpass)⟩, rfl⟩
  · rintro ⟨v, hv, hreach, rfl⟩
    refine ⟨v, valueWithin_eq_ok_iff.2 ⟨hv, fun hpass => (hreach hpass).1⟩, ?_⟩
    dsimp only
    rw [bind_eq_ok_iff]
    exact ⟨(), require_eq_ok_iff.2 fun hpass => decide_eq_true (hreach hpass).2, rfl⟩

theorem restartByte_eq_ok_iff {b : UInt8} :
    ctx.restartByte t = .ok b ↔ ∃ v, ctx.valueOf t = .ok v ∧
      (ctx.pass = .final → ∃ n ∈ restartTargets, (n : Int) = v) ∧
      b = 0xC7 ||| lowByte v &&& 0x38 := by
  unfold restartByte
  rw [bind_eq_ok_iff]
  constructor
  · rintro ⟨v, hv, h⟩
    rw [bind_eq_ok_iff] at h
    obtain ⟨u, hu, h⟩ := h
    cases h
    refine ⟨v, hv, fun hpass => ?_, rfl⟩
    obtain ⟨n, hn, heq⟩ := List.any_eq_true.1 (require_eq_ok_iff.1 hu hpass)
    exact ⟨n, hn, eq_of_beq heq⟩
  · rintro ⟨v, hv, htarget, rfl⟩
    refine ⟨v, hv, ?_⟩
    rw [bind_eq_ok_iff]
    refine ⟨(), require_eq_ok_iff.2 fun hpass => ?_, rfl⟩
    obtain ⟨n, hn, heq⟩ := htarget hpass
    exact List.any_eq_true.2 ⟨n, hn, beq_iff_eq.2 heq⟩

theorem modeByte_eq_ok_iff {b : UInt8} :
    ctx.modeByte t = .ok b ↔ ∃ v, ctx.valueOf t = .ok v ∧
      (ctx.pass = .final → (InterruptMode.ofNumber? v).isSome = true) ∧
      b = ((InterruptMode.ofNumber? v).getD .zero).code := by
  unfold modeByte
  rw [bind_eq_ok_iff]
  constructor
  · rintro ⟨v, hv, h⟩
    dsimp only at h
    rw [bind_eq_ok_iff] at h
    obtain ⟨u, hu, h⟩ := h
    cases h
    exact ⟨v, hv, require_eq_ok_iff.1 hu, rfl⟩
  · rintro ⟨v, hv, hmode, rfl⟩
    refine ⟨v, hv, ?_⟩
    dsimp only
    rw [bind_eq_ok_iff]
    exact ⟨(), require_eq_ok_iff.2 hmode, rfl⟩

end Context

/-! ### Sizes -/

/-- A field gives as many bytes as its size says. -/
theorem Field.length_emit {ctx : Context} {f : Field} {bytes : List UInt8}
    (h : f.emit ctx = .ok bytes) : bytes.length = f.size := by
  cases f with
  | byte b =>
    cases h
    rfl
  | foreign element => cases element <;> cases h
  | _ =>
    obtain ⟨v, -, rfl⟩ := map_eq_ok_iff.1 h
    rfl

/-- A field that gives bytes is solid: a foreign element never does. -/
theorem Field.isSolid_of_emit {ctx : Context} {f : Field} {bytes : List UInt8}
    (h : f.emit ctx = .ok bytes) : f.isSolid = true := by
  cases f with
  | foreign element => cases element <;> cases h
  | _ => rfl

/-- In the survey every solid field gives bytes: no value is missing and none is judged. -/
theorem Field.exists_emit_survey {ctx : Context} (hpass : ctx.pass = .survey) {f : Field}
    (hf : f.isSolid = true) : ∃ bytes, f.emit ctx = .ok bytes := by
  -- values are judged in the final pass only, so in the survey it is enough that there is one
  have hnot : ctx.pass ≠ .final := by
    rw [hpass]
    exact nofun
  have hwithin : ∀ t low high what, ∃ v, ctx.valueWithin t low high what = .ok v := by
    intro t low high what
    obtain ⟨v, hv⟩ := Context.exists_valueOf_survey hpass t
    exact ⟨v, Context.valueWithin_eq_ok_iff.2 ⟨hv, fun h => absurd h hnot⟩⟩
  cases f with
  | byte b => exact ⟨_, rfl⟩
  | foreign element => cases hf
  | byteOf t what =>
    obtain ⟨v, hv⟩ := hwithin t 0 0xFF what
    exact ⟨_, map_eq_ok_iff.2 ⟨v, hv, rfl⟩⟩
  | wordOf t what =>
    obtain ⟨v, hv⟩ := hwithin t 0 0xFFFF what
    exact ⟨_, map_eq_ok_iff.2 ⟨v, hv, rfl⟩⟩
  | offsetTo t =>
    obtain ⟨v, hv⟩ := Context.exists_valueOf_survey hpass t
    exact ⟨_, map_eq_ok_iff.2
      ⟨_, Context.offsetByte_eq_ok_iff.2 ⟨v, hv, fun h => absurd h hnot, rfl⟩, rfl⟩⟩
  | restartAt t =>
    obtain ⟨v, hv⟩ := Context.exists_valueOf_survey hpass t
    exact ⟨_, map_eq_ok_iff.2
      ⟨_, Context.restartByte_eq_ok_iff.2 ⟨v, hv, fun h => absurd h hnot, rfl⟩, rfl⟩⟩
  | modeOf t =>
    obtain ⟨v, hv⟩ := Context.exists_valueOf_survey hpass t
    exact ⟨_, map_eq_ok_iff.2
      ⟨_, Context.modeByte_eq_ok_iff.2 ⟨v, hv, fun h => absurd h hnot, rfl⟩, rfl⟩⟩
  | bitNumber opcode t =>
    obtain ⟨v, hv⟩ := hwithin t 0 7 "bit number"
    exact ⟨_, map_eq_ok_iff.2 ⟨v, hv, rfl⟩⟩

namespace Template

theorem emit_nil_iff {ctx : Context} {bytes : List UInt8} :
    Template.emit ctx [] = .ok bytes ↔ bytes = [] :=
  ⟨fun h => (Except.ok.inj h).symm, fun h => h ▸ rfl⟩

/-- The bytes of a template are those of its first field and those of the others. -/
theorem emit_cons_iff {ctx : Context} {f : Field} {fs : Template} {bytes : List UInt8} :
    Template.emit ctx (f :: fs) = .ok bytes ↔
      ∃ front back, f.emit ctx = .ok front ∧ Template.emit ctx fs = .ok back ∧
        bytes = front ++ back := by
  rw [Template.emit, bind_eq_ok_iff]
  constructor
  · rintro ⟨front, hfront, h⟩
    rw [bind_eq_ok_iff] at h
    obtain ⟨back, hback, h⟩ := h
    exact ⟨front, back, hfront, hback, (Except.ok.inj h).symm⟩
  · rintro ⟨front, back, hfront, hback, rfl⟩
    refine ⟨front, hfront, ?_⟩
    rw [bind_eq_ok_iff]
    exact ⟨back, hback, rfl⟩

/-- Bytes at the front of a template are the first that it gives. -/
theorem emit_bytes_append (ctx : Context) (front : List UInt8) (w : Template) :
    Template.emit ctx (front.map Field.byte ++ w) = (Template.emit ctx w).map (front ++ ·) := by
  induction front with
  | nil => cases h : Template.emit ctx w <;> simp only [List.map_nil, List.nil_append, h] <;> rfl
  | cons b front ih =>
    change (do let back ← Template.emit ctx (front.map Field.byte ++ w); pure ([b] ++ back)) = _
    rw [ih]
    cases Template.emit ctx w <;> rfl

/-- **Sizes do not depend on values.** A template gives as many bytes as its size says. This is what lets
the survey count addresses before any label has a value. -/
theorem length_emit {ctx : Context} {w : Template} {bytes : List UInt8}
    (h : Template.emit ctx w = .ok bytes) : bytes.length = w.size := by
  -- field by field, as the bytes of the others follow those of the first
  induction w generalizing bytes with
  | nil =>
    rw [emit_nil_iff.1 h]
    rfl
  | cons f fs ih =>
    obtain ⟨front, back, hfront, hback, rfl⟩ := emit_cons_iff.1 h
    rw [List.length_append, Field.length_emit hfront, ih hback]
    rfl

theorem solid_of_emit {ctx : Context} {w : Template} {bytes : List UInt8}
    (h : Template.emit ctx w = .ok bytes) : w.Solid := by
  induction w generalizing bytes with
  | nil => exact nofun
  | cons f fs ih =>
    obtain ⟨front, back, hfront, hback, rfl⟩ := emit_cons_iff.1 h
    intro g hg
    rcases List.mem_cons.1 hg with rfl | hg
    · exact Field.isSolid_of_emit hfront
    · exact ih hback g hg

theorem exists_emit_survey {ctx : Context} (hpass : ctx.pass = .survey) {w : Template}
    (hw : w.Solid) : ∃ bytes, Template.emit ctx w = .ok bytes := by
  induction w with
  | nil => exact ⟨[], rfl⟩
  | cons f fs ih =>
    obtain ⟨front, hfront⟩ := Field.exists_emit_survey hpass (hw f List.mem_cons_self)
    obtain ⟨back, hback⟩ := ih fun g hg => hw g (List.mem_cons_of_mem _ hg)
    exact ⟨front ++ back, emit_cons_iff.2 ⟨front, back, hfront, hback, rfl⟩⟩

end Template

namespace Instruction

/-- The operands that an instruction is chosen by: those written, behind the condition of a fused
mnemonic. -/
def meant (m : Mnemonic) (operands : List Item) (location : Location) : List Operand :=
  (unfuse m operands location).2.map Operand.ofItem

/-- **The three steps of an encoding**: the bit number is judged, a template is selected, and the
template is filled. -/
theorem encode_eq_ok_iff {ctx : Context} {m : Mnemonic} {operands : List Item}
    {location : Location} {bytes : List UInt8} :
    encode ctx m operands location = .ok bytes ↔
      checkBit ctx (unfuse m operands location).1 (meant m operands location) = .ok () ∧
      ∃ w, select (unfuse m operands location).1 (meant m operands location) = .ok w ∧
        Template.emit ctx w = .ok bytes := by
  unfold encode
  dsimp only
  rw [bind_eq_ok_iff]
  constructor
  · rintro ⟨u, hu, h⟩
    rw [bind_eq_ok_iff] at h
    obtain ⟨w, hw, h⟩ := h
    exact ⟨hu, w, mapError_eq_ok_iff.1 hw, h⟩
  · rintro ⟨hu, w, hw, h⟩
    refine ⟨(), hu, ?_⟩
    rw [bind_eq_ok_iff]
    exact ⟨w, mapError_eq_ok_iff.2 hw, h⟩

theorem checkBit_survey {ctx : Context} (hpass : ctx.pass = .survey) (m : Mnemonic)
    (ops : List Operand) : checkBit ctx m ops = .ok () := by
  unfold checkBit
  split
  next t _ =>
    obtain ⟨v, hv⟩ := Context.exists_valueOf_survey hpass t
    refine map_eq_ok_iff.2 ⟨v, Context.valueWithin_eq_ok_iff.2 ⟨hv, fun h => ?_⟩, rfl⟩
    rw [hpass] at h
    cases h
  · rfl

end Instruction

/-! ### No faults -/

/-- A table whose labels all have names. -/
def SymbolTable.AllNamed (t : SymbolTable) : Prop :=
  t.contains none = false

/-- A computation that gives a result or a report, and never stops the run. Faults are not meant for the
writer of a source, so that no source should lead to one. -/
def Faultless {α : Type} (x : Except Failure α) : Prop :=
  ∀ f, x ≠ .error (.fault f)

theorem faultless_ok {α : Type} (a : α) : Faultless (.ok a) := nofun

theorem faultless_problem {α : Type} (d : Diagnostic) :
    Faultless (.error (.problem d) : Except Failure α) := nofun

theorem Faultless.map {α β : Type} {x : Except Failure α} (hx : Faultless x) (g : α → β) :
    Faultless (x.map g) := by
  intro f
  cases x with
  | ok a => exact nofun
  | error e =>
    intro h
    cases h
    exact hx f rfl

theorem Faultless.bind {α β : Type} {x : Except Failure α} (hx : Faultless x)
    {g : α → Except Failure β} (hg : ∀ a, x = .ok a → Faultless (g a)) : Faultless (x >>= g) := by
  intro f
  cases x with
  | ok a => exact hg a rfl f
  | error e =>
    intro h
    cases h
    exact hx f rfl

namespace Context

variable {ctx : Context}

theorem faultless_require (ctx : Context) (holds : Bool) (t : Term) (p : Problem) :
    Faultless (ctx.require holds t p) := by
  unfold require
  split
  · exact faultless_problem _
  · exact faultless_ok _

theorem faultless_valueOf (hnamed : ctx.symbols.AllNamed) (t : Term) :
    Faultless (ctx.valueOf t) := by
  unfold valueOf
  split
  · exact faultless_ok _
  · split
    · exact faultless_ok _
    · unfold SymbolTable.lookup
      split
      · exact faultless_ok _
      · -- a missing label is a fault only if a label without a name would have to be suggested
        rw [hnamed]
        exact faultless_problem _

theorem faultless_valueWithin (hnamed : ctx.symbols.AllNamed) (t : Term) (low high : Int)
    (what : String) : Faultless (ctx.valueWithin t low high what) :=
  (faultless_valueOf hnamed t).bind fun _ _ =>
    (faultless_require _ _ _ _).bind fun _ _ => faultless_ok _

theorem faultless_offsetByte (hnamed : ctx.symbols.AllNamed) (t : Term) :
    Faultless (ctx.offsetByte t) :=
  (faultless_valueWithin hnamed t _ _ _).bind fun _ _ =>
    (faultless_require _ _ _ _).bind fun _ _ => faultless_ok _

theorem faultless_restartByte (hnamed : ctx.symbols.AllNamed) (t : Term) :
    Faultless (ctx.restartByte t) :=
  (faultless_valueOf hnamed t).bind fun _ _ =>
    (faultless_require _ _ _ _).bind fun _ _ => faultless_ok _

theorem faultless_modeByte (hnamed : ctx.symbols.AllNamed) (t : Term) :
    Faultless (ctx.modeByte t) :=
  (faultless_valueOf hnamed t).bind fun _ _ =>
    (faultless_require _ _ _ _).bind fun _ _ => faultless_ok _

end Context

theorem Field.faultless_emit {ctx : Context} (hnamed : ctx.symbols.AllNamed) {f : Field}
    (hf : f.isSolid = true) : Faultless (f.emit ctx) := by
  cases f with
  | byte b => exact faultless_ok _
  | foreign element => cases hf
  | byteOf t what => exact (Context.faultless_valueWithin hnamed t _ _ _).map _
  | wordOf t what => exact (Context.faultless_valueWithin hnamed t _ _ _).map _
  | offsetTo t => exact (Context.faultless_offsetByte hnamed t).map _
  | restartAt t => exact (Context.faultless_restartByte hnamed t).map _
  | modeOf t => exact (Context.faultless_modeByte hnamed t).map _
  | bitNumber opcode t => exact (Context.faultless_valueWithin hnamed t _ _ _).map _

theorem Template.faultless_emit {ctx : Context} (hnamed : ctx.symbols.AllNamed) {w : Template}
    (hw : w.Solid) : Faultless (Template.emit ctx w) := by
  induction w with
  | nil => exact faultless_ok _
  | cons f fs ih =>
    have hback := ih fun g hg => hw g (List.mem_cons_of_mem _ hg)
    exact (Field.faultless_emit hnamed (hw f List.mem_cons_self)).bind fun _ _ =>
      hback.bind fun _ _ => faultless_ok _

namespace Instruction

theorem faultless_checkBit {ctx : Context} (hnamed : ctx.symbols.AllNamed) (m : Mnemonic)
    (ops : List Operand) : Faultless (checkBit ctx m ops) := by
  unfold checkBit
  split
  · exact (Context.faultless_valueWithin hnamed _ _ _ _).map _
  · exact faultless_ok _

theorem ofItem_condition (cc : Condition) (location : Location) :
    Operand.ofItem (Item.named .condition cc.name location) = .condition (.ok cc) := by
  simp only [Operand.ofItem, Item.named, Named.ofText_some (Condition.ofName?_name cc)]

/-- The operands of an instruction are genuine if the items are: the condition of a fused mnemonic
is one of the table. -/
theorem genuine_meant (m : Mnemonic) {operands : List Item} (location : Location)
    (hgenuine : ∀ i ∈ operands, i.Genuine) : ∀ x ∈ meant m operands location, x.Genuine := by
  have hplain : ∀ x ∈ operands.map Operand.ofItem, x.Genuine := by
    intro x hx
    obtain ⟨i, hi, rfl⟩ := List.mem_map.1 hx
    exact (hgenuine i hi).operand
  cases m with
  | fused branch cc =>
    change ∀ x ∈ Operand.ofItem (Item.named .condition cc.name location) ::
      operands.map Operand.ofItem, x.Genuine
    rw [ofItem_condition, List.forall_mem_cons]
    exact ⟨.condition cc, hplain⟩
  | _ => exact hplain

/-- A refusal is a fault only if it is about an unknown name. -/
theorem Known.faultless {s : Selection} (hs : Known s) (mnemonic : String) (operands : List Item)
    (location : Location) : Faultless (s.mapError (·.toFailure mnemonic operands location)) := by
  intro f hf
  cases s with
  | ok w => cases hf
  | error refusal =>
    cases refusal with
    | unknownName name => exact hs name rfl
    | _ => cases hf

/-- **Genuine operands never stop the run.** They give bytes, or a report. -/
theorem encode_faultless {ctx : Context} (hnamed : ctx.symbols.AllNamed) (m : Mnemonic)
    {operands : List Item} (location : Location) (hgenuine : ∀ i ∈ operands, i.Genuine) :
    Faultless (encode ctx m operands location) := by
  have hmeant := genuine_meant m location hgenuine
  refine (faultless_checkBit hnamed _ _).bind fun _ _ => Faultless.bind ?_ fun w hw => ?_
  · exact Known.faultless (select_refusal_known _ hmeant) _ _ _
  · have hform := Form.of_select (mapError_eq_ok_iff.1 hw)
    exact Template.faultless_emit hnamed (hform.solid hmeant)

end Instruction

end CrossAssembler
