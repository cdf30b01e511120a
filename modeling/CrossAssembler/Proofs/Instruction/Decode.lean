import CrossAssembler.Proofs.Instruction.Sentence

/-!
# Decoding instructions

The encoder has no inverse in the program, but its bytes determine one. `decode` reads the sentence
of one instruction from the front of a row of bytes, by the fields of its opcode: two bits for the
quadrant, three for the row and three for the column.

* **Patterns**: each page of opcodes gives a pattern, a mnemonic with slots. A slot is a fixed word,
  or is filled from the bytes behind the opcode, or depends on the index register in front of it.
* **Decoding** (`Instruction.Decodes`): some bytes, followed by anything, decode to a sentence and
  what followed is left over. It is enough that the opcode has a pattern whose slots take the bytes
  behind it (`Instruction.decodes_main` and its like).
* **Fields** (`Field.filled_of_emit`): the final pass fills a field with a value that is in range, so
  that the slot of the field takes the value back.
-/

namespace CrossAssembler

/-! ### Slots -/

/-- A byte as a number from -128 to 127. -/
def signed (b : UInt8) : Int :=
  Int.bmod (b.toNat : Int) 256

/-- What the bytes of an instruction decide about one of its words. A slot is fixed by the opcode, or it
is filled by the index register in front of it or by the bytes behind it. -/
inductive Slot where
  | fixed (w : Word)
  /-- HL, or the index register in its place. -/
  | pointer
  /-- The memory that HL points to, or the memory at a displacement from the index register. -/
  | atPointer
  /-- The same as the target of a jump, which takes no displacement. -/
  | jumpPointer
  /-- A number of one byte. -/
  | byte
  /-- The number of a port. -/
  | port
  /-- A number of two bytes. -/
  | word
  /-- An address of two bytes. -/
  | address
  /-- The target of a relative jump. -/
  | target
  deriving DecidableEq, Repr

namespace Slot

/-- The pair that points to memory. -/
def pointerPair (base : Option IndexRegister) : Pair :=
  match base with
  | some r => .index r
  | none => .hl

/-- The word of a slot, and the bytes behind those that it takes. -/
def read (address : Int) (base : Option IndexRegister) :
    Slot → List UInt8 → Option (Word × List UInt8)
  | fixed w, bytes => some (w, bytes)
  | pointer, bytes => some (.pair (pointerPair base), bytes)
  | jumpPointer, bytes => some (.atPair (pointerPair base), bytes)
  | atPointer, bytes =>
    match base, bytes with
    | none, bytes => some (.atPair .hl, bytes)
    | some r, d :: bytes => some (.atIndex r (signed d), bytes)
    | some _, [] => none
  | byte, b :: bytes => some (.immediate b.toNat, bytes)
  | port, b :: bytes => some (.direct b.toNat, bytes)
  | word, low :: high :: bytes => some (.immediate (low.toNat + 256 * high.toNat), bytes)
  | Slot.address, low :: high :: bytes => some (.direct (low.toNat + 256 * high.toNat), bytes)
  | target, b :: bytes => some (.immediate ((address + 2 + signed b) % addressSpace), bytes)
  | _, _ => none

/-- The words of some slots, and the bytes behind those that they take. -/
def readAll (address : Int) (base : Option IndexRegister) :
    List Slot → List UInt8 → Option (List Word × List UInt8)
  | [], bytes => some ([], bytes)
  | slot :: slots, bytes => do
    let (w, bytes) ← slot.read address base bytes
    let (ws, bytes) ← readAll address base slots bytes
    return (w :: ws, bytes)

end Slot

/-- A mnemonic with slots. -/
structure Pattern where
  mnemonic : Mnemonic
  slots : List Slot := []
  deriving DecidableEq, Repr

namespace Pattern

/-- The sentence of a pattern, and the bytes behind those that its slots take. -/
def read (address : Int) (base : Option IndexRegister) (p : Pattern) (bytes : List UInt8) :
    Option (Sentence × List UInt8) :=
  (Slot.readAll address base p.slots bytes).map fun (ws, rest) => (⟨p.mnemonic, ws⟩, rest)

/-! ### Pages of opcodes -/

/-- The register field. -/
def registers : List Slot :=
  [.fixed (.register .b), .fixed (.register .c), .fixed (.register .d), .fixed (.register .e),
   .fixed (.register .h), .fixed (.register .l), .atPointer, .fixed (.register .a)]

/-- The pair field. -/
def pairs : List Slot :=
  [.fixed (.pair .bc), .fixed (.pair .de), .pointer, .fixed (.pair .sp)]

/-- The pair field of the stack. -/
def stackPairs : List Slot :=
  [.fixed (.pair .bc), .fixed (.pair .de), .pointer, .fixed (.pair .af)]

/-- The condition field. -/
def conditions : List Slot :=
  Condition.all.map fun cc => .fixed (.condition cc)

/-- The operation field of rotations, one value of which is free. -/
def rotations : List (Option RotateOp) :=
  [some .rlc, some .rrc, some .rl, some .rr, some .sla, some .sra, none, some .srl]

/-- The accumulator as a word. -/
def accumulator : Slot := .fixed (.register .a)

/-- The first quadrant: jumps, pairs, counting, loads of numbers. -/
def firstQuadrant (row column : Nat) : Option Pattern :=
  match column with
  | 0 =>
    [⟨.implied .nop, []⟩, ⟨.ex, [.fixed (.pair .af), .fixed (.pair .afShadow)]⟩,
     ⟨.djnz, [.target]⟩, ⟨.jr, [.target]⟩,
     ⟨.jr, [.fixed (.condition .nz), .target]⟩, ⟨.jr, [.fixed (.condition .z), .target]⟩,
     ⟨.jr, [.fixed (.condition .nc), .target]⟩, ⟨.jr, [.fixed (.condition .c), .target]⟩][row]?
  | 1 =>
    pairs[row / 2]?.map fun p =>
      if row % 2 = 0 then ⟨.ld, [p, .word]⟩ else ⟨.alu .add, [.pointer, p]⟩
  | 2 =>
    [⟨.ld, [.fixed (.atPair .bc), accumulator]⟩, ⟨.ld, [accumulator, .fixed (.atPair .bc)]⟩,
     ⟨.ld, [.fixed (.atPair .de), accumulator]⟩, ⟨.ld, [accumulator, .fixed (.atPair .de)]⟩,
     ⟨.ld, [.address, .pointer]⟩, ⟨.ld, [.pointer, .address]⟩,
     ⟨.ld, [.address, accumulator]⟩, ⟨.ld, [accumulator, .address]⟩][row]?
  | 3 => pairs[row / 2]?.map fun p => ⟨if row % 2 = 0 then .inc else .dec, [p]⟩
  | 4 => registers[row]?.map fun r => ⟨.inc, [r]⟩
  | 5 => registers[row]?.map fun r => ⟨.dec, [r]⟩
  | 6 => registers[row]?.map fun r => ⟨.ld, [r, .byte]⟩
  | _ =>
    [ImpliedOp.rlca, .rrca, .rla, .rra, .daa, .cpl, .scf, .ccf][row]?.map fun op =>
      ⟨.implied op, []⟩

/-- The last quadrant: returns, the stack, jumps, calls, ports. -/
def lastQuadrant (row column : Nat) : Option Pattern :=
  match column with
  | 0 => conditions[row]?.map fun cc => ⟨.ret, [cc]⟩
  | 1 =>
    if row % 2 = 0 then stackPairs[row / 2]?.map fun p => ⟨.pop, [p]⟩
    else
      [⟨.ret, []⟩, ⟨.implied .exx, []⟩, ⟨.jp, [.jumpPointer]⟩,
       ⟨.ld, [.fixed (.pair .sp), .pointer]⟩][row / 2]?
  | 2 => conditions[row]?.map fun cc => ⟨.jp, [cc, .word]⟩
  | 3 =>
    match row with
    | 0 => some ⟨.jp, [.word]⟩
    | 2 => some ⟨.output, [.port, accumulator]⟩
    | 3 => some ⟨.input, [accumulator, .port]⟩
    | 4 => some ⟨.ex, [.fixed (.atPair .sp), .pointer]⟩
    | 5 => some ⟨.ex, [.fixed (.pair .de), .fixed (.pair .hl)]⟩
    | 6 => some ⟨.implied .di, []⟩
    | 7 => some ⟨.implied .ei, []⟩
    -- row 1 opens the bit page
    | _ => none
  | 4 => conditions[row]?.map fun cc => ⟨.call, [cc, .word]⟩
  | 5 =>
    if row % 2 = 0 then stackPairs[row / 2]?.map fun p => ⟨.push, [p]⟩
    else if row = 1 then some ⟨.call, [.word]⟩
    -- the other odd rows name an index register or open the extended page
    else none
  | 6 => AluOp.all[row]?.map fun op => ⟨.alu op, [.byte]⟩
  | _ => some ⟨.rst, [.fixed (.immediate (8 * row))]⟩

/-- The pattern of an opcode that stands first, or behind an index register. The bytes that open a
page or name an index register have none. -/
def main (opcode : UInt8) : Option Pattern :=
  let row := opcode.toNat / 8 % 8
  let column := opcode.toNat % 8
  match opcode.toNat / 64 with
  | 0 => firstQuadrant row column
  | 1 =>
    if row = 6 ∧ column = 6 then some ⟨.implied .halt, []⟩
    else
      registers[row]?.bind fun r => registers[column]?.map fun s => ⟨.ld, [r, s]⟩
  | 2 => AluOp.all[row]?.bind fun op => registers[column]?.map fun r => ⟨.alu op, [r]⟩
  | _ => lastQuadrant row column

/-- The pattern of an opcode of the bit page. -/
def bit (opcode : UInt8) : Option Pattern :=
  let row := opcode.toNat / 8 % 8
  registers[opcode.toNat % 8]?.bind fun r =>
    match opcode.toNat / 64 with
    | 0 => (rotations[row]?.bind id).map fun op => ⟨.rotate op, [r]⟩
    | 1 => some ⟨.bit .bit, [.fixed (.immediate row), r]⟩
    | 2 => some ⟨.bit .res, [.fixed (.immediate row), r]⟩
    | _ => some ⟨.bit .set, [.fixed (.immediate row), r]⟩

/-- The pattern of an opcode of the extended page. -/
def extended (opcode : UInt8) : Option Pattern :=
  let row := opcode.toNat / 8 % 8
  match opcode.toNat / 64, opcode.toNat % 8 with
  -- ports go with registers only, so the memory field is free
  | 1, 0 => if row = 6 then none else registers[row]?.map fun r => ⟨.input, [r, .fixed .portC]⟩
  | 1, 1 => if row = 6 then none else registers[row]?.map fun r => ⟨.output, [.fixed .portC, r]⟩
  | 1, 2 =>
    pairs[row / 2]?.map fun p => ⟨.alu (if row % 2 = 0 then .sbc else .adc), [.pointer, p]⟩
  | 1, 3 =>
    pairs[row / 2]?.map fun p =>
      if row % 2 = 0 then ⟨.ld, [.address, p]⟩ else ⟨.ld, [p, .address]⟩
  | 1, 4 => if row = 0 then some ⟨.implied .neg, []⟩ else none
  | 1, 5 => [ImpliedOp.retn, .reti][row]?.map fun op => ⟨.implied op, []⟩
  | 1, 6 => [some 0, none, some 1, some 2][row]?.bind fun mode =>
      mode.map fun n => ⟨.im, [.fixed (.immediate n)]⟩
  | 1, _ =>
    -- the special registers, and the rotations of digits
    [⟨.ld, [.fixed (.special .i), accumulator]⟩, ⟨.ld, [.fixed (.special .r), accumulator]⟩,
     ⟨.ld, [accumulator, .fixed (.special .i)]⟩, ⟨.ld, [accumulator, .fixed (.special .r)]⟩,
     ⟨.implied .rrd, []⟩, ⟨.implied .rld, []⟩][row]?
  -- block operations take the upper four rows
  | 2, 0 => [ImpliedOp.ldi, .ldd, .ldir, .lddr][row - 4]?.map fun op => ⟨.implied op, []⟩
  | 2, 1 => [ImpliedOp.cpi, .cpd, .cpir, .cpdr][row - 4]?.map fun op => ⟨.implied op, []⟩
  | 2, 2 => [ImpliedOp.ini, .ind, .inir, .indr][row - 4]?.map fun op => ⟨.implied op, []⟩
  | 2, 3 => [ImpliedOp.outi, .outd, .otir, .otdr][row - 4]?.map fun op => ⟨.implied op, []⟩
  | _, _ => none

end Pattern

/-! ### The decoder -/

namespace Instruction

/-- The sentence behind an index register and the byte of the bit page: the displacement stands in
front of the opcode. -/
def decodeIndexedBit (address : Int) (r : IndexRegister) :
    List UInt8 → Option (Sentence × List UInt8)
  | d :: opcode :: bytes =>
    (Pattern.bit opcode).bind fun p => p.read address (some r) (d :: bytes)
  | _ => none

/-- The sentence behind an index register. -/
def decodeIndexed (address : Int) (r : IndexRegister) : List UInt8 → Option (Sentence × List UInt8)
  | b :: bytes =>
    if b = bitPage then decodeIndexedBit address r bytes
    else (Pattern.main b).bind fun p => p.read address (some r) bytes
  | [] => none

/-- The sentence behind a byte that opens a page. -/
def decodePage (address : Int) (pattern? : UInt8 → Option Pattern) :
    List UInt8 → Option (Sentence × List UInt8)
  | opcode :: bytes => (pattern? opcode).bind fun p => p.read address none bytes
  | [] => none

/-- The sentence of the instruction at an address, and the bytes behind the instruction. The address is
needed for relative jumps, whose sentences name the target and not the distance. -/
def decode (address : Int) : List UInt8 → Option (Sentence × List UInt8)
  | b :: bytes =>
    match Pattern.main b with
    | some p => p.read address none bytes
    | none =>
      if b = bitPage then decodePage address Pattern.bit bytes
      else if b = extendedPage then decodePage address Pattern.extended bytes
      else
        (IndexRegister.all.find? fun r => r.code == b).bind fun r => decodeIndexed address r bytes
  | [] => none

/-- Some bytes, followed by anything, decode to a sentence, and what followed is left over. Since
anything may follow, encodings that decode so can be told apart without marks between them. -/
def Decodes (address : Int) (bytes : List UInt8) (s : Sentence) : Prop :=
  ∀ rest, decode address (bytes ++ rest) = some (s, rest)

/-- The slots of a pattern take some bytes for some words, whatever follows. -/
def Takes (address : Int) (base : Option IndexRegister) (slots : List Slot) (bytes : List UInt8)
    (ws : List Word) : Prop :=
  ∀ rest, Slot.readAll address base slots (bytes ++ rest) = some (ws, rest)

variable {a : Int} {base : Option IndexRegister} {p : Pattern} {opcode : UInt8}
  {bytes : List UInt8} {ws : List Word}

theorem Takes.read (h : Takes a base p.slots bytes ws) (rest : List UInt8) :
    p.read a base (bytes ++ rest) = some (⟨p.mnemonic, ws⟩, rest) := by
  rw [Pattern.read, h rest]
  rfl

theorem decodes_main (hp : Pattern.main opcode = some p) (h : Takes a none p.slots bytes ws) :
    Decodes a (opcode :: bytes) ⟨p.mnemonic, ws⟩ := by
  intro rest
  rw [List.cons_append, decode, hp]
  exact h.read rest

theorem decodes_extended (hp : Pattern.extended opcode = some p)
    (h : Takes a none p.slots bytes ws) :
    Decodes a (extendedPage :: opcode :: bytes) ⟨p.mnemonic, ws⟩ := by
  intro rest
  change decodePage a Pattern.extended (opcode :: (bytes ++ rest)) = _
  rw [decodePage, hp]
  exact h.read rest

theorem decodes_bit (hp : Pattern.bit opcode = some p) (h : Takes a none p.slots bytes ws) :
    Decodes a (bitPage :: opcode :: bytes) ⟨p.mnemonic, ws⟩ := by
  intro rest
  change decodePage a Pattern.bit (opcode :: (bytes ++ rest)) = _
  rw [decodePage, hp]
  exact h.read rest

/-- Behind an index register the decoder goes on with that register. -/
theorem decode_index (a : Int) (r : IndexRegister) (bytes : List UInt8) :
    decode a (r.code :: bytes) = decodeIndexed a r bytes := by
  cases r <;> rfl

theorem decodes_index (r : IndexRegister) (hp : Pattern.main opcode = some p)
    (h : Takes a (some r) p.slots bytes ws) :
    Decodes a (r.code :: opcode :: bytes) ⟨p.mnemonic, ws⟩ := by
  intro rest
  -- the byte of the bit page has no pattern of its own
  have hopcode : opcode ≠ bitPage := by
    rintro rfl
    cases hp
  rw [List.cons_append, decode_index, List.cons_append, decodeIndexed, if_neg hopcode, hp]
  exact h.read rest

theorem decodes_indexBit (r : IndexRegister) (d : UInt8) (hp : Pattern.bit opcode = some p)
    (h : Takes a (some r) p.slots (d :: bytes) ws) :
    Decodes a (r.code :: bitPage :: d :: opcode :: bytes) ⟨p.mnemonic, ws⟩ := by
  intro rest
  rw [List.cons_append, decode_index]
  change decodeIndexedBit a r (d :: opcode :: (bytes ++ rest)) = _
  rw [decodeIndexedBit, hp]
  exact h.read rest

/-! ### Slots take values back -/

theorem Takes.nil : Takes a base [] [] [] := fun _ => rfl

theorem Takes.fixed {slots : List Slot} (w : Word) (h : Takes a base slots bytes ws) :
    Takes a base (.fixed w :: slots) bytes (w :: ws) := by
  intro rest
  simp only [Slot.readAll, Slot.read, Option.bind_eq_bind, Option.bind_some, h rest]
  rfl

theorem Takes.allFixed (front : List Word) {slots : List Slot} (h : Takes a base slots bytes ws) :
    Takes a base (front.map .fixed ++ slots) bytes (front ++ ws) := by
  induction front with
  | nil => exact h
  | cons w front ih => exact ih.fixed w

theorem Takes.pointer {slots : List Slot} (h : Takes a base slots bytes ws) :
    Takes a base (.pointer :: slots) bytes (.pair (Slot.pointerPair base) :: ws) := by
  intro rest
  simp only [Slot.readAll, Slot.read, Option.bind_eq_bind, Option.bind_some, h rest]
  rfl

theorem Takes.jumpPointer : Takes a base [.jumpPointer] []
    [.atPair (Slot.pointerPair base)] := fun _ => rfl

/-- The low byte of a value of one byte is the value. -/
theorem toNat_lowByte {v : Int} (hv : 0 ≤ v ∧ v ≤ 0xFF) : ((lowByte v).toNat : Int) = v := by
  unfold lowByte lowPart
  rw [UInt8.toNat_ofNat']
  omega

/-- The two bytes of a value of two bytes are the value. -/
theorem toNat_lowByte_highByte {v : Int} (hv : 0 ≤ v ∧ v ≤ 0xFFFF) :
    ((lowByte v).toNat : Int) + 256 * ((highByte v).toNat : Int) = v := by
  unfold lowByte lowPart highByte highPart
  rw [UInt8.toNat_ofNat', UInt8.toNat_ofNat']
  omega

/-- The low byte of a number from -128 to 127 is the number, read with its sign. -/
theorem signed_lowByte {d : Int} (hd : -128 ≤ d ∧ d ≤ 127) : signed (lowByte d) = d := by
  unfold signed lowByte lowPart
  rw [UInt8.toNat_ofNat', Int.bmod_def]
  omega

theorem Takes.byte {slots : List Slot} {v : Int} (hv : 0 ≤ v ∧ v ≤ 0xFF)
    (h : Takes a base slots bytes ws) :
    Takes a base (.byte :: slots) (lowByte v :: bytes) (.immediate v :: ws) := by
  intro rest
  simp only [List.cons_append, Slot.readAll, Slot.read, Option.bind_eq_bind, Option.bind_some,
    h rest, toNat_lowByte hv]
  rfl

theorem Takes.port {slots : List Slot} {v : Int} (hv : 0 ≤ v ∧ v ≤ 0xFF)
    (h : Takes a base slots bytes ws) :
    Takes a base (.port :: slots) (lowByte v :: bytes) (.direct v :: ws) := by
  intro rest
  simp only [List.cons_append, Slot.readAll, Slot.read, Option.bind_eq_bind, Option.bind_some,
    h rest, toNat_lowByte hv]
  rfl

theorem Takes.word {slots : List Slot} {v : Int} (hv : 0 ≤ v ∧ v ≤ 0xFFFF)
    (h : Takes a base slots bytes ws) :
    Takes a base (.word :: slots) (lowByte v :: highByte v :: bytes)
      (.immediate v :: ws) := by
  intro rest
  simp only [List.cons_append, Slot.readAll, Slot.read, Option.bind_eq_bind, Option.bind_some,
    h rest, toNat_lowByte_highByte hv]
  rfl

theorem Takes.atAddress {slots : List Slot} {v : Int} (hv : 0 ≤ v ∧ v ≤ 0xFFFF)
    (h : Takes a base slots bytes ws) :
    Takes a base (.address :: slots) (lowByte v :: highByte v :: bytes)
      (.direct v :: ws) := by
  intro rest
  simp only [List.cons_append, Slot.readAll, Slot.read, Option.bind_eq_bind, Option.bind_some,
    h rest, toNat_lowByte_highByte hv]
  rfl

/-- A relative jump lands on its target, round the end of the address space if need be. -/
theorem Takes.target {v : Int} (hv : 0 ≤ v ∧ v ≤ 0xFFFF)
    (hd : -128 ≤ Int.bmod (v - (a + 2)) 0x10000 ∧
      Int.bmod (v - (a + 2)) 0x10000 ≤ 127) :
    Takes a base [.target] [lowByte (Int.bmod (v - (a + 2)) 0x10000)]
      [.immediate v] := by
  intro rest
  have hland : (a + 2 + signed (lowByte (Int.bmod (v - (a + 2)) 0x10000))) %
      addressSpace = v := by
    -- the offset and the target differ by whole turns round the address space
    rw [signed_lowByte hd, Int.bmod_def]
    unfold addressSpace
    omega
  simp only [List.cons_append, List.nil_append, Slot.readAll, Slot.read, Option.bind_eq_bind,
    Option.bind_some, hland]
  rfl

end Instruction

/-! ### Fields of the final pass -/

/-- What the final pass fills a field with, and the range that the value keeps to. A foreign element is never
filled, so it has no rule. -/
inductive Field.Filled (ctx : Context) : Field → List UInt8 → Prop where
  | byte (b : UInt8) : Filled ctx (.byte b) [b]
  | byteOf {t : Term} {what : String}
      (h : 0 ≤ t.value ctx.symbols ∧ t.value ctx.symbols ≤ 0xFF) :
      Filled ctx (.byteOf t what) [lowByte (t.value ctx.symbols)]
  | wordOf {t : Term} {what : String}
      (h : 0 ≤ t.value ctx.symbols ∧ t.value ctx.symbols ≤ 0xFFFF) :
      Filled ctx (.wordOf t what)
        [lowByte (t.value ctx.symbols), highByte (t.value ctx.symbols)]
  | offsetTo {t : Term} (h : 0 ≤ t.value ctx.symbols ∧ t.value ctx.symbols ≤ 0xFFFF)
      (hreach : -128 ≤ ctx.distance (t.value ctx.symbols) ∧
        ctx.distance (t.value ctx.symbols) ≤ 127) :
      Filled ctx (.offsetTo t) [lowByte (ctx.distance (t.value ctx.symbols))]
  | restartAt {t : Term} {n : Nat} (hn : n ∈ restartTargets) (h : t.value ctx.symbols = n) :
      Filled ctx (.restartAt t) [0xC7 ||| lowByte n &&& 0x38]
  | modeOf {t : Term} (mode : InterruptMode) (h : t.value ctx.symbols = mode.number) :
      Filled ctx (.modeOf t) [mode.code]
  | bitNumber {opcode : UInt8} {t : Term} {n : Nat} (hn : n < 8)
      (h : t.value ctx.symbols = n) :
      Filled ctx (.bitNumber opcode t) [Opcode.middle opcode (lowByte n &&& 7)]

theorem Field.filled_of_emit {ctx : Context} (hpass : ctx.pass = .final) {f : Field}
    {bytes : List UInt8} (h : f.emit ctx = .ok bytes) : Filled ctx f bytes := by
  have hwithin : ∀ {t : Term} {low high : Int} {what : String} {v : Int},
      ctx.valueWithin t low high what = .ok v →
        v = t.value ctx.symbols ∧ low ≤ v ∧ v ≤ high := by
    intro t low high what v hv
    obtain ⟨hv, hbounds⟩ := Context.valueWithin_eq_ok_iff.1 hv
    exact ⟨Context.valueOf_final hpass hv, hbounds hpass⟩
  -- each field has its own range, and the value of its term keeps to it
  cases f with
  | byte b =>
    cases h
    exact .byte b
  | foreign element => cases element <;> cases h
  | byteOf t what =>
    obtain ⟨v, hv, rfl⟩ := map_eq_ok_iff.1 h
    obtain ⟨rfl, hbounds⟩ := hwithin hv
    exact .byteOf hbounds
  | wordOf t what =>
    obtain ⟨v, hv, rfl⟩ := map_eq_ok_iff.1 h
    obtain ⟨rfl, hbounds⟩ := hwithin hv
    exact .wordOf hbounds
  | offsetTo t =>
    obtain ⟨b, hb, rfl⟩ := map_eq_ok_iff.1 h
    obtain ⟨v, hv, hreach, rfl⟩ := Context.offsetByte_eq_ok_iff.1 hb
    obtain rfl := Context.valueOf_final hpass hv
    exact .offsetTo (hreach hpass).1 (hreach hpass).2
  | restartAt t =>
    obtain ⟨b, hb, rfl⟩ := map_eq_ok_iff.1 h
    obtain ⟨v, hv, htarget, rfl⟩ := Context.restartByte_eq_ok_iff.1 hb
    obtain ⟨n, hn, rfl⟩ := htarget hpass
    exact .restartAt hn (Context.valueOf_final hpass hv).symm
  | modeOf t =>
    obtain ⟨b, hb, rfl⟩ := map_eq_ok_iff.1 h
    obtain ⟨v, hv, hmode, rfl⟩ := Context.modeByte_eq_ok_iff.1 hb
    obtain ⟨mode, hmode⟩ := Option.isSome_iff_exists.1 (hmode hpass)
    have hnumber := List.find?_some hmode
    rw [beq_iff_eq] at hnumber
    rw [hmode]
    exact .modeOf mode ((Context.valueOf_final hpass hv).symm.trans hnumber.symm)
  | bitNumber opcode t =>
    obtain ⟨v, hv, rfl⟩ := map_eq_ok_iff.1 h
    obtain ⟨hvalue, hbounds⟩ := hwithin hv
    obtain ⟨n, rfl⟩ := Int.eq_ofNat_of_zero_le hbounds.1
    exact .bitNumber (by omega) hvalue.symm

namespace Template

/-- A byte of a template is the first of its bytes. -/
theorem emit_byte_cons_iff {ctx : Context} {b : UInt8} {w : Template} {bytes : List UInt8} :
    Template.emit ctx (.byte b :: w) = .ok bytes ↔
      ∃ back, Template.emit ctx w = .ok back ∧ bytes = b :: back := by
  rw [emit_cons_iff]
  constructor
  · rintro ⟨front, back, hfront, hback, rfl⟩
    cases hfront
    exact ⟨back, hback, rfl⟩
  · rintro ⟨back, hback, rfl⟩
    exact ⟨[b], back, rfl, hback, rfl⟩

/-- Bytes at the front of a template are the first of its bytes. -/
theorem emit_bytes_append_iff {ctx : Context} {front : List UInt8} {w : Template}
    {bytes : List UInt8} :
    Template.emit ctx (front.map Field.byte ++ w) = .ok bytes ↔
      ∃ back, Template.emit ctx w = .ok back ∧ bytes = front ++ back := by
  rw [emit_bytes_append, map_eq_ok_iff]
  exact exists_congr fun back => and_congr_right fun _ => eq_comm

/-- The last field of a template. -/
theorem filled_of_emit_singleton {ctx : Context} (hpass : ctx.pass = .final) {f : Field}
    {bytes : List UInt8} (h : Template.emit ctx [f] = .ok bytes) : f.Filled ctx bytes := by
  obtain ⟨front, back, hfront, hback, rfl⟩ := emit_cons_iff.1 h
  rw [emit_nil_iff.1 hback, List.append_nil]
  exact Field.filled_of_emit hpass hfront

end Template

/-! ### Bytes in memory -/

/-- A byte in memory, as the bytes of an instruction tell it. -/
inductive Place where
  | hl
  | index (r : IndexRegister) (d : Int) (hd : -128 ≤ d ∧ d ≤ 127)

namespace Place

/-- The index register. -/
def base : Place → Option IndexRegister
  | hl => none
  | index r _ _ => some r

def word : Place → Word
  | hl => .atPair .hl
  | index r d _ => .atIndex r d

/-- What stands in front of the opcode. -/
def front : Place → List UInt8
  | hl => []
  | index r _ _ => [r.code]

/-- What stands behind it. -/
def back : Place → List UInt8
  | hl => []
  | index _ d _ => [lowByte d]

end Place

/-- A genuine operand that means a byte in memory means a place. -/
theorem Operand.Genuine.exists_place {x : Operand} (hx : x.Genuine) {m : MemoryForm}
    (h : x.memory? = some m) (symbols : SymbolTable) :
    ∃ q : Place, (x.word symbols).displaced = q.word ∧
      m = ⟨q.front.map Field.byte, q.back.map Field.byte⟩ := by
  -- an index register alone is the place at displacement zero
  rcases hx.memory_cases h with ⟨rfl, rfl⟩ | ⟨r, rfl, rfl⟩ | ⟨r, d, hd, rfl, rfl⟩
  · exact ⟨.hl, rfl, rfl⟩
  · refine ⟨.index r 0 ⟨by decide, by decide⟩, ?_, rfl⟩
    cases r <;> rfl
  · refine ⟨.index r d hd, ?_, rfl⟩
    rw [Operand.word_atIndex symbols r hd]
    cases r <;> rfl

namespace Instruction

variable {a : Int} {p : Pattern} {opcode : UInt8} {bytes : List UInt8} {ws : List Word}

theorem Takes.place (q : Place) {slots : List Slot} (h : Takes a q.base slots bytes ws) :
    Takes a q.base (.atPointer :: slots) (q.back ++ bytes) (q.word :: ws) := by
  intro rest
  cases q with
  | hl =>
    have hrest := h rest
    simp only [Place.base] at hrest
    simp only [Place.back, Place.base, Place.word, List.nil_append, Slot.readAll, Slot.read,
      Option.bind_eq_bind, Option.bind_some, hrest]
    rfl
  | index r d hd =>
    have hrest := h rest
    simp only [Place.base] at hrest
    simp only [Place.back, Place.base, Place.word, List.cons_append, List.nil_append,
      Slot.readAll, Slot.read, Option.bind_eq_bind, Option.bind_some, hrest, signed_lowByte hd]
    rfl

theorem decodes_place (q : Place) (hp : Pattern.main opcode = some p)
    (h : Takes a q.base p.slots bytes ws) :
    Decodes a (q.front ++ opcode :: bytes) ⟨p.mnemonic, ws⟩ := by
  cases q with
  | hl => exact decodes_main hp h
  | index r d hd => exact decodes_index r hp h

theorem decodes_placeBit (q : Place) (hp : Pattern.bit opcode = some p)
    (h : Takes a q.base p.slots q.back ws) :
    Decodes a (q.front ++ bitPage :: (q.back ++ [opcode])) ⟨p.mnemonic, ws⟩ := by
  cases q with
  | hl => exact decodes_bit hp h
  | index r d hd => exact decodes_indexBit r (lowByte d) hp h

/-- The bytes of an instruction on a place. -/
theorem emit_around_iff {ctx : Context} {q : Place} {w : Template} :
    Template.emit ctx
        (MemoryForm.around ⟨q.front.map Field.byte, q.back.map Field.byte⟩ opcode ++ w) =
          .ok bytes ↔
      ∃ tail, Template.emit ctx w = .ok tail ∧ bytes = q.front ++ opcode :: (q.back ++ tail) := by
  rw [MemoryForm.around, List.append_assoc, List.append_assoc, Template.emit_bytes_append_iff]
  constructor
  · rintro ⟨others, hothers, rfl⟩
    obtain ⟨back, hback, rfl⟩ := Template.emit_byte_cons_iff.1 hothers
    obtain ⟨tail, htail, rfl⟩ := Template.emit_bytes_append_iff.1 hback
    exact ⟨tail, htail, rfl⟩
  · rintro ⟨tail, htail, rfl⟩
    exact ⟨opcode :: (q.back ++ tail), Template.emit_byte_cons_iff.2
      ⟨q.back ++ tail, Template.emit_bytes_append_iff.2 ⟨tail, htail, rfl⟩, rfl⟩, rfl⟩

end Instruction

end CrossAssembler
