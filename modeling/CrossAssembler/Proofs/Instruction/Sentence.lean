import CrossAssembler.Proofs.Program.Phase

/-!
# Sentences

The same instruction can be written in several ways. A *sentence* is what is left of a statement when
its spelling is normalised:

* every label is resolved to its number (`Word.ofItem`);
* a fused mnemonic is written out (`Sentence.unfused`): `JPNZ x` as `JP NZ,x`, `IM1` as `IM 1`;
* where a condition stands, the register C is the carry condition (`Sentence.carried`);
* the leading A of an operation on the accumulator is dropped (`Sentence.short`);
* `(IX)` is `(IX+0)`, except in a jump (`Sentence.displaced`).

Nothing else is forgotten but the places of the items: a word keeps the kind, the name and the value
of its item. Operands carry the same words as the items they are made from (`Item.Genuine.word_eq`),
so a sentence can be read off the forms of instructions.
-/

namespace CrossAssembler

/-! ### Words -/

/-- A written operand without its place: its kind, its name and its value. It is what is left of an
operand once its labels are resolved. -/
structure Word where
  kind : ItemKind
  text : Option String := none
  value : Int := 0
  deriving DecidableEq, Repr

namespace Word

def register (r : Register8) : Word := { kind := .register8, text := some r.name }

def special : SpecialRegister → Word
  | .i => { kind := .registerI, text := some "I" }
  | .r => { kind := .registerR, text := some "R" }

def pair (p : Pair) : Word := { kind := .register16, text := some p.name }

def condition (cc : Condition) : Word := { kind := .condition, text := some cc.name }

def atPair (p : Pair) : Word := { kind := .indirectRegister16, text := some p.name }

def atIndex (r : IndexRegister) (d : Int) : Word :=
  { kind := .indirectIndexed, text := some r.name, value := d }

def portC : Word := { kind := .indirectC, text := some "C" }

def direct (v : Int) : Word := { kind := .indirectImmediate, value := v }

def immediate (v : Int) : Word := { kind := .number, value := v }

/-- The word of an item. A label is resolved to its number. -/
def ofItem (symbols : SymbolTable) (i : Item) : Word :=
  match i.kind, i.text with
  | .name, some name => immediate (symbols.valueOrZero name)
  | .indirectImmediate, some name => direct (symbols.valueOrZero name)
  | kind, text => { kind := kind, text := text, value := i.value }

/-- The register C read as the carry condition. -/
def carry (w : Word) : Word :=
  if w = register .c then condition .c else w

/-- An index register between brackets read with displacement zero. -/
def displaced (w : Word) : Word :=
  if w = atPair (.index .ix) then atIndex .ix 0
  else if w = atPair (.index .iy) then atIndex .iy 0
  else w

/-- Only pairs between brackets can be displaced. -/
theorem displaced_of_kind {w : Word} (h : w.kind ≠ .indirectRegister16) : w.displaced = w := by
  have hne : ∀ p, w ≠ atPair p := by
    rintro p rfl
    exact h rfl
  unfold displaced
  rw [if_neg (hne _), if_neg (hne _)]

@[simp] theorem displaced_register (r : Register8) : (register r).displaced = register r :=
  displaced_of_kind nofun

@[simp] theorem displaced_special (s : SpecialRegister) : (special s).displaced = special s := by
  cases s <;> rfl

@[simp] theorem displaced_pair (p : Pair) : (pair p).displaced = pair p :=
  displaced_of_kind nofun

@[simp] theorem displaced_condition (cc : Condition) : (condition cc).displaced = condition cc :=
  displaced_of_kind nofun

@[simp] theorem displaced_portC : portC.displaced = portC := rfl

@[simp] theorem displaced_direct (v : Int) : (direct v).displaced = direct v :=
  displaced_of_kind nofun

@[simp] theorem displaced_immediate (v : Int) : (immediate v).displaced = immediate v :=
  displaced_of_kind nofun

end Word

/-! ### Sentences -/

/-- A mnemonic with words. It is what a statement says, apart from where it stands and how its labels are
called. -/
structure Sentence where
  mnemonic : Mnemonic
  words : List Word
  deriving DecidableEq, Repr

namespace Sentence

/-- A fused mnemonic written out. -/
def unfused (s : Sentence) : Sentence :=
  match s.mnemonic with
  | .fused branch cc => ⟨branch.mnemonic, .condition cc :: s.words⟩
  | .fusedMode mode => ⟨.im, .immediate mode.number :: s.words⟩
  | _ => s

/-- The register C read as the carry where a condition stands. -/
def carried (s : Sentence) : Sentence :=
  match s.mnemonic, s.words with
  -- only branches take a condition, and only as the first operand
  | .jp, [x, y] => ⟨.jp, [x.carry, y]⟩
  | .jr, [x, y] => ⟨.jr, [x.carry, y]⟩
  | .call, [x, y] => ⟨.call, [x.carry, y]⟩
  | .ret, [x] => ⟨.ret, [x.carry]⟩
  | _, _ => s

/-- The leading accumulator of an operation on it dropped. -/
def short (s : Sentence) : Sentence :=
  match s.mnemonic, s.words with
  | .alu op, [x, y] => if x = .register .a then ⟨.alu op, [y]⟩ else s
  | _, _ => s

/-- Index registers between brackets read with displacement zero, except in a jump. -/
def displaced (s : Sentence) : Sentence :=
  if s.mnemonic = .jp then s else ⟨s.mnemonic, s.words.map Word.displaced⟩

/-- The normal form of a sentence. The rules of spelling are applied one after the other, and the bytes
of an instruction tell exactly what is left. -/
def normal (s : Sentence) : Sentence :=
  s.unfused.carried.short.displaced

/-- The sentence of a statement, if it is an instruction: its head is a mnemonic and none of its
items is invalid. -/
def ofStatement? (symbols : SymbolTable) : List Item → Option Sentence
  | [] => none
  | head :: rest =>
    if head.kind = .mnemonic ∧ ((head :: rest).any fun i => i.kind == .invalid) = false then
      (head.text.bind Mnemonic.ofName?).map fun m =>
        normal ⟨m, (rest.filter fun i => i.kind != .comma).map (Word.ofItem symbols)⟩
    else none

/-- The sentences of a program, in order. -/
def ofProgram (symbols : SymbolTable) (items : List Item) : List Sentence :=
  (Line.ofItems items).filterMap fun line => ofStatement? symbols line.statement

end Sentence

/-! ### Words of operands -/

/-- The value of a term under a table; a label without a value counts as zero. -/
def Term.value (symbols : SymbolTable) (t : Term) : Int :=
  match t.meaning with
  | .literal v => v
  | .symbol name => symbols.valueOrZero name

/-- What the final pass takes for the value of a term is its value. -/
theorem Context.valueOf_final {ctx : Context} (hpass : ctx.pass = .final) {t : Term} {v : Int}
    (h : ctx.valueOf t = .ok v) : v = t.value ctx.symbols := by
  obtain ⟨meaning, location⟩ := t
  cases meaning with
  | literal value =>
    cases h
    rfl
  | symbol name =>
    simp only [valueOf, hpass, SymbolTable.lookup] at h
    simp only [Term.value, SymbolTable.valueOrZero]
    split at h
    next value hvalue =>
      cases h
      rw [hvalue]
      rfl
    · -- a label without a value is no value of the final pass
      split at h <;> cases h

namespace Operand

/-- The word of an operand. -/
def word (symbols : SymbolTable) : Operand → Word
  | register (.ok r) => .register r
  | special s => .special s
  | pair (.ok p) => .pair p
  | condition (.ok cc) => .condition cc
  | atPair p => .atPair p
  | atIndex index displacement =>
    { kind := .indirectIndexed,
      text := (IndexRegister.all.find? fun r => some (r.code.toNat : Int) == index).map
        IndexRegister.name,
      value := Int.bmod displacement 256 }
  | portC => .portC
  | direct t => .direct (t.value symbols)
  | immediate t => .immediate (t.value symbols)
  | _ => { kind := .invalid }

/-- The low byte of a displacement still tells it. -/
theorem word_atIndex (symbols : SymbolTable) (r : IndexRegister) {d : Int}
    (hd : -128 ≤ d ∧ d ≤ 127) :
    word symbols (.atIndex (some (r.code.toNat : Int)) (lowPart d)) = .atIndex r d := by
  have hvalue : Int.bmod (lowPart d) 256 = d := by
    -- a displacement is a signed byte, so its low part has one reading
    rw [lowPart, Int.bmod_def]
    omega
  rw [word, hvalue]
  cases r <;> rfl

end Operand

/-- **Operands carry the words of their items**, if they mean anything to an instruction. -/
theorem Item.Genuine.word_eq {i : Item} (hi : i.Genuine) (symbols : SymbolTable)
    (hoperand : Operand.ofItem i ≠ .other) :
    Word.ofItem symbols i = (Operand.ofItem i).word symbols := by
  -- numbers and bracketed forms carry their words; a bare name is looked up in the tables
  cases hi with
  | number v l => rfl
  | portC l => rfl
  | address v l h => rfl
  | labelAddress text l h => rfl
  | indexed r d l h => exact (Operand.word_atIndex symbols r h).symm
  | atPair p l h =>
    rw [ofItem_atPair]
    rfl
  | atIndexRegister r l =>
    rw [ofItem_atIndexRegister]
    rfl
  | bareName text l =>
    have hkind : (ofBareName text l).kind = ItemKind.ofName text := rfl
    have htext : (ofBareName text l).text = some text := rfl
    have hvalue : (ofBareName text l).value = 0 := rfl
    generalize ofBareName text l = i at hoperand hkind htext hvalue ⊢
    -- the kind of a bare name decides the reading, and its table has the name
    rcases ItemKind.ofName_cases text with ⟨k, hk, h⟩ | ⟨m, hm, h⟩ | ⟨r, hr, h⟩ |
      ⟨rfl, h⟩ | ⟨rfl, h⟩ | ⟨p, hp, h⟩ | ⟨cc, hcc, h⟩ | h
    all_goals rw [h] at hkind
    · exact absurd (by simp only [Operand.ofItem, hkind]) hoperand
    · exact absurd (by simp only [Operand.ofItem, hkind]) hoperand
    · simp only [Word.ofItem, Operand.ofItem, hkind, htext, hvalue, Named.ofText_some hr,
        Operand.word, Word.register, name_of_memberNamed hr]
    · simp only [Word.ofItem, Operand.ofItem, hkind, htext, hvalue, Operand.word, Word.special]
    · simp only [Word.ofItem, Operand.ofItem, hkind, htext, hvalue, Operand.word, Word.special]
    · simp only [Word.ofItem, Operand.ofItem, hkind, htext, hvalue, Named.ofText_some hp,
        Operand.word, Word.pair, name_of_memberNamed hp]
    · simp only [Word.ofItem, Operand.ofItem, hkind, htext, hvalue, Named.ofText_some hcc,
        Operand.word, Word.condition, name_of_memberNamed hcc]
    · simp only [Word.ofItem, Operand.ofItem, hkind, htext, Operand.word, Term.ofReference,
        Term.value]
  | _ => exact absurd rfl hoperand

end CrossAssembler
