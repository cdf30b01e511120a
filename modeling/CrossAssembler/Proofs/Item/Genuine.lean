import CrossAssembler.Item.Parse
import CrossAssembler.Operand
import CrossAssembler.Program.Line
import Mathlib.Data.List.TakeWhile

/-!
# Genuine items

Items can be built by hand with any fields, and some of them stop a run. Reading tokens only ever
gives **genuine** items (`parse_genuine`): a name is classed by the tables, a register or condition
is one that its table holds, an index register comes with its own byte and a displacement that fits
a signed byte, and a number carries the bytes and flags of its value.

Two consequences are drawn here for the stages behind:

* `Item.Genuine.operand`: as an operand, a genuine item names members of the tables only, so no
  instruction has to look for a name that is not there;
* `Item.Genuine.fits16_iff`: the flag that a new address is judged by agrees with its value.

Lines are cut out of the items of a program, so everything in them is genuine too
(`genuine_of_mem_line`).
-/

namespace CrossAssembler

/-! ### Members of a family by name -/

/-- The member found under a name bears that name. -/
theorem name_of_memberNamed {α : Type} {all : List α} {name : α → String} {s : String} {a : α}
    (h : memberNamed all name s = some a) : name a = s := by
  have hfound := List.find?_some h
  exact eq_of_beq hfound

theorem Register8.ofName?_name (r : Register8) : Register8.ofName? r.name = some r := by
  cases r <;> decide

theorem Condition.ofName?_name (cc : Condition) : Condition.ofName? cc.name = some cc := by
  cases cc <;> decide

theorem IndexRegister.ofName?_name (r : IndexRegister) :
    IndexRegister.ofName? r.name = some r := by
  cases r <;> decide

theorem Pair.ofName?_name (p : Pair) : Pair.ofName? p.name = some p := by
  cases p with
  | index r => cases r <;> decide
  | _ => decide

/-- **What a bare name is.** Each answer of `ItemKind.ofName` comes with the member of the table
that gave it; a name that no table holds stays a name. -/
theorem ItemKind.ofName_cases (s : String) :
    (∃ k, Keyword.ofName? s = some k ∧ ItemKind.ofName s = .keyword) ∨
    (∃ m, Mnemonic.ofName? s = some m ∧ ItemKind.ofName s = .mnemonic) ∨
    (∃ r, Register8.ofName? s = some r ∧ ItemKind.ofName s = .register8) ∨
    (s = "I" ∧ ItemKind.ofName s = .registerI) ∨
    (s = "R" ∧ ItemKind.ofName s = .registerR) ∨
    (∃ p, Pair.ofName? s = some p ∧ ItemKind.ofName s = .register16) ∨
    (∃ cc, Condition.ofName? s = some cc ∧ ItemKind.ofName s = .condition) ∨
    ItemKind.ofName s = .name := by
  -- the tables are asked in this order, and the first that holds the name decides
  unfold ItemKind.ofName
  split
  next h =>
    obtain ⟨k, hk⟩ := Option.isSome_iff_exists.1 h
    exact Or.inl ⟨k, hk, rfl⟩
  refine Or.inr ?_
  split
  next h =>
    obtain ⟨m, hm⟩ := Option.isSome_iff_exists.1 h
    exact Or.inl ⟨m, hm, rfl⟩
  refine Or.inr ?_
  split
  next h =>
    obtain ⟨r, hr⟩ := Option.isSome_iff_exists.1 h
    exact Or.inl ⟨r, hr, rfl⟩
  refine Or.inr ?_
  split
  next h => exact Or.inl ⟨(name_of_memberNamed h).symm, rfl⟩
  next h => exact Or.inr (Or.inl ⟨(name_of_memberNamed h).symm, rfl⟩)
  refine Or.inr (Or.inr ?_)
  split
  next h =>
    obtain ⟨p, hp⟩ := Option.isSome_iff_exists.1 h
    exact Or.inl ⟨p, hp, rfl⟩
  refine Or.inr ?_
  split
  next h =>
    obtain ⟨cc, hcc⟩ := Option.isSome_iff_exists.1 h
    exact Or.inl ⟨cc, hcc, rfl⟩
  · exact Or.inr rfl

/-- The kinds that a bare name can have. -/
def ItemKind.ofNames : List ItemKind :=
  [.keyword, .mnemonic, .register8, .registerI, .registerR, .register16, .condition, .name]

theorem ItemKind.ofName_mem (s : String) : ItemKind.ofName s ∈ ItemKind.ofNames := by
  rcases ItemKind.ofName_cases s with ⟨-, -, h⟩ | ⟨-, -, h⟩ | ⟨-, -, h⟩ | ⟨-, h⟩ | ⟨-, h⟩ |
    ⟨-, -, h⟩ | ⟨-, -, h⟩ | h
  all_goals
    rw [h]
    decide

/-- No name means a line end, a string, a number or anything else that is not written as a name. -/
theorem ItemKind.ofName_ne {k : ItemKind} (hk : k ∉ ItemKind.ofNames) (s : String) :
    ItemKind.ofName s ≠ k :=
  fun h => hk (h ▸ ItemKind.ofName_mem s)

namespace Item

/-- A bare name as an item: its kind is what the tables say, and a pair that is an index register
carries the byte of that register. -/
def ofBareName (text : String) (location : Location) : Item :=
  { kind := ItemKind.ofName text, location := location, text := some text,
    indexByte :=
      if ItemKind.ofName text = .register16 then
        (IndexRegister.ofName? text).map fun register => (register.code.toNat : Int)
      else none }

/-- An index register between brackets, without displacement. -/
def atIndexRegister (register : IndexRegister) (location : Location) : Item :=
  { kind := .indirectRegister16, location := location, text := some register.name,
    indexByte := some (register.code.toNat : Int) }

/-- **Genuine items**: the items that reading tokens can give, one rule for each way to make
one. -/
inductive Genuine : Item → Prop where
  | separator (l : Location) : Genuine { kind := .separator, location := l }
  | comma (l : Location) : Genuine { kind := .comma, location := l }
  | invalid (l : Location) : Genuine { kind := .invalid, location := l }
  | string (text : String) (l : Location) : Genuine (named .string text l)
  | label (text : String) (l : Location) : Genuine (named .label text l)
  | bareName (text : String) (l : Location) : Genuine (ofBareName text l)
  | number (v : Int) (l : Location) : Genuine (ofNumber v l)
  | atPair (p : Pair) (l : Location) (h : p.isBracketed = true) :
      Genuine (named .indirectRegister16 p.name l)
  | atIndexRegister (r : IndexRegister) (l : Location) : Genuine (atIndexRegister r l)
  | indexed (r : IndexRegister) (d : Int) (l : Location) (h : -128 ≤ d ∧ d ≤ 127) :
      Genuine (ofIndex r d l)
  | portC (l : Location) : Genuine (named .indirectC "C" l)
  | address (v : Int) (l : Location) (h : v ≤ 0xFFFF) :
      Genuine (ofNumber v l .indirectImmediate)
  | labelAddress (text : String) (l : Location) (h : ItemKind.ofName text = .name) :
      Genuine (named .indirectImmediate text l)

end Item

/-! ### Reading gives genuine items

One lemma for each reading function, in the order in which they call each other. -/

namespace Reading

/-- A reading that gives an item gives a genuine one, and not the one that stands for nothing. -/
def Sound (r : Reading) : Prop :=
  ∀ i, r.1 = .ok i → i.Genuine ∧ i.kind ≠ .invalid

theorem sound_ok {i : Item} (h : i.Genuine) (ts : List Token)
    (hkind : i.kind ≠ .invalid := by rintro ⟨⟩) : Sound (.ok i, ts) := by
  intro j hj
  cases hj
  exact ⟨h, hkind⟩

theorem sound_error (d : Diagnostic) (ts : List Token) : Sound (.error d, ts) := by
  intro j hj
  cases hj

theorem sound_close (stop : Location) {i : Item} (h : i.Genuine) (ts : List Token)
    (hkind : i.kind ≠ .invalid := by rintro ⟨⟩) : Sound (close stop i ts) := by
  unfold close
  split
  · exact sound_ok h _ hkind
  · exact sound_error _ _

theorem sound_displacement (stop start : Location) (register : IndexRegister)
    (negative : Bool) (ts : List Token) :
    Sound (displacement stop start register negative ts) := by
  unfold displacement
  split
  next v place rest =>
    dsimp only
    generalize (if negative = true then -v else v) = d
    split
    next h => exact sound_close _ (.indexed register d start h) _
    · exact sound_error _ _
  · exact sound_error _ _

theorem sound_index (stop start : Location) (register : IndexRegister) (ts : List Token) :
    Sound (index stop start register ts) := by
  unfold index
  split
  · exact sound_displacement _ _ _ _ _
  · exact sound_displacement _ _ _ _ _
  · exact sound_close _ (.atIndexRegister register start) _

theorem sound_bracketedName (stop start place : Location) (name : String) (ts : List Token) :
    Sound (bracketedName stop start place name ts) := by
  unfold bracketedName
  split
  · exact sound_index _ _ _ _
  next pair _ hpair =>
    -- the pair was found under its own name
    obtain rfl := name_of_memberNamed hpair
    split
    next h => exact sound_close _ (.atPair pair start h) _
    · exact sound_error _ _
  · split
    next h =>
      subst h
      exact sound_close _ (.portC start) _
    · split
      next h => exact sound_close _ (.labelAddress name start h) _
      · exact sound_error _ _

theorem sound_bracket (stop start : Location) (ts : List Token) :
    Sound (bracket stop start ts) := by
  unfold bracket
  split
  · exact sound_error _ _
  next t rest =>
    split
    · exact sound_error _ _
    · exact sound_error _ _
    next v _ =>
      split
      · exact sound_error _ _
      next h => exact sound_close _ (.address v start (Int.not_lt.1 h)) _
    · exact sound_bracketedName _ _ _ _ _
    · exact sound_error _ _
    · exact sound_error _ _

theorem sound_name (text : String) (place : Location) (ts : List Token) :
    Sound (name text place ts) := by
  unfold name
  split
  · exact sound_ok (.label text place) _
  · exact sound_ok (.bareName text place) _ (ItemKind.ofName_ne (by decide) text)

theorem sound_marked (stop start : Location) (ts : List Token) :
    Sound (marked stop start ts) := by
  unfold marked
  split
  next v place rest => exact sound_ok (.number v place) _
  · exact sound_name _ _ _
  · exact sound_error _ _

/-- **One reading.** Whatever token it starts with, an item that it gives is genuine. -/
theorem sound_start (stop : Location) (t : Token) (ts : List Token) :
    Sound (start stop t ts) := by
  unfold start
  split
  · exact sound_ok (.separator _) _
  · exact sound_ok (.comma _) _
  next v _ => exact sound_ok (.number v _) _
  next text _ => exact sound_ok (.string text _) _
  · exact sound_name _ _ _
  · exact sound_marked _ _ _
  · exact sound_bracket _ _ _
  · exact sound_error _ _
  · exact sound_error _ _
  · exact sound_error _ _

end Reading

/-- What holds of every sound reading holds of all entries. -/
theorem forall_mem_entries {P : Entry → Prop}
    (hP : ∀ (place : Location) (r : Reading), r.Sound → P (Entry.ofReading place r.1))
    (stop : Location) (blank : Bool) (ts : List Token) : ∀ e ∈ entries stop blank ts, P e := by
  fun_induction entries stop blank ts with
  | case1 => simp
  | case2 blank t ts h ih => exact ih
  | case3 blank t ts h ih =>
    intro e he
    rcases List.mem_cons.1 he with rfl | he
    · exact hP _ _ (Reading.sound_start stop t ts)
    · exact ih e he

/-- **Reading gives genuine items**, for any row of tokens. The tokens need not come from a text, so this
holds for every program that can be handed to the assembler as tokens. -/
theorem parse_genuine (file : String) (ts : List Token) :
    ∀ i ∈ (parse file ts).items, i.Genuine := by
  intro i hi
  obtain ⟨e, he, rfl⟩ := List.mem_map.1 hi
  refine forall_mem_entries (P := fun e => e.toItem.Genuine) (fun place r hr => ?_) _ _ _ e he
  unfold Entry.ofReading
  split
  next i hi => exact (hr i hi).1
  · exact .invalid place

/-- **What is left out is reported**: without reports there is no invalid item. -/
theorem kind_ne_invalid_of_reports {file : String} {ts : List Token}
    (hreports : (parse file ts).reports = []) : ∀ i ∈ (parse file ts).items, i.kind ≠ .invalid := by
  intro i hi
  obtain ⟨e, he, rfl⟩ := List.mem_map.1 hi
  have hnone : e.report? = none := List.filterMap_eq_nil_iff.1 hreports e he
  refine forall_mem_entries (P := fun e => e.report? = none → e.toItem.kind ≠ .invalid)
    (fun place r hr hnone => ?_) _ _ _ e he hnone
  cases hr' : r.1 with
  | ok i => exact (hr i hr').2
  | error d =>
    rw [hr'] at hnone
    cases hnone

/-! ### Lines of genuine items -/

namespace Line

theorem mem_of_mem_rows {items row : List Item} (hrow : row ∈ rows items) {i : Item}
    (hi : i ∈ row) : i ∈ items := by
  -- a row is cut off in front of a separator, or starts with the item that is put in front of it
  induction items generalizing row with
  | nil =>
    rw [rows, List.mem_singleton] at hrow
    subst hrow
    exact hi
  | cons x rest ih =>
    rw [rows] at hrow
    split at hrow
    · rcases List.mem_cons.1 hrow with rfl | hrow
      · cases hi
      · exact List.mem_cons_of_mem _ (ih hrow hi)
    · split at hrow
      next hnone =>
        rw [List.mem_singleton] at hrow
        subst hrow
        rw [List.mem_singleton] at hi
        exact hi ▸ List.mem_cons_self
      next first more hrows =>
        rcases List.mem_cons.1 hrow with rfl | hmore
        · rcases List.mem_cons.1 hi with rfl | hi
          · exact List.mem_cons_self
          · exact List.mem_cons_of_mem _ (ih (hrows ▸ List.mem_cons_self) hi)
        · exact List.mem_cons_of_mem _ (ih (hrows ▸ List.mem_cons_of_mem _ hmore) hi)

/-- What stands on a line of a program, in a label or in the statement, is an item of the
program. -/
theorem mem_of_mem_ofItems {items : List Item} {line : Line} (hline : line ∈ ofItems items)
    {i : Item} (hi : i ∈ line.labels ∨ i ∈ line.statement) : i ∈ items := by
  obtain ⟨row, hrow, rfl⟩ := List.mem_map.1 hline
  refine mem_of_mem_rows hrow ?_
  rcases hi with hi | hi
  · exact (List.takeWhile_prefix _).subset hi
  · exact (List.dropWhile_suffix _).subset hi

/-- The labels of a line are label items. -/
theorem kind_of_mem_labels {items : List Item} {line : Line} (hline : line ∈ ofItems items)
    {i : Item} (hi : i ∈ line.labels) : i.kind = .label := by
  obtain ⟨row, -, rfl⟩ := List.mem_map.1 hline
  have h := List.mem_takeWhile_imp hi
  exact eq_of_beq h

end Line

/-- Every item on a line of a program that was read from tokens is genuine. -/
theorem genuine_of_mem_line {file : String} {ts : List Token} {line : Line}
    (hline : line ∈ Line.ofItems (parse file ts).items) {i : Item}
    (hi : i ∈ line.labels ∨ i ∈ line.statement) : i.Genuine :=
  parse_genuine file ts i (Line.mem_of_mem_ofItems hline hi)

/-! ### Genuine items as operands -/

namespace Operand

/-- Operands that name members of the tables only, and whose index bytes are bytes. Operands that are
written down by hand need not be genuine, and those can stop a run. -/
inductive Genuine : Operand → Prop where
  | register (r : Register8) : Genuine (.register (.ok r))
  | special (s : SpecialRegister) : Genuine (.special s)
  | pair (p : Pair) : Genuine (.pair (.ok p))
  | condition (cc : Condition) : Genuine (.condition (.ok cc))
  | atPair (p : Pair) : Genuine (.atPair p)
  | atIndex (r : IndexRegister) (d : Int) (h : -128 ≤ d ∧ d ≤ 127) :
      Genuine (.atIndex (some (r.code.toNat : Int)) (lowPart d))
  | portC : Genuine .portC
  | direct (t : Term) : Genuine (.direct t)
  | immediate (t : Term) : Genuine (.immediate t)
  | other : Genuine .other

end Operand

theorem Named.ofText_some {α : Type} {ofName? : String → Option α} {s : String} {a : α}
    (h : ofName? s = some a) : Named.ofText ofName? (some s) = .ok a := by
  unfold Named.ofText
  rw [Option.bind_some, h]

namespace Item

theorem ofItem_atPair (p : Pair) (l : Location) :
    Operand.ofItem (named .indirectRegister16 p.name l) = .atPair p := by
  simp only [Operand.ofItem, named, Option.bind_some, Pair.ofName?_name]

theorem ofItem_atIndexRegister (r : IndexRegister) (l : Location) :
    Operand.ofItem (atIndexRegister r l) = .atPair (.index r) := by
  have hname : Pair.ofName? r.name = some (.index r) := Pair.ofName?_name (.index r)
  simp only [Operand.ofItem, atIndexRegister, Option.bind_some, hname]

/-- **Genuine items are genuine operands**: whatever an operand names, its table holds. -/
theorem Genuine.operand {i : Item} (h : i.Genuine) : (Operand.ofItem i).Genuine := by
  -- one rule of genuine items for each; only a bare name can be an operand of several kinds
  cases h with
  | separator l => exact .other
  | comma l => exact .other
  | invalid l => exact .other
  | string text l => exact .other
  | label text l => exact .other
  | number v l => exact .immediate _
  | portC l => exact .portC
  | address v l h => exact .direct _
  | labelAddress text l h => exact .direct _
  | indexed r d l h => exact .atIndex r d h
  | atPair p l h =>
    rw [ofItem_atPair]
    exact .atPair p
  | atIndexRegister r l =>
    rw [ofItem_atIndexRegister]
    exact .atPair _
  | bareName text l =>
    -- the kind of a bare name decides the reading, and its table has the name
    unfold Operand.ofItem ofBareName
    rcases ItemKind.ofName_cases text with ⟨k, hk, hkind⟩ | ⟨m, hm, hkind⟩ | ⟨r, hr, hkind⟩ |
      ⟨-, hkind⟩ | ⟨-, hkind⟩ | ⟨p, hp, hkind⟩ | ⟨cc, hcc, hkind⟩ | hkind
    · simp only [hkind]
      exact .other
    · simp only [hkind]
      exact .other
    · simp only [hkind, Named.ofText_some hr]
      exact .register r
    · simp only [hkind]
      exact .special _
    · simp only [hkind]
      exact .special _
    · simp only [hkind, Named.ofText_some hp]
      exact .pair p
    · simp only [hkind, Named.ofText_some hcc]
      exact .condition cc
    · simp only [hkind]
      exact .immediate _

/-- A genuine mnemonic is one that the table holds. -/
theorem Genuine.mnemonic {i : Item} (h : i.Genuine) (hkind : i.kind = .mnemonic) :
    ∃ m, i.text.bind Mnemonic.ofName? = some m := by
  cases h with
  | bareName text l =>
    change ItemKind.ofName text = .mnemonic at hkind
    rcases ItemKind.ofName_cases text with ⟨-, -, h⟩ | ⟨m, hm, -⟩ | ⟨-, -, h⟩ | ⟨-, h⟩ | ⟨-, h⟩ |
      ⟨-, -, h⟩ | ⟨-, -, h⟩ | h
    · rw [hkind] at h
      cases h
    · exact ⟨m, hm⟩
    all_goals
      rw [hkind] at h
      cases h
  | _ => cases hkind

/-- A genuine label has a name. -/
theorem Genuine.label_text {i : Item} (h : i.Genuine) (hkind : i.kind = .label) :
    ∃ name, i.text = some name := by
  cases h with
  | label text l => exact ⟨text, rfl⟩
  | bareName text l => exact ⟨text, rfl⟩
  | _ => cases hkind

/-- A genuine number carries the bytes and flags of its value. -/
theorem Genuine.eq_ofNumber {i : Item} (h : i.Genuine) (hkind : i.kind = .number) :
    i = ofNumber i.value i.location := by
  cases h with
  | number v l => rfl
  | bareName text l =>
    exact absurd hkind (ItemKind.ofName_ne (by decide) text)
  | _ => cases hkind

/-- A genuine number is judged by its value: the flag of an address says whether it is one. -/
theorem Genuine.fits16_iff {i : Item} (h : i.Genuine) (hkind : i.kind = .number) :
    i.fits16 = true ↔ 0 ≤ i.value ∧ i.value ≤ 0xFFFF := by
  rw [h.eq_ofNumber hkind]
  exact decide_eq_true_iff

theorem Genuine.number_fits {i : Item} (h : i.Genuine) (hkind : i.kind = .number)
    (hfits : i.fits16 = true) : 0 ≤ i.value ∧ i.value ≤ 0xFFFF :=
  (h.fits16_iff hkind).1 hfits

end Item

end CrossAssembler
