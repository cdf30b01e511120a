import CrossAssembler.Proofs.Instruction.Emission
import Mathlib.Data.List.Forall2

/-!
# What is written and what it means

The operands and values of an instruction, told by what is written and not by the way they are
found. The tables of documented instructions are stated in these terms.

* `Item.Denotes` says which operand an item stands for, by its kind, its text and its value. For
  genuine items the reading of the encoder finds the same (`Item.forall₂_denotes_iff`).
* `Term.HasValue` says which value a term has under a symbol table; the final pass finds it, and
  reports a value that does not fit or is not there (`ReportedAs`).
-/

namespace CrossAssembler

/-! ### What an item stands for -/

namespace Item

/-- **The operand that an item denotes**, told by what is written. It is a relation between the two, to
state what an instruction makes of its items without the functions that compute it. -/
inductive Denotes : Item → Operand → Prop where
  | register {i : Item} (r : Register8) (hkind : i.kind = .register8)
      (htext : i.text = some r.name) : Denotes i (.register (.ok r))
  | interrupt {i : Item} (hkind : i.kind = .registerI) : Denotes i (.special .i)
  | refresh {i : Item} (hkind : i.kind = .registerR) : Denotes i (.special .r)
  | pair {i : Item} (p : Pair) (hkind : i.kind = .register16) (htext : i.text = some p.name) :
      Denotes i (.pair (.ok p))
  | condition {i : Item} (cc : Condition) (hkind : i.kind = .condition)
      (htext : i.text = some cc.name) : Denotes i (.condition (.ok cc))
  | atPair {i : Item} (p : Pair) (hkind : i.kind = .indirectRegister16)
      (htext : i.text = some p.name) : Denotes i (.atPair p)
  | atIndex {i : Item} (r : IndexRegister) (hkind : i.kind = .indirectIndexed)
      (htext : i.text = some r.name) :
      Denotes i (.atIndex (some (r.code.toNat : Int)) (lowPart i.value))
  | portC {i : Item} (hkind : i.kind = .indirectC) : Denotes i .portC
  | address {i : Item} (hkind : i.kind = .indirectImmediate) (htext : i.text = none) :
      Denotes i (.direct ⟨.literal i.value, i.location⟩)
  | labelAddress {i : Item} {name : String} (hkind : i.kind = .indirectImmediate)
      (htext : i.text = some name) : Denotes i (.direct ⟨.symbol name, i.location⟩)
  | number {i : Item} (hkind : i.kind = .number) :
      Denotes i (.immediate ⟨.literal i.value, i.location⟩)
  | label {i : Item} {name : String} (hkind : i.kind = .name) (htext : i.text = some name) :
      Denotes i (.immediate ⟨.symbol name, i.location⟩)

/-- A genuine item of the indexed kind is an index register with a displacement. -/
theorem Genuine.eq_ofIndex {i : Item} (hi : i.Genuine) (hkind : i.kind = .indirectIndexed) :
    ∃ r d l, i = ofIndex r d l := by
  cases hi with
  | indexed r d l hd => exact ⟨r, d, l, rfl⟩
  | bareName text l =>
    exact absurd hkind (ItemKind.ofName_ne (by decide) text)
  | _ => cases hkind

/-- The reading of an item finds the operand that the item denotes; only of an index register with a
displacement it reads more than is written. -/
theorem Denotes.ofItem_eq_of_kind {i : Item} {x : Operand} (h : i.Denotes x)
    (hindexed : i.kind ≠ .indirectIndexed) : Operand.ofItem i = x := by
  -- what is denoted is told by the kind, and its table holds the name
  cases h with
  | register r hkind htext =>
    simp only [Operand.ofItem, hkind, htext, Named.ofText_some (Register8.ofName?_name r)]
  | pair p hkind htext =>
    simp only [Operand.ofItem, hkind, htext, Named.ofText_some (Pair.ofName?_name p)]
  | condition cc hkind htext =>
    simp only [Operand.ofItem, hkind, htext, Named.ofText_some (Condition.ofName?_name cc)]
  | atPair p hkind htext =>
    simp only [Operand.ofItem, hkind, htext, Option.bind_some, Pair.ofName?_name p]
  | atIndex r hkind htext => exact absurd hkind hindexed
  | interrupt hkind => simp only [Operand.ofItem, hkind]
  | refresh hkind => simp only [Operand.ofItem, hkind]
  | portC hkind => simp only [Operand.ofItem, hkind]
  | address hkind htext =>
    simp only [Operand.ofItem, hkind, Term.ofReference, htext, Term.ofNumber]
  | labelAddress hkind htext => simp only [Operand.ofItem, hkind, Term.ofReference, htext]
  | number hkind => simp only [Operand.ofItem, hkind, Term.ofNumber]
  | label hkind htext => simp only [Operand.ofItem, hkind, Term.ofReference, htext]

theorem Denotes.ofItem_eq {i : Item} {x : Operand} (h : i.Denotes x) (hi : i.Genuine) :
    Operand.ofItem i = x := by
  by_cases hindexed : i.kind = .indirectIndexed
  · -- only here the fields that the item carries beside its text and value are read
    obtain ⟨r, d, l, rfl⟩ := hi.eq_ofIndex hindexed
    cases h with
    | atIndex r' hkind htext =>
      have hregister : some r = some r' := by
        rw [← IndexRegister.ofName?_name r, Option.some.inj htext, IndexRegister.ofName?_name]
      cases hregister
      rfl
    | register _ hkind | interrupt hkind | refresh hkind | pair _ hkind | condition _ hkind
    | atPair _ hkind | portC hkind | address hkind | labelAddress hkind | number hkind
    | label hkind => cases hkind
  · exact h.ofItem_eq_of_kind hindexed

theorem Denotes.ne_other {i : Item} {x : Operand} (h : i.Denotes x) : x ≠ .other := by
  rintro rfl
  cases h

/-- A genuine item that can be an operand denotes what it is read as. -/
theorem Genuine.denotes_ofItem {i : Item} (hi : i.Genuine) (hx : Operand.ofItem i ≠ .other) :
    i.Denotes (Operand.ofItem i) := by
  cases hi with
  | separator l => exact absurd rfl hx
  | comma l => exact absurd rfl hx
  | invalid l => exact absurd rfl hx
  | string text l => exact absurd rfl hx
  | label text l => exact absurd rfl hx
  | number v l => exact .number rfl
  | portC l => exact .portC rfl
  | address v l h => exact .address rfl rfl
  | labelAddress text l h => exact .labelAddress rfl rfl
  | indexed r d l h => exact .atIndex r rfl rfl
  | atPair p l h =>
    rw [ofItem_atPair]
    exact .atPair p rfl rfl
  | atIndexRegister r l =>
    rw [ofItem_atIndexRegister]
    exact .atPair (.index r) rfl rfl
  | bareName text l =>
    -- what a bare name is read as bears that name
    unfold Operand.ofItem at hx ⊢
    rcases ItemKind.ofName_cases text with ⟨k, hk, hkind⟩ | ⟨m, hm, hkind⟩ | ⟨r, hr, hkind⟩ |
      ⟨-, hkind⟩ | ⟨-, hkind⟩ | ⟨p, hp, hkind⟩ | ⟨cc, hcc, hkind⟩ | hkind
    · simp only [ofBareName, hkind, ne_eq, not_true_eq_false] at hx
    · simp only [ofBareName, hkind, ne_eq, not_true_eq_false] at hx
    · simp only [ofBareName, hkind, Named.ofText_some hr]
      exact .register r rfl (congrArg some (name_of_memberNamed hr).symm)
    · simp only [ofBareName, hkind]
      exact .interrupt rfl
    · simp only [ofBareName, hkind]
      exact .refresh rfl
    · simp only [ofBareName, hkind, Named.ofText_some hp]
      exact .pair p rfl (congrArg some (name_of_memberNamed hp).symm)
    · simp only [ofBareName, hkind, Named.ofText_some hcc]
      exact .condition cc rfl (congrArg some (name_of_memberNamed hcc).symm)
    · simp only [ofBareName, hkind]
      exact .label rfl rfl

/-- **Rows of items**: genuine items denote operands exactly if they are read as these and all of
them can be operands. -/
theorem forall₂_denotes_iff {items : List Item} (hitems : ∀ i ∈ items, i.Genuine)
    {ops : List Operand} :
    List.Forall₂ Denotes items ops ↔
      items.map Operand.ofItem = ops ∧ ∀ x ∈ ops, x ≠ .other := by
  -- item by item; an item that is no operand at all denotes nothing
  induction items generalizing ops with
  | nil =>
    rw [List.forall₂_nil_left_iff]
    refine ⟨fun h => ⟨h.symm, fun x hx => ?_⟩, fun h => h.1.symm⟩
    rw [h] at hx
    cases hx
  | cons i items ih =>
    have hi := hitems i List.mem_cons_self
    have hrows := @ih fun j hj => hitems j (List.mem_cons_of_mem _ hj)
    rw [List.forall₂_cons_left_iff]
    constructor
    · rintro ⟨x, rest, hx, hrest, rfl⟩
      obtain ⟨hmap, hothers⟩ := hrows.1 hrest
      refine ⟨?_, List.forall_mem_cons.2 ⟨hx.ne_other, hothers⟩⟩
      rw [List.map_cons, hx.ofItem_eq hi, hmap]
    · rintro ⟨rfl, hothers⟩
      obtain ⟨hx, hrest⟩ := List.forall_mem_cons.1 hothers
      exact ⟨_, _, hi.denotes_ofItem hx, hrows.2 ⟨rfl, hrest⟩, rfl⟩

end Item

/-! ### Values -/

/-- The value of a term under a table: a number has its own, and a label that of its definition. -/
inductive Term.HasValue (symbols : SymbolTable) : Term → Int → Prop where
  | literal (v : Int) (l : Location) : HasValue symbols ⟨.literal v, l⟩ v
  | label {name : String} {v : Int} (h : symbols.value? name = some v) (l : Location) :
      HasValue symbols ⟨.symbol name, l⟩ v

/-- A computation that ends with a report of a family. -/
def ReportedAs {α : Type} (x : Except Failure α) (category : Category) : Prop :=
  ∃ d : Diagnostic, x = .error (.problem d) ∧ d.category = category

namespace ReportedAs

variable {α β : Type} {x : Except Failure α} {c c' : Category}

theorem unique (h : ReportedAs x c) (h' : ReportedAs x c') : c = c' := by
  obtain ⟨d, rfl, rfl⟩ := h
  obtain ⟨d', heq, rfl⟩ := h'
  cases heq
  rfl

theorem ne_ok (h : ReportedAs x c) (a : α) : x ≠ .ok a := by
  obtain ⟨d, rfl, -⟩ := h
  intro heq
  cases heq

theorem map (h : ReportedAs x c) (g : α → β) : ReportedAs (x.map g) c := by
  obtain ⟨d, rfl, hd⟩ := h
  exact ⟨d, rfl, hd⟩

theorem bind (h : ReportedAs x c) (g : α → Except Failure β) : ReportedAs (x >>= g) c := by
  obtain ⟨d, rfl, hd⟩ := h
  exact ⟨d, rfl, hd⟩

end ReportedAs

namespace Context

variable {ctx : Context} {t : Term} {v low high : Int} {what : String}

theorem valueOf_of_hasValue (hpass : ctx.pass = .final) (hv : t.HasValue ctx.symbols v) :
    ctx.valueOf t = .ok v := by
  cases hv with
  | literal v l => rfl
  | label h l => simp only [valueOf, hpass, SymbolTable.lookup, h]

theorem reported_of_exceeds (hpass : ctx.pass = .final) (hv : t.HasValue ctx.symbols v)
    (hfits : ¬(low ≤ v ∧ v ≤ high)) :
    ReportedAs (ctx.valueWithin t low high what) .valueRange := by
  have hrequire : ∀ p, ctx.require (decide (low ≤ v ∧ v ≤ high)) t p =
      .error (.problem (.placed t.location p)) := fun p =>
    if_pos ⟨hpass, decide_eq_false hfits⟩
  refine ⟨.placed t.location (.valueRange v what none), ?_, rfl⟩
  unfold valueWithin
  rw [valueOf_of_hasValue hpass hv]
  change (ctx.require _ t _ >>= fun _ => pure v) = _
  rw [hrequire]
  rfl

/-- Without a value the term is a label, and its report needs the names of all labels. -/
theorem valueOf_of_unbound (hpass : ctx.pass = .final)
    (hnone : ∀ v, ¬t.HasValue ctx.symbols v) :
    (ctx.symbols.AllNamed ∧ ReportedAs (ctx.valueOf t) .undefinedSymbol) ∨
      (¬ctx.symbols.AllNamed ∧ ctx.valueOf t = .error (.fault .namelessLabel)) := by
  obtain ⟨meaning, l⟩ := t
  cases meaning with
  | literal v => exact absurd (.literal v l) (hnone v)
  | symbol name =>
    -- a name without a value is reported with suggestions, for which every label has to have a name
    cases hvalue : ctx.symbols.value? name with
    | some v => exact absurd (.label hvalue l) (hnone v)
    | none =>
      simp only [valueOf, hpass, SymbolTable.lookup, hvalue]
      cases hnamed : ctx.symbols.contains none with
      | false => exact Or.inl ⟨hnamed, _, rfl, rfl⟩
      | true =>
        refine Or.inr ⟨fun h => ?_, rfl⟩
        rw [SymbolTable.AllNamed, hnamed] at h
        cases h

end Context

end CrossAssembler
