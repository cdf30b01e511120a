import CrossAssembler.Proofs.Instruction.Shape

/-!
# Values behind other names

The form of an instruction is chosen without looking into the values of its operands
(`select_mapTerm`), and a value is found under any name as long as different names stay different.

* **Words** (`Reworded`): two results agree up to the words of a diagnostic, which hold the names.
* **Symbols** (`SymbolTable.find?_rename`): in a table under new names, a new name is found where
  the old one was.
* **Encoding** (`reworded_encode`): an instruction that refers to labels by their new names has the
  same bytes, or is reported in the same family and at the same place.
-/

namespace CrossAssembler

/-! ### Results that differ in words -/

/-- What a reader of a report tells apart: the family and the place of a diagnostic, not its words. The
words may quote a name, and they change with it. -/
def Diagnostic.gist (d : Diagnostic) : Category × Option Location :=
  (d.category, d.location)

/-- Two results that agree but for the wording of a problem: related values, diagnostics of one
family and place, or the same fault. -/
inductive Reworded {α β : Type} (R : α → β → Prop) :
    Except Failure α → Except Failure β → Prop where
  | ok {a : α} {b : β} (h : R a b) : Reworded R (.ok a) (.ok b)
  | problem {d d' : Diagnostic} (h : d.gist = d'.gist) :
      Reworded R (.error (.problem d)) (.error (.problem d'))
  | fault (f : Fault) : Reworded R (.error (.fault f)) (.error (.fault f))

namespace Reworded

variable {α β γ δ : Type} {R : α → β → Prop} {S : γ → δ → Prop}

theorem refl (x : Except Failure α) : Reworded Eq x x := by
  rcases x with (d | f) | a
  · exact .problem rfl
  · exact .fault f
  · exact .ok rfl

theorem bind {x : Except Failure α} {y : Except Failure β} {k : α → Except Failure γ}
    {l : β → Except Failure δ} (h : Reworded R x y) (hk : ∀ a b, R a b → Reworded S (k a) (l b)) :
    Reworded S (x >>= k) (y >>= l) := by
  cases h with
  | ok h => exact hk _ _ h
  | problem h => exact .problem h
  | fault f => exact .fault f

theorem map {x : Except Failure α} {y : Except Failure β} {k : α → γ} {l : β → δ}
    (h : Reworded R x y) (hk : ∀ a b, R a b → S (k a) (l b)) :
    Reworded S (x.map k) (y.map l) := by
  cases h with
  | ok h => exact .ok (hk _ _ h)
  | problem h => exact .problem h
  | fault f => exact .fault f

/-- The same step taken behind two results that agree. -/
theorem then_same {x y : Except Failure α} (h : Reworded Eq x y) (k : α → Except Failure γ) :
    Reworded Eq (x >>= k) (y >>= k) :=
  h.bind fun _ _ hab => hab ▸ refl _

theorem map_same {x y : Except Failure α} (h : Reworded Eq x y) (k : α → γ) :
    Reworded Eq (x.map k) (y.map k) :=
  h.map fun _ _ hab => congrArg k hab

end Reworded

/-- A refusal is reported in one family and at one place, however the operands are written. -/
theorem Refusal.reworded_toFailure {α β : Type} {R : α → β → Prop} (mnemonic : String)
    (operands operands' : List Item) (location : Location) (r : Refusal) :
    Reworded R (.error (r.toFailure mnemonic operands location))
      (.error (r.toFailure mnemonic operands' location)) := by
  cases r with
  | unknownName name => exact .fault _
  | _ => exact .problem rfl

/-! ### Renamed symbols -/

/-- A meaning with its symbol renamed. -/
def Meaning.rename (f : String → String) : Meaning → Meaning
  | literal value => literal value
  | symbol name => symbol (f name)

/-- A term with its symbol renamed. -/
def Term.rename (f : String → String) (t : Term) : Term :=
  { t with meaning := t.meaning.rename f }

/-- A symbol under its new name. -/
def Symbol.rename (f : String → String) (s : Symbol) : Symbol :=
  { s with name := s.name.map f }

/-- A symbol table under new names: the same values and places, in the same order. -/
def SymbolTable.rename (f : String → String) (t : SymbolTable) : SymbolTable :=
  ⟨t.symbols.map (Symbol.rename f)⟩

/-- A context with its symbols under new names. -/
def Context.rename (f : String → String) (ctx : Context) : Context :=
  { ctx with symbols := ctx.symbols.rename f }

variable {f : String → String} (hf : Function.Injective f)

namespace SymbolTable

theorem bindings_rename (f : String → String) (t : SymbolTable) :
    (t.rename f).bindings = t.bindings.map fun b => (b.1.map f, b.2) := by
  unfold bindings rename
  rw [List.map_map, List.map_map]
  rfl

theorem size_rename (f : String → String) (t : SymbolTable) : (t.rename f).size = t.size :=
  List.length_map _

include hf

/-- A name is found under its new name, and no other is. -/
theorem find?_rename (t : SymbolTable) (name : Option String) :
    (t.rename f).find? (name.map f) = (t.find? name).map (Symbol.rename f) := by
  have hsame : ((fun s : Symbol => s.name == name.map f) ∘ Symbol.rename f) =
      fun s : Symbol => s.name == name := by
    funext s
    change (s.name.map f == name.map f) = (s.name == name)
    rw [Bool.eq_iff_iff, beq_iff_eq, beq_iff_eq]
    -- different names stay different, so no other symbol answers to the new name
    exact (Option.map_injective hf).eq_iff
  unfold find? rename
  rw [List.find?_map, hsame]

theorem contains_rename (t : SymbolTable) (name : Option String) :
    (t.rename f).contains (name.map f) = t.contains name := by
  unfold contains
  rw [find?_rename hf, Option.isSome_map]

theorem define_rename (t : SymbolTable) (name : Option String) (value : Int)
    (location : Location) :
    (t.rename f).define (name.map f) value location = (t.define name value location).rename f := by
  unfold define
  rw [contains_rename hf]
  by_cases hbound : t.contains name = true
  · rw [if_pos hbound, if_pos hbound]
  · rw [if_neg hbound, if_neg hbound, rename, rename, List.map_append]
    rfl

/-- A name bound twice is reported at the same places. -/
theorem gist_verify?_rename (t : SymbolTable) (name : Option String) (location : Location) :
    ((t.rename f).verify? (name.map f) location).map Diagnostic.gist =
      (t.verify? name location).map Diagnostic.gist := by
  unfold verify?
  rw [find?_rename hf]
  cases t.find? name with
  | none => rfl
  | some s =>
    change (if s.location = location then none else some _).map _ =
      (if s.location = location then none else some _).map _
    by_cases hsame : s.location = location
    · rw [if_pos hsame, if_pos hsame]
    · rw [if_neg hsame, if_neg hsame]
      rfl

theorem value?_rename (t : SymbolTable) (name : String) :
    (t.rename f).value? (f name) = t.value? name := by
  have hfind := find?_rename hf t (some name)
  rw [Option.map_some] at hfind
  unfold value?
  rw [hfind, Option.map_map]
  rfl

theorem reworded_lookup (t : SymbolTable) (name : String) (location : Option Location) :
    Reworded Eq (t.lookup name location) ((t.rename f).lookup (f name) location) := by
  have hnameless : (t.rename f).contains none = t.contains none := contains_rename hf t none
  unfold lookup
  rw [value?_rename hf, hnameless]
  -- a name without a value is reported with suggestions, which are words
  cases t.value? name with
  | some value => exact .ok rfl
  | none =>
    by_cases h : t.contains none = true
    · simp only [if_pos h]
      exact .fault _
    · simp only [if_neg h]
      exact .problem rfl

end SymbolTable

/-! ### Fields under new names -/

namespace Context

include hf

theorem reworded_valueOf (ctx : Context) (t : Term) :
    Reworded Eq (ctx.valueOf t) ((ctx.rename f).valueOf (t.rename f)) := by
  obtain ⟨pass, address, symbols⟩ := ctx
  obtain ⟨meaning, location⟩ := t
  cases meaning with
  | literal value => exact .ok rfl
  | symbol name =>
    cases pass with
    | survey =>
      refine .ok ?_
      change (symbols.value? name).getD 0 = ((symbols.rename f).value? (f name)).getD 0
      rw [SymbolTable.value?_rename hf]
    | final => exact SymbolTable.reworded_lookup hf symbols name (some location)

theorem reworded_valueWithin (ctx : Context) (t : Term) (low high : Int) (what : String) :
    Reworded Eq (ctx.valueWithin t low high what)
      ((ctx.rename f).valueWithin (t.rename f) low high what) :=
  (reworded_valueOf hf ctx t).then_same _

theorem reworded_offsetByte (ctx : Context) (t : Term) :
    Reworded Eq (ctx.offsetByte t) ((ctx.rename f).offsetByte (t.rename f)) :=
  (reworded_valueWithin hf ctx t 0 0xFFFF "jump target").then_same _

theorem reworded_restartByte (ctx : Context) (t : Term) :
    Reworded Eq (ctx.restartByte t) ((ctx.rename f).restartByte (t.rename f)) :=
  (reworded_valueOf hf ctx t).then_same _

theorem reworded_modeByte (ctx : Context) (t : Term) :
    Reworded Eq (ctx.modeByte t) ((ctx.rename f).modeByte (t.rename f)) :=
  (reworded_valueOf hf ctx t).then_same _

end Context

include hf in
theorem Field.reworded_emit (ctx : Context) (field : Field) :
    Reworded Eq (field.emit ctx) ((field.mapTerm (Term.rename f)).emit (ctx.rename f)) := by
  cases field with
  | byte b => exact .ok rfl
  | foreign element => cases element <;> exact .fault _
  | byteOf t what => exact (ctx.reworded_valueWithin hf t 0 0xFF what).map_same _
  | wordOf t what => exact (ctx.reworded_valueWithin hf t 0 0xFFFF what).map_same _
  | offsetTo t => exact (ctx.reworded_offsetByte hf t).map_same _
  | restartAt t => exact (ctx.reworded_restartByte hf t).map_same _
  | modeOf t => exact (ctx.reworded_modeByte hf t).map_same _
  | bitNumber opcode t => exact (ctx.reworded_valueWithin hf t 0 7 "bit number").map_same _

include hf in
theorem Template.reworded_emit (ctx : Context) (w : Template) :
    Reworded Eq (w.emit ctx) ((w.mapTerm (Term.rename f)).emit (ctx.rename f)) := by
  -- field by field, with the same bytes in front on both sides
  induction w with
  | nil => exact .ok rfl
  | cons field fields ih =>
    refine (field.reworded_emit hf ctx).bind fun front _ hfront => ?_
    refine ih.bind fun back _ hback => ?_
    exact .ok (by rw [hfront, hback])

/-! ### Items under new names -/

/-- The kinds of items whose text is the name of a label. -/
def ItemKind.holdsName : ItemKind → Bool
  | label | name | indirectImmediate => true
  | _ => false

/-- An item with the label that it names, if it names one, under its new name. -/
def Item.rename (f : String → String) (i : Item) : Item :=
  if i.kind.holdsName then { i with text := i.text.map f } else i

/-- Items that are the same but for the names of labels, and for the contents of strings. No instruction
takes a string, so that its contents never matter. -/
inductive Item.Respelled (f : String → String) : Item → Item → Prop where
  | renamed (i : Item) (h : i.kind.holdsName = true) :
      Respelled f i { i with text := i.text.map f }
  | kept (i : Item) (h : i.kind.holdsName = false) : Respelled f i i
  | string (i : Item) (h : i.kind = .string) (text : Option String) :
      Respelled f i { i with text := text }

namespace Item

theorem respelled_rename (f : String → String) (i : Item) : i.Respelled f (i.rename f) := by
  unfold rename
  by_cases h : i.kind.holdsName = true
  · rw [if_pos h]
    exact .renamed i h
  · rw [if_neg h]
    exact .kept i (by simpa using h)

namespace Respelled

variable {i i' : Item}

theorem kind_eq (h : i.Respelled f i') : i'.kind = i.kind := by
  cases h <;> rfl

theorem location_eq (h : i.Respelled f i') : i'.location = i.location := by
  cases h <;> rfl

theorem value_eq (h : i.Respelled f i') : i'.value = i.value := by
  cases h <;> rfl

theorem fits16_eq (h : i.Respelled f i') : i'.fits16 = i.fits16 := by
  cases h <;> rfl

/-- A mnemonic or keyword stays as it is. -/
theorem eq_of_kind (h : i.Respelled f i') (hkind : i.kind = .mnemonic ∨ i.kind = .keyword) :
    i' = i := by
  cases h with
  | kept => rfl
  | renamed hname => rcases hkind with hkind | hkind <;> rw [hkind] at hname <;> cases hname
  | string hstring => rcases hkind with hkind | hkind <;> rw [hkind] at hstring <;> cases hstring

/-- The text of a label is its new name. -/
theorem text_eq_of_label (h : i.Respelled f i') (hkind : i.kind = .label) :
    i'.text = i.text.map f := by
  cases h with
  | renamed => rfl
  | kept hname =>
    rw [hkind] at hname
    cases hname
  | string hstring =>
    rw [hkind] at hstring
    cases hstring

/-- As an operand an item keeps all but its symbol. -/
theorem ofItem_eq (h : i.Respelled f i') :
    Operand.ofItem i' = (Operand.ofItem i).mapTerm (Term.rename f) := by
  obtain ⟨kind, location, text, value, indexByte, low, high, fits8, fits16⟩ := i
  -- the items that hold the name of a label are the ones that are renamed
  cases h with
  | renamed hname =>
    cases kind with
    | label => rfl
    | name => cases text <;> rfl
    | indirectImmediate => cases text <;> rfl
    | _ => cases hname
  | string hstring =>
    cases hstring
    rfl
  | kept hname =>
    cases kind with
    | label => cases hname
    | name => cases hname
    | indirectImmediate => cases hname
    | condition => cases text <;> rfl
    | indirectRegister16 =>
      cases hpair : text.bind Pair.ofName? with
      | none =>
        simp only [Operand.ofItem, hpair]
        rfl
      | some p =>
        simp only [Operand.ofItem, hpair]
        rfl
    | _ => rfl

end Respelled

end Item

namespace Instruction

variable {items items' : List Item}

theorem map_ofItem_of_respelled (h : List.Forall₂ (Item.Respelled f) items items') :
    items'.map Operand.ofItem =
      (items.map Operand.ofItem).map (Operand.mapTerm (Term.rename f)) := by
  induction h with
  | nil => rfl
  | cons hi _ ih => rw [List.map_cons, List.map_cons, List.map_cons, hi.ofItem_eq, ih]

/-- Writing a fused mnemonic out adds an operand without a value. -/
theorem respelled_unfuse (h : List.Forall₂ (Item.Respelled f) items items') (m : Mnemonic)
    (location : Location) :
    (unfuse m items' location).1 = (unfuse m items location).1 ∧
      List.Forall₂ (Item.Respelled f) (unfuse m items location).2 (unfuse m items' location).2 := by
  cases m with
  | fused branch cc => exact ⟨rfl, .cons (.kept _ rfl) h⟩
  | _ => exact ⟨rfl, h⟩

include hf

theorem reworded_checkBit (ctx : Context) (m : Mnemonic) (xs : List Operand) :
    Reworded Eq (checkBit ctx m xs)
      (checkBit (ctx.rename f) m (xs.map (Operand.mapTerm (Term.rename f)))) := by
  cases m with
  | bit op =>
    rcases xs with _ | ⟨x, _ | ⟨y, _ | ⟨z, rest⟩⟩⟩
    · exact .ok rfl
    · cases x <;> exact .ok rfl
    · cases x with
      | immediate t => exact (ctx.reworded_valueWithin hf t 0 7 "bit number").map_same _
      | _ => exact .ok rfl
    · cases x <;> exact .ok rfl
  | _ => exact .ok rfl

/-- **One instruction.** With its labels under new names, on symbols under those names, it has the
same bytes, or is reported in the same family and at the same place. -/
theorem reworded_encode (ctx : Context) (m : Mnemonic)
    (h : List.Forall₂ (Item.Respelled f) items items') (location : Location) :
    Reworded Eq (encode ctx m items location) (encode (ctx.rename f) m items' location) := by
  obtain ⟨hplain, hwritten⟩ := respelled_unfuse h m location
  unfold encode
  -- both spellings are the same plain mnemonic with operands that differ in names
  generalize unfuse m items location = u at hplain hwritten ⊢
  generalize unfuse m items' location = u' at hplain hwritten ⊢
  obtain ⟨plain, written⟩ := u
  obtain ⟨plain', written'⟩ := u'
  obtain rfl : plain' = plain := hplain
  dsimp only
  rw [map_ofItem_of_respelled hwritten, select_mapTerm]
  refine (reworded_checkBit hf ctx plain' _).bind fun _ _ _ => ?_
  -- a refusal quotes the operands as they are written, and so differs in its words
  have hselect : Reworded (fun w w' => w' = Template.mapTerm (Term.rename f) w)
      ((select plain' (written.map Operand.ofItem)).mapError
        (·.toFailure plain'.name written location))
      ((Selection.mapTerm (Term.rename f) (select plain' (written.map Operand.ofItem))).mapError
        (·.toFailure plain'.name written' location)) := by
    cases select plain' (written.map Operand.ofItem) with
    | ok w => exact .ok rfl
    | error r => exact r.reworded_toFailure _ _ _ _
  refine hselect.bind ?_
  rintro w _ rfl
  exact w.reworded_emit hf ctx

end Instruction

end CrossAssembler
