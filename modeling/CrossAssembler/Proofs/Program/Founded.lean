import CrossAssembler.Proofs.Instruction.Reference
import CrossAssembler.Proofs.Program.Phase

/-!
# Reports on statements are founded

A statement can be reported for many reasons, but only a label is ever reported as defined again, and a
name is called undefined only if the symbols of the walk have no value for it. A report of which both
hold is *founded* on the symbols. And it stands where the writer can see the reason: at an item of the
statement.

* **Instructions** (`Instruction.sound_encode`): one lemma for each thing that is computed of an
  instruction. All that is looked up in the symbols goes through `Context.valueOf`, so all but one of
  these lemmas say that the other reports are on something else.
* **Statements** (`Statement.sound_of_effect`): so for every statement, a directive included.
-/

namespace CrossAssembler

/-! ### Computations -/

/-- A report that is not on a label defined again, and that calls a name undefined only if the table has
no value for it. -/
structure Diagnostic.Founded (t : SymbolTable) (d : Diagnostic) : Prop where
  category_ne : d.category ≠ .duplicateSymbol
  undefined : ∀ name similar, d.problem = .undefinedSymbol name similar → t.value? name = none

/-- A report on something else than a symbol. -/
theorem Diagnostic.founded_of_category {t : SymbolTable} {d : Diagnostic} {c : Category}
    (hd : d.category = c) (hduplicate : c ≠ .duplicateSymbol) (hundefined : c ≠ .undefinedSymbol) :
    d.Founded t := by
  subst hd
  refine ⟨hduplicate, fun name similar hproblem => absurd ?_ hundefined⟩
  rw [Diagnostic.category, hproblem]
  rfl

/-- A report that is founded on a table and stands at one of some places. -/
structure Diagnostic.Sound (t : SymbolTable) (places : List Location) (d : Diagnostic) : Prop where
  founded : d.Founded t
  placed : ∃ l ∈ places, d.location = some l

/-- A report on something else than a symbol, at a place. -/
theorem Diagnostic.sound_of_category {t : SymbolTable} {places : List Location} {l : Location}
    {problem : Problem} {c : Category} (hcategory : (Diagnostic.placed l problem).category = c)
    (hl : l ∈ places) (hduplicate : c ≠ .duplicateSymbol) (hundefined : c ≠ .undefinedSymbol) :
    (Diagnostic.placed l problem).Sound t places :=
  ⟨founded_of_category hcategory hduplicate hundefined, l, hl, rfl⟩

/-- A computation whose reports are founded on a table and stand at some places. It is closed under
sequencing, so that each stage can be looked at by itself. -/
def Sound {α : Type} (t : SymbolTable) (places : List Location) (x : Except Failure α) : Prop :=
  ∀ d, x = .error (.problem d) → d.Sound t places

section Computations

variable {α β : Type} {t : SymbolTable} {places places' : List Location}

theorem sound_ok (a : α) : Sound t places (.ok a) := by
  intro d hd
  cases hd

theorem sound_fault (f : Fault) : Sound t places (.error (.fault f) : Except Failure α) := by
  intro d hd
  cases hd

theorem sound_problem {d : Diagnostic} (h : d.Sound t places) :
    Sound t places (.error (.problem d) : Except Failure α) := by
  intro d' hd'
  cases hd'
  exact h

/-- More places may be named than are needed. -/
theorem Sound.mono {x : Except Failure α} (h : Sound t places x) (hplaces : places ⊆ places') :
    Sound t places' x := by
  intro d hd
  obtain ⟨hfounded, l, hl, hlocation⟩ := h d hd
  exact ⟨hfounded, l, hplaces hl, hlocation⟩

theorem Sound.bind {x : Except Failure α} (hx : Sound t places x) {g : α → Except Failure β}
    (hg : ∀ a, x = .ok a → Sound t places (g a)) : Sound t places (x >>= g) := by
  intro d hd
  cases x with
  | ok a => exact hg a rfl d hd
  | error f =>
    cases hd
    exact hx d rfl

theorem Sound.map {x : Except Failure α} (hx : Sound t places x) (g : α → β) :
    Sound t places (x.map g) := by
  intro d hd
  cases x with
  | ok a => cases hd
  | error f =>
    cases hd
    exact hx d rfl

end Computations

/-! ### Instructions -/

namespace Context

variable {ctx : Context}

theorem sound_require {t : SymbolTable} (holds : Bool) (term : Term) (value : Int) (what : String)
    (hint : Option String) :
    Sound t [term.location] (ctx.require holds term (.valueRange value what hint)) := by
  unfold require
  split
  · -- a range that is missed is no matter of symbols
    refine sound_problem (Diagnostic.sound_of_category (c := .valueRange) rfl ?_ ?_ ?_)
    · exact List.mem_singleton_self _
    · rintro ⟨⟩
    · rintro ⟨⟩
  · exact sound_ok ()

/-- **The one place where a name is looked up**: it is reported if it has no value. -/
theorem sound_valueOf (ctx : Context) (term : Term) :
    Sound ctx.symbols [term.location] (ctx.valueOf term) := by
  unfold valueOf
  split
  · exact sound_ok _
  next name _ =>
    split
    · exact sound_ok _
    · unfold SymbolTable.lookup
      split
      · exact sound_ok _
      -- only a name without a value gets here
      next hvalue =>
        split
        · exact sound_fault _
        · refine sound_problem ⟨⟨by rintro ⟨⟩, fun name' similar hproblem => ?_⟩, ?_⟩
          · cases hproblem
            exact hvalue
          · exact ⟨term.location, List.mem_singleton_self _, rfl⟩

theorem sound_valueWithin (term : Term) (low high : Int) (what : String) :
    Sound ctx.symbols [term.location] (ctx.valueWithin term low high what) :=
  (sound_valueOf ctx term).bind fun _ _ =>
    (sound_require _ _ _ _ _).bind fun _ _ => sound_ok _

theorem sound_offsetByte (term : Term) : Sound ctx.symbols [term.location] (ctx.offsetByte term) :=
  (sound_valueWithin term _ _ _).bind fun _ _ =>
    (sound_require _ _ _ _ _).bind fun _ _ => sound_ok _

theorem sound_restartByte (term : Term) : Sound ctx.symbols [term.location] (ctx.restartByte term) :=
  (sound_valueOf ctx term).bind fun _ _ =>
    (sound_require _ _ _ _ _).bind fun _ _ => sound_ok _

theorem sound_modeByte (term : Term) : Sound ctx.symbols [term.location] (ctx.modeByte term) :=
  (sound_valueOf ctx term).bind fun _ _ =>
    (sound_require _ _ _ _ _).bind fun _ _ => sound_ok _

end Context

/-- The places of some terms. -/
def Term.places (terms : List Term) : List Location :=
  terms.map Term.location

theorem Field.sound_emit (ctx : Context) (f : Field) :
    Sound ctx.symbols (Term.places f.term?.toList) (f.emit ctx) := by
  -- one computation for each field, and each is reported at its own term
  cases f with
  | byte b => exact sound_ok _
  | foreign element => cases element <;> exact sound_fault _
  | byteOf t what => exact (Context.sound_valueWithin t _ _ _).map _
  | wordOf t what => exact (Context.sound_valueWithin t _ _ _).map _
  | offsetTo t => exact (Context.sound_offsetByte t).map _
  | restartAt t => exact (Context.sound_restartByte t).map _
  | modeOf t => exact (Context.sound_modeByte t).map _
  | bitNumber opcode t => exact (Context.sound_valueWithin t _ _ _).map _

/-- A template is reported at one of its terms. -/
theorem Template.sound_emit (ctx : Context) (w : Template) :
    Sound ctx.symbols (Term.places w.terms) (Template.emit ctx w) := by
  -- field by field, with the places of the first field and of the rest put together
  induction w with
  | nil => exact sound_ok _
  | cons f fs ih =>
    have hterms : Template.terms (f :: fs) = f.term?.toList ++ Template.terms fs := by
      unfold Template.terms
      rw [List.filterMap_cons]
      cases f.term? <;> rfl
    unfold Term.places at ih ⊢
    rw [hterms, List.map_append]
    have hfirst := (Field.sound_emit ctx f).mono
      (List.subset_append_left _ ((Template.terms fs).map Term.location))
    have hrest := ih.mono (List.subset_append_right (f.term?.toList.map Term.location) _)
    exact hfirst.bind fun _ _ => hrest.bind fun _ _ => sound_ok _

theorem Term.location_ofReference (i : Item) : (Term.ofReference i).location = i.location := by
  unfold Term.ofReference
  split <;> rfl

/-- The term of an operand stands where the operand does. -/
theorem Operand.places_ofItem (items : List Item) :
    Term.places (Operand.terms (items.map Operand.ofItem)) ⊆ items.map Item.location := by
  intro l hl
  obtain ⟨term, hterm, rfl⟩ := List.mem_map.1 hl
  obtain ⟨x, hx, hx'⟩ := List.mem_filterMap.1 hterm
  obtain ⟨i, hi, rfl⟩ := List.mem_map.1 hx
  refine List.mem_map.2 ⟨i, hi, ?_⟩
  unfold Operand.ofItem at hx'
  split at hx'
  -- registers of either size have no term
  case h_5 | h_6 => split at hx' <;> cases hx'
  all_goals cases hx'
  case h_10 => rfl
  all_goals exact (Term.location_ofReference i).symm

namespace Instruction

theorem sound_checkBit (ctx : Context) (m : Mnemonic) (ops : List Operand) :
    Sound ctx.symbols (Term.places (Operand.terms ops)) (checkBit ctx m ops) := by
  unfold checkBit
  split
  next t y =>
    refine ((Context.sound_valueWithin t _ _ _).map _).mono ?_
    exact List.map_subset _ (Operand.singleton_subset_terms List.mem_cons_self rfl)
  · exact sound_ok _

/-- A refusal is on the operands or on a register. -/
theorem sound_mapError {t : SymbolTable} (s : Selection) (mnemonic : String) (operands : List Item)
    (location : Location) :
    Sound t [location] (s.mapError (·.toFailure mnemonic operands location)) := by
  have hplace : location ∈ [location] := List.mem_singleton_self _
  intro d hd
  cases s with
  | ok w => cases hd
  | error refusal =>
    have hfailure := Except.error.inj hd
    -- no refusal is on a symbol: the operands do not fit, or a register is not allowed
    cases refusal with
    | unknownName name => cases hfailure
    | accumulatorOnly position =>
      cases hfailure
      refine Diagnostic.sound_of_category (c := .registerRestriction) rfl hplace ?_ ?_ <;> rintro ⟨⟩
    | _ =>
      cases hfailure
      refine Diagnostic.sound_of_category (c := .addressingMode) rfl hplace ?_ ?_ <;> rintro ⟨⟩

/-- The condition of a fused mnemonic stands where the mnemonic does. -/
theorem places_unfuse (m : Mnemonic) (operands : List Item) (location : Location) :
    (unfuse m operands location).2.map Item.location ⊆ location :: operands.map Item.location := by
  unfold unfuse
  split
  · exact List.Subset.refl _
  · exact List.subset_cons_self _ _

/-- **The reports on an instruction are founded**, and stand at the instruction or at an operand. -/
theorem sound_encode (ctx : Context) (m : Mnemonic) (operands : List Item) (location : Location) :
    Sound ctx.symbols (location :: operands.map Item.location) (encode ctx m operands location) := by
  -- every operand of the plain mnemonic stands at the instruction or at an operand that was written
  have hplaces := List.Subset.trans (Operand.places_ofItem (unfuse m operands location).2)
    (places_unfuse m operands location)
  have hhead : [location] ⊆ location :: operands.map Item.location :=
    List.cons_subset_cons _ (List.nil_subset _)
  unfold encode
  generalize unfuse m operands location = q at hplaces ⊢
  obtain ⟨plain, written⟩ := q
  refine ((sound_checkBit ctx plain _).mono hplaces).bind fun _ _ =>
    ((sound_mapError _ _ _ _).mono hhead).bind fun w hw => (Template.sound_emit ctx w).mono ?_
  -- the terms of a template are those of its operands
  cases hselect : select plain (written.map Operand.ofItem) with
  | error refusal =>
    rw [hselect] at hw
    cases hw
  | ok w' =>
    rw [hselect] at hw
    cases hw
    exact List.Subset.trans (List.map_subset _ (Form.of_select hselect).reads.terms) hplaces

end Instruction

/-! ### Statements -/

namespace Statement

/-- Where a report on the form of a statement stands, and what it is on. Such a report needs no symbols,
and so it is founded on any. -/
structure Misformed (items : List Item) (d : Diagnostic) : Prop where
  category : d.category = .directive ∨ d.category = .grammar ∨ d.category = .valueRange
  placed : ∃ i ∈ items, d.location = some i.location

theorem Misformed.mono {items items' : List Item} {d : Diagnostic} (h : Misformed items d)
    (hitems : items ⊆ items') : Misformed items' d := by
  obtain ⟨hcategory, i, hi, hplace⟩ := h
  exact ⟨hcategory, i, hitems hi, hplace⟩

/-- Such a report is on no symbol. -/
theorem Misformed.sound {items : List Item} {d : Diagnostic} (h : Misformed items d) (t : SymbolTable) :
    d.Sound t (items.map Item.location) := by
  obtain ⟨hcategory, i, hi, hplace⟩ := h
  refine ⟨?_, i.location, List.mem_map_of_mem hi, hplace⟩
  rcases hcategory with hcategory | hcategory | hcategory
  all_goals refine Diagnostic.founded_of_category hcategory ?_ ?_ <;> rintro ⟨⟩

theorem misformed_of_moreOperands {mnemonic : String} {items : List Item} {d : Diagnostic}
    (h : moreOperands mnemonic items = .error d) : Misformed items d := by
  -- a comma is missing, or no operand is behind it: either is reported where it was expected
  fun_induction moreOperands mnemonic items with
  | case1 => cases h
  | case6 comma operand rest hcomma hoperand ih =>
    cases hmore : moreOperands mnemonic rest with
    | ok ops =>
      rw [hmore] at h
      cases h
    | error d' =>
      rw [hmore] at h
      cases h
      have hrest : rest ⊆ comma :: operand :: rest :=
        List.subset_cons_of_subset _ (List.subset_cons_self _ _)
      exact (ih hmore).mono hrest
  | case5 comma operand rest hcomma hoperand =>
    cases h
    exact ⟨.inr (.inl rfl), operand, List.mem_cons_of_mem _ List.mem_cons_self, rfl⟩
  | _ =>
    cases h
    exact ⟨.inr (.inl rfl), _, List.mem_cons_self, rfl⟩

/-- Operands that are separated wrongly are reported as such. -/
theorem misformed_of_operands {mnemonic : String} {items : List Item} {d : Diagnostic}
    (h : operands mnemonic items = .error d) : Misformed items d := by
  cases items with
  | nil => cases h
  | cons operand rest =>
    rw [operands] at h
    split at h
    · cases h
      exact ⟨.inr (.inl rfl), operand, List.mem_cons_self, rfl⟩
    · cases hmore : moreOperands mnemonic rest with
      | ok ops =>
        rw [hmore] at h
        cases h
      | error d' =>
        rw [hmore] at h
        cases h
        exact (misformed_of_moreOperands hmore).mono (List.subset_cons_self _ _)

theorem sound_instruction (pass : Pass) (m : Machine) (head : Item) (rest : List Item) :
    Sound m.symbols ((head :: rest).map Item.location) (instruction pass m head rest) := by
  rw [instruction_eq]
  split
  next d hd =>
    -- wrong separation is found before the processor or the mnemonic is looked at
    have hrest := (misformed_of_operands hd).mono (List.subset_cons_self head rest)
    exact sound_problem (hrest.sound _)
  next ops hops =>
    split
    · split
      · refine (Instruction.sound_encode _ _ _ _).mono ?_
        exact List.cons_subset_cons _ (List.map_subset _ fun i hi => mem_of_mem_operands hops hi)
      · exact sound_fault _
    · refine sound_problem (Diagnostic.sound_of_category (c := .unsupportedCpu) rfl ?_ ?_ ?_)
      · exact List.mem_cons_self
      · rintro ⟨⟩
      · rintro ⟨⟩

/-- What is no instruction is reported as a directive, as out of place or as out of range. -/
theorem misformed_of_directive {head : Item} {rest : List Item} {d : Diagnostic}
    (h : directive head rest = .report d) : Misformed (head :: rest) d := by
  unfold directive at h
  -- an origin, a processor, or a keyword that is neither
  split at h
  · cases rest with
    | nil =>
      cases h
      exact ⟨.inl rfl, head, List.mem_cons_self, rfl⟩
    | cons operand rest =>
      rw [origin] at h
      split at h
      · cases h
        exact ⟨.inl rfl, head, List.mem_cons_self, rfl⟩
      · split at h
        · cases h
          exact ⟨.inr (.inr rfl), operand, List.mem_cons_of_mem _ List.mem_cons_self, rfl⟩
        · cases rest with
          | nil => cases h
          | cons extra rest =>
            cases h
            have hextra : extra ∈ head :: operand :: extra :: rest :=
              List.mem_cons_of_mem _ (List.mem_cons_of_mem _ List.mem_cons_self)
            exact ⟨.inr (.inl rfl), extra, hextra, rfl⟩
  · cases rest with
    | nil => cases h
    | cons extra rest =>
      cases h
      exact ⟨.inr (.inl rfl), extra, List.mem_cons_of_mem _ List.mem_cons_self, rfl⟩
  · cases h
    exact ⟨.inl rfl, head, List.mem_cons_self, rfl⟩

theorem misformed_of_plainEffect {items : List Item} {d : Diagnostic} (h : plainEffect items = .report d) :
    Misformed items d := by
  unfold plainEffect at h
  split at h
  · cases h
  · split at h
    · cases h
    · split at h
      · exact misformed_of_directive h
      all_goals
        cases h
        exact ⟨.inr (.inl rfl), _, List.mem_cons_self, rfl⟩

/-- **The reports on a statement are founded** on the symbols of the walk, and stand at its items. -/
theorem sound_of_effect {pass : Pass} {m : Machine} {items : List Item} {d : Diagnostic}
    (h : effect pass m items = .ok (.report d)) : d.Sound m.symbols (items.map Item.location) := by
  -- an instruction is reported by what encodes it, any other statement for its form
  rcases effect_cases items with ⟨head, rest, hinstruction⟩ | hplain
  · rw [hinstruction.effect_eq] at h
    rcases outcome_cases h with ⟨data, -, hemit⟩ | ⟨d', hd', hreport⟩
    · cases hemit
    · cases hreport
      rw [hinstruction.items_eq]
      exact sound_instruction pass m head rest d hd'
  · rw [hplain] at h
    exact (misformed_of_plainEffect (Except.ok.inj h)).sound _

end Statement

end CrossAssembler
