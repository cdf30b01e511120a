import CrossAssembler.Proofs.Instruction.ReadBack
import CrossAssembler.Token.Scan

/-!
# Emitted code is uniquely decodable

The bytes of a statement tell its sentence, and where they end. So two statements at one address, one
of whose encodings starts with the other, have the same sentence; and as each statement begins where
the one before it has ended, the bytes of a whole program without origins tell its sentences one by
one.

* **Statements** (`Statement.decodes_effect`): what a statement of a parsed program emits decodes to
  its sentence.
* **Rows of sentences** (`Spells`): bytes from an address on spell some sentences if they fall into
  encodings of them, each at the address behind the last. A row of bytes spells one row of sentences
  only (`Spells.unique`).
* **Programs** (`Walk.spells_visits`): a final walk without reports and without origins emits bytes
  that spell the sentences of its stops.
-/

namespace CrossAssembler

/-! ### Statements -/

namespace Statement

/-- **What a statement emits decodes to its sentence.** -/
theorem decodes_effect {m : Machine} {items : List Item} (hitems : ∀ i ∈ items, i.Genuine)
    {place : Location} {data : List UInt8}
    (h : effect .final m items = .ok (.emit place data)) :
    ∃ s, Sentence.ofStatement? m.symbols items = some s ∧
      Instruction.Decodes m.address data s := by
  rcases effect_cases items with ⟨head, rest, hinstruction⟩ | hplain
  · rw [hinstruction.effect_eq, outcome_emit_iff] at h
    obtain ⟨ops, mnemonic, hops, -, hmnemonic, hencode⟩ := instruction_eq_ok_iff.1 h.2
    obtain ⟨rfl, hvalid, hkind⟩ := hinstruction
    have hgenuine : ∀ i ∈ ops, i.Genuine := fun i hi =>
      hitems i (List.mem_cons_of_mem _ (mem_of_mem_operands hops hi))
    -- the operands of the sentence are those of the encoder, since commas are all that is dropped
    have hdecodes := Instruction.decodes_encode rfl hgenuine hencode
    rw [operands_eq_filter hops] at hdecodes
    refine ⟨_, ?_, hdecodes⟩
    simp only [Sentence.ofStatement?, hkind, hvalid, and_self, if_true, hmnemonic,
      Option.map_some]
  · rw [hplain] at h
    exact absurd (Except.ok.inj h) (plainEffect_ne_emit items place data)

/-- Only an instruction has a sentence. -/
theorem ofStatement?_eq_none (symbols : SymbolTable) {items : List Item}
    (h : ¬ ∃ head rest, IsInstruction items head rest) :
    Sentence.ofStatement? symbols items = none := by
  cases items with
  | nil => rfl
  | cons head rest =>
    rw [Sentence.ofStatement?, if_neg]
    rintro ⟨hkind, hvalid⟩
    exact h ⟨head, rest, rfl, hvalid, hkind⟩

end Statement

/-- The keyword that sets the address. -/
def Item.IsOrigin (i : Item) : Prop :=
  i.kind = .keyword ∧ i.text.bind Keyword.ofName? = some .origin

instance (i : Item) : Decidable i.IsOrigin :=
  inferInstanceAs (Decidable (_ ∧ _))

namespace Statement

/-- A statement that moves the counter has the keyword for it. -/
theorem exists_isOrigin {items : List Item} {line address : Int}
    (h : plainEffect items = .moveTo line address) : ∃ i ∈ items, i.IsOrigin := by
  obtain ⟨head, operand, rfl, hkind, horigin, -⟩ := plainEffect_eq_moveTo h
  exact ⟨head, List.mem_cons_self, hkind, horigin⟩

end Statement

/-! ### Rows of sentences -/

/-- **Bytes that spell sentences** from an address on: they fall into encodings, each at the address
behind the last. -/
inductive Spells : Int → List UInt8 → List Sentence → Prop where
  | nil (a : Int) : Spells a [] []
  | cons {a : Int} {bytes rest : List UInt8} {s : Sentence} {ss : List Sentence}
      (h : Instruction.Decodes a bytes s)
      (hrest : Spells ((a + bytes.length) % addressSpace) rest ss) :
      Spells a (bytes ++ rest) (s :: ss)

/-- No bytes decode to nothing. -/
theorem Instruction.Decodes.ne_nil {a : Int} {bytes : List UInt8} {s : Sentence}
    (h : Decodes a bytes s) : bytes ≠ [] := by
  rintro rfl
  cases h []

/-- **A row of bytes spells one row of sentences only.** The first encoding can be told from what follows
it, and then the rest is spelled at a known address. -/
theorem Spells.unique {a : Int} {data : List UInt8} {ss ss' : List Sentence}
    (h : Spells a data ss) (h' : Spells a data ss') : ss = ss' := by
  -- along the first reading; the second one is taken apart next to it
  induction h generalizing ss' with
  | nil a =>
    generalize hdata : ([] : List UInt8) = data at h'
    cases h' with
    | nil a => rfl
    | cons hdecodes hrest =>
      exact absurd (List.append_eq_nil_iff.1 hdata.symm).1 hdecodes.ne_nil
  | @cons a bytes rest s ss hdecodes hrest ih =>
    generalize hdata : bytes ++ rest = data at h'
    cases h' with
    -- an encoding is never empty, so both readings end together
    | nil a => exact absurd (List.append_eq_nil_iff.1 hdata).1 hdecodes.ne_nil
    | @cons a bytes' rest' s' ss' hdecodes' hrest' =>
      -- the decoder gives one sentence and one rest
      have hboth : some (s, rest) = some (s', rest') := by
        rw [← hdecodes rest, ← hdecodes' rest', hdata]
      cases hboth
      -- so both rows go on with the same bytes at the same address
      obtain rfl := List.append_cancel_right hdata
      rw [ih hrest']

/-! ### Programs -/

/-- The bytes of a visit. -/
def Visit.data (pass : Pass) (v : Visit) : List UInt8 :=
  match v.effect pass with
  | .ok (.emit _ data) => data
  | _ => []

/-- The sentence of a stop. -/
def Stop.sentence? (symbols : SymbolTable) : Stop → Option Sentence
  | label _ => none
  | statement items => Sentence.ofStatement? symbols items

theorem filterMap_sentence? (symbols : SymbolTable) (items : List Item) :
    (Stop.ofItems items).filterMap (Stop.sentence? symbols) =
      Sentence.ofProgram symbols items := by
  unfold Stop.ofItems Sentence.ofProgram
  induction Line.ofItems items with
  | nil => rfl
  | cons line lines ih =>
    -- labels have no sentence, so a line has that of its statement
    have hline : (Stop.ofLine line).filterMap (Stop.sentence? symbols) =
        (Sentence.ofStatement? symbols line.statement).toList := by
      have hlabels : (line.labels.map Stop.label).filterMap (Stop.sentence? symbols) = [] := by
        simp [Stop.sentence?, List.filterMap_map, Function.comp_def]
      rw [Stop.ofLine, List.filterMap_append, hlabels, List.nil_append]
      cases hsentence : Sentence.ofStatement? symbols line.statement <;>
        simp [Stop.sentence?, hsentence]
    rw [List.flatMap_cons, List.filterMap_append, ih, hline, List.filterMap_cons]
    cases Sentence.ofStatement? symbols line.statement <;> rfl

/-- The bytes of all emissions are those of the visits. -/
theorem Visit.data_attributions (pass : Pass) (pending : Option Visit) (vs : List Visit) :
    ((Visit.attributions pass pending vs).map Prod.fst).flatMap Emission.data =
      vs.flatMap (Visit.data pass) := by
  induction vs generalizing pending with
  | nil => rfl
  | cons v vs ih =>
    rw [Visit.attributions, List.map_append, List.flatMap_append, ih, List.flatMap_cons]
    congr 1
    simp only [Visit.data, Visit.emission?]
    cases v.effect pass with
    | error f => rfl
    | ok e => cases e <;> simp

/-- The items of a stop. -/
def Stop.items : Stop → List Item
  | label item => [item]
  | statement items => items

theorem Stop.mem_of_mem_items {items : List Item} {s : Stop} (hs : s ∈ Stop.ofItems items)
    {i : Item} (hi : i ∈ s.items) : i ∈ items := by
  obtain ⟨line, hline, hs⟩ := List.mem_flatMap.1 hs
  rcases List.mem_append.1 hs with hs | hs
  · obtain ⟨label, hlabel, rfl⟩ := List.mem_map.1 hs
    rw [List.mem_singleton.1 hi]
    exact Line.mem_of_mem_ofItems hline (.inl hlabel)
  · rw [List.mem_singleton.1 hs] at hi
    exact Line.mem_of_mem_ofItems hline (.inr hi)

namespace Walk

/-- A statement without report either is an instruction and emits, or it emits nothing and leaves
the counter where it is, if it does not set it. -/
theorem apply_quiet {w : Walk} {items : List Item} {e : Effect}
    (he : Statement.effect .final w.machine items = .ok e) (hquiet : e.reports = [])
    (hfree : ∀ i ∈ items, ¬ i.IsOrigin) :
    (∃ place data, e = .emit place data) ∨
      (∀ symbols, Sentence.ofStatement? symbols items = none) ∧
        (∀ place data, e ≠ .emit place data) ∧
        (w.apply .final e).machine.address = w.machine.address := by
  -- an instruction that is not reported emits; any other statement moves the counter only by an origin
  by_cases hinstruction : ∃ head rest, Statement.IsInstruction items head rest
  · obtain ⟨head, rest, hinstruction⟩ := hinstruction
    rw [hinstruction.effect_eq] at he
    rcases Statement.outcome_cases he with ⟨data, -, rfl⟩ | ⟨d, -, rfl⟩
    · exact .inl ⟨_, _, rfl⟩
    · cases hquiet
  · rw [Statement.effect_eq_plainEffect hinstruction] at he
    obtain rfl := Except.ok.inj he
    refine .inr ⟨fun symbols => Statement.ofStatement?_eq_none symbols hinstruction,
      Statement.plainEffect_ne_emit items, ?_⟩
    rw [apply_machine]
    cases heffect : Statement.plainEffect items with
    | emit place data => exact absurd heffect (Statement.plainEffect_ne_emit items place data)
    | moveTo line address =>
      obtain ⟨i, hi, horigin⟩ := Statement.exists_isOrigin heffect
      exact absurd horigin (hfree i hi)
    | _ => rfl

/-- **The bytes of a program spell its sentences.** -/
theorem spells_visits {w u : Walk} {stops : List Stop} (halong : w.along .final stops = .ok u)
    (hgenuine : ∀ s ∈ stops, s.Genuine) (hfree : ∀ s ∈ stops, ∀ i ∈ s.items, ¬ i.IsOrigin)
    (hreports : (w.visits .final stops).flatMap Visit.reports = []) :
    Spells w.machine.address ((w.visits .final stops).flatMap (Visit.data .final))
      (stops.filterMap (Stop.sentence? w.machine.symbols)) := by
  -- each statement is at the address behind the last one, as there is no origin in between
  induction stops generalizing w with
  | nil => exact .nil _
  | cons s stops ih =>
    obtain ⟨v, hact, halong⟩ := along_cons_iff.1 halong
    rw [visits_cons hact, List.flatMap_cons, List.append_eq_nil_iff] at hreports
    have hrest := ih halong (fun s' hs' => hgenuine s' (List.mem_cons_of_mem _ hs'))
      (fun s' hs' => hfree s' (List.mem_cons_of_mem _ hs')) hreports.2
    have hsymbols := act_symbols_final hact
    rw [visits_cons hact, List.flatMap_cons, List.filterMap_cons]
    rw [hsymbols] at hrest
    cases s with
    | label item =>
      cases hact
      rw [bind_machine] at hrest
      exact hrest
    | statement items =>
      obtain ⟨e, he, rfl⟩ := act_statement_iff.1 hact
      have hquiet : e.reports = [] := by
        rw [← Visit.reports_statement he]
        exact hreports.1
      have hitems : ∀ i ∈ items, i.Genuine := by
        cases hgenuine _ List.mem_cons_self with
        | statement hitems => exact hitems
      rcases apply_quiet he hquiet (hfree _ List.mem_cons_self) with
        ⟨place, data, rfl⟩ | ⟨hnone, hne, haddress⟩
      · -- the bytes of the statement come first, and the counter moves on behind them
        obtain ⟨sentence, hsentence, hdecodes⟩ := Statement.decodes_effect hitems he
        have hdata : (Visit.mk (.statement items) w.machine).data .final = data := by
          simp only [Visit.data, Visit.effect, he]
        rw [hdata, Stop.sentence?, hsentence]
        exact .cons hdecodes hrest
      · -- neither bytes nor a sentence, and the counter stays
        have hdata : (Visit.mk (.statement items) w.machine).data .final = [] := by
          simp only [Visit.data, Visit.effect, he]
          split
          next heq => exact absurd (Except.ok.inj heq) (hne _ _)
          · rfl
        rw [hdata, Stop.sentence?, hnone, List.nil_append]
        rw [haddress] at hrest
        exact hrest

end Walk

/-- The emissions of a program without origins that is assembled without reports spell its
sentences. -/
theorem Passes.spells {m : Machine} {file : String} {tokens : List Token}
    (p : Passes m (parse file tokens).items)
    (hfree : ∀ i ∈ (parse file tokens).items, ¬ i.IsOrigin) (hreports : p.listing.reports = []) :
    Spells m.address (p.listing.emissions.flatMap Emission.data)
      (Sentence.ofProgram p.listing.machine.symbols (parse file tokens).items) := by
  have hvisits := Walk.spells_visits p.final_along
    (fun s hs => Stop.genuine_of_mem_ofItems hs)
    (fun s hs i hi => hfree i (Stop.mem_of_mem_items hs hi)) (p.reports_eq ▸ hreports)
  rw [filterMap_sentence?] at hvisits
  rw [p.emissions_eq, Passes.attributions, Visit.data_attributions, p.symbols_eq]
  exact hvisits

/-- **Emitted code is uniquely decodable.** If two statements of parsed programs are encoded at the
same address, each under its own symbols, and the bytes of one are the first bytes of the other, then
both have the same sentence. And if two programs without origins are assembled without reports from
the same address, and emit the same bytes, then they consist of the same sentences. -/
theorem code_uniquely_decodable :
    (∀ (file file' : String) (tokens tokens' : List Token) (line line' : Line) (m m' : Machine)
        (place place' : Location) (data data' : List UInt8),
      line ∈ Line.ofItems (parse file tokens).items →
      line' ∈ Line.ofItems (parse file' tokens').items →
      m.address = m'.address →
      Statement.effect .final m line.statement = .ok (.emit place data) →
      Statement.effect .final m' line'.statement = .ok (.emit place' data') →
      data <+: data' →
      ∃ s, Sentence.ofStatement? m.symbols line.statement = some s ∧
        Sentence.ofStatement? m'.symbols line'.statement = some s) ∧
    ∀ (file file' : String) (tokens tokens' : List Token) (address : Int) (cpu cpu' : Cpu)
        (listing listing' : Listing),
      Machine.assemble { address := address, cpu := cpu } (parse file tokens).items =
        .ok listing →
      Machine.assemble { address := address, cpu := cpu' } (parse file' tokens').items =
        .ok listing' →
      listing.reports = [] → listing'.reports = [] →
      (∀ i ∈ (parse file tokens).items, ¬ i.IsOrigin) →
      (∀ i ∈ (parse file' tokens').items, ¬ i.IsOrigin) →
      listing.emissions.flatMap Emission.data = listing'.emissions.flatMap Emission.data →
      Sentence.ofProgram listing.machine.symbols (parse file tokens).items =
        Sentence.ofProgram listing'.machine.symbols (parse file' tokens').items := by
  constructor
  · intro file file' tokens tokens' line line' m m' place place' data data' hline hline' haddress
      h h' hfirst
    obtain ⟨s, hs, hdecodes⟩ :=
      Statement.decodes_effect (fun i hi => genuine_of_mem_line hline (.inr hi)) h
    obtain ⟨s', hs', hdecodes'⟩ :=
      Statement.decodes_effect (fun i hi => genuine_of_mem_line hline' (.inr hi)) h'
    obtain ⟨rest, rfl⟩ := hfirst
    -- the longer bytes decode to the sentence of either statement
    have hboth : some (s, rest) = some (s', []) := by
      rw [← hdecodes rest, ← hdecodes' [], haddress, List.append_nil]
    cases hboth
    exact ⟨s, hs, hs'⟩
  · intro file file' tokens tokens' address cpu cpu' listing listing' h h' hreports hreports'
      hfree hfree' hdata
    obtain ⟨p⟩ := Passes.exists_passes (m := { address := address, cpu := cpu }) rfl file tokens
    obtain ⟨p'⟩ := Passes.exists_passes (m := { address := address, cpu := cpu' }) rfl file' tokens'
    obtain rfl := Except.ok.inj (h.symm.trans p.assemble_eq)
    obtain rfl := Except.ok.inj (h'.symm.trans p'.assemble_eq)
    have hspells := p.spells hfree hreports
    have hspells' := p'.spells hfree' hreports'
    -- the same bytes spell the sentences of both programs
    rw [hdata] at hspells
    exact hspells.unique hspells'

/-- Two spellings of one program: a fused condition, a destination and an offset left out. -/
theorem code_uniquely_decodable_spellings :
    ∃ tokens tokens' listing listing',
      tokenize "JPNZ 5\nADD A,(IX)\nIM1" "p" = .ok tokens ∧
      tokenize "JP NZ,5\nADD (IX+0)\nIM 1" "p" = .ok tokens' ∧
      Machine.assemble {} (parse "p" tokens).items = .ok listing ∧
      Machine.assemble {} (parse "p" tokens').items = .ok listing' ∧
      listing.emissions.flatMap Emission.data = [0xC2, 5, 0, 0xDD, 0x86, 0, 0xED, 0x56] ∧
      Sentence.ofProgram listing.machine.symbols (parse "p" tokens).items =
        Sentence.ofProgram listing'.machine.symbols (parse "p" tokens').items := by
  have hrun : ∀ (source : String) (data : List UInt8),
      (tokenize source "p").toOption.map (fun tokens =>
          ((parse "p" tokens).items.any (fun i => decide i.IsOrigin),
            (Machine.assemble {} (parse "p" tokens).items).toOption.map fun listing =>
              (listing.reports, listing.emissions.flatMap Emission.data))) =
        some (false, some ([], data)) →
      ∃ tokens listing, tokenize source "p" = .ok tokens ∧
        (∀ i ∈ (parse "p" tokens).items, ¬ i.IsOrigin) ∧
        Machine.assemble {} (parse "p" tokens).items = .ok listing ∧ listing.reports = [] ∧
        listing.emissions.flatMap Emission.data = data := by
    intro source data h
    obtain ⟨tokens, htokens, h⟩ := exists_ok_of_toOption h
    obtain ⟨hfree, h⟩ := Prod.mk.inj h
    obtain ⟨listing, hlisting, h⟩ := exists_ok_of_toOption h
    obtain ⟨hreports, hdata⟩ := Prod.mk.inj h
    exact ⟨tokens, listing, htokens, by simpa using hfree, hlisting, hreports, hdata⟩
  obtain ⟨tokens, listing, htokens, hfree, hlisting, hreports, hdata⟩ :=
    hrun "JPNZ 5\nADD A,(IX)\nIM1" [0xC2, 5, 0, 0xDD, 0x86, 0, 0xED, 0x56] (by decide +kernel)
  obtain ⟨tokens', listing', htokens', hfree', hlisting', hreports', hdata'⟩ :=
    hrun "JP NZ,5\nADD (IX+0)\nIM 1" [0xC2, 5, 0, 0xDD, 0x86, 0, 0xED, 0x56] (by decide +kernel)
  refine ⟨tokens, tokens', listing, listing', htokens, htokens', hlisting, hlisting', hdata, ?_⟩
  exact code_uniquely_decodable.2 _ _ _ _ _ _ _ _ _ hlisting hlisting' hreports hreports'
    hfree hfree' (hdata.trans hdata'.symm)

end CrossAssembler
