import CrossAssembler.Proofs.Instruction.Form
import CrossAssembler.Proofs.Item.Isolation
import CrossAssembler.Proofs.Token.Spelling

/-!
# The grammar of items

A row of tokens is read without a report exactly if it falls into **phrases**: line ends, commas,
strings, names and numbers with or without a mark, labels, and the forms between brackets. `Phrase`
has one rule for each form, with the item that it stands for. The rules speak of the tokens of one
item and of no others, while the reader looks one token ahead and skips what it cannot read.

* **From readings to phrases** (`Reading.phrase_of_start`): a reading that gives an item has taken the
  tokens of a phrase, and nothing was skipped.
* **From phrases to readings** (`Phrase.start_eq`): a phrase is read as its item, whatever phrase
  follows it. The colon that makes a name a label is the only token that could be taken from the next
  phrase, and no phrase starts with one.
* **Rows of phrases** (`exists_phrases_of_entries`, `Phrases.entries_eq`): so for all tokens, with a
  separator for a line end unless nothing or a separator stands in front of it (`collect`).
-/

namespace CrossAssembler

/-! ### The rules -/

/-- A number, a name or a label, and its item. -/
inductive Phrase.Value : List Token → Item → Prop where
  | number (v : Int) (l : Location) : Value [⟨.number v, l⟩] (.ofNumber v l)
  | name (text : String) (l : Location) : Value [⟨.name text, l⟩] (.ofBareName text l)
  | label (text : String) (l colon : Location) :
      Value [⟨.name text, l⟩, ⟨.colon, colon⟩] (.named .label text l)

/-- What may stand between brackets, and the item of the form, which has the place of the opening
bracket. -/
inductive Phrase.Inside (start : Location) : List Token → Item → Prop where
  | address {v : Int} (h : v ≤ 0xFFFF) (l : Location) :
      Inside start [⟨.number v, l⟩] (.ofNumber v start .indirectImmediate)
  | pair {p : Pair} (h : p.isBracketed = true) (l : Location) :
      Inside start [⟨.name p.name, l⟩] (.named .indirectRegister16 p.name start)
  | portC (l : Location) : Inside start [⟨.name "C", l⟩] (.named .indirectC "C" start)
  | index (r : IndexRegister) (l : Location) :
      Inside start [⟨.name r.name, l⟩] (.atIndexRegister r start)
  | ahead (r : IndexRegister) {v : Int} (h : v ≤ 127) (l sign place : Location) :
      Inside start [⟨.name r.name, l⟩, ⟨.plus, sign⟩, ⟨.number v, place⟩] (.ofIndex r v start)
  | behind (r : IndexRegister) {v : Int} (h : v ≤ 128) (l sign place : Location) :
      Inside start [⟨.name r.name, l⟩, ⟨.minus, sign⟩, ⟨.number v, place⟩] (.ofIndex r (-v) start)
  | reference {text : String} (h : ItemKind.ofName text = .name) (l : Location) :
      Inside start [⟨.name text, l⟩] (.named .indirectImmediate text start)

/-- **The forms of items**: the tokens of one item, and the item that they stand for. This is the grammar
of operands and labels, apart from how it is read. -/
inductive Phrase : List Token → Item → Prop where
  | lineEnd (l : Location) : Phrase [⟨.newline, l⟩] { kind := .separator, location := l }
  | comma (l : Location) : Phrase [⟨.comma, l⟩] { kind := .comma, location := l }
  | string (text : String) (l : Location) : Phrase [⟨.string text, l⟩] (.named .string text l)
  | value {ts : List Token} {i : Item} (h : Phrase.Value ts i) : Phrase ts i
  /-- The mark of an immediate value leaves no trace in the item. -/
  | marked {ts : List Token} {i : Item} (mark : Location) (h : Phrase.Value ts i) :
      Phrase (⟨.pound, mark⟩ :: ts) i
  | bracket {start : Location} {ts : List Token} {i : Item} (h : Phrase.Inside start ts i)
      (close : Location) : Phrase (⟨.openBracket, start⟩ :: (ts ++ [⟨.closeBracket, close⟩])) i

/-- A row of phrases, and their items in order. -/
inductive Phrases : List Token → List Item → Prop where
  | nil : Phrases [] []
  | cons {us ts : List Token} {i : Item} {items : List Item} (h : Phrase us i)
      (hrest : Phrases ts items) : Phrases (us ++ ts) (i :: items)

/-- One more item behind some others. A separator is left out if no item precedes it, and if the item
in front of it is a separator too. -/
def collect (done : List Item) (i : Item) : List Item :=
  if i.kind == .separator && done.getLast?.all (fun last => last.kind == .separator) then done
  else done ++ [i]

/-! ### Names in phrases -/

/-- A name that no table holds is no pair. -/
theorem ItemKind.ofName?_of_ofName_eq_name {text : String} (h : ItemKind.ofName text = .name) :
    Pair.ofName? text = none := by
  cases hpair : Pair.ofName? text with
  | none => rfl
  | some p =>
    simp only [ItemKind.ofName, hpair, Option.isSome_some, if_true] at h
    split_ifs at h
    split at h <;> cases h

/-! ### From readings to phrases -/

namespace Reading

variable {stop start place : Location} {ts rest : List Token} {i item : Item}

/-- A closed bracket gives the item, and the bracket is all that is taken. -/
theorem close_eq_ok (h : close stop item ts = (.ok i, rest)) :
    i = item ∧ ∃ l, ts = ⟨.closeBracket, l⟩ :: rest := by
  unfold close at h
  split at h
  next l rest' =>
    cases h
    exact ⟨rfl, l, rfl⟩
  · cases h

theorem displacement_eq_ok {r : IndexRegister} {negative : Bool}
    (h : displacement stop start r negative ts = (.ok i, rest)) :
    ∃ v l l', ts = ⟨.number v, l⟩ :: ⟨.closeBracket, l'⟩ :: rest ∧
      (-128 ≤ (if negative then -v else v) ∧ (if negative then -v else v) ≤ 127) ∧
      i = .ofIndex r (if negative then -v else v) start := by
  unfold displacement at h
  split at h
  next v l rest' =>
    dsimp only at h
    generalize hd : (if negative = true then -v else v) = d at h
    split at h
    next hrange =>
      obtain ⟨rfl, l', rfl⟩ := close_eq_ok h
      subst hd
      exact ⟨v, l, l', rfl, hrange, rfl⟩
    · cases h
  · cases h

/-- Behind an index register: a displacement or nothing, then the bracket. -/
theorem inside_of_index {r : IndexRegister} (h : index stop start r ts = (.ok i, rest))
    (l : Location) :
    ∃ us l', ts = us ++ ⟨.closeBracket, l'⟩ :: rest ∧
      Phrase.Inside start (⟨.name r.name, l⟩ :: us) i := by
  unfold index at h
  split at h
  next sign rest' =>
    obtain ⟨v, place, l', rfl, hrange, rfl⟩ := displacement_eq_ok h
    exact ⟨[⟨.plus, sign⟩, ⟨.number v, place⟩], l', rfl, .ahead r hrange.2 l sign place⟩
  next sign rest' =>
    obtain ⟨v, place, l', rfl, hrange, rfl⟩ := displacement_eq_ok h
    have hle : v ≤ 128 := by
      have hlow : -128 ≤ -v := hrange.1
      omega
    exact ⟨[⟨.minus, sign⟩, ⟨.number v, place⟩], l', rfl, .behind r hle l sign place⟩
  · obtain ⟨rfl, l', rfl⟩ := close_eq_ok h
    exact ⟨[], l', rfl, .index r l⟩

theorem inside_of_bracketedName {text : String}
    (h : bracketedName stop start place text ts = (.ok i, rest)) :
    ∃ us l', ts = us ++ ⟨.closeBracket, l'⟩ :: rest ∧
      Phrase.Inside start (⟨.name text, place⟩ :: us) i := by
  -- a name between brackets is an index register, another pair, the port, or a label
  unfold bracketedName at h
  split at h
  next r hr =>
    obtain rfl := name_of_memberNamed hr
    exact inside_of_index h place
  next p _ hp =>
    obtain rfl := name_of_memberNamed hp
    split at h
    next hbracketed =>
      obtain ⟨rfl, l', rfl⟩ := close_eq_ok h
      exact ⟨[], l', rfl, .pair hbracketed place⟩
    · cases h
  · split at h
    next hc =>
      subst hc
      obtain ⟨rfl, l', rfl⟩ := close_eq_ok h
      exact ⟨[], l', rfl, .portC place⟩
    · split at h
      next hname =>
        obtain ⟨rfl, l', rfl⟩ := close_eq_ok h
        exact ⟨[], l', rfl, .reference hname place⟩
      · cases h

theorem inside_of_bracket (h : bracket stop start ts = (.ok i, rest)) :
    ∃ us l', ts = us ++ ⟨.closeBracket, l'⟩ :: rest ∧ Phrase.Inside start us i := by
  unfold bracket at h
  split at h
  · cases h
  next t rest' =>
    obtain ⟨lexeme, place⟩ := t
    cases lexeme with
    | number v =>
      dsimp only at h
      split at h
      · cases h
      next hle =>
        obtain ⟨rfl, l', rfl⟩ := close_eq_ok h
        exact ⟨[⟨.number v, place⟩], l', rfl, .address (Int.not_lt.1 hle) place⟩
    | name text =>
      obtain ⟨us, l', rfl, hinside⟩ := inside_of_bracketedName h
      exact ⟨⟨.name text, place⟩ :: us, l', rfl, hinside⟩
    | _ => cases h

theorem value_of_name {text : String} (h : name text place ts = (.ok i, rest)) :
    ∃ us, ts = us ++ rest ∧ Phrase.Value (⟨.name text, place⟩ :: us) i := by
  unfold name at h
  split at h
  next colon rest' =>
    cases h
    exact ⟨[⟨.colon, colon⟩], rfl, .label text place colon⟩
  · cases h
    exact ⟨[], rfl, .name text place⟩

theorem value_of_marked (h : marked stop start ts = (.ok i, rest)) :
    ∃ us, ts = us ++ rest ∧ Phrase.Value us i := by
  unfold marked at h
  split at h
  next v place rest' =>
    cases h
    exact ⟨[⟨.number v, place⟩], rfl, .number v place⟩
  next text place rest' =>
    obtain ⟨us, rfl, hvalue⟩ := value_of_name h
    exact ⟨⟨.name text, place⟩ :: us, rfl, hvalue⟩
  · cases h

/-- **A reading that gives an item** has taken the tokens of a phrase. -/
theorem phrase_of_start {t : Token} (h : Reading.start stop t ts = (.ok i, rest)) :
    ∃ us, ts = us ++ rest ∧ Phrase (t :: us) i := by
  obtain ⟨lexeme, place⟩ := t
  -- the first token tells the form; what is not the start of one is reported
  cases lexeme with
  | newline =>
    cases h
    exact ⟨[], rfl, .lineEnd place⟩
  | comma =>
    cases h
    exact ⟨[], rfl, .comma place⟩
  | number v =>
    cases h
    exact ⟨[], rfl, .value (.number v place)⟩
  | string text =>
    cases h
    exact ⟨[], rfl, .string text place⟩
  | name text =>
    obtain ⟨us, hts, hvalue⟩ := value_of_name h
    exact ⟨us, hts, .value hvalue⟩
  | pound =>
    obtain ⟨us, hts, hvalue⟩ := value_of_marked h
    exact ⟨us, hts, .marked place hvalue⟩
  | openBracket =>
    obtain ⟨us, l', hts, hinside⟩ := inside_of_bracket h
    refine ⟨us ++ [⟨.closeBracket, l'⟩], ?_, .bracket hinside l'⟩
    rw [hts, List.append_assoc]
    rfl
  | _ => cases h

end Reading

/-! ### From phrases to readings -/

/-- Tokens that do not start with a colon. -/
def NoColon (ts : List Token) : Prop :=
  ∀ t ∈ ts.head?, t.lexeme ≠ .colon

namespace Phrase

variable {stop start : Location} {us rest : List Token} {i : Item}

/-- What stands between brackets is read as the item of the form. -/
theorem Inside.bracket_eq (h : Inside start us i) (hspelled : ∀ t ∈ us, t.lexeme.Spelled)
    (stop close : Location) (rest : List Token) :
    Reading.bracket stop start (us ++ ⟨.closeBracket, close⟩ :: rest) = (.ok i, rest) := by
  have hname : ∀ (text : String) (l : Location) (ts : List Token),
      Reading.bracket stop start (⟨.name text, l⟩ :: ts) =
        Reading.bracketedName stop start l text ts :=
    fun _ _ _ => rfl
  -- a displacement may follow an index register
  have hindex : ∀ (r : IndexRegister) (l : Location) (ts : List Token),
      Reading.bracket stop start (⟨.name r.name, l⟩ :: ts) = Reading.index stop start r ts := by
    intro r l ts
    have hpair : Pair.ofName? r.name = some (.index r) := Pair.ofName?_name (.index r)
    rw [hname, Reading.bracketedName, hpair]
  cases h with
  | @address v h l =>
    change (if 0xFFFF < v then _ else _) = _
    rw [if_neg (Int.not_lt.2 h)]
    rfl
  | @pair p h l =>
    rw [List.cons_append, hname, Reading.bracketedName, Pair.ofName?_name]
    cases p with
    | index r => cases h
    | _ =>
      dsimp only
      rw [if_pos h]
      rfl
  | portC l =>
    have hpair : Pair.ofName? "C" = none := by decide
    rw [List.cons_append, hname, Reading.bracketedName, hpair]
    rfl
  | index r l =>
    rw [List.cons_append, hindex]
    rfl
  | @ahead r v h l sign place =>
    have hpos : 0 ≤ v := hspelled ⟨.number v, place⟩ (by simp)
    rw [List.cons_append, hindex]
    change (if -128 ≤ v ∧ v ≤ 127 then _ else _) = _
    rw [if_pos ⟨by omega, h⟩]
    rfl
  | @behind r v h l sign place =>
    have hpos : 0 ≤ v := hspelled ⟨.number v, place⟩ (by simp)
    rw [List.cons_append, hindex]
    change (if -128 ≤ -v ∧ -v ≤ 127 then _ else _) = _
    rw [if_pos ⟨by omega, by omega⟩]
    rfl
  | @reference text h l =>
    -- a name that no table holds is neither a pair nor the register
    have hpair : Pair.ofName? text = none := ItemKind.ofName?_of_ofName_eq_name h
    have hport : text ≠ "C" := by
      rintro rfl
      revert h
      decide
    rw [List.cons_append, hname, Reading.bracketedName, hpair]
    dsimp only
    rw [if_neg hport, if_pos h]
    rfl

/-- A name or number is read as its item, if no colon follows. -/
theorem Value.read_eq (h : Value us i) (hrest : NoColon rest) (stop mark : Location) :
    Reading.marked stop mark (us ++ rest) = (.ok i, rest) ∧
      ∃ t ts, us = t :: ts ∧ Reading.start stop t (ts ++ rest) = (.ok i, rest) := by
  cases h with
  | number v l => exact ⟨rfl, _, _, rfl, rfl⟩
  | name text l =>
    have hname : Reading.name text l rest = (.ok (.ofBareName text l), rest) := by
      unfold Reading.name
      split
      next colon rest' => exact absurd rfl (hrest ⟨.colon, colon⟩ rfl)
      · rfl
    exact ⟨hname, _, _, rfl, hname⟩
  | label text l colon => exact ⟨rfl, _, _, rfl, rfl⟩

/-- **A phrase is read as its item**, if no colon follows. -/
theorem start_eq (h : Phrase us i) (hspelled : ∀ t ∈ us, t.lexeme.Spelled) (hrest : NoColon rest)
    (stop : Location) :
    ∃ t ts, us = t :: ts ∧ Reading.start stop t (ts ++ rest) = (.ok i, rest) := by
  cases h with
  | lineEnd l => exact ⟨_, _, rfl, rfl⟩
  | comma l => exact ⟨_, _, rfl, rfl⟩
  | string text l => exact ⟨_, _, rfl, rfl⟩
  | value h => exact (h.read_eq hrest stop stop).2
  | marked mark h => exact ⟨_, _, rfl, (h.read_eq hrest stop mark).1⟩
  | @bracket start ts _ h close =>
    refine ⟨_, _, rfl, ?_⟩
    have hinside : ∀ t ∈ ts, t.lexeme.Spelled := by
      intro t ht
      exact hspelled t (List.mem_cons_of_mem _ (List.mem_append_left _ ht))
    change Reading.bracket stop start _ = _
    rw [List.append_assoc]
    exact h.bracket_eq hinside stop close rest

theorem noColon (h : Phrase us i) (rest : List Token) : NoColon (us ++ rest) := by
  intro t ht
  cases h with
  | value h =>
    cases h <;>
    · cases ht
      rintro ⟨⟩
  | _ =>
    cases ht
    rintro ⟨⟩

/-- Only the phrase of a line end gives a separator. -/
theorem kind_eq_separator_iff {t : Token} (h : Phrase (t :: us) i) :
    i.kind = .separator ↔ t.lexeme = .newline := by
  cases h with
  | lineEnd l => exact ⟨fun _ => rfl, fun _ => rfl⟩
  | value h =>
    cases h with
    | name text l => exact ⟨fun h => absurd h (ItemKind.ofName_ne (by decide) text), nofun⟩
    | _ => exact ⟨nofun, nofun⟩
  | marked mark h =>
    cases h with
    | name text l => exact ⟨fun h => absurd h (ItemKind.ofName_ne (by decide) text), nofun⟩
    | _ => exact ⟨nofun, nofun⟩
  | bracket h close => cases h <;> exact ⟨nofun, nofun⟩
  | _ => exact ⟨nofun, nofun⟩

/-- A line end is a phrase by itself. -/
theorem eq_nil_of_newline {t : Token} (h : Phrase (t :: us) i) (ht : t.lexeme = .newline) :
    us = [] := by
  obtain ⟨lexeme, place⟩ := t
  dsimp only at ht
  subst ht
  cases h with
  | lineEnd l => rfl
  | value h => cases h

end Phrase

/-! ### Rows of phrases -/

theorem Phrases.noColon {ts : List Token} {items : List Item} (h : Phrases ts items) :
    NoColon ts := by
  cases h with
  | nil =>
    intro t ht
    cases ht
  | cons h hrest => exact h.noColon _

/-- Tokens that are read without a report are a row of phrases. -/
theorem exists_phrases_of_entries {stop : Location} {blank : Bool} {ts : List Token}
    (h : (entries stop blank ts).filterMap Entry.report? = []) : ∃ items, Phrases ts items := by
  -- every reading gives an item, as it would have been reported otherwise
  fun_induction entries stop blank ts with
  | case1 => exact ⟨[], .nil⟩
  | case2 blank t ts hblank ih =>
    obtain ⟨lexeme, place⟩ := t
    obtain ⟨hnewline, -⟩ := hblank
    dsimp only at hnewline
    subst hnewline
    obtain ⟨items, hitems⟩ := ih h
    exact ⟨_, .cons (.lineEnd place) hitems⟩
  | case3 blank t ts hblank ih =>
    generalize hread : Reading.start stop t ts = r at h ih
    obtain ⟨result, rest⟩ := r
    cases result with
    | error report => cases h
    | ok i =>
      obtain ⟨items, hitems⟩ := ih h
      obtain ⟨us, rfl, hphrase⟩ := Reading.phrase_of_start hread
      exact ⟨_, .cons hphrase hitems⟩

/-- The items of some phrases behind others, of which the last is a separator, or there is none, if
`blank` says so. -/
def squeeze : Bool → List Item → List Item
  | _, [] => []
  | blank, i :: items =>
    if i.kind == .separator && blank then squeeze true items
    else i :: squeeze (i.kind == .separator) items

theorem foldl_collect (done items : List Item) :
    items.foldl collect done =
      done ++ squeeze (done.getLast?.all fun last => last.kind == .separator) items := by
  -- the last of the items so far tells whether a separator is left out
  induction items generalizing done with
  | nil => exact (List.append_nil done).symm
  | cons i items ih =>
    rw [List.foldl_cons, ih, squeeze]
    unfold collect
    split
    next hdrop =>
      rw [Bool.and_eq_true] at hdrop
      rw [hdrop.2]
    · rw [List.getLast?_concat, List.append_assoc]
      rfl

/-- **A row of phrases is read as its items**, without a report. -/
theorem Phrases.entries_eq {ts : List Token} {items : List Item} (h : Phrases ts items)
    (hspelled : ∀ t ∈ ts, t.lexeme.Spelled) (stop : Location) (blank : Bool) :
    entries stop blank ts = (squeeze blank items).map Entry.item := by
  -- phrase by phrase: what follows starts with no colon, so each phrase is read to its own end and no
  -- further
  induction h generalizing blank with
  | nil =>
    rw [entries]
    rfl
  | @cons us ts i items hphrase hrest ih =>
    rw [List.forall_mem_append] at hspelled
    obtain ⟨t, us', rfl, hread⟩ := hphrase.start_eq hspelled.1 hrest.noColon stop
    have hkind : (t.lexeme == .newline) = (i.kind == .separator) := by
      rw [Bool.eq_iff_iff, beq_iff_eq, beq_iff_eq, hphrase.kind_eq_separator_iff]
    rw [List.cons_append, entries, squeeze, hread, ← hkind]
    by_cases hdrop : t.lexeme = .newline ∧ blank = true
    · obtain ⟨hnewline, rfl⟩ := hdrop
      rw [if_pos ⟨hnewline, rfl⟩, hnewline, hphrase.eq_nil_of_newline hnewline]
      exact ih hspelled.2 true
    · have hkeep : ((t.lexeme == .newline) && blank) = false := by
        rw [← Bool.not_eq_true, Bool.and_eq_true, beq_iff_eq]
        exact hdrop
      rw [if_neg hdrop, hkeep, if_neg Bool.false_ne_true, List.map_cons, ih hspelled.2]
      rfl

/-! ### Parsing -/

/-- The tokens of a source in front of the end of the input. -/
theorem tokensToEnd_of_tokenize {source name : String} {firstLine : Int} {tokens : List Token}
    (h : tokenize source name firstLine = .ok tokens) :
    tokensToEnd tokens = located ⟨name, firstLine, 1⟩ (pieces source.toList) := by
  rcases tokenize_cases source name firstLine with ⟨digits, -, herror⟩ | ⟨-, hok⟩
  · rw [herror] at h
    cases h
  · rw [hok] at h
    cases h
    exact tokensToEnd_locate _ _

theorem spelled_of_tokenize {source name : String} {firstLine : Int} {tokens : List Token}
    (h : tokenize source name firstLine = .ok tokens) :
    ∀ t ∈ tokensToEnd tokens, t.lexeme.Spelled := by
  rw [tokensToEnd_of_tokenize h]
  exact spelled_of_mem_located

/-- Tokens that are a row of phrases are read as the items of the phrases. -/
theorem Phrases.allEntries_eq {tokens : List Token} {items : List Item}
    (h : Phrases (tokensToEnd tokens) items)
    (hspelled : ∀ t ∈ tokensToEnd tokens, t.lexeme.Spelled) (file : String) :
    allEntries file tokens = (items.foldl collect []).map Entry.item := by
  rw [foldl_collect]
  exact h.entries_eq hspelled _ true

theorem Phrases.parse_eq {tokens : List Token} {items : List Item}
    (h : Phrases (tokensToEnd tokens) items)
    (hspelled : ∀ t ∈ tokensToEnd tokens, t.lexeme.Spelled) (file : String) :
    parse file tokens = ⟨items.foldl collect [], []⟩ := by
  unfold parse
  rw [h.allEntries_eq hspelled file, List.map_map, List.filterMap_map]
  congr 1
  · exact List.map_id _
  · exact List.filterMap_eq_nil_iff.2 fun _ _ => rfl

/-- **The grammar of items.** The tokens of a source are read without a report exactly if those in front
of the end of the input are a row of phrases, and then the items are those of the phrases, with a
separator for a line end unless no item or another separator stands in front of it. -/
theorem parse_accepts_phrases {source name : String} {firstLine : Int} {tokens : List Token}
    (htokens : tokenize source name firstLine = .ok tokens) (file : String) :
    ((parse file tokens).reports = [] ↔ ∃ items, Phrases (tokensToEnd tokens) items) ∧
      ∀ items, Phrases (tokensToEnd tokens) items →
        (parse file tokens).items = items.foldl collect [] := by
  have hspelled := spelled_of_tokenize htokens
  refine ⟨⟨exists_phrases_of_entries, ?_⟩, ?_⟩
  · rintro ⟨items, hitems⟩
    rw [hitems.parse_eq hspelled]
  · intro items hitems
    rw [hitems.parse_eq hspelled]

/-- A displacement of -128 is part of a phrase, and one of 128 is not. -/
theorem parse_accepts_phrases_displacement :
    (∃ tokens items, tokenize "\nLD (IX-128),#A\n\n" "p" = .ok tokens ∧
        Phrases (tokensToEnd tokens) items ∧
        (parse "p" tokens).items = items.foldl collect [] ∧
        (parse "p" tokens).items.map Item.kind =
          [.mnemonic, .indirectIndexed, .comma, .register8, .separator]) ∧
      ∃ tokens, tokenize "LD (IX+128),#A" "p" = .ok tokens ∧
        ¬ ∃ items, Phrases (tokensToEnd tokens) items := by
  have hread : (tokenize "\nLD (IX-128),#A\n\n" "p").toOption.map
      (fun tokens => ((parse "p" tokens).reports, (parse "p" tokens).items.map Item.kind)) =
        some ([], [.mnemonic, .indirectIndexed, .comma, .register8, .separator]) := by
    decide +kernel
  have hrefused : (tokenize "LD (IX+128),#A" "p").toOption.map
      (fun tokens => (parse "p" tokens).reports.length) = some 1 := by
    decide +kernel
  constructor
  · obtain ⟨tokens, htokens, hread⟩ := exists_ok_of_toOption hread
    obtain ⟨hreports, hkinds⟩ := Prod.mk.inj hread
    obtain ⟨hiff, hitems⟩ := parse_accepts_phrases htokens "p"
    obtain ⟨items, hphrases⟩ := hiff.1 hreports
    exact ⟨tokens, items, htokens, hphrases, hitems items hphrases, hkinds⟩
  · obtain ⟨tokens, htokens, hrefused⟩ := exists_ok_of_toOption hrefused
    refine ⟨tokens, htokens, fun hphrases => ?_⟩
    rw [(parse_accepts_phrases htokens "p").1.2 hphrases] at hrefused
    cases hrefused

end CrossAssembler
