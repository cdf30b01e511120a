import CrossAssembler.Proofs.Program.Drift
import CrossAssembler.Proofs.Region.Image
import CrossAssembler.Proofs.Token.Overlong

/-!
# Runs arrive

A run is stopped by a fault, and faults are not meant for the writer of a source: a name that no table
holds, an index byte that is none, a label without a name. No source text leads to one of them,
whatever the settings are. What stops a run is a decimal number of too many digits, and every such
number does.

* **Before the walks** (`assemble_of_tokenize`): once the tokens of a source are found, nothing can
  stop the run.
* **During the walks** (`Walk.exists_effect_of_mem_visits`): every visit of a walk that arrives had an
  effect, so every name was found and every byte was one.
* **After the walks** (`Visit.exists_of_mem_attributions`, `Region.data_bundle`): emissions are what
  visits have encoded, and the regions hold their bytes, for any origin.
-/

namespace CrossAssembler

/-! ### What walks that arrive have done -/

/-- On every visit of a walk that arrives, the statement had an effect: a statement without one stops the
walk. -/
theorem Walk.exists_effect_of_mem_visits {pass : Pass} {w w' : Walk} {stops : List Stop}
    (halong : w.along pass stops = .ok w') :
    ∀ v ∈ w.visits pass stops, ∃ e, v.effect pass = .ok e := by
  -- the walk is taken apart at its first stop: it got past it, so the stop had an effect
  induction stops generalizing w with
  | nil =>
    intro v hv
    cases hv
  | cons s stops ih =>
    obtain ⟨u, hact, halong⟩ := along_cons_iff.1 halong
    rw [visits_cons hact, List.forall_mem_cons]
    refine ⟨?_, ih halong⟩
    cases s with
    | label item => exact ⟨.nothing, rfl⟩
    | statement items =>
      obtain ⟨e, he, -⟩ := act_statement_iff.1 hact
      exact ⟨e, he⟩

namespace Visit

/-- An emission is made on a visit that encodes its statement. -/
theorem exists_of_mem_attributions {pass : Pass} {pending : Option Visit} {visits : List Visit}
    {e : Emission} {label : Option Visit} (h : (e, label) ∈ attributions pass pending visits) :
    ∃ v ∈ visits, v.emission? pass label = some e := by
  -- the label in force changes from visit to visit, so it is kept general
  induction visits generalizing pending with
  | nil => cases h
  | cons v visits ih =>
    rw [attributions, List.mem_append] at h
    rcases h with h | h
    · rw [Option.mem_toList, Option.map_eq_some_iff] at h
      obtain ⟨e', he', h⟩ := h
      cases h
      exact ⟨v, List.mem_cons_self, he'⟩
    · obtain ⟨v', hv', he⟩ := ih h
      exact ⟨v', List.mem_cons_of_mem _ hv', he⟩

/-- The emission of a visit counts as output and has one to four bytes. -/
theorem emission?_eq_some {pass : Pass} {pending : Option Visit} {v : Visit} {e : Emission}
    (h : v.emission? pass pending = some e) :
    e.standing = .accepted ∧ 0 < e.data.length ∧ e.data.length ≤ 4 := by
  unfold emission? at h
  split at h
  next place data heffect =>
    cases h
    refine ⟨rfl, ?_⟩
    obtain ⟨stop, m⟩ := v
    cases stop with
    -- a label has no bytes
    | label item => cases heffect
    | statement items => exact Statement.effect_size heffect
  · cases h

end Visit

/-! ### Runs -/

/-- All that a run was to do is done: both walks have visited every stop, each visit had an effect,
the emissions are what the final walk has encoded, in one to four bytes each, the regions hold these
bytes, and the problems are the reports of reading the source and those of the final walk. -/
structure Assembly.Complete (a : Assembly) {m : Machine} {parsed : Parsed}
    (p : Passes m parsed.items) : Prop where
  surveyed : p.first.map Visit.stop = Stop.ofItems parsed.items
  survey_effect : ∀ v ∈ p.first, ∃ e, v.effect .survey = .ok e
  walked : p.second.map Visit.stop = Stop.ofItems parsed.items
  final_effect : ∀ v ∈ p.second, ∃ e, v.effect .final = .ok e
  emitted : a.emissions = p.attributions.map Prod.fst
  sizes : ∀ e ∈ a.emissions, 0 < e.data.length ∧ e.data.length ≤ 4
  bundled : a.regions.flatMap Region.data = a.emissions.flatMap Emission.data
  collected : a.problems.Perm (parsed.reports ++ p.second.flatMap Visit.reports)

/-- What a run leaves behind is complete. -/
theorem Assembly.complete_of_assemble {settings : Settings} {source file : String} {a : Assembly}
    (h : assemble settings source file = .ok a) :
    ∃ name tokens, tokenize source name = .ok tokens ∧
      ∃ p : Passes { address := settings.origin, cpu := settings.cpu } (parse name tokens).items,
        a.Complete p := by
  obtain ⟨name, tokens, htokens, p, hemissions, hregions, hproblems, -⟩ := assemble_eq_ok h
  have hemitted : a.emissions = p.attributions.map Prod.fst := hemissions.trans p.emissions_eq
  -- whatever holds of an emission holds because a visit has made it
  have hmade : ∀ e ∈ a.emissions, e.standing = .accepted ∧ 0 < e.data.length ∧ e.data.length ≤ 4 := by
    intro e he
    rw [hemitted] at he
    obtain ⟨⟨e', label⟩, he', rfl⟩ := List.mem_map.1 he
    obtain ⟨v, -, hv⟩ := Visit.exists_of_mem_attributions he'
    exact Visit.emission?_eq_some hv
  -- every emission counts as output, so no byte is left out of the regions
  have houtputs : Region.outputs a.emissions = a.emissions := by
    refine List.filter_eq_self.2 fun e he => ?_
    rw [(hmade e he).1]
    rfl
  refine ⟨name, tokens, htokens, p, ?_⟩
  exact {
    surveyed := Walk.map_stop_visits p.survey_along
    survey_effect := Walk.exists_effect_of_mem_visits p.survey_along
    walked := Walk.map_stop_visits p.final_along
    final_effect := Walk.exists_effect_of_mem_visits p.final_along
    emitted := hemitted
    sizes := fun e he => (hmade e he).2
    bundled := by rw [hregions, ← hemissions, Region.data_bundle, houtputs]
    collected := by
      rw [hproblems, ← p.reports_eq]
      exact List.mergeSort_perm _ _ }

/-- Once the tokens of a source are found, the run arrives. -/
theorem assemble_of_tokenize {settings : Settings} {source file : String} {tokens : List Token}
    (h : tokenize source (if file = "" then settings.file else file) = .ok tokens) :
    ∃ a, assemble settings source file = .ok a := by
  obtain ⟨p⟩ := Passes.exists_passes
    (m := { address := settings.origin, cpu := settings.cpu }) rfl
    (if file = "" then settings.file else file) tokens
  unfold assemble
  dsimp only
  rw [h]
  change ∃ a, (Except.mapError Prod.fst (Machine.assemble _ _) >>= _) = .ok a
  -- both walks arrive on what was parsed, and bundling and sorting cannot fail
  rw [p.assemble_eq]
  exact ⟨_, rfl⟩

/-- A fault in finding the tokens is the fault of the run. -/
theorem assemble_of_tokenize_error {settings : Settings} {source file : String} {fault : Fault}
    (h : tokenize source (if file = "" then settings.file else file) = .error fault) :
    assemble settings source file = .error fault := by
  unfold assemble
  dsimp only
  rw [h]
  rfl

/-- **A run arrives, unless a decimal number is too long.** For all settings and every source: the run
gives an assembly exactly if no decimal number of the source, outside comments and strings, has too
many digits; a fault names the digits of such a number and is never another one; and an assembly is
complete. -/
theorem assemble_arrives_iff (settings : Settings) (source file : String) :
    ((∃ a, assemble settings source file = .ok a) ↔ ¬ ∃ digits, Overlong source.toList digits) ∧
      (∀ fault, assemble settings source file = .error fault →
        ∃ digits, Overlong source.toList digits ∧ fault = .literalTooLong digits) ∧
      ∀ a, assemble settings source file = .ok a →
        ∃ name tokens, tokenize source name = .ok tokens ∧
          ∃ p : Passes { address := settings.origin, cpu := settings.cpu } (parse name tokens).items,
            a.Complete p := by
  refine ⟨?_, ?_, fun a => Assembly.complete_of_assemble⟩
  · -- finding the tokens is the only stage that can stop a run, and `tokenize_cases` says when it does
    rcases tokenize_cases source (if file = "" then settings.file else file) 1 with
      ⟨digits, hlong, herror⟩ | ⟨hshort, hok⟩
    · rw [assemble_of_tokenize_error herror]
      refine ⟨?_, fun hnone => absurd ⟨digits, hlong⟩ hnone⟩
      rintro ⟨a, ⟨⟩⟩
    · exact ⟨fun _ => hshort, fun _ => assemble_of_tokenize hok⟩
  · intro fault hfault
    rcases tokenize_cases source (if file = "" then settings.file else file) 1 with
      ⟨digits, hlong, herror⟩ | ⟨-, hok⟩
    · rw [assemble_of_tokenize_error herror] at hfault
      cases hfault
      exact ⟨digits, hlong, rfl⟩
    · obtain ⟨a, ha⟩ : ∃ a, assemble settings source file = .ok a := assemble_of_tokenize hok
      rw [ha] at hfault
      cases hfault

end CrossAssembler
