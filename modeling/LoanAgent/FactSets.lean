import LoanAgent.Reachability

/-! The fact sets of an application. An extraction replaces the facts by a `DELETE`
and an insert in one transaction, and the `DELETE` removes the rows it finds
when it starts; what another run commits after that stays beside the new rows.
Proved: as long as every commit of an extraction finds only facts that its
`DELETE` has found, the facts of an application are at any time those of one
extraction. -/

namespace LoanAgent

variable {py : Python} {settings : Settings} {s s' : Store} {l l' : Proc py} {a : Action py}
  {c : Service py}

/-- A commit of an extraction finds only facts that its `DELETE` has found. -/
def deletesAll (c : Service py) (p : ℕ) (a : Action py) : Bool :=
  match c.procs p, a with
  | .run σ (.insert _ _ deleted), .commitFacts _ _ =>
    (c.shared.db.factsOf σ.applicationId).all (·.id ∈ deleted)
  | _, _ => true

/-- What an extraction commits are the coerced values of its validated entities. -/
structure ExtractionOk (py : Python) (e : Uuid × List FactContent) : Prop where
  rows : ∃ (entities : List (RawExtractedEntity py)) (sources : List SourceText) (ids : ℕ → Uuid)
    (now : Time) (facts : List ExtractedFact),
    newFacts e.1 ids now (validateEntities entities sources) = .ok facts ∧
      e.2 = facts.map (·.toFactContent)

/-- No facts, or those of one extraction. -/
def OneFactSet (s : Store) (a : Uuid) : Prop :=
  s.db.contentsOf a = [] ∨ ∃ e ∈ s.extractions, e.1 = a ∧ (s.db.contentsOf a).Perm e.2

instance (s : Store) (a : Uuid) : Decidable (OneFactSet s a) :=
  inferInstanceAs (Decidable (s.db.contentsOf a = [] ∨
    ∃ e ∈ s.extractions, e.1 = a ∧ (s.db.contentsOf a).Perm e.2))

/-- The entities of the call were validated against the sources of its prompt. -/
def ExtractionCall.Validates (call : ExtractionCall py) (validated : List (ValidatedEntity py)) : Prop :=
  ∃ sources, call.promptExcerpt = buildUserPrompt sources ∧ validated = validateEntities call.result.facts sources

/-- The entities of a run were validated, and the rows it deletes are its own. -/
def Proc.Extracts (s : Store) : Proc py → Prop
  | .run _ (.delete call validated) => call.Validates validated
  | .run σ (.insert call validated deleted) => call.Validates validated ∧
      ∀ u ∈ deleted, u ∈ s.issued ∧ ∀ f ∈ s.db.facts, f.id = u → f.applicationId = σ.applicationId
  | _ => True

/-- New facts take new identifiers. -/
def FactsGrow (s s' : Store) : Prop :=
  (∀ u ∈ s.issued, u ∈ s'.issued) ∧ ∀ f ∈ s'.db.facts, f ∈ s.db.facts ∨ f.id ∉ s.issued

theorem Transition.factsGrow (h : Transition settings s l a s' l') : FactsGrow s s' := by
  refine ⟨h.issued_mono, fun f hf => ?_⟩
  rcases h.facts with ⟨hfacts, -⟩ | ⟨σ, call, validated, deleted, ids, now, facts, -, -, hfresh, hnew, hdb, -⟩
  · exact .inl (hfacts ▸ hf)
  · rw [hdb] at hf
    rcases List.mem_append.mp hf with hf | hf
    · exact .inl (List.mem_filter.mp hf).1
    · refine .inr (hfresh.2 f.id ?_)
      rw [← newFacts_ids hnew]
      exact List.mem_map_of_mem hf

theorem Proc.Extracts.stable (hR : FactsGrow s s') (hl : l.Extracts s) : l.Extracts s' := by
  unfold Proc.Extracts at hl ⊢
  split at hl
  · exact hl
  · refine ⟨hl.1, fun u hu => ⟨hR.1 u (hl.2 u hu).1, fun f hf hid => ?_⟩⟩
    rcases hR.2 f hf with hf | hf
    · exact (hl.2 u hu).2 f hf hid
    · exact absurd (hid ▸ (hl.2 u hu).1) hf
  · trivial

theorem promptExcerpt_askModel {llm : Llm py} {sources : List SourceText} {call : ExtractionCall py}
    (h : askModel settings llm sources = .ok (.answered call)) : call.promptExcerpt = buildUserPrompt sources := by
  unfold askModel at h
  split_ifs at h
  · cases h
  split at h
  next hcall =>
    cases h
    unfold extractFacts at hcall
    dsimp only at hcall
    split at hcall
    · cases hcall
    · split at hcall
      · cases hcall
      · cases hcall
        rfl
  · cases h
  · cases h

theorem Transition.extracts (h : Transition settings s l a s' l')
    (hfacts : (s.db.facts.map (·.id)).Nodup) (hissued : ∀ f ∈ s.db.facts, f.id ∈ s.issued)
    (hl : l.Extracts s) : l'.Extracts s' := by
  have hgrow := h.factsGrow
  cases h with
  | evict | forgotten => exact hl.stable hgrow
  | asked h => exact ⟨_, promptExcerpt_askModel h, rfl⟩
  | deleted σ call validated =>
    refine ⟨hl, fun u hu => ?_⟩
    obtain ⟨g, hg, rfl⟩ := List.mem_map.mp hu
    obtain ⟨hmem, hg⟩ := List.mem_filter.mp hg
    refine ⟨hissued g hmem, fun f hf hid => ?_⟩
    rw [List.inj_on_of_nodup_map hfacts hf hmem hid]
    simpa using hg
  | delivered _ _ _ h => rcases h with rfl | rfl <;> trivial
  | _ => trivial

theorem extracts_of_reaches {ok : Service py → ℕ → Action py → Prop} (h : ServiceReaches py settings ok c)
    (p : ℕ) : (c.procs p).Extracts c.shared := by
  refine ((h.assuming (I := KeysOk) fun h => keysOk_of_reaches h).assertions
    (I := fun _ => True) (J := fun s l => l.Extracts s) (R := FactsGrow) trivial (fun _ => trivial) ?_
    fun _ _ _ => Proc.Extracts.stable).2 p
  rintro c p a s' l' ⟨-, hkeys⟩ - hl hstep
  have htrans := procStep_transition hstep
  exact ⟨trivial, htrans.extracts hkeys.keysUnique.facts (fun f hf => hkeys.factIssued hf) hl, htrans.factsGrow⟩

/-- The facts of every application are those of one extraction, and every
extraction is what it should be. -/
structure FactSetsOk (py : Python) (s : Store) : Prop where
  single : ∀ a, OneFactSet s a
  extractions : ∀ e ∈ s.extractions, ExtractionOk py e

/-- Facts are never mixed in a run whose extractions find nothing but what they
have deleted. -/
theorem fact_sets_never_mixed (h : ServiceReaches py settings (fun c p a => deletesAll c p a = true) c) :
    FactSetsOk py c.shared := by
  have h0 : FactSetsOk py (initial py).shared := ⟨fun _ => .inl rfl, nofun⟩
  refine (h.assuming (I := fun c => ∀ p, (c.procs p).Extracts c.shared) fun h =>
    extracts_of_reaches h).invariant (I := fun c => FactSetsOk py c.shared) h0 ?_
  rintro c p a s' l' ⟨hsingle, hextr⟩ ⟨hok, hl⟩ hstep
  have htrans := procStep_transition hstep
  have hl := hl p
  rcases htrans.facts with ⟨hfacts, hsame⟩ |
    ⟨σ, call, validated, deleted, ids, now, facts, hlp, ha, -, hnew, hdb, hadd⟩
  · refine ⟨fun b => ?_, hsame ▸ hextr⟩
    simpa only [OneFactSet, Database.contentsOf, Database.factsOf, hfacts, hsame] using hsingle b
  · rw [hlp] at hl
    obtain ⟨⟨sources, -, rfl⟩, hdeleted⟩ := hl
    simp only [deletesAll, hlp, ha, List.all_eq_true, decide_eq_true_eq] at hok
    have hown : ∀ f ∈ facts, f.applicationId = σ.applicationId := fun f hf => (mem_newFacts hnew hf).1
    refine ⟨fun b => ?_, fun e he => ?_⟩
    · by_cases hb : b = σ.applicationId
      · subst hb
        refine .inr ⟨_, hadd ▸ List.mem_cons_self, rfl, ?_⟩
        rw [hdb]
        exact (congrArg (List.map _) (factsOf_replaceFacts hok hown)) ▸ List.Perm.refl _
      · have hkeep : s'.db.contentsOf b = c.shared.db.contentsOf b := by
          rw [hdb]
          exact congrArg (List.map _) (factsOf_replaceOther hb (fun u hu => (hdeleted u hu).2) hown)
        rcases hsingle b with hnone | ⟨e, he, hid, hperm⟩
        · exact .inl (hkeep.trans hnone)
        · exact .inr ⟨e, hadd ▸ List.mem_cons_of_mem _ he, hid, hkeep ▸ hperm⟩
    · rw [hadd] at he
      rcases List.mem_cons.mp he with rfl | he
      · exact ⟨_, sources, ids, now, facts, hnew, rfl⟩
      · exact hextr e he

/-! ### A mixed fact set -/

/-- Two messages queue two runs, and both delete before either has committed. -/
def overlappingRuns : List (ℕ × Action asciiPython) :=
  intakeSteps 0 (aliceHello "k1".toList length_k1) 1 ++
    intakeSteps 0 (aliceHello "k2".toList length_k2) 2 ++
    extractSteps 0 (.ofNat 100) sampleIo (answering requiredFacts) 10 ++
    extractSteps 1 (.ofNat 100) sampleIo (answering requiredFacts) 10 ++ [factsStep 0 1 11, factsStep 1 2 12]

theorem overlapping_runs_mix_facts :
    ((serviceAfter (fun _ _ _ => true) overlappingRuns).shared.extractions.map fun e => e.2.length) = [3, 3] ∧
    ((serviceAfter (fun _ _ _ => true) overlappingRuns).shared.db.contentsOf (.ofNat 100)).length = 6 ∧
    ¬ OneFactSet (serviceAfter (fun _ _ _ => true) overlappingRuns).shared (.ofNat 100) ∧
    ServiceReaches asciiPython sampleSettings Interleave.anyStep
      (serviceAfter (fun _ _ _ => true) overlappingRuns) := by
  -- The schedule is evaluated once for all three.
  rw [← and_assoc, ← and_assoc]
  exact ⟨by decide +kernel, Interleave.after_reaches fun _ _ _ _ => trivial⟩

/-- The second run starts when the first has committed its facts. -/
def runsInOrder : List (ℕ × Action asciiPython) :=
  intakeSteps 0 (aliceHello "k1".toList length_k1) 1 ++
    intakeSteps 0 (aliceHello "k2".toList length_k2) 2 ++
    extractSteps 0 (.ofNat 100) sampleIo (answering requiredFacts) 10 ++ [factsStep 0 1 11] ++
    extractSteps 1 (.ofNat 100) sampleIo (answering requiredFacts) 12 ++ [factsStep 1 2 13]

theorem fact_sets_never_mixed_inOrder :
    (serviceAfter deletesAll runsInOrder).shared.extractions.length = 2 ∧
    ((serviceAfter deletesAll runsInOrder).shared.db.contentsOf (.ofNat 100)).length = 3 ∧
    FactSetsOk asciiPython (serviceAfter deletesAll runsInOrder).shared := by
  rw [← and_assoc]
  exact ⟨by decide +kernel, fact_sets_never_mixed (Interleave.after_reaches fun _ _ _ h => h)⟩

end LoanAgent
