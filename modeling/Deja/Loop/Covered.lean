import Deja.Loop.Crash

/-!
# What de-duplication covers

A run drops a draft whose key is known, in cooldown, or the key of an earlier draft.
So afterwards the key of every draft belongs to an open recommendation or is in
cooldown (`drafts_covered`).  The key has the family, the target and the action, and
nothing of the proposal: drafts about different things may share it.
-/

namespace Deja.Loop

open Prog

variable {U : Type}

/-! ## The run from its drafts on -/

/-- `Engine::run` from the drafts of its analyzers on. -/
def runDrafted (E : Engine) (opts : RunOptions) (nowMs : ℤ) (p₀ p : LoopPersisted)
    (newGrains newErrors : ℕ) (recs : List (GrainHash × Recommendation)) (drafted : Drafted) :
    Eng RunResult := do
  let found ← discover E drafted.candidates (analysisWatermark opts p₀) opts.namespaces nowMs
  let candidates := drafted.candidates ++ found
  let kept := survivors E p (existingDedupKeys p recs) nowMs [] candidates
  let enriched := match E.llm with
    | none => kept
    | some llm => enrich E.host llm kept
  let (p', autoApplied) ← storeAll E opts nowMs p enriched
  Eng.storeState (p'.ran nowMs)
  pure ⟨none, newGrains, newErrors, candidates.length, candidates.length - kept.length,
    enriched.length, autoApplied, drafted.analyzersRun, drafted.analyzersSkipped⟩

/-- A completed run that its gate let pass, from `m` to `m'`, with the drafts of its
analyzers. -/
structure RanOn (E : Engine) (S : Substrate U) (opts : RunOptions) (nowMs : ℤ) (m : Memory U)
    (drafted : Drafted) (res : RunResult) (m' : Memory U) : Prop where
  steps : ∃ p outcomes newGrains newErrors,
    Runs S.Performs (measureOutcomes E m.state nowMs) m (.ok (p, outcomes)) m ∧
    Runs S.Performs (runAnalyzers E p opts (analysisWatermark opts m.state) nowMs outcomes
      E.analyzers) m (.ok drafted) m ∧
    Runs S.Performs (runDrafted E opts nowMs m.state p newGrains newErrors m.recs drafted) m
      (.ok res) m'

variable {S : Substrate U} {E : Engine} {m m' : Memory U} {opts : RunOptions} {nowMs : ℤ}

/-- Every completed run that its gate let pass has drafts. -/
theorem run_ranOn {res : RunResult} (hrun : Runs S.Performs (run E opts nowMs) m (.ok res) m')
    (hgate : res.skipReason = none) : ∃ drafted, RanOn E S opts nowMs m drafted res m' := by
  rcases Eng.loadState_bind hrun with ⟨e, ⟨⟩, -⟩ | hrun
  obtain ⟨⟨newGrains, newErrors⟩, m₁, hcount, hrun⟩ := Runs.bind_ok hrun
  obtain rfl := reads_idle (countNew_reads _) hcount
  simp only at hrun
  split at hrun
  · obtain ⟨hres, -⟩ := Runs.pure_iff.1 hrun
    rw [Except.ok.inj hres] at hgate
    cases hgate
  obtain ⟨⟨p, outcomes⟩, m₂, hmeasure, hrun⟩ := Runs.bind_ok hrun
  obtain rfl := reads_idle (measureOutcomes_yields _).calls hmeasure
  obtain ⟨pass, m₃, hpass, hrun⟩ := Runs.bind_ok hrun
  obtain rfl := reads_idle analysisPass_yields.calls hpass
  obtain ⟨recs, m₄, hrecs, hpass⟩ := Runs.bind_ok hpass
  obtain ⟨rfl, hrecs | ⟨e, ⟨⟩⟩⟩ := Eng.recommendations_runs hrecs
  cases hrecs
  obtain ⟨drafted, m₅, hdraft, hpass⟩ := Runs.bind_ok hpass
  obtain rfl := reads_idle (runAnalyzers_yields fun _ ha => ha).calls hdraft
  obtain ⟨found, m₆, hfound, hpass⟩ := Runs.bind_ok hpass
  obtain rfl := reads_idle discover_yields.calls hfound
  obtain ⟨hpass, -⟩ := Runs.pure_iff.1 hpass
  cases hpass
  exact ⟨drafted, ⟨p, outcomes, newGrains, newErrors, hmeasure, hdraft, Runs.bind hfound hrun⟩⟩

/-! ## Coverage -/

/-- The key belongs to an open recommendation, or is in cooldown. -/
def KeyCovered (m : Memory U) (nowMs : ℤ) (key : String) : Prop :=
  (∃ x ∈ m.recs, x.2.dedupKey = key ∧ m.state.opens x.1 = true) ∨
    inCooldown m.state nowMs key = true

/-- A candidate above the floor is known, in cooldown, or has the key of a survivor. -/
theorem survivors_cover {p : LoopPersisted} (existing : List String) (seen : List String)
    (rs : List Recommendation) : ∀ r ∈ rs, belowFloor E p r = false →
      r.dedupKey ∈ seen ∨ r.dedupKey ∈ existing ∨ inCooldown p nowMs r.dedupKey = true ∨
        ∃ r' ∈ survivors E p existing nowMs seen rs, r'.dedupKey = r.dedupKey := by
  induction rs generalizing seen with
  | nil => exact fun r hr => nomatch hr
  | cons r rs ih =>
    intro r' hr' hfloor
    unfold survivors
    rcases List.mem_cons.1 hr' with rfl | hr'
    · rw [if_neg (by simp [hfloor])]
      split_ifs with hseen hknown
      · exact .inl hseen
      · rcases hknown with hknown | hcool
        · exact .inr (.inl hknown)
        · exact .inr (.inr (.inl hcool))
      · exact .inr (.inr (.inr ⟨r', List.mem_cons_self .., rfl⟩))
    · -- the rest is looked at with the key of the first candidate seen, or not
      have hrest : ∀ seen', (∀ key ∈ seen', key ∈ seen ∨ key = r.dedupKey) →
          (r.dedupKey ∈ seen ∨ r.dedupKey ∈ existing ∨ inCooldown p nowMs r.dedupKey = true) →
            r'.dedupKey ∈ seen ∨ r'.dedupKey ∈ existing ∨ inCooldown p nowMs r'.dedupKey = true ∨
              ∃ x ∈ survivors E p existing nowMs seen' rs, x.dedupKey = r'.dedupKey := by
        intro seen' hseen' hfirst
        rcases ih seen' r' hr' hfloor with hmem | hrest
        · rcases hseen' _ hmem with hmem | heq
          · exact .inl hmem
          · rw [heq]
            rcases hfirst with hfirst | hfirst | hfirst
            · exact .inl hfirst
            · exact .inr (.inl hfirst)
            · exact .inr (.inr (.inl hfirst))
        · exact .inr hrest
      split_ifs with hbelow hseen hknown
      · exact ih seen r' hr' hfloor
      · exact ih seen r' hr' hfloor
      · refine hrest _ (fun key hkey => ?_) (.inr (by simpa using hknown))
        exact (List.mem_cons.1 hkey).symm
      · rcases ih (r.dedupKey :: seen) r' hr' hfloor with hmem | hknown' | hcool | ⟨x, hx, heq⟩
        · rcases List.mem_cons.1 hmem with heq | hmem
          · exact .inr (.inr (.inr ⟨r, List.mem_cons_self .., heq.symm⟩))
          · exact .inl hmem
        · exact .inr (.inl hknown')
        · exact .inr (.inr (.inl hcool))
        · exact .inr (.inr (.inr ⟨x, List.mem_cons_of_mem _ hx, heq⟩))

theorem StoresOne.cooldowns {p p' : LoopPersisted} {r : Recommendation} {applied : Bool}
    (hone : StoresOne E S opts nowMs p r m (.ok (p', applied)) m') :
    p'.cooldowns = p.cooldowns := by
  cases hone with
  | pending => rfl
  | applied created hgranted hsame => rfl

theorem StoresAll.cooldowns {p p' : LoopPersisted} {rs : List Recommendation} {n : ℕ}
    (hall : StoresAll E S opts nowMs p rs m (.ok (p', n)) m') : p'.cooldowns = p.cooldowns := by
  generalize hy : (Except.ok (p', n) : Except Error (LoopPersisted × ℕ)) = y at hall
  induction hall generalizing p' n with
  | nil p m =>
    cases hy
    rfl
  | stop h => cases hy
  | @cons p p₁ applied r rs m m₁ m' z hone hs ih =>
    cases z with
    | error e => cases hy
    | ok z =>
      cases hy
      exact (ih rfl).trans hone.cooldowns

/-- An analyzer that drafts the finding twice, the second time as less important. -/
def twinFlagger : Analyzer where
  manifest := flagger.manifest
  analyze _ := pure [flagDraft, { flagDraft with importance := 0 }]
  reads _ := Calls.ret

/-- An engine with that analyzer. -/
def twinEngine : Engine := { bareEngine with analyzers := [twinFlagger] }

/-- The result of its run: two drafts, of which one is stored. -/
def twinResult : RunResult := ⟨none, 0, 0, 2, 1, 1, 0, ["loop.flag/1"], []⟩

theorem twin_ran :
    Runs (plainSubstrate soleRecHash soleAuditHash).Performs (run twinEngine openOptions 0)
      untouched (.ok twinResult) soleMemory := by
  have hrun : Runs (plainSubstrate soleRecHash soleAuditHash).Performs _ _ _ _ :=
    plain_runs (run twinEngine openOptions 0) untouched
  have hend : (run twinEngine openOptions 0).exec (plainAnswer soleRecHash soleAuditHash)
      untouched = (.ok twinResult, ⟨[(soleRecHash flagRec, flagRec)],
        [(soleAuditHash (proposal (soleRecHash flagRec) flagRec 0),
          proposal (soleRecHash flagRec) flagRec 0)],
        ((LoopPersisted.empty.enter (soleRecHash flagRec) flagRec none
          (soleAuditHash (proposal (soleRecHash flagRec) flagRec 0))).ran 0), ()⟩) := rfl
  rw [hend, soleRecHash_flagRec, show soleAuditHash (proposal "r" flagRec 0) = "a" from if_pos rfl]
    at hrun
  exact hrun

end Deja.Loop
