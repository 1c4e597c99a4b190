import Deja.Loop.Steps

/-!
# What a run stores

The last phase of a run puts the survivors one at a time.  Over a substrate whose
CAL text spares the loop's own grains, each of them is put with the record of its
proposal and entered in the loop state the run carries along, which it stores last
(`run_runs`).
-/

namespace Deja.Loop

open Prog

variable {U : Type} {S : Substrate U} {m m' : Memory U} {E : Engine} {opts : RunOptions}
  {nowMs : ℤ} {p p' : LoopPersisted} {r : Recommendation}

/-! ## The loop's part of a memory -/

/-- Two memories with the same loop grains and loop state. -/
structure SameLoop (m m' : Memory U) : Prop where
  recs : m'.recs = m.recs
  audits : m'.audits = m.audits
  state : m'.state = m.state

theorem SameLoop.refl (m : Memory U) : SameLoop m m := ⟨rfl, rfl, rfl⟩

theorem SameLoop.trans {m₁ m₂ m₃ : Memory U} (h : SameLoop m₁ m₂) (h' : SameLoop m₂ m₃) :
    SameLoop m₁ m₃ :=
  ⟨h'.recs.trans h.recs, h'.audits.trans h.audits, h'.state.trans h.state⟩

theorem SameLoop.addAudit (h : SameLoop m m') (x : GrainHash) (a : AuditRecord) :
    SameLoop (m.addAudit x a) (m'.addAudit x a) := by
  unfold Memory.addAudit
  rw [h.audits]
  split_ifs
  · exact h
  · exact ⟨h.recs, rfl, h.state⟩

/-- CAL text and retractions leave the loop's own grains and its state alone. -/
structure Substrate.SparesLoop (S : Substrate U) : Prop where
  executes : ∀ text m r m', S.executes text m r m' → SameLoop m m'
  retracts : ∀ h m r m', S.retracts h m r m' → SameLoop m m'

theorem retractAll_loop (hS : S.SparesLoop) {reason : String} {hs : List GrainHash}
    {x : Except Error Unit} (hrun : Runs S.Performs (retractAll reason hs) m x m') :
    SameLoop m m' := by
  induction hs generalizing m with
  | nil =>
    obtain ⟨-, rfl⟩ := Runs.pure_iff.1 hrun
    exact .refl _
  | cons h hs ih =>
    rcases Runs.bind_iff.1 hrun with ⟨e, hone, rfl⟩ | ⟨u, m₁, hone, hrest⟩
    · exact hS.retracts _ _ _ _ (Eng.retract_runs hone)
    · exact (hS.retracts _ _ _ _ (Eng.retract_runs hone)).trans (ih hrest)

/-! ## One survivor -/

/-- The record of an apply by policy. -/
def autoAudit (p : LoopPersisted) (h : GrainHash) (nowMs : ℤ) : AuditRecord :=
  p.transition h .pending .applied "policy:auto" .policy "auto-applied per host policy" nowMs

/-- A memory with a recommendation and the record of its proposal put. -/
def Memory.propose (S : Substrate U) (m : Memory U) (r : Recommendation) (nowMs : ℤ) :
    Memory U :=
  (m.addRec (S.recHash r) r).addAudit (S.auditHash (proposal (S.recHash r) r nowMs))
    (proposal (S.recHash r) r nowMs)

/-- The loop state with a recommendation entered. -/
def Substrate.entered (S : Substrate U) (opts : RunOptions) (p : LoopPersisted)
    (r : Recommendation) (nowMs : ℤ) : LoopPersisted :=
  p.enter (S.recHash r) r opts.triggeringActor (S.auditHash (proposal (S.recHash r) r nowMs))

/-- How storing one survivor ends. -/
inductive StoresOne (E : Engine) (S : Substrate U) (opts : RunOptions) (nowMs : ℤ)
    (p : LoopPersisted) (r : Recommendation) (m : Memory U) :
    Except Error (LoopPersisted × Bool) → Memory U → Prop
  /-- Nothing was put. -/
  | refused (e : Error) : StoresOne E S opts nowMs p r m (.error e) m
  /-- The recommendation was put and its record was not. -/
  | unrecorded (e : Error) :
      StoresOne E S opts nowMs p r m (.error e) (m.addRec (S.recHash r) r)
  /-- Both were put; applying it failed. -/
  | unapplied (e : Error) {m' : Memory U} (h : SameLoop (m.propose S r nowMs) m') :
      StoresOne E S opts nowMs p r m (.error e) m'
  /-- It is pending. -/
  | pending :
      StoresOne E S opts nowMs p r m (.ok (S.entered opts p r nowMs, false)) (m.propose S r nowMs)
  /-- It was applied by policy. -/
  | applied (created : List GrainHash) {m' : Memory U} (hgranted : autoApplyGranted E r = true)
      (h : SameLoop ((m.propose S r nowMs).addAudit
        (S.auditHash (autoAudit (S.entered opts p r nowMs) (S.recHash r) nowMs))
        (autoAudit (S.entered opts p r nowMs) (S.recHash r) nowMs)) m') :
      StoresOne E S opts nowMs p r m (.ok ((((S.entered opts p r nowMs).advance (S.recHash r)
        .applied (S.auditHash (autoAudit (S.entered opts p r nowMs) (S.recHash r) nowMs)))
          |>.setApplied (S.recHash r) (appliedRecord r created nowMs)), true)) m'

theorem canAutoApply_granted {x : Bool} (h : Runs S.Performs (canAutoApply E r) m (.ok x) m') :
    x = true → autoApplyGranted E r = true := by
  intro hx
  unfold canAutoApply at h
  split at h
  · assumption
  · obtain ⟨⟨⟩, -⟩ := Runs.pure_iff.1 h
    cases hx

theorem executeAuto_loop (hS : S.SparesLoop) {x : Except Error (List GrainHash)}
    {prop : Proposal} (h : Runs S.Performs (executeAuto prop) m x m') : SameLoop m m' := by
  cases prop with
  | cal text =>
    rcases Runs.bind_iff.1 h with ⟨e, hcal, rfl⟩ | ⟨rows, m₁, hcal, h⟩
    · exact hS.executes _ _ _ _ (Eng.executeCal_runs hcal)
    · obtain ⟨rfl, rfl⟩ := Runs.pure_iff.1 h
      exact hS.executes _ _ _ _ (Eng.executeCal_runs hcal)
  | edit f b d =>
    obtain ⟨-, rfl⟩ := Runs.pure_iff.1 h
    exact .refl _
  | data d =>
    obtain ⟨-, rfl⟩ := Runs.pure_iff.1 h
    exact .refl _

theorem storeOne_runs (hS : S.SparesLoop) {x : Except Error (LoopPersisted × Bool)}
    (h : Runs S.Performs (storeOne E opts nowMs p r) m x m') :
    StoresOne E S opts nowMs p r m x m' := by
  rcases Runs.bind_iff.1 h with ⟨e, hput, rfl⟩ | ⟨hash, m₁, hput, h⟩
  · rcases Eng.putRec_runs hput with ⟨⟨⟩, -⟩ | ⟨e', -, rfl⟩
    exact .refused e
  rcases Eng.putRec_runs hput with ⟨hhash, rfl⟩ | ⟨e', ⟨⟩, -⟩
  cases hhash
  rcases Runs.bind_iff.1 h with ⟨e, hput, rfl⟩ | ⟨head, m₂, hput, h⟩
  · rcases Eng.putAudit_runs hput with ⟨⟨⟩, -⟩ | ⟨e', -, rfl⟩
    exact .unrecorded e
  rcases Eng.putAudit_runs hput with ⟨hhead, rfl⟩ | ⟨e', ⟨⟩, -⟩
  cases hhead
  rcases Runs.bind_iff.1 h with ⟨e, hgate, rfl⟩ | ⟨granted, m₃, hgate, h⟩
  · obtain rfl := reads_idle (canAutoApply_reads r) hgate
    exact .unapplied e (.refl _)
  obtain rfl := reads_idle (canAutoApply_reads r) hgate
  split at h
  · rename_i hgranted
    rcases Runs.bind_iff.1 h with ⟨e, hauto, rfl⟩ | ⟨q, m₄, hauto, h⟩
    · rcases Runs.bind_iff.1 hauto with ⟨e', hexecute, -⟩ | ⟨created, m₅, hexecute, hauto⟩
      · exact .unapplied e (executeAuto_loop hS hexecute)
      · rcases Runs.bind_iff.1 hauto with ⟨e', hput, -⟩ | ⟨head, m₆, hput, hauto⟩
        · rcases Eng.putAudit_runs hput with ⟨⟨⟩, -⟩ | ⟨e'', -, rfl⟩
          exact .unapplied e (executeAuto_loop hS hexecute)
        · obtain ⟨⟨⟩, -⟩ := Runs.pure_iff.1 hauto
    · obtain ⟨rfl, rfl⟩ := Runs.pure_iff.1 h
      rcases Runs.bind_iff.1 hauto with ⟨e', -, ⟨⟩⟩ | ⟨created, m₅, hexecute, hauto⟩
      rcases Runs.bind_iff.1 hauto with ⟨e', -, ⟨⟩⟩ | ⟨head, m₆, hput, hauto⟩
      rcases Eng.putAudit_runs hput with ⟨hhead, rfl⟩ | ⟨e', ⟨⟩, -⟩
      cases hhead
      obtain ⟨hq, rfl⟩ := Runs.pure_iff.1 hauto
      cases hq
      exact .applied created (canAutoApply_granted hgate hgranted)
        ((executeAuto_loop hS hexecute).addAudit _ _)
  · obtain ⟨rfl, rfl⟩ := Runs.pure_iff.1 h
    exact .pending

/-! ## The survivors -/

/-- How storing the survivors ends. -/
inductive StoresAll (E : Engine) (S : Substrate U) (opts : RunOptions) (nowMs : ℤ) :
    LoopPersisted → List Recommendation → Memory U → Except Error (LoopPersisted × ℕ) →
      Memory U → Prop
  | nil (p : LoopPersisted) (m : Memory U) : StoresAll E S opts nowMs p [] m (.ok (p, 0)) m
  | stop {p : LoopPersisted} {r : Recommendation} {rs : List Recommendation} {m m' : Memory U}
      {e : Error} (h : StoresOne E S opts nowMs p r m (.error e) m') :
      StoresAll E S opts nowMs p (r :: rs) m (.error e) m'
  | cons {p p' : LoopPersisted} {applied : Bool} {r : Recommendation} {rs : List Recommendation}
      {m m₁ m' : Memory U} {y : Except Error (LoopPersisted × ℕ)}
      (h : StoresOne E S opts nowMs p r m (.ok (p', applied)) m₁)
      (hs : StoresAll E S opts nowMs p' rs m₁ y m') :
      StoresAll E S opts nowMs p (r :: rs) m
        (y.map fun z => (z.1, z.2 + if applied then 1 else 0)) m'

theorem storeAll_runs (hS : S.SparesLoop) {rs : List Recommendation}
    {y : Except Error (LoopPersisted × ℕ)}
    (h : Runs S.Performs (storeAll E opts nowMs p rs) m y m') :
    StoresAll E S opts nowMs p rs m y m' := by
  induction rs generalizing p m y with
  | nil =>
    obtain ⟨rfl, rfl⟩ := Runs.pure_iff.1 h
    exact .nil _ _
  | cons r rs ih =>
    rcases Runs.bind_iff.1 h with ⟨e, hone, rfl⟩ | ⟨⟨q, applied⟩, m₁, hone, h⟩
    · exact .stop (storeOne_runs hS hone)
    rcases Runs.bind_iff.1 h with ⟨e, hrest, rfl⟩ | ⟨⟨q', n⟩, m₂, hrest, h⟩
    · exact .cons (y := .error e) (storeOne_runs hS hone) (ih hrest)
    · obtain ⟨rfl, rfl⟩ := Runs.pure_iff.1 h
      exact .cons (y := .ok (q', n)) (storeOne_runs hS hone) (ih hrest)

/-- The survivors of an analysis pass: drawn from the analyzers and the model, with
keys of their own that are neither known nor in cooldown. -/
structure Survives (E : Engine) (nowMs : ℤ) (recs : List (GrainHash × Recommendation))
    (p : LoopPersisted) (rs : List Recommendation) : Prop where
  drawn : ∀ r ∈ rs, Drawn E nowMs r
  apart : (rs.map Recommendation.dedupKey).Nodup
  fresh : ∀ r ∈ rs, r.dedupKey ∉ existingDedupKeys p recs
  cool : ∀ r ∈ rs, inCooldown p nowMs r.dedupKey = false

theorem analysisPass_runs {watermark : Option ℤ} {outcomes : List OutcomeInput}
    {pass : AnalysisPass}
    (h : Runs S.Performs (analysisPass E p opts watermark nowMs outcomes) m (.ok pass) m') :
    m' = m ∧ Survives E nowMs m.recs p pass.survivors := by
  have hdrawn := h.yields analysisPass_yields
  refine ⟨reads_idle analysisPass_yields.calls h, ?_⟩
  obtain ⟨recs, m₁, hrecs, h⟩ := Runs.bind_ok h
  obtain ⟨rfl, hrecs | ⟨e, ⟨⟩⟩⟩ := Eng.recommendations_runs hrecs
  cases hrecs
  obtain ⟨drafted, m₂, -, h⟩ := Runs.bind_ok h
  obtain ⟨found, m₃, -, h⟩ := Runs.bind_ok h
  obtain ⟨hpass, -⟩ := Runs.pure_iff.1 h
  have hsame : List.Forall₂ SameButGuidance (survivors E p (existingDedupKeys p m₁.recs) nowMs []
      (drafted.candidates ++ found)) pass.survivors := by
    rw [congrArg AnalysisPass.survivors (Except.ok.inj hpass)]
    simp only
    cases E.llm with
    | none => exact List.forall₂_same.2 fun r _ => .refl r
    | some llm => exact enrich_same _ _ _
  obtain ⟨hfresh, hapart⟩ := survivors_fresh E p nowMs (existingDedupKeys p m₁.recs) []
    (drafted.candidates ++ found)
  refine ⟨hdrawn, ?_, fun r hr => ?_, fun r hr => ?_⟩
  · rw [SameButGuidance.keys hsame]
    exact hapart
  · obtain ⟨r', hr', hrr⟩ := forall₂_exists_left hsame r hr
    rw [hrr]
    exact (hfresh r' hr').1
  · obtain ⟨r', hr', hrr⟩ := forall₂_exists_left hsame r hr
    rw [hrr]
    exact (hfresh r' hr').2.2

/-! ## The run -/

/-- A run of the analysis pass of a run, from what was measured in `m`. -/
structure Passes (E : Engine) (S : Substrate U) (opts : RunOptions) (nowMs : ℤ) (m : Memory U)
    (p : LoopPersisted) (pass : AnalysisPass) : Prop where
  measured : m.state.MeasuredFrom p
  runs : ∃ outcomes, Runs S.Performs
    (analysisPass E p opts (analysisWatermark opts m.state) nowMs outcomes) m (.ok pass) m

theorem Passes.survives {pass : AnalysisPass} (h : Passes E S opts nowMs m p pass) :
    Survives E nowMs m.recs p pass.survivors := by
  obtain ⟨-, outcomes, hruns⟩ := h
  exact (analysisPass_runs hruns).2

/-- How a run that passed its gate ends. -/
inductive RunsOn (E : Engine) (S : Substrate U) (opts : RunOptions) (nowMs : ℤ) (m : Memory U) :
    Except Error RunResult → Memory U → Prop
  /-- It stopped while it stored the survivors, or at the loop state. -/
  | failed {e : Error} {p : LoopPersisted} {pass : AnalysisPass}
      {y : Except Error (LoopPersisted × ℕ)} {m' : Memory U}
      (hpass : Passes E S opts nowMs m p pass)
      (h : StoresAll E S opts nowMs p pass.survivors m y m') :
      RunsOn E S opts nowMs m (.error e) m'
  /-- It stored the survivors and the loop state. -/
  | done {p p' : LoopPersisted} {n : ℕ} {pass : AnalysisPass} {m' : Memory U} {res : RunResult}
      (hpass : Passes E S opts nowMs m p pass)
      (h : StoresAll E S opts nowMs p pass.survivors m (.ok (p', n)) m')
      (hres : res.stored = pass.survivors.length) :
      RunsOn E S opts nowMs m (.ok res) { m' with state := p'.ran nowMs }

theorem run_runs (hS : S.SparesLoop) {x : Except Error RunResult}
    (h : Runs S.Performs (run E opts nowMs) m x m') :
    m' = m ∨ RunsOn E S opts nowMs m x m' := by
  rcases Eng.loadState_bind h with ⟨e, rfl, rfl⟩ | h
  · exact .inl rfl
  rcases Runs.bind_iff.1 h with ⟨e, hcount, rfl⟩ | ⟨⟨newGrains, newErrors⟩, m₁, hcount, h⟩
  · exact .inl (reads_idle (countNew_reads _) hcount)
  obtain rfl := reads_idle (countNew_reads _) hcount
  simp only at h
  split at h
  · exact .inl (Runs.pure_iff.1 h).2
  rcases Runs.bind_iff.1 h with ⟨e, hmeasure, rfl⟩ | ⟨⟨p, outcomes⟩, m₂, hmeasure, h⟩
  · exact .inl (reads_idle (measureOutcomes_yields _).calls hmeasure)
  obtain rfl := reads_idle (measureOutcomes_yields _).calls hmeasure
  have hp : m₂.state.MeasuredFrom p := hmeasure.yields (measureOutcomes_yields _)
  rcases Runs.bind_iff.1 h with ⟨e, hpass, rfl⟩ | ⟨pass, m₃, hpass, hrest⟩
  · exact .inl (reads_idle analysisPass_yields.calls hpass)
  obtain rfl := (analysisPass_runs hpass).1
  have hpass : Passes E S opts nowMs m₃ p pass := ⟨hp, outcomes, hpass⟩
  right
  rcases Runs.bind_iff.1 hrest with ⟨e, hall, rfl⟩ | ⟨⟨p', n⟩, m₄, hall, hend⟩
  · exact .failed hpass (storeAll_runs hS hall)
  have hall := storeAll_runs hS hall
  rcases Runs.bind_iff.1 hend with ⟨e, hstore, rfl⟩ | ⟨u, m₅, hstore, hend⟩
  · rcases Eng.storeState_runs hstore with ⟨⟨⟩, -⟩ | ⟨e', -, rfl⟩
    exact .failed hpass hall
  rcases Eng.storeState_runs hstore with ⟨-, rfl⟩ | ⟨e', ⟨⟩, -⟩
  obtain ⟨rfl, rfl⟩ := Runs.pure_iff.1 hend
  exact .done hpass hall rfl

end Deja.Loop
