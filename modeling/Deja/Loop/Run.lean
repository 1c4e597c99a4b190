import Deja.Loop.Lifecycle

/-!
# A run

`Engine::run`: gate, measure, analyze, drop what is known, store.  The last phase
puts a recommendation and the record of its proposal at a time, applies it where
the policy grants that, and stores the loop state when all are done.
-/

namespace Deja.Loop

open Prog

/-! ## The model's part -/

/-- `grain_brief`. -/
def grainBrief (g : GrainRecord) : String :=
  match g.strField "subject", g.strField "relation", g.strField "object" with
  | some s, some r, some o => s ++ " " ++ r ++ " " ++ o
  | _, _, _ =>
    ((["content", "body", "text", "summary"].filterMap g.strField).find? (· ≠ "")).getD ""

/-- `push_evidence`: a grain of the bundle once, and at most 64 of them. -/
def pushEvidence (evidence : List EvidenceItem) (g : GrainRecord) : List EvidenceItem :=
  if evidence.length < 64 ∧ g.hash ∉ evidence.map EvidenceItem.hash then
    evidence ++ [⟨g.hash, g.grainType, cap (grainBrief g) 400⟩]
  else evidence

/-- Seed the bundle with the grains the findings cite. -/
def gatherCited : List GrainHash → List EvidenceItem → Eng (List EvidenceItem)
  | [], evidence => pure evidence
  | h :: hs, evidence =>
    if h ∈ evidence.map EvidenceItem.hash then gatherCited hs evidence
    else do
      match ← (Eng.grain h).catching with
      | .ok (some g) => gatherCited hs (pushEvidence evidence g)
      | _ => gatherCited hs evidence

/-- Top the bundle up with recent grains, until it is full. -/
def gatherRecent (opts : ReadOpts) :
    List (String × Option String) → List EvidenceItem → Eng (List EvidenceItem)
  | [], evidence => pure evidence
  | (t, ns) :: scans, evidence => do
    match ← (Eng.grainsOfType t ns opts).catching with
    | .error _ => gatherRecent opts scans evidence
    | .ok recent =>
      let full := recent ≠ [] ∧ 64 ≤ (recent.dropLast.foldl pushEvidence evidence).length
      if full then pure (recent.foldl pushEvidence evidence)
      else gatherRecent opts scans (recent.foldl pushEvidence evidence)

/-- The order of the review queue: worst first, then oldest, then by key. -/
def queueLe (x y : GrainHash × Recommendation) : Bool :=
  if x.2.severity ≠ y.2.severity then y.2.severity.rank < x.2.severity.rank
  else if x.2.createdAtMs ≠ y.2.createdAtMs then x.2.createdAtMs < y.2.createdAtMs
  else if x.2.dedupKey ≠ y.2.dedupKey then x.2.dedupKey < y.2.dedupKey
  else x.1 ≤ y.1

/-- `llm_history`: what the reviewers approved and rejected of the model's
findings, latest first. -/
def llmHistory (E : Engine) : Eng (List String × List String) := do
  match ← (do
      let p ← Eng.loadState
      let recs ← Eng.recommendations
      pure (p, recs) : Eng _).catching with
  | .error _ => pure ([], [])
  | .ok (p, recs) =>
    let own := ((recs.mergeSort queueLe).filter fun x => match x.2.origin with
      | .llm _ => true
      | _ => false).mergeSort fun x y => y.2.createdAtMs ≤ x.2.createdAtMs
    let at_ (s : List RecStatus) := ((own.filter fun x =>
      (p.statusIndex.lookup x.1).getD .pending ∈ s).map fun x => E.host.render x.2.summary).take 20
    pure (at_ [.approved, .applied, .rolledBack], at_ [.rejected])

/-- `Engine::discover`. -/
def discover (E : Engine) (candidates : List Recommendation) (watermark : Option ℤ)
    (namespaces : List String) (nowMs : ℤ) : Eng (List Recommendation) :=
  match E.llm with
  | none => pure []
  | some llm => do
    let cited ← gatherCited (candidates.flatMap Recommendation.evidence) []
    let scans := if namespaces.isEmpty then [none] else namespaces.map some
    let evidence ← gatherRecent ⟨true, watermark⟩
      (["fact", "observation"].flatMap fun t => scans.map fun ns => (t, ns)) cited
    if evidence.isEmpty then pure []
    else do
      let (approved, rejected) ← llmHistory E
      pure (propose E.host llm (E.groundLlm.getD llm) candidates evidence rejected approved nowMs)

/-! ## The analysis pass -/

/-- What an analysis pass finds. -/
structure AnalysisPass where
  survivors : List Recommendation
  proposed : ℕ
  deduped : ℕ
  analyzersRun : List String
  analyzersSkipped : List (String × SkipCause)

/-- The stricter of two floors. -/
def stricter : Option Severity → Option Severity → Option Severity
  | none, b => b
  | a, none => a
  | some a, some b => some (if a.rank ≤ b.rank then b else a)

/-- Whether a candidate is below the severity floor of the memory or the policy. -/
def belowFloor (E : Engine) (p : LoopPersisted) (r : Recommendation) : Bool :=
  (stricter ((p.config.lookup r.analyzer).bind AnalyzerConfig.severityFloor)
    (E.policy.severityFloor (analyzerFamily r.analyzer))).any fun floor =>
      r.severity.rank < floor.rank

/-- Whether a key is in cooldown. -/
def inCooldown (p : LoopPersisted) (nowMs : ℤ) (key : String) : Bool :=
  (p.cooldowns.lookup key).any (nowMs < ·)

/-- The candidates that are neither below the floor, nor known, nor in cooldown,
the first of every key. -/
def survivors (E : Engine) (p : LoopPersisted) (existing : List String) (nowMs : ℤ) :
    List String → List Recommendation → List Recommendation
  | _, [] => []
  | seen, r :: rs =>
    if belowFloor E p r then survivors E p existing nowMs seen rs
    else if r.dedupKey ∈ seen then survivors E p existing nowMs seen rs
    else if r.dedupKey ∈ existing ∨ inCooldown p nowMs r.dedupKey then
      survivors E p existing nowMs (r.dedupKey :: seen) rs
    else r :: survivors E p existing nowMs (r.dedupKey :: seen) rs

/-- `Engine::analysis_pass`. -/
def analysisPass (E : Engine) (p : LoopPersisted) (opts : RunOptions) (watermark : Option ℤ)
    (nowMs : ℤ) (outcomes : List OutcomeInput) : Eng AnalysisPass := do
  let recs ← Eng.recommendations
  let drafted ← runAnalyzers E p opts watermark nowMs outcomes E.analyzers
  let found ← discover E drafted.candidates watermark opts.namespaces nowMs
  let candidates := drafted.candidates ++ found
  let kept := survivors E p (existingDedupKeys p recs) nowMs [] candidates
  let enriched := match E.llm with
    | none => kept
    | some llm => enrich E.host llm kept
  pure ⟨enriched, candidates.length, candidates.length - kept.length, drafted.analyzersRun,
    drafted.analyzersSkipped⟩

/-! ## The run -/

/-- The result of a run. -/
structure RunResult where
  skipReason : Option SkipReason
  newGrains : ℕ
  newErrorEvents : ℕ
  proposed : ℕ
  deduped : ℕ
  stored : ℕ
  autoApplied : ℕ
  analyzersRun : List String
  analyzersSkipped : List (String × SkipCause)

/-- The record of a proposal. -/
def proposal (h : GrainHash) (r : Recommendation) (nowMs : ℤ) : AuditRecord where
  recHash := h
  from_ := none
  to_ := .pending
  actor := "engine:" ++ r.analyzer
  observerType := .system
  because := "analyzer proposed"
  previousAuditHash := none
  atMs := nowMs

/-- Note a stored recommendation: it is pending, its creator is its analyzer, and
the one who triggered the run made it too unless it is built in. -/
def LoopPersisted.enter (p : LoopPersisted) (h : GrainHash) (r : Recommendation)
    (trigger : Option String) (head : GrainHash) : LoopPersisted :=
  { p with
    statusIndex := Sorted.insert h .pending p.statusIndex
    creators := Sorted.insert h ("engine:" ++ r.analyzer) p.creators
    coCreators := match trigger with
      | some t => if r.origin = .builtin then p.coCreators else Sorted.insert h t p.coCreators
      | none => p.coCreators
    auditHeads := Sorted.insert h head p.auditHeads }

/-- Store one survivor, and apply it where that is granted. -/
def storeOne (E : Engine) (opts : RunOptions) (nowMs : ℤ) (p : LoopPersisted)
    (r : Recommendation) : Eng (LoopPersisted × Bool) := do
  let h ← Eng.putRec r
  let head ← Eng.putAudit (proposal h r nowMs)
  let p := p.enter h r opts.triggeringActor head
  if ← canAutoApply E r then do
    let p ← autoApply p h r nowMs
    pure (p, true)
  else pure (p, false)

/-- Store the survivors in turn; the second component counts the applied ones. -/
def storeAll (E : Engine) (opts : RunOptions) (nowMs : ℤ) :
    LoopPersisted → List Recommendation → Eng (LoopPersisted × ℕ)
  | p, [] => pure (p, 0)
  | p, r :: rs => do
    let (p, applied) ← storeOne E opts nowMs p r
    let (p, n) ← storeAll E opts nowMs p rs
    pure (p, n + if applied then 1 else 0)

/-- The loop state at the end of a run. -/
def LoopPersisted.ran (p : LoopPersisted) (nowMs : ℤ) : LoopPersisted :=
  { p with state := ⟨some nowMs, some nowMs⟩ }

/-- The watermark the analyzers see. -/
def analysisWatermark (opts : RunOptions) (p : LoopPersisted) : Option ℤ :=
  if opts.fullSweep then none else p.state.watermarkMs

/-- `Engine::run`, past its gate. -/
def runFrom (E : Engine) (opts : RunOptions) (nowMs : ℤ) (p : LoopPersisted)
    (newGrains newErrors : ℕ) : Eng RunResult := do
  let (p', outcomes) ← measureOutcomes E p nowMs
  let pass ← analysisPass E p' opts (analysisWatermark opts p) nowMs outcomes
  let (p'', autoApplied) ← storeAll E opts nowMs p' pass.survivors
  Eng.storeState (p''.ran nowMs)
  pure ⟨none, newGrains, newErrors, pass.proposed, pass.deduped, pass.survivors.length,
    autoApplied, pass.analyzersRun, pass.analyzersSkipped⟩

/-- `Engine::run`. -/
def run (E : Engine) (opts : RunOptions) (nowMs : ℤ) : Eng RunResult := do
  let p ← Eng.loadState
  let (newGrains, newErrors) ← countNew p.state.watermarkMs
  match gate opts p newGrains newErrors nowMs with
  | some reason => pure ⟨some reason, newGrains, newErrors, 0, 0, 0, 0, [], []⟩
  | none => runFrom E opts nowMs p newGrains newErrors

end Deja.Loop
