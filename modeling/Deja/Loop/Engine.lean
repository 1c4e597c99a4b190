import Deja.Loop.Llm
import Deja.Loop.Substrate

/-!
# The engine

`Engine::run` and the lifecycle operations, each a program of substrate calls.  An
analyzer is a program of reads; a run stamps what the analyzers draft, drops what
is already known, and stores the rest with the record of its proposal, the loop
state last.
-/

namespace Deja.Loop

open Prog

deriving instance BEq for Deja.Json

/-! ## Analyzers and options -/

/-- An optional capability of a substrate. -/
inductive Capability where
  | forks | telemetry | embeddings
  deriving DecidableEq

/-- Whether an analyzer may be applied by policy. -/
inductive AutoApplyClass where
  | never | structuralCuration
  deriving DecidableEq

/-- The trust class of an analyzer. -/
inductive TrustClass where
  | builtin | command | llm
  deriving DecidableEq

/-- The manifest of an analyzer. -/
structure AnalyzerManifest where
  id : String
  requires : List Capability
  autoApply : AutoApplyClass
  trustClass : TrustClass
  defaultOn : Bool
  /-- `resolve_params`: the parameters under overrides, as their snapshot. -/
  resolveParams : JsonMap → Except Error JsonMap

/-- `analyzer_family`: the id up to its first slash. -/
def analyzerFamily (id : String) : String := String.ofList (id.toList.takeWhile (· ≠ '/'))

/-- `AnalyzerManifest::family`. -/
def AnalyzerManifest.family (m : AnalyzerManifest) : String := analyzerFamily m.id

/-- A regression, as the analyzers are told of it. -/
structure OutcomeInput where
  recHash : GrainHash
  targetRef : String
  metric : String
  baseline : ℚ
  current : ℚ
  unit : String

/-- What an analyzer is given besides its reads. -/
structure AnalyzeCtx where
  params : JsonMap
  namespaces : List String
  watermarkMs : Option ℤ
  nowMs : ℤ
  outcomeInputs : List OutcomeInput

/-- An analyzer: it only reads. -/
structure Analyzer where
  manifest : AnalyzerManifest
  analyze : AnalyzeCtx → Eng (List RecDraft)
  reads : ∀ ctx, Calls Call.IsRead (analyze ctx)

/-- One auto-apply grant of the host. -/
structure AutoApplyGrant where
  analyzer : String
  targets : List TargetClass
  maxSeverity : Severity

/-- The host policy. -/
structure Policy where
  autoApplyEnabled : Bool
  autoApply : List AutoApplyGrant
  deny : List String
  severityFloors : List (String × Severity)

namespace Policy

/-- `Policy::denies`. -/
def denies (p : Policy) (family : String) : Bool := p.deny.any fun d => analyzerFamily d = family

/-- `Policy::severity_floor`. -/
def severityFloor (p : Policy) (family : String) : Option Severity :=
  (p.severityFloors.find? fun x => analyzerFamily x.1 = family).map Prod.snd

/-- `Policy::grants_auto_apply`. -/
def grantsAutoApply (p : Policy) (family : String) (target : TargetClass)
    (severity : Severity) : Bool :=
  p.autoApplyEnabled && (target = .memory ∨ target = .query) &&
    p.autoApply.any fun g => analyzerFamily g.analyzer = family && target ∈ g.targets &&
      severity.rank ≤ g.maxSeverity.rank

end Policy

/-- The engine, with what it takes from outside. -/
structure Engine where
  host : Host
  /-- `serde_json::from_str` at any value. -/
  parseJson : String → Option Json
  capabilities : List Capability
  analyzers : List Analyzer
  policy : Policy
  llm : Option LlmBackend
  groundLlm : Option LlmBackend
  /-- `measure_metric`: one metric measured again, by reads. -/
  measureMetric : MetricSnapshot → ℤ → Eng (Option ℚ)
  measureMetric_reads : ∀ m since, Calls Call.IsRead (measureMetric m since)

/-- Options of a run. -/
structure RunOptions where
  minNew : Option ℕ
  minNewErrors : Option ℕ
  ifStaleMs : Option ℤ
  namespaces : List String
  fullSweep : Bool
  triggeringActor : Option String

/-! ## Gates and measurements -/

/-- Why a run did nothing. -/
inductive SkipReason where
  | minNewNotMet | notStale
  deriving DecidableEq

/-- `gate`. -/
def gate (opts : RunOptions) (p : LoopPersisted) (newGrains newErrors : ℕ) (nowMs : ℤ) :
    Option SkipReason :=
  if opts.minNew = none ∧ opts.minNewErrors = none ∧ opts.ifStaleMs = none then none
  else if opts.minNew.any (· ≤ newGrains) ∨ opts.minNewErrors.any (· ≤ newErrors) ∨
      opts.ifStaleMs.any fun d => p.state.lastRunMs.all fun last => d ≤ nowMs - last then none
  else if opts.ifStaleMs ≠ none ∧ opts.minNew = none ∧ opts.minNewErrors = none then
    some .notStale
  else some .minNewNotMet

/-- `count_new`, at the types that are left. -/
def countNewOf (opts : ReadOpts) : List String → Eng (ℕ × ℕ)
  | [] => pure (0, 0)
  | t :: ts => do
    let gs ← Eng.grainsOfType t none opts
    let (grains, errors) ← countNewOf opts ts
    pure (gs.length + grains, (if t = "tool" then gs.countP GrainRecord.isError else 0) + errors)

/-- `count_new`. -/
def countNew (watermark : Option ℤ) : Eng (ℕ × ℕ) :=
  countNewOf ⟨false, watermark.map (· + 1)⟩ ["fact", "event", "tool", "observation"]

/-- The checkpoints that are due. -/
def dueCheckpoints (p : LoopPersisted) (nowMs : ℤ) :
    List (GrainHash × AppliedRecord × MetricSnapshot × ℤ) :=
  p.applied.flatMap fun x =>
    if p.statusIndex.lookup x.1 ≠ some .applied then []
    else
      match x.2.metric with
      | none => []
      | some metric => (metric.horizons.filter fun horizon =>
          horizon ≤ nowMs - x.2.appliedAtMs ∧ horizon ∉ (p.measured.lookup x.1).getD []).map
            fun horizon => (x.1, x.2, metric, horizon)

/-- Note one measurement. -/
def LoopPersisted.addOutcome (p : LoopPersisted) (o : OutcomeResult) : LoopPersisted :=
  { p with
    outcomes := Sorted.insert o.recHash ((p.outcomes.lookup o.recHash).getD [] ++ [o]) p.outcomes
    measured := Sorted.insert o.recHash ((p.measured.lookup o.recHash).getD [] ++ [o.horizonMs])
      p.measured }

/-- `measure_outcomes`, at the checkpoints that are left. -/
def measureDue (E : Engine) (nowMs : ℤ) :
    List (GrainHash × AppliedRecord × MetricSnapshot × ℤ) → LoopPersisted →
      Eng (LoopPersisted × List OutcomeInput)
  | [], p => pure (p, [])
  | (h, a, metric, horizon) :: due, p => do
    match ← E.measureMetric metric a.appliedAtMs with
    | none => measureDue E nowMs due p
    | some current =>
      -- a regression is beyond `f64::EPSILON`
      let regressed := metric.baseline + 1 / 2 ^ 52 < current
      let (p, out) ← measureDue E nowMs due (p.addOutcome ⟨h, metric.metric, metric.baseline,
        current, if regressed then "regressed" else "held", horizon, nowMs⟩)
      pure (p, if regressed then
        ⟨h, a.targetRef, metric.metric, metric.baseline, current, metric.unit⟩ :: out else out)

/-- `measure_outcomes`. -/
def measureOutcomes (E : Engine) (p : LoopPersisted) (nowMs : ℤ) :
    Eng (LoopPersisted × List OutcomeInput) :=
  measureDue E nowMs (dueCheckpoints p nowMs) p

/-! ## Drafting -/

/-- `existing_dedup_keys`. -/
def existingDedupKeys (p : LoopPersisted) (recs : List (GrainHash × Recommendation)) :
    List String :=
  (recs.filter fun x => ((p.statusIndex.lookup x.1).getD .pending).blocks).map fun x => x.2.dedupKey

/-- `str::lines`: a carriage return belongs to the line end it stands before, so that of
a last line without one is kept. -/
def lines (s : String) : List String :=
  let parts := Text.split '\n' s.toList
  let ended := parts.dropLast.map fun l => if l.getLast? = some '\r' then l.dropLast else l
  let last := parts.getLast?.toList.filter fun l => !l.isEmpty
  (ended ++ last).map String.ofList

/-- `any_line_keyword` at `FORGET` and `PURGE`: `contains_destructive`. -/
def containsDestructive (u : Unicode) (cal : String) : Bool :=
  (lines cal).any fun l =>
    let word := (l.toList.dropWhile u.isWhitespace).takeWhile fun c => c.isAlphanum || c = '_'
    String.ofList (word.map Char.toUpper) ∈ ["FORGET", "PURGE"]

/-- `stamp`. -/
def stamp (H : Host) (m : AnalyzerManifest) (params : JsonMap) (d : RecDraft) (nowMs : ℤ) :
    Except Error Recommendation :=
  match TargetRef.parse d.targetRef with
  | .error e => .error e
  | .ok target =>
    let destructive := match d.proposal with
      | .cal cal => containsDestructive H.unicode cal
      | _ => false
    .ok {
      analyzer := m.id
      paramsSnapshot := params
      origin := if m.trustClass = .command then .command m.id else .builtin
      targetRef := target.asString
      actionKind := d.actionKind
      dedupKey := dedupKey H.unicode m.family d.targetRef d.actionKind
      summary := d.summary
      severity := d.severity
      proposal := d.proposal
      destructive := destructive
      rollbackable := match d.proposal with
        | .cal _ => !destructive
        | _ => false
      evidence := d.evidence.take maxEvidence
      evidenceQuery := d.evidenceQuery
      metric := d.metric
      confidence := d.confidence
      importance := d.importance
      createdAtMs := nowMs
      guidance := none }

/-- Why an analyzer did not contribute. -/
inductive SkipCause where
  | disabled
  | denied
  | missing (c : Capability)
  | failed (e : Error)
  deriving DecidableEq

/-- What the analyzers contributed. -/
structure Drafted where
  candidates : List Recommendation
  analyzersRun : List String
  analyzersSkipped : List (String × SkipCause)

/-- Stamp the drafts of an analyzer. -/
def stampAll (H : Host) (m : AnalyzerManifest) (params : JsonMap) (nowMs : ℤ) :
    List RecDraft → Drafted
  | [] => ⟨[], [], []⟩
  | d :: ds =>
    let rest := stampAll H m params nowMs ds
    match stamp H m params d nowMs with
    | .ok r => { rest with candidates := r :: rest.candidates }
    | .error e => { rest with analyzersSkipped := (m.id, .failed e) :: rest.analyzersSkipped }

/-- One analyzer of the analysis pass. -/
def runAnalyzer (E : Engine) (p : LoopPersisted) (opts : RunOptions) (watermark : Option ℤ)
    (nowMs : ℤ) (outcomes : List OutcomeInput) (a : Analyzer) : Eng Drafted :=
  let m := a.manifest
  let cfg := p.config.lookup m.id
  let skip (c : SkipCause) : Eng Drafted := pure ⟨[], [], [(m.id, c)]⟩
  if ((cfg.bind AnalyzerConfig.enabled).getD m.defaultOn) = false then skip .disabled
  else if E.policy.denies m.family then skip .denied
  else
    match m.requires.find? (· ∉ E.capabilities) with
    | some c => skip (.missing c)
    | none =>
      match m.resolveParams ((cfg.map AnalyzerConfig.params).getD []) with
      | .error e => skip (.failed e)
      | .ok params => do
        let own := (cfg.map AnalyzerConfig.namespaces).getD []
        let ctx : AnalyzeCtx :=
          ⟨params, if own.isEmpty then opts.namespaces else own, watermark, nowMs, outcomes⟩
        match ← (a.analyze ctx).catching with
        | .error e => skip (.failed e)
        | .ok drafts =>
          let out := stampAll E.host m params nowMs drafts
          pure { out with analyzersRun := [m.id] }

/-- The analyzers in turn. -/
def runAnalyzers (E : Engine) (p : LoopPersisted) (opts : RunOptions) (watermark : Option ℤ)
    (nowMs : ℤ) (outcomes : List OutcomeInput) : List Analyzer → Eng Drafted
  | [] => pure ⟨[], [], []⟩
  | a :: as => do
    let x ← runAnalyzer E p opts watermark nowMs outcomes a
    let xs ← runAnalyzers E p opts watermark nowMs outcomes as
    pure ⟨x.candidates ++ xs.candidates, x.analyzersRun ++ xs.analyzersRun,
      x.analyzersSkipped ++ xs.analyzersSkipped⟩

end Deja.Loop
