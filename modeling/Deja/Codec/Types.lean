import Deja.Codec.Value

/-!
# Typed grains

The structs a caller fills in: the fields common to all grains, and those of the
twelve grain types.  JSON-valued fields hold what `serde_json` can represent, a
`JsonValue`; a float is its bit pattern; a `HashMap` is the list of its entries
in iteration order, a `BTreeMap` that in key order.

`Body.fields` and `GrainCommon.fields` list the fields under their long OMS
names, in the order the serializer writes them; `none` is a field that is not
set, which is what an empty list and a default enum value count as.
-/

namespace Deja

/-! ## JSON values -/

mutual

/-- What `serde_json::Value` can hold: 64-bit integers, finite floats, objects
with their keys in order. -/
def Json.Serde : Json → Prop
  | .int i => -(2 ^ 63) ≤ i ∧ i < 2 ^ 64
  | .float bits => isFinite bits
  | .arr xs => Json.SerdeAll xs
  | .obj fields => Sorted.Keys fields ∧ Json.SerdeFields fields
  | _ => True

/-- All elements of an array are values. -/
def Json.SerdeAll : List Json → Prop
  | [] => True
  | x :: xs => x.Serde ∧ Json.SerdeAll xs

/-- All fields of an object are values. -/
def Json.SerdeFields : List (String × Json) → Prop
  | [] => True
  | (_, v) :: fields => v.Serde ∧ Json.SerdeFields fields

end

theorem Json.serdeAll_iff {xs : List Json} : Json.SerdeAll xs ↔ ∀ x ∈ xs, x.Serde := by
  induction xs with
  | nil => simp [Json.SerdeAll]
  | cons x xs ih => rw [Json.SerdeAll, ih, List.forall_mem_cons]

theorem Json.serdeFields_iff {fields : List (String × Json)} :
    Json.SerdeFields fields ↔ ∀ x ∈ fields, x.2.Serde := by
  induction fields with
  | nil => simp [Json.SerdeFields]
  | cons x fields ih =>
    obtain ⟨k, v⟩ := x
    rw [Json.SerdeFields, ih, List.forall_mem_cons]

/-- A `serde_json::Value`. -/
structure JsonValue where
  json : Json
  serde : json.Serde

namespace JsonValue

/-- A string. -/
def text (s : String) : JsonValue := ⟨.str s, trivial⟩

/-- A Boolean. -/
def flag (b : Bool) : JsonValue := ⟨.bool b, trivial⟩

/-- A `u32`. -/
def u32 (n : UInt32) : JsonValue :=
  ⟨.int n.toNat, by have := n.toNat_lt; simp only [Json.Serde]; omega⟩

/-- An array. -/
def array (xs : List JsonValue) : JsonValue :=
  ⟨.arr (xs.map json), by
    simp only [Json.Serde, Json.serdeAll_iff, List.forall_mem_map]
    exact fun x _ => x.serde⟩

/-- An object: the fields that are set. -/
def object (fields : List (String × Option JsonValue)) : JsonValue :=
  ⟨.obj (Sorted.ofList (fields.filterMap fun x => x.2.map fun v => (x.1, v.json))), by
    refine ⟨Sorted.keys_ofList _, Json.serdeFields_iff.2 fun x hx => ?_⟩
    obtain ⟨y, -, hy⟩ := List.mem_filterMap.1 (Sorted.mem_of_mem_ofList hx)
    obtain ⟨v, -, rfl⟩ := Option.map_eq_some_iff.1 hy
    exact v.serde⟩

end JsonValue

/-! ## Maps -/

/-- A `HashMap` with string keys: its entries in iteration order. -/
structure StringMap (ν : Type) where
  entries : List (String × ν)
  keys : (entries.map Prod.fst).Nodup

/-- A `BTreeMap` with string keys. -/
structure StringTree (ν : Type) where
  entries : List (String × ν)
  keys : Sorted.Keys entries

/-! ## Common fields -/

/-- `TemporalType`. -/
inductive TemporalType where
  | state | event | interval

/-- The spelling of a temporal type. -/
def TemporalType.asStr : TemporalType → String
  | state => "state"
  | event => "event"
  | interval => "interval"

/-- `ContentRef`. -/
structure ContentRef where
  uri : String
  modality : Option String
  mimeType : Option String
  sizeBytes : Option UInt64
  checksum : Option String
  metadata : Option JsonValue

/-- `EmbeddingRef`. -/
structure EmbeddingRef where
  vectorId : String
  model : Option String
  dimensions : Option UInt32
  modalitySource : Option String
  distanceMetric : Option String

/-- `RelatedTo`. -/
structure RelatedTo where
  hash : String
  relationType : String
  weight : Option UInt64

/-- `InvalidationPolicy`. -/
structure InvalidationPolicy where
  mode : String
  authorized : Option (List String)
  threshold : Option UInt32
  lockedUntil : Option Int64
  fallbackMode : Option String
  scope : Option String
  protectionReason : Option String

/-- `GrainCommon`. -/
structure GrainCommon where
  namespace_ : Option String
  userId : Option String
  tags : List String
  confidence : UInt64
  sourceType : Option String
  importance : Option UInt64
  temporalType : Option TemporalType
  validFrom : Option Int64
  validTo : Option Int64
  systemValidFrom : Option Int64
  systemValidTo : Option Int64
  contentRefs : List ContentRef
  embeddingRefs : List EmbeddingRef
  provenanceChain : List JsonValue
  relatedTo : List RelatedTo
  authorDid : Option String
  originDid : Option String
  originNamespace : Option String
  derivedFrom : Option String
  consolidationLevel : Option UInt32
  successCount : Option UInt32
  failureCount : Option UInt32
  supersededBy : Option String
  verificationStatus : Option String
  context : Option JsonValue
  invalidationPolicy : Option InvalidationPolicy
  supersessionJustification : Option String
  supersessionAuth : Option (List JsonValue)
  createdAt : Option Int64
  embeddingText : Option String
  extraFields : StringTree JsonValue

/-! ## The twelve grain types -/

/-- `Fact`. -/
structure Fact where
  subject : String
  relation : String
  object : String

/-- `Role`. -/
inductive Role where
  | user | assistant | system | tool

/-- `Role::as_str`. -/
def Role.asStr : Role → String
  | user => "user"
  | assistant => "assistant"
  | system => "system"
  | tool => "tool"

/-- `ContentBlock`. -/
inductive ContentBlock where
  | text (text : String)
  | toolUse (id name : String) (input : JsonValue)
  | toolResult (toolUseId content : String) (isError : Option Bool)

/-- The derived `Serialize` of a content block, tagged by `type`. -/
def ContentBlock.toValue : ContentBlock → JsonValue
  | text t => .object [("type", some (.text "text")), ("text", some (.text t))]
  | toolUse id name input => .object [("type", some (.text "tool_use")), ("id", some (.text id)),
      ("name", some (.text name)), ("input", some input)]
  | toolResult toolUseId content isError => .object [("type", some (.text "tool_result")),
      ("tool_use_id", some (.text toolUseId)), ("content", some (.text content)),
      ("is_error", isError.map .flag)]

/-- `TokenUsage`. -/
structure TokenUsage where
  inputTokens : UInt32
  outputTokens : UInt32
  cacheReadTokens : Option UInt32
  cacheCreationTokens : Option UInt32

/-- The derived `Serialize` of a token usage. -/
def TokenUsage.toValue (u : TokenUsage) : JsonValue :=
  .object [("input_tokens", some (.u32 u.inputTokens)),
    ("output_tokens", some (.u32 u.outputTokens)),
    ("cache_read_tokens", u.cacheReadTokens.map .u32),
    ("cache_creation_tokens", u.cacheCreationTokens.map .u32)]

/-- `Event`. -/
structure Event_ where
  content : String
  subject : Option String
  object : Option String
  role : Option Role
  sessionId : Option String
  parentMessageId : Option String
  contentBlocks : Option (List ContentBlock)
  modelId : Option String
  stopReason : Option String
  tokenUsage : Option TokenUsage
  runId : Option String

/-- `State`. -/
structure State where
  contextData : JsonValue
  plan : Option (List String)
  history : Option (List JsonValue)

/-- `WorkflowEdge`. -/
structure WorkflowEdge where
  src : String
  dst : String
  cond : Option String
  maxCycles : Option UInt32

/-- `Workflow`. -/
structure Workflow where
  nodes : List String
  edges : List WorkflowEdge
  bindings : StringMap String
  retries : StringMap UInt32
  trigger : Option String

/-- `ToolKind`. -/
inductive ToolKind where
  | definition | execution
  deriving DecidableEq

/-- `ToolKind::as_str`. -/
def ToolKind.asStr : ToolKind → String
  | definition => "definition"
  | execution => "execution"

/-- `ExecutorKind`. -/
inductive ExecutorKind where
  | host | client
  deriving DecidableEq

/-- `ExecutorKind::as_str`. -/
def ExecutorKind.asStr : ExecutorKind → String
  | host => "host"
  | client => "client"

/-- `ExecutionStatus`. -/
inductive ExecutionStatus where
  | pending | completed | failed

/-- `ExecutionStatus::as_str`. -/
def ExecutionStatus.asStr : ExecutionStatus → String
  | pending => "pending"
  | completed => "completed"
  | failed => "failed"

/-- `FailureCause`. -/
inductive FailureCause where
  | timeout | executorError | schemaValidationFailed | userAborted | unknown

/-- `FailureCause::as_str`. -/
def FailureCause.asStr : FailureCause → String
  | timeout => "timeout"
  | executorError => "executor_error"
  | schemaValidationFailed => "schema_validation_failed"
  | userAborted => "user_aborted"
  | unknown => "unknown"

/-- `ActorExecutionEnvironment`. -/
inductive ActorExecutionEnvironment where
  | serverSideHost | clientSideAttested | clientSideUnattested

/-- `ActorExecutionEnvironment::as_str`. -/
def ActorExecutionEnvironment.asStr : ActorExecutionEnvironment → String
  | serverSideHost => "server_side_host"
  | clientSideAttested => "client_side_attested"
  | clientSideUnattested => "client_side_unattested"

/-- `ToolAnnotations`. -/
structure ToolAnnotations where
  readOnly : Bool
  destructive : Bool
  idempotent : Bool

/-- The derived `Serialize` of tool annotations. -/
def ToolAnnotations.toValue (a : ToolAnnotations) : JsonValue :=
  .object [("read_only", some (.flag a.readOnly)), ("destructive", some (.flag a.destructive)),
    ("idempotent", some (.flag a.idempotent))]

/-- `Tool`. -/
structure Tool where
  kind : ToolKind
  toolName : String
  input : Option JsonValue
  content : Option String
  isError : Option Bool
  error : Option String
  durationMs : Option UInt64
  parentTaskId : Option String
  toolCallId : Option String
  callBatchId : Option String
  toolDescription : Option String
  inputSchema : Option JsonValue
  outputSchema : Option JsonValue
  strict : Option Bool
  executorUri : Option String
  lockedParams : Option JsonValue
  examples : Option (List JsonValue)
  annotations : Option ToolAnnotations
  specHash : Option String
  executorKind : Option ExecutorKind
  asyncMode : Option Bool
  status : Option ExecutionStatus
  correlationId : Option String
  expiresAtSec : Option Int64
  transientDefinitionHash : Option Hash
  failureCause : Option FailureCause
  failureDetail : Option String
  actorExecutionEnvironment : Option ActorExecutionEnvironment

/-- `ObservationMode`. -/
inductive ObservationMode where
  | realtime | batch | streaming

/-- `ObservationMode::as_str`. -/
def ObservationMode.asStr : ObservationMode → String
  | realtime => "realtime"
  | batch => "batch"
  | streaming => "streaming"

/-- `ObservationScope`. -/
inductive ObservationScope where
  | private_ | shared | public_

/-- `ObservationScope::as_str`. -/
def ObservationScope.asStr : ObservationScope → String
  | private_ => "private"
  | shared => "shared"
  | public_ => "public"

/-- `Observation`. -/
structure Observation where
  observerId : String
  observerType : String
  subject : Option String
  object : Option String
  observerModel : Option String
  frameId : Option String
  syncGroup : Option String
  observationMode : Option ObservationMode
  observationScope : Option ObservationScope
  compressionRatio : Option UInt64

/-- `Priority`. -/
inductive Priority where
  | critical | high | medium | low

/-- `Priority::as_str`. -/
def Priority.asStr : Priority → String
  | critical => "critical"
  | high => "high"
  | medium => "medium"
  | low => "low"

/-- `GoalState`. -/
inductive GoalState where
  | active | satisfied | failed | suspended

/-- `GoalState::as_str`. -/
def GoalState.asStr : GoalState → String
  | active => "active"
  | satisfied => "satisfied"
  | failed => "failed"
  | suspended => "suspended"

/-- `Goal`. -/
structure Goal where
  description : String
  goalState : GoalState
  priority : Option Priority
  criteria : Option String
  criteriaStructured : Option JsonValue
  parentGoals : Option (List String)
  stateReason : Option String
  satisfactionEvidence : Option JsonValue
  progress : Option UInt64
  delegateTo : Option String
  delegateFrom : Option String
  expiryPolicy : Option JsonValue
  recurrence : Option JsonValue
  evidenceRequired : Option Bool
  rollbackOnFailure : Option Bool
  allowedTransitions : Option (List String)
  subject : Option String
  object : Option String

/-- `Reasoning`. -/
structure Reasoning where
  premises : List String
  conclusion : Option String
  inferenceMethod : Option String
  alternativesConsidered : List String
  thinkingContent : Option String
  thinkingRedacted : Option Bool

/-- `Consensus`. -/
structure Consensus where
  participatingObservers : List String
  threshold : Option UInt64
  agreementCount : Option Int64
  dissentCount : Option Int64
  dissentGrains : List String
  agreedContent : Option String

/-- `Consent`. -/
structure Consent where
  subjectDid : String
  granteeDid : Option String
  scope : Option String
  isWithdrawal : Option Bool
  basis : Option String
  jurisdiction : Option String
  priorConsent : Option String
  witnessDids : List String

/-- `Analyzer`. -/
structure Analyzer where
  id : String
  params : Option JsonValue

/-- `Summary`. -/
structure Summary where
  templateId : String
  args : JsonValue

/-- `Proposal`. -/
inductive Proposal where
  | cal (text : String)
  | edit (value : JsonValue)
  | data (value : JsonValue)

/-- `Severity`. -/
inductive Severity where
  | info | low | medium | high

/-- `Severity::as_str`. -/
def Severity.asStr : Severity → String
  | info => "info"
  | low => "low"
  | medium => "medium"
  | high => "high"

/-- `Recommendation`. -/
structure Recommendation where
  targetRef : String
  analyzer : Analyzer
  summary : Summary
  dedupKey : String
  proposal : Proposal
  severity : Option Severity
  metricSnapshot : Option JsonValue
  evidenceQuery : Option String

/-- `SkillStrategy`. -/
structure SkillStrategy where
  condition : String
  workflow : String
  description : Option String

/-- The derived `Serialize` of a strategy. -/
def SkillStrategy.toValue (s : SkillStrategy) : JsonValue :=
  .object [("condition", some (.text s.condition)), ("workflow", some (.text s.workflow)),
    ("description", s.description.map .text)]

/-- `Skill`. -/
structure Skill where
  name : String
  description : String
  instructions : Option String
  whenToUse : Option String
  version : Option String
  allowedTools : List String
  resources : List String
  dependencies : List String
  inputModalities : List String
  outputModalities : List String
  domain : Option String
  holderDid : Option String
  practiceCount : Option UInt32
  lastPracticedAt : Option Int64
  strategies : List SkillStrategy
  transferable : Option Bool

/-- `Skill::is_held`. -/
def Skill.isHeld (s : Skill) : Bool := s.holderDid.isSome || s.practiceCount.isSome

/-- The type-specific half of a grain. -/
inductive Body where
  | fact (g : Fact)
  | event (g : Event_)
  | state (g : State)
  | workflow (g : Workflow)
  | tool (g : Tool)
  | observation (g : Observation)
  | goal (g : Goal)
  | reasoning (g : Reasoning)
  | consensus (g : Consensus)
  | consent (g : Consent)
  | skill (g : Skill)
  | recommendation (g : Recommendation)

/-- The grain type of a body. -/
def Body.grainType : Body → GrainType
  | fact _ => .fact
  | event _ => .event
  | state _ => .state
  | workflow _ => .workflow
  | tool _ => .tool
  | observation _ => .observation
  | goal _ => .goal
  | reasoning _ => .reasoning
  | consensus _ => .consensus
  | consent _ => .consent
  | skill _ => .skill
  | recommendation _ => .recommendation

/-- `GrainType::as_str`. -/
def GrainType.asStr : GrainType → String
  | fact => "fact"
  | event => "event"
  | state => "state"
  | workflow => "workflow"
  | tool => "tool"
  | observation => "observation"
  | goal => "goal"
  | reasoning => "reasoning"
  | consensus => "consensus"
  | consent => "consent"
  | skill => "skill"
  | recommendation => "recommendation"

/-- A typed grain. -/
structure TypedGrain where
  body : Body
  common : GrainCommon

end Deja
