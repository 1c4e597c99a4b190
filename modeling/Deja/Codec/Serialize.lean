import Deja.Codec.Types

/-!
# Writing a blob

`serialize_grain`: the type's own fields, the common fields and the extra fields
go into one sorted map under their short names, strings normalized; the map is
encoded behind a 9-byte header.

A field is a `Field` with its long name.  `Field.value` is what the serializer
writes for it; the tables `Body.fields` and `GrainCommon.fields` name the fields
in the order of the source's arms.  A name the field map does not have is
written as it is.
-/

namespace Deja

/-! ## Strings, JSON, maps -/

section Encode

variable (nfc : String → String)

/-- `nfc_string`. -/
def nfcString (s : String) : Value := .string (nfc s)

/-- `btree_to_msgpack_map`. -/
def btreeToMsgpackMap (map : List (String × Value)) : Value :=
  .map (map.map fun x => (.string x.1, x.2))

mutual

/-- `json_to_msgpack`. -/
def jsonToMsgpack : Json → Value
  | .null => .nil
  | .bool b => .boolean b
  | .int i => .integer i
  | .float bits => .f64 bits
  | .str s => nfcString nfc s
  | .arr xs => .array (jsonsToMsgpack xs)
  | .obj fields => btreeToMsgpackMap (Sorted.ofList (fieldsToMsgpack fields))

/-- The elements of an array. -/
def jsonsToMsgpack : List Json → List Value
  | [] => []
  | x :: xs => jsonToMsgpack x :: jsonsToMsgpack xs

/-- The fields of an object, their keys normalized. -/
def fieldsToMsgpack : List (String × Json) → List (String × Value)
  | [] => []
  | (k, v) :: fields => (nfc k, jsonToMsgpack v) :: fieldsToMsgpack fields

end

/-- `json_to_msgpack_with_key_compaction`. -/
def jsonToMsgpackWithKeyCompaction : Json → Value
  | .obj fields => btreeToMsgpackMap (Sorted.ofList
      ((fieldsToMsgpack nfc fields).map fun x => (compactField x.1, x.2)))
  | other => jsonToMsgpack nfc other

end Encode

/-! ## Fields -/

/-- A field without inner structure of its own. -/
inductive Atom where
  | text (s : String)
  | name (s : String)
  | texts (l : List String)
  | flag (b : Bool)
  | i64 (i : Int64)
  | u64 (n : UInt64)
  | u32 (n : UInt32)
  | f64 (bits : UInt64)
  | binary (b : Bytes)
  | json (j : JsonValue)
  | jsons (l : List JsonValue)

/-- A field of a grain. -/
inductive Field where
  | atom (a : Atom)
  | context (j : JsonValue)
  /-- A `HashMap` written with its keys as they are. -/
  | table (entries : List (String × Atom))
  /-- One map, or an array of maps, of named fields that `short` shortens. -/
  | record (entries : List (String × Option Atom))
  | records (short : String → String) (l : List (List (String × Option Atom)))

/-- The entries that are set. -/
def written {α : Type} (entries : List (String × Option α)) : List (String × α) :=
  entries.filterMap fun x => x.2.map fun a => (x.1, a)

/-- What the serializer writes for an atom. -/
def Atom.value (nfc : String → String) : Atom → Value
  | text s => nfcString nfc s
  | name s => .string s
  | texts l => .array (l.map (nfcString nfc))
  | flag b => .boolean b
  | i64 i => .integer i.toInt
  | u64 n => .integer n.toNat
  | u32 n => .integer n.toNat
  | f64 bits => .f64 bits
  | binary b => .binary b
  | json j => jsonToMsgpack nfc j.json
  | jsons l => .array (l.map fun j => jsonToMsgpack nfc j.json)

/-- A map of named fields. -/
def recordValue (nfc : String → String) (short : String → String)
    (entries : List (String × Option Atom)) : Value :=
  btreeToMsgpackMap (Sorted.ofList ((written entries).map fun x => (short x.1, x.2.value nfc)))

/-- What the serializer writes for a field. -/
def Field.value (nfc : String → String) : Field → Value
  | atom a => a.value nfc
  | context j => jsonToMsgpackWithKeyCompaction nfc j.json
  | table entries =>
    btreeToMsgpackMap (Sorted.ofList (entries.map fun x => (x.1, x.2.value nfc)))
  | record entries => recordValue nfc id entries
  | records short l => .array (l.map (recordValue nfc short))

namespace Field

/-- A string field. -/
def text (s : String) : Field := .atom (.text s)

/-- A list of strings. -/
def texts (l : List String) : Field := .atom (.texts l)

/-- A Boolean field. -/
def flag (b : Bool) : Field := .atom (.flag b)

/-- A float field. -/
def f64 (bits : UInt64) : Field := .atom (.f64 bits)

/-- A signed field. -/
def i64 (i : Int64) : Field := .atom (.i64 i)

/-- An unsigned field. -/
def u32 (n : UInt32) : Field := .atom (.u32 n)

/-- A JSON field. -/
def json (j : JsonValue) : Field := .atom (.json j)

/-- A list of JSON values. -/
def jsons (l : List JsonValue) : Field := .atom (.jsons l)

end Field

/-- A list that counts as set when it has an element. -/
def ifAny {α : Type} (l : List α) (f : List α → Field) : Option Field :=
  if l.isEmpty then none else some (f l)

/-! ## The type-specific fields -/

/-- An edge of a workflow. -/
def WorkflowEdge.fields (e : WorkflowEdge) : List (String × Option Atom) :=
  [("src", some (.text e.src)), ("dst", some (.text e.dst)), ("cond", e.cond.map .text),
    ("max_cycles", e.maxCycles.map .u32)]

/-- The fields `add_type_specific_fields` writes, in its order.  A skill repeats
the common confidence as its proficiency once it is held. -/
def Body.fields (confidence : UInt64) : Body → List (String × Option Field)
  | fact g =>
    [("subject", some (.text g.subject)), ("relation", some (.text g.relation)),
      ("object", some (.text g.object))]
  | event g =>
    [("content", some (.text g.content)), ("subject", g.subject.map .text),
      ("object", g.object.map .text), ("role", g.role.map fun r => .text r.asStr),
      ("session_id", g.sessionId.map .text),
      ("parent_message_id", g.parentMessageId.map .text),
      ("content_blocks", g.contentBlocks.map fun l => .json (.array (l.map (·.toValue)))),
      ("model_id", g.modelId.map .text), ("stop_reason", g.stopReason.map .text),
      ("token_usage", g.tokenUsage.map fun u => .json u.toValue), ("run_id", g.runId.map .text)]
  | state g =>
    [("context", some (.json g.contextData)),
      ("plan", g.plan.bind fun l => ifAny l .texts),
      ("history", g.history.bind fun l => ifAny l .jsons)]
  | workflow g =>
    [("nodes", some (.texts g.nodes)),
      ("edges", ifAny g.edges fun l =>
        .records compactWorkflowEdgeField (l.map WorkflowEdge.fields)),
      ("bindings", ifAny g.bindings.entries fun l => .table (l.map fun x => (x.1, .text x.2))),
      ("retries", ifAny g.retries.entries fun l => .table (l.map fun x => (x.1, .u32 x.2))),
      ("trigger", g.trigger.map .text)]
  | tool g =>
    [("tool_name", some (.text g.toolName)),
      ("kind", if g.kind = .execution then none else some (.text g.kind.asStr)),
      ("input", g.input.map .json), ("tool_content", g.content.map .text),
      ("is_error", g.isError.map .flag), ("error", g.error.map .text),
      ("duration_ms", g.durationMs.map fun n => .atom (.u64 n)),
      ("parent_task_id", g.parentTaskId.map .text), ("tool_call_id", g.toolCallId.map .text),
      ("call_batch_id", g.callBatchId.map .text),
      ("tool_description", g.toolDescription.map .text),
      ("input_schema", g.inputSchema.map .json), ("output_schema", g.outputSchema.map .json),
      ("strict", g.strict.map .flag), ("async_mode", g.asyncMode.map .flag),
      ("executor_uri", g.executorUri.map .text), ("locked_params", g.lockedParams.map .json),
      ("examples", g.examples.map .jsons),
      ("annotations", g.annotations.map fun a => .json a.toValue),
      ("spec_hash", g.specHash.map .text),
      ("executor_kind", g.executorKind.bind fun k =>
        if k = .host then none else some (.text k.asStr)),
      ("status", g.status.map fun s => .text s.asStr),
      ("correlation_id", g.correlationId.map .text),
      ("expires_at_sec", g.expiresAtSec.map .i64),
      ("transient_definition_hash",
        g.transientDefinitionHash.map fun h => .atom (.binary h.bytes)),
      ("failure_cause", g.failureCause.map fun c => .text c.asStr),
      ("failure_detail", g.failureDetail.map .text),
      ("actor_execution_environment",
        g.actorExecutionEnvironment.map fun e => .text e.asStr)]
  | observation g =>
    [("observer_id", some (.text g.observerId)), ("observer_type", some (.text g.observerType)),
      ("subject", g.subject.map .text), ("object", g.object.map .text),
      ("observer_model", g.observerModel.map .text),
      ("observation_mode", g.observationMode.map fun m => .text m.asStr),
      ("observation_scope", g.observationScope.map fun s => .text s.asStr)]
  | goal g =>
    [("description", some (.text g.description)),
      ("goal_state", some (.text g.goalState.asStr)), ("subject", g.subject.map .text),
      ("object", g.object.map .text), ("priority", g.priority.map fun p => .text p.asStr),
      ("criteria", g.criteria.map .text), ("parent_goals", g.parentGoals.map .texts),
      ("state_reason", g.stateReason.map .text),
      ("satisfaction_evidence", g.satisfactionEvidence.map .json),
      ("progress", g.progress.map .f64), ("delegate_to", g.delegateTo.map .text),
      ("delegate_from", g.delegateFrom.map .text),
      ("criteria_structured", g.criteriaStructured.map .json),
      ("expiry_policy", g.expiryPolicy.map .json), ("recurrence", g.recurrence.map .json),
      ("evidence_required", g.evidenceRequired.map .flag),
      ("rollback_on_failure", g.rollbackOnFailure.map .flag),
      ("allowed_transitions", g.allowedTransitions.map .texts)]
  | reasoning g =>
    [("premises", ifAny g.premises .texts), ("conclusion", g.conclusion.map .text),
      ("inference_method", g.inferenceMethod.map .text),
      ("alternatives_considered", ifAny g.alternativesConsidered .texts),
      ("thinking_content", g.thinkingContent.map .text),
      ("thinking_redacted", g.thinkingRedacted.map .flag)]
  | consensus g =>
    [("participating_observers", ifAny g.participatingObservers .texts),
      ("threshold", g.threshold.map .f64), ("agreement_count", g.agreementCount.map .i64),
      ("dissent_count", g.dissentCount.map .i64),
      ("dissent_grains", ifAny g.dissentGrains .texts),
      ("agreed_content", g.agreedContent.map .text)]
  | consent g =>
    [("subject_did", some (.text g.subjectDid)), ("grantee_did", g.granteeDid.map .text),
      ("scope", g.scope.map .text), ("is_withdrawal", g.isWithdrawal.map .flag),
      ("basis", g.basis.map .text), ("jurisdiction", g.jurisdiction.map .text),
      ("prior_consent", g.priorConsent.map .text),
      ("witness_dids", ifAny g.witnessDids .texts)]
  | recommendation g =>
    [("target_ref", some (.text g.targetRef)),
      ("analyzer", some (.record [("id", some (.text g.analyzer.id)),
        ("params", g.analyzer.params.map .json)])),
      ("summary", some (.record [("template_id", some (.text g.summary.templateId)),
        ("args", some (.json g.summary.args))])),
      ("dedup_key", some (.text g.dedupKey)),
      ("proposal_cal", match g.proposal with
        | .cal text => some (.text text)
        | _ => none),
      ("proposal_edit", match g.proposal with
        | .edit value => some (.json value)
        | _ => none),
      ("proposal_data", match g.proposal with
        | .data value => some (.json value)
        | _ => none),
      ("severity", g.severity.map fun s => .text s.asStr),
      ("metric_snapshot", g.metricSnapshot.map .json),
      ("evidence_query", g.evidenceQuery.map .text)]
  | skill g =>
    [("name", some (.text g.name)), ("description", some (.text g.description)),
      ("instructions", g.instructions.map .text), ("when_to_use", g.whenToUse.map .text),
      ("version", g.version.map .text), ("allowed_tools", ifAny g.allowedTools .texts),
      ("resources", ifAny g.resources .texts), ("dependencies", ifAny g.dependencies .texts),
      ("input_modalities", ifAny g.inputModalities .texts),
      ("output_modalities", ifAny g.outputModalities .texts), ("domain", g.domain.map .text),
      ("holder_did", g.holderDid.map .text),
      ("proficiency", if g.isHeld then some (.f64 confidence) else none),
      ("practice_count", g.practiceCount.map .u32),
      ("last_practiced_at", g.lastPracticedAt.map .i64),
      ("strategies", ifAny g.strategies fun l => .json (.array (l.map (·.toValue)))),
      ("transferable", g.transferable.map .flag)]

/-! ## The common fields -/

/-- The fields of a content reference. -/
def ContentRef.fields (r : ContentRef) : List (String × Option Atom) :=
  [("checksum", r.checksum.map .text), ("metadata", r.metadata.map .json),
    ("mime_type", r.mimeType.map .text), ("modality", r.modality.map .text),
    ("size_bytes", r.sizeBytes.map .u64), ("uri", some (.text r.uri))]

/-- The fields of an embedding reference. -/
def EmbeddingRef.fields (r : EmbeddingRef) : List (String × Option Atom) :=
  [("distance_metric", r.distanceMetric.map .text), ("dimensions", r.dimensions.map .u32),
    ("model", r.model.map .text), ("modality_source", r.modalitySource.map .text),
    ("vector_id", some (.text r.vectorId))]

/-- The fields of a link. -/
def RelatedTo.fields (r : RelatedTo) : List (String × Option Atom) :=
  [("hash", some (.text r.hash)), ("relation_type", some (.text r.relationType)),
    ("weight", r.weight.map .f64)]

/-- The fields of an invalidation policy. -/
def InvalidationPolicy.fields (p : InvalidationPolicy) : List (String × Option Atom) :=
  [("authorized", p.authorized.map .texts), ("fallback_mode", p.fallbackMode.map .text),
    ("locked_until", p.lockedUntil.map .i64), ("mode", some (.text p.mode)),
    ("protection_reason", p.protectionReason.map .text), ("scope", p.scope.map .text),
    ("threshold", p.threshold.map .u32)]

/-- Where the common context goes: `context`, unless the type has written one. -/
def contextName (typeFields : List (String × Option Field)) : String :=
  if "context" ∈ (written typeFields).map Prod.fst then "common_context" else "context"

/-- The fields `add_common_fields` writes before the extra fields. -/
def GrainCommon.fields (c : GrainCommon) (typeFields : List (String × Option Field))
    (createdAt : Int64) : List (String × Option Field) :=
  [("author_did", c.authorDid.map .text), ("confidence", some (.f64 c.confidence)),
    ("created_at", some (.i64 createdAt)), ("namespace", c.namespace_.map .text),
    ("user_id", c.userId.map .text), ("structural_tags", ifAny c.tags .texts),
    ("source_type", c.sourceType.map .text), ("importance", c.importance.map .f64),
    ("temporal_type", c.temporalType.map fun t => .text t.asStr),
    ("valid_from", c.validFrom.map .i64), ("valid_to", c.validTo.map .i64),
    ("system_valid_from", c.systemValidFrom.map .i64),
    ("system_valid_to", c.systemValidTo.map .i64), ("derived_from", c.derivedFrom.map .text),
    ("consolidation_level", c.consolidationLevel.map .u32),
    ("origin_did", c.originDid.map .text),
    ("origin_namespace", c.originNamespace.map .text),
    ("superseded_by", c.supersededBy.map .text),
    ("verification_status", c.verificationStatus.map .text),
    ("embedding_text", c.embeddingText.map .text),
    (contextName typeFields, c.context.map .context),
    ("invalidation_policy", c.invalidationPolicy.map fun p => .record p.fields),
    ("content_refs", ifAny c.contentRefs fun l =>
      .records compactContentRefField (l.map ContentRef.fields)),
    ("embedding_refs", ifAny c.embeddingRefs fun l =>
      .records compactEmbeddingRefField (l.map EmbeddingRef.fields)),
    ("provenance_chain", ifAny c.provenanceChain .jsons),
    ("related_to", ifAny c.relatedTo fun l =>
      .records compactRelatedToField (l.map RelatedTo.fields))]

/-! ## The map of a grain -/

namespace TypedGrain

variable (g : TypedGrain) (nfc : String → String) (now : Int64)

/-- The creation time a grain is written with. -/
def createdAt : Int64 := g.common.createdAt.getD now

/-- All fields the serializer has an arm for. -/
def fields : List (String × Option Field) :=
  ("type", some (.atom (.name g.body.grainType.asStr))) ::
    (g.body.fields g.common.confidence ++
      g.common.fields (g.body.fields g.common.confidence) (g.createdAt now))

/-- The map before the extra fields. -/
def baseMap : List (String × Value) :=
  Sorted.ofList ((written (g.fields now)).map fun x => (compactField x.1, x.2.value nfc))

/-- Add an extra field, unless a known field has its key. -/
def addExtra (map : List (String × Value)) (x : String × JsonValue) : List (String × Value) :=
  let key := nfc x.1
  if (map.lookup key).isSome ∨ (map.lookup (compactField key)).isSome then map
  else Sorted.insert key (jsonToMsgpack nfc x.2.json) map

/-- The map that is encoded. -/
def wireMap : List (String × Value) :=
  g.common.extraFields.entries.foldl (addExtra nfc) (g.baseMap nfc now)

end TypedGrain

/-! ## The header -/

/-- The bytes of a string. -/
def utf8 (s : String) : Bytes := s.toUTF8.data.toList

/-- `detect_sensitivity`. -/
def detectSensitivity (tags : List String) : UInt8 :=
  let starts (p : String) : Bool := tags.any fun t => p.toList.isPrefixOf t.toList
  if starts "phi:" then 3
  else if starts "pii:" ∨ starts "sec:" ∨ starts "legal:" then 2
  else if starts "reg:" then 1
  else 0

/-- The source types that mark a grain as generated. -/
def aiSourceTypes : List String := ["llm_generated", "consolidated", "inferred", "a2a_recalled"]

/-- The big-endian bytes of a header timestamp. -/
def secondsBytes (n : ℕ) : UInt8 × UInt8 × UInt8 × UInt8 :=
  (UInt8.ofNat (n / 2 ^ 24), UInt8.ofNat (n / 2 ^ 16), UInt8.ofNat (n / 2 ^ 8), UInt8.ofNat n)

/-- `created_at_ms / 1000`, clamped to a `u32`. -/
def headerSeconds (createdAtMs : ℤ) : ℕ := min (createdAtMs.tdiv 1000).toNat (2 ^ 32 - 1)

namespace Codec

variable (K : Codec)

/-- The namespace bytes of the header: the start of the namespace's hash. -/
def nsHash : Option String → UInt8 × UInt8
  | some ns =>
    if ns.isEmpty then (0, 0)
    else
      let h := (K.sha256 (utf8 ns)).bytes
      (h.getD 0 0, h.getD 1 0)
  | none => (0, 0)

/-- The flags byte. -/
def headerFlags (c : GrainCommon) : UInt8 :=
  let contentRefs : UInt8 := if c.contentRefs.isEmpty then 0 else 0x08
  let embeddingRefs : UInt8 := if c.embeddingRefs.isEmpty then 0 else 0x10
  let aiGenerated : UInt8 := if c.sourceType.any (· ∈ aiSourceTypes) then 0x20 else 0
  contentRefs ||| embeddingRefs ||| aiGenerated ||| (detectSensitivity c.tags <<< 6)

/-- `MgHeader::new`, with the flags of the grain. -/
def header (g : TypedGrain) (now : Int64) : MgHeader where
  version := 0x01
  flags := headerFlags g.common
  grainType := g.body.grainType.typeByte
  nsHash := K.nsHash g.common.namespace_
  createdAtSec := secondsBytes (headerSeconds (g.createdAt now).toInt)

end Codec

/-! ## `serialize_grain` -/

mutual

/-- `reject_non_finite`: whether every float is finite. -/
def Value.allFinite : Value → Bool
  | .f32 bits => isFinite (widen bits)
  | .f64 bits => isFinite bits
  | .array xs => Value.allFiniteList xs
  | .map pairs => Value.allFinitePairs pairs
  | _ => true

/-- Every element. -/
def Value.allFiniteList : List Value → Bool
  | [] => true
  | x :: xs => x.allFinite && Value.allFiniteList xs

/-- Every value of a map. -/
def Value.allFinitePairs : List (Value × Value) → Bool
  | [] => true
  | (_, v) :: pairs => v.allFinite && Value.allFinitePairs pairs

end

namespace Codec

variable (K : Codec)

/-- `serialize_grain`: the blob and its content address. -/
def serializeGrain (g : TypedGrain) (now : Int64) : Except DejaDbError (Bytes × Hash) := do
  let value := btreeToMsgpackMap (g.wireMap K.nfc now)
  if ¬value.allFinite then
    throw (.format "non-finite float (NaN/Inf) cannot be serialized")
  let payload ← K.writeValue value
  let blob := (K.header g now).toBytes ++ payload
  if Core.maxGrainBytes < blob.length then throw (.format "grain too large")
  guardMsgpackShape payload
  pure (blob, K.sha256 blob)

end Codec

end Deja
