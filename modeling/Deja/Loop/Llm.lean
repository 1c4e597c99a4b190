import Deja.Lib.Sorted
import Deja.Loop.Recommendation

/-!
# The optional model stage

`discover` asks a model for further findings, `verify_drafts` sends its drafts
through two more calls, `enrich` asks for notes.  A backend answers a request with
any text or fails; a reply is parsed to a fixed schema, and text that does not
parse is an empty reply.
-/

namespace Deja.Loop

/-! ## The wire schema -/

/-- One finding, as context for the model. -/
structure FindingBrief where
  analyzer : String
  summary : String
  target : String
  severity : String

/-- One evidence grain. -/
structure EvidenceItem where
  hash : GrainHash
  grainType : String
  text : String

/-- A draft whose evidence is to be checked. -/
structure GroundItem where
  id : ℕ
  claim : String
  evidence : List EvidenceItem

/-- A draft to be stress-tested. -/
structure VerifyItem where
  id : ℕ
  summary : String
  target : String
  evidence : List EvidenceItem

/-- A request; the instructions of an `op` are fixed. -/
inductive LlmRequest where
  | discover (findings : List FindingBrief) (evidence : List EvidenceItem)
      (rejected approved : List String)
  | enrich (findings : List FindingBrief)
  | ground (claims : List GroundItem)
  | verify (findings : List VerifyItem)

/-- One draft of a `discover` reply. -/
structure LlmDraft where
  summary : String
  target : String
  guidance : String
  evidence : List GrainHash
  confidence : ℚ

/-- One note of an `enrich` reply. -/
structure EnrichNote where
  target : String
  guidance : String

/-- One verdict of a `ground` reply. -/
structure GroundResult where
  id : ℕ
  supported : Bool
  reason : String

/-- One verdict of a `verify` reply. -/
structure VerifyResult where
  id : ℕ
  keep : Bool
  confidence : ℚ
  reason : String

/-- `serde_json::from_str` at the four reply types: `none` where the text is not a
value of the type. -/
structure Replies where
  discover : String → Option (List LlmDraft)
  enrich : String → Option (List EnrichNote)
  ground : String → Option (List GroundResult)
  verify : String → Option (List VerifyResult)

/-- A backend: its model and its answer to a request. -/
structure LlmBackend where
  model : String
  complete : LlmRequest → Except Error String

/-- What the model stage takes from outside: the standard library's characters,
the parser of the replies and the templates of summaries. -/
structure Host where
  unicode : Unicode
  replies : Replies
  /-- `Summary::render`. -/
  render : Summary → String

namespace Host

variable (H : Host)

/-- `parse_discover`. -/
def parseDiscover (raw : String) : List LlmDraft :=
  (H.replies.discover (H.unicode.trim raw)).getD []

/-- `parse_enrich`. -/
def parseEnrich (raw : String) : List EnrichNote :=
  (H.replies.enrich (H.unicode.trim raw)).getD []

/-- `parse_ground`. -/
def parseGround (raw : String) : List GroundResult :=
  (H.replies.ground (H.unicode.trim raw)).getD []

/-- `parse_verify`. -/
def parseVerify (raw : String) : List VerifyResult :=
  (H.replies.verify (H.unicode.trim raw)).getD []

end Host

/-- `cap`: at most `max` characters. -/
def cap (s : String) (max : ℕ) : String := String.ofList (s.toList.take max)

/-- `MAX_LLM_DRAFTS`. -/
def maxLlmDrafts : ℕ := 8

/-- `MAX_GUIDANCE_LEN`. -/
def maxGuidanceLen : ℕ := 600

/-- `MAX_SUMMARY_LEN`. -/
def maxSummaryLen : ℕ := 200

/-- `MIN_LLM_CONFIDENCE`. -/
def minLlmConfidence : ℚ := 3 / 4

/-- `f64::clamp(0.0, 1.0)`. -/
def clampUnit (x : ℚ) : ℚ := if x < 0 then 0 else if 1 < x then 1 else x

/-! ## Stamping -/

/-- A draft that passed the structural checks, with its target and the cited
hashes of the bundle. -/
structure ValidDraft where
  draft : LlmDraft
  target : String
  cited : List GrainHash

/-- `stamp_llm`. -/
def stampLlm (H : Host) (model : String) (v : ValidDraft) (confidence : ℚ) (nowMs : ℤ) :
    Recommendation where
  analyzer := "loop.llm/1"
  paramsSnapshot := []
  origin := .llm model
  targetRef := v.target
  actionKind := .flag
  dedupKey := dedupKey H.unicode "llm" v.target .flag
  summary := ⟨"llm.discover", [("text", .str (cap v.draft.summary maxSummaryLen))]⟩
  severity := .low
  proposal := .data [("source", .str "llm")]
  destructive := false
  rollbackable := false
  evidence := v.cited
  evidenceQuery := none
  metric := none
  confidence := clampUnit confidence
  importance := 3 / 10
  createdAtMs := nowMs
  guidance := if H.unicode.trim v.draft.guidance = "" then none
    else some (cap v.draft.guidance maxGuidanceLen)

/-! ## `verify_drafts` -/

section Verify

variable (H : Host)

/-- The evidence of a draft; a hash named twice in the bundle is its last item. -/
def evidenceFor (evidence : List EvidenceItem) (cited : List GrainHash) : List EvidenceItem :=
  cited.filterMap fun h => evidence.reverse.find? (·.hash = h)

/-- The `ground` request. -/
def groundRequest (validated : List ValidDraft) (evidence : List EvidenceItem) : LlmRequest :=
  .ground (validated.zipIdx.map fun x =>
    ⟨x.2, cap x.1.draft.summary maxSummaryLen, evidenceFor evidence x.1.cited⟩)

/-- The indices a `ground` reply marks supported. -/
def groundedIds (raw : String) : List ℕ :=
  ((H.parseGround raw).filter (·.supported)).map GroundResult.id

/-- The `verify` request: the grounded drafts. -/
def verifyRequest (validated : List ValidDraft) (evidence : List EvidenceItem)
    (grounded : List ℕ) : LlmRequest :=
  .verify ((validated.zipIdx.filter fun x => x.2 ∈ grounded).map fun x =>
    ⟨x.2, cap x.1.draft.summary maxSummaryLen, x.1.target, evidenceFor evidence x.1.cited⟩)

/-- The confidence of every kept index of a `verify` reply. -/
def verdicts (raw : String) : List (ℕ × ℚ) :=
  Sorted.ofList (((H.parseVerify raw).filter (·.keep)).map fun r => (r.id, clampUnit r.confidence))

/-- The routing loop: the drafts with a verdict at or above the floor, each with
its index. -/
def route (model : String) (validated : List ValidDraft) (verdicts : List (ℕ × ℚ)) (nowMs : ℤ) :
    List (ℕ × Recommendation) :=
  validated.zipIdx.filterMap fun x =>
    match verdicts.lookup x.2 with
    | some conf =>
      if minLlmConfidence ≤ conf then some (x.2, stampLlm H model x.1 conf nowMs) else none
    | none => none

/-- `verify_drafts`, each recommendation with the index of its draft. -/
def routedDrafts (llm ground : LlmBackend) (validated : List ValidDraft)
    (evidence : List EvidenceItem) (nowMs : ℤ) : List (ℕ × Recommendation) :=
  match ground.complete (groundRequest validated evidence) with
  | .error _ => []
  | .ok raw =>
    if (groundedIds H raw).isEmpty then []
    else
      match llm.complete (verifyRequest validated evidence (groundedIds H raw)) with
      | .error _ => []
      | .ok raw' => route H llm.model validated (verdicts H raw') nowMs

/-- `verify_drafts`. -/
def verifyDrafts (llm ground : LlmBackend) (validated : List ValidDraft)
    (evidence : List EvidenceItem) (nowMs : ℤ) : List Recommendation :=
  (routedDrafts H llm ground validated evidence nowMs).map Prod.snd

end Verify

/-! ## `discover` and `enrich` -/

/-- The structural checks of one draft: it cites the bundle and its target is a
memory or query surface. -/
def validateDraft (bundle : List GrainHash) (d : LlmDraft) : Option ValidDraft :=
  let cited := d.evidence.filter (· ∈ bundle)
  if cited = [] then none
  else
    match TargetRef.parse d.target with
    | .error _ => none
    | .ok target =>
      if target.targetClass = .memory ∨ target.targetClass = .query then
        some ⟨d, target.asString, cited⟩
      else none

/-- The drafts of a `discover` reply that pass the structural checks. -/
def validatedDrafts (H : Host) (evidence : List EvidenceItem) (raw : String) : List ValidDraft :=
  ((H.parseDiscover raw).take maxLlmDrafts).filterMap
    (validateDraft (evidence.map EvidenceItem.hash))

/-- The findings, as the model is told of them. -/
def findingBrief (H : Host) (r : Recommendation) : FindingBrief :=
  ⟨r.analyzer, H.render r.summary, r.targetRef, r.severity.asStr⟩

/-- The calls of `discover`, given the bundle and the history. -/
def propose (H : Host) (llm ground : LlmBackend) (candidates : List Recommendation)
    (evidence : List EvidenceItem) (rejected approved : List String) (nowMs : ℤ) :
    List Recommendation :=
  if evidence.isEmpty then []
  else
    match llm.complete (.discover ((candidates.take 32).map (findingBrief H)) evidence rejected
      approved) with
    | .error _ => []
    | .ok raw => verifyDrafts H llm ground (validatedDrafts H evidence raw) evidence nowMs

/-- Merge one note: into the first recommendation of its target without guidance. -/
def mergeNote (H : Host) (note : EnrichNote) : List Recommendation → List Recommendation
  | [] => []
  | r :: rs =>
    if r.targetRef = note.target ∧ r.guidance = none then
      { r with guidance := some (cap note.guidance maxGuidanceLen) } :: rs
    else r :: mergeNote H note rs

/-- Merge the notes of a reply; a note without text is skipped. -/
def mergeNotes (H : Host) (notes : List EnrichNote) (survivors : List Recommendation) :
    List Recommendation :=
  notes.foldl (fun rs note => if H.unicode.trim note.guidance = "" then rs
    else mergeNote H note rs) survivors

/-- `enrich`. -/
def enrich (H : Host) (llm : LlmBackend) (survivors : List Recommendation) :
    List Recommendation :=
  if survivors.isEmpty then survivors
  else
    match llm.complete (.enrich (survivors.map (findingBrief H))) with
    | .error _ => survivors
    | .ok raw => mergeNotes H (H.parseEnrich raw) survivors

end Deja.Loop
