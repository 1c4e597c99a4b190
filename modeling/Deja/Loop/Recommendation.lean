import Mathlib.Algebra.Order.Field.Rat
import Mathlib.Data.String.Basic
import Deja.Core.Grain
import Deja.Lib.Text

/-!
# Recommendations

What an analyzer drafts, what the engine stores of it, and the life of a stored
recommendation: its statuses and the audit record each change of status leaves.

Floating point numbers are rationals: JSON has neither infinities nor NaN.  The
content address and the status, which the source keeps in skipped fields of a
recommendation, are kept beside it here.
-/

namespace Deja.Loop

/-- A content address in hexadecimal. -/
abbrev GrainHash := String

/-- The errors of the engine. -/
inductive Error where
  | substrate (m : String)
  | calUnsupported (m : String)
  | invalidTargetRef (m : String)
  | invalidProposal (m : String)
  | invalidRecommendation (m : String)
  | lifecycleViolation (m : String)
  | selfApproval (m : String)
  | scopeDenied (m : String)
  | destructiveGated (m : String)
  | paramInvalid (m : String)
  | capabilityMissing (m : String)
  | llmBackend (m : String)
  | notFound (m : String)
  | internal (m : String)
  deriving DecidableEq

/-! ## Vocabulary -/

/-- Severities, in their order. -/
inductive Severity where
  | info | low | medium | high
  deriving DecidableEq

/-- The rank of a severity. -/
def Severity.rank : Severity → ℕ
  | info => 0
  | low => 1
  | medium => 2
  | high => 3

/-- `Severity::as_str`. -/
def Severity.asStr : Severity → String
  | info => "info"
  | low => "low"
  | medium => "medium"
  | high => "high"

/-- Who a recommendation comes from. -/
inductive Origin where
  | builtin
  | command (id : String)
  | llm (model : String)
  deriving DecidableEq

/-- `Origin::auto_apply_eligible`. -/
def Origin.autoApplyEligible : Origin → Bool
  | builtin => true
  | _ => false

/-- The kind of change a proposal makes. -/
inductive ActionKind where
  | consolidate | flagContradiction | clusterFailure | expire | mergeHeads | revert | flag
  deriving DecidableEq

/-- `ActionKind::as_str`. -/
def ActionKind.asStr : ActionKind → String
  | consolidate => "consolidate"
  | flagContradiction => "flag_contradiction"
  | clusterFailure => "cluster_failure"
  | expire => "expire"
  | mergeHeads => "merge_heads"
  | revert => "revert"
  | flag => "flag"

/-- The policy class of a target. -/
inductive TargetClass where
  | memory | query | prompt | host
  deriving DecidableEq

/-- What a recommendation is about: `<scheme>:<opaque>`. -/
structure TargetRef where
  scheme : String
  body : String
  deriving DecidableEq

namespace TargetRef

/-- `KNOWN_SCHEMES`. -/
def knownSchemes : List String := ["grain", "entity", "query", "template", "doc", "host"]

/-- `TargetRef::parse`. -/
def parse (s : String) : Except Error TargetRef :=
  match Text.splitOnce [':'] s.toList with
  | none => .error (.invalidTargetRef ("missing scheme in " ++ s))
  | some (scheme, rest) =>
    if scheme = [] ∨ rest = [] then
      .error (.invalidTargetRef ("empty scheme or opaque in " ++ s))
    else if String.ofList scheme ∈ knownSchemes then
      .ok ⟨String.ofList scheme, String.ofList rest⟩
    else .error (.invalidTargetRef ("unknown scheme in " ++ s))

/-- `TargetRef::target_class`. -/
def targetClass (t : TargetRef) : TargetClass :=
  if t.scheme = "grain" ∨ t.scheme = "entity" then .memory
  else if t.scheme = "query" ∨ t.scheme = "template" then .query
  else if t.scheme = "doc" then .prompt
  else .host

/-- `TargetRef::as_string`. -/
def asString (t : TargetRef) : String := t.scheme ++ ":" ++ t.body

end TargetRef

/-- Case folding and white space, as the standard library has them. -/
structure Unicode where
  /-- `char::is_whitespace`. -/
  isWhitespace : Char → Bool
  /-- `str::to_lowercase`. -/
  toLowercase : List Char → List Char

namespace Unicode

variable (u : Unicode)

/-- `str::trim`. -/
def trim (s : String) : String := String.ofList (Text.trim u.isWhitespace s.toList)

/-- `normalize_ident`. -/
def normalizeIdent (s : String) : String :=
  String.ofList (u.toLowercase (Text.trim u.isWhitespace s.toList))

end Unicode

/-! ## Recommendations -/

/-- A JSON object. -/
abbrev JsonMap := List (String × Json)

/-- A template and its arguments. -/
structure Summary where
  templateId : String
  args : JsonMap

/-- A metric to measure again after an apply. -/
structure MetricSnapshot where
  metric : String
  baseline : ℚ
  unit : String
  n : ℕ
  window : String
  subject : Option String
  namespace_ : Option String
  relation : Option String
  query : String
  reviewAfterMs : ℤ
  horizonsMs : List ℤ

/-- `MetricSnapshot::horizons`. -/
def MetricSnapshot.horizons (m : MetricSnapshot) : List ℤ :=
  if m.horizonsMs.isEmpty then [m.reviewAfterMs] else m.horizonsMs.mergeSort (· ≤ ·)

/-- The proposed change. -/
inductive Proposal where
  | cal (cal : String)
  | edit (format baseDigest diff : String)
  | data (data : JsonMap)

/-- What an analyzer emits. -/
structure RecDraft where
  targetRef : String
  actionKind : ActionKind
  summary : Summary
  severity : Severity
  proposal : Proposal
  evidence : List GrainHash
  evidenceQuery : Option String
  metric : Option MetricSnapshot
  confidence : ℚ
  importance : ℚ

/-- `MAX_EVIDENCE`. -/
def maxEvidence : ℕ := 64

/-- `dedup_key`: family, target and action, case-folded. -/
def dedupKey (u : Unicode) (family targetRef : String) (action : ActionKind) : String :=
  u.normalizeIdent family ++ "\u001f" ++ u.normalizeIdent targetRef ++ "\u001f" ++ action.asStr

/-- The stored body of a recommendation. -/
structure Recommendation where
  analyzer : String
  paramsSnapshot : JsonMap
  origin : Origin
  targetRef : String
  actionKind : ActionKind
  dedupKey : String
  summary : Summary
  severity : Severity
  proposal : Proposal
  destructive : Bool
  rollbackable : Bool
  evidence : List GrainHash
  evidenceQuery : Option String
  metric : Option MetricSnapshot
  confidence : ℚ
  importance : ℚ
  createdAtMs : ℤ
  guidance : Option String

/-! ## Lifecycle -/

/-- The status of a recommendation. -/
inductive RecStatus where
  | pending | approved | rejected | applied | rolledBack | expired
  deriving DecidableEq

namespace RecStatus

/-- `RecStatus::as_str`. -/
def asStr : RecStatus → String
  | pending => "pending"
  | approved => "approved"
  | rejected => "rejected"
  | applied => "applied"
  | rolledBack => "rolled_back"
  | expired => "expired"

/-- `RecStatus::can_transition_to`. -/
def canTransitionTo : RecStatus → RecStatus → Bool → Bool
  | pending, approved, _ => true
  | pending, rejected, _ => true
  | pending, applied, byPolicy => byPolicy
  | approved, applied, _ => true
  | applied, rolledBack, _ => true
  | pending, expired, _ => true
  | approved, expired, _ => true
  | _, _, _ => false

/-- The statuses that keep a finding from being proposed again. -/
def blocks : RecStatus → Bool
  | pending => true
  | approved => true
  | applied => true
  | _ => false

end RecStatus

/-- Who performed a transition. -/
inductive ObserverType where
  | human | agent | policy | system
  deriving DecidableEq

/-- The record of one transition. -/
structure AuditRecord where
  recHash : GrainHash
  from_ : Option RecStatus
  to_ : RecStatus
  actor : String
  observerType : ObserverType
  because : String
  previousAuditHash : Option GrainHash
  atMs : ℤ
  deriving DecidableEq

/-- `MAX_BECAUSE`. -/
def maxBecause : ℕ := 500

end Deja.Loop
