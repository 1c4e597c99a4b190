import Deja.Lib.Prog
import Deja.Lib.Sorted
import Deja.Loop.Recommendation

/-!
# The substrate

The engine sees a store through one trait.  Its operations are programs of calls
of that trait; the memory they run on holds the recommendations and audit records
under their content addresses, the loop state as one blob, and whatever else the
store keeps.  Any call may fail, and a failed call other than `execute_cal` or
`retract` has done nothing.

A stored recommendation or audit record is read back as it was put, so encoding
it to a grain and decoding it is left out.
-/

namespace Deja.Loop

/-! ## The loop state -/

/-- What the memory says about one analyzer. -/
structure AnalyzerConfig where
  enabled : Option Bool
  params : JsonMap
  severityFloor : Option Severity
  namespaces : List String

/-- When the loop last ran. -/
structure LoopState where
  lastRunMs : Option ℤ
  watermarkMs : Option ℤ

/-- What an apply did, for its rollback. -/
structure AppliedRecord where
  appliedAtMs : ℤ
  targetRef : String
  rollbackable : Bool
  createdHashes : List GrainHash
  metric : Option MetricSnapshot

/-- One measurement of an applied recommendation. -/
structure OutcomeResult where
  recHash : GrainHash
  metric : String
  baseline : ℚ
  current : ℚ
  verdict : String
  horizonMs : ℤ
  measuredAtMs : ℤ

/-- The persisted blob; maps are lists of pairs in key order. -/
structure LoopPersisted where
  config : List (String × AnalyzerConfig)
  state : LoopState
  statusIndex : List (GrainHash × RecStatus)
  auditHeads : List (GrainHash × GrainHash)
  creators : List (GrainHash × String)
  coCreators : List (GrainHash × String)
  cooldowns : List (String × ℤ)
  cooldownStrikes : List (String × ℕ)
  applied : List (GrainHash × AppliedRecord)
  measured : List (GrainHash × List ℤ)
  outcomes : List (GrainHash × List OutcomeResult)

/-- `LoopPersisted::default`. -/
def LoopPersisted.empty : LoopPersisted where
  config := []
  state := ⟨none, none⟩
  statusIndex := []
  auditHeads := []
  creators := []
  coCreators := []
  cooldowns := []
  cooldownStrikes := []
  applied := []
  measured := []
  outcomes := []

/-! ## Calls -/

/-- A grain of the store, as the engine reads it. -/
structure GrainRecord where
  hash : GrainHash
  grainType : String
  namespace_ : String
  createdAtMs : ℤ
  validToMs : Option ℤ
  supersededBy : Option GrainHash
  fields : JsonMap

/-- `str_field`. -/
def GrainRecord.strField (g : GrainRecord) (k : String) : Option String :=
  (g.fields.lookup k).bind Json.asStr

/-- `is_error`. -/
def GrainRecord.isError (g : GrainRecord) : Bool :=
  ((g.fields.lookup "is_error").bind Json.asBool).getD false

/-- Filters of a read. -/
structure ReadOpts where
  liveOnly : Bool
  sinceMs : Option ℤ

/-- An entity with more than one head. -/
structure HeadGroup where
  entity : String
  heads : List GrainHash

/-- How often one grain was recalled. -/
structure GrainAccess where
  hash : GrainHash
  recallCount : ℤ
  lastMs : ℤ

/-- How a recurring question fared. -/
structure QueryUsage where
  sample : String
  runCount : ℤ
  emptyCount : ℤ
  sumResults : ℤ
  lastMs : ℤ

/-- A snapshot of the recall telemetry. -/
structure TelemetryView where
  access : List GrainAccess
  queries : List QueryUsage
  sampleCount : ℤ
  overflowCount : ℤ

/-- A call of the substrate. -/
inductive Call where
  /-- `grains_of_type`. -/
  | grainsOfType (grainType : String) (ns : Option String) (opts : ReadOpts)
  /-- `grain`. -/
  | grain (hash : GrainHash)
  /-- `heads`. -/
  | heads (ns : Option String)
  /-- `telemetry`. -/
  | telemetry (ns : Option String)
  /-- `grains_of_type` at the recommendations of the loop, decoded. -/
  | recommendations
  /-- `grain` at a recommendation, decoded. -/
  | recommendation (hash : GrainHash)
  /-- `load_state`. -/
  | loadState
  /-- `put_grain` of a recommendation. -/
  | putRec (r : Recommendation)
  /-- `put_grain` of an audit record. -/
  | putAudit (a : AuditRecord)
  /-- `execute_cal`; of each row of its reply, the hash. -/
  | executeCal (text : String)
  /-- `retract`. -/
  | retract (hash : GrainHash) (reason : String)
  /-- `store_state`. -/
  | storeState (p : LoopPersisted)

namespace Call

/-- What a call answers. -/
def Reply : Call → Type
  | grainsOfType _ _ _ => List GrainRecord
  | grain _ => Option GrainRecord
  | heads _ => List HeadGroup
  | telemetry _ => Option TelemetryView
  | recommendations => List (GrainHash × Recommendation)
  | recommendation _ => Option Recommendation
  | loadState => LoopPersisted
  | putRec _ => GrainHash
  | putAudit _ => GrainHash
  | executeCal _ => List (Option GrainHash)
  | retract _ _ => Unit
  | storeState _ => Unit

/-- The calls of `SubstrateRead`, and `load_state`. -/
def IsRead : Call → Prop
  | grainsOfType _ _ _ => True
  | grain _ => True
  | heads _ => True
  | telemetry _ => True
  | recommendations => True
  | recommendation _ => True
  | loadState => True
  | _ => False

end Call

/-- A program of the engine. -/
abbrev Eng := Prog Call Call.Reply Error

namespace Eng

open Prog

/-- `grains_of_type`. -/
def grainsOfType (t : String) (ns : Option String) (opts : ReadOpts) : Eng (List GrainRecord) :=
  ask (Call.grainsOfType t ns opts)

/-- `grain`. -/
def grain (h : GrainHash) : Eng (Option GrainRecord) := ask (Call.grain h)

/-- The recommendations of the loop. -/
def recommendations : Eng (List (GrainHash × Recommendation)) := ask Call.recommendations

/-- `load_rec`. -/
def loadRec (h : GrainHash) : Eng Recommendation :=
  .call (.recommendation h) fun
    | .ok (some r) => .ret (.ok r)
    | .ok none => .ret (.error (.notFound h))
    | .error e => .ret (.error e)

/-- `load_state`. -/
def loadState : Eng LoopPersisted := ask Call.loadState

/-- `put_grain` of a recommendation. -/
def putRec (r : Recommendation) : Eng GrainHash := ask (Call.putRec r)

/-- `put_grain` of an audit record. -/
def putAudit (a : AuditRecord) : Eng GrainHash := ask (Call.putAudit a)

/-- `execute_cal`. -/
def executeCal (text : String) : Eng (List (Option GrainHash)) := ask (Call.executeCal text)

/-- `retract`. -/
def retract (h : GrainHash) (reason : String) : Eng Unit := ask (Call.retract h reason)

/-- `store_state`. -/
def storeState (p : LoopPersisted) : Eng Unit := ask (Call.storeState p)

end Eng

/-! ## Memories -/

/-- A store: the loop's own grains in the order they were put, the loop state, and
the rest. -/
structure Memory (U : Type) where
  recs : List (GrainHash × Recommendation)
  audits : List (GrainHash × AuditRecord)
  state : LoopPersisted
  user : U

/-- A substrate: how it addresses the loop's grains, what it reads, and what CAL
text and a retraction may do to a memory. -/
structure Substrate (U : Type) where
  recHash : Recommendation → GrainHash
  auditHash : AuditRecord → GrainHash
  grainsOfType : String → Option String → ReadOpts → Memory U → List GrainRecord
  grain : GrainHash → Memory U → Option GrainRecord
  heads : Option String → Memory U → List HeadGroup
  telemetry : Option String → Memory U → Option TelemetryView
  executes : String → Memory U → Except Error (List (Option GrainHash)) → Memory U → Prop
  retracts : GrainHash → Memory U → Except Error Unit → Memory U → Prop

variable {U : Type}

namespace Memory

/-- Put a recommendation: nothing changes where its address is stored. -/
def addRec (m : Memory U) (h : GrainHash) (r : Recommendation) : Memory U :=
  if h ∈ m.recs.map Prod.fst then m else { m with recs := m.recs ++ [(h, r)] }

/-- Put an audit record. -/
def addAudit (m : Memory U) (h : GrainHash) (a : AuditRecord) : Memory U :=
  if h ∈ m.audits.map Prod.fst then m else { m with audits := m.audits ++ [(h, a)] }

@[simp] theorem addRec_state (m : Memory U) (h : GrainHash) (r : Recommendation) :
    (m.addRec h r).state = m.state := by
  unfold addRec
  split_ifs <;> rfl

@[simp] theorem addRec_audits (m : Memory U) (h : GrainHash) (r : Recommendation) :
    (m.addRec h r).audits = m.audits := by
  unfold addRec
  split_ifs <;> rfl

@[simp] theorem addAudit_state (m : Memory U) (h : GrainHash) (a : AuditRecord) :
    (m.addAudit h a).state = m.state := by
  unfold addAudit
  split_ifs <;> rfl

@[simp] theorem addAudit_recs (m : Memory U) (h : GrainHash) (a : AuditRecord) :
    (m.addAudit h a).recs = m.recs := by
  unfold addAudit
  split_ifs <;> rfl

end Memory

/-- A read: the memory stays, and the answer is the one of the store or an error. -/
def Reads {α : Type} (answer : α) (m : Memory U) (r : Except Error α) (m' : Memory U) : Prop :=
  m' = m ∧ (r = .ok answer ∨ ∃ e, r = .error e)

/-- A write: it failed and did nothing, or answered and did all. -/
def Writes {α : Type} (answer : α) (after : Memory U) (m : Memory U) (r : Except Error α)
    (m' : Memory U) : Prop :=
  (r = .ok answer ∧ m' = after) ∨ ∃ e, r = .error e ∧ m' = m

/-- What a call does. -/
def Substrate.Performs (S : Substrate U) :
    (c : Call) → Memory U → Except Error c.Reply → Memory U → Prop
  | .grainsOfType t ns opts, m, r, m' => Reads (S.grainsOfType t ns opts m) m r m'
  | .grain h, m, r, m' => Reads (S.grain h m) m r m'
  | .heads ns, m, r, m' => Reads (S.heads ns m) m r m'
  | .telemetry ns, m, r, m' => Reads (S.telemetry ns m) m r m'
  | .recommendations, m, r, m' => Reads m.recs m r m'
  | .recommendation h, m, r, m' => Reads (m.recs.lookup h) m r m'
  | .loadState, m, r, m' => Reads m.state m r m'
  | .putRec x, m, r, m' => Writes (S.recHash x) (m.addRec (S.recHash x) x) m r m'
  | .putAudit a, m, r, m' => Writes (S.auditHash a) (m.addAudit (S.auditHash a) a) m r m'
  | .executeCal text, m, r, m' => S.executes text m r m'
  | .retract h _, m, r, m' => S.retracts h m r m'
  | .storeState p, m, r, m' => Writes () { m with state := p } m r m'

theorem Substrate.Performs.idle {S : Substrate U} {c : Call} {m m' : Memory U}
    {r : Except Error c.Reply} (hc : c.IsRead) (h : S.Performs c m r m') : m' = m := by
  cases c <;> first | exact h.1 | exact hc.elim

end Deja.Loop
