import Deja.Loop.Engine

/-!
# Review, apply and rollback

Each operation loads the loop state, does its work, puts one audit record chained
to the last one, and stores the state.  Apply by policy is the part of a run that
works the same way.
-/

namespace Deja.Loop

open Prog

/-! ## Authority -/

/-- Host-granted authority. -/
inductive Scope where
  | read | write | review | apply | admin
  deriving DecidableEq

/-- A set of granted scopes. -/
abbrev ScopeSet := List Scope

/-- `ScopeSet::has`: `admin` implies all. -/
def ScopeSet.has (s : ScopeSet) (x : Scope) : Bool := .admin ∈ s ∨ x ∈ s

/-- A review decision. -/
inductive Decision where
  | approve | reject
  deriving DecidableEq

/-- The status a decision asks for. -/
def Decision.status : Decision → RecStatus
  | approve => .approved
  | reject => .rejected

/-- `validate_because`. -/
def validateBecause (u : Unicode) (because : String) : Except Error String :=
  if u.trim because = "" then .error (.invalidProposal "a BECAUSE reason is required")
  else if maxBecause < (u.trim because).length then
    .error (.invalidProposal "BECAUSE exceeds 500 chars")
  else .ok (u.trim because)

/-- Who performs an operation, with what authority and why. -/
structure Actor where
  actor : String
  observer : ObserverType
  scopes : ScopeSet
  because : String
  nowMs : ℤ

/-! ## The loop state -/

namespace LoopPersisted

/-- The last status of a recommendation is `to_`, its last record is at `head`. -/
def advance (p : LoopPersisted) (h : GrainHash) (to_ : RecStatus) (head : GrainHash) :
    LoopPersisted :=
  { p with
    auditHeads := Sorted.insert h head p.auditHeads
    statusIndex := Sorted.insert h to_ p.statusIndex }

/-- The record of a transition, chained to the last one. -/
def transition (p : LoopPersisted) (h : GrainHash) (from_ to_ : RecStatus) (actor : String)
    (observer : ObserverType) (because : String) (nowMs : ℤ) : AuditRecord where
  recHash := h
  from_ := some from_
  to_ := to_
  actor := actor
  observerType := observer
  because := because
  previousAuditHash := p.auditHeads.lookup h
  atMs := nowMs

/-- `BASE_MS`. -/
def cooldownBaseMs : ℤ := 7 * 86400000

/-- `CAP_MS`. -/
def cooldownCapMs : ℤ := 90 * 86400000

/-- The cooldown a rejection starts, doubled with every strike. -/
def cool (p : LoopPersisted) (key : String) (nowMs : ℤ) : LoopPersisted :=
  let strikes := (p.cooldownStrikes.lookup key).getD 0
  let interval := min (cooldownBaseMs * 2 ^ min strikes 31) cooldownCapMs
  { p with
    cooldownStrikes := Sorted.insert key (min (strikes + 1) (2 ^ 32 - 1)) p.cooldownStrikes
    cooldowns := Sorted.insert key (nowMs + interval) p.cooldowns }

/-- Note what an apply did. -/
def setApplied (p : LoopPersisted) (h : GrainHash) (a : AppliedRecord) : LoopPersisted :=
  { p with applied := Sorted.insert h a p.applied }

end LoopPersisted

/-! ## Review -/

/-- Whether the actor made the recommendation or triggered the run that did. -/
def selfApproval (p : LoopPersisted) (h : GrainHash) (actor : String) : Option Error :=
  if p.creators.lookup h = some actor then
    some (.selfApproval (actor ++ " created this recommendation"))
  else if p.coCreators.lookup h = some actor then
    some (.selfApproval (actor ++ " triggered the run that authored this recommendation"))
  else none

/-- The cooldown of a rejection; a recommendation that cannot be read starts none. -/
def coolRejected (p : LoopPersisted) (h : GrainHash) (to_ : RecStatus) (nowMs : ℤ) :
    Eng LoopPersisted :=
  if to_ = .rejected then do
    match ← (Eng.loadRec h).catching with
    | .ok r => pure (p.cool r.dedupKey nowMs)
    | .error _ => pure p
  else pure p

/-- `Engine::review`, past its first gates. -/
def reviewFrom (h : GrainHash) (d : Decision) (by_ : Actor) (because : String) : Eng Unit := do
  let p ← Eng.loadState
  match p.statusIndex.lookup h with
  | none => fail (.notFound h)
  | some status =>
    if status.canTransitionTo d.status false = false then
      fail (.lifecycleViolation (status.asStr ++ " -> " ++ d.status.asStr))
    else
      match (if d = .approve then selfApproval p h by_.actor else none) with
      | some e => fail e
      | none => do
        let head ← Eng.putAudit
          (p.transition h status d.status by_.actor by_.observer because by_.nowMs)
        let p ← coolRejected (p.advance h d.status head) h d.status by_.nowMs
        Eng.storeState p

/-- `Engine::review`. -/
def review (E : Engine) (h : GrainHash) (d : Decision) (by_ : Actor) : Eng Unit :=
  if by_.scopes.has .review = false then fail (.scopeDenied "review")
  else
    match validateBecause E.host.unicode by_.because with
    | .error e => fail e
    | .ok because => reviewFrom h d by_ because

/-! ## Rollback -/

/-- Retract the grains of an apply in turn. -/
def retractAll (reason : String) : List GrainHash → Eng Unit
  | [] => pure ()
  | h :: hs => do
    Eng.retract h reason
    retractAll reason hs

/-- `Engine::rollback`, past its first gates. -/
def rollbackFrom (h : GrainHash) (by_ : Actor) (because : String) : Eng Unit := do
  let p ← Eng.loadState
  match p.statusIndex.lookup h with
  | none => fail (.notFound h)
  | some status =>
    if status.canTransitionTo .rolledBack false = false then
      fail (.lifecycleViolation (status.asStr ++ " -> rolled_back"))
    else
      match p.applied.lookup h with
      | none => fail (.notFound ("no applied record for " ++ h))
      | some applied =>
        if applied.rollbackable = false then
          fail (.lifecycleViolation "recommendation is non-rollbackable (FORGET has no inverse)")
        else do
          retractAll ("rollback of " ++ h) applied.createdHashes
          let head ← Eng.putAudit
            (p.transition h status .rolledBack by_.actor by_.observer because by_.nowMs)
          Eng.storeState (p.advance h .rolledBack head)

/-- `Engine::rollback`. -/
def rollback (E : Engine) (h : GrainHash) (by_ : Actor) : Eng Unit :=
  if by_.scopes.has .apply = false then fail (.scopeDenied "apply")
  else
    match validateBecause E.host.unicode by_.because with
    | .error e => fail e
    | .ok because => rollbackFrom h by_ because

/-! ## Apply -/

/-- The applied recommendation an `outcome_review` proposal takes back. -/
def revertOf (data : JsonMap) : Option GrainHash := (data.lookup "revert_of").bind Json.asStr

/-- `ADVISORY_EDIT`. -/
def advisoryEdit : String :=
  "This recommendation is advisory: the engine cannot execute this edit. " ++
  "Make the change in the host. Dismiss it with REJECT … BECAUSE while it is still pending, or " ++
  "approve it to acknowledge it and let it expire."

/-- `ADVISORY_DATA`. -/
def advisoryData : String :=
  "This finding is advisory: the engine cannot execute it. Act on its guidance. Dismiss it with " ++
  "REJECT … BECAUSE while it is still pending, or approve it to acknowledge it and let it expire."

/-- Execute a proposal: the hashes it created, and the state to go on from. -/
def execute (E : Engine) (p : LoopPersisted) (by_ : Actor) (because : String) :
    Proposal → Eng (List GrainHash × LoopPersisted)
  | .cal cal => do
    let rows ← Eng.executeCal cal
    pure (rows.filterMap id, p)
  | .edit _ _ _ => fail (.invalidProposal advisoryEdit)
  | .data data =>
    match revertOf data with
    | none => fail (.invalidProposal advisoryData)
    | some target => do
      rollback E target { by_ with because := because }
      -- the rollback stored a newer state
      let p ← Eng.loadState
      pure ([], p)

/-- What an apply leaves for its rollback. -/
def appliedRecord (r : Recommendation) (created : List GrainHash) (nowMs : ℤ) : AppliedRecord where
  appliedAtMs := nowMs
  targetRef := r.targetRef
  rollbackable := r.rollbackable
  createdHashes := created
  metric := r.metric

/-- The gate of destructive proposals. -/
def destructiveGated (r : Recommendation) (scopes : ScopeSet) (allowDestructive : Bool) : Bool :=
  r.destructive && (!scopes.has .admin || !allowDestructive)

/-- `Engine::apply`, past its first gates. -/
def applyFrom (E : Engine) (h : GrainHash) (by_ : Actor) (because : String)
    (allowDestructive : Bool) : Eng AppliedRecord := do
  let p ← Eng.loadState
  match p.statusIndex.lookup h with
  | none => fail (.notFound h)
  | some status =>
    if status.canTransitionTo .applied false = false then
      fail (.lifecycleViolation (status.asStr ++ " -> applied (approve first)"))
    else do
      let r ← Eng.loadRec h
      if destructiveGated r by_.scopes allowDestructive then
        fail (.destructiveGated
          "destructive apply requires admin scope + allow_destructive")
      else do
        let (created, p) ← execute E p by_ because r.proposal
        let applied := appliedRecord r created by_.nowMs
        let head ← Eng.putAudit
          (p.transition h status .applied by_.actor by_.observer because by_.nowMs)
        Eng.storeState ((p.advance h .applied head).setApplied h applied)
        pure applied

/-- `Engine::apply`. -/
def apply (E : Engine) (h : GrainHash) (by_ : Actor) (allowDestructive : Bool) :
    Eng AppliedRecord :=
  if by_.scopes.has .apply = false then fail (.scopeDenied "apply")
  else
    match validateBecause E.host.unicode by_.because with
    | .error e => fail e
    | .ok because => applyFrom E h by_ because allowDestructive

/-! ## Apply by policy -/

/-- `parse_own_supersede`. -/
def parseOwnSupersede (E : Engine) (line : String) : Option (GrainHash × JsonMap) :=
  let u := E.host.unicode
  match Text.splitOnce "SUPERSEDE ".toList (u.trim line).toList with
  | some ([], rest) =>
    match Text.splitOnce " WITH ".toList rest with
    | none => none
    | some (target, after) =>
      match Text.splitOnce [' '] (Text.trim u.isWhitespace after) with
      | none => none
      | some (_, json) =>
        match E.parseJson (u.trim (String.ofList json)) with
        | some (.obj fields) => some (u.trim (String.ofList target), fields)
        | _ => none
  | _ => none

/-- Whether a field of a replacement says what the grain says. -/
def sameField (u : Unicode) (g : GrainRecord) (x : String × Json) : Bool :=
  if x.1 = "namespace" then
    match x.2 with
    | .str s => u.normalizeIdent s = u.normalizeIdent g.namespace_
    | _ => false
  else
    match x.2, g.fields.lookup x.1 with
    | .str a, some (.str b) => u.normalizeIdent a = u.normalizeIdent b
    | a, some b => a == b
    | _, none => false

/-- `supersede_is_value_identical`. -/
def supersedeIsValueIdentical (E : Engine) (line : String) : Eng Bool :=
  match parseOwnSupersede E line with
  | none => pure false
  | some (target, fields) =>
    if fields.isEmpty then pure false
    else do
      match ← (Eng.grain target).catching with
      | .ok (some g) =>
        pure (g.validToMs.isNone && fields.all (sameField E.host.unicode g))
      | _ => pure false

/-- Whether every line is a value-identical supersession. -/
def allIdentical (E : Engine) : List String → Eng Bool
  | [] => pure true
  | l :: ls => do
    if ← supersedeIsValueIdentical E l then allIdentical E ls else pure false

/-- The part of the auto-apply gate that needs no read. -/
def autoApplyGranted (E : Engine) (r : Recommendation) : Bool :=
  r.origin.autoApplyEligible && !r.destructive &&
    ((E.analyzers.map Analyzer.manifest).find? (·.id = r.analyzer)).any
      (·.autoApply = .structuralCuration) &&
    match TargetRef.parse r.targetRef with
    | .error _ => false
    | .ok target =>
      E.policy.grantsAutoApply (analyzerFamily r.analyzer) target.targetClass r.severity

/-- `Engine::can_auto_apply`. -/
def canAutoApply (E : Engine) (r : Recommendation) : Eng Bool :=
  if autoApplyGranted E r then
    match r.proposal with
    | .cal cal =>
      allIdentical E (((lines cal).map E.host.unicode.trim).filter (· ≠ ""))
    | _ => pure false
  else pure false

/-- Execute the proposal of an apply by policy. -/
def executeAuto : Proposal → Eng (List GrainHash)
  | .cal cal => do
    let rows ← Eng.executeCal cal
    pure (rows.filterMap id)
  | _ => pure []

/-- `Engine::auto_apply`. -/
def autoApply (p : LoopPersisted) (h : GrainHash) (r : Recommendation) (nowMs : ℤ) :
    Eng LoopPersisted := do
  let created ← executeAuto r.proposal
  let head ← Eng.putAudit
    (p.transition h .pending .applied "policy:auto" .policy "auto-applied per host policy" nowMs)
  pure ((p.advance h .applied head).setApplied h (appliedRecord r created nowMs))

end Deja.Loop
