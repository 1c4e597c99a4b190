import Deja.Loop.Steps

/-!
# Refused and failed calls

A call of `apply` or `rollback` that a gate refuses changes nothing, and one that
fails later has not stored its own transition (`refused_unchanged`).  What its CAL
lines or retractions had done by then stays done: no transaction spans a call.
-/

namespace Deja.Loop

open Prog

variable {U : Type}

/-! ## Refusals -/

/-- A gate of `rollback` refuses. -/
def RollbackRefused (E : Engine) (m : Memory U) (h : GrainHash) (by_ : Actor) : Prop :=
  by_.scopes.has .apply = false ∨ (∃ e, validateBecause E.host.unicode by_.because = .error e) ∨
    ¬∃ status applied, RollbackGates m.state h status applied

/-- The engine's part of a proposal can be done: it is CAL text, which goes to the
substrate, or takes back a recommendation the gates of `rollback` let go. -/
def EngineRuns (m : Memory U) : Proposal → Prop
  | .cal _ => True
  | .edit _ _ _ => False
  | .data d => ∃ target status applied, revertOf d = some target ∧
      RollbackGates m.state target status applied

/-- A gate the engine has in `apply` refuses. -/
def ApplyRefused (E : Engine) (m : Memory U) (h : GrainHash) (by_ : Actor)
    (allowDestructive : Bool) : Prop :=
  by_.scopes.has .apply = false ∨ (∃ e, validateBecause E.host.unicode by_.because = .error e) ∨
    ¬∃ status r, ApplyGates m h by_ allowDestructive status r ∧ EngineRuns m r.proposal

/-- CAL text and retractions leave the loop state alone. -/
structure Substrate.SparesState (S : Substrate U) : Prop where
  executes : ∀ text m r m', S.executes text m r m' → m'.state = m.state
  retracts : ∀ h m r m', S.retracts h m r m' → m'.state = m.state

variable {E : Engine} {S : Substrate U} {m m' : Memory U} {h : GrainHash} {by_ : Actor}

theorem rollback_refused {x : Except Error Unit} (hrun : Runs S.Performs (rollback E h by_) m x m')
    (hrefused : RollbackRefused E m h by_) : (∃ e, x = .error e) ∧ m' = m := by
  rcases rollback_runs hrun with ⟨e, rfl, rfl⟩ | ⟨because, hscope, hwhy, hfrom⟩
  · exact ⟨⟨e, rfl⟩, rfl⟩
  rcases rollbackFrom_runs hfrom with ⟨e, rfl, rfl⟩ | ⟨status, applied, hgates, -⟩
  · exact ⟨⟨e, rfl⟩, rfl⟩
  rcases hrefused with hno | ⟨e, hno⟩ | hno
  · rw [hscope] at hno
    cases hno
  · rw [hwhy] at hno
    cases hno
  · exact absurd ⟨status, applied, hgates⟩ hno

theorem apply_refused {allowDestructive : Bool} {x : Except Error AppliedRecord}
    (hrun : Runs S.Performs (apply E h by_ allowDestructive) m x m')
    (hrefused : ApplyRefused E m h by_ allowDestructive) : (∃ e, x = .error e) ∧ m' = m := by
  rcases apply_runs hrun with ⟨e, rfl, rfl⟩ | ⟨because, hscope, hwhy, hfrom⟩
  · exact ⟨⟨e, rfl⟩, rfl⟩
  rcases applyFrom_runs hfrom with ⟨e, rfl, rfl⟩ | ⟨status, r, hgates, y, m₁, hexecute, hrest⟩
  · exact ⟨⟨e, rfl⟩, rfl⟩
  rcases hrefused with hno | ⟨e, hno⟩ | hno
  · rw [hscope] at hno
    cases hno
  · rw [hwhy] at hno
    cases hno
  -- the gates are passed, so the proposal is one that cannot be executed
  have hstuck : ¬EngineRuns m r.proposal := fun hexecutable =>
    hno ⟨status, r, hgates, hexecutable⟩
  have hfailed : (∃ e, y = .error e) ∧ m₁ = m := by
    cases hp : r.proposal with
    | cal text =>
      rw [hp] at hstuck
      exact absurd trivial hstuck
    | edit f b d =>
      rw [hp] at hexecute
      obtain ⟨rfl, rfl⟩ := Runs.fail_iff.1 hexecute
      exact ⟨⟨_, rfl⟩, rfl⟩
    | data d =>
      rw [hp] at hstuck hexecute
      have hnone : ∀ target, revertOf d = some target →
          RollbackRefused E m target { by_ with because := because } := fun target ht =>
        .inr (.inr fun ⟨status', applied, hgates'⟩ =>
          hstuck ⟨target, status', applied, ht, hgates'⟩)
      cases execute_runs hexecute with
      | advisory e _ => exact ⟨⟨e, rfl⟩, rfl⟩
      | reverted ht hback =>
        obtain ⟨⟨e, ⟨⟩⟩, -⟩ := rollback_refused hback (hnone _ ht)
      | unread e ht hback =>
        obtain ⟨⟨e', ⟨⟩⟩, -⟩ := rollback_refused hback (hnone _ ht)
      | stuck ht hback => exact ⟨⟨_, rfl⟩, (rollback_refused hback (hnone _ ht)).2⟩
  obtain ⟨⟨e, rfl⟩, rfl⟩ := hfailed
  rcases hrest with ⟨e', -, rfl, rfl⟩ | ⟨created, p, hy, -⟩
  · exact ⟨⟨e', rfl⟩, rfl⟩
  · cases hy

/-! ## Later failures -/

theorem Records.state_of_error {α : Type} {a : AuditRecord} {q : LoopPersisted} {v : α} {e : Error}
    (hrec : Records S a q v m (.error e) m') : m'.state = m.state := by
  cases hrec with
  | refused => rfl
  | unlinked => exact Memory.addAudit_state _ _ _

theorem retractAll_state (hS : S.SparesState) {reason : String} {hs : List GrainHash}
    {x : Except Error Unit} (hrun : Runs S.Performs (retractAll reason hs) m x m') :
    m'.state = m.state := by
  induction hs generalizing m with
  | nil =>
    obtain ⟨-, rfl⟩ := Runs.pure_iff.1 hrun
    rfl
  | cons h hs ih =>
    rcases Runs.bind_iff.1 hrun with ⟨e, hone, rfl⟩ | ⟨u, m₁, hone, hrest⟩
    · exact hS.retracts _ _ _ _ (Eng.retract_runs hone)
    · exact (ih hrest).trans (hS.retracts _ _ _ _ (Eng.retract_runs hone))

/-- A rollback that failed left the loop state alone. -/
theorem rollback_error_state (hS : S.SparesState) {e : Error}
    (hrun : Runs S.Performs (rollback E h by_) m (.error e) m') : m'.state = m.state := by
  rcases rollback_runs hrun with ⟨-, -, rfl⟩ | ⟨because, -, -, hfrom⟩
  · rfl
  rcases rollbackFrom_runs hfrom with ⟨-, -, rfl⟩ | ⟨status, applied, -, y, m₁, hretract, hrest⟩
  · rfl
  have hstate := retractAll_state hS hretract
  rcases hrest with ⟨e', -, -, rfl⟩ | ⟨-, hrec⟩
  · exact hstate
  · exact hrec.state_of_error.trans hstate

/-- A rollback that returned has moved the status of its recommendation on and of
no other. -/
theorem rollback_ok_state {h' : GrainHash}
    (hrun : Runs S.Performs (rollback E h' by_) m (.ok ()) m') :
    ∃ status applied head, RollbackGates m.state h' status applied ∧
      m'.state = m.state.advance h' .rolledBack head := by
  rcases rollback_runs hrun with ⟨e, ⟨⟩, -⟩ | ⟨because, -, -, hfrom⟩
  rcases rollbackFrom_runs hfrom with ⟨e, ⟨⟩, -⟩ | ⟨status, applied, hgates, y, m₁, -, hrest⟩
  rcases hrest with ⟨e', -, ⟨⟩, -⟩ | ⟨-, hrec⟩
  cases hrec
  exact ⟨status, applied, _, hgates, rfl⟩

/-- The loop state says the same of a recommendation. -/
structure SameStanding (p q : LoopPersisted) (h : GrainHash) : Prop where
  status : q.statusIndex.lookup h = p.statusIndex.lookup h
  head : q.auditHeads.lookup h = p.auditHeads.lookup h
  applied : q.applied.lookup h = p.applied.lookup h

theorem SameStanding.of_eq {p q : LoopPersisted} (heq : q = p) (h : GrainHash) :
    SameStanding p q h := by
  rw [heq]
  exact ⟨rfl, rfl, rfl⟩

theorem SameStanding.advance {p : LoopPersisted} {h h' head : GrainHash} {to_ : RecStatus}
    (hne : h ≠ h') : SameStanding p (p.advance h' to_ head) h where
  status := by rw [LoopPersisted.advance, Sorted.lookup_insert, if_neg hne]
  head := by rw [LoopPersisted.advance, Sorted.lookup_insert, if_neg hne]
  applied := rfl

/-- What a failed call of `apply` has done to the loop state: nothing, or for a
revert the rollback of its target, another recommendation. -/
inductive FailedApply (m : Memory U) (h : GrainHash) (q : LoopPersisted) : Prop
  | unchanged (hq : q = m.state)
  | reverted {r : Recommendation} {data : JsonMap} {target : GrainHash} {status : RecStatus}
      {applied : AppliedRecord} (head : GrainHash) (hstored : m.recs.lookup h = some r)
      (hdata : r.proposal = .data data) (htarget : revertOf data = some target)
      (hgates : RollbackGates m.state target status applied) (hne : h ≠ target)
      (hq : q = m.state.advance target .rolledBack head)

/-- Either way it says the same of the recommendation itself. -/
theorem FailedApply.standing {q : LoopPersisted} (hfailed : FailedApply m h q) :
    SameStanding m.state q h := by
  cases hfailed with
  | unchanged hq => exact .of_eq hq h
  | reverted head _ _ _ _ hne hq =>
    rw [hq]
    exact .advance hne

/-- An apply that failed left the loop state alone, but for the rollback of a revert. -/
theorem apply_error_state (hS : S.SparesState) {allowDestructive : Bool} {e : Error}
    (hrun : Runs S.Performs (apply E h by_ allowDestructive) m (.error e) m') :
    FailedApply m h m'.state := by
  rcases apply_runs hrun with ⟨-, -, rfl⟩ | ⟨because, -, -, hfrom⟩
  · exact .unchanged rfl
  rcases applyFrom_runs hfrom with ⟨-, -, rfl⟩ | ⟨status, r, hgates, y, m₁, hexecute, hrest⟩
  · exact .unchanged rfl
  have hexecuted : FailedApply m h m₁.state := by
    have hreverted : ∀ {data : JsonMap} {target : GrainHash}, r.proposal = .data data →
        revertOf data = some target →
        Runs S.Performs (rollback E target { by_ with because := because }) m (.ok ()) m₁ →
          FailedApply m h m₁.state := by
      intro data target hdata ht hback
      obtain ⟨status', applied, head, hback, hstate⟩ := rollback_ok_state hback
      refine .reverted head hgates.stored hdata ht hback (fun heq => ?_) hstate
      -- the recommendation is approved and the one taken back is applied
      have hknown := hgates.known
      rw [heq, hback.known] at hknown
      cases hknown
      have hlegal := hback.legal
      have hlegal' := hgates.legal
      cases status <;> simp [RecStatus.canTransitionTo] at hlegal hlegal'
    have hexecuted := execute_runs hexecute
    generalize hproposal : r.proposal = proposal at hexecuted
    cases hexecuted with
    | ran hcal => exact .unchanged (hS.executes _ _ _ _ hcal)
    | broke hcal => exact .unchanged (hS.executes _ _ _ _ hcal)
    | advisory => exact .unchanged rfl
    | reverted ht hback => exact hreverted hproposal ht hback
    | unread e ht hback => exact hreverted hproposal ht hback
    | stuck ht hback => exact .unchanged (rollback_error_state hS hback)
  rcases hrest with ⟨e', -, -, rfl⟩ | ⟨created, p, -, hrec⟩
  · exact hexecuted
  · have hstate := hrec.state_of_error
    rw [hstate]
    exact hexecuted

/-- **A refused call changes nothing.**  A call of `apply` or `rollback` that a gate
refuses fails and leaves the memory as it is; one that fails later, over a
substrate whose CAL text and retractions spare the loop state, leaves the loop state
as it is, but for the rollback that a revert had run on its target. -/
theorem refused_unchanged (E : Engine) (S : Substrate U) (m m' : Memory U) (h : GrainHash)
    (by_ : Actor) (allowDestructive : Bool) :
    (∀ x, Runs S.Performs (rollback E h by_) m x m' → RollbackRefused E m h by_ →
        (∃ e, x = .error e) ∧ m' = m) ∧
      (∀ x, Runs S.Performs (apply E h by_ allowDestructive) m x m' →
        ApplyRefused E m h by_ allowDestructive → (∃ e, x = .error e) ∧ m' = m) ∧
      (S.SparesState → ∀ e,
        (Runs S.Performs (rollback E h by_) m (.error e) m' → m'.state = m.state) ∧
        (Runs S.Performs (apply E h by_ allowDestructive) m (.error e) m' →
          FailedApply m h m'.state ∧ SameStanding m.state m'.state h)) :=
  ⟨fun _ => rollback_refused, fun _ => apply_refused, fun hS _ =>
    ⟨rollback_error_state hS, fun hrun =>
      ⟨apply_error_state hS hrun, (apply_error_state hS hrun).standing⟩⟩⟩

/-! ### A line that fails after another -/

/-- A text whose second line is malformed. -/
def brokenText : String :=
  "ADD fact \x7b\"subject\":\"a\",\"relation\":\"b\",\"object\":\"c\"\x7d\nSUPERSEDE x"

/-- A substrate that runs the first line and fails at the second. -/
def brokenSubstrate : Substrate (List String) where
  recHash _ := "r"
  auditHash _ := "a"
  grainsOfType _ _ _ _ := []
  grain _ _ := none
  heads _ _ := []
  telemetry _ _ := none
  executes text m r m' := text = brokenText ∧
    r = .error (.calUnsupported "malformed SUPERSEDE: SUPERSEDE x") ∧
      m' = { m with user := m.user ++ ["a"] }
  retracts _ m r m' := r = .ok () ∧ m' = m

/-- The recommendation of the text. -/
def brokenRec : Recommendation where
  analyzer := "ext/1"
  paramsSnapshot := []
  origin := .command "ext/1"
  targetRef := "entity:a/b"
  actionKind := .flag
  dedupKey := "k"
  summary := ⟨"command.finding", []⟩
  severity := .low
  proposal := .cal brokenText
  destructive := false
  rollbackable := true
  evidence := []
  evidenceQuery := none
  metric := none
  confidence := 1
  importance := 1
  createdAtMs := 0
  guidance := none

/-- A memory where it is approved. -/
def brokenMemory : Memory (List String) where
  recs := [("r", brokenRec)]
  audits := []
  state := { LoopPersisted.empty with statusIndex := [("r", .approved)] }
  user := []

/-- An engine without analyzers, over characters of which none is white space. -/
def bareEngine : Engine where
  host := {
    unicode := ⟨fun _ => false, id⟩
    replies := ⟨fun _ => none, fun _ => none, fun _ => none, fun _ => none⟩
    render := Summary.templateId }
  parseJson _ := none
  capabilities := []
  analyzers := []
  policy := ⟨false, [], [], []⟩
  llm := none
  groundLlm := none
  measureMetric _ _ := pure none
  measureMetric_reads _ _ := Calls.ret

/-- Someone who may apply. -/
def applier : Actor := ⟨"user:ann", .human, [.apply], "why", 0⟩

/-- **A failed apply leaves its first line behind.** -/
theorem failed_apply_writes :
    ¬∀ (U : Type) (E : Engine) (S : Substrate U) (m m' : Memory U) (h : GrainHash) (by_ : Actor)
      (allowDestructive : Bool) (e : Error),
        Runs S.Performs (apply E h by_ allowDestructive) m (.error e) m' → m' = m := by
  intro h
  have hcal : Runs brokenSubstrate.Performs (execute bareEngine brokenMemory.state applier "why"
      brokenRec.proposal) brokenMemory
        (.error (.calUnsupported "malformed SUPERSEDE: SUPERSEDE x"))
        { brokenMemory with user := ["a"] } :=
    Runs.bind_iff.2 (.inl ⟨_, Runs.ask_iff.2 ⟨rfl, rfl, rfl⟩, rfl⟩)
  have hrun : Runs brokenSubstrate.Performs (apply bareEngine "r" applier false) brokenMemory
      (.error (.calUnsupported "malformed SUPERSEDE: SUPERSEDE x"))
      { brokenMemory with user := ["a"] } := by
    refine Runs.bind (Runs.ask_iff.2 (⟨rfl, .inl rfl⟩ :
      brokenSubstrate.Performs .loadState brokenMemory (.ok brokenMemory.state) brokenMemory)) ?_
    refine Runs.bind (Runs.call_iff.2 ⟨.ok (some brokenRec), brokenMemory, ⟨rfl, .inl rfl⟩,
      .ret _ _⟩) ?_
    exact Runs.bind_iff.2 (.inl ⟨_, hcal, rfl⟩)
  have hsame := h _ _ _ _ _ _ _ _ _ hrun
  cases congrArg Memory.user hsame

end Deja.Loop
