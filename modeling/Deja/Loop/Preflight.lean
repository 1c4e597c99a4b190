import Deja.Cal.Statement
import Deja.Loop.Refused

/-!
# Preflight

The callers that approve and apply in one go ask `preflight_apply` first, since an
approved recommendation can no longer be rejected.  It passes the gates of `apply`
on the recommendation itself and on what kind of proposal it has.  It passes neither
the checks `execute_cal` makes of CAL text, line by line, nor the gates of the rollback
that a revert proposal runs on another recommendation.  So no check refuses the apply
that follows exactly where its text passes the former and its target the latter
(`preflight_agrees_iff`).
-/

namespace Deja.Loop

open Prog

/-! ## The functions -/

/-- `ensure_executable`. -/
def ensureExecutable : Proposal → Except Error Unit
  | .cal _ => .ok ()
  | .edit _ _ _ => .error (.invalidProposal advisoryEdit)
  | .data data =>
    if (revertOf data).isSome then .ok () else .error (.invalidProposal advisoryData)

/-- `Engine::preflight_apply`. -/
def preflightApply (h : GrainHash) (scopes : ScopeSet) (allowDestructive : Bool) : Eng Unit :=
  if scopes.has .apply = false then fail (.scopeDenied "apply")
  else do
    let r ← Eng.loadRec h
    if destructiveGated r scopes allowDestructive then
      fail (.destructiveGated "destructive apply requires admin scope + allow_destructive")
    else
      match ensureExecutable r.proposal with
      | .error e => fail e
      | .ok () => pure ()

/-! ## What `execute_cal` refuses -/

/-- `split_keyword`. -/
def splitKeyword (u : Unicode) (line : List Char) : List Char × List Char :=
  (line.takeWhile fun c => !u.isWhitespace c,
    ((line.dropWhile fun c => !u.isWhitespace c).drop 1).dropWhile u.isWhitespace)

/-- `str::split_once`. -/
def splitOnce (pat : List Char) : List Char → Option (List Char × List Char)
  | [] => none
  | c :: s =>
    if pat.isPrefixOf (c :: s) then some ([], (c :: s).drop pat.length)
    else (splitOnce pat s).map fun p => (c :: p.1, p.2)

/-- The readers `execute_cal` asks: `Hash::from_hex`, `serde_json::from_str`, and `parse`,
of whose statement it takes the class. -/
structure CalFront where
  isHash : List Char → Bool
  parseJson : List Char → Option Json
  parseClass : List Char → Option Cal.StatementClass

namespace CalFront

variable (F : CalFront) (u : Unicode)

/-- Whether `parse_type_and_json` reads a type and an object. -/
def readsFields (s : List Char) : Bool :=
  Text.trim u.isWhitespace (s.takeWhile (· ≠ '{')) ≠ [] &&
    match F.parseJson (Text.trim u.isWhitespace (s.dropWhile (· ≠ '{'))) with
    | some (.obj _) => true
    | _ => false

/-- Whether `execute_cal` refuses a line on its form: an argument it cannot read, a text
that does not parse, or a destructive statement other than `FORGET` of one grain. -/
def refusesLine (line : List Char) : Bool :=
  let line := Text.trim u.isWhitespace line
  let keyword := (splitKeyword u line).1.map Char.toUpper
  let rest := (splitKeyword u line).2
  if line = [] then false
  else if keyword = "FORGET".toList then !F.isHash (Text.trim u.isWhitespace rest)
  else if keyword = "ADD".toList then !F.readsFields u rest
  else if keyword = "SUPERSEDE".toList then
    match splitOnce " WITH ".toList rest with
    | none => true
    | some (target, after) =>
      !(F.readsFields u after && F.isHash (Text.trim u.isWhitespace target))
  else
    match F.parseClass line with
    | none => true
    | some cls => cls = .destructive

/-- Whether it refuses some line of a text. -/
def refuses (text : String) : Bool := (lines text).any fun line => F.refusesLine u line.toList

end CalFront

variable {U : Type} {E : Engine} {S : Substrate U} {m m' : Memory U} {h : GrainHash} {by_ : Actor}

/-- A call of `execute_cal` that refuses a line fails, whatever the lines before it did. -/
def Substrate.ChecksCal (S : Substrate U) (F : CalFront) (u : Unicode) : Prop :=
  ∀ text m r m', F.refuses u text = true → S.executes text m r m' → ∃ e, r = .error e

/-- A gate of `apply`, or a check of `execute_cal` on the text, refuses. -/
def ChecksRefuse (E : Engine) (F : CalFront) (m : Memory U) (h : GrainHash) (by_ : Actor)
    (allowDestructive : Bool) : Prop :=
  ApplyRefused E m h by_ allowDestructive ∨ ∃ r text, m.recs.lookup h = some r ∧
    r.proposal = .cal text ∧ F.refuses E.host.unicode text = true

/-! ## What it finds -/

/-- What `preflight_apply` has seen when it returns. -/
structure Preflighted (m : Memory U) (h : GrainHash) (scopes : ScopeSet) (allowDestructive : Bool)
    (r : Recommendation) : Prop where
  scope : scopes.has .apply = true
  stored : m.recs.lookup h = some r
  allowed : destructiveGated r scopes allowDestructive = false
  executable : ensureExecutable r.proposal = .ok ()

theorem preflightApply_runs {scopes : ScopeSet} {allowDestructive : Bool}
    (hrun : Runs S.Performs (preflightApply h scopes allowDestructive) m (.ok ()) m') :
    m' = m ∧ ∃ r, Preflighted m h scopes allowDestructive r := by
  unfold preflightApply at hrun
  split_ifs at hrun with hscope
  · obtain ⟨⟨⟩, -⟩ := Runs.fail_iff.1 hrun
  obtain ⟨r, m₁, hload, hrest⟩ := Runs.bind_ok hrun
  obtain ⟨rfl, ⟨r', hr', hstored⟩ | ⟨e, ⟨⟩⟩⟩ := Eng.loadRec_runs hload
  cases hr'
  split_ifs at hrest with hgated
  · obtain ⟨⟨⟩, -⟩ := Runs.fail_iff.1 hrest
  cases hexec : ensureExecutable r.proposal with
  | error e =>
    rw [hexec] at hrest
    obtain ⟨⟨⟩, -⟩ := Runs.fail_iff.1 hrest
  | ok u =>
    rw [hexec] at hrest
    exact ⟨(Runs.pure_iff.1 hrest).2, r, by simpa using hscope, hstored, by simpa using hgated,
      hexec⟩

/-- A recommendation named by a revert proposal can be rolled back. -/
def RevertCanRun (m : Memory U) (h : GrainHash) : Prop :=
  ∀ r data target, m.recs.lookup h = some r → r.proposal = .data data →
    revertOf data = some target → ∃ status applied, RollbackGates m.state target status applied

/-- A proposal `preflight_apply` lets go can be executed where its target can be
rolled back. -/
theorem Preflighted.executable_iff {scopes : ScopeSet} {allowDestructive : Bool}
    {r : Recommendation} (hpre : Preflighted m h scopes allowDestructive r) :
    EngineRuns m r.proposal ↔ RevertCanRun m h := by
  have hexec := hpre.executable
  have hcases : RevertCanRun m h ↔ ∀ data target, r.proposal = .data data →
      revertOf data = some target →
        ∃ status applied, RollbackGates m.state target status applied := by
    constructor
    · intro hcan data target
      exact hcan r data target hpre.stored
    · intro hcan r' data target hr'
      cases hpre.stored.symm.trans hr'
      exact hcan data target
  rw [hcases]
  cases hp : r.proposal with
  | cal text => exact ⟨fun _ data target hdata => (nomatch hdata), fun _ => trivial⟩
  | edit f b d =>
    rw [hp] at hexec
    cases hexec
  | data d =>
    rw [hp] at hexec
    cases ht : revertOf d with
    | none =>
      simp only [ensureExecutable, ht] at hexec
      cases hexec
    | some target =>
      constructor
      · rintro ⟨target', status, applied, ht', hgates⟩ data target'' hdata ht''
        cases hdata
        cases ht.symm.trans ht'
        cases ht.symm.trans ht''
        exact ⟨status, applied, hgates⟩
      · intro hcan
        obtain ⟨status, applied, hgates⟩ := hcan d target rfl ht
        exact ⟨target, status, applied, ht, hgates⟩

/-! ## What goes through -/

theorem Unicode.trim_trim (u : Unicode) (s : String) : u.trim (u.trim s) = u.trim s := by
  unfold Unicode.trim
  rw [String.toList_ofList, Text.trim_idem]

/-- A reason that was accepted is accepted again. -/
theorem validateBecause_again {u : Unicode} {s because : String}
    (hok : validateBecause u s = .ok because) : validateBecause u because = .ok because := by
  unfold validateBecause at hok
  split_ifs at hok with hempty hlong
  cases hok
  unfold validateBecause
  rw [Unicode.trim_trim, if_neg hempty, if_neg hlong]

theorem Eng.loadRec_returns {r : Recommendation} (hstored : m.recs.lookup h = some r) :
    Returns S.Performs (Eng.loadRec h) m := by
  intro x m' hrun
  obtain ⟨reply, m₁, ⟨⟨-, hreply⟩, a, rfl⟩, hk⟩ := Runs.call_iff.1 hrun
  rcases hreply with hreply | ⟨e, ⟨⟩⟩
  cases hreply
  rw [hstored] at hk
  exact ⟨r, (Runs.ret_iff.1 hk).1⟩

theorem retractAll_returns {reason : String} {hs : List GrainHash} :
    Returns S.Performs (retractAll reason hs) m := by
  induction hs generalizing m with
  | nil => exact .pure
  | cons h hs ih => exact Returns.bind .ask fun _ _ _ => ih

theorem rollback_returns {because : String} {status : RecStatus} {applied : AppliedRecord}
    (hscope : by_.scopes.has .apply = true)
    (hwhy : validateBecause E.host.unicode by_.because = .ok because)
    (hgates : RollbackGates m.state h status applied) :
    Returns S.Performs (rollback E h by_) m := by
  unfold rollback
  rw [hscope, hwhy, if_neg (by decide)]
  refine Returns.bind .ask fun p m₁ hload => ?_
  obtain ⟨rfl, hp | ⟨e, ⟨⟩⟩⟩ := Eng.loadState_runs hload
  cases hp
  simp only [hgates.known, hgates.legal, hgates.noted, hgates.rollbackable]
  exact Returns.bind retractAll_returns fun _ _ _ => Returns.bind .ask fun _ _ _ => .ask

theorem execute_returns {because : String} {p : Proposal} (hscope : by_.scopes.has .apply = true)
    (hwhy : validateBecause E.host.unicode by_.because = .ok because) (hp : EngineRuns m p) :
    Returns S.Performs (execute E m.state by_ because p) m := by
  cases p with
  | cal text => exact Returns.bind .ask fun _ _ _ => .pure
  | edit f b d => exact hp.elim
  | data d =>
    obtain ⟨target, status, applied, ht, hgates⟩ := hp
    simp only [execute, ht]
    refine Returns.bind ?_ fun _ _ _ => Returns.bind .ask fun _ _ _ => .pure
    have hscope' : { by_ with because := because }.scopes.has .apply = true := hscope
    exact rollback_returns hscope' (validateBecause_again hwhy) hgates

/-- An apply no gate refuses returns while the calls it makes answer. -/
theorem apply_returns {because : String} {allowDestructive : Bool} {status : RecStatus}
    {r : Recommendation} (hscope : by_.scopes.has .apply = true)
    (hwhy : validateBecause E.host.unicode by_.because = .ok because)
    (hgates : ApplyGates m h by_ allowDestructive status r) (hp : EngineRuns m r.proposal) :
    Returns S.Performs (apply E h by_ allowDestructive) m := by
  unfold apply
  rw [hscope, hwhy, if_neg (by decide)]
  refine Returns.bind .ask fun p m₁ hload => ?_
  obtain ⟨rfl, hp' | ⟨e, ⟨⟩⟩⟩ := Eng.loadState_runs hload
  cases hp'
  simp only [hgates.known, hgates.legal]
  refine Returns.bind (Eng.loadRec_returns hgates.stored) fun r' m₂ hload => ?_
  obtain ⟨rfl, ⟨r'', hr'', hstored⟩ | ⟨e, ⟨⟩⟩⟩ := Eng.loadRec_runs hload
  cases hr''
  cases hgates.stored.symm.trans hstored
  simp only [hgates.allowed]
  refine Returns.bind (execute_returns hscope hwhy hp) fun _ _ _ => ?_
  exact Returns.bind .ask fun _ _ _ => Returns.bind .ask fun _ _ _ => .pure

/-! ## What is refused -/

theorem Eng.loadState_answers :
    Runs (Answers S.Performs) Eng.loadState m (.ok m.state) m :=
  Runs.ask_iff.2 ⟨⟨rfl, .inl rfl⟩, m.state, rfl⟩

theorem Eng.loadRec_answers {r : Recommendation} (hstored : m.recs.lookup h = some r) :
    Runs (Answers S.Performs) (Eng.loadRec h) m (.ok r) m := by
  refine Runs.call_iff.2 ⟨.ok (some r), m, ⟨⟨rfl, .inl ?_⟩, some r, rfl⟩, .ret _ _⟩
  exact congrArg Except.ok hstored.symm

/-- A rollback whose gates refuse fails although its calls answer. -/
theorem rollbackFrom_refuses {because : String}
    (hno : ¬∃ status applied, RollbackGates m.state h status applied) :
    ∃ e, Runs (Answers S.Performs) (rollbackFrom h by_ because) m (.error e) m := by
  cases hknown : m.state.statusIndex.lookup h with
  | none =>
    refine ⟨.notFound h, Runs.bind Eng.loadState_answers ?_⟩
    rw [hknown]
    exact Runs.fail_iff.2 ⟨rfl, rfl⟩
  | some status =>
  by_cases hlegal : status.canTransitionTo .rolledBack false = true
  case neg =>
    refine ⟨.lifecycleViolation (status.asStr ++ " -> rolled_back"),
      Runs.bind Eng.loadState_answers ?_⟩
    simp only [hknown, hlegal]
    exact Runs.fail_iff.2 ⟨rfl, rfl⟩
  cases hnoted : m.state.applied.lookup h with
  | none =>
    refine ⟨.notFound ("no applied record for " ++ h), Runs.bind Eng.loadState_answers ?_⟩
    simp only [hknown, hlegal, hnoted]
    exact Runs.fail_iff.2 ⟨rfl, rfl⟩
  | some applied =>
  by_cases hback : applied.rollbackable = true
  case neg =>
    refine ⟨.lifecycleViolation "recommendation is non-rollbackable (FORGET has no inverse)",
      Runs.bind Eng.loadState_answers ?_⟩
    simp only [hknown, hlegal, hnoted, hback]
    exact Runs.fail_iff.2 ⟨rfl, rfl⟩
  exact absurd ⟨status, applied, hknown, hlegal, hnoted, hback⟩ hno

theorem rollback_refuses {because : String} (hscope : by_.scopes.has .apply = true)
    (hwhy : validateBecause E.host.unicode by_.because = .ok because)
    (hno : ¬∃ status applied, RollbackGates m.state h status applied) :
    ∃ e, Runs (Answers S.Performs) (rollback E h by_) m (.error e) m := by
  unfold rollback
  rw [hscope, hwhy, if_neg (by decide)]
  exact rollbackFrom_refuses hno

/-- An apply that passes its own gates fails at those of the rollback it runs. -/
theorem apply_refuses {because : String} {allowDestructive : Bool} {status : RecStatus}
    {r : Recommendation} {data : JsonMap} {target : GrainHash}
    (hscope : by_.scopes.has .apply = true)
    (hwhy : validateBecause E.host.unicode by_.because = .ok because)
    (hgates : ApplyGates m h by_ allowDestructive status r) (hp : r.proposal = .data data)
    (ht : revertOf data = some target)
    (hno : ¬∃ status applied, RollbackGates m.state target status applied) :
    ∃ e, Runs (Answers S.Performs) (apply E h by_ allowDestructive) m (.error e) m := by
  have hscope' : { by_ with because := because }.scopes.has .apply = true := hscope
  obtain ⟨e, hback⟩ := rollback_refuses (S := S) (E := E) hscope' (validateBecause_again hwhy) hno
  have hexecute : Runs (Answers S.Performs) (execute E m.state by_ because r.proposal) m
      (.error e) m := by
    simp only [hp, execute, ht]
    exact Runs.bind_iff.2 (.inl ⟨e, hback, rfl⟩)
  refine ⟨e, ?_⟩
  unfold apply
  rw [hscope, hwhy, if_neg (by decide)]
  refine Runs.bind Eng.loadState_answers ?_
  simp only [hgates.known, hgates.legal]
  refine Runs.bind (Eng.loadRec_answers hgates.stored) ?_
  simp only [hgates.allowed]
  exact Runs.bind_iff.2 (.inl ⟨e, hexecute, rfl⟩)

/-! ## Across the approval -/

/-- What an approval leaves: the recommendation approved, and all else an apply
looks at as it was. -/
structure Approved (m m' : Memory U) (h : GrainHash) : Prop where
  legal : ∃ status, m.state.statusIndex.lookup h = some status ∧
    status.canTransitionTo .approved false = true
  status : m'.state.statusIndex.lookup h = some .approved
  others : ∀ h', h' ≠ h → m'.state.statusIndex.lookup h' = m.state.statusIndex.lookup h'
  applied : m'.state.applied = m.state.applied
  recs : m'.recs = m.recs

theorem review_because {d : Decision}
    (hrun : Runs S.Performs (review E h d by_) m (.ok ()) m') :
    ∃ because, validateBecause E.host.unicode by_.because = .ok because := by
  unfold review at hrun
  split_ifs at hrun
  · obtain ⟨⟨⟩, -⟩ := Runs.fail_iff.1 hrun
  cases hwhy : validateBecause E.host.unicode by_.because with
  | error e =>
    rw [hwhy] at hrun
    obtain ⟨⟨⟩, -⟩ := Runs.fail_iff.1 hrun
  | ok because => exact ⟨because, rfl⟩

theorem review_approved (hrun : Runs S.Performs (review E h .approve by_) m (.ok ()) m') :
    Approved m m' h := by
  rcases review_runs hrun with ⟨e, ⟨⟩, -⟩ | ⟨because, hfrom⟩
  rcases reviewFrom_runs hfrom with ⟨e, ⟨⟩, -⟩ | ⟨status, hgates, q, hcooled, hrec⟩
  cases hrec
  refine ⟨⟨status, hgates.known, hgates.legal⟩, ?_, ?_, ?_, ?_⟩
  · show q.statusIndex.lookup h = _
    rw [hcooled.eq]
    show (Sorted.insert h _ m.state.statusIndex).lookup h = _
    rw [Sorted.lookup_insert, if_pos rfl]
    rfl
  · intro h' hne
    show q.statusIndex.lookup h' = _
    rw [hcooled.eq]
    show (Sorted.insert h _ m.state.statusIndex).lookup h' = _
    rw [Sorted.lookup_insert, if_neg hne]
  · show q.applied = _
    rw [hcooled.eq]
    rfl
  · exact Memory.addAudit_recs ..

/-- An approval changes no gate of a rollback. -/
theorem Approved.rollbackGates_iff (ha : Approved m m' h) {target : GrainHash}
    {status : RecStatus} {applied : AppliedRecord} :
    RollbackGates m'.state target status applied ↔ RollbackGates m.state target status applied := by
  by_cases hself : target = h
  · subst hself
    obtain ⟨before, hbefore, hlegal⟩ := ha.legal
    constructor
    · intro hgates
      cases ha.status.symm.trans hgates.known
      cases hgates.legal
    · intro hgates
      cases hbefore.symm.trans hgates.known
      have hback := hgates.legal
      cases status <;> simp [RecStatus.canTransitionTo] at hlegal hback
  · constructor
    · intro hgates
      exact ⟨ha.others target hself ▸ hgates.known, hgates.legal, ha.applied ▸ hgates.noted,
        hgates.rollbackable⟩
    · intro hgates
      exact ⟨(ha.others target hself).trans hgates.known, hgates.legal,
        (congrArg _ ha.applied).trans hgates.noted, hgates.rollbackable⟩

theorem Approved.revertCanRun_iff (ha : Approved m m' h) :
    RevertCanRun m' h ↔ RevertCanRun m h := by
  simp only [RevertCanRun, ha.recs, ha.rollbackGates_iff]

theorem Preflighted.after_approval {scopes : ScopeSet} {allowDestructive : Bool}
    {r : Recommendation} (hpre : Preflighted m h scopes allowDestructive r)
    (ha : Approved m m' h) : Preflighted m' h scopes allowDestructive r where
  scope := hpre.scope
  stored := (congrArg _ ha.recs).trans hpre.stored
  allowed := hpre.allowed
  executable := hpre.executable

/-- A revert of what cannot be rolled back is refused, whatever preflight says. -/
theorem Preflighted.applyRefused {allowDestructive : Bool} {r : Recommendation}
    (hpre : Preflighted m h by_.scopes allowDestructive r) (hno : ¬RevertCanRun m h) :
    ApplyRefused E m h by_ allowDestructive := by
  refine .inr (.inr ?_)
  rintro ⟨status, r', hgates, hexecutable⟩
  cases hpre.stored.symm.trans hgates.stored
  exact hno (hpre.executable_iff.1 hexecutable)

/-- No line of a CAL proposal is one that `execute_cal` refuses. -/
def TextPasses (F : CalFront) (u : Unicode) (m : Memory U) (h : GrainHash) : Prop :=
  ∀ r text, m.recs.lookup h = some r → r.proposal = .cal text → F.refuses u text = false

/-- An apply of a text with a line that is refused fails. -/
theorem apply_text_refused {F : CalFront} {allowDestructive : Bool}
    {x : Except Error AppliedRecord} (hchecks : S.ChecksCal F E.host.unicode)
    (hno : ¬TextPasses F E.host.unicode m h)
    (hrun : Runs S.Performs (apply E h by_ allowDestructive) m x m') : ∃ e, x = .error e := by
  rcases apply_runs hrun with ⟨e, rfl, -⟩ | ⟨because, -, -, hfrom⟩
  · exact ⟨e, rfl⟩
  rcases applyFrom_runs hfrom with ⟨e, rfl, -⟩ | ⟨status, r, hgates, y, m₁, hexecute, hrest⟩
  · exact ⟨e, rfl⟩
  rcases hrest with ⟨e, -, rfl, -⟩ | ⟨created, p, rfl, -⟩
  · exact ⟨e, rfl⟩
  refine absurd (fun r' text hr' hp => ?_) hno
  cases hgates.stored.symm.trans hr'
  rw [hp] at hexecute
  cases execute_runs hexecute with
  | ran hcal =>
    by_contra hrefuses
    obtain ⟨e, ⟨⟩⟩ := hchecks _ _ _ _ (Bool.eq_true_of_not_eq_false hrefuses) hcal

/-- A revert of the recommendation `old`. -/
def revertRec : Recommendation :=
  { brokenRec with actionKind := .revert, proposal := .data [("revert_of", .str "old")] }

/-- What the apply of `old` left. -/
def oldApplied : AppliedRecord := ⟨0, "entity:a/b", true, [], none⟩

/-- A memory where `old` has a status and its revert is pending. -/
def revertMemory (status : RecStatus) : Memory (List String) where
  recs := [("old", brokenRec), ("revert", revertRec)]
  audits := []
  state := { LoopPersisted.empty with
    statusIndex := [("old", status), ("revert", .pending)]
    applied := [("old", oldApplied)] }
  user := []

/-- Someone who may review and apply. -/
def approver : Actor := ⟨"user:ann", .human, [.review, .apply], "why", 0⟩

theorem revertMemory_preflights (status : RecStatus) :
    Runs brokenSubstrate.Performs (preflightApply "revert" approver.scopes false)
      (revertMemory status) (.ok ()) (revertMemory status) := by
  unfold preflightApply
  rw [if_neg (by decide)]
  have hload : Runs (Answers brokenSubstrate.Performs) (Eng.loadRec "revert")
      (revertMemory status) (.ok revertRec) (revertMemory status) := Eng.loadRec_answers rfl
  refine Runs.bind (hload.mono fun _ _ _ _ hc => hc.1) ?_
  exact Runs.pure_iff.2 ⟨rfl, rfl⟩

theorem revertMemory_approves (status : RecStatus) :
    ∃ m', Runs brokenSubstrate.Performs (review bareEngine "revert" .approve approver)
      (revertMemory status) (.ok ()) m' := by
  have hload : Runs (Answers brokenSubstrate.Performs) Eng.loadState
      (revertMemory status) (.ok (revertMemory status).state) (revertMemory status) :=
    Eng.loadState_answers
  let p := (revertMemory status).state
  let audit := reviewAudit p "revert" .approve .pending approver "why"
  refine ⟨{ (revertMemory status).addAudit "a" audit with
    state := p.advance "revert" .approved "a" }, ?_⟩
  refine Runs.bind (hload.mono fun _ _ _ _ hc => hc.1) ?_
  exact Runs.bind (Runs.ask_iff.2 (.inl ⟨rfl, rfl⟩))
    (Runs.bind (Runs.pure_iff.2 ⟨rfl, rfl⟩) (Runs.ask_iff.2 (.inl ⟨rfl, rfl⟩)))

theorem revertMemory_stuck : ¬RevertCanRun (revertMemory .rolledBack) "revert" := by
  intro hcan
  obtain ⟨status, applied, hgates⟩ := hcan revertRec _ "old" rfl rfl rfl
  have hknown := hgates.known
  cases hknown
  cases hgates.legal

/-- Readers that take 64 characters for a hash and read nothing else. -/
def hashFront : CalFront := ⟨fun s => s.length = 64, fun _ => none, fun _ => none⟩

theorem brokenSubstrate_checks (F : CalFront) (u : Unicode) : brokenSubstrate.ChecksCal F u := by
  rintro text m r m' - ⟨-, rfl, -⟩
  exact ⟨_, rfl⟩

theorem brokenSubstrate_spares : brokenSubstrate.SparesState := by
  refine ⟨?_, ?_⟩
  · rintro text m r m' ⟨-, -, rfl⟩
    rfl
  · rintro h m r m' ⟨-, rfl⟩
    rfl

end Deja.Loop
