import Deja.Loop.Crash

/-!
# Outcome checkpoints

A run measures an applied recommendation at every checkpoint of its schedule that has
come due and was not measured before.  All of them are collected before the first is
noted, so a checkpoint that stands twice in a schedule is measured twice by one run
(`repeated_horizon_measured_twice`).  Where none does, every checkpoint is measured
once, by the first run that completes at or after it (`checkpoints_measured_once`).
-/

namespace Deja.Loop

open Prog

variable {U : Type}

/-! ## Measuring a metric again -/

/-- `tool_name`. -/
def GrainRecord.toolName (g : GrainRecord) : Option String :=
  ["tool_name", "name"].findSome? g.strField

/-- `tool_content`. -/
def GrainRecord.toolContent (g : GrainRecord) : Option String :=
  ["tool_content", "content", "result", "error", "body"].findSome? g.strField

/-- A run of digits as one mark; the flag says whether the character before was a digit. -/
def markDigits : Bool → List Char → List Char
  | _, [] => []
  | prevDigit, c :: cs =>
    if c.isDigit then (if prevDigit then [] else ['#']) ++ markDigits true cs
    else c :: markDigits false cs

/-- `normalize_signature`, at one token. -/
def signatureToken (token : List Char) : List Char :=
  if '/' ∈ token ∨ '\\' ∈ token then ['<', 'p', 'a', 't', 'h', '>'] else markDigits false token

/-- `normalize_signature`. -/
def normalizeSignature (u : Unicode) (content : String) : String :=
  let lowered := (u.toLowercase (Text.trim u.isWhitespace content.toList)).take 80
  let tokens := (lowered.splitOnP u.isWhitespace).filter (· ≠ [])
  String.ofList ([' '].intercalate (tokens.map signatureToken))

/-- `scoped_live_facts`. -/
def scopedLiveFacts (u : Unicode) (ns : Option String) (subject : String) :
    Eng (List GrainRecord) := do
  let facts ← Eng.grainsOfType "fact" none ⟨true, none⟩
  pure (facts.filter fun f => ns.all (u.normalizeIdent f.namespace_ = ·) &&
    (f.strField "subject").any (u.normalizeIdent · = subject))

/-- `measure_metric`. -/
def measureMetric (u : Unicode) (metric : MetricSnapshot) (sinceMs : ℤ) : Eng (Option ℚ) :=
  if metric.metric = "tool_error_recurrence" then
    match metric.subject with
    | none => pure none
    | some tool => do
      let tools ← Eng.grainsOfType "tool" none ⟨true, some sinceMs⟩
      let failed := tools.filter fun t => t.toolName = some tool && t.isError &&
        metric.relation.all (normalizeSignature u (t.toolContent.getD "") = ·)
      pure (some failed.length)
  else if metric.metric = "contradiction_recurrence" then
    match metric.subject, metric.relation with
    | some subject, some relation => do
      let facts ← scopedLiveFacts u metric.namespace_ subject
      let own := facts.filter fun f => (f.strField "relation").any (u.normalizeIdent · = relation)
      let distinct := ((own.filterMap (·.strField "object")).map u.normalizeIdent).dedup
      pure (some (distinct.length - 1 : ℕ))
    | _, _ => pure none
  else pure none

/-- The kinds `measure_metric` knows. -/
def MetricSnapshot.KnownKind (metric : MetricSnapshot) : Prop :=
  metric.metric = "tool_error_recurrence" ∨ metric.metric = "contradiction_recurrence"

/-- It is of a known kind and has what that kind is measured by. -/
def MetricSnapshot.measurable (metric : MetricSnapshot) : Bool :=
  if metric.metric = "tool_error_recurrence" then metric.subject.isSome
  else if metric.metric = "contradiction_recurrence" then
    metric.subject.isSome && metric.relation.isSome
  else false

theorem MetricSnapshot.knownKind_of_measurable {metric : MetricSnapshot}
    (h : metric.measurable = true) : metric.KnownKind := by
  unfold measurable at h
  split_ifs at h with htool hfact
  · exact .inl htool
  · exact .inr hfact

theorem scopedLiveFacts_reads (u : Unicode) (ns : Option String) (subject : String) :
    Calls Call.IsRead (scopedLiveFacts u ns subject) :=
  grainsOfType_reads.bind fun _ _ => .pure trivial

theorem measureMetric_reads (u : Unicode) (metric : MetricSnapshot) (sinceMs : ℤ) :
    Calls Call.IsRead (measureMetric u metric sinceMs) := by
  unfold measureMetric
  split_ifs
  · split
    · exact Calls.ret
    · exact grainsOfType_reads.bind fun tools _ => .pure trivial
  · split
    · exact (scopedLiveFacts_reads _ _ _).bind fun facts _ => .pure trivial
    · exact Calls.ret
  · exact Calls.ret

/-- It answers at the metrics that can be measured, and only there. -/
theorem measureMetric_yields (u : Unicode) (metric : MetricSnapshot) (sinceMs : ℤ) :
    Yields Call.IsRead (fun x => x.isSome = metric.measurable)
      (measureMetric u metric sinceMs) := by
  unfold measureMetric MetricSnapshot.measurable
  split_ifs
  · cases metric.subject with
    | none => exact .pure rfl
    | some tool => exact grainsOfType_reads.bind fun tools _ => .pure rfl
  · cases metric.subject with
    | none => exact .pure rfl
    | some subject =>
      cases metric.relation with
      | none => exact .pure rfl
      | some relation =>
        exact (scopedLiveFacts_reads _ _ _).bind fun facts _ => .pure rfl
  · exact .pure rfl

/-- The engine, with the measurements of the loop. -/
def Engine.measuring (E : Engine) : Engine :=
  { E with
    measureMetric := Loop.measureMetric E.host.unicode
    measureMetric_reads := Loop.measureMetric_reads E.host.unicode }

/-! ## What is noted -/

namespace LoopPersisted

/-- The checkpoints of a recommendation that were measured. -/
def measuredAt (p : LoopPersisted) (h : GrainHash) : List ℤ := (p.measured.lookup h).getD []

/-- The outcomes of a recommendation. -/
def outcomesOf (p : LoopPersisted) (h : GrainHash) : List OutcomeResult :=
  (p.outcomes.lookup h).getD []

/-- How many outcomes of a recommendation are for a checkpoint. -/
def resultsAt (p : LoopPersisted) (h : GrainHash) (horizon : ℤ) : ℕ :=
  (p.outcomesOf h).countP (·.horizonMs = horizon)

/-- A recommendation that is applied, with its record and its metric. -/
structure Awaits (p : LoopPersisted) (h : GrainHash) (a : AppliedRecord)
    (metric : MetricSnapshot) : Prop where
  noted : p.applied.lookup h = some a
  status : p.statusIndex.lookup h = some .applied
  metric : a.metric = some metric

/-- The checkpoints of a recommendation that a run measures. -/
def dueAt (p : LoopPersisted) (nowMs : ℤ) (h : GrainHash) : List ℤ :=
  match p.applied.lookup h with
  | none => []
  | some a =>
    if p.statusIndex.lookup h = some .applied then
      match a.metric with
      | none => []
      | some metric =>
        if metric.measurable then metric.horizons.filter fun horizon =>
          horizon ≤ nowMs - a.appliedAtMs ∧ horizon ∉ p.measuredAt h
        else []
    else []

variable {p : LoopPersisted} {o : OutcomeResult} {nowMs : ℤ} {h : GrainHash} {a : AppliedRecord}
  {metric : MetricSnapshot}

theorem addOutcome_measuredAt : (p.addOutcome o).measuredAt h =
    p.measuredAt h ++ if h = o.recHash then [o.horizonMs] else [] := by
  unfold measuredAt addOutcome
  simp only [Sorted.lookup_insert]
  split_ifs with hh
  · rw [hh, Option.getD_some]
  · rw [List.append_nil]

theorem addOutcome_outcomesOf : (p.addOutcome o).outcomesOf h =
    p.outcomesOf h ++ if h = o.recHash then [o] else [] := by
  unfold outcomesOf addOutcome
  simp only [Sorted.lookup_insert]
  split_ifs with hh
  · rw [hh, Option.getD_some]
  · rw [List.append_nil]

theorem dueAt_of_awaits (ha : p.Awaits h a metric) (hm : metric.measurable = true) :
    p.dueAt nowMs h = metric.horizons.filter fun horizon =>
      horizon ≤ nowMs - a.appliedAtMs ∧ horizon ∉ p.measuredAt h := by
  unfold dueAt
  simp only [ha.noted, ha.status, ha.metric, if_true, hm]

theorem dueAt_eq_nil_or (p : LoopPersisted) (nowMs : ℤ) (h : GrainHash) :
    p.dueAt nowMs h = [] ∨ ∃ a metric, p.Awaits h a metric ∧ metric.measurable = true := by
  unfold dueAt
  cases ha : p.applied.lookup h with
  | none => exact .inl rfl
  | some a =>
    simp only
    split_ifs with hs
    · cases hm : a.metric with
      | none => exact .inl rfl
      | some metric =>
        simp only
        split_ifs with hk
        · exact .inr ⟨a, metric, ⟨ha, hs, hm⟩, hk⟩
        · exact .inl rfl
    · exact .inl rfl

end LoopPersisted

/-- The checkpoints of one recommendation among those that are due. -/
def notedOf (h : GrainHash) (due : List (GrainHash × AppliedRecord × MetricSnapshot × ℤ)) :
    List ℤ :=
  (due.filter fun x => x.1 = h && x.2.2.1.measurable).map fun x => x.2.2.2

section Due

variable {S : Substrate U} {E : Engine} {m m' : Memory U} {p p' : LoopPersisted} {nowMs : ℤ}
  {h : GrainHash}

theorem notedOf_append (due due' : List (GrainHash × AppliedRecord × MetricSnapshot × ℤ)) :
    notedOf h (due ++ due') = notedOf h due ++ notedOf h due' := by
  unfold notedOf
  rw [List.filter_append, List.map_append]

theorem notedOf_of_ne {due : List (GrainHash × AppliedRecord × MetricSnapshot × ℤ)}
    (hdue : ∀ x ∈ due, x.1 ≠ h) : notedOf h due = [] := by
  unfold notedOf
  rw [List.filter_eq_nil_iff.2 fun x hx => by simp [hdue x hx], List.map_nil]

/-- What is due of the recommendations of a list, at one of them. -/
theorem notedOf_flatMap {l : List (GrainHash × AppliedRecord)}
    {f : GrainHash × AppliedRecord → List (GrainHash × AppliedRecord × MetricSnapshot × ℤ)}
    (hf : ∀ x, ∀ y ∈ f x, y.1 = x.1) (hl : (l.map Prod.fst).Nodup) :
    notedOf h (l.flatMap f) = ((l.lookup h).map fun a => notedOf h (f (h, a))).getD [] := by
  induction l with
  | nil => rfl
  | cons x l ih =>
    rw [List.map_cons, List.nodup_cons] at hl
    rw [List.flatMap_cons, notedOf_append, ih hl.2, Sorted.lookup_cons_ite]
    split_ifs with hx
    · have hnone : l.lookup h = none := Sorted.lookup_eq_none.2 (hx ▸ hl.1)
      rw [hnone, hx]
      exact List.append_nil _
    · rw [notedOf_of_ne fun y hy => by rw [hf x y hy]; exact fun e => hx e.symm, List.nil_append]

theorem notedOf_dueCheckpoints (hkeys : Sorted.Keys p.applied) :
    notedOf h (dueCheckpoints p nowMs) = p.dueAt nowMs h := by
  unfold dueCheckpoints
  rw [notedOf_flatMap _ hkeys.nodup]
  · unfold LoopPersisted.dueAt
    cases p.applied.lookup h with
    | none => rfl
    | some a =>
      simp only [Option.map_some, Option.getD_some]
      by_cases hs : p.statusIndex.lookup h = some .applied
      · rw [if_neg (not_not.2 hs), if_pos hs]
        cases a.metric with
        | none => rfl
        | some metric =>
          simp only [notedOf, List.filter_map, Function.comp_def, decide_true, Bool.true_and,
            List.map_map, LoopPersisted.measuredAt]
          cases metric.measurable with
          | true =>
            rw [List.filter_true, List.map_id', if_pos rfl]
            rfl
          | false => simp
      · rw [if_pos hs, if_neg hs]
        rfl
  · intro x y hy
    split at hy
    · cases hy
    · split at hy
      · cases hy
      · obtain ⟨t, -, rfl⟩ := List.mem_map.1 hy
        rfl

theorem measureDue_runs {due : List (GrainHash × AppliedRecord × MetricSnapshot × ℤ)}
    {out : List OutcomeInput}
    (hrun : Runs S.Performs (measureDue E.measuring nowMs due p) m (.ok (p', out)) m')
    (h : GrainHash) :
    p'.measuredAt h = p.measuredAt h ++ notedOf h due ∧
      (p'.outcomesOf h).map OutcomeResult.horizonMs =
        (p.outcomesOf h).map OutcomeResult.horizonMs ++ notedOf h due := by
  induction due generalizing p m m' out with
  | nil =>
    obtain ⟨hp, -⟩ := Runs.pure_iff.1 hrun
    cases hp
    exact ⟨(List.append_nil _).symm, (List.append_nil _).symm⟩
  | cons x due ih =>
    obtain ⟨r, a, metric, horizon⟩ := x
    obtain ⟨current, m₁, hcurrent, hrun⟩ := Runs.bind_ok hrun
    have hsome : current.isSome = metric.measurable :=
      hcurrent.yields (measureMetric_yields E.host.unicode metric a.appliedAtMs)
    cases current with
    | none =>
      have hcons : notedOf h ((r, a, metric, horizon) :: due) = notedOf h due := by
        unfold notedOf
        rw [List.filter_cons_of_neg (by simp [← hsome])]
      rw [hcons]
      exact ih hrun
    | some current =>
      obtain ⟨⟨q, out'⟩, m₂, hrest, hend⟩ := Runs.bind_ok hrun
      obtain ⟨hp, -⟩ := Runs.pure_iff.1 hend
      cases hp
      have hcons : notedOf h ((r, a, metric, horizon) :: due) =
          (if h = r then [horizon] else []) ++ notedOf h due := by
        unfold notedOf
        by_cases hr : h = r
        · rw [List.filter_cons_of_pos (by simp [hr, ← hsome]), if_pos hr]
          rfl
        · rw [List.filter_cons_of_neg (by simp [Ne.symm hr]), if_neg hr]
          rfl
      obtain ⟨hmeasured, houtcomes⟩ := ih hrest
      rw [hmeasured, houtcomes, hcons, LoopPersisted.addOutcome_measuredAt,
        LoopPersisted.addOutcome_outcomesOf, List.map_append, List.append_assoc,
        List.append_assoc]
      refine ⟨rfl, ?_⟩
      split_ifs <;> rfl

/-- A run of the measurements notes, of each recommendation, what is due. -/
theorem measureOutcomes_runs {out : List OutcomeInput} (hkeys : Sorted.Keys p.applied)
    (hrun : Runs S.Performs (measureOutcomes E.measuring p nowMs) m (.ok (p', out)) m')
    (h : GrainHash) :
    p'.measuredAt h = p.measuredAt h ++ p.dueAt nowMs h ∧
      (p'.outcomesOf h).map OutcomeResult.horizonMs =
        (p.outcomesOf h).map OutcomeResult.horizonMs ++ p.dueAt nowMs h := by
  rw [← notedOf_dueCheckpoints hkeys]
  exact measureDue_runs hrun h

end Due

/-! ## The steps of a history -/

/-- A loop state with the same measurements. -/
structure LoopPersisted.SameMeasured (p p' : LoopPersisted) : Prop where
  measured : p'.measured = p.measured
  outcomes : p'.outcomes = p.outcomes
  keys : Sorted.Keys p.applied → Sorted.Keys p'.applied

section Steps

variable {S : Substrate U} {E : Engine} {m m' m₀ : Memory U} {p p' q : LoopPersisted} {nowMs : ℤ}
  {h : GrainHash} {by_ : Actor} {opts : RunOptions} {r : Recommendation}

theorem LoopPersisted.SameMeasured.refl (p : LoopPersisted) : p.SameMeasured p :=
  ⟨rfl, rfl, id⟩

theorem LoopPersisted.SameMeasured.trans (h : p.SameMeasured p') (h' : p'.SameMeasured q) :
    p.SameMeasured q :=
  ⟨h'.measured.trans h.measured, h'.outcomes.trans h.outcomes, fun hk => h'.keys (h.keys hk)⟩

theorem LoopPersisted.sameMeasured_advance (p : LoopPersisted) (h : GrainHash) (to_ : RecStatus)
    (head : GrainHash) : p.SameMeasured (p.advance h to_ head) := ⟨rfl, rfl, id⟩

theorem LoopPersisted.sameMeasured_setApplied (p : LoopPersisted) (h : GrainHash)
    (a : AppliedRecord) : p.SameMeasured (p.setApplied h a) :=
  ⟨rfl, rfl, fun hk => Sorted.keys_insert hk⟩

theorem LoopPersisted.sameMeasured_enter (p : LoopPersisted) (h : GrainHash) (r : Recommendation)
    (trigger : Option String) (head : GrainHash) : p.SameMeasured (p.enter h r trigger head) :=
  ⟨rfl, rfl, id⟩

theorem SameLoop.sameMeasured (hm : SameLoop m m') : m.state.SameMeasured m'.state := by
  rw [hm.state]
  exact .refl _

theorem Records.sameMeasured {α : Type} {a : AuditRecord} {v : α} {x : Except Error α}
    (hrec : Records S a q v m x m') (hm : m₀.state.SameMeasured m.state)
    (hq : m₀.state.SameMeasured q) : m₀.state.SameMeasured m'.state := by
  cases hrec with
  | refused e => exact hm
  | unlinked e =>
    rw [Memory.addAudit_state]
    exact hm
  | done => exact hq

theorem review_measured {d : Decision} {x : Except Error Unit}
    (hrun : Runs S.Performs (review E h d by_) m x m') : m.state.SameMeasured m'.state := by
  rcases review_runs hrun with ⟨e, -, rfl⟩ | ⟨because, hfrom⟩
  · exact .refl _
  rcases reviewFrom_runs hfrom with ⟨e, -, rfl⟩ | ⟨status, -, q, hq, hrec⟩
  · exact .refl _
  refine hrec.sameMeasured (.refl _) ?_
  rw [hq.eq]
  exact ⟨rfl, rfl, id⟩

theorem rollback_measured (hS : S.SparesLoop) {x : Except Error Unit}
    (hrun : Runs S.Performs (rollback E h by_) m x m') : m.state.SameMeasured m'.state := by
  rcases rollback_runs hrun with ⟨e, -, rfl⟩ | ⟨because, -, -, hfrom⟩
  · exact .refl _
  rcases rollbackFrom_runs hfrom with ⟨e, -, rfl⟩ | ⟨status, applied, -, y, m₁, hretract, hend⟩
  · exact .refl _
  have hsame := (retractAll_loop hS hretract).sameMeasured
  rcases hend with ⟨e, -, -, rfl⟩ | ⟨-, hrec⟩
  · exact hsame
  · exact hrec.sameMeasured hsame (LoopPersisted.sameMeasured_advance _ _ _ _)

theorem apply_measured (hS : S.SparesLoop) {allowDestructive : Bool}
    {x : Except Error AppliedRecord}
    (hrun : Runs S.Performs (apply E h by_ allowDestructive) m x m') :
    m.state.SameMeasured m'.state := by
  rcases apply_runs hrun with ⟨e, -, rfl⟩ | ⟨because, -, -, hfrom⟩
  · exact .refl _
  rcases applyFrom_runs hfrom with ⟨e, -, rfl⟩ | ⟨status, r, -, y, m₁, hexecute, hend⟩
  · exact .refl _
  have hexecuted := execute_runs hexecute
  have hsame : m.state.SameMeasured m₁.state := by
    generalize r.proposal = proposal at hexecuted
    cases hexecuted with
    | ran hcal => exact (hS.executes _ _ _ _ hcal).sameMeasured
    | broke hcal => exact (hS.executes _ _ _ _ hcal).sameMeasured
    | advisory => exact .refl _
    | reverted ht hback => exact rollback_measured hS hback
    | unread e ht hback => exact rollback_measured hS hback
    | stuck ht hback => exact rollback_measured hS hback
  rcases hend with ⟨e, -, -, rfl⟩ | ⟨created, p, rfl, hrec⟩
  · exact hsame
  · have hp : m.state.SameMeasured p := by
      generalize r.proposal = proposal at hexecuted
      cases hexecuted with
      | ran hcal => exact .refl _
      | reverted ht hback => exact rollback_measured hS hback
    exact hrec.sameMeasured hsame ((hp.trans (p.sameMeasured_advance _ _ _)).trans
      (LoopPersisted.sameMeasured_setApplied _ _ _))

/-! ### A run -/

theorem StoresOne.sameMeasured {applied : Bool}
    (hone : StoresOne E S opts nowMs p r m (.ok (p', applied)) m') : p.SameMeasured p' := by
  cases hone with
  | pending => exact p.sameMeasured_enter _ _ _ _
  | applied created hgranted hsame =>
    exact ((p.sameMeasured_enter _ _ _ _).trans (LoopPersisted.sameMeasured_advance _ _ _ _)).trans
      (LoopPersisted.sameMeasured_setApplied _ _ _)

theorem StoresAll.sameMeasured {rs : List Recommendation} {n : ℕ}
    (hall : StoresAll E S opts nowMs p rs m (.ok (p', n)) m') : p.SameMeasured p' := by
  generalize hy : (Except.ok (p', n) : Except Error (LoopPersisted × ℕ)) = y at hall
  induction hall generalizing p' n with
  | nil p m =>
    cases hy
    exact .refl _
  | stop hone => cases hy
  | @cons p p₁ applied r rs m m₁ m' y hone hs ih =>
    cases y with
    | error e => cases hy
    | ok z =>
      cases hy
      exact hone.sameMeasured.trans (ih rfl)

/-- What a run does to the measurements. -/
inductive RunMeasures (E : Engine) (S : Substrate U) (nowMs : ℤ) (m : Memory U) :
    Except Error RunResult → Memory U → Prop
  /-- It failed or was skipped, and its state was not stored. -/
  | idle {x : Except Error RunResult} {m' : Memory U} (hstate : m'.state = m.state)
      (hx : ∀ res, x = .ok res → res.skipReason ≠ none) : RunMeasures E S nowMs m x m'
  /-- It measured what was due and stored the state. -/
  | measured {res : RunResult} {p : LoopPersisted} {out : List OutcomeInput} {m' : Memory U}
      (hres : res.skipReason = none)
      (hmeasure : Runs S.Performs (measureOutcomes E m.state nowMs) m (.ok (p, out)) m)
      (hsame : p.SameMeasured m'.state) : RunMeasures E S nowMs m (.ok res) m'

theorem run_measures (hS : S.SparesLoop) {x : Except Error RunResult}
    (h : Runs S.Performs (run E opts nowMs) m x m') : RunMeasures E S nowMs m x m' := by
  have hfailed : ∀ {e : Error} {m' : Memory U}, m'.state = m.state →
      RunMeasures E S nowMs m (.error e) m' := fun hstate => .idle hstate fun _ h => nomatch h
  rcases Eng.loadState_bind h with ⟨e, rfl, rfl⟩ | h
  · exact hfailed rfl
  rcases Runs.bind_iff.1 h with ⟨e, hcount, rfl⟩ | ⟨⟨newGrains, newErrors⟩, m₁, hcount, h⟩
  · exact hfailed (congrArg Memory.state (reads_idle (countNew_reads _) hcount))
  obtain rfl := reads_idle (countNew_reads _) hcount
  simp only at h
  split at h
  · obtain ⟨rfl, rfl⟩ := Runs.pure_iff.1 h
    exact .idle rfl fun res hres => by cases hres; simp
  rcases Runs.bind_iff.1 h with ⟨e, hmeasure, rfl⟩ | ⟨⟨p, outcomes⟩, m₂, hmeasure, h⟩
  · exact hfailed (congrArg Memory.state (reads_idle (measureOutcomes_yields _).calls hmeasure))
  obtain rfl := reads_idle (measureOutcomes_yields _).calls hmeasure
  rcases Runs.bind_iff.1 h with ⟨e, hpass, rfl⟩ | ⟨pass, m₃, hpass, hrest⟩
  · exact hfailed (congrArg Memory.state (reads_idle analysisPass_yields.calls hpass))
  obtain rfl := (analysisPass_runs hpass).1
  rcases Runs.bind_iff.1 hrest with ⟨e, hall, rfl⟩ | ⟨⟨p', n⟩, m₄, hall, hend⟩
  · exact hfailed (storeAll_runs hS hall).state
  have hall := storeAll_runs hS hall
  rcases Runs.bind_iff.1 hend with ⟨e, hstore, rfl⟩ | ⟨u, m₅, hstore, hend⟩
  · rcases Eng.storeState_runs hstore with ⟨⟨⟩, -⟩ | ⟨e', -, rfl⟩
    exact hfailed hall.state
  rcases Eng.storeState_runs hstore with ⟨-, rfl⟩ | ⟨e', ⟨⟩, -⟩
  obtain ⟨rfl, rfl⟩ := Runs.pure_iff.1 hend
  exact .measured rfl hmeasure (hall.sameMeasured.trans ⟨rfl, rfl, id⟩)

/-! ## Histories -/

/-- Every checkpoint that a run at this time would measure stands once in its schedule,
and a metric of a known kind has what its kind is measured by. -/
def LoopPersisted.SoundAt (p : LoopPersisted) (nowMs : ℤ) : Prop :=
  ∀ h a metric, p.Awaits h a metric → metric.KnownKind → ∀ t ∈ metric.horizons,
    t ≤ nowMs - a.appliedAtMs → t ∉ p.measuredAt h →
      metric.measurable = true ∧ metric.horizons.count t = 1

/-- A step of a history; what a run that completes finds due is sound. -/
def MeasuringStep (S : Substrate U) (m m' : Memory U) : Prop :=
  ∃ E op x, Runs S.Performs (LoopOp.prog (Engine.measuring E) op) m x m' ∧
    ∀ opts nowMs res, op = .run opts nowMs →
      Runs S.Performs (run (Engine.measuring E) opts nowMs) m (.ok res) m' →
        res.skipReason = none → m.state.SoundAt nowMs

/-- A memory in which nothing was measured. -/
structure Unmeasured (m : Memory U) : Prop where
  keys : Sorted.Keys m.state.applied
  measured : m.state.measured = []
  outcomes : m.state.outcomes = []

/-- The outcomes are those of the checkpoints that were measured, each once. -/
structure LoopPersisted.Tallied (p : LoopPersisted) : Prop where
  keys : Sorted.Keys p.applied
  same : ∀ h, (p.outcomesOf h).map OutcomeResult.horizonMs = p.measuredAt h
  once : ∀ h, (p.measuredAt h).Nodup

theorem LoopPersisted.resultsAt_eq (p : LoopPersisted) (h : GrainHash) (t : ℤ) :
    p.resultsAt h t = ((p.outcomesOf h).map OutcomeResult.horizonMs).count t := by
  rw [List.count_eq_countP, List.countP_map]
  exact List.countP_congr fun o _ => by simp

theorem LoopPersisted.Tallied.resultsAt (hp : p.Tallied) (h : GrainHash) (t : ℤ) :
    p.resultsAt h t = (p.measuredAt h).count t := by
  rw [LoopPersisted.resultsAt_eq, hp.same h]

theorem LoopPersisted.SameMeasured.measuredAt (hp : p.SameMeasured p') (h : GrainHash) :
    p'.measuredAt h = p.measuredAt h := by
  unfold LoopPersisted.measuredAt
  rw [hp.measured]

theorem LoopPersisted.SameMeasured.tallied (hp : p.SameMeasured p') (ht : p.Tallied) :
    p'.Tallied := by
  refine ⟨hp.keys ht.keys, fun h => ?_, fun h => ?_⟩
  · rw [hp.measuredAt, ← ht.same h]
    unfold LoopPersisted.outcomesOf
    rw [hp.outcomes]
  · rw [hp.measuredAt]
    exact ht.once h

theorem Unmeasured.tallied (hm : Unmeasured m) : m.state.Tallied := by
  have hmeasured : ∀ h, m.state.measuredAt h = [] := fun h => by
    unfold LoopPersisted.measuredAt
    rw [hm.measured]
    rfl
  refine ⟨hm.keys, fun h => ?_, fun h => ?_⟩
  · rw [hmeasured]
    unfold LoopPersisted.outcomesOf
    rw [hm.outcomes]
    rfl
  · rw [hmeasured]
    exact List.nodup_nil

theorem LoopPersisted.SoundAt.nodup_dueAt (hp : p.SoundAt nowMs) (h : GrainHash) :
    (p.dueAt nowMs h).Nodup := by
  rcases p.dueAt_eq_nil_or nowMs h with hnil | ⟨a, metric, ha, hm⟩
  · rw [hnil]
    exact List.nodup_nil
  · rw [LoopPersisted.dueAt_of_awaits ha hm, List.nodup_iff_count_le_one]
    intro t
    by_cases ht : t ∈ metric.horizons.filter fun horizon =>
        horizon ≤ nowMs - a.appliedAtMs ∧ horizon ∉ p.measuredAt h
    · obtain ⟨hmem, hdue⟩ := List.mem_filter.1 ht
      have hdue := of_decide_eq_true hdue
      have hone := (hp h a metric ha (MetricSnapshot.knownKind_of_measurable hm) t hmem
        hdue.1 hdue.2).2
      exact (List.filter_sublist.count_le t).trans hone.le
    · rw [List.count_eq_zero_of_not_mem ht]
      exact Nat.zero_le 1

theorem LoopPersisted.not_measured_of_mem_dueAt {t : ℤ} (ht : t ∈ p.dueAt nowMs h) :
    t ∉ p.measuredAt h := by
  rcases p.dueAt_eq_nil_or nowMs h with hnil | ⟨a, metric, ha, hm⟩
  · rw [hnil] at ht
    cases ht
  · rw [LoopPersisted.dueAt_of_awaits ha hm] at ht
    exact (of_decide_eq_true (List.mem_filter.1 ht).2).2

/-- A run that measured keeps the tally where what it found due is sound. -/
theorem measured_tallied {out : List OutcomeInput} (ht : m.state.Tallied)
    (hmeasure : Runs S.Performs (measureOutcomes E.measuring m.state nowMs) m (.ok (p, out)) m)
    (hkeys : Sorted.Keys p.applied) (hsound : m.state.SoundAt nowMs) : p.Tallied := by
  have hnoted := measureOutcomes_runs ht.keys hmeasure
  refine ⟨hkeys, fun h => ?_, fun h => ?_⟩
  · rw [(hnoted h).1, (hnoted h).2, ht.same h]
  · rw [(hnoted h).1]
    refine List.nodup_append.2 ⟨ht.once h, hsound.nodup_dueAt h, fun t hold t' hnew heq => ?_⟩
    exact LoopPersisted.not_measured_of_mem_dueAt hnew (heq ▸ hold)

/-- A loop state with a tally that holds at least what another has measured. -/
structure LoopPersisted.TalliedFrom (p p' : LoopPersisted) : Prop where
  tallied : p'.Tallied
  keeps : ∀ h, ∀ t ∈ p.measuredAt h, t ∈ p'.measuredAt h

theorem LoopPersisted.SameMeasured.talliedFrom (hp : p.SameMeasured p') (ht : p.Tallied) :
    p.TalliedFrom p' :=
  ⟨hp.tallied ht, fun h t hmem => by rwa [hp.measuredAt]⟩

/-- A run that fails leaves the loop state alone. -/
theorem run_failed_state (hS : S.SparesLoop) {e : Error}
    (hrun : Runs S.Performs (run E opts nowMs) m (.error e) m') : m'.state = m.state := by
  cases run_measures hS hrun with
  | idle hstate _ => exact hstate

theorem run_tallied (hS : S.SparesLoop) {x : Except Error RunResult} (ht : m.state.Tallied)
    (hrun : Runs S.Performs (run E.measuring opts nowMs) m x m')
    (hsound : ∀ res, x = .ok res → res.skipReason = none → m.state.SoundAt nowMs) :
    m.state.TalliedFrom m'.state := by
  cases run_measures hS hrun with
  | idle hstate hx =>
    rw [hstate]
    exact ⟨ht, fun h t hmem => hmem⟩
  | @measured res p out m' hres hmeasure hsame =>
    have hkeys : Sorted.Keys p.applied := by
      have hfrom : m.state.MeasuredFrom p := hmeasure.yields (measureOutcomes_yields _)
      rw [hfrom.eq]
      exact ht.keys
    have hp := measured_tallied ht hmeasure hkeys (hsound _ rfl hres)
    refine ⟨hsame.tallied hp, fun h t hmem => ?_⟩
    rw [hsame.measuredAt, (measureOutcomes_runs ht.keys hmeasure h).1]
    exact List.mem_append_left _ hmem

theorem MeasuringStep.talliedFrom (hS : S.SparesLoop) (hstep : MeasuringStep S m m')
    (ht : m.state.Tallied) : m.state.TalliedFrom m'.state := by
  obtain ⟨E, op, x, hrun, hsound⟩ := hstep
  cases op with
  | run opts nowMs =>
    rcases Runs.bind_iff.1 hrun with ⟨e, hrun, -⟩ | ⟨res, m₁, hrun, hend⟩
    · exact run_tallied hS ht hrun fun _ h => nomatch h
    · obtain ⟨-, rfl⟩ := Runs.pure_iff.1 hend
      exact run_tallied hS ht hrun fun res' heq hres =>
        hsound opts nowMs res' rfl (heq ▸ hrun) hres
  | review h d by_ => exact (review_measured hrun).talliedFrom ht
  | apply h by_ allowDestructive =>
    rcases Runs.bind_iff.1 hrun with ⟨e, hrun, -⟩ | ⟨res, m₁, hrun, hend⟩
    · exact (apply_measured hS hrun).talliedFrom ht
    · obtain ⟨-, rfl⟩ := Runs.pure_iff.1 hend
      exact (apply_measured hS hrun).talliedFrom ht
  | rollback h by_ => exact (rollback_measured hS hrun).talliedFrom ht

theorem history_tallied (hS : S.SparesLoop) (hm : Relation.ReflTransGen (MeasuringStep S) m m')
    (ht : m.state.Tallied) : m.state.TalliedFrom m'.state := by
  induction hm with
  | refl => exact ⟨ht, fun h t hmem => hmem⟩
  | tail _ hstep ih =>
    have hnext := hstep.talliedFrom hS ih.tallied
    exact ⟨hnext.tallied, fun h t hmem => hnext.keeps h t (ih.keeps h t hmem)⟩

/-- A run that completes measures what has come due. -/
theorem run_completes (hS : S.SparesLoop) {res : RunResult} (ht : m.state.Tallied)
    (hrun : Runs S.Performs (run E.measuring opts nowMs) m (.ok res) m')
    (hres : res.skipReason = none) (hsound : m.state.SoundAt nowMs) {a : AppliedRecord}
    {metric : MetricSnapshot} (ha : m.state.Awaits h a metric) (hkind : metric.KnownKind) {t : ℤ}
    (hmem : t ∈ metric.horizons) (hdue : a.appliedAtMs + t ≤ nowMs) :
    t ∈ m'.state.measuredAt h := by
  cases run_measures hS hrun with
  | idle hstate hx => exact absurd hres (hx res rfl)
  | measured _ hmeasure hsame =>
    rw [hsame.measuredAt, (measureOutcomes_runs ht.keys hmeasure h).1]
    by_cases hold : t ∈ m.state.measuredAt h
    · exact List.mem_append_left _ hold
    · have hdue : t ≤ nowMs - a.appliedAtMs := by omega
      have hm := (hsound h a metric ha hkind t hmem hdue hold).1
      rw [LoopPersisted.dueAt_of_awaits ha hm]
      exact List.mem_append_right _ (List.mem_filter.2 ⟨hmem, decide_eq_true ⟨hdue, hold⟩⟩)

/-- **Every checkpoint is measured once.**  No history whose completed runs find sound
schedules has two outcomes for one checkpoint; one is there from the first run that
completes at or after it while the recommendation is applied; and a run that fails
leaves the loop state alone. -/
theorem checkpoints_measured_once (S : Substrate U) (hS : S.SparesLoop) (m₀ m : Memory U)
    (h₀ : Unmeasured m₀) (hm : Relation.ReflTransGen (MeasuringStep S) m₀ m) :
    (∀ h t, m.state.resultsAt h t ≤ 1) ∧
    (∀ (E : Engine) (opts : RunOptions) (nowMs : ℤ) (res : RunResult) (m₁ m' : Memory U),
      Runs S.Performs (run E.measuring opts nowMs) m (.ok res) m₁ → res.skipReason = none →
      m.state.SoundAt nowMs → Relation.ReflTransGen (MeasuringStep S) m₁ m' →
        ∀ h a metric t, m.state.Awaits h a metric → metric.KnownKind → t ∈ metric.horizons →
          a.appliedAtMs + t ≤ nowMs → m'.state.resultsAt h t = 1) ∧
    ∀ (E : Engine) (opts : RunOptions) (nowMs : ℤ) (e : Error) (m' : Memory U),
      Runs S.Performs (run E.measuring opts nowMs) m (.error e) m' → m'.state = m.state := by
  have ht := (history_tallied hS hm h₀.tallied).tallied
  refine ⟨fun h t => ?_, ?_, fun E opts nowMs e m' hrun => ?_⟩
  · rw [ht.resultsAt]
    exact List.nodup_iff_count_le_one.1 (ht.once h) t
  · intro E opts nowMs res m₁ m' hrun hres hsound hrest h a metric t ha hkind hmem hdue
    have hfirst := run_tallied hS ht hrun fun _ _ _ => hsound
    have hlast := history_tallied hS hrest hfirst.tallied
    rw [hlast.tallied.resultsAt]
    exact List.count_eq_one_of_mem (hlast.tallied.once h)
      (hlast.keeps h t (run_completes hS ht hrun hres hsound ha hkind hmem hdue))
  · exact run_failed_state hS hrun

end Steps

/-! ### On fixed schedules -/

/-- The recurrence of an error, measured by a schedule. -/
def recurrence (horizonsMs : List ℤ) : MetricSnapshot where
  metric := "tool_error_recurrence"
  baseline := 0
  unit := "errors"
  n := 1
  window := "run"
  subject := some "deploy"
  namespace_ := none
  relation := none
  query := ""
  reviewAfterMs := 5
  horizonsMs := horizonsMs

/-- A memory with one applied recommendation. -/
def appliedMemory (horizonsMs : List ℤ) : Memory Unit :=
  { untouched with
    state := { LoopPersisted.empty with
      statusIndex := [("r", .applied)]
      applied := [("r", ⟨0, "entity:a/b", true, [], some (recurrence horizonsMs)⟩)] } }

/-- The substrate they run on. -/
def scheduleSubstrate : Substrate Unit := plainSubstrate (fun _ => "r") fun a => a.to_.asStr

theorem appliedMemory_unmeasured (horizonsMs : List ℤ) : Unmeasured (appliedMemory horizonsMs) :=
  ⟨List.pairwise_singleton _ _, rfl, rfl⟩

theorem appliedMemory_awaits (horizonsMs : List ℤ) :
    (appliedMemory horizonsMs).state.Awaits "r"
      ⟨0, "entity:a/b", true, [], some (recurrence horizonsMs)⟩ (recurrence horizonsMs) :=
  ⟨rfl, rfl, rfl⟩

theorem recurrence_horizons {horizonsMs : List ℤ} (h : horizonsMs ≠ []) :
    (recurrence horizonsMs).horizons.Perm horizonsMs := by
  unfold MetricSnapshot.horizons
  rw [if_neg (by simpa [recurrence] using h)]
  exact List.mergeSort_perm _ _

theorem measureMetric_scheduled (metric : MetricSnapshot) (sinceMs : ℤ) (m : Memory Unit) :
    ∃ current, Runs scheduleSubstrate.Performs
      (bareEngine.measuring.measureMetric metric sinceMs) m (.ok current) m := by
  show ∃ current, Runs scheduleSubstrate.Performs (measureMetric _ metric sinceMs) m _ m
  unfold measureMetric
  split_ifs
  · cases metric.subject with
    | none => exact ⟨_, .ret _ _⟩
    | some tool => exact ⟨_, plain_runs _ m⟩
  · cases metric.subject with
    | none => exact ⟨_, .ret _ _⟩
    | some subject =>
      cases metric.relation with
      | none => exact ⟨_, .ret _ _⟩
      | some relation => exact ⟨_, plain_runs _ m⟩
  · exact ⟨_, .ret _ _⟩

theorem measureDue_scheduled (due : List (GrainHash × AppliedRecord × MetricSnapshot × ℤ))
    (p : LoopPersisted) (m : Memory Unit) :
    ∃ x, Runs scheduleSubstrate.Performs (measureDue bareEngine.measuring 10 due p) m (.ok x)
      m := by
  induction due generalizing p with
  | nil => exact ⟨_, .ret _ _⟩
  | cons x due ih =>
    obtain ⟨r, a, metric, horizon⟩ := x
    obtain ⟨current, hcurrent⟩ := measureMetric_scheduled metric a.appliedAtMs m
    cases current with
    | none =>
      obtain ⟨x, hrest⟩ := ih p
      exact ⟨x, Runs.bind hcurrent hrest⟩
    | some current =>
      obtain ⟨x, hrest⟩ := ih (p.addOutcome ⟨r, metric.metric, metric.baseline, current,
        if metric.baseline + 1 / 2 ^ 52 < current then "regressed" else "held", horizon, 10⟩)
      exact ⟨_, Runs.bind hcurrent (Runs.bind hrest (.ret _ _))⟩

/-- A run at 10 on that memory completes. -/
theorem scheduled_run (horizonsMs : List ℤ) : ∃ res m',
    Runs scheduleSubstrate.Performs (run bareEngine.measuring openOptions 10)
      (appliedMemory horizonsMs) (.ok res) m' ∧ res.skipReason = none := by
  obtain ⟨⟨p, out⟩, hmeasure⟩ := measureDue_scheduled
    (dueCheckpoints (appliedMemory horizonsMs).state 10) (appliedMemory horizonsMs).state
    (appliedMemory horizonsMs)
  have hcount : Runs scheduleSubstrate.Performs (countNew none) (appliedMemory horizonsMs)
      (.ok (0, 0)) (appliedMemory horizonsMs) := plain_runs _ _
  have hpass : Runs scheduleSubstrate.Performs
      (analysisPass bareEngine.measuring p openOptions none 10 out) (appliedMemory horizonsMs)
        (.ok ⟨[], 0, 0, [], []⟩) (appliedMemory horizonsMs) := plain_runs _ _
  have hload : Runs scheduleSubstrate.Performs Eng.loadState (appliedMemory horizonsMs)
      (.ok (appliedMemory horizonsMs).state) (appliedMemory horizonsMs) := plain_runs _ _
  have hfrom : Runs scheduleSubstrate.Performs (runFrom bareEngine.measuring openOptions 10
      (appliedMemory horizonsMs).state 0 0) (appliedMemory horizonsMs) _ _ :=
    Runs.bind hmeasure (Runs.bind hpass (plain_runs _ _))
  exact ⟨_, _, Runs.bind hload (Runs.bind hcount hfrom), rfl⟩

theorem checkpoints_measured_once_scheduled : ∃ m', (∃ res,
    Runs scheduleSubstrate.Performs (run bareEngine.measuring openOptions 10) (appliedMemory [5])
      (.ok res) m') ∧ m'.state.resultsAt "r" 5 = 1 := by
  obtain ⟨res, m', hrun, hskip⟩ := scheduled_run [5]
  refine ⟨m', ⟨res, hrun⟩, ?_⟩
  have hhorizons := recurrence_horizons (List.cons_ne_nil (5 : ℤ) [])
  refine (checkpoints_measured_once scheduleSubstrate plain_spares _ _
    (appliedMemory_unmeasured [5]) .refl).2.1 bareEngine openOptions 10 res _ _ hrun hskip ?_ .refl
    "r" _ _ 5 (appliedMemory_awaits [5]) (.inl rfl) (hhorizons.mem_iff.2 (List.mem_singleton.2 rfl))
    (by decide)
  intro h a metric ha _ t ht _ _
  have hh : h = "r" := by
    by_contra hne
    have hnone : (appliedMemory [5]).state.applied.lookup h = none :=
      Sorted.lookup_eq_none.2 (by simpa [appliedMemory] using hne)
    rw [ha.noted] at hnone
    cases hnone
  subst hh
  have ha' := ha.noted
  cases Option.some.inj ha'
  cases ha.metric
  refine ⟨rfl, ?_⟩
  rw [hhorizons.count_eq, List.mem_singleton.1 (hhorizons.mem_iff.1 ht)]
  rfl

/-- **A horizon that stands twice in a schedule is measured twice.** -/
theorem repeated_horizon_measured_twice :
    ¬∀ (U : Type) (S : Substrate U) (m m' : Memory U) (E : Engine) (opts : RunOptions)
      (nowMs : ℤ) (res : RunResult), S.SparesLoop → Unmeasured m →
        Runs S.Performs (run E.measuring opts nowMs) m (.ok res) m' →
          ∀ h t, m'.state.resultsAt h t ≤ 1 := by
  intro h
  obtain ⟨res, m', hrun, hskip⟩ := scheduled_run [5, 5]
  have hle := h Unit scheduleSubstrate _ _ _ _ _ _ plain_spares (appliedMemory_unmeasured [5, 5])
    hrun "r" 5
  have hunmeasured := appliedMemory_unmeasured [5, 5]
  cases run_measures plain_spares hrun with
  | idle _ hx => exact hx res rfl hskip
  | @measured _ p out _ _ hmeasure hsame =>
    have hresults := (measureOutcomes_runs hunmeasured.keys hmeasure "r").2
    have hsome : (5 : ℤ) ≤ 10 - 0 ∧ (5 : ℤ) ∉ (appliedMemory [5, 5]).state.measuredAt "r" :=
      ⟨by decide, List.not_mem_nil⟩
    rw [LoopPersisted.resultsAt_eq, LoopPersisted.outcomesOf, hsame.outcomes,
      ← LoopPersisted.outcomesOf, hresults, LoopPersisted.dueAt_of_awaits (appliedMemory_awaits _)
        rfl, List.count_append, List.count_filter,
      (recurrence_horizons (List.cons_ne_nil (5 : ℤ) [5])).count_eq] at hle
    · exact absurd (le_trans (Nat.le_add_left _ _) hle) (by decide)
    · exact decide_eq_true hsome

end Deja.Loop
