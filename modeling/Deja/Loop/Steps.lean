import Deja.Loop.Reading

/-!
# What the operations do

One lemma an operation: how a run of it ends, in terms of the memory it started
from.  Each either writes nothing, or has passed its gates and goes on to its
writes, the audit record and the loop state last (`Records`).
-/

namespace Deja.Loop

open Prog

variable {U : Type} {S : Substrate U} {m m' : Memory U}

/-! ## Single calls -/

theorem Eng.loadState_runs {x : Except Error LoopPersisted}
    (h : Runs S.Performs Eng.loadState m x m') :
    m' = m ∧ (x = .ok m.state ∨ ∃ e, x = .error e) := Runs.ask_iff.1 h

/-- What follows a `load_state` goes on from the stored state. -/
theorem Eng.loadState_bind {α : Type} {f : LoopPersisted → Eng α} {x : Except Error α}
    (h : Runs S.Performs (Eng.loadState >>= f) m x m') :
    (∃ e, x = .error e ∧ m' = m) ∨ Runs S.Performs (f m.state) m x m' := by
  rcases Runs.bind_iff.1 h with ⟨e, hload, rfl⟩ | ⟨p, m₁, hload, h⟩
  · exact .inl ⟨e, rfl, (Eng.loadState_runs hload).1⟩
  · obtain ⟨rfl, hp⟩ := Eng.loadState_runs hload
    rcases hp with hp | ⟨e, he⟩
    · cases hp
      exact .inr h
    · cases he

theorem Eng.recommendations_runs {x : Except Error (List (GrainHash × Recommendation))}
    (h : Runs S.Performs Eng.recommendations m x m') :
    m' = m ∧ (x = .ok m.recs ∨ ∃ e, x = .error e) := Runs.ask_iff.1 h

theorem Eng.loadRec_runs {h : GrainHash} {x : Except Error Recommendation}
    (hrun : Runs S.Performs (Eng.loadRec h) m x m') :
    m' = m ∧ ((∃ r, x = .ok r ∧ m.recs.lookup h = some r) ∨ ∃ e, x = .error e) := by
  obtain ⟨reply, m₁, hread, hk⟩ := Runs.call_iff.1 hrun
  obtain ⟨rfl, rfl | ⟨e, rfl⟩⟩ := hread
  · cases hr : m₁.recs.lookup h with
    | none =>
      rw [hr] at hk
      obtain ⟨rfl, rfl⟩ := Runs.ret_iff.1 hk
      exact ⟨rfl, .inr ⟨_, rfl⟩⟩
    | some r =>
      rw [hr] at hk
      obtain ⟨rfl, rfl⟩ := Runs.ret_iff.1 hk
      exact ⟨rfl, .inl ⟨r, rfl, rfl⟩⟩
  · obtain ⟨rfl, rfl⟩ := Runs.ret_iff.1 hk
    exact ⟨rfl, .inr ⟨_, rfl⟩⟩

theorem Eng.putRec_runs {r : Recommendation} {x : Except Error GrainHash}
    (h : Runs S.Performs (Eng.putRec r) m x m') :
    (x = .ok (S.recHash r) ∧ m' = m.addRec (S.recHash r) r) ∨ ∃ e, x = .error e ∧ m' = m :=
  Runs.ask_iff.1 h

theorem Eng.putAudit_runs {a : AuditRecord} {x : Except Error GrainHash}
    (h : Runs S.Performs (Eng.putAudit a) m x m') :
    (x = .ok (S.auditHash a) ∧ m' = m.addAudit (S.auditHash a) a) ∨ ∃ e, x = .error e ∧ m' = m :=
  Runs.ask_iff.1 h

theorem Eng.storeState_runs {p : LoopPersisted} {x : Except Error Unit}
    (h : Runs S.Performs (Eng.storeState p) m x m') :
    (x = .ok () ∧ m' = { m with state := p }) ∨ ∃ e, x = .error e ∧ m' = m :=
  Runs.ask_iff.1 h

theorem Eng.executeCal_runs {text : String} {x : Except Error (List (Option GrainHash))}
    (h : Runs S.Performs (Eng.executeCal text) m x m') : S.executes text m x m' :=
  Runs.ask_iff.1 h

theorem Eng.retract_runs {h : GrainHash} {reason : String} {x : Except Error Unit}
    (hrun : Runs S.Performs (Eng.retract h reason) m x m') : S.retracts h m x m' :=
  Runs.ask_iff.1 hrun

/-- A program of reads leaves the memory alone. -/
theorem reads_idle {α : Type} {p : Eng α} {x : Except Error α} (hp : Calls Call.IsRead p)
    (h : Runs S.Performs p m x m') : m' = m :=
  h.idle hp fun _ _ _ _ hc hperform => hperform.idle hc

/-! ## The record and the state -/

/-- How a transition ends from `m`: the record or the state could not be written,
or both were; `p` is the state for the address of the record. -/
inductive Records (S : Substrate U) (a : AuditRecord) (q : LoopPersisted) {α : Type} (v : α)
    (m : Memory U) : Except Error α → Memory U → Prop
  | refused (e : Error) : Records S a q v m (.error e) m
  | unlinked (e : Error) : Records S a q v m (.error e) (m.addAudit (S.auditHash a) a)
  | done : Records S a q v m (.ok v) { m.addAudit (S.auditHash a) a with state := q }

theorem records_runs {α : Type} {a : AuditRecord} {q : GrainHash → LoopPersisted} {v : α}
    {x : Except Error α}
    (h : Runs S.Performs (do
      let head ← Eng.putAudit a
      Eng.storeState (q head)
      pure v) m x m') : Records S a (q (S.auditHash a)) v m x m' := by
  rcases Runs.bind_iff.1 h with ⟨e, hput, rfl⟩ | ⟨head, m₁, hput, h⟩
  · rcases Eng.putAudit_runs hput with ⟨⟨⟩, -⟩ | ⟨e', -, rfl⟩
    exact .refused e
  rcases Eng.putAudit_runs hput with ⟨hhead, rfl⟩ | ⟨e', ⟨⟩, -⟩
  cases hhead
  rcases Runs.bind_iff.1 h with ⟨e, hstore, rfl⟩ | ⟨u, m₂, hstore, h⟩
  · rcases Eng.storeState_runs hstore with ⟨⟨⟩, -⟩ | ⟨e', -, rfl⟩
    exact .unlinked e
  · rcases Eng.storeState_runs hstore with ⟨-, rfl⟩ | ⟨e', ⟨⟩, -⟩
    obtain ⟨rfl, rfl⟩ := Runs.pure_iff.1 h
    exact .done

theorem records_runs_unit {a : AuditRecord} {q : GrainHash → LoopPersisted} {x : Except Error Unit}
    (h : Runs S.Performs (do
      let head ← Eng.putAudit a
      Eng.storeState (q head)) m x m') : Records S a (q (S.auditHash a)) () m x m' := by
  refine records_runs (q := q) (v := ()) ?_
  have hpure : (fun head => Eng.storeState (q head) >>= fun u => pure u) =
      fun head => Eng.storeState (q head) := funext fun head => Prog.bind_pure _
  show Runs S.Performs (Eng.putAudit a >>= fun head => Eng.storeState (q head) >>= fun u => pure u)
    m x m'
  rw [hpure]
  exact h

/-! ## Rollback -/

/-- The gates of a rollback past its scope and reason. -/
structure RollbackGates (p : LoopPersisted) (h : GrainHash) (status : RecStatus)
    (applied : AppliedRecord) : Prop where
  known : p.statusIndex.lookup h = some status
  legal : status.canTransitionTo .rolledBack false = true
  noted : p.applied.lookup h = some applied
  rollbackable : applied.rollbackable = true

/-- The record of a rollback. -/
def rollbackAudit (p : LoopPersisted) (h : GrainHash) (status : RecStatus) (by_ : Actor)
    (because : String) : AuditRecord :=
  p.transition h status .rolledBack by_.actor by_.observer because by_.nowMs

theorem rollbackFrom_runs {h : GrainHash} {by_ : Actor} {because : String} {x : Except Error Unit}
    (hrun : Runs S.Performs (rollbackFrom h by_ because) m x m') :
    (∃ e, x = .error e ∧ m' = m) ∨ ∃ status applied, RollbackGates m.state h status applied ∧
      ∃ y m₁, Runs S.Performs (retractAll ("rollback of " ++ h) applied.createdHashes) m y m₁ ∧
        ((∃ e, y = .error e ∧ x = .error e ∧ m' = m₁) ∨ y = .ok () ∧
          Records S (rollbackAudit m.state h status by_ because)
            (m.state.advance h .rolledBack
              (S.auditHash (rollbackAudit m.state h status by_ because))) () m₁ x m') := by
  rcases Eng.loadState_bind hrun with ⟨e, rfl, rfl⟩ | hrun
  · exact .inl ⟨e, rfl, rfl⟩
  split at hrun
  · obtain ⟨rfl, rfl⟩ := Runs.fail_iff.1 hrun
    exact .inl ⟨_, rfl, rfl⟩
  · rename_i status hstatus
    split_ifs at hrun with hlegal
    · obtain ⟨rfl, rfl⟩ := Runs.fail_iff.1 hrun
      exact .inl ⟨_, rfl, rfl⟩
    split at hrun
    · obtain ⟨rfl, rfl⟩ := Runs.fail_iff.1 hrun
      exact .inl ⟨_, rfl, rfl⟩
    · rename_i applied happlied
      split_ifs at hrun with hback
      · obtain ⟨rfl, rfl⟩ := Runs.fail_iff.1 hrun
        exact .inl ⟨_, rfl, rfl⟩
      refine .inr ⟨status, applied, ⟨hstatus, ?_, happlied, ?_⟩, ?_⟩
      · simpa using hlegal
      · simpa using hback
      rcases Runs.bind_iff.1 hrun with ⟨e, hretract, rfl⟩ | ⟨u, m₁, hretract, hrun⟩
      · exact ⟨_, _, hretract, .inl ⟨e, rfl, rfl, rfl⟩⟩
      refine ⟨_, _, hretract, .inr ⟨rfl, ?_⟩⟩
      exact records_runs_unit (q := fun head => m.state.advance h .rolledBack head) hrun

/-- A rollback wrote nothing, or passed its gates and went on to its writes. -/
theorem rollback_runs {E : Engine} {h : GrainHash} {by_ : Actor} {x : Except Error Unit}
    (hrun : Runs S.Performs (rollback E h by_) m x m') :
    (∃ e, x = .error e ∧ m' = m) ∨
      ∃ because, by_.scopes.has .apply = true ∧
        validateBecause E.host.unicode by_.because = .ok because ∧
          Runs S.Performs (rollbackFrom h by_ because) m x m' := by
  unfold rollback at hrun
  split_ifs at hrun with hscope
  · obtain ⟨rfl, rfl⟩ := Runs.fail_iff.1 hrun
    exact .inl ⟨_, rfl, rfl⟩
  · cases hwhy : validateBecause E.host.unicode by_.because with
    | error e =>
      rw [hwhy] at hrun
      obtain ⟨rfl, rfl⟩ := Runs.fail_iff.1 hrun
      exact .inl ⟨_, rfl, rfl⟩
    | ok because =>
      rw [hwhy] at hrun
      exact .inr ⟨because, by simpa using hscope, rfl, hrun⟩

/-! ## Review -/

/-- The gates of a review past its scope and reason. -/
structure ReviewGates (p : LoopPersisted) (h : GrainHash) (d : Decision) (by_ : Actor)
    (status : RecStatus) : Prop where
  known : p.statusIndex.lookup h = some status
  legal : status.canTransitionTo d.status false = true
  other : d = .approve → p.creators.lookup h ≠ some by_.actor ∧
    p.coCreators.lookup h ≠ some by_.actor

/-- The record of a review. -/
def reviewAudit (p : LoopPersisted) (h : GrainHash) (d : Decision) (status : RecStatus)
    (by_ : Actor) (because : String) : AuditRecord :=
  p.transition h status d.status by_.actor by_.observer because by_.nowMs

/-- A loop state that differs in its cooldowns only. -/
structure LoopPersisted.CooledFrom (p p' : LoopPersisted) : Prop where
  eq : p' = { p with cooldowns := p'.cooldowns, cooldownStrikes := p'.cooldownStrikes }

theorem LoopPersisted.CooledFrom.refl (p : LoopPersisted) : p.CooledFrom p := ⟨rfl⟩

theorem coolRejected_yields {p : LoopPersisted} {h : GrainHash} {to_ : RecStatus} {nowMs : ℤ} :
    Yields Call.IsRead (fun p' => p.CooledFrom p') (coolRejected p h to_ nowMs) := by
  unfold coolRejected
  split_ifs
  · refine Yields.bind (Calls.catching loadRec_reads) fun x _ => ?_
    cases x with
    | error e => exact .pure ⟨rfl⟩
    | ok r => exact .pure ⟨rfl⟩
  · exact .pure ⟨rfl⟩

theorem selfApproval_none {p : LoopPersisted} {h : GrainHash} {actor : String}
    (hself : selfApproval p h actor = none) :
    p.creators.lookup h ≠ some actor ∧ p.coCreators.lookup h ≠ some actor := by
  unfold selfApproval at hself
  split_ifs at hself with hcreator htrigger
  exact ⟨hcreator, htrigger⟩

theorem reviewFrom_runs {h : GrainHash} {d : Decision} {by_ : Actor} {because : String}
    {x : Except Error Unit} (hrun : Runs S.Performs (reviewFrom h d by_ because) m x m') :
    (∃ e, x = .error e ∧ m' = m) ∨ ∃ status, ReviewGates m.state h d by_ status ∧
      ∃ q, (m.state.advance h d.status
          (S.auditHash (reviewAudit m.state h d status by_ because))).CooledFrom q ∧
        Records S (reviewAudit m.state h d status by_ because) q () m x m' := by
  rcases Eng.loadState_bind hrun with ⟨e, rfl, rfl⟩ | hrun
  · exact .inl ⟨e, rfl, rfl⟩
  split at hrun
  · obtain ⟨rfl, rfl⟩ := Runs.fail_iff.1 hrun
    exact .inl ⟨_, rfl, rfl⟩
  rename_i status hstatus
  split at hrun
  · obtain ⟨rfl, rfl⟩ := Runs.fail_iff.1 hrun
    exact .inl ⟨_, rfl, rfl⟩
  rename_i hlegal
  cases hself : (if d = .approve then selfApproval m.state h by_.actor else none) with
  | some e =>
    rw [hself] at hrun
    obtain ⟨rfl, rfl⟩ := Runs.fail_iff.1 hrun
    exact .inl ⟨_, rfl, rfl⟩
  | none =>
    rw [hself] at hrun
    have hgates : ReviewGates m.state h d by_ status := by
      refine ⟨hstatus, by simpa using hlegal, fun happrove => ?_⟩
      rw [if_pos happrove] at hself
      exact selfApproval_none hself
    refine .inr ⟨status, hgates, ?_⟩
    rcases Runs.bind_iff.1 hrun with ⟨e, hput, rfl⟩ | ⟨head, m₁, hput, hrun⟩
    · rcases Eng.putAudit_runs hput with ⟨⟨⟩, -⟩ | ⟨e', -, rfl⟩
      exact ⟨_, .refl _, .refused e⟩
    rcases Eng.putAudit_runs hput with ⟨hhead, rfl⟩ | ⟨e', ⟨⟩, -⟩
    cases hhead
    rcases Runs.bind_iff.1 hrun with ⟨e, hcool, rfl⟩ | ⟨q, m₂, hcool, hstore⟩
    · obtain rfl := reads_idle coolRejected_yields.calls hcool
      exact ⟨_, .refl _, .unlinked e⟩
    · obtain rfl := reads_idle coolRejected_yields.calls hcool
      refine ⟨q, hcool.yields coolRejected_yields, ?_⟩
      rcases Eng.storeState_runs hstore with ⟨rfl, rfl⟩ | ⟨e, rfl, rfl⟩
      · exact .done
      · exact .unlinked e

/-- A review wrote nothing, or passed its gates and went on to its writes. -/
theorem review_runs {E : Engine} {h : GrainHash} {d : Decision} {by_ : Actor}
    {x : Except Error Unit} (hrun : Runs S.Performs (review E h d by_) m x m') :
    (∃ e, x = .error e ∧ m' = m) ∨
      ∃ because, Runs S.Performs (reviewFrom h d by_ because) m x m' := by
  unfold review at hrun
  split_ifs at hrun with hscope
  · obtain ⟨rfl, rfl⟩ := Runs.fail_iff.1 hrun
    exact .inl ⟨_, rfl, rfl⟩
  · cases hwhy : validateBecause E.host.unicode by_.because with
    | error e =>
      rw [hwhy] at hrun
      obtain ⟨rfl, rfl⟩ := Runs.fail_iff.1 hrun
      exact .inl ⟨_, rfl, rfl⟩
    | ok because =>
      rw [hwhy] at hrun
      exact .inr ⟨because, hrun⟩

/-! ## Apply -/

/-- The gates of an apply past its scope and reason. -/
structure ApplyGates (m : Memory U) (h : GrainHash) (by_ : Actor) (allowDestructive : Bool)
    (status : RecStatus) (r : Recommendation) : Prop where
  known : m.state.statusIndex.lookup h = some status
  legal : status.canTransitionTo .applied false = true
  stored : m.recs.lookup h = some r
  allowed : destructiveGated r by_.scopes allowDestructive = false

/-- The record of an apply. -/
def applyAudit (p : LoopPersisted) (h : GrainHash) (status : RecStatus) (by_ : Actor)
    (because : String) : AuditRecord :=
  p.transition h status .applied by_.actor by_.observer because by_.nowMs

theorem applyFrom_runs {E : Engine} {h : GrainHash} {by_ : Actor} {because : String}
    {allowDestructive : Bool} {x : Except Error AppliedRecord}
    (hrun : Runs S.Performs (applyFrom E h by_ because allowDestructive) m x m') :
    (∃ e, x = .error e ∧ m' = m) ∨
      ∃ status r, ApplyGates m h by_ allowDestructive status r ∧
        ∃ y m₁, Runs S.Performs (execute E m.state by_ because r.proposal) m y m₁ ∧
          ((∃ e, y = .error e ∧ x = .error e ∧ m' = m₁) ∨ ∃ created p, y = .ok (created, p) ∧
            Records S (applyAudit p h status by_ because)
              ((p.advance h .applied (S.auditHash (applyAudit p h status by_ because))).setApplied h
                (appliedRecord r created by_.nowMs))
              (appliedRecord r created by_.nowMs) m₁ x m') := by
  rcases Eng.loadState_bind hrun with ⟨e, rfl, rfl⟩ | hrun
  · exact .inl ⟨e, rfl, rfl⟩
  split at hrun
  · obtain ⟨rfl, rfl⟩ := Runs.fail_iff.1 hrun
    exact .inl ⟨_, rfl, rfl⟩
  rename_i status hstatus
  split at hrun
  · obtain ⟨rfl, rfl⟩ := Runs.fail_iff.1 hrun
    exact .inl ⟨_, rfl, rfl⟩
  rename_i hlegal
  rcases Runs.bind_iff.1 hrun with ⟨e, hload, rfl⟩ | ⟨r, m₀, hload, hrun⟩
  · exact .inl ⟨e, rfl, (Eng.loadRec_runs hload).1⟩
  obtain ⟨rfl, ⟨r', hr', hstored⟩ | ⟨e, ⟨⟩⟩⟩ := Eng.loadRec_runs hload
  cases hr'
  split at hrun
  · obtain ⟨rfl, rfl⟩ := Runs.fail_iff.1 hrun
    exact .inl ⟨_, rfl, rfl⟩
  rename_i hallowed
  refine .inr ⟨status, r, ⟨hstatus, by simpa using hlegal, hstored, by simpa using hallowed⟩, ?_⟩
  rcases Runs.bind_iff.1 hrun with ⟨e, hexecute, rfl⟩ | ⟨⟨created, p⟩, m₁, hexecute, hrun⟩
  · exact ⟨_, _, hexecute, .inl ⟨e, rfl, rfl, rfl⟩⟩
  refine ⟨_, _, hexecute, .inr ⟨created, p, rfl, ?_⟩⟩
  exact records_runs (q := fun head => (p.advance h .applied head).setApplied h
    (appliedRecord r created by_.nowMs)) (v := appliedRecord r created by_.nowMs) hrun

/-- An apply wrote nothing, or passed its gates and went on to its writes. -/
theorem apply_runs {E : Engine} {h : GrainHash} {by_ : Actor} {allowDestructive : Bool}
    {x : Except Error AppliedRecord}
    (hrun : Runs S.Performs (apply E h by_ allowDestructive) m x m') :
    (∃ e, x = .error e ∧ m' = m) ∨
      ∃ because, by_.scopes.has .apply = true ∧
        validateBecause E.host.unicode by_.because = .ok because ∧
          Runs S.Performs (applyFrom E h by_ because allowDestructive) m x m' := by
  unfold apply at hrun
  split_ifs at hrun with hscope
  · obtain ⟨rfl, rfl⟩ := Runs.fail_iff.1 hrun
    exact .inl ⟨_, rfl, rfl⟩
  · cases hwhy : validateBecause E.host.unicode by_.because with
    | error e =>
      rw [hwhy] at hrun
      obtain ⟨rfl, rfl⟩ := Runs.fail_iff.1 hrun
      exact .inl ⟨_, rfl, rfl⟩
    | ok because =>
      rw [hwhy] at hrun
      exact .inr ⟨because, by simpa using hscope, rfl, hrun⟩

/-! ### Executing a proposal -/

/-- How executing a proposal ends: its CAL text ran, or it took back an applied
recommendation, or it is advisory. -/
inductive Executed (E : Engine) (S : Substrate U) (by_ : Actor) (m : Memory U) :
    Proposal → Except Error (List GrainHash × LoopPersisted) → Memory U → Prop
  | ran {text : String} {rows : List (Option GrainHash)} {m' : Memory U}
      (h : S.executes text m (.ok rows) m') :
      Executed E S by_ m (.cal text) (.ok (rows.filterMap id, m.state)) m'
  | broke {text : String} {e : Error} {m' : Memory U} (h : S.executes text m (.error e) m') :
      Executed E S by_ m (.cal text) (.error e) m'
  | advisory {p : Proposal} (e : Error) (h : ∀ text, p ≠ .cal text) :
      Executed E S by_ m p (.error e) m
  | reverted {d : JsonMap} {target : GrainHash} {m' : Memory U} (ht : revertOf d = some target)
      (h : Runs S.Performs (rollback E target by_) m (.ok ()) m') :
      Executed E S by_ m (.data d) (.ok ([], m'.state)) m'
  | unread {d : JsonMap} {target : GrainHash} {m' : Memory U} (e : Error)
      (ht : revertOf d = some target)
      (h : Runs S.Performs (rollback E target by_) m (.ok ()) m') :
      Executed E S by_ m (.data d) (.error e) m'
  | stuck {d : JsonMap} {target : GrainHash} {e : Error} {m' : Memory U}
      (ht : revertOf d = some target)
      (h : Runs S.Performs (rollback E target by_) m (.error e) m') :
      Executed E S by_ m (.data d) (.error e) m'

theorem execute_runs {E : Engine} {by_ : Actor} {because : String} {p : Proposal}
    {x : Except Error (List GrainHash × LoopPersisted)}
    (hrun : Runs S.Performs (execute E m.state by_ because p) m x m') :
    Executed E S { by_ with because := because } m p x m' := by
  cases p with
  | cal text =>
    rcases Runs.bind_iff.1 hrun with ⟨e, hcal, rfl⟩ | ⟨rows, m₁, hcal, hrun⟩
    · exact .broke (Eng.executeCal_runs hcal)
    · obtain ⟨rfl, rfl⟩ := Runs.pure_iff.1 hrun
      exact .ran (Eng.executeCal_runs hcal)
  | edit f b d =>
    obtain ⟨rfl, rfl⟩ := Runs.fail_iff.1 hrun
    exact .advisory _ fun text h => nomatch h
  | data d =>
    unfold execute at hrun
    cases ht : revertOf d with
    | none =>
      simp only [ht] at hrun
      obtain ⟨rfl, rfl⟩ := Runs.fail_iff.1 hrun
      exact .advisory _ fun text h => nomatch h
    | some target =>
      simp only [ht] at hrun
      rcases Runs.bind_iff.1 hrun with ⟨e, hback, rfl⟩ | ⟨u, m₁, hback, hrun⟩
      · exact .stuck ht hback
      rcases Eng.loadState_bind hrun with ⟨e, rfl, rfl⟩ | hrun
      · exact .unread e ht hback
      · obtain ⟨rfl, rfl⟩ := Runs.pure_iff.1 hrun
        exact .reverted ht hback

end Deja.Loop
