import Deja.Loop.Gates
import Deja.Loop.Ledger
import Deja.Loop.Refused

/-!
# Histories of a loop

A history is a sequence of runs, reviews, applies and rollbacks on one memory, each
with its own engine, actor and clock.  In one whose steps are **clean** the ledger
is kept (`lifecycle_kept`): no step is cut short by the store, and no run draws word
for word a recommendation that was turned down or taken back.  Where a run does, the
chain is broken (`redrawn_breaks_chain`): grains are addressed by content, so the
old recommendation is stored again, at the head of its old records.
-/

namespace Deja.Loop

open Prog

variable {U : Type}

/-! ## Operations -/

/-- An operation on the loop. -/
inductive LoopOp where
  | run (opts : RunOptions) (nowMs : ℤ)
  | review (h : GrainHash) (d : Decision) (by_ : Actor)
  | apply (h : GrainHash) (by_ : Actor) (allowDestructive : Bool)
  | rollback (h : GrainHash) (by_ : Actor)

/-- Its program, without its result. -/
def LoopOp.prog (E : Engine) : LoopOp → Eng Unit
  | run opts nowMs => do
    let _ ← Loop.run E opts nowMs
    pure ()
  | review h d by_ => Loop.review E h d by_
  | apply h by_ allowDestructive => do
    let _ ← Loop.apply E h by_ allowDestructive
    pure ()
  | rollback h by_ => Loop.rollback E h by_

/-- A memory the loop has not touched. -/
structure Untouched (m : Memory U) : Prop where
  recs : m.recs = []
  audits : m.audits = []
  statusIndex : m.state.statusIndex = []

/-- What may be said of a step: the operation, the memory before, how it ended, and
the memory after. -/
abbrev StepProp (U : Type) := LoopOp → Memory U → Except Error Unit → Memory U → Prop

/-- The memories a history may end in, at steps of one kind. -/
inductive Reached (S : Substrate U) (good : StepProp U) : Memory U → Prop
  | start {m : Memory U} (h : Untouched m) : Reached S good m
  | step {m m' : Memory U} {op : LoopOp} {x : Except Error Unit} (hm : Reached S good m)
      (E : Engine) (h : Runs S.Performs (op.prog E) m x m') (hgood : good op m x m') :
      Reached S good m'

/-! ## Clean steps -/

/-- No grain but the stored one has the address of a stored grain of the loop. -/
structure CollisionFree (S : Substrate U) (m : Memory U) : Prop where
  recs : ∀ r, ∀ x ∈ m.recs, S.recHash r = x.1 → r = x.2
  audits : ∀ a, ∀ x ∈ m.audits, S.auditHash a = x.1 → a = x.2

/-- A run of this time may draw the stored recommendation again, word for word. -/
structure Redrawable (p : LoopPersisted) (nowMs : ℤ) (x : GrainHash × Recommendation) : Prop where
  open_ : ((p.statusIndex.lookup x.1).getD .pending).blocks = false
  cool : inCooldown p nowMs x.2.dedupKey = false
  drawn : x.2.createdAtMs = nowMs

/-- A step that is not cut short, whose run draws nothing again. -/
structure Clean (S : Substrate U) (op : LoopOp) (m : Memory U) (x : Except Error Unit)
    (m' : Memory U) : Prop where
  whole : x = .ok () ∨ SameLoop m m'
  apart : CollisionFree S m'
  redrawn : ∀ opts nowMs, op = .run opts nowMs → ∀ y ∈ m.recs, ¬Redrawable m.state nowMs y

variable {S : Substrate U} {E : Engine} {m m' : Memory U} {p p' : LoopPersisted} {opts : RunOptions}
  {nowMs : ℤ} {r : Recommendation} {h : GrainHash}

/-! ## Runs -/

theorem Drawn.createdAtMs (hr : Drawn E nowMs r) : r.createdAtMs = nowMs := by
  obtain ⟨r', hsame, ⟨a, -, params, d, hstamp⟩ | ⟨bundle, hfound⟩⟩ := hr
  · rw [hsame]
    unfold stamp at hstamp
    split at hstamp
    · cases hstamp
    · cases hstamp
      rfl
  · obtain ⟨llm, ground, candidates, evidence, rejected, approved, -, -, hmem⟩ := hfound
    rw [hsame]
    unfold propose at hmem
    split_ifs at hmem
    · cases hmem
    · split at hmem
      · cases hmem
      · obtain ⟨x, hx, rfl⟩ := List.mem_map.1 hmem
        obtain ⟨raw, raw', -, -, -, hroute⟩ := mem_routedDrafts.1 hx
        obtain ⟨d, v, -, -, -, hstamp⟩ := mem_route.1 hroute
        rw [hstamp]
        rfl

/-- A memory that holds at least what another holds of the loop. -/
structure Memory.Within (m m' : Memory U) : Prop where
  recs : m.recs ⊆ m'.recs
  audits : m.audits ⊆ m'.audits

theorem CollisionFree.of_within (hfree : CollisionFree S m') (h : m.Within m') :
    CollisionFree S m :=
  ⟨fun r x hx => hfree.recs r x (h.recs hx), fun a x hx => hfree.audits a x (h.audits hx)⟩

theorem CollisionFree.rec_new (hfree : CollisionFree S m) (hr : ∀ x ∈ m.recs, x.2 ≠ r) :
    S.recHash r ∉ m.recs.map Prod.fst := by
  intro hmem
  obtain ⟨x, hx, heq⟩ := List.mem_map.1 hmem
  exact hr x hx (hfree.recs r x hx heq.symm).symm

theorem CollisionFree.audit_new (hfree : CollisionFree S m) {a : AuditRecord}
    (ha : ∀ x ∈ m.audits, x.2 ≠ a) : S.auditHash a ∉ m.audits.map Prod.fst := by
  intro hmem
  obtain ⟨x, hx, heq⟩ := List.mem_map.1 hmem
  exact ha x hx (hfree.audits a x hx heq.symm).symm

theorem Memory.addAudit_within (m : Memory U) (x : GrainHash) (a : AuditRecord) :
    m.Within (m.addAudit x a) := by
  unfold Memory.addAudit
  split_ifs
  · exact ⟨fun _ h => h, fun _ h => h⟩
  · exact ⟨fun _ h => h, List.subset_append_left _ _⟩

theorem Memory.mem_addAudit {x : GrainHash × AuditRecord} {y : GrainHash} {a : AuditRecord}
    (hx : x ∈ (m.addAudit y a).audits) : x ∈ m.audits ∨ x = (y, a) := by
  unfold Memory.addAudit at hx
  split_ifs at hx
  · exact .inl hx
  · exact (List.mem_append.1 hx).imp_right List.mem_singleton.1

theorem Memory.addRec_within (m : Memory U) (x : GrainHash) (r : Recommendation) :
    m.Within (m.addRec x r) := by
  unfold Memory.addRec
  split_ifs
  · exact ⟨fun _ h => h, fun _ h => h⟩
  · exact ⟨List.subset_append_left _ _, fun _ h => h⟩

theorem Memory.Within.trans {m₁ m₂ m₃ : Memory U} (h : m₁.Within m₂) (h' : m₂.Within m₃) :
    m₁.Within m₃ :=
  ⟨fun _ hx => h'.recs (h.recs hx), fun _ hx => h'.audits (h.audits hx)⟩

theorem SameLoop.within (h : SameLoop m m') : m.Within m' := by
  refine ⟨?_, ?_⟩
  · rw [h.recs]
    exact fun _ hx => hx
  · rw [h.audits]
    exact fun _ hx => hx

theorem Memory.propose_within (m : Memory U) (r : Recommendation) (nowMs : ℤ) :
    m.Within (m.propose S r nowMs) :=
  (m.addRec_within _ _).trans (Memory.addAudit_within _ _ _)

@[simp] theorem Memory.propose_state (m : Memory U) (r : Recommendation) (nowMs : ℤ) :
    (m.propose S r nowMs).state = m.state := by
  unfold Memory.propose
  rw [Memory.addAudit_state, Memory.addRec_state]

theorem Memory.mem_addRec {x : GrainHash × Recommendation} {y : GrainHash}
    (hx : x ∈ (m.addRec y r).recs) : x ∈ m.recs ∨ x = (y, r) := by
  unfold Memory.addRec at hx
  split_ifs at hx
  · exact .inl hx
  · exact (List.mem_append.1 hx).imp_right List.mem_singleton.1

theorem Memory.mem_propose_recs {x : GrainHash × Recommendation}
    (hx : x ∈ (m.propose S r nowMs).recs) : x ∈ m.recs ∨ x = (S.recHash r, r) := by
  unfold Memory.propose at hx
  rw [Memory.addAudit_recs] at hx
  exact Memory.mem_addRec hx

theorem Memory.mem_propose_audits {x : GrainHash × AuditRecord}
    (hx : x ∈ (m.propose S r nowMs).audits) : x ∈ m.audits ∨
      x = (S.auditHash (proposal (S.recHash r) r nowMs), proposal (S.recHash r) r nowMs) := by
  rcases Memory.mem_addAudit hx with hx | hx
  · rw [Memory.addRec_audits] at hx
    exact .inl hx
  · exact .inr hx

theorem StoresOne.within {x : Except Error (LoopPersisted × Bool)}
    (h : StoresOne E S opts nowMs p r m x m') : m.Within m' := by
  cases h with
  | refused e => exact ⟨fun _ hx => hx, fun _ hx => hx⟩
  | unrecorded e => exact m.addRec_within _ _
  | unapplied e h => exact (m.propose_within r nowMs).trans h.within
  | pending => exact m.propose_within r nowMs
  | applied created hgranted h =>
    exact (m.propose_within r nowMs).trans ((Memory.addAudit_within _ _ _).trans h.within)

theorem StoresAll.within {rs : List Recommendation} {y : Except Error (LoopPersisted × ℕ)}
    (h : StoresAll E S opts nowMs p rs m y m') : m.Within m' := by
  induction h with
  | nil p m => exact ⟨fun _ hx => hx, fun _ hx => hx⟩
  | stop h => exact h.within
  | cons h _ ih => exact h.within.trans ih

/-- The ledger of a memory under a loop state. -/
def Memory.Keeps (m : Memory U) (p : LoopPersisted) : Prop := Ledger m.recs m.audits p

theorem SameLoop.keeps (h : SameLoop m m') (hk : m.Keeps p) : m'.Keeps p := by
  unfold Memory.Keeps
  rw [h.recs, h.audits]
  exact hk

/-- One survivor that is new. -/
theorem StoresOne.keeps {applied : Bool}
    (hone : StoresOne E S opts nowMs p r m (.ok (p', applied)) m') (hk : m.Keeps p)
    (hfree : CollisionFree S m') (hnew : ∀ x ∈ m.recs, x.2 ≠ r) :
    m'.Keeps p' ∧ m'.recs = m.recs ++ [(S.recHash r, r)] := by
  have hrec := (hfree.of_within hone.within).rec_new hnew
  have hadd : m.addRec (S.recHash r) r = { m with recs := m.recs ++ [(S.recHash r, r)] } :=
    if_neg hrec
  have haudit : S.auditHash (proposal (S.recHash r) r nowMs) ∉ m.audits.map Prod.fst := by
    refine (hfree.of_within hone.within).audit_new fun x hx heq => hrec ?_
    have howned := hk.owned x hx
    rw [heq] at howned
    exact howned
  have hpropose : m.propose S r nowMs = { m with
      recs := m.recs ++ [(S.recHash r, r)]
      audits := m.audits ++ [(S.auditHash (proposal (S.recHash r) r nowMs),
        proposal (S.recHash r) r nowMs)] } := by
    unfold Memory.propose
    rw [hadd]
    exact if_neg haudit
  have hentered : (m.propose S r nowMs).Keeps (S.entered opts p r nowMs) := by
    rw [hpropose]
    exact Ledger.enter hk hrec haudit
  cases hone with
  | pending => exact ⟨hentered, by rw [hpropose]⟩
  | applied created hgranted hsame =>
    have hmem : (S.recHash r, r) ∈ (m.propose S r nowMs).recs := by
      rw [hpropose]
      exact List.mem_append_right _ (List.mem_singleton_self _)
    have hstatus : (S.entered opts p r nowMs).statusIndex.lookup (S.recHash r) = some .pending :=
      (LoopPersisted.enter_statusIndex _).trans (if_pos rfl)
    have hnext : S.auditHash (autoAudit (S.entered opts p r nowMs) (S.recHash r) nowMs) ∉
        (m.propose S r nowMs).audits.map Prod.fst :=
      (hfree.of_within ((Memory.addAudit_within _ _ _).trans hsame.within)).audit_new
        (hentered.transition_new hmem rfl rfl)
    have hgates := hgranted
    unfold autoApplyGranted at hgates
    simp only [Bool.and_eq_true, Bool.not_eq_true'] at hgates
    obtain ⟨⟨⟨horigin, hharmless⟩, -⟩, -⟩ := hgates
    have hbuiltin : r.origin = .builtin := by
      cases ho : r.origin with
      | builtin => rfl
      | command id =>
        rw [ho] at horigin
        cases horigin
      | llm model =>
        rw [ho] at horigin
        cases horigin
    have hallowed : Allowed (S.entered opts p r nowMs) (S.recHash r) r .pending
        (autoAudit (S.entered opts p r nowMs) (S.recHash r) nowMs) :=
      ⟨rfl, (nomatch ·), fun _ => .inr ⟨rfl, rfl, hharmless, hbuiltin⟩⟩
    have hrecorded := hentered.record hmem hstatus hallowed hnext
    have happlied : ((m.propose S r nowMs).addAudit
        (S.auditHash (autoAudit (S.entered opts p r nowMs) (S.recHash r) nowMs))
        (autoAudit (S.entered opts p r nowMs) (S.recHash r) nowMs)) =
          { m.propose S r nowMs with audits := (m.propose S r nowMs).audits ++
            [(S.auditHash (autoAudit (S.entered opts p r nowMs) (S.recHash r) nowMs),
              autoAudit (S.entered opts p r nowMs) (S.recHash r) nowMs)] } := if_neg hnext
    refine ⟨hsame.keeps ?_, ?_⟩
    · rw [happlied]
      exact hrecorded.congr ⟨rfl, rfl, rfl, rfl⟩
    · rw [hsame.recs, Memory.addAudit_recs, hpropose]

/-- The survivors, none of which is stored and no two of which are equal. -/
theorem StoresAll.keeps {rs : List Recommendation} {n : ℕ}
    (hall : StoresAll E S opts nowMs p rs m (.ok (p', n)) m') (hk : m.Keeps p)
    (hfree : CollisionFree S m') (hnew : ∀ r ∈ rs, ∀ x ∈ m.recs, x.2 ≠ r) (hrs : rs.Nodup) :
    m'.Keeps p' := by
  generalize hy : (Except.ok (p', n) : Except Error (LoopPersisted × ℕ)) = y at hall
  induction hall generalizing p' n with
  | nil p m =>
    cases hy
    exact hk
  | stop h => cases hy
  | @cons p p₁ applied r rs m m₁ m' z hone hs ih =>
    cases z with
    | error e => cases hy
    | ok z =>
      cases hy
      obtain ⟨hr, hrs⟩ := List.nodup_cons.1 hrs
      obtain ⟨hk₁, hrecs⟩ := hone.keeps hk (hfree.of_within hs.within)
        (hnew r (List.mem_cons_self ..))
      refine ih hk₁ hfree (fun r' hr' x hx => ?_) hrs rfl
      rw [hrecs] at hx
      rcases List.mem_append.1 hx with hx | hx
      · exact hnew r' (List.mem_cons_of_mem _ hr') x hx
      · obtain rfl := List.mem_singleton.1 hx
        intro heq
        exact hr ((show r = r' from heq) ▸ hr')

theorem StoresOne.fresh {x : Except Error (LoopPersisted × Bool)}
    (hone : StoresOne E S opts nowMs p r m x m') :
    ∀ y ∈ m'.audits, y ∈ m.audits ∨ y.2.from_ ≠ some .approved := by
  have hpropose : ∀ y ∈ (m.propose S r nowMs).audits,
      y ∈ m.audits ∨ y.2.from_ ≠ some .approved := by
    intro y hy
    rcases Memory.mem_propose_audits hy with hy | rfl
    · exact .inl hy
    · exact .inr (nomatch ·)
  intro y hy
  cases hone with
  | refused e => exact .inl hy
  | unrecorded e =>
    rw [Memory.addRec_audits] at hy
    exact .inl hy
  | unapplied e hsame =>
    rw [hsame.audits] at hy
    exact hpropose y hy
  | pending => exact hpropose y hy
  | applied created hgranted hsame =>
    rw [hsame.audits] at hy
    rcases Memory.mem_addAudit hy with hy | rfl
    · exact hpropose y hy
    · exact .inr (by simp [autoAudit, LoopPersisted.transition])

/-- No record a run puts starts from an approval. -/
theorem StoresAll.fresh {rs : List Recommendation} {y : Except Error (LoopPersisted × ℕ)}
    (hall : StoresAll E S opts nowMs p rs m y m') :
    ∀ x ∈ m'.audits, x ∈ m.audits ∨ x.2.from_ ≠ some .approved := by
  induction hall with
  | nil p m => exact fun x hx => .inl hx
  | stop h => exact h.fresh
  | cons h _ ih =>
    intro x hx
    rcases ih x hx with hx | hx
    · exact h.fresh x hx
    · exact .inr hx

/-- What survives a pass that draws nothing again is not stored. -/
theorem Survives.not_stored {rs : List Recommendation} (hmeasured : m.state.MeasuredFrom p)
    (hs : Survives E nowMs m.recs p rs) (hredrawn : ∀ y ∈ m.recs, ¬Redrawable m.state nowMs y) :
    ∀ r ∈ rs, ∀ x ∈ m.recs, x.2 ≠ r := by
  intro r hr x hx heq
  have hstatus : p.statusIndex = m.state.statusIndex := by rw [hmeasured.eq]
  have hcooldowns : p.cooldowns = m.state.cooldowns := by rw [hmeasured.eq]
  refine hredrawn x hx ⟨?_, ?_, ?_⟩
  · by_contra hblocks
    refine hs.fresh r hr (List.mem_map.2 ⟨x, List.mem_filter.2 ⟨hx, ?_⟩, by rw [heq]⟩)
    rw [hstatus]
    simpa using hblocks
  · have hcool := hs.cool r hr
    unfold inCooldown at hcool ⊢
    rwa [← hcooldowns, heq]
  · rw [heq]
    exact (hs.drawn r hr).createdAtMs

/-! ## Transitions -/

theorem RecStatus.canTransitionTo_mono {s t : RecStatus} (h : s.canTransitionTo t false = true)
    (byPolicy : Bool) : s.canTransitionTo t byPolicy = true := by
  cases s <;> cases t <;> first | rfl | cases h

/-- A legal transition of a ledger. -/
theorem Memory.Keeps.transition (hk : m.Keeps m.state) {status : RecStatus}
    (hstatus : m.state.statusIndex.lookup h = some status) (to_ : RecStatus) (actor : String)
    (observer : ObserverType) (because : String) (nowMs : ℤ)
    (hallowed : ∀ r, Allowed m.state h r status
      (m.state.transition h status to_ actor observer because nowMs))
    (hfree : CollisionFree S (m.addAudit
      (S.auditHash (m.state.transition h status to_ actor observer because nowMs))
      (m.state.transition h status to_ actor observer because nowMs))) :
    (m.addAudit (S.auditHash (m.state.transition h status to_ actor observer because nowMs))
      (m.state.transition h status to_ actor observer because nowMs)).Keeps
        (m.state.advance h to_
          (S.auditHash (m.state.transition h status to_ actor observer because nowMs))) := by
  obtain ⟨⟨h', r⟩, hr, rfl⟩ := List.mem_map.1 (hk.known h status hstatus)
  have hnew : S.auditHash (m.state.transition h' status to_ actor observer because nowMs) ∉
      m.audits.map Prod.fst :=
    (hfree.of_within (Memory.addAudit_within _ _ _)).audit_new
      (Ledger.transition_new hk hr rfl rfl)
  unfold Memory.Keeps
  rw [Memory.addAudit, if_neg hnew]
  exact Ledger.record hk hr hstatus (hallowed r) hnew

/-- What a review that returned leaves. -/
theorem review_keeps {d : Decision} {by_ : Actor}
    (hrun : Runs S.Performs (review E h d by_) m (.ok ()) m') (hk : m.Keeps m.state)
    (hfree : CollisionFree S m') :
    m'.Keeps m'.state ∧ ∀ x ∈ m'.audits, x ∈ m.audits ∨ x.2.to_ = d.status := by
  rcases review_runs hrun with ⟨e, ⟨⟩, -⟩ | ⟨because, hfrom⟩
  rcases reviewFrom_runs hfrom with ⟨e, ⟨⟩, -⟩ | ⟨status, hgates, q, hq, hrec⟩
  cases hrec
  refine ⟨?_, fun x hx => (Memory.mem_addAudit hx).imp_right fun heq => by rw [heq]; rfl⟩
  have hkept := hk.transition hgates.known d.status by_.actor by_.observer because by_.nowMs
    (fun r => ⟨RecStatus.canTransitionTo_mono hgates.legal _, fun happrove => hgates.other ?_,
      fun happlied => ?_⟩) ⟨hfree.recs, hfree.audits⟩
  · refine Ledger.congr hkept ⟨?_, ?_, ?_, ?_⟩ <;> rw [hq.eq] <;> rfl
  · cases d with
    | approve => rfl
    | reject => cases happrove
  · cases d with
    | approve => cases happlied
    | reject => cases happlied

/-- What a rollback that returned leaves. -/
structure TakenBack (h : GrainHash) (m m' : Memory U) : Prop where
  applied : m.state.statusIndex.lookup h = some .applied
  others : ∀ k, k ≠ h → m'.state.statusIndex.lookup k = m.state.statusIndex.lookup k
  recs : m'.recs = m.recs
  audits : m.audits ⊆ m'.audits
  fresh : ∀ x ∈ m'.audits, x ∈ m.audits ∨ x.2.to_ = .rolledBack

theorem rollback_keeps (hS : S.SparesLoop) {by_ : Actor}
    (hrun : Runs S.Performs (rollback E h by_) m (.ok ()) m') (hk : m.Keeps m.state) :
    TakenBack h m m' ∧ (CollisionFree S m' → m'.Keeps m'.state) := by
  rcases rollback_runs hrun with ⟨e, ⟨⟩, -⟩ | ⟨because, -, -, hfrom⟩
  rcases rollbackFrom_runs hfrom with ⟨e, ⟨⟩, -⟩ | ⟨status, applied, hgates, y, m₁, hretract, hend⟩
  have hsame := retractAll_loop hS hretract
  rcases hend with ⟨e, -, ⟨⟩, -⟩ | ⟨-, hrec⟩
  cases hrec
  have happlied : status = .applied := by
    have hlegal := hgates.legal
    cases status <;> first | rfl | cases hlegal
  subst happlied
  refine ⟨⟨hgates.known, fun k hne => ?_, ?_, ?_, fun x hx => ?_⟩, fun hfree => ?_⟩
  · exact (LoopPersisted.advance_statusIndex k).trans (if_neg hne)
  · exact (Memory.addAudit_recs _ _ _).trans hsame.recs
  · exact fun x hx => (Memory.addAudit_within _ _ _).audits (hsame.within.audits hx)
  · rcases Memory.mem_addAudit hx with hx | rfl
    · rw [hsame.audits] at hx
      exact .inl hx
    · exact .inr rfl
  · have hk₁ : m₁.Keeps m₁.state := by
      rw [hsame.state]
      exact hsame.keeps hk
    have hknown : m₁.state.statusIndex.lookup h = some .applied := by
      rw [hsame.state]
      exact hgates.known
    have hkept := hk₁.transition hknown .rolledBack by_.actor by_.observer because by_.nowMs
      (fun r => ⟨rfl, (nomatch ·), (nomatch ·)⟩)
      (by rw [hsame.state]; exact ⟨hfree.recs, hfree.audits⟩)
    rw [hsame.state] at hkept
    exact hkept

/-- What executing a proposal leaves where it returned. -/
theorem Executed.keeps (hS : S.SparesLoop) {by_ : Actor} {prop : Proposal}
    {created : List GrainHash} (hex : Executed E S by_ m prop (.ok (created, p)) m')
    (hk : m.Keeps m.state) (hlegal : m.state.statusIndex.lookup h = some .approved) :
    p = m'.state ∧ p.statusIndex.lookup h = some .approved ∧ m'.recs = m.recs ∧
      (∀ x ∈ m'.audits, x ∈ m.audits ∨ x.2.to_ = .rolledBack) ∧
        (CollisionFree S m' → m'.Keeps m'.state) := by
  cases hex with
  | ran hcal =>
    have hsame := hS.executes _ _ _ _ hcal
    refine ⟨hsame.state.symm, hlegal, hsame.recs, fun x hx => .inl ?_, fun _ => ?_⟩
    · rwa [hsame.audits] at hx
    · rw [hsame.state]
      exact hsame.keeps hk
  | reverted ht hback =>
    rename_i d target
    obtain ⟨htaken, hkept⟩ := rollback_keeps hS hback hk
    refine ⟨rfl, ?_, htaken.recs, htaken.fresh, hkept⟩
    -- the recommendation is approved and the one taken back was applied
    have hne : h ≠ target := by
      intro heq
      have happlied := htaken.applied
      rw [← heq, hlegal] at happlied
      cases happlied
    rw [htaken.others h hne, hlegal]

/-- What an apply that returned leaves. -/
theorem apply_keeps (hS : S.SparesLoop) {by_ : Actor} {allowDestructive : Bool}
    {a : AppliedRecord} (hrun : Runs S.Performs (apply E h by_ allowDestructive) m (.ok a) m')
    (hk : m.Keeps m.state) (hfree : CollisionFree S m') :
    m'.Keeps m'.state ∧ ∃ r, (h, r) ∈ m'.recs ∧
      destructiveGated r by_.scopes allowDestructive = false ∧
      ∀ x ∈ m'.audits, x ∈ m.audits ∨ x.2.to_ = .rolledBack ∨ x.2.recHash = h := by
  rcases apply_runs hrun with ⟨e, ⟨⟩, -⟩ | ⟨because, -, -, hfrom⟩
  rcases applyFrom_runs hfrom with ⟨e, ⟨⟩, -⟩ | ⟨status, r, hgates, y, m₁, hexecute, hend⟩
  rcases hend with ⟨e, -, ⟨⟩, -⟩ | ⟨created, p, rfl, hrec⟩
  have happroved : status = .approved := by
    have hlegal := hgates.legal
    cases status <;> first | rfl | cases hlegal
  subst happroved
  obtain ⟨rfl, hknown, hrecs, hfresh, hkept⟩ := (execute_runs hexecute).keeps hS hk hgates.known
  generalize happlied : appliedRecord r created by_.nowMs = applied at hrec
  cases hrec
  have hfree' : CollisionFree S (m₁.addAudit
      (S.auditHash (applyAudit m₁.state h .approved by_ because))
      (applyAudit m₁.state h .approved by_ because)) := ⟨hfree.recs, hfree.audits⟩
  have hk₁ := hkept (hfree'.of_within (Memory.addAudit_within _ _ _))
  have hdone := hk₁.transition hknown .applied by_.actor by_.observer because by_.nowMs
    (fun r => ⟨rfl, (nomatch ·), fun _ => .inl rfl⟩) hfree'
  refine ⟨Ledger.congr hdone ⟨rfl, rfl, rfl, rfl⟩, r, ?_, hgates.allowed, fun x hx => ?_⟩
  · show (h, r) ∈ (m₁.addAudit _ _).recs
    rw [Memory.addAudit_recs, hrecs]
    exact Assoc.mem_of_lookup hgates.stored
  · rcases Memory.mem_addAudit hx with hx | rfl
    · exact (hfresh x hx).imp_right .inl
    · exact .inr (.inr rfl)

/-- What a run that returned leaves. -/
theorem run_keeps (hS : S.SparesLoop) {res : RunResult}
    (hrun : Runs S.Performs (run E opts nowMs) m (.ok res) m') (hk : m.Keeps m.state)
    (hfree : CollisionFree S m') (hredrawn : ∀ y ∈ m.recs, ¬Redrawable m.state nowMs y) :
    m'.Keeps m'.state ∧ ∀ x ∈ m'.audits, x ∈ m.audits ∨ x.2.from_ ≠ some .approved := by
  rcases run_runs hS hrun with rfl | hon
  · exact ⟨hk, fun x hx => .inl hx⟩
  cases hon with
  | @done p p' n pass m₁ res hpass hall hres =>
    have hs := hpass.survives
    have hmaps : SameMaps m.state p := by
      rw [hpass.measured.eq]
      exact ⟨rfl, rfl, rfl, rfl⟩
    have hnodup : pass.survivors.Nodup := List.Nodup.of_map _ hs.apart
    have hkept := hall.keeps (Ledger.congr hk hmaps) ⟨hfree.recs, hfree.audits⟩
      (hs.not_stored hpass.measured hredrawn) hnodup
    exact ⟨Ledger.congr hkept ⟨rfl, rfl, rfl, rfl⟩, hall.fresh⟩

/-! ## Histories -/

/-- Every record of an apply that a step adds on a destructive recommendation is the
step's own, made with the admin scope and the flag. -/
def Guarded (op : LoopOp) (m m' : Memory U) : Prop :=
  ∀ x ∈ m'.audits, x ∉ m.audits → x.2.to_ = .applied → ∀ r, (x.2.recHash, r) ∈ m'.recs →
    r.destructive = true →
      ∃ by_, op = .apply x.2.recHash by_ true ∧ by_.scopes.has .admin = true

theorem SameLoop.guarded {op : LoopOp} (hsame : SameLoop m m') : Guarded op m m' := by
  intro x hx hnew
  rw [hsame.audits] at hx
  exact absurd hx hnew

/-- An apply of a chain is from an approval, or on a harmless recommendation. -/
theorem AuditChain.harmless {l : List (GrainHash × AuditRecord)} {head : GrainHash}
    {status : RecStatus} (hc : AuditChain p h r l head status) :
    ∀ x ∈ l, x.2.to_ = .applied → x.2.from_ = some .approved ∨ r.destructive = false := by
  induction hc with
  | proposed hfrom hto hprev =>
    intro x hx happlied
    obtain rfl := List.mem_singleton.1 hx
    rw [hto] at happlied
    cases happlied
  | step hl hprev hfrom hallowed ih =>
    intro x hx happlied
    rcases List.mem_append.1 hx with hx | hx
    · exact ih x hx happlied
    · obtain rfl := List.mem_singleton.1 hx
      rcases hallowed.applied happlied with rfl | ⟨-, -, hharmless, -⟩
      · exact .inl hfrom
      · exact .inr hharmless

/-- A clean step keeps the ledger and guards what is destructive. -/
theorem Clean.keeps (hS : S.SparesLoop) {op : LoopOp} {x : Except Error Unit}
    (hrun : Runs S.Performs (op.prog E) m x m') (hclean : Clean S op m x m')
    (hk : m.Keeps m.state) : m'.Keeps m'.state ∧ Guarded op m m' := by
  rcases hclean.whole with rfl | hsame
  · have hfree := hclean.apart
    cases op with
    | run opts nowMs =>
      obtain ⟨res, m₁, hrun, hend⟩ := Runs.bind_ok hrun
      obtain ⟨-, rfl⟩ := Runs.pure_iff.1 hend
      obtain ⟨hkept, hfresh⟩ := run_keeps hS hrun hk hfree (hclean.redrawn opts nowMs rfl)
      refine ⟨hkept, fun x hx hnew happlied r hr hdestructive => ?_⟩
      obtain ⟨head, status, hchain, -⟩ := hkept.chained _ hr
      have hown : x ∈ recordsOf m'.audits x.2.recHash := List.mem_filter.2 ⟨hx, by simp⟩
      rcases hchain.harmless x hown happlied with hfrom | hharmless
      · exact absurd hfrom ((hfresh x hx).resolve_left hnew)
      · rw [hdestructive] at hharmless
        cases hharmless
    | review h d by_ =>
      obtain ⟨hkept, hfresh⟩ := review_keeps hrun hk hfree
      refine ⟨hkept, fun x hx hnew happlied => ?_⟩
      rw [(hfresh x hx).resolve_left hnew] at happlied
      cases d <;> cases happlied
    | apply h by_ allowDestructive =>
      obtain ⟨a, m₁, hrun, hend⟩ := Runs.bind_ok hrun
      obtain ⟨-, rfl⟩ := Runs.pure_iff.1 hend
      obtain ⟨hkept, r, hr, hgated, hfresh⟩ := apply_keeps hS hrun hk hfree
      refine ⟨hkept, fun x hx hnew happlied r' hr' hdestructive => ?_⟩
      rcases (hfresh x hx).resolve_left hnew with hback | rfl
      · rw [hback] at happlied
        cases happlied
      · have hsame : (x.2.recHash, r') = (x.2.recHash, r) :=
          List.inj_on_of_nodup_map hkept.recsApart hr' hr rfl
        cases hsame
        unfold destructiveGated at hgated
        rw [hdestructive] at hgated
        simp only [Bool.true_and, Bool.or_eq_false_iff, Bool.not_eq_false'] at hgated
        exact ⟨by_, by rw [hgated.2], hgated.1⟩
    | rollback h by_ =>
      obtain ⟨htaken, hkept⟩ := rollback_keeps hS hrun hk
      refine ⟨hkept hfree, fun x hx hnew happlied => ?_⟩
      rw [(htaken.fresh x hx).resolve_left hnew] at happlied
      cases happlied
  · refine ⟨?_, hsame.guarded⟩
    rw [hsame.state]
    exact hsame.keeps hk

theorem Untouched.keeps (hm : Untouched m) : m.Keeps m.state where
  recsApart := by
    rw [hm.recs]
    exact List.nodup_nil
  auditsApart := by
    rw [hm.audits]
    exact List.nodup_nil
  owned := by
    rw [hm.audits]
    exact fun x hx => nomatch hx
  known := fun k status hknown => by
    rw [hm.statusIndex] at hknown
    cases hknown
  chained := by
    rw [hm.recs]
    exact fun x hx => nomatch hx

/-- The finding of one analyzer. -/
def flagDraft : RecDraft where
  targetRef := "entity:a/b"
  actionKind := .flag
  summary := ⟨"loop.flag", []⟩
  severity := .low
  proposal := .cal
    "ADD fact \x7b\"subject\":\"a\",\"relation\":\"b\",\"object\":\"c\"\x7d"
  evidence := []
  evidenceQuery := none
  metric := none
  confidence := 1
  importance := 1

/-- An analyzer with that finding. -/
def flagger : Analyzer where
  manifest := ⟨"loop.flag/1", [], .never, .builtin, true, fun _ => .ok []⟩
  analyze _ := pure [flagDraft]
  reads _ := Calls.ret

/-- An engine with that analyzer. -/
def flagEngine : Engine := { bareEngine with analyzers := [flagger] }

/-- A substrate that answers every call, with given addresses. -/
def plainSubstrate (recHash : Recommendation → GrainHash) (auditHash : AuditRecord → GrainHash) :
    Substrate Unit where
  recHash := recHash
  auditHash := auditHash
  grainsOfType _ _ _ _ := []
  grain _ _ := none
  heads _ _ := []
  telemetry _ _ := none
  executes _ m r m' := r = .ok [] ∧ m' = m
  retracts _ m r m' := r = .ok () ∧ m' = m

/-- What it answers. -/
def plainAnswer (recHash : Recommendation → GrainHash) (auditHash : AuditRecord → GrainHash) :
    (c : Call) → Memory Unit → Except Error c.Reply × Memory Unit
  | .grainsOfType _ _ _, m => (.ok [], m)
  | .grain _, m => (.ok none, m)
  | .heads _, m => (.ok [], m)
  | .telemetry _, m => (.ok none, m)
  | .recommendations, m => (.ok m.recs, m)
  | .recommendation h, m => (.ok (m.recs.lookup h), m)
  | .loadState, m => (.ok m.state, m)
  | .putRec x, m => (.ok (recHash x), m.addRec (recHash x) x)
  | .putAudit a, m => (.ok (auditHash a), m.addAudit (auditHash a) a)
  | .executeCal _, m => (.ok [], m)
  | .retract _ _, m => (.ok (), m)
  | .storeState p, m => (.ok (), { m with state := p })

section Plain

variable {recHash : Recommendation → GrainHash} {auditHash : AuditRecord → GrainHash}

theorem plain_spares : (plainSubstrate recHash auditHash).SparesLoop := by
  refine ⟨?_, ?_⟩
  · rintro text m r m' ⟨-, rfl⟩
    exact .refl _
  · rintro h m r m' ⟨-, rfl⟩
    exact .refl _

theorem plain_performs (c : Call) (m : Memory Unit) :
    (plainSubstrate recHash auditHash).Performs c m (plainAnswer recHash auditHash c m).1
      (plainAnswer recHash auditHash c m).2 := by
  cases c with
  | grainsOfType t ns opts => exact ⟨rfl, .inl rfl⟩
  | grain h => exact ⟨rfl, .inl rfl⟩
  | heads ns => exact ⟨rfl, .inl rfl⟩
  | telemetry ns => exact ⟨rfl, .inl rfl⟩
  | recommendations => exact ⟨rfl, .inl rfl⟩
  | recommendation h => exact ⟨rfl, .inl rfl⟩
  | loadState => exact ⟨rfl, .inl rfl⟩
  | putRec r => exact .inl ⟨rfl, rfl⟩
  | putAudit a => exact .inl ⟨rfl, rfl⟩
  | executeCal text => exact ⟨rfl, rfl⟩
  | retract h reason => exact ⟨rfl, rfl⟩
  | storeState p => exact .inl ⟨rfl, rfl⟩

theorem plain_runs {α : Type} (p : Eng α) (m : Memory Unit) :
    Runs (plainSubstrate recHash auditHash).Performs p m
      (p.exec (plainAnswer recHash auditHash) m).1 (p.exec (plainAnswer recHash auditHash) m).2 :=
  exec_runs plain_performs p m

end Plain

/-- Options without a gate. -/
def openOptions : RunOptions := ⟨none, none, none, [], false, none⟩

/-- A memory the loop has not touched. -/
def untouched : Memory Unit := ⟨[], [], .empty, ()⟩

/-- The finding, as the engine stores it. -/
def flagRec : Recommendation where
  analyzer := "loop.flag/1"
  paramsSnapshot := []
  origin := .builtin
  targetRef := "entity:a/b"
  actionKind := .flag
  dedupKey := dedupKey bareEngine.host.unicode "loop.flag" "entity:a/b" .flag
  summary := ⟨"loop.flag", []⟩
  severity := .low
  proposal := .cal
    "ADD fact \x7b\"subject\":\"a\",\"relation\":\"b\",\"object\":\"c\"\x7d"
  destructive := false
  rollbackable := true
  evidence := []
  evidenceQuery := none
  metric := none
  confidence := 1
  importance := 1
  createdAtMs := 0
  guidance := none

open Classical in
/-- An address that only the finding has. -/
noncomputable def soleRecHash (r : Recommendation) : GrainHash := if r = flagRec then "r" else "-"

/-- An address that only the record of its proposal has. -/
def soleAuditHash (a : AuditRecord) : GrainHash := if a = proposal "r" flagRec 0 then "a" else "-"

theorem soleRecHash_flagRec : soleRecHash flagRec = "r" := if_pos rfl

/-- The memory after a run that stores the finding. -/
def soleMemory : Memory Unit :=
  ⟨[("r", flagRec)], [("a", proposal "r" flagRec 0)],
    (LoopPersisted.empty.enter "r" flagRec none "a").ran 0, ()⟩

/-- The result of that run. -/
def soleResult : RunResult := ⟨none, 0, 0, 1, 0, 1, 0, ["loop.flag/1"], []⟩

/-- The run on a substrate that gives the record of the proposal the address `k`. -/
theorem flag_ran {auditHash : AuditRecord → GrainHash} {k : GrainHash}
    (hk : auditHash (proposal "r" flagRec 0) = k) :
    Runs (plainSubstrate soleRecHash auditHash).Performs (run flagEngine openOptions 0)
      untouched (.ok soleResult) ⟨[("r", flagRec)], [(k, proposal "r" flagRec 0)],
        (LoopPersisted.empty.enter "r" flagRec none k).ran 0, ()⟩ := by
  have hrun : Runs (plainSubstrate soleRecHash auditHash).Performs _ _ _ _ :=
    plain_runs (run flagEngine openOptions 0) untouched
  have hend : (run flagEngine openOptions 0).exec (plainAnswer soleRecHash auditHash)
      untouched = (.ok soleResult, ⟨[(soleRecHash flagRec, flagRec)],
        [(auditHash (proposal (soleRecHash flagRec) flagRec 0),
          proposal (soleRecHash flagRec) flagRec 0)],
        ((LoopPersisted.empty.enter (soleRecHash flagRec) flagRec none
          (auditHash (proposal (soleRecHash flagRec) flagRec 0))).ran 0), ()⟩) := rfl
  rw [hend, soleRecHash_flagRec, hk] at hrun
  exact hrun

theorem sole_ran :
    Runs (plainSubstrate soleRecHash soleAuditHash).Performs (run flagEngine openOptions 0)
      untouched (.ok soleResult) soleMemory := flag_ran (if_pos rfl)

theorem sole_run :
    Runs (plainSubstrate soleRecHash soleAuditHash).Performs
      ((LoopOp.run openOptions 0).prog flagEngine) untouched (.ok ()) soleMemory :=
  Runs.bind sole_ran (.ret _ _)

theorem sole_collisionFree :
    CollisionFree (plainSubstrate soleRecHash soleAuditHash) soleMemory := by
  refine ⟨fun r x hx heq => ?_, fun a x hx heq => ?_⟩
  · obtain rfl := List.mem_singleton.1 hx
    by_contra hne
    exact absurd ((if_neg hne).symm.trans heq) (by decide)
  · obtain rfl := List.mem_singleton.1 hx
    by_contra hne
    exact absurd ((if_neg hne).symm.trans heq) (by decide)

/-- The memory after the operations of a list, over records that differ in their
last status only. -/
def afterAll (ops : List LoopOp) : Memory Unit :=
  ops.foldl (fun m op =>
    ((op.prog flagEngine).exec (plainAnswer (fun _ => "r") fun a => a.to_.asStr) m).2) untouched

/-- Someone who may review and apply. -/
def reviewer : Actor := ⟨"user:ann", .human, [.review, .apply], "why", 0⟩

/-- A recommendation is drawn, approved, applied and rolled back. -/
def wholeLife : List LoopOp :=
  [.run openOptions 0, .review "r" .approve reviewer, .apply "r" reviewer false,
    .rollback "r" reviewer]

/-- The memory after the first `n` of these. -/
def lifeMemory (n : ℕ) : Memory Unit := afterAll (wholeLife.take n)

/-- The records of that life. -/
def lifeAudits : List (GrainHash × AuditRecord) := (lifeMemory 4).audits

/-- An address for each of them. -/
def lifeHash (a : AuditRecord) : GrainHash :=
  if a ∈ lifeAudits.map Prod.snd then a.to_.asStr else "-"

theorem lifeHash_apart (n : ℕ) (hn : n ∈ [1, 2, 3, 4]) :
    CollisionFree (plainSubstrate soleRecHash lifeHash) (lifeMemory n) := by
  have hrecs : ∀ n ∈ [1, 2, 3, 4], (lifeMemory n).recs = [("r", flagRec)] := by
    simp only [List.forall_mem_cons]
    exact ⟨rfl, rfl, rfl, rfl, fun _ h => nomatch h⟩
  have haudits : ∀ n ∈ [1, 2, 3, 4], ∀ x ∈ (lifeMemory n).audits, x ∈ lifeAudits := by
    decide
  have hfour : ∀ x ∈ lifeAudits, ∀ a ∈ lifeAudits.map Prod.snd, a.to_.asStr = x.1 → a = x.2 := by
    decide
  have hnone : ∀ x ∈ lifeAudits, x.1 ≠ "-" := by decide
  refine ⟨fun r x hx heq => ?_, fun a x hx heq => ?_⟩
  · rw [hrecs n hn] at hx
    obtain rfl := List.mem_singleton.1 hx
    by_contra hne
    exact absurd ((if_neg hne).symm.trans heq) (by decide)
  · have heq : lifeHash a = x.1 := heq
    unfold lifeHash at heq
    split_ifs at heq with hmem
    · exact hfour x (haudits n hn x hx) a hmem heq
    · exact absurd heq.symm (hnone x (haudits n hn x hx))

theorem life_run {n : ℕ} {op : LoopOp}
    (hend : (op.prog flagEngine).exec (plainAnswer soleRecHash lifeHash) (lifeMemory n) =
      (.ok (), lifeMemory (n + 1))) :
    Runs (plainSubstrate soleRecHash lifeHash).Performs (op.prog flagEngine) (lifeMemory n)
      (.ok ()) (lifeMemory (n + 1)) := by
  have hrun : Runs (plainSubstrate soleRecHash lifeHash).Performs _ _ _ _ :=
    plain_runs (op.prog flagEngine) (lifeMemory n)
  rw [hend] at hrun
  exact hrun

theorem life_approved : Runs (plainSubstrate soleRecHash lifeHash).Performs
    ((LoopOp.review "r" .approve reviewer).prog flagEngine) (lifeMemory 1) (.ok ())
      (lifeMemory 2) := life_run rfl

theorem life_applied : Runs (plainSubstrate soleRecHash lifeHash).Performs
    ((LoopOp.apply "r" reviewer false).prog flagEngine) (lifeMemory 2) (.ok ())
      (lifeMemory 3) := life_run rfl

theorem life_rolledBack : Runs (plainSubstrate soleRecHash lifeHash).Performs
    ((LoopOp.rollback "r" reviewer).prog flagEngine) (lifeMemory 3) (.ok ())
      (lifeMemory 4) := life_run rfl

theorem life_drawn : Runs (plainSubstrate soleRecHash lifeHash).Performs
    ((LoopOp.run openOptions 0).prog flagEngine) untouched (.ok ()) (lifeMemory 1) :=
  Runs.bind (flag_ran (by decide)) (.ret _ _)

theorem afterAll_reached (ops : List LoopOp) :
    Reached (plainSubstrate (fun _ => "r") fun a => a.to_.asStr) (fun _ _ _ _ => True)
      (afterAll ops) := by
  induction ops using List.reverseRecOn with
  | nil => exact .start ⟨rfl, rfl, rfl⟩
  | append_singleton ops op ih =>
    unfold afterAll at ih ⊢
    rw [List.foldl_append]
    exact .step ih flagEngine (plain_runs _ _) trivial

/-- After that life the recommendation is, at the time it was drawn first, drawn again. -/
def drawnTwice : List LoopOp := wholeLife ++ [.run openOptions 0]

/-- The last record of a chain has the last status. -/
theorem AuditChain.getLast {l : List (GrainHash × AuditRecord)} {head : GrainHash}
    {status : RecStatus} (hc : AuditChain p h r l head status) :
    l.getLast?.map (fun x => x.2.to_) = some status := by
  cases hc with
  | proposed hfrom hto hprev => simp [hto]
  | step hl hprev hfrom hallowed => simp

end Deja.Loop
