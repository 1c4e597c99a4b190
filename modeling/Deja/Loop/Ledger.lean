import Deja.Loop.Stores

/-!
# The ledger of a recommendation

The audit records of a recommendation, in the order they were put, are a chain from
its proposal: each names the one before it, starts from the status that one ended
in and is a legal step (`AuditChain`).  A **ledger** is a memory where that holds of
every stored recommendation and the loop state names the last status and the last
record (`Ledger`); entering a new recommendation and recording a legal transition
keep it.
-/

namespace Deja.Loop

variable {U : Type}

/-! ## Chains -/

/-- The record was made by the host policy. -/
def AuditRecord.byPolicy (a : AuditRecord) : Bool :=
  a.actor = "policy:auto" ∧ a.observerType = .policy

/-- A step a recommendation may take. -/
structure Allowed (p : LoopPersisted) (h : GrainHash) (r : Recommendation) (from_ : RecStatus)
    (a : AuditRecord) : Prop where
  legal : from_.canTransitionTo a.to_ a.byPolicy = true
  notOwn : a.to_ = .approved →
    p.creators.lookup h ≠ some a.actor ∧ p.coCreators.lookup h ≠ some a.actor
  applied : a.to_ = .applied → from_ = .approved ∨
    from_ = .pending ∧ a.byPolicy = true ∧ r.destructive = false ∧ r.origin = .builtin

/-- Records that form a chain from a proposal; the last one and its status. -/
inductive AuditChain (p : LoopPersisted) (h : GrainHash) (r : Recommendation) :
    List (GrainHash × AuditRecord) → GrainHash → RecStatus → Prop
  | proposed {x : GrainHash} {a : AuditRecord} (hfrom : a.from_ = none) (hto : a.to_ = .pending)
      (hprev : a.previousAuditHash = none) : AuditChain p h r [(x, a)] x .pending
  | step {l : List (GrainHash × AuditRecord)} {head x : GrainHash} {status : RecStatus}
      {a : AuditRecord} (hl : AuditChain p h r l head status)
      (hprev : a.previousAuditHash = some head) (hfrom : a.from_ = some status)
      (hallowed : Allowed p h r status a) : AuditChain p h r (l ++ [(x, a)]) x a.to_

variable {p p' : LoopPersisted} {h : GrainHash} {r : Recommendation}
  {l : List (GrainHash × AuditRecord)} {head : GrainHash} {status : RecStatus}

theorem AuditChain.head_mem (hc : AuditChain p h r l head status) : head ∈ l.map Prod.fst := by
  cases hc with
  | proposed => exact List.mem_singleton_self _
  | step => simp

/-- No record of a chain names the last one. -/
theorem AuditChain.prev_ne_head (hc : AuditChain p h r l head status)
    (hnodup : (l.map Prod.fst).Nodup) : ∀ x ∈ l, x.2.previousAuditHash ≠ some head := by
  cases hc with
  | proposed hfrom hto hprev =>
    intro x hx
    obtain rfl := List.mem_singleton.1 hx
    rw [hprev]
    exact Option.some_ne_none _ |>.symm
  | @step l head' _ status' a hl hprev hfrom hallowed =>
    -- a record of the chain names one before the last, and addresses are unique
    rw [List.map_append, List.nodup_append] at hnodup
    obtain ⟨-, -, hdisjoint⟩ := hnodup
    have hnames : ∀ {l : List (GrainHash × AuditRecord)} {head : GrainHash} {status : RecStatus},
        AuditChain p h r l head status → ∀ y ∈ l, ∀ z, y.2.previousAuditHash = some z →
          z ∈ l.map Prod.fst := by
      intro l head status hc
      induction hc with
      | proposed hfrom hto hprev =>
        intro y hy z hz
        obtain rfl := List.mem_singleton.1 hy
        rw [hprev] at hz
        cases hz
      | step hl hprev hfrom hallowed ih =>
        intro y hy z hz
        rw [List.map_append, List.mem_append]
        left
        rcases List.mem_append.1 hy with hy | hy
        · exact ih y hy z hz
        · obtain rfl := List.mem_singleton.1 hy
          rw [hprev] at hz
          cases hz
          exact hl.head_mem
    have hlast : ∀ z ∈ l.map Prod.fst, z ≠ head := fun z hz =>
      hdisjoint z hz head (List.mem_singleton_self _)
    intro y hy hyx
    rcases List.mem_append.1 hy with hy | hy
    · exact hlast head (hnames hl y hy head hyx) rfl
    · obtain rfl := List.mem_singleton.1 hy
      rw [hprev] at hyx
      cases hyx
      exact hlast _ hl.head_mem rfl

/-- A chain is one under any state with the same creators of its recommendation. -/
theorem AuditChain.congr (hc : AuditChain p h r l head status)
    (hcreator : p'.creators.lookup h = p.creators.lookup h)
    (htrigger : p'.coCreators.lookup h = p.coCreators.lookup h) :
    AuditChain p' h r l head status := by
  induction hc with
  | proposed hfrom hto hprev => exact .proposed hfrom hto hprev
  | step _ hprev hfrom hallowed ih =>
    refine .step ih hprev hfrom ⟨hallowed.legal, fun happroved => ?_, hallowed.applied⟩
    rw [hcreator, htrigger]
    exact hallowed.notOwn happroved

/-! ## Ledgers -/

/-- The records of one recommendation. -/
def recordsOf (audits : List (GrainHash × AuditRecord)) (h : GrainHash) :
    List (GrainHash × AuditRecord) :=
  audits.filter fun x => x.2.recHash = h

/-- What is stored of the loop and what the loop state says of it agree. -/
structure Ledger (recs : List (GrainHash × Recommendation))
    (audits : List (GrainHash × AuditRecord)) (p : LoopPersisted) : Prop where
  recsApart : (recs.map Prod.fst).Nodup
  auditsApart : (audits.map Prod.fst).Nodup
  owned : ∀ x ∈ audits, x.2.recHash ∈ recs.map Prod.fst
  known : ∀ h status, p.statusIndex.lookup h = some status → h ∈ recs.map Prod.fst
  chained : ∀ x ∈ recs, ∃ head status, AuditChain p x.1 x.2 (recordsOf audits x.1) head status ∧
    p.statusIndex.lookup x.1 = some status ∧ p.auditHeads.lookup x.1 = some head

section Ledger

variable {recs : List (GrainHash × Recommendation)} {audits : List (GrainHash × AuditRecord)}

/-- The maps a ledger is about. -/
structure SameMaps (p p' : LoopPersisted) : Prop where
  statusIndex : p'.statusIndex = p.statusIndex
  auditHeads : p'.auditHeads = p.auditHeads
  creators : p'.creators = p.creators
  coCreators : p'.coCreators = p.coCreators

theorem Ledger.congr (hl : Ledger recs audits p) (hp : SameMaps p p') : Ledger recs audits p' where
  recsApart := hl.recsApart
  auditsApart := hl.auditsApart
  owned := hl.owned
  known := by
    rw [hp.statusIndex]
    exact hl.known
  chained := fun x hx => by
    obtain ⟨head, status, hchain, hstatus, hhead⟩ := hl.chained x hx
    exact ⟨head, status, hchain.congr (by rw [hp.creators]) (by rw [hp.coCreators]),
      by rw [hp.statusIndex, hstatus], by rw [hp.auditHeads, hhead]⟩

theorem recordsOf_append (audits : List (GrainHash × AuditRecord)) (x : GrainHash)
    (a : AuditRecord) (h : GrainHash) :
    recordsOf (audits ++ [(x, a)]) h =
      recordsOf audits h ++ if a.recHash = h then [(x, a)] else [] := by
  rw [recordsOf, List.filter_append, recordsOf]
  by_cases ha : a.recHash = h <;> simp [ha]

section Enter

variable {x : GrainHash} {trigger : Option String}

@[simp] theorem LoopPersisted.enter_statusIndex (k : GrainHash) :
    (p.enter h r trigger x).statusIndex.lookup k =
      if k = h then some .pending else p.statusIndex.lookup k := Sorted.lookup_insert ..

@[simp] theorem LoopPersisted.enter_auditHeads (k : GrainHash) :
    (p.enter h r trigger x).auditHeads.lookup k =
      if k = h then some x else p.auditHeads.lookup k := Sorted.lookup_insert ..

theorem LoopPersisted.enter_creators {k : GrainHash} (hk : k ≠ h) :
    (p.enter h r trigger x).creators.lookup k = p.creators.lookup k :=
  (Sorted.lookup_insert ..).trans (if_neg hk)

theorem LoopPersisted.enter_coCreators {k : GrainHash} (hk : k ≠ h) :
    (p.enter h r trigger x).coCreators.lookup k = p.coCreators.lookup k := by
  unfold LoopPersisted.enter
  cases trigger with
  | none => rfl
  | some t =>
    simp only
    split_ifs
    · rfl
    · rw [Sorted.lookup_insert, if_neg hk]

@[simp] theorem LoopPersisted.advance_statusIndex {to_ : RecStatus} (k : GrainHash) :
    (p.advance h to_ x).statusIndex.lookup k =
      if k = h then some to_ else p.statusIndex.lookup k := Sorted.lookup_insert ..

@[simp] theorem LoopPersisted.advance_auditHeads {to_ : RecStatus} (k : GrainHash) :
    (p.advance h to_ x).auditHeads.lookup k =
      if k = h then some x else p.auditHeads.lookup k := Sorted.lookup_insert ..

end Enter

/-- Entering a recommendation that is not stored. -/
theorem Ledger.enter (hl : Ledger recs audits p) {x : GrainHash} {trigger : Option String}
    {nowMs : ℤ} (hnew : h ∉ recs.map Prod.fst) (hx : x ∉ audits.map Prod.fst) :
    Ledger (recs ++ [(h, r)]) (audits ++ [(x, proposal h r nowMs)]) (p.enter h r trigger x) where
  recsApart := by
    rw [List.map_append, List.nodup_append]
    refine ⟨hl.recsApart, List.nodup_singleton _, fun y hy z hz => ?_⟩
    obtain rfl := List.mem_singleton.1 hz
    exact fun heq => hnew (heq ▸ hy)
  auditsApart := by
    rw [List.map_append, List.nodup_append]
    refine ⟨hl.auditsApart, List.nodup_singleton _, fun y hy z hz => ?_⟩
    obtain rfl := List.mem_singleton.1 hz
    exact fun heq => hx (heq ▸ hy)
  owned := fun y hy => by
    rw [List.map_append, List.mem_append]
    rcases List.mem_append.1 hy with hy | hy
    · exact .inl (hl.owned y hy)
    · obtain rfl := List.mem_singleton.1 hy
      exact .inr (List.mem_singleton_self _)
  known := fun y status hy => by
    rw [List.map_append, List.mem_append]
    rw [LoopPersisted.enter_statusIndex] at hy
    split_ifs at hy with heq
    · exact .inr (heq ▸ List.mem_singleton_self _)
    · exact .inl (hl.known y status hy)
  chained := fun y hy => by
    rw [LoopPersisted.enter_statusIndex, LoopPersisted.enter_auditHeads, recordsOf_append]
    rcases List.mem_append.1 hy with hy | hy
    · have hne : y.1 ≠ h := fun heq => hnew (heq ▸ List.mem_map_of_mem hy)
      have hother : (proposal h r nowMs).recHash ≠ y.1 := Ne.symm hne
      rw [if_neg hne, if_neg hne, if_neg hother, List.append_nil]
      obtain ⟨head, status, hchain, hrest⟩ := hl.chained y hy
      exact ⟨head, status, hchain.congr (LoopPersisted.enter_creators hne)
        (LoopPersisted.enter_coCreators hne), hrest⟩
    · obtain rfl := List.mem_singleton.1 hy
      have hnone : recordsOf audits h = [] := List.filter_eq_nil_iff.2 fun z hz hzh =>
        hnew (of_decide_eq_true hzh ▸ hl.owned z hz)
      have hown : (proposal h r nowMs).recHash = h := rfl
      rw [if_pos rfl, if_pos rfl, if_pos hown, hnone, List.nil_append]
      exact ⟨x, .pending, .proposed rfl rfl rfl, rfl, rfl⟩

/-- Recording a legal transition of a stored recommendation. -/
theorem Ledger.record (hl : Ledger recs audits p) {x : GrainHash} {to_ : RecStatus} {actor : String}
    {observer : ObserverType} {because : String} {nowMs : ℤ} (hr : (h, r) ∈ recs)
    (hstatus : p.statusIndex.lookup h = some status)
    (hallowed : Allowed p h r status (p.transition h status to_ actor observer because nowMs))
    (hx : x ∉ audits.map Prod.fst) :
    Ledger recs (audits ++ [(x, p.transition h status to_ actor observer because nowMs)])
      (p.advance h to_ x) where
  recsApart := hl.recsApart
  auditsApart := by
    rw [List.map_append, List.nodup_append]
    refine ⟨hl.auditsApart, List.nodup_singleton _, fun y hy z hz => ?_⟩
    obtain rfl := List.mem_singleton.1 hz
    exact fun heq => hx (heq ▸ hy)
  owned := fun y hy => by
    rcases List.mem_append.1 hy with hy | hy
    · exact hl.owned y hy
    · obtain rfl := List.mem_singleton.1 hy
      exact List.mem_map_of_mem hr
  known := fun y status' hy => by
    rw [LoopPersisted.advance_statusIndex] at hy
    split_ifs at hy with heq
    · exact heq ▸ List.mem_map_of_mem hr
    · exact hl.known y status' hy
  chained := fun y hy => by
    have hown : (p.transition h status to_ actor observer because nowMs).recHash = h := rfl
    rw [LoopPersisted.advance_statusIndex, LoopPersisted.advance_auditHeads, recordsOf_append,
      hown]
    obtain ⟨head, status', hchain, hknown, hheads⟩ := hl.chained y hy
    by_cases hne : y.1 = h
    · obtain rfl : y = (h, r) := by
        exact List.inj_on_of_nodup_map hl.recsApart hy hr hne
      rw [hstatus] at hknown
      cases hknown
      have hself : (h, r).1 = h := rfl
      rw [if_pos hself, if_pos hself, if_pos hself.symm]
      exact ⟨x, to_, .step (hchain.congr rfl rfl) hheads rfl
        ⟨hallowed.legal, hallowed.notOwn, hallowed.applied⟩, rfl, rfl⟩
    · rw [if_neg hne, if_neg hne, if_neg (Ne.symm hne), List.append_nil]
      exact ⟨head, status', hchain.congr rfl rfl, hknown, hheads⟩

/-- The record of a transition is new: no record stored names the last one. -/
theorem Ledger.transition_new (hl : Ledger recs audits p) {a : AuditRecord} (hr : (h, r) ∈ recs)
    (ha : a.recHash = h) (hprev : a.previousAuditHash = p.auditHeads.lookup h) :
    ∀ x ∈ audits, x.2 ≠ a := by
  intro x hx heq
  obtain ⟨head, status', hchain, -, hhead⟩ := hl.chained (h, r) hr
  have hmem : x ∈ recordsOf audits h := by
    rw [recordsOf, List.mem_filter]
    exact ⟨hx, by simpa [heq] using ha⟩
  refine hchain.prev_ne_head (hl.auditsApart.sublist (List.filter_sublist.map _)) x hmem ?_
  rw [heq, hprev, hhead]

end Ledger

end Deja.Loop
