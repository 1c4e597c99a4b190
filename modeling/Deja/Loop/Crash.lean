import Deja.Loop.History

/-!
# Runs that stop half way

A run that is cut off after any of its calls, or fails, leaves some of its
recommendations stored and none in the loop state.  A recommendation that the state
does not know counts as open, so a key still has one open recommendation at most
(`cut_histories`), and a later run stores nothing under it.  What a run finds depends on
the watermark, so one that sweeps everything may find more than the one before it
(`full_sweep_stores`).
-/

namespace Deja.Loop

open Prog

variable {U : Type}

/-! ## Steps that may be cut off -/

/-- The substrate, with calls that may all fail and do nothing. -/
def Substrate.faulty (S : Substrate U) : Substrate U :=
  { S with
    executes := fun text m r m' => S.executes text m r m' ∨ (∃ e, r = .error e) ∧ m' = m
    retracts := fun h m r m' => S.retracts h m r m' ∨ (∃ e, r = .error e) ∧ m' = m }

variable {S : Substrate U} {m m' : Memory U}

theorem Substrate.SparesLoop.faulty (hS : S.SparesLoop) : S.faulty.SparesLoop := by
  refine ⟨fun text m r m' h => ?_, fun hash m r m' h => ?_⟩
  · rcases h with h | ⟨-, rfl⟩
    · exact hS.executes _ _ _ _ h
    · exact .refl _
  · rcases h with h | ⟨-, rfl⟩
    · exact hS.retracts _ _ _ _ h
    · exact .refl _

theorem Substrate.performs_faulty (c : Call) (m : Memory U) (r : Except Error c.Reply)
    (m' : Memory U) (h : S.Performs c m r m') : S.faulty.Performs c m r m' := by
  cases c <;> first | exact .inl h | exact h

theorem Substrate.faulty_fails (c : Call) (m : Memory U) :
    ∃ e, S.faulty.Performs c m (.error e) m := by
  refine ⟨.internal "", ?_⟩
  cases c <;> first
    | exact ⟨rfl, .inr ⟨_, rfl⟩⟩
    | exact .inr ⟨_, rfl, rfl⟩
    | exact .inr ⟨⟨_, rfl⟩, rfl⟩

/-- The memories a history may end in, whose operations may be cut off after any of
their calls. -/
inductive CutReached (S : Substrate U) : Memory U → Prop
  | start {m : Memory U} (h : Untouched m) : CutReached S m
  | step {m m' : Memory U} (hm : CutReached S m) (E : Engine) (op : LoopOp)
      (h : Stops S.Performs (op.prog E) m m') (hfree : CollisionFree S m') : CutReached S m'

/-! ## Open recommendations -/

/-- The state says that the recommendation is open, or does not know it. -/
def LoopPersisted.opens (p : LoopPersisted) (h : GrainHash) : Bool :=
  ((p.statusIndex.lookup h).getD .pending).blocks

/-- A key has one open recommendation at most. -/
def OneOpen (recs : List (GrainHash × Recommendation)) (p : LoopPersisted) : Prop :=
  ∀ x ∈ recs, ∀ y ∈ recs, p.opens x.1 = true → p.opens y.1 = true →
    x.2.dedupKey = y.2.dedupKey → x = y

theorem OneOpen.of_opens {recs : List (GrainHash × Recommendation)} {p p' : LoopPersisted}
    (hone : OneOpen recs p) (h : ∀ k, p'.opens k = true → p.opens k = true) : OneOpen recs p' :=
  fun x hx y hy hox hoy => hone x hx y hy (h _ hox) (h _ hoy)

/-! ## Operations that store no recommendation -/

/-- A memory with the same recommendations, none of which was opened. -/
structure Closes (m m' : Memory U) : Prop where
  recs : m'.recs = m.recs
  opens : ∀ k, m'.state.opens k = true → m.state.opens k = true

theorem Closes.refl (m : Memory U) : Closes m m := ⟨rfl, fun _ h => h⟩

theorem SameLoop.closes (h : SameLoop m m') : Closes m m' :=
  ⟨h.recs, fun k hk => by rwa [h.state] at hk⟩

theorem Closes.trans {m₁ m₂ m₃ : Memory U} (h : Closes m₁ m₂) (h' : Closes m₂ m₃) : Closes m₁ m₃ :=
  ⟨h'.recs.trans h.recs, fun k hk => h.opens k (h'.opens k hk)⟩

theorem Closes.oneOpen (h : Closes m m') (hone : OneOpen m.recs m.state) :
    OneOpen m'.recs m'.state := by
  rw [h.recs]
  exact hone.of_opens h.opens

theorem RecStatus.blocks_of_legal {s t : RecStatus} (h : s.canTransitionTo t false = true) :
    s.blocks = true := by
  cases s <;> first | rfl | (cases t <;> cases h)

theorem LoopPersisted.advance_statusIndex_of_ne {p : LoopPersisted} {h k head : GrainHash}
    {to_ : RecStatus} (hk : k ≠ h) :
    (p.advance h to_ head).statusIndex.lookup k = p.statusIndex.lookup k :=
  (LoopPersisted.advance_statusIndex k).trans (if_neg hk)

theorem LoopPersisted.opens_of_lookup {p : LoopPersisted} {h : GrainHash} {status : RecStatus}
    (hstatus : p.statusIndex.lookup h = some status) (hblocks : status.blocks = true) :
    p.opens h = true := by
  unfold LoopPersisted.opens
  rw [hstatus]
  exact hblocks

/-- The end of a transition of a recommendation that was open before. -/
theorem Records.closes {α : Type} {a : AuditRecord} {q : LoopPersisted} {v : α}
    {h : GrainHash} {x : Except Error α} {m₀ : Memory U} (hrec : Records S a q v m x m')
    (hm : Closes m₀ m) (hopen : m₀.state.opens h = true)
    (hq : ∀ k, k ≠ h → q.statusIndex.lookup k = m.state.statusIndex.lookup k) : Closes m₀ m' := by
  cases hrec with
  | refused e => exact hm
  | unlinked e =>
    refine ⟨(Memory.addAudit_recs _ _ _).trans hm.recs, fun k hk => hm.opens k ?_⟩
    rwa [Memory.addAudit_state] at hk
  | done =>
    refine ⟨(Memory.addAudit_recs _ _ _).trans hm.recs, fun k hk => ?_⟩
    by_cases hkh : k = h
    · rw [hkh]
      exact hopen
    · refine hm.opens k ?_
      unfold LoopPersisted.opens at hk ⊢
      rwa [← hq k hkh]

variable {E : Engine} {h : GrainHash} {by_ : Actor}

theorem review_closes {d : Decision} {x : Except Error Unit}
    (hrun : Runs S.Performs (review E h d by_) m x m') : Closes m m' := by
  rcases review_runs hrun with ⟨e, -, rfl⟩ | ⟨because, hfrom⟩
  · exact .refl _
  rcases reviewFrom_runs hfrom with ⟨e, -, rfl⟩ | ⟨status, hgates, q, hq, hrec⟩
  · exact .refl _
  refine hrec.closes (.refl m) (LoopPersisted.opens_of_lookup hgates.known
    (RecStatus.blocks_of_legal hgates.legal)) fun k hk => ?_
  rw [hq.eq]
  show (m.state.advance h d.status
    (S.auditHash (reviewAudit m.state h d status by_ because))).statusIndex.lookup k = _
  rw [LoopPersisted.advance_statusIndex_of_ne hk]

theorem rollback_closes (hS : S.SparesLoop) {x : Except Error Unit}
    (hrun : Runs S.Performs (rollback E h by_) m x m') : Closes m m' := by
  rcases rollback_runs hrun with ⟨e, -, rfl⟩ | ⟨because, -, -, hfrom⟩
  · exact .refl _
  rcases rollbackFrom_runs hfrom with ⟨e, -, rfl⟩ | ⟨status, applied, hgates, y, m₁, hretract, hend⟩
  · exact .refl _
  have hsame := retractAll_loop hS hretract
  rcases hend with ⟨e, -, -, rfl⟩ | ⟨-, hrec⟩
  · exact hsame.closes
  · refine hrec.closes hsame.closes (LoopPersisted.opens_of_lookup hgates.known
      (RecStatus.blocks_of_legal hgates.legal)) fun k hk => ?_
    rw [hsame.state, LoopPersisted.advance_statusIndex_of_ne hk]

theorem apply_closes (hS : S.SparesLoop) {allowDestructive : Bool} {x : Except Error AppliedRecord}
    (hrun : Runs S.Performs (apply E h by_ allowDestructive) m x m') : Closes m m' := by
  rcases apply_runs hrun with ⟨e, -, rfl⟩ | ⟨because, -, -, hfrom⟩
  · exact .refl _
  rcases applyFrom_runs hfrom with ⟨e, -, rfl⟩ | ⟨status, r, hgates, y, m₁, hexecute, hend⟩
  · exact .refl _
  have hexecuted := execute_runs hexecute
  have hcloses : Closes m m₁ := by
    generalize r.proposal = proposal at hexecuted
    cases hexecuted with
    | ran hcal => exact (hS.executes _ _ _ _ hcal).closes
    | broke hcal => exact (hS.executes _ _ _ _ hcal).closes
    | advisory => exact .refl _
    | reverted ht hback => exact rollback_closes hS hback
    | unread e ht hback => exact rollback_closes hS hback
    | stuck ht hback => exact rollback_closes hS hback
  rcases hend with ⟨e, -, -, rfl⟩ | ⟨created, p, rfl, hrec⟩
  · exact hcloses
  · have hp : p.statusIndex = m₁.state.statusIndex := by
      generalize r.proposal = proposal at hexecuted
      cases hexecuted with
      | ran hcal => rw [(hS.executes _ _ _ _ hcal).state]
      | reverted ht hback => rfl
    refine hrec.closes hcloses (LoopPersisted.opens_of_lookup hgates.known
      (RecStatus.blocks_of_legal hgates.legal)) fun k hk => ?_
    show (p.advance h .applied
      (S.auditHash (applyAudit p h status by_ because))).statusIndex.lookup k = _
    rw [LoopPersisted.advance_statusIndex_of_ne hk, hp]

/-! ## What a run stores -/

section Run

variable {opts : RunOptions} {nowMs : ℤ} {p p' : LoopPersisted} {r : Recommendation}

theorem StoresOne.stored {x : Except Error (LoopPersisted × Bool)}
    (hone : StoresOne E S opts nowMs p r m x m') :
    ∀ y ∈ m'.recs, y ∈ m.recs ∨ y = (S.recHash r, r) := by
  intro y hy
  cases hone with
  | refused e => exact .inl hy
  | unrecorded e => exact Memory.mem_addRec hy
  | unapplied e hsame =>
    rw [hsame.recs] at hy
    exact Memory.mem_propose_recs hy
  | pending => exact Memory.mem_propose_recs hy
  | applied created hgranted hsame =>
    rw [hsame.recs, Memory.addAudit_recs] at hy
    exact Memory.mem_propose_recs hy

theorem StoresOne.state {x : Except Error (LoopPersisted × Bool)}
    (hone : StoresOne E S opts nowMs p r m x m') : m'.state = m.state := by
  cases hone with
  | refused e => rfl
  | unrecorded e => exact Memory.addRec_state _ _ _
  | unapplied e hsame => exact hsame.state.trans (m.propose_state r nowMs)
  | pending => exact m.propose_state r nowMs
  | applied created hgranted hsame =>
    rw [hsame.state, Memory.addAudit_state, Memory.propose_state]

/-- The loop state is not stored before the end. -/
theorem StoresAll.state {rs : List Recommendation} {y : Except Error (LoopPersisted × ℕ)}
    (hall : StoresAll E S opts nowMs p rs m y m') : m'.state = m.state := by
  induction hall with
  | nil p m => rfl
  | stop hone => exact hone.state
  | cons hone _ ih => exact ih.trans hone.state

/-- What is stored afterwards was stored before or survived. -/
theorem StoresAll.stored {rs : List Recommendation} {y : Except Error (LoopPersisted × ℕ)}
    (hall : StoresAll E S opts nowMs p rs m y m') :
    ∀ x ∈ m'.recs, x ∈ m.recs ∨ ∃ r ∈ rs, x = (S.recHash r, r) := by
  induction hall with
  | nil p m => exact fun x hx => .inl hx
  | stop hone =>
    intro x hx
    exact (hone.stored x hx).imp_right fun h => ⟨_, List.mem_cons_self .., h⟩
  | cons hone _ ih =>
    intro x hx
    rcases ih x hx with hx | ⟨r, hr, rfl⟩
    · exact (hone.stored x hx).imp_right fun h => ⟨_, List.mem_cons_self .., h⟩
    · exact .inr ⟨r, List.mem_cons_of_mem _ hr, rfl⟩

theorem StoresOne.statusIndex {applied : Bool}
    (hone : StoresOne E S opts nowMs p r m (.ok (p', applied)) m') :
    ∃ status : RecStatus, status.blocks = true ∧ ∀ k, p'.statusIndex.lookup k =
      if k = S.recHash r then some status else p.statusIndex.lookup k := by
  cases hone with
  | pending => exact ⟨.pending, rfl, LoopPersisted.enter_statusIndex⟩
  | applied created hgranted hsame =>
    refine ⟨.applied, rfl, fun k => ?_⟩
    show ((S.entered opts p r nowMs).advance (S.recHash r) .applied (S.auditHash
      (autoAudit (S.entered opts p r nowMs) (S.recHash r) nowMs))).statusIndex.lookup k = _
    rw [LoopPersisted.advance_statusIndex]
    by_cases hk : k = S.recHash r
    · rw [if_pos hk, if_pos hk]
    · rw [if_neg hk, if_neg hk]
      exact (LoopPersisted.enter_statusIndex k).trans (if_neg hk)

/-- A stored survivor is known and open; of the rest the state says what it said. -/
theorem StoresAll.statusIndex {rs : List Recommendation} {n : ℕ}
    (hall : StoresAll E S opts nowMs p rs m (.ok (p', n)) m') (k : GrainHash) :
    (k ∉ rs.map S.recHash ∧ p'.statusIndex.lookup k = p.statusIndex.lookup k) ∨
      (k ∈ rs.map S.recHash ∧ ∃ status, p'.statusIndex.lookup k = some status ∧
        status.blocks = true) := by
  generalize hy : (Except.ok (p', n) : Except Error (LoopPersisted × ℕ)) = y at hall
  induction hall generalizing p' n with
  | nil p m =>
    cases hy
    exact .inl ⟨List.not_mem_nil, rfl⟩
  | stop h => cases hy
  | @cons p p₁ applied r rs m m₁ m' z hone hs ih =>
    cases z with
    | error e => cases hy
    | ok z =>
      cases hy
      obtain ⟨status, hblocks, hindex⟩ := hone.statusIndex
      rw [List.map_cons, List.mem_cons]
      rcases ih rfl with ⟨hk, heq⟩ | ⟨hk, hsome⟩
      · rw [heq, hindex]
        by_cases hkr : k = S.recHash r
        · rw [if_pos hkr]
          exact .inr ⟨.inl hkr, status, rfl, hblocks⟩
        · rw [if_neg hkr]
          exact .inl ⟨not_or.2 ⟨hkr, hk⟩, rfl⟩
      · exact .inr ⟨.inr hk, hsome⟩

theorem CollisionFree.mem_addRec (hfree : CollisionFree S (m.addRec (S.recHash r) r)) :
    (S.recHash r, r) ∈ (m.addRec (S.recHash r) r).recs := by
  by_cases hmem : S.recHash r ∈ m.recs.map Prod.fst
  · obtain ⟨⟨h', r'⟩, hx, heq⟩ := List.mem_map.1 hmem
    obtain rfl : h' = S.recHash r := heq
    have hx' := (m.addRec_within (S.recHash r) r).recs hx
    obtain rfl : r = r' := hfree.recs r _ hx' rfl
    exact hx'
  · unfold Memory.addRec
    rw [if_neg hmem]
    exact List.mem_append_right _ (List.mem_singleton_self _)

theorem CollisionFree.mem_addAudit {a : AuditRecord}
    (hfree : CollisionFree S (m.addAudit (S.auditHash a) a)) :
    (S.auditHash a, a) ∈ (m.addAudit (S.auditHash a) a).audits := by
  by_cases hmem : S.auditHash a ∈ m.audits.map Prod.fst
  · obtain ⟨⟨h', a'⟩, hx, heq⟩ := List.mem_map.1 hmem
    obtain rfl : h' = S.auditHash a := heq
    have hx' := (m.addAudit_within (S.auditHash a) a).audits hx
    obtain rfl : a = a' := hfree.audits a _ hx' rfl
    exact hx'
  · unfold Memory.addAudit
    rw [if_neg hmem]
    exact List.mem_append_right _ (List.mem_singleton_self _)

theorem StoresOne.recorded {applied : Bool}
    (hone : StoresOne E S opts nowMs p r m (.ok (p', applied)) m') (hfree : CollisionFree S m') :
    (S.recHash r, r) ∈ m'.recs ∧
      (S.auditHash (proposal (S.recHash r) r nowMs), proposal (S.recHash r) r nowMs) ∈
        m'.audits := by
  have hwithin : (m.propose S r nowMs).Within m' := by
    cases hone with
    | pending => exact (SameLoop.refl _).within
    | applied created hgranted hsame => exact (Memory.addAudit_within _ _ _).trans hsame.within
  have hproposed := hfree.of_within hwithin
  have hr := (hproposed.of_within (Memory.addAudit_within _ _ _)).mem_addRec
  exact ⟨hwithin.recs ((Memory.addAudit_within _ _ _).recs hr),
    hwithin.audits hproposed.mem_addAudit⟩

/-- A survivor of a run that stored them all is stored with the record of its
proposal. -/
theorem StoresAll.recorded {rs : List Recommendation} {n : ℕ}
    (hall : StoresAll E S opts nowMs p rs m (.ok (p', n)) m') (hfree : CollisionFree S m') :
    ∀ r ∈ rs, (S.recHash r, r) ∈ m'.recs ∧
      (S.auditHash (proposal (S.recHash r) r nowMs), proposal (S.recHash r) r nowMs) ∈
        m'.audits := by
  generalize hy : (Except.ok (p', n) : Except Error (LoopPersisted × ℕ)) = y at hall
  induction hall generalizing p' n with
  | nil p m => exact fun r hr => nomatch hr
  | stop h => cases hy
  | @cons p p₁ applied r rs m m₁ m' z hone hs ih =>
    cases z with
    | error e => cases hy
    | ok z =>
      cases hy
      intro r' hr'
      rcases List.mem_cons.1 hr' with rfl | hr'
      · obtain ⟨hr, ha⟩ := hone.recorded (hfree.of_within hs.within)
        exact ⟨hs.within.recs hr, hs.within.audits ha⟩
      · exact ih hfree rfl r' hr'

/-- What is open after a run that passed its gate was open before or survived. -/
theorem StoresAll.opened {rs : List Recommendation} {y : Except Error (LoopPersisted × ℕ)}
    {q : LoopPersisted} (hall : StoresAll E S opts nowMs p rs m y m') (hfree : CollisionFree S m')
    (hq : ∀ k, k ∉ rs.map S.recHash → q.statusIndex.lookup k = m.state.statusIndex.lookup k) :
    ∀ x ∈ m'.recs, q.opens x.1 = true →
      (x ∈ m.recs ∧ m.state.opens x.1 = true) ∨ ∃ r ∈ rs, x = (S.recHash r, r) := by
  intro x hx hopen
  rcases hall.stored x hx with hold | hnew
  · by_cases hk : x.1 ∈ rs.map S.recHash
    · -- the address of a stored recommendation is the one of a survivor
      obtain ⟨r, hr, heq⟩ := List.mem_map.1 hk
      refine .inr ⟨r, hr, ?_⟩
      rw [heq, hfree.recs r x hx heq]
    · refine .inl ⟨hold, ?_⟩
      unfold LoopPersisted.opens at hopen ⊢
      rwa [← hq x.1 hk]
  · exact .inr hnew

theorem Survives.key_closed {rs : List Recommendation} (hs : Survives E nowMs m.recs p rs)
    (hp : p.statusIndex = m.state.statusIndex) {x : GrainHash × Recommendation} (hx : x ∈ m.recs)
    (hopen : m.state.opens x.1 = true) : ∀ r ∈ rs, x.2.dedupKey ≠ r.dedupKey := by
  intro r hr heq
  refine hs.fresh r hr (List.mem_map.2 ⟨x, List.mem_filter.2 ⟨hx, ?_⟩, heq⟩)
  rw [hp]
  exact hopen

/-- A run opens no second recommendation of a key. -/
theorem StoresAll.oneOpen {rs : List Recommendation} {y : Except Error (LoopPersisted × ℕ)}
    {q : LoopPersisted} (hall : StoresAll E S opts nowMs p rs m y m') (hfree : CollisionFree S m')
    (hq : ∀ k, k ∉ rs.map S.recHash → q.statusIndex.lookup k = m.state.statusIndex.lookup k)
    (hs : Survives E nowMs m.recs p rs) (hp : p.statusIndex = m.state.statusIndex)
    (hone : OneOpen m.recs m.state) : OneOpen m'.recs q := by
  intro x hx x' hx' hopen hopen' hkey
  rcases hall.opened hfree hq x hx hopen with ⟨hold, hwas⟩ | ⟨r, hr, rfl⟩
  · rcases hall.opened hfree hq x' hx' hopen' with ⟨hold', hwas'⟩ | ⟨r', hr', rfl⟩
    · exact hone x hold x' hold' hwas hwas' hkey
    · exact absurd hkey (hs.key_closed hp hold hwas r' hr')
  · rcases hall.opened hfree hq x' hx' hopen' with ⟨hold', hwas'⟩ | ⟨r', hr', rfl⟩
    · exact absurd hkey.symm (hs.key_closed hp hold' hwas' r hr)
    · rw [List.inj_on_of_nodup_map hs.apart hr hr' hkey]

theorem Passes.statusIndex {pass : AnalysisPass} (hpass : Passes E S opts nowMs m p pass) :
    p.statusIndex = m.state.statusIndex := by
  rw [hpass.measured.eq]

theorem run_oneOpen (hS : S.SparesLoop) {x : Except Error RunResult}
    (hrun : Runs S.Performs (run E opts nowMs) m x m') (hfree : CollisionFree S m')
    (hone : OneOpen m.recs m.state) : OneOpen m'.recs m'.state := by
  rcases run_runs hS hrun with rfl | hon
  · exact hone
  cases hon with
  | failed hpass hall =>
    refine hall.oneOpen hfree (fun k _ => ?_) hpass.survives hpass.statusIndex hone
    rw [hall.state]
  | done hpass hall hres =>
    refine hall.oneOpen ⟨hfree.recs, hfree.audits⟩ (fun k hk => ?_) hpass.survives
      hpass.statusIndex hone
    rcases hall.statusIndex k with ⟨-, heq⟩ | ⟨hmem, -⟩
    · rw [← hpass.statusIndex]
      exact heq
    · exact absurd hmem hk

/-- A recommendation a run may store: its key is neither known nor in cooldown. -/
structure Unknown (m : Memory U) (nowMs : ℤ) (r : Recommendation) : Prop where
  fresh : r.dedupKey ∉ existingDedupKeys m.state m.recs
  cool : inCooldown m.state nowMs r.dedupKey = false

theorem run_stores_unknown (hS : S.SparesLoop) {x : Except Error RunResult}
    (hrun : Runs S.Performs (run E opts nowMs) m x m') :
    ∀ y ∈ m'.recs, y ∈ m.recs ∨ Unknown m nowMs y.2 := by
  have hunknown : ∀ {pass : AnalysisPass} {p : LoopPersisted}, Passes E S opts nowMs m p pass →
      ∀ r ∈ pass.survivors, Unknown m nowMs r := by
    intro pass p hpass r hr
    have hfresh := hpass.survives.fresh r hr
    have hcool := hpass.survives.cool r hr
    unfold existingDedupKeys at hfresh
    unfold inCooldown at hcool
    rw [hpass.measured.eq] at hfresh hcool
    exact ⟨hfresh, hcool⟩
  intro y hy
  rcases run_runs hS hrun with rfl | hon
  · exact .inl hy
  cases hon with
  | failed hpass hall =>
    rcases hall.stored y hy with hold | ⟨r, hr, rfl⟩
    · exact .inl hold
    · exact .inr (hunknown hpass r hr)
  | done hpass hall hres =>
    rcases hall.stored y hy with hold | ⟨r, hr, rfl⟩
    · exact .inl hold
    · exact .inr (hunknown hpass r hr)

/-- A stored recommendation that can be reviewed: the state knows it and says that it
is open, and the record of its proposal is stored. -/
structure Reviewable (m : Memory U) (x : GrainHash × Recommendation) (nowMs : ℤ) : Prop where
  known : ∃ status, m.state.statusIndex.lookup x.1 = some status ∧ status.blocks = true
  proposed : proposal x.1 x.2 nowMs ∈ m.audits.map Prod.snd

theorem run_reviewable (hS : S.SparesLoop) {res : RunResult}
    (hrun : Runs S.Performs (run E opts nowMs) m (.ok res) m') (hfree : CollisionFree S m') :
    ∀ y ∈ m'.recs, y ∈ m.recs ∨ Reviewable m' y nowMs := by
  intro y hy
  rcases run_runs hS hrun with rfl | hon
  · exact .inl hy
  cases hon with
  | done hpass hall hres =>
    rcases hall.stored y hy with hold | ⟨r, hr, rfl⟩
    · exact .inl hold
    right
    refine ⟨?_, List.mem_map_of_mem (hall.recorded ⟨hfree.recs, hfree.audits⟩ r hr).2⟩
    rcases hall.statusIndex (S.recHash r) with ⟨hno, -⟩ | ⟨-, hknown⟩
    · exact absurd (List.mem_map_of_mem hr) hno
    · exact hknown

end Run

/-! ## Histories that may be cut off -/

theorem LoopOp.keeps_oneOpen (hS : S.SparesLoop) {op : LoopOp} {x : Except Error Unit}
    (hrun : Runs S.Performs (op.prog E) m x m') (hfree : CollisionFree S m')
    (hone : OneOpen m.recs m.state) : OneOpen m'.recs m'.state := by
  cases op with
  | run opts nowMs =>
    rcases Runs.bind_iff.1 hrun with ⟨e, hrun, -⟩ | ⟨res, m₁, hrun, hend⟩
    · exact run_oneOpen hS hrun hfree hone
    · obtain ⟨-, rfl⟩ := Runs.pure_iff.1 hend
      exact run_oneOpen hS hrun hfree hone
  | review h d by_ => exact (review_closes hrun).oneOpen hone
  | apply h by_ allowDestructive =>
    rcases Runs.bind_iff.1 hrun with ⟨e, hrun, -⟩ | ⟨a, m₁, hrun, hend⟩
    · exact (apply_closes hS hrun).oneOpen hone
    · obtain ⟨-, rfl⟩ := Runs.pure_iff.1 hend
      exact (apply_closes hS hrun).oneOpen hone
  | rollback h by_ => exact (rollback_closes hS hrun).oneOpen hone

theorem CollisionFree.faulty (hfree : CollisionFree S m) : CollisionFree S.faulty m :=
  ⟨hfree.recs, hfree.audits⟩

theorem CutReached.oneOpen (hS : S.SparesLoop) (hm : CutReached S m) : OneOpen m.recs m.state := by
  induction hm with
  | start hm =>
    rw [hm.recs]
    exact fun x hx => nomatch hx
  | step _ E op hstops hfree ih =>
    obtain ⟨x, hrun⟩ := hstops.exists_run Substrate.performs_faulty Substrate.faulty_fails
    exact LoopOp.keeps_oneOpen hS.faulty hrun hfree.faulty ih

/-- The memory a program leaves that is cut off after `n` calls, each of them answered. -/
def cutAfter {α : Type} (recHash : Recommendation → GrainHash)
    (auditHash : AuditRecord → GrainHash) : ℕ → Eng α → Memory Unit → Memory Unit
  | 0, _, m => m
  | _, .ret _, m => m
  | n + 1, .call c k, m =>
    cutAfter recHash auditHash n (k (plainAnswer recHash auditHash c m).1)
      (plainAnswer recHash auditHash c m).2

theorem cutAfter_stops {α : Type} (recHash : Recommendation → GrainHash)
    (auditHash : AuditRecord → GrainHash) (n : ℕ) (p : Eng α) (m : Memory Unit) :
    Stops (plainSubstrate recHash auditHash).Performs p m (cutAfter recHash auditHash n p m) := by
  induction n generalizing p m with
  | zero => exact .here p m
  | succ n ih =>
    cases p with
    | ret x => exact .here _ m
    | call c k => exact .call (plain_performs c m) (ih _ _)

/-- The memory of a run that is cut off when it has put the finding. -/
def cutMemory : Memory Unit := ⟨[("r", flagRec)], [], .empty, ()⟩

/-- The memory after the run that follows. -/
noncomputable def rerunMemory : Memory Unit :=
  ((run flagEngine openOptions 0).exec (plainAnswer soleRecHash soleAuditHash) cutMemory).2

theorem cut_stops :
    Stops (plainSubstrate soleRecHash soleAuditHash).Performs (run flagEngine openOptions 0)
      untouched cutMemory := by
  have hcut := cutAfter_stops soleRecHash soleAuditHash 7 (run flagEngine openOptions 0) untouched
  have hend : cutAfter soleRecHash soleAuditHash 7 (run flagEngine openOptions 0) untouched =
      ⟨[(soleRecHash flagRec, flagRec)], [], .empty, ()⟩ := rfl
  rw [hend, soleRecHash_flagRec] at hcut
  exact hcut

theorem cut_op_stops :
    Stops (plainSubstrate soleRecHash soleAuditHash).Performs
      ((LoopOp.run openOptions 0).prog flagEngine) untouched cutMemory := by
  have hcut := cutAfter_stops soleRecHash soleAuditHash 7
    ((LoopOp.run openOptions 0).prog flagEngine) untouched
  have hend : cutAfter soleRecHash soleAuditHash 7 ((LoopOp.run openOptions 0).prog flagEngine)
      untouched = ⟨[(soleRecHash flagRec, flagRec)], [], .empty, ()⟩ := rfl
  rw [hend, soleRecHash_flagRec] at hcut
  exact hcut

theorem rerun_run :
    Runs (plainSubstrate soleRecHash soleAuditHash).Performs
      ((LoopOp.run openOptions 0).prog flagEngine) cutMemory (.ok ()) rerunMemory :=
  Runs.bind (plain_runs (run flagEngine openOptions 0) cutMemory) (.ret _ _)

theorem cut_collisionFree {m : Memory Unit} (hrecs : m.recs = cutMemory.recs)
    (haudits : m.audits = []) :
    CollisionFree (plainSubstrate soleRecHash soleAuditHash) m := by
  refine ⟨fun r x hx heq => ?_, fun a x hx heq => ?_⟩
  · rw [hrecs] at hx
    obtain rfl := List.mem_singleton.1 hx
    by_contra hne
    exact absurd ((if_neg hne).symm.trans heq) (by decide)
  · rw [haudits] at hx
    cases hx

/-- An external analyzer that looks at what is old. -/
def sweeper : Analyzer where
  manifest := ⟨"ext.sweep/1", [], .never, .command, true, fun _ => .ok []⟩
  analyze ctx := pure (if ctx.watermarkMs = none then [flagDraft] else [])
  reads _ := Calls.ret

/-- An engine with that analyzer. -/
def sweepEngine : Engine := { bareEngine with analyzers := [sweeper] }

/-- A run of an engine on a substrate that answers every call. -/
def plainRun (E : Engine) (opts : RunOptions) (nowMs : ℤ) (m : Memory Unit) :
    Except Error RunResult × Memory Unit :=
  (run E opts nowMs).exec (plainAnswer (fun _ => "r") fun a => a.to_.asStr) m

/-- The memory after a run without analyzers. -/
def sweptMemory : Memory Unit := (plainRun bareEngine openOptions 0 untouched).2

/-- The memory after a run that looks at what is new. -/
def lookedMemory : Memory Unit := (plainRun sweepEngine openOptions 1 sweptMemory).2

end Deja.Loop
