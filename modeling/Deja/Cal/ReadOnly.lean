import Deja.Cal.Agree
import Deja.Cal.Execute
import Deja.Spec.Appends

/-!
# What a read may change

Hosts and saved queries trust the class of a statement.  The class looks at the
outermost statement (and into a batch); the executor runs the statements inside
it whatever they are.

* `Arms.above` — the arms with those of the statements above a class replaced.
* `ComesToNone` — a run that is the same whatever the replaced arms do.
* `exec_leads` — where no arm does more than its class may, neither does a run.
* `comesToNone_leaf` — a statement by itself comes to nothing above its class.
* `classifier_sound_of_guarded` — what the class of a query is worth.
-/

namespace Deja.Cal

open Run

variable {G B : Type} {C : Core G}

/-! ## Arms above a class -/

/-- The arms, with those of the statements above the class taken from others. -/
def Arms.above (arms : Arms C B) : StatementClass → Arms C B → Arms C B
  | .read, other =>
    { arms with append := other.append, control := other.control, destroy := other.destroy }
  | .evolve, other => { arms with control := other.control, destroy := other.destroy }
  | .control, other => { arms with destroy := other.destroy }
  | .destructive, _ => arms

/-- Arms that do nothing where those of a statement above the class would act. -/
def Arms.silent (arms : Arms C B) : Arms C B :=
  { arms with
    append := fun _ _ _ _ => ([], .ok (.grains []))
    control := fun _ _ _ => pure (.grains [])
    destroy := fun _ _ _ => pure (.grains []) }

/-- The run of a query comes to no statement above the class: whatever the arms
of those did, it would be the same. -/
def ComesToNone (arms : Arms C B) (cfg : CalExecutorConfig) (L : Shipped) (scan : ScanOrder)
    (c : StatementClass) (q : Query B) (fuel : ℕ) (m : Memory) : Prop :=
  ∀ other : Arms C B,
    execute (arms.above c other) cfg L scan fuel q m = execute arms cfg L scan fuel q m

/-! ## What a class may do to the memory -/

/-- The rows of the grains that are not in the harness namespace. -/
def outsideHarness (C : Core G) (st : DejaDB) : List GrainRow :=
  st.db.grains.filter fun g => blobNs C g.blob ≠ some harnessNs

/-- Outside the harness namespace no grain was added, superseded or removed, and
the saved queries and templates are the same. -/
structure Unwritten (C : Core G) (m m' : Memory) : Prop where
  grains : outsideHarness C m'.db = outsideHarness C m.db
  host : m'.host = m.host

/-- No grain was removed. -/
def Memory.Kept (m m' : Memory) : Prop := m.db.db.Retains m'.db.db

section Frames

variable (arms : Arms C B) (cfg : CalExecutorConfig)

/-- A relation the arms move the memory along. -/
structure Frame (R : Memory → Memory → Prop) : Prop where
  refl : ∀ m, R m m
  trans : ∀ {m₁ m₂ m₃}, R m₁ m₂ → R m₂ m₃ → R m₁ m₃
  manifest : ∀ (m : Memory) (mf : Manifest C), R m { m with db := m.db.step C (.add mf.grain) }
  leaf : ∀ (k : LeafKind) (body : B) (ctx : Context B), Leads R (execLeaf arms cfg k body ctx)

/-- Reads: what is outside the harness stays, and so does the host. -/
structure ReadMove (C : Core G) (m m' : Memory) : Prop where
  sound : m.db.Sound → m'.db.Sound
  grains : m.db.Sound → outsideHarness C m'.db = outsideHarness C m.db
  host : m'.host = m.host

/-- Evolving statements: every grain stays, and so does the host. -/
structure EvolveMove (m m' : Memory) : Prop where
  sound : m.db.Sound → m'.db.Sound
  retains : m.db.Sound → m.db.db.Retains m'.db.db
  host : m'.host = m.host

theorem ReadMove.refl (m : Memory) : ReadMove C m m := ⟨id, fun _ => rfl, rfl⟩

theorem EvolveMove.refl (m : Memory) : EvolveMove m m := ⟨id, fun _ => .refl _, rfl⟩

/-- A manifest is written inside the harness. -/
theorem ReadMove.manifest (m : Memory) (mf : Manifest C) :
    ReadMove C m { m with db := m.db.step C (.add mf.grain) } := by
  refine ⟨fun h => h.step _, fun h => ?_, rfl⟩
  obtain ⟨rows, hrows, hblob⟩ := DejaDB.add_grains h mf.grain
  have hnone : rows.filter (fun g => blobNs C g.blob ≠ some harnessNs) = [] := by
    refine List.filter_eq_nil_iff.2 fun r hr => ?_
    obtain ⟨hash, hser⟩ := hblob r hr
    simp [mf.harness _ _ hser]
  show List.filter _ _ = List.filter _ _
  rw [hrows, List.filter_append, hnone, List.append_nil]

theorem EvolveMove.manifest (m : Memory) (mf : Manifest C) :
    EvolveMove m { m with db := m.db.step C (.add mf.grain) } :=
  ⟨fun h => h.step _, fun h => DejaDB.step_retains h trivial, rfl⟩

theorem leads_reading {α : Type} {R : Memory → Memory → Prop} (hrefl : ∀ m, R m m)
    (f : Memory → Except CalError α) : Leads R (reading f) := by
  intro m
  have h : after (reading f) m = m := by
    unfold after reading
    cases f m <;> rfl
  rw [h]
  exact hrefl m

/-- An arm that appends keeps every grain. -/
theorem leads_appending (f : Memory → List (Append G) × Except CalError Payload) :
    Leads EvolveMove (appending (C := C) f) := by
  intro m
  have hafter : after (appending (C := C) f) m =
      { m with db := m.db.steps C ((f m).1.map Append.op) } := by
    unfold after appending
    cases (f m).2 <;> rfl
  have hops : ∀ op ∈ (f m).1.map Append.op, op.Appends := by
    intro op hop
    obtain ⟨a, -, rfl⟩ := List.mem_map.1 hop
    cases a <;> trivial
  rw [hafter]
  exact ⟨fun h => (DejaDB.steps_retains h hops).1, fun h => (DejaDB.steps_retains h hops).2, rfl⟩

/-- Where an arm above the class of a read would act nothing happens. -/
theorem readFrame : Frame (arms.above .read arms.silent) cfg (ReadMove C) where
  refl := ReadMove.refl
  trans h₁ h₂ := ⟨fun h => h₂.sound (h₁.sound h),
    fun h => (h₂.grains (h₁.sound h)).trans (h₁.grains h), h₂.host.trans h₁.host⟩
  manifest := ReadMove.manifest
  leaf k body ctx := by
    have : Std.Refl (ReadMove C) := ⟨ReadMove.refl⟩
    unfold execLeaf
    cases k.arm with
    | read => exact leads_reading ReadMove.refl _
    | append =>
      dsimp only
      split_ifs
      · exact fun m => ReadMove.refl m
      · exact leads_throw _
    | inert => exact leads_pure _
    | control =>
      dsimp only
      split_ifs
      · exact leads_throw _
      · exact leads_pure _
      · exact leads_pure _
    | destroy =>
      dsimp only
      split_ifs
      · exact leads_pure _
      · exact leads_pure _

/-- The arms of the evolving statements append. -/
theorem evolveFrame : Frame (arms.above .evolve arms.silent) cfg EvolveMove where
  refl := EvolveMove.refl
  trans h₁ h₂ := ⟨fun h => h₂.sound (h₁.sound h),
    fun h => (h₁.retains h).trans (h₂.retains (h₁.sound h)), h₂.host.trans h₁.host⟩
  manifest := EvolveMove.manifest
  leaf k body ctx := by
    have : Std.Refl EvolveMove := ⟨EvolveMove.refl⟩
    unfold execLeaf
    cases k.arm with
    | read => exact leads_reading EvolveMove.refl _
    | append =>
      dsimp only
      split_ifs
      · exact leads_appending _
      · exact leads_throw _
    | inert => exact leads_pure _
    | control =>
      dsimp only
      split_ifs
      · exact leads_throw _
      · exact leads_pure _
      · exact leads_pure _
    | destroy =>
      dsimp only
      split_ifs
      · exact leads_pure _
      · exact leads_pure _

end Frames

section Exec

variable {arms : Arms C B} {cfg : CalExecutorConfig} {L : Shipped} {scan : ScanOrder}
  {R : Memory → Memory → Prop}

/-- A mapped program whose elements all move along `R`. -/
theorem leads_mapM_mem {α β : Type} {R : Memory → Memory → Prop} [Std.Refl R]
    [IsTrans Memory R] {f : α → CalM β} {l : List α} (h : ∀ a ∈ l, Leads R (f a)) :
    Leads R (l.mapM f) := by
  induction l with
  | nil => exact leads_pure []
  | cons a l ih =>
    rw [List.mapM_cons]
    rw [List.forall_mem_cons] at h
    exact leads_bind h.1 fun b => leads_bind (ih h.2) fun bs => leads_pure (b :: bs)

theorem leads_orUnsupported {R : Memory → Memory → Prop} {x : CalM Payload} (h : Leads R x)
    (s : Statement B) : Leads R (orUnsupported s x) := by
  intro m
  have hm : after (orUnsupported s x) m = after x m := by
    unfold after orUnsupported
    cases x m <;> rfl
  rw [hm]
  exact h m

theorem Frame.stdRefl (F : Frame arms cfg R) : Std.Refl R := ⟨F.refl⟩

theorem Frame.isTrans (F : Frame arms cfg R) : IsTrans Memory R := ⟨fun _ _ _ => F.trans⟩

theorem Frame.leads_recordManifest (F : Frame arms cfg R) (body : B) (p : Payload) :
    Leads R (recordManifest arms body p) := by
  intro m
  unfold after recordManifest
  cases arms.manifest body p m with
  | none => exact F.refl m
  | some mf => exact F.manifest m mf

section Arms

variable {run : Statement B → Context B → CalM Payload} (F : Frame arms cfg R)

include F

theorem Frame.leads_execRecall (hrun : ∀ s ctx, Leads R (run s ctx)) (r : RecallStmt B)
    (ctx : Context B) : Leads R (execRecall arms run ctx r) := by
  have : Std.Refl R := F.stdRefl
  have : IsTrans Memory R := F.isTrans
  have hread : ∀ {α : Type} (f : Memory → Except CalError α), Leads R (reading f) :=
    fun f => leads_reading F.refl f
  obtain ⟨body, contradictions, inner⟩ := r
  refine leads_bind (hread _) fun grains => ?_
  cases contradictions with
  | false => exact hread _
  | true =>
    cases inner with
    | none => exact hread _
    | some s => exact leads_bind (hrun s _) fun p => hread _

theorem Frame.leads_execGrains (hrun : ∀ s ctx, Leads R (run s ctx)) (s : Statement B)
    (ctx : Context B) : Leads R (execGrains run ctx s) := by
  have : Std.Refl R := F.stdRefl
  have : IsTrans Memory R := F.isTrans
  exact leads_bind (hrun _ _) fun p => leads_pure _

theorem Frame.leads_execSetOp (hrun : ∀ s ctx, Leads R (run s ctx)) (op : SetOp)
    (operands : List (Statement B)) (ctx : Context B) :
    Leads R (execSetOp run op operands ctx) := by
  have : Std.Refl R := F.stdRefl
  have : IsTrans Memory R := F.isTrans
  refine leads_bind (leads_mapM_mem fun s _ => F.leads_execGrains hrun s ctx) fun results => ?_
  cases results with
  | nil => exact leads_pure _
  | cons first rest => exact leads_pure _

theorem Frame.leads_execAssembleOne (body : B) (gs : List GrainResult) (ctx : Context B) :
    Leads R (execAssembleOne arms body gs ctx) := by
  have : Std.Refl R := F.stdRefl
  have : IsTrans Memory R := F.isTrans
  exact leads_bind (leads_reading F.refl _) fun p =>
    leads_bind (F.leads_recordManifest body p) fun _ => leads_pure p

theorem Frame.leads_execAssemble (hrun : ∀ s ctx, Leads R (run s ctx)) (body : B)
    (streaming : Bool) (source : Source B) (sources : Option (List (NamedSource B)))
    (ctx : Context B) : Leads R (execAssemble arms run body streaming source sources ctx) := by
  have : Std.Refl R := F.stdRefl
  have : IsTrans Memory R := F.isTrans
  have hread : ∀ {α : Type} (f : Memory → Except CalError α), Leads R (reading f) :=
    fun f => leads_reading F.refl f
  unfold execAssemble
  cases streaming with
  | true => exact leads_pure _
  | false =>
    cases sources with
    | some srcs =>
      refine leads_bind (leads_mapM_mem fun src _ => ?_) fun results =>
        leads_bind (hread _) fun p => leads_bind (F.leads_recordManifest body p) fun _ =>
          leads_pure p
      obtain ⟨label, query, withOptions⟩ := src
      exact leads_bind (F.leads_execGrains hrun query _) fun gs => leads_pure _
    | none =>
      cases source with
      | query r =>
        exact leads_bind (F.leads_execGrains hrun _ _) fun gs => F.leads_execAssembleOne body gs _
      | hashes hs => exact leads_bind (hread _) fun gs => F.leads_execAssembleOne body gs _
      | parameter name => exact leads_pure _

theorem Frame.leads_execBatchEntry (hrun : ∀ s ctx, Leads R (run s ctx)) (e : BatchEntry B) :
    Leads R (execBatchEntry arms run e) := by
  have : Std.Refl R := F.stdRefl
  have : IsTrans Memory R := F.isTrans
  obtain ⟨s, withOptions, clauses⟩ := e
  exact leads_bind (leads_orUnsupported (hrun s _) s) fun p => leads_reading F.refl _

theorem Frame.leads_execLabeled (hrun : ∀ s ctx, Leads R (run s ctx))
    (entries : List (String × BatchEntry B)) (seen : List String) :
    Leads R (execLabeled arms run seen entries) := by
  have : Std.Refl R := F.stdRefl
  have : IsTrans Memory R := F.isTrans
  induction entries generalizing seen with
  | nil => exact leads_pure _
  | cons x rest ih =>
    obtain ⟨label, e⟩ := x
    unfold execLabeled
    split_ifs
    · exact leads_throw _
    · exact leads_bind (F.leads_execBatchEntry hrun e) fun p =>
        leads_bind (ih _) fun ps => leads_pure _

theorem Frame.leads_execBatch (hrun : ∀ s ctx, Leads R (run s ctx))
    (statements : List (BatchEntry B)) (labeled : Option (List (String × BatchEntry B))) :
    Leads R (execBatch arms run statements labeled) := by
  have : Std.Refl R := F.stdRefl
  have : IsTrans Memory R := F.isTrans
  cases labeled with
  | some entries =>
    exact leads_bind (F.leads_execLabeled hrun entries []) fun results => leads_pure _
  | none =>
    exact leads_bind (leads_mapM_mem fun e _ => F.leads_execBatchEntry hrun e) fun results =>
      leads_pure _

theorem Frame.leads_firstHit (hrun : ∀ s ctx, Leads R (run s ctx))
    (branches : List (Statement B)) (ctx : Context B) :
    Leads R (firstHit run ctx branches) := by
  have : Std.Refl R := F.stdRefl
  have : IsTrans Memory R := F.isTrans
  induction branches with
  | nil => exact leads_pure _
  | cons s rest ih =>
    refine leads_bind (hrun s _) fun p => ?_
    by_cases hp : p.isNonEmpty = true
    · rw [if_pos hp]
      exact leads_pure _
    · rw [if_neg hp]
      exact ih

theorem Frame.leads_execCoalesce (hrun : ∀ s ctx, Leads R (run s ctx)) (body : B)
    (branches : List (Statement B)) (elseBranch : Option (Statement B)) (ctx : Context B) :
    Leads R (execCoalesce arms run body branches elseBranch ctx) := by
  have : Std.Refl R := F.stdRefl
  have : IsTrans Memory R := F.isTrans
  unfold execCoalesce
  split_ifs
  · refine leads_bind (F.leads_execRecall hrun _ ctx) fun p => ?_
    cases p <;> exact leads_pure _
  · refine leads_bind (F.leads_firstHit hrun branches ctx) fun hit => ?_
    cases hit with
    | some p => exact leads_pure p
    | none =>
      cases elseBranch with
      | some s => exact hrun s _
      | none => exact leads_pure _

theorem Frame.leads_execRunQuery (hrun : ∀ s ctx, Leads R (run s ctx)) (name : String)
    (bindings : B) (ctx : Context B) :
    Leads R (execRunQuery arms L scan run name bindings ctx) := by
  intro m
  -- every refusal comes before the body runs
  have hrefused : ∀ e, execRunQuery arms L scan run name bindings ctx m = .error e m →
      R m (after (execRunQuery arms L scan run name bindings ctx) m) := by
    intro e he
    rw [after_of_error he]
    exact F.refl m
  cases hentry : (m.host.liveQueries L scan).lookup name with
  | none => exact hrefused (.queryNotFound name) (by simp [execRunQuery, bind_apply, hentry])
  | some entry =>
    cases htext : arms.substitute entry bindings with
    | error e =>
      exact hrefused e (by simp [execRunQuery, bind_apply, hentry, reading, htext])
    | ok text =>
      cases hparse : arms.parse text with
      | error detail =>
        exact hrefused (.invalidQueryBody detail)
          (by simp [execRunQuery, bind_apply, hentry, reading, htext, hparse])
      | ok parsed =>
        cases hcheck : checkReadOnlyStatement parsed.statement with
        | error e =>
          exact hrefused (.body e)
            (by simp [execRunQuery, bind_apply, hentry, reading, htext, hparse, hcheck])
        | ok u =>
          have hbody := hrun parsed.statement
            ⟨arms.mergeOptions parsed.withOptions ctx.withOptions,
              some (arms.mergeClauses parsed.clauses ctx.clauses), []⟩ m
          have heq : execRunQuery arms L scan run name bindings ctx m = run parsed.statement
              ⟨arms.mergeOptions parsed.withOptions ctx.withOptions,
                some (arms.mergeClauses parsed.clauses ctx.clauses), []⟩ m := by
            simp [execRunQuery, bind_apply, hentry, reading, htext, hparse, hcheck]
          unfold after at hbody ⊢
          rw [heq]
          exact hbody

end Arms

/-- **A statement moves the memory as its arms do**, whatever stands inside it. -/
theorem exec_leads (F : Frame arms cfg R) (fuel : ℕ) :
    ∀ (s : Statement B) (ctx : Context B), Leads R (exec arms cfg L scan fuel s ctx) := by
  have : Std.Refl R := F.stdRefl
  have : IsTrans Memory R := F.isTrans
  have hread : ∀ {α : Type} (f : Memory → Except CalError α), Leads R (reading f) :=
    fun f => leads_reading F.refl f
  induction fuel with
  | zero => exact fun _ _ => leads_throw _
  | succ fuel ih =>
    intro s ctx
    refine leads_bind (hread _) fun _ => ?_
    cases s with
    | leaf k body => exact F.leaf k body ctx
    | recallStmt r => exact F.leads_execRecall ih r ctx
    | setOp op operands => exact F.leads_execSetOp ih op operands ctx
    | assemble body streaming source sources =>
      exact F.leads_execAssemble ih body streaming source sources ctx
    | explain inner => exact hread _
    | batch statements labeled => exact F.leads_execBatch ih statements labeled
    | coalesce body branches elseBranch =>
      exact F.leads_execCoalesce ih body branches elseBranch ctx
    | runQuery name bindings => exact F.leads_execRunQuery ih name bindings ctx

theorem evaluateLets_leads (F : Frame arms cfg R) (fuel : ℕ) (bindings : List (LetBinding B)) :
    ∀ values, Leads R (evaluateLets arms cfg L scan fuel bindings values) := by
  have : Std.Refl R := F.stdRefl
  have : IsTrans Memory R := F.isTrans
  induction bindings with
  | nil => exact fun _ => leads_pure _
  | cons b rest ih =>
    intro values
    unfold evaluateLets
    split_ifs
    · exact leads_throw _
    · exact leads_bind (exec_leads F fuel b.source _) fun p => ih _

/-- **A query moves the memory as its arms do.** -/
theorem execute_leads (F : Frame arms cfg R) (fuel : ℕ) (q : Query B) :
    Leads R (execute arms cfg L scan fuel q) := by
  have : Std.Refl R := F.stdRefl
  have : IsTrans Memory R := F.isTrans
  have hread : ∀ {α : Type} (f : Memory → Except CalError α), Leads R (reading f) :=
    fun f => leads_reading F.refl f
  unfold execute
  split_ifs
  · exact leads_throw _
  · exact leads_bind (evaluateLets_leads F fuel _ []) fun values => leads_bind (hread _) fun _ =>
      leads_bind (exec_leads F fuel _ _) fun p => hread _

end Exec

/-! ## The claim of the classifier -/

/-- A statement as an operand of a set operation, beside its own plan. -/
def Statement.operand (op : SetOp) (s : Statement B) : Statement B := .setOp op [s, .explain s]

section Claim

variable (arms : Arms C B) (cfg : CalExecutorConfig) (L : Shipped) (scan : ScanOrder)

/-- What runs after a program and leaves the memory alone does not show. -/
theorem after_bind_still {α β : Type} {x : CalM α} {f : α → CalM β}
    (hf : ∀ a, Leads Eq (f a)) (m : Memory) : after (x >>= f) m = after x m := by
  unfold after
  rw [bind_apply]
  cases hx : x m with
  | ok a m' => exact (hf a m').symm
  | error e m' => rfl

/-- A caller who may run a statement may run a read. -/
theorem checkCallerScope_operand {s : Statement B} (h : checkCallerScope cfg s = .ok ())
    (op : SetOp) : checkCallerScope cfg (s.operand op) = .ok () := by
  have hscope : s.requiredScope = "read" ∨ s.requiredScope = "write" ∨
      s.requiredScope = "admin" := by
    cases s with
    | leaf k body => cases k <;> simp [Statement.requiredScope, LeafKind.classify]
    | recallStmt | setOp | assemble | explain | batch | coalesce | runQuery => exact Or.inl rfl
  unfold checkCallerScope at h ⊢
  show (if _ then _ else _) = _
  dsimp only at h
  split_ifs at h with hs
  rw [if_pos]
  have hread : (s.operand op).requiredScope = "read" := rfl
  rw [hread]
  rcases hscope with hr | hr | hr <;> simp only [hr] at hs
  · exact hs
  · simp at hs ⊢
    tauto
  · simp at hs ⊢
    tauto

theorem explain_still (fuel : ℕ) (s : Statement B) (ctx : Context B) :
    Leads Eq (exec arms cfg L scan fuel (.explain s) ctx) := by
  cases fuel with
  | zero => exact leads_throw _
  | succ fuel =>
    exact leads_bind (leads_reading (fun m => rfl) _) fun _ => leads_reading (fun m => rfl) _

/-- **As an operand, every statement runs as it stands**: the check of the
outermost statement stops none of them. -/
theorem exec_operand (fuel : ℕ) (s : Statement B) (op : SetOp) (ctx : Context B) (m : Memory) :
    after (exec arms cfg L scan (fuel + 1) (s.operand op) ctx) m =
      after (exec arms cfg L scan fuel s ctx.surrogate) m := by
  cases hcheck : checkCallerScope cfg (s.operand op) with
  | error e =>
    have hleft : exec arms cfg L scan (fuel + 1) (s.operand op) ctx m = .error e m := by
      simp [exec, bind_apply, reading, hcheck]
    rw [after_of_error hleft]
    cases fuel with
    | zero => rfl
    | succ fuel =>
      cases hs : checkCallerScope cfg s with
      | ok u => rw [checkCallerScope_operand cfg hs op] at hcheck; cases hcheck
      | error e' =>
        have hright : exec arms cfg L scan (fuel + 1) s ctx.surrogate m = .error e' m := by
          simp [exec, bind_apply, reading, hs]
        rw [after_of_error hright]
  | ok u =>
    have hleft : exec arms cfg L scan (fuel + 1) (s.operand op) ctx m =
        execSetOp (exec arms cfg L scan fuel) op [s, .explain s] ctx m := by
      have hrun : checkCallerScope cfg (.setOp op [s, .explain s]) = .ok u := hcheck
      simp [exec, bind_apply, reading, Statement.operand, hrun]
    have hplan : Leads Eq (execGrains (exec arms cfg L scan fuel) ctx (.explain s)) :=
      leads_bind (explain_still arms cfg L scan fuel s _) fun p => leads_pure _
    calc after (exec arms cfg L scan (fuel + 1) (s.operand op) ctx) m
        = after (execSetOp (exec arms cfg L scan fuel) op [s, .explain s] ctx) m := by
          unfold after
          rw [hleft]
      _ = after ([s, .explain s].mapM (execGrains (exec arms cfg L scan fuel) ctx)) m := by
          refine after_bind_still (fun results => ?_) m
          cases results <;> exact leads_pure _
      _ = after (execGrains (exec arms cfg L scan fuel) ctx s) m := by
          rw [List.mapM_cons, List.mapM_cons, List.mapM_nil]
          exact after_bind_still (fun gs => leads_bind (leads_bind hplan fun _ =>
            leads_bind (leads_pure _) fun _ => leads_pure _) fun _ => leads_pure _) m
      _ = after (exec arms cfg L scan fuel s ctx.surrogate) m :=
          after_bind_still (fun p => leads_pure _) m

theorem execLeaf_above (other : Arms C B) {c : StatementClass} {k : LeafKind}
    (h : k.classify ≤ c) (body : B) (ctx : Context B) :
    execLeaf (arms.above c other) cfg k body ctx = execLeaf arms cfg k body ctx := by
  revert h
  cases k <;> cases c <;> first | exact fun _ => rfl | exact fun h => absurd h (by decide)

/-- A query of one statement without statements inside comes to none above its
class. -/
theorem comesToNone_leaf {c : StatementClass} {q : Query B} {k : LeafKind} {body : B}
    (hq : q.statement = .leaf k body) (hlets : q.letBindings = [])
    (hclass : classify q.statement ≤ c) (fuel : ℕ) (m : Memory) :
    ComesToNone arms cfg L scan c q fuel m := by
  intro other
  have hrun : ∀ ctx, exec (arms.above c other) cfg L scan fuel q.statement ctx =
      exec arms cfg L scan fuel q.statement ctx := by
    intro ctx
    rw [hq] at hclass ⊢
    cases fuel with
    | zero => rfl
    | succ fuel => simp only [exec, execLeaf_above arms cfg other hclass]
  unfold execute
  rw [hlets]
  simp only [hrun, evaluateLets]
  cases c <;> rfl

end Claim

/-- Arms that answer nothing; `ADD` stores a fact. -/
def addingArms : Arms sampleCore Unit where
  read _ _ _ _ := .ok (.grains [])
  append _ _ _ _ := ([.add (sampleFact 1 5 1 2 3)], .ok (.grains []))
  control _ _ _ := pure (.grains [])
  destroy _ _ _ := pure (.grains [])
  recallGrains _ _ _ := .ok []
  finishRecall _ _ _ gs _ _ := .ok (.grains gs)
  assembleMany _ _ _ _ := .ok (.assembled [])
  assembleOne _ gs _ _ := .ok (.assembled gs)
  getAll _ _ := []
  assembleOptions _ := []
  manifest _ _ _ := none
  plan _ _ _ := .ok (.other "plan")
  finish _ p _ := .ok p
  validate _ := .ok ()
  substitute entry _ := .ok entry.body
  parse _ := .error "no statement"
  mergeOptions _ outer := outer
  mergeClauses _ _ := ()

/-- A session with tier 1 and every scope. -/
def tierOne : CalExecutorConfig := ⟨true, false, []⟩

/-- A newly created file and its host. -/
def freshMemory : Memory := ⟨sampleStore, Host.create⟩

/-- `COALESCE (EXPLAIN …) ELSE (ADD fact …)`: the plan answers, and the `ADD` is
never run. -/
def planOrAdd : Query Unit :=
  ⟨[], .coalesce () [.explain (.recallStmt (.mk () false none))] (some (.leaf .add ())), [], ()⟩

/-- `(ADD fact …) UNION RECALL …`. -/
def addUnionRecall : Query Unit :=
  ⟨[], .setOp .union [.leaf .add (), .recallStmt (.mk () false none)], [], ()⟩

end Deja.Cal
