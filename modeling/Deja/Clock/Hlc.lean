import Deja.Spec.Issued
import Deja.Spec.Rows

/-!
# The clock of a handle

Every op-log row written here carries a value the handle allocated, past its last
one; a row that replays a bundle record keeps the value it came with.

`ClockGuard` says what a commit must meet for the allocated values to stay ahead
of the op-log: a replayed closure must not carry a value past the clock, because
`log_op` does not raise it, and an allocated block must fit into an `i64`.
`hlc_ok` carries both along every run.
-/

namespace Deja

variable {G : Type} {C : Core G}

/-- `i64::MAX`. -/
def maxI64 : ℤ := 2 ^ 63 - 1

/-- A block of `n` clock values fits, whether it starts at the wall clock or
after the last value. -/
def DejaDB.RoomFor (a : DejaDB) (n : ℕ) : Prop :=
  a.hlcLast + n ≤ maxI64 ∧ hlcWall (a.clock a.tick) + n - 1 ≤ maxI64

/-- What a commit must meet for the clock to stay ahead of the op-log. -/
def ClockGuard (ev : Event) (a : DejaDB) : Prop :=
  match ev with
  | .insert preps => a.RoomFor preps.length
  | .supersede .. | .merge .. => a.RoomFor 2
  | .forget _ => a.RoomFor 1
  | .erase seqs => a.RoomFor seqs.length
  | .log _ hlc => hlc ≤ a.hlcLast
  | _ => True

instance (a : DejaDB) (n : ℕ) : Decidable (a.RoomFor n) :=
  inferInstanceAs (Decidable (_ ∧ _))

instance (ev : Event) (a : DejaDB) : Decidable (ClockGuard ev a) :=
  match ev with
  | .insert preps => inferInstanceAs (Decidable (a.RoomFor preps.length))
  | .supersede .. | .merge .. => inferInstanceAs (Decidable (a.RoomFor 2))
  | .forget _ => inferInstanceAs (Decidable (a.RoomFor 1))
  | .erase seqs => inferInstanceAs (Decidable (a.RoomFor seqs.length))
  | .log _ hlc => inferInstanceAs (Decidable (hlc ≤ a.hlcLast))
  | .scrub | .insertBlob .. | .flip .. | .defer | .undefer | .rebuildText | .setEmbedder _
  | .reopen _ => .isTrue trivial

theorem DejaDB.RoomFor.block {a : DejaDB} {n : ℕ} (h : a.RoomFor n) :
    a.nextHlcValue + n - 1 ≤ maxI64 := by
  unfold DejaDB.nextHlcValue advanceHlc
  split_ifs
  · exact h.2
  · have hlast := h.1
    omega

/-- A wall clock reading leaves room for one more value. -/
theorem hlcWall_lt (now : ℤ) : hlcWall now < maxI64 := by
  unfold hlcWall maxI64
  rw [Int.bmod_def]
  norm_num
  split_ifs <;> omega

/-! ## The op-log, row by row -/

/-- The op-log grew by one row, past all the others if it was stamped here. -/
def Appends (own : OpRow → Prop) (log log' : List OpRow) : Prop :=
  ∃ r, log' = log ++ [r] ∧ (own r → (∀ x ∈ log, x.hlc < r.hlc) ∧ r.hlc ≤ maxI64)

/-- The op-log grew row by row. -/
abbrev Grows (own : OpRow → Prop) : List OpRow → List OpRow → Prop :=
  Relation.ReflTransGen (Appends own)

/-- No row is past the clock. -/
def DejaDB.ClockOk (st : DejaDB) : Prop := ∀ x ∈ st.db.oplog, x.hlc ≤ st.hlcLast

variable {own : OpRow → Prop}

theorem Grows.row {log : List OpRow} {r : OpRow} (hlt : ∀ x ∈ log, x.hlc < r.hlc)
    (hmax : r.hlc ≤ maxI64) : Grows own log (log ++ [r]) :=
  .single ⟨r, rfl, fun _ => ⟨hlt, hmax⟩⟩

theorem lt_append_row {log : List OpRow} {r : OpRow} {hlc : ℤ} (h : ∀ x ∈ log, x.hlc < hlc)
    (hr : r.hlc < hlc) : ∀ x ∈ log ++ [r], x.hlc < hlc := by
  intro x hx
  rcases List.mem_append.1 hx with hx | hx
  · exact h x hx
  · rw [List.mem_singleton.1 hx]
    exact hr

/-- A block of inserts grows the op-log by consecutive values. -/
theorem Tables.insertPrepped_grows {t t' : Tables} {preps : List GrainPrep} {seq op hlc : ℤ}
    (h : t.insertPrepped preps seq op hlc = .ok t') (hlt : ∀ x ∈ t.oplog, x.hlc < hlc)
    (hmax : hlc + preps.length - 1 ≤ maxI64) :
    Grows own t.oplog t'.oplog ∧ ∀ x ∈ t'.oplog, x.hlc < hlc + preps.length := by
  induction preps generalizing t seq op hlc with
  | nil =>
    cases h
    refine ⟨.refl, fun x hx => ?_⟩
    have hx := hlt x hx
    simp only [List.length_nil, Nat.cast_zero, add_zero]
    exact hx
  | cons pr preps ih =>
    obtain ⟨t₁, hone, hrest⟩ := except_bind_ok h
    obtain ⟨-, -, -, -, -, hlog, -⟩ := insertPreppedOne_ok hone
    rw [List.length_cons] at hmax ⊢
    push_cast at hmax ⊢
    have hlt₁ : ∀ x ∈ t₁.oplog, x.hlc < hlc + 1 := by
      rw [hlog]
      refine lt_append_row (fun x hx => ?_) (by simp)
      have hx := hlt x hx
      omega
    obtain ⟨hgrows, hlast⟩ := ih hrest hlt₁ (by omega)
    refine ⟨Relation.ReflTransGen.trans ?_ hgrows, fun x hx => ?_⟩
    · rw [hlog]
      exact Grows.row hlt (by show hlc ≤ maxI64; omega)
    · have hx := hlast x hx
      omega

/-- So does a block of tombstones. -/
theorem tombstones_grows (own : OpRow → Prop) (targets : List GrainRow) {log : List OpRow}
    (op : ℤ) {hlc : ℤ} (hlt : ∀ x ∈ log, x.hlc < hlc) (hmax : hlc + targets.length - 1 ≤ maxI64) :
    Grows own log (log ++ Tables.tombstones targets op hlc) ∧
      ∀ x ∈ log ++ Tables.tombstones targets op hlc, x.hlc < hlc + targets.length := by
  induction targets generalizing log op hlc with
  | nil =>
    rw [Tables.tombstones, List.append_nil]
    refine ⟨.refl, fun x hx => ?_⟩
    have hx := hlt x hx
    simp only [List.length_nil, Nat.cast_zero, add_zero]
    exact hx
  | cons g gs ih =>
    rw [List.length_cons] at hmax ⊢
    push_cast at hmax ⊢
    have hlt₁ : ∀ x ∈ log ++ [⟨op, hlc, .forget, g.hash⟩], x.hlc < hlc + 1 := by
      refine lt_append_row (fun x hx => ?_) (by simp)
      have hx := hlt x hx
      omega
    obtain ⟨hgrows, hlast⟩ := ih (op + 1) hlt₁ (by omega)
    rw [List.append_assoc] at hgrows hlast
    refine ⟨Relation.ReflTransGen.head ?_ hgrows, fun x hx => ?_⟩
    · exact ⟨_, rfl, fun _ => ⟨hlt, by show hlc ≤ maxI64; omega⟩⟩
    · have hx := hlast x hx
      omega

/-! ## One commit -/

/-- Of the rows `own` only those are asked about that the commit stamps itself. -/
def Event.stamps (own : OpRow → Prop) : Event → Prop
  | .insertBlob op pr => ∀ opSeq hlc, ¬own ⟨opSeq, hlc, op, pr.hash⟩
  | .log hash _ => ∀ opSeq hlc, ¬own ⟨opSeq, hlc, .supersede, hash⟩
  | _ => True

/-- The two rows of a supersession or a merge. -/
theorem close_grows {a : DejaDB} (hok : a.ClockOk) (hroom : a.RoomFor 2) {log : List OpRow}
    {r c : OpRow} {wall : ℤ} (hlog : log = a.db.oplog ++ [r]) (hr : r.hlc = a.nextHlcValue)
    (hc : c.hlc = advanceHlc a.nextHlcValue wall) :
    Grows own a.db.oplog (log ++ [c]) ∧
      ∀ x ∈ log ++ [c], x.hlc ≤ advanceHlc a.nextHlcValue wall := by
  have hfirst := hroom.block
  have hnext := lt_nextHlcValue a
  have hclose := lt_advanceHlc a.nextHlcValue wall
  have hold : ∀ x ∈ a.db.oplog, x.hlc < r.hlc := fun x hx => by
    have hx := hok x hx
    omega
  have hbelow : ∀ x ∈ log, x.hlc < c.hlc := by
    rw [hlog]
    refine lt_append_row (fun x hx => ?_) (by omega)
    have hx := hold x hx
    omega
  have hmax : c.hlc ≤ maxI64 := by
    have hwall := hlcWall_lt wall
    rw [hc]
    unfold advanceHlc
    split_ifs
    · omega
    · push_cast at hfirst
      omega
  refine ⟨?_, fun x hx => ?_⟩
  · refine Relation.ReflTransGen.trans ?_ (Grows.row hbelow hmax)
    rw [hlog]
    exact Grows.row hold (by push_cast at hfirst; omega)
  · rcases List.mem_append.1 hx with hx | hx
    · have hx := hbelow x hx
      omega
    · rw [List.mem_singleton.1 hx, hc]

/-- A selection by distinct numbers finds no more rows than numbers. -/
theorem Rows.Ok.length_filter_le {L : GrainPrep → Prop} {r : Rows} (h : r.Ok L) (seqs : List ℤ) :
    (r.grains.filter fun g => g.seq ∈ seqs).length ≤ seqs.length := by
  rw [← List.length_map (f := GrainRow.seq)]
  refine List.Subperm.length_le (List.Nodup.subperm ?_ fun x hx => ?_)
  · exact h.seqs.sublist (List.filter_sublist.map _)
  · obtain ⟨g, hg, rfl⟩ := List.mem_map.1 hx
    simpa using (List.mem_filter.1 hg).2

theorem Tables.flipTxn_oplog (t : Tables) (old new : Hash) (now : ℤ) :
    (t.flipTxn old new now).2.oplog = t.oplog := by
  unfold flipTxn
  cases t.grainByHash old with
  | none => rfl
  | some row =>
    simp only
    split_ifs
    · rfl
    · rw [registerFork_frame t new]
    · unfold flipLinear
      cases row.key <;> rfl

/-- **One commit.**  It writes its rows past the others, and the clock stays
ahead. -/
theorem Commit.clock {L : GrainPrep → Prop} {ev : Event} {a b : DejaDB} (h : Commit C ev a b)
    (hrows : a.db.rows.Ok L) (hg : ClockGuard ev a) (hown : ev.stamps own) (hok : a.ClockOk) :
    b.ClockOk ∧ Grows own a.db.oplog b.db.oplog := by
  have hlt : ∀ x ∈ a.db.oplog, x.hlc < a.nextHlcValue := fun x hx =>
    (hok x hx).trans_lt (lt_nextHlcValue a)
  cases h with
  | @insert _ preps _ _ prepared txn =>
    obtain ⟨hgrows, hlast⟩ := Tables.insertPrepped_grows txn hlt hg.block
    refine ⟨fun x hx => ?_, hgrows⟩
    have hx := hlast x hx
    show x.hlc ≤ a.nextHlcValue + preps.length - 1
    omega
  | supersede written prepared found txn =>
    obtain ⟨-, t₁, hins, rfl⟩ := Tables.supersedeTxn_ok found txn
    obtain ⟨-, -, -, -, -, hlog, -⟩ := Tables.insertPreppedOne_ok hins
    exact (close_grows hok hg hlog rfl rfl).symm
  | merge written prepared tips txn =>
    obtain ⟨t₁, hins, rfl⟩ := Tables.mergeTxn_ok txn
    obtain ⟨-, -, -, -, -, hlog, -⟩ := Tables.insertPreppedOne_ok hins
    exact (close_grows hok hg hlog rfl rfl).symm
  | @forget _ hash _ _ len _ found txn =>
    obtain ⟨-, rfl⟩ := Tables.forgetTxn_ok found txn
    have hmax := hg.block
    have hgrows :
        Grows own a.db.oplog (a.db.oplog ++ [⟨a.nextOp, a.nextHlcValue, .forget, hash⟩]) :=
      Grows.row hlt (by push_cast at hmax; show a.nextHlcValue ≤ maxI64; omega)
    have hclock : ∀ x ∈ a.db.oplog ++ [⟨a.nextOp, a.nextHlcValue, .forget, hash⟩],
        x.hlc ≤ a.nextHlcValue := fun x hx => by
      have hx := lt_append_row (fun x hx => (hlt x hx).trans (lt_add_one _)) (lt_add_one _) x hx
      omega
    cases len <;> exact ⟨hclock, hgrows⟩
  | @erase _ seqs _ _ _ _ txn =>
    have hlog := Tables.eraseTxn_oplog txn
    have hlen : ((a.db.grains.filter fun g => g.seq ∈ seqs).length : ℤ) ≤ seqs.length := by
      exact_mod_cast hrows.length_filter_le seqs
    have hmax := hg.block
    obtain ⟨hgrows, hlast⟩ := tombstones_grows own
      (a.db.grains.filter fun g => g.seq ∈ seqs) a.nextOp hlt (by omega)
    rw [← hlog] at hgrows hlast
    refine ⟨fun x hx => ?_, hgrows⟩
    have hx := hlast x hx
    show x.hlc ≤ a.nextHlcValue + seqs.length - 1
    omega
  | @scrub _ _ _ t txn =>
    have hlog : t.oplog = a.db.oplog := by rw [(Tables.scrubTerms_ok txn).file]
    show (∀ x ∈ t.oplog, x.hlc ≤ a.hlcLast) ∧ Grows own a.db.oplog t.oplog
    rw [hlog]
    exact ⟨hok, .refl⟩
  | @insertBlob _ pr _ op _ hlc prepared txn =>
    obtain ⟨-, -, -, -, -, hlog, -⟩ := Tables.insertBlobTxn_ok txn
    refine ⟨fun x hx => ?_, .single ⟨_, hlog, fun hr => absurd hr (hown _ _)⟩⟩
    have hx : x ∈ a.db.oplog ++ [⟨a.nextOp, hlc, op, pr.hash⟩] := by
      rw [← hlog]
      exact hx
    show x.hlc ≤ max a.hlcLast hlc
    rcases List.mem_append.1 hx with hx | hx
    · exact (hok x hx).trans (le_max_left _ _)
    · rw [List.mem_singleton.1 hx]
      exact le_max_right _ _
  | @flip _ old new now tick =>
    have hlog : (a.db.flipTxn old new now).2.oplog = a.db.oplog := a.db.flipTxn_oplog old new now
    show (∀ x ∈ (a.db.flipTxn old new now).2.oplog, x.hlc ≤ a.hlcLast) ∧
      Grows own a.db.oplog (a.db.flipTxn old new now).2.oplog
    rw [hlog]
    exact ⟨hok, .refl⟩
  | log txn =>
    obtain ⟨rfl, -⟩ := Tables.insertOp_ok txn
    refine ⟨fun x hx => ?_, .single ⟨_, rfl, fun hr => absurd hr (hown _ _)⟩⟩
    rcases List.mem_append.1 hx with hx | hx
    · exact hok x hx
    · rw [List.mem_singleton.1 hx]
      exact hg
  | defer on => exact ⟨hok, .refl⟩
  | undefer => exact ⟨hok, .refl⟩
  | rebuildText on inline txn =>
    obtain ⟨grains, rows, c, -, -, hlooks, rfl, -, -⟩ := rebuildTextBody_ok txn
    have hlog : c.db.oplog = a.db.oplog := by rw [hlooks.rest]
    have hlast : c.hlcLast = a.hlcLast := by rw [hlooks.rest]
    show (∀ x ∈ c.db.oplog, x.hlc ≤ c.hlcLast) ∧ Grows own a.db.oplog c.db.oplog
    rw [hlog, hlast]
    exact ⟨hok, .refl⟩
  | setEmbedder => exact ⟨hok, .refl⟩
  | reopen =>
    refine ⟨fun x hx => ?_, .refl⟩
    show x.hlc ≤ ((a.db.oplog.map OpRow.hlc).max?).getD 0
    have hmem : x.hlc ∈ a.db.oplog.map OpRow.hlc := List.mem_map_of_mem hx
    cases hmax : (a.db.oplog.map OpRow.hlc).max? with
    | none =>
      rw [List.max?_eq_none_iff.1 hmax] at hmem
      cases hmem
    | some m => exact (List.max?_eq_some_iff.1 hmax).2 _ hmem

/-! ## Along a run -/

/-- The rows an operation stamps itself: all of them, but of an import the
tombstones only. -/
def Op.stamps (op : Op G) (r : OpRow) : Prop :=
  match op with
  | .importBundle .. => r.op = .forget
  | _ => True

/-- Local events stamp every row they write. -/
theorem Event.stamps_of_local {ev : Event} (h : ev.Local) : ev.stamps own := by
  cases ev with
  | insertBlob | log => exact h.elim
  | insert | supersede | merge | forget | erase | scrub | flip | defer | undefer | rebuildText
  | setEmbedder | reopen => trivial

/-- Imported events stamp tombstones only. -/
theorem Event.stamps_of_imported {ev : Event} (h : ev.Imported) :
    ev.stamps fun r => r.op = .forget := by
  cases ev with
  | insertBlob op pr => exact fun _ _ hr => h hr
  | log => exact fun _ _ hr => nomatch hr
  | insert | supersede | merge | erase | scrub | defer | undefer | rebuildText | setEmbedder
  | reopen => exact h.elim
  | forget | flip => trivial

/-- The commits of an operation stamp the rows the operation stamps. -/
theorem Op.commits_stamps {op : Op G} {st : DejaDB} :
    ∀ x ∈ op.commits C st, x.1.stamps op.stamps := by
  intro x hx
  have hissued := op.commits_issued x hx
  cases op with
  | importBundle => exact Event.stamps_of_imported hissued
  | setEmbedder =>
    rw [hissued]
    trivial
  | add | addBatch | addIfNovel | supersede | mergeHeads | forget | forgetSubject
  | forgetOlderThan | deferTextIndex | rebuildTextIndex | reopen =>
    exact Event.stamps_of_local hissued

theorem Idle.clockOk {a b : DejaDB} (h : Idle a b) (hok : a.ClockOk) : b.ClockOk := by
  intro x hx
  rw [h.file] at hx
  exact (hok x hx).trans h.hlcLast

theorem createStore_clockOk (C : Core G) (explicit : Option DejaDbOptions) (clock : ℕ → ℤ) :
    (createStore C explicit clock).ClockOk := by
  rw [createStore_eq]
  exact fun x hx => nomatch hx

/-- **The clock along a run.**  In every state a run of guarded operations
reaches, the next clock value is past every row of the op-log, and every further
operation writes its rows one by one, those it stamps itself past all the rows
before them and within `i64`. -/
theorem hlc_ok {explicit : Option DejaDbOptions} {clock : ℕ → ℤ} {ops : List (Op G)}
    (h : Meets C ClockGuard (createStore C explicit clock) ops) :
    (∀ x ∈ ((createStore C explicit clock).steps C ops).db.oplog,
        x.hlc < ((createStore C explicit clock).steps C ops).nextHlcValue) ∧
      ∀ op : Op G, op.Meets C ClockGuard ((createStore C explicit clock).steps C ops) →
        Grows op.stamps ((createStore C explicit clock).steps C ops).db.oplog
          (((createStore C explicit clock).steps C ops).step C op).db.oplog := by
  obtain ⟨hgood, hok⟩ := run_keeps (I := DejaDB.ClockOk) (fun _ _ _ hidle => hidle.clockOk)
    (fun ev _ _ hgood hg hcommit hok => (hcommit.clock hgood.rowsOk hg
      (show ev.stamps fun _ => False by cases ev <;> simp [Event.stamps]) hok).1)
    (createStore_clockOk C explicit clock) h
  refine ⟨fun x hx => (hok x hx).trans_lt (lt_nextHlcValue _), fun op hop => ?_⟩
  have hpath := Op.path (Γ := fun ev a => ClockGuard ev a ∧ ev.stamps op.stamps) hgood.toSound
    fun x hx => ⟨hop x hx, op.commits_stamps x hx⟩
  refine (hpath.keeps_good (I := fun st => st.ClockOk ∧ Grows op.stamps
    ((createStore C explicit clock).steps C ops).db.oplog st.db.oplog) ?_ ?_ hgood
      ⟨hok, .refl⟩).2.2
  · rintro a b - hidle ⟨hok, hgrows⟩
    refine ⟨hidle.clockOk hok, ?_⟩
    rw [hidle.file]
    exact hgrows
  · rintro ev a b hgood ⟨hg, hown⟩ hcommit ⟨hok, hgrows⟩
    obtain ⟨hok', hmore⟩ := hcommit.clock hgood.rowsOk hg hown hok
    exact ⟨hok', hgrows.trans hmore⟩

/-! ## A closure replayed -/

/-- The bytes the sample codec writes for a grain. -/
def sampleBlob (g : Grain SampleBody) : Bytes :=
  match sampleCore.serializeGrain g with
  | .ok (blob, _) => blob
  | .error _ => []

/-- The additions of a fact and of the one that supersedes it. -/
def additions : List BundleRecord :=
  [⟨1, 589824, Hash.ofByte 1, sampleBlob (sampleFact 1 1 1 2 3)⟩,
    ⟨1, 589825, Hash.ofByte 2, sampleBlob { sampleFact 2 2 1 2 4 with
      derivedFrom := some (Hash.ofByte 1).toHex }⟩]

/-- The same with the closure of the first. -/
def closure : List BundleRecord :=
  additions ++ [⟨2, 589826, Hash.ofByte 2, []⟩]

/-- A new file that replayed `rs`. -/
def replaying (rs : List BundleRecord) : List (Op SampleBody) :=
  [.importBundle (bundleMagic ++ rs.flatMap encodeRecord) none]

/-- After the additions alone the next row is stamped past the replayed ones. -/
theorem additions_hlc_ok :
    (∀ x ∈ (sampleStore.steps sampleCore (replaying additions)).db.oplog,
        x.hlc < (sampleStore.steps sampleCore (replaying additions)).nextHlcValue) ∧
      Grows (Op.forget (G := SampleBody) (Hash.ofByte 2)).stamps
        (sampleStore.steps sampleCore (replaying additions)).db.oplog
        ((sampleStore.steps sampleCore (replaying additions)).step sampleCore
          (.forget (Hash.ofByte 2))).db.oplog := by
  have hmeets : Meets sampleCore ClockGuard sampleStore (replaying additions) := by decide +kernel
  have hnext : Meets sampleCore ClockGuard (sampleStore.steps sampleCore (replaying additions))
      [.forget (Hash.ofByte 2)] := by
    decide +kernel
  have h := @hlc_ok _ sampleCore none (fun _ => 9) (replaying additions) hmeets
  have hstore : createStore sampleCore none (fun _ => 9) = sampleStore := rfl
  rw [hstore] at h
  exact ⟨h.1, h.2 _ hnext.1⟩

/-- The numbers and clock values of the op-log. -/
def DejaDB.stampsOf (st : DejaDB) : List (ℤ × ℤ) := st.db.oplog.map fun r => (r.opSeq, r.hlc)

/-- After the closure the next write carries the clock value of the closure. -/
theorem closure_overtakes_clock :
    Reachable sampleCore (sampleStore.steps sampleCore (replaying closure)) ∧
      (sampleStore.steps sampleCore (replaying closure)).stampsOf =
        [(1, 589824), (2, 589825), (3, 589826)] ∧
      ((sampleStore.steps sampleCore (replaying closure)).step sampleCore
          (.forget (Hash.ofByte 2))).stampsOf =
        [(1, 589824), (2, 589825), (3, 589826), (4, 589826)] :=
  ⟨sampleStore_reachable.steps _, by decide +kernel, by decide +kernel⟩

end Deja
