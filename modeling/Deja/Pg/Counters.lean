import Mathlib.Tactic

/-!
# Id blocks on a shared schema

On the PostgreSQL backend a write transaction claims its ids from three rows of
`counters` with one `UPDATE … RETURNING`.  The rows stay locked until the
transaction ends, so of all the writers of a schema at most one has claimed ids
and not ended yet; a rollback restores the rows with everything else.

`Schema.step` is that protocol: any writer may claim further blocks while it
holds the rows, commit, or roll back, and a handle may open the schema in
between.  `counters_ok` is what holds after every sequence of such steps.
-/

namespace Deja.Pg

/-! ## Reserving -/

/-- The rows of `counters`: the last used sequence number, op number and clock
value. -/
structure Counters where
  seq : ℤ
  op : ℤ
  hlc : ℤ
  deriving DecidableEq

/-- The arguments of `reserve_write`. -/
structure Request where
  nSeq : ℕ
  nOp : ℕ
  nHlc : ℕ
  wallHlc : ℤ
  hlcFloor : ℤ

/-- `WriteIds`: the first of each reserved block. -/
structure WriteIds where
  seq0 : ℤ
  op0 : ℤ
  hlc0 : ℤ

/-- The `UPDATE counters` of `reserve_write`. -/
def Counters.reserve (c : Counters) (r : Request) : Counters where
  seq := c.seq + r.nSeq
  op := c.op + r.nOp
  hlc := max (max (c.hlc + r.nHlc) (r.wallHlc + r.nHlc - 1)) r.hlcFloor

/-- The ids `reserve_write` answers, from the counters it left. -/
def Counters.writeIds (c : Counters) (r : Request) : WriteIds where
  seq0 := c.seq - r.nSeq + 1
  op0 := c.op - r.nOp + 1
  hlc0 := c.hlc - max ((r.nHlc : ℤ) - 1) 0

/-- An op-log row: its number and clock value, and whether the value was
allocated here or came with an imported record. -/
structure Stamp where
  opSeq : ℤ
  hlc : ℤ
  isLocal : Bool
  deriving DecidableEq

/-- The sequence numbers of the grains a block is used for. -/
def Request.seqs (r : Request) (ids : WriteIds) : List ℤ :=
  (List.range r.nSeq).map fun i : ℕ => ids.seq0 + i

/-- The op-log rows a block is used for.  A row beyond the clock block carries
the imported value that was passed as the floor. -/
def Request.stamps (r : Request) (ids : WriteIds) : List Stamp :=
  (List.range r.nOp).map fun i : ℕ =>
    if i < r.nHlc then ⟨ids.op0 + i, ids.hlc0 + i, true⟩ else ⟨ids.op0 + i, r.hlcFloor, false⟩

/-- The write transactions of the store, each with what it knows when it
reserves. -/
inductive Write where
  | addBatch (n : ℕ)
  | addIfNovel (novel : Bool)
  | supersede
  | mergeHeads
  | forget
  | eraseWhere (n : ℕ)
  | logOp (hlc : ℤ)
  | insertBlob (hlcIn : ℤ)
  | applySupersedeFlip
  | rebuild

/-- The calls of `reserve_write` in a write transaction, under the wall clock of
its writer. -/
def Write.requests (wall : ℤ) : Write → List Request
  | .addBatch n => [⟨n, n, n, wall, 0⟩]
  | .addIfNovel novel => ⟨0, 0, 0, wall, 0⟩ :: if novel then [⟨1, 1, 1, wall, 0⟩] else []
  | .supersede | .mergeHeads => [⟨1, 2, 2, wall, 0⟩]
  | .forget => [⟨0, 1, 1, wall, 0⟩]
  | .eraseWhere n => ⟨0, 0, 0, wall, 0⟩ :: if n = 0 then [] else [⟨0, n, n, wall, 0⟩]
  | .logOp hlc => [⟨0, 1, 0, wall, hlc⟩]
  | .insertBlob hlcIn => [⟨1, 1, 0, wall, hlcIn⟩]
  | .applySupersedeFlip | .rebuild => [⟨0, 0, 0, wall, 0⟩]

/-! ## The schema and its writers -/

/-- A write transaction that holds the counter rows: the counters as it left
them, and the rows it has written. -/
structure Txn (W : Type) where
  writer : W
  counters : Counters
  seqs : List ℤ
  oplog : List Stamp

/-- A schema: the committed counters, the committed rows in commit order, and
the transaction that holds the counter rows. -/
structure Schema (W : Type) where
  counters : Counters
  seqs : List ℤ
  oplog : List Stamp
  holder : Option (Txn W)

/-- What the writers of a schema do. -/
inductive Act (W : Type) where
  | reserve (w : W) (r : Request)
  | commit (w : W)
  | rollback (w : W)
  | seed (grains : List ℤ) (ops : ℕ)

variable {W : Type}

/-- Claim a block and write its rows. -/
def Txn.reserve (x : Txn W) (r : Request) : Txn W :=
  let c := x.counters.reserve r
  { x with
    counters := c
    seqs := x.seqs ++ r.seqs (c.writeIds r)
    oplog := x.oplog ++ r.stamps (c.writeIds r) }

namespace Schema

/-- The schema `SCHEMA_PG` creates. -/
def fresh : Schema W := ⟨⟨0, 0, 0⟩, [], [], none⟩

/-- `PG_SEED`: each counter is raised to the maximum its table held when the
statement read it. -/
def seedCounters (s : Schema W) (grains : List ℤ) (ops : ℕ) : Counters where
  seq := max s.counters.seq (grains.foldl max 0)
  op := max s.counters.op (((s.oplog.take ops).map Stamp.opSeq).foldl max 0)
  hlc := max s.counters.hlc (((s.oplog.take ops).map Stamp.hlc).foldl max 0)

variable [DecidableEq W]

/-- One step; `none` where the counter rows are held by another transaction, or
there is nothing to end.  An open may have read the tables a while ago, and
grains may be gone since they were written. -/
def step (s : Schema W) : Act W → Option (Schema W)
  | .reserve w r =>
    match s.holder with
    | none => some { s with holder := some ((⟨w, s.counters, [], []⟩ : Txn W).reserve r) }
    | some x => if x.writer = w then some { s with holder := some (x.reserve r) } else none
  | .commit w =>
    match s.holder with
    | some x =>
      if x.writer = w then some ⟨x.counters, s.seqs ++ x.seqs, s.oplog ++ x.oplog, none⟩ else none
    | none => none
  | .rollback w =>
    match s.holder with
    | some x => if x.writer = w then some { s with holder := none } else none
    | none => none
  | .seed grains ops =>
    match s.holder with
    | some _ => none
    | none =>
      if grains ⊆ s.seqs then some { s with counters := s.seedCounters grains ops } else none

/-- A sequence of steps. -/
def run (s : Schema W) : List (Act W) → Option (Schema W)
  | [] => some s
  | a :: as => (s.step a).bind fun s' => s'.run as

end Schema

/-! ## What the counters stand for -/

/-- The counters of a schema that holds these rows: ids are used up from `1`
without a gap, and the clock is past every row; local clock values increase. -/
structure Book (c : Counters) (seqs : List ℤ) (oplog : List Stamp) : Prop where
  seq : c.seq = seqs.length
  seqs : seqs = (List.range seqs.length).map fun i : ℕ => (i : ℤ) + 1
  op : c.op = oplog.length
  ops : oplog.map Stamp.opSeq = (List.range oplog.length).map fun i : ℕ => (i : ℤ) + 1
  hlc : ∀ x ∈ oplog, x.hlc ≤ c.hlc
  increasing : ((oplog.filter Stamp.isLocal).map Stamp.hlc).Pairwise (· < ·)

/-- A block of consecutive ids continues the ids used up so far. -/
theorem range_append_block (n m : ℕ) :
    (List.range n).map (fun i : ℕ => (i : ℤ) + 1) ++
        (List.range m).map (fun i : ℕ => (n : ℤ) + 1 + i) =
      (List.range (n + m)).map fun i : ℕ => (i : ℤ) + 1 := by
  rw [List.range_add, List.map_append, List.map_map]
  congr 1
  refine List.map_congr_left fun i _ => ?_
  simp only [Function.comp_apply]
  push_cast
  ring

theorem stamps_length (r : Request) (ids : WriteIds) : (r.stamps ids).length = r.nOp := by
  simp [Request.stamps]

theorem stamps_opSeq (r : Request) (ids : WriteIds) :
    (r.stamps ids).map Stamp.opSeq = (List.range r.nOp).map fun i : ℕ => ids.op0 + i := by
  unfold Request.stamps
  rw [List.map_map]
  refine List.map_congr_left fun i _ => ?_
  simp only [Function.comp_apply]
  split_ifs <;> rfl

/-- A local row of a block carries a value of the block; another one the floor. -/
theorem mem_stamps {r : Request} {ids : WriteIds} {x : Stamp} (h : x ∈ r.stamps ids) :
    (∃ i < r.nHlc, x.isLocal ∧ x.hlc = ids.hlc0 + i) ∨ x.isLocal = false ∧ x.hlc = r.hlcFloor := by
  obtain ⟨i, -, rfl⟩ := List.mem_map.1 h
  by_cases hi : i < r.nHlc
  · rw [if_pos hi]
    exact .inl ⟨i, hi, rfl, rfl⟩
  · rw [if_neg hi]
    exact .inr ⟨rfl, rfl⟩

/-- The local rows of a block carry increasing values. -/
theorem stamps_increasing (r : Request) (ids : WriteIds) :
    (((r.stamps ids).filter Stamp.isLocal).map Stamp.hlc).Pairwise (· < ·) := by
  rw [List.pairwise_map]
  refine List.Pairwise.filter _ ?_ |>.imp_of_mem (R := fun x y => x.isLocal → y.isLocal →
    x.hlc < y.hlc) fun hx hy h => h (by simpa using (List.mem_filter.1 hx).2)
      (by simpa using (List.mem_filter.1 hy).2)
  unfold Request.stamps
  rw [List.pairwise_map]
  refine List.pairwise_lt_range.imp fun {i j} hij => ?_
  split_ifs <;> simp
  omega

/-- **One reservation.**  The rows of a block continue the book. -/
theorem Book.reserve {c : Counters} {seqs : List ℤ} {oplog : List Stamp} (h : Book c seqs oplog)
    (r : Request) :
    Book (c.reserve r) (seqs ++ r.seqs ((c.reserve r).writeIds r))
      (oplog ++ r.stamps ((c.reserve r).writeIds r)) := by
  have hlast : c.hlc + r.nHlc ≤ (c.reserve r).hlc :=
    (le_max_left _ _).trans (le_max_left _ _)
  have hfloor : r.hlcFloor ≤ (c.reserve r).hlc := le_max_right _ _
  -- a value of the block is past the old counter and not past the new one
  have hblock : ∀ i < r.nHlc, c.hlc < ((c.reserve r).writeIds r).hlc0 + i ∧
      ((c.reserve r).writeIds r).hlc0 + i ≤ (c.reserve r).hlc := by
    intro i hi
    have hids : ((c.reserve r).writeIds r).hlc0 =
        (c.reserve r).hlc - max ((r.nHlc : ℤ) - 1) 0 := rfl
    omega
  refine ⟨?_, ?_, ?_, ?_, fun x hx => ?_, ?_⟩
  · have hseq : (c.reserve r).seq = c.seq + r.nSeq := rfl
    simp [hseq, h.seq, Request.seqs]
  · have hids : ((c.reserve r).writeIds r).seq0 = (seqs.length : ℤ) + 1 := by
      have hseq : ((c.reserve r).writeIds r).seq0 = c.seq + r.nSeq - r.nSeq + 1 := rfl
      rw [hseq, h.seq]
      ring
    unfold Request.seqs
    rw [hids, List.length_append, List.length_map, List.length_range, ← range_append_block,
      ← h.seqs]
  · have hop : (c.reserve r).op = c.op + r.nOp := rfl
    rw [hop, h.op, List.length_append, stamps_length]
    push_cast
    rfl
  · have hids : ((c.reserve r).writeIds r).op0 = (oplog.length : ℤ) + 1 := by
      have hop : ((c.reserve r).writeIds r).op0 = c.op + r.nOp - r.nOp + 1 := rfl
      rw [hop, h.op]
      ring
    rw [List.map_append, stamps_opSeq, hids, h.ops, List.length_append, stamps_length,
      range_append_block]
  · rcases List.mem_append.1 hx with hx | hx
    · have hold := h.hlc x hx
      omega
    · rcases mem_stamps hx with ⟨i, hi, -, hxi⟩ | ⟨-, hxf⟩
      · rw [hxi]
        exact (hblock i hi).2
      · rw [hxf]
        exact hfloor
  · rw [List.filter_append, List.map_append, List.pairwise_append]
    refine ⟨h.increasing, stamps_increasing r _, fun x hx y hy => ?_⟩
    obtain ⟨x', hx', rfl⟩ := List.mem_map.1 hx
    obtain ⟨y', hy', rfl⟩ := List.mem_map.1 hy
    have hold := h.hlc x' (List.mem_filter.1 hx').1
    obtain ⟨hy', hlocal⟩ := List.mem_filter.1 hy'
    rcases mem_stamps hy' with ⟨i, hi, -, hyi⟩ | ⟨hfalse, -⟩
    · have hnew := (hblock i hi).1
      omega
    · rw [hfalse] at hlocal
      cases hlocal

/-! ## Along every interleaving -/

/-- The committed rows are booked, and so are they with the rows of the
transaction that holds the counters. -/
structure Schema.Ok (s : Schema W) : Prop where
  committed : Book s.counters s.seqs s.oplog
  pending : ∀ x ∈ s.holder, Book x.counters (s.seqs ++ x.seqs) (s.oplog ++ x.oplog)

theorem foldl_max_le {l : List ℤ} {b c : ℤ} (hb : b ≤ c) (h : ∀ x ∈ l, x ≤ c) :
    l.foldl max b ≤ c := by
  induction l generalizing b with
  | nil => exact hb
  | cons x l ih =>
    rw [List.forall_mem_cons] at h
    exact ih (max_le hb h.1) h.2

/-- Opening the schema again finds the counters where they should be. -/
theorem Schema.seed_book {s : Schema W} (h : Book s.counters s.seqs s.oplog) {grains : List ℤ}
    (hgrains : grains ⊆ s.seqs) (ops : ℕ) : Book (s.seedCounters grains ops) s.seqs s.oplog := by
  have hseqs : grains.foldl max 0 ≤ s.counters.seq := by
    refine foldl_max_le (by rw [h.seq]; positivity) fun x hx => ?_
    have hmem := hgrains hx
    rw [h.seqs] at hmem
    obtain ⟨i, hi, rfl⟩ := List.mem_map.1 hmem
    rw [h.seq]
    have hlt := List.mem_range.1 hi
    omega
  have hops : ((s.oplog.take ops).map Stamp.opSeq).foldl max 0 ≤ s.counters.op := by
    refine foldl_max_le (by rw [h.op]; positivity) fun x hx => ?_
    have hmem : x ∈ s.oplog.map Stamp.opSeq :=
      ((List.take_sublist ops s.oplog).map Stamp.opSeq).subset hx
    rw [h.ops] at hmem
    obtain ⟨i, hi, rfl⟩ := List.mem_map.1 hmem
    rw [h.op]
    have hlt := List.mem_range.1 hi
    omega
  refine ⟨?_, h.seqs, ?_, h.ops, fun x hx => (h.hlc x hx).trans (le_max_left _ _), h.increasing⟩
  · rw [seedCounters, max_eq_left hseqs]
    exact h.seq
  · rw [seedCounters, max_eq_left hops]
    exact h.op

theorem Schema.fresh_ok : (fresh : Schema W).Ok where
  committed := ⟨rfl, rfl, rfl, rfl, (fun _ hx => nomatch hx), .nil⟩
  pending _ hx := nomatch hx

/-- A reservation of the transaction that holds the counters. -/
theorem Txn.reserve_book {s : Schema W} {x : Txn W} (r : Request)
    (h : Book x.counters (s.seqs ++ x.seqs) (s.oplog ++ x.oplog)) :
    Book (x.reserve r).counters (s.seqs ++ (x.reserve r).seqs)
      (s.oplog ++ (x.reserve r).oplog) := by
  have hnext := h.reserve r
  rw [List.append_assoc, List.append_assoc] at hnext
  exact hnext

variable [DecidableEq W]

theorem Schema.Ok.step {s s' : Schema W} {a : Act W} (h : s.Ok) (hstep : s.step a = some s') :
    s'.Ok := by
  cases a with
  | reserve w r =>
    cases hholder : s.holder with
    | none =>
      simp only [Schema.step, hholder, Option.some.injEq] at hstep
      subst hstep
      refine ⟨h.committed, fun x hx => ?_⟩
      cases hx
      refine Txn.reserve_book (s := s) r ?_
      rw [List.append_nil, List.append_nil]
      exact h.committed
    | some x =>
      simp only [Schema.step, hholder] at hstep
      split_ifs at hstep
      cases hstep
      refine ⟨h.committed, fun y hy => ?_⟩
      cases hy
      exact Txn.reserve_book (s := s) r (h.pending x hholder)
  | commit w =>
    cases hholder : s.holder with
    | none => simp [Schema.step, hholder] at hstep
    | some x =>
      simp only [Schema.step, hholder] at hstep
      split_ifs at hstep
      cases hstep
      exact ⟨h.pending x hholder, fun y hy => nomatch hy⟩
  | rollback w =>
    cases hholder : s.holder with
    | none => simp [Schema.step, hholder] at hstep
    | some x =>
      simp only [Schema.step, hholder] at hstep
      split_ifs at hstep
      cases hstep
      exact ⟨h.committed, fun y hy => nomatch hy⟩
  | seed grains ops =>
    cases hholder : s.holder with
    | some x => simp [Schema.step, hholder] at hstep
    | none =>
      simp only [Schema.step, hholder] at hstep
      split_ifs at hstep with hgrains
      cases hstep
      exact ⟨Schema.seed_book h.committed hgrains ops, fun x hx => nomatch hx⟩

theorem Schema.Ok.run {s s' : Schema W} {acts : List (Act W)} (h : s.Ok)
    (hrun : s.run acts = some s') : s'.Ok := by
  induction acts generalizing s with
  | nil =>
    cases hrun
    exact h
  | cons a acts ih =>
    obtain ⟨s₁, hstep, hrest⟩ := Option.bind_eq_some_iff.1 hrun
    exact ih (h.step hstep) hrest

/-- **Id blocks.**  After any interleaving of the writers of a fresh schema the
committed sequence numbers are distinct, the committed op numbers are `1..n` in
commit order, and the clock values of local rows increase in commit order. -/
theorem counters_ok {s : Schema W} {acts : List (Act W)}
    (h : (Schema.fresh : Schema W).run acts = some s) :
    s.seqs.Nodup ∧
      s.oplog.map Stamp.opSeq = (List.range s.oplog.length).map (fun i : ℕ => (i : ℤ) + 1) ∧
      ((s.oplog.filter Stamp.isLocal).map Stamp.hlc).Pairwise (· < ·) := by
  have hbook := (Schema.fresh_ok.run h).committed
  refine ⟨?_, hbook.ops, hbook.increasing⟩
  rw [hbook.seqs]
  refine List.Nodup.map (fun i j hij => ?_) List.nodup_range
  simpa using hij

/-- Two writers under different wall clocks, one of them rolled back, and an
imported value past both. -/
def twoWriters : List (Act Bool) :=
  ((Write.addBatch 2).requests 900).map (.reserve true) ++ [.commit true] ++
    (Write.supersede.requests 100).map (.reserve false) ++ [.rollback false] ++
    ((Write.insertBlob 5000).requests 100).map (.reserve false) ++ [.commit false, .seed [2] 3] ++
    ((Write.addIfNovel true).requests 950).map (.reserve true) ++ [.commit true]

/-- What the two writers leave. -/
def twoWritersEnd : Schema Bool where
  counters := ⟨4, 4, 5001⟩
  seqs := [1, 2, 3, 4]
  oplog := [⟨1, 900, true⟩, ⟨2, 901, true⟩, ⟨3, 5000, false⟩, ⟨4, 5001, true⟩]
  holder := none

theorem twoWriters_ok : (Schema.fresh : Schema Bool).run twoWriters = some twoWritersEnd ∧
    ((twoWritersEnd.oplog.filter Stamp.isLocal).map Stamp.hlc).Pairwise (· < ·) :=
  ⟨rfl, (counters_ok (show Schema.fresh.run twoWriters = some twoWritersEnd from rfl)).2.2⟩

end Deja.Pg
