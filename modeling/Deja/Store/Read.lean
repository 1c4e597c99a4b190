import Deja.Store.Prep

/-!
# Reading a store

The read path: point reads by content address, structural recall, the
provisional head of a key, its open tips, the supersession chain and the
integrity report.  None of these changes the file.

`entity_at` follows `grains.supersedes` in a loop with no step cap; `walkBack`
is that loop with a bound on its steps, `none` when the bound is used up.
-/

namespace Deja

variable {G : Type} (C : Core G)

namespace Tables

variable (t : Tables)

/-- `SELECT … FROM grains WHERE seq = ?`. -/
def grainBySeq (seq : ℤ) : Option GrainRow := t.grains.find? fun g => g.seq = seq

/-- The tips of a key: `ORDER BY created_at DESC, hash DESC`. -/
def headsOf (k : Key) : List HeadRow :=
  (t.heads.filter fun h => h.key = k).insertionSort fun a b => b.rank ≤ a.rank

/-- The `entity_latest` row of a key. -/
def latestOf (k : Key) : Option LatestRow := t.entityLatest.find? fun e => e.key = k

/-- `triples t JOIN grains g ON g.seq = t.seq … WHERE t.cur=1 ORDER BY t.seq
DESC`, for the rows a recall asks for. -/
def recallRows (wanted : TripleRow → Bool) : List GrainRow :=
  ((t.triples.filter fun r => r.cur && wanted r).insertionSort fun a b => b.seq ≤ a.seq).filterMap
    fun r => t.grainBySeq r.seq

/-- `thread_idx ti JOIN grains g ON g.seq = ti.seq … ORDER BY ti.seq DESC`. -/
def threadTailRows (ns session : ℤ) : List GrainRow :=
  ((t.threadIdx.filter fun r => r.ns = ns ∧ r.session = session).insertionSort
    fun a b => b.seq ≤ a.seq).filterMap fun r => t.grainBySeq r.seq

/-- `run_idx r JOIN grains g ON g.seq = r.seq … ORDER BY r.seq DESC`. -/
def runTraceRows (ns run : ℤ) : List GrainRow :=
  ((t.runIdx.filter fun r => r.ns = ns ∧ r.run = run).insertionSort
    fun a b => b.seq ≤ a.seq).filterMap fun r => t.grainBySeq r.seq

end Tables

namespace DejaDB

variable (st : DejaDB)

/-! ## Point reads -/

/-- `get`: fetch a grain by content address. -/
def get (hash : Hash) : Except DejaDbError DeserializedGrain :=
  match st.db.grainByHash hash with
  | some g => C.deserializeBlob g.blob
  | none => .error (.notFound hash)

/-- `has`. -/
def has (hash : Hash) : Bool := st.db.hasGrain hash

/-- The key of a `(namespace, subject, relation)` whose terms are all known. -/
def keyOf (ns subject relation : String) : Option Key :=
  match st.termLookup ns, st.termLookup subject, st.termLookup relation with
  | some n, some s, some p => some ⟨n, s, p⟩
  | _, _, _ => none

/-- `recall`: current grains about `subject`, newest first, at most `k`. -/
def recallGrains (ns subject : String) (relation : Option String) (k : ℕ) :
    Except DejaDbError (List DeserializedGrain) :=
  match st.termLookup ns, st.termLookup subject with
  | some nsId, some sId =>
    match relation with
    | none =>
      ((st.db.recallRows fun r => r.ns = nsId ∧ r.s = sId).take k).mapM fun g =>
        C.deserializeBlob g.blob
    | some rel =>
      match st.termLookup rel with
      | none => .ok []
      | some pId =>
        ((st.db.recallRows fun r => r.ns = nsId ∧ r.s = sId ∧ r.p = pId).take k).mapM fun g =>
          C.deserializeBlob g.blob
  | _, _ => .ok []

/-- `thread_tail`: the last `n` grains of a session, oldest first. -/
def threadTail (ns session : String) (n : ℕ) : Except DejaDbError (List DeserializedGrain) :=
  match st.termLookup ns, st.termLookup session with
  | some nsId, some sessId =>
    ((st.db.threadTailRows nsId sessId).take n).reverse.mapM fun g => C.deserializeBlob g.blob
  | _, _ => .ok []

/-- `run_trace`: the grains of a run, newest first, at most 1024 of them. -/
def runTrace (ns runId : String) (limit : ℕ) : Except DejaDbError (List DeserializedGrain) :=
  match st.termLookup ns, st.termLookup runId with
  | some nsId, some run =>
    ((st.db.runTraceRows nsId run).take (min limit 1024)).mapM fun g => C.deserializeBlob g.blob
  | _, _ => .ok []

/-- `latest`: the current value head of a key. -/
def latest (ns subject relation : String) : Except DejaDbError (Option DeserializedGrain) :=
  match st.keyOf ns subject relation with
  | none => .ok none
  | some k =>
    match st.db.latestOf k with
    | none => .ok none
    | some e => (st.get C e.hash).map some

/-- `heads`: the open supersession tips of a key, provisional head first. -/
def heads (ns subject relation : String) : List (Hash × ℤ) :=
  match st.keyOf ns subject relation with
  | none => []
  | some k => (st.db.headsOf k).map fun h => (h.hash, h.createdAt)

/-- `term_str`: the term an id stands for. -/
def termStr (id : ℤ) : Option String := (st.dict.find? fun x => x.2 = id).map Prod.fst

/-- An open fork: a key with more than one live tip. -/
structure ForkGroup where
  ns : String
  subject : String
  relation : String
  heads : List Hash
  deriving DecidableEq

/-- `open_forks`. -/
def openForks : List ForkGroup :=
  let keys := st.db.heads.map HeadRow.key
  (keys.dedup.filter fun k => 1 < keys.count k).filterMap fun k =>
    match st.termStr k.ns, st.termStr k.s, st.termStr k.p with
    | some ns, some s, some p => some ⟨ns, s, p, (st.heads ns s p).map Prod.fst⟩
    | _, _, _ => none

/-! ## The supersession chain -/

/-- The loop of the knowledge-time read, bounded to `fuel` steps: from the
grain at `cur`, follow `supersedes` to the newest version known at `t`. -/
def walkBack (t : ℤ) : ℕ → Hash → Option (Except DejaDbError (Option DeserializedGrain))
  | 0, _ => none
  | fuel + 1, cur =>
    match st.db.grainByHash cur with
    | none => some (.ok none)
    | some g =>
      if g.svf ≤ t then some ((C.deserializeBlob g.blob).map some)
      else
        match g.supersedes with
        | some prev => walkBack t fuel prev
        | none => some (.ok none)

/-- `entity_at` on the knowledge axis; `none` when the walk is longer than
`fuel`. -/
def entityAtKnowledge (ns subject relation : String) (t : ℤ) (fuel : ℕ) :
    Option (Except DejaDbError (Option DeserializedGrain)) :=
  match st.latest C ns subject relation with
  | .error e => some (.error e)
  | .ok none => some (.ok none)
  | .ok (some g) => st.walkBack C t fuel g.hash

/-- `entity_at` on the world axis: the newest unsuperseded grain of the key
whose world validity covers `t`. -/
def entityAtWorld (ns subject relation : String) (t : ℤ) :
    Except DejaDbError (Option DeserializedGrain) :=
  match st.keyOf ns subject relation with
  | none => .ok none
  | some k =>
    let rows := ((st.db.triples.filter fun r => r.key = k).filterMap fun r =>
      (st.db.grainBySeq r.seq).filter fun g =>
        g.svt.isNone && g.vf.all (· ≤ t) && g.vt.all (t < ·))
    match (rows.insertionSort fun a b => b.seq ≤ a.seq).head? with
    | none => .ok none
    | some g => (C.deserializeBlob g.blob).map some

/-- One version in a supersession chain. -/
structure HistoryEntry where
  hash : Hash
  object : String
  createdAt : ℤ
  confidence : Option Json
  supersededBy : Option Hash

/-- The walk of `history`, at most `room` versions long. -/
def historyFrom : ℕ → Hash → Except DejaDbError (List HistoryEntry)
  | 0, _ => .ok []
  | room + 1, cur =>
    match st.db.grainByHash cur with
    | none => .ok []
    | some g =>
      match C.deserializeBlob g.blob with
      | .error e => .error e
      | .ok view =>
        let entry : HistoryEntry :=
          ⟨cur, (view.getStr "object").getD "", (view.getI64 "created_at").getD 0,
            view.get "confidence", g.supersededBy⟩
        match g.supersedes with
        | none => .ok [entry]
        | some prev => (historyFrom room prev).map (entry :: ·)

/-- `history`: the chain from the current head, newest first, cut after 513
versions. -/
def history (ns subject relation : String) : Except DejaDbError (List HistoryEntry) :=
  match st.latest C ns subject relation with
  | .error e => .error e
  | .ok none => .ok []
  | .ok (some g) => st.historyFrom C 513 g.hash

/-! ## Integrity -/

/-- The part of `VerifyReport` the store computes itself. -/
structure VerifyReport where
  grains : ℕ
  hashMismatches : ℕ
  undecodable : ℕ
  deriving DecidableEq

/-- `verify`: re-hash every blob and compare it with its stored address. -/
def verify : VerifyReport where
  grains := st.db.grains.length
  hashMismatches := st.db.grains.countP fun g =>
    match C.deserializeBlob g.blob with
    | .ok view => view.hash ≠ g.hash
    | .error _ => false
  undecodable := st.db.grains.countP fun g =>
    match C.deserializeBlob g.blob with
    | .ok _ => false
    | .error _ => true

end DejaDB

end Deja
