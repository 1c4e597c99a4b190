import Deja.Store.Read

/-!
# The write path

Local writes on an open store: adding grains, superseding one by another,
closing a fork, forgetting a grain.  Each method prepares outside its
transaction and then runs one body over the tables; the bodies are the
functions of `Tables`.
-/

namespace Deja

variable {G : Type} (C : Core G)

/-! ## The insert body -/

namespace Tables

/-- The BM25 rows of an insert: one posting a distinct token and the document
length, nothing when the text has no token. -/
def insertPostings (t : Tables) (pr : GrainPrep) (seq : ℤ) : Tables :=
  if pr.tokens.isEmpty then t
  else { t with
    ftsPost := t.ftsPost ++ pr.postRows seq
    ftsDoc := t.ftsDoc.filter (fun d => d.seq ≠ seq) ++ [⟨seq, pr.docLen⟩] }

/-- Collapse the tips of the grain's key to the grain itself. -/
def collapseHeads (t : Tables) (pr : GrainPrep) (seq : ℤ) : Tables :=
  match pr.spo with
  | some (s, p, o) =>
    let t := t.putLatest ⟨pr.nsId, s, p, o, seq, pr.hash⟩
    { t with heads := t.heads.filter (fun h => h.key ≠ ⟨pr.nsId, s, p⟩) ++
        [⟨pr.nsId, s, p, seq, pr.hash, pr.created⟩] }
  | none => t

/-- One round of `insert_prepped`. -/
def insertPreppedOne (t : Tables) (pr : GrainPrep) (seq op hlc : ℤ) :
    Except DejaDbError Tables := do
  let t ← t.insertGrain (pr.grainRow seq)
  let t := t.insertPostings pr seq
  let t := t.collapseHeads pr seq
  let t ← t.insertIndexRows pr seq
  t.insertOp ⟨op, hlc, .add, pr.hash⟩

/-- `insert_prepped`: consecutive sequence numbers, op numbers and clock
values. -/
def insertPrepped : Tables → List GrainPrep → ℤ → ℤ → ℤ → Except DejaDbError Tables
  | t, [], _, _, _ => .ok t
  | t, pr :: preps, seq, op, hlc => do
    let t ← t.insertPreppedOne pr seq op hlc
    t.insertPrepped preps (seq + 1) (op + 1) (hlc + 1)

end Tables

/-- `fts_delta`: the documents and the token length a batch adds. -/
def ftsDelta (preps : List GrainPrep) : ℤ × ℤ :=
  ((preps.countP fun p => !p.tokens.isEmpty : ℕ), (preps.map GrainPrep.docLen).sum)

/-- Add a batch to the in-memory collection statistics. -/
def bumpStats (preps : List GrainPrep) : StoreM Unit := modify fun st =>
  { st with
    ftsDocs := st.ftsDocs + (ftsDelta preps).1
    ftsTotalLen := st.ftsTotalLen + (ftsDelta preps).2 }

/-! ## Reserving counters -/

/-- `reserve_for`: the seq, op and clock block of `n` prepared grains. -/
def reserveFor (n : ℕ) : StoreM (ℤ × ℤ × ℤ) := do
  let st ← get
  set { st with nextSeq := st.nextSeq + n, nextOp := st.nextOp + n }
  let hlc0 ← nextHlc
  modify fun st => { st with hlcLast := hlc0 + n - 1 }
  pure (st.nextSeq, st.nextOp, hlc0)

/-- The next op number and clock value. -/
def reserveOp : StoreM (ℤ × ℤ) := do
  let st ← get
  set { st with nextOp := st.nextOp + 1 }
  pure (st.nextOp, ← nextHlc)

/-- Serialize and prepare one grain. -/
def prepGrain (g : Grain G) : StoreM GrainPrep := do
  let (blob, hash) ← lift (C.serializeGrain g)
  prepFromBlob C blob hash

/-- `prep_and_reserve` on one grain. -/
def prepAndReserve (g : Grain G) : StoreM (GrainPrep × ℤ × ℤ × ℤ) := do
  let pr ← prepGrain C g
  pure (pr, ← reserveFor 1)

/-- The version of this build. -/
def packageVersion : String := "1.2.0"

/-- The highest type byte a build before OMS 1.5 could decode. -/
def legacyMaxGrainByte : UInt8 := 0x0B

/-- Stamp `min_reader_version` the first time a newer grain type is written. -/
def stampMinReader (preps : List GrainPrep) : StoreM Unit := modify fun st =>
  if st.needsMinReaderStamp ∧ preps.any fun p => p.blob[2]?.any (legacyMaxGrainByte < ·) then
    { st with
      db := { st.db with info := { st.db.info with minReaderVersion := some packageVersion } }
      needsMinReaderStamp := false }
  else st

/-! ## Adding -/

/-- The first pass of `add_batch_inner`: the address of every grain, and the
preparation of those neither stored nor seen earlier in the batch. -/
def prepNovel : List Hash → List (Grain G) → StoreM (List Hash × List GrainPrep)
  | _, [] => pure ([], [])
  | seen, g :: gs => do
    let (blob, hash) ← lift (C.serializeGrain g)
    if hash ∈ seen ∨ (← get).has hash then
      let (hashes, preps) ← prepNovel (hash :: seen) gs
      pure (hash :: hashes, preps)
    else
      let pr ← prepFromBlob C blob hash
      let (hashes, preps) ← prepNovel (hash :: seen) gs
      pure (hash :: hashes, pr :: preps)

/-- `add_batch`: one transaction for every grain not stored yet. -/
def addBatch (grains : List (Grain G)) : StoreM (List Hash) := do
  let (hashes, preps) ← prepNovel C [] grains
  if preps.isEmpty then pure hashes
  else
    let (firstSeq, firstOp, hlc0) ← reserveFor preps.length
    stampMinReader preps
    withTxn fun t => (t.insertPrepped preps firstSeq firstOp hlc0).map fun t => ((), t)
    bumpStats preps
    pure hashes

/-- `add`: a batch of one. -/
def add (g : Grain G) : StoreM Hash := do
  match ← addBatch C [g] with
  | hash :: _ => pure hash
  | [] => throw (.storage "add_batch returned no hash")

/-- `head_hash_for_object`: the provisional head of a key when its object is
exactly `o`. -/
def Tables.headHashForObject (t : Tables) (k : Key) (o : ℤ) : Option Hash :=
  (t.entityLatest.find? fun e => e.key = k ∧ e.o = o).map LatestRow.hash

/-- The probe of `add_if_novel` before its transaction. -/
def DejaDB.novelProbe (st : DejaDB) (gv : GrainView) : Option Hash :=
  match gv.spo with
  | none => none
  | some (sj, rl, ob) =>
    match st.keyOf gv.ns sj rl, st.termLookup ob with
    | some k, some o => st.db.headHashForObject k o
    | _, _ => none

/-- The transaction of `add_if_novel`: probe again, then insert. -/
def Tables.addIfNovelTxn (t : Tables) (pr : GrainPrep) (seq op hlc : ℤ) :
    Except DejaDbError (Option Hash × Tables) :=
  let existing := match pr.spo with
    | some (s, p, o) => t.headHashForObject ⟨pr.nsId, s, p⟩ o
    | none => none
  match existing with
  | some hash => .ok (some hash, t)
  | none => (t.insertPreppedOne pr seq op hlc).map fun t => (none, t)

/-- The fields `add_if_novel` probes with, read back from the serialized grain. -/
def probeView (g : Grain G) : StoreM GrainView := do
  let (blob, _) ← lift (C.serializeGrain g)
  let view ← lift (C.deserializeBlob blob)
  pure (extractView view (← createdAtOf view))

/-- `add_if_novel`: write the grain unless its value is the current one. -/
def addIfNovel (g : Grain G) : StoreM (Hash × Bool) := do
  let gv ← probeView C g
  match (← get).novelProbe gv with
  | some existing => pure (existing, false)
  | none =>
    let (pr, firstSeq, firstOp, hlc0) ← prepAndReserve C g
    stampMinReader [pr]
    match ← withTxn fun t => t.addIfNovelTxn pr firstSeq firstOp hlc0 with
    | some existing => pure (existing, false)
    | none =>
      bumpStats [pr]
      pure (pr.hash, true)

/-! ## Superseding -/

/-- Drop a grain that is no longer a tip from the indexes of its key and
re-elect the provisional head. -/
def Tables.retireTip (t : Tables) (k : Option Key) (seq : ℤ) : Tables :=
  match k with
  | some k => ((t.deleteHead k seq).deleteLatest k [seq]).reelect k
  | none => t

/-- The counters a supersession or a merge reserved: the block of its insert,
and the op number, clock value and timestamp of its closing record. -/
structure Slots where
  seq : ℤ
  op : ℤ
  hlc : ℤ
  opClose : ℤ
  hlcClose : ℤ
  now : ℤ

/-- The transaction of `supersede`: re-resolve the old grain, insert the new
one, flip, and reconcile the old key. -/
def Tables.supersedeTxn (t : Tables) (old : Hash) (oldKey : Option Key) (pr : GrainPrep)
    (n : Slots) : Except DejaDbError Tables :=
  match t.grainByHash old with
  | none => .error (.notFound old)
  | some row =>
    if row.svt.isSome then .error (.supersessionConflict old)
    else do
      let t ← t.insertPreppedOne pr n.seq n.op n.hlc
      let t := t.markSuperseded row.seq pr.hash n.now
      let t := t.markSupersedes pr.hash old
      let t := t.clearCur row.seq
      let t := t.retireTip oldKey row.seq
      t.insertOp ⟨n.opClose, n.hlcClose, .supersede, pr.hash⟩

/-- `supersede`: replace `old` by `newGrain`, whose `derived_from` is set to
`old`. -/
def supersede (old : Hash) (newGrain : Grain G) : StoreM Hash := do
  match (← get).db.grainByHash old with
  | none => throw (.notFound old)
  | some row =>
    if row.svt.isSome then throw (.supersessionConflict old)
    else
      let (pr, seq, op, hlc) ←
        prepAndReserve C { newGrain with derivedFrom := some old.toHex }
      let now ← nowMs
      let (opClose, hlcClose) ← reserveOp
      withTxn fun t =>
        (t.supersedeTxn old row.key pr ⟨seq, op, hlc, opClose, hlcClose, now⟩).map
          fun t => ((), t)
      bumpStats [pr]
      pure pr.hash

/-! ## Merging -/

/-- Close one tip of a fork, unless it was superseded before. -/
def Tables.closeTip (t : Tables) (tip merge : Hash) (now : ℤ) : Tables :=
  match t.grainByHash tip with
  | some g => if g.svt.isNone then (t.markSuperseded g.seq merge now).clearCur g.seq else t
  | none => t

/-- The transaction of `merge_heads`. -/
def Tables.mergeTxn (t : Tables) (tips : List Hash) (pr : GrainPrep) (n : Slots) :
    Except DejaDbError Tables := do
  let t ← t.insertPreppedOne pr n.seq n.op n.hlc
  let t := tips.foldl (fun t tip => t.closeTip tip pr.hash n.now) t
  t.insertOp ⟨n.opClose, n.hlcClose, .supersede, pr.hash⟩

/-- The context of a merge grain: its own fields, `merge_parents` replaced by
the closed tips. -/
def mergeContext (context : Option Json) (parents : List Hash) : Json :=
  let fields := match context with
    | some (.obj fs) => fs
    | _ => []
  .obj (Assoc.insert "merge_parents" (.arr (parents.map fun h => .str h.toHex)) fields)

/-- `merge_heads`: write `merged` superseding every open tip of a fork. -/
def mergeHeads (ns subject relation : String) (merged : Grain G) : StoreM Hash := do
  match ((← get).heads ns subject relation).map Prod.fst with
  | first :: second :: rest =>
    let tips := first :: second :: rest
    let (pr, seq, op, hlc) ← prepAndReserve C { merged with
      derivedFrom := some first.toHex
      context := some (mergeContext merged.context tips) }
    let now ← nowMs
    let (opClose, hlcClose) ← reserveOp
    withTxn fun t =>
      (t.mergeTxn tips pr ⟨seq, op, hlc, opClose, hlcClose, now⟩).map fun t => ((), t)
    bumpStats [pr]
    pure pr.hash
  | tips =>
    throw (.validation ("merge_heads needs an open fork; " ++ toString tips.length ++
      " head(s) present"))

/-! ## Forgetting -/

/-- The transaction of `forget`: delete every row of the grain, reconcile its
key, write the tombstone.  Answers the length of its indexed document. -/
def Tables.forgetTxn (t : Tables) (hash : Hash) (key : Option Key) (op hlc : ℤ) :
    Except DejaDbError (Option ℤ × Tables) :=
  match t.grainByHash hash with
  | none => .error (.notFound hash)
  | some row => do
    let docLen := (t.ftsDoc.find? fun d => d.seq = row.seq).map DocRow.len
    let t := t.deleteSeq row.seq
    let t := t.retireTip key row.seq
    let t ← t.insertOp ⟨op, hlc, .forget, hash⟩
    .ok (docLen, t)

/-- Take erased documents off the in-memory statistics, never below zero. -/
def dropStats (docs len : ℤ) : StoreM Unit := modify fun st =>
  { st with
    ftsDocs := max (st.ftsDocs - docs) 0
    ftsTotalLen := max (st.ftsTotalLen - len) 0 }

/-- `forget`: erase one grain and write its tombstone to the op-log. -/
def forget (hash : Hash) : StoreM Unit := do
  match (← get).db.grainByHash hash with
  | none => throw (.notFound hash)
  | some row =>
    let (op, hlc) ← reserveOp
    match ← withTxn fun t => t.forgetTxn hash row.key op hlc with
    | some len => dropStats 1 len
    | none => pure ()

end Deja
