import Deja.Store.Erase

/-!
# Bundles: export and replay

The `MGB1` file format, the export of the op-log, and the import that replays
it.  A record is `op(u8) · hlc(i64 LE) · hash(32) · blob_len(u32 LE) · blob`.

The import loop reads a record and applies it before it reads the next one, so
whatever precedes a malformed record stays applied.  Here the bytes are cut into
records first, with the format error that stopped the cutting, and then the
records are applied in order; the error is raised after the last of them.
-/

namespace Deja

variable {G : Type} (C : Core G)

/-! ## The record codec -/

/-- The little-endian bytes of a number, `k` of them. -/
def toLE (n : ℕ) : ℕ → Bytes
  | 0 => []
  | k + 1 => UInt8.ofNat (n % 256) :: toLE (n / 256) k

/-- The number little-endian bytes spell. -/
def fromLE : Bytes → ℕ
  | [] => 0
  | b :: bs => b.toNat + 256 * fromLE bs

/-- `i64::to_le_bytes`. -/
def i64ToLE (i : ℤ) : Bytes := toLE (i % 2 ^ 64).toNat 8

/-- `i64::from_le_bytes`. -/
def i64FromLE (b : Bytes) : ℤ :=
  if fromLE b < 2 ^ 63 then (fromLE b : ℤ) else (fromLE b : ℤ) - 2 ^ 64

/-- A record of a bundle.  The op is the byte as it stands in the file. -/
structure BundleRecord where
  op : UInt8
  hlc : ℤ
  hash : Hash
  blob : Bytes
  deriving DecidableEq

/-- `BUNDLE_MAGIC`. -/
def bundleMagic : Bytes := [0x4D, 0x47, 0x42, 0x31]

/-- The length of a record before its blob: op, clock, hash and blob length. -/
def recordHeadBytes : ℕ := 1 + 8 + 32 + 4

/-- The bytes of a record. -/
def encodeRecord (r : BundleRecord) : Bytes :=
  r.op :: (i64ToLE r.hlc ++ (r.hash.bytes ++ (toLE r.blob.length 4 ++ r.blob)))

/-- Read one record off the front; `none` stands for no error and no record. -/
def decodeRecord (data : Bytes) : Except DejaDbError (BundleRecord × Bytes) :=
  if data.length < recordHeadBytes then .error (.format "truncated bundle record")
  else
    match Hash.tryFromBytes (data.drop 9) with
    | none => .error (.format "bad hash length")
    | some hash =>
      let len := fromLE ((data.drop 41).take 4)
      let rest := data.drop recordHeadBytes
      if rest.length < len then .error (.format "truncated bundle blob")
      else .ok (⟨data.headD 0, i64FromLE ((data.drop 1).take 8), hash, rest.take len⟩,
        rest.drop len)

/-- Cut a record section into records; a malformed record ends it with its
error.  `fuel` bounds the number of records. -/
def decodeRecords : ℕ → Bytes → List BundleRecord × Option DejaDbError
  | 0, _ => ([], none)
  | fuel + 1, data =>
    if data.isEmpty then ([], none)
    else
      match decodeRecord data with
      | .error e => ([], some e)
      | .ok (r, rest) =>
        let (rs, e) := decodeRecords fuel rest
        (r :: rs, e)

/-- The records of a bundle file.  A record takes at least one byte, so the
length of the file bounds their number. -/
def parseBundle (data : Bytes) : Except DejaDbError (List BundleRecord × Option DejaDbError) :=
  if data.take 4 = bundleMagic then .ok (decodeRecords data.length (data.drop 4))
  else .error (.format "not a MGB1 bundle")

/-! ## Export -/

/-- `changes_since`: the op-log after an op number, in op order. -/
def Tables.changesSince (t : Tables) (afterOpSeq : ℤ) : List OpRow :=
  (t.oplog.filter fun r => afterOpSeq < r.opSeq).insertionSort fun a b => a.opSeq ≤ b.opSeq

/-- The exported record of an op: the blob its address has now, empty for a
tombstone and for a grain forgotten since. -/
def Tables.exportRecord (t : Tables) (r : OpRow) : BundleRecord where
  op := UInt8.ofNat r.op.code
  hlc := r.hlc
  hash := r.hash
  blob := if r.op = .forget then [] else ((t.grainByHash r.hash).map GrainRow.blob).getD []

/-- The records `bundle_since` writes. -/
def Tables.exportSince (t : Tables) (afterOpSeq : ℤ) : List BundleRecord :=
  (t.changesSince afterOpSeq).map t.exportRecord

/-- `bundle_since`: every op after `after_op_seq` as a bundle file. -/
def DejaDB.bundleSince (st : DejaDB) (afterOpSeq : ℤ) : Bytes :=
  bundleMagic ++ (st.db.exportSince afterOpSeq).flatMap encodeRecord

/-- `BundleStats::last_op_seq`: the cursor the next incremental export starts
from. -/
def DejaDB.lastOpSeq (st : DejaDB) (afterOpSeq : ℤ) : ℤ :=
  ((st.db.changesSince afterOpSeq).getLast?.map OpRow.opSeq).getD afterOpSeq

/-! ## Replaying one grain -/

/-- Register an imported grain among the tips of its key (never collapsing the
others) and elect it if it wins. -/
def Tables.unionHeads (t : Tables) (pr : GrainPrep) (seq : ℤ) : Tables :=
  match pr.spo with
  | some (s, p, o) => t.registerTip ⟨pr.nsId, s, p, seq, pr.hash, pr.created⟩ o
  | none => t

/-- The transaction of `insert_blob`.  It writes no BM25 row. -/
def Tables.insertBlobTxn (t : Tables) (pr : GrainPrep) (seq opSeq hlc : ℤ) (op : OpKind) :
    Except DejaDbError Tables := do
  let t ← t.insertGrain (pr.grainRow seq)
  let t := t.unionHeads pr seq
  let t ← t.insertIndexRows pr seq
  t.insertOp ⟨opSeq, hlc, op, pr.hash⟩

/-- `insert_blob`: insert one already-serialized grain under the address the
record gives. -/
def insertBlob (blob : Bytes) (hash : Hash) (op : OpKind) (hlcIn : ℤ) : StoreM Unit := do
  let pr ← prepFromBlob C blob hash
  let st ← get
  set { st with
    nextSeq := st.nextSeq + 1
    nextOp := st.nextOp + 1
    hlcLast := max st.hlcLast hlcIn }
  withTxn fun t =>
    (t.insertBlobTxn pr st.nextSeq st.nextOp hlcIn op).map fun t => ((), t)

/-- The fork branch of `apply_supersede_flip`: the old grain has another
superseder, so the incoming grain is registered beside the other tips.  A NULL
key column of the incoming grain reads as 0. -/
def Tables.registerFork (t : Tables) (newHash : Hash) : Bool × Tables :=
  match t.grainByHash newHash with
  | none => (false, t)
  | some g =>
    (true, t.registerTip ⟨g.ns, g.s.getD 0, g.p.getD 0, g.seq, newHash, g.createdAt⟩ (g.o.getD 0))

/-- The linear branch of `apply_supersede_flip`: flip the old grain and drop its
tip row. -/
def Tables.flipLinear (t : Tables) (row : GrainRow) (old newHash : Hash) (now : ℤ) : Tables :=
  let t := t.markSuperseded row.seq newHash now
  let t := t.markSupersedes newHash old
  let t := t.clearCur row.seq
  match row.key with
  | some k => t.deleteHead k row.seq
  | none => t

/-- The transaction of `apply_supersede_flip`; `false` is an idempotent no-op. -/
def Tables.flipTxn (t : Tables) (old newHash : Hash) (now : ℤ) : Bool × Tables :=
  match t.grainByHash old with
  | none => (false, t)
  | some row =>
    if row.svt.isSome then
      if row.supersededBy = some newHash then (false, t) else t.registerFork newHash
    else (true, t.flipLinear row old newHash now)

/-- The clock reading of a flip: taken on the linear branch only. -/
def flipClock (old : Hash) : StoreM ℤ := fun st =>
  match st.db.grainByHash old with
  | some row => if row.svt.isSome then .ok 0 st else nowMs st
  | none => .ok 0 st

/-- `apply_supersede_flip`: whether anything changed. -/
def applySupersedeFlip (old newHash : Hash) : StoreM Bool := do
  let now ← flipClock old
  withTxn fun t => .ok (t.flipTxn old newHash now)

/-- `superseded_parents`: `derived_from`, then the `context.merge_parents` not
listed yet. -/
def supersededParents (view : DeserializedGrain) : List Hash :=
  let linear := ((view.getStr "derived_from").bind Hash.fromHex).toList
  let merged := ((((view.get "context").bind (·.get "merge_parents")).bind
    Json.asArray).getD []).filterMap fun p => p.asStr.bind Hash.fromHex
  merged.foldl (fun out h => if h ∈ out then out else out ++ [h]) linear

/-- `log_op`: append one op-log record under a caller-supplied clock value. -/
def logOp (op : OpKind) (hash : Hash) (hlc : ℤ) : StoreM Unit := do
  let st ← get
  set { st with nextOp := st.nextOp + 1 }
  withTxn fun t => (t.insertOp ⟨st.nextOp, hlc, op, hash⟩).map fun t => ((), t)

/-! ## Import -/

/-- `ImportStats`. -/
structure ImportStats where
  applied : ℕ
  skipped : ℕ
  deriving DecidableEq

/-- Count a record as applied or skipped. -/
def ImportStats.count (s : ImportStats) (applied : Bool) : ImportStats :=
  if applied then { s with applied := s.applied + 1 } else { s with skipped := s.skipped + 1 }

/-- Close every tip a superseding grain names; whether any flip changed
something. -/
def flipParents (hash : Hash) : List Hash → StoreM Bool
  | [] => pure false
  | old :: olds => do
    let changed ← applySupersedeFlip old hash
    let rest ← flipParents hash olds
    pure (changed || rest)

/-- The `OP_ADD` branch: a grain that is here, or whose bytes were pruned, is
skipped. -/
def importAdd (r : BundleRecord) : StoreM Bool := do
  if (← get).has r.hash ∨ r.blob.isEmpty then pure false
  else
    insertBlob C r.blob r.hash .add r.hlc
    pure true

/-- The flips of a superseding grain whose bytes are at hand; bytes that do not
decode close nothing. -/
def flipSuperseded (blob : Bytes) (hash : Hash) : StoreM Bool :=
  match C.deserializeBlob blob with
  | .ok view => flipParents hash (supersededParents view)
  | .error _ => pure false

/-- The `OP_SUPERSEDE` branch: insert the grain if it is missing, close every
tip it supersedes, and log the closure when the grain was here before. -/
def importSupersede (r : BundleRecord) : StoreM Bool := do
  let stored := (← get).db.grainByHash r.hash
  match (if r.blob.isEmpty then stored.map GrainRow.blob else some r.blob) with
  | none => pure false
  | some bytes =>
    if stored.isSome then
      let changed ← flipSuperseded C bytes r.hash
      if changed then logOp .supersede r.hash r.hlc
      pure changed
    else
      insertBlob C bytes r.hash .supersede r.hlc
      let _ ← flipSuperseded C bytes r.hash
      pure true

/-- The `OP_FORGET` branch: forgetting a grain that is not here is a skip. -/
def importForget (r : BundleRecord) : StoreM Bool := fun st =>
  match forget r.hash st with
  | .ok _ st' => .ok true st'
  | .error (.notFound _) st' => .ok false st'
  | .error e st' => .error e st'

/-- Apply one record; whether it counts as applied. -/
def importRecord (r : BundleRecord) : StoreM Bool :=
  if r.op = 1 then importAdd C r
  else if r.op = 2 then importSupersede C r
  else if r.op = 3 then importForget r
  else throw (.format ("unknown bundle op " ++ toString r.op.toNat))

/-- Apply the records in order, skipping those past `maxHlc`. -/
def importRecords (maxHlc : Option ℤ) : ImportStats → List BundleRecord → StoreM ImportStats
  | stats, [] => pure stats
  | stats, r :: rs =>
    if maxHlc.any (· < r.hlc) then importRecords maxHlc (stats.count false) rs
    else do
      let applied ← importRecord C r
      importRecords maxHlc (stats.count applied) rs

/-- `import_bundle_until`: replay a bundle file in op order, up to a clock
value. -/
def importBundleUntil (data : Bytes) (maxHlc : Option ℤ) : StoreM ImportStats := do
  let (records, err) ← lift (parseBundle data)
  let stats ← importRecords C maxHlc ⟨0, 0⟩ records
  match err with
  | some e => throw e
  | none => pure stats

/-- `import_bundle`. -/
def importBundle (data : Bytes) : StoreM ImportStats := importBundleUntil C data none

end Deja
