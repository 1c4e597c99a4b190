import Deja.Attach.Blobs
import Deja.Lib.Like
import Deja.Lib.Text

/-!
# The telemetry sidecar

What recalls leave behind: the buffer of events, the rollups and the ring log they
are flushed to, and the two scrubs that erasure asks of them.

The case folding of `LIKE` is a parameter: ASCII on the embedded engine, none on
Postgres.  Left out are the budget rollup, which holds counters only, the schema
version, and failures of the sidecar's own storage.
-/

namespace Deja

/-! ## Rows -/

/-- `TelemetryMode`, of a store that has a sidecar. -/
inductive TelemetryMode where
  | aggregate
  | full
  deriving DecidableEq

/-- `RecallEvent`: one recall, buffered. -/
structure RecallEvent where
  tsMs : ℤ
  runId : Option String
  ns : String
  subject : Option String
  relation : Option String
  query : Option String
  nResults : ℕ
  latencyUs : ℤ
  hashes : List Hash
  deriving DecidableEq

/-- A row of `telem_grain_access`. -/
structure AccessRow where
  hash : String
  ns : String
  recallCount : ℤ
  firstMs : ℤ
  lastMs : ℤ
  deriving DecidableEq

/-- A row of `telem_query_stat`. -/
structure QueryRow where
  qkey : String
  ns : String
  sample : String
  runCount : ℤ
  lastMs : ℤ
  emptyCount : ℤ
  sumResults : ℤ
  deriving DecidableEq

/-- A row of `telem_recall_log`. -/
structure LogRow where
  id : ℤ
  tsMs : ℤ
  runId : String
  ns : String
  subject : String
  query : String
  nResults : ℤ
  latencyUs : ℤ
  topHashes : String
  deriving DecidableEq

/-- `Telemetry`. -/
structure Telemetry where
  mode : TelemetryMode
  access : List AccessRow
  queries : List QueryRow
  log : List LogRow
  buf : List RecallEvent
  pruneCountdown : ℕ

/-- A new sidecar. -/
def Telemetry.new (mode : TelemetryMode) : Telemetry := ⟨mode, [], [], [], [], 0⟩

/-! ## Recording -/

/-- `RING_CAP`. -/
def ringCap : ℕ := 8192

/-- `record`: the oldest events go past the cap. -/
def Telemetry.record (tel : Telemetry) (ev : RecallEvent) : Telemetry :=
  let buf := tel.buf ++ [ev]
  { tel with buf := buf.drop (buf.length - ringCap) }

variable {G : Type} (C : Core G)

namespace RecallEvent

variable (ev : RecallEvent)

/-- `query_key`, of its four parts. -/
def joinKey (ns subject relation query : String) : String :=
  ns ++ "\u0001" ++ subject ++ "\u0001" ++ relation ++ "\u0001" ++ query

/-- `query_key`: the free text is trimmed and lower-cased. -/
def queryKey : String :=
  joinKey ev.ns (ev.subject.getD "") (ev.relation.getD "")
    (String.ofList (C.toLowercase (Text.trim C.isWhitespace (ev.query.getD "").toList)))

/-- `sample`. -/
def sample : String := (ev.query.or ev.subject).getD ""

/-- `is_query`. -/
def isQuery : Bool :=
  match ev.query with
  | some q => !(Text.trim C.isWhitespace q.toList).isEmpty
  | none => false

end RecallEvent

/-! ## Flushing -/

namespace Telemetry

variable (tel : Telemetry)

/-- One more recall of a grain. -/
def noteAccess (ns : String) (tsMs : ℤ) (h : Hash) : Telemetry :=
  let old := tel.access.find? fun r => r.hash = h.toHex
  { tel with access := (tel.access.filter fun r => r.hash ≠ h.toHex) ++
      [⟨h.toHex, ns, (old.map AccessRow.recallCount).getD 0 + 1,
        (old.map AccessRow.firstMs).getD tsMs, tsMs⟩] }

/-- One more run of a question. -/
def noteQuery (ev : RecallEvent) : Telemetry :=
  let qkey := ev.queryKey C
  let old := tel.queries.find? fun r => r.qkey = qkey
  { tel with queries := (tel.queries.filter fun r => r.qkey ≠ qkey) ++
      [⟨qkey, ev.ns, ev.sample, (old.map QueryRow.runCount).getD 0 + 1, ev.tsMs,
        (old.map QueryRow.emptyCount).getD 0 + if ev.nResults = 0 then 1 else 0,
        (old.map QueryRow.sumResults).getD 0 + ev.nResults⟩] }

/-- `serde_json::to_string` of hex strings, which need no escapes. -/
def hashesJson (hs : List Hash) : String :=
  "[" ++ ",".intercalate (hs.map fun h => "\"" ++ h.toHex ++ "\"") ++ "]"

/-- One row of the ring log. -/
def noteLog (ev : RecallEvent) : Telemetry :=
  { tel with log := tel.log ++
      [⟨(tel.log.map LogRow.id).foldl max 0 + 1, ev.tsMs, ev.runId.getD "", ev.ns,
        ev.subject.getD "", ev.query.getD "", ev.nResults, ev.latencyUs, hashesJson ev.hashes⟩] }

/-- One event of a flush. -/
def flushEvent (ev : RecallEvent) : Telemetry :=
  let tel := ev.hashes.foldl (fun tel h => tel.noteAccess ev.ns ev.tsMs h) tel
  let tel := if ev.isQuery C then tel.noteQuery C ev else tel
  if tel.mode = .full then tel.noteLog ev else tel

/-- `LOG_RETAIN_MS`. -/
def logRetainMs : ℤ := 90 * 24 * 3600 * 1000

/-- `LOG_ROW_CAP`. -/
def logRowCap : ℕ := 200000

/-- The log without its old rows and with its newest ones only. -/
def prune (nowMs : ℤ) : Telemetry :=
  let log := tel.log.filter fun r => ¬r.tsMs < nowMs - logRetainMs
  { tel with log := log.filter fun r =>
      r.id ∈ ((log.map LogRow.id).insertionSort (· ≥ ·)).take logRowCap }

/-- `flush`, at a time. -/
def flush (nowMs : ℤ) : Telemetry :=
  if tel.buf.isEmpty then tel
  else
    let countdown := tel.pruneCountdown - 1
    let flushed : Telemetry := tel.buf.foldl (fun tel ev => tel.flushEvent C ev)
      { tel with buf := [], pruneCountdown := if countdown = 0 then 32 else countdown }
    if flushed.mode = .full ∧ countdown = 0 then flushed.prune nowMs else flushed

/-! ## Scrubbing -/

/-- `scrub`: what references a forgotten grain. -/
def scrub (fold : Char → Char) (h : Hash) : Telemetry :=
  let like := Like.containing h.toHex.toList
  { tel with
    buf := tel.buf.filter fun ev => ¬ev.hashes.any (· = h)
    access := tel.access.filter fun r => ¬r.hash = h.toHex
    log := tel.log.filter fun r => ¬Like.matchesPattern fold like r.topHashes.toList }

/-- `scrub_subject`: what names an identity, or asks about it. -/
def scrubSubject (fold : Char → Char) (subject : String) : Telemetry :=
  let like := Like.containing subject.toList
  { tel with
    buf := tel.buf.filter fun ev => ev.subject ≠ some subject ∧
      ¬ev.query.any fun q => subject.toList <:+: q.toList
    log := tel.log.filter fun r =>
      ¬(r.subject = subject ∨ Like.matchesPattern fold like r.query.toList)
    queries := tel.queries.filter fun r =>
      ¬(Like.matchesPattern fold like r.qkey.toList ∨
        Like.matchesPattern fold like r.sample.toList) }

end Telemetry

/-! ## Erasure with a sidecar -/

/-- A store with telemetry attached. -/
structure Observed where
  db : DejaDB
  tel : Telemetry

/-- `forget_subject_with` on such a store.  An unknown namespace answers before
`erase_where`, whose last step the scrubs are. -/
def Observed.forgetSubject (fold : Char → Char) (ns subject : String) (textMentions : Bool)
    (o : Observed) : Except DejaDbError ErasureReport × Observed :=
  match forgetSubjectWith C ns subject textMentions o.db with
  | .error e st => (.error e, { o with db := st })
  | .ok report st =>
    match o.db.termLookup ns with
    | none => (.ok report, { o with db := st })
    | some nsId =>
      let hashes := (o.db.erased C (.identity nsId subject textMentions)).map GrainRow.hash
      let names := o.db.db.identityNames C subject
      let tel := hashes.foldl (fun tel h => tel.scrub fold h) o.tel
      (.ok report, ⟨st, names.foldl (fun tel name => tel.scrubSubject fold name) tel⟩)

end Deja
