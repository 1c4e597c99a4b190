import Deja.Core.Grain

/-!
# The tables of one memory file

The rows of `SCHEMA`, one structure a table, and the SQL statements more than
one operation of the store issues.  A table is the list of its rows in insertion
order.  A statement that a `UNIQUE` or `PRIMARY KEY` constraint can refuse
answers in `Except`; the others are functions.

`GrainPrep` (a grain fully prepared for insertion) sits here too: it is what the
`INSERT` statements take their values from.

Left out are the `meta` rows no operation here reads, the CAS blob sidecar, the
telemetry sidecar, and failures of the storage engine itself.
-/

namespace Deja

/-! ## Rows -/

/-- A row of `grains`.  `svf` is always written, so it is not nullable here. -/
structure GrainRow where
  seq : ℤ
  hash : Hash
  ns : ℤ
  gtype : ℤ
  createdAt : ℤ
  s : Option ℤ
  p : Option ℤ
  o : Option ℤ
  vf : Option ℤ
  vt : Option ℤ
  svf : ℤ
  svt : Option ℤ
  supersededBy : Option Hash
  supersedes : Option Hash
  text : Option String
  blob : Bytes
  deriving DecidableEq

/-- A `(ns, s, p)` key of `heads` and `entity_latest`. -/
structure Key where
  ns : ℤ
  s : ℤ
  p : ℤ
  deriving DecidableEq

/-- A row of `triples`. -/
structure TripleRow where
  ns : ℤ
  s : ℤ
  p : ℤ
  o : ℤ
  seq : ℤ
  cur : Bool
  deriving DecidableEq

/-- A row of `osp`, the reverse index. -/
structure OspRow where
  ns : ℤ
  o : ℤ
  s : ℤ
  p : ℤ
  seq : ℤ
  cur : Bool
  deriving DecidableEq

/-- A row of `heads`: one live tip of a key. -/
structure HeadRow where
  ns : ℤ
  s : ℤ
  p : ℤ
  seq : ℤ
  hash : Hash
  createdAt : ℤ
  deriving DecidableEq

/-- A row of `entity_latest`: the provisional head of a key. -/
structure LatestRow where
  ns : ℤ
  s : ℤ
  p : ℤ
  o : ℤ
  seq : ℤ
  hash : Hash
  deriving DecidableEq

/-- A row of `thread_idx`. -/
structure ThreadRow where
  ns : ℤ
  session : ℤ
  seq : ℤ
  deriving DecidableEq

/-- A row of `run_idx`. -/
structure RunRow where
  ns : ℤ
  run : ℤ
  seq : ℤ
  deriving DecidableEq

/-- A row of `prov_idx`: a parent address and a grain derived from it. -/
structure ProvRow where
  ns : ℤ
  parent : Hash
  seq : ℤ
  deriving DecidableEq

/-- A row of `embeddings`: the vector as the bit patterns of its `f32`s. -/
structure EmbeddingRow where
  seq : ℤ
  vec : List UInt32
  deriving DecidableEq

/-- A row of `terms`, and of `fts_vocab`. -/
structure TermRow where
  id : ℤ
  term : String
  deriving DecidableEq

/-- A posting: a row of `fts_post`. -/
structure PostRow where
  term : ℤ
  seq : ℤ
  ns : ℤ
  tf : ℤ
  deriving DecidableEq

/-- A row of `fts_doc`: the length of an indexed document in tokens. -/
structure DocRow where
  seq : ℤ
  len : ℤ
  deriving DecidableEq

/-- `OP_ADD`, `OP_SUPERSEDE` and `OP_FORGET` (the tombstone). -/
inductive OpKind where
  | add | supersede | forget
  deriving DecidableEq

/-- The `op` column. -/
def OpKind.code : OpKind → ℕ
  | .add => 1
  | .supersede => 2
  | .forget => 3

/-- A row of `oplog`. -/
structure OpRow where
  opSeq : ℤ
  hlc : ℤ
  op : OpKind
  hash : Hash
  deriving DecidableEq

/-- The `meta` rows the store reads back. -/
structure Meta where
  textIndex : Option Bool
  entityRelations : Option (List String)
  linkIndex : Option String
  minReaderVersion : Option String
  deriving DecidableEq

/-- The contents of a memory file. -/
structure Tables where
  info : Meta
  terms : List TermRow
  grains : List GrainRow
  embeddings : List EmbeddingRow
  ftsVocab : List TermRow
  ftsPost : List PostRow
  ftsDoc : List DocRow
  triples : List TripleRow
  osp : List OspRow
  entityLatest : List LatestRow
  heads : List HeadRow
  oplog : List OpRow
  threadIdx : List ThreadRow
  provIdx : List ProvRow
  runIdx : List RunRow
  corpusIdx : List ℤ
  deriving DecidableEq

/-- A file no declaration was stamped on yet. -/
def Meta.empty : Meta := ⟨none, none, none, none⟩

/-- The file `SCHEMA` creates. -/
def Tables.empty : Tables where
  info := Meta.empty
  terms := []
  grains := []
  embeddings := []
  ftsVocab := []
  ftsPost := []
  ftsDoc := []
  triples := []
  osp := []
  entityLatest := []
  heads := []
  oplog := []
  threadIdx := []
  provIdx := []
  runIdx := []
  corpusIdx := []

/-! ## Keys and ranks -/

/-- The key of a grain that has a subject and a relation. -/
def GrainRow.key (g : GrainRow) : Option Key :=
  match g.s, g.p with
  | some s, some p => some ⟨g.ns, s, p⟩
  | _, _ => none

/-- The `(ns, s, p)` of a triple. -/
def TripleRow.key (t : TripleRow) : Key := ⟨t.ns, t.s, t.p⟩

/-- The `(ns, s, p)` of a head. -/
def HeadRow.key (h : HeadRow) : Key := ⟨h.ns, h.s, h.p⟩

/-- The `(ns, s, p)` of an `entity_latest` row. -/
def LatestRow.key (e : LatestRow) : Key := ⟨e.ns, e.s, e.p⟩

/-- What heads are ranked by: `created_at`, then the hash. -/
structure Rank where
  createdAt : ℤ
  hash : Hash
  deriving DecidableEq

namespace Rank

/-- The rank as a lexicographic pair. -/
def pair (r : Rank) : ℤ ×ₗ Hash := toLex (r.createdAt, r.hash)

theorem pair_injective : Function.Injective pair := by
  rintro ⟨c, h⟩ ⟨c', h'⟩ heq
  have := congrArg ofLex heq
  simp only [pair, ofLex_toLex, Prod.mk.injEq] at this
  rw [this.1, this.2]

instance : LinearOrder Rank :=
  @LinearOrder.lift' _ _ (@Prod.Lex.instLinearOrder ℤ Hash Int.instLinearOrder _) pair
    pair_injective

theorem lt_iff {a b : Rank} :
    a < b ↔ a.createdAt < b.createdAt ∨ a.createdAt = b.createdAt ∧ a.hash < b.hash :=
  Prod.Lex.toLex_lt_toLex

end Rank

/-- The rank of a head. -/
def HeadRow.rank (h : HeadRow) : Rank := ⟨h.createdAt, h.hash⟩

/-! ## A grain prepared for insertion -/

/-- A grain fully prepared for insertion (serialized, extracted, encoded). -/
structure GrainPrep where
  blob : Bytes
  hash : Hash
  nsId : ℤ
  s : Option ℤ
  p : Option ℤ
  o : Option ℤ
  osp : Bool
  session : Option ℤ
  vf : Option ℤ
  vt : Option ℤ
  created : ℤ
  gtype : ℤ
  text : Option String
  embedding : Option (List UInt32)
  /-- `(fts_vocab.id, term frequency)` pairs; empty when text indexing is off
  or deferred. -/
  tokens : List (ℤ × ℤ)
  docLen : ℤ
  /-- Term-encoded `related_to` links: `(own hash, relation_type, target)`. -/
  links : List (ℤ × ℤ × ℤ)
  run : Option ℤ
  parent : Option Hash
  corpusExport : Bool
  deriving DecidableEq

namespace GrainPrep

variable (pr : GrainPrep) (seq : ℤ)

/-- The `(s, p, o)` of a grain that has all three. -/
def spo : Option (ℤ × ℤ × ℤ) :=
  match pr.s, pr.p, pr.o with
  | some s, some p, some o => some (s, p, o)
  | _, _, _ => none

/-- The `grains` row of an insert: not superseded, superseding nothing. -/
def grainRow : GrainRow where
  seq := seq
  hash := pr.hash
  ns := pr.nsId
  gtype := pr.gtype
  createdAt := pr.created
  s := pr.s
  p := pr.p
  o := pr.o
  vf := pr.vf
  vt := pr.vt
  svf := pr.created
  svt := none
  supersededBy := none
  supersedes := none
  text := pr.text
  blob := pr.blob

/-- The `triples` rows of an insert: the grain's own triple, then its links. -/
def tripleRows : List TripleRow :=
  (match pr.spo with
    | some (s, p, o) => [⟨pr.nsId, s, p, o, seq, true⟩]
    | none => []) ++
  pr.links.map fun l => ⟨pr.nsId, l.1, l.2.1, l.2.2, seq, true⟩

/-- The `osp` rows of an insert: the grain's own triple when its relation is an
entity relation, then its links unconditionally. -/
def ospRows : List OspRow :=
  (match pr.spo with
    | some (s, p, o) => if pr.osp then [⟨pr.nsId, o, s, p, seq, true⟩] else []
    | none => []) ++
  pr.links.map fun l => ⟨pr.nsId, l.2.2, l.1, l.2.1, seq, true⟩

/-- The `fts_post` rows of an insert. -/
def postRows : List PostRow := pr.tokens.map fun t => ⟨t.1, seq, pr.nsId, t.2⟩

/-- The `thread_idx` row of an insert. -/
def threadRows : List ThreadRow := (pr.session.map fun x => ⟨pr.nsId, x, seq⟩).toList

/-- The `run_idx` row of an insert. -/
def runRows : List RunRow := (pr.run.map fun r => ⟨pr.nsId, r, seq⟩).toList

/-- The `prov_idx` row of an insert. -/
def provRows : List ProvRow := (pr.parent.map fun h => ⟨pr.nsId, h, seq⟩).toList

/-- The `corpus_idx` row of an insert. -/
def corpusRows : List ℤ := if pr.corpusExport then [seq] else []

/-- The `embeddings` row of an insert. -/
def embeddingRows : List EmbeddingRow := (pr.embedding.map fun v => ⟨seq, v⟩).toList

end GrainPrep

/-! ## Statements -/

namespace Tables

variable (t : Tables)

/-- `SELECT … FROM grains WHERE hash = ?`. -/
def grainByHash (h : Hash) : Option GrainRow := t.grains.find? fun g => g.hash = h

/-- `SELECT 1 FROM grains WHERE hash = ?` has a row. -/
def hasGrain (h : Hash) : Bool := t.grains.any fun g => g.hash = h

theorem hasGrain_eq_isSome (h : Hash) : t.hasGrain h = (t.grainByHash h).isSome :=
  List.isSome_find?.symm

theorem hasGrain_eq_false_iff {h : Hash} : t.hasGrain h = false ↔ t.grainByHash h = none := by
  rw [hasGrain_eq_isSome, Option.isSome_eq_false_iff, Option.isNone_iff_eq_none]

theorem grainByHash_some {t : Tables} {h : Hash} {g : GrainRow} (hg : t.grainByHash h = some g) :
    g ∈ t.grains ∧ g.hash = h :=
  ⟨List.mem_of_find?_eq_some hg, by simpa using List.find?_some hg⟩

/-- `INSERT INTO grains`: `seq` is the primary key and `hash` is unique. -/
def insertGrain (g : GrainRow) : Except DejaDbError Tables :=
  if t.grains.any fun x => x.seq = g.seq then
    .error (.storage "UNIQUE constraint failed: grains.seq")
  else if t.hasGrain g.hash then
    .error (.storage "UNIQUE constraint failed: grains.hash")
  else .ok { t with grains := t.grains ++ [g] }

/-- `INSERT INTO oplog`. -/
def insertOp (r : OpRow) : Except DejaDbError Tables :=
  if t.oplog.any fun x => x.opSeq = r.opSeq then
    .error (.storage "UNIQUE constraint failed: oplog.op_seq")
  else .ok { t with oplog := t.oplog ++ [r] }

/-- The index rows an insert writes beside `grains`, `heads`, `entity_latest`
and the BM25 tables: triples, reverse index, links, thread, run, provenance,
corpus registry and embedding. -/
def insertIndexRows (pr : GrainPrep) (seq : ℤ) : Except DejaDbError Tables :=
  if pr.corpusExport ∧ seq ∈ t.corpusIdx then
    .error (.storage "UNIQUE constraint failed: corpus_idx.seq")
  else if pr.embedding.isSome ∧ t.embeddings.any fun x => x.seq = seq then
    .error (.storage "UNIQUE constraint failed: embeddings.seq")
  else .ok { t with
    triples := t.triples ++ pr.tripleRows seq
    osp := t.osp ++ pr.ospRows seq
    threadIdx := t.threadIdx ++ pr.threadRows seq
    runIdx := t.runIdx ++ pr.runRows seq
    corpusIdx := t.corpusIdx ++ pr.corpusRows seq
    provIdx := t.provIdx ++ pr.provRows seq
    embeddings := t.embeddings ++ pr.embeddingRows seq }

/-- `INSERT OR REPLACE INTO entity_latest`. -/
def putLatest (e : LatestRow) : Tables :=
  { t with entityLatest := t.entityLatest.filter (fun x => x.key ≠ e.key) ++ [e] }

/-- `INSERT OR REPLACE INTO heads`: the primary key is `(ns, s, p, seq)`. -/
def putHead (h : HeadRow) : Tables :=
  { t with heads := t.heads.filter (fun x => ¬(x.key = h.key ∧ x.seq = h.seq)) ++ [h] }

/-- `DELETE FROM heads WHERE ns=? AND s=? AND p=? AND seq=?`. -/
def deleteHead (k : Key) (seq : ℤ) : Tables :=
  { t with heads := t.heads.filter fun x => ¬(x.key = k ∧ x.seq = seq) }

/-- `DELETE FROM entity_latest WHERE ns=? AND s=? AND p=? AND seq IN (…)`. -/
def deleteLatest (k : Key) (seqs : List ℤ) : Tables :=
  { t with entityLatest := t.entityLatest.filter fun x => ¬(x.key = k ∧ x.seq ∈ seqs) }

/-- `heads h JOIN triples t` on the sequence number and the whole key, for one
key: each tip with an object it can be elected with. -/
def tips (k : Key) : List (ℤ × HeadRow) :=
  (t.heads.filter fun h => h.key = k).flatMap fun h =>
    (t.triples.filter fun tr => tr.seq = h.seq ∧ tr.key = h.key).map fun tr => (tr.o, h)

/-- `… ORDER BY h.created_at DESC, h.hash DESC LIMIT 1`. -/
def elect (k : Key) : Option (ℤ × HeadRow) := (t.tips k).argmax fun x => x.2.rank

/-- Re-elect the provisional head of a key from its surviving tips; a key that
has none is left as it is. -/
def reelect (k : Key) : Tables :=
  match t.elect k with
  | some (o, h) => t.putLatest ⟨k.ns, k.s, k.p, o, h.seq, h.hash⟩
  | none => t

/-- The rank of the current provisional head: `heads h JOIN entity_latest e` on
the key and the sequence number. -/
def latestRank (k : Key) : Option Rank :=
  ((t.entityLatest.filter fun e => e.key = k).flatMap fun e =>
    (t.heads.filter fun h => h.key = k ∧ h.seq = e.seq).map HeadRow.rank).head?

/-- Register a tip beside the others and elect it if its rank beats the current
provisional head. -/
def registerTip (h : HeadRow) (o : ℤ) : Tables :=
  let t := t.putHead h
  if (t.latestRank h.key).all (· < h.rank) then
    t.putLatest ⟨h.ns, h.s, h.p, o, h.seq, h.hash⟩
  else t

/-- `UPDATE grains SET superseded_by=?, svt=? WHERE seq=?`. -/
def markSuperseded (seq : ℤ) (by_ : Hash) (now : ℤ) : Tables :=
  { t with grains := t.grains.map fun g =>
      if g.seq = seq then { g with supersededBy := some by_, svt := some now } else g }

/-- `UPDATE grains SET supersedes=? WHERE hash=?`. -/
def markSupersedes (new old : Hash) : Tables :=
  { t with grains := t.grains.map fun g =>
      if g.hash = new then { g with supersedes := some old } else g }

/-- `UPDATE triples SET cur=0 WHERE seq=?`, and the same on `osp`. -/
def clearCur (seq : ℤ) : Tables :=
  { t with
    triples := t.triples.map fun r => if r.seq = seq then { r with cur := false } else r
    osp := t.osp.map fun r => if r.seq = seq then { r with cur := false } else r }

/-- `DELETE FROM … WHERE seq=?` on `triples`, `osp`, `embeddings`,
`thread_idx`, `prov_idx`, `run_idx`, `corpus_idx`, `fts_post`, `fts_doc` and
`grains`. -/
def deleteSeq (seq : ℤ) : Tables :=
  { t with
    triples := t.triples.filter fun r => r.seq ≠ seq
    osp := t.osp.filter fun r => r.seq ≠ seq
    embeddings := t.embeddings.filter fun r => r.seq ≠ seq
    threadIdx := t.threadIdx.filter fun r => r.seq ≠ seq
    provIdx := t.provIdx.filter fun r => r.seq ≠ seq
    runIdx := t.runIdx.filter fun r => r.seq ≠ seq
    corpusIdx := t.corpusIdx.filter fun r => r ≠ seq
    ftsPost := t.ftsPost.filter fun r => r.seq ≠ seq
    ftsDoc := t.ftsDoc.filter fun r => r.seq ≠ seq
    grains := t.grains.filter fun r => r.seq ≠ seq }

end Tables

end Deja
