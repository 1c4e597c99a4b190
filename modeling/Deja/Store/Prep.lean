import Deja.Lib.Run
import Deja.Lib.Assoc
import Deja.Store.Tables

/-!
# Preparing a grain for insertion

The handle of an open store, the monad its methods run in, and everything a
write does before its transaction: reading the index-relevant fields out of the
blob, tokenizing the projected text, and encoding terms in the dictionaries.

A method of `DejaDB` is a `StoreM` program: it may fail, and what it changed on
the handle before it failed stays changed.  Only what runs inside `withTxn` is
rolled back.  The clock is a parameter of the handle, one reading a call of
`now_ms`; the reservation hook `reserve_write` answers `None` on the embedded
backend and is left out.
-/

namespace Deja

/-! ## The handle -/

/-- An embedding backend: text to vector. -/
abbrev Embedder := String → Except DejaDbError (List UInt32)

/-- The handle of an open store: the file and the process-local state. -/
structure DejaDB where
  db : Tables
  /-- Dictionary cache, term to id. -/
  dict : List (String × ℤ)
  nextTerm : ℤ
  nextSeq : ℤ
  nextOp : ℤ
  hlcLast : ℤ
  entityRels : List String
  indexText : Bool
  /-- Vocabulary cache of the BM25 leg, token to id. -/
  ftsVocab : List (String × ℤ)
  ftsDocs : ℤ
  ftsTotalLen : ℤ
  ftsDeferred : Bool
  embedder : Option Embedder
  needsMinReaderStamp : Bool
  /-- The readings of the wall clock, and how many were taken. -/
  clock : ℕ → ℤ
  tick : ℕ

/-- A method of the store. -/
abbrev StoreM := EStateM DejaDbError DejaDB

/-- The handle a method leaves, whether it returned or failed. -/
abbrev DejaDB.after {α : Type} (st : DejaDB) (x : StoreM α) : DejaDB := Run.after x st

/-- `with_txn`: commit the tables a body computes, or roll them back. -/
def withTxn {α : Type} (body : Tables → Except DejaDbError (α × Tables)) : StoreM α := fun st =>
  match body st.db with
  | .ok (a, db) => .ok a { st with db := db }
  | .error e => .error e st

/-- `now_ms`. -/
def nowMs : StoreM ℤ := fun st => .ok (st.clock st.tick) { st with tick := st.tick + 1 }

/-- `now_ms() << 16`: a shift of an `i64` drops what leaves it. -/
def hlcWall (now : ℤ) : ℤ := (now * 2 ^ 16).bmod (2 ^ 64)

/-- The clock value after `last` under a wall clock that reads `now`. -/
def advanceHlc (last now : ℤ) : ℤ := if last < hlcWall now then hlcWall now else last + 1

theorem lt_advanceHlc (last now : ℤ) : last < advanceHlc last now := by
  unfold advanceHlc
  split_ifs with h
  · exact h
  · omega

/-- `next_hlc`: the wall clock shifted, or the last value plus one. -/
def nextHlc : StoreM ℤ := do
  let now ← nowMs
  let st ← get
  let hlc := advanceHlc st.hlcLast now
  set { st with hlcLast := hlc }
  pure hlc

/-! ## What a blob says -/

/-- Extracted index-relevant fields of a grain about to be stored. -/
structure GrainView where
  ns : String
  subject : Option String
  relation : Option String
  object : Option String
  session : Option String
  vf : Option ℤ
  vt : Option ℤ
  createdAt : ℤ
  gtype : ℤ
  links : List (String × String)
  run : Option String
  parent : Option String
  corpusExport : Bool

/-- The `related_to` links of a grain: `(relation_type, target)` of every entry
that has both as strings. -/
def relatedTo (view : DeserializedGrain) : List (String × String) :=
  (((view.get "related_to").bind Json.asArray).getD []).filterMap fun l =>
    match (l.get "relation_type").bind Json.asStr, (l.get "hash").bind Json.asStr with
    | some r, some h => some (r, h)
    | _, _ => none

/-- `extract_view`, given the `created_at` to use. -/
def extractView (view : DeserializedGrain) (createdAt : ℤ) : GrainView where
  ns := (view.getStr "namespace").getD "shared"
  subject := view.getStr "subject"
  relation := view.getStr "relation"
  object := view.getStr "object"
  session := view.getStr "session_id"
  vf := view.getI64 "valid_from"
  vt := view.getI64 "valid_to"
  createdAt := createdAt
  gtype := view.grainType.ordinal
  links := relatedTo view
  run := view.getStr "run_id"
  parent := view.getStr "derived_from"
  corpusExport := view.grainType = .observation ∧
    ((view.get "context").bind (·.get "corpus_export")).bind Json.asBool = some true

/-- The `created_at` a grain is stored under: its own, else the wall clock. -/
def createdAtOf (view : DeserializedGrain) : StoreM ℤ :=
  match view.getI64 "created_at" with
  | some c => pure c
  | none => nowMs

/-- The subject, relation and object of a grain that has all three. -/
def GrainView.spo (gv : GrainView) : Option (String × String × String) :=
  match gv.subject, gv.relation, gv.object with
  | some s, some r, some o => some (s, r, o)
  | _, _, _ => none

/-- The parent address a grain's `derived_from` spells; a malformed one is
dropped. -/
def GrainView.parentHash (gv : GrainView) : Option Hash := gv.parent.bind Hash.fromHex

/-! ## Text -/

variable {G : Type} (C : Core G)

/-- Longest token kept. -/
def maxTokenLen : ℕ := 64

/-- `tokenize`: split on everything not alphanumeric, drop what is empty or too
long, lowercase. -/
def tokenize (text : String) : List String :=
  ((text.toList.splitOnP fun c => !C.isAlphanumeric c).filter fun t =>
    !t.isEmpty && t.length ≤ maxTokenLen).map fun t => String.ofList (C.toLowercase t)

/-- `token_freqs`: the distinct tokens with their frequency, and the document's
length in tokens.  The order of the pairs is that of a hash map in the source
and carries no meaning. -/
def tokenFreqs (text : String) : List (String × ℤ) × ℤ :=
  let tokens := tokenize C text
  (tokens.dedup.map fun t => (t, (tokens.count t : ℤ)), (tokens.length : ℤ))

/-- `projected_text`: the `embedding_text` override unless it is blank, else
`subject relation object` and any `content`. -/
def projectedText (view : DeserializedGrain) : Option String :=
  match (view.getStr "embedding_text").filter fun et => et.toList.any (!C.isWhitespace ·) with
  | some et => some et
  | none =>
    let fact := match view.getStr "subject", view.getStr "relation", view.getStr "object" with
      | some s, some r, some o => [s ++ " " ++ r ++ " " ++ o]
      | _, _, _ => []
    match fact ++ (view.getStr "content").toList with
    | [] => none
    | parts => some (" ".intercalate parts)

/-! ## Dictionaries -/

/-- `INSERT INTO terms`: the id is the primary key and the term is unique. -/
def Tables.insertTerm (t : Tables) (r : TermRow) : Except DejaDbError Tables :=
  if t.terms.any fun x => x.id = r.id then
    .error (.storage "UNIQUE constraint failed: terms.id")
  else if t.terms.any fun x => x.term = r.term then
    .error (.storage "UNIQUE constraint failed: terms.term")
  else .ok { t with terms := t.terms ++ [r] }

/-- `SELECT id FROM fts_vocab WHERE term = ?`. -/
def Tables.vocabId (t : Tables) (term : String) : Option ℤ :=
  (t.ftsVocab.find? fun r => r.term = term).map TermRow.id

/-- `INSERT OR IGNORE INTO fts_vocab(term)`: a fresh row takes the next row id. -/
def Tables.internVocab (t : Tables) (term : String) : Tables :=
  if t.ftsVocab.any fun r => r.term = term then t
  else { t with ftsVocab := t.ftsVocab ++ [⟨(t.ftsVocab.map TermRow.id).foldl max 0 + 1, term⟩] }

/-- `term_id`: dictionary-encode a term, minting an id on a miss. -/
def termId (term : String) : StoreM ℤ := fun st =>
  match st.dict.lookup term with
  | some id => .ok id st
  | none =>
    let id := st.nextTerm
    let st := { st with nextTerm := st.nextTerm + 1 }
    match st.db.insertTerm ⟨id, term⟩ with
    | .error e => .error e st
    | .ok db => .ok id { st with db := db, dict := Assoc.insert term id st.dict }

/-- `term_lookup`: a miss is an unknown term, never an error. -/
def DejaDB.termLookup (st : DejaDB) (term : String) : Option ℤ := st.dict.lookup term

/-- `fts_term_id`: the vocabulary id of a token, interning it when new. -/
def ftsTermId (term : String) : StoreM ℤ := fun st =>
  match st.ftsVocab.lookup term with
  | some id => .ok id st
  | none =>
    let st := { st with db := st.db.internVocab term }
    match st.db.vocabId term with
    | some id => .ok id { st with ftsVocab := Assoc.insert term id st.ftsVocab }
    | none => .error (.storage "fts_vocab insert vanished") st

/-- `fts_term_lookup`: the vocabulary id of a token without interning. -/
def ftsTermLookup (term : String) : StoreM (Option ℤ) := fun st =>
  match st.ftsVocab.lookup term with
  | some id => .ok (some id) st
  | none =>
    match st.db.vocabId term with
    | some id => .ok (some id) { st with ftsVocab := Assoc.insert term id st.ftsVocab }
    | none => .ok none st

/-- The id of an optional term. -/
def termIdOpt : Option String → StoreM (Option ℤ)
  | some x => do pure (some (← termId x))
  | none => pure none

/-! ## Preparation -/

/-- An `Except` value as a store program. -/
def lift {α : Type} : Except DejaDbError α → StoreM α
  | .ok a => pure a
  | .error e => throw e

/-- The vocabulary ids and frequencies of a text, and its length in tokens. -/
def encodeTokens (text : String) : StoreM (List (ℤ × ℤ) × ℤ) := do
  let (freqs, len) := tokenFreqs C text
  let ids ← freqs.mapM fun x => do pure (← ftsTermId x.1, x.2)
  pure (ids, len)

/-- The dictionary-encoded `related_to` links of the grain at `hash`. -/
def encodeLinks (hash : Hash) (links : List (String × String)) : StoreM (List (ℤ × ℤ × ℤ)) :=
  if links.isEmpty then pure []
  else do
    let self ← termId hash.toHex
    links.mapM fun l => do
      let rel ← termId l.1
      let target ← termId l.2
      pure (self, rel, target)

/-- The dictionary-encoded triple of a grain that has all three parts, and
whether it is indexed by object as well. -/
def encodeSpo (gv : GrainView) : StoreM (Option ℤ × Option ℤ × Option ℤ × Bool) :=
  match gv.spo with
  | some (sj, rl, ob) => do
    let s ← termId sj
    let p ← termId rl
    let o ← termId ob
    let st ← get
    pure (some s, some p, some o, rl == "mg:harness" || st.entityRels.contains rl)
  | none => pure (none, none, none, false)

/-- The postings of the stored text: none while text indexing is off or
deferred. -/
def encodeText (text : Option String) : StoreM (List (ℤ × ℤ) × ℤ) := do
  let st ← get
  match text, st.ftsDeferred with
  | some t, false => encodeTokens C t
  | _, _ => pure ([], 0)

/-- The embedding of the projected text, when a backend is installed. -/
def embedText (projected : Option String) : StoreM (Option (List UInt32)) := do
  let st ← get
  match st.embedder, projected with
  | some e, some t => do pure (some (← lift (e t)))
  | _, _ => pure none

/-- The `text` column: the projected text while text indexing is on. -/
def DejaDB.storedText (st : DejaDB) (projected : Option String) : Option String :=
  if st.indexText then projected else none

/-- `prep_from_blob`: everything an insert needs, computed from the bytes.  The
address is the caller's; nothing here checks it against the blob. -/
def prepFromBlob (blob : Bytes) (hash : Hash) : StoreM GrainPrep := do
  let view ← lift (C.deserializeBlob blob)
  let created ← createdAtOf view
  let gv := extractView view created
  let nsId ← termId gv.ns
  let spo ← encodeSpo gv
  let session ← termIdOpt gv.session
  let st ← get
  let text := st.storedText (projectedText C view)
  let tokens ← encodeText C text
  let embedding ← embedText (projectedText C view)
  let links ← encodeLinks hash gv.links
  let run ← termIdOpt gv.run
  pure { blob := blob, hash := hash, nsId := nsId, s := spo.1, p := spo.2.1, o := spo.2.2.1,
         osp := spo.2.2.2, session := session, vf := gv.vf, vt := gv.vt,
         created := gv.createdAt, gtype := gv.gtype, text := text, embedding := embedding,
         tokens := tokens.1, docLen := tokens.2, links := links, run := run,
         parent := gv.parentHash, corpusExport := gv.corpusExport }

end Deja
