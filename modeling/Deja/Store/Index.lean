import Deja.Store.Bundle

/-!
# Index maintenance and open

Deferring and rebuilding the BM25 index, rebuilding the link indexes, the
free-text read over the postings, and the tail of every open with its two
self-heal passes.

The floating-point BM25 score is a parameter of the read: any function of what
the source computes it from.  The advisory warnings of an open are left out.
-/

namespace Deja

variable {G : Type} (C : Core G)

/-! ## The text index -/

/-- `defer_text_index`: suspend posting writes; `false` when there is nothing to
defer. -/
def deferTextIndex : StoreM Bool := do
  let st ← get
  if !st.indexText ∨ st.ftsDeferred then pure false
  else
    set { st with ftsDeferred := true }
    pure true

/-- The text a rebuild indexes a row under: its `text` column, else the text
projected from its blob. -/
def rebuildText (g : GrainRow) : Except DejaDbError (Option String) :=
  match g.text with
  | some t => .ok (some t)
  | none => (C.deserializeBlob g.blob).map (projectedText C)

/-- The warm pass: intern every token the corpus needs. -/
def warmVocab (grains : List GrainRow) : StoreM Unit :=
  grains.forM fun g => do
    match ← lift (rebuildText C g) with
    | some t => (tokenFreqs C t).1.forM fun x => do let _ ← ftsTermId x.1
    | none => pure ()

/-- The posting and document rows of one row with text; a token without an id
is skipped. -/
def rebuiltRows (g : GrainRow) : StoreM (List PostRow × List DocRow) :=
  match g.text with
  | none => pure ([], [])
  | some t => do
    let (freqs, len) := tokenFreqs C t
    let posts ← freqs.mapM fun x => do
      let id ← ftsTermLookup x.1
      pure (id.map fun id => (⟨id, g.seq, g.ns, x.2⟩ : PostRow))
    let posts := posts.filterMap id
    pure (posts, if posts.isEmpty then [] else [⟨g.seq, len⟩])

/-- The transaction of the text rebuild: backfill the `text` column, then write
every posting anew.  Answers the rows backfilled and the new statistics. -/
def rebuildTextBody : StoreM (ℕ × ℤ × ℤ) := do
  let st ← get
  let grains ← lift (st.db.grains.mapM fun g =>
    (rebuildText C g).map fun t => { g with text := t })
  let rows ← grains.mapM (rebuiltRows C)
  let docs := rows.flatMap Prod.snd
  modify fun st => { st with db := { st.db with
    grains := grains, ftsPost := rows.flatMap Prod.fst, ftsDoc := docs } }
  pure (grains.countP (fun g => g.text.isSome) - st.db.grains.countP (fun g => g.text.isSome),
    (docs.length : ℤ), (docs.map DocRow.len).sum)

/-- `rebuild_text_index`. -/
def rebuildTextIndex : StoreM ℕ := do
  let st ← get
  if !st.indexText then
    throw (.validation ("text indexing is off for this file — reopen it with text indexing on " ++
      "(open_with index_text, index_text=True from Python, indexText from " ++
      "Node, --index-text true on the CLI) before rebuilding the FTS index"))
  else
    warmVocab C st.db.grains
    modify fun st => { st with ftsDeferred := false }
    let (backfilled, docs, totalLen) ← atomically (rebuildTextBody C)
    modify fun st => { st with ftsDocs := docs, ftsTotalLen := totalLen }
    pure backfilled

/-! ## Free-text search -/

/-- One posting as the search reads it: sequence number, frequency, length. -/
abbrev Posting := ℤ × ℤ × ℤ

/-- The score of a candidate, computed from the collection statistics, the
query's tokens and the postings of each.  Only the comparisons between scores
are used. -/
abbrev Scorer := ℤ → ℤ → List String → (String → List Posting) → ℤ → ℤ

namespace Tables

variable (t : Tables)

/-- `fts_post p JOIN fts_vocab v JOIN fts_doc d WHERE v.term=? AND p.ns=?`. -/
def postingsOf (ns : ℤ) (term : String) : List Posting :=
  (t.ftsPost.filter fun p => p.ns = ns).flatMap fun p =>
    (t.ftsVocab.filter fun v => v.id = p.term ∧ v.term = term).flatMap fun _ =>
      (t.ftsDoc.filter fun d => d.seq = p.seq).map fun d => (p.seq, p.tf, max d.len 1)

/-- `live_seqs`: present and not superseded. -/
def isLive (seq : ℤ) : Bool := t.grains.any fun g => g.seq = seq ∧ g.svt.isNone

end Tables

/-- The candidates of a query, best score first, ties newest first. -/
def DejaDB.rankedSeqs (st : DejaDB) (score : Scorer) (ns : ℤ) (terms : List String) : List ℤ :=
  let postings := st.db.postingsOf ns
  let score := score st.ftsDocs st.ftsTotalLen terms postings
  ((terms.flatMap fun t => (postings t).map Prod.fst).dedup).insertionSort fun a b =>
    score b < score a ∨ (score a = score b ∧ b ≤ a)

/-- `search_text_inner`: `search_text` with the liveness filter,
`search_text_all` without. -/
def DejaDB.searchText (st : DejaDB) (score : Scorer) (ns query : String) (k : ℕ)
    (includeSuperseded : Bool) : List ℤ :=
  if !st.indexText ∨ k = 0 then []
  else
    match st.termLookup ns with
    | none => []
    | some nsId =>
      let ranked := st.rankedSeqs score nsId (tokenize C query)
      if includeSuperseded then ranked.take k
      else ((ranked.take (4 * k)).filter st.db.isLive).take k

/-! ## The link indexes -/

/-- What the store reads out of a blob it holds already. -/
def viewOf (blob : Bytes) : StoreM (DeserializedGrain × GrainView) := do
  let view ← lift (C.deserializeBlob blob)
  pure (view, extractView view (← createdAtOf view))

/-- The warm pass: intern the run and the links of every grain. -/
def warmLinks (grains : List GrainRow) : StoreM Unit :=
  grains.forM fun g => do
    let (view, gv) ← viewOf C g.blob
    let _ ← termIdOpt gv.run
    let _ ← encodeLinks view.hash gv.links

/-- A row of the rebuild plan. -/
structure LinkPlan where
  seq : ℤ
  ns : ℤ
  run : Option ℤ
  parent : Option Hash
  corpusExport : Bool
  links : List (ℤ × ℤ × ℤ)

/-- Look up the links of the grain at `hash`; an unknown term drops the link. -/
def DejaDB.lookupLinks (st : DejaDB) (hash : Hash) (links : List (String × String)) :
    List (ℤ × ℤ × ℤ) :=
  match st.termLookup hash.toHex with
  | none => []
  | some self => links.filterMap fun l =>
    match st.termLookup l.1, st.termLookup l.2 with
    | some rel, some target => some (self, rel, target)
    | _, _ => none

/-- The plan row of one grain: looked up, not interned. -/
def planRow (g : GrainRow) : StoreM LinkPlan := do
  let (view, gv) ← viewOf C g.blob
  let st ← get
  pure ⟨g.seq, g.ns, gv.run.bind st.termLookup, gv.parentHash, gv.corpusExport,
    st.lookupLinks view.hash gv.links⟩

/-- Replay one link: any row with its values goes, a current one comes. -/
def Tables.replayLink (t : Tables) (ns seq : ℤ) (l : ℤ × ℤ × ℤ) : Tables :=
  { t with
    triples := t.triples.filter (fun r =>
      ¬(r.ns = ns ∧ r.s = l.1 ∧ r.p = l.2.1 ∧ r.o = l.2.2 ∧ r.seq = seq)) ++
        [⟨ns, l.1, l.2.1, l.2.2, seq, true⟩]
    osp := t.osp.filter (fun r =>
      ¬(r.ns = ns ∧ r.o = l.2.2 ∧ r.s = l.1 ∧ r.p = l.2.1 ∧ r.seq = seq)) ++
        [⟨ns, l.2.2, l.1, l.2.1, seq, true⟩] }

/-- Write the index rows of one plan row. -/
def Tables.applyPlan (t : Tables) (r : LinkPlan) : Tables :=
  let t := { t with
    runIdx := t.runIdx ++ (r.run.map fun x => (⟨r.ns, x, r.seq⟩ : RunRow)).toList
    provIdx := t.provIdx ++ (r.parent.map fun h => (⟨r.ns, h, r.seq⟩ : ProvRow)).toList
    corpusIdx := t.corpusIdx ++ if r.corpusExport then [r.seq] else [] }
  r.links.foldl (fun t l => t.replayLink r.ns r.seq l) t

/-- The rows a plan row writes. -/
def LinkPlan.written (r : LinkPlan) : ℕ :=
  r.run.toList.length + r.parent.toList.length + (if r.corpusExport then 1 else 0) +
    r.links.length

/-- The rows of `grains` in `seq` order. -/
def Tables.grainsBySeq (t : Tables) : List GrainRow :=
  t.grains.insertionSort fun a b => a.seq ≤ b.seq

/-- Clear the three narrow indexes and write the plan. -/
def Tables.relink (t : Tables) (plan : List LinkPlan) : Tables :=
  plan.foldl Tables.applyPlan { t with provIdx := [], runIdx := [], corpusIdx := [] }

/-- The transaction of the link rebuild. -/
def rebuildLinkBody : StoreM ℕ := do
  let st ← get
  let plan ← st.db.grainsBySeq.mapM (planRow C)
  modify fun st => { st with db := st.db.relink plan }
  pure (plan.map LinkPlan.written).sum

/-- `LINK_INDEX_VERSION`. -/
def linkIndexVersion : String := "2"

/-- Stamp the link indexes as current. -/
def stampLinkIndex : StoreM Unit := modify fun st =>
  { st with db := { st.db with info := { st.db.info with linkIndex := some linkIndexVersion } } }

/-- `rebuild_link_indexes`. -/
def rebuildLinkIndexes : StoreM ℕ := do
  let st ← get
  warmLinks C st.db.grainsBySeq
  let written ← atomically (rebuildLinkBody C)
  stampLinkIndex
  pure written

/-! ## Opening a file -/

/-- The options an open can state explicitly. -/
structure DejaDbOptions where
  entityRelations : List String
  indexText : Bool

/-- `DejaDbOptions::default()`. -/
def DejaDbOptions.default : DejaDbOptions where
  entityRelations := ["mg:delegates_to", "mg:owned_by", "mg:assigned_to", "mg:depends_on",
    "mg:handed_off_to", "mg:capable_of", "delegates_to", "reports_to", "part_of", "knows"]
  indexText := true

/-- The options an open runs under: the explicit ones, else what the file
declares. -/
def Meta.resolve (m : Meta) : Option DejaDbOptions → DejaDbOptions
  | some o => o
  | none => ⟨m.entityRelations.getD DejaDbOptions.default.entityRelations,
      m.textIndex.getD true⟩

/-- The handle an open starts from: declarations stamped, dictionary and
counters seeded from the file. -/
def freshHandle (explicit : Option DejaDbOptions) (clock : ℕ → ℤ) (t : Tables) : DejaDB :=
  let opts := t.info.resolve explicit
  { db := { t with info := { t.info with
      textIndex := some opts.indexText, entityRelations := some opts.entityRelations } }
    dict := Assoc.ofRows TermRow.term TermRow.id t.terms
    nextTerm := t.terms.foldl (fun n r => max n (r.id + 1)) 1
    nextSeq := (t.grains.map GrainRow.seq).foldl max 0 + 1
    nextOp := (t.oplog.map OpRow.opSeq).foldl max 0 + 1
    hlcLast := (t.oplog.map OpRow.hlc).max?.getD 0
    entityRels := opts.entityRelations
    indexText := opts.indexText
    ftsVocab := []
    ftsDocs := t.ftsDoc.length
    ftsTotalLen := (t.ftsDoc.map DocRow.len).sum
    ftsDeferred := false
    embedder := none
    needsMinReaderStamp := t.info.minReaderVersion.isNone
    clock := clock
    tick := 0 }

/-- The open-time check of the text index: text is there, no document is
indexed. -/
def DejaDB.textIndexStale (st : DejaDB) : Bool :=
  st.indexText && (0 < st.db.grains.countP fun g => g.text.isSome) && st.ftsDocs = 0

/-- The self-heal passes of an open. -/
def healIndexes : StoreM Unit := do
  let st ← get
  if st.textIndexStale then let _ ← rebuildTextIndex C
  if st.db.info.linkIndex ≠ some linkIndexVersion then
    if st.db.grains.isEmpty then stampLinkIndex
    else let _ ← rebuildLinkIndexes C

/-- `finish_open`: the opened store, or the error of a heal pass. -/
def finishOpen (explicit : Option DejaDbOptions) (clock : ℕ → ℤ) (t : Tables) :
    EStateM.Result DejaDbError DejaDB Unit :=
  healIndexes C (freshHandle explicit clock t)

/-- The handle of a newly created file. -/
def createStore (explicit : Option DejaDbOptions) (clock : ℕ → ℤ) : DejaDB :=
  (freshHandle explicit clock Tables.empty).after (healIndexes C)

end Deja
