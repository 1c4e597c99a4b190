import Deja.Store.Write

/-!
# Bulk erasure

`forget_subject` and `forget_older_than` share one core, `erase_where`: select
sequence numbers inside the transaction, delete every row of each, write one
tombstone a grain, reconcile the keys touched, and sweep the vocabulary and the
dictionary of what nothing references any more.

Left out are the CAS blobs and the telemetry sidecar, which hold no row of the
tables here.
-/

namespace Deja

variable {G : Type} (C : Core G)

/-- A transaction whose closure also works on the handle: a failure restores the
file, not the handle. -/
def atomically {α : Type} (x : StoreM α) : StoreM α := fun st =>
  match x st with
  | .ok a st' => .ok a st'
  | .error e st' => .error e { st' with db := st.db }

/-! ## Selection -/

/-- What a bulk erasure selects. -/
inductive ErasureSelector where
  | identity (nsId : ℤ) (subject : String) (textMentions : Bool)
  | olderThan (nsId : Option ℤ) (cutoffMs : ℤ) (gtype : Option ℤ) (limit : Option ℕ)

/-- The report of an erasure. -/
structure ErasureReport where
  grainsErased : ℕ
  termsRemoved : ℕ
  vocabRemoved : ℕ
  erasedHashes : List String
  deriving DecidableEq

/-- `ErasureReport::default()`. -/
def ErasureReport.empty : ErasureReport := ⟨0, 0, 0, []⟩

/-- Whether a dictionary term names the identity: the term itself, or the term
followed by a character that is not alphanumeric. -/
def namesIdentity (subject term : String) : Bool :=
  term = subject ||
  (subject.toList.isPrefixOf term.toList &&
    (term.toList.drop subject.length).head?.any fun c => !C.isAlphanumeric c)

/-- The dictionary ids of an identity and its partition keys. -/
def Tables.identityIds (t : Tables) (subject : String) : List ℤ :=
  (t.terms.filter fun r => namesIdentity C subject r.term).map TermRow.id

/-- The grains that reference one of the ids as subject, object, session or
run in a namespace. -/
def Tables.identitySeqs (t : Tables) (nsId : ℤ) (ids : List ℤ) : List ℤ :=
  (t.triples.filter fun r => r.ns = nsId ∧ (r.s ∈ ids ∨ r.o ∈ ids)).map TripleRow.seq ++
  (t.threadIdx.filter fun r => r.ns = nsId ∧ r.session ∈ ids).map ThreadRow.seq ++
  (t.runIdx.filter fun r => r.ns = nsId ∧ r.run ∈ ids).map RunRow.seq

/-- The grains of a namespace whose indexed text has every one of the tokens. -/
def mentioning (nsId : ℤ) : List String → StoreM (List ℤ)
  | [] => pure []
  | t :: ts => do
    let id ← ftsTermLookup t
    let posts := (← get).db.ftsPost
    let seqs := match id with
      | some id => (posts.filter fun r => r.term = id ∧ r.ns = nsId).map PostRow.seq
      | none => []
    match ts with
    | [] => pure seqs
    | _ =>
      if seqs.isEmpty then pure []
      else
        let rest ← mentioning nsId ts
        pure (seqs.filter (· ∈ rest))

/-- `select_identity`: the ids of an identity and the grains it selects. -/
def selectIdentity (nsId : ℤ) (subject : String) (textMentions : Bool) :
    StoreM (List ℤ × List ℤ) := do
  let st ← get
  let ids := st.db.identityIds C subject
  let seqs := if ids.isEmpty then [] else st.db.identitySeqs nsId ids
  if textMentions then
    let mentioned ← mentioning nsId (tokenize C subject).dedup
    pure (ids, seqs ++ mentioned)
  else pure (ids, seqs)

/-- The grains older than a cutoff, the oldest first where the sweep is
bounded. -/
def Tables.olderThan (t : Tables) (nsId : Option ℤ) (cutoffMs : ℤ) (gtype : Option ℤ)
    (limit : Option ℕ) : List ℤ :=
  let rows := t.grains.filter fun g =>
    g.createdAt < cutoffMs ∧ nsId.all (g.ns = ·) ∧ gtype.all (g.gtype = ·)
  match limit with
  | none => rows.map GrainRow.seq
  | some n =>
    ((rows.insertionSort fun a b =>
      a.createdAt < b.createdAt ∨ (a.createdAt = b.createdAt ∧ a.seq ≤ b.seq)).take n).map
        GrainRow.seq

/-! ## Sweeps -/

/-- The string a scrubbed term is replaced by. -/
def erasedTerm (id : ℤ) : String := "\u0001erased:" ++ toString id

/-- `term LIKE '\u{1}erased:%'`: the prefix in either case. -/
def isErasedTerm (term : String) : Bool :=
  "\u0001erased:".toList.isPrefixOf (term.toList.map Char.toLower)

/-- Whether a triple, a session, a run or a namespace still uses a term. -/
def Tables.termReferenced (t : Tables) (id : ℤ) : Bool :=
  (t.triples.any fun r => r.s = id ∨ r.p = id ∨ r.o = id) ||
  (t.threadIdx.any fun r => r.session = id) ||
  (t.runIdx.any fun r => r.run = id) ||
  (t.grains.any fun g => g.ns = id)

/-- `scrub_term_if_unreferenced`: replace the string of an unreferenced term.
Answers whether a row changed. -/
def Tables.scrubTerm (t : Tables) (id : ℤ) : Except DejaDbError (Bool × Tables) :=
  if t.termReferenced id then .ok (false, t)
  else if t.terms.any fun r => r.id = id ∧ !isErasedTerm r.term then
    if t.terms.any fun r => r.id ≠ id ∧ r.term = erasedTerm id then
      .error (.storage "UNIQUE constraint failed: terms.term")
    else .ok (true, { t with terms := t.terms.map fun r =>
      if r.id = id then { r with term := erasedTerm id } else r })
  else .ok (false, t)

/-- Scrub a list of candidate terms; answers those whose string was replaced. -/
def Tables.scrubTerms : Tables → List ℤ → Except DejaDbError (List ℤ × Tables)
  | t, [] => .ok ([], t)
  | t, id :: ids => do
    let (gone, t) ← t.scrubTerm id
    let (rest, t) ← t.scrubTerms ids
    .ok (if gone then id :: rest else rest, t)

/-- The vocabulary sweep: drop the tokens no posting uses any more. -/
def Tables.sweepVocab (t : Tables) (candidates : List ℤ) : Tables :=
  { t with ftsVocab := t.ftsVocab.filter fun r =>
      ¬(r.id ∈ candidates ∧ t.ftsPost.all fun x => x.term ≠ r.id) }

/-! ## The erasure core -/

/-- Delete each target and write its tombstone. -/
def Tables.eraseTargets : Tables → List GrainRow → ℤ → ℤ → Except DejaDbError Tables
  | t, [], _, _ => .ok t
  | t, g :: gs, op, hlc => do
    let t := t.deleteSeq g.seq
    let t := match g.key with
      | some k => t.deleteHead k g.seq
      | none => t
    let t ← t.insertOp ⟨op, hlc, .forget, g.hash⟩
    t.eraseTargets gs (op + 1) (hlc + 1)

/-- Drop the `entity_latest` rows that point at erased grains, then re-elect. -/
def Tables.reconcile (t : Tables) (seqs : List ℤ) (keys : List Key) : Tables :=
  keys.foldl (fun t k => (t.deleteLatest k seqs).reelect k) t

/-- The terms an erasure may leave without a reference: sessions, runs, the
identity's own ids, and the subjects, relations and objects of the targets. -/
def Tables.termCandidates (t : Tables) (seqs ids : List ℤ) (targets : List GrainRow) : List ℤ :=
  (((t.threadIdx.filter fun r => r.seq ∈ seqs).map ThreadRow.session ++
    (t.runIdx.filter fun r => r.seq ∈ seqs).map RunRow.run ++ ids ++
    targets.flatMap fun g => g.s.toList ++ g.p.toList ++ g.o.toList).dedup).insertionSort (· ≤ ·)

/-- What the closure of `erase_where` hands to its post-commit half. -/
structure EraseOut where
  report : ErasureReport
  docs : ℤ
  lenSum : ℤ
  scrubbed : List ℤ

/-- The tables after the selected grains are gone, with the report. -/
def Tables.eraseTxn (t : Tables) (seqs ids : List ℤ) (op hlc : ℤ) :
    Except DejaDbError (EraseOut × Tables) := do
  let targets := t.grains.filter fun g => g.seq ∈ seqs
  let vocab := ((t.ftsPost.filter fun r => r.seq ∈ seqs).map PostRow.term).dedup
  let candidates := t.termCandidates seqs ids targets
  let docs := t.ftsDoc.filter fun d => d.seq ∈ targets.map GrainRow.seq
  let t ← t.eraseTargets targets op hlc
  let t := t.reconcile seqs (targets.filterMap GrainRow.key).dedup
  let vocabBefore := t.ftsVocab.length
  let t := t.sweepVocab vocab
  let vocabRemoved := vocabBefore - t.ftsVocab.length
  let (scrubbed, t) ← t.scrubTerms candidates
  .ok (⟨⟨targets.length, scrubbed.length, vocabRemoved, targets.map fun g => g.hash.toHex⟩,
    (docs.length : ℤ), (docs.map DocRow.len).sum, scrubbed⟩, t)

/-- The op and clock block of `n` tombstones. -/
def reserveTombstones (n : ℕ) : StoreM (ℤ × ℤ) := do
  let st ← get
  set { st with nextOp := st.nextOp + n }
  let hlc0 ← nextHlc
  modify fun st => { st with hlcLast := hlc0 + n - 1 }
  pure (st.nextOp, hlc0)

/-- The identity's dictionary ids and the selected grains. -/
def selectTargets : ErasureSelector → StoreM (List ℤ × List ℤ)
  | .identity nsId subject textMentions => selectIdentity C nsId subject textMentions
  | .olderThan nsId cutoffMs gtype limit => do
    let st ← get
    pure ([], st.db.olderThan nsId cutoffMs gtype limit)

/-- The closure of `erase_where`. -/
def eraseBody (sel : ErasureSelector) : StoreM EraseOut := do
  let (ids, selected) ← selectTargets C sel
  let seqs := selected.dedup
  if seqs.isEmpty then
    -- nothing matched, but the identifier may still stand in the dictionary
    let scrubbed ← withTxn fun t => t.scrubTerms ids
    pure ⟨{ ErasureReport.empty with termsRemoved := scrubbed.length }, 0, 0, scrubbed⟩
  else
    let (op, hlc) ← reserveTombstones seqs.length
    withTxn fun t => t.eraseTxn seqs ids op hlc

/-- `erase_where`: the closure in one transaction, then the counters and the
caches. -/
def eraseWhere (sel : ErasureSelector) : StoreM ErasureReport := do
  let out ← atomically (eraseBody C sel)
  dropStats out.docs out.lenSum
  modify fun st => { st with
    dict := st.dict.filter fun x => x.2 ∉ out.scrubbed
    ftsVocab := if 0 < out.report.vocabRemoved then [] else st.ftsVocab }
  pure out.report

/-! ## Entry points -/

/-- `check_subject_selector`: an empty identity, or a text-mention erasure
without a complete text index, is refused. -/
def checkSubjectSelector (op subject : String) (textMentions : Bool) : StoreM Unit := do
  let st ← get
  if subject.toList.all C.isWhitespace then
    throw (.validation (op ++ " needs a non-empty subject"))
  else if textMentions ∧ (!st.indexText ∨ st.ftsDeferred) then
    throw (.validation ("text-mention erasure needs the text index on and fully built for this " ++
      "memory (the BM25 index is what makes prose mentions findable; finish the " ++
      "deferred rebuild first)"))
  else pure ()

/-- `forget_subject_with`. -/
def forgetSubjectWith (ns subject : String) (textMentions : Bool) : StoreM ErasureReport := do
  checkSubjectSelector C "forget_subject" subject textMentions
  match (← get).termLookup ns with
  | none => pure ErasureReport.empty
  | some nsId => eraseWhere C (.identity nsId subject textMentions)

/-- `forget_subject`. -/
def forgetSubject (ns subject : String) : StoreM ErasureReport :=
  forgetSubjectWith C ns subject false

/-- `forget_older_than_capped`. -/
def forgetOlderThanCapped (ns : Option String) (cutoffMs : ℤ) (gtype : Option GrainType)
    (limit : Option ℕ) : StoreM ErasureReport := do
  if limit = some 0 then pure ErasureReport.empty
  else
    match ns with
    | none => eraseWhere C (.olderThan none cutoffMs (gtype.map GrainType.ordinal) limit)
    | some n =>
      match (← get).termLookup n with
      | none => pure ErasureReport.empty
      | some nsId =>
        eraseWhere C (.olderThan (some nsId) cutoffMs (gtype.map GrainType.ordinal) limit)

/-- `forget_older_than`. -/
def forgetOlderThan (ns : Option String) (cutoffMs : ℤ) (gtype : Option GrainType) :
    StoreM ErasureReport :=
  forgetOlderThanCapped C ns cutoffMs gtype none

/-! ## The subject report -/

/-- The matched strings of an identity: the exact term and its partition keys,
and the bare subject in any case. -/
def Tables.identityNames (t : Tables) (subject : String) : List String :=
  let names := (t.terms.filter fun r => namesIdentity C subject r.term).map TermRow.term
  if subject ∈ names then names else names ++ [subject]

/-- `SubjectReport`. -/
structure SubjectReport where
  identityNames : List String
  grains : List DeserializedGrain

/-- `SubjectReport::default()`. -/
def SubjectReport.empty : SubjectReport := ⟨[], []⟩

/-- `SELECT … FROM grains WHERE seq IN (…) ORDER BY seq`. -/
def Tables.grainsAt (t : Tables) (seqs : List ℤ) : List GrainRow :=
  (t.grains.filter fun g => g.seq ∈ seqs).insertionSort fun a b => a.seq ≤ b.seq

/-- `subject_report_with`: what `forget_subject_with` would erase, read instead. -/
def subjectReportWith (ns subject : String) (textMentions : Bool) : StoreM SubjectReport := do
  checkSubjectSelector C "subject_report" subject textMentions
  match (← get).termLookup ns with
  | none => pure SubjectReport.empty
  | some nsId => do
    let (_, seqs) ← selectIdentity C nsId subject textMentions
    let st ← get
    let grains ← lift ((st.db.grainsAt seqs).mapM fun g => C.deserializeBlob g.blob)
    pure ⟨st.db.identityNames C subject, grains⟩

end Deja
