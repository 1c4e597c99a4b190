import Deja.Lib.Lockstep
import Deja.Writes.Readded

/-!
# A batch and the sequence of its adds

`add_batch` prepares every new grain first and inserts them in one transaction
under one block of counters; calling `add` on each grain prepares and inserts one
after the other.  What preparation reads (the dictionaries, the declarations and
the embedder) an insert does not write, so both prepare the same rows, and both
take the same counters.  Only the clock values differ, and what is left where an
add fails: a batch is one transaction.
-/

namespace Deja

open Run

variable {G : Type} {C : Core G}

/-- `add` on each grain, in order. -/
def addEach (C : Core G) (gs : List (Grain G)) : StoreM (List Hash) := gs.mapM (add C)

/-! ## The rows of a file -/

/-- What an add writes: the file without its dictionaries, its `meta` rows and the
clock values of its op-log. -/
def Tables.plain (t : Tables) : Tables :=
  { t with
    info := Meta.empty
    terms := []
    ftsVocab := []
    oplog := t.oplog.map fun r => { r with hlc := 0 } }

/-- The same rows, and the same dictionaries. -/
structure SameRows (a b : Tables) : Prop where
  rows : a.plain = b.plain
  terms : a.terms = b.terms
  vocab : a.ftsVocab = b.ftsVocab

theorem SameRows.length {a b : Tables} (h : SameRows a b) : a.grains.length = b.grains.length := by
  have hlength := congrArg (fun t => List.length (Tables.grains t)) h.rows
  exact hlength

theorem not_sameRows_of_length {a b : Tables} (ha : a.grains.length = 0)
    (hb : b.grains.length = 1) : ¬SameRows a b := by
  intro h
  have hlength := h.length
  omega

/-- A sequence of fallible steps under a function of its answer. -/
theorem except_bind_map {ε α β γ δ : Type} {x : Except ε α} {y : Except ε γ} {f : α → Except ε β}
    {g : γ → Except ε δ} {r : α → γ} {q : β → δ} (hx : x.map r = y)
    (hf : ∀ a, (f a).map q = g (r a)) : (x >>= f).map q = y >>= g := by
  subst hx
  cases x with
  | error e => rfl
  | ok a => exact hf a

namespace Tables

variable (t : Tables) (pr : GrainPrep) (seq op : ℤ)

theorem insertGrain_plain (g : GrainRow) :
    (t.insertGrain g).map plain = t.plain.insertGrain g := by
  unfold insertGrain
  change Except.map plain (if t.grains.any fun x => x.seq = g.seq then _ else
      if t.hasGrain g.hash then _ else _) =
    if t.grains.any fun x => x.seq = g.seq then _ else if t.hasGrain g.hash then _ else _
  split_ifs <;> rfl

theorem insertPostings_plain : (t.insertPostings pr seq).plain = t.plain.insertPostings pr seq := by
  unfold insertPostings
  split_ifs <;> rfl

theorem collapseHeads_plain : (t.collapseHeads pr seq).plain = t.plain.collapseHeads pr seq := by
  unfold collapseHeads
  cases pr.spo <;> rfl

theorem insertIndexRows_plain :
    (t.insertIndexRows pr seq).map plain = t.plain.insertIndexRows pr seq := by
  unfold insertIndexRows
  change Except.map plain (if pr.corpusExport ∧ seq ∈ t.corpusIdx then _ else
      if pr.embedding.isSome ∧ t.embeddings.any fun x => x.seq = seq then _ else _) =
    if pr.corpusExport ∧ seq ∈ t.corpusIdx then _ else
      if pr.embedding.isSome ∧ t.embeddings.any fun x => x.seq = seq then _ else _
  split_ifs <;> rfl

theorem insertOp_plain (hlc : ℤ) (kind : OpKind) (hash : Hash) :
    (t.insertOp ⟨op, hlc, kind, hash⟩).map plain = t.plain.insertOp ⟨op, 0, kind, hash⟩ := by
  have hany : (t.plain.oplog.any fun x => x.opSeq = op) = t.oplog.any fun x => x.opSeq = op := by
    rw [plain, List.any_map]
    rfl
  unfold insertOp
  rw [hany]
  split_ifs
  · rfl
  · simp [Except.map, plain]

/-- The rows of an insert do not depend on the clock. -/
theorem insertPreppedOne_plain (hlc : ℤ) :
    (t.insertPreppedOne pr seq op hlc).map plain = t.plain.insertPreppedOne pr seq op 0 := by
  unfold insertPreppedOne
  refine except_bind_map (insertGrain_plain t _) fun t => ?_
  simp only [← insertPostings_plain, ← collapseHeads_plain]
  exact except_bind_map (insertIndexRows_plain _ pr seq) fun t => insertOp_plain t op hlc _ _

/-- `insertPrepped` on rows, which carry no clock value. -/
def insertRows : Tables → List GrainPrep → ℤ → ℤ → Except DejaDbError Tables
  | t, [], _, _ => .ok t
  | t, pr :: preps, seq, op => do
    let t ← t.insertPreppedOne pr seq op 0
    t.insertRows preps (seq + 1) (op + 1)

theorem insertPrepped_plain (preps : List GrainPrep) (hlc : ℤ) :
    (t.insertPrepped preps seq op hlc).map plain = t.plain.insertRows preps seq op := by
  induction preps generalizing t seq op hlc with
  | nil => rfl
  | cons pr preps ih =>
    exact except_bind_map (insertPreppedOne_plain t pr seq op hlc) fun t => ih t _ _ _

theorem insertRows_append (preps new : List GrainPrep) :
    t.insertRows (preps ++ new) seq op = (do
      let t ← t.insertRows preps seq op
      t.insertRows new (seq + preps.length) (op + preps.length)) := by
  induction preps generalizing t seq op with
  | nil =>
    rw [List.nil_append, List.length_nil, Nat.cast_zero, add_zero, add_zero]
    rfl
  | cons pr preps ih =>
    rw [List.cons_append, insertRows, insertRows]
    cases t.insertPreppedOne pr seq op 0 with
    | error e => rfl
    | ok t =>
      have hseq : seq + 1 + (preps.length : ℤ) = seq + ((pr :: preps).length : ℤ) := by
        simp only [List.length_cons, Nat.cast_add, Nat.cast_one]
        omega
      have hop : op + 1 + (preps.length : ℤ) = op + ((pr :: preps).length : ℤ) := by
        simp only [List.length_cons, Nat.cast_add, Nat.cast_one]
        omega
      have hrest := ih t (seq + 1) (op + 1)
      rw [hseq, hop] at hrest
      exact hrest

end Tables

/-! ## What preparation reads -/

/-- Two handles that prepare a grain alike: one dictionary, one vocabulary, one set
of declarations. -/
structure Agree (a b : DejaDB) : Prop where
  terms : a.db.terms = b.db.terms
  vocab : a.db.ftsVocab = b.db.ftsVocab
  dict : a.dict = b.dict
  nextTerm : a.nextTerm = b.nextTerm
  cache : a.ftsVocab = b.ftsVocab
  relations : a.entityRels = b.entityRels
  indexed : a.indexText = b.indexText
  deferred : a.ftsDeferred = b.ftsDeferred
  embedder : a.embedder = b.embedder

theorem Agree.trans {a b c : DejaDB} (hab : Agree a b) (hbc : Agree b c) : Agree a c where
  terms := hab.terms.trans hbc.terms
  vocab := hab.vocab.trans hbc.vocab
  dict := hab.dict.trans hbc.dict
  nextTerm := hab.nextTerm.trans hbc.nextTerm
  cache := hab.cache.trans hbc.cache
  relations := hab.relations.trans hbc.relations
  indexed := hab.indexed.trans hbc.indexed
  deferred := hab.deferred.trans hbc.deferred
  embedder := hab.embedder.trans hbc.embedder

theorem locksteps_termId (term : String) : Locksteps Agree (termId term) := by
  intro a b h
  unfold termId
  rw [h.dict]
  cases b.dict.lookup term with
  | some id => exact .ok id h
  | none =>
    simp only [h.nextTerm, Tables.insertTerm, h.terms]
    split_ifs
    · exact .error _ _ _
    · exact .error _ _ _
    · exact .ok _ { h with
        terms := rfl
        dict := rfl
        nextTerm := rfl }

theorem locksteps_ftsTermId (term : String) : Locksteps Agree (ftsTermId term) := by
  intro a b h
  unfold ftsTermId
  rw [h.cache]
  cases b.ftsVocab.lookup term with
  | some id => exact .ok id h
  | none =>
    have hvocab : (a.db.internVocab term).ftsVocab = (b.db.internVocab term).ftsVocab := by
      unfold Tables.internVocab
      rw [h.vocab]
      split_ifs
      · exact h.vocab
      · rfl
    have hterms : (a.db.internVocab term).terms = (b.db.internVocab term).terms := by
      unfold Tables.internVocab
      split_ifs <;> exact h.terms
    simp only [Tables.vocabId, hvocab]
    cases ((b.db.internVocab term).ftsVocab.find? fun r => r.term = term).map TermRow.id with
    | none => exact .error _ _ _
    | some id => exact .ok id { h with
        terms := hterms
        vocab := hvocab
        cache := rfl }

theorem locksteps_termIdOpt (x : Option String) : Locksteps Agree (termIdOpt x) := by
  cases x with
  | none => exact locksteps_pure none
  | some x => exact locksteps_bind (locksteps_termId x) fun id => locksteps_pure (some id)

theorem locksteps_lift {α : Type} (x : Except DejaDbError α) : Locksteps Agree (lift x) := by
  cases x with
  | error e => exact locksteps_throw e
  | ok a => exact locksteps_pure a

theorem locksteps_encodeTokens (text : String) : Locksteps Agree (encodeTokens C text) := by
  refine locksteps_bind (locksteps_mapM (fun x : String × ℤ => ?_) _) fun ids => locksteps_pure _
  exact locksteps_bind (locksteps_ftsTermId x.1) fun id => locksteps_pure _

theorem locksteps_encodeText (text : Option String) : Locksteps Agree (encodeText C text) := by
  refine locksteps_get fun a b h => ?_
  rw [h.deferred]
  cases text with
  | none => exact locksteps_pure _ a b h
  | some t =>
    cases b.ftsDeferred with
    | true => exact locksteps_pure _ a b h
    | false => exact locksteps_encodeTokens t a b h

theorem locksteps_embedText (projected : Option String) :
    Locksteps Agree (embedText projected) := by
  refine locksteps_get fun a b h => ?_
  rw [h.embedder]
  cases b.embedder with
  | none => exact locksteps_pure _ a b h
  | some e =>
    cases projected with
    | none => exact locksteps_pure _ a b h
    | some t =>
      exact locksteps_bind (locksteps_lift (e t)) (fun v => locksteps_pure (some v)) a b h

theorem locksteps_encodeLinks (hash : Hash) (links : List (String × String)) :
    Locksteps Agree (encodeLinks hash links) := by
  unfold encodeLinks
  split_ifs
  · exact locksteps_pure []
  · exact locksteps_bind (locksteps_termId _) fun self => locksteps_mapM (fun l =>
      locksteps_bind (locksteps_termId l.1) fun rel =>
      locksteps_bind (locksteps_termId l.2) fun target => locksteps_pure _) links

theorem locksteps_encodeSpo (gv : GrainView) : Locksteps Agree (encodeSpo gv) := by
  unfold encodeSpo
  cases gv.spo with
  | none => exact locksteps_pure _
  | some x =>
    refine locksteps_bind (locksteps_termId x.1) fun s => ?_
    refine locksteps_bind (locksteps_termId x.2.1) fun p => ?_
    refine locksteps_bind (locksteps_termId x.2.2) fun o => ?_
    refine locksteps_get fun a b h => ?_
    rw [h.relations]
    exact .ok _ h

theorem locksteps_lift_bind {α β : Type} {x : Except DejaDbError α} {f : α → StoreM β}
    (hf : ∀ a, x = .ok a → Locksteps Agree (f a)) : Locksteps Agree (lift x >>= f) := by
  cases x with
  | error e => exact locksteps_throw e
  | ok a => exact hf a rfl

/-- The codec writes the timestamp of a grain into its bytes. -/
def Timestamped (C : Core G) : Prop := ∀ g blob hash, C.serializeGrain g = .ok (blob, hash) →
  ∀ view, C.deserializeBlob blob = .ok view → (view.getI64 "created_at").isSome

/-- Handles that agree prepare a grain alike: its timestamp is in its bytes, so the
wall clock is not read. -/
theorem locksteps_prepFromBlob (hstamped : Timestamped C) {g : Grain G} {blob : Bytes}
    {hash : Hash} (hser : C.serializeGrain g = .ok (blob, hash)) :
    Locksteps Agree (prepFromBlob C blob hash) := by
  refine locksteps_lift_bind fun view hview => ?_
  obtain ⟨c, hc⟩ := Option.isSome_iff_exists.1 (hstamped g blob hash hser view hview)
  have hcreated : createdAtOf view = pure c := by
    unfold createdAtOf
    rw [hc]
  rw [hcreated]
  refine locksteps_bind (locksteps_pure c) fun created => ?_
  refine locksteps_bind (locksteps_termId _) fun nsId => ?_
  refine locksteps_bind (locksteps_encodeSpo _) fun spo => ?_
  refine locksteps_bind (locksteps_termIdOpt _) fun session => ?_
  refine locksteps_get fun a b h => ?_
  rw [DejaDB.storedText, DejaDB.storedText, h.indexed]
  refine locksteps_bind (locksteps_encodeText _) (fun tokens => ?_) a b h
  refine locksteps_bind (locksteps_embedText _) fun embedding => ?_
  refine locksteps_bind (locksteps_encodeLinks _ _) fun links => ?_
  exact locksteps_bind (locksteps_termIdOpt _) fun run => locksteps_pure _

/-! ## One insert -/

/-- The second half of `add_batch`: reserve, stamp, insert, count. -/
def insertBatch (preps : List GrainPrep) : StoreM Unit := do
  let (firstSeq, firstOp, hlc0) ← reserveFor preps.length
  stampMinReader preps
  withTxn fun t => (t.insertPrepped preps firstSeq firstOp hlc0).map fun t => ((), t)
  bumpStats preps

theorem addBatch_apply (gs : List (Grain G)) (st : DejaDB) :
    addBatch C gs st = match prepNovel C [] gs st with
      | .error e s => .error e s
      | .ok (hashes, preps) s =>
        if preps.isEmpty then .ok hashes s
        else match insertBatch preps s with
          | .error e s' => .error e s'
          | .ok _ s' => .ok hashes s' := by
  unfold addBatch insertBatch
  rw [bind_apply]
  cases prepNovel C [] gs st with
  | error e s => rfl
  | ok out s =>
    simp only
    split_ifs
    · rfl
    · simp only [bind_apply, reserveFor_apply, stampMinReader_apply]
      cases withTxn _ _ <;> rfl

/-- A call that failed. -/
def Failed {α : Type} (x : EStateM.Result DejaDbError DejaDB α) : Prop := ∃ e s, x = .error e s

theorem stamped_agree (s : DejaDB) (preps : List GrainPrep) : Agree s (s.stamped preps) := by
  unfold DejaDB.stamped DejaDB.after Run.after stampMinReader
  rw [modify_apply]
  simp only
  split_ifs <;> exact ⟨rfl, rfl, rfl, rfl, rfl, rfl, rfl, rfl, rfl⟩

theorem stamped_rows (s : DejaDB) (preps : List GrainPrep) :
    (s.stamped preps).db.plain = s.db.plain := by
  unfold DejaDB.stamped DejaDB.after Run.after stampMinReader
  rw [modify_apply]
  simp only
  split_ifs <;> rfl

/-- What `insertBatch` leaves: the rows of its grains after those that were there, or
where it fails those that were there. -/
theorem insertBatch_ends (preps : List GrainPrep) (s : DejaDB) :
    match s.db.plain.insertRows preps s.nextSeq s.nextOp with
    | .error _ => ∃ e s', insertBatch preps s = .error e s' ∧ s'.db.plain = s.db.plain
    | .ok t => ∃ s', insertBatch preps s = .ok () s' ∧ s'.db.plain = t ∧ Agree s s' ∧
        s'.nextSeq = s.nextSeq + preps.length ∧ s'.nextOp = s.nextOp + preps.length := by
  have hrows := (s.stamped preps).db.insertPrepped_plain s.nextSeq s.nextOp preps s.nextHlcValue
  rw [stamped_rows] at hrows
  unfold insertBatch
  simp only [bind_apply, reserveFor_apply, stampMinReader_apply, stamped_counters, withTxn]
  rw [← hrows]
  cases hins : (s.stamped preps).db.insertPrepped preps s.nextSeq s.nextOp s.nextHlcValue with
  | error e => exact ⟨e, _, rfl, stamped_rows s preps⟩
  | ok t =>
    obtain ⟨-, hterms, hvocab⟩ := Tables.insertPrepped_dicts hins
    refine ⟨_, rfl, rfl, ?_, rfl, rfl⟩
    exact (stamped_agree s preps).trans { stamped_agree s preps with
      terms := hterms.symm
      vocab := hvocab.symm
      dict := rfl
      nextTerm := rfl
      cache := rfl
      relations := rfl
      indexed := rfl
      deferred := rfl
      embedder := rfl }

/-- An add whose preparation fails. -/
theorem add_unprepared {g : Grain G} {blob : Bytes} {hash : Hash} {b s : DejaDB} {e : DejaDbError}
    (hser : C.serializeGrain g = .ok (blob, hash)) (hnew : b.has hash = false)
    (hprep : prepFromBlob C blob hash b = .error e s) : Failed (add C g b) := by
  refine ⟨e, s, ?_⟩
  unfold add
  rw [bind_apply, addBatch_apply, prepNovel_cons, hser]
  simp [hnew, hprep]

/-- An add of a new grain inserts its row under the next counters. -/
theorem add_ends {g : Grain G} {blob : Bytes} {hash : Hash} {b s : DejaDB} {pr : GrainPrep}
    (hser : C.serializeGrain g = .ok (blob, hash)) (hnew : b.has hash = false)
    (hprep : prepFromBlob C blob hash b = .ok pr s) :
    match s.db.plain.insertRows [pr] s.nextSeq s.nextOp with
    | .error _ => Failed (add C g b)
    | .ok t => ∃ b', add C g b = .ok hash b' ∧ b'.db.plain = t ∧ Agree s b' ∧
        b'.nextSeq = s.nextSeq + 1 ∧ b'.nextOp = s.nextOp + 1 := by
  have hends := insertBatch_ends [pr] s
  have hbatch : addBatch C [g] b = match insertBatch [pr] s with
      | .error e s' => .error e s'
      | .ok _ s' => .ok [hash] s' := by
    rw [addBatch_apply, prepNovel_cons, hser]
    simp [hnew, hprep, prepNovel, pure_apply]
  unfold add
  rw [bind_apply, hbatch]
  cases hins : s.db.plain.insertRows [pr] s.nextSeq s.nextOp with
  | error e =>
    rw [hins] at hends
    obtain ⟨e, s', hfail, -⟩ := hends
    exact ⟨e, s', by rw [hfail]⟩
  | ok t =>
    rw [hins] at hends
    obtain ⟨s', hrun, hrows, hagree, hseq, hop⟩ := hends
    exact ⟨s', by rw [hrun]; rfl, hrows, hagree, by simpa using hseq, by simpa using hop⟩

/-! ## The run -/

/-- `b` is `a` with the grains `preps` added, `seen` being the addresses asked for. -/
structure Ahead (seen : List Hash) (preps : List GrainPrep) (a b : DejaDB) : Prop where
  agree : Agree a b
  rows : a.db.plain.insertRows preps a.nextSeq a.nextOp = .ok b.db.plain
  nextSeq : b.nextSeq = a.nextSeq + preps.length
  nextOp : b.nextOp = a.nextOp + preps.length
  held : ∀ x, b.has x = true ↔ x ∈ seen ∨ a.has x = true

theorem Interns.rows {a b : DejaDB} (h : Interns a b) : b.db.plain = a.db.plain := by
  rw [h.file]
  rfl

theorem Interns.counters {a b : DejaDB} (h : Interns a b) :
    b.nextSeq = a.nextSeq ∧ b.nextOp = a.nextOp := by
  rw [h.rest]
  exact ⟨rfl, rfl⟩

theorem hasGrain_insertRows {t t' : Tables} {pr : GrainPrep} {seq op : ℤ}
    (h : t.insertRows [pr] seq op = .ok t') (x : Hash) :
    t'.hasGrain x = true ↔ x = pr.hash ∨ t.hasGrain x = true := by
  obtain ⟨t₁, hone, hrest⟩ := except_bind_ok h
  cases hrest
  rw [Tables.hasGrain, (Tables.insertPreppedOne_ok hone).1.grains]
  simp only [Tables.hasGrain, List.any_append, List.any_cons, List.any_nil, GrainPrep.grainRow,
    Bool.or_eq_true, decide_eq_true_eq, Bool.or_false]
  exact ⟨fun hx => hx.symm.imp_left Eq.symm, fun hx => (hx.imp_left Eq.symm).symm⟩

/-- The adds `y` end as the first pass `x` of the batch foretells, `preps` being what
was added before: they fail where it fails or its rows cannot be inserted, else they
answer its addresses and leave its rows. -/
def EndsAs (preps : List GrainPrep) (x : EStateM.Result DejaDbError DejaDB (List Hash ×
    List GrainPrep)) (y : EStateM.Result DejaDbError DejaDB (List Hash)) : Prop :=
  match x with
  | .error _ _ => Failed y
  | .ok (hashes, new) a =>
    match a.db.plain.insertRows (preps ++ new) a.nextSeq a.nextOp with
    | .error _ => Failed y
    | .ok t => ∃ b, y = .ok hashes b ∧ b.db.plain = t ∧ Agree a b

theorem addEach_cons (g : Grain G) (gs : List (Grain G)) (b : DejaDB) :
    addEach C (g :: gs) b = match add C g b with
      | .error e s => .error e s
      | .ok hash s => match addEach C gs s with
        | .error e s' => .error e s'
        | .ok hashes s' => .ok (hash :: hashes) s' := by
  unfold addEach
  rw [List.mapM_cons, bind_apply]
  cases add C g b with
  | error e s => rfl
  | ok hash s =>
    simp only [bind_apply]
    cases List.mapM (add C) gs s <;> rfl

theorem failed_addEach {g : Grain G} {gs : List (Grain G)} {b : DejaDB}
    (h : Failed (add C g b)) : Failed (addEach C (g :: gs) b) := by
  obtain ⟨e, s, hfail⟩ := h
  exact ⟨e, s, by rw [addEach_cons, hfail]⟩

/-- Adds that end as foretold still do after one more address and the rows `l`. -/
theorem EndsAs.cons {preps l : List GrainPrep} {hash : Hash}
    {x : EStateM.Result DejaDbError DejaDB (List Hash × List GrainPrep)}
    {y : EStateM.Result DejaDbError DejaDB (List Hash)} : EndsAs (preps ++ l) x y →
    EndsAs preps
      (match x with
        | .ok (hashes, new) s => .ok (hash :: hashes, l ++ new) s
        | .error e s => .error e s)
      (match y with
        | .error e s => .error e s
        | .ok hashes s => .ok (hash :: hashes) s) := by
  intro h
  unfold EndsAs at h ⊢
  cases x with
  | error e s =>
    obtain ⟨e, s, rfl⟩ := h
    exact ⟨e, s, rfl⟩
  | ok out s =>
    simp only [List.append_assoc] at h ⊢
    cases hins : s.db.plain.insertRows (preps ++ (l ++ out.2)) s.nextSeq s.nextOp with
    | error e =>
      rw [hins] at h
      obtain ⟨e, s, rfl⟩ := h
      exact ⟨e, s, rfl⟩
    | ok t =>
      rw [hins] at h
      obtain ⟨b, rfl, hend⟩ := h
      exact ⟨b, rfl, hend⟩

/-- A grain both skip. -/
theorem EndsAs.skip {preps : List GrainPrep} {seen : List Hash} {g : Grain G}
    {gs : List (Grain G)} {blob : Bytes} {hash : Hash} {a b : DejaDB}
    (hser : C.serializeGrain g = .ok (blob, hash)) (hold : hash ∈ seen ∨ a.has hash = true)
    (hadd : add C g b = .ok hash b)
    (h : EndsAs preps (prepNovel C (hash :: seen) gs a) (addEach C gs b)) :
    EndsAs preps (prepNovel C seen (g :: gs) a) (addEach C (g :: gs) b) := by
  rw [prepNovel_cons, hser]
  simp only
  rw [if_pos hold, addEach_cons, hadd]
  rw [← List.append_nil preps] at h
  exact EndsAs.cons h

/-- A grain both insert. -/
theorem EndsAs.insert {preps : List GrainPrep} {seen : List Hash} {g : Grain G}
    {gs : List (Grain G)} {blob : Bytes} {hash : Hash} {pr : GrainPrep} {a a₁ b b₁ : DejaDB}
    (hser : C.serializeGrain g = .ok (blob, hash)) (hnew : ¬(hash ∈ seen ∨ a.has hash = true))
    (hprep : prepFromBlob C blob hash a = .ok pr a₁) (hadd : add C g b = .ok hash b₁)
    (h : EndsAs (preps ++ [pr]) (prepNovel C (hash :: seen) gs a₁) (addEach C gs b₁)) :
    EndsAs preps (prepNovel C seen (g :: gs) a) (addEach C (g :: gs) b) := by
  rw [prepNovel_cons, hser]
  simp only
  rw [if_neg hnew, hprep, addEach_cons, hadd]
  exact EndsAs.cons h

/-- Both fail where the row of one grain cannot be inserted. -/
theorem EndsAs.refused {preps : List GrainPrep} {seen : List Hash} {g : Grain G}
    {gs : List (Grain G)} {blob : Bytes} {hash : Hash} {pr : GrainPrep} {a a₁ b : DejaDB}
    {e : DejaDbError} (hser : C.serializeGrain g = .ok (blob, hash))
    (hnew : ¬(hash ∈ seen ∨ a.has hash = true))
    (hprep : prepFromBlob C blob hash a = .ok pr a₁)
    (hins : a₁.db.plain.insertRows (preps ++ [pr]) a₁.nextSeq a₁.nextOp = .error e)
    (hadd : Failed (add C g b)) :
    EndsAs preps (prepNovel C seen (g :: gs) a) (addEach C (g :: gs) b) := by
  rw [prepNovel_cons, hser]
  simp only
  rw [if_neg hnew, hprep]
  unfold EndsAs
  simp only
  cases hx : prepNovel C (hash :: seen) gs a₁ with
  | error e s => exact failed_addEach hadd
  | ok out s =>
    have hinterns := (leads_prepNovel (hash :: seen) gs).of_ok hx
    have hall : s.db.plain.insertRows (preps ++ pr :: out.2) s.nextSeq s.nextOp = .error e := by
      rw [show preps ++ pr :: out.2 = (preps ++ [pr]) ++ out.2 by simp, Tables.insertRows_append,
        hinterns.rows, hinterns.counters.1, hinterns.counters.2, hins]
      rfl
    simp only [hall]
    exact failed_addEach hadd

/-- The adds of a list of grains end as the first pass of its batch foretells. -/
theorem Ahead.run (hstamped : Timestamped C) (gs : List (Grain G)) {seen : List Hash}
    {preps : List GrainPrep} {a b : DejaDB} (h : Ahead seen preps a b) :
    EndsAs preps (prepNovel C seen gs a) (addEach C gs b) := by
  induction gs generalizing seen preps a b with
  | nil =>
    unfold EndsAs prepNovel
    simp only [pure_apply, List.append_nil, h.rows]
    exact ⟨b, rfl, rfl, h.agree⟩
  | cons g gs ih =>
    cases hser : C.serializeGrain g with
    | error e =>
      rw [prepNovel_cons, hser]
      refine failed_addEach ⟨e, b, ?_⟩
      unfold add
      rw [bind_apply, addBatch_apply, prepNovel_cons, hser]
    | ok out =>
      obtain ⟨blob, hash⟩ := out
      by_cases hold : hash ∈ seen ∨ a.has hash = true
      · -- a stored grain, or one met before in the batch
        have hadd := add_stored (C := C) (addressOf_eq_some.2 ⟨blob, hser⟩) ((h.held hash).2 hold)
        refine .skip hser hold hadd (ih { h with held := fun x => ?_ })
        rw [h.held, List.mem_cons]
        constructor
        · exact fun hx => hx.imp_left .inr
        · rintro ((rfl | hx) | hx)
          · exact hold
          · exact .inl hx
          · exact .inr hx
      · have hnew : b.has hash = false := by
          rw [← Bool.not_eq_true, h.held]
          exact hold
        have halike := locksteps_prepFromBlob hstamped hser a b h.agree
        cases hprep : prepFromBlob C blob hash a with
        | error e s =>
          rw [hprep] at halike
          rw [prepNovel_cons, hser]
          simp only
          rw [if_neg hold, hprep]
          generalize hprep' : prepFromBlob C blob hash b = y at halike
          cases halike with
          | error e s t => exact failed_addEach (add_unprepared hser hnew hprep')
        | ok pr a₁ =>
          rw [hprep] at halike
          generalize hprep' : prepFromBlob C blob hash b = y at halike
          cases halike with
          | @ok _ _ b₁ hagree =>
            have ha := (leads_prepFromBlob blob hash).of_ok hprep
            have hb := (leads_prepFromBlob blob hash).of_ok hprep'
            obtain ⟨rfl, rfl, -⟩ := prepFromBlob_bytes hprep
            have hins : a₁.db.plain.insertRows (preps ++ [pr]) a₁.nextSeq a₁.nextOp =
                b₁.db.plain.insertRows [pr] b₁.nextSeq b₁.nextOp := by
              rw [Tables.insertRows_append, ha.rows, ha.counters.1, ha.counters.2, h.rows, hb.rows,
                hb.counters.1, hb.counters.2, h.nextSeq, h.nextOp]
              rfl
            have hends := add_ends hser hnew hprep'
            cases hone : b₁.db.plain.insertRows [pr] b₁.nextSeq b₁.nextOp with
            | error e =>
              rw [hone] at hends
              exact .refused hser hold hprep (hins.trans hone) hends
            | ok t =>
              rw [hone] at hends
              obtain ⟨b', hadd, hrows, hagree', hseq, hop⟩ := hends
              refine .insert hser hold hprep hadd (ih ?_)
              refine ⟨hagree.trans hagree', ?_, ?_, ?_, fun x => ?_⟩
              · rw [hins, hone, hrows]
              · rw [hseq, hb.counters.1, ha.counters.1, h.nextSeq, List.length_append]
                simp only [List.length_singleton, Nat.cast_add, Nat.cast_one]
                omega
              · rw [hop, hb.counters.2, ha.counters.2, h.nextOp, List.length_append]
                simp only [List.length_singleton, Nat.cast_add, Nat.cast_one]
                omega
              · have hheld : b'.has x = true ↔ x = pr.hash ∨ b₁.has x = true := by
                  have := hasGrain_insertRows hone x
                  rw [← hrows] at this
                  exact this
                rw [hheld, hb.has, h.held, ha.has, List.mem_cons, or_assoc]

theorem Agree.refl (a : DejaDB) : Agree a a := ⟨rfl, rfl, rfl, rfl, rfl, rfl, rfl, rfl, rfl⟩

theorem Ahead.start (st : DejaDB) : Ahead [] [] st st where
  agree := .refl st
  rows := rfl
  nextSeq := (Int.add_zero _).symm
  nextOp := (Int.add_zero _).symm
  held x := by simp

/-- A batch on a store and the adds of its grains end alike: with one answer and the same
rows, or both with a failure, of the batch with every row of the store as it was. -/
inductive SameEnd (st : DejaDB) : EStateM.Result DejaDbError DejaDB (List Hash) →
    EStateM.Result DejaDbError DejaDB (List Hash) → Prop where
  | ok (hashes : List Hash) {a b : DejaDB} (h : SameRows a.db b.db) :
      SameEnd st (.ok hashes a) (.ok hashes b)
  | error (e e' : DejaDbError) (s s' : DejaDB) (h : s.db.plain = st.db.plain) :
      SameEnd st (.error e s) (.error e' s')

theorem SameEnd.of_failed {st s : DejaDB} {e : DejaDbError}
    {y : EStateM.Result DejaDbError DejaDB (List Hash)} (h : s.db.plain = st.db.plain)
    (hy : Failed y) : SameEnd st (.error e s) y := by
  obtain ⟨e', s', rfl⟩ := hy
  exact .error e e' s s' h

/-- **A batch is the sequence of its adds**: it answers what they answer and leaves
the rows they leave, and where one of them fails it fails and leaves no row. -/
theorem addBatch_is_adds (hstamped : Timestamped C) (st : DejaDB)
    (gs : List (Grain G)) : SameEnd st (addBatch C gs st) (addEach C gs st) := by
  have hends := (Ahead.start st).run hstamped gs
  rw [addBatch_apply]
  unfold EndsAs at hends
  cases hx : prepNovel C [] gs st with
  | error e s =>
    rw [hx] at hends
    exact .of_failed ((leads_prepNovel [] gs).of_error hx).rows hends
  | ok out s =>
    obtain ⟨hashes, preps⟩ := out
    rw [hx] at hends
    simp only [List.nil_append] at hends ⊢
    have hbatch := insertBatch_ends preps s
    cases hins : s.db.plain.insertRows preps s.nextSeq s.nextOp with
    | error e =>
      rw [hins] at hends hbatch
      obtain ⟨e', s', hfail, hrows⟩ := hbatch
      rw [if_neg ?_, hfail]
      · exact .of_failed (hrows.trans ((leads_prepNovel [] gs).of_ok hx).rows) hends
      · intro hempty
        rw [List.isEmpty_iff.1 hempty] at hins
        cases hins
    | ok t =>
      rw [hins] at hends hbatch
      obtain ⟨b, hrun, hrows, hagree⟩ := hends
      rw [hrun]
      split_ifs with hempty
      · rw [List.isEmpty_iff.1 hempty] at hins
        cases hins
        exact .ok hashes ⟨hrows.symm, hagree.terms, hagree.vocab⟩
      · obtain ⟨s', hbrun, hbrows, hbagree, -⟩ := hbatch
        rw [hbrun]
        exact .ok hashes ⟨hbrows.trans hrows.symm, hbagree.terms.symm.trans hagree.terms,
          hbagree.vocab.symm.trans hagree.vocab⟩

/-- The addresses a call answered. -/
def answered (x : EStateM.Result DejaDbError DejaDB (List Hash)) : Option (List Hash) :=
  match x with
  | .ok hashes _ => some hashes
  | .error _ _ => none

/-- The sample codec writes the timestamp of a grain first. -/
theorem sampleCore_timestamped : Timestamped sampleCore := by
  intro g blob hash hser view hview
  unfold Core.deserializeBlob at hview
  split_ifs at hview
  split at hview
  · cases hview
  · split at hview
    · cases hview
    · rename_i fields hdec
      cases hview
      have hfields : ∃ b ps ms, fields = Sample.fieldsOf b ps ms := by
        change Sample.decode _ = _ at hdec
        unfold Sample.decode at hdec
        split at hdec
        · split at hdec
          · cases hdec
          · split at hdec
            · cases hdec
            · exact ⟨_, _, _, (Except.ok.inj hdec).symm⟩
        · cases hdec
      obtain ⟨b, ps, ms, rfl⟩ := hfields
      have hlt : b.created.toNat < 256 := b.created.toNat_lt
      have hint : Json.asI64 (.int (b.created.toNat : ℤ)) = some (b.created.toNat : ℤ) := by
        simp only [Json.asI64]
        rw [if_pos]
        constructor <;> omega
      have hlookup : (Sample.fieldsOf b ps ms).lookup "created_at" =
          some (.int (b.created.toNat : ℤ)) := by
        unfold Sample.fieldsOf
        simp only [List.append_assoc]
        rw [List.singleton_append, List.lookup_cons_self]
      unfold DeserializedGrain.getI64 DeserializedGrain.get
      rw [hlookup, Option.bind_some, hint]
      rfl

/-- Two facts added together and one after the other. -/
theorem addBatch_is_adds_sample : SameEnd sampleStore
    (addBatch sampleCore [sampleFact 1 5 1 2 3, sampleFact 2 6 1 2 4] sampleStore)
    (addEach sampleCore [sampleFact 1 5 1 2 3, sampleFact 2 6 1 2 4] sampleStore) :=
  addBatch_is_adds sampleCore_timestamped sampleStore _

/-- An embedder that takes five characters at most. -/
def shortEmbedder : Embedder := fun text =>
  if text.toList.length ≤ 5 then .ok [] else .error (.storage "text too long")

/-- A file with that embedder. -/
def shortStore : DejaDB := sampleStore.steps sampleCore [.setEmbedder (some shortEmbedder)]

/-- A fact whose text is seven characters long. -/
def longFact : Grain SampleBody := ⟨.fact, none, none, ⟨2, 6, 1, 2, 4, 5, 0⟩⟩

/-- Where the embedder refuses the second grain, the adds keep the first and the
batch keeps none. -/
theorem addBatch_refused_fails :
    ¬ ∀ (st : DejaDB) (gs : List (Grain SampleBody)), Reachable sampleCore st →
      (∀ g ∈ gs, (addressOf sampleCore g).isSome) →
      answered (addBatch sampleCore gs st) = answered (addEach sampleCore gs st) ∧
        SameRows (st.after (addBatch sampleCore gs)).db (st.after (addEach sampleCore gs)).db := by
  intro h
  exact not_sameRows_of_length (by decide +kernel) (by decide +kernel)
    (h shortStore [sampleFact 1 5 1 2 3, longFact] (sampleStore_reachable.steps _)
      (by decide +kernel)).2

end Deja
