import Deja.Spec.Txn

/-!
# What an operation commits

Every operation of the store is a sequence of **commits** with preparation in
between.  A commit is one transaction that went through; what happens between
two of them is **idle**: terms and tokens are interned, counters and the clock
move on, the reader stamp is set.

`Commit C ev a b` says what the transaction `ev` does to the handle.  Invariants
are proved once a commit, and `Spec/Runs` carries them along whole operations.
-/

namespace Deja

open Run

variable {G : Type} {C : Core G}

/-! ## Idle moves -/

/-- `b` is `a` with terms and tokens interned and counters moved on; the rows of
the file are the same. -/
structure Idle (a b : DejaDB) : Prop where
  terms : a.db.terms <+: b.db.terms
  vocab : a.db.ftsVocab <+: b.db.ftsVocab
  file : b.db = { a.db with
    info := { a.db.info with minReaderVersion := b.db.info.minReaderVersion }
    terms := b.db.terms
    ftsVocab := b.db.ftsVocab }
  dict : ∀ x id, a.dict.lookup x = some id → b.dict.lookup x = some id
  nextSeq : a.nextSeq ≤ b.nextSeq
  nextOp : a.nextOp ≤ b.nextOp
  hlcLast : a.hlcLast ≤ b.hlcLast
  rest : b = { a with
    db := b.db
    dict := b.dict
    nextTerm := b.nextTerm
    nextSeq := b.nextSeq
    nextOp := b.nextOp
    hlcLast := b.hlcLast
    ftsVocab := b.ftsVocab
    needsMinReaderStamp := b.needsMinReaderStamp
    tick := b.tick }
  dictOk : DictOk a → DictOk b
  vocabOk : VocabOk a → VocabOk b

namespace Idle

theorem refl (a : DejaDB) : Idle a a where
  terms := List.prefix_refl _
  vocab := List.prefix_refl _
  file := rfl
  dict _ _ h := h
  nextSeq := le_refl _
  nextOp := le_refl _
  hlcLast := le_refl _
  rest := rfl
  dictOk h := h
  vocabOk h := h

theorem trans {a b c : DejaDB} (hab : Idle a b) (hbc : Idle b c) : Idle a c where
  terms := hab.terms.trans hbc.terms
  vocab := hab.vocab.trans hbc.vocab
  file := by rw [hbc.file, hab.file]
  dict x id h := hbc.dict x id (hab.dict x id h)
  nextSeq := hab.nextSeq.trans hbc.nextSeq
  nextOp := hab.nextOp.trans hbc.nextOp
  hlcLast := hab.hlcLast.trans hbc.hlcLast
  rest := by rw [hbc.rest, hab.rest]
  dictOk h := hbc.dictOk (hab.dictOk h)
  vocabOk h := hbc.vocabOk (hab.vocabOk h)

theorem of_interns {a b : DejaDB} (h : Interns a b) : Idle a b where
  terms := h.terms
  vocab := h.vocab
  file := by rw [h.file]
  dict := h.dict
  nextSeq := by rw [h.rest]
  nextOp := by rw [h.rest]
  hlcLast := by rw [h.rest]
  rest := by rw [h.rest]
  dictOk := h.dictOk
  vocabOk := h.vocabOk

/-- Counters move on. -/
theorem of_counters (a : DejaDB) {nextSeq nextOp hlc : ℤ} (hs : a.nextSeq ≤ nextSeq)
    (ho : a.nextOp ≤ nextOp) (hh : a.hlcLast ≤ hlc) (tick : ℕ) :
    Idle a { a with nextSeq := nextSeq, nextOp := nextOp, hlcLast := hlc, tick := tick } where
  terms := List.prefix_refl _
  vocab := List.prefix_refl _
  file := rfl
  dict _ _ h := h
  nextSeq := hs
  nextOp := ho
  hlcLast := hh
  rest := rfl
  dictOk h := ⟨h.keys, h.stored, h.ids, h.strings, h.below⟩
  vocabOk h := ⟨h.stored, h.ids, h.strings⟩

end Idle

/-- The handle with the reader version stamped, if the batch needs it. -/
def DejaDB.stamped (a : DejaDB) (preps : List GrainPrep) : DejaDB := a.after (stampMinReader preps)

theorem stamped_idle (a : DejaDB) (preps : List GrainPrep) : Idle a (a.stamped preps) := by
  unfold DejaDB.stamped DejaDB.after Run.after stampMinReader
  rw [modify_apply]
  simp only
  split_ifs
  · exact ⟨List.prefix_refl _, List.prefix_refl _, rfl, fun _ _ h => h, le_refl _, le_refl _,
      le_refl _, rfl, fun h => ⟨h.keys, h.stored, h.ids, h.strings, h.below⟩,
      fun h => ⟨h.stored, h.ids, h.strings⟩⟩
  · exact .refl a

/-- `b` is `a` with tokens looked up: only the vocabulary cache moved. -/
structure Looks (a b : DejaDB) : Prop where
  rest : b = { a with ftsVocab := b.ftsVocab }
  vocabOk : VocabOk a → VocabOk b

namespace Looks

instance : Std.Refl Looks := ⟨fun _ => ⟨rfl, id⟩⟩

instance : IsTrans DejaDB Looks :=
  ⟨fun _ _ _ hab hbc => ⟨by rw [hbc.rest, hab.rest], fun h => hbc.vocabOk (hab.vocabOk h)⟩⟩

theorem idle {a b : DejaDB} (h : Looks a b) : Idle a b where
  terms := by rw [h.rest]
  vocab := by rw [h.rest]
  file := by rw [h.rest]
  dict x id hx := by
    rw [h.rest]
    exact hx
  nextSeq := by rw [h.rest]
  nextOp := by rw [h.rest]
  hlcLast := by rw [h.rest]
  rest := by rw [h.rest]
  dictOk hok := by
    rw [h.rest]
    exact ⟨hok.keys, hok.stored, hok.ids, hok.strings, hok.below⟩
  vocabOk := h.vocabOk

end Looks

theorem leads_looks_ftsTermLookup (term : String) : Leads Looks (ftsTermLookup term) := by
  intro a
  have hi := leads_ftsTermLookup term a
  unfold after ftsTermLookup at hi ⊢
  cases hc : a.ftsVocab.lookup term with
  | some id => exact refl_of Looks a
  | none =>
    rw [hc] at hi
    cases hv : a.db.vocabId term with
    | some id =>
      simp only [hv] at hi
      exact ⟨rfl, hi.vocabOk⟩
    | none => exact refl_of Looks a

/-! ## Transactions that go through -/

/-- One committed transaction. -/
inductive Event where
  | insert (preps : List GrainPrep)
  | supersede (old : Hash) (pr : GrainPrep)
  | merge (key : Key) (pr : GrainPrep)
  | forget (hash : Hash)
  | erase (seqs : List ℤ)
  | scrub
  | insertBlob (op : OpKind) (pr : GrainPrep)
  | flip (old new : Hash)
  | log (hash : Hash) (hlc : ℤ)
  | defer
  | undefer
  | rebuildText
  | setEmbedder (e : Option Embedder)
  | reopen (explicit : Option DejaDbOptions)

/-- The grains an event inserts. -/
def Event.preps : Event → List GrainPrep
  | .insert preps => preps
  | .supersede _ pr | .merge _ pr | .insertBlob _ pr => [pr]
  | _ => []

/-- `pr` is what the codec writes for `g`. -/
def Written (C : Core G) (g : Grain G) (pr : GrainPrep) : Prop :=
  C.serializeGrain g = .ok (pr.blob, pr.hash)

/-- The handle with a batch added to its statistics. -/
def DejaDB.withStats (a : DejaDB) (preps : List GrainPrep) : DejaDB :=
  { a with
    ftsDocs := a.ftsDocs + (ftsDelta preps).1
    ftsTotalLen := a.ftsTotalLen + (ftsDelta preps).2 }

/-- The handle with erased documents taken off its statistics. -/
def DejaDB.dropped (a : DejaDB) (docs len : ℤ) : DejaDB :=
  { a with
    ftsDocs := max (a.ftsDocs - docs) 0
    ftsTotalLen := max (a.ftsTotalLen - len) 0 }

/-- The handle with one forgotten document taken off, if it was indexed. -/
def DejaDB.droppedDoc (a : DejaDB) : Option ℤ → DejaDB
  | some len => a.dropped 1 len
  | none => a

@[simp] theorem DejaDB.droppedDoc_db (a : DejaDB) (len : Option ℤ) :
    (a.droppedDoc len).db = a.db := by
  cases len <;> rfl

/-- The handle after a transaction that left `t` and used up `seqs` sequence and
`ops` op numbers. -/
def DejaDB.committed (a : DejaDB) (t : Tables) (seqs ops : ℤ) (hlc : ℤ) (tick : ℕ) : DejaDB :=
  { a with
    db := t
    nextSeq := a.nextSeq + seqs
    nextOp := a.nextOp + ops
    hlcLast := hlc
    tick := tick }

/-- The handle after the terms in `gone` were evicted, and the vocabulary cache
too where `clear` says so. -/
def DejaDB.evicted (a : DejaDB) (gone : List ℤ) (clear : Bool) : DejaDB :=
  { a with
    dict := a.dict.filter fun x => x.2 ∉ gone
    ftsVocab := if clear then [] else a.ftsVocab }

/-- The clock value the handle allocates next. -/
def DejaDB.nextHlcValue (a : DejaDB) : ℤ := advanceHlc a.hlcLast (a.clock a.tick)

/-- `Commit C ev a b`: the transaction `ev` went through on `a` and left `b`. -/
inductive Commit (C : Core G) : Event → DejaDB → DejaDB → Prop where
  | insert {a : DejaDB} {preps : List GrainPrep} {t : Tables} {tick : ℕ}
      (prepared : ∀ pr ∈ preps, (∃ g, Written C g pr) ∧ ∃ view, Prepared C a view pr)
      (txn : a.db.insertPrepped preps a.nextSeq a.nextOp a.nextHlcValue = .ok t) :
      Commit C (.insert preps) a
        ((a.committed t preps.length preps.length
          (a.nextHlcValue + preps.length - 1) tick).withStats preps)
  | supersede {a : DejaDB} {old : Hash} {pr : GrainPrep} {row : GrainRow} {t : Tables}
      {now wall : ℤ} {tick : ℕ} {g : Grain G} {view : DeserializedGrain}
      (written : Written C { g with derivedFrom := some old.toHex } pr)
      (prepared : Prepared C a view pr) (found : a.db.grainByHash old = some row)
      (txn : a.db.supersedeTxn old row.key pr ⟨a.nextSeq, a.nextOp, a.nextHlcValue, a.nextOp + 1,
        advanceHlc a.nextHlcValue wall, now⟩ = .ok t) :
      Commit C (.supersede old pr) a
        ((a.committed t 1 2 (advanceHlc a.nextHlcValue wall) tick).withStats [pr])
  | merge {a : DejaDB} {k : Key} {pr : GrainPrep} {t : Tables} {first second : Hash}
      {rest : List Hash} {now wall : ℤ} {tick : ℕ} {g : Grain G} {view : DeserializedGrain}
      (written : Written C { g with
        derivedFrom := some first.toHex
        context := some (mergeContext g.context (first :: second :: rest)) } pr)
      (prepared : Prepared C a view pr)
      (tips : (a.db.headsOf k).map HeadRow.hash = first :: second :: rest)
      (txn : a.db.mergeTxn (first :: second :: rest) pr ⟨a.nextSeq, a.nextOp, a.nextHlcValue,
        a.nextOp + 1, advanceHlc a.nextHlcValue wall, now⟩ = .ok t) :
      Commit C (.merge k pr) a
        ((a.committed t 1 2 (advanceHlc a.nextHlcValue wall) tick).withStats [pr])
  | forget {a : DejaDB} {hash : Hash} {row : GrainRow} {t : Tables} {len : Option ℤ} {tick : ℕ}
      (found : a.db.grainByHash hash = some row)
      (txn : a.db.forgetTxn hash row.key a.nextOp a.nextHlcValue = .ok (len, t)) :
      Commit C (.forget hash) a ((a.committed t 0 1 a.nextHlcValue tick).droppedDoc len)
  | erase {a : DejaDB} {seqs ids : List ℤ} {out : EraseOut} {t : Tables} {tick : ℕ}
      (txn : a.db.eraseTxn seqs ids a.nextOp a.nextHlcValue = .ok (out, t)) :
      Commit C (.erase seqs) a
        (((a.committed t 0 seqs.length (a.nextHlcValue + seqs.length - 1) tick).dropped out.docs
          out.lenSum).evicted out.scrubbed (0 < out.report.vocabRemoved))
  | scrub {a : DejaDB} {ids gone : List ℤ} {t : Tables}
      (txn : a.db.scrubTerms ids = .ok (gone, t)) :
      Commit C .scrub a ((({ a with db := t } : DejaDB).dropped 0 0).evicted gone false)
  | insertBlob {a : DejaDB} {pr : GrainPrep} {view : DeserializedGrain} {op : OpKind} {t : Tables}
      {hlc : ℤ} (prepared : Prepared C a view pr)
      (txn : a.db.insertBlobTxn pr a.nextSeq a.nextOp hlc op = .ok t) :
      Commit C (.insertBlob op pr) a (a.committed t 1 1 (max a.hlcLast hlc) a.tick)
  | flip {a : DejaDB} {old new : Hash} {now : ℤ} {tick : ℕ} :
      Commit C (.flip old new) a { a with db := (a.db.flipTxn old new now).2, tick := tick }
  | log {a : DejaDB} {hash : Hash} {hlc : ℤ} {t : Tables}
      (txn : a.db.insertOp ⟨a.nextOp, hlc, .supersede, hash⟩ = .ok t) :
      Commit C (.log hash hlc) a (a.committed t 0 1 a.hlcLast a.tick)
  | defer {a : DejaDB} (on : a.indexText) : Commit C .defer a { a with ftsDeferred := true }
  | undefer {a : DejaDB} : Commit C .undefer a { a with ftsDeferred := false }
  | rebuildText {a b : DejaDB} {n : ℕ} {docs len : ℤ} (on : a.indexText)
      (inline : a.ftsDeferred = false)
      (txn : rebuildTextBody C a = .ok (n, docs, len) b) :
      Commit C .rebuildText a { b with ftsDocs := docs, ftsTotalLen := len }
  | setEmbedder {a : DejaDB} {e : Option Embedder} :
      Commit C (.setEmbedder e) a { a with embedder := e }
  | reopen {a : DejaDB} {explicit : Option DejaDbOptions} {clock : ℕ → ℤ} :
      Commit C (.reopen explicit) a (freshHandle explicit clock a.db)

/-- Inserted grains are prepared. -/
theorem Commit.prepared {ev : Event} {a b : DejaDB} (h : Commit C ev a b) :
    ∀ pr ∈ ev.preps, ∃ view, Prepared C a view pr := by
  intro pr hpr
  cases h with
  | insert prepared txn => exact (prepared pr hpr).2
  | supersede written prepared found txn =>
    rw [List.mem_singleton.1 hpr]
    exact ⟨_, prepared⟩
  | merge written prepared tips txn =>
    rw [List.mem_singleton.1 hpr]
    exact ⟨_, prepared⟩
  | insertBlob prepared txn =>
    rw [List.mem_singleton.1 hpr]
    exact ⟨_, prepared⟩
  | forget | erase | scrub | flip | log | defer | undefer | rebuildText | setEmbedder | reopen =>
    exact nomatch hpr

/-! ## Counters -/

theorem lt_nextHlcValue (a : DejaDB) : a.hlcLast < a.nextHlcValue := lt_advanceHlc _ _

theorem nextHlc_apply (a : DejaDB) : nextHlc a =
    .ok a.nextHlcValue { a with hlcLast := a.nextHlcValue, tick := a.tick + 1 } :=
  rfl

theorem reserveOp_apply (a : DejaDB) : reserveOp a = .ok (a.nextOp, a.nextHlcValue)
    { a with nextOp := a.nextOp + 1, hlcLast := a.nextHlcValue, tick := a.tick + 1 } :=
  rfl

theorem reserveFor_apply (n : ℕ) (a : DejaDB) : reserveFor n a =
    .ok (a.nextSeq, a.nextOp, a.nextHlcValue) { a with
      nextSeq := a.nextSeq + n
      nextOp := a.nextOp + n
      hlcLast := a.nextHlcValue + n - 1
      tick := a.tick + 1 } :=
  rfl

theorem reserveTombstones_apply (n : ℕ) (a : DejaDB) : reserveTombstones n a =
    .ok (a.nextOp, a.nextHlcValue) { a with
      nextOp := a.nextOp + n
      hlcLast := a.nextHlcValue + n - 1
      tick := a.tick + 1 } :=
  rfl

/-- A block of clock values ends past the last one. -/
theorem hlcLast_le_block (a : DejaDB) (n : ℕ) : a.hlcLast ≤ a.nextHlcValue + n - 1 := by
  have hlt := lt_nextHlcValue a
  omega

/-- Stamping does not look at the clock. -/
theorem stamped_nextHlcValue (a : DejaDB) (preps : List GrainPrep) :
    (a.stamped preps).nextHlcValue = a.nextHlcValue := by
  unfold DejaDB.stamped DejaDB.after Run.after stampMinReader
  rw [modify_apply]
  simp only
  split_ifs <;> rfl

theorem stamped_hlcLast (a : DejaDB) (preps : List GrainPrep) :
    (a.stamped preps).hlcLast = a.hlcLast := by
  unfold DejaDB.stamped DejaDB.after Run.after stampMinReader
  rw [modify_apply]
  simp only
  split_ifs <;> rfl

theorem withTxn_ok {α : Type} {body : Tables → Except DejaDbError (α × Tables)} {a b : DejaDB}
    {x : α} (h : withTxn body a = .ok x b) :
    ∃ t, body a.db = .ok (x, t) ∧ b = { a with db := t } := by
  unfold withTxn at h
  cases hbody : body a.db with
  | error e =>
    rw [hbody] at h
    cases h
  | ok out =>
    rw [hbody] at h
    cases h
    exact ⟨out.2, rfl, rfl⟩

/-- A transaction that failed left the handle as it was. -/
theorem withTxn_error {α : Type} {body : Tables → Except DejaDbError (α × Tables)} {a b : DejaDB}
    {e : DejaDbError} (h : withTxn body a = .error e b) : b = a := by
  unfold withTxn at h
  cases hbody : body a.db with
  | ok out =>
    rw [hbody] at h
    cases h
  | error e =>
    rw [hbody] at h
    cases h
    rfl

theorem bumpStats_apply (preps : List GrainPrep) (a : DejaDB) :
    bumpStats preps a = .ok ⟨⟩ (a.withStats preps) := rfl

theorem dropStats_apply (docs len : ℤ) (a : DejaDB) :
    dropStats docs len a = .ok ⟨⟩ (a.dropped docs len) := rfl

theorem stampMinReader_apply (preps : List GrainPrep) (a : DejaDB) :
    stampMinReader preps a = .ok ⟨⟩ (a.stamped preps) := rfl

theorem flipClock_apply (old : Hash) (a : DejaDB) :
    ∃ now tick, flipClock old a = .ok now { a with tick := tick } := by
  unfold flipClock nowMs
  cases a.db.grainByHash old with
  | none => exact ⟨0, a.tick, rfl⟩
  | some row =>
    by_cases hsvt : row.svt.isSome
    · exact ⟨0, a.tick, by simp [hsvt]⟩
    · exact ⟨a.clock a.tick, a.tick + 1, by simp [hsvt]⟩

/-- A flip never fails, and it is one transaction. -/
theorem applySupersedeFlip_apply (old new : Hash) (a : DejaDB) :
    ∃ now tick, applySupersedeFlip old new a = .ok (a.db.flipTxn old new now).1
      { a with db := (a.db.flipTxn old new now).2, tick := tick } := by
  obtain ⟨now, tick, hclock⟩ := flipClock_apply old a
  refine ⟨now, tick, ?_⟩
  rw [applySupersedeFlip, bind_apply, hclock]
  rfl

/-- Stamping does not look at the counters. -/
theorem stamped_counters (a : DejaDB) (preps : List GrainPrep) (nextSeq nextOp hlc : ℤ)
    (tick : ℕ) :
    DejaDB.stamped { a with nextSeq := nextSeq, nextOp := nextOp, hlcLast := hlc, tick := tick }
        preps =
      { a.stamped preps with
        nextSeq := nextSeq, nextOp := nextOp, hlcLast := hlc, tick := tick } := by
  unfold DejaDB.stamped DejaDB.after Run.after stampMinReader
  simp only [modify_apply]
  split_ifs <;> rfl

end Deja
