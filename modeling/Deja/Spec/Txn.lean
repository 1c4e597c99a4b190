import Deja.Spec.Prep
import Deja.Store.Index

/-!
# What a transaction body does

Inversion lemmas for the bodies that run inside a transaction: a body that
answered `.ok` found every key free and left exactly these tables.  Later proofs
read these and never unfold a body.

The statements that move heads touch `heads` and `entity_latest` only; the frame
lemmas of the first section say so once for each.
-/

namespace Deja

namespace Tables

variable {t t' : Tables}

/-! ## Frames -/

/-- Two files that differ in `heads` and `entity_latest` only. -/
def SameButHeads (t t' : Tables) : Prop :=
  t' = { t with heads := t'.heads, entityLatest := t'.entityLatest }

theorem SameButHeads.refl (t : Tables) : SameButHeads t t := rfl

theorem SameButHeads.trans {a b c : Tables} (hab : SameButHeads a b) (hbc : SameButHeads b c) :
    SameButHeads a c := by
  unfold SameButHeads at hab hbc ⊢
  rw [hbc, hab]

theorem SameButHeads.grains (h : SameButHeads t t') : t'.grains = t.grains := by rw [h]

theorem SameButHeads.info (h : SameButHeads t t') : t'.info = t.info := by rw [h]

theorem SameButHeads.ftsVocab (h : SameButHeads t t') : t'.ftsVocab = t.ftsVocab := by rw [h]

theorem SameButHeads.oplog (h : SameButHeads t t') : t'.oplog = t.oplog := by rw [h]

theorem SameButHeads.terms (h : SameButHeads t t') : t'.terms = t.terms := by rw [h]

theorem putLatest_frame (t : Tables) (e : LatestRow) : SameButHeads t (t.putLatest e) := rfl

theorem putHead_frame (t : Tables) (h : HeadRow) : SameButHeads t (t.putHead h) := rfl

theorem deleteHead_frame (t : Tables) (k : Key) (seq : ℤ) : SameButHeads t (t.deleteHead k seq) :=
  rfl

theorem deleteLatest_frame (t : Tables) (k : Key) (seqs : List ℤ) :
    SameButHeads t (t.deleteLatest k seqs) := rfl

theorem reelect_frame (t : Tables) (k : Key) : SameButHeads t (t.reelect k) := by
  unfold reelect
  cases t.elect k with
  | none => exact .refl t
  | some x => exact putLatest_frame t _

theorem retireTip_frame (t : Tables) (k : Option Key) (seq : ℤ) :
    SameButHeads t (t.retireTip k seq) := by
  cases k with
  | none => exact .refl t
  | some k =>
    exact ((deleteHead_frame t k seq).trans (deleteLatest_frame _ k [seq])).trans
      (reelect_frame _ k)

theorem registerTip_frame (t : Tables) (h : HeadRow) (o : ℤ) :
    SameButHeads t (t.registerTip h o) := by
  unfold registerTip
  simp only
  split_ifs
  · exact (putHead_frame t h).trans (putLatest_frame _ _)
  · exact putHead_frame t h

/-- Registering a tip reads the two head tables only. -/
theorem registerTip_congr {a b : Tables} (hh : a.heads = b.heads)
    (he : a.entityLatest = b.entityLatest) (h : HeadRow) (o : ℤ) :
    (a.registerTip h o).heads = (b.registerTip h o).heads ∧
      (a.registerTip h o).entityLatest = (b.registerTip h o).entityLatest := by
  have hrank : (a.putHead h).latestRank h.key = (b.putHead h).latestRank h.key := by
    simp only [latestRank, putHead, hh, he]
  unfold registerTip
  simp only [hrank]
  split_ifs
  · exact ⟨by simp only [putLatest, putHead, hh], by simp only [putLatest, putHead, he]⟩
  · exact ⟨by simp only [putHead, hh], by simp only [putHead, he]⟩

theorem unionHeads_frame (t : Tables) (pr : GrainPrep) (seq : ℤ) :
    SameButHeads t (t.unionHeads pr seq) := by
  unfold unionHeads
  cases pr.spo with
  | none => exact .refl t
  | some x => exact registerTip_frame t _ _

theorem reconcile_frame (t : Tables) (seqs : List ℤ) (keys : List Key) :
    SameButHeads t (t.reconcile seqs keys) := by
  unfold reconcile
  induction keys generalizing t with
  | nil => exact .refl t
  | cons k keys ih =>
    exact ((deleteLatest_frame t k seqs).trans (reelect_frame _ k)).trans (ih _)

theorem registerFork_frame (t : Tables) (new : Hash) : SameButHeads t (t.registerFork new).2 := by
  unfold registerFork
  cases t.grainByHash new with
  | none => exact .refl t
  | some g => exact registerTip_frame t _ _

/-! ## Rows an insert leaves -/

/-- `t'` is `t` with the rows of one insert, its heads and its op-log aside. -/
structure Inserts (t : Tables) (pr : GrainPrep) (seq : ℤ) (t' : Tables) : Prop where
  grains : t'.grains = t.grains ++ [pr.grainRow seq]
  triples : t'.triples = t.triples ++ pr.tripleRows seq
  osp : t'.osp = t.osp ++ pr.ospRows seq
  threadIdx : t'.threadIdx = t.threadIdx ++ pr.threadRows seq
  runIdx : t'.runIdx = t.runIdx ++ pr.runRows seq
  corpusIdx : t'.corpusIdx = t.corpusIdx ++ pr.corpusRows seq
  provIdx : t'.provIdx = t.provIdx ++ pr.provRows seq
  info : t'.info = t.info
  terms : t'.terms = t.terms
  ftsVocab : t'.ftsVocab = t.ftsVocab
  freshSeq : ∀ g ∈ t.grains, g.seq ≠ seq
  freshHash : t.grainByHash pr.hash = none

theorem insertGrain_ok {g : GrainRow} (h : t.insertGrain g = .ok t') :
    t' = { t with grains := t.grains ++ [g] } ∧ (∀ x ∈ t.grains, x.seq ≠ g.seq) ∧
      t.grainByHash g.hash = none := by
  unfold insertGrain at h
  split_ifs at h with hseq hhash
  cases h
  refine ⟨rfl, fun x hx heq => hseq (List.any_eq_true.2 ⟨x, hx, by simpa using heq⟩), ?_⟩
  rw [← hasGrain_eq_false_iff]
  simpa using hhash

theorem insertOp_ok {r : OpRow} (h : t.insertOp r = .ok t') :
    t' = { t with oplog := t.oplog ++ [r] } ∧ ∀ x ∈ t.oplog, x.opSeq ≠ r.opSeq := by
  unfold insertOp at h
  split_ifs at h with hop
  cases h
  exact ⟨rfl, fun x hx heq => hop (List.any_eq_true.2 ⟨x, hx, by simpa using heq⟩)⟩

theorem insertIndexRows_ok {pr : GrainPrep} {seq : ℤ} (h : t.insertIndexRows pr seq = .ok t') :
    t' = { t with
      triples := t.triples ++ pr.tripleRows seq
      osp := t.osp ++ pr.ospRows seq
      threadIdx := t.threadIdx ++ pr.threadRows seq
      runIdx := t.runIdx ++ pr.runRows seq
      corpusIdx := t.corpusIdx ++ pr.corpusRows seq
      provIdx := t.provIdx ++ pr.provRows seq
      embeddings := t.embeddings ++ pr.embeddingRows seq } := by
  unfold insertIndexRows at h
  split_ifs at h
  cases h
  rfl

end Tables

namespace Tables

variable {t t' : Tables} {pr : GrainPrep} {seq op hlc : ℤ}

/-- **One local insert.**  The index rows, the collapsed heads, the BM25 rows and
the `ADD` record. -/
theorem insertPreppedOne_ok (h : t.insertPreppedOne pr seq op hlc = .ok t') :
    t.Inserts pr seq t' ∧ t'.heads = (t.collapseHeads pr seq).heads ∧
      t'.entityLatest = (t.collapseHeads pr seq).entityLatest ∧
      t'.ftsPost = (t.insertPostings pr seq).ftsPost ∧
      t'.ftsDoc = (t.insertPostings pr seq).ftsDoc ∧
      t'.oplog = t.oplog ++ [⟨op, hlc, .add, pr.hash⟩] ∧ ∀ x ∈ t.oplog, x.opSeq ≠ op := by
  obtain ⟨t₁, hgrain, h₁⟩ := except_bind_ok h
  obtain ⟨t₂, hrows, h₂⟩ := except_bind_ok h₁
  obtain ⟨rfl, hseq, hhash⟩ := insertGrain_ok hgrain
  obtain ⟨rfl, hop⟩ := insertOp_ok h₂
  rw [insertIndexRows_ok hrows] at hop ⊢
  revert hop
  unfold insertPostings collapseHeads
  cases pr.spo with
  | none =>
    split_ifs
    · exact fun hop => ⟨⟨rfl, rfl, rfl, rfl, rfl, rfl, rfl, rfl, rfl, rfl, hseq, hhash⟩,
        rfl, rfl, rfl, rfl, rfl, hop⟩
    · exact fun hop => ⟨⟨rfl, rfl, rfl, rfl, rfl, rfl, rfl, rfl, rfl, rfl, hseq, hhash⟩,
        rfl, rfl, rfl, rfl, rfl, hop⟩
  | some x =>
    split_ifs
    · exact fun hop => ⟨⟨rfl, rfl, rfl, rfl, rfl, rfl, rfl, rfl, rfl, rfl, hseq, hhash⟩,
        rfl, rfl, rfl, rfl, rfl, hop⟩
    · exact fun hop => ⟨⟨rfl, rfl, rfl, rfl, rfl, rfl, rfl, rfl, rfl, rfl, hseq, hhash⟩,
        rfl, rfl, rfl, rfl, rfl, hop⟩

/-- An insert that the probe may skip: the value was there, or it was inserted. -/
theorem addIfNovelTxn_ok {existing : Option Hash}
    (h : t.addIfNovelTxn pr seq op hlc = .ok (existing, t')) :
    (existing.isSome ∧ t' = t) ∨
      (existing = none ∧ t.insertPrepped [pr] seq op hlc = .ok t') := by
  unfold addIfNovelTxn at h
  simp only at h
  split at h
  · cases h
    exact .inl ⟨rfl, rfl⟩
  · cases hins : t.insertPreppedOne pr seq op hlc with
    | error e =>
      rw [hins] at h
      cases h
    | ok t₁ =>
      rw [hins] at h
      cases h
      exact .inr ⟨rfl, by rw [insertPrepped, hins]; rfl⟩

/-- A list of local inserts leaves the declarations and the dictionaries alone. -/
theorem insertPrepped_dicts {preps : List GrainPrep}
    (h : t.insertPrepped preps seq op hlc = .ok t') :
    t'.info = t.info ∧ t'.terms = t.terms ∧ t'.ftsVocab = t.ftsVocab := by
  induction preps generalizing t seq op hlc with
  | nil =>
    cases h
    exact ⟨rfl, rfl, rfl⟩
  | cons pr preps ih =>
    obtain ⟨t₁, hone, hrest⟩ := except_bind_ok h
    obtain ⟨hins, -⟩ := insertPreppedOne_ok hone
    obtain ⟨hinfo, hterms, hvocab⟩ := ih hrest
    exact ⟨hinfo.trans hins.info, hterms.trans hins.terms, hvocab.trans hins.ftsVocab⟩

/-- **One imported insert.**  The index rows, the grain beside the other tips of
its key, the record under its own op, and no BM25 row. -/
theorem insertBlobTxn_ok {kind : OpKind} (h : t.insertBlobTxn pr seq op hlc kind = .ok t') :
    t.Inserts pr seq t' ∧ t'.heads = (t.unionHeads pr seq).heads ∧
      t'.entityLatest = (t.unionHeads pr seq).entityLatest ∧
      t'.ftsPost = t.ftsPost ∧ t'.ftsDoc = t.ftsDoc ∧
      t'.oplog = t.oplog ++ [⟨op, hlc, kind, pr.hash⟩] ∧ ∀ x ∈ t.oplog, x.opSeq ≠ op := by
  obtain ⟨t₁, hgrain, h₁⟩ := except_bind_ok h
  obtain ⟨t₂, hrows, h₂⟩ := except_bind_ok h₁
  obtain ⟨rfl, hseq, hhash⟩ := insertGrain_ok hgrain
  obtain ⟨rfl, hop⟩ := insertOp_ok h₂
  rw [insertIndexRows_ok hrows] at hop ⊢
  have hframe := unionHeads_frame { t with grains := t.grains ++ [pr.grainRow seq] } pr seq
  have hsame : ({ t with grains := t.grains ++ [pr.grainRow seq] }.unionHeads pr seq).heads =
        (t.unionHeads pr seq).heads ∧
      ({ t with grains := t.grains ++ [pr.grainRow seq] }.unionHeads pr seq).entityLatest =
        (t.unionHeads pr seq).entityLatest := by
    unfold unionHeads
    cases pr.spo with
    | none => exact ⟨rfl, rfl⟩
    | some x =>
      exact registerTip_congr (a := { t with grains := t.grains ++ [pr.grainRow seq] }) (b := t)
        rfl rfl _ _
  unfold SameButHeads at hframe
  rw [hsame.1, hsame.2] at hframe
  rw [hframe] at hop ⊢
  exact ⟨⟨rfl, rfl, rfl, rfl, rfl, rfl, rfl, rfl, rfl, rfl, hseq, hhash⟩,
    rfl, rfl, rfl, rfl, rfl, hop⟩

/-- The rows of a supersession between its insert and its head update: the old
row flipped, the new one pointing back. -/
def flipped (t : Tables) (seq : ℤ) (old new : Hash) (now : ℤ) : Tables :=
  ((t.markSuperseded seq new now).markSupersedes new old).clearCur seq

/-- **A supersession.**  The old grain was current; the new one was inserted, the
old row flipped, its key reconciled and the closing record written. -/
theorem supersedeTxn_ok {old : Hash} {row : GrainRow} {key : Option Key} {n : Slots}
    (found : t.grainByHash old = some row) (h : t.supersedeTxn old key pr n = .ok t') :
    row.svt = none ∧ ∃ t₁, t.insertPreppedOne pr n.seq n.op n.hlc = .ok t₁ ∧
      t' = { (t₁.flipped row.seq old pr.hash n.now).retireTip key row.seq with
        oplog := t₁.oplog ++ [⟨n.opClose, n.hlcClose, .supersede, pr.hash⟩] } := by
  unfold supersedeTxn at h
  rw [found] at h
  simp only at h
  split_ifs at h with hsvt
  obtain ⟨t₁, hins, h₁⟩ := except_bind_ok h
  obtain ⟨ht', -⟩ := insertOp_ok h₁
  refine ⟨by simpa using hsvt, t₁, hins, ?_⟩
  rw [ht', flipped, retireTip_frame (((t₁.markSuperseded row.seq pr.hash n.now).markSupersedes
    pr.hash old).clearCur row.seq) key row.seq]
  rfl

theorem closeTip_frame (t : Tables) (tip merge : Hash) (now : ℤ) :
    t.closeTip tip merge now = { t with
      grains := (t.closeTip tip merge now).grains
      triples := (t.closeTip tip merge now).triples
      osp := (t.closeTip tip merge now).osp } := by
  unfold closeTip
  cases t.grainByHash tip with
  | none => rfl
  | some g => simp only; split_ifs <;> rfl

theorem closeTips_frame (t : Tables) (tips : List Hash) (merge : Hash) (now : ℤ) :
    tips.foldl (fun t tip => t.closeTip tip merge now) t = { t with
      grains := (tips.foldl (fun t tip => t.closeTip tip merge now) t).grains
      triples := (tips.foldl (fun t tip => t.closeTip tip merge now) t).triples
      osp := (tips.foldl (fun t tip => t.closeTip tip merge now) t).osp } := by
  induction tips generalizing t with
  | nil => rfl
  | cons tip tips ih =>
    rw [List.foldl_cons, ih, closeTip_frame t tip merge now]

/-- **A merge.**  The merge grain was inserted, every tip closed, and the closing
record written. -/
theorem mergeTxn_ok {tips : List Hash} {n : Slots} (h : t.mergeTxn tips pr n = .ok t') :
    ∃ t₁, t.insertPreppedOne pr n.seq n.op n.hlc = .ok t₁ ∧
      t' = { tips.foldl (fun t tip => t.closeTip tip pr.hash n.now) t₁ with
        oplog := t₁.oplog ++ [⟨n.opClose, n.hlcClose, .supersede, pr.hash⟩] } := by
  obtain ⟨t₁, hins, h₁⟩ := except_bind_ok h
  obtain ⟨ht', -⟩ := insertOp_ok h₁
  refine ⟨t₁, hins, ?_⟩
  rw [ht', closeTips_frame t₁ tips pr.hash n.now]

/-- **A forget.**  Every row of the grain is gone, its key is reconciled and the
tombstone written. -/
theorem forgetTxn_ok {hash : Hash} {row : GrainRow} {key : Option Key} {len : Option ℤ}
    (found : t.grainByHash hash = some row) (h : t.forgetTxn hash key op hlc = .ok (len, t')) :
    len = (t.ftsDoc.find? fun d => d.seq = row.seq).map DocRow.len ∧
      t' = { (t.deleteSeq row.seq).retireTip key row.seq with
        oplog := t.oplog ++ [⟨op, hlc, .forget, hash⟩] } := by
  unfold forgetTxn at h
  rw [found] at h
  obtain ⟨t₁, hop, h₁⟩ := except_bind_ok h
  obtain ⟨ht₁, -⟩ := insertOp_ok hop
  cases h₁
  refine ⟨rfl, ?_⟩
  rw [ht₁, retireTip_frame (t.deleteSeq row.seq) key row.seq]
  rfl

/-- A forget of a stored grain can only fail on its tombstone. -/
theorem forgetTxn_error {hash : Hash} {row : GrainRow} {key : Option Key} {e : DejaDbError}
    (found : t.grainByHash hash = some row) (h : t.forgetTxn hash key op hlc = .error e) :
    e = .storage "UNIQUE constraint failed: oplog.op_seq" := by
  unfold forgetTxn at h
  rw [found] at h
  simp only [insertOp] at h
  split_ifs at h
  · cases h
    rfl
  · cases h

/-! ## Bulk erasure -/

/-- `t'` is `t` without the rows of the grains at `seqs`, its head tables, op-log
and dictionaries aside. -/
structure Erases (t : Tables) (seqs : List ℤ) (t' : Tables) : Prop where
  grains : t'.grains = t.grains.filter fun r => r.seq ∉ seqs
  triples : t'.triples = t.triples.filter fun r => r.seq ∉ seqs
  osp : t'.osp = t.osp.filter fun r => r.seq ∉ seqs
  threadIdx : t'.threadIdx = t.threadIdx.filter fun r => r.seq ∉ seqs
  runIdx : t'.runIdx = t.runIdx.filter fun r => r.seq ∉ seqs
  corpusIdx : t'.corpusIdx = t.corpusIdx.filter fun r => r ∉ seqs
  provIdx : t'.provIdx = t.provIdx.filter fun r => r.seq ∉ seqs
  ftsPost : t'.ftsPost = t.ftsPost.filter fun r => r.seq ∉ seqs
  ftsDoc : t'.ftsDoc = t.ftsDoc.filter fun r => r.seq ∉ seqs
  info : t'.info = t.info

/-- The tombstones of a list of grains. -/
def tombstones : List GrainRow → ℤ → ℤ → List OpRow
  | [], _, _ => []
  | g :: gs, op, hlc => ⟨op, hlc, .forget, g.hash⟩ :: tombstones gs (op + 1) (hlc + 1)

theorem filter_notMem_cons {α : Type} (l : List α) (f : α → ℤ) (x : ℤ) (xs : List ℤ) :
    (l.filter fun r => f r ≠ x).filter (fun r => f r ∉ xs) =
      l.filter fun r => f r ∉ x :: xs := by
  rw [List.filter_filter]
  congr 1
  funext r
  simp [List.mem_cons, not_or, Bool.and_comm]

theorem eraseTargets_ok {targets : List GrainRow} (h : t.eraseTargets targets op hlc = .ok t') :
    t.Erases (targets.map GrainRow.seq) t' ∧
      t'.heads = (t.heads.filter fun x =>
        ¬∃ g ∈ targets, g.key = some x.key ∧ g.seq = x.seq) ∧
      t'.entityLatest = t.entityLatest ∧ t'.oplog = t.oplog ++ tombstones targets op hlc ∧
      t'.terms = t.terms ∧ t'.ftsVocab = t.ftsVocab := by
  induction targets generalizing t op hlc with
  | nil =>
    cases h
    refine ⟨⟨?_, ?_, ?_, ?_, ?_, ?_, ?_, ?_, ?_, rfl⟩, ?_, rfl, ?_, rfl, rfl⟩ <;> simp [tombstones]
  | cons g gs ih =>
    unfold eraseTargets at h
    obtain ⟨t₁, hop, h₁⟩ := except_bind_ok h
    obtain ⟨ht₁, -⟩ := insertOp_ok hop
    obtain ⟨he, hheads, hlatest, hlog, hterms, hvocab⟩ := ih h₁
    have hdel : t₁ = { t.deleteSeq g.seq with
        heads := t.heads.filter fun x => ¬(g.key = some x.key ∧ g.seq = x.seq)
        oplog := t.oplog ++ [⟨op, hlc, .forget, g.hash⟩] } := by
      rw [ht₁]
      cases hkey : g.key with
      | none => simp [deleteSeq]
      | some k =>
        simp only [deleteHead, deleteSeq, Option.some.injEq]
        congr 1
        refine List.filter_congr fun x _ => ?_
        exact decide_eq_decide.2 (by rw [eq_comm (a := x.key), eq_comm (a := x.seq)])
    subst hdel
    refine ⟨⟨?_, ?_, ?_, ?_, ?_, ?_, ?_, ?_, ?_, he.info⟩, ?_, hlatest, ?_, hterms, hvocab⟩
    · rw [he.grains]
      exact filter_notMem_cons t.grains GrainRow.seq _ _
    · rw [he.triples]
      exact filter_notMem_cons t.triples TripleRow.seq _ _
    · rw [he.osp]
      exact filter_notMem_cons t.osp OspRow.seq _ _
    · rw [he.threadIdx]
      exact filter_notMem_cons t.threadIdx ThreadRow.seq _ _
    · rw [he.runIdx]
      exact filter_notMem_cons t.runIdx RunRow.seq _ _
    · rw [he.corpusIdx]
      exact filter_notMem_cons t.corpusIdx id _ _
    · rw [he.provIdx]
      exact filter_notMem_cons t.provIdx ProvRow.seq _ _
    · rw [he.ftsPost]
      exact filter_notMem_cons t.ftsPost PostRow.seq _ _
    · rw [he.ftsDoc]
      exact filter_notMem_cons t.ftsDoc DocRow.seq _ _
    · rw [hheads, List.filter_filter]
      refine List.filter_congr fun x _ => ?_
      simp only [List.mem_cons, exists_eq_or_imp, not_or, ← Bool.decide_and]
      exact decide_eq_decide.2 and_comm
    · rw [hlog, tombstones]
      simp

/-- Replace the strings of the terms in `gone`. -/
def scrubRow (gone : List ℤ) (r : TermRow) : TermRow :=
  if r.id ∈ gone then { r with term := erasedTerm r.id } else r

@[simp] theorem scrubRow_id (gone : List ℤ) (r : TermRow) : (scrubRow gone r).id = r.id := by
  unfold scrubRow
  split_ifs <;> rfl

/-- `t'` is `t` with the strings of the unreferenced terms `gone` replaced. -/
structure Scrubs (t : Tables) (gone : List ℤ) (t' : Tables) : Prop where
  file : t' = { t with terms := t.terms.map (scrubRow gone) }
  free : ∀ id ∈ gone, t.termReferenced id = false
  strings : (t.terms.map TermRow.id).Nodup → (t.terms.map TermRow.term).Nodup →
    (t'.terms.map TermRow.term).Nodup

theorem Scrubs.refl (t : Tables) : Scrubs t [] t where
  file := by
    have hid : scrubRow [] = id := by
      funext r
      simp [scrubRow]
    rw [hid, List.map_id]
  free _ h := by simp at h
  strings _ h := h

theorem scrubTerm_ok {id : ℤ} {gone : Bool} (h : t.scrubTerm id = .ok (gone, t')) :
    t.Scrubs (if gone then [id] else []) t' := by
  unfold scrubTerm at h
  split_ifs at h with href hrow hclash
  · cases h
    exact .refl t
  · cases h
    refine ⟨?_, ?_, fun _ hs => ?_⟩
    · simp only [if_pos]
      congr 1
      refine List.map_congr_left fun r _ => ?_
      unfold scrubRow
      by_cases hr : r.id = id
      · simp [hr]
      · simp [hr]
    · intro i hi
      simp only [if_pos, List.mem_singleton] at hi
      subst hi
      simpa using href
    · have hclash' : ∀ r ∈ t.terms, r.id ≠ id → r.term ≠ erasedTerm id := by
        intro r hr hne heq
        exact hclash (List.any_eq_true.2 ⟨r, hr, by simp [hne, heq]⟩)
      rename_i hids
      simp only [List.map_map]
      refine List.Nodup.map_on ?_ (List.Nodup.of_map _ hs)
      intro a ha b hb hab
      simp only [Function.comp_apply] at hab
      by_cases haid : a.id = id <;> by_cases hbid : b.id = id
      · exact List.inj_on_of_nodup_map hids ha hb (haid.trans hbid.symm)
      · rw [if_pos haid, if_neg hbid] at hab
        exact absurd hab.symm (hclash' b hb hbid)
      · rw [if_neg haid, if_pos hbid] at hab
        exact absurd hab (hclash' a ha haid)
      · rw [if_neg haid, if_neg hbid] at hab
        exact List.inj_on_of_nodup_map hs ha hb hab
  · cases h
    exact .refl t

theorem Scrubs.trans {a b c : Tables} {xs ys : List ℤ} (hab : a.Scrubs xs b)
    (hbc : b.Scrubs ys c) : a.Scrubs (xs ++ ys) c where
  file := by
    rw [hbc.file, hab.file]
    simp only [List.map_map]
    congr 1
    refine List.map_congr_left fun r _ => ?_
    simp only [Function.comp_apply, scrubRow, List.mem_append]
    by_cases hx : r.id ∈ xs <;> by_cases hy : r.id ∈ ys <;> simp [hx, hy]
  free id h := by
    rcases List.mem_append.1 h with h | h
    · exact hab.free id h
    · have := hbc.free id h
      rw [hab.file] at this
      exact this
  strings hids hs := by
    refine hbc.strings ?_ (hab.strings hids hs)
    rw [hab.file]
    simpa [Function.comp_def] using hids

theorem scrubTerms_ok {ids gone : List ℤ} (h : t.scrubTerms ids = .ok (gone, t')) :
    t.Scrubs gone t' := by
  induction ids generalizing t gone with
  | nil =>
    cases h
    exact .refl _
  | cons id ids ih =>
    obtain ⟨⟨g, t₁⟩, hone, h₁⟩ := except_bind_ok h
    obtain ⟨⟨rest, t₂⟩, hrest, h₂⟩ := except_bind_ok h₁
    cases h₂
    have := (scrubTerm_ok hone).trans (ih hrest)
    cases g
    · simpa using this
    · simpa using this

/-- **A bulk erasure.**  The targets' rows are gone, the keys they touched are
reconciled, tokens and terms nothing uses any more are swept. -/
theorem eraseTxn_ok {seqs ids : List ℤ} {out : EraseOut}
    (h : t.eraseTxn seqs ids op hlc = .ok (out, t')) :
    ∃ t₁ t₂, t.eraseTargets (t.grains.filter fun g => g.seq ∈ seqs) op hlc = .ok t₁ ∧
      t₂ = (t₁.reconcile seqs ((t.grains.filter fun g => g.seq ∈ seqs).filterMap
        GrainRow.key).dedup).sweepVocab
          ((t.ftsPost.filter fun r => r.seq ∈ seqs).map PostRow.term).dedup ∧
      t₂.Scrubs out.scrubbed t' ∧
      out.report.vocabRemoved = t.ftsVocab.length - t₂.ftsVocab.length ∧
      out.docs = ((t.ftsDoc.filter fun d =>
        d.seq ∈ (t.grains.filter fun g => g.seq ∈ seqs).map GrainRow.seq).length : ℤ) ∧
      out.lenSum = ((t.ftsDoc.filter fun d =>
        d.seq ∈ (t.grains.filter fun g => g.seq ∈ seqs).map GrainRow.seq).map DocRow.len).sum := by
  obtain ⟨t₁, htargets, h₁⟩ := except_bind_ok h
  obtain ⟨⟨scrubbed, t₂⟩, hscrub, h₂⟩ := except_bind_ok h₁
  cases h₂
  have hvocab : (t₁.reconcile seqs ((t.grains.filter fun g => g.seq ∈ seqs).filterMap
      GrainRow.key).dedup).ftsVocab = t.ftsVocab := by
    rw [(reconcile_frame t₁ seqs _).ftsVocab]
    exact (eraseTargets_ok htargets).2.2.2.2.2
  exact ⟨t₁, _, htargets, rfl, scrubTerms_ok hscrub, by simp only [← hvocab], rfl, rfl⟩

/-- A bulk erasure writes a tombstone a grain. -/
theorem eraseTxn_oplog {seqs ids : List ℤ} {out : EraseOut}
    (h : t.eraseTxn seqs ids op hlc = .ok (out, t')) :
    t'.oplog = t.oplog ++ tombstones (t.grains.filter fun g => g.seq ∈ seqs) op hlc := by
  obtain ⟨t₁, t₂, htargets, rfl, hscrub, -⟩ := eraseTxn_ok h
  obtain ⟨-, -, -, hlog, -⟩ := eraseTargets_ok htargets
  rw [hscrub.file, ← hlog, ← (reconcile_frame t₁ seqs
    ((t.grains.filter fun g => g.seq ∈ seqs).filterMap GrainRow.key).dedup).oplog]
  rfl

end Tables

end Deja
