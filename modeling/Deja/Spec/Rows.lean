import Deja.Core.Sample
import Deja.Spec.Runs

/-!
# The rows of a grain and of its indexes

A commit changes `grains` and the index tables by a few elementary moves: a
grain comes with its index rows, a grain is closed (its row is marked, the `cur`
flag of its triples cleared), a `supersedes` pointer is set, grains go with all
their rows, the `text` column is rewritten.  `Commit.rowPath` says so once for
every commit.

`Rows.Ok` is what the moves keep: sequence numbers and addresses are unique, no
index row is without its grain, and the rows of every stored grain are the ones
its blob asks for, current as long as the grain is.
-/

namespace Deja

open Run

variable {G : Type} {C : Core G}

/-! ## The rows -/

/-- The tables an insert of a grain writes, heads, text index, embeddings and
op-log aside. -/
structure Rows where
  grains : List GrainRow
  triples : List TripleRow
  osp : List OspRow
  threadIdx : List ThreadRow
  runIdx : List RunRow
  provIdx : List ProvRow
  corpusIdx : List ℤ

/-- The rows of a file. -/
def Tables.rows (t : Tables) : Rows where
  grains := t.grains
  triples := t.triples
  osp := t.osp
  threadIdx := t.threadIdx
  runIdx := t.runIdx
  provIdx := t.provIdx
  corpusIdx := t.corpusIdx

namespace Rows

variable (r : Rows)

/-- A grain comes with its index rows. -/
def insert (pr : GrainPrep) (seq : ℤ) : Rows where
  grains := r.grains ++ [pr.grainRow seq]
  triples := r.triples ++ pr.tripleRows seq
  osp := r.osp ++ pr.ospRows seq
  threadIdx := r.threadIdx ++ pr.threadRows seq
  runIdx := r.runIdx ++ pr.runRows seq
  provIdx := r.provIdx ++ pr.provRows seq
  corpusIdx := r.corpusIdx ++ pr.corpusRows seq

/-- A grain is superseded and its triples stop being current. -/
def close (seq : ℤ) (by_ : Hash) (now : ℤ) : Rows :=
  { r with
    grains := r.grains.map fun g =>
      if g.seq = seq then { g with supersededBy := some by_, svt := some now } else g
    triples := r.triples.map fun x => if x.seq = seq then { x with cur := false } else x
    osp := r.osp.map fun x => if x.seq = seq then { x with cur := false } else x }

/-- A grain points back to the one it supersedes. -/
def point (new old : Hash) : Rows :=
  { r with grains := r.grains.map fun g =>
      if g.hash = new then { g with supersedes := some old } else g }

/-- Grains go with all their rows. -/
def erase (seqs : List ℤ) : Rows where
  grains := r.grains.filter fun x => x.seq ∉ seqs
  triples := r.triples.filter fun x => x.seq ∉ seqs
  osp := r.osp.filter fun x => x.seq ∉ seqs
  threadIdx := r.threadIdx.filter fun x => x.seq ∉ seqs
  runIdx := r.runIdx.filter fun x => x.seq ∉ seqs
  provIdx := r.provIdx.filter fun x => x.seq ∉ seqs
  corpusIdx := r.corpusIdx.filter fun x => x ∉ seqs

/-- The `text` column is rewritten. -/
def retext (text : GrainRow → Option String) : Rows :=
  { r with grains := r.grains.map fun g => { g with text := text g } }

end Rows

/-- An elementary move of the rows; inserted grains satisfy `P`. -/
inductive RowStep (P : GrainPrep → Prop) : Rows → Rows → Prop where
  | insert {r : Rows} {pr : GrainPrep} {seq : ℤ} (hP : P pr)
      (freshSeq : ∀ g ∈ r.grains, g.seq ≠ seq) (freshHash : ∀ g ∈ r.grains, g.hash ≠ pr.hash) :
      RowStep P r (r.insert pr seq)
  | close (r : Rows) (seq : ℤ) (by_ : Hash) (now : ℤ) : RowStep P r (r.close seq by_ now)
  | point (r : Rows) (new old : Hash) : RowStep P r (r.point new old)
  | erase (r : Rows) (seqs : List ℤ) : RowStep P r (r.erase seqs)
  | retext (r : Rows) (text : GrainRow → Option String) : RowStep P r (r.retext text)

/-- A sequence of elementary moves. -/
abbrev RowPath (P : GrainPrep → Prop) : Rows → Rows → Prop := Relation.ReflTransGen (RowStep P)

/-! ## Commits as moves -/

section Moves

variable {P : GrainPrep → Prop} {t t' : Tables}

theorem Tables.SameButHeads.rows (h : t.SameButHeads t') : t'.rows = t.rows := by
  rw [h]
  rfl

theorem Tables.Inserts.rowStep {pr : GrainPrep} {seq : ℤ} (h : t.Inserts pr seq t') (hP : P pr) :
    RowStep P t.rows t'.rows := by
  have hrows : t'.rows = t.rows.insert pr seq := by
    simp only [Tables.rows, Rows.insert, h.grains, h.triples, h.osp, h.threadIdx, h.runIdx,
      h.provIdx, h.corpusIdx]
  rw [hrows]
  refine .insert hP h.freshSeq fun g hg heq => ?_
  have := List.find?_eq_none.1 h.freshHash g hg
  simp [heq] at this

theorem Tables.Erases.rowStep {seqs : List ℤ} (h : t.Erases seqs t') :
    RowStep P t.rows t'.rows := by
  have hrows : t'.rows = t.rows.erase seqs := by
    simp only [Tables.rows, Rows.erase, h.grains, h.triples, h.osp, h.threadIdx, h.runIdx,
      h.provIdx, h.corpusIdx]
  rw [hrows]
  exact .erase _ _

theorem Tables.flipped_rowPath (t : Tables) (seq : ℤ) (old new : Hash) (now : ℤ) :
    RowPath P t.rows (t.flipped seq old new now).rows :=
  .tail (.single (.close _ seq new now)) (.point _ new old)

theorem Tables.closeTips_rowPath (tips : List Hash) (merge : Hash) (now : ℤ) (t : Tables) :
    RowPath P t.rows (tips.foldl (fun t tip => t.closeTip tip merge now) t).rows := by
  induction tips generalizing t with
  | nil => exact .refl
  | cons tip tips ih =>
    refine .trans ?_ (ih (t.closeTip tip merge now))
    unfold closeTip
    cases t.grainByHash tip with
    | none => exact .refl
    | some g =>
      simp only
      split_ifs
      · exact .single (.close _ g.seq merge now)
      · exact .refl

theorem Tables.insertPrepped_rowPath {preps : List GrainPrep} {seq op hlc : ℤ}
    (hP : ∀ pr ∈ preps, P pr) (h : t.insertPrepped preps seq op hlc = .ok t') :
    RowPath P t.rows t'.rows := by
  induction preps generalizing t seq op hlc with
  | nil =>
    cases h
    exact .refl
  | cons pr preps ih =>
    obtain ⟨t₁, hone, hrest⟩ := except_bind_ok h
    rw [List.forall_mem_cons] at hP
    exact .head ((insertPreppedOne_ok hone).1.rowStep hP.1) (ih hP.2 hrest)

theorem Tables.deleteSeq_rowStep (t : Tables) (seq : ℤ) :
    RowStep P t.rows (t.deleteSeq seq).rows := by
  have hrows : (t.deleteSeq seq).rows = t.rows.erase [seq] := by
    simp [Tables.rows, Rows.erase, Tables.deleteSeq]
  rw [hrows]
  exact .erase _ _

theorem Tables.flipTxn_rowPath (t : Tables) (old new : Hash) (now : ℤ) :
    RowPath P t.rows (t.flipTxn old new now).2.rows := by
  unfold flipTxn
  cases t.grainByHash old with
  | none => exact .refl
  | some row =>
    simp only
    split_ifs
    · exact .refl
    · rw [(registerFork_frame t new).rows]
    · have hrows : (t.flipLinear row old new now).rows = (t.flipped row.seq old new now).rows := by
        unfold flipLinear
        cases row.key <;> rfl
      rw [hrows]
      exact t.flipped_rowPath row.seq old new now

theorem Tables.eraseTxn_rowStep {seqs ids : List ℤ} {op hlc : ℤ} {out : EraseOut}
    (h : t.eraseTxn seqs ids op hlc = .ok (out, t')) : RowStep P t.rows t'.rows := by
  obtain ⟨t₁, t₂, htargets, rfl, hscrub, -, -, -⟩ := eraseTxn_ok h
  have hrows : t'.rows = t₁.rows := by
    rw [hscrub.file]
    exact (reconcile_frame t₁ seqs _).rows
  rw [hrows]
  exact (eraseTargets_ok htargets).1.rowStep

end Moves

/-- A fallible map that rewrites one column. -/
theorem mapM_retext {f : GrainRow → Except DejaDbError (Option String)} {l l' : List GrainRow}
    (h : (l.mapM fun g => (f g).map fun t => { g with text := t }) = .ok l') :
    l' = l.map fun g => { g with text := ((f g).toOption).getD none } := by
  induction l generalizing l' with
  | nil =>
    cases h
    rfl
  | cons g l ih =>
    rw [List.mapM_cons] at h
    obtain ⟨g', hg, h₁⟩ := except_bind_ok h
    obtain ⟨rest, hrest, h₂⟩ := except_bind_ok h₁
    cases h₂
    cases hf : f g with
    | error e =>
      rw [hf] at hg
      cases hg
    | ok t =>
      rw [hf] at hg
      cases hg
      rw [List.map_cons, ih hrest, hf]
      rfl

/-- **Every commit is a sequence of elementary moves.** -/
theorem Commit.rowPath {P : GrainPrep → Prop} {ev : Event} {a b : DejaDB} (h : Commit C ev a b)
    (hP : ∀ pr ∈ ev.preps, P pr) : RowPath P a.db.rows b.db.rows := by
  cases h with
  | insert prepared txn => exact Tables.insertPrepped_rowPath hP txn
  | @supersede _ old pr row _ now _ _ _ view written prepared found txn =>
    obtain ⟨-, t₁, hins, rfl⟩ := Tables.supersedeTxn_ok found txn
    have hframe := Tables.retireTip_frame (t₁.flipped row.seq old pr.hash now) row.key row.seq
    refine .head
      ((Tables.insertPreppedOne_ok hins).1.rowStep (hP pr (List.mem_singleton_self pr))) ?_
    have hpath := t₁.flipped_rowPath (P := P) row.seq old pr.hash now
    rw [← hframe.rows] at hpath
    exact hpath
  | merge written prepared tips txn =>
    obtain ⟨t₁, hins, rfl⟩ := Tables.mergeTxn_ok txn
    exact .head ((Tables.insertPreppedOne_ok hins).1.rowStep (hP _ (List.mem_singleton_self _)))
      (Tables.closeTips_rowPath _ _ _ t₁)
  | @forget _ _ row _ _ _ found txn =>
    obtain ⟨-, rfl⟩ := Tables.forgetTxn_ok found txn
    have hframe := Tables.retireTip_frame (a.db.deleteSeq row.seq) row.key row.seq
    have hstep := a.db.deleteSeq_rowStep (P := P) row.seq
    rw [DejaDB.droppedDoc_db]
    rw [← hframe.rows] at hstep
    exact .single hstep
  | erase txn => exact .single (Tables.eraseTxn_rowStep txn)
  | @scrub _ ids gone t txn =>
    have hrows : t.rows = a.db.rows := by
      rw [(Tables.scrubTerms_ok txn).file]
      rfl
    show RowPath _ a.db.rows t.rows
    rw [hrows]
  | insertBlob prepared txn =>
    exact .single ((Tables.insertBlobTxn_ok txn).1.rowStep (hP _ (List.mem_singleton_self _)))
  | flip => exact a.db.flipTxn_rowPath _ _ _
  | log txn =>
    obtain ⟨rfl, -⟩ := Tables.insertOp_ok txn
    exact .refl
  | defer on => exact .refl
  | undefer => exact .refl
  | rebuildText on inline txn =>
    obtain ⟨grains, rows, c, hgrains, -, hlooks, rfl, -, -⟩ := rebuildTextBody_ok txn
    have hdb : c.db = a.db := by rw [hlooks.rest]
    rw [mapM_retext hgrains, hdb]
    exact .single (.retext _ _)
  | setEmbedder => exact .refl
  | reopen => exact .refl

/-- Idle moves leave the rows alone. -/
theorem Idle.rows {a b : DejaDB} (h : Idle a b) : b.db.rows = a.db.rows := by
  rw [h.file]
  rfl

/-! ## What the rows satisfy -/

/-- `g` is the stored row of the prepared grain `pr`, and the index rows at its
sequence number are exactly those of `pr`, current while `g` is. -/
structure Rows.Of (r : Rows) (pr : GrainPrep) (g : GrainRow) : Prop where
  row : g = { pr.grainRow g.seq with
    svt := g.svt
    supersededBy := g.supersededBy
    supersedes := g.supersedes
    text := g.text }
  triples : r.triples.filter (fun x => x.seq = g.seq) =
    (pr.tripleRows g.seq).map fun x => { x with cur := g.svt.isNone }
  osp : r.osp.filter (fun x => x.seq = g.seq) =
    (pr.ospRows g.seq).map fun x => { x with cur := g.svt.isNone }
  threadIdx : r.threadIdx.filter (fun x => x.seq = g.seq) = pr.threadRows g.seq
  runIdx : r.runIdx.filter (fun x => x.seq = g.seq) = pr.runRows g.seq
  provIdx : r.provIdx.filter (fun x => x.seq = g.seq) = pr.provRows g.seq
  corpusIdx : r.corpusIdx.filter (fun x => x = g.seq) = pr.corpusRows g.seq

/-- Every index row belongs to a stored grain. -/
structure Rows.Owned (r : Rows) : Prop where
  triples : ∀ x ∈ r.triples, ∃ g ∈ r.grains, g.seq = x.seq
  osp : ∀ x ∈ r.osp, ∃ g ∈ r.grains, g.seq = x.seq
  threadIdx : ∀ x ∈ r.threadIdx, ∃ g ∈ r.grains, g.seq = x.seq
  runIdx : ∀ x ∈ r.runIdx, ∃ g ∈ r.grains, g.seq = x.seq
  provIdx : ∀ x ∈ r.provIdx, ∃ g ∈ r.grains, g.seq = x.seq
  corpusIdx : ∀ x ∈ r.corpusIdx, ∃ g ∈ r.grains, g.seq = x

/-- Sequence numbers and addresses are unique, every stored grain has its rows
and every row its grain; `L` is what is known of the prepared grains. -/
structure Rows.Ok (L : GrainPrep → Prop) (r : Rows) : Prop where
  seqs : (r.grains.map GrainRow.seq).Nodup
  hashes : (r.grains.map GrainRow.hash).Nodup
  spelled : ∀ g ∈ r.grains, ∃ pr, L pr ∧ r.Of pr g
  owned : r.Owned

namespace Rows

theorem Ok.mono {L M : GrainPrep → Prop} {r : Rows} (h : r.Ok L)
    (hLM : ∀ g ∈ r.grains, ∀ pr, L pr → r.Of pr g → M pr) : r.Ok M where
  seqs := h.seqs
  hashes := h.hashes
  spelled g hg := by
    obtain ⟨pr, hL, hof⟩ := h.spelled g hg
    exact ⟨pr, hLM g hg pr hL hof, hof⟩
  owned := h.owned

theorem Ok.eq_of_seq {L : GrainPrep → Prop} {r : Rows} (h : r.Ok L) {a b : GrainRow}
    (ha : a ∈ r.grains) (hb : b ∈ r.grains) (hab : a.seq = b.seq) : a = b :=
  List.inj_on_of_nodup_map h.seqs ha hb hab

theorem Ok.eq_of_hash {L : GrainPrep → Prop} {r : Rows} (h : r.Ok L) {a b : GrainRow}
    (ha : a ∈ r.grains) (hb : b ∈ r.grains) (hab : a.hash = b.hash) : a = b :=
  List.inj_on_of_nodup_map h.hashes ha hb hab

/-! ## Insert -/

/-- The rows at `s` of an appended block that lies at `seq`. -/
theorem filter_append_block {α : Type} (key : α → ℤ) {l block : List α} {seq : ℤ}
    (hblock : ∀ x ∈ block, key x = seq) (s : ℤ) :
    (l ++ block).filter (fun x => key x = s) =
      l.filter (fun x => key x = s) ++ if s = seq then block else [] := by
  rw [List.filter_append]
  congr 1
  split_ifs with hs
  · exact List.filter_eq_self.2 fun x hx => by simp [hblock x hx, hs]
  · exact List.filter_eq_nil_iff.2 fun x hx => by simp [hblock x hx, Ne.symm hs]

/-- An appended block at a fresh number is what the table holds there. -/
theorem filter_fresh_block {α : Type} (key : α → ℤ) {l block : List α} {seq : ℤ}
    (hblock : ∀ x ∈ block, key x = seq) (hfresh : ∀ x ∈ l, key x ≠ seq) :
    (l ++ block).filter (fun x => key x = seq) = block := by
  rw [filter_append_block key hblock, if_pos rfl,
    List.filter_eq_nil_iff.2 fun x hx => by simpa using hfresh x hx, List.nil_append]

/-- The rows at another number are those from before. -/
theorem filter_other_block {α : Type} (key : α → ℤ) {l block : List α} {seq s : ℤ}
    (hblock : ∀ x ∈ block, key x = seq) (hs : s ≠ seq) :
    (l ++ block).filter (fun x => key x = s) = l.filter fun x => key x = s := by
  rw [filter_append_block key hblock, if_neg hs, List.append_nil]

end Rows

namespace GrainPrep

variable (pr : GrainPrep) (seq : ℤ)

theorem tripleRows_seq : ∀ x ∈ pr.tripleRows seq, x.seq = seq := by
  intro x hx
  rw [tripleRows, List.mem_append] at hx
  rcases hx with hx | hx
  · cases hspo : pr.spo with
    | none => simp [hspo] at hx
    | some y =>
      rw [hspo] at hx
      rw [List.mem_singleton.1 hx]
  · obtain ⟨l, -, rfl⟩ := List.mem_map.1 hx
    rfl

theorem ospRows_seq : ∀ x ∈ pr.ospRows seq, x.seq = seq := by
  intro x hx
  rw [ospRows, List.mem_append] at hx
  rcases hx with hx | hx
  · cases hspo : pr.spo with
    | none => simp [hspo] at hx
    | some y =>
      rw [hspo] at hx
      simp only at hx
      split_ifs at hx
      · rw [List.mem_singleton.1 hx]
      · simp at hx
  · obtain ⟨l, -, rfl⟩ := List.mem_map.1 hx
    rfl

theorem tripleRows_current :
    (pr.tripleRows seq).map (fun x => { x with cur := true }) = pr.tripleRows seq := by
  unfold tripleRows
  cases pr.spo <;> simp [Function.comp_def]

theorem ospRows_current :
    (pr.ospRows seq).map (fun x => { x with cur := true }) = pr.ospRows seq := by
  unfold ospRows
  cases pr.spo with
  | none => simp [Function.comp_def]
  | some x =>
    simp only
    split_ifs <;> simp [Function.comp_def]

theorem threadRows_seq : ∀ x ∈ pr.threadRows seq, x.seq = seq := by
  intro x hx
  cases hs : pr.session <;> simp [threadRows, hs] at hx
  rw [hx]

theorem runRows_seq : ∀ x ∈ pr.runRows seq, x.seq = seq := by
  intro x hx
  cases hs : pr.run <;> simp [runRows, hs] at hx
  rw [hx]

theorem provRows_seq : ∀ x ∈ pr.provRows seq, x.seq = seq := by
  intro x hx
  cases hs : pr.parent <;> simp [provRows, hs] at hx
  rw [hx]

theorem corpusRows_seq : ∀ x ∈ pr.corpusRows seq, x = seq := by
  intro x hx
  unfold corpusRows at hx
  split_ifs at hx <;> simp at hx
  exact hx

end GrainPrep

namespace Rows

variable {L : GrainPrep → Prop} {r : Rows}

theorem Owned.insert (h : r.Owned) (pr : GrainPrep) (seq : ℤ) : (r.insert pr seq).Owned := by
  have hold : ∀ {s : ℤ}, (∃ g ∈ r.grains, g.seq = s) → ∃ g ∈ (r.insert pr seq).grains, g.seq = s :=
    fun ⟨g, hg, hs⟩ => ⟨g, List.mem_append_left _ hg, hs⟩
  have hnew : ∃ g ∈ (r.insert pr seq).grains, g.seq = seq :=
    ⟨pr.grainRow seq, List.mem_append_right _ (List.mem_singleton_self _), rfl⟩
  refine ⟨?_, ?_, ?_, ?_, ?_, ?_⟩
  · intro x hx
    rcases List.mem_append.1 hx with hx | hx
    · exact hold (h.triples x hx)
    · rw [pr.tripleRows_seq seq x hx]
      exact hnew
  · intro x hx
    rcases List.mem_append.1 hx with hx | hx
    · exact hold (h.osp x hx)
    · rw [pr.ospRows_seq seq x hx]
      exact hnew
  · intro x hx
    rcases List.mem_append.1 hx with hx | hx
    · exact hold (h.threadIdx x hx)
    · rw [pr.threadRows_seq seq x hx]
      exact hnew
  · intro x hx
    rcases List.mem_append.1 hx with hx | hx
    · exact hold (h.runIdx x hx)
    · rw [pr.runRows_seq seq x hx]
      exact hnew
  · intro x hx
    rcases List.mem_append.1 hx with hx | hx
    · exact hold (h.provIdx x hx)
    · rw [pr.provRows_seq seq x hx]
      exact hnew
  · intro x hx
    rcases List.mem_append.1 hx with hx | hx
    · exact hold (h.corpusIdx x hx)
    · rw [pr.corpusRows_seq seq x hx]
      exact hnew

theorem Of.insert_old {pr new : GrainPrep} {g : GrainRow} {seq : ℤ} (h : r.Of pr g)
    (hs : g.seq ≠ seq) : (r.insert new seq).Of pr g where
  row := h.row
  triples := (filter_other_block TripleRow.seq (new.tripleRows_seq seq) hs).trans h.triples
  osp := (filter_other_block OspRow.seq (new.ospRows_seq seq) hs).trans h.osp
  threadIdx := (filter_other_block ThreadRow.seq (new.threadRows_seq seq) hs).trans h.threadIdx
  runIdx := (filter_other_block RunRow.seq (new.runRows_seq seq) hs).trans h.runIdx
  provIdx := (filter_other_block ProvRow.seq (new.provRows_seq seq) hs).trans h.provIdx
  corpusIdx := (filter_other_block id (new.corpusRows_seq seq) hs).trans h.corpusIdx

theorem Of.insert_new (pr : GrainPrep) {seq : ℤ} (h : r.Owned)
    (fresh : ∀ g ∈ r.grains, g.seq ≠ seq) : (r.insert pr seq).Of pr (pr.grainRow seq) where
  row := rfl
  triples := (filter_fresh_block TripleRow.seq (pr.tripleRows_seq seq) fun x hx hs => by
    obtain ⟨g, hg, hgx⟩ := h.triples x hx
    exact fresh g hg (hgx.trans hs)).trans (pr.tripleRows_current seq).symm
  osp := (filter_fresh_block OspRow.seq (pr.ospRows_seq seq) fun x hx hs => by
    obtain ⟨g, hg, hgx⟩ := h.osp x hx
    exact fresh g hg (hgx.trans hs)).trans (pr.ospRows_current seq).symm
  threadIdx := filter_fresh_block ThreadRow.seq (pr.threadRows_seq seq) fun x hx hs => by
    obtain ⟨g, hg, hgx⟩ := h.threadIdx x hx
    exact fresh g hg (hgx.trans hs)
  runIdx := filter_fresh_block RunRow.seq (pr.runRows_seq seq) fun x hx hs => by
    obtain ⟨g, hg, hgx⟩ := h.runIdx x hx
    exact fresh g hg (hgx.trans hs)
  provIdx := filter_fresh_block ProvRow.seq (pr.provRows_seq seq) fun x hx hs => by
    obtain ⟨g, hg, hgx⟩ := h.provIdx x hx
    exact fresh g hg (hgx.trans hs)
  corpusIdx := filter_fresh_block id (pr.corpusRows_seq seq) fun x hx hs => by
    obtain ⟨g, hg, hgx⟩ := h.corpusIdx x hx
    exact fresh g hg (hgx.trans hs)

theorem Ok.insert {pr : GrainPrep} {seq : ℤ} (h : r.Ok L) (hL : L pr)
    (freshSeq : ∀ g ∈ r.grains, g.seq ≠ seq) (freshHash : ∀ g ∈ r.grains, g.hash ≠ pr.hash) :
    (r.insert pr seq).Ok L where
  seqs := by
    rw [show (r.insert pr seq).grains = r.grains ++ [pr.grainRow seq] from rfl, List.map_append,
      List.nodup_append]
    refine ⟨h.seqs, List.nodup_singleton _, fun x hx y hy => ?_⟩
    obtain ⟨g, hg, rfl⟩ := List.mem_map.1 hx
    rw [List.map_singleton, List.mem_singleton] at hy
    rw [hy]
    exact freshSeq g hg
  hashes := by
    rw [show (r.insert pr seq).grains = r.grains ++ [pr.grainRow seq] from rfl, List.map_append,
      List.nodup_append]
    refine ⟨h.hashes, List.nodup_singleton _, fun x hx y hy => ?_⟩
    obtain ⟨g, hg, rfl⟩ := List.mem_map.1 hx
    rw [List.map_singleton, List.mem_singleton] at hy
    rw [hy]
    exact freshHash g hg
  spelled g hg := by
    rcases List.mem_append.1 hg with hg | hg
    · obtain ⟨p, hp, hof⟩ := h.spelled g hg
      exact ⟨p, hp, hof.insert_old (freshSeq g hg)⟩
    · rw [List.mem_singleton.1 hg]
      exact ⟨pr, hL, .insert_new pr h.owned freshSeq⟩
  owned := h.owned.insert pr seq

/-! ## Close, point, retext -/

/-- Clearing the rows at one number. -/
theorem filter_clear {α : Type} (key : α → ℤ) (clear : α → α) (hkey : ∀ x, key (clear x) = key x)
    (l : List α) (seq s : ℤ) :
    (l.map fun x => if key x = seq then clear x else x).filter (fun x => key x = s) =
      (l.filter fun x => key x = s).map fun x => if s = seq then clear x else x := by
  induction l with
  | nil => rfl
  | cons x l ih =>
    have hx : key (if key x = seq then clear x else x) = key x := by
      split_ifs
      · exact hkey x
      · rfl
    rw [List.map_cons]
    by_cases hs : key x = s
    · rw [List.filter_cons_of_pos (by simpa [hx] using hs),
        List.filter_cons_of_pos (by simpa using hs), List.map_cons, ih, hs]
    · rw [List.filter_cons_of_neg (by simpa [hx] using hs),
        List.filter_cons_of_neg (by simpa using hs), ih]

/-- A move that rewrites grain rows in place, keeping numbers and addresses. -/
theorem Owned.map {r' : Rows} {f : GrainRow → GrainRow} (h : r.Owned) (hf : ∀ g, (f g).seq = g.seq)
    (hg : r'.grains = r.grains.map f)
    (ht : ∀ x ∈ r'.triples, ∃ y ∈ r.triples, y.seq = x.seq)
    (ho : ∀ x ∈ r'.osp, ∃ y ∈ r.osp, y.seq = x.seq) (hth : r'.threadIdx = r.threadIdx)
    (hr : r'.runIdx = r.runIdx) (hp : r'.provIdx = r.provIdx) (hc : r'.corpusIdx = r.corpusIdx) :
    r'.Owned := by
  have hmove : ∀ {s : ℤ}, (∃ g ∈ r.grains, g.seq = s) → ∃ g ∈ r'.grains, g.seq = s := by
    rintro s ⟨g, hmem, hs⟩
    rw [hg]
    exact ⟨f g, List.mem_map_of_mem hmem, (hf g).trans hs⟩
  refine ⟨fun x hx => ?_, fun x hx => ?_, fun x hx => ?_, fun x hx => ?_, fun x hx => ?_,
    fun x hx => ?_⟩
  · obtain ⟨y, hy, hyx⟩ := ht x hx
    rw [← hyx]
    exact hmove (h.triples y hy)
  · obtain ⟨y, hy, hyx⟩ := ho x hx
    rw [← hyx]
    exact hmove (h.osp y hy)
  · rw [hth] at hx
    exact hmove (h.threadIdx x hx)
  · rw [hr] at hx
    exact hmove (h.runIdx x hx)
  · rw [hp] at hx
    exact hmove (h.provIdx x hx)
  · rw [hc] at hx
    exact hmove (h.corpusIdx x hx)

theorem Ok.close (h : r.Ok L) (seq : ℤ) (by_ : Hash) (now : ℤ) : (r.close seq by_ now).Ok L where
  seqs := by
    have hsame : (r.close seq by_ now).grains.map GrainRow.seq = r.grains.map GrainRow.seq := by
      simp only [Rows.close, List.map_map]
      exact List.map_congr_left fun g _ => by simp only [Function.comp_apply]; split_ifs <;> rfl
    rw [hsame]
    exact h.seqs
  hashes := by
    have hsame : (r.close seq by_ now).grains.map GrainRow.hash = r.grains.map GrainRow.hash := by
      simp only [Rows.close, List.map_map]
      exact List.map_congr_left fun g _ => by simp only [Function.comp_apply]; split_ifs <;> rfl
    rw [hsame]
    exact h.hashes
  spelled g' hg' := by
    obtain ⟨g, hg, rfl⟩ := List.mem_map.1 hg'
    obtain ⟨pr, hL, hof⟩ := h.spelled g hg
    refine ⟨pr, hL, ?_⟩
    have ht := filter_clear TripleRow.seq (fun x => { x with cur := false }) (fun _ => rfl)
      r.triples seq g.seq
    have ho := filter_clear OspRow.seq (fun x => { x with cur := false }) (fun _ => rfl)
      r.osp seq g.seq
    by_cases hs : g.seq = seq
    · rw [if_pos hs]
      refine ⟨?_, ht.trans ?_, ho.trans ?_, hof.threadIdx, hof.runIdx, hof.provIdx, hof.corpusIdx⟩
      · exact congrArg (fun x : GrainRow => { x with supersededBy := some by_, svt := some now })
          hof.row
      · rw [hof.triples]
        simp [hs, Function.comp_def]
      · rw [hof.osp]
        simp [hs, Function.comp_def]
    · rw [if_neg hs]
      refine ⟨hof.row, ht.trans ?_, ho.trans ?_, hof.threadIdx, hof.runIdx, hof.provIdx,
        hof.corpusIdx⟩
      · simp only [if_neg hs, List.map_id']
        exact hof.triples
      · simp only [if_neg hs, List.map_id']
        exact hof.osp
  owned := by
    refine h.owned.map (f := fun g =>
      if g.seq = seq then { g with supersededBy := some by_, svt := some now } else g) ?_ rfl
      ?_ ?_ rfl rfl rfl rfl
    · intro g
      split_ifs <;> rfl
    · intro x hx
      obtain ⟨y, hy, rfl⟩ := List.mem_map.1 hx
      exact ⟨y, hy, by split_ifs <;> rfl⟩
    · intro x hx
      obtain ⟨y, hy, rfl⟩ := List.mem_map.1 hx
      exact ⟨y, hy, by split_ifs <;> rfl⟩

/-- A move that rewrites `supersedes` or `text` only. -/
theorem Ok.rewrite {f : GrainRow → GrainRow} (h : r.Ok L)
    (hf : ∀ g, f g = { g with supersedes := (f g).supersedes, text := (f g).text }) :
    Ok L { r with grains := r.grains.map f } where
  seqs := by
    have hsame : (r.grains.map f).map GrainRow.seq = r.grains.map GrainRow.seq := by
      rw [List.map_map]
      exact List.map_congr_left fun g _ => by rw [Function.comp_apply, hf]
    rw [hsame]
    exact h.seqs
  hashes := by
    have hsame : (r.grains.map f).map GrainRow.hash = r.grains.map GrainRow.hash := by
      rw [List.map_map]
      exact List.map_congr_left fun g _ => by rw [Function.comp_apply, hf]
    rw [hsame]
    exact h.hashes
  spelled g' hg' := by
    obtain ⟨g, hg, rfl⟩ := List.mem_map.1 hg'
    obtain ⟨pr, hL, hof⟩ := h.spelled g hg
    have hseq : (f g).seq = g.seq := by rw [hf]
    have hsvt : (f g).svt = g.svt := by rw [hf]
    refine ⟨pr, hL, ?_, ?_, ?_, ?_, ?_, ?_, ?_⟩
    · rw [hf g]
      exact congrArg (fun x : GrainRow =>
        { x with supersedes := (f g).supersedes, text := (f g).text }) hof.row
    · rw [hseq, hsvt]
      exact hof.triples
    · rw [hseq, hsvt]
      exact hof.osp
    · rw [hseq]
      exact hof.threadIdx
    · rw [hseq]
      exact hof.runIdx
    · rw [hseq]
      exact hof.provIdx
    · rw [hseq]
      exact hof.corpusIdx
  owned := h.owned.map (fun g => by rw [hf]) rfl (fun x hx => ⟨x, hx, rfl⟩)
    (fun x hx => ⟨x, hx, rfl⟩) rfl rfl rfl rfl

/-! ## Erase -/

/-- Rows at a number that stays. -/
theorem filter_kept {α : Type} (key : α → ℤ) {seqs : List ℤ} {s : ℤ} (hs : s ∉ seqs) (l : List α) :
    (l.filter fun x => key x ∉ seqs).filter (fun x => key x = s) =
      l.filter fun x => key x = s := by
  rw [List.filter_filter]
  refine List.filter_congr fun x _ => ?_
  by_cases hx : key x = s
  · simp [hx, hs]
  · simp [hx]

theorem Ok.erase (h : r.Ok L) (seqs : List ℤ) : (r.erase seqs).Ok L where
  seqs := h.seqs.sublist (List.filter_sublist.map _)
  hashes := h.hashes.sublist (List.filter_sublist.map _)
  spelled g hg := by
    obtain ⟨hg, hs⟩ := List.mem_filter.1 hg
    have hs : g.seq ∉ seqs := by simpa using hs
    obtain ⟨pr, hL, hof⟩ := h.spelled g hg
    exact ⟨pr, hL, hof.row, (filter_kept TripleRow.seq hs _).trans hof.triples,
      (filter_kept OspRow.seq hs _).trans hof.osp,
      (filter_kept ThreadRow.seq hs _).trans hof.threadIdx,
      (filter_kept RunRow.seq hs _).trans hof.runIdx,
      (filter_kept ProvRow.seq hs _).trans hof.provIdx, (filter_kept id hs _).trans hof.corpusIdx⟩
  owned := by
    have hkeep : ∀ {s : ℤ}, (∃ g ∈ r.grains, g.seq = s) → s ∉ seqs →
        ∃ g ∈ (r.erase seqs).grains, g.seq = s := by
      rintro s ⟨g, hg, rfl⟩ hs
      exact ⟨g, List.mem_filter.2 ⟨hg, by simpa using hs⟩, rfl⟩
    refine ⟨fun x hx => ?_, fun x hx => ?_, fun x hx => ?_, fun x hx => ?_, fun x hx => ?_,
      fun x hx => ?_⟩ <;> obtain ⟨hx, hs⟩ := List.mem_filter.1 hx
    · exact hkeep (h.owned.triples x hx) (by simpa using hs)
    · exact hkeep (h.owned.osp x hx) (by simpa using hs)
    · exact hkeep (h.owned.threadIdx x hx) (by simpa using hs)
    · exact hkeep (h.owned.runIdx x hx) (by simpa using hs)
    · exact hkeep (h.owned.provIdx x hx) (by simpa using hs)
    · exact hkeep (h.owned.corpusIdx x hx) (by simpa using hs)

/-! ## Along moves -/

theorem Ok.step {r' : Rows} (h : r.Ok L) (hstep : RowStep L r r') : r'.Ok L := by
  cases hstep with
  | insert hP freshSeq freshHash => exact h.insert hP freshSeq freshHash
  | close seq by_ now => exact h.close seq by_ now
  | point new old => exact h.rewrite fun g => by split_ifs <;> rfl
  | erase seqs => exact h.erase seqs
  | retext text => exact h.rewrite fun g => rfl

theorem Ok.path {r' : Rows} (h : r.Ok L) (hpath : RowPath L r r') : r'.Ok L := by
  induction hpath with
  | refl => exact h
  | tail _ hstep ih => exact ih.step hstep

end Rows

/-! ## The rows of a store -/

/-- Every stored grain has the rows its blob asks for, and every row its grain. -/
def DejaDB.RowsOk (C : Core G) (st : DejaDB) : Prop :=
  st.db.rows.Ok fun pr => ∃ view, Linked C st view pr

section Referenced

variable {r : Rows} {pr : GrainPrep} {g : GrainRow}

/-- The stored triple rows of a grain. -/
theorem Rows.Of.mem_triples (h : r.Of pr g) {x : TripleRow} :
    x ∈ r.triples ∧ x.seq = g.seq ↔
      ∃ y ∈ pr.tripleRows g.seq, x = { y with cur := g.svt.isNone } := by
  have hmem : x ∈ r.triples.filter (fun x => x.seq = g.seq) ↔ x ∈ r.triples ∧ x.seq = g.seq := by
    simp [List.mem_filter]
  rw [← hmem, h.triples, List.mem_map]
  exact ⟨fun ⟨y, hy, he⟩ => ⟨y, hy, he.symm⟩, fun ⟨y, hy, he⟩ => ⟨y, hy, he.symm⟩⟩

theorem GrainPrep.mem_tripleRows {pr : GrainPrep} {seq : ℤ} {y : TripleRow} :
    y ∈ pr.tripleRows seq ↔
      (∃ s p o, pr.spo = some (s, p, o) ∧ y = ⟨pr.nsId, s, p, o, seq, true⟩) ∨
        ∃ l ∈ pr.links, y = ⟨pr.nsId, l.1, l.2.1, l.2.2, seq, true⟩ := by
  unfold tripleRows
  rw [List.mem_append, List.mem_map]
  refine or_congr ?_ ⟨fun ⟨l, hl, he⟩ => ⟨l, hl, he.symm⟩, fun ⟨l, hl, he⟩ => ⟨l, hl, he.symm⟩⟩
  cases pr.spo with
  | none => simp
  | some x =>
    obtain ⟨s, p, o⟩ := x
    simp only [List.mem_singleton, Option.some.injEq, Prod.mk.injEq]
    constructor
    · rintro rfl
      exact ⟨s, p, o, ⟨rfl, rfl, rfl⟩, rfl⟩
    · rintro ⟨s', p', o', ⟨rfl, rfl, rfl⟩, rfl⟩
      rfl

theorem Tables.termReferenced_iff {t : Tables} {id : ℤ} : t.termReferenced id = true ↔
    (∃ x ∈ t.triples, x.s = id ∨ x.p = id ∨ x.o = id) ∨ (∃ x ∈ t.threadIdx, x.session = id) ∨
      (∃ x ∈ t.runIdx, x.run = id) ∨ ∃ g ∈ t.grains, g.ns = id := by
  simp [termReferenced, or_assoc]

theorem DejaDB.EncodesOpt.keep {a b : DejaDB} {x : Option String} {id : Option ℤ}
    (h : a.EncodesOpt x id)
    (hkeep : ∀ i, id = some i → ∀ y, a.dict.lookup y = some i → b.dict.lookup y = some i) :
    b.EncodesOpt x id := by
  cases x with
  | none => cases id <;> exact h
  | some x =>
    cases id with
    | none => exact h
    | some i => exact hkeep i rfl x h

theorem forall₂_imp_mem {α β : Type} {R S : α → β → Prop} {l : List α} {u : List β}
    (h : List.Forall₂ R l u) (hRS : ∀ a b, b ∈ u → R a b → S a b) : List.Forall₂ S l u := by
  induction h with
  | nil => exact .nil
  | cons hab _ ih =>
    exact .cons (hRS _ _ (List.mem_cons_self ..) hab)
      (ih fun a b hb => hRS a b (List.mem_cons_of_mem _ hb))

/-- The terms of a stored grain are referenced, so an erasure keeps them. -/
theorem Linked.keep {a b : DejaDB} {view : DeserializedGrain} (h : Linked C a view pr)
    {t : Tables} (hof : t.rows.Of pr g) (hg : g ∈ t.grains)
    (hkeep : ∀ x id, t.termReferenced id = true → a.dict.lookup x = some id →
      b.dict.lookup x = some id) : Linked C b view pr := by
  have hns : g.ns = pr.nsId := by rw [hof.row]; rfl
  have htriple : ∀ y ∈ pr.tripleRows g.seq, ∀ id, (y.s = id ∨ y.p = id ∨ y.o = id) →
      t.termReferenced id = true := fun y hy id hid =>
    Tables.termReferenced_iff.2 (.inl ⟨_, (hof.mem_triples.2 ⟨y, hy, rfl⟩).1, hid⟩)
  refine ⟨h.decodes, h.created, h.gtype, hkeep _ _ ?_ h.ns, ?_, ?_, ?_, ?_, h.parent,
    h.corpusExport⟩
  · exact Tables.termReferenced_iff.2 (.inr (.inr (.inr ⟨g, hg, hns⟩)))
  · have hspo := h.spo
    unfold DejaDB.EncodesSpo at hspo ⊢
    cases hgv : (extractView view pr.created).spo with
    | none =>
      rw [hgv] at hspo
      exact hspo
    | some x =>
      rw [hgv] at hspo
      obtain ⟨si, pi, oi, hs, hp, ho, hsj, hrl, hob⟩ := hspo
      have hpr : pr.spo = some (si, pi, oi) := by rw [GrainPrep.spo, hs, hp, ho]
      have hrow := htriple _ (GrainPrep.mem_tripleRows.2 (.inl ⟨si, pi, oi, hpr, rfl⟩))
      exact ⟨si, pi, oi, hs, hp, ho, hkeep _ _ (hrow si (.inl rfl)) hsj,
        hkeep _ _ (hrow pi (.inr (.inl rfl))) hrl, hkeep _ _ (hrow oi (.inr (.inr rfl))) hob⟩
  · refine h.session.keep fun id hid x hx => hkeep x id ?_ hx
    have hmem : (⟨pr.nsId, id, g.seq⟩ : ThreadRow) ∈
        t.rows.threadIdx.filter (fun x => x.seq = g.seq) := by
      rw [hof.threadIdx, GrainPrep.threadRows, hid]
      simp
    exact Tables.termReferenced_iff.2 (.inr (.inl ⟨_, (List.mem_filter.1 hmem).1, rfl⟩))
  · refine forall₂_imp_mem h.links fun l y hy hq => ?_
    have hrow := htriple _ (GrainPrep.mem_tripleRows.2 (.inr ⟨y, hy, rfl⟩))
    exact ⟨hkeep _ _ (hrow y.1 (.inl rfl)) hq.1, hkeep _ _ (hrow y.2.1 (.inr (.inl rfl))) hq.2.1,
      hkeep _ _ (hrow y.2.2 (.inr (.inr rfl))) hq.2.2⟩
  · refine h.run.keep fun id hid x hx => hkeep x id ?_ hx
    have hmem : (⟨pr.nsId, id, g.seq⟩ : RunRow) ∈
        t.rows.runIdx.filter (fun x => x.seq = g.seq) := by
      rw [hof.runIdx, GrainPrep.runRows, hid]
      simp
    exact Tables.termReferenced_iff.2 (.inr (.inr (.inl ⟨_, (List.mem_filter.1 hmem).1, rfl⟩)))

end Referenced

theorem DejaDB.RowsOk.of_resolves {a b : DejaDB}
    (h : b.db.rows.Ok fun pr => ∃ view, Linked C a view pr)
    (hd : a.Resolves b) : b.RowsOk C :=
  h.mono fun _ _ _ ⟨view, hv⟩ _ => ⟨view, hv.mono hd⟩

theorem Idle.rowsOk {a b : DejaDB} (h : Idle a b) (hok : a.RowsOk C) : b.RowsOk C := by
  refine .of_resolves ?_ h.dict
  rw [h.rows]
  exact hok

/-- Evicting unreferenced terms keeps the referenced ones. -/
theorem lookup_evicted {a : DejaDB} (hok : DictOk a) {t t' : Tables} {gone : List ℤ}
    (hs : t.Scrubs gone t') {x : String} {id : ℤ} (href : t'.termReferenced id = true)
    (hx : a.dict.lookup x = some id) :
    (a.dict.filter fun y => y.2 ∉ gone).lookup x = some id := by
  refine (Assoc.lookup_filter hok.keys).2 ⟨hx, ?_⟩
  rw [decide_eq_true_eq]
  intro hgone
  have hfree := hs.free id hgone
  rw [hs.file] at href
  exact Bool.noConfusion (hfree.symm.trans href)

/-- The dictionary after a commit still resolves the terms the file references. -/
theorem Commit.keeps_terms {ev : Event} {a b : DejaDB} (h : Commit C ev a b) (hok : DictOk a)
    {x : String} {id : ℤ} (href : b.db.termReferenced id = true)
    (hx : a.dict.lookup x = some id) : b.dict.lookup x = some id := by
  rcases h.dicts with ⟨-, -, -, hdict, -, -⟩ | ⟨seqs, rfl⟩ | rfl | rfl | ⟨explicit, rfl⟩
  · rw [hdict]
    exact hx
  · cases h with
    | erase txn =>
      obtain ⟨t₂, keep, -, -, -, hscrub, -⟩ := eraseTxn_dicts txn
      exact lookup_evicted hok hscrub href hx
  · cases h with
    | scrub txn => exact lookup_evicted hok (Tables.scrubTerms_ok txn) href hx
  · cases h with
    | rebuildText on inline txn =>
      obtain ⟨grains, rows, c, -, -, hlooks, rfl, -, -⟩ := rebuildTextBody_ok txn
      show c.dict.lookup x = some id
      rw [hlooks.rest]
      exact hx
  · cases h with
    | reopen => exact (Assoc.lookup_ofRows _ _ hok.strings).2 ⟨_, hok.stored x id hx, rfl, rfl⟩

/-- **Every commit keeps the rows in order.** -/
theorem Commit.rowsOk {ev : Event} {a b : DejaDB} (h : Commit C ev a b) (hdict : DictOk a)
    (hok : a.RowsOk C) : b.RowsOk C := by
  have hpath := h.rowPath fun pr hpr => (h.prepared pr hpr).imp fun _ hv => hv.toLinked
  exact (Rows.Ok.path hok hpath).mono fun g hg pr ⟨view, hv⟩ hof =>
    ⟨view, hv.keep hof hg fun _ _ => h.keeps_terms hdict⟩

theorem createStore_rowsOk (C : Core G) (explicit : Option DejaDbOptions) (clock : ℕ → ℤ) :
    (createStore C explicit clock).RowsOk C := by
  rw [createStore_eq]
  refine ⟨List.nodup_nil, List.nodup_nil, ?_, ⟨?_, ?_, ?_, ?_, ?_, ?_⟩⟩ <;>
    simp [Tables.rows, Tables.empty]

/-- A handle in order: its dictionaries agree with the file, the rows of the file
agree with one another, and the link indexes are current. -/
structure DejaDB.Good (C : Core G) (st : DejaDB) : Prop extends st.Sound where
  dictOk : DictOk st
  rowsOk : st.RowsOk C

theorem createStore_good (C : Core G) (explicit : Option DejaDbOptions) (clock : ℕ → ℤ) :
    (createStore C explicit clock).Good C where
  vocabOk := (createStore_ok C explicit clock).1
  dictOk := (createStore_ok C explicit clock).2
  rowsOk := createStore_rowsOk C explicit clock
  link := by
    rw [createStore_eq]

theorem Idle.good {a b : DejaDB} (h : Idle a b) (hok : a.Good C) : b.Good C where
  vocabOk := h.vocabOk hok.vocabOk
  dictOk := h.dictOk hok.dictOk
  rowsOk := h.rowsOk hok.rowsOk
  link := by
    rw [h.file]
    exact hok.link

theorem Commit.good {ev : Event} {a b : DejaDB} (h : Commit C ev a b) (hok : a.Good C) :
    b.Good C where
  vocabOk := h.vocabOk hok.vocabOk
  dictOk := h.dictOk hok.dictOk
  rowsOk := h.rowsOk hok.dictOk hok.rowsOk
  link := h.link.trans hok.link

/-- **Invariants of good stores along a path.** -/
theorem Path.keeps_good {Γ : Event → DejaDB → Prop} {I : DejaDB → Prop}
    (hidle : ∀ a b, a.Good C → Idle a b → I a → I b)
    (hcommit : ∀ ev a b, a.Good C → Γ ev a → Commit C ev a b → I a → I b) {a b : DejaDB}
    (h : Path C Γ a b) (hgood : a.Good C) (hI : I a) : b.Good C ∧ I b :=
  h.keeps (I := fun st => st.Good C ∧ I st)
    (fun a b h hI => ⟨h.good hI.1, hidle a b hI.1 h hI.2⟩)
    (fun ev a b hΓ h hI => ⟨h.good hI.1, hcommit ev a b hI.1 hΓ h hI.2⟩) ⟨hgood, hI⟩

/-- **Invariants along a run.**  What idle moves and guarded commits keep on good
stores holds after every run of guarded operations. -/
theorem run_keeps {Γ : Event → DejaDB → Prop} {I : DejaDB → Prop}
    (hidle : ∀ a b, a.Good C → Idle a b → I a → I b)
    (hcommit : ∀ ev a b, a.Good C → Γ ev a → Commit C ev a b → I a → I b)
    {explicit : Option DejaDbOptions} {clock : ℕ → ℤ}
    (hinit : I (createStore C explicit clock)) {ops : List (Op G)}
    (h : Meets C Γ (createStore C explicit clock) ops) :
    ((createStore C explicit clock).steps C ops).Good C ∧
      I ((createStore C explicit clock).steps C ops) :=
  (steps_path (createStore_good C explicit clock).toSound h).keeps_good hidle hcommit
    (createStore_good C explicit clock) hinit

/-- A store some run of operations on a newly created file leads to. -/
def Reachable (C : Core G) (st : DejaDB) : Prop :=
  ∃ explicit clock, ∃ ops : List (Op G), st = (createStore C explicit clock).steps C ops

theorem meets_true (st : DejaDB) (ops : List (Op G)) : Meets C (fun _ _ => True) st ops := by
  induction ops generalizing st with
  | nil => trivial
  | cons op ops ih => exact ⟨fun _ _ => trivial, ih _⟩

theorem Reachable.good {st : DejaDB} (h : Reachable C st) : st.Good C := by
  obtain ⟨explicit, clock, ops, rfl⟩ := h
  exact (run_keeps (I := fun _ => True) (fun _ _ _ _ h => h) (fun _ _ _ _ _ _ h => h) trivial
    (meets_true _ ops)).1

theorem Reachable.steps {st : DejaDB} (h : Reachable C st) (ops : List (Op G)) :
    Reachable C (st.steps C ops) := by
  obtain ⟨explicit, clock, ops₀, rfl⟩ := h
  exact ⟨explicit, clock, ops₀ ++ ops, by rw [DejaDB.steps, DejaDB.steps, DejaDB.steps,
    List.foldl_append]⟩

/-- A newly created file under the sample codec. -/
def sampleStore : DejaDB := createStore sampleCore none fun _ => 9

theorem sampleStore_reachable : Reachable sampleCore sampleStore := ⟨none, fun _ => 9, [], rfl⟩

end Deja
