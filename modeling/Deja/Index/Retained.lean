import Deja.Heads.Chain
import Deja.Replica.Logged

/-!
# Grains that stay until they are erased

A commit drops a grain only with a `FORGET` of its address in the op-log.  This asks of
the tables no more than that sequence numbers and addresses are not shared, so it holds
of stores whose link indexes were rebuilt as well.
-/

namespace Deja

open Run

variable {G : Type} {C : Core G}

/-- The op-log of `t'` continues that of `t`, and each grain of `t` is still there or its
`FORGET` is among the new ops. -/
def Tables.Leaves (t t' : Tables) : Prop :=
  ∃ new, t'.oplog = t.oplog ++ new ∧ ∀ g ∈ t.grains,
    (∃ g' ∈ t'.grains, g'.hash = g.hash ∧ g'.blob = g.blob) ∨
      ∃ r ∈ new, r.hash = g.hash ∧ r.op = .forget

namespace Tables

variable {t t' t'' : Tables}

theorem Retains.leaves (h : t.Retains t') {new : List OpRow} (hlog : t'.oplog = t.oplog ++ new) :
    t.Leaves t' := ⟨new, hlog, fun g hg => .inl (h g hg)⟩

theorem Retains.leaves_same (h : t.Retains t') (hlog : t'.oplog = t.oplog) : t.Leaves t' :=
  h.leaves (show t'.oplog = t.oplog ++ [] by rw [hlog, List.append_nil])

theorem Leaves.refl (t : Tables) : t.Leaves t := (Retains.refl t).leaves_same rfl

theorem Leaves.trans (h : t.Leaves t') (h' : t'.Leaves t'') : t.Leaves t'' := by
  obtain ⟨new, hlog, hgrains⟩ := h
  obtain ⟨new', hlog', hgrains'⟩ := h'
  refine ⟨new ++ new', by rw [hlog', hlog, List.append_assoc], fun g hg => ?_⟩
  rcases hgrains g hg with ⟨g₁, hg₁, hhash₁, hblob₁⟩ | ⟨r, hr, hforget⟩
  · rcases hgrains' g₁ hg₁ with ⟨g₂, hg₂, hhash₂, hblob₂⟩ | ⟨r, hr, hhash, hop⟩
    · exact .inl ⟨g₂, hg₂, hhash₂.trans hhash₁, hblob₂.trans hblob₁⟩
    · exact .inr ⟨r, List.mem_append_right _ hr, hhash.trans hhash₁, hop⟩
  · exact .inr ⟨r, List.mem_append_left _ hr, hforget⟩

theorem insertPrepped_leaves {preps : List GrainPrep} {seq op hlc : ℤ}
    (h : t.insertPrepped preps seq op hlc = .ok t') : t.Leaves t' := by
  induction preps generalizing t seq op hlc with
  | nil =>
    cases h
    exact .refl _
  | cons pr preps ih =>
    obtain ⟨t₁, hone, hrest⟩ := except_bind_ok h
    obtain ⟨hins, -, -, -, -, hlog, -⟩ := insertPreppedOne_ok hone
    exact (hins.retains.leaves hlog).trans (ih hrest)

theorem mem_tombstones {targets : List GrainRow} {g : GrainRow} (hg : g ∈ targets) (op hlc : ℤ) :
    ∃ r ∈ tombstones targets op hlc, r.hash = g.hash ∧ r.op = .forget := by
  induction targets generalizing op hlc with
  | nil => cases hg
  | cons x targets ih =>
    rcases List.mem_cons.1 hg with rfl | hg
    · exact ⟨_, List.mem_cons_self, rfl, rfl⟩
    · obtain ⟨r, hr, hforget⟩ := ih hg (op + 1) (hlc + 1)
      exact ⟨r, List.mem_cons_of_mem _ hr, hforget⟩

/-- Rows dropped by their sequence numbers, each with its `FORGET`. -/
theorem leaves_of_filter {p : GrainRow → Bool} {new : List OpRow}
    (hlog : t'.oplog = t.oplog ++ new) (hgrains : t'.grains = t.grains.filter p)
    (hdropped : ∀ g ∈ t.grains, p g = false → ∃ r ∈ new, r.hash = g.hash ∧ r.op = .forget) :
    t.Leaves t' := by
  refine ⟨new, hlog, fun g hg => ?_⟩
  cases hp : p g with
  | true =>
    refine .inl ⟨g, ?_, rfl, rfl⟩
    rw [hgrains]
    exact List.mem_filter.2 ⟨hg, hp⟩
  | false => exact .inr (hdropped g hg hp)

end Tables

/-- **A commit drops no grain without its `FORGET`.** -/
theorem Commit.leaves {ev : Event} {a b : DejaDB} (h : Commit C ev a b)
    (hseqs : (a.db.grains.map GrainRow.seq).Nodup) : a.db.Leaves b.db := by
  cases h with
  | insert prepared txn => exact Tables.insertPrepped_leaves txn
  | @supersede _ old pr row _ now _ _ _ _ written prepared found txn =>
    obtain ⟨-, t₁, hins, rfl⟩ := Tables.supersedeTxn_ok found txn
    obtain ⟨hins, -, -, -, -, hlog, -⟩ := Tables.insertPreppedOne_ok hins
    have hframe := Tables.retireTip_frame (t₁.flipped row.seq old pr.hash now) row.key row.seq
    refine (hins.retains.leaves hlog).trans (Tables.Retains.leaves ?_ rfl)
    exact (t₁.flipped_retains _ _ _ _).trans (.of_eq hframe.grains)
  | merge written prepared tips txn =>
    obtain ⟨t₁, hins, rfl⟩ := Tables.mergeTxn_ok txn
    obtain ⟨hins, -, -, -, -, hlog, -⟩ := Tables.insertPreppedOne_ok hins
    exact (hins.retains.leaves hlog).trans
      (Tables.Retains.leaves (Tables.closeTips_retains _ _ _ t₁) rfl)
  | @forget _ hash row _ len _ found txn =>
    obtain ⟨-, rfl⟩ := Tables.forgetTxn_ok found txn
    obtain ⟨hrow, hhash⟩ := Tables.grainByHash_some found
    have hleaves : a.db.Leaves { (a.db.deleteSeq row.seq).retireTip row.key row.seq with
        oplog := a.db.oplog ++ [⟨a.nextOp, a.nextHlcValue, .forget, hash⟩] } := by
      refine Tables.leaves_of_filter rfl
        ((Tables.retireTip_frame (a.db.deleteSeq row.seq) row.key row.seq).grains.trans rfl)
        fun g hg hgone => ⟨_, List.mem_singleton_self _, ?_, rfl⟩
      have hseq : g.seq = row.seq := by simpa using hgone
      rw [List.inj_on_of_nodup_map hseqs hg hrow hseq, hhash]
    cases len <;> exact hleaves
  | @erase _ seqs ids out t _ txn =>
    have hgrains : t.grains = a.db.grains.filter fun g =>
        g.seq ∉ (a.db.grains.filter fun g => g.seq ∈ seqs).map GrainRow.seq := by
      obtain ⟨t₁, t₂, htargets, rfl, hscrub, -⟩ := Tables.eraseTxn_ok txn
      rw [hscrub.file]
      exact (Tables.reconcile_frame t₁ seqs _).grains.trans
        (Tables.eraseTargets_ok htargets).1.grains
    refine Tables.leaves_of_filter (Tables.eraseTxn_oplog txn) hgrains fun g hg hgone => ?_
    obtain ⟨g', hg', hseq⟩ := List.mem_map.1 (not_not.1 (of_decide_eq_false hgone))
    obtain rfl := List.inj_on_of_nodup_map hseqs (List.mem_of_mem_filter hg') hg hseq
    exact Tables.mem_tombstones hg' _ _
  | @scrub _ _ _ t txn =>
    have hfile := (Tables.scrubTerms_ok txn).file
    exact (Tables.Retains.of_eq (by show t.grains = _; rw [hfile])).leaves_same
      (by show t.oplog = _; rw [hfile])
  | insertBlob prepared txn =>
    obtain ⟨hins, -, -, -, -, hlog, -⟩ := Tables.insertBlobTxn_ok txn
    exact hins.retains.leaves hlog
  | @flip _ old new now tick =>
    exact (a.db.flipTxn_retains old new now).leaves_same (a.db.flipTxn_oplog old new now)
  | log txn =>
    obtain ⟨rfl, -⟩ := Tables.insertOp_ok txn
    exact ⟨_, rfl, fun g hg => .inl ⟨g, hg, rfl, rfl⟩⟩
  | defer on => exact .refl _
  | undefer => exact .refl _
  | rebuildText on inline txn =>
    obtain ⟨grains, rows, c, hmap, -, hlooks, rfl, -, -⟩ := rebuildTextBody_ok txn
    have hlog : c.db.oplog = a.db.oplog := by rw [hlooks.rest]
    exact (Tables.Retains.of_map (mapM_retext hmap) fun g => ⟨rfl, rfl⟩).leaves_same hlog
  | setEmbedder => exact .refl _
  | reopen => exact .refl _

end Deja
