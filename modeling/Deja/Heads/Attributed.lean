import Deja.Heads.Elected
import Deja.Spec.Issued
import Deja.Spec.Texts

/-!
# Whose rows they are

Sequence numbers are given out again after a reopen, so a row that outlives its
grain is taken over by a stranger.  `Attributed` says that no row does: every row
of every index belongs to a stored grain, has its namespace, and is what the
grain's own blob asks for.

The rows of an insert and the text tables are covered by `RowsOk` and `TextOk`
without any condition.  The head tables are covered as long as no replayed
supersession registers a fork tip without a subject and a relation
(`ForkKeyed`): such a tip is filed under the key `(ns, 0, 0)`, where neither a
forget nor an erasure looks for it.
-/

namespace Deja

variable {G : Type} {C : Core G}

/-! ## Rows that stay -/

/-- The grains and triples of `r` outside `seqs` are in `r'`, as far as the head
tables can tell. -/
structure Rows.Keeps (r r' : Rows) (seqs : List ℤ) : Prop where
  grains : ∀ g ∈ r.grains, g.seq ∉ seqs → ∃ g' ∈ r'.grains,
    g'.seq = g.seq ∧ g'.hash = g.hash ∧ g'.createdAt = g.createdAt ∧ g'.key = g.key
  triples : ∀ x ∈ r.triples, x.seq ∉ seqs → ∃ x' ∈ r'.triples,
    x'.seq = x.seq ∧ x'.key = x.key ∧ x'.o = x.o

namespace Rows.Keeps

variable {r r' r'' : Rows} {seqs : List ℤ}

theorem refl (r : Rows) : r.Keeps r seqs where
  grains g hg _ := ⟨g, hg, rfl, rfl, rfl, rfl⟩
  triples x hx _ := ⟨x, hx, rfl, rfl, rfl⟩

theorem trans (h : r.Keeps r' seqs) (h' : r'.Keeps r'' seqs) : r.Keeps r'' seqs where
  grains g hg hs := by
    obtain ⟨g', hg', hseq, hhash, hcreated, hkey⟩ := h.grains g hg hs
    obtain ⟨g'', hg'', hseq', hhash', hcreated', hkey'⟩ := h'.grains g' hg' (by rwa [hseq])
    exact ⟨g'', hg'', hseq'.trans hseq, hhash'.trans hhash, hcreated'.trans hcreated,
      hkey'.trans hkey⟩
  triples x hx hs := by
    obtain ⟨x', hx', hseq, hkey, ho⟩ := h.triples x hx hs
    obtain ⟨x'', hx'', hseq', hkey', ho'⟩ := h'.triples x' hx' (by rwa [hseq])
    exact ⟨x'', hx'', hseq'.trans hseq, hkey'.trans hkey, ho'.trans ho⟩

theorem insert (r : Rows) (pr : GrainPrep) (seq : ℤ) : r.Keeps (r.insert pr seq) seqs where
  grains g hg _ := ⟨g, List.mem_append_left _ hg, rfl, rfl, rfl, rfl⟩
  triples x hx _ := ⟨x, List.mem_append_left _ hx, rfl, rfl, rfl⟩

theorem close (r : Rows) (seq : ℤ) (by_ : Hash) (now : ℤ) :
    r.Keeps (r.close seq by_ now) seqs where
  grains g hg _ := ⟨_, List.mem_map_of_mem hg, by split_ifs <;> exact ⟨rfl, rfl, rfl, rfl⟩⟩
  triples x hx _ := ⟨_, List.mem_map_of_mem hx, by split_ifs <;> exact ⟨rfl, rfl, rfl⟩⟩

theorem point (r : Rows) (new old : Hash) : r.Keeps (r.point new old) seqs where
  grains g hg _ := ⟨_, List.mem_map_of_mem hg, by split_ifs <;> exact ⟨rfl, rfl, rfl, rfl⟩⟩
  triples x hx _ := ⟨x, hx, rfl, rfl, rfl⟩

theorem retext (r : Rows) (text : GrainRow → Option String) : r.Keeps (r.retext text) seqs where
  grains _ hg _ := ⟨_, List.mem_map_of_mem hg, rfl, rfl, rfl, rfl⟩
  triples x hx _ := ⟨x, hx, rfl, rfl, rfl⟩

theorem erase (r : Rows) (seqs : List ℤ) : r.Keeps (r.erase seqs) seqs where
  grains g hg hs := ⟨g, List.mem_filter.2 ⟨hg, by simpa using hs⟩, rfl, rfl, rfl, rfl⟩
  triples x hx hs := ⟨x, List.mem_filter.2 ⟨hx, by simpa using hs⟩, rfl, rfl, rfl⟩

end Rows.Keeps

/-! ## The head tables -/

/-- The tip is a stored grain at its own key. -/
def Rows.HeadOf (r : Rows) (x : HeadRow) : Prop :=
  ∃ g ∈ r.grains, g.seq = x.seq ∧ g.hash = x.hash ∧ g.createdAt = x.createdAt ∧ g.key = some x.key

/-- The provisional head is a stored grain at its own key, under the object of
one of its triples there. -/
def Rows.LatestOf (r : Rows) (e : LatestRow) : Prop :=
  (∃ g ∈ r.grains, g.seq = e.seq ∧ g.hash = e.hash ∧ g.key = some e.key) ∧
    ∃ x ∈ r.triples, x.seq = e.seq ∧ x.key = e.key ∧ x.o = e.o

/-- The head tables while an erasure of `seqs` still has the keys `keys` to
reconcile. -/
structure Tables.TipsBut (t : Tables) (seqs : List ℤ) (keys : List Key) : Prop where
  heads : ∀ x ∈ t.heads, t.rows.HeadOf x
  latest : ∀ e ∈ t.entityLatest, t.rows.LatestOf e ∨ e.seq ∈ seqs ∧ e.key ∈ keys

/-- Every tip and every provisional head belongs to a stored grain of its key. -/
structure Tables.TipsOwned (t : Tables) : Prop where
  heads : ∀ x ∈ t.heads, t.rows.HeadOf x
  latest : ∀ e ∈ t.entityLatest, t.rows.LatestOf e

section Keeps

variable {r r' : Rows} {seqs : List ℤ}

theorem Rows.HeadOf.keep {x : HeadRow} (h : r.HeadOf x) (hkeep : r.Keeps r' seqs)
    (hx : x.seq ∉ seqs) : r'.HeadOf x := by
  obtain ⟨g, hg, hseq, hhash, hcreated, hkey⟩ := h
  obtain ⟨g', hg', hseq', hhash', hcreated', hkey'⟩ := hkeep.grains g hg (by rwa [hseq])
  exact ⟨g', hg', hseq'.trans hseq, hhash'.trans hhash, hcreated'.trans hcreated,
    hkey'.trans hkey⟩

theorem Rows.LatestOf.keep {e : LatestRow} (h : r.LatestOf e) (hkeep : r.Keeps r' seqs)
    (he : e.seq ∉ seqs) : r'.LatestOf e := by
  obtain ⟨⟨g, hg, hseq, hhash, hkey⟩, x, hx, hxseq, hxkey, hxo⟩ := h
  obtain ⟨g', hg', hseq', hhash', -, hkey'⟩ := hkeep.grains g hg (by rwa [hseq])
  obtain ⟨x', hx', hxseq', hxkey', hxo'⟩ := hkeep.triples x hx (by rwa [hxseq])
  exact ⟨⟨g', hg', hseq'.trans hseq, hhash'.trans hhash, hkey'.trans hkey⟩,
    x', hx', hxseq'.trans hxseq, hxkey'.trans hxkey, hxo'.trans hxo⟩

end Keeps

namespace Tables

variable {t t' : Tables} {seqs : List ℤ} {keys : List Key}

theorem TipsOwned.keep (h : t.TipsOwned) (hkeep : t.rows.Keeps t'.rows [])
    (hheads : ∀ x ∈ t'.heads, x ∈ t.heads ∨ t'.rows.HeadOf x)
    (hlatest : ∀ e ∈ t'.entityLatest, e ∈ t.entityLatest ∨ t'.rows.LatestOf e) :
    t'.TipsOwned where
  heads x hx := (hheads x hx).elim (fun hx => (h.heads x hx).keep hkeep List.not_mem_nil) id
  latest e he := (hlatest e he).elim (fun he => (h.latest e he).keep hkeep List.not_mem_nil) id

/-- The same head tables over rows that stay. -/
theorem TipsOwned.congr (h : t.TipsOwned) (hkeep : t.rows.Keeps t'.rows [])
    (hheads : t'.heads = t.heads) (hlatest : t'.entityLatest = t.entityLatest) : t'.TipsOwned :=
  h.keep hkeep (fun x hx => .inl (by rwa [← hheads])) fun e he => .inl (by rwa [← hlatest])

theorem TipsOwned.but (h : t.TipsOwned) (seqs : List ℤ) (keys : List Key) :
    t.TipsBut seqs keys where
  heads := h.heads
  latest e he := .inl (h.latest e he)

theorem TipsBut.owned (h : t.TipsBut seqs []) : t.TipsOwned where
  heads := h.heads
  latest e he := (h.latest e he).resolve_right fun hbad => List.not_mem_nil hbad.2

/-- An elected tip is what the join of tips and triples answers. -/
theorem latestOf_elect {k : Key} {o : ℤ} {x : HeadRow} (h : ∀ x ∈ t.heads, t.rows.HeadOf x)
    (helect : t.elect k = some (o, x)) : t.rows.LatestOf ⟨k.ns, k.s, k.p, o, x.seq, x.hash⟩ := by
  have hmem := List.argmax_mem helect
  unfold tips at hmem
  obtain ⟨y, hy, hmap⟩ := List.mem_flatMap.1 hmem
  obtain ⟨tr, htr, heq⟩ := List.mem_map.1 hmap
  cases heq
  obtain ⟨hx, hxk⟩ := List.mem_filter.1 hy
  obtain ⟨htr, hjoin⟩ := List.mem_filter.1 htr
  have hxk : x.key = k := by simpa using hxk
  obtain ⟨hseq, hkey⟩ : tr.seq = x.seq ∧ tr.key = x.key := by simpa using hjoin
  obtain ⟨g, hg, hgs, hgh, -, hgk⟩ := h x hx
  subst hxk
  exact ⟨⟨g, hg, hgs, hgh, hgk⟩, tr, htr, hseq, hkey, rfl⟩

theorem TipsBut.reelect {k : Key} (h : t.TipsBut seqs keys) : (t.reelect k).TipsBut seqs keys := by
  have hrows := (reelect_frame t k).rows
  refine ⟨fun x hx => ?_, fun e he => ?_⟩
  · rw [reelect_heads] at hx
    rw [hrows]
    exact h.heads x hx
  · rw [hrows]
    unfold Tables.reelect at he
    cases helect : t.elect k with
    | none =>
      rw [helect] at he
      exact h.latest e he
    | some x =>
      rw [helect] at he
      rcases mem_putLatest.1 he with ⟨he, -⟩ | rfl
      · exact h.latest e he
      · exact .inl (latestOf_elect h.heads helect)

/-- One key reconciled. -/
theorem TipsBut.reconcileKey {k : Key} (h : t.TipsBut seqs (k :: keys)) :
    ((t.deleteLatest k seqs).reelect k).TipsBut seqs keys := by
  refine TipsBut.reelect ⟨h.heads, fun e he => ?_⟩
  obtain ⟨he, hgone⟩ := List.mem_filter.1 he
  rcases h.latest e he with hok | ⟨hseq, hkey⟩
  · exact .inl hok
  · refine .inr ⟨hseq, (List.mem_cons.1 hkey).resolve_left fun hk => ?_⟩
    simp [hk, hseq] at hgone

theorem TipsBut.reconcile (h : t.TipsBut seqs keys) : (t.reconcile seqs keys).TipsOwned := by
  induction keys generalizing t with
  | nil => exact h.owned
  | cons k keys ih => exact ih h.reconcileKey

/-- Grains at `seqs` go, and so do their tips. -/
theorem TipsOwned.drop (h : t.TipsOwned) (keys : List Key)
    (hkeep : t.rows.Keeps t'.rows seqs)
    (hheads : ∀ x ∈ t'.heads, x ∈ t.heads ∧ x.seq ∉ seqs)
    (hlatest : t'.entityLatest = t.entityLatest)
    (hkeys : ∀ e ∈ t.entityLatest, e.seq ∈ seqs → e.key ∈ keys) : t'.TipsBut seqs keys where
  heads x hx := (h.heads x (hheads x hx).1).keep hkeep (hheads x hx).2
  latest e he := by
    rw [hlatest] at he
    by_cases hs : e.seq ∈ seqs
    · exact .inr ⟨hs, hkeys e he hs⟩
    · exact .inl ((h.latest e he).keep hkeep hs)

/-- A grain that stays, retired from its key. -/
theorem TipsOwned.retireTip (h : t.TipsOwned) (k : Option Key) (seq : ℤ) :
    (t.retireTip k seq).TipsOwned := by
  cases k with
  | none => exact h
  | some k =>
    have hdel : (t.deleteHead k seq).TipsOwned :=
      h.keep (.refl _) (fun x hx => .inl (List.mem_of_mem_filter hx)) fun e he => .inl he
    exact (hdel.but [seq] [k]).reconcile

/-! ## One transaction at a time -/

theorem TipsOwned.insert {pr : GrainPrep} {seq : ℤ} (h : t.TipsOwned) (hins : t.Inserts pr seq t')
    (hheads : ∀ x ∈ t'.heads, x ∈ t.heads ∨
      pr.spo.isSome ∧ x.seq = seq ∧ x.hash = pr.hash ∧ x.createdAt = pr.created ∧
        pr.key = some x.key)
    (hlatest : ∀ e ∈ t'.entityLatest, e ∈ t.entityLatest ∨
      ∃ s p o, pr.spo = some (s, p, o) ∧ e = ⟨pr.nsId, s, p, o, seq, pr.hash⟩)
    (hwhole : pr.Whole) : t'.TipsOwned := by
  have hrows : t'.rows = t.rows.insert pr seq := by
    simp only [Tables.rows, Rows.insert, hins.grains, hins.triples, hins.osp, hins.threadIdx,
      hins.runIdx, hins.provIdx, hins.corpusIdx]
  have hnew : pr.grainRow seq ∈ t'.rows.grains := by
    rw [hrows]
    exact List.mem_append_right _ (List.mem_singleton_self _)
  refine h.keep (by rw [hrows]; exact .insert _ pr seq) (fun x hx => ?_) fun e he => ?_
  · refine (hheads x hx).imp_right ?_
    rintro ⟨-, hseq, hhash, hcreated, hkey⟩
    exact ⟨_, hnew, hseq.symm, hhash.symm, hcreated.symm,
      (GrainPrep.grainRow_key hwhole seq).trans hkey⟩
  · refine (hlatest e he).imp_right ?_
    rintro ⟨s, p, o, hspo, rfl⟩
    refine ⟨⟨_, hnew, rfl, rfl, ?_⟩, ⟨pr.nsId, s, p, o, seq, true⟩, ?_, rfl, rfl, rfl⟩
    · rw [GrainPrep.grainRow_key hwhole seq, GrainPrep.key, hspo]
      rfl
    · rw [hrows]
      exact List.mem_append_right _ (GrainPrep.mem_tripleRows.2 (.inl ⟨s, p, o, hspo, rfl⟩))

theorem insertPreppedOne_tipsOwned {pr : GrainPrep} {seq op hlc : ℤ}
    (h : t.insertPreppedOne pr seq op hlc = .ok t') (hw : pr.Whole) (hok : t.TipsOwned) :
    t'.TipsOwned := by
  obtain ⟨hins, hheads, hlatest, -⟩ := insertPreppedOne_ok h
  unfold collapseHeads at hheads hlatest
  cases hspo : pr.spo with
  | none =>
    simp only [hspo] at hheads hlatest
    exact hok.insert hins (fun x hx => .inl (by rwa [← hheads]))
      (fun e he => .inl (by rwa [← hlatest])) hw
  | some y =>
    obtain ⟨s, p, o⟩ := y
    simp only [hspo] at hheads hlatest
    refine hok.insert hins (fun x hx => ?_) (fun e he => ?_) hw
    · rw [hheads] at hx
      rcases List.mem_append.1 hx with hx | hx
      · exact .inl (List.mem_of_mem_filter hx)
      · rw [List.mem_singleton.1 hx]
        exact .inr ⟨by simp [hspo], rfl, rfl, rfl, by rw [GrainPrep.key, hspo]; rfl⟩
    · rw [hlatest] at he
      rcases mem_putLatest.1 he with ⟨he, -⟩ | rfl
      · exact .inl he
      · exact .inr ⟨s, p, o, hspo, rfl⟩

theorem insertPrepped_tipsOwned {preps : List GrainPrep} {seq op hlc : ℤ}
    (h : t.insertPrepped preps seq op hlc = .ok t') (hw : ∀ pr ∈ preps, pr.Whole)
    (hok : t.TipsOwned) : t'.TipsOwned := by
  induction preps generalizing t seq op hlc with
  | nil =>
    cases h
    exact hok
  | cons pr preps ih =>
    obtain ⟨t₁, hone, hrest⟩ := except_bind_ok h
    rw [List.forall_mem_cons] at hw
    exact ih hrest hw.2 (insertPreppedOne_tipsOwned hone hw.1 hok)

/-- Registering a tip adds its row, and elects it or nothing. -/
theorem mem_registerTip {y : HeadRow} {o : ℤ} :
    (∀ x ∈ (t.registerTip y o).heads, x ∈ t.heads ∨ x = y) ∧
      ∀ e ∈ (t.registerTip y o).entityLatest,
        e ∈ t.entityLatest ∨ e = ⟨y.ns, y.s, y.p, o, y.seq, y.hash⟩ := by
  have hput : ∀ x ∈ (t.putHead y).heads, x ∈ t.heads ∨ x = y := fun x hx =>
    (List.mem_append.1 hx).imp List.mem_of_mem_filter List.mem_singleton.1
  unfold registerTip
  simp only
  split_ifs
  · exact ⟨hput, fun e he => (mem_putLatest.1 he).imp_left And.left⟩
  · exact ⟨hput, fun e he => .inl he⟩

theorem insertBlobTxn_tipsOwned {pr : GrainPrep} {seq op hlc : ℤ} {kind : OpKind}
    (h : t.insertBlobTxn pr seq op hlc kind = .ok t') (hw : pr.Whole) (hok : t.TipsOwned) :
    t'.TipsOwned := by
  obtain ⟨hins, hheads, hlatest, -⟩ := insertBlobTxn_ok h
  unfold unionHeads at hheads hlatest
  cases hspo : pr.spo with
  | none =>
    simp only [hspo] at hheads hlatest
    exact hok.insert hins (fun x hx => .inl (by rwa [← hheads]))
      (fun e he => .inl (by rwa [← hlatest])) hw
  | some y =>
    obtain ⟨s, p, o⟩ := y
    simp only [hspo] at hheads hlatest
    refine hok.insert hins (fun x hx => ?_) (fun e he => ?_) hw
    · rw [hheads] at hx
      refine (mem_registerTip.1 x hx).imp_right ?_
      rintro rfl
      exact ⟨by simp [hspo], rfl, rfl, rfl, by rw [GrainPrep.key, hspo]; rfl⟩
    · rw [hlatest] at he
      exact (mem_registerTip.2 e he).imp_right fun he => ⟨s, p, o, hspo, he⟩

theorem flipped_keeps (t : Tables) (seq : ℤ) (old new : Hash) (now : ℤ) {seqs : List ℤ} :
    t.rows.Keeps (t.flipped seq old new now).rows seqs :=
  (Rows.Keeps.close t.rows seq new now).trans (.point _ new old)

theorem TipsOwned.flipped (h : t.TipsOwned) (seq : ℤ) (old new : Hash) (now : ℤ) :
    (t.flipped seq old new now).TipsOwned :=
  h.congr (t.flipped_keeps seq old new now) rfl rfl

theorem supersedeTxn_tipsOwned {old : Hash} {row : GrainRow} {pr : GrainPrep} {n : Slots}
    (found : t.grainByHash old = some row) (h : t.supersedeTxn old row.key pr n = .ok t')
    (hw : pr.Whole) (hok : t.TipsOwned) : t'.TipsOwned := by
  obtain ⟨-, t₁, hins, rfl⟩ := supersedeTxn_ok found h
  have hflip := (insertPreppedOne_tipsOwned hins hw hok).flipped row.seq old pr.hash n.now
  exact (hflip.retireTip row.key row.seq).congr (.refl _) rfl rfl

theorem TipsOwned.closeTips (h : t.TipsOwned) (tips : List Hash) (merge : Hash) (now : ℤ) :
    (tips.foldl (fun t tip => t.closeTip tip merge now) t).TipsOwned := by
  induction tips generalizing t with
  | nil => exact h
  | cons tip tips ih =>
    have hone : (t.closeTip tip merge now).TipsOwned := by
      unfold closeTip
      cases t.grainByHash tip with
      | none => exact h
      | some g =>
        simp only
        split_ifs
        · exact h.congr (.close _ g.seq merge now) rfl rfl
        · exact h
    exact ih hone

theorem mergeTxn_tipsOwned {tips : List Hash} {pr : GrainPrep} {n : Slots}
    (h : t.mergeTxn tips pr n = .ok t') (hw : pr.Whole) (hok : t.TipsOwned) : t'.TipsOwned := by
  obtain ⟨t₁, hins, rfl⟩ := mergeTxn_ok h
  exact ((insertPreppedOne_tipsOwned hins hw hok).closeTips tips pr.hash n.now).congr (.refl _)
    rfl rfl

/-- A tip at the number of a stored grain stands at the grain's key. -/
theorem key_of_headOf {L : GrainPrep → Prop} {k : Key} {row g : GrainRow} (hrows : t.rows.Ok L)
    (hrow : row ∈ t.grains) (hg : g ∈ t.rows.grains) (hseq : g.seq = row.seq)
    (hkey : g.key = some k) : row.key = some k := by
  rw [← hrows.eq_of_seq hg hrow hseq]
  exact hkey

theorem forgetTxn_tipsOwned {L : GrainPrep → Prop} {hash : Hash} {row : GrainRow}
    {len : Option ℤ} {op hlc : ℤ} (found : t.grainByHash hash = some row)
    (h : t.forgetTxn hash row.key op hlc = .ok (len, t')) (hrows : t.rows.Ok L)
    (hok : t.TipsOwned) : t'.TipsOwned := by
  obtain ⟨-, rfl⟩ := forgetTxn_ok found h
  have hrow := (grainByHash_some found).1
  have hhead : ∀ x ∈ t.heads, x.seq = row.seq → row.key = some x.key := fun x hx hxs => by
    obtain ⟨g, hg, hgs, -, -, hgk⟩ := hok.heads x hx
    exact key_of_headOf hrows hrow hg (hgs.trans hxs) hgk
  have hlatest : ∀ e ∈ t.entityLatest, e.seq = row.seq → row.key = some e.key := fun e he hes => by
    obtain ⟨⟨g, hg, hgs, -, hgk⟩, -⟩ := hok.latest e he
    exact key_of_headOf hrows hrow hg (hgs.trans hes) hgk
  have hkeep : t.rows.Keeps (t.deleteSeq row.seq).rows [row.seq] := by
    have hrows : (t.deleteSeq row.seq).rows = t.rows.erase [row.seq] := by
      simp [Tables.rows, Rows.erase, Tables.deleteSeq]
    rw [hrows]
    exact .erase _ _
  have hdone : ((t.deleteSeq row.seq).retireTip row.key row.seq).TipsOwned := by
    cases hkey : row.key with
    | none =>
      refine (hok.drop [] hkeep (fun x hx => ⟨hx, ?_⟩) rfl
        fun e he hes => ?_).owned
      · rw [List.mem_singleton]
        intro hxs
        cases hkey.symm.trans (hhead x hx hxs)
      · cases hkey.symm.trans (hlatest e he (List.mem_singleton.1 hes))
    | some k =>
      have hdrop : ((t.deleteSeq row.seq).deleteHead k row.seq).TipsBut [row.seq] [k] := by
        refine hok.drop [k] hkeep (fun x hx => ?_) rfl fun e he hes => ?_
        · obtain ⟨hx, hgone⟩ := List.mem_filter.1 hx
          refine ⟨hx, fun hxs => ?_⟩
          have hxs := List.mem_singleton.1 hxs
          have hxk : x.key = k := (Option.some_inj.1 (hkey.symm.trans (hhead x hx hxs))).symm
          simp [hxk, hxs] at hgone
        · rw [List.mem_singleton]
          exact (Option.some_inj.1 (hkey.symm.trans
            (hlatest e he (List.mem_singleton.1 hes)))).symm
      exact hdrop.reconcile
  exact hdone.congr (.refl _) rfl rfl

theorem eraseTxn_tipsOwned {seqs ids : List ℤ} {op hlc : ℤ} {out : EraseOut}
    (h : t.eraseTxn seqs ids op hlc = .ok (out, t')) (hok : t.TipsOwned) : t'.TipsOwned := by
  obtain ⟨t₁, t₂, htargets, rfl, hscrub, -⟩ := eraseTxn_ok h
  obtain ⟨herase, hheads, hlatest, -⟩ := eraseTargets_ok htargets
  have htarget : ∀ {g : GrainRow}, g ∈ t.grains → g.seq ∈ seqs →
      g ∈ t.grains.filter fun g => g.seq ∈ seqs := fun hg hs =>
    List.mem_filter.2 ⟨hg, by simpa using hs⟩
  have hkeep : t.rows.Keeps t₁.rows seqs := by
    refine ⟨fun g hg hs => ⟨g, ?_, rfl, rfl, rfl, rfl⟩, fun x hx hs => ⟨x, ?_, rfl, rfl, rfl⟩⟩
    all_goals
      simp only [Tables.rows, herase.grains, herase.triples]
      refine List.mem_filter.2 ⟨‹_›, ?_⟩
      rw [decide_eq_true_eq, List.mem_map]
      rintro ⟨g', hg', hgs'⟩
      exact hs (by rw [← hgs']; simpa using (List.mem_filter.1 hg').2)
  have hbut : t₁.TipsBut seqs ((t.grains.filter fun g => g.seq ∈ seqs).filterMap
      GrainRow.key).dedup := by
    refine hok.drop _ hkeep (fun x hx => ?_) hlatest fun e he hes => ?_
    · rw [hheads] at hx
      obtain ⟨hx, hgone⟩ := List.mem_filter.1 hx
      refine ⟨hx, fun hxs => ?_⟩
      obtain ⟨g, hg, hgs, -, -, hgk⟩ := hok.heads x hx
      rw [decide_eq_true_eq] at hgone
      exact hgone ⟨g, htarget hg (by rwa [hgs]), hgk, hgs⟩
    · obtain ⟨⟨g, hg, hgs, -, hgk⟩, -⟩ := hok.latest e he
      exact List.mem_dedup.2 (List.mem_filterMap.2 ⟨g, htarget hg (by rwa [hgs]), hgk⟩)
  rw [hscrub.file]
  exact hbut.reconcile.congr (.refl _) rfl rfl

/-! ## A replayed supersession -/

/-- A fork tip that is registered has a subject and a relation. -/
def ForkKeyed (t : Tables) (old new : Hash) : Prop :=
  ∀ row ∈ t.grainByHash old, row.svt ≠ none → row.supersededBy ≠ some new →
    ∀ g ∈ t.grainByHash new, g.key.isSome

instance (t : Tables) (old new : Hash) : Decidable (t.ForkKeyed old new) :=
  inferInstanceAs (Decidable (∀ row ∈ t.grainByHash old, row.svt ≠ none →
    row.supersededBy ≠ some new → ∀ g ∈ t.grainByHash new, g.key.isSome))

/-- The own triple of a stored grain with a key is in the triples. -/
theorem own_triple {L : GrainPrep → Prop} {g : GrainRow} {k : Key} (hrows : t.rows.Ok L)
    (hL : ∀ pr, L pr → pr.Whole) (hg : g ∈ t.grains) (hk : g.key = some k) :
    k = ⟨g.ns, g.s.getD 0, g.p.getD 0⟩ ∧
      ∃ x ∈ t.triples, x.seq = g.seq ∧ x.key = k ∧ x.o = g.o.getD 0 := by
  obtain ⟨pr, hpr, hof⟩ := hrows.spelled g hg
  have hkey := hof.key (hL pr hpr)
  rw [hk, GrainPrep.key] at hkey
  obtain ⟨⟨s, p, o⟩, hspo, rfl⟩ := Option.map_eq_some_iff.1 hkey.symm
  obtain ⟨hs, hp, ho⟩ := GrainPrep.spo_some hspo
  have hrow := hof.row
  obtain ⟨hgns, hgs, hgp, hgo⟩ :
      g.ns = pr.nsId ∧ g.s = pr.s ∧ g.p = pr.p ∧ g.o = pr.o := by
    rw [hrow]
    exact ⟨rfl, rfl, rfl, rfl⟩
  rw [hgns, hgs, hgp, hgo, hs, hp, ho]
  have htriple := hof.mem_triples.2
    ⟨_, GrainPrep.mem_tripleRows.2 (.inl ⟨s, p, o, hspo, rfl⟩), rfl⟩
  exact ⟨rfl, _, htriple.1, htriple.2, rfl, rfl⟩

theorem flipTxn_tipsOwned {L : GrainPrep → Prop} {old new : Hash} {now : ℤ}
    (hkeyed : t.ForkKeyed old new) (hrows : t.rows.Ok L) (hL : ∀ pr, L pr → pr.Whole)
    (hok : t.TipsOwned) : (t.flipTxn old new now).2.TipsOwned := by
  unfold flipTxn
  cases hold : t.grainByHash old with
  | none => exact hok
  | some row =>
    simp only
    split_ifs with hsvt hby
    · exact hok
    · have hframe := (registerFork_frame t new).rows
      unfold registerFork at hframe ⊢
      cases hnew : t.grainByHash new with
      | none => exact hok
      | some g =>
        obtain ⟨hg, hgh⟩ := grainByHash_some hnew
        have hsome := hkeyed row hold (fun hs => by simp [hs] at hsvt) hby g hnew
        obtain ⟨k, hk⟩ := Option.isSome_iff_exists.1 hsome
        obtain ⟨hkey, x, hx, hxs, hxk, hxo⟩ := own_triple hrows hL hg hk
        simp only [hnew] at hframe ⊢
        refine hok.keep (by rw [hframe]; exact .refl _) (fun y hy => ?_) fun e he => ?_
        · refine (mem_registerTip.1 y hy).imp_right ?_
          rintro rfl
          rw [hframe]
          exact ⟨g, hg, rfl, hgh, rfl, hk.trans (congrArg some hkey)⟩
        · refine (mem_registerTip.2 e he).imp_right ?_
          rintro rfl
          rw [hframe]
          exact ⟨⟨g, hg, rfl, hgh, hk.trans (congrArg some hkey)⟩, x, hx, hxs,
            hxk.trans hkey, hxo⟩
    · have hflip := hok.flipped row.seq old new now
      unfold flipLinear
      cases row.key with
      | none => exact hflip
      | some k =>
        exact hflip.keep (.refl _) (fun x hx => .inl (List.mem_of_mem_filter hx))
          fun e he => .inl he

end Tables

/-! ## Along a run -/

/-- What a commit must meet for every row to keep its grain. -/
def ForkGuard (ev : Event) (a : DejaDB) : Prop :=
  match ev with
  | .flip old new => a.db.ForkKeyed old new
  | _ => True

instance (ev : Event) (a : DejaDB) : Decidable (ForkGuard ev a) :=
  match ev with
  | .flip old new => inferInstanceAs (Decidable (a.db.ForkKeyed old new))
  | .insert _ | .supersede .. | .merge .. | .forget _ | .erase _ | .scrub | .insertBlob ..
  | .log .. | .defer | .undefer | .rebuildText | .setEmbedder _ | .reopen _ => .isTrue trivial

theorem Idle.tipsOwned {a b : DejaDB} (h : Idle a b) (hok : a.db.TipsOwned) : b.db.TipsOwned := by
  rw [h.file]
  exact hok.congr (.refl _) rfl rfl

/-- **Every guarded commit keeps the tips with their grains.** -/
theorem Commit.tipsOwned {ev : Event} {a b : DejaDB} (h : Commit C ev a b)
    (hg : ForkGuard ev a) (hrows : a.RowsOk C) (hok : a.db.TipsOwned) : b.db.TipsOwned := by
  have hwhole : ∀ pr ∈ ev.preps, pr.Whole := fun pr hpr =>
    (h.prepared pr hpr).elim fun _ hv => hv.toLinked.whole
  cases h with
  | insert prepared txn => exact Tables.insertPrepped_tipsOwned txn hwhole hok
  | supersede written prepared found txn =>
    exact Tables.supersedeTxn_tipsOwned found txn (hwhole _ (List.mem_singleton_self _)) hok
  | merge written prepared tips txn =>
    exact Tables.mergeTxn_tipsOwned txn (hwhole _ (List.mem_singleton_self _)) hok
  | forget found txn =>
    rw [DejaDB.droppedDoc_db]
    exact Tables.forgetTxn_tipsOwned found txn hrows hok
  | erase txn => exact Tables.eraseTxn_tipsOwned txn hok
  | @scrub _ ids gone t txn =>
    show t.TipsOwned
    rw [(Tables.scrubTerms_ok txn).file]
    exact hok.congr (.refl _) rfl rfl
  | insertBlob prepared txn =>
    exact Tables.insertBlobTxn_tipsOwned txn (hwhole _ (List.mem_singleton_self _)) hok
  | flip =>
    exact Tables.flipTxn_tipsOwned hg hrows (fun pr ⟨_, hv⟩ => hv.whole) hok
  | log txn =>
    obtain ⟨rfl, -⟩ := Tables.insertOp_ok txn
    exact hok.congr (.refl _) rfl rfl
  | rebuildText on inline txn =>
    obtain ⟨grains, rows, c, hgrains, -, hlooks, rfl, -, -⟩ := rebuildTextBody_ok txn
    have hdb : c.db = a.db := by rw [hlooks.rest]
    rw [hdb, mapM_retext hgrains]
    exact hok.congr (.retext _ _) rfl rfl
  | reopen => exact hok.congr (.refl _) rfl rfl
  | defer | undefer | setEmbedder => exact hok

theorem createStore_tipsOwned (C : Core G) (explicit : Option DejaDbOptions) (clock : ℕ → ℤ) :
    (createStore C explicit clock).db.TipsOwned := by
  rw [createStore_eq]
  exact ⟨List.forall_mem_nil _, List.forall_mem_nil _⟩

/-! ## Every row -/

/-- A stored grain at `seq` and its blob as prepared for insertion satisfy
`P`. -/
def DejaDB.RowOf (C : Core G) (st : DejaDB) (seq : ℤ) (P : GrainRow → GrainPrep → Prop) : Prop :=
  ∃ g ∈ st.db.grains, g.seq = seq ∧ ∃ pr view, Linked C st view pr ∧
    (pr.blob = g.blob ∧ pr.hash = g.hash ∧ pr.nsId = g.ns) ∧ P g pr

/-- Every index row belongs to a stored grain, has its namespace, and is what
the grain's own blob asks for; vectors come from the embedders `E`. -/
structure DejaDB.Attributed (C : Core G) (E : Embedder → Prop) (st : DejaDB) : Prop where
  triples : ∀ x ∈ st.db.triples, st.RowOf C x.seq fun g pr =>
    x.ns = g.ns ∧ { x with cur := true } ∈ pr.tripleRows x.seq
  osp : ∀ x ∈ st.db.osp, st.RowOf C x.seq fun g pr =>
    x.ns = g.ns ∧ { x with cur := true } ∈ pr.ospRows x.seq
  heads : ∀ x ∈ st.db.heads, st.RowOf C x.seq fun g pr =>
    x.ns = g.ns ∧ pr.key = some x.key ∧ x.hash = g.hash ∧ x.createdAt = g.createdAt
  entityLatest : ∀ e ∈ st.db.entityLatest, st.RowOf C e.seq fun g pr =>
    e.ns = g.ns ∧ pr.key = some e.key ∧ e.hash = g.hash ∧
      ∃ x ∈ pr.tripleRows e.seq, x.key = e.key ∧ x.o = e.o
  threadIdx : ∀ x ∈ st.db.threadIdx, st.RowOf C x.seq fun g pr =>
    x.ns = g.ns ∧ x ∈ pr.threadRows x.seq
  runIdx : ∀ x ∈ st.db.runIdx, st.RowOf C x.seq fun g pr => x.ns = g.ns ∧ x ∈ pr.runRows x.seq
  provIdx : ∀ x ∈ st.db.provIdx, st.RowOf C x.seq fun g pr => x.ns = g.ns ∧ x ∈ pr.provRows x.seq
  corpusIdx : ∀ seq ∈ st.db.corpusIdx, st.RowOf C seq fun _ pr => seq ∈ pr.corpusRows seq
  embeddings : ∀ e ∈ st.db.embeddings, st.RowOf C e.seq fun g _ =>
    ∃ m s, E m ∧ TextOf C g.blob s ∧ m s = .ok e.vec
  ftsPost : ∀ x ∈ st.db.ftsPost, st.RowOf C x.seq fun g _ => x.ns = g.ns ∧
    ∃ s term, TextOf C g.blob s ∧ (term, x.tf) ∈ (tokenFreqs C s).1 ∧
      ⟨x.term, term⟩ ∈ st.db.ftsVocab
  ftsDoc : ∀ d ∈ st.db.ftsDoc, st.RowOf C d.seq fun g _ =>
    ∃ s, TextOf C g.blob s ∧ d.len = (tokenFreqs C s).2

section RowOf

variable {st : DejaDB} {seq : ℤ}

/-- A stored grain with its prepared form and its rows. -/
theorem DejaDB.RowsOk.rowOf {P : GrainRow → GrainPrep → Prop} (h : st.RowsOk C) {g : GrainRow}
    (hg : g ∈ st.db.grains) (hseq : g.seq = seq)
    (hP : ∀ pr, pr.Whole → st.db.rows.Of pr g → g.ns = pr.nsId → P g pr) : st.RowOf C seq P := by
  obtain ⟨pr, ⟨view, hv⟩, hof⟩ := h.spelled g hg
  have hns : g.ns = pr.nsId := by rw [hof.row]; rfl
  refine ⟨g, hg, hseq, pr, view, hv, ⟨?_, ?_, hns.symm⟩, hP pr hv.whole hof hns⟩
  · rw [hof.row]
    rfl
  · rw [hof.row]
    rfl

theorem Tables.At.rowOf {P : ℤ → Bytes → Prop} {Q : GrainRow → Prop} (hrows : st.RowsOk C)
    (h : st.db.At seq P) (hPQ : ∀ g, P g.ns g.blob → Q g) :
    st.RowOf C seq fun g _ => Q g := by
  obtain ⟨g, hg, hseq, hP⟩ := h
  exact hrows.rowOf hg hseq fun _ _ _ _ => hPQ g hP

/-- A row of an index that holds a grain's rows unchanged. -/
theorem mem_of_filter_eq {α : Type} {key : α → ℤ} {l block : List α} {s : ℤ}
    (h : l.filter (fun x => key x = s) = block) {x : α} (hx : x ∈ l) (hs : key x = s) :
    x ∈ block := by
  rw [← h]
  exact List.mem_filter.2 ⟨hx, by simpa using hs⟩

theorem GrainPrep.tripleRows_ns (pr : GrainPrep) (seq : ℤ) :
    ∀ x ∈ pr.tripleRows seq, x.ns = pr.nsId ∧ { x with cur := true } ∈ pr.tripleRows seq := by
  intro x hx
  rcases GrainPrep.mem_tripleRows.1 hx with ⟨s, p, o, -, rfl⟩ | ⟨l, -, rfl⟩ <;> exact ⟨rfl, hx⟩

theorem GrainPrep.ospRows_ns (pr : GrainPrep) (seq : ℤ) :
    ∀ x ∈ pr.ospRows seq, x.ns = pr.nsId ∧ { x with cur := true } ∈ pr.ospRows seq := by
  intro x hx
  have hx' := hx
  rw [GrainPrep.ospRows, List.mem_append] at hx'
  rcases hx' with hx' | hx'
  · cases hspo : pr.spo with
    | none => simp [hspo] at hx'
    | some y =>
      rw [hspo] at hx'
      simp only at hx'
      split_ifs at hx'
      · rw [List.mem_singleton.1 hx'] at hx ⊢
        exact ⟨rfl, hx⟩
      · cases hx'
  · obtain ⟨l, -, rfl⟩ := List.mem_map.1 hx'
    exact ⟨rfl, hx⟩

theorem GrainRow.key_ns {g : GrainRow} {k : Key} (h : g.key = some k) : k.ns = g.ns := by
  unfold GrainRow.key at h
  cases hs : g.s with
  | none =>
    rw [hs] at h
    cases h
  | some s =>
    cases hp : g.p with
    | none =>
      rw [hs, hp] at h
      cases h
    | some p =>
      rw [hs, hp] at h
      cases h
      rfl

theorem attributed_of {E : Embedder → Prop} (hrows : st.RowsOk C) (htips : st.db.TipsOwned)
    (htexts : TextOk C E st.db) : st.Attributed C E where
  triples x hx := by
    obtain ⟨g, hg, hseq⟩ := hrows.owned.triples x hx
    refine hrows.rowOf hg hseq fun pr _ hof hns => ?_
    obtain ⟨y, hy, rfl⟩ := List.mem_map.1 (mem_of_filter_eq hof.triples hx hseq.symm)
    obtain ⟨hyns, hycur⟩ := pr.tripleRows_ns g.seq y hy
    have hs : g.seq = y.seq := hseq
    rw [hs] at hycur
    exact ⟨hyns.trans hns.symm, hycur⟩
  osp x hx := by
    obtain ⟨g, hg, hseq⟩ := hrows.owned.osp x hx
    refine hrows.rowOf hg hseq fun pr _ hof hns => ?_
    obtain ⟨y, hy, rfl⟩ := List.mem_map.1 (mem_of_filter_eq hof.osp hx hseq.symm)
    obtain ⟨hyns, hycur⟩ := pr.ospRows_ns g.seq y hy
    have hs : g.seq = y.seq := hseq
    rw [hs] at hycur
    exact ⟨hyns.trans hns.symm, hycur⟩
  heads x hx := by
    obtain ⟨g, hg, hseq, hhash, hcreated, hkey⟩ := htips.heads x hx
    refine hrows.rowOf hg hseq fun pr hw hof _ => ?_
    exact ⟨GrainRow.key_ns hkey, (hof.key hw).symm.trans hkey, hhash.symm, hcreated.symm⟩
  entityLatest e he := by
    obtain ⟨⟨g, hg, hseq, hhash, hkey⟩, x, hx, hxs, hxk, hxo⟩ := htips.latest e he
    refine hrows.rowOf hg hseq fun pr hw hof _ => ?_
    refine ⟨GrainRow.key_ns hkey, (hof.key hw).symm.trans hkey, hhash.symm, ?_⟩
    obtain ⟨y, hy, rfl⟩ := List.mem_map.1 (mem_of_filter_eq hof.triples hx (hxs.trans hseq.symm))
    rw [← hseq]
    exact ⟨y, hy, hxk, hxo⟩
  threadIdx x hx := by
    obtain ⟨g, hg, hseq⟩ := hrows.owned.threadIdx x hx
    refine hrows.rowOf hg hseq fun pr _ hof hns => ?_
    have hmem := mem_of_filter_eq hof.threadIdx hx hseq.symm
    rw [← hseq]
    refine ⟨?_, hmem⟩
    obtain ⟨y, -, rfl⟩ := Option.map_eq_some_iff.1 (Option.mem_toList.1 hmem)
    exact hns.symm
  runIdx x hx := by
    obtain ⟨g, hg, hseq⟩ := hrows.owned.runIdx x hx
    refine hrows.rowOf hg hseq fun pr _ hof hns => ?_
    have hmem := mem_of_filter_eq hof.runIdx hx hseq.symm
    rw [← hseq]
    refine ⟨?_, hmem⟩
    obtain ⟨y, -, rfl⟩ := Option.map_eq_some_iff.1 (Option.mem_toList.1 hmem)
    exact hns.symm
  provIdx x hx := by
    obtain ⟨g, hg, hseq⟩ := hrows.owned.provIdx x hx
    refine hrows.rowOf hg hseq fun pr _ hof hns => ?_
    have hmem := mem_of_filter_eq hof.provIdx hx hseq.symm
    rw [← hseq]
    refine ⟨?_, hmem⟩
    obtain ⟨y, -, rfl⟩ := Option.map_eq_some_iff.1 (Option.mem_toList.1 hmem)
    exact hns.symm
  corpusIdx seq hx := by
    obtain ⟨g, hg, hseq⟩ := hrows.owned.corpusIdx seq hx
    refine hrows.rowOf hg hseq fun pr _ hof _ => ?_
    rw [← hseq] at hx ⊢
    exact mem_of_filter_eq hof.corpusIdx hx rfl
  embeddings e he := (htexts.embedding e he).rowOf hrows fun _ hP => hP
  ftsPost x hx := (htexts.post x hx).rowOf hrows fun _ hP => ⟨hP.1.symm, hP.2⟩
  ftsDoc d hd := (htexts.doc d hd).rowOf hrows fun _ hP => hP

end RowOf

/-- The embedders a run installs. -/
def installs (ops : List (Op G)) (m : Embedder) : Prop := .setEmbedder (some m) ∈ ops

theorem meets_installs (ops : List (Op G)) (st : DejaDB) :
    Meets C (fun ev _ => ev.Installs (installs ops)) st ops := by
  refine meets_of_issued fun op hop ev hev => ?_
  cases ev with
  | setEmbedder e =>
    cases op with
    | setEmbedder e' =>
      cases hev
      rintro m rfl
      exact hop
    | add | addBatch | addIfNovel | supersede | mergeHeads | forget | forgetSubject
    | forgetOlderThan | importBundle | deferTextIndex | rebuildTextIndex | reopen => exact hev.elim
  | insert | supersede | merge | forget | erase | scrub | insertBlob | flip | log | defer
  | undefer | rebuildText | reopen => trivial

/-- **No row outlives or misattributes its grain.**  In every state of a run
whose replayed supersessions register keyed fork tips only, every row of every
index belongs to a stored grain, has its namespace, and comes from the grain's
own blob. -/
theorem attributed {explicit : Option DejaDbOptions} {clock : ℕ → ℤ} {ops : List (Op G)}
    (h : Meets C ForkGuard (createStore C explicit clock) ops) :
    ((createStore C explicit clock).steps C ops).Attributed C (installs ops) := by
  have hrun := run_keeps (I := fun st => st.db.TipsOwned ∧ st.TextsOk C (installs ops))
    (fun _ _ _ hidle hI => ⟨hidle.tipsOwned hI.1, hidle.textsOk hI.2⟩)
    (fun _ _ _ hgood hg hcommit hI => ⟨hcommit.tipsOwned hg.1 hgood.rowsOk hI.1,
      hcommit.textsOk hgood.vocabOk hg.2 hI.2⟩)
    ⟨createStore_tipsOwned C explicit clock, createStore_textsOk C _ explicit clock⟩
    (h.and (meets_installs ops _))
  exact attributed_of hrun.1.rowsOk hrun.2.1 hrun.2.2.texts

/-! ## A fork tip without a key -/

/-- A file that supersedes grain `1` by grain `new`, each about the fact
`(s, r, o)`. -/
def replaced (new s r o : UInt8) : DejaDB := sampleStore.steps sampleCore
  [.add (sampleFact 1 5 s r o), .supersede (Hash.ofByte 1) (sampleFact new 6 s r o)]

/-- A run that replays the fork of another file on its own and forgets the tip. -/
def forkRun (s r o : UInt8) : List (Op SampleBody) :=
  [.add (sampleFact 1 5 s r o), .supersede (Hash.ofByte 1) (sampleFact 2 6 s r o),
    .importBundle ((replaced 3 s r o).bundleSince 0) none, .forget (Hash.ofByte 3)]

/-- A fork tip with a subject and a relation goes with its grain. -/
theorem keyed_fork_attributed :
    (sampleStore.steps sampleCore (forkRun 1 2 3)).Attributed sampleCore
      (installs (forkRun 1 2 3)) :=
  attributed (by decide +kernel)

/-- A fork tip without them stays when its grain is forgotten. -/
theorem unkeyed_fork_outlives_grain :
    Reachable sampleCore (sampleStore.steps sampleCore (forkRun 0 0 0)) ∧
      (∃ x ∈ (sampleStore.steps sampleCore (forkRun 0 0 0)).db.heads,
        ∀ g ∈ (sampleStore.steps sampleCore (forkRun 0 0 0)).db.grains, g.seq ≠ x.seq) ∧
      ∀ E, ¬(sampleStore.steps sampleCore (forkRun 0 0 0)).Attributed sampleCore E := by
  have horphan : ∃ x ∈ (sampleStore.steps sampleCore (forkRun 0 0 0)).db.heads,
      ∀ g ∈ (sampleStore.steps sampleCore (forkRun 0 0 0)).db.grains, g.seq ≠ x.seq := by
    decide +kernel
  refine ⟨sampleStore_reachable.steps _, horphan, fun E hok => ?_⟩
  obtain ⟨x, hx, hfree⟩ := horphan
  obtain ⟨g, hg, hseq, -⟩ := hok.heads x hx
  exact hfree g hg hseq

end Deja
