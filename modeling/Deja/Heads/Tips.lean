import Deja.Spec.Rows

/-!
# Tips and the provisional head

`heads` holds the live tips of a key, `entity_latest` the one of them that wins
the election.  `Tables.HeadsOk` is what the two tables should satisfy:

* every tip names a stored grain of its key that is not superseded,
* a key has a provisional head exactly when it has a tip,
* the provisional head is the tip of the highest rank, under its own object.

The object is taken from a join with `triples`, so it is asked for only where
`own` says that no link stands in for a grain's own triple.

`reconcile` repairs the tables after tips were dropped; `HeadsBut` is what it
may start from.
-/

namespace Deja

/-! ## The invariant -/

namespace Tables

variable (t : Tables) (own : Prop)

/-- The tip names a stored grain of its key that is not superseded. -/
def LiveTip (h : HeadRow) : Prop :=
  ∃ g ∈ t.grains, g.seq = h.seq ∧ g.hash = h.hash ∧ g.createdAt = h.createdAt ∧
    g.key = some h.key ∧ g.svt = none

/-- The provisional head is the tip of its key with the highest rank, under the
object of its grain if `own` asks for it. -/
def Elected (e : LatestRow) : Prop :=
  (∃ h ∈ t.heads, h.key = e.key ∧ h.seq = e.seq ∧ h.hash = e.hash ∧
    ∀ x ∈ t.heads, x.key = e.key → x.rank ≤ h.rank) ∧
  ∃ g ∈ t.grains, g.seq = e.seq ∧ (own → g.o = some e.o)

/-- **The head tables are in order.** -/
structure HeadsOk : Prop where
  live : ∀ h ∈ t.heads, t.LiveTip h
  elected : ∀ e ∈ t.entityLatest, t.Elected own e
  covered : ∀ h ∈ t.heads, ∃ e ∈ t.entityLatest, e.key = h.key

/-- The head tables are in order but for the keys in `K`, where the provisional
head may be one of `seqs`, or no longer the winner, or missing. -/
structure HeadsBut (seqs : List ℤ) (K : Key → Prop) : Prop where
  live : ∀ h ∈ t.heads, t.LiveTip h
  elected : ∀ e ∈ t.entityLatest, ¬K e.key → t.Elected own e
  pending : ∀ e ∈ t.entityLatest, K e.key →
    e.seq ∈ seqs ∨ ∃ h ∈ t.heads, h.key = e.key ∧ h.seq = e.seq
  covered : ∀ h ∈ t.heads, ¬K h.key → ∃ e ∈ t.entityLatest, e.key = h.key

/-- The tip joins with a triple of its key, and only under its grain's object if
`own` asks for it. -/
def Joins (h : HeadRow) : Prop :=
  (∃ x ∈ t.triples, x.seq = h.seq ∧ x.key = h.key) ∧
    ∀ x ∈ t.triples, x.seq = h.seq → x.key = h.key →
      ∃ g ∈ t.grains, g.seq = h.seq ∧ (own → g.o = some x.o)

end Tables

/-! ## Own objects -/

namespace GrainPrep

variable (pr : GrainPrep)

/-- The key of a grain about to be inserted. -/
def key : Option Key := pr.spo.map fun x => ⟨pr.nsId, x.1, x.2.1⟩

/-- No link of the grain stands at the grain's own key under another object. -/
def OwnObject : Prop := ∀ l ∈ pr.links, pr.s = some l.1 → pr.p = some l.2.1 → pr.o = some l.2.2

/-- The triple columns are all there or all missing. -/
def Whole : Prop := pr.spo.isSome ∨ pr.s = none ∧ pr.p = none ∧ pr.o = none

theorem spo_some {pr : GrainPrep} {s p o : ℤ} (h : pr.spo = some (s, p, o)) :
    pr.s = some s ∧ pr.p = some p ∧ pr.o = some o := by
  unfold spo at h
  cases hs : pr.s <;> cases hp : pr.p <;> cases ho : pr.o <;> simp [hs, hp, ho] at h
  obtain ⟨rfl, rfl, rfl⟩ := h
  exact ⟨rfl, rfl, rfl⟩

theorem grainRow_key {pr : GrainPrep} (h : pr.Whole) (seq : ℤ) :
    (pr.grainRow seq).key = pr.key := by
  unfold GrainRow.key key
  simp only [grainRow]
  rcases h with h | ⟨hs, hp, ho⟩
  · obtain ⟨⟨s, p, o⟩, hspo⟩ := Option.isSome_iff_exists.1 h
    obtain ⟨hs, hp, ho⟩ := spo_some hspo
    rw [hspo, hs, hp]
    rfl
  · rw [hs, hp, spo, hs]
    rfl

end GrainPrep

theorem Linked.whole {G : Type} {C : Core G} {st : DejaDB} {view : DeserializedGrain}
    {pr : GrainPrep} (h : Linked C st view pr) : pr.Whole := by
  have hspo := h.spo
  unfold DejaDB.EncodesSpo at hspo
  cases hgv : (extractView view pr.created).spo with
  | none =>
    rw [hgv] at hspo
    exact .inr hspo
  | some x =>
    rw [hgv] at hspo
    obtain ⟨s, p, o, hs, hp, ho, -⟩ := hspo
    exact .inl (by rw [GrainPrep.spo, hs, hp, ho]; rfl)

/-- What the head tables need of the rows: no link stands in for an own triple
where `own` asks for it. -/
abbrev OwnRows (own : Prop) (r : Rows) : Prop := r.Ok fun pr => (own → pr.OwnObject) ∧ pr.Whole

theorem Rows.Of.key {r : Rows} {pr : GrainPrep} {g : GrainRow} (h : r.Of pr g) (hw : pr.Whole) :
    g.key = pr.key := by
  rw [← pr.grainRow_key hw g.seq, h.row]
  rfl

/-- A live tip joins with its grain's own triple. -/
theorem Tables.LiveTip.joins {t : Tables} {own : Prop} {h : HeadRow} (hlive : t.LiveTip h)
    (hrows : OwnRows own t.rows) : t.Joins own h := by
  obtain ⟨g, hg, hseq, -, -, hkey, -⟩ := hlive
  obtain ⟨pr, ⟨hown, hwhole⟩, hof⟩ := hrows.spelled g hg
  have hprkey : pr.key = some h.key := by rw [← hof.key hwhole, hkey]
  have hobj : g.o = pr.o := by rw [hof.row]; rfl
  unfold GrainPrep.key at hprkey
  obtain ⟨⟨s, p, o⟩, hspo, hk⟩ := Option.map_eq_some_iff.1 hprkey
  obtain ⟨hs, hp, ho⟩ := GrainPrep.spo_some hspo
  have hns : pr.nsId = h.key.ns := by rw [← hk]
  have hks : s = h.key.s := by rw [← hk]
  have hkp : p = h.key.p := by rw [← hk]
  constructor
  · have hrow : (⟨pr.nsId, s, p, o, g.seq, true⟩ : TripleRow) ∈ pr.tripleRows g.seq :=
      GrainPrep.mem_tripleRows.2 (.inl ⟨s, p, o, hspo, rfl⟩)
    exact ⟨_, (hof.mem_triples.2 ⟨_, hrow, rfl⟩).1, hseq, hk⟩
  · intro x hx hxseq hxkey
    obtain ⟨y, hy, rfl⟩ := hof.mem_triples.1 ⟨hx, hxseq.trans hseq.symm⟩
    refine ⟨g, hg, hseq, fun hask => ?_⟩
    rw [hobj]
    rcases GrainPrep.mem_tripleRows.1 hy with ⟨s', p', o', hspo', rfl⟩ | ⟨l, hl, rfl⟩
    · rw [hspo] at hspo'
      cases hspo'
      exact ho
    · have hlk : (⟨pr.nsId, l.1, l.2.1⟩ : Key) = h.key := hxkey
      refine hown hask l hl ?_ ?_
      · rw [hs, hks, ← hlk]
      · rw [hp, hkp, ← hlk]

/-! ## Election -/

namespace Tables

variable {t t' : Tables} {own : Prop}

theorem mem_tips {k : Key} {o : ℤ} {h : HeadRow} :
    (o, h) ∈ t.tips k ↔
      h ∈ t.heads ∧ h.key = k ∧ ∃ x ∈ t.triples, x.seq = h.seq ∧ x.key = h.key ∧ x.o = o := by
  unfold tips
  simp only [List.mem_flatMap, List.mem_filter, List.mem_map, Prod.mk.injEq, decide_eq_true_eq]
  constructor
  · rintro ⟨h', ⟨hh, hk⟩, x, ⟨hx, hseq, hkey⟩, rfl, rfl⟩
    exact ⟨hh, hk, x, hx, hseq, hkey, rfl⟩
  · rintro ⟨hh, hk, x, hx, hseq, hkey, rfl⟩
    exact ⟨h, ⟨hh, hk⟩, x, ⟨hx, hseq, hkey⟩, rfl, rfl⟩

/-- No winner: no tip that joins. -/
theorem elect_none {k : Key} (h : t.elect k = none) (hjoin : ∀ h ∈ t.heads, t.Joins own h) :
    ∀ h ∈ t.heads, h.key ≠ k := by
  intro x hx hk
  obtain ⟨⟨tr, htr, hseq, hkey⟩, -⟩ := hjoin x hx
  have hmem : (tr.o, x) ∈ t.tips k := mem_tips.2 ⟨hx, hk, tr, htr, hseq, hkey, rfl⟩
  rw [elect, List.argmax_eq_none] at h
  rw [h] at hmem
  cases hmem

/-- A winner is a tip of the highest rank, under its grain's object. -/
theorem elect_some {k : Key} {o : ℤ} {h : HeadRow} (helect : t.elect k = some (o, h))
    (hjoin : ∀ h ∈ t.heads, t.Joins own h) :
    h ∈ t.heads ∧ h.key = k ∧ (∀ x ∈ t.heads, x.key = k → x.rank ≤ h.rank) ∧
      ∃ g ∈ t.grains, g.seq = h.seq ∧ (own → g.o = some o) := by
  obtain ⟨hh, hk, x, hx, hseq, hkey, rfl⟩ := mem_tips.1 (List.argmax_mem helect)
  refine ⟨hh, hk, fun y hy hyk => ?_, (hjoin h hh).2 x hx hseq hkey⟩
  obtain ⟨⟨tr, htr, hyseq, hykey⟩, -⟩ := hjoin y hy
  have hmem : (tr.o, y) ∈ t.tips k := mem_tips.2 ⟨hy, hyk, tr, htr, hyseq, hykey, rfl⟩
  exact List.le_of_mem_argmax (f := fun x : ℤ × HeadRow => x.2.rank) hmem helect

/-! ## Reconciling -/

theorem HeadsBut.ok {seqs : List ℤ} {K : Key → Prop} (h : t.HeadsBut own seqs K) (hK : ∀ k, ¬K k) :
    t.HeadsOk own where
  live := h.live
  elected e he := h.elected e he (hK _)
  covered x hx := h.covered x hx (hK _)

theorem mem_putLatest {e x : LatestRow} :
    x ∈ (t.putLatest e).entityLatest ↔ x ∈ t.entityLatest ∧ x.key ≠ e.key ∨ x = e := by
  simp [putLatest]

theorem mem_deleteLatest {k : Key} {seqs : List ℤ} {x : LatestRow} :
    x ∈ (t.deleteLatest k seqs).entityLatest ↔
      x ∈ t.entityLatest ∧ (x.key = k → x.seq ∉ seqs) := by
  simp [deleteLatest, imp_iff_not_or]

/-- **One key reconciled.** -/
theorem HeadsBut.reconcileKey {seqs : List ℤ} {K : Key → Prop} (h : t.HeadsBut own seqs K)
    (hjoin : ∀ x ∈ t.heads, t.Joins own x) (k : Key) :
    ((t.deleteLatest k seqs).reelect k).HeadsBut own seqs fun x => K x ∧ x ≠ k := by
  have helected : ∀ e ∈ t.entityLatest, ¬(K e.key ∧ e.key ≠ k) → e.key ≠ k → t.Elected own e :=
    fun e he hK hk => h.elected e he fun hKe => hK ⟨hKe, hk⟩
  have hcovered : ∀ x ∈ t.heads, ¬(K x.key ∧ x.key ≠ k) → x.key ≠ k →
      ∃ e ∈ (t.deleteLatest k seqs).entityLatest, e.key = x.key := by
    intro x hx hK hk
    obtain ⟨e, he, hek⟩ := h.covered x hx fun hKx => hK ⟨hKx, hk⟩
    exact ⟨e, mem_deleteLatest.2 ⟨he, fun hek' => absurd (hek.symm.trans hek') hk⟩, hek⟩
  unfold reelect
  cases helect : (t.deleteLatest k seqs).elect k with
  | none =>
    have hnone : ∀ x ∈ t.heads, x.key ≠ k := elect_none helect hjoin
    refine ⟨h.live, fun e he hK => ?_, fun e he hK => ?_, fun x hx hK => ?_⟩
    · obtain ⟨he, hgone⟩ := mem_deleteLatest.1 he
      refine helected e he hK fun hek => ?_
      -- a row the deletion left at `k` would still have its tip
      have htip : ∃ x ∈ t.heads, x.key = e.key ∧ x.seq = e.seq := by
        by_cases hKe : K e.key
        · exact (h.pending e he hKe).resolve_left (hgone hek)
        · obtain ⟨⟨x, hx, hxk, hxs, -⟩, -⟩ := h.elected e he hKe
          exact ⟨x, hx, hxk, hxs⟩
      obtain ⟨x, hx, hxk, -⟩ := htip
      exact hnone x hx (hxk.trans hek)
    · exact h.pending e (mem_deleteLatest.1 he).1 hK.1
    · exact hcovered x hx hK (hnone x hx)
  | some w =>
    obtain ⟨o, hd⟩ := w
    obtain ⟨hmem, hk, hmax, hobj⟩ := elect_some helect hjoin
    refine ⟨h.live, fun e he hK => ?_, fun e he hK => ?_, fun x hx hK => ?_⟩
    · rcases mem_putLatest.1 he with ⟨he, hek⟩ | rfl
      · exact helected e (mem_deleteLatest.1 he).1 hK hek
      · exact ⟨⟨hd, hmem, hk, rfl, rfl, hmax⟩, hobj⟩
    · rcases mem_putLatest.1 he with ⟨he, hek⟩ | rfl
      · exact h.pending e (mem_deleteLatest.1 he).1 hK.1
      · exact absurd rfl hK.2
    · by_cases hxk : x.key = k
      · exact ⟨_, mem_putLatest.2 (.inr rfl), hxk.symm⟩
      · obtain ⟨e, he, hek⟩ := hcovered x hx hK hxk
        exact ⟨e, mem_putLatest.2 (.inl ⟨he, fun h' => hxk (hek.symm.trans h')⟩), hek⟩

theorem reelect_heads (t : Tables) (k : Key) : (t.reelect k).heads = t.heads := by
  unfold reelect
  cases t.elect k <;> rfl

/-- Tips join as long as the heads, the triples and the grains are the same. -/
theorem Joins.congr {x : HeadRow} (h : t.Joins own x) (hsame : t.SameButHeads t') :
    t'.Joins own x := by
  rw [hsame]
  exact h

/-- **Every key reconciled.** -/
theorem HeadsBut.reconcile {seqs : List ℤ} {keys : List Key}
    (h : t.HeadsBut own seqs fun k => k ∈ keys) (hjoin : ∀ x ∈ t.heads, t.Joins own x) :
    (t.reconcile seqs keys).HeadsOk own := by
  suffices hgen : ∀ (keys : List Key) (K : Key → Prop) (t : Tables), t.HeadsBut own seqs K →
      (∀ x ∈ t.heads, t.Joins own x) → (∀ k, K k → k ∈ keys) →
        (t.reconcile seqs keys).HeadsOk own from
    hgen keys _ t h hjoin fun _ hk => hk
  intro keys
  induction keys with
  | nil => exact fun K t h _ hK => h.ok fun k hk => nomatch hK k hk
  | cons k keys ih =>
    intro K t h hjoin hK
    have hframe := (deleteLatest_frame t k seqs).trans (reelect_frame _ k)
    refine ih _ _ (h.reconcileKey hjoin k) (fun x hx => ?_) fun y hy => ?_
    · rw [reelect_heads] at hx
      exact (hjoin x hx).congr hframe
    · exact (List.mem_cons.1 (hK y hy.1)).resolve_left hy.2

/-! ## Transfer -/

/-- `g'` is `g` as far as the head tables can tell. -/
structure GrainAlike (g g' : GrainRow) : Prop where
  seq : g'.seq = g.seq
  hash : g'.hash = g.hash
  createdAt : g'.createdAt = g.createdAt
  key : g'.key = g.key
  svt : g'.svt = g.svt
  o : g'.o = g.o

theorem GrainAlike.refl (g : GrainRow) : GrainAlike g g := ⟨rfl, rfl, rfl, rfl, rfl, rfl⟩

theorem LiveTip.mono {h : HeadRow} (hlive : t.LiveTip h)
    (hkeep : ∀ g ∈ t.grains, g.seq = h.seq → ∃ g' ∈ t'.grains, GrainAlike g g') :
    t'.LiveTip h := by
  obtain ⟨g, hg, hseq, hhash, hcreated, hkey, hsvt⟩ := hlive
  obtain ⟨g', hg', hsame⟩ := hkeep g hg hseq
  exact ⟨g', hg', hsame.seq.trans hseq, hsame.hash.trans hhash, hsame.createdAt.trans hcreated,
    hsame.key.trans hkey, hsame.svt.trans hsvt⟩

theorem Elected.mono {e : LatestRow} (h : t.Elected own e)
    (hkeep : ∀ g ∈ t.grains, g.seq = e.seq → ∃ g' ∈ t'.grains, GrainAlike g g')
    (hheads : ∀ x, x.key = e.key → (x ∈ t'.heads ↔ x ∈ t.heads)) : t'.Elected own e := by
  obtain ⟨⟨x, hx, hk, hseq, hhash, hmax⟩, g, hg, hgs, hgo⟩ := h
  obtain ⟨g', hg', hsame⟩ := hkeep g hg hgs
  exact ⟨⟨x, (hheads x hk).2 hx, hk, hseq, hhash, fun y hy hyk => hmax y ((hheads y hyk).1 hy) hyk⟩,
    g', hg', hsame.seq.trans hgs, fun hask => hsame.o.trans (hgo hask)⟩

/-- The head tables stay in order while they and the live grains stay. -/
theorem HeadsOk.mono (h : t.HeadsOk own) (hheads : t'.heads = t.heads)
    (hlatest : t'.entityLatest = t.entityLatest)
    (hkeep : ∀ g ∈ t.grains, (∃ x ∈ t.heads, x.seq = g.seq) →
      ∃ g' ∈ t'.grains, GrainAlike g g') : t'.HeadsOk own where
  live x hx := by
    rw [hheads] at hx
    exact (h.live x hx).mono fun g hg hgs => hkeep g hg ⟨x, hx, hgs.symm⟩
  elected e he := by
    rw [hlatest] at he
    refine (h.elected e he).mono (fun g hg hgs => ?_) fun x _ => by rw [hheads]
    obtain ⟨⟨x, hx, -, hxs, -⟩, -⟩ := h.elected e he
    exact hkeep g hg ⟨x, hx, hxs.trans hgs.symm⟩
  covered x hx := by
    rw [hheads] at hx
    rw [hlatest]
    exact h.covered x hx

/-- Tips dropped with their grains: the keys they stood at are to reconcile. -/
theorem HeadsOk.drop {seqs : List ℤ} {K : Key → Prop} (h : t.HeadsOk own)
    (hheads : ∀ x, x ∈ t'.heads ↔ x ∈ t.heads ∧ x.seq ∉ seqs)
    (hlatest : t'.entityLatest = t.entityLatest)
    (hkeep : ∀ g ∈ t.grains, g.seq ∉ seqs → ∃ g' ∈ t'.grains, GrainAlike g g')
    (hK : ∀ x ∈ t.heads, x.seq ∈ seqs → K x.key) : t'.HeadsBut own seqs K where
  live x hx := by
    obtain ⟨hx, hs⟩ := (hheads x).1 hx
    exact (h.live x hx).mono fun g hg hgs => hkeep g hg (hgs ▸ hs)
  elected e he hKe := by
    rw [hlatest] at he
    obtain ⟨⟨x, hx, hxk, hxs, hxh, hmax⟩, g, hg, hgs, hgo⟩ := h.elected e he
    have hs : x.seq ∉ seqs := fun hs => hKe (hxk ▸ hK x hx hs)
    obtain ⟨g', hg', hsame⟩ := hkeep g hg (by rwa [hgs, ← hxs])
    exact ⟨⟨x, (hheads x).2 ⟨hx, hs⟩, hxk, hxs, hxh,
        fun y hy hyk => hmax y ((hheads y).1 hy).1 hyk⟩,
      g', hg', hsame.seq.trans hgs, fun hask => hsame.o.trans (hgo hask)⟩
  pending e he _ := by
    rw [hlatest] at he
    obtain ⟨⟨x, hx, hxk, hxs, -⟩, -⟩ := h.elected e he
    by_cases hs : e.seq ∈ seqs
    · exact .inl hs
    · exact .inr ⟨x, (hheads x).2 ⟨hx, by rwa [hxs]⟩, hxk, hxs⟩
  covered x hx _ := by
    rw [hlatest]
    exact h.covered x ((hheads x).1 hx).1

/-- Tips of one grain under one key are one row. -/
theorem LiveTip.unique {L : GrainPrep → Prop} (hrows : t.rows.Ok L) {x y : HeadRow}
    (hx : t.LiveTip x) (hy : t.LiveTip y) (hkey : x.key = y.key) (hseq : x.seq = y.seq) :
    x = y := by
  obtain ⟨g, hg, hgs, hgh, hgc, -, -⟩ := hx
  obtain ⟨g', hg', hgs', hgh', hgc', -, -⟩ := hy
  have hsame : g = g' := hrows.eq_of_seq hg hg' (by rw [hgs, hgs', hseq])
  subst hsame
  have hhash : x.hash = y.hash := hgh.symm.trans hgh'
  have hcreated : x.createdAt = y.createdAt := hgc.symm.trans hgc'
  cases x
  cases y
  simp only [HeadRow.key, Key.mk.injEq] at hkey
  simp_all

/-! ## Collapsing -/

/-- The key of an inserted grain collapses to the grain itself. -/
theorem HeadsOk.insert {pr : GrainPrep} {seq : ℤ} (h : t.HeadsOk own) (hins : t.Inserts pr seq t')
    (hheads : t'.heads = (t.collapseHeads pr seq).heads)
    (hlatest : t'.entityLatest = (t.collapseHeads pr seq).entityLatest) (hw : pr.Whole) :
    t'.HeadsOk own := by
  have hsub : ∀ {s : ℤ}, ∀ g ∈ t.grains, g.seq = s → ∃ g' ∈ t'.grains, GrainAlike g g' :=
    fun g hg _ => ⟨g, by rw [hins.grains]; exact List.mem_append_left _ hg, .refl g⟩
  have hnew : pr.grainRow seq ∈ t'.grains := by
    rw [hins.grains]
    exact List.mem_append_right _ (List.mem_singleton_self _)
  unfold collapseHeads at hheads hlatest
  cases hspo : pr.spo with
  | none =>
    simp only [hspo] at hheads hlatest
    refine ⟨fun x hx => ?_, fun e he => ?_, fun x hx => ?_⟩
    · rw [hheads] at hx
      exact (h.live x hx).mono hsub
    · rw [hlatest] at he
      exact (h.elected e he).mono hsub fun x _ => by rw [hheads]
    · rw [hheads] at hx
      rw [hlatest]
      exact h.covered x hx
  | some x =>
    obtain ⟨s, p, o⟩ := x
    obtain ⟨hs, hp, ho⟩ := GrainPrep.spo_some hspo
    simp only [hspo] at hheads hlatest
    have hmem : ∀ y, y ∈ t'.heads ↔
        y ∈ t.heads ∧ y.key ≠ ⟨pr.nsId, s, p⟩ ∨ y = ⟨pr.nsId, s, p, seq, pr.hash, pr.created⟩ := by
      intro y
      rw [hheads]
      simp [putLatest]
    have hkey : (pr.grainRow seq).key = some ⟨pr.nsId, s, p⟩ := by
      rw [GrainPrep.grainRow_key hw, GrainPrep.key, hspo]
      rfl
    refine ⟨fun y hy => ?_, fun e he => ?_, fun y hy => ?_⟩
    · rcases (hmem y).1 hy with ⟨hy, -⟩ | rfl
      · exact (h.live y hy).mono hsub
      · exact ⟨_, hnew, rfl, rfl, rfl, hkey, rfl⟩
    · rw [hlatest] at he
      rcases mem_putLatest.1 he with ⟨he, hek⟩ | rfl
      · refine (h.elected e he).mono hsub fun y hyk => ?_
        rw [hmem]
        constructor
        · rintro (⟨hy, -⟩ | rfl)
          · exact hy
          · exact absurd hyk.symm hek
        · exact fun hy => .inl ⟨hy, fun hyk' => hek (hyk.symm.trans hyk')⟩
      · refine ⟨⟨_, (hmem _).2 (.inr rfl), rfl, rfl, rfl, fun y hy hyk => ?_⟩, _, hnew, rfl,
          fun _ => ho⟩
        rcases (hmem y).1 hy with ⟨-, hyk'⟩ | rfl
        · exact absurd hyk hyk'
        · exact le_refl _
    · rw [hlatest]
      rcases (hmem y).1 hy with ⟨hy, hyk⟩ | rfl
      · obtain ⟨e, he, hek⟩ := h.covered y hy
        exact ⟨e, mem_putLatest.2 (.inl ⟨he, fun hek' => hyk (hek.symm.trans hek')⟩), hek⟩
      · exact ⟨_, mem_putLatest.2 (.inr rfl), rfl⟩

/-! ## Registering -/

theorem latestRank_some {k : Key} {r : Rank} (h : t.latestRank k = some r) :
    ∃ e ∈ t.entityLatest, e.key = k ∧ ∃ x ∈ t.heads, x.key = k ∧ x.seq = e.seq ∧ x.rank = r := by
  have hmem := List.mem_of_head? h
  simp only [List.mem_flatMap, List.mem_filter, List.mem_map, decide_eq_true_eq] at hmem
  obtain ⟨e, ⟨he, hek⟩, x, ⟨hx, hxk, hxs⟩, hr⟩ := hmem
  exact ⟨e, he, hek, x, hx, hxk, hxs, hr⟩

theorem latestRank_none {k : Key} (h : t.latestRank k = none) {e : LatestRow}
    (he : e ∈ t.entityLatest) (hek : e.key = k) {x : HeadRow} (hx : x ∈ t.heads)
    (hxk : x.key = k) : x.seq ≠ e.seq := by
  intro hseq
  rw [latestRank, List.head?_eq_none_iff] at h
  have hmem : x.rank ∈ (t.entityLatest.filter fun e => e.key = k).flatMap fun e =>
      (t.heads.filter fun h => h.key = k ∧ h.seq = e.seq).map HeadRow.rank := by
    simp only [List.mem_flatMap, List.mem_filter, List.mem_map, decide_eq_true_eq]
    exact ⟨e, ⟨he, hek⟩, x, ⟨hx, hxk, hseq⟩, rfl⟩
  rw [h] at hmem
  cases hmem

theorem mem_putHead {h x : HeadRow} : x ∈ (t.putHead h).heads ↔
    x ∈ t.heads ∧ ¬(x.key = h.key ∧ x.seq = h.seq) ∨ x = h := by
  simp [putHead, imp_iff_not_or]

/-- A live grain registered beside the other tips of its key. -/
theorem HeadsOk.register {L : GrainPrep → Prop} (h : t.HeadsOk own) (hrows : t.rows.Ok L)
    {hd : HeadRow} {o : ℤ} (hlive : t.LiveTip hd)
    (hobj : ∃ g ∈ t.grains, g.seq = hd.seq ∧ (own → g.o = some o)) :
    (t.registerTip hd o).HeadsOk own := by
  have hmem : ∀ x, x ∈ (t.putHead hd).heads ↔ x ∈ t.heads ∨ x = hd := by
    intro x
    rw [mem_putHead]
    constructor
    · rintro (⟨hx, -⟩ | rfl)
      · exact .inl hx
      · exact .inr rfl
    · rintro (hx | rfl)
      · by_cases hsame : x.key = hd.key ∧ x.seq = hd.seq
        · exact .inr ((h.live x hx).unique hrows hlive hsame.1 hsame.2)
        · exact .inl ⟨hx, hsame⟩
      · exact .inr rfl
  have hlive' : ∀ x ∈ (t.putHead hd).heads, t.LiveTip x := by
    intro x hx
    rcases (hmem x).1 hx with hx | rfl
    · exact h.live x hx
    · exact hlive
  -- the provisional head of another key keeps its tips
  have hother : ∀ e ∈ t.entityLatest, e.key ≠ hd.key → (t.putHead hd).Elected own e := by
    intro e he hek
    refine (h.elected e he).mono (fun g hg _ => ⟨g, hg, .refl g⟩) fun x hxk => ?_
    rw [hmem]
    refine or_iff_left ?_
    rintro rfl
    exact hek hxk.symm
  unfold registerTip
  simp only
  cases hrank : (t.putHead hd).latestRank hd.key with
  | none =>
    have hfree : ∀ x ∈ t.heads, x.key ≠ hd.key := by
      intro x hx hxk
      obtain ⟨e, he, hek⟩ := h.covered x hx
      obtain ⟨⟨y, hy, hyk, hys, -⟩, -⟩ := h.elected e he
      exact latestRank_none hrank he (hek.trans hxk) ((hmem y).2 (.inl hy))
        (hyk.trans (hek.trans hxk)) hys
    rw [if_pos (by simp)]
    refine ⟨hlive', fun e he => ?_, fun x hx => ?_⟩
    · rcases mem_putLatest.1 he with ⟨he, hek⟩ | rfl
      · exact hother e he hek
      · refine ⟨⟨hd, (hmem hd).2 (.inr rfl), rfl, rfl, rfl, fun x hx hxk => ?_⟩, hobj⟩
        rcases (hmem x).1 hx with hx | rfl
        · exact absurd hxk (hfree x hx)
        · exact le_refl _
    · rcases (hmem x).1 hx with hx | rfl
      · obtain ⟨e, he, hek⟩ := h.covered x hx
        exact ⟨e, mem_putLatest.2 (.inl ⟨he, fun hek' => hfree x hx (hek.symm.trans hek')⟩), hek⟩
      · exact ⟨_, mem_putLatest.2 (.inr rfl), rfl⟩
  | some r =>
    obtain ⟨e₀, he₀, hek₀, x₀, hx₀, hxk₀, hxs₀, hr⟩ := latestRank_some hrank
    obtain ⟨⟨y, hy, hyk, hys, -, hmax⟩, -⟩ := h.elected e₀ he₀
    have hxy : x₀ = y :=
      (hlive' x₀ hx₀).unique hrows (h.live y hy) (hxk₀.trans (hyk.trans hek₀).symm)
        (hxs₀.trans hys.symm)
    have hbest : ∀ x ∈ t.heads, x.key = hd.key → x.rank ≤ r := by
      intro x hx hxk
      rw [← hr, hxy]
      exact hmax x hx (hxk.trans hek₀.symm)
    simp only [Option.all_some, decide_eq_true_eq]
    by_cases hlt : r < hd.rank
    · rw [if_pos hlt]
      refine ⟨hlive', fun e he => ?_, fun x hx => ?_⟩
      · rcases mem_putLatest.1 he with ⟨he, hek⟩ | rfl
        · exact hother e he hek
        · refine ⟨⟨hd, (hmem hd).2 (.inr rfl), rfl, rfl, rfl, fun x hx hxk => ?_⟩, hobj⟩
          rcases (hmem x).1 hx with hx | rfl
          · exact (hbest x hx hxk).trans hlt.le
          · exact le_refl _
      · by_cases hxk : x.key = hd.key
        · exact ⟨_, mem_putLatest.2 (.inr rfl), hxk.symm⟩
        · obtain ⟨e, he, hek⟩ := h.covered x (((hmem x).1 hx).resolve_right fun hxd =>
            hxk (congrArg HeadRow.key hxd))
          exact ⟨e, mem_putLatest.2 (.inl ⟨he, fun hek' => hxk (hek.symm.trans hek')⟩), hek⟩
    · rw [if_neg hlt]
      refine ⟨hlive', fun e he => ?_, fun x hx => ?_⟩
      · by_cases hek : e.key = hd.key
        · obtain ⟨⟨z, hz, hzk, hzs, hzh, hzmax⟩, hzo⟩ := h.elected e he
          refine ⟨⟨z, (hmem z).2 (.inl hz), hzk, hzs, hzh, fun x hx hxk => ?_⟩, hzo⟩
          rcases (hmem x).1 hx with hx | rfl
          · exact hzmax x hx hxk
          · have hyz := hzmax y hy (hyk.trans (hek₀.trans hek.symm))
            rw [← hxy, hr] at hyz
            exact (not_lt.1 hlt).trans hyz
        · exact hother e he hek
      · rcases (hmem x).1 hx with hx | rfl
        · exact h.covered x hx
        · exact ⟨e₀, he₀, hek₀⟩

end Tables

end Deja
