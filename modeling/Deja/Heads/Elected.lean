import Deja.Heads.Tips

/-!
# The provisional head along a run

`TipGuard` says what a commit must meet for the head tables to stay in order:

* a merge grain has the key of the fork it closes,
* a replayed supersession closes no grain that is still the provisional head,
  and registers no fork tip that is superseded itself or has no key.

`HeadGuard` asks besides that no grain is written with a link at its own key
under another object, so that every election finds the right one.  `heads_ok`
carries `HeadsOk` along every run whose commits meet it.
-/

namespace Deja

variable {G : Type} {C : Core G}

/-! ## The guard -/

/-- A replayed supersession the head tables survive. -/
def Tables.FlipSafe (t : Tables) (old new : Hash) : Prop :=
  ∀ row ∈ t.grainByHash old,
    (row.svt = none → ∀ e ∈ t.entityLatest, e.seq ≠ row.seq) ∧
    (row.svt ≠ none → row.supersededBy ≠ some new →
      ∀ g ∈ t.grainByHash new, g.key.isSome ∧ g.svt = none)

/-- What a commit must meet for the tips to stay in order. -/
def TipGuard (ev : Event) (a : DejaDB) : Prop :=
  match ev with
  | .merge k pr => pr.key = some k
  | .flip old new => a.db.FlipSafe old new
  | _ => True

/-- What a commit must meet for the head tables to stay in order, the object of
the provisional head included. -/
def HeadGuard (ev : Event) (a : DejaDB) : Prop := (∀ pr ∈ ev.preps, pr.OwnObject) ∧ TipGuard ev a

instance (pr : GrainPrep) : Decidable pr.OwnObject :=
  inferInstanceAs (Decidable (∀ l ∈ pr.links, pr.s = some l.1 → pr.p = some l.2.1 →
    pr.o = some l.2.2))

instance (t : Tables) (old new : Hash) : Decidable (t.FlipSafe old new) :=
  inferInstanceAs (Decidable (∀ row ∈ t.grainByHash old,
    (row.svt = none → ∀ e ∈ t.entityLatest, e.seq ≠ row.seq) ∧
    (row.svt ≠ none → row.supersededBy ≠ some new →
      ∀ g ∈ t.grainByHash new, g.key.isSome ∧ g.svt = none)))

instance (ev : Event) (a : DejaDB) : Decidable (TipGuard ev a) :=
  match ev with
  | .merge k pr => inferInstanceAs (Decidable (pr.key = some k))
  | .flip old new => inferInstanceAs (Decidable (a.db.FlipSafe old new))
  | .insert _ | .supersede .. | .forget _ | .erase _ | .scrub | .insertBlob .. | .log .. | .defer
  | .undefer | .rebuildText | .setEmbedder _ | .reopen _ => .isTrue trivial

instance (ev : Event) (a : DejaDB) : Decidable (HeadGuard ev a) :=
  inferInstanceAs (Decidable (_ ∧ _))

namespace Tables

variable {t t' t₀ : Tables} {own : Prop}

/-! ## Retiring a tip -/

/-- The tip of a stored grain stands at the key of the grain. -/
theorem LiveTip.key_of_seq {L : GrainPrep → Prop} {x : HeadRow} {row : GrainRow}
    (hlive : t.LiveTip x) (hrows : t.rows.Ok L) (hrow : row ∈ t.grains) (hseq : x.seq = row.seq) :
    row.key = some x.key := by
  obtain ⟨g, hg, hgs, -, -, hkey, -⟩ := hlive
  have hsame : g = row := hrows.eq_of_seq hg hrow (hgs.trans hseq)
  rw [← hsame, hkey]

/-- The tip of one grain dropped and its key reconciled. -/
theorem HeadsOk.retire {key : Option Key} {seq : ℤ} (h : t.HeadsOk own)
    (hheads : t₀.heads = t.heads) (hlatest : t₀.entityLatest = t.entityLatest)
    (hkeep : ∀ g ∈ t.grains, g.seq ≠ seq → ∃ g' ∈ t₀.grains, GrainAlike g g')
    (hkey : ∀ x ∈ t.heads, x.seq = seq → key = some x.key) (hrows : OwnRows own t₀.rows) :
    (t₀.retireTip key seq).HeadsOk own := by
  cases key with
  | none =>
    refine h.mono hheads hlatest fun g hg ⟨x, hx, hxs⟩ => hkeep g hg fun hgs => ?_
    exact nomatch hkey x hx (hxs.trans hgs)
  | some k =>
    have hbut : (t₀.deleteHead k seq).HeadsBut own [seq] fun k' => k' ∈ [k] := by
      refine h.drop (fun x => ?_) hlatest (fun g hg hgs => hkeep g hg (by simpa using hgs))
        fun x hx hxs => ?_
      · simp only [deleteHead, hheads, List.mem_filter, decide_eq_true_eq, List.mem_singleton]
        refine and_congr_right fun hx => not_congr ⟨fun hks => hks.2, fun hxs => ⟨?_, hxs⟩⟩
        exact (Option.some_inj.1 (hkey x hx hxs)).symm
      · rw [List.mem_singleton]
        exact (Option.some_inj.1 (hkey x hx (by simpa using hxs))).symm
    exact hbut.reconcile fun x hx => (hbut.live x hx).joins hrows

/-- Tips dropped that no key has as its provisional head. -/
theorem HeadsOk.dropLosers (h : t.HeadsOk own) (seqs : List ℤ)
    (hheads : ∀ x, x ∈ t'.heads ↔ x ∈ t.heads ∧ x.seq ∉ seqs)
    (hlatest : t'.entityLatest = t.entityLatest)
    (hkeep : ∀ g ∈ t.grains, g.seq ∉ seqs → ∃ g' ∈ t'.grains, GrainAlike g g')
    (hlose : ∀ e ∈ t.entityLatest, e.seq ∉ seqs) : t'.HeadsOk own := by
  have hbut : t'.HeadsBut own seqs fun k => ∃ x ∈ t.heads, x.seq ∈ seqs ∧ x.key = k :=
    h.drop hheads hlatest hkeep fun x hx hxs => ⟨x, hx, hxs, rfl⟩
  refine ⟨hbut.live, fun e he => ?_, fun x hx => ?_⟩
  · rw [hlatest] at he
    obtain ⟨⟨x, hx, hxk, hxs, hxh, hmax⟩, g, hg, hgs, hgo⟩ := h.elected e he
    have hes := hlose e he
    obtain ⟨g', hg', hsame⟩ := hkeep g hg (by rwa [hgs])
    exact ⟨⟨x, (hheads x).2 ⟨hx, by rwa [hxs]⟩, hxk, hxs, hxh,
      fun y hy hyk => hmax y ((hheads y).1 hy).1 hyk⟩, g', hg', hsame.seq.trans hgs,
      fun hask => hsame.o.trans (hgo hask)⟩
  · rw [hlatest]
    exact h.covered x ((hheads x).1 hx).1

/-! ## One transaction at a time -/

theorem insertPrepped_headsOk {preps : List GrainPrep} {seq op hlc : ℤ}
    (h : t.insertPrepped preps seq op hlc = .ok t') (hw : ∀ pr ∈ preps, pr.Whole)
    (hok : t.HeadsOk own) : t'.HeadsOk own := by
  induction preps generalizing t seq op hlc with
  | nil =>
    cases h
    exact hok
  | cons pr preps ih =>
    obtain ⟨t₁, hone, hrest⟩ := except_bind_ok h
    rw [List.forall_mem_cons] at hw
    obtain ⟨hins, hheads, hlatest, -⟩ := insertPreppedOne_ok hone
    exact ih hrest hw.2 (hok.insert hins hheads hlatest hw.1)

/-- A flip changes the rows of the closed grain and a back pointer only. -/
theorem flipped_alike {seq : ℤ} {old new : Hash} {now : ℤ} :
    ∀ g ∈ t.grains, g.seq ≠ seq → ∃ g' ∈ (t.flipped seq old new now).grains, GrainAlike g g' := by
  intro g hg hne
  have hmark : g ∈ (t.markSuperseded seq new now).grains := by
    refine List.mem_map.2 ⟨g, hg, ?_⟩
    rw [if_neg hne]
  refine ⟨_, List.mem_map.2 ⟨g, hmark, rfl⟩, ?_⟩
  split_ifs
  · exact ⟨rfl, rfl, rfl, rfl, rfl, rfl⟩
  · exact .refl g

theorem supersedeTxn_headsOk {old : Hash} {row : GrainRow} {pr : GrainPrep} {n : Slots}
    (found : t.grainByHash old = some row) (h : t.supersedeTxn old row.key pr n = .ok t')
    (hw : pr.Whole) (hok : t.HeadsOk own) (hrows : OwnRows own t.rows)
    (hrows' : OwnRows own t'.rows) : t'.HeadsOk own := by
  obtain ⟨-, t₁, hins, rfl⟩ := supersedeTxn_ok found h
  obtain ⟨hins', hheads, hlatest, -⟩ := insertPreppedOne_ok hins
  have hok₁ : t₁.HeadsOk own := hok.insert hins' hheads hlatest hw
  have hrow₁ : row ∈ t₁.grains := by
    rw [hins'.grains]
    exact List.mem_append_left _ (grainByHash_some found).1
  have hrows₁ : t₁.rows.Ok fun _ => True :=
    Rows.Ok.path (hrows.mono fun _ _ _ _ _ => trivial) (.single (hins'.rowStep trivial))
  have hrows₂ : OwnRows own (t₁.flipped row.seq old pr.hash n.now).rows := by
    rw [← (retireTip_frame _ row.key row.seq).rows]
    exact hrows'
  have hok₂ : ((t₁.flipped row.seq old pr.hash n.now).retireTip row.key row.seq).HeadsOk own :=
    hok₁.retire rfl rfl flipped_alike
      (fun x hx hxs => (hok₁.live x hx).key_of_seq hrows₁ hrow₁ hxs) hrows₂
  exact hok₂.mono rfl rfl fun g hg _ => ⟨g, hg, .refl g⟩

theorem GrainAlike.trans {a b c : GrainRow} (hab : GrainAlike a b) (hbc : GrainAlike b c) :
    GrainAlike a c :=
  ⟨hbc.seq.trans hab.seq, hbc.hash.trans hab.hash, hbc.createdAt.trans hab.createdAt,
    hbc.key.trans hab.key, hbc.svt.trans hab.svt, hbc.o.trans hab.o⟩

/-- Closing tips leaves the grains that are no such tip alone. -/
theorem closeTips_alike {L : GrainPrep → Prop} {tips : List Hash} {merge : Hash} {now : ℤ}
    (hrows : t.rows.Ok L) {g : GrainRow} (hg : g ∈ t.grains) (hne : g.hash ∉ tips) :
    ∃ g' ∈ (tips.foldl (fun t tip => t.closeTip tip merge now) t).grains, GrainAlike g g' := by
  induction tips generalizing t g with
  | nil => exact ⟨g, hg, .refl g⟩
  | cons tip tips ih =>
    rw [List.mem_cons, not_or] at hne
    have hstep : (t.closeTip tip merge now).rows.Ok L :=
      hrows.path (closeTips_rowPath [tip] merge now t)
    have hone : g ∈ (t.closeTip tip merge now).grains := by
      unfold closeTip
      cases hfound : t.grainByHash tip with
      | none => exact hg
      | some x =>
        obtain ⟨hx, hxh⟩ := grainByHash_some hfound
        have hseq : g.seq ≠ x.seq := by
          intro hseq
          have hsame : g = x := hrows.eq_of_seq hg hx hseq
          exact hne.1 (hsame ▸ hxh)
        simp only
        split_ifs
        · refine List.mem_map.2 ⟨g, hg, ?_⟩
          rw [if_neg hseq]
        · exact hg
    exact ih hstep hone hne.2

theorem mem_headsOf {k : Key} {x : HeadRow} : x ∈ t.headsOf k ↔ x ∈ t.heads ∧ x.key = k := by
  simp [headsOf, List.mem_insertionSort]

theorem mergeTxn_headsOk {k : Key} {tips : List Hash} {pr : GrainPrep} {n : Slots}
    (htips : (t.headsOf k).map HeadRow.hash = tips) (h : t.mergeTxn tips pr n = .ok t')
    (hkey : pr.key = some k) (hw : pr.Whole) (hok : t.HeadsOk own) (hrows : OwnRows own t.rows) :
    t'.HeadsOk own := by
  obtain ⟨t₁, hins, rfl⟩ := mergeTxn_ok h
  obtain ⟨hins', hheads, hlatest, -⟩ := insertPreppedOne_ok hins
  have hok₁ : t₁.HeadsOk own := hok.insert hins' hheads hlatest hw
  have hrows₁ : t₁.rows.Ok fun _ => True :=
    Rows.Ok.path (hrows.mono fun _ _ _ _ _ => trivial) (.single (hins'.rowStep trivial))
  have hframe := closeTips_frame t₁ tips pr.hash n.now
  refine hok₁.mono ?_ ?_ fun g hg ⟨x, hx, hxs⟩ => closeTips_alike hrows₁ hg fun htip => ?_
  · rw [hframe]
  · rw [hframe]
  -- a closed tip stood at `k`, and only the merge grain stands there now
  rw [← htips] at htip
  obtain ⟨y, hy, hyh⟩ := List.mem_map.1 htip
  obtain ⟨hy, hyk⟩ := mem_headsOf.1 hy
  obtain ⟨gy, hgy, -, hgyh, -, hgyk, -⟩ := hok.live y hy
  have hgy₁ : gy ∈ t₁.grains := by
    rw [hins'.grains]
    exact List.mem_append_left _ hgy
  have hsame : gy = g := hrows₁.eq_of_hash hgy₁ hg (hgyh.trans hyh)
  have hxk : x.key = k := by
    have hgk := (hok₁.live x hx).key_of_seq hrows₁ hg hxs
    rw [← hsame, hgyk, hyk] at hgk
    exact (Option.some_inj.1 hgk).symm
  have hfresh : x ∉ t.heads.filter (fun h => h.key ≠ k) := by simp [hxk]
  have hxnew : x.hash = pr.hash := by
    unfold GrainPrep.key at hkey
    obtain ⟨⟨s, p, o⟩, hspo, rfl⟩ := Option.map_eq_some_iff.1 hkey
    rw [hheads] at hx
    simp only [collapseHeads, hspo, putLatest] at hx
    rcases List.mem_append.1 hx with hx | hx
    · exact absurd hx hfresh
    · rw [List.mem_singleton.1 hx]
  obtain ⟨g', hg', hgs', hgh', -⟩ := hok₁.live x hx
  have hg'same : g' = g := hrows₁.eq_of_seq hg' hg (hgs'.trans hxs)
  have hnone := List.find?_eq_none.1 hins'.freshHash gy hgy
  rw [hsame, ← hg'same, hgh', hxnew] at hnone
  simp at hnone

theorem forgetTxn_headsOk {hash : Hash} {row : GrainRow} {len : Option ℤ} {op hlc : ℤ}
    (found : t.grainByHash hash = some row) (h : t.forgetTxn hash row.key op hlc = .ok (len, t'))
    (hok : t.HeadsOk own) (hrows : OwnRows own t.rows) (hrows' : OwnRows own t'.rows) :
    t'.HeadsOk own := by
  obtain ⟨-, rfl⟩ := forgetTxn_ok found h
  have hrows₁ : OwnRows own (t.deleteSeq row.seq).rows := by
    rw [← (retireTip_frame _ row.key row.seq).rows]
    exact hrows'
  have hok₁ : ((t.deleteSeq row.seq).retireTip row.key row.seq).HeadsOk own := by
    refine hok.retire rfl rfl (fun g hg hne => ?_)
      (fun x hx hxs => (hok.live x hx).key_of_seq hrows (grainByHash_some found).1 hxs) hrows₁
    exact ⟨g, List.mem_filter.2 ⟨hg, by simpa using hne⟩, .refl g⟩
  exact hok₁.mono rfl rfl fun g hg _ => ⟨g, hg, .refl g⟩

theorem eraseTxn_headsOk {seqs ids : List ℤ} {op hlc : ℤ} {out : EraseOut}
    (h : t.eraseTxn seqs ids op hlc = .ok (out, t')) (hok : t.HeadsOk own)
    (hrows : OwnRows own t.rows) : t'.HeadsOk own := by
  obtain ⟨t₁, t₂, htargets, rfl, hscrub, -⟩ := eraseTxn_ok h
  obtain ⟨herase, hheads, hlatest, -⟩ := eraseTargets_ok htargets
  have hrows₁ : OwnRows own t₁.rows := hrows.step herase.rowStep
  have htip : ∀ x ∈ t.heads, x.seq ∈ seqs →
      ∃ g ∈ t.grains.filter (fun g => g.seq ∈ seqs), g.key = some x.key ∧ g.seq = x.seq := by
    intro x hx hxs
    obtain ⟨g, hg, hgs, -, -, hgk, -⟩ := hok.live x hx
    exact ⟨g, List.mem_filter.2 ⟨hg, by simpa [hgs] using hxs⟩, hgk, hgs⟩
  have hbut : t₁.HeadsBut own seqs fun k => k ∈ ((t.grains.filter fun g => g.seq ∈ seqs).filterMap
      GrainRow.key).dedup := by
    refine hok.drop (fun x => ?_) hlatest (fun g hg hgs => ?_) fun x hx hxs => ?_
    · rw [hheads, List.mem_filter]
      refine and_congr_right fun hx => ?_
      rw [decide_eq_true_eq]
      refine not_congr ⟨?_, htip x hx⟩
      rintro ⟨g, hg, -, hgs⟩
      rw [← hgs]
      simpa using (List.mem_filter.1 hg).2
    · refine ⟨g, ?_, .refl g⟩
      rw [herase.grains]
      refine List.mem_filter.2 ⟨hg, ?_⟩
      rw [decide_eq_true_eq, List.mem_map]
      rintro ⟨g', hg', hgs'⟩
      exact hgs (by simpa [hgs'] using (List.mem_filter.1 hg').2)
    · obtain ⟨g, hg, hgk, -⟩ := htip x hx hxs
      exact List.mem_dedup.2 (List.mem_filterMap.2 ⟨g, hg, hgk⟩)
  have hok₁ := hbut.reconcile fun x hx => (hbut.live x hx).joins hrows₁
  rw [hscrub.file]
  exact hok₁.mono rfl rfl fun g hg _ => ⟨g, hg, .refl g⟩

theorem insertBlobTxn_headsOk {L : GrainPrep → Prop} {pr : GrainPrep} {seq op hlc : ℤ}
    {kind : OpKind} (h : t.insertBlobTxn pr seq op hlc kind = .ok t') (hw : pr.Whole)
    (hok : t.HeadsOk own) (hrows' : t'.rows.Ok L) : t'.HeadsOk own := by
  obtain ⟨hins, hheads, hlatest, -⟩ := insertBlobTxn_ok h
  have hnew : pr.grainRow seq ∈ t'.grains := by
    rw [hins.grains]
    exact List.mem_append_right _ (List.mem_singleton_self _)
  have hsub : ∀ g ∈ t.grains, ∃ g' ∈ t'.grains, GrainAlike g g' :=
    fun g hg => ⟨g, by rw [hins.grains]; exact List.mem_append_left _ hg, .refl g⟩
  unfold unionHeads at hheads hlatest
  cases hspo : pr.spo with
  | none =>
    simp only [hspo] at hheads hlatest
    exact hok.mono hheads hlatest fun g hg _ => hsub g hg
  | some x =>
    obtain ⟨s, p, o⟩ := x
    obtain ⟨-, -, ho⟩ := GrainPrep.spo_some hspo
    simp only [hspo] at hheads hlatest
    -- the rows are in place before the grain is registered
    let t₀ : Tables := { t' with heads := t.heads, entityLatest := t.entityLatest }
    let hd : HeadRow := ⟨pr.nsId, s, p, seq, pr.hash, pr.created⟩
    have hok₀ : t₀.HeadsOk own := hok.mono rfl rfl fun g hg _ => hsub g hg
    have hkey : (pr.grainRow seq).key = some hd.key := by
      rw [GrainPrep.grainRow_key hw, GrainPrep.key, hspo]
      rfl
    have hreg : (t₀.registerTip hd o).HeadsOk own :=
      hok₀.register (L := L) hrows' ⟨_, hnew, rfl, rfl, rfl, hkey, rfl⟩ ⟨_, hnew, rfl, fun _ => ho⟩
    obtain ⟨hh, hl⟩ := registerTip_congr (a := t₀) (b := t) rfl rfl hd o
    refine hreg.mono (hheads.trans hh.symm) (hlatest.trans hl.symm) fun g hg _ => ?_
    rw [(registerTip_frame t₀ hd o).grains] at hg
    exact ⟨g, hg, .refl g⟩

/-- A stored grain with a key has all its triple columns. -/
theorem key_columns {row : GrainRow} (hrows : OwnRows own t.rows) (hrow : row ∈ t.grains) {k : Key}
    (hkey : row.key = some k) : k = ⟨row.ns, row.s.getD 0, row.p.getD 0⟩ ∧
      row.o = some (row.o.getD 0) := by
  obtain ⟨pr, ⟨-, hwhole⟩, hof⟩ := hrows.spelled row hrow
  have hs : row.s = pr.s := by rw [hof.row]; rfl
  have ho : row.o = pr.o := by rw [hof.row]; rfl
  unfold GrainRow.key at hkey
  cases hrs : row.s with
  | none => simp [hrs] at hkey
  | some s =>
    cases hrp : row.p with
    | none => simp [hrs, hrp] at hkey
    | some p =>
      simp only [hrs, hrp, Option.some.injEq] at hkey
      refine ⟨hkey.symm, ?_⟩
      rcases hwhole with hspo | ⟨hnone, -⟩
      · obtain ⟨⟨s', p', o'⟩, hspo⟩ := Option.isSome_iff_exists.1 hspo
        rw [ho, (GrainPrep.spo_some hspo).2.2]
        rfl
      · rw [← hs, hrs] at hnone
        cases hnone

theorem flipTxn_headsOk {old new : Hash} {now : ℤ} (hsafe : t.FlipSafe old new)
    (hok : t.HeadsOk own) (hrows : OwnRows own t.rows) : (t.flipTxn old new now).2.HeadsOk own := by
  unfold flipTxn
  cases hold : t.grainByHash old with
  | none => exact hok
  | some row =>
    obtain ⟨hlinear, hfork⟩ := hsafe row hold
    simp only
    split_ifs with hsvt hby
    · exact hok
    · unfold registerFork
      cases hnew : t.grainByHash new with
      | none => exact hok
      | some g =>
        obtain ⟨hg, hgh⟩ := grainByHash_some hnew
        obtain ⟨hkey, hlive⟩ := hfork (by rintro h; simp [h] at hsvt) hby g hnew
        obtain ⟨k, hk⟩ := Option.isSome_iff_exists.1 hkey
        obtain ⟨rfl, ho⟩ := key_columns hrows hg hk
        exact hok.register hrows ⟨g, hg, rfl, hgh, rfl, hk, hlive⟩ ⟨g, hg, rfl, fun _ => ho⟩
    · have hlose : ∀ e ∈ t.entityLatest, e.seq ∉ [row.seq] := fun e he => by
        simpa using hlinear (by simpa using hsvt) e he
      have hkeep : ∀ g ∈ t.grains, g.seq ∉ [row.seq] →
          ∃ g' ∈ (t.flipped row.seq old new now).grains, GrainAlike g g' :=
        fun g hg hne => flipped_alike g hg (by simpa using hne)
      have htip : ∀ x ∈ t.heads, x.seq = row.seq → row.key = some x.key := fun x hx hxs =>
        (hok.live x hx).key_of_seq hrows (grainByHash_some hold).1 hxs
      unfold flipLinear
      cases hkey : row.key with
      | none =>
        refine hok.dropLosers [row.seq] (fun x => ?_) rfl hkeep hlose
        refine (and_iff_left_of_imp fun hx => ?_).symm
        rw [List.mem_singleton]
        intro hxs
        exact nomatch hkey.symm.trans (htip x hx hxs)
      | some k =>
        refine hok.dropLosers [row.seq] (fun x => ?_) rfl hkeep hlose
        simp only [deleteHead, List.mem_filter, decide_eq_true_eq, List.mem_singleton]
        refine and_congr_right fun hx => not_congr ⟨fun hks => hks.2, fun hxs => ⟨?_, hxs⟩⟩
        exact (Option.some_inj.1 (hkey.symm.trans (htip x hx hxs))).symm

end Tables

/-! ## Along a run -/

/-- The head tables are in order, and no link stands in for an own triple where
`own` asks for it. -/
def DejaDB.HeadsInv (own : Prop) (st : DejaDB) : Prop := st.db.HeadsOk own ∧ OwnRows own st.db.rows

theorem Idle.headsInv {own : Prop} {a b : DejaDB} (h : Idle a b) (hI : a.HeadsInv own) :
    b.HeadsInv own := by
  refine ⟨?_, by rw [h.rows]; exact hI.2⟩
  rw [h.file]
  exact hI.1.mono rfl rfl fun g hg _ => ⟨g, hg, .refl g⟩

/-- **Every guarded commit keeps the head tables in order.** -/
theorem Commit.headsInv {own : Prop} {ev : Event} {a b : DejaDB} (h : Commit C ev a b)
    (hg : TipGuard ev a) (hown : own → ∀ pr ∈ ev.preps, pr.OwnObject)
    (hI : a.HeadsInv own) : b.HeadsInv own := by
  have hwhole : ∀ pr ∈ ev.preps, pr.Whole := fun pr hpr =>
    (h.prepared pr hpr).elim fun _ hv => hv.toLinked.whole
  have hrows : OwnRows own b.db.rows :=
    hI.2.path (h.rowPath fun pr hpr => ⟨fun hask => hown hask pr hpr, hwhole pr hpr⟩)
  refine ⟨?_, hrows⟩
  have hsame : ∀ {t : Tables}, ∀ g ∈ t.grains, (∃ x ∈ t.heads, x.seq = g.seq) →
      ∃ g' ∈ t.grains, Tables.GrainAlike g g' := fun g hg _ => ⟨g, hg, .refl g⟩
  cases h with
  | insert prepared txn => exact Tables.insertPrepped_headsOk txn hwhole hI.1
  | supersede written prepared found txn =>
    exact Tables.supersedeTxn_headsOk found txn (hwhole _ (List.mem_singleton_self _)) hI.1 hI.2
      hrows
  | merge written prepared tips txn =>
    exact Tables.mergeTxn_headsOk tips txn hg (hwhole _ (List.mem_singleton_self _)) hI.1 hI.2
  | forget found txn =>
    rw [DejaDB.droppedDoc_db] at hrows ⊢
    exact Tables.forgetTxn_headsOk found txn hI.1 hI.2 hrows
  | erase txn => exact Tables.eraseTxn_headsOk txn hI.1 hI.2
  | @scrub _ ids gone t txn =>
    have hscrub := Tables.scrubTerms_ok txn
    show t.HeadsOk own
    rw [hscrub.file]
    exact hI.1.mono rfl rfl hsame
  | insertBlob prepared txn =>
    exact Tables.insertBlobTxn_headsOk txn (hwhole _ (List.mem_singleton_self _)) hI.1 hrows
  | flip => exact Tables.flipTxn_headsOk hg hI.1 hI.2
  | log txn =>
    obtain ⟨rfl, -⟩ := Tables.insertOp_ok txn
    exact hI.1.mono rfl rfl hsame
  | defer on => exact hI.1
  | undefer => exact hI.1
  | rebuildText on inline txn =>
    obtain ⟨grains, rows, c, hgrains, -, hlooks, rfl, -, -⟩ := rebuildTextBody_ok txn
    have hdb : c.db = a.db := by rw [hlooks.rest]
    rw [hdb, mapM_retext hgrains] at *
    refine hI.1.mono rfl rfl fun g hg _ => ⟨_, List.mem_map.2 ⟨g, hg, rfl⟩, ?_⟩
    exact ⟨rfl, rfl, rfl, rfl, rfl, rfl⟩
  | setEmbedder => exact hI.1
  | reopen => exact hI.1.mono rfl rfl hsame

theorem createStore_headsInv (own : Prop) (C : Core G) (explicit : Option DejaDbOptions)
    (clock : ℕ → ℤ) :
    (createStore C explicit clock).HeadsInv own := by
  rw [createStore_eq]
  refine ⟨⟨?_, ?_, ?_⟩, List.nodup_nil, List.nodup_nil, ?_, ⟨?_, ?_, ?_, ?_, ?_, ?_⟩⟩ <;>
    simp [Tables.rows, Tables.empty]

/-- The grain `latest` reads is a tip of its key. -/
theorem DejaDB.HeadsInv.latest {own : Prop} {st : DejaDB} (h : st.HeadsInv own)
    {ns subject relation : String} {view : DeserializedGrain}
    (hl : st.latest C ns subject relation = .ok (some view)) :
    ∃ g ∈ st.db.grains, g.svt = none ∧ C.deserializeBlob g.blob = .ok view := by
  unfold DejaDB.latest at hl
  cases hk : st.keyOf ns subject relation with
  | none =>
    rw [hk] at hl
    cases hl
  | some k =>
    simp only [hk] at hl
    cases he : st.db.latestOf k with
    | none =>
      rw [he] at hl
      cases hl
    | some e =>
      obtain ⟨⟨x, hx, -, -, hxh, -⟩, -⟩ := h.1.elected e (List.mem_of_find?_eq_some he)
      obtain ⟨g, hg, -, hgh, -, -, hsvt⟩ := h.1.live x hx
      cases hfound : st.db.grainByHash e.hash with
      | none =>
        simp only [he, DejaDB.get, hfound] at hl
        cases hl
      | some g' =>
        obtain ⟨hg', hgh'⟩ := Tables.grainByHash_some hfound
        have hsame : g' = g := h.2.eq_of_hash hg' hg (hgh'.trans (hgh.trans hxh).symm)
        simp only [he, DejaDB.get, hfound] at hl
        cases hd : C.deserializeBlob g'.blob with
        | error e =>
          rw [hd] at hl
          cases hl
        | ok v =>
          rw [hd] at hl
          cases hl
          exact ⟨g', hg', hsame ▸ hsvt, hd⟩

/-- **The head tables along a run.**  In every state a run of guarded operations
reaches, every tip is a stored grain of its key that is not superseded, a key has
a provisional head exactly when it has a tip, the provisional head is the tip of
the highest rank under its own object, and `latest` answers no superseded
grain. -/
theorem heads_ok {explicit : Option DejaDbOptions} {clock : ℕ → ℤ} {ops : List (Op G)}
    (h : Meets C HeadGuard (createStore C explicit clock) ops) :
    ((createStore C explicit clock).steps C ops).db.HeadsOk True ∧
      ∀ ns subject relation view,
        ((createStore C explicit clock).steps C ops).latest C ns subject relation =
            .ok (some view) →
          ∃ g ∈ ((createStore C explicit clock).steps C ops).db.grains,
            g.svt = none ∧ C.deserializeBlob g.blob = .ok view := by
  obtain ⟨-, hI⟩ := run_keeps (I := DejaDB.HeadsInv True) (fun _ _ _ hidle => hidle.headsInv)
    (fun _ _ _ _ hg hcommit => hcommit.headsInv hg.2 fun _ => hg.1)
    (createStore_headsInv True C explicit clock) h
  exact ⟨hI.1, fun _ _ _ _ => hI.latest⟩

/-! ## A supersession replayed -/

/-- A grain superseded by one with the timestamp `created`. -/
def superseded (created : UInt8) : DejaDB := sampleStore.steps sampleCore
  [.add (sampleFact 1 5 1 2 3), .supersede (Hash.ofByte 1) (sampleFact 2 created 1 2 4)]

/-- Its replica: a new file that imported everything. -/
def supersededCopy (created : UInt8) : DejaDB :=
  sampleStore.steps sampleCore [.importBundle ((superseded created).bundleSince 0) none]

/-- Replaying a supersession that came later, and forgetting its grain, leaves
the head tables in order. -/
theorem replayed_heads_ok :
    (sampleStore.steps sampleCore [.add (sampleFact 1 5 1 2 3),
      .importBundle ((superseded 6).bundleSince 2) none,
      .forget (Hash.ofByte 2)]).db.HeadsOk True :=
  (heads_ok (by decide +kernel)).1

/-- The grain `latest` reads. -/
def DejaDB.latestRow (st : DejaDB) (ns subject relation : String) : Option GrainRow :=
  (st.keyOf ns subject relation).bind fun k =>
    (st.db.latestOf k).bind fun e => st.db.grainByHash e.hash

theorem DejaDB.latest_eq {st : DejaDB} {ns subject relation : String} {g : GrainRow}
    (h : st.latestRow ns subject relation = some g) :
    st.latest C ns subject relation = (C.deserializeBlob g.blob).map some := by
  obtain ⟨k, hk, h⟩ := Option.bind_eq_some_iff.1 h
  obtain ⟨e, he, h⟩ := Option.bind_eq_some_iff.1 h
  simp only [DejaDB.latest, hk, he, DejaDB.get, h]

theorem supersededCopy_stale :
    ((supersededCopy 1).latestRow "shared" "a" "b").any (fun g => g.svt.isSome) ∧
      ∃ e ∈ (supersededCopy 1).db.entityLatest,
        ∀ x ∈ (supersededCopy 1).db.heads, x.seq ≠ e.seq := by
  decide +kernel

/-- The replica of a supersession with an earlier timestamp keeps the superseded
grain as its provisional head. -/
theorem late_import_keeps_superseded_head :
    Reachable sampleCore (supersededCopy 1) ∧ ¬(supersededCopy 1).db.HeadsOk True ∧
      ∃ g ∈ (supersededCopy 1).db.grains, g.svt.isSome ∧
        (supersededCopy 1).latest sampleCore "shared" "a" "b" =
          (sampleCore.deserializeBlob g.blob).map some := by
  obtain ⟨hlatest, e, he, hfree⟩ := supersededCopy_stale
  refine ⟨sampleStore_reachable.steps _, fun hok => ?_, ?_⟩
  · obtain ⟨⟨x, hx, -, hxs, -⟩, -⟩ := hok.elected e he
    exact hfree x hx hxs
  · obtain ⟨g, hg, hsvt⟩ := (Option.any_eq_true _ _).1 hlatest
    obtain ⟨k, -, hk⟩ := Option.bind_eq_some_iff.1 hg
    obtain ⟨e, -, he⟩ := Option.bind_eq_some_iff.1 hk
    exact ⟨g, (Tables.grainByHash_some he).1, hsvt, DejaDB.latest_eq hg⟩

end Deja
