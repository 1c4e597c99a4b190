import Deja.Spec.Rows

/-!
# Appending operations

Adding, superseding and merging never take a grain away: every stored grain is
there afterwards, under its address and with its bytes.  Adding alone leaves the
stored rows as they are and appends rows of the added grains.
-/

namespace Deja

open Run

variable {G : Type} {C : Core G}

/-- The operations that add grains, or supersede by a grain they add. -/
def Op.Appends : Op G → Prop
  | .add _ | .addBatch _ | .addIfNovel _ | .supersede .. | .mergeHeads .. => True
  | _ => False

/-- The commits of such an operation. -/
def Event.Appends : Event → Prop
  | .insert _ | .supersede .. | .merge .. => True
  | _ => False

/-! ## Grains that stay -/

/-- Every grain is still there, with its address and bytes. -/
def Tables.Retains (t t' : Tables) : Prop :=
  ∀ g ∈ t.grains, ∃ g' ∈ t'.grains, g'.hash = g.hash ∧ g'.blob = g.blob

namespace Tables.Retains

theorem refl (t : Tables) : t.Retains t := fun g hg => ⟨g, hg, rfl, rfl⟩

theorem trans {a b c : Tables} (hab : a.Retains b) (hbc : b.Retains c) : a.Retains c := by
  intro g hg
  obtain ⟨g₁, hg₁, hhash₁, hblob₁⟩ := hab g hg
  obtain ⟨g₂, hg₂, hhash₂, hblob₂⟩ := hbc g₁ hg₁
  exact ⟨g₂, hg₂, hhash₂.trans hhash₁, hblob₂.trans hblob₁⟩

theorem of_eq {t t' : Tables} (h : t'.grains = t.grains) : t.Retains t' := by
  intro g hg
  exact ⟨g, by rwa [h], rfl, rfl⟩

/-- A rewrite of the columns beside address and bytes. -/
theorem of_map {t t' : Tables} {f : GrainRow → GrainRow} (h : t'.grains = t.grains.map f)
    (hf : ∀ g, (f g).hash = g.hash ∧ (f g).blob = g.blob) : t.Retains t' := by
  intro g hg
  exact ⟨f g, by rw [h]; exact List.mem_map_of_mem hg, hf g⟩

end Tables.Retains

/-- A batch appends the rows of its grains. -/
theorem Tables.insertPrepped_grains {preps : List GrainPrep} {t t' : Tables} {seq op hlc : ℤ}
    (h : t.insertPrepped preps seq op hlc = .ok t') :
    ∃ rows, t'.grains = t.grains ++ rows ∧ ∀ r ∈ rows, ∃ pr ∈ preps, r.blob = pr.blob := by
  induction preps generalizing t seq op hlc with
  | nil =>
    cases h
    exact ⟨[], by simp, fun _ hr => nomatch hr⟩
  | cons pr preps ih =>
    obtain ⟨t₁, hone, hrest⟩ := except_bind_ok h
    obtain ⟨rows, hrows, hblob⟩ := ih hrest
    refine ⟨pr.grainRow seq :: rows, ?_, ?_⟩
    · rw [hrows, (Tables.insertPreppedOne_ok hone).1.grains]
      simp
    · intro r hr
      rcases List.mem_cons.1 hr with rfl | hr
      · exact ⟨pr, by simp, rfl⟩
      · obtain ⟨pr', hpr', hb⟩ := hblob r hr
        exact ⟨pr', by simp [hpr'], hb⟩

theorem Tables.Inserts.retains {t t' : Tables} {pr : GrainPrep} {seq : ℤ}
    (h : t.Inserts pr seq t') : t.Retains t' := by
  intro g hg
  exact ⟨g, by rw [h.grains]; simp [hg], rfl, rfl⟩

theorem Tables.flipped_retains (t : Tables) (seq : ℤ) (old new : Hash) (now : ℤ) :
    t.Retains (t.flipped seq old new now) := by
  have hmark : t.Retains (t.markSuperseded seq new now) := by
    refine .of_map rfl fun g => ?_
    split_ifs <;> exact ⟨rfl, rfl⟩
  refine hmark.trans
    (.of_map (f := fun g => if g.hash = new then { g with supersedes := some old } else g) rfl ?_)
  intro g
  split_ifs <;> exact ⟨rfl, rfl⟩

theorem Tables.closeTips_retains (tips : List Hash) (merge : Hash) (now : ℤ) (t : Tables) :
    t.Retains (tips.foldl (fun t tip => t.closeTip tip merge now) t) := by
  induction tips generalizing t with
  | nil => exact .refl t
  | cons tip tips ih =>
    refine .trans ?_ (ih (t.closeTip tip merge now))
    unfold closeTip
    cases t.grainByHash tip with
    | none => exact .refl t
    | some g =>
      simp only
      split_ifs
      · refine .of_map (f := fun x => if x.seq = g.seq then
          { x with supersededBy := some merge, svt := some now } else x) rfl fun x => ?_
        split_ifs <;> exact ⟨rfl, rfl⟩
      · exact .refl t

/-- An appending commit keeps every grain. -/
theorem Commit.retains {ev : Event} {a b : DejaDB} (hev : ev.Appends) (h : Commit C ev a b) :
    a.db.Retains b.db := by
  cases h with
  | insert prepared txn =>
    obtain ⟨rows, hrows, -⟩ := Tables.insertPrepped_grains txn
    intro g hg
    exact ⟨g, by show g ∈ _; simp only [DejaDB.withStats, DejaDB.committed, hrows]; simp [hg],
      rfl, rfl⟩
  | @supersede _ old pr row _ now _ _ _ view written prepared found txn =>
    obtain ⟨-, t₁, hins, rfl⟩ := Tables.supersedeTxn_ok found txn
    have hframe := Tables.retireTip_frame (t₁.flipped row.seq old pr.hash now) row.key row.seq
    exact ((Tables.insertPreppedOne_ok hins).1.retains.trans (t₁.flipped_retains _ _ _ _)).trans
      (.of_eq hframe.grains)
  | merge written prepared tips txn =>
    obtain ⟨t₁, hins, rfl⟩ := Tables.mergeTxn_ok txn
    exact (Tables.insertPreppedOne_ok hins).1.retains.trans (Tables.closeTips_retains _ _ _ t₁)
  | forget | erase | scrub | insertBlob | flip | log | defer | undefer | rebuildText | setEmbedder
  | reopen => exact hev.elim

/-- The commits of an appending operation append. -/
theorem Op.Appends.meets {op : Op G} (h : op.Appends) (st : DejaDB) :
    op.Meets C (fun ev _ => ev.Appends) st := by
  have hbatch : ∀ gs : List (Grain G), ∀ x ∈ addBatchCommits C gs st, x.1.Appends := by
    intro gs x hx
    unfold addBatchCommits at hx
    cases hprep : prepNovel C [] gs st with
    | error e s => rw [hprep] at hx; cases hx
    | ok out s => rw [hprep] at hx; rw [List.mem_singleton.1 hx]; trivial
  intro x hx
  cases op with
  | add g => exact hbatch [g] x hx
  | addBatch gs => exact hbatch gs x hx
  | addIfNovel g =>
    simp only [Op.commits, addIfNovelCommits] at hx
    cases hpv : probeView C g st with
    | error e s => rw [hpv] at hx; cases hx
    | ok gv s =>
      simp only [hpv] at hx
      split_ifs at hx
      · cases hx
      · cases hprep : prepGrain C g s with
        | error e s' => rw [hprep] at hx; cases hx
        | ok pr s' => rw [hprep] at hx; rw [List.mem_singleton.1 hx]; trivial
  | supersede old g =>
    simp only [Op.commits, supersedeCommits] at hx
    split_ifs at hx
    · cases hprep : prepGrain C { g with derivedFrom := some old.toHex } st with
      | error e s' => rw [hprep] at hx; cases hx
      | ok pr s' => rw [hprep] at hx; rw [List.mem_singleton.1 hx]; trivial
    · cases hx
  | mergeHeads ns s r g =>
    simp only [Op.commits, mergeCommits] at hx
    cases hk : st.keyOf ns s r with
    | none => rw [hk] at hx; cases hx
    | some k =>
      rw [hk] at hx
      simp only at hx
      split at hx
      · split at hx
        · rw [List.mem_singleton.1 hx]; trivial
        · cases hx
      · cases hx
  | forget | forgetSubject | forgetOlderThan | importBundle | deferTextIndex | rebuildTextIndex
  | setEmbedder | reopen => exact h.elim

theorem DejaDB.Sound.step {st : DejaDB} (h : st.Sound) (op : Op G) : (st.step C op).Sound := by
  have hpath : Path C (fun _ _ => True) st (st.step C op) := op.path h fun _ _ => trivial
  exact ⟨hpath.vocabOk h.vocabOk, hpath.link h.link⟩

/-- **Appending keeps every grain.** -/
theorem DejaDB.step_retains {st : DejaDB} (h : st.Sound) {op : Op G} (hop : op.Appends) :
    st.db.Retains (st.step C op).db := by
  refine (op.path h (hop.meets st)).keeps (I := fun b => st.db.Retains b.db) ?_ ?_ (.refl _)
  · intro a b hidle hI
    have hg : b.db.grains = a.db.grains := congrArg Rows.grains hidle.rows
    exact hI.trans (.of_eq hg)
  · intro ev a b hev hcommit hI
    exact hI.trans (hcommit.retains hev)

theorem DejaDB.steps_retains {st : DejaDB} (h : st.Sound) {ops : List (Op G)}
    (hops : ∀ op ∈ ops, op.Appends) :
    (st.steps C ops).Sound ∧ st.db.Retains (st.steps C ops).db := by
  induction ops generalizing st with
  | nil => exact ⟨h, .refl _⟩
  | cons op ops ih =>
    rw [List.forall_mem_cons] at hops
    obtain ⟨hs, hr⟩ := ih (h.step op) hops.2
    exact ⟨hs, (DejaDB.step_retains h hops.1).trans hr⟩

/-! ## Adding one grain -/

/-- The preparation of one grain is of that grain. -/
theorem prepNovel_one {g : Grain G} {seen hashes : List Hash} {preps : List GrainPrep}
    {st st' : DejaDB} (h : prepNovel C seen [g] st = .ok (hashes, preps) st') :
    ∀ pr ∈ preps, Written C g pr := by
  obtain ⟨⟨blob, hash⟩, st₁, hlift, h₁⟩ := bind_eq_ok.1 h
  obtain ⟨hser, rfl⟩ := lift_eq_ok.1 hlift
  obtain ⟨st₂, st₃, hget, h₂⟩ := bind_eq_ok.1 h₁
  cases hget
  split_ifs at h₂
  · obtain ⟨⟨hs, ps⟩, st₄, hrest, h₃⟩ := bind_eq_ok.1 h₂
    obtain ⟨heq, rfl⟩ := pure_eq_ok.1 h₃
    obtain ⟨hnil, -⟩ := pure_eq_ok.1 hrest
    cases heq
    cases hnil
    simp
  · obtain ⟨pr, st₄, hpr, h₃⟩ := bind_eq_ok.1 h₂
    obtain ⟨⟨hs, ps⟩, st₅, hrest, h₄⟩ := bind_eq_ok.1 h₃
    obtain ⟨heq, rfl⟩ := pure_eq_ok.1 h₄
    obtain ⟨hnil, -⟩ := pure_eq_ok.1 hrest
    cases heq
    cases hnil
    obtain ⟨rfl, rfl, -⟩ := prepFromBlob_bytes hpr
    intro x hx
    rw [List.mem_singleton.1 hx]
    exact hser

/-- The rows an `add` appends carry the bytes of its grain. -/
theorem DejaDB.add_grains {st : DejaDB} (h : st.Sound) (g : Grain G) :
    ∃ rows, (st.step C (.add g)).db.grains = st.db.grains ++ rows ∧
      ∀ r ∈ rows, ∃ hash, C.serializeGrain g = .ok (r.blob, hash) := by
  have hmeets : (Op.add g).Meets C
      (fun ev _ => ∃ preps, ev = .insert preps ∧ ∀ pr ∈ preps, Written C g pr) st := by
    intro x hx
    simp only [Op.commits, addBatchCommits] at hx
    cases hprep : prepNovel C [] [g] st with
    | error e s => rw [hprep] at hx; cases hx
    | ok out s =>
      rw [hprep] at hx
      rw [List.mem_singleton.1 hx]
      exact ⟨out.2, rfl, prepNovel_one hprep⟩
  refine ((Op.add g).path h hmeets).keeps (I := fun b => ∃ rows,
    b.db.grains = st.db.grains ++ rows ∧
      ∀ r ∈ rows, ∃ hash, C.serializeGrain g = .ok (r.blob, hash)) ?_ ?_ ⟨[], by simp, by simp⟩
  · rintro a b hidle ⟨rows, hrows, hblob⟩
    have hg : b.db.grains = a.db.grains := congrArg Rows.grains hidle.rows
    exact ⟨rows, hg.trans hrows, hblob⟩
  · rintro ev a b ⟨preps, rfl, hpreps⟩ hcommit ⟨rows, hrows, hblob⟩
    cases hcommit with
    | insert prepared txn =>
      obtain ⟨rows', hrows', hblob'⟩ := Tables.insertPrepped_grains txn
      refine ⟨rows ++ rows', ?_, ?_⟩
      · show Tables.grains _ = _
        simp only [DejaDB.withStats, DejaDB.committed, hrows', hrows, List.append_assoc]
      · intro r hr
        rcases List.mem_append.1 hr with hr | hr
        · exact hblob r hr
        · obtain ⟨pr, hpr, hb⟩ := hblob' r hr
          exact ⟨pr.hash, by rw [hb]; exact hpreps pr hpr⟩

end Deja
