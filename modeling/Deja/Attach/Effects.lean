import Deja.Attach.Blobs
import Deja.Erase.Wiped

/-!
# What the operations of a run do to the stored grains

* `Op.erases_ok`, `Op.erases_error` — an erasure takes the grains it targets, or
  leaves the file as it was.
* `Op.retains_blobs` — an addition, a supersession or an open loses no blob.
-/

namespace Deja

open Run

variable {G : Type} {C : Core G}

/-! ## What an operation does to the grains -/

/-- The erasing operations. -/
def Op.Erases : Op G → Prop
  | .forget _ | .forgetSubject .. | .forgetOlderThan .. => True
  | _ => False

theorem eraseWhere_error {sel : ErasureSelector} {a b : DejaDB} {e : DejaDbError}
    (h : eraseWhere C sel a = .error e b) : b.db = a.db := by
  rcases bind_eq_error.1 h with h₁ | ⟨out, a₁, -, h₁⟩
  · unfold atomically at h₁
    cases hbody : eraseBody C sel a with
    | ok out s =>
      rw [hbody] at h₁
      cases h₁
    | error e' s =>
      rw [hbody] at h₁
      cases h₁
      rfl
  · rcases bind_eq_error.1 h₁ with h₂ | ⟨u, a₂, -, h₂⟩
    · rw [dropStats_apply] at h₂
      cases h₂
    · rcases bind_eq_error.1 h₂ with h₃ | ⟨u, a₃, -, h₃⟩
      · rw [modify_apply] at h₃
        cases h₃
      · cases h₃

/-- The grains a bulk erasure took are those it selected. -/
theorem eraseWhere_grains {sel : ErasureSelector} {a b : DejaDB} {rep : ErasureReport}
    (h : eraseWhere C sel a = .ok rep b) :
    ∃ dead : List ℤ, b.db.grains = (a.db.grains.filter fun g => g.seq ∉ dead) ∧
      ∀ g ∈ a.db.grains, g.seq ∈ dead → g ∈ a.erased C sel := by
  obtain ⟨ids, seqs, s, gone, hsel, herased, -⟩ := eraseWhere_ok h
  refine ⟨_, herased.file.grains, fun g hg hdead => ?_⟩
  have hdb : s.db = a.db := by rw [((leads_looks_selectTargets sel).of_ok hsel).rest]
  obtain ⟨g', hg', hseq⟩ := List.mem_map.1 hdead
  obtain ⟨-, hin⟩ := List.mem_filter.1 hg'
  rw [DejaDB.erased, hsel]
  refine List.mem_filter.2 ⟨by rwa [hdb], ?_⟩
  rw [← hseq]
  simpa using hin

theorem quiet_ok {α : Type} {x : StoreM α} {a b : DejaDB} {u : Unit} (h : quiet x a = .ok u b) :
    ∃ r, x a = .ok r b := by
  obtain ⟨r, b', hx, h₁⟩ := bind_eq_ok.1 h
  obtain ⟨-, rfl⟩ := pure_eq_ok.1 h₁
  exact ⟨r, hx⟩

theorem quiet_error {α : Type} {x : StoreM α} {a b : DejaDB} {e : DejaDbError}
    (h : quiet x a = .error e b) : x a = .error e b := by
  rcases bind_eq_error.1 h with h₁ | ⟨r, b', -, h₁⟩
  · exact h₁
  · cases h₁

/-- Nothing taken. -/
theorem grains_untouched (l : List GrainRow) (targets : List GrainRow) :
    ∃ dead : List ℤ, l = (l.filter fun g => g.seq ∉ dead) ∧
      ∀ g ∈ l, g.seq ∈ dead → g ∈ targets :=
  ⟨[], (filter_notMem_nil l GrainRow.seq).symm, fun _ _ h => absurd h List.not_mem_nil⟩

/-- **An erasing operation that went through** took the grains it targeted and left
the others as they were. -/
theorem Op.erases_ok {op : Op G} (hop : op.Erases) {a b : DejaDB} {u : Unit}
    (hgood : a.Good C) (h : op.run C a = .ok u b) :
    ∃ dead : List ℤ, b.db.grains = (a.db.grains.filter fun g => g.seq ∉ dead) ∧
      ∀ g ∈ a.db.grains, g.seq ∈ dead → g ∈ op.targets C a := by
  cases op with
  | forget hash =>
    obtain ⟨st, s₁, hget, h₁⟩ := bind_eq_ok.1 h
    rw [get_apply] at hget
    cases hget
    cases hrow : a.db.grainByHash hash with
    | none =>
      rw [hrow] at h₁
      cases h₁
    | some row =>
      rw [hrow] at h₁
      obtain ⟨⟨op, hlc⟩, s₂, hreserve, h₂⟩ := bind_eq_ok.1 h₁
      rw [reserveOp_apply] at hreserve
      cases hreserve
      obtain ⟨len, s₃, htxn, h₃⟩ := bind_eq_ok.1 h₂
      obtain ⟨t, ht, rfl⟩ := withTxn_ok htxn
      obtain ⟨-, rfl⟩ := Tables.forgetTxn_ok hrow ht
      have hgrains : b.db.grains = (a.db.deleteSeq row.seq).grains := by
        have hframe := (Tables.retireTip_frame (a.db.deleteSeq row.seq) row.key row.seq).grains
        cases len <;> cases h₃ <;> exact hframe
      refine ⟨[row.seq], ?_, fun g hg hseq => ?_⟩
      · rw [hgrains]
        simp [Tables.deleteSeq]
      · have hmem : row ∈ a.db.grains := List.mem_of_find?_eq_some hrow
        have hsame := hgood.rowsOk.eq_of_seq hg hmem (List.mem_singleton.1 hseq)
        rw [Op.targets, hrow, hsame]
        exact List.mem_singleton_self row
  | forgetSubject ns subject mentions =>
    obtain ⟨rep, h⟩ := quiet_ok h
    obtain ⟨u, s₁, hcheck, h₁⟩ := bind_eq_ok.1 h
    rcases checkSubjectSelector_apply (C := C) "forget_subject" subject mentions a with
      hok | ⟨e, herr⟩
    · rw [hok] at hcheck
      cases hcheck
      obtain ⟨st, s₂, hget, h₂⟩ := bind_eq_ok.1 h₁
      rw [get_apply] at hget
      cases hget
      cases hns : a.termLookup ns with
      | none =>
        rw [hns] at h₂
        cases h₂
        exact grains_untouched _ _
      | some nsId =>
        rw [hns] at h₂
        simp only [Op.targets, hns]
        exact eraseWhere_grains h₂
    · rw [herr] at hcheck
      cases hcheck
  | forgetOlderThan ns cutoff gt limit =>
    obtain ⟨rep, h⟩ := quiet_ok h
    unfold forgetOlderThanCapped at h
    split_ifs at h with hlimit
    · cases h
      exact grains_untouched _ _
    · cases ns with
      | none => exact eraseWhere_grains h
      | some n =>
        obtain ⟨st, s₁, hget, h₁⟩ := bind_eq_ok.1 h
        rw [get_apply] at hget
        cases hget
        cases hns : a.termLookup n with
        | none =>
          rw [hns] at h₁
          cases h₁
          exact grains_untouched _ _
        | some nsId =>
          rw [hns] at h₁
          simp only [Op.targets, hns]
          exact eraseWhere_grains h₁
  | add | addBatch | addIfNovel | supersede | mergeHeads | importBundle | deferTextIndex
  | rebuildTextIndex | setEmbedder | reopen => exact hop.elim

/-- **An erasing operation that failed** left the file as it was. -/
theorem Op.erases_error {op : Op G} (hop : op.Erases) {a b : DejaDB} {e : DejaDbError}
    (h : op.run C a = .error e b) : b.db = a.db := by
  cases op with
  | forget hash =>
    rcases bind_eq_error.1 h with h₁ | ⟨st, s₁, hget, h₁⟩
    · cases h₁
    · rw [get_apply] at hget
      cases hget
      cases hrow : a.db.grainByHash hash with
      | none =>
        rw [hrow] at h₁
        cases h₁
        rfl
      | some row =>
        rw [hrow] at h₁
        rcases bind_eq_error.1 h₁ with h₂ | ⟨⟨op, hlc⟩, s₂, hreserve, h₂⟩
        · rw [reserveOp_apply] at h₂
          cases h₂
        · rw [reserveOp_apply] at hreserve
          cases hreserve
          rcases bind_eq_error.1 h₂ with h₃ | ⟨len, s₃, -, h₃⟩
          · rw [withTxn_error h₃]
          · cases len <;> cases h₃
  | forgetSubject ns subject mentions =>
    rcases bind_eq_error.1 (quiet_error h) with h₁ | ⟨u, s₁, hcheck, h₁⟩
    · rcases checkSubjectSelector_apply (C := C) "forget_subject" subject mentions a with
        hok | ⟨e, herr⟩
      · rw [hok] at h₁
        cases h₁
      · rw [herr] at h₁
        cases h₁
        rfl
    · rcases checkSubjectSelector_apply (C := C) "forget_subject" subject mentions a with
        hok | ⟨e, herr⟩
      · rw [hok] at hcheck
        cases hcheck
        rcases bind_eq_error.1 h₁ with h₂ | ⟨st, s₂, hget, h₂⟩
        · cases h₂
        · rw [get_apply] at hget
          cases hget
          cases hns : a.termLookup ns with
          | none =>
            rw [hns] at h₂
            cases h₂
          | some nsId =>
            rw [hns] at h₂
            exact eraseWhere_error h₂
      · rw [herr] at hcheck
        cases hcheck
  | forgetOlderThan ns cutoff gt limit =>
    have h := quiet_error h
    unfold forgetOlderThanCapped at h
    split_ifs at h with hlimit
    · cases h
    · cases ns with
      | none => exact eraseWhere_error h
      | some n =>
        rcases bind_eq_error.1 h with h₁ | ⟨st, s₁, hget, h₁⟩
        · cases h₁
        · rw [get_apply] at hget
          cases hget
          cases hns : a.termLookup n with
          | none =>
            rw [hns] at h₁
            cases h₁
          | some nsId =>
            rw [hns] at h₁
            exact eraseWhere_error h₁
  | add | addBatch | addIfNovel | supersede | mergeHeads | importBundle | deferTextIndex
  | rebuildTextIndex | setEmbedder | reopen => exact hop.elim

/-! ## Operations that erase nothing -/

/-- The blobs of the stored grains. -/
def Tables.grainBlobs (t : Tables) : List Bytes := t.grains.map GrainRow.blob

/-- The events of additions, supersessions and opens. -/
def Event.Retains : Event → Prop
  | .insert _ | .supersede .. | .reopen _ | .undefer | .rebuildText => True
  | _ => False

theorem insertPrepped_blobs {preps : List GrainPrep} {t t' : Tables} {seq op hlc : ℤ}
    (h : t.insertPrepped preps seq op hlc = .ok t') : t.grainBlobs ⊆ t'.grainBlobs := by
  induction preps generalizing t seq op hlc with
  | nil =>
    cases h
    exact List.Subset.refl _
  | cons pr preps ih =>
    obtain ⟨t₁, hone, hrest⟩ := except_bind_ok h
    refine List.Subset.trans ?_ (ih hrest)
    rw [Tables.grainBlobs, Tables.grainBlobs, (Tables.insertPreppedOne_ok hone).1.grains,
      List.map_append]
    exact List.subset_append_left _ _

theorem flipped_blobs (t : Tables) (seq : ℤ) (old new : Hash) (now : ℤ) :
    (t.flipped seq old new now).grainBlobs = t.grainBlobs := by
  simp only [Tables.grainBlobs, Tables.flipped, Tables.clearCur, Tables.markSupersedes,
    Tables.markSuperseded, List.map_map]
  refine List.map_congr_left fun g _ => ?_
  simp only [Function.comp_apply]
  split_ifs <;> rfl

theorem Commit.retains_blobs {ev : Event} {a b : DejaDB} (h : Commit C ev a b)
    (hev : ev.Retains) : a.db.grainBlobs ⊆ b.db.grainBlobs := by
  cases h with
  | insert prepared txn => exact insertPrepped_blobs txn
  | @supersede _ old pr row t now _ _ _ view written prepared found txn =>
    obtain ⟨-, t₁, hins, rfl⟩ := Tables.supersedeTxn_ok found txn
    have hframe := (Tables.retireTip_frame (t₁.flipped row.seq old pr.hash now) row.key
      row.seq).grains
    have hnew := flipped_blobs t₁ row.seq old pr.hash now
    show a.db.grainBlobs ⊆
      ((t₁.flipped row.seq old pr.hash now).retireTip row.key row.seq).grains.map GrainRow.blob
    rw [hframe]
    show a.db.grainBlobs ⊆ (t₁.flipped row.seq old pr.hash now).grainBlobs
    rw [hnew, Tables.grainBlobs, Tables.grainBlobs, (Tables.insertPreppedOne_ok hins).1.grains,
      List.map_append]
    exact List.subset_append_left _ _
  | rebuildText on inline txn =>
    obtain ⟨grains, rows, c, hgrains, -, -, rfl, -, -⟩ := rebuildTextBody_ok txn
    show a.db.grainBlobs ⊆ grains.map GrainRow.blob
    rw [mapM_retext hgrains, List.map_map]
    exact List.Subset.refl _
  | reopen => exact List.Subset.refl _
  | undefer => exact List.Subset.refl _
  | merge | forget | erase | scrub | insertBlob | flip | log | defer | setEmbedder =>
    exact hev.elim

/-- The appending operations of a run. -/
def Op.Retains : Op G → Prop
  | .add _ | .supersede .. | .reopen .. => True
  | _ => False

theorem Op.retains_commits {op : Op G} (hop : op.Retains) {st : DejaDB} :
    op.Meets C (fun ev _ => ev.Retains) st := by
  intro x hx
  cases op with
  | add g =>
    simp only [Op.commits, addBatchCommits] at hx
    cases hprep : prepNovel C [] [g] st with
    | error e s => rw [hprep] at hx; cases hx
    | ok out s => rw [hprep] at hx; rw [List.mem_singleton.1 hx]; trivial
  | supersede old g =>
    simp only [Op.commits, supersedeCommits] at hx
    split_ifs at hx
    · cases hprep : prepGrain C { g with derivedFrom := some old.toHex } st with
      | error e s => rw [hprep] at hx; cases hx
      | ok pr s => rw [hprep] at hx; rw [List.mem_singleton.1 hx]; trivial
    · cases hx
  | reopen explicit clock =>
    simp only [Op.commits, reopenCommits, rebuildCommits] at hx
    rcases List.mem_cons.1 hx with rfl | hx
    · trivial
    · split_ifs at hx
      · simp only [List.mem_cons, List.not_mem_nil, or_false] at hx
        rcases hx with rfl | rfl <;> trivial
      · cases hx
      · cases hx
  | addBatch | addIfNovel | mergeHeads | forget | forgetSubject | forgetOlderThan | importBundle
  | deferTextIndex | rebuildTextIndex | setEmbedder => exact hop.elim

/-- **An appending operation keeps every blob**, whether it returned or failed. -/
theorem Op.retains_blobs {op : Op G} (hop : op.Retains) {st : DejaDB} (hgood : st.Good C) :
    st.db.grainBlobs ⊆ (st.step C op).db.grainBlobs := by
  have hmeets : op.Meets C (fun ev _ => ev.Retains) st := Op.retains_commits hop
  have hpath := Op.path hgood.toSound hmeets
  refine hpath.keeps (I := fun b => st.db.grainBlobs ⊆ b.db.grainBlobs) ?_ ?_
    (List.Subset.refl _)
  · intro a b hidle hI
    have hrows := congrArg Rows.grains hidle.rows
    have hblobs : b.db.grainBlobs = a.db.grainBlobs := congrArg (List.map GrainRow.blob) hrows
    rwa [hblobs]
  · intro ev a b hev hcommit hI
    exact List.Subset.trans hI (hcommit.retains_blobs hev)

/-- A store operation of a run. -/
def Op.Followed (op : Op G) : Prop := op.Erases ∨ op.Retains

theorem Op.targets_of_retains {op : Op G} (hop : op.Retains) (st : DejaDB) :
    op.targets C st = [] := by
  cases op with
  | add | supersede | reopen => rfl
  | addBatch | addIfNovel | mergeHeads | forget | forgetSubject | forgetOlderThan | importBundle
  | deferTextIndex | rebuildTextIndex | setEmbedder => exact hop.elim

/-- What is targeted is stored. -/
theorem Op.mem_of_mem_targets {op : Op G} {st : DejaDB} {g : GrainRow} (hg : g ∈ op.targets C st) :
    g ∈ st.db.grains := by
  have herased : ∀ {sel}, g ∈ st.erased C sel → g ∈ st.db.grains := by
    intro sel hg
    unfold DejaDB.erased at hg
    cases hsel : selectTargets C sel st with
    | error e s =>
      rw [hsel] at hg
      cases hg
    | ok out s =>
      rw [hsel] at hg
      have hdb : s.db = st.db := by rw [((leads_looks_selectTargets sel).of_ok hsel).rest]
      exact hdb ▸ List.mem_of_mem_filter hg
  cases op with
  | forget hash => exact List.mem_of_find?_eq_some (Option.mem_toList.1 hg)
  | forgetSubject ns subject mentions =>
    simp only [Op.targets] at hg
    cases hns : st.termLookup ns with
    | none =>
      rw [hns] at hg
      cases hg
    | some nsId =>
      rw [hns] at hg
      exact herased hg
  | forgetOlderThan ns cutoff gt limit =>
    simp only [Op.targets] at hg
    cases ns with
    | none => exact herased hg
    | some n =>
      simp only at hg
      cases hns : st.termLookup n with
      | none =>
        rw [hns] at hg
        cases hg
      | some nsId =>
        rw [hns] at hg
        exact herased hg
  | add | addBatch | addIfNovel | supersede | mergeHeads | importBundle | deferTextIndex
  | rebuildTextIndex | setEmbedder | reopen => cases hg

end Deja
