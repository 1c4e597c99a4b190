import Deja.Spec.Issued
import Deja.Spec.Rows

/-!
# Addresses and bytes

A grains row is filed under the address of its own blob: `Tables.Addressed`.  The
local write path computes the address from the bytes it stores.  An import takes
both from the record, so the property rests on the records: `Bound` says that a
record that stores a grain carries the address of its blob.

* `Commit.addressed` — a commit keeps it when its grains are bound.
* `import_addressed` — an import of bound records keeps it, however it ends.
* `insertBlob_addressed_iff` — one insert keeps it exactly when it is bound.
-/

namespace Deja

open Run

variable {G : Type} {C : Core G}

/-! ## The invariant -/

/-- Every grains row is filed under the address of its blob. -/
def Tables.Addressed (C : Core G) (t : Tables) : Prop :=
  ∀ g ∈ t.grains, g.hash = C.contentAddress g.blob

/-- A prepared grain whose address is that of its bytes. -/
def GrainPrep.Bound (C : Core G) (pr : GrainPrep) : Prop := pr.hash = C.contentAddress pr.blob

theorem Written.bound {g : Grain G} {pr : GrainPrep} (h : Written C g pr) : pr.Bound C :=
  Core.serializeGrain_hash h

/-- Moves of the rows keep what holds of addresses and bytes, if it holds of the
grains that come. -/
theorem RowPath.filed {P : GrainPrep → Prop} {Q : Hash → Bytes → Prop} {r r' : Rows}
    (h : RowPath P r r') (hPQ : ∀ pr, P pr → Q pr.hash pr.blob)
    (hr : ∀ g ∈ r.grains, Q g.hash g.blob) : ∀ g ∈ r'.grains, Q g.hash g.blob := by
  induction h with
  | refl => exact hr
  | tail _ hstep ih =>
    intro g hg
    cases hstep with
    | insert hP freshSeq freshHash =>
      rcases List.mem_append.1 hg with hg | hg
      · exact ih g hg
      · rw [List.mem_singleton.1 hg]
        exact hPQ _ hP
    | close seq by_ now =>
      obtain ⟨g₀, hg₀, rfl⟩ := List.mem_map.1 hg
      split_ifs <;> exact ih g₀ hg₀
    | point new old =>
      obtain ⟨g₀, hg₀, rfl⟩ := List.mem_map.1 hg
      split_ifs <;> exact ih g₀ hg₀
    | erase seqs => exact ih g (List.mem_of_mem_filter hg)
    | retext text =>
      obtain ⟨g₀, hg₀, rfl⟩ := List.mem_map.1 hg
      exact ih g₀ hg₀

/-- **A commit of bound grains keeps the addresses.** -/
theorem Commit.addressed {ev : Event} {a b : DejaDB} (h : Commit C ev a b)
    (hev : ∀ pr ∈ ev.preps, pr.Bound C) (ha : a.db.Addressed C) : b.db.Addressed C :=
  (h.rowPath hev).filed (Q := fun hash blob => hash = C.contentAddress blob) (fun _ hpr => hpr) ha

theorem Idle.addressed {a b : DejaDB} (h : Idle a b) (ha : a.db.Addressed C) :
    b.db.Addressed C := by
  have hgrains : b.db.grains = a.db.grains := by rw [h.file]
  unfold Tables.Addressed
  rw [hgrains]
  exact ha

/-! ## The records of a bundle -/

/-- A record replayed on `st` that stores its blob carries the address of it. -/
def BundleRecord.Bound (C : Core G) (st : DejaDB) (r : BundleRecord) : Prop :=
  (r.op = 1 ∨ r.op = 2) → st.has r.hash = false → r.blob ≠ [] →
    r.hash = C.contentAddress r.blob

/-- Every record that a replay reaches is bound when its turn comes. -/
def RecordsBound (C : Core G) (maxHlc : Option ℤ) : List BundleRecord → DejaDB → Prop
  | [], _ => True
  | r :: rs, st =>
    if maxHlc.any (· < r.hlc) then RecordsBound C maxHlc rs st
    else r.Bound C st ∧
      match importRecord C r st with
      | .ok _ st' => RecordsBound C maxHlc rs st'
      | .error _ _ => True

/-- Records with the addresses of their blobs are bound in every store. -/
theorem recordsBound_of_forall {maxHlc : Option ℤ} {rs : List BundleRecord} {st : DejaDB}
    (h : ∀ r ∈ rs, r.hash = C.contentAddress r.blob) : RecordsBound C maxHlc rs st := by
  induction rs generalizing st with
  | nil => trivial
  | cons r rs ih =>
    rw [List.forall_mem_cons] at h
    unfold RecordsBound
    split_ifs
    · exact ih h.2
    · refine ⟨fun _ _ _ => h.1, ?_⟩
      cases importRecord C r st with
      | ok applied st' => exact ih h.2
      | error e s => trivial

theorem blobCommits_bound {op : OpKind} {blob : Bytes} {hash : Hash} {st : DejaDB}
    (h : hash = C.contentAddress blob) :
    ∀ x ∈ blobCommits C op blob hash st, ∀ pr ∈ x.1.preps, pr.Bound C := by
  intro x hx
  unfold blobCommits at hx
  cases hprep : prepFromBlob C blob hash st with
  | error e s =>
    rw [hprep] at hx
    cases hx
  | ok pr s =>
    rw [hprep] at hx
    obtain ⟨hblob, hhash, -⟩ := prepFromBlob_bytes hprep
    rw [List.mem_singleton.1 hx]
    intro pr' hpr'
    rw [List.mem_singleton.1 hpr']
    show pr.hash = C.contentAddress pr.blob
    rw [hblob, hhash]
    exact h

theorem flipCommits_preps {hash : Hash} {olds : List Hash} {st : DejaDB} :
    ∀ x ∈ flipCommits hash olds st, x.1.preps = [] := by
  induction olds generalizing st with
  | nil => exact fun x hx => nomatch hx
  | cons old olds ih =>
    intro x hx
    rcases List.mem_cons.1 hx with rfl | hx
    · rfl
    · exact ih x hx

theorem supersededCommits_preps {blob : Bytes} {hash : Hash} {st : DejaDB} :
    ∀ x ∈ supersededCommits C blob hash st, x.1.preps = [] := by
  intro x hx
  unfold supersededCommits at hx
  cases hview : C.deserializeBlob blob with
  | error e =>
    rw [hview] at hx
    cases hx
  | ok view =>
    rw [hview] at hx
    exact flipCommits_preps x hx

/-- The grains a bound record brings are bound. -/
theorem recordCommits_bound {r : BundleRecord} {st : DejaDB} (h : r.Bound C st) :
    ∀ x ∈ recordCommits C r st, ∀ pr ∈ x.1.preps, pr.Bound C := by
  have hnone : ∀ {x : Attempt}, x.1.preps = [] → ∀ pr ∈ x.1.preps, pr.Bound C := by
    intro x hx pr hpr
    rw [hx] at hpr
    cases hpr
  intro x hx
  unfold recordCommits at hx
  split_ifs at hx with hop hop' hop''
  · unfold importAddCommits at hx
    split_ifs at hx with hskip
    · cases hx
    · rw [not_or] at hskip
      refine blobCommits_bound (h (.inl hop) (by simpa using hskip.1) fun hnil => ?_) x hx
      exact hskip.2 (by rw [hnil]; rfl)
  · unfold importSupersedeCommits at hx
    cases hg : st.db.grainByHash r.hash with
    | some g =>
      rw [hg] at hx
      rcases List.mem_append.1 hx with hx | hx
      · exact hnone (supersededCommits_preps x hx)
      · rw [List.mem_singleton.1 hx]
        exact fun pr hpr => nomatch hpr
    | none =>
      simp only [hg] at hx
      split_ifs at hx with hempty
      · cases hx
      · rcases List.mem_append.1 hx with hx | hx
        · have hnew : st.has r.hash = false := (Tables.hasGrain_eq_false_iff _).2 hg
          refine blobCommits_bound (h (.inr hop') hnew fun hnil => ?_) x hx
          exact hempty (by rw [hnil]; rfl)
        · exact hnone (supersededCommits_preps x hx)
  · rw [List.mem_singleton.1 hx]
    exact fun pr hpr => nomatch hpr
  · cases hx

theorem recordsCommits_bound {maxHlc : Option ℤ} {rs : List BundleRecord} {st : DejaDB}
    (h : RecordsBound C maxHlc rs st) :
    ∀ x ∈ recordsCommits C maxHlc rs st, ∀ pr ∈ x.1.preps, pr.Bound C := by
  induction rs generalizing st with
  | nil => exact fun x hx => nomatch hx
  | cons r rs ih =>
    intro x hx
    unfold recordsCommits at hx
    unfold RecordsBound at h
    split_ifs at hx h with hlate
    · exact ih h x hx
    · rcases List.mem_append.1 hx with hx | hx
      · exact recordCommits_bound h.1 x hx
      · cases hrec : importRecord C r st with
        | error e s =>
          rw [hrec] at hx
          cases hx
        | ok applied s =>
          rw [hrec] at hx
          have hrest := h.2
          rw [hrec] at hrest
          exact ih hrest x hx

/-! ## Importing -/

/-- Every record of a bundle that a replay reaches is bound. -/
def ImportBound (C : Core G) (data : Bytes) (maxHlc : Option ℤ) (st : DejaDB) : Prop :=
  ∀ records err, parseBundle data = .ok (records, err) → RecordsBound C maxHlc records st

/-- **An import of bound records keeps the addresses**, whether it returns or
fails on the way. -/
theorem import_addressed {st : DejaDB} (hok : VocabOk st) (hst : st.db.Addressed C)
    {data : Bytes} {maxHlc : Option ℤ} (hbound : ImportBound C data maxHlc st) :
    (st.after (importBundleUntil C data maxHlc)).db.Addressed C := by
  have hcommits : ∀ x ∈ (Op.importBundle data maxHlc : Op G).commits C st,
      ∀ pr ∈ x.1.preps, pr.Bound C := by
    intro x hx
    simp only [Op.commits] at hx
    cases hparse : parseBundle data with
    | error e =>
      rw [hparse] at hx
      cases hx
    | ok out =>
      rw [hparse] at hx
      exact recordsCommits_bound (hbound out.1 out.2 hparse) x hx
  exact (importBundleUntil_path (Γ := fun ev _ => ∀ pr ∈ ev.preps, pr.Bound C) hok hcommits).keeps
    (I := fun st => st.db.Addressed C) (fun _ _ hidle h => hidle.addressed h)
    (fun _ _ _ hev hcommit h => hcommit.addressed hev h) hst

/-- **One insert keeps the addresses exactly when it is bound.** -/
theorem insertBlob_addressed_iff {st st' : DejaDB} {blob : Bytes} {hash : Hash} {op : OpKind}
    {hlc : ℤ} (hst : st.db.Addressed C) (h : insertBlob C blob hash op hlc st = .ok () st') :
    st'.db.Addressed C ↔ hash = C.contentAddress blob := by
  obtain ⟨pr, s, hprep, h₁⟩ := bind_eq_ok.1 h
  obtain ⟨hblob, hhash, -⟩ := prepFromBlob_bytes hprep
  have hgrains : s.db.grains = st.db.grains := by
    rw [((leads_prepFromBlob blob hash).of_ok hprep).file]
  simp only [bind_apply, get_apply, set_apply, withTxn] at h₁
  cases htxn : s.db.insertBlobTxn pr s.nextSeq s.nextOp hlc op with
  | error e =>
    rw [htxn] at h₁
    cases h₁
  | ok t =>
    rw [htxn] at h₁
    cases h₁
    have hins := (Tables.insertBlobTxn_ok htxn).1.grains
    unfold Tables.Addressed
    show (∀ g ∈ t.grains, g.hash = C.contentAddress g.blob) ↔ _
    rw [hins, hgrains, List.forall_mem_append, List.forall_mem_singleton,
      and_iff_right (show ∀ g ∈ st.db.grains, g.hash = C.contentAddress g.blob from hst)]
    show pr.hash = C.contentAddress pr.blob ↔ _
    rw [hblob, hhash]

namespace DejaDB

theorem verify_of_addressed {st : DejaDB} (h : st.db.Addressed C) :
    (st.verify C).hashMismatches = 0 := by
  refine List.countP_eq_zero.2 fun g hg => ?_
  cases hview : C.deserializeBlob g.blob with
  | error e => simp
  | ok view =>
    have hhash := Core.deserializeBlob_hash hview
    simp [hhash, h g hg]

theorem get_of_addressed {st : DejaDB} (h : st.db.Addressed C) {hash : Hash}
    {view : DeserializedGrain} (hget : st.get C hash = .ok view) : view.hash = hash := by
  unfold get at hget
  cases hg : st.db.grainByHash hash with
  | none =>
    rw [hg] at hget
    cases hget
  | some g =>
    rw [hg] at hget
    have hfound : g.hash = hash := by simpa using List.find?_some hg
    rw [Core.deserializeBlob_hash hget, ← h g (List.mem_of_find?_eq_some hg), hfound]

end DejaDB

/-- **When addresses survive a bundle.**  In every import whose records carry the
address of the blob they store, each at its turn, the rows of the resulting
store are filed under the address of their bytes, `verify` counts no mismatch
and `get` answers a grain under its own hash; and a record that stores a blob
keeps the rows so only if it carries its address. -/
theorem addresses_survive_iff {st : DejaDB} (hok : VocabOk st) (hst : st.db.Addressed C) :
    (∀ data maxHlc, ImportBound C data maxHlc st →
      (st.after (importBundleUntil C data maxHlc)).db.Addressed C ∧
      ((st.after (importBundleUntil C data maxHlc)).verify C).hashMismatches = 0 ∧
      ∀ hash view, (st.after (importBundleUntil C data maxHlc)).get C hash = .ok view →
        view.hash = hash) ∧
    ∀ blob hash op hlc st', insertBlob C blob hash op hlc st = .ok () st' →
      (st'.db.Addressed C ↔ hash = C.contentAddress blob) := by
  refine ⟨fun data maxHlc hbound => ?_, fun blob hash op hlc st' h =>
    insertBlob_addressed_iff hst h⟩
  have h := import_addressed hok hst hbound
  exact ⟨h, DejaDB.verify_of_addressed h, fun hash view hget => DejaDB.get_of_addressed h hget⟩

/-- A bundle with one fact under the given address. -/
def oneFact (hash : Hash) : Bytes := bundleMagic ++ encodeRecord
  ⟨1, 5, hash, (sampleCore.encodeGrain (sampleFact 1 5 1 2 3)).toOption.getD []⟩

instance Tables.decidableAddressed (t : Tables) : Decidable (t.Addressed C) :=
  inferInstanceAs (Decidable (∀ g ∈ t.grains, g.hash = C.contentAddress g.blob))

/-- A fact under its own address. -/
theorem addresses_survive_bound :
    (sampleStore.after (importBundleUntil sampleCore (oneFact (Hash.ofByte 1)) none)).db.Addressed
      sampleCore := by
  have hempty : sampleStore.db.Addressed sampleCore := by decide +kernel
  refine ((addresses_survive_iff sampleStore_reachable.good.vocabOk hempty).1 _ none ?_).1
  intro records err hparse
  have hall : (parseBundle (oneFact (Hash.ofByte 1))).toOption.all (fun out =>
      ∀ r ∈ out.1, r.hash = sampleCore.contentAddress r.blob) = true := by
    decide +kernel
  rw [hparse] at hall
  exact recordsBound_of_forall (of_decide_eq_true hall)

/-- A fact under another address is stored as it comes. -/
theorem foreign_address_stored :
    ¬ ∀ (st : DejaDB) (data : Bytes) (maxHlc : Option ℤ), Reachable sampleCore st →
      st.db.Addressed sampleCore →
        (st.after (importBundleUntil sampleCore data maxHlc)).db.Addressed sampleCore := by
  intro h
  have hempty : sampleStore.db.Addressed sampleCore := by decide +kernel
  have hbad := h sampleStore (oneFact (Hash.ofByte 9)) none sampleStore_reachable hempty
  revert hbad
  decide +kernel

end Deja
