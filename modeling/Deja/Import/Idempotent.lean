import Deja.Spec.Rows

/-!
# Importing a bundle again

When the second import of a bundle is a no-op.  A record is **settled** in a
store when replaying it there changes nothing: an `ADD` whose grain is here or
whose bytes were pruned, a `SUPERSEDE` every parent of which is superseded by
this very grain, a `FORGET` of a grain that is not here.

* `importRecord_false_iff` — a record is skipped exactly when it is settled, and
  a skipped record leaves the file as it is.
* `importRecords_applied_iff` — the run lemma: a replay applies nothing exactly
  when every record is settled in the store it starts from.
-/

namespace Deja

variable {G : Type} (C : Core G)

/-! ## Settled records -/

/-- Every stored parent of a superseding grain is superseded by that grain. -/
def Tables.ParentsClosed (t : Tables) (hash : Hash) (parents : List Hash) : Prop :=
  ∀ old ∈ parents, ∀ row, t.grainByHash old = some row →
    row.svt.isSome ∧ row.supersededBy = some hash

/-- The bytes a superseding record is replayed from: its own, else the stored
ones. -/
def BundleRecord.bytes (r : BundleRecord) (g : GrainRow) : Bytes :=
  if r.blob.isEmpty then g.blob else r.blob

/-- A record that changes nothing when it is replayed on `t`. -/
inductive Settled (t : Tables) (r : BundleRecord) : Prop where
  | add (hop : r.op = 1) (h : t.hasGrain r.hash ∨ r.blob = [])
  | pruned (hop : r.op = 2) (hnone : t.grainByHash r.hash = none) (hblob : r.blob = [])
  | closed (hop : r.op = 2) (g : GrainRow) (hg : t.grainByHash r.hash = some g)
      (h : ∀ view, C.deserializeBlob (r.bytes g) = .ok view →
        t.ParentsClosed r.hash (supersededParents view))
  | forget (hop : r.op = 3) (hnone : t.grainByHash r.hash = none)

/-! ## The flip -/

theorem Tables.flipTxn_false {t : Tables} {old new : Hash} {now : ℤ}
    (h : (t.flipTxn old new now).1 = false) : (t.flipTxn old new now).2 = t := by
  unfold flipTxn at h ⊢
  cases hold : t.grainByHash old with
  | none => rfl
  | some row =>
    rw [hold] at h
    simp only at h ⊢
    split_ifs at h ⊢
    · rfl
    · unfold registerFork at h ⊢
      cases hnew : t.grainByHash new with
      | none => rfl
      | some g =>
        rw [hnew] at h
        cases h

/-- A flip towards a stored grain changes nothing exactly when the old grain is
not here or is superseded by that very grain. -/
theorem Tables.flipTxn_fst_false_iff {t : Tables} {old new : Hash} (now : ℤ)
    (hnew : (t.grainByHash new).isSome) :
    (t.flipTxn old new now).1 = false ↔
      ∀ row, t.grainByHash old = some row → row.svt.isSome ∧ row.supersededBy = some new := by
  unfold flipTxn
  cases hold : t.grainByHash old with
  | none => simp
  | some row =>
    obtain ⟨g, hg⟩ := Option.isSome_iff_exists.1 hnew
    by_cases hsvt : row.svt.isSome
    · by_cases hby : row.supersededBy = some new
      · simp [hsvt, hby]
      · simp [hsvt, hby, registerFork, hg]
    · simp [hsvt]

theorem flipParents_false {hash : Hash} {olds : List Hash} {st st' : DejaDB}
    (h : flipParents hash olds st = .ok false st') : st'.db = st.db := by
  induction olds generalizing st with
  | nil =>
    obtain ⟨-, rfl⟩ := Run.pure_eq_ok.1 h
    rfl
  | cons old olds ih =>
    obtain ⟨changed, st₁, hflip, h⟩ := Run.bind_eq_ok.1 h
    obtain ⟨rest, st₂, hrest, h⟩ := Run.bind_eq_ok.1 h
    obtain ⟨hor, rfl⟩ := Run.pure_eq_ok.1 h
    obtain ⟨rfl, rfl⟩ := Bool.or_eq_false_iff.1 hor
    obtain ⟨now, tick, hflip'⟩ := applySupersedeFlip_apply old hash st
    rw [hflip] at hflip'
    injection hflip' with hchanged hst
    subst hst
    rw [ih hrest]
    exact Tables.flipTxn_false hchanged.symm

theorem flipParents_false_iff {hash : Hash} {olds : List Hash} (st : DejaDB)
    (hnew : (st.db.grainByHash hash).isSome) :
    (∃ st', flipParents hash olds st = .ok false st') ↔ st.db.ParentsClosed hash olds := by
  induction olds generalizing st with
  | nil => exact ⟨fun _ old hold => absurd hold (by simp), fun _ => ⟨st, rfl⟩⟩
  | cons old olds ih =>
    obtain ⟨now, tick, hflip⟩ := applySupersedeFlip_apply old hash st
    rw [Tables.ParentsClosed, List.forall_mem_cons, ← Tables.flipTxn_fst_false_iff now hnew]
    constructor
    · rintro ⟨st', h⟩
      obtain ⟨changed, st₁', hflip', h⟩ := Run.bind_eq_ok.1 h
      obtain ⟨rest, st₂, hrest, h⟩ := Run.bind_eq_ok.1 h
      obtain ⟨hor, rfl⟩ := Run.pure_eq_ok.1 h
      obtain ⟨rfl, rfl⟩ := Bool.or_eq_false_iff.1 hor
      rw [hflip] at hflip'
      injection hflip' with hchanged hst
      subst hst
      have hsame := Tables.flipTxn_false hchanged
      refine ⟨hchanged, ?_⟩
      have := (ih _ (by rwa [hsame])).1 ⟨_, hrest⟩
      rwa [hsame] at this
    · rintro ⟨hfirst, hrest⟩
      have hsame := Tables.flipTxn_false hfirst
      obtain ⟨st', h⟩ := (ih { st with db := (st.db.flipTxn old hash now).2, tick := tick }
        (by rwa [hsame])).2 (by rwa [hsame])
      refine ⟨st', ?_⟩
      rw [flipParents, Run.bind_apply, hflip, hfirst]
      simp only [Run.bind_apply, h, Bool.or_false, Run.pure_apply]

theorem flipSuperseded_false {blob : Bytes} {hash : Hash} {st st' : DejaDB}
    (h : flipSuperseded C blob hash st = .ok false st') : st'.db = st.db := by
  unfold flipSuperseded at h
  cases hview : C.deserializeBlob blob with
  | ok view =>
    rw [hview] at h
    exact flipParents_false h
  | error e =>
    rw [hview] at h
    obtain ⟨-, rfl⟩ := Run.pure_eq_ok.1 h
    rfl

theorem flipSuperseded_false_iff (blob : Bytes) {hash : Hash} {st : DejaDB}
    (hnew : (st.db.grainByHash hash).isSome) :
    (∃ st', flipSuperseded C blob hash st = .ok false st') ↔
      ∀ view, C.deserializeBlob blob = .ok view →
        st.db.ParentsClosed hash (supersededParents view) := by
  unfold flipSuperseded
  cases C.deserializeBlob blob with
  | error e => exact ⟨(fun _ view h => nomatch h), fun _ => ⟨st, rfl⟩⟩
  | ok view => simpa using flipParents_false_iff st hnew

/-! ## One record -/

theorem importAdd_false_iff {r : BundleRecord} {st : DejaDB} :
    (∃ st', importAdd C r st = .ok false st') ↔ st.has r.hash ∨ r.blob.isEmpty := by
  unfold importAdd
  rw [Run.bind_apply, Run.get_apply]
  by_cases h : st.has r.hash ∨ r.blob.isEmpty
  · simp only [h, if_true, iff_true]
    exact ⟨st, rfl⟩
  · simp only [h, if_false, iff_false]
    rintro ⟨st', hok⟩
    obtain ⟨u, s, -, hpure⟩ := Run.bind_eq_ok.1 hok
    cases hpure

theorem importAdd_false {r : BundleRecord} {st st' : DejaDB}
    (h : importAdd C r st = .ok false st') : st' = st := by
  unfold importAdd at h
  rw [Run.bind_apply, Run.get_apply] at h
  simp only at h
  split_ifs at h
  · cases h
    rfl
  · obtain ⟨u, s, -, hpure⟩ := Run.bind_eq_ok.1 h
    cases hpure

/-- Forgetting a stored grain returns or fails on its tombstone. -/
theorem forget_stored {hash : Hash} {row : GrainRow} {st : DejaDB}
    (hrow : st.db.grainByHash hash = some row) :
    (∃ st', forget hash st = .ok ⟨⟩ st') ∨ ∃ m st', forget hash st = .error (.storage m) st' := by
  unfold forget
  rw [Run.bind_apply, Run.get_apply]
  simp only [hrow]
  rw [Run.bind_apply, reserveOp_apply]
  simp only [Run.bind_apply, withTxn]
  cases htxn : st.db.forgetTxn hash row.key st.nextOp st.nextHlcValue with
  | ok out =>
    obtain ⟨len, t⟩ := out
    cases len <;> exact .inl ⟨_, rfl⟩
  | error e =>
    rw [Tables.forgetTxn_error hrow htxn]
    exact .inr ⟨_, _, rfl⟩

theorem forget_missing {hash : Hash} {st : DejaDB} (hrow : st.db.grainByHash hash = none) :
    forget hash st = .error (.notFound hash) st := by
  unfold forget
  rw [Run.bind_apply, Run.get_apply]
  simp only [hrow]
  rfl

theorem importForget_false_iff {r : BundleRecord} {st : DejaDB} :
    (∃ st', importForget r st = .ok false st') ↔ st.db.grainByHash r.hash = none := by
  unfold importForget
  cases hrow : st.db.grainByHash r.hash with
  | none => exact ⟨fun _ => rfl, fun _ => ⟨st, by rw [forget_missing hrow]⟩⟩
  | some row =>
    refine ⟨?_, fun h => nomatch h⟩
    rintro ⟨st', h⟩
    rcases forget_stored hrow with ⟨s, hf⟩ | ⟨m, s, hf⟩
    · rw [hf] at h
      cases h
    · rw [hf] at h
      cases h

theorem importForget_false {r : BundleRecord} {st st' : DejaDB}
    (h : importForget r st = .ok false st') : st' = st := by
  have hrow := importForget_false_iff.1 ⟨st', h⟩
  unfold importForget at h
  rw [forget_missing hrow] at h
  cases h
  rfl

theorem importSupersede_stored {r : BundleRecord} {st : DejaDB} {g : GrainRow}
    (hg : st.db.grainByHash r.hash = some g) :
    importSupersede C r st = (do
      let changed ← flipSuperseded C (r.bytes g) r.hash
      if changed then logOp .supersede r.hash r.hlc
      pure changed : StoreM Bool) st := by
  unfold importSupersede
  rw [Run.bind_apply, Run.get_apply]
  simp only [hg]
  have hbytes : (if r.blob.isEmpty then (some g).map GrainRow.blob else some r.blob) =
      some (r.bytes g) := by
    unfold BundleRecord.bytes
    split_ifs <;> rfl
  rw [hbytes]
  rfl

theorem importSupersede_missing {r : BundleRecord} {st : DejaDB}
    (hg : st.db.grainByHash r.hash = none) :
    importSupersede C r st = (if r.blob.isEmpty then pure false
      else do
        insertBlob C r.blob r.hash .supersede r.hlc
        let _ ← flipSuperseded C r.blob r.hash
        pure true : StoreM Bool) st := by
  unfold importSupersede
  rw [Run.bind_apply, Run.get_apply]
  simp only [hg, Option.map_none, Option.isSome_none, Bool.false_eq_true, if_false]
  by_cases hemp : r.blob.isEmpty
  · simp only [hemp, if_true]
  · simp only [hemp, Bool.false_eq_true, if_false]

/-- A skipped record leaves the file as it is. -/
theorem importRecord_false {r : BundleRecord} {st st' : DejaDB}
    (h : importRecord C r st = .ok false st') : st'.db = st.db := by
  unfold importRecord at h
  split_ifs at h
  · rw [importAdd_false C h]
  · cases hg : st.db.grainByHash r.hash with
    | some g =>
      rw [importSupersede_stored C hg] at h
      obtain ⟨changed, s, hflip, h₁⟩ := Run.bind_eq_ok.1 h
      cases changed
      · obtain ⟨-, rfl⟩ := Run.pure_eq_ok.1 h₁
        exact flipSuperseded_false C hflip
      · obtain ⟨u, s₁, -, h₂⟩ := Run.bind_eq_ok.1 h₁
        cases h₂
    | none =>
      rw [importSupersede_missing C hg] at h
      split_ifs at h
      · obtain ⟨-, rfl⟩ := Run.pure_eq_ok.1 h
        rfl
      · obtain ⟨u, s₁, -, h₁⟩ := Run.bind_eq_ok.1 h
        obtain ⟨c, s₂, -, h₂⟩ := Run.bind_eq_ok.1 h₁
        cases h₂
  · rw [importForget_false h]
  · cases h

/-- **One record.**  A record is skipped exactly when it is settled. -/
theorem importRecord_false_iff {r : BundleRecord} {st : DejaDB} :
    (∃ st', importRecord C r st = .ok false st') ↔ Settled C st.db r := by
  unfold importRecord
  by_cases h1 : r.op = 1
  · rw [if_pos h1, importAdd_false_iff, List.isEmpty_iff]
    refine ⟨.add h1, fun h => ?_⟩
    cases h with
    | add _ h => exact h
    | pruned h2 | closed h2 | forget h2 => simp [h1] at h2
  rw [if_neg h1]
  by_cases h2 : r.op = 2
  · rw [if_pos h2]
    cases hg : st.db.grainByHash r.hash with
    | some g =>
      rw [importSupersede_stored C hg]
      have hstored : (st.db.grainByHash r.hash).isSome := by
        rw [hg]
        rfl
      have hflips := flipSuperseded_false_iff C (r.bytes g) hstored
      constructor
      · rintro ⟨st', h⟩
        obtain ⟨changed, s, hflip, h₁⟩ := Run.bind_eq_ok.1 h
        cases changed
        · exact .closed h2 g hg (hflips.1 ⟨s, hflip⟩)
        · obtain ⟨u, s₁, -, h₃⟩ := Run.bind_eq_ok.1 h₁
          cases h₃
      · intro h
        cases h with
        | add h' | forget h' => simp [h2] at h'
        | pruned _ hnone => rw [hg] at hnone; cases hnone
        | closed _ g' hg' h =>
          rw [hg] at hg'
          cases hg'
          obtain ⟨s, hflip⟩ := hflips.2 h
          exact ⟨s, by rw [Run.bind_apply, hflip]; rfl⟩
    | none =>
      rw [importSupersede_missing C hg]
      by_cases hemp : r.blob.isEmpty
      · rw [if_pos hemp]
        exact ⟨fun _ => .pruned h2 hg (List.isEmpty_iff.1 hemp), fun _ => ⟨st, rfl⟩⟩
      · rw [if_neg hemp]
        constructor
        · rintro ⟨st', h⟩
          obtain ⟨u, s₁, -, h₁⟩ := Run.bind_eq_ok.1 h
          obtain ⟨c, s₂, -, h₂⟩ := Run.bind_eq_ok.1 h₁
          cases h₂
        · intro h
          cases h with
          | add h' | forget h' => simp [h2] at h'
          | pruned _ _ hblob => exact absurd (List.isEmpty_iff.2 hblob) hemp
          | closed _ g hg' => rw [hg] at hg'; cases hg'
  rw [if_neg h2]
  by_cases h3 : r.op = 3
  · rw [if_pos h3, importForget_false_iff]
    refine ⟨.forget h3, fun h => ?_⟩
    cases h with
    | add h' | pruned h' | closed h' => simp [h3] at h'
    | forget _ h => exact h
  · rw [if_neg h3]
    refine ⟨(fun ⟨st', h⟩ => nomatch h), fun h => ?_⟩
    cases h with
    | add h' => exact absurd h' h1
    | pruned h' | closed h' => exact absurd h' h2
    | forget h' => exact absurd h' h3

/-! ## A whole bundle -/

theorem importRecords_applied_le {maxHlc : Option ℤ} {stats stats' : ImportStats}
    {rs : List BundleRecord} {st st' : DejaDB}
    (h : importRecords C maxHlc stats rs st = .ok stats' st') : stats.applied ≤ stats'.applied := by
  induction rs generalizing stats st with
  | nil =>
    obtain ⟨rfl, -⟩ := Run.pure_eq_ok.1 h
    exact le_refl _
  | cons r rs ih =>
    unfold importRecords at h
    split_ifs at h
    · have := ih h
      exact this
    · obtain ⟨applied, s, -, h₁⟩ := Run.bind_eq_ok.1 h
      have := ih h₁
      cases applied
      · exact this
      · exact Nat.le_of_succ_le this

/-- **A whole replay.**  It applies nothing and leaves the file as it is exactly
when every record is settled in the store it starts from. -/
theorem importRecords_applied_iff (stats : ImportStats) {rs : List BundleRecord} {st : DejaDB} :
    (∃ stats' st', importRecords C none stats rs st = .ok stats' st' ∧
      stats'.applied = stats.applied ∧ st'.db = st.db) ↔ ∀ r ∈ rs, Settled C st.db r := by
  induction rs generalizing stats st with
  | nil => exact ⟨(fun _ r hr => nomatch hr), fun _ => ⟨stats, st, rfl, rfl, rfl⟩⟩
  | cons r rs ih =>
    rw [List.forall_mem_cons, ← importRecord_false_iff]
    have hcons : importRecords C none stats (r :: rs) st = (do
        let applied ← importRecord C r
        importRecords C none (stats.count applied) rs : StoreM ImportStats) st := by
      rw [importRecords]
      simp
    rw [hcons]
    constructor
    · rintro ⟨stats', st', h, happlied, hdb⟩
      obtain ⟨applied, s, hone, hrest⟩ := Run.bind_eq_ok.1 h
      cases applied
      · have hsame := importRecord_false C hone
        refine ⟨⟨s, hone⟩, ?_⟩
        rw [← hsame]
        exact (ih (stats.count false)).1 ⟨stats', st', hrest, happlied, hdb.trans hsame.symm⟩
      · have := importRecords_applied_le C hrest
        simp only [ImportStats.count, if_true] at this
        omega
    · rintro ⟨⟨s, hone⟩, hrest⟩
      have hsame := importRecord_false C hone
      rw [← hsame] at hrest
      obtain ⟨stats', st', h, happlied, hdb⟩ := (ih (stats.count false)).2 hrest
      exact ⟨stats', st', by rw [Run.bind_apply, hone]; exact h, happlied, hdb.trans hsame⟩

/-! ## Which grains a replay leaves -/

/-- The addresses stored in a file. -/
def Tables.addresses (t : Tables) : List Hash := t.grains.map GrainRow.hash

theorem Tables.grainByHash_eq_none_iff {t : Tables} {h : Hash} :
    t.grainByHash h = none ↔ h ∉ t.addresses := by
  simp [grainByHash, addresses]

theorem Tables.hasGrain_iff {t : Tables} {h : Hash} : t.hasGrain h = true ↔ h ∈ t.addresses := by
  simp [hasGrain, addresses]

/-- `b` stores the same addresses as `a`. -/
def SameAddresses (a b : DejaDB) : Prop := b.db.addresses = a.db.addresses

instance : Std.Refl SameAddresses := ⟨fun _ => rfl⟩

instance : IsTrans DejaDB SameAddresses := ⟨fun _ _ _ hab hbc => hbc.trans hab⟩

theorem Tables.flipped_addresses (t : Tables) (seq : ℤ) (old new : Hash) (now : ℤ) :
    (t.flipped seq old new now).addresses = t.addresses := by
  simp only [addresses, flipped, clearCur, markSupersedes, markSuperseded, List.map_map]
  refine List.map_congr_left fun g _ => ?_
  simp only [Function.comp_apply]
  split_ifs <;> rfl

theorem Tables.flipTxn_addresses (t : Tables) (old new : Hash) (now : ℤ) :
    (t.flipTxn old new now).2.addresses = t.addresses := by
  unfold flipTxn
  cases t.grainByHash old with
  | none => rfl
  | some row =>
    simp only
    split_ifs
    · rfl
    · exact congrArg (List.map GrainRow.hash) (registerFork_frame t new).grains
    · have hgrains : (t.flipLinear row old new now).addresses =
          (t.flipped row.seq old new now).addresses := by
        unfold flipLinear
        cases row.key <;> rfl
      exact hgrains.trans (t.flipped_addresses row.seq old new now)

theorem leads_flipParents (hash : Hash) (olds : List Hash) :
    Run.Leads SameAddresses (flipParents hash olds) := by
  induction olds with
  | nil => exact Run.leads_pure _
  | cons old olds ih =>
    refine Run.leads_bind (fun st => ?_) fun _ => Run.leads_bind ih fun _ => Run.leads_pure _
    obtain ⟨now, tick, h⟩ := applySupersedeFlip_apply old hash st
    rw [Run.after_of_ok h]
    exact Tables.flipTxn_addresses _ _ _ _

theorem leads_flipSuperseded (blob : Bytes) (hash : Hash) :
    Run.Leads SameAddresses (flipSuperseded C blob hash) := by
  unfold flipSuperseded
  cases C.deserializeBlob blob with
  | ok view => exact leads_flipParents hash _
  | error e => exact Run.leads_pure _

theorem leads_logOp (op : OpKind) (hash : Hash) (hlc : ℤ) :
    Run.Leads SameAddresses (logOp op hash hlc) := by
  intro st
  unfold Run.after logOp
  simp only [Run.bind_apply, Run.get_apply, Run.set_apply, withTxn]
  cases htxn : st.db.insertOp ⟨st.nextOp, hlc, op, hash⟩ with
  | error e => rfl
  | ok t =>
    obtain ⟨rfl, -⟩ := Tables.insertOp_ok htxn
    rfl

theorem insertBlob_ok {blob : Bytes} {hash : Hash} {op : OpKind} {hlc : ℤ} {st st' : DejaDB}
    (h : insertBlob C blob hash op hlc st = .ok ⟨⟩ st') :
    st'.db.addresses = st.db.addresses ++ [hash] := by
  obtain ⟨pr, s, hprep, h₁⟩ := Run.bind_eq_ok.1 h
  obtain ⟨-, hhash, -⟩ := prepFromBlob_bytes hprep
  have hfile := ((leads_prepFromBlob _ _).of_ok hprep).file
  simp only [Run.bind_apply, Run.get_apply, Run.set_apply] at h₁
  obtain ⟨t, htxn, rfl⟩ := withTxn_ok h₁
  cases hins : s.db.insertBlobTxn pr s.nextSeq s.nextOp hlc op with
  | error e =>
    simp only [hins] at htxn
    cases htxn
  | ok t' =>
    simp only [hins] at htxn
    cases htxn
    have hgrains := (Tables.insertBlobTxn_ok hins).1.grains
    rw [Tables.addresses, hgrains, List.map_append, hfile, List.map_singleton]
    simp only [GrainPrep.grainRow, hhash]
    rfl

/-- A forget that returned removed its address and no other. -/
theorem forget_ok {hash : Hash} {st st' : DejaDB} (hgood : st.Good C)
    (h : forget hash st = .ok ⟨⟩ st') :
    st'.db.addresses = st.db.addresses.filter fun x => x ≠ hash := by
  unfold forget at h
  rw [Run.bind_apply, Run.get_apply] at h
  simp only at h
  cases hrow : st.db.grainByHash hash with
  | none =>
    rw [hrow] at h
    cases h
  | some row =>
    simp only [hrow] at h
    rw [Run.bind_apply, reserveOp_apply] at h
    obtain ⟨len, s, htxn, h₁⟩ := Run.bind_eq_ok.1 h
    obtain ⟨t, ht, rfl⟩ := withTxn_ok htxn
    obtain ⟨-, rfl⟩ := Tables.forgetTxn_ok hrow ht
    obtain ⟨hmem, hhash⟩ := Tables.grainByHash_some hrow
    have hgrains := (Tables.retireTip_frame (st.db.deleteSeq row.seq) row.key row.seq).grains
    have hsame : ∀ g ∈ st.db.grains, (g.seq ≠ row.seq ↔ g.hash ≠ hash) := fun g hg =>
      not_congr ⟨fun hs => by rw [hgood.rowsOk.eq_of_seq hg hmem hs, hhash],
        fun hs => by rw [hgood.rowsOk.eq_of_hash hg hmem (hs.trans hhash.symm)]⟩
    have hdb : st'.db.addresses =
        ((st.db.deleteSeq row.seq).retireTip row.key row.seq).addresses := by
      cases len <;> cases h₁ <;> rfl
    rw [hdb, Tables.addresses, hgrains, Tables.addresses, List.filter_map]
    simp only [Tables.deleteSeq]
    congr 1
    exact List.filter_congr fun g hg => decide_eq_decide.2 (hsame g hg)

/-- **The addresses after one record.** -/
theorem importRecord_addresses {r : BundleRecord} {applied : Bool} {st st' : DejaDB}
    (hgood : st.Good C) (h : importRecord C r st = .ok applied st') (x : Hash) :
    x ∈ st'.db.addresses ↔
      if x = r.hash ∧ r.op = 3 then False
      else if x = r.hash ∧ r.blob ≠ [] then True
      else x ∈ st.db.addresses := by
  unfold importRecord at h
  split_ifs at h with h1 h2 h3
  · have h3 : ¬(x = r.hash ∧ r.op = 3) := by simp [h1]
    rw [if_neg h3]
    unfold importAdd at h
    rw [Run.bind_apply, Run.get_apply] at h
    simp only at h
    split_ifs at h with hhas
    · obtain ⟨-, rfl⟩ := Run.pure_eq_ok.1 h
      split_ifs with hx
      · refine iff_true_intro ?_
        rw [hx.1]
        exact Tables.hasGrain_iff.1 (hhas.resolve_right fun he => hx.2 (List.isEmpty_iff.1 he))
      · rfl
    · obtain ⟨u, s, hins, h₁⟩ := Run.bind_eq_ok.1 h
      obtain ⟨-, rfl⟩ := Run.pure_eq_ok.1 h₁
      rw [insertBlob_ok C hins, List.mem_append, List.mem_singleton]
      have hblob : r.blob ≠ [] := fun he => hhas (.inr (List.isEmpty_iff.2 he))
      by_cases hx : x = r.hash <;> simp [hx, hblob]
  · have h3 : ¬(x = r.hash ∧ r.op = 3) := by simp [h2]
    rw [if_neg h3]
    cases hg : st.db.grainByHash r.hash with
    | some g =>
      rw [importSupersede_stored C hg] at h
      obtain ⟨changed, s, hflip, h₁⟩ := Run.bind_eq_ok.1 h
      have hs : s.db.addresses = st.db.addresses := (leads_flipSuperseded C _ _).of_ok hflip
      have hst : st'.db.addresses = st.db.addresses := by
        cases changed
        · obtain ⟨-, rfl⟩ := Run.pure_eq_ok.1 h₁
          exact hs
        · obtain ⟨u, s₁, hlog, h₂⟩ := Run.bind_eq_ok.1 h₁
          obtain ⟨-, rfl⟩ := Run.pure_eq_ok.1 h₂
          exact ((leads_logOp _ _ _).of_ok hlog).trans hs
      rw [hst]
      split_ifs with hx
      · refine iff_true_intro ?_
        obtain ⟨hmem, hhash⟩ := Tables.grainByHash_some hg
        rw [hx.1, ← hhash]
        exact List.mem_map_of_mem hmem
      · rfl
    | none =>
      rw [importSupersede_missing C hg] at h
      split_ifs at h with hemp
      · obtain ⟨-, rfl⟩ := Run.pure_eq_ok.1 h
        rw [if_neg fun hx => hx.2 (List.isEmpty_iff.1 hemp)]
      · obtain ⟨u, s₁, hins, h₁⟩ := Run.bind_eq_ok.1 h
        obtain ⟨c, s₂, hflip, h₂⟩ := Run.bind_eq_ok.1 h₁
        obtain ⟨-, rfl⟩ := Run.pure_eq_ok.1 h₂
        have hs : s₂.db.addresses = s₁.db.addresses := (leads_flipSuperseded C _ _).of_ok hflip
        rw [hs, insertBlob_ok C hins, List.mem_append, List.mem_singleton]
        have hblob : r.blob ≠ [] := fun he => hemp (List.isEmpty_iff.2 he)
        by_cases hx : x = r.hash <;> simp [hx, hblob]
  · have hdel : st'.db.addresses = st.db.addresses.filter fun x => x ≠ r.hash := by
      unfold importForget at h
      cases hg : st.db.grainByHash r.hash with
      | none =>
        rw [forget_missing hg] at h
        cases h
        have hnot := Tables.grainByHash_eq_none_iff.1 hg
        refine (List.filter_eq_self.2 fun x hx => decide_eq_true ?_).symm
        rintro rfl
        exact hnot hx
      | some row =>
        rcases forget_stored hg with ⟨s, hf⟩ | ⟨m, s, hf⟩
        · rw [hf] at h
          cases h
          exact forget_ok C hgood hf
        · rw [hf] at h
          cases h
    rw [hdel, List.mem_filter]
    by_cases hx : x = r.hash
    · simp [hx, h3]
    · simp [hx]
  · cases h

/-- Replay keeps a store in order. -/
theorem importRecord_good {r : BundleRecord} {applied : Bool} {st st' : DejaDB}
    (hgood : st.Good C) (h : importRecord C r st = .ok applied st') : st'.Good C := by
  have hpath := importRecord_path (C := C) (Γ := fun _ _ => True) (r := r) hgood.vocabOk
    fun _ _ => trivial
  rw [DejaDB.after, Run.after_of_ok h] at hpath
  exact (hpath.keeps_good (I := fun _ => True) (fun _ _ _ _ h => h) (fun _ _ _ _ _ _ h => h) hgood
    trivial).1

/-- An address that is there, or that a record carries bytes for, is there after
a replay that forgets it nowhere. -/
theorem importRecords_present {stats stats' : ImportStats} {rs : List BundleRecord}
    {st st' : DejaDB} {x : Hash} (hgood : st.Good C)
    (h : importRecords C none stats rs st = .ok stats' st')
    (hkeep : ∀ f ∈ rs, f.op = 3 → f.hash ≠ x)
    (hx : x ∈ st.db.addresses ∨ ∃ r ∈ rs, r.hash = x ∧ r.blob ≠ []) : x ∈ st'.db.addresses := by
  induction rs generalizing stats st with
  | nil =>
    obtain ⟨-, rfl⟩ := Run.pure_eq_ok.1 h
    exact hx.resolve_right fun ⟨r, hr, _⟩ => nomatch hr
  | cons r rs ih =>
    unfold importRecords at h
    simp only [Option.any_none, Bool.false_eq_true, if_false] at h
    obtain ⟨applied, s, hone, hrest⟩ := Run.bind_eq_ok.1 h
    rw [List.forall_mem_cons] at hkeep
    refine ih (importRecord_good C hgood hone) hrest hkeep.2 ?_
    rw [importRecord_addresses C hgood hone, if_neg fun hf => hkeep.1 hf.2 hf.1.symm]
    rcases hx with hx | ⟨r', hr', hhash, hblob⟩
    · left
      split_ifs
      exact hx
    · rcases List.mem_cons.1 hr' with rfl | hr'
      · rw [if_pos ⟨hhash.symm, hblob⟩]
        exact .inl trivial
      · exact .inr ⟨r', hr', hhash, hblob⟩

/-- An address a record forgets is gone after a replay that carries no bytes for
it. -/
theorem importRecords_absent {stats stats' : ImportStats} {rs : List BundleRecord}
    {st st' : DejaDB} {x : Hash} (hgood : st.Good C)
    (h : importRecords C none stats rs st = .ok stats' st')
    (hbare : ∀ r ∈ rs, r.op ≠ 3 → r.hash = x → r.blob = [])
    (hx : x ∉ st.db.addresses ∨ ∃ f ∈ rs, f.op = 3 ∧ f.hash = x) : x ∉ st'.db.addresses := by
  induction rs generalizing stats st with
  | nil =>
    obtain ⟨-, rfl⟩ := Run.pure_eq_ok.1 h
    exact hx.resolve_right fun ⟨r, hr, _⟩ => nomatch hr
  | cons r rs ih =>
    unfold importRecords at h
    simp only [Option.any_none, Bool.false_eq_true, if_false] at h
    obtain ⟨applied, s, hone, hrest⟩ := Run.bind_eq_ok.1 h
    rw [List.forall_mem_cons] at hbare
    refine ih (importRecord_good C hgood hone) hrest hbare.2 ?_
    by_cases hr : x = r.hash ∧ r.op = 3
    · left
      rw [importRecord_addresses C hgood hone, if_pos hr]
      exact id
    · have hblob : ¬(x = r.hash ∧ r.blob ≠ []) := fun hb =>
        hb.2 (hbare.1 (fun h3 => hr ⟨hb.1, h3⟩) hb.1.symm)
      rcases hx with hx | ⟨f, hf, hop, hhash⟩
      · left
        rw [importRecord_addresses C hgood hone, if_neg hr, if_neg hblob]
        exact hx
      · rcases List.mem_cons.1 hf with rfl | hf
        · exact absurd ⟨hhash.symm, hop⟩ hr
        · exact .inr ⟨f, hf, hop, hhash⟩

/-! ## Importing twice -/

/-- The records of a bundle file. -/
def bundleRecords (data : Bytes) : List BundleRecord :=
  match parseBundle data with
  | .ok (rs, _) => rs
  | .error _ => []

/-- Importing `data` into `st` applies nothing and leaves the file as it is. -/
def ImportsNothing (data : Bytes) (st : DejaDB) : Prop :=
  ∃ stats st', importBundle C data st = .ok stats st' ∧ stats.applied = 0 ∧ st'.db = st.db

/-- No address of the bundle is both forgotten and carried with its bytes, and
every parent of a superseding grain is superseded by that very grain. -/
structure Replayed (t : Tables) (rs : List BundleRecord) : Prop where
  carried : ∀ r ∈ rs, ∀ f ∈ rs, r.op ≠ 3 → f.op = 3 → r.hash = f.hash → r.blob = []
  closed : ∀ r ∈ rs, r.op = 2 → ∀ g, t.grainByHash r.hash = some g →
    ∀ view, C.deserializeBlob (r.bytes g) = .ok view →
      t.ParentsClosed r.hash (supersededParents view)

theorem importBundle_ok {data : Bytes} {stats : ImportStats} {st st' : DejaDB} :
    importBundle C data st = .ok stats st' ↔
      parseBundle data = .ok (bundleRecords data, none) ∧
        importRecords C none ⟨0, 0⟩ (bundleRecords data) st = .ok stats st' := by
  unfold importBundle importBundleUntil bundleRecords
  rw [Run.bind_apply]
  cases parseBundle data with
  | error e => exact ⟨(fun h => nomatch h), fun h => nomatch h.1⟩
  | ok x =>
    obtain ⟨rs, err⟩ := x
    simp only [lift, Run.pure_apply]
    constructor
    · intro h
      obtain ⟨stats₁, s, hrs, h₁⟩ := Run.bind_eq_ok.1 h
      cases err with
      | some e => cases h₁
      | none =>
        obtain ⟨rfl, rfl⟩ := Run.pure_eq_ok.1 h₁
        exact ⟨rfl, hrs⟩
    · rintro ⟨herr, hrs⟩
      cases herr
      rw [Run.bind_apply, hrs]
      rfl

theorem importRecords_ops {stats stats' : ImportStats} {rs : List BundleRecord} {st st' : DejaDB}
    (h : importRecords C none stats rs st = .ok stats' st') :
    ∀ r ∈ rs, r.op = 1 ∨ r.op = 2 ∨ r.op = 3 := by
  induction rs generalizing stats st with
  | nil => exact fun r hr => nomatch hr
  | cons r rs ih =>
    unfold importRecords at h
    simp only [Option.any_none, Bool.false_eq_true, if_false] at h
    obtain ⟨applied, s, hone, hrest⟩ := Run.bind_eq_ok.1 h
    rw [List.forall_mem_cons]
    refine ⟨?_, ih hrest⟩
    unfold importRecord at hone
    split_ifs at hone with h1 h2 h3
    · exact .inl h1
    · exact .inr (.inl h2)
    · exact .inr (.inr h3)
    · cases hone

/-- **Importing a bundle again.**  After an import that returned, the same import
applies nothing and changes nothing exactly when no address of the bundle is both
forgotten and carried with its bytes, and no superseding record takes the fork
branch or finds a parent that came after it. -/
theorem importBundle_again_iff {data : Bytes} {stats : ImportStats} {st₀ st : DejaDB}
    (hst : Reachable C st₀) (h : importBundle C data st₀ = .ok stats st) :
    ImportsNothing C data st ↔ Replayed C st.db (bundleRecords data) := by
  obtain ⟨hparse, hfirst⟩ := (importBundle_ok C).1 h
  have hsettled : ImportsNothing C data st ↔ ∀ r ∈ bundleRecords data, Settled C st.db r := by
    rw [← importRecords_applied_iff C ⟨0, 0⟩]
    unfold ImportsNothing
    simp only [importBundle_ok, hparse, true_and]
  rw [hsettled]
  constructor
  · intro hall
    refine ⟨fun r hr f hf hop h3 hhash => ?_, fun r hr h2 g hg => ?_⟩
    · have hgone : st.db.grainByHash r.hash = none := by
        cases hall f hf with
        | add h' | pruned h' | closed h' => simp [h3] at h'
        | forget _ hnone => rw [hhash]; exact hnone
      cases hall r hr with
      | add _ h' =>
        refine h'.resolve_left fun hhas => ?_
        rw [Tables.hasGrain_eq_isSome, hgone] at hhas
        cases hhas
      | pruned _ _ hblob => exact hblob
      | closed _ g hg => rw [hgone] at hg; cases hg
      | forget h' => exact absurd h' hop
    · cases hall r hr with
      | add h' | forget h' => simp [h2] at h'
      | pruned _ hnone => rw [hg] at hnone; cases hnone
      | closed _ g' hg' h' =>
        rw [hg] at hg'
        cases hg'
        exact h'
  · rintro ⟨hcarried, hclosed⟩ r hr
    have hpresent : r.op ≠ 3 → r.blob ≠ [] → r.hash ∈ st.db.addresses := fun hop hblob =>
      importRecords_present C hst.good hfirst
        (fun f hf h3 hhash => hblob (hcarried r hr f hf hop h3 hhash.symm))
        (.inr ⟨r, hr, rfl, hblob⟩)
    rcases importRecords_ops C hfirst r hr with h1 | h2 | h3
    · by_cases hblob : r.blob = []
      · exact .add h1 (.inr hblob)
      · exact .add h1 (.inl (Tables.hasGrain_iff.2 (hpresent (by simp [h1]) hblob)))
    · cases hg : st.db.grainByHash r.hash with
      | some g => exact .closed h2 g hg (hclosed r hr h2 g hg)
      | none =>
        refine .pruned h2 hg (by_contra fun hblob => ?_)
        exact Tables.grainByHash_eq_none_iff.1 hg (hpresent (by simp [h2]) hblob)
    · refine .forget h3 (Tables.grainByHash_eq_none_iff.2 ?_)
      exact importRecords_absent C hst.good hfirst
        (fun r' hr' hop hhash => hcarried r' hr' r hr hop h3 hhash) (.inr ⟨r, hr, h3, rfl⟩)

/-! ## Two replicas with a fork -/

/-- The records an import applied; `none` when it failed. -/
def appliedBy (data : Bytes) (st : DejaDB) : Option ℕ :=
  match importBundle C data st with
  | .ok stats _ => some stats.applied
  | .error _ _ => none

theorem importBundle_of_appliedBy {data : Bytes} {st : DejaDB} {n : ℕ}
    (h : appliedBy C data st = some n) : ∃ stats,
      importBundle C data st = .ok stats (st.after (importBundle C data)) ∧ stats.applied = n := by
  unfold appliedBy at h
  unfold DejaDB.after Run.after
  cases hrun : importBundle C data st with
  | ok stats s =>
    rw [hrun] at h
    exact ⟨stats, rfl, Option.some_inj.1 h⟩
  | error e s =>
    rw [hrun] at h
    cases h

/-- One side of a fork: `v1`, superseded by `v2`. -/
def forkLeft : DejaDB := sampleStore.steps sampleCore
  [.add (sampleFact 1 1 1 2 3), .supersede (Hash.ofByte 1) (sampleFact 2 2 1 2 4)]

/-- The other side: the same `v1`, imported, superseded by `v3`. -/
def forkRight : DejaDB := sampleStore.steps sampleCore
  [.importBundle ((sampleStore.step sampleCore (.add (sampleFact 1 1 1 2 3))).bundleSince 0) none,
    .supersede (Hash.ofByte 1) (sampleFact 3 3 1 2 5)]

/-- The left side after it imported the right side's bundle once. -/
def forkMet : DejaDB := forkLeft.after (importBundle sampleCore (forkRight.bundleSince 0))

theorem forkMet_first : appliedBy sampleCore (forkRight.bundleSince 0) forkLeft = some 2 := by
  decide +kernel

theorem forkMet_again : appliedBy sampleCore (forkRight.bundleSince 0) forkMet = some 1 := by
  decide +kernel

theorem forkMet_applies : ¬ImportsNothing sampleCore (forkRight.bundleSince 0) forkMet := by
  rintro ⟨stats, st, h, happlied, -⟩
  have hagain := forkMet_again
  rw [appliedBy, h] at hagain
  have hone : stats.applied = 1 := Option.some_inj.1 hagain
  omega

/-- Importing the other side of a fork a second time applies its supersession
again. -/
theorem fork_import_not_idempotent :
    Reachable sampleCore forkLeft ∧ Reachable sampleCore forkRight ∧
      (∃ stats, importBundle sampleCore (forkRight.bundleSince 0) forkLeft = .ok stats forkMet) ∧
      ¬ImportsNothing sampleCore (forkRight.bundleSince 0) forkMet := by
  obtain ⟨stats, h, -⟩ := importBundle_of_appliedBy sampleCore forkMet_first
  exact ⟨sampleStore_reachable.steps _, sampleStore_reachable.steps _, ⟨stats, h⟩, forkMet_applies⟩

/-- The fork fails the condition. -/
theorem forkMet_not_replayed :
    ¬Replayed sampleCore forkMet.db (bundleRecords (forkRight.bundleSince 0)) := by
  obtain ⟨stats, h, -⟩ := importBundle_of_appliedBy sampleCore forkMet_first
  intro hreplayed
  exact forkMet_applies
    ((importBundle_again_iff sampleCore (sampleStore_reachable.steps _) h).2 hreplayed)

end Deja
