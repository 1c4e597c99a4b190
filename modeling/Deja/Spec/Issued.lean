import Deja.Spec.Runs

/-!
# Which events an operation issues

An import replays records and forgets; installing an embedder does nothing else;
every other operation issues local events only.
-/

namespace Deja

open Run

variable {G : Type} {C : Core G}

/-- The events of the local write path and of maintenance. -/
def Event.Local : Event → Prop
  | .insertBlob .. | .flip .. | .log .. | .setEmbedder _ => False
  | _ => True

/-- The events of a replayed record: a grain that comes with an `ADD` or a
`SUPERSEDE`, a closure, a tombstone. -/
def Event.Imported : Event → Prop
  | .insertBlob op _ => op ≠ .forget
  | .flip .. | .log .. | .forget _ => True
  | _ => False

/-- The events an operation can issue. -/
def Event.IssuedBy (ev : Event) : Op G → Prop
  | .importBundle .. => ev.Imported
  | .setEmbedder e => ev = .setEmbedder e
  | _ => ev.Local

/-- The commits of a record replay additions and closures, or forget. -/
theorem recordCommits_imported {r : BundleRecord} {st : DejaDB} :
    ∀ x ∈ recordCommits C r st, x.1.Imported := by
  have hblob : ∀ {op : OpKind} {blob : Bytes} {hash : Hash} {st : DejaDB}, op ≠ .forget →
      ∀ x ∈ blobCommits C op blob hash st, x.1.Imported := by
    intro op blob hash st hop x hx
    unfold blobCommits at hx
    cases hprep : prepFromBlob C blob hash st with
    | error e s =>
      rw [hprep] at hx
      cases hx
    | ok pr s =>
      rw [hprep] at hx
      rw [List.mem_singleton.1 hx]
      exact hop
  have hflips : ∀ {hash : Hash} {olds : List Hash} {st : DejaDB},
      ∀ x ∈ flipCommits hash olds st, x.1.Imported := by
    intro hash olds
    induction olds with
    | nil => exact fun x hx => nomatch hx
    | cons old olds ih =>
      intro st x hx
      rcases List.mem_cons.1 hx with rfl | hx
      · trivial
      · exact ih x hx
  have hsuper : ∀ {blob : Bytes} {hash : Hash} {st : DejaDB},
      ∀ x ∈ supersededCommits C blob hash st, x.1.Imported := by
    intro blob hash st x hx
    unfold supersededCommits at hx
    cases hview : C.deserializeBlob blob with
    | error e =>
      rw [hview] at hx
      cases hx
    | ok view =>
      rw [hview] at hx
      exact hflips x hx
  intro x hx
  unfold recordCommits at hx
  split_ifs at hx
  · unfold importAddCommits at hx
    split_ifs at hx
    · cases hx
    · exact hblob (by decide) x hx
  · unfold importSupersedeCommits at hx
    cases hg : st.db.grainByHash r.hash with
    | some g =>
      rw [hg] at hx
      rcases List.mem_append.1 hx with hx | hx
      · exact hsuper x hx
      · rw [List.mem_singleton.1 hx]
        trivial
    | none =>
      simp only [hg] at hx
      split_ifs at hx
      · cases hx
      · rcases List.mem_append.1 hx with hx | hx
        · exact hblob (by decide) x hx
        · exact hsuper x hx
  · rw [List.mem_singleton.1 hx]
    trivial
  · cases hx

theorem recordsCommits_imported {maxHlc : Option ℤ} {rs : List BundleRecord} {st : DejaDB} :
    ∀ x ∈ recordsCommits C maxHlc rs st, x.1.Imported := by
  induction rs generalizing st with
  | nil => exact fun x hx => nomatch hx
  | cons r rs ih =>
    intro x hx
    unfold recordsCommits at hx
    split_ifs at hx
    · exact ih x hx
    · rcases List.mem_append.1 hx with hx | hx
      · exact recordCommits_imported x hx
      · cases hrec : importRecord C r st with
        | error e s =>
          rw [hrec] at hx
          cases hx
        | ok applied s =>
          rw [hrec] at hx
          exact ih x hx

theorem eraseCommits_local {sel : ErasureSelector} {st : DejaDB} :
    ∀ x ∈ eraseCommits C sel st, x.1.Local := by
  intro x hx
  unfold eraseCommits at hx
  cases hsel : selectTargets C sel st with
  | error e s =>
    rw [hsel] at hx
    cases hx
  | ok out s =>
    simp only [hsel] at hx
    split_ifs at hx <;> rw [List.mem_singleton.1 hx] <;> trivial

/-- **Every commit of an operation is one the operation can issue.** -/
theorem Op.commits_issued {op : Op G} {st : DejaDB} :
    ∀ x ∈ op.commits C st, x.1.IssuedBy op := by
  have hbatch : ∀ {gs : List (Grain G)}, ∀ x ∈ addBatchCommits C gs st, x.1.Local := by
    intro gs x hx
    unfold addBatchCommits at hx
    cases hprep : prepNovel C [] gs st with
    | error e s => rw [hprep] at hx; cases hx
    | ok out s => rw [hprep] at hx; rw [List.mem_singleton.1 hx]; trivial
  have hrebuild : ∀ {st : DejaDB}, ∀ x ∈ rebuildCommits C st, x.1.Local := by
    intro st x hx
    simp only [rebuildCommits] at hx
    split_ifs at hx
    · simp only [List.mem_cons, List.not_mem_nil, or_false] at hx
      rcases hx with rfl | rfl <;> trivial
    · cases hx
  intro x hx
  cases op with
  | importBundle data maxHlc =>
    simp only [Op.commits] at hx
    cases hparse : parseBundle data with
    | error e => rw [hparse] at hx; cases hx
    | ok out => rw [hparse] at hx; exact recordsCommits_imported x hx
  | add g => exact hbatch x hx
  | addBatch gs => exact hbatch x hx
  | addIfNovel g =>
    simp only [Op.commits, addIfNovelCommits] at hx
    cases hview : probeView C g st with
    | error e s => rw [hview] at hx; cases hx
    | ok gv s =>
      simp only [hview] at hx
      split_ifs at hx
      · cases hx
      · cases hprep : prepGrain C g s with
        | error e s => rw [hprep] at hx; cases hx
        | ok pr s => rw [hprep] at hx; rw [List.mem_singleton.1 hx]; trivial
  | supersede old g =>
    simp only [Op.commits, supersedeCommits] at hx
    split_ifs at hx
    · cases hprep : prepGrain C { g with derivedFrom := some old.toHex } st with
      | error e s => rw [hprep] at hx; cases hx
      | ok pr s => rw [hprep] at hx; rw [List.mem_singleton.1 hx]; trivial
    · cases hx
  | mergeHeads ns s r g =>
    simp only [Op.commits, mergeCommits] at hx
    cases hkey : st.keyOf ns s r with
    | none => rw [hkey] at hx; cases hx
    | some k =>
      simp only [hkey] at hx
      cases htips : (st.db.headsOf k).map HeadRow.hash with
      | nil => simp only [htips] at hx; cases hx
      | cons first others =>
        cases others with
        | nil => simp only [htips] at hx; cases hx
        | cons second rest =>
          simp only [htips] at hx
          cases hprep : prepGrain C { g with
              derivedFrom := some first.toHex
              context := some (mergeContext g.context (first :: second :: rest)) } st with
          | error e s => rw [hprep] at hx; cases hx
          | ok pr s => rw [hprep] at hx; rw [List.mem_singleton.1 hx]; trivial
  | forget hash =>
    rw [List.mem_singleton.1 hx]
    trivial
  | forgetSubject ns s m =>
    simp only [Op.commits] at hx
    cases hcheck : checkSubjectSelector C "forget_subject" s m st with
    | error e s => rw [hcheck] at hx; cases hx
    | ok u s =>
      cases hns : st.termLookup ns with
      | none => rw [hcheck, hns] at hx; cases hx
      | some nsId => rw [hcheck, hns] at hx; exact eraseCommits_local x hx
  | forgetOlderThan ns cutoff gt limit =>
    cases ns with
    | none =>
      simp only [Op.commits] at hx
      exact eraseCommits_local x hx
    | some n =>
      simp only [Op.commits] at hx
      cases hns : st.termLookup n with
      | none => rw [hns] at hx; cases hx
      | some nsId => rw [hns] at hx; exact eraseCommits_local x hx
  | deferTextIndex =>
    rw [List.mem_singleton.1 hx]
    trivial
  | rebuildTextIndex => exact hrebuild x hx
  | setEmbedder e =>
    rw [List.mem_singleton.1 hx]
    rfl
  | reopen explicit clock =>
    simp only [Op.commits, reopenCommits] at hx
    rcases List.mem_cons.1 hx with rfl | hx
    · trivial
    · split_ifs at hx
      · exact hrebuild x hx
      · cases hx

/-- A run of operations that meet a guard one by one, whatever the handle. -/
theorem meets_of_issued {Γ : Event → Prop} {ops : List (Op G)} {st : DejaDB}
    (h : ∀ op ∈ ops, ∀ ev : Event, ev.IssuedBy op → Γ ev) : Meets C (fun ev _ => Γ ev) st ops := by
  induction ops generalizing st with
  | nil => trivial
  | cons op ops ih =>
    rw [List.forall_mem_cons] at h
    exact ⟨fun x hx => h.1 x.1 (op.commits_issued x hx), ih h.2⟩

theorem Meets.and {Γ Δ : Event → DejaDB → Prop} {ops : List (Op G)} {st : DejaDB}
    (h : Meets C Γ st ops) (h' : Meets C Δ st ops) :
    Meets C (fun ev a => Γ ev a ∧ Δ ev a) st ops := by
  induction ops generalizing st with
  | nil => trivial
  | cons op ops ih => exact ⟨fun x hx => ⟨h.1 x hx, h'.1 x hx⟩, ih h.2 h'.2⟩

end Deja
