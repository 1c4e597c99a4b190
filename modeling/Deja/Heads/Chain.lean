import Deja.Import.Addressed
import Deja.Lib.Acyclic
import Deja.Spec.Appends

/-!
# The supersession chain

A grain points back to the one it supersedes.  A supersession writes a grain that
names the old one in its `derived_from`; an import lets a record close what the
bytes of the record name.  So every pointer is spelled by bytes, and as long as
records carry the address of their bytes, a chain of pointers is a chain of bytes
that name one another's address.

* `Op.names` — the pairs the bytes of an operation spell, new address and old.
* `Commit.points` — the only pointers a commit sets are those of its event.
* `chains_end` — over a run of self-addressed records whose names do not go in a
  circle, the pointers have no cycle, and the reads along them end.
* `circular_bundle` — a record with foreign bytes makes a circle.
-/

namespace Deja

open Run

variable {G : Type} {C : Core G} {t t' : Tables} {R : Hash → Hash → Prop}

/-! ## Pointers -/

/-- A stored grain points back to another. -/
def Tables.Supersedes (t : Tables) (new old : Hash) : Prop :=
  ∃ g ∈ t.grains, g.hash = new ∧ g.supersedes = some old

/-- Every pointer of `l'` was one of `l` already, or is allowed by `R`. -/
def Points (R : Hash → Hash → Prop) (l l' : List GrainRow) : Prop :=
  ∀ g' ∈ l', ∀ old, g'.supersedes = some old →
    (∃ g ∈ l, g.hash = g'.hash ∧ g.supersedes = some old) ∨ R g'.hash old

namespace Points

variable {l l' l'' : List GrainRow}

theorem refl (l : List GrainRow) : Points R l l := fun g hg _ hold => .inl ⟨g, hg, rfl, hold⟩

theorem trans (h : Points R l l') (h' : Points R l' l'') : Points R l l'' := by
  intro g'' hg'' old hold
  rcases h' g'' hg'' old hold with ⟨g', hg', hhash, hold'⟩ | hR
  · rw [← hhash]
    exact h g' hg' old hold'
  · exact .inr hR

/-- A rewrite of other columns. -/
theorem of_map {f : GrainRow → GrainRow}
    (hf : ∀ g, (f g).hash = g.hash ∧ (f g).supersedes = g.supersedes) : Points R l (l.map f) := by
  intro g' hg' old hold
  obtain ⟨g, hg, rfl⟩ := List.mem_map.1 hg'
  obtain ⟨hhash, hsame⟩ := hf g
  exact .inl ⟨g, hg, hhash.symm, by rw [← hsame, hold]⟩

/-- Rows that go. -/
theorem of_filter (p : GrainRow → Bool) : Points R l (l.filter p) :=
  fun g hg _ hold => .inl ⟨g, List.mem_of_mem_filter hg, rfl, hold⟩

/-- A grain that comes points nowhere. -/
theorem append_row (pr : GrainPrep) (seq : ℤ) : Points R l (l ++ [pr.grainRow seq]) := by
  intro g hg old hold
  rcases List.mem_append.1 hg with hg | hg
  · exact .inl ⟨g, hg, rfl, hold⟩
  · rw [List.mem_singleton.1 hg] at hold
    cases hold

/-- One pointer is set. -/
theorem of_point {new old : Hash} (hR : R new old) :
    Points R l (l.map fun g => if g.hash = new then { g with supersedes := some old } else g) := by
  intro g' hg' o hold
  obtain ⟨g, hg, rfl⟩ := List.mem_map.1 hg'
  split_ifs at hold ⊢ with hnew
  · cases hold
    right
    show R g.hash old
    rw [hnew]
    exact hR
  · exact .inl ⟨g, hg, rfl, hold⟩

end Points

namespace Tables

theorem insertPrepped_points {preps : List GrainPrep} {seq op hlc : ℤ}
    (h : t.insertPrepped preps seq op hlc = .ok t') : Points R t.grains t'.grains := by
  induction preps generalizing t seq op hlc with
  | nil =>
    cases h
    exact .refl _
  | cons pr preps ih =>
    obtain ⟨t₁, hone, hrest⟩ := except_bind_ok h
    have hins := (insertPreppedOne_ok hone).1.grains
    exact .trans (hins ▸ .append_row pr seq) (ih hrest)

theorem flipped_points (t : Tables) (seq : ℤ) {old new : Hash} (now : ℤ) (hR : R new old) :
    Points R t.grains (t.flipped seq old new now).grains := by
  have hmark : Points R t.grains (t.markSuperseded seq new now).grains := by
    refine .of_map fun g => ?_
    split_ifs <;> exact ⟨rfl, rfl⟩
  exact hmark.trans (.of_point hR)

theorem closeTips_points (tips : List Hash) (merge : Hash) (now : ℤ) (t : Tables) :
    Points R t.grains (tips.foldl (fun t tip => t.closeTip tip merge now) t).grains := by
  induction tips generalizing t with
  | nil => exact .refl _
  | cons tip tips ih =>
    refine .trans ?_ (ih (t.closeTip tip merge now))
    unfold closeTip
    cases t.grainByHash tip with
    | none => exact .refl _
    | some g =>
      simp only
      split_ifs
      · refine .of_map (f := fun x => if x.seq = g.seq then
          { x with supersededBy := some merge, svt := some now } else x) fun x => ?_
        split_ifs <;> exact ⟨rfl, rfl⟩
      · exact .refl _

theorem flipTxn_points (t : Tables) {old new : Hash} (now : ℤ) (hR : R new old) :
    Points R t.grains (t.flipTxn old new now).2.grains := by
  unfold flipTxn
  cases t.grainByHash old with
  | none => exact .refl _
  | some row =>
    simp only
    split_ifs
    · exact .refl _
    · rw [(registerFork_frame t new).grains]
      exact .refl _
    · have hgrains : (t.flipLinear row old new now).grains =
          (t.flipped row.seq old new now).grains := by
        unfold flipLinear
        cases row.key <;> rfl
      rw [hgrains]
      exact t.flipped_points row.seq now hR

theorem eraseTxn_grains {seqs ids : List ℤ} {op hlc : ℤ} {out : EraseOut}
    (h : t.eraseTxn seqs ids op hlc = .ok (out, t')) : ∃ p, t'.grains = t.grains.filter p := by
  obtain ⟨t₁, t₂, htargets, rfl, hscrub, -, -, -⟩ := eraseTxn_ok h
  have hrows : t'.rows = t₁.rows := by
    rw [hscrub.file]
    exact (reconcile_frame t₁ seqs _).rows
  exact ⟨_, (congrArg Rows.grains hrows).trans (eraseTargets_ok htargets).1.grains⟩

end Tables

/-- The pointers an event sets. -/
def Event.Closes : Event → Hash → Hash → Prop
  | .supersede old pr, new, o => new = pr.hash ∧ o = old
  | .flip old new, n, o => n = new ∧ o = old
  | _, _, _ => False

/-- **The pointers of a commit.**  The only ones it sets are those of its event. -/
theorem Commit.points {ev : Event} {a b : DejaDB} (h : Commit C ev a b) :
    Points ev.Closes a.db.grains b.db.grains := by
  cases h with
  | insert prepared txn => exact Tables.insertPrepped_points txn
  | @supersede _ old pr row _ now _ _ _ view written prepared found txn =>
    obtain ⟨-, t₁, hins, rfl⟩ := Tables.supersedeTxn_ok found txn
    have hframe := Tables.retireTip_frame (t₁.flipped row.seq old pr.hash now) row.key row.seq
    have hgrains := (Tables.insertPreppedOne_ok hins).1.grains
    have hins' : Points (Event.Closes (.supersede old pr)) a.db.grains t₁.grains :=
      hgrains ▸ .append_row pr a.nextSeq
    refine hins'.trans ?_
    show Points _ t₁.grains ((t₁.flipped row.seq old pr.hash now).retireTip row.key row.seq).grains
    rw [hframe.grains]
    exact t₁.flipped_points row.seq now ⟨rfl, rfl⟩
  | @merge _ k pr t _ _ _ now _ _ _ _ written prepared tips txn =>
    obtain ⟨t₁, hins, rfl⟩ := Tables.mergeTxn_ok txn
    have hgrains := (Tables.insertPreppedOne_ok hins).1.grains
    have hins' : Points (Event.Closes (.merge k pr)) a.db.grains t₁.grains :=
      hgrains ▸ .append_row pr a.nextSeq
    exact hins'.trans (Tables.closeTips_points _ _ _ t₁)
  | @forget _ _ row _ _ _ found txn =>
    obtain ⟨-, rfl⟩ := Tables.forgetTxn_ok found txn
    have hframe := Tables.retireTip_frame (a.db.deleteSeq row.seq) row.key row.seq
    rw [DejaDB.droppedDoc_db]
    show Points _ a.db.grains ((a.db.deleteSeq row.seq).retireTip row.key row.seq).grains
    rw [hframe.grains]
    exact .of_filter _
  | @erase _ seqs ids out t _ txn =>
    show Points _ a.db.grains t.grains
    obtain ⟨p, hgrains⟩ := Tables.eraseTxn_grains txn
    rw [hgrains]
    exact .of_filter p
  | @scrub _ ids gone t txn =>
    show Points _ a.db.grains t.grains
    rw [(Tables.scrubTerms_ok txn).file]
    exact .refl _
  | @insertBlob _ pr _ _ t _ prepared txn =>
    show Points _ a.db.grains t.grains
    rw [(Tables.insertBlobTxn_ok txn).1.grains]
    exact .append_row _ _
  | flip => exact a.db.flipTxn_points _ ⟨rfl, rfl⟩
  | log txn =>
    obtain ⟨rfl, -⟩ := Tables.insertOp_ok txn
    exact .refl _
  | rebuildText on inline txn =>
    obtain ⟨grains, rows, c, hgrains, -, hlooks, rfl, -, -⟩ := rebuildTextBody_ok txn
    have hdb : c.db = a.db := by rw [hlooks.rest]
    show Points _ a.db.grains grains
    rw [mapM_retext hgrains]
    exact .of_map fun g => ⟨rfl, rfl⟩
  | defer | undefer | setEmbedder | reopen => exact .refl _

/-! ## Names -/

/-- The pairs a blob spells: its address, and each address it names as superseded. -/
def blobNames (C : Core G) (blob : Bytes) : List (Hash × Hash) :=
  match C.deserializeBlob blob with
  | .ok view => (supersededParents view).map fun old => (C.contentAddress blob, old)
  | .error _ => []

/-- The pairs the grains of an event spell.  A supersession writes the old address
into the grain. -/
def Event.names (C : Core G) : Event → List (Hash × Hash)
  | .insert preps => preps.flatMap fun pr => blobNames C pr.blob
  | .supersede old pr => (C.contentAddress pr.blob, old) :: blobNames C pr.blob
  | .merge _ pr | .insertBlob _ pr => blobNames C pr.blob
  | _ => []

/-- The records an operation replays. -/
def Op.records : Op G → List BundleRecord
  | .importBundle data maxHlc =>
    match parseBundle data with
    | .ok (records, _) => records.filter fun r => !maxHlc.any (· < r.hlc)
    | .error _ => []
  | _ => []

/-- The pairs an operation spells: those of the grains it writes, and those of the
records it replays. -/
def Op.names (C : Core G) (st : DejaDB) (op : Op G) : List (Hash × Hash) :=
  ((op.commits C st).flatMap fun x => x.1.names C) ++
    op.records.flatMap fun r => blobNames C r.blob

/-- The pairs a run spells. -/
def runNames (C : Core G) : DejaDB → List (Op G) → List (Hash × Hash)
  | _, [] => []
  | st, op :: ops => op.names C st ++ runNames C (st.step C op) ops

/-- Every record an operation adds or supersedes by carries the address of its
bytes, if it carries bytes. -/
def Op.SelfAddressed (C : Core G) (op : Op G) : Prop :=
  ∀ r ∈ op.records, r.op = 1 ∨ r.op = 2 → r.blob ≠ [] → r.hash = C.contentAddress r.blob

/-- The pairs of a blob, under its address. -/
theorem mem_blobNames {blob : Bytes} {view : DeserializedGrain}
    (h : C.deserializeBlob blob = .ok view) {old : Hash} (hold : old ∈ supersededParents view) :
    (C.contentAddress blob, old) ∈ blobNames C blob := by
  rw [blobNames, h]
  exact List.mem_map.2 ⟨old, hold, rfl⟩

/-- A stored grain names another in its bytes. -/
def Tables.StoredName (C : Core G) (t : Tables) (new old : Hash) : Prop :=
  ∃ g ∈ t.grains, g.hash = new ∧ ∃ view, C.deserializeBlob g.blob = .ok view ∧
    old ∈ supersededParents view

/-- What holds of an event of a self-addressed run whose names are in `R`. -/
structure Named (C : Core G) (R : Hash → Hash → Prop) (ev : Event) (a : DejaDB) : Prop where
  names : ∀ x ∈ ev.names C, R x.1 x.2
  bound : ∀ op pr, ev = .insertBlob op pr → pr.Bound C
  flips : ∀ old new, ev = .flip old new → R new old ∨ a.db.StoredName C new old

/-! ## What the commits keep -/

/-- Stored grains lie under their addresses, and what they name and point to is in
`R`. -/
structure Tables.Told (C : Core G) (R : Hash → Hash → Prop) (t : Tables) : Prop where
  addressed : t.Addressed C
  names : ∀ g ∈ t.grains, ∀ x ∈ blobNames C g.blob, R x.1 x.2
  points : ∀ new old, t.Supersedes new old → R new old

theorem Tables.Told.storedName (h : t.Told C R) {new old : Hash} (hn : t.StoredName C new old) :
    R new old := by
  obtain ⟨g, hg, rfl, view, hview, hold⟩ := hn
  have hpair := h.names g hg _ (mem_blobNames hview hold)
  rwa [← h.addressed g hg] at hpair

/-- The grains of a commit lie under the addresses of their bytes: local ones by the
codec, imported ones by their records. -/
theorem Commit.bound {ev : Event} {a b : DejaDB} (h : Commit C ev a b)
    (himported : ∀ op pr, ev = .insertBlob op pr → pr.Bound C) : ∀ pr ∈ ev.preps, pr.Bound C := by
  intro pr hpr
  cases h with
  | insert prepared txn =>
    obtain ⟨⟨g, hg⟩, -⟩ := prepared pr hpr
    exact hg.bound
  | supersede written prepared found txn =>
    rw [List.mem_singleton.1 hpr]
    exact written.bound
  | merge written prepared tips txn =>
    rw [List.mem_singleton.1 hpr]
    exact written.bound
  | insertBlob prepared txn =>
    rw [List.mem_singleton.1 hpr]
    exact himported _ _ rfl
  | forget | erase | scrub | flip | log | defer | undefer | rebuildText | setEmbedder | reopen =>
    exact nomatch hpr

/-- The names of an event are those of its grains, and more. -/
theorem Event.blobNames_subset {ev : Event} {pr : GrainPrep} (hpr : pr ∈ ev.preps) :
    ∀ x ∈ blobNames C pr.blob, x ∈ ev.names C := by
  intro x hx
  cases ev with
  | insert preps => exact List.mem_flatMap.2 ⟨pr, hpr, hx⟩
  | supersede old pr' =>
    rw [List.mem_singleton.1 hpr] at hx
    exact List.mem_cons_of_mem _ hx
  | merge k pr' =>
    rw [List.mem_singleton.1 hpr] at hx
    exact hx
  | insertBlob op pr' =>
    rw [List.mem_singleton.1 hpr] at hx
    exact hx
  | forget | erase | scrub | flip | log | defer | undefer | rebuildText | setEmbedder | reopen =>
    exact nomatch hpr

/-- **Every commit of a named event keeps pointers among the names.** -/
theorem Commit.told {ev : Event} {a b : DejaDB} (h : Commit C ev a b) (hev : Named C R ev a)
    (ha : a.db.Told C R) : b.db.Told C R := by
  have hbound := h.bound hev.bound
  refine ⟨h.addressed hbound ha.addressed, ?_, ?_⟩
  · have hpath := h.rowPath (P := fun pr => pr ∈ ev.preps) fun _ hpr => hpr
    exact hpath.filed (Q := fun _ blob => ∀ x ∈ blobNames C blob, R x.1 x.2)
      (fun pr hpr x hx => hev.names x (Event.blobNames_subset hpr x hx)) ha.names
  · rintro new old ⟨g, hg, rfl, hold⟩
    rcases h.points g hg old hold with ⟨g₀, hg₀, hhash, hold₀⟩ | hcloses
    · exact ha.points _ _ ⟨g₀, hg₀, hhash, hold₀⟩
    · cases ev with
      | supersede o pr =>
        obtain ⟨hnew, rfl⟩ := hcloses
        have hpair := hev.names _ (List.mem_cons_self ..)
        rw [hnew, hbound pr (List.mem_singleton_self _)]
        exact hpair
      | flip o n =>
        obtain ⟨hnew, rfl⟩ := hcloses
        rw [hnew]
        exact (hev.flips old n rfl).elim id fun hstored => ha.storedName hstored
      | insert | merge | forget | erase | scrub | insertBlob | log | defer | undefer
      | rebuildText | setEmbedder | reopen => exact hcloses.elim

theorem Idle.told {a b : DejaDB} (h : Idle a b) (ha : a.db.Told C R) : b.db.Told C R := by
  have hgrains : b.db.grains = a.db.grains := by rw [h.file]
  refine ⟨h.addressed ha.addressed, ?_, ?_⟩
  · rw [hgrains]
    exact ha.names
  · intro new old hpoint
    unfold Tables.Supersedes at hpoint
    rw [hgrains] at hpoint
    exact ha.points new old hpoint

/-! ## The commits of an import -/

/-- A flip keeps every grain with its bytes. -/
theorem Tables.flipTxn_retains (t : Tables) (old new : Hash) (now : ℤ) :
    t.Retains (t.flipTxn old new now).2 := by
  unfold flipTxn
  cases t.grainByHash old with
  | none => exact .refl t
  | some row =>
    simp only
    split_ifs
    · exact .refl t
    · exact .of_eq (registerFork_frame t new).grains
    · refine (t.flipped_retains row.seq old new now).trans (.of_eq ?_)
      unfold flipLinear
      cases row.key <;> rfl

theorem Tables.StoredName.retains {new old : Hash} (h : t.StoredName C new old)
    (hkeep : t.Retains t') : t'.StoredName C new old := by
  obtain ⟨g, hg, rfl, view, hview, hold⟩ := h
  obtain ⟨g', hg', hhash, hblob⟩ := hkeep g hg
  exact ⟨g', hg', hhash, view, by rw [hblob]; exact hview, hold⟩

/-- The flips of a grain are named when its parents are. -/
theorem flipCommits_named {hash : Hash} {olds : List Hash} {st : DejaDB}
    (h : ∀ old ∈ olds, R hash old ∨ st.db.StoredName C hash old) :
    ∀ x ∈ flipCommits hash olds st, ∀ old new, x.1 = .flip old new →
      R new old ∨ x.2.db.StoredName C new old := by
  induction olds generalizing st with
  | nil => exact fun x hx => nomatch hx
  | cons o olds ih =>
    rw [List.forall_mem_cons] at h
    intro x hx
    rcases List.mem_cons.1 hx with rfl | hx
    · rintro old new heq
      cases heq
      exact h.1
    · refine ih (fun old hold => ?_) x hx
      obtain ⟨now, tick, hflip⟩ := applySupersedeFlip_apply o hash st
      rw [DejaDB.after, after_of_ok hflip]
      exact (h.2 old hold).imp id fun hs => hs.retains (st.db.flipTxn_retains o hash now)

theorem supersededCommits_named {blob : Bytes} {hash : Hash} {st : DejaDB}
    (h : ∀ view, C.deserializeBlob blob = .ok view → ∀ old ∈ supersededParents view,
      R hash old ∨ st.db.StoredName C hash old) :
    ∀ x ∈ supersededCommits C blob hash st, ∀ old new, x.1 = .flip old new →
      R new old ∨ x.2.db.StoredName C new old := by
  intro x hx
  unfold supersededCommits at hx
  cases hview : C.deserializeBlob blob with
  | error e =>
    rw [hview] at hx
    cases hx
  | ok view =>
    rw [hview] at hx
    exact flipCommits_named (h view hview) x hx

/-- A blob's insert flips nothing. -/
theorem blobCommits_no_flip {op : OpKind} {blob : Bytes} {hash : Hash} {st : DejaDB} :
    ∀ x ∈ blobCommits C op blob hash st, ∀ old new, x.1 ≠ .flip old new := by
  intro x hx old new heq
  unfold blobCommits at hx
  cases hprep : prepFromBlob C blob hash st with
  | error e s =>
    rw [hprep] at hx
    cases hx
  | ok pr s =>
    rw [hprep] at hx
    rw [List.mem_singleton.1 hx] at heq
    cases heq

/-- The flips of a self-addressed record are named: by its own bytes, or by those
of the grain that is here when it carries none. -/
theorem recordCommits_named {r : BundleRecord} {st : DejaDB}
    (haddr : r.op = 1 ∨ r.op = 2 → r.blob ≠ [] → r.hash = C.contentAddress r.blob)
    (hnames : ∀ x ∈ blobNames C r.blob, R x.1 x.2) :
    ∀ x ∈ recordCommits C r st, ∀ old new, x.1 = .flip old new →
      R new old ∨ x.2.db.StoredName C new old := by
  have hown : r.op = 2 → r.blob.isEmpty = false → ∀ view, C.deserializeBlob r.blob = .ok view →
      ∀ old ∈ supersededParents view, R r.hash old := by
    intro hop hfull view hview old hold
    have hne : r.blob ≠ [] := by
      intro hnil
      simp [hnil] at hfull
    rw [haddr (.inr hop) hne]
    exact hnames _ (mem_blobNames hview hold)
  intro x hx
  unfold recordCommits at hx
  split_ifs at hx with hop hop' hop''
  · unfold importAddCommits at hx
    split_ifs at hx
    · cases hx
    · exact fun old new heq => absurd heq (blobCommits_no_flip x hx old new)
  · unfold importSupersedeCommits at hx
    cases hg : st.db.grainByHash r.hash with
    | some g =>
      rw [hg] at hx
      rcases List.mem_append.1 hx with hx | hx
      · refine supersededCommits_named (fun view hview old hold => ?_) x hx
        cases hfull : r.blob.isEmpty with
        | true =>
          rw [hfull, if_pos rfl] at hview
          have hhash : g.hash = r.hash := by simpa using List.find?_some hg
          exact .inr ⟨g, List.mem_of_find?_eq_some hg, hhash, view, hview, hold⟩
        | false =>
          rw [hfull, if_neg (by simp)] at hview
          exact .inl (hown hop' hfull view hview old hold)
      · rw [List.mem_singleton.1 hx]
        exact fun old new heq => nomatch heq
    | none =>
      simp only [hg] at hx
      split_ifs at hx with hempty
      · cases hx
      · rcases List.mem_append.1 hx with hx | hx
        · exact fun old new heq => absurd heq (blobCommits_no_flip x hx old new)
        · exact supersededCommits_named (fun view hview old hold =>
            .inl (hown hop' (by simpa using hempty) view hview old hold)) x hx
  · rw [List.mem_singleton.1 hx]
    exact fun old new heq => nomatch heq
  · cases hx

theorem recordsCommits_named {maxHlc : Option ℤ} {rs : List BundleRecord} {st : DejaDB}
    (h : ∀ r ∈ rs.filter fun r => !maxHlc.any (· < r.hlc),
      (r.op = 1 ∨ r.op = 2 → r.blob ≠ [] → r.hash = C.contentAddress r.blob) ∧
        ∀ x ∈ blobNames C r.blob, R x.1 x.2) :
    ∀ x ∈ recordsCommits C maxHlc rs st, (∀ op pr, x.1 = .insertBlob op pr → pr.Bound C) ∧
      ∀ old new, x.1 = .flip old new → R new old ∨ x.2.db.StoredName C new old := by
  induction rs generalizing st with
  | nil => exact fun x hx => nomatch hx
  | cons r rs ih =>
    intro x hx
    unfold recordsCommits at hx
    split_ifs at hx with hlate
    · rw [List.filter_cons_of_neg (by simp [hlate])] at h
      exact ih h x hx
    · rw [List.filter_cons_of_pos (by simp [hlate]), List.forall_mem_cons] at h
      obtain ⟨⟨haddr, hnames⟩, hrest⟩ := h
      rcases List.mem_append.1 hx with hx | hx
      · refine ⟨fun op pr heq => ?_, recordCommits_named haddr hnames x hx⟩
        refine recordCommits_bound (fun hop _ hne => haddr hop hne) x hx pr ?_
        rw [heq]
        exact List.mem_singleton_self _
      · cases hrec : importRecord C r st with
        | error e s =>
          rw [hrec] at hx
          cases hx
        | ok applied s =>
          rw [hrec] at hx
          exact ih hrest x hx

/-- **The commits of a self-addressed operation are named.** -/
theorem Op.meets_named {op : Op G} {st : DejaDB} (haddr : op.SelfAddressed C)
    (hnames : ∀ x ∈ op.names C st, R x.1 x.2) : op.Meets C (Named C R) st := by
  intro x hx
  have hown : ∀ y ∈ x.1.names C, R y.1 y.2 := fun y hy =>
    hnames y (List.mem_append_left _ (List.mem_flatMap.2 ⟨x, hx, hy⟩))
  have hissued := Op.commits_issued x hx
  cases op with
  | importBundle data maxHlc =>
    have hrecords : ∀ r ∈ (Op.importBundle data maxHlc : Op G).records,
        (r.op = 1 ∨ r.op = 2 → r.blob ≠ [] → r.hash = C.contentAddress r.blob) ∧
          ∀ y ∈ blobNames C r.blob, R y.1 y.2 := fun r hr =>
      ⟨haddr r hr, fun y hy =>
        hnames y (List.mem_append_right _ (List.mem_flatMap.2 ⟨r, hr, hy⟩))⟩
    simp only [Op.commits] at hx
    simp only [Op.records] at hrecords
    cases hparse : parseBundle data with
    | error e =>
      rw [hparse] at hx
      cases hx
    | ok out =>
      rw [hparse] at hx hrecords
      obtain ⟨hbound, hflips⟩ := recordsCommits_named hrecords x hx
      exact ⟨hown, hbound, hflips⟩
  | setEmbedder e =>
    refine ⟨hown, fun op pr heq => ?_, fun old new heq => ?_⟩ <;>
      cases (show x.1 = .setEmbedder e from hissued).symm.trans heq
  | add | addBatch | addIfNovel | supersede | mergeHeads | forget | forgetSubject
  | forgetOlderThan | deferTextIndex | rebuildTextIndex | reopen =>
    have hlocal : x.1.Local := hissued
    refine ⟨hown, fun op pr heq => ?_, fun old new heq => ?_⟩ <;>
    · rw [heq] at hlocal
      exact hlocal.elim

theorem meets_named {ops : List (Op G)} {st : DejaDB} (haddr : ∀ op ∈ ops, op.SelfAddressed C)
    (hnames : ∀ x ∈ runNames C st ops, R x.1 x.2) : Meets C (Named C R) st ops := by
  induction ops generalizing st with
  | nil => trivial
  | cons op ops ih =>
    rw [List.forall_mem_cons] at haddr
    exact ⟨op.meets_named haddr.1 fun x hx => hnames x (List.mem_append_left _ hx),
      ih haddr.2 fun x hx => hnames x (List.mem_append_right _ hx)⟩

/-! ## The reads along the chain -/

section Reads

variable {st : DejaDB}

theorem supersedes_of_grainByHash {cur old : Hash} {g : GrainRow}
    (hg : t.grainByHash cur = some g) (hold : g.supersedes = some old) : t.Supersedes cur old :=
  ⟨g, List.mem_of_find?_eq_some hg, by simpa using List.find?_some hg, hold⟩

/-- A walk that runs out of steps passed as many versions, each the pointer of the
one before. -/
theorem walkBack_none {when : ℤ} {fuel : ℕ} {cur : Hash} (h : st.walkBack C when fuel cur = none) :
    ∃ l : List Hash, l.length = fuel ∧ l.IsChain st.db.Supersedes ∧
      (∀ x ∈ l, x ∈ st.db.grains.map GrainRow.hash) ∧ ∀ x ∈ l.head?, x = cur := by
  induction fuel generalizing cur with
  | zero => exact ⟨[], rfl, .nil, by simp, by simp⟩
  | succ fuel ih =>
    unfold DejaDB.walkBack at h
    cases hg : st.db.grainByHash cur with
    | none => simp [hg] at h
    | some g =>
      simp only [hg] at h
      split_ifs at h with hknown
      cases hold : g.supersedes with
      | none => simp [hold] at h
      | some old =>
        rw [hold] at h
        obtain ⟨l, hlen, hchain, hstored, hhead⟩ := ih h
        have hhash : g.hash = cur := by simpa using List.find?_some hg
        have hmem : cur ∈ st.db.grains.map GrainRow.hash :=
          List.mem_map.2 ⟨g, List.mem_of_find?_eq_some hg, hhash⟩
        refine ⟨cur :: l, by simp [hlen], ?_, ?_, by simp⟩
        · cases l with
          | nil => exact .singleton cur
          | cons x l =>
            have hx : x = old := hhead x rfl
            refine List.isChain_cons_cons.2 ⟨?_, hchain⟩
            rw [hx]
            exact supersedes_of_grainByHash hg hold
        · intro x hx
          rcases List.mem_cons.1 hx with rfl | hx
          · exact hmem
          · exact hstored x hx

/-- A walk over an acyclic chain ends: it takes no more steps than there are
grains. -/
theorem walkBack_isSome (h : Acyclic st.db.Supersedes) {when : ℤ} {fuel : ℕ} {cur : Hash}
    (hfuel : st.db.grains.length < fuel) : (st.walkBack C when fuel cur).isSome := by
  rw [Option.isSome_iff_ne_none]
  intro hnone
  obtain ⟨l, hlen, hchain, hstored, -⟩ := walkBack_none hnone
  have hle := h.length_le hchain hstored
  rw [List.length_map] at hle
  omega

/-- The versions of a history point back one to the next. -/
theorem historyFrom_chain {room : ℕ} {cur : Hash} {es : List DejaDB.HistoryEntry}
    (h : st.historyFrom C room cur = .ok es) :
    (es.map DejaDB.HistoryEntry.hash).IsChain st.db.Supersedes ∧
      ∀ x ∈ (es.map DejaDB.HistoryEntry.hash).head?, x = cur := by
  induction room generalizing cur es with
  | zero =>
    cases h
    exact ⟨.nil, by simp⟩
  | succ room ih =>
    unfold DejaDB.historyFrom at h
    cases hg : st.db.grainByHash cur with
    | none =>
      rw [hg] at h
      cases h
      exact ⟨.nil, by simp⟩
    | some g =>
      rw [hg] at h
      cases hview : C.deserializeBlob g.blob with
      | error e =>
        simp only [hview] at h
        cases h
      | ok view =>
        simp only [hview] at h
        cases hold : g.supersedes with
        | none =>
          rw [hold] at h
          cases h
          exact ⟨.singleton cur, by simp⟩
        | some old =>
          rw [hold] at h
          obtain ⟨rest, hrest, rfl⟩ := except_map_ok h
          obtain ⟨hchain, hhead⟩ := ih hrest
          refine ⟨?_, by simp⟩
          cases rest with
          | nil => exact .singleton cur
          | cons e rest =>
            have hx : e.hash = old := hhead e.hash rfl
            refine List.isChain_cons_cons.2 ⟨?_, hchain⟩
            rw [hx]
            exact supersedes_of_grainByHash hg hold

end Reads

/-- The supersession chains of a store end: no grain comes back to itself, the
knowledge-time read of every key returns at every time, and a history lists
different versions. -/
structure DejaDB.ChainsEnd (C : Core G) (st : DejaDB) : Prop where
  acyclic : Acyclic st.db.Supersedes
  knowledge : ∀ ns subject relation when, ∃ fuel,
    (st.entityAtKnowledge C ns subject relation when fuel).isSome
  history : ∀ ns subject relation es, st.history C ns subject relation = .ok es →
    (es.map DejaDB.HistoryEntry.hash).Nodup

theorem DejaDB.chainsEnd_of_acyclic {st : DejaDB} (h : Acyclic st.db.Supersedes) :
    st.ChainsEnd C where
  acyclic := h
  knowledge ns subject relation when := by
    refine ⟨st.db.grains.length + 1, ?_⟩
    unfold DejaDB.entityAtKnowledge
    cases st.latest C ns subject relation with
    | error e => rfl
    | ok found =>
      cases found with
      | none => rfl
      | some g => exact walkBack_isSome h (Nat.lt_succ_self _)
  history ns subject relation es hes := by
    unfold DejaDB.history at hes
    cases hlatest : st.latest C ns subject relation with
    | error e =>
      rw [hlatest] at hes
      cases hes
    | ok found =>
      rw [hlatest] at hes
      cases found with
      | none =>
        cases hes
        exact List.nodup_nil
      | some g => exact h.nodup (historyFrom_chain hes).1

/-- **Chains end.**  In a run whose records carry the addresses of their bytes, and
whose grains and records do not name one another's addresses in a circle, the
supersession chains end. -/
theorem chains_end (C : Core G) (explicit : Option DejaDbOptions) (clock : ℕ → ℤ)
    (ops : List (Op G)) (haddr : ∀ op ∈ ops, op.SelfAddressed C)
    (hnames : Acyclic fun new old =>
      (new, old) ∈ runNames C (createStore C explicit clock) ops) :
    ((createStore C explicit clock).steps C ops).ChainsEnd C := by
  have hempty : (createStore C explicit clock).db.Told C fun new old =>
      (new, old) ∈ runNames C (createStore C explicit clock) ops := by
    rw [createStore_eq]
    refine ⟨?_, ?_, ?_⟩
    · exact fun g hg => nomatch hg
    · exact fun g hg => nomatch hg
    · rintro new old ⟨g, hg, -⟩
      exact nomatch hg
  have htold := (run_keeps (fun _ _ _ hidle h => hidle.told h)
    (fun _ _ _ _ hev hcommit h => hcommit.told hev h) hempty
    (meets_named haddr fun x hx => hx)).2
  exact DejaDB.chainsEnd_of_acyclic (hnames.mono htold.points)

instance (op : Op G) : Decidable (op.SelfAddressed C) :=
  inferInstanceAs (Decidable (∀ r ∈ op.records,
    r.op = 1 ∨ r.op = 2 → r.blob ≠ [] → r.hash = C.contentAddress r.blob))

/-- A bundle of one superseding record, filed under the given address. -/
def supersedingBundle (hash : Hash) (g : Grain SampleBody) : Bytes := bundleMagic ++ encodeRecord
  ⟨2, 9, hash, (sampleCore.encodeGrain g).toOption.getD []⟩

/-- A fact that supersedes grain `old`. -/
def revision (tag created o : UInt8) (old : Hash) : Grain SampleBody :=
  { sampleFact tag created 1 2 o with derivedFrom := some old.toHex }

/-- A fact, its revision, and a replica's revision of that. -/
def chainRun : List (Op SampleBody) := [.add (sampleFact 1 5 1 2 3),
  .supersede (Hash.ofByte 1) (sampleFact 2 6 1 2 4),
  .importBundle (supersedingBundle (Hash.ofByte 3) (revision 3 7 5 (Hash.ofByte 2))) none]

/-- Its chain ends. -/
theorem chains_end_chainRun : (sampleStore.steps sampleCore chainRun).ChainsEnd sampleCore := by
  refine chains_end sampleCore none (fun _ => 9) chainRun (by decide +kernel) ?_
  refine Acyclic.of_rank (fun h => (h.bytes.headD 0).toNat) fun new old hpair => ?_
  have hdown : ∀ x ∈ runNames sampleCore sampleStore chainRun,
      (x.2.bytes.headD 0).toNat < (x.1.bytes.headD 0).toNat := by decide +kernel
  exact hdown (new, old) hpair

/-- A walk that never leaves a set of versions not yet known never ends. -/
theorem walkBack_circle {st : DejaDB} {when : ℤ} {S : Hash → Prop}
    (h : ∀ x, S x → ∃ g old, st.db.grainByHash x = some g ∧ when < g.svf ∧
      g.supersedes = some old ∧ S old) (fuel : ℕ) {cur : Hash} (hcur : S cur) :
    st.walkBack C when fuel cur = none := by
  induction fuel generalizing cur with
  | zero => rfl
  | succ fuel ih =>
    obtain ⟨g, old, hg, hlater, hold, hS⟩ := h cur hcur
    unfold DejaDB.walkBack
    simp only [hg, hold, if_neg (not_le.2 hlater)]
    exact ih hS

/-- A fact, its revision, and a record that files bytes naming the revision under
the address of the fact. -/
def circularRun : List (Op SampleBody) := [.add (sampleFact 1 5 1 2 3),
  .supersede (Hash.ofByte 1) (sampleFact 2 6 1 2 4),
  .importBundle (supersedingBundle (Hash.ofByte 1) (revision 7 7 5 (Hash.ofByte 2))) none]

/-- A read that finds what is asked for is a read that finds. -/
theorem exists_found {ε α : Type} {r : Except ε (Option α)} {p : α → Bool}
    (h : (r.toOption.bind id).any p = true) : ∃ a, r = .ok (some a) ∧ p a = true := by
  cases r with
  | error e => exact absurd h Bool.false_ne_true
  | ok o =>
    cases o with
    | none => exact absurd h Bool.false_ne_true
    | some a => exact ⟨a, rfl, h⟩

/-- The fact and its revision point at one another, and the knowledge-time read of
their key never returns. -/
theorem circular_bundle :
    ¬ ∀ st : DejaDB, Reachable sampleCore st → st.ChainsEnd sampleCore := by
  intro h
  have hends := h (sampleStore.steps sampleCore circularRun) (sampleStore_reachable.steps _)
  have hrun : (∀ x ∈ [(1 : UInt8), 2],
      ((sampleStore.steps sampleCore circularRun).db.grainByHash (Hash.ofByte x)).any (fun g =>
        0 < g.svf ∧ g.supersedes = some (Hash.ofByte (3 - x))) = true) ∧
      (((sampleStore.steps sampleCore circularRun).latest sampleCore "shared" "a"
        "b").toOption.bind id).any (fun g => g.hash = Hash.ofByte 2) = true := by
    decide +kernel
  obtain ⟨hcircle, hlatest⟩ := hrun
  generalize sampleStore.steps sampleCore circularRun = st at hends hcircle hlatest
  obtain ⟨fuel, hfuel⟩ := hends.knowledge "shared" "a" "b" 0
  unfold DejaDB.entityAtKnowledge at hfuel
  obtain ⟨g, hg, hfound⟩ := exists_found hlatest
  have hhash : g.hash = Hash.ofByte 2 := of_decide_eq_true hfound
  simp only [hg, hhash] at hfuel
  rw [walkBack_circle (S := fun x => x = Hash.ofByte 1 ∨ x = Hash.ofByte 2) ?_ fuel (.inr rfl)]
    at hfuel
  · cases hfuel
  · rintro x (rfl | rfl)
    · have hone := hcircle 1 List.mem_cons_self
      cases hfound : st.db.grainByHash (Hash.ofByte 1) with
      | none => simp [hfound] at hone
      | some g₁ =>
        rw [hfound] at hone
        have hfacts := of_decide_eq_true hone
        exact ⟨g₁, _, rfl, hfacts.1, hfacts.2, .inr rfl⟩
    · have htwo := hcircle 2 (List.mem_cons_of_mem _ List.mem_cons_self)
      cases hfound : st.db.grainByHash (Hash.ofByte 2) with
      | none => simp [hfound] at htwo
      | some g₂ =>
        rw [hfound] at htwo
        have hfacts := of_decide_eq_true htwo
        exact ⟨g₂, _, rfl, hfacts.1, hfacts.2, .inl rfl⟩

end Deja
