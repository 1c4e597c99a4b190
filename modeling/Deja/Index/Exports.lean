import Deja.Index.Lineage
import Deja.Index.Manifest
import Deja.Index.Relinked
import Deja.Index.Retained
import Deja.Heads.Replayed
import Deja.Replica.Restored

/-!
# The corpus exports

The registry of the exports is read back from the grains `corpus_idx` lists.  The index
is kept by every write and drawn up anew by a rebuild of the link indexes, so the
registry is that of the manifests a store holds: an export is listed until its manifest
is erased, and stores that hold the same grains have one registry.  The id of an export
hashes its fields run together, so text may move from one field to the next.

* `RegistryReachable.registers` — what `corpus_idx` lists.
* `corpus_registry_exact` — the registry, and when two exports have two ids.
-/

namespace Deja

open Run

variable {G : Type} {C : Core G} {st : DejaDB}

/-! ## Reading the registry -/

/-- A registry entry. -/
structure CorpusExportRegistry where
  manifestHash : String
  exportId : String
  destination : String
  recipient : Option String
  exportedAtMs : ℤ
  subjectFingerprints : List String
  sourceHashes : List String
  deriving DecidableEq

/-- The strings of an array. -/
def jsonStrings (v : Option Json) : List String :=
  ((v.bind Json.asArray).getD []).filterMap Json.asStr

/-- A field of the context. -/
def DeserializedGrain.contextGet (grain : DeserializedGrain) (k : String) : Option Json :=
  (grain.get "context").bind (·.get k)

/-- The `mg:corpus_source` targets of a grain. -/
def corpusSources (grain : DeserializedGrain) : List String :=
  ((((grain.get "related_to").bind Json.asArray).getD []).filter fun link =>
    (link.get "relation_type").bind Json.asStr = some "mg:corpus_source").filterMap fun link =>
      (link.get "hash").bind Json.asStr

/-- The entry of a grain whose context says it is an export. -/
def registryEntry (grain : DeserializedGrain) : Option CorpusExportRegistry :=
  if (grain.contextGet "corpus_export").bind Json.asBool ≠ some true then none
  else some
    { manifestHash := grain.hash.toHex
      exportId := (grain.getStr "subject").getD ""
      destination := ((grain.contextGet "destination").bind Json.asStr).getD ""
      recipient := (grain.contextGet "recipient").bind Json.asStr
      exportedAtMs := ((grain.contextGet "exported_at_ms").bind Json.asI64).getD
        ((grain.getI64 "created_at").getD 0)
      subjectFingerprints := sortDedup (jsonStrings (grain.contextGet "subject_fingerprints"))
      sourceHashes := sortDedup (corpusSources grain) }

/-- The later export first; of one time, the lesser address. -/
def registryLe (a b : CorpusExportRegistry) : Prop :=
  b.exportedAtMs < a.exportedAtMs ∨
    a.exportedAtMs = b.exportedAtMs ∧ a.manifestHash ≤ b.manifestHash

instance : DecidableRel registryLe := fun a b =>
  inferInstanceAs (Decidable (b.exportedAtMs < a.exportedAtMs ∨
    a.exportedAtMs = b.exportedAtMs ∧ a.manifestHash ≤ b.manifestHash))

/-- `corpus_idx ci JOIN grains g ON g.seq = ci.seq ORDER BY g.seq DESC`. -/
def Tables.corpusRows (t : Tables) : List GrainRow :=
  (t.corpusIdx.insertionSort fun a b => b ≤ a).filterMap t.grainBySeq

namespace DejaDB

/-- `corpus_exports`. -/
def corpusExports (C : Core G) (st : DejaDB) : Except DejaDbError (List CorpusExportRegistry) := do
  let grains ← st.db.corpusRows.mapM fun g => C.deserializeBlob g.blob
  pure ((grains.filterMap registryEntry).insertionSort registryLe)

/-- `corpus_exports_touching_subject`. -/
def corpusExportsTouchingSubject (fingerprint : String → String) (C : Core G) (st : DejaDB)
    (subject : String) : Except DejaDbError (List CorpusExportRegistry) := do
  let exports ← st.corpusExports C
  pure (exports.filter fun entry => fingerprint subject ∈ entry.subjectFingerprints)

/-- `exports_touching_hashes`. -/
def exportsTouchingHashes (exports : List CorpusExportRegistry) (hashes : List String) :
    List CorpusExportRegistry :=
  exports.filter fun entry => entry.sourceHashes.any fun hash => hash ∈ hashes

/-- `corpus_exports_touching_hashes`. -/
def corpusExportsTouchingHashes (C : Core G) (st : DejaDB) (hashes : List String) :
    Except DejaDbError (List CorpusExportRegistry) := do
  let exports ← st.corpusExports C
  pure (exportsTouchingHashes exports hashes)

end DejaDB

/-! ## Runs with rebuilds -/

/-- An operation on a file, or a rebuild of its link indexes. -/
inductive RegistryOp (G : Type) where
  | op (op : Op G)
  | rebuildLinks

/-- The handle after an operation, whether it returned or failed. -/
def DejaDB.registryStep (C : Core G) (st : DejaDB) : RegistryOp G → DejaDB
  | .op op => st.step C op
  | .rebuildLinks => Run.after (rebuildLinkIndexes C) st

/-- A store some operations and rebuilds on a newly created file lead to. -/
def RegistryReachable (C : Core G) (st : DejaDB) : Prop :=
  ∃ explicit clock, ∃ ops : List (RegistryOp G),
    st = ops.foldl (fun st op => st.registryStep C op) (createStore C explicit clock)

/-! ## What the index lists -/

/-- A grain the index lists: an observation whose context says it is an export. -/
def GrainRow.Exported (C : Core G) (g : GrainRow) : Prop :=
  ∃ v, g.view C = some v ∧ (extractView v 0).corpusExport = true

/-- The index lists the exports among the stored grains, each once. -/
structure Rows.Listed (C : Core G) (r : Rows) : Prop where
  seqs : (r.grains.map GrainRow.seq).Nodup
  hashes : (r.grains.map GrainRow.hash).Nodup
  viewed : ∀ g ∈ r.grains, ∃ v, g.view C = some v
  once : r.corpusIdx.Nodup
  listed : ∀ seq, seq ∈ r.corpusIdx ↔ ∃ g ∈ r.grains, g.seq = seq ∧ g.Exported C

/-- What the index needs to know of a grain about to be inserted. -/
def ExportRead (C : Core G) (pr : GrainPrep) : Prop :=
  ∃ view, C.deserializeBlob pr.blob = .ok view ∧
    pr.corpusExport = (extractView view 0).corpusExport

namespace Rows

variable {r r' : Rows}

theorem Listed.insert (h : r.Listed C) {pr : GrainPrep} {seq : ℤ} (hP : ExportRead C pr)
    (freshSeq : ∀ g ∈ r.grains, g.seq ≠ seq) (freshHash : ∀ g ∈ r.grains, g.hash ≠ pr.hash) :
    (r.insert pr seq).Listed C := by
  obtain ⟨view, hview, hflag⟩ := hP
  have hrow : (pr.grainRow seq).view C = some view := GrainRow.view_eq_some.2 hview
  have hexported : (pr.grainRow seq).Exported C ↔ pr.corpusExport = true := by
    rw [hflag]
    constructor
    · rintro ⟨v, hv, hexp⟩
      rw [hrow] at hv
      cases hv
      exact hexp
    · exact fun hexp => ⟨view, hrow, hexp⟩
  have hrows : ∀ x, x ∈ pr.corpusRows seq ↔ x = seq ∧ pr.corpusExport = true := by
    intro x
    unfold GrainPrep.corpusRows
    split_ifs with hexp <;> simp [hexp]
  refine ⟨?_, ?_, ?_, ?_, ?_⟩
  · show ((r.grains ++ [pr.grainRow seq]).map GrainRow.seq).Nodup
    rw [List.map_append, List.nodup_append]
    refine ⟨h.seqs, List.nodup_singleton _, ?_⟩
    rintro x hx y hy rfl
    obtain ⟨g, hg, rfl⟩ := List.mem_map.1 hx
    exact freshSeq g hg (List.mem_singleton.1 hy)
  · show ((r.grains ++ [pr.grainRow seq]).map GrainRow.hash).Nodup
    rw [List.map_append, List.nodup_append]
    refine ⟨h.hashes, List.nodup_singleton _, ?_⟩
    rintro x hx y hy rfl
    obtain ⟨g, hg, rfl⟩ := List.mem_map.1 hx
    exact freshHash g hg (List.mem_singleton.1 hy)
  · intro g hg
    rcases List.mem_append.1 hg with hg | hg
    · exact h.viewed g hg
    · rw [List.mem_singleton.1 hg]
      exact ⟨view, hrow⟩
  · refine List.nodup_append.2 ⟨h.once, ?_, ?_⟩
    · unfold GrainPrep.corpusRows
      split_ifs <;> simp
    · rintro x hx y hy rfl
      obtain ⟨g, hg, hseq, -⟩ := (h.listed x).1 hx
      exact freshSeq g hg (hseq.trans ((hrows x).1 hy).1)
  · intro x
    show x ∈ r.corpusIdx ++ pr.corpusRows seq ↔ ∃ g ∈ r.grains ++ [pr.grainRow seq], _
    rw [List.mem_append, h.listed, hrows]
    constructor
    · rintro (⟨g, hg, hrest⟩ | ⟨rfl, hexp⟩)
      · exact ⟨g, List.mem_append_left _ hg, hrest⟩
      · exact ⟨_, List.mem_append_right _ (List.mem_singleton_self _), rfl, hexported.2 hexp⟩
    · rintro ⟨g, hg, hseq, hexp⟩
      rcases List.mem_append.1 hg with hg | hg
      · exact .inl ⟨g, hg, hseq, hexp⟩
      · obtain rfl := List.mem_singleton.1 hg
        exact .inr ⟨hseq.symm, hexported.1 hexp⟩

/-- Rewriting the columns of a grain the index does not look at. -/
theorem Listed.rewrite (h : r.Listed C) {f : GrainRow → GrainRow}
    (hf : ∀ g, (f g).seq = g.seq ∧ (f g).hash = g.hash ∧ (f g).blob = g.blob)
    (hgrains : r'.grains = r.grains.map f) (hidx : r'.corpusIdx = r.corpusIdx) :
    r'.Listed C := by
  have hview : ∀ g, (f g).view C = g.view C := fun g => by
    rw [GrainRow.view, (hf g).2.2]
    rfl
  refine ⟨?_, ?_, ?_, ?_, ?_⟩
  · rw [hgrains, List.map_map, show GrainRow.seq ∘ f = GrainRow.seq from funext fun g => (hf g).1]
    exact h.seqs
  · rw [hgrains, List.map_map,
      show GrainRow.hash ∘ f = GrainRow.hash from funext fun g => (hf g).2.1]
    exact h.hashes
  · rw [hgrains]
    intro x hx
    obtain ⟨g, hg, rfl⟩ := List.mem_map.1 hx
    rw [hview]
    exact h.viewed g hg
  · rw [hidx]
    exact h.once
  · intro seq
    rw [hidx, h.listed, hgrains]
    constructor
    · rintro ⟨g, hg, hseq, v, hv, hexp⟩
      exact ⟨f g, List.mem_map_of_mem hg, (hf g).1.trans hseq, v, (hview g).trans hv, hexp⟩
    · rintro ⟨x, hx, hseq, v, hv, hexp⟩
      obtain ⟨g, hg, rfl⟩ := List.mem_map.1 hx
      exact ⟨g, hg, (hf g).1.symm.trans hseq, v, (hview g).symm.trans hv, hexp⟩

theorem Listed.erase (h : r.Listed C) (seqs : List ℤ) : (r.erase seqs).Listed C where
  seqs := h.seqs.sublist (List.filter_sublist.map _)
  hashes := h.hashes.sublist (List.filter_sublist.map _)
  viewed g hg := h.viewed g (List.mem_filter.1 hg).1
  once := h.once.filter _
  listed seq := by
    show seq ∈ r.corpusIdx.filter _ ↔ ∃ g ∈ r.grains.filter _, _
    simp only [List.mem_filter, decide_eq_true_eq, h.listed]
    constructor
    · rintro ⟨⟨g, hg, hseq, hexp⟩, hkept⟩
      exact ⟨g, ⟨hg, by rwa [hseq]⟩, hseq, hexp⟩
    · rintro ⟨g, ⟨hg, hkept⟩, hseq, hexp⟩
      exact ⟨⟨g, hg, hseq, hexp⟩, by rwa [← hseq]⟩

theorem Listed.step (h : r.Listed C) (hstep : RowStep (ExportRead C) r r') : r'.Listed C := by
  cases hstep with
  | insert hP freshSeq freshHash => exact h.insert hP freshSeq freshHash
  | close seq by_ now =>
    exact h.rewrite (fun g => by split_ifs <;> exact ⟨rfl, rfl, rfl⟩) rfl rfl
  | point new old =>
    exact h.rewrite (fun g => by split_ifs <;> exact ⟨rfl, rfl, rfl⟩) rfl rfl
  | erase seqs => exact h.erase seqs
  | retext text =>
    exact h.rewrite (f := fun g => { g with text := text g }) (fun g => ⟨rfl, rfl, rfl⟩) rfl rfl

theorem Listed.path (h : r.Listed C) (hpath : RowPath (ExportRead C) r r') : r'.Listed C := by
  induction hpath with
  | refl => exact h
  | tail _ hstep ih => exact ih.step hstep

end Rows

/-! ## Every operation keeps the index -/

/-- A file whose index lists its exports. -/
structure DejaDB.Registers (C : Core G) (st : DejaDB) : Prop extends st.Sound where
  listed : st.db.rows.Listed C

theorem Prepared.exportRead {view : DeserializedGrain} {pr : GrainPrep}
    (h : Prepared C st view pr) : ExportRead C pr :=
  ⟨view, h.toLinked.decodes, h.toLinked.corpusExport⟩

theorem Path.listed {Γ : Event → DejaDB → Prop} {a b : DejaDB} (h : Path C Γ a b)
    (hl : a.db.rows.Listed C) : b.db.rows.Listed C := by
  refine h.keeps (I := fun st => st.db.rows.Listed C) ?_ ?_ hl
  · intro a b hidle hl
    rw [hidle.rows]
    exact hl
  · intro ev a b _ hcommit hl
    refine hl.path (hcommit.rowPath fun pr hpr => ?_)
    obtain ⟨view, hview⟩ := hcommit.prepared pr hpr
    exact hview.exportRead

theorem op_registers (h : st.Registers C) (op : Op G) : (st.step C op).Registers C := by
  have hpath := steps_path h.toSound (meets_true (C := C) st [op])
  exact ⟨⟨hpath.vocabOk h.vocabOk, hpath.link h.link⟩, hpath.listed h.listed⟩

namespace Tables

theorem applyPlan_rest (t : Tables) (r : LinkPlan) :
    (t.applyPlan r).grains = t.grains ∧ (t.applyPlan r).ftsVocab = t.ftsVocab ∧
      (t.applyPlan r).oplog = t.oplog := by
  have h := replayLinks { t with
    runIdx := t.runIdx ++ r.runRows
    provIdx := t.provIdx ++ r.provRows
    corpusIdx := t.corpusIdx ++ r.corpusRows } r.ns r.seq r.links
  have hgrains := congrArg Tables.grains h.rest
  have hvocab := congrArg Tables.ftsVocab h.rest
  have hlog := congrArg Tables.oplog h.rest
  exact ⟨hgrains, hvocab, hlog⟩

/-- A rebuild leaves the grains, the vocabulary and the op-log alone. -/
theorem relink_rest (t : Tables) (plan : List LinkPlan) :
    (t.relink plan).grains = t.grains ∧ (t.relink plan).ftsVocab = t.ftsVocab ∧
      (t.relink plan).oplog = t.oplog := by
  have hfold : ∀ t : Tables, (plan.foldl Tables.applyPlan t).grains = t.grains ∧
      (plan.foldl Tables.applyPlan t).ftsVocab = t.ftsVocab ∧
        (plan.foldl Tables.applyPlan t).oplog = t.oplog := by
    induction plan with
    | nil => exact fun t => ⟨rfl, rfl, rfl⟩
    | cons r plan ih =>
      intro t
      obtain ⟨hgrains, hvocab, hlog⟩ := ih (t.applyPlan r)
      obtain ⟨hgrains', hvocab', hlog'⟩ := t.applyPlan_rest r
      exact ⟨hgrains.trans hgrains', hvocab.trans hvocab', hlog.trans hlog'⟩
  exact hfold _

end Tables

/-- What a rebuild writes to the index: the exports among the grains. -/
theorem PlanFor.corpusRows {a : DejaDB} {grains : List GrainRow} {plan : List LinkPlan}
    (h : PlanFor C a grains plan) (p : GrainRow → Bool) (hp : ∀ g, p g = true ↔ g.Exported C) :
    plan.flatMap LinkPlan.corpusRows = (grains.filter p).map GrainRow.seq := by
  induction h with
  | nil => rfl
  | @cons g r grains plan hr _ ih =>
    obtain ⟨view, hview, hplan⟩ := hr
    have hexported : p g = r.corpusExport := by
      rw [Bool.eq_iff_iff, hp, hplan.corpusExport]
      constructor
      · rintro ⟨v, hv, hexp⟩
        rw [GrainRow.view_eq_some.2 hview] at hv
        cases hv
        exact hexp
      · exact fun hexp => ⟨view, GrainRow.view_eq_some.2 hview, hexp⟩
    rw [List.flatMap_cons, ih, List.filter_cons, hexported, LinkPlan.corpusRows]
    split_ifs
    · rw [hplan.seq]
      rfl
    · rfl

/-- **What a rebuild did**: its warm pass failed with some terms interned, or it wrote its
plan. -/
theorem rebuild_cases (hdecodes : ∀ g ∈ st.db.grains, ∃ view, C.deserializeBlob g.blob = .ok view)
    {b : DejaDB} (hb : st.registryStep C .rebuildLinks = b) : Interns st b ∨
      ∃ a plan, Interns st a ∧ PlanFor C a st.db.grainsBySeq plan ∧
        b.db = { a.db.relink plan with info := b.db.info } ∧
        b = { a with db := b.db, tick := b.tick } ∧
        b.db.info.linkIndex = some linkIndexVersion := by
  cases hwarm : warmLinks C st.db.grainsBySeq st with
  | error e a =>
    have hafter : st.registryStep C .rebuildLinks = a := by
      refine after_of_error (e := e) ?_
      rw [rebuildLinkIndexes, bind_apply]
      simp only [get_apply]
      rw [bind_apply, hwarm]
    rw [← hb, hafter]
    exact .inl ((leads_warmLinks st.db.grainsBySeq).of_error hwarm)
  | ok u a =>
    obtain ⟨plan, n, st', hrun, hplan, hdb, hrest, hlink⟩ := rebuild_of_warm hwarm hdecodes
    have hafter : st.registryStep C .rebuildLinks = st' := after_of_ok hrun
    rw [← hb, hafter]
    exact .inr ⟨a, plan, (leads_warmLinks st.db.grainsBySeq).of_ok hwarm, hplan, hdb, hrest, hlink⟩

theorem DejaDB.Registers.decodes (h : st.Registers C) :
    ∀ g ∈ st.db.grains, ∃ view, C.deserializeBlob g.blob = .ok view := fun g hg => by
  obtain ⟨v, hv⟩ := h.listed.viewed g hg
  exact ⟨v, GrainRow.view_eq_some.1 hv⟩

theorem rebuild_grains (h : st.Registers C) {b : DejaDB}
    (hb : st.registryStep C .rebuildLinks = b) : b.db.grains = st.db.grains := by
  rcases rebuild_cases h.decodes hb with hi | ⟨a, plan, hi, -, hdb, -⟩
  · rw [hi.file]
  · rw [hdb, show ({ a.db.relink plan with info := b.db.info } : Tables).grains =
      (a.db.relink plan).grains from rfl, (a.db.relink_rest plan).1, hi.file]

theorem rebuild_registers (h : st.Registers C) {b : DejaDB}
    (hb : st.registryStep C .rebuildLinks = b) : b.Registers C := by
  have hgrains := rebuild_grains h hb
  rcases rebuild_cases h.decodes hb with hi | ⟨a, plan, hi, hplan, hdb, hrest, hlink⟩
  · refine ⟨⟨hi.vocabOk h.vocabOk, ?_⟩, ?_⟩
    · rw [hi.file]
      exact h.link
    · rw [hi.file]
      exact h.listed
  · have hcorpus : b.db.corpusIdx = plan.flatMap LinkPlan.corpusRows := by
      rw [hdb]
      exact (Tables.relink_planned a.db plan).corpusIdx
    have hvocab : VocabOk b := by
      refine (hi.vocabOk h.vocabOk).of_eq ?_ ?_
      · rw [hrest]
      · rw [hdb]
        exact (a.db.relink_rest plan).2.1
    classical
    have hrows := hplan.corpusRows (fun g => decide (g.Exported C)) fun g => by simp
    have hseqs : (st.db.grainsBySeq.map GrainRow.seq).Nodup :=
      ((List.perm_insertionSort _ _).map _).nodup_iff.2 h.listed.seqs
    refine ⟨⟨hvocab, hlink⟩, ?_, ?_, ?_, ?_, ?_⟩
    · show (b.db.grains.map GrainRow.seq).Nodup
      rw [hgrains]
      exact h.listed.seqs
    · show (b.db.grains.map GrainRow.hash).Nodup
      rw [hgrains]
      exact h.listed.hashes
    · show ∀ g ∈ b.db.grains, _
      rw [hgrains]
      exact h.listed.viewed
    · show b.db.corpusIdx.Nodup
      rw [hcorpus, hrows]
      exact hseqs.sublist (List.filter_sublist.map _)
    · intro seq
      show seq ∈ b.db.corpusIdx ↔ ∃ g ∈ b.db.grains, _
      rw [hcorpus, hrows, hgrains, List.mem_map]
      simp only [List.mem_filter, mem_grainsBySeq, decide_eq_true_eq]
      constructor
      · rintro ⟨g, ⟨hg, hexp⟩, hseq⟩
        exact ⟨g, hg, hseq, hexp⟩
      · rintro ⟨g, hg, hseq, hexp⟩
        exact ⟨g, ⟨hg, hexp⟩, hseq⟩

theorem op_leaves (h : st.Registers C) (op : Op G) : st.db.Leaves (st.step C op).db := by
  have hpath := steps_path h.toSound (meets_true (C := C) st [op])
  refine (hpath.keeps (I := fun b => b.db.rows.Listed C ∧ st.db.Leaves b.db) ?_ ?_
    ⟨h.listed, .refl _⟩).2
  · intro a b hidle hI
    have hlog : b.db.oplog = a.db.oplog := by rw [hidle.file]
    have hgrains : b.db.grains = a.db.grains := congrArg Rows.grains hidle.rows
    exact ⟨hidle.rows ▸ hI.1, hI.2.trans ((Tables.Retains.of_eq hgrains).leaves_same hlog)⟩
  · intro ev a b hev hcommit hI
    have hone : Path C (fun _ _ => True) a b := .commit trivial hcommit
    exact ⟨hone.listed hI.1, hI.2.trans (hcommit.leaves hI.1.seqs)⟩

theorem rebuild_leaves (h : st.Registers C) {b : DejaDB}
    (hb : st.registryStep C .rebuildLinks = b) : st.db.Leaves b.db := by
  refine (Tables.Retains.of_eq (rebuild_grains h hb)).leaves_same ?_
  rcases rebuild_cases h.decodes hb with hi | ⟨a, plan, hi, -, hdb, -⟩
  · rw [hi.file]
  · rw [hdb, show ({ a.db.relink plan with info := b.db.info } : Tables).oplog =
      (a.db.relink plan).oplog from rfl, (a.db.relink_rest plan).2.2, hi.file]

theorem createStore_registers (C : Core G) (explicit : Option DejaDbOptions) (clock : ℕ → ℤ) :
    (createStore C explicit clock).Registers C where
  toSound := (createStore_good C explicit clock).toSound
  listed := by
    rw [createStore_eq]
    refine ⟨?_, ?_, ?_, ?_, ?_⟩ <;> simp [Tables.rows, Tables.empty]

/-- **The index lists the exports** after every run, rebuilds included. -/
theorem RegistryReachable.registers (h : RegistryReachable C st) : st.Registers C := by
  obtain ⟨explicit, clock, ops, rfl⟩ := h
  have hrun : ∀ (ops : List (RegistryOp G)) (st : DejaDB), st.Registers C →
      (ops.foldl (fun st op => st.registryStep C op) st).Registers C := by
    intro ops
    induction ops with
    | nil => exact fun _ h => h
    | cons op ops ih =>
      intro st h
      rw [List.foldl_cons]
      refine ih _ ?_
      cases op with
      | op op => exact op_registers h op
      | rebuildLinks => exact rebuild_registers h rfl
  exact hrun ops _ (createStore_registers C explicit clock)

/-! ## Sorted lists -/

/-- A sorted list is not sorted again. -/
theorem sortDedup_idem (xs : List String) : sortDedup (sortDedup xs) = sortDedup xs := by
  have hsorted : (sortDedup xs).Pairwise (· ≤ ·) :=
    (List.pairwise_insertionSort (· ≤ ·) xs).sublist (List.destutter_sublist _ _)
  have hsame : (sortDedup xs).insertionSort (· ≤ ·) = sortDedup xs := hsorted.insertionSort_eq
  unfold sortDedup at hsame ⊢
  rw [hsame, List.destutter_idem]

instance : Std.Total registryLe where
  total a b := by
    unfold registryLe
    rcases lt_trichotomy a.exportedAtMs b.exportedAtMs with h | h | h
    · exact .inr (.inl h)
    · exact (le_total a.manifestHash b.manifestHash).imp (fun hle => .inr ⟨h, hle⟩)
        fun hle => .inr ⟨h.symm, hle⟩
    · exact .inl (.inl h)

instance : IsTrans CorpusExportRegistry registryLe where
  trans a b c hab hbc := by
    unfold registryLe at *
    rcases hab with hab | ⟨hab, hle⟩ <;> rcases hbc with hbc | ⟨hbc, hle'⟩
    · exact .inl (hbc.trans hab)
    · exact .inl (by rwa [← hbc])
    · exact .inl (by rwa [hab])
    · exact .inr ⟨hab.trans hbc, hle.trans hle'⟩

/-! ## What the registry is for -/

namespace CorpusExport

variable (S : Sha256) (C : Core DatedGrain) (e : CorpusExport)

/-- The store holds the manifest, at an address. -/
def Kept (st : DejaDB) (hash : Hash) : Prop :=
  ∃ g ∈ st.db.grains, g.hash = hash ∧ C.serializeGrain (e.manifest S) = .ok (g.blob, hash)

/-- What the registry is to say of an export. -/
def entry (hash : Hash) : CorpusExportRegistry where
  manifestHash := hash.toHex
  exportId := e.exportId S
  destination := e.destination
  recipient := e.recipient
  exportedAtMs := e.exportedAtMs.toInt
  subjectFingerprints := sortDedup e.subjectFingerprints
  sourceHashes := sortDedup e.sourceHashes

/-- What is to tell two exports apart. -/
def distinction : String × String × Option String × Int64 × List String :=
  (e.selector, e.destination, e.recipient, e.exportedAtMs, sortDedup e.sourceHashes)

/-- The selector, the destination and the recipient, run together. -/
def texts : Bytes :=
  utf8 e.selector ++ utf8 e.destination ++ (e.recipient.map utf8).getD []

/-- The sources, run together. -/
def sources : Bytes := (sortDedup e.sourceHashes).flatMap utf8

/-- The texts of `e'` are those of `e` and some more, which the time and the sources of
`e` begin with. -/
def RunsInto (e e' : CorpusExport) : Prop :=
  ∃ more, e'.texts = e.texts ++ more ∧
    toLeBytes e.exportedAtMs ++ e.sources = more ++ (toLeBytes e'.exportedAtMs ++ e'.sources)

variable {S : Sha256} {C : Core DatedGrain} {e : CorpusExport}

theorem strings_of_map (l : List String) : (l.map Json.str).filterMap Json.asStr = l := by
  rw [List.filterMap_map]
  exact List.filterMap_some

namespace Says

variable {view : DeserializedGrain}

theorem contextGet (h : e.Says S view) (k : String) :
    view.contextGet k = (e.contextFields S).lookup k := by
  rw [DeserializedGrain.contextGet, h.context]
  rfl

theorem sources (h : e.Says S view) : corpusSources view = sortDedup e.sourceHashes := by
  rw [corpusSources, h.relatedTo]
  by_cases hnone : e.sourceHashes = []
  · rw [if_pos hnone, sortDedup_eq_nil.2 hnone]
    rfl
  · rw [if_neg hnone]
    have hlinks : ∀ l : List String, ((l.map fun hash => Json.obj
        [("hash", .str hash), ("relation_type", .str "mg:corpus_source")]).filter fun link =>
          (link.get "relation_type").bind Json.asStr = some "mg:corpus_source").filterMap
            (fun link => (link.get "hash").bind Json.asStr) = l := by
      intro l
      induction l with
      | nil => rfl
      | cons hash l ih =>
        have hsource : ((Json.obj [("hash", .str hash),
            ("relation_type", .str "mg:corpus_source")]).get "relation_type").bind Json.asStr =
              some "mg:corpus_source" := rfl
        rw [List.map_cons, List.filter_cons, if_pos (decide_eq_true hsource),
          List.filterMap_cons, ih]
        rfl
    exact hlinks _

theorem registryEntry (h : e.Says S view) : registryEntry view = some (e.entry S view.hash) := by
  have htime : Json.asI64 (.int e.exportedAtMs.toInt) = some e.exportedAtMs.toInt :=
    if_pos ⟨e.exportedAtMs.le_toInt, e.exportedAtMs.toInt_lt⟩
  have hrecipient : ((e.recipient.map Json.str).getD .null).asStr = e.recipient := by
    cases e.recipient <;> rfl
  have hflag : (view.contextGet "corpus_export").bind Json.asBool = some true := by
    rw [h.contextGet]
    rfl
  have hdestination : (view.contextGet "destination").bind Json.asStr = some e.destination := by
    rw [h.contextGet]
    rfl
  have hto : (view.contextGet "recipient").bind Json.asStr = e.recipient := by
    rw [h.contextGet, ← hrecipient]
    rfl
  have hat : (view.contextGet "exported_at_ms").bind Json.asI64 = some e.exportedAtMs.toInt := by
    rw [h.contextGet, ← htime]
    rfl
  have hprints : jsonStrings (view.contextGet "subject_fingerprints") =
      sortDedup e.subjectFingerprints := by
    rw [h.contextGet]
    exact strings_of_map _
  rw [Deja.registryEntry, if_neg (not_not.2 hflag), h.subject, hdestination, hto, hat, hprints,
    h.sources, sortDedup_idem, sortDedup_idem]
  rfl

end Says

/-- Two exports have one id exactly when their fields run together alike. -/
theorem exportId_eq_iff (hS : Function.Injective S.short) {e e' : CorpusExport} :
    e.exportId S = e'.exportId S ↔ e.RunsInto e' ∨ e'.RunsInto e := by
  have hid : e.exportId S = e'.exportId S ↔ e.idMaterial = e'.idMaterial := by
    constructor
    · intro h
      have hchars := congrArg String.toList h
      simp only [exportId, String.toList_append, String.toList_ofList, List.append_cancel_left_eq]
        at hchars
      have hbytes := congrArg hexDecode hchars
      rw [hexDecode_hexEncode, hexDecode_hexEncode] at hbytes
      exact hS (Option.some.inj hbytes)
    · intro h
      rw [exportId, exportId, h]
  have hmaterial : ∀ e : CorpusExport,
      e.idMaterial = e.texts ++ (toLeBytes e.exportedAtMs ++ e.sources) := fun e => by
    rw [idMaterial, texts, sources, List.append_assoc _ (toLeBytes _)]
  rw [hid, hmaterial, hmaterial, List.append_eq_append_iff]
  exact or_congr (exists_congr fun more => Iff.rfl) (exists_congr fun more => Iff.rfl)

end CorpusExport

/-- What a store is to hold for its registry to be that of its exports: each observation
whose context says it is an export is the manifest of one, its texts in normal form. -/
def DejaDB.Genuine (S : Sha256) (nfc : String → String) (C : Core DatedGrain) (st : DejaDB) :
    Prop :=
  ∀ g ∈ st.db.grains, g.Exported C → ∃ e : CorpusExport, e.Normal nfc ∧
    C.serializeGrain (e.manifest S) = .ok (g.blob, g.hash)

/-! ## The registry is read of the grains -/

namespace Rows.Listed

theorem mem_corpusRows (h : st.db.rows.Listed C) {g : GrainRow} :
    g ∈ st.db.corpusRows ↔ g ∈ st.db.grains ∧ g.Exported C := by
  have hlisted : ∀ seq, seq ∈ st.db.corpusIdx ↔
      ∃ g ∈ st.db.grains, g.seq = seq ∧ g.Exported C := h.listed
  unfold Tables.corpusRows
  simp only [List.mem_filterMap, (List.perm_insertionSort _ _).mem_iff, hlisted,
    Tables.grainBySeq_iff h.seqs]
  constructor
  · rintro ⟨seq, ⟨g', hg', hseq', hexp⟩, hg, hseq⟩
    obtain rfl : g' = g := List.inj_on_of_nodup_map h.seqs hg' hg (hseq'.trans hseq.symm)
    exact ⟨hg, hexp⟩
  · rintro ⟨hg, hexp⟩
    exact ⟨g.seq, ⟨g, hg, rfl, hexp⟩, hg, rfl⟩

theorem nodup_corpusRows (h : st.db.rows.Listed C) : st.db.corpusRows.Nodup := by
  have hidx : (st.db.corpusIdx.insertionSort fun a b => b ≤ a).Nodup :=
    (List.perm_insertionSort _ _).nodup_iff.2 h.once
  refine hidx.filterMap fun a a' g ha ha' => ?_
  exact ((Tables.grainBySeq_iff h.seqs).1 ha).2.symm.trans ((Tables.grainBySeq_iff h.seqs).1 ha').2

end Rows.Listed

/-- The registry of the exports a store holds: later ones first, each once. -/
structure DejaDB.RegistryOk (S : Sha256) (nfc : String → String) (C : Core DatedGrain) (st : DejaDB)
    (xs : List CorpusExportRegistry) : Prop where
  ordered : xs.Pairwise registryLe
  once : (xs.map CorpusExportRegistry.manifestHash).Nodup
  mem : ∀ x, x ∈ xs ↔ ∃ (e : CorpusExport) (hash : Hash), e.Normal nfc ∧
    e.Kept S C st hash ∧ x = e.entry S hash

/-- What the registry takes of the codec: it is lawful, and its normalization is
idempotent and leaves ASCII alone. -/
structure Codec.Regular (K : Codec) : Prop where
  lawful : K.Lawful
  idem : ∀ s, K.nfc (K.nfc s) = K.nfc s
  ascii : FixesAscii K.nfc

section Registry

variable {S : Sha256} {K : Codec} {T : CharTables} {st' : DejaDB}

/-- A manifest is listed as what it was recorded with. -/
theorem CorpusExport.Normal.listed (hK : K.Regular) {e : CorpusExport} (h : e.Normal K.nfc)
    {g : GrainRow} (hser : (K.core T).serializeGrain (e.manifest S) = .ok (g.blob, g.hash)) :
    g.Exported (K.core T) ∧
      ∃ v, g.view (K.core T) = some v ∧ registryEntry v = some (e.entry S g.hash) := by
  obtain ⟨v, hv, hsaid⟩ := e.manifest_says hK.lawful hK.idem hK.ascii h hser
  have hview := GrainRow.view_eq_some.2 hv
  have hhash : v.hash = g.hash :=
    (Core.deserializeBlob_hash hv).trans (Core.serializeGrain_hash hser).symm
  have hflag : (v.contextGet "corpus_export").bind Json.asBool = some true := by
    rw [hsaid.contextGet]
    rfl
  refine ⟨⟨v, hview, decide_eq_true ⟨hsaid.grainType, hflag⟩⟩, v, hview, ?_⟩
  rw [hsaid.registryEntry, hhash]

/-- The entries of the listed grains, in the order of the grains. -/
theorem entries_manifestHash {rows : List GrainRow} {vs : List DeserializedGrain}
    (hforall : List.Forall₂ (fun g v => g.view C = some v) rows vs)
    (hentry : ∀ g ∈ rows, ∀ v, g.view C = some v →
      ∃ x, registryEntry v = some x ∧ x.manifestHash = g.hash.toHex) :
    (vs.filterMap registryEntry).map CorpusExportRegistry.manifestHash =
      rows.map fun g => g.hash.toHex := by
  induction hforall with
  | nil => rfl
  | @cons g v rows vs hv _ ih =>
    rw [List.forall_mem_cons] at hentry
    obtain ⟨x, hx, hmanifest⟩ := hentry.1 v hv
    rw [List.filterMap_cons_some hx, List.map_cons, List.map_cons, hmanifest, ih hentry.2]

/-- **The registry is that of the exports the store holds.** -/
theorem DejaDB.Registers.corpusExports_ok (hK : K.Regular) (h : st.Registers (K.core T))
    (hg : st.Genuine S K.nfc (K.core T)) :
    ∃ xs, st.corpusExports (K.core T) = .ok xs ∧ st.RegistryOk S K.nfc (K.core T) xs := by
  obtain ⟨vs, hvs, hforall⟩ := mapM_viewed (C := K.core T) st.db.corpusRows fun g hrow =>
    h.listed.viewed g (h.listed.mem_corpusRows.1 hrow).1
  -- a listed grain is the manifest of an export
  have hkey : ∀ g ∈ st.db.corpusRows, ∀ v, g.view (K.core T) = some v → ∃ e : CorpusExport,
      e.Normal K.nfc ∧ (K.core T).serializeGrain (e.manifest S) = .ok (g.blob, g.hash) ∧
        registryEntry v = some (e.entry S g.hash) := by
    intro g hrow v hv
    obtain ⟨hgrain, hexp⟩ := h.listed.mem_corpusRows.1 hrow
    obtain ⟨e, hread, hser⟩ := hg g hgrain hexp
    obtain ⟨-, v', hv', hentry⟩ := hread.listed hK hser
    rw [hv] at hv'
    cases hv'
    exact ⟨e, hread, hser, hentry⟩
  have hperm : ((vs.filterMap registryEntry).insertionSort registryLe).Perm
      (vs.filterMap registryEntry) := List.perm_insertionSort _ _
  refine ⟨(vs.filterMap registryEntry).insertionSort registryLe, ?_,
    ⟨List.pairwise_insertionSort _ _, ?_, ?_⟩⟩
  · rw [corpusExports, hvs]
    rfl
  · rw [(hperm.map _).nodup_iff, entries_manifestHash hforall fun g hrow v hv => by
      obtain ⟨e, -, -, hentry⟩ := hkey g hrow v hv
      exact ⟨_, hentry, rfl⟩]
    refine h.listed.nodup_corpusRows.map_on fun g hg g' hg' heq => ?_
    exact List.inj_on_of_nodup_map h.listed.hashes (h.listed.mem_corpusRows.1 hg).1
      (h.listed.mem_corpusRows.1 hg').1 (Hash.toHex_injective heq)
  · intro x
    rw [hperm.mem_iff, List.mem_filterMap]
    constructor
    · rintro ⟨v, hv, hx⟩
      obtain ⟨g, hrow, hview⟩ := forall₂_exists_left hforall v hv
      obtain ⟨e, hread, hser, hentry⟩ := hkey g hrow v hview
      rw [hx] at hentry
      exact ⟨e, g.hash, hread, ⟨g, (h.listed.mem_corpusRows.1 hrow).1, rfl, hser⟩,
        Option.some.inj hentry⟩
    · rintro ⟨e, _, hread, ⟨g, hgrain, rfl, hser⟩, rfl⟩
      obtain ⟨hexp, v, hv, hentry⟩ := hread.listed hK hser
      have hrow := h.listed.mem_corpusRows.2 ⟨hgrain, hexp⟩
      obtain ⟨v', hv', hview⟩ := forall₂_exists_right hforall g hrow
      rw [hv] at hview
      cases hview
      exact ⟨v, hv', hentry⟩

/-- There is one registry of the same exports. -/
theorem DejaDB.RegistryOk.unique {nfc : String → String} {C : Core DatedGrain}
    {xs ys : List CorpusExportRegistry}
    (hx : st.RegistryOk S nfc C xs) (hy : st'.RegistryOk S nfc C ys)
    (hsame : ∀ (e : CorpusExport) (hash : Hash), e.Normal nfc →
      (e.Kept S C st hash ↔ e.Kept S C st' hash)) : xs = ys := by
  have hmem : ∀ x, x ∈ xs ↔ x ∈ ys := by
    intro x
    rw [hx.mem, hy.mem]
    exact exists₂_congr fun e hash => and_congr_right fun hread => by rw [hsame e hash hread]
  have hperm : xs.Perm ys :=
    (List.perm_ext_iff_of_nodup (List.Nodup.of_map _ hx.once) (List.Nodup.of_map _ hy.once)).2 hmem
  refine hperm.eq_of_pairwise ?_ hx.ordered hy.ordered
  intro a b ha hb hab hba
  have hmanifest : a.manifestHash = b.manifestHash := by
    unfold registryLe at hab hba
    rcases hab with hab | ⟨htime, hab⟩ <;> rcases hba with hba | ⟨htime', hba⟩
    · exact absurd hab (not_lt.2 hba.le)
    · exact absurd htime' hab.ne
    · exact absurd htime hba.ne
    · exact le_antisymm hab hba
  exact List.inj_on_of_nodup_map hx.once ha ((hmem b).2 hb) hmanifest

/-- A filter of the registry by what the exports were recorded with. -/
theorem DejaDB.RegistryOk.mem_filter {nfc : String → String} {C : Core DatedGrain}
    {xs : List CorpusExportRegistry} (h : st.RegistryOk S nfc C xs)
    {p : CorpusExportRegistry → Bool} {P : CorpusExport → Prop}
    (hp : ∀ (e : CorpusExport) hash, p (e.entry S hash) = true ↔ P e) (x : CorpusExportRegistry) :
    x ∈ xs.filter p ↔ ∃ (e : CorpusExport) (hash : Hash), e.Normal nfc ∧
      e.Kept S C st hash ∧ P e ∧ x = e.entry S hash := by
  rw [List.mem_filter, h.mem]
  constructor
  · rintro ⟨⟨e, hash, hread, hkept, rfl⟩, hx⟩
    exact ⟨e, hash, hread, hkept, (hp e hash).1 hx, rfl⟩
  · rintro ⟨e, hash, hread, hkept, hP, rfl⟩
    exact ⟨⟨e, hash, hread, hkept, rfl⟩, (hp e hash).2 hP⟩

theorem Rows.Listed.grainByHash_iff (h : st.db.rows.Listed C) {hash : Hash} {g : GrainRow} :
    st.db.grainByHash hash = some g ↔ g ∈ st.db.grains ∧ g.hash = hash := by
  refine ⟨Tables.grainByHash_some, ?_⟩
  rintro ⟨hg, rfl⟩
  have hhas : st.db.hasGrain g.hash = true := Tables.hasGrain_iff.2 (List.mem_map_of_mem hg)
  rw [Tables.hasGrain_eq_isSome] at hhas
  obtain ⟨g', hfound⟩ := Option.isSome_iff_exists.1 hhas
  obtain ⟨hg', hhash⟩ := Tables.grainByHash_some hfound
  rw [hfound, List.inj_on_of_nodup_map h.hashes hg' hg hhash]

/-- Whether an export is kept is a matter of what is stored under its address. -/
theorem CorpusExport.kept_iff {C : Core DatedGrain} (h : st.db.rows.Listed C) {e : CorpusExport}
    {hash : Hash} : e.Kept S C st hash ↔
      ∃ blob, st.db.contents hash = some blob ∧
        C.serializeGrain (e.manifest S) = .ok (blob, hash) := by
  have hfind : ∀ g, st.db.grainByHash hash = some g ↔ g ∈ st.db.grains ∧ g.hash = hash :=
    fun g => h.grainByHash_iff
  constructor
  · rintro ⟨g, hg, hhash, hser⟩
    refine ⟨g.blob, ?_, hser⟩
    rw [Tables.contents, (hfind g).2 ⟨hg, hhash⟩]
    rfl
  · rintro ⟨blob, hblob, hser⟩
    obtain ⟨g, hg, rfl⟩ := Option.map_eq_some_iff.1 hblob
    obtain ⟨hmem, hhash⟩ := (hfind g).1 hg
    exact ⟨g, hmem, hhash, hser⟩

/-- A store that stores the same is as genuine. -/
theorem DejaDB.Genuine.of_contents {nfc : String → String} {C : Core DatedGrain}
    (h : st.db.rows.Listed C) (h' : st'.db.rows.Listed C) (hg : st.Genuine S nfc C)
    (hsame : st'.db.contents = st.db.contents) : st'.Genuine S nfc C := by
  intro g' hg' hexp
  have hcontents : st.db.contents g'.hash = some g'.blob := by
    rw [← hsame, Tables.contents, h'.grainByHash_iff.2 ⟨hg', rfl⟩]
    rfl
  obtain ⟨g, hfound, hblob⟩ := Option.map_eq_some_iff.1 hcontents
  obtain ⟨hg₁, hhash⟩ := h.grainByHash_iff.1 hfound
  have hexp' : g.Exported C := by
    obtain ⟨v, hv, hflag⟩ := hexp
    exact ⟨v, by rwa [GrainRow.view, hblob], hflag⟩
  obtain ⟨e, hnormal, hser⟩ := hg g hg₁ hexp'
  exact ⟨e, hnormal, by rwa [hblob, hhash] at hser⟩

/-! ## Recording and keeping -/

/-- A program that answers, its answer dropped. -/
theorem quiet_after {α : Type} {x : StoreM α} {a : α} (h : x st = .ok a st') :
    st.after (quiet x) = st' :=
  after_of_ok (bind_eq_ok.2 ⟨a, st', h, rfl⟩)

/-- An add of a grain stores its bytes under their address, where no other grain has it. -/
theorem add_stores {g : Grain G} {hash : Hash} (hsound : st.Sound)
    (hfree : ∀ row ∈ st.db.grains, row.hash = hash → C.serializeGrain g = .ok (row.blob, hash))
    (h : add C g st = .ok hash st') :
    ∃ row ∈ st'.db.grains, row.hash = hash ∧ C.serializeGrain g = .ok (row.blob, hash) := by
  have hstep : st.step C (.add g) = st' := quiet_after h
  cases hnew : st.has hash with
  | false =>
    obtain ⟨blob, pr, s, hser, hprep, hone, -⟩ := add_inserts hnew h
    obtain ⟨rfl, rfl, -⟩ := prepFromBlob_ok hsound.vocabOk hprep
    obtain ⟨hinserts, -⟩ := Tables.insertPreppedOne_ok hone
    refine ⟨pr.grainRow s.nextSeq, ?_, rfl, hser⟩
    rw [hinserts.grains]
    exact List.mem_append_right _ (List.mem_singleton_self _)
  | true =>
    obtain ⟨row, hrow, hhash⟩ := List.mem_map.1 (Tables.hasGrain_iff.1 hnew)
    have hretains : st.db.Retains (st.step C (.add g)).db := DejaDB.step_retains hsound trivial
    rw [hstep] at hretains
    obtain ⟨row', hrow', hhash', hblob⟩ := hretains row hrow
    exact ⟨row', hrow', hhash'.trans hhash, by rw [hblob, hfree row hrow hhash]⟩

/-- **A grain stays until it is erased**, over any operations and rebuilds. -/
theorem RegistryReachable.leaves (h : RegistryReachable C st) (ops : List (RegistryOp G)) :
    st.db.Leaves (ops.foldl (fun st op => st.registryStep C op) st).db := by
  have hrun : ∀ (ops : List (RegistryOp G)) (st : DejaDB), st.Registers C →
      st.db.Leaves (ops.foldl (fun st op => st.registryStep C op) st).db := by
    intro ops
    induction ops with
    | nil => exact fun st _ => .refl st.db
    | cons op ops ih =>
      intro st h
      rw [List.foldl_cons]
      cases op with
      | op op => exact (op_leaves h op).trans (ih _ (op_registers h op))
      | rebuildLinks => exact (rebuild_leaves h rfl).trans (ih _ (rebuild_registers h rfl))
  exact hrun ops st h.registers

/-- **The registry is exact** in every store whose exports are genuine, whatever was
written, imported, erased and rebuilt before.

* It lists the exports the store holds, each once and as it was recorded, and the queries
  by subject and by source filter it.
* A store that stores the same has the same registry; so has a new file a bundle of the
  store is imported into.
* A recorded export is held where no other grain has its address, and stays until a
  `FORGET` of its address is in the op-log.
* Two exports have different ids unless the one runs into the other. -/
theorem corpus_registry_exact (hS : Function.Injective S.short) (hK : K.Regular)
    (h : RegistryReachable (K.core T) st) (hg : st.Genuine S K.nfc (K.core T)) :
    (∃ xs, st.corpusExports (K.core T) = .ok xs ∧ st.RegistryOk S K.nfc (K.core T) xs) ∧
    (∀ fingerprint subject, ∃ xs,
      st.corpusExportsTouchingSubject fingerprint (K.core T) subject = .ok xs ∧
        ∀ x, x ∈ xs ↔ ∃ (e : CorpusExport) (hash : Hash), e.Normal K.nfc ∧
          e.Kept S (K.core T) st hash ∧ fingerprint subject ∈ e.subjectFingerprints ∧
            x = e.entry S hash) ∧
    (∀ hashes, ∃ xs, st.corpusExportsTouchingHashes (K.core T) hashes = .ok xs ∧
      ∀ x, x ∈ xs ↔ ∃ (e : CorpusExport) (hash : Hash), e.Normal K.nfc ∧
        e.Kept S (K.core T) st hash ∧ (∃ source ∈ e.sourceHashes, source ∈ hashes) ∧
          x = e.entry S hash) ∧
    (∀ st', RegistryReachable (K.core T) st' → st'.db.contents = st.db.contents →
      st'.corpusExports (K.core T) = st.corpusExports (K.core T)) ∧
    (∀ explicit clock stats replica, Reachable (K.core T) st → st.BundleFits 0 →
      importBundleUntil (K.core T) (st.bundleSince 0) none
        (createStore (K.core T) explicit clock) = .ok stats replica →
          replica.corpusExports (K.core T) = st.corpusExports (K.core T)) ∧
    (∀ (e : CorpusExport) (hash : Hash) (st' : DejaDB),
      (∀ row ∈ st.db.grains, row.hash = hash →
        (K.core T).serializeGrain (e.manifest S) = .ok (row.blob, hash)) →
      e.record S (K.core T) st = .ok hash st' → e.Kept S (K.core T) st' hash) ∧
    (∀ (e : CorpusExport) (hash : Hash) (ops : List (RegistryOp DatedGrain)),
      e.Kept S (K.core T) st hash →
      e.Kept S (K.core T) (ops.foldl (fun st op => st.registryStep (K.core T) op) st) hash ∨
        ∃ new, (ops.foldl (fun st op => st.registryStep (K.core T) op) st).db.oplog =
          st.db.oplog ++ new ∧ ∃ r ∈ new, r.hash = hash ∧ r.op = .forget) ∧
    ∀ e e' : CorpusExport, (e.distinction ≠ e'.distinction → e.exportId S ≠ e'.exportId S) ↔
      (e.distinction ≠ e'.distinction → ¬(e.RunsInto e' ∨ e'.RunsInto e)) := by
  have hreg := h.registers
  obtain ⟨xs, hxs, hok⟩ := hreg.corpusExports_ok hK hg
  have hsameRegistry : ∀ st', RegistryReachable (K.core T) st' →
      st'.db.contents = st.db.contents →
        st'.corpusExports (K.core T) = st.corpusExports (K.core T) := by
    intro st' h' hsame
    have hreg' := h'.registers
    obtain ⟨ys, hys, hok'⟩ := hreg'.corpusExports_ok hK (hg.of_contents hreg.listed hreg'.listed
      hsame)
    rw [hxs, hys, hok.unique hok' fun e hash _ => ?_]
    rw [CorpusExport.kept_iff hreg.listed, CorpusExport.kept_iff hreg'.listed, hsame]
  refine ⟨⟨xs, hxs, hok⟩, ?_, ?_, hsameRegistry, ?_, ?_, ?_, ?_⟩
  · intro fingerprint subject
    refine ⟨_, by rw [DejaDB.corpusExportsTouchingSubject, hxs]; rfl, hok.mem_filter ?_⟩
    intro e hash
    rw [decide_eq_true_eq]
    exact CorpusExport.mem_sortDedup
  · intro hashes
    refine ⟨_, by rw [DejaDB.corpusExportsTouchingHashes, hxs]; rfl, hok.mem_filter ?_⟩
    intro e hash
    simp only [List.any_eq_true, decide_eq_true_eq]
    exact exists_congr fun source => and_congr_left fun _ => CorpusExport.mem_sortDedup
  · intro explicit clock stats replica hsource hfits himport
    have hreplica : (createStore (K.core T) explicit clock).step (K.core T)
        (.importBundle (st.bundleSince 0) none) = replica := quiet_after himport
    refine hsameRegistry replica ⟨explicit, clock, [.op (.importBundle (st.bundleSince 0) none)],
      hreplica.symm⟩ (funext fun hash => ?_)
    rw [restored_contents hsource hfits none explicit clock himport]
    split_ifs with hlast
    · rfl
    · have hgone : ¬st.db.hasGrain hash = true := fun hhas => by
        obtain ⟨r, hr, hop⟩ := (hasGrain_iff_lastOp hsource hash).1 hhas
        have hall : ∀ r : OpRow, (r.hash = hash ∧ r.Until none = true) ↔ r.hash = hash :=
          fun r => and_iff_left rfl
        refine hlast ?_
        simp only [hall, hr, Option.any_some, decide_eq_true hop]
      rw [← Tables.contents_isSome, Option.not_isSome_iff_eq_none] at hgone
      exact hgone.symm
  · intro e hash st' hfree hrecord
    exact add_stores hreg.toSound hfree hrecord
  · intro e hash ops hkept
    obtain ⟨g, hgrain, rfl, hser⟩ := hkept
    obtain ⟨new, hlog, hstays⟩ := h.leaves ops
    rcases hstays g hgrain with ⟨g', hg', hhash, hblob⟩ | hforget
    · exact .inl ⟨g', hg', hhash, by rw [hblob, hser]⟩
    · exact .inr ⟨new, hlog, hforget⟩
  · intro e e'
    rw [ne_eq (e.exportId S), CorpusExport.exportId_eq_iff hS]

end Registry

/-! ## Two exports -/

mutual

/-- Whether two values are the same. -/
def Value.same : Value → Value → Bool
  | .nil, .nil => true
  | .boolean b, .boolean b' => b = b'
  | .integer i, .integer i' => i = i'
  | .f32 b, .f32 b' => b = b'
  | .f64 b, .f64 b' => b = b'
  | .string s, .string s' => s = s'
  | .invalid r, .invalid r' => r = r'
  | .binary b, .binary b' => b = b'
  | .array xs, .array xs' => Value.sameAll xs xs'
  | .map ps, .map ps' => Value.samePairs ps ps'
  | .ext t d, .ext t' d' => t = t' ∧ d = d'
  | _, _ => false

/-- Whether two lists of values are the same. -/
def Value.sameAll : List Value → List Value → Bool
  | [], [] => true
  | x :: xs, x' :: xs' => x.same x' && Value.sameAll xs xs'
  | _, _ => false

/-- Whether two lists of entries are the same. -/
def Value.samePairs : List (Value × Value) → List (Value × Value) → Bool
  | [], [] => true
  | (k, v) :: ps, (k', v') :: ps' => k.same k' && v.same v' && Value.samePairs ps ps'
  | _, _ => false

end

mutual

theorem Value.eq_of_same : ∀ v w : Value, v.same w = true → v = w := by
  intro v w h
  cases v <;> cases w <;> simp only [Value.same, Bool.false_eq_true, decide_eq_true_eq] at h
  case array xs xs' => rw [Value.eq_of_sameAll xs xs' h]
  case map ps ps' => rw [Value.eq_of_samePairs ps ps' h]
  all_goals first | rfl | simp_all

theorem Value.eq_of_sameAll : ∀ xs xs' : List Value, Value.sameAll xs xs' = true → xs = xs'
  | [], [], _ => rfl
  | x :: xs, x' :: xs', h => by
    rw [Value.sameAll, Bool.and_eq_true] at h
    rw [Value.eq_of_same x x' h.1, Value.eq_of_sameAll xs xs' h.2]

theorem Value.eq_of_samePairs : ∀ ps ps' : List (Value × Value),
    Value.samePairs ps ps' = true → ps = ps'
  | [], [], _ => rfl
  | (k, v) :: ps, (k', v') :: ps', h => by
    rw [Value.samePairs, Bool.and_eq_true, Bool.and_eq_true] at h
    rw [Value.eq_of_same k k' h.1.1, Value.eq_of_same v v' h.1.2, Value.eq_of_samePairs ps ps' h.2]

end

/-- Digests that keep all of what they are given. -/
def plainSha : Sha256 := ⟨id, id⟩

/-- An export of two sources about one person, and one of a source, to somebody. -/
def weekly : CorpusExport := ⟨"RECALL events", "s3://out", none, 5, ["f1"], ["h2", "h1"]⟩

def monthly : CorpusExport := ⟨"RECALL facts", "s3://out", some "acme", 7, ["f1", "f2"], ["h3"]⟩

/-- The payload of an export on the wire. -/
def wireOf (e : CorpusExport) : Value :=
  btreeToMsgpackMap ((e.observation plainSha).wireMap id e.exportedAtMs)

/-- A codec that knows the two manifests, and writes a byte for each. -/
def exportCodec : Codec where
  readValue b :=
    if b = [1] then .ok (wireOf weekly, []) else if b = [2] then .ok (wireOf monthly, [])
    else .error (.serialization "msgpack decode error")
  writeValue v :=
    if v.same (wireOf weekly) then .ok [1] else if v.same (wireOf monthly) then .ok [2]
    else .error (.serialization "msgpack encode error")
  nfc := id
  sha256 b := Hash.ofByte (b.getLastD 0)

theorem exportCodec_regular : exportCodec.Regular where
  lawful := by
    intro v payload hwrite _
    simp only [exportCodec] at hwrite ⊢
    split_ifs at hwrite with hweekly hmonthly
    · cases hwrite
      rw [if_pos rfl, Value.eq_of_same _ _ hweekly]
    · cases hwrite
      rw [if_neg (by decide), if_pos rfl, Value.eq_of_same _ _ hmonthly]
  idem _ := rfl
  ascii _ _ := rfl

/-- The character tables of ASCII. -/
def asciiTables : CharTables := ⟨Char.isAlphanum, Char.isWhitespace, List.map Char.toLower⟩

/-- The codec of the two manifests, in its place. -/
def exportCore : Core DatedGrain := exportCodec.core asciiTables

/-- A file with both exports recorded, the first twice, and its link indexes rebuilt. -/
def exportStore : DejaDB :=
  [RegistryOp.op (.add (weekly.manifest plainSha)), .op (.add (monthly.manifest plainSha)),
    .rebuildLinks, .op (.add (weekly.manifest plainSha))].foldl
      (fun st op => st.registryStep exportCore op) (createStore exportCore none fun _ => 9)

theorem exportStore_reachable : RegistryReachable exportCore exportStore :=
  ⟨none, fun _ => 9, _, rfl⟩

theorem exportStore_genuine : exportStore.Genuine plainSha exportCodec.nfc exportCore := by
  intro g hg _
  have hgrains : ∀ g ∈ exportStore.db.grains, ∃ e ∈ [weekly, monthly],
      (exportCore.serializeGrain (e.manifest plainSha)).toOption = some (g.blob, g.hash) := by
    decide +kernel
  obtain ⟨e, -, hser⟩ := hgrains g hg
  refine ⟨e, ⟨rfl, fun _ _ => rfl, fun _ _ => rfl, fun _ _ => rfl⟩, ?_⟩
  cases h : exportCore.serializeGrain (e.manifest plainSha) with
  | error err =>
    rw [h] at hser
    cases hser
  | ok x =>
    rw [h] at hser
    exact congrArg Except.ok (Option.some.inj hser)

/-- The registry is the two exports, the later one first. -/
theorem corpus_registry_weekly :
    (exportStore.corpusExports exportCore).toOption = some
        [monthly.entry plainSha (Hash.ofByte 2), weekly.entry plainSha (Hash.ofByte 1)] ∧
      ∃ xs, exportStore.corpusExports exportCore = .ok xs ∧
        exportStore.RegistryOk plainSha exportCodec.nfc exportCore xs :=
  ⟨by decide +kernel,
    (corpus_registry_exact Function.injective_id exportCodec_regular exportStore_reachable
      exportStore_genuine).1⟩

/-- **Two exports with one id**: a letter moved from the selector to the destination. -/
theorem export_ids_collide : ¬ ∀ S : Sha256, Function.Injective S.short →
    ∀ e e' : CorpusExport, e.distinction ≠ e'.distinction → e.exportId S ≠ e'.exportId S := by
  intro h
  have hdiffer := h plainSha Function.injective_id ⟨"ab", "c", none, 0, [], []⟩
    ⟨"a", "bc", none, 0, [], []⟩ (by decide)
  exact hdiffer (by decide +kernel)

end Deja
