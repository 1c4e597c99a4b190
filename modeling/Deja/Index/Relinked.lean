import Deja.Index.Reopened
import Deja.Lib.Replay

/-!
# What a rebuild of the link indexes changes

`rebuild_link_indexes` clears `prov_idx`, `run_idx` and `corpus_idx` and writes
them anew, and replays every link into `triples` and `osp`: the rows with the
link's values go, one current row comes.

The three narrow indexes always come back as they were.  The two triple tables
do exactly when every link of a stored grain has one row in each already, and
its grain is not superseded: the replay writes `cur = 1` whatever became of the
grain, writes one row for a link listed twice, and writes under the address of
the blob where the grain may be filed under another.
-/

namespace Deja

open Run

variable {G : Type} {C : Core G} {st : DejaDB}

/-! ## Replayed edges -/

/-- The values a replayed link is found by: namespace, sequence number, own
address, relation and target. -/
abbrev EdgeKey := ℤ × ℤ × ℤ × ℤ × ℤ

/-- The values of a row of `triples`. -/
def TripleRow.edge (r : TripleRow) : EdgeKey := (r.ns, r.seq, r.s, r.p, r.o)

/-- The values of a row of `osp`. -/
def OspRow.edge (r : OspRow) : EdgeKey := (r.ns, r.seq, r.s, r.p, r.o)

/-- The current row of `triples` with the given values. -/
def EdgeKey.tripleRow (k : EdgeKey) : TripleRow :=
  ⟨k.1, k.2.2.1, k.2.2.2.1, k.2.2.2.2, k.2.1, true⟩

/-- The current row of `osp` with the given values. -/
def EdgeKey.ospRow (k : EdgeKey) : OspRow :=
  ⟨k.1, k.2.2.2.2, k.2.2.1, k.2.2.2.1, k.2.1, true⟩

@[simp] theorem EdgeKey.tripleRow_edge (k : EdgeKey) : k.tripleRow.edge = k := rfl

@[simp] theorem EdgeKey.ospRow_edge (k : EdgeKey) : k.ospRow.edge = k := rfl

/-- A current row is the row of its values. -/
theorem TripleRow.eq_of_edge {r : TripleRow} {k : EdgeKey} (hk : r.edge = k) (hcur : r.cur = true) :
    r = k.tripleRow := by
  subst hk
  cases r
  cases hcur
  rfl

theorem OspRow.eq_of_edge {r : OspRow} {k : EdgeKey} (hk : r.edge = k) (hcur : r.cur = true) :
    r = k.ospRow := by
  subst hk
  cases r
  cases hcur
  rfl

namespace LinkPlan

/-- The values of the links of a plan row. -/
def edges (r : LinkPlan) : List EdgeKey := r.links.map fun l => (r.ns, r.seq, l)

/-- The `prov_idx` row of a plan row. -/
def provRows (r : LinkPlan) : List ProvRow := (r.parent.map fun h => ⟨r.ns, h, r.seq⟩).toList

/-- The `run_idx` row of a plan row. -/
def runRows (r : LinkPlan) : List RunRow := (r.run.map fun x => ⟨r.ns, x, r.seq⟩).toList

/-- The `corpus_idx` row of a plan row. -/
def corpusRows (r : LinkPlan) : List ℤ := if r.corpusExport then [r.seq] else []

end LinkPlan

namespace Tables

variable (t : Tables)

theorem replayLink_triples (ns seq : ℤ) (l : ℤ × ℤ × ℤ) : (t.replayLink ns seq l).triples =
    Replay.one TripleRow.edge EdgeKey.tripleRow t.triples (ns, seq, l) := by
  obtain ⟨s, p, o⟩ := l
  refine congrArg (· ++ [(⟨ns, s, p, o, seq, true⟩ : TripleRow)]) (List.filter_congr fun r _ => ?_)
  simp only [TripleRow.edge, ne_eq, Prod.mk.injEq, decide_eq_decide]
  tauto

theorem replayLink_osp (ns seq : ℤ) (l : ℤ × ℤ × ℤ) : (t.replayLink ns seq l).osp =
    Replay.one OspRow.edge EdgeKey.ospRow t.osp (ns, seq, l) := by
  obtain ⟨s, p, o⟩ := l
  refine congrArg (· ++ [(⟨ns, o, s, p, seq, true⟩ : OspRow)]) (List.filter_congr fun r _ => ?_)
  simp only [OspRow.edge, ne_eq, Prod.mk.injEq, decide_eq_decide]
  tauto

/-- Replaying links writes the two triple tables only. -/
structure Replayed (ks : List EdgeKey) (t t' : Tables) : Prop where
  triples : t'.triples = Replay.all TripleRow.edge EdgeKey.tripleRow t.triples ks
  osp : t'.osp = Replay.all OspRow.edge EdgeKey.ospRow t.osp ks
  rest : t' = { t with triples := t'.triples, osp := t'.osp }

theorem replayLinks (ns seq : ℤ) (links : List (ℤ × ℤ × ℤ)) :
    Replayed (links.map fun l => (ns, seq, l)) t
      (links.foldl (fun t l => t.replayLink ns seq l) t) := by
  induction links generalizing t with
  | nil => exact ⟨rfl, rfl, rfl⟩
  | cons l links ih =>
    obtain ⟨htriples, hosp, hrest⟩ := ih (t.replayLink ns seq l)
    refine ⟨?_, ?_, ?_⟩
    · rw [List.foldl_cons, htriples, replayLink_triples]
      rfl
    · rw [List.foldl_cons, hosp, replayLink_osp]
      rfl
    · rw [List.foldl_cons, hrest]
      rfl

/-- What writing a plan does to the link tables. -/
structure Planned (plan : List LinkPlan) (t t' : Tables) : Prop where
  triples : t'.triples =
    Replay.all TripleRow.edge EdgeKey.tripleRow t.triples (plan.flatMap LinkPlan.edges)
  osp : t'.osp = Replay.all OspRow.edge EdgeKey.ospRow t.osp (plan.flatMap LinkPlan.edges)
  provIdx : t'.provIdx = t.provIdx ++ plan.flatMap LinkPlan.provRows
  runIdx : t'.runIdx = t.runIdx ++ plan.flatMap LinkPlan.runRows
  corpusIdx : t'.corpusIdx = t.corpusIdx ++ plan.flatMap LinkPlan.corpusRows

theorem applyPlan_planned (r : LinkPlan) : Planned [r] t (t.applyPlan r) := by
  have h := replayLinks { t with
    runIdx := t.runIdx ++ r.runRows
    provIdx := t.provIdx ++ r.provRows
    corpusIdx := t.corpusIdx ++ r.corpusRows } r.ns r.seq r.links
  refine ⟨?_, ?_, ?_, ?_, ?_⟩
  · rw [List.flatMap_singleton]
    exact h.triples
  · rw [List.flatMap_singleton]
    exact h.osp
  · rw [List.flatMap_singleton]
    exact congrArg Tables.provIdx h.rest
  · rw [List.flatMap_singleton]
    exact congrArg Tables.runIdx h.rest
  · rw [List.flatMap_singleton]
    exact congrArg Tables.corpusIdx h.rest

theorem foldl_planned (plan : List LinkPlan) : Planned plan t (plan.foldl applyPlan t) := by
  induction plan generalizing t with
  | nil => exact ⟨rfl, rfl, by simp, by simp, by simp⟩
  | cons r plan ih =>
    have hone := t.applyPlan_planned r
    have hrest := ih (t.applyPlan r)
    rw [List.foldl_cons]
    refine ⟨?_, ?_, ?_, ?_, ?_⟩
    · rw [hrest.triples, hone.triples, ← Replay.all_append, List.flatMap_singleton,
        List.flatMap_cons]
    · rw [hrest.osp, hone.osp, ← Replay.all_append, List.flatMap_singleton, List.flatMap_cons]
    · rw [hrest.provIdx, hone.provIdx, List.flatMap_singleton, List.flatMap_cons,
        List.append_assoc]
    · rw [hrest.runIdx, hone.runIdx, List.flatMap_singleton, List.flatMap_cons, List.append_assoc]
    · rw [hrest.corpusIdx, hone.corpusIdx, List.flatMap_singleton, List.flatMap_cons,
        List.append_assoc]

/-- A rebuild starts from the cleared narrow indexes. -/
theorem relink_planned (plan : List LinkPlan) :
    Planned plan { t with provIdx := [], runIdx := [], corpusIdx := [] } (t.relink plan) :=
  foldl_planned _ plan

end Tables

/-! ## The plan of a grain -/

/-- `r` is the plan row of the grain `g` whose blob reads as `view`, under the
dictionary of `st`. -/
structure PlanOf (st : DejaDB) (view : DeserializedGrain) (g : GrainRow) (r : LinkPlan) : Prop where
  seq : r.seq = g.seq
  ns : r.ns = g.ns
  run : r.run = (view.getStr "run_id").bind st.termLookup
  parent : r.parent = (extractView view 0).parentHash
  corpusExport : r.corpusExport = (extractView view 0).corpusExport
  links : r.links = st.lookupLinks view.hash (relatedTo view)

/-- What the warm pass leaves of one grain: its run and its links have ids. -/
def DejaDB.Warm (st : DejaDB) (view : DeserializedGrain) : Prop :=
  (∃ run, st.EncodesOpt (view.getStr "run_id") run) ∧
    ∃ ids, st.EncodesLinks view.hash (relatedTo view) ids

theorem DejaDB.Warm.mono {a b : DejaDB} (hd : a.Resolves b) {view : DeserializedGrain}
    (h : a.Warm view) : b.Warm view := by
  obtain ⟨⟨run, hrun⟩, ids, hids⟩ := h
  exact ⟨⟨run, hrun.mono hd⟩, ids, hids.mono hd⟩

/-- A view is read off a blob that decodes; only the clock may move. -/
theorem viewOf_total {blob : Bytes} {view : DeserializedGrain}
    (h : C.deserializeBlob blob = .ok view) (st : DejaDB) :
    ∃ c n, viewOf C blob st = .ok (view, extractView view c) { st with tick := n } := by
  unfold viewOf
  cases hc : view.getI64 "created_at" with
  | some c =>
    refine ⟨c, st.tick, ?_⟩
    simp only [h, lift, bind_apply, pure_apply, createdAtOf, hc]
  | none =>
    refine ⟨st.clock st.tick, st.tick + 1, ?_⟩
    simp only [h, lift, bind_apply, pure_apply, createdAtOf, hc, nowMs]

theorem leads_viewOf (blob : Bytes) : Leads Interns (viewOf C blob) :=
  leads_bind (leads_lift _) fun view => leads_bind (leads_createdAtOf view) fun _ => leads_pure _

theorem planRow_total {g : GrainRow} {view : DeserializedGrain}
    (h : C.deserializeBlob g.blob = .ok view) (st : DejaDB) :
    ∃ r n, planRow C g st = .ok r { st with tick := n } ∧ PlanOf st view g r := by
  obtain ⟨c, n, hview⟩ := viewOf_total h st
  refine ⟨⟨g.seq, g.ns, (view.getStr "run_id").bind st.termLookup, (extractView view 0).parentHash,
    (extractView view 0).corpusExport, st.lookupLinks view.hash (relatedTo view)⟩, n, ?_,
    ⟨rfl, rfl, rfl, rfl, rfl, rfl⟩⟩
  rw [planRow, bind_apply, hview]
  rfl

/-- Every grain decodes, so the plan is drawn up, one row a grain. -/
theorem plan_total {grains : List GrainRow} (h : ∀ g ∈ grains, ∃ view,
    C.deserializeBlob g.blob = .ok view) (st : DejaDB) :
    ∃ plan n, grains.mapM (planRow C) st = .ok plan { st with tick := n } ∧
      List.Forall₂ (fun g r => ∃ view, C.deserializeBlob g.blob = .ok view ∧ PlanOf st view g r)
        grains plan := by
  induction grains generalizing st with
  | nil => exact ⟨[], st.tick, rfl, .nil⟩
  | cons g grains ih =>
    rw [List.forall_mem_cons] at h
    obtain ⟨view, hview⟩ := h.1
    obtain ⟨r, n, hr, hof⟩ := planRow_total hview st
    obtain ⟨plan, m, hplan, hrest⟩ := ih h.2 { st with tick := n }
    refine ⟨r :: plan, m, ?_, .cons ⟨view, hview, hof⟩ ?_⟩
    · rw [List.mapM_cons, bind_apply, hr]
      simp only [bind_apply, hplan, pure_apply]
    · refine hrest.imp fun g r h => ?_
      obtain ⟨view, hview, hof⟩ := h
      exact ⟨view, hview, hof.seq, hof.ns, hof.run, hof.parent, hof.corpusExport, hof.links⟩

/-! ## The warm pass -/

/-- Warming one grain. -/
def warmGrain (C : Core G) (g : GrainRow) : StoreM Unit := do
  let (view, gv) ← viewOf C g.blob
  let _ ← termIdOpt gv.run
  let _ ← encodeLinks view.hash gv.links

theorem warmLinks_eq (grains : List GrainRow) : warmLinks C grains = grains.forM (warmGrain C) :=
  rfl

theorem leads_warmGrain (g : GrainRow) : Leads Interns (warmGrain C g) :=
  leads_bind (leads_viewOf _) fun _ => leads_bind (leads_termIdOpt _) fun _ =>
    leads_bind (leads_encodeLinks _ _) fun _ => leads_pure _

theorem leads_warmLinks (grains : List GrainRow) : Leads Interns (warmLinks C grains) := by
  rw [warmLinks_eq]
  exact leads_forM leads_warmGrain grains

theorem warmGrain_ok {g : GrainRow} {view : DeserializedGrain} {a b : DejaDB}
    (hview : C.deserializeBlob g.blob = .ok view) (h : warmGrain C g a = .ok () b) :
    b.Warm view := by
  obtain ⟨c, n, hv⟩ := viewOf_total hview a
  obtain ⟨x, s₁, h₁, h⟩ := bind_eq_ok.1 h
  rw [hv] at h₁
  cases h₁
  obtain ⟨run, s₂, hrun, h⟩ := bind_eq_ok.1 h
  obtain ⟨ids, s₃, hids, h⟩ := bind_eq_ok.1 h
  obtain ⟨-, rfl⟩ := pure_eq_ok.1 h
  have hi := (leads_encodeLinks _ _).of_ok hids
  exact ⟨⟨run, (termIdOpt_ok hrun).mono hi.dict⟩, ids, encodeLinks_ok hids⟩

/-- After the warm pass every run and every link has its ids. -/
theorem warmLinks_ok {grains : List GrainRow} {a b : DejaDB}
    (h : warmLinks C grains a = .ok () b) {g : GrainRow} (hg : g ∈ grains)
    {view : DeserializedGrain} (hview : C.deserializeBlob g.blob = .ok view) : b.Warm view := by
  rw [warmLinks_eq] at h
  induction grains generalizing a with
  | nil => cases hg
  | cons x grains ih =>
    obtain ⟨⟨⟩, s, hx, hrest⟩ := bind_eq_ok.1 h
    rcases List.mem_cons.1 hg with rfl | hg
    · exact (warmGrain_ok hview hx).mono ((leads_forM leads_warmGrain grains).of_ok hrest).dict
    · exact ih hrest hg

/-- A term with an id is answered without a write. -/
theorem termId_known {x : String} {id : ℤ} (h : st.dict.lookup x = some id) :
    termId x st = .ok id st := by
  unfold termId
  rw [h]

theorem termIdOpt_known {x : Option String} {id : Option ℤ} (h : st.EncodesOpt x id) :
    termIdOpt x st = .ok id st := by
  cases x with
  | none =>
    cases id with
    | none => rfl
    | some i => exact h.elim
  | some x =>
    cases id with
    | none => exact h.elim
    | some i =>
      rw [termIdOpt, bind_apply, termId_known h]
      rfl

theorem encodeLink_known {hash : Hash} {links : List (String × String)}
    {ids : List (ℤ × ℤ × ℤ)} {self : ℤ} (hself : st.dict.lookup hash.toHex = some self)
    (h : st.EncodesLinks hash links ids) :
    links.mapM (fun l => termId l.1 >>= fun rel => termId l.2 >>= fun target =>
      pure (self, rel, target)) st = .ok ids st := by
  induction h with
  | nil => rfl
  | @cons l y links ids hl _ ih =>
    have hy : y.1 = self := Option.some.inj (hl.1.symm.trans hself)
    have hone : (termId l.1 >>= fun rel => termId l.2 >>= fun target =>
        (pure (self, rel, target) : StoreM (ℤ × ℤ × ℤ))) st = .ok y st := by
      rw [bind_apply, termId_known hl.2.1]
      simp only
      rw [bind_apply, termId_known hl.2.2, ← hy]
      rfl
    rw [List.mapM_cons, bind_apply, hone]
    simp only
    rw [bind_apply, ih]
    rfl

theorem encodeLinks_known {hash : Hash} {links : List (String × String)} {ids : List (ℤ × ℤ × ℤ)}
    (h : st.EncodesLinks hash links ids) : encodeLinks hash links st = .ok ids st := by
  cases links with
  | nil =>
    cases h
    rfl
  | cons l links =>
    have hall := h
    cases h with
    | @cons _ y _ ids hl _ =>
      unfold encodeLinks
      rw [if_neg (by simp), bind_apply, termId_known hl.1]
      exact encodeLink_known hl.1 hall

theorem warmGrain_known {g : GrainRow} {view : DeserializedGrain}
    (hview : C.deserializeBlob g.blob = .ok view) (h : st.Warm view) :
    ∃ n, warmGrain C g st = .ok () { st with tick := n } := by
  obtain ⟨⟨run, hrun⟩, ids, hids⟩ := h
  obtain ⟨c, n, hv⟩ := viewOf_total hview st
  refine ⟨n, ?_⟩
  have hrun' : termIdOpt (view.getStr "run_id") { st with tick := n } =
      .ok run { st with tick := n } := termIdOpt_known hrun
  have hids' : encodeLinks view.hash (relatedTo view) { st with tick := n } =
      .ok ids { st with tick := n } := encodeLinks_known hids
  rw [warmGrain, bind_apply, hv]
  show (termIdOpt (view.getStr "run_id") >>= fun _ => encodeLinks view.hash (relatedTo view) >>=
    fun _ => pure ()) { st with tick := n } = _
  rw [bind_apply, hrun']
  simp only
  rw [bind_apply, hids']
  rfl

/-- With every id there the warm pass writes nothing. -/
theorem warmLinks_known {grains : List GrainRow} (h : ∀ g ∈ grains, ∃ view,
    C.deserializeBlob g.blob = .ok view ∧ st.Warm view) :
    ∃ n, warmLinks C grains st = .ok () { st with tick := n } := by
  rw [warmLinks_eq]
  induction grains generalizing st with
  | nil => exact ⟨st.tick, rfl⟩
  | cons g grains ih =>
    rw [List.forall_mem_cons] at h
    obtain ⟨view, hview, hwarm⟩ := h.1
    obtain ⟨n, hn⟩ := warmGrain_known hview hwarm
    obtain ⟨m, hm⟩ := @ih { st with tick := n } h.2
    refine ⟨m, ?_⟩
    show (warmGrain C g >>= fun _ => grains.forM (warmGrain C)) st = _
    rw [bind_apply, hn]
    exact hm

/-! ## Rebuilding -/

/-- The five link tables hold the same rows, as multisets. -/
structure Tables.SameLinks (t t' : Tables) : Prop where
  provIdx : t'.provIdx.Perm t.provIdx
  runIdx : t'.runIdx.Perm t.runIdx
  corpusIdx : t'.corpusIdx.Perm t.corpusIdx
  triples : t'.triples.Perm t.triples
  osp : t'.osp.Perm t.osp

/-- The plan a rebuild writes: one row a grain, in `seq` order, under the
dictionary of `a`. -/
def PlanFor (C : Core G) (a : DejaDB) : List GrainRow → List LinkPlan → Prop :=
  List.Forall₂ fun g r => ∃ view, C.deserializeBlob g.blob = .ok view ∧ PlanOf a view g r

theorem mem_grainsBySeq {t : Tables} {g : GrainRow} : g ∈ t.grainsBySeq ↔ g ∈ t.grains :=
  (List.perm_insertionSort _ _).mem_iff

/-- A rebuild whose warm pass returned, returns. -/
theorem rebuild_of_warm {a : DejaDB} (hwarm : warmLinks C st.db.grainsBySeq st = .ok () a)
    (hdecodes : ∀ g ∈ st.db.grains, ∃ view, C.deserializeBlob g.blob = .ok view) :
    ∃ plan n st', rebuildLinkIndexes C st = .ok n st' ∧ PlanFor C a st.db.grainsBySeq plan ∧
      st'.db = { a.db.relink plan with info := st'.db.info } ∧
      st' = { a with db := st'.db, tick := st'.tick } ∧
      st'.db.info.linkIndex = some linkIndexVersion := by
  have hi := (leads_warmLinks _).of_ok hwarm
  have hgrains : a.db.grainsBySeq = st.db.grainsBySeq := by
    rw [Tables.grainsBySeq, hi.file]
    rfl
  have hread : ∀ g ∈ st.db.grainsBySeq, ∃ view, C.deserializeBlob g.blob = .ok view :=
    fun g hg => hdecodes g (mem_grainsBySeq.1 hg)
  obtain ⟨plan, n, hplan, hof⟩ := plan_total hread a
  have hbody : rebuildLinkBody C a = .ok (plan.map LinkPlan.written).sum
      { a with tick := n, db := a.db.relink plan } := by
    rw [rebuildLinkBody, bind_apply]
    simp only [get_apply, hgrains]
    rw [bind_apply, hplan]
    rfl
  refine ⟨plan, (plan.map LinkPlan.written).sum, { a with
    tick := n
    db := { a.db.relink plan with
      info := { (a.db.relink plan).info with linkIndex := some linkIndexVersion } } }, ?_, hof, rfl,
    rfl, rfl⟩
  rw [rebuildLinkIndexes, bind_apply]
  simp only [get_apply]
  rw [bind_apply, hwarm]
  simp only
  rw [bind_apply, atomically, hbody]
  rfl

/-- A rebuild that returned came through its warm pass. -/
theorem rebuild_ok {n : ℕ} {st' : DejaDB} (h : rebuildLinkIndexes C st = .ok n st')
    (hdecodes : ∀ g ∈ st.db.grains, ∃ view, C.deserializeBlob g.blob = .ok view) :
    ∃ a plan, warmLinks C st.db.grainsBySeq st = .ok () a ∧ PlanFor C a st.db.grainsBySeq plan ∧
      st'.db = { a.db.relink plan with info := st'.db.info } := by
  have hinv := h
  rw [rebuildLinkIndexes, bind_apply] at hinv
  simp only [get_apply] at hinv
  obtain ⟨⟨⟩, a, hwarm, -⟩ := bind_eq_ok.1 hinv
  obtain ⟨plan, n₂, st₂, hrebuild, hplan, hdb, -, -⟩ := rebuild_of_warm hwarm hdecodes
  rw [h] at hrebuild
  cases hrebuild
  exact ⟨a, plan, hwarm, hplan, hdb⟩

/-! ## The narrow indexes -/

theorem flatMap_of_forall₂ {α β γ : Type} {R : α → β → Prop} {f : α → List γ} {h : β → List γ}
    {l : List α} {m : List β} (hR : List.Forall₂ R l m)
    (hf : ∀ x ∈ l, ∀ y, R x y → h y = f x) : m.flatMap h = l.flatMap f := by
  induction hR with
  | nil => rfl
  | @cons x y l m hxy _ ih =>
    rw [List.flatMap_cons, List.flatMap_cons, hf x (List.mem_cons_self ..) y hxy,
      ih fun x hx => hf x (List.mem_cons_of_mem _ hx)]

/-- A table whose rows belong to the grains, gathered grain by grain. -/
theorem DejaDB.RowsOk.gather {α : Type} (h : st.RowsOk C) (key : α → ℤ)
    {l : List α} (howned : ∀ x ∈ l, ∃ g ∈ st.db.grains, g.seq = key x) :
    (st.db.grainsBySeq.flatMap fun g => l.filter fun x => key x = g.seq).Perm l := by
  have hseqs : (st.db.grainsBySeq.map GrainRow.seq).Nodup :=
    ((List.perm_insertionSort _ _).map GrainRow.seq).nodup_iff.2 h.seqs
  have hperm := Replay.perm_by_key key hseqs fun x hx => by
    obtain ⟨g, hg, hs⟩ := howned x hx
    exact List.mem_map.2 ⟨g, mem_grainsBySeq.2 hg, hs⟩
  rwa [List.flatMap_map] at hperm

/-- A stored grain with the view its blob reads as. -/
theorem DejaDB.RowsOk.linked (h : st.RowsOk C) {g : GrainRow} (hg : g ∈ st.db.grains)
    {view : DeserializedGrain} (hview : C.deserializeBlob g.blob = .ok view) :
    ∃ pr, Linked C st view pr ∧ st.db.rows.Of pr g := by
  obtain ⟨pr, ⟨view', hlinked⟩, hof⟩ := h.spelled g hg
  have hblob : g.blob = pr.blob := by rw [hof.row]; rfl
  have hdecodes := hlinked.decodes
  rw [← hblob, hview] at hdecodes
  cases hdecodes
  exact ⟨pr, hlinked, hof⟩

/-- A plan row writes what the insert of its grain wrote. -/
theorem PlanOf.rows {a : DejaDB} {view : DeserializedGrain} {g : GrainRow} {r : LinkPlan}
    (h : PlanOf a view g r) (hd : st.Resolves a) (hok : st.RowsOk C) (hg : g ∈ st.db.grains)
    (hview : C.deserializeBlob g.blob = .ok view) :
    r.provRows = st.db.provIdx.filter (fun x => x.seq = g.seq) ∧
      r.runRows = st.db.runIdx.filter (fun x => x.seq = g.seq) ∧
      r.corpusRows = st.db.corpusIdx.filter fun x => x = g.seq := by
  obtain ⟨pr, hlinked, hof⟩ := hok.linked hg hview
  have hns : g.ns = pr.nsId := by rw [hof.row]; rfl
  refine ⟨?_, ?_, ?_⟩
  · refine Eq.trans ?_ hof.provIdx.symm
    rw [LinkPlan.provRows, GrainPrep.provRows, h.ns, h.seq, h.parent, hlinked.parent, hns]
    rfl
  · refine Eq.trans ?_ hof.runIdx.symm
    have hrun : r.run = pr.run := by
      rw [h.run]
      have henc := hlinked.run.mono hd
      revert henc
      show a.EncodesOpt (view.getStr "run_id") pr.run → _
      cases view.getStr "run_id" <;> cases pr.run <;> intro henc
      · rfl
      · exact henc.elim
      · exact henc.elim
      · exact henc
    rw [LinkPlan.runRows, GrainPrep.runRows, h.ns, h.seq, hrun, hns]
  · refine Eq.trans ?_ hof.corpusIdx.symm
    rw [LinkPlan.corpusRows, GrainPrep.corpusRows, h.seq, h.corpusExport, hlinked.corpusExport]
    rfl

/-- **What a rebuild leaves**: the narrow indexes always come back; the triple
tables do when every replayed edge has its current row already, and no other. -/
theorem sameLinks_iff {a : DejaDB} {plan : List LinkPlan} {t' : Tables} (hok : st.RowsOk C)
    (hi : Interns st a) (hplan : PlanFor C a st.db.grainsBySeq plan)
    (ht' : t' = { a.db.relink plan with info := t'.info }) :
    st.db.SameLinks t' ↔ ∀ k ∈ plan.flatMap LinkPlan.edges,
      st.db.triples.filter (fun x => x.edge = k) = [k.tripleRow] ∧
        st.db.osp.filter (fun x => x.edge = k) = [k.ospRow] := by
  have hrel := a.db.relink_planned plan
  have hrows : ∀ g ∈ st.db.grainsBySeq, ∀ r,
      (∃ view, C.deserializeBlob g.blob = .ok view ∧ PlanOf a view g r) →
        r.provRows = st.db.provIdx.filter (fun x => x.seq = g.seq) ∧
          r.runRows = st.db.runIdx.filter (fun x => x.seq = g.seq) ∧
          r.corpusRows = st.db.corpusIdx.filter fun x => x = g.seq :=
    fun g hg r ⟨view, hview, hof⟩ => hof.rows hi.dict hok (mem_grainsBySeq.1 hg) hview
  have htriples : t'.triples =
      Replay.all TripleRow.edge EdgeKey.tripleRow st.db.triples (plan.flatMap LinkPlan.edges) := by
    rw [ht']
    refine hrel.triples.trans ?_
    rw [hi.file]
  have hosp : t'.osp =
      Replay.all OspRow.edge EdgeKey.ospRow st.db.osp (plan.flatMap LinkPlan.edges) := by
    rw [ht']
    refine hrel.osp.trans ?_
    rw [hi.file]
  have hprov : t'.provIdx.Perm st.db.provIdx := by
    have hall : t'.provIdx = plan.flatMap LinkPlan.provRows := by
      rw [ht']
      exact hrel.provIdx
    rw [hall, flatMap_of_forall₂ hplan fun g hg r h => (hrows g hg r h).1]
    exact hok.gather ProvRow.seq hok.owned.provIdx
  have hrun : t'.runIdx.Perm st.db.runIdx := by
    have hall : t'.runIdx = plan.flatMap LinkPlan.runRows := by
      rw [ht']
      exact hrel.runIdx
    rw [hall, flatMap_of_forall₂ hplan fun g hg r h => (hrows g hg r h).2.1]
    exact hok.gather RunRow.seq hok.owned.runIdx
  have hcorpus : t'.corpusIdx.Perm st.db.corpusIdx := by
    have hall : t'.corpusIdx = plan.flatMap LinkPlan.corpusRows := by
      rw [ht']
      exact hrel.corpusIdx
    rw [hall, flatMap_of_forall₂ hplan fun g hg r h => (hrows g hg r h).2.2]
    exact hok.gather id hok.owned.corpusIdx
  constructor
  · intro h k hk
    have ht := h.triples
    have ho := h.osp
    rw [htriples, Replay.all_perm_iff EdgeKey.tripleRow_edge] at ht
    rw [hosp, Replay.all_perm_iff EdgeKey.ospRow_edge] at ho
    exact ⟨ht k hk, ho k hk⟩
  · intro h
    refine ⟨hprov, hrun, hcorpus, ?_, ?_⟩
    · rw [htriples, Replay.all_perm_iff EdgeKey.tripleRow_edge]
      exact fun k hk => (h k hk).1
    · rw [hosp, Replay.all_perm_iff EdgeKey.ospRow_edge]
      exact fun k hk => (h k hk).2

/-! ## When a rebuild changes nothing -/

/-- The rows of `triples` at the grain `g` that spell an edge. -/
def DejaDB.edgeRows (st : DejaDB) (g : GrainRow) (e : String × String × String) :
    List TripleRow :=
  st.db.triples.filter fun r => r.ns = g.ns ∧ r.seq = g.seq ∧ st.termLookup e.1 = some r.s ∧
    st.termLookup e.2.1 = some r.p ∧ st.termLookup e.2.2 = some r.o

/-- The rows of `osp` at the grain `g` that spell an edge. -/
def DejaDB.objectRows (st : DejaDB) (g : GrainRow) (e : String × String × String) :
    List OspRow :=
  st.db.osp.filter fun r => r.ns = g.ns ∧ r.seq = g.seq ∧ st.termLookup e.1 = some r.s ∧
    st.termLookup e.2.1 = some r.p ∧ st.termLookup e.2.2 = some r.o

/-- The grain `g` is not superseded and holds the edge once in either table. -/
structure DejaDB.HoldsOnce (st : DejaDB) (g : GrainRow) (e : String × String × String) :
    Prop where
  current : g.svt = none
  bySubject : (st.edgeRows g e).length = 1
  byObject : (st.objectRows g e).length = 1

/-- The edges a rebuild replays for a grain: the links of its blob, from the
address of the blob. -/
def replayedEdges (C : Core G) (g : GrainRow) : List (String × String × String) :=
  match C.deserializeBlob g.blob with
  | .ok view => (relatedTo view).map fun l => (view.hash.toHex, l)
  | .error _ => []

/-- Every stored grain with links is current and holds each replayed edge once. -/
def DejaDB.LinksOnce (C : Core G) (st : DejaDB) : Prop :=
  ∀ g ∈ st.db.grains, ∀ e ∈ replayedEdges C g, st.HoldsOnce g e

instance (st : DejaDB) (g : GrainRow) (e : String × String × String) :
    Decidable (st.HoldsOnce g e) :=
  decidable_of_iff
    (g.svt = none ∧ (st.edgeRows g e).length = 1 ∧ (st.objectRows g e).length = 1)
    ⟨fun ⟨hcurrent, hs, ho⟩ => ⟨hcurrent, hs, ho⟩,
      fun h => ⟨h.current, h.bySubject, h.byObject⟩⟩

instance (st : DejaDB) : Decidable (st.LinksOnce C) :=
  inferInstanceAs (Decidable (∀ g ∈ st.db.grains, ∀ e ∈ replayedEdges C g, st.HoldsOnce g e))

theorem mem_replayedEdges {g : GrainRow} {view : DeserializedGrain}
    (hview : C.deserializeBlob g.blob = .ok view) {e : String × String × String} :
    e ∈ replayedEdges C g ↔ ∃ l ∈ relatedTo view, (view.hash.toHex, l) = e := by
  rw [replayedEdges, hview]
  exact List.mem_map

section Once

variable {g : GrainRow} {e : String × String × String} {y : ℤ × ℤ × ℤ}

theorem edgeRows_eq (hs : st.termLookup e.1 = some y.1) (hp : st.termLookup e.2.1 = some y.2.1)
    (ho : st.termLookup e.2.2 = some y.2.2) :
    st.edgeRows g e = st.db.triples.filter fun r => r.edge = (g.ns, g.seq, y) := by
  obtain ⟨s, p, o⟩ := y
  refine List.filter_congr fun r _ => decide_eq_decide.2 ?_
  rw [hs, hp, ho]
  simp only [Option.some.injEq, TripleRow.edge, Prod.mk.injEq, eq_comm]

theorem objectRows_eq (hs : st.termLookup e.1 = some y.1) (hp : st.termLookup e.2.1 = some y.2.1)
    (ho : st.termLookup e.2.2 = some y.2.2) :
    st.objectRows g e = st.db.osp.filter fun r => r.edge = (g.ns, g.seq, y) := by
  obtain ⟨s, p, o⟩ := y
  refine List.filter_congr fun r _ => decide_eq_decide.2 ?_
  rw [hs, hp, ho]
  simp only [Option.some.injEq, OspRow.edge, Prod.mk.injEq, eq_comm]

/-- The triples of a grain are current as long as it is. -/
theorem DejaDB.RowsOk.triple_cur (h : st.RowsOk C) (hg : g ∈ st.db.grains) {x : TripleRow}
    (hx : x ∈ st.db.triples) (hs : x.seq = g.seq) : x.cur = g.svt.isNone := by
  obtain ⟨pr, -, hof⟩ := h.spelled g hg
  obtain ⟨y, -, rfl⟩ := hof.mem_triples.1 ⟨hx, hs⟩
  rfl

theorem DejaDB.RowsOk.osp_cur (h : st.RowsOk C) (hg : g ∈ st.db.grains) {x : OspRow}
    (hx : x ∈ st.db.osp) (hs : x.seq = g.seq) : x.cur = g.svt.isNone := by
  obtain ⟨pr, -, hof⟩ := h.spelled g hg
  have hmem : x ∈ st.db.rows.osp.filter (fun x => x.seq = g.seq) :=
    List.mem_filter.2 ⟨hx, by simpa using hs⟩
  rw [hof.osp] at hmem
  obtain ⟨y, -, rfl⟩ := List.mem_map.1 hmem
  rfl

/-- An edge held once is held as its current row. -/
theorem DejaDB.HoldsOnce.rows (h : st.HoldsOnce g e) (hok : st.RowsOk C) (hg : g ∈ st.db.grains)
    (hs : st.termLookup e.1 = some y.1) (hp : st.termLookup e.2.1 = some y.2.1)
    (ho : st.termLookup e.2.2 = some y.2.2) :
    st.db.triples.filter (fun x => x.edge = (g.ns, g.seq, y)) =
        [EdgeKey.tripleRow (g.ns, g.seq, y)] ∧
      st.db.osp.filter (fun x => x.edge = (g.ns, g.seq, y)) =
        [EdgeKey.ospRow (g.ns, g.seq, y)] := by
  have hcur : g.svt.isNone = true := by rw [h.current]; rfl
  constructor
  · obtain ⟨x, hx⟩ := List.length_eq_one_iff.1 (edgeRows_eq (g := g) hs hp ho ▸ h.bySubject)
    have hmem : x ∈ st.db.triples.filter (fun x => x.edge = (g.ns, g.seq, y)) := by simp [hx]
    obtain ⟨hmem, hk⟩ := List.mem_filter.1 hmem
    have hk : x.edge = (g.ns, g.seq, y) := by simpa using hk
    have hseq : x.seq = g.seq := congrArg (fun k : EdgeKey => k.2.1) hk
    rw [hx, TripleRow.eq_of_edge hk ((hok.triple_cur hg hmem hseq).trans hcur)]
  · obtain ⟨x, hx⟩ := List.length_eq_one_iff.1 (objectRows_eq (g := g) hs hp ho ▸ h.byObject)
    have hmem : x ∈ st.db.osp.filter (fun x => x.edge = (g.ns, g.seq, y)) := by simp [hx]
    obtain ⟨hmem, hk⟩ := List.mem_filter.1 hmem
    have hk : x.edge = (g.ns, g.seq, y) := by simpa using hk
    have hseq : x.seq = g.seq := congrArg (fun k : EdgeKey => k.2.1) hk
    rw [hx, OspRow.eq_of_edge hk ((hok.osp_cur hg hmem hseq).trans hcur)]

/-- An edge held once has its three terms. -/
theorem DejaDB.HoldsOnce.terms (h : st.HoldsOnce g e) : ∃ y : ℤ × ℤ × ℤ,
    st.termLookup e.1 = some y.1 ∧ st.termLookup e.2.1 = some y.2.1 ∧
      st.termLookup e.2.2 = some y.2.2 := by
  obtain ⟨x, hx⟩ := List.length_eq_one_iff.1 h.bySubject
  have hmem : x ∈ st.edgeRows g e := by simp [hx]
  obtain ⟨-, hk⟩ := List.mem_filter.1 hmem
  simp only [decide_eq_true_eq] at hk
  exact ⟨(x.s, x.p, x.o), hk.2.2⟩

end Once

/-- The ids of the looked-up links. -/
theorem lookupLinks_eq {hash : Hash} {links : List (String × String)} {ids : List (ℤ × ℤ × ℤ)}
    (h : st.EncodesLinks hash links ids) : st.lookupLinks hash links = ids := by
  unfold DejaDB.lookupLinks
  induction h with
  | nil => cases st.termLookup hash.toHex <;> rfl
  | @cons l y links ids hl _ ih =>
    have hself : st.termLookup hash.toHex = some y.1 := hl.1
    have hrel : st.termLookup l.1 = some y.2.1 := hl.2.1
    have htarget : st.termLookup l.2 = some y.2.2 := hl.2.2
    rw [hself] at ih ⊢
    simp only at ih ⊢
    rw [List.filterMap_cons, hrel, htarget]
    simp only
    rw [ih]

/-- The edges of a plan are the encoded links of the grains. -/
theorem mem_plan_edges {a : DejaDB} {grains : List GrainRow} {plan : List LinkPlan}
    (hplan : PlanFor C a grains plan) {k : EdgeKey} :
    k ∈ plan.flatMap LinkPlan.edges ↔ ∃ g ∈ grains, ∃ view,
      C.deserializeBlob g.blob = .ok view ∧
        ∃ y ∈ a.lookupLinks view.hash (relatedTo view), k = (g.ns, g.seq, y) := by
  have hedges : ∀ {g : GrainRow} {r : LinkPlan} {view : DeserializedGrain}, PlanOf a view g r →
      (k ∈ r.edges ↔ ∃ y ∈ a.lookupLinks view.hash (relatedTo view), k = (g.ns, g.seq, y)) := by
    intro g r view h
    rw [LinkPlan.edges, List.mem_map, h.links, h.ns, h.seq]
    exact ⟨fun ⟨y, hy, hk⟩ => ⟨y, hy, hk.symm⟩, fun ⟨y, hy, hk⟩ => ⟨y, hy, hk.symm⟩⟩
  rw [List.mem_flatMap]
  constructor
  · rintro ⟨r, hr, hk⟩
    obtain ⟨g, hg, view, hview, hof⟩ := forall₂_exists_left hplan r hr
    exact ⟨g, hg, view, hview, (hedges hof).1 hk⟩
  · rintro ⟨g, hg, view, hview, hy⟩
    obtain ⟨r, hr, view', hview', hof⟩ := forall₂_exists_right hplan g hg
    obtain rfl : view = view' := Except.ok.inj (hview.symm.trans hview')
    exact ⟨r, hr, (hedges hof).2 hy⟩

/-- The terms of a stored triple are in the dictionary. -/
theorem DejaDB.RowsOk.subject_known (h : st.RowsOk C) {g : GrainRow} (hg : g ∈ st.db.grains)
    {x : TripleRow} (hx : x ∈ st.db.triples) (hs : x.seq = g.seq) :
    ∃ w, st.termLookup w = some x.s := by
  obtain ⟨pr, ⟨view, hlinked⟩, hof⟩ := h.spelled g hg
  obtain ⟨y, hy, rfl⟩ := hof.mem_triples.1 ⟨hx, hs⟩
  rcases GrainPrep.mem_tripleRows.1 hy with ⟨s, p, o, hpr, rfl⟩ | ⟨l, hl, rfl⟩
  · have hspo := hlinked.spo
    unfold DejaDB.EncodesSpo at hspo
    cases hgv : (extractView view pr.created).spo with
    | none =>
      rw [hgv] at hspo
      simp [GrainPrep.spo, hspo.1] at hpr
    | some w =>
      rw [hgv] at hspo
      obtain ⟨si, pi, oi, hsi, hpi, hoi, hlook, -⟩ := hspo
      rw [GrainPrep.spo, hsi, hpi, hoi] at hpr
      cases hpr
      exact ⟨_, hlook⟩
  · obtain ⟨w, -, hw⟩ := forall₂_exists_left hlinked.links l hl
    exact ⟨_, hw.1⟩

/-- A grain whose links are held has its run and its links in the dictionary. -/
theorem DejaDB.LinksOnce.warm (h : st.LinksOnce C) (hgood : st.Good C) {g : GrainRow}
    (hg : g ∈ st.db.grains) {view : DeserializedGrain}
    (hview : C.deserializeBlob g.blob = .ok view) : st.Warm view := by
  obtain ⟨pr, hlinked, -⟩ := hgood.rowsOk.linked hg hview
  refine ⟨⟨pr.run, hlinked.run⟩, ?_⟩
  have hterms : ∀ l ∈ relatedTo view, ∃ y : ℤ × ℤ × ℤ,
      st.dict.lookup view.hash.toHex = some y.1 ∧ st.dict.lookup l.1 = some y.2.1 ∧
        st.dict.lookup l.2 = some y.2.2 := fun l hl =>
    (h g hg _ ((mem_replayedEdges hview).2 ⟨l, hl, rfl⟩)).terms
  unfold DejaDB.EncodesLinks
  generalize relatedTo view = links at hterms
  induction links with
  | nil => exact ⟨[], .nil⟩
  | cons l links ih =>
    rw [List.forall_mem_cons] at hterms
    obtain ⟨y, hy⟩ := hterms.1
    obtain ⟨ids, hids⟩ := ih hterms.2
    exact ⟨y :: ids, .cons hy hids⟩

/-- The term ids of a handle survive interning. -/
theorem Interns.lookup_eq {a : DejaDB} (hi : Interns st a) {x : String} {i j : ℤ}
    (hst : st.termLookup x = some i) (ha : a.termLookup x = some j) : i = j :=
  Option.some.inj ((hi.dict x i hst).symm.trans ha)

/-- An edge that a rebuild found in place was held once. -/
theorem holdsOnce_of_rows {a : DejaDB} (hgood : st.Good C) (hi : Interns st a) {g : GrainRow}
    (hg : g ∈ st.db.grains) {e : String × String × String} {y : ℤ × ℤ × ℤ}
    (hself : a.termLookup e.1 = some y.1) (hrel : st.termLookup e.2.1 = some y.2.1)
    (htarget : st.termLookup e.2.2 = some y.2.2)
    (htriples : st.db.triples.filter (fun x => x.edge = (g.ns, g.seq, y)) =
      [EdgeKey.tripleRow (g.ns, g.seq, y)])
    (hosp : st.db.osp.filter (fun x => x.edge = (g.ns, g.seq, y)) =
      [EdgeKey.ospRow (g.ns, g.seq, y)]) : st.HoldsOnce g e := by
  have hmem : EdgeKey.tripleRow (g.ns, g.seq, y) ∈ st.db.triples :=
    (List.mem_filter.1 (htriples ▸ List.mem_singleton_self _)).1
  -- the row is of this grain, so its subject has a term, and only one
  obtain ⟨w, hw⟩ := hgood.rowsOk.subject_known hg hmem rfl
  have hsame : w = e.1 := (hi.dictOk hgood.dictOk).injective (hi.dict _ _ hw) hself
  have hknown : st.termLookup e.1 = some y.1 := hsame ▸ hw
  have hcur := hgood.rowsOk.triple_cur hg hmem rfl
  refine ⟨Option.isNone_iff_eq_none.1 hcur.symm, ?_, ?_⟩
  · rw [edgeRows_eq hknown hrel htarget, htriples]
    rfl
  · rw [objectRows_eq hknown hrel htarget, hosp]
    rfl

/-- **When a rebuild of the link indexes changes nothing.**  In a reachable store
it returns with the five tables as they were exactly when no grain with links is
superseded and each link has one row of its grain in either triple table. -/
theorem rebuild_unchanged_iff (h : Reachable C st) :
    (∃ n st', rebuildLinkIndexes C st = .ok n st' ∧ st.db.SameLinks st'.db) ↔
      st.LinksOnce C := by
  have hgood := h.good
  constructor
  · rintro ⟨n, st', hrun, hsame⟩ g hg e he
    obtain ⟨view, hview⟩ := hgood.decodes g hg
    obtain ⟨l, hl, rfl⟩ := (mem_replayedEdges hview).1 he
    obtain ⟨a, plan, hwarm, hplan, hdb⟩ := rebuild_ok hrun hgood.decodes
    have hi := (leads_warmLinks _).of_ok hwarm
    obtain ⟨-, ids, hids⟩ := warmLinks_ok hwarm (mem_grainsBySeq.2 hg) hview
    obtain ⟨y, hy, hself, hrel, htarget⟩ := forall₂_exists_right hids l hl
    have hk : (g.ns, g.seq, y) ∈ plan.flatMap LinkPlan.edges :=
      (mem_plan_edges hplan).2 ⟨g, mem_grainsBySeq.2 hg, view, hview, y,
        by rwa [lookupLinks_eq hids], rfl⟩
    obtain ⟨htriples, hosp⟩ := (sameLinks_iff hgood.rowsOk hi hplan hdb).1 hsame _ hk
    -- the relation and the target were interned when the grain was stored
    obtain ⟨pr, hlinked, -⟩ := hgood.rowsOk.linked hg hview
    obtain ⟨z, -, -, hzrel, hztarget⟩ := forall₂_exists_right hlinked.links l hl
    have hrelEq := hi.lookup_eq hzrel hrel
    have htargetEq := hi.lookup_eq hztarget htarget
    exact holdsOnce_of_rows hgood hi hg hself (hrelEq ▸ hzrel) (htargetEq ▸ hztarget) htriples hosp
  · intro honce
    have hknown : ∀ g ∈ st.db.grainsBySeq, ∃ view,
        C.deserializeBlob g.blob = .ok view ∧ st.Warm view := by
      intro g hg
      obtain ⟨view, hview⟩ := hgood.decodes g (mem_grainsBySeq.1 hg)
      exact ⟨view, hview, honce.warm hgood (mem_grainsBySeq.1 hg) hview⟩
    obtain ⟨n, hwarm⟩ := warmLinks_known hknown
    obtain ⟨plan, m, st', hrun, hplan, hdb, -, -⟩ := rebuild_of_warm hwarm hgood.decodes
    refine ⟨m, st', hrun, (sameLinks_iff hgood.rowsOk ((leads_warmLinks _).of_ok hwarm) hplan
      hdb).2 fun k hk => ?_⟩
    obtain ⟨g, hg, view, hview, y, hy, rfl⟩ := (mem_plan_edges hplan).1 hk
    have hg := mem_grainsBySeq.1 hg
    obtain ⟨-, ids, hids⟩ := honce.warm hgood hg hview
    have hy : y ∈ ids := by
      have hsame : DejaDB.lookupLinks { st with tick := n } view.hash (relatedTo view) =
          st.lookupLinks view.hash (relatedTo view) := rfl
      rwa [hsame, lookupLinks_eq hids] at hy
    obtain ⟨l, hl, hself, hrel, htarget⟩ := forall₂_exists_left hids y hy
    exact (honce g hg _ ((mem_replayedEdges hview).2 ⟨l, hl, rfl⟩)).rows hgood.rowsOk hg hself
      hrel htarget

/-- A fact with a link to the word `link`. -/
def linkedFact (tag created s r o link : UInt8) : Grain SampleBody :=
  ⟨.fact, none, none, ⟨tag, created, s, r, o, 0, link⟩⟩

/-- A file with a linked grain and a superseded one without links. -/
def linkedStore : DejaDB := sampleStore.steps sampleCore
  [.add (linkedFact 1 5 1 2 3 4), .add (sampleFact 2 6 2 2 3),
    .supersede (Hash.ofByte 2) (sampleFact 3 7 2 2 4)]

/-- Its rebuild changes nothing. -/
theorem rebuild_unchanged_linked :
    ∃ n st', rebuildLinkIndexes sampleCore linkedStore = .ok n st' ∧
      linkedStore.db.SameLinks st'.db :=
  (rebuild_unchanged_iff (sampleStore_reachable.steps _)).2 (by decide +kernel)

/-- A file whose linked grain is superseded. -/
def revisedStore : DejaDB := sampleStore.steps sampleCore
  [.add (linkedFact 1 5 1 2 3 4), .supersede (Hash.ofByte 1) (sampleFact 2 6 1 2 4)]

/-- Its rebuild makes the link of the superseded grain current again. -/
theorem rebuild_revives_link : ¬ ∀ st : DejaDB, Reachable sampleCore st →
    ∃ n st', rebuildLinkIndexes sampleCore st = .ok n st' ∧ st.db.SameLinks st'.db := by
  intro h
  obtain ⟨n, st', hrun, hsame⟩ := h revisedStore (sampleStore_reachable.steps _)
  have hafter := after_of_ok hrun
  have hchanged : ¬ (after (rebuildLinkIndexes sampleCore) revisedStore).db.triples.Perm
      revisedStore.db.triples := by decide +kernel
  rw [hafter] at hchanged
  exact hchanged hsame.triples

end Deja
