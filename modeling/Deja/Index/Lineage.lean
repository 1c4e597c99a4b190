import Deja.Erase.Survivors
import Deja.Index.Reopened
import Deja.Lib.Bfs

/-!
# Runs and provenance

The provenance joins walk `derived_from` upwards and `prov_idx` downwards.  Both read
one parent of a grain where a merge records several, and the yield of a run asks for
the children of the grains the limit leaves in its trace.

* `Lineage.levels_eq` — the walk is a breadth-first search.
* `runs_touching_exact`, `run_yield_exact` — the two joins under what they take for
  granted.
-/

namespace Deja

open Run Bfs

variable {G : Type} {C : Core G} {st : DejaDB}

/-! ## The queries -/

/-- `prov_idx p JOIN grains g ON g.seq = p.seq … ORDER BY p.seq DESC`. -/
def Tables.derivedRows (t : Tables) (parent : Hash) : List GrainRow :=
  ((t.provIdx.filter fun r => r.parent = parent).insertionSort
    fun a b => b.seq ≤ a.seq).filterMap fun r => t.grainBySeq r.seq

namespace DejaDB

section Source

variable (C : Core G) (st : DejaDB)

/-- `grains_derived_from`. -/
def grainsDerivedFrom (parent : Hash) : Except DejaDbError (List DeserializedGrain) :=
  (st.db.derivedRows parent).mapM fun g => C.deserializeBlob g.blob

/-- The parent `derived_from` spells. -/
def derivedHash (view : DeserializedGrain) : Option Hash :=
  (view.getStr "derived_from").bind Hash.fromHex

/-- The parent a walk in `ns` goes up to. -/
def parentIn (ns : String) (view : DeserializedGrain) : List Hash :=
  ((derivedHash view).filter fun p => match st.get C p with
    | .ok pg => pg.getStr "namespace" = some ns
    | .error _ => false).toList

/-- The children a walk in `ns` goes down to. -/
def childrenIn (ns : String) (children : List DeserializedGrain) : List Hash :=
  (children.filter fun c => c.getStr "namespace" = some ns).map DeserializedGrain.hash

end Source

end DejaDB

/-- The walk of `runs_touching`: the runs met, the grains seen, and the next level. -/
structure Lineage where
  runs : List String
  visited : List Hash
  next : List Hash

/-- A run met for the first time is kept. -/
def noteRun (runs : List String) : Option String → List String
  | some r => if r ∈ runs then runs else runs ++ [r]
  | none => runs

namespace Lineage

/-- A grain not seen yet is kept for the next level. -/
def push (w : Lineage) (x : Hash) : Lineage :=
  if x ∈ w.visited then w else { w with visited := x :: w.visited, next := w.next ++ [x] }

section Source

variable (C : Core G) (st : DejaDB) (ns : String)

/-- One grain of a level: its run, its parent, its children. -/
def node (w : Lineage) (h : Hash) : Except DejaDbError Lineage :=
  match st.get C h with
  | .error _ => .ok w
  | .ok g => do
    let w := { w with runs := noteRun w.runs (g.getStr "run_id") }
    let w := (st.parentIn C ns g).foldl push w
    let children ← st.grainsDerivedFrom C h
    pure ((DejaDB.childrenIn ns children).foldl push w)

/-- The levels of the walk. -/
def levels : ℕ → List Hash → Lineage → Except DejaDbError Lineage
  | 0, _, w => .ok w
  | n + 1, frontier, w => do
    let w ← frontier.foldlM (node C st ns) { w with next := [] }
    if w.next.isEmpty then pure w else levels n w.next w

end Source

end Lineage

namespace DejaDB

section Source

variable (C : Core G) (st : DejaDB) (ns : String)

/-- `runs_touching`. -/
def runsTouching (hash : Hash) (depth : ℕ) : Except DejaDbError (List String) := do
  let w ← Lineage.levels C st ns (min depth 8 + 1) [hash] ⟨[], [hash], []⟩
  pure w.runs

/-- The children of one grain, kept up to the limit: what was seen, what is kept, and
whether the limit was met. -/
def keepChildren (limit : ℕ) (inRun : List Hash) : List DeserializedGrain → List Hash →
    List DeserializedGrain → List Hash × List DeserializedGrain × Bool
  | [], seen, out => (seen, out, false)
  | c :: cs, seen, out =>
    if c.hash ∉ inRun ∧ c.hash ∉ seen then
      if limit ≤ (out ++ [c]).length then (c.hash :: seen, out ++ [c], true)
      else keepChildren limit inRun cs (c.hash :: seen) (out ++ [c])
    else keepChildren limit inRun cs seen out

/-- The loop of `run_yield` over the trace. -/
def yieldFrom (limit : ℕ) (inRun : List Hash) : List DeserializedGrain → List Hash →
    List DeserializedGrain → Except DejaDbError (List DeserializedGrain)
  | [], _, out => .ok out
  | g :: gs, seen, out => do
    let children ← st.grainsDerivedFrom C g.hash
    match keepChildren limit inRun children seen out with
    | (_, out, true) => pure out
    | (seen, out, false) => yieldFrom limit inRun gs seen out

/-- `run_yield`. -/
def runYield (runId : String) (limit : ℕ) : Except DejaDbError (List DeserializedGrain) := do
  let trace ← st.runTrace C ns runId limit
  let inRun := trace.map DeserializedGrain.hash
  st.yieldFrom C limit inRun trace inRun []

end Source

end DejaDB

/-! ## What the joins are for -/

/-- What a stored grain decodes to. -/
def GrainRow.view (C : Core G) (g : GrainRow) : Option DeserializedGrain :=
  (C.deserializeBlob g.blob).toOption

/-- The parents a stored grain records. -/
def GrainRow.parents (C : Core G) (g : GrainRow) : List Hash :=
  ((g.view C).map supersededParents).getD []

namespace DejaDB

section Purpose

variable (C : Core G) (st : DejaDB) (ns : String)

/-- The stored grains of a namespace. -/
def grainsIn : List GrainRow := st.db.grains.filter fun g => st.termLookup ns = some g.ns

/-- The grains of a namespace linked to an address: one of the two records the other as
a parent. -/
def linksOf (x : Hash) : List Hash :=
  ((st.grainsIn ns).filter fun y =>
    (st.db.grainByHash x).any (fun gx => y.hash ∈ gx.parents C) ∨ x ∈ y.parents C).map GrainRow.hash

/-- The run of the grain at an address. -/
def runAt (x : Hash) : Option String :=
  ((st.db.grainByHash x).bind (GrainRow.view C)).bind fun view => view.getStr "run_id"

/-- The runs are those of the grains within reach, each once, the nearer first. -/
structure TouchesOk (hash : Hash) (depth : ℕ) (runs : List String) : Prop where
  mem : ∀ r, r ∈ runs ↔
    ∃ n ≤ min depth 8, ∃ x, Walk (st.linksOf C ns) hash n x ∧ st.runAt C x = some r
  nodup : runs.Nodup
  ordered : runs.Pairwise fun r r' => ∀ n' x', Walk (st.linksOf C ns) hash n' x' →
    st.runAt C x' = some r' → ∃ n ≤ n', ∃ x, Walk (st.linksOf C ns) hash n x ∧ st.runAt C x = some r

/-- The grains of the namespace derived from a grain of the run and not part of it. -/
def yields (runId : String) : List GrainRow :=
  (st.grainsIn ns).filter fun g =>
    g ∉ st.runHits ns runId ∧ (st.runHits ns runId).any fun p => p.hash ∈ g.parents C

/-- The answer is distinct yields of the run, at most `limit`, and all of them if there
are no more and the run is not too long. -/
structure YieldOk (runId : String) (limit : ℕ) (out : List DeserializedGrain) : Prop where
  bounded : out.length ≤ limit
  nodup : (out.map DeserializedGrain.hash).Nodup
  sound : ∀ v ∈ out, ∃ g ∈ st.yields C ns runId, g.view C = some v
  complete : (st.yields C ns runId).length ≤ limit → (st.runHits ns runId).length ≤ 1024 →
    ∀ g ∈ st.yields C ns runId, ∃ v ∈ out, g.view C = some v

/-- What both joins take for granted of the grains of a namespace: each is filed under
its own address, spells its namespace, and records the parent of its `derived_from` and
no other. -/
structure Plain : Prop where
  addressed : ∀ g ∈ st.grainsIn ns, ∀ v ∈ g.view C, v.hash = g.hash
  spelled : ∀ g ∈ st.grainsIn ns, ∀ v ∈ g.view C, v.getStr "namespace" = some ns
  single : ∀ g ∈ st.grainsIn ns, ∀ v ∈ g.view C, ∀ p ∈ supersededParents v, derivedHash v = some p

/-- The run fits in its trace, and its children are all of its namespace. -/
structure Fits (runId : String) (limit : ℕ) : Prop where
  short : (st.runHits ns runId).length ≤ min limit 1024
  home : ∀ p ∈ st.runHits ns runId, ∀ g ∈ st.db.derivedRows p.hash, g ∈ st.grainsIn ns

end Purpose

end DejaDB

/-! ## Stored grains -/

theorem GrainRow.view_eq_some {g : GrainRow} {v : DeserializedGrain} :
    g.view C = some v ↔ C.deserializeBlob g.blob = .ok v := by
  unfold GrainRow.view
  cases C.deserializeBlob g.blob <;> simp [Except.toOption]

namespace DejaDB

theorem mem_grainsIn {ns : String} {g : GrainRow} :
    g ∈ st.grainsIn ns ↔ g ∈ st.db.grains ∧ st.termLookup ns = some g.ns := by
  simp [grainsIn]

theorem Good.viewed (h : st.Good C) {g : GrainRow} (hg : g ∈ st.db.grains) :
    ∃ v, g.view C = some v := by
  obtain ⟨v, hv⟩ := h.decodes g hg
  exact ⟨v, GrainRow.view_eq_some.2 hv⟩

/-- What the preparation knew of a stored grain. -/
theorem Good.linked (h : st.Good C) {g : GrainRow} (hg : g ∈ st.db.grains)
    {v : DeserializedGrain} (hv : g.view C = some v) :
    ∃ pr, Linked C st v pr ∧ st.db.rows.Of pr g := by
  obtain ⟨pr, ⟨view, hview⟩, hof⟩ := h.rowsOk.spelled g hg
  have hblob : g.blob = pr.blob := congrArg GrainRow.blob hof.row
  have hdecodes := GrainRow.view_eq_some.1 hv
  rw [hblob, hview.decodes] at hdecodes
  cases hdecodes
  exact ⟨pr, hview, hof⟩

/-- The namespace a stored grain spells is the one it is stored in. -/
theorem Good.lookup_ns (h : st.Good C) {g : GrainRow} (hg : g ∈ st.db.grains)
    {v : DeserializedGrain} (hv : g.view C = some v) :
    st.termLookup ((v.getStr "namespace").getD "shared") = some g.ns := by
  obtain ⟨pr, hlinked, hof⟩ := h.linked hg hv
  have hns : g.ns = pr.nsId := congrArg GrainRow.ns hof.row
  rw [hns]
  exact hlinked.ns

theorem Good.mem_grainsIn_of_spells (h : st.Good C) {g : GrainRow} (hg : g ∈ st.db.grains)
    {v : DeserializedGrain} (hv : g.view C = some v) {ns : String}
    (hns : v.getStr "namespace" = some ns) : g ∈ st.grainsIn ns := by
  have hlookup := h.lookup_ns hg hv
  rw [hns] at hlookup
  exact mem_grainsIn.2 ⟨hg, hlookup⟩

/-- **The two representations of a link agree**: `prov_idx` has a row at the parent of
`derived_from` and no other. -/
theorem Good.mem_derivedRows (h : st.Good C) {p : Hash} {g : GrainRow} :
    g ∈ st.db.derivedRows p ↔
      g ∈ st.db.grains ∧ ∃ v, g.view C = some v ∧ derivedHash v = some p := by
  have hseqs := h.rowsOk.seqs
  have hrows : g ∈ st.db.derivedRows p ↔
      g ∈ st.db.grains ∧ ∃ r ∈ st.db.provIdx, r.parent = p ∧ r.seq = g.seq := by
    simp only [Tables.derivedRows, List.mem_filterMap, (List.perm_insertionSort _ _).mem_iff,
      List.mem_filter, decide_eq_true_eq, Tables.grainBySeq_iff hseqs]
    exact ⟨fun ⟨r, ⟨hr, hw⟩, hg, hs⟩ => ⟨hg, r, hr, hw, hs.symm⟩,
      fun ⟨hg, r, hr, hw, hs⟩ => ⟨r, ⟨hr, hw⟩, hg, hs.symm⟩⟩
  rw [hrows]
  refine and_congr_right fun hg => ?_
  obtain ⟨v, hv⟩ := h.viewed hg
  obtain ⟨pr, hlinked, hof⟩ := h.linked hg hv
  have hparent : pr.parent = derivedHash v := hlinked.parent
  have hprov : ∀ r, r ∈ st.db.provIdx ∧ r.seq = g.seq ↔
      ∃ q, derivedHash v = some q ∧ r = ⟨pr.nsId, q, g.seq⟩ := by
    intro r
    have hmem : r ∈ st.db.provIdx ∧ r.seq = g.seq ↔ r ∈ pr.provRows g.seq := by
      rw [← hof.provIdx, List.mem_filter, decide_eq_true_eq]
      rfl
    rw [hmem, GrainPrep.provRows, Option.mem_toList, Option.map_eq_some_iff,
      hparent]
    exact exists_congr fun q => and_congr_right fun _ => eq_comm
  constructor
  · rintro ⟨r, hr, hp, hs⟩
    obtain ⟨q, hq, rfl⟩ := (hprov r).1 ⟨hr, hs⟩
    exact ⟨v, hv, by rw [hq, ← hp]⟩
  · rintro ⟨v', hv', hp⟩
    rw [hv] at hv'
    cases hv'
    obtain ⟨hr, hs⟩ := (hprov ⟨pr.nsId, p, g.seq⟩).2 ⟨p, hp, rfl⟩
    exact ⟨_, hr, rfl, hs⟩

theorem Good.grainByHash_iff (h : st.Good C) {x : Hash} {g : GrainRow} :
    st.db.grainByHash x = some g ↔ g ∈ st.db.grains ∧ g.hash = x := by
  constructor
  · intro hg
    exact ⟨List.mem_of_find?_eq_some hg, by simpa using List.find?_some hg⟩
  · rintro ⟨hg, rfl⟩
    cases hfind : st.db.grainByHash g.hash with
    | none => exact absurd (List.find?_eq_none.1 hfind g hg) (by simp)
    | some g' =>
      have hhash : g'.hash = g.hash := by simpa using List.find?_some hfind
      rw [h.rowsOk.eq_of_hash (List.mem_of_find?_eq_some hfind) hg hhash]

/-- Stored grains are all read. -/
theorem mapM_viewed (gs : List GrainRow) (hgs : ∀ g ∈ gs, ∃ v, g.view C = some v) :
    ∃ vs, gs.mapM (fun g => C.deserializeBlob g.blob) = .ok vs ∧
      List.Forall₂ (fun g v => g.view C = some v) gs vs := by
  induction gs with
  | nil => exact ⟨[], rfl, .nil⟩
  | cons g gs ih =>
    rw [List.forall_mem_cons] at hgs
    obtain ⟨v, hv⟩ := hgs.1
    obtain ⟨vs, hvs, hforall⟩ := ih hgs.2
    refine ⟨v :: vs, ?_, .cons hv hforall⟩
    rw [List.mapM_cons, GrainRow.view_eq_some.1 hv, hvs]
    rfl

theorem Good.grainsDerivedFrom_eq (h : st.Good C) (p : Hash) :
    ∃ children, st.grainsDerivedFrom C p = .ok children ∧
      List.Forall₂ (fun g v => g.view C = some v) (st.db.derivedRows p) children :=
  mapM_viewed _ fun _ hg => h.viewed (h.mem_derivedRows.1 hg).1

/-- The grains of a run are grains of its namespace. -/
theorem Good.mem_grainsIn_of_run (h : st.Good C) {ns runId : String} {g : GrainRow}
    (hg : g ∈ st.runHits ns runId) : g ∈ st.grainsIn ns := by
  obtain ⟨hgrain, r, hr, hseq, hns, -⟩ := (mem_runHits h.rowsOk.seqs).1 hg
  obtain ⟨v, hv⟩ := h.viewed hgrain
  obtain ⟨pr, -, hof⟩ := h.linked hgrain hv
  have hmem : r ∈ pr.runRows g.seq := by
    rw [← hof.runIdx]
    exact List.mem_filter.2 ⟨hr, decide_eq_true hseq⟩
  rw [GrainPrep.runRows, Option.mem_toList, Option.map_eq_some_iff] at hmem
  obtain ⟨run, -, rfl⟩ := hmem
  have hrow : g.ns = pr.nsId := congrArg GrainRow.ns hof.row
  exact mem_grainsIn.2 ⟨hgrain, by rw [hns, hrow]⟩

/-! ## The walk is a breadth-first search -/

section Walk

variable (C : Core G) (st : DejaDB) (ns : String)

/-- Where the walk goes on from an address. -/
def walkNbrs (x : Hash) : List Hash :=
  match st.get C x with
  | .error _ => []
  | .ok g => st.parentIn C ns g ++
    (childrenIn ns ((st.grainsDerivedFrom C x).toOption.getD []))

/-- The runs of grains, each where it comes first. -/
def noteAll (runs : List String) (xs : List Hash) : List String :=
  xs.foldl (fun runs x => noteRun runs (st.runAt C x)) runs

end Walk

theorem runAt_eq (x : Hash) : st.runAt C x =
    match st.get C x with
    | .ok g => g.getStr "run_id"
    | .error _ => none := by
  unfold runAt get GrainRow.view
  cases st.db.grainByHash x with
  | none => rfl
  | some g =>
    simp only [Option.bind_some]
    cases C.deserializeBlob g.blob <;> rfl

end DejaDB

namespace Lineage

open DejaDB

/-- The walk and the search have seen the same. -/
structure Mirrors (w : Lineage) (s : Search Hash) : Prop where
  visited : w.visited = s.seen
  next : w.next = s.next

/-- What a search that is not stopped adds to its tree and its next level. -/
def Adds (s s' : Search Hash) (added : List Hash) : Prop :=
  s'.tree.map Prod.fst = s.tree.map Prod.fst ++ added ∧ s'.next = s.next ++ added

theorem visit_mirrors (es : List (Hash × Hash)) {w : Lineage} {s : Search Hash}
    (h : Mirrors w s) : ∃ s' added, Bfs.visit (fun _ => false) es s = (s', false) ∧
      Mirrors ((es.map Prod.fst).foldl push w) s' ∧
      ((es.map Prod.fst).foldl push w).runs = w.runs ∧ Adds s s' added := by
  induction es generalizing w s with
  | nil => exact ⟨s, [], rfl, h, rfl, by simp [Adds]⟩
  | cons e es ih =>
    rw [List.map_cons, List.foldl_cons, Bfs.visit]
    by_cases hseen : e.1 ∈ s.seen
    · have hpush : w.push e.1 = w := by
        rw [push, if_pos (by rw [h.visited]; exact hseen)]
      rw [if_pos hseen, hpush]
      exact ih h
    · have hpush : w.push e.1 =
          { w with visited := e.1 :: w.visited, next := w.next ++ [e.1] } := by
        rw [push, if_neg (by rw [h.visited]; exact hseen)]
      rw [if_neg hseen, if_neg Bool.false_ne_true, hpush]
      have hmirrors : Mirrors { w with visited := e.1 :: w.visited, next := w.next ++ [e.1] }
          (s.push e) := ⟨by rw [h.visited]; rfl, by rw [h.next]; rfl⟩
      obtain ⟨s', added, hvisit, hm, hruns, htree, hnext⟩ := ih hmirrors
      refine ⟨s', e.1 :: added, hvisit, hm, hruns, ?_, ?_⟩
      · rw [htree]
        simp [Search.push]
      · rw [hnext]
        simp [Search.push]

theorem node_eq (hgood : st.Good C) (ns : String) (w : Lineage) (x : Hash) :
    node C st ns w x =
      .ok ((st.walkNbrs C ns x).foldl push { w with runs := noteRun w.runs (st.runAt C x) }) := by
  obtain ⟨children, hchildren, -⟩ := hgood.grainsDerivedFrom_eq x
  rw [runAt_eq]
  unfold node walkNbrs
  cases st.get C x with
  | error e => rfl
  | ok g =>
    simp only [hchildren, Except.toOption, Option.getD_some, List.foldl_append]
    rfl

theorem visit_append (es es' : List (Hash × Hash)) {s s' : Search Hash}
    (h : Bfs.visit (fun _ => false) es s = (s', false)) :
    Bfs.visit (fun _ => false) (es ++ es') s = Bfs.visit (fun _ => false) es' s' := by
  induction es generalizing s with
  | nil =>
    cases h
    rfl
  | cons e es ih =>
    rw [List.cons_append, Bfs.visit]
    rw [Bfs.visit] at h
    by_cases hseen : e.1 ∈ s.seen
    · rw [if_pos hseen] at h ⊢
      exact ih h
    · rw [if_neg hseen, if_neg Bool.false_ne_true] at h ⊢
      exact ih h

/-- **One level** visits the edges that leave it, and notes the runs of its grains. -/
theorem level_eq (hgood : st.Good C) (ns : String) (level : List Hash) {w : Lineage}
    {s : Search Hash} (h : Mirrors w s) : ∃ w' s' added,
      level.foldlM (node C st ns) w = .ok w' ∧
      Bfs.visit (fun _ => false) (edges (st.walkNbrs C ns) level) s = (s', false) ∧
      Mirrors w' s' ∧ w'.runs = st.noteAll C w.runs level ∧ Adds s s' added := by
  induction level generalizing w s with
  | nil => exact ⟨w, s, [], rfl, rfl, h, rfl, by simp [Adds]⟩
  | cons x level ih =>
    have hnote : Mirrors { w with runs := noteRun w.runs (st.runAt C x) } s :=
      ⟨h.visited, h.next⟩
    obtain ⟨s₁, added₁, hvisit₁, hm₁, hruns₁, htree₁, hnext₁⟩ :=
      visit_mirrors ((st.walkNbrs C ns x).map fun y => (y, x)) hnote
    have hfst : ((st.walkNbrs C ns x).map fun y => (y, x)).map Prod.fst = st.walkNbrs C ns x := by
      rw [List.map_map]
      exact List.map_id _
    rw [hfst] at hm₁ hruns₁
    obtain ⟨w', s', added, hfold, hvisit, hm, hruns, htree, hnext⟩ := ih hm₁
    refine ⟨w', s', added₁ ++ added, ?_, ?_, hm, ?_, ?_, ?_⟩
    · rw [List.foldlM_cons, node_eq hgood]
      exact hfold
    · have hedges : edges (st.walkNbrs C ns) (x :: level) =
          ((st.walkNbrs C ns x).map fun y => (y, x)) ++ edges (st.walkNbrs C ns) level := rfl
      rw [hedges, visit_append _ _ hvisit₁]
      exact hvisit
    · rw [hruns, hruns₁]
      rfl
    · rw [htree, htree₁, List.append_assoc]
    · rw [hnext, hnext₁, List.append_assoc]

/-- **The walk is a search**: it notes the runs of a level and of all the search finds
beyond it, in the order they are found. -/
theorem levels_eq (hgood : st.Good C) (ns : String) (n : ℕ) (level : List Hash) {w : Lineage}
    {s : Search Hash} (h : w.visited = s.seen) : ∃ w' added,
      levels C st ns (n + 1) level w = .ok w' ∧
      (Bfs.levels (fun _ => false) (st.walkNbrs C ns) n level s).1.tree.map Prod.fst =
        s.tree.map Prod.fst ++ added ∧
      (Bfs.levels (fun _ => false) (st.walkNbrs C ns) n level s).2 = false ∧
      w'.runs = st.noteAll C w.runs (level ++ added) := by
  induction n generalizing level w s with
  | zero =>
    have hmirrors : Mirrors { w with next := [] } { s with next := [] } := ⟨h, rfl⟩
    obtain ⟨w', s', added, hfold, -, -, hruns, -⟩ := level_eq hgood ns level hmirrors
    refine ⟨w', [], ?_, by simp [Bfs.levels], rfl, by simpa using hruns⟩
    rw [levels, hfold]
    show (if w'.next.isEmpty then pure w' else levels C st ns 0 w'.next w') = _
    split_ifs <;> rfl
  | succ n ih =>
    have hmirrors : Mirrors { w with next := [] } { s with next := [] } := ⟨h, rfl⟩
    obtain ⟨w₁, s₁, added₁, hfold, hvisit, hm, hruns, htree, hnext⟩ :=
      level_eq hgood ns level hmirrors
    have hnext' : w₁.next = added₁ := by
      rw [hm.next, hnext, List.nil_append]
    rw [levels, hfold, levels_succ hvisit, if_neg Bool.false_ne_true, ← hm.next]
    show ∃ w' added,
      (if w₁.next.isEmpty then pure w₁ else levels C st ns (n + 1) w₁.next w₁) = _ ∧ _
    by_cases hempty : w₁.next.isEmpty
    · rw [if_pos hempty, if_pos hempty]
      rw [List.isEmpty_iff, hnext'] at hempty
      refine ⟨w₁, [], rfl, ?_, rfl, by simpa using hruns⟩
      rw [htree, hempty]
    · rw [if_neg hempty, if_neg hempty]
      obtain ⟨w', added, hlevels, htree', hstop, hruns'⟩ := ih w₁.next hm.visited
      refine ⟨w', added₁ ++ added, hlevels, ?_, hstop, ?_⟩
      · rw [htree', htree, List.append_assoc]
      · rw [hruns', hruns, hnext']
        unfold noteAll
        rw [← List.foldl_append]

end Lineage

namespace DejaDB

/-! ## The runs of a walk -/

theorem mem_noteRun {runs : List String} {r : String} {o : Option String} :
    r ∈ noteRun runs o ↔ r ∈ runs ∨ o = some r := by
  cases o with
  | none => simp [noteRun]
  | some r' =>
    show r ∈ (if r' ∈ runs then runs else runs ++ [r']) ↔ _
    by_cases h : r' ∈ runs
    · rw [if_pos h]
      refine ⟨.inl, fun hr => hr.elim id fun heq => ?_⟩
      cases heq
      exact h
    · rw [if_neg h, List.mem_append, List.mem_singleton, Option.some.injEq, eq_comm (a := r')]

/-- **The runs noted** are those of the grains, each once, in the order of the grains
they are met at. -/
theorem noteAll_spec (C : Core G) (st : DejaDB) {D : Hash → Hash → Prop} {xs : List Hash}
    (h : xs.Pairwise D) :
    (∀ r, r ∈ st.noteAll C [] xs ↔ ∃ x ∈ xs, st.runAt C x = some r) ∧
    (st.noteAll C [] xs).Nodup ∧
    (st.noteAll C [] xs).Pairwise fun r r' => ∀ x' ∈ xs, st.runAt C x' = some r' →
      ∃ x ∈ xs, st.runAt C x = some r ∧ (x = x' ∨ D x x') := by
  induction xs using List.reverseRecOn with
  | nil => exact ⟨by simp [noteAll], by simp [noteAll], by simp [noteAll]⟩
  | append_singleton xs y ih =>
    rw [List.pairwise_append] at h
    obtain ⟨hxs, -, hlast⟩ := h
    obtain ⟨hmem, hnodup, hordered⟩ := ih hxs
    have hstep : st.noteAll C [] (xs ++ [y]) = noteRun (st.noteAll C [] xs) (st.runAt C y) := by
      simp [noteAll]
    have hmem' : ∀ r, r ∈ st.noteAll C [] (xs ++ [y]) ↔
        ∃ x ∈ xs ++ [y], st.runAt C x = some r := by
      intro r
      rw [hstep, mem_noteRun, hmem]
      simp [or_and_right, exists_or]
    -- what the runs noted before owe to the grain added
    have hold : ∀ r ∈ st.noteAll C [] xs, ∃ x ∈ xs, st.runAt C x = some r ∧ D x y := by
      intro r hr
      obtain ⟨x, hx, hrun⟩ := (hmem r).1 hr
      exact ⟨x, hx, hrun, hlast x hx y (List.mem_singleton_self y)⟩
    have hkept : (st.noteAll C [] xs).Pairwise fun r r' => ∀ x' ∈ xs ++ [y],
        st.runAt C x' = some r' → ∃ x ∈ xs ++ [y], st.runAt C x = some r ∧ (x = x' ∨ D x x') := by
      refine hordered.imp_of_mem fun {r r'} hr _ hrel x' hx' hrun => ?_
      rcases List.mem_append.1 hx' with hx' | hx'
      · obtain ⟨x, hx, hrest⟩ := hrel x' hx' hrun
        exact ⟨x, List.mem_append_left _ hx, hrest⟩
      · obtain rfl := List.mem_singleton.1 hx'
        obtain ⟨x, hx, hrun, hD⟩ := hold r hr
        exact ⟨x, List.mem_append_left _ hx, hrun, .inr hD⟩
    refine ⟨hmem', ?_⟩
    rw [hstep]
    cases hrun : st.runAt C y with
    | none => exact ⟨hnodup, hkept⟩
    | some r' =>
      rw [noteRun]
      by_cases hseen : r' ∈ st.noteAll C [] xs
      · rw [if_pos hseen]
        exact ⟨hnodup, hkept⟩
      · rw [if_neg hseen]
        refine ⟨List.nodup_append.2 ⟨hnodup, List.nodup_singleton r', ?_⟩, ?_⟩
        · rintro r hr r'' hr' rfl
          exact hseen (List.mem_singleton.1 hr' ▸ hr)
        · refine List.pairwise_append.2 ⟨hkept, List.pairwise_singleton _ _, ?_⟩
          rintro r hr r'' hr' x' hx' hrun'
          obtain rfl := List.mem_singleton.1 hr'
          rcases List.mem_append.1 hx' with hx' | hx'
          · exact absurd ((hmem _).2 ⟨x', hx', hrun'⟩) hseen
          · obtain rfl := List.mem_singleton.1 hx'
            obtain ⟨x, hx, hrun, hD⟩ := hold r hr
            exact ⟨x, List.mem_append_left _ hx, hrun, .inr hD⟩

/-- **The walk returns**, and reports the runs of the grains within its depth, the
nearer first. -/
theorem Good.runsTouching_walk (h : st.Good C) (ns : String) (hash : Hash) (depth : ℕ) :
    ∃ runs, st.runsTouching C ns hash depth = .ok runs ∧
      (∀ r, r ∈ runs ↔ ∃ n ≤ min depth 8, ∃ x,
        Walk (st.walkNbrs C ns) hash n x ∧ st.runAt C x = some r) ∧ runs.Nodup ∧
      runs.Pairwise fun r r' => ∀ n' x', Walk (st.walkNbrs C ns) hash n' x' →
        st.runAt C x' = some r' →
          ∃ n ≤ n', ∃ x, Walk (st.walkNbrs C ns) hash n x ∧ st.runAt C x = some r := by
  obtain ⟨w, added, hlevels, htree, hstop, hruns⟩ :=
    Lineage.levels_eq h ns (min depth 8) [hash] (w := ⟨[], [hash], []⟩)
      (s := .start hash) rfl
  have hfound := search_found (fun _ => false) (st.walkNbrs C ns) (min depth 8) hash
  have hadded : (search (fun _ => false) (st.walkNbrs C ns) (min depth 8) hash).1.tree.map
      Prod.fst = added := htree
  -- the nodes of the search are those within its depth
  have hnode : ∀ x, x ∈ hash :: added ↔ ∃ n ≤ min depth 8, Walk (st.walkNbrs C ns) hash n x := by
    intro x
    constructor
    · intro hx
      rcases List.mem_cons.1 hx with rfl | hx
      · exact ⟨0, Nat.zero_le _, .refl⟩
      · rw [← hadded] at hx
        obtain ⟨e, he, rfl⟩ := List.mem_map.1 hx
        obtain ⟨m, hm, -, hdist, -⟩ := hfound.parent e he
        exact ⟨m + 1, hm, hdist.1⟩
    · rintro ⟨n, hn, hwalk⟩
      rw [← hadded]
      exact (hfound.seen x).1 (search_complete hstop hn hwalk)
  have hpairwise : (hash :: added).Pairwise fun x y => ∀ m n,
      Dist (st.walkNbrs C ns) hash m x → Dist (st.walkNbrs C ns) hash n y → m ≤ n := by
    refine List.pairwise_cons.2 ⟨fun y _ m n hm _ => ?_, ?_⟩
    · rw [hm.unique .zero]
      exact Nat.zero_le n
    · rw [← hadded]
      exact List.pairwise_map.2 hfound.ordered
  obtain ⟨hmem, hnodup, hordered⟩ := noteAll_spec C st hpairwise
  have hruns' : w.runs = st.noteAll C [] (hash :: added) := hruns
  refine ⟨w.runs, ?_, ?_, ?_, ?_⟩
  · rw [runsTouching, hlevels]
    rfl
  · intro r
    rw [hruns', hmem]
    constructor
    · rintro ⟨x, hx, hrun⟩
      obtain ⟨n, hn, hwalk⟩ := (hnode x).1 hx
      exact ⟨n, hn, x, hwalk, hrun⟩
    · rintro ⟨n, hn, x, hwalk, hrun⟩
      exact ⟨x, (hnode x).2 ⟨n, hn, hwalk⟩, hrun⟩
  · rw [hruns']
    exact hnodup
  · rw [hruns']
    refine hordered.imp_of_mem fun {r r'} hr _ hrel n' x' hwalk hrun => ?_
    obtain ⟨m', hm', hdist'⟩ := hwalk.dist
    by_cases hdepth : m' ≤ min depth 8
    · obtain ⟨x, hx, hrun, hD⟩ := hrel x' ((hnode x').2 ⟨m', hdepth, hdist'.1⟩) hrun
      obtain ⟨n, hn, hxwalk⟩ := (hnode x).1 hx
      obtain ⟨m, -, hdist⟩ := hxwalk.dist
      refine ⟨m, ?_, x, hdist.1, hrun⟩
      rcases hD with rfl | hD
      · rw [hdist.unique hdist']
        exact hm'
      · exact (hD m m' hdist hdist').trans hm'
    · obtain ⟨x, hx, hrun⟩ := (hmem r).1 hr
      obtain ⟨n, hn, hxwalk⟩ := (hnode x).1 hx
      exact ⟨n, by omega, x, hxwalk, hrun⟩

/-! ## The two legs follow the links -/

theorem derived_mem_parents {v : DeserializedGrain} {p : Hash} (h : derivedHash v = some p) :
    p ∈ supersededParents v := by
  have hkeep : ∀ merged linear : List Hash, p ∈ linear →
      p ∈ merged.foldl (fun out h => if h ∈ out then out else out ++ [h]) linear := by
    intro merged
    induction merged with
    | nil => exact fun _ hp => hp
    | cons m merged ih =>
      intro linear hp
      rw [List.foldl_cons]
      apply ih
      by_cases hm : m ∈ linear
      · rwa [if_pos hm]
      · rw [if_neg hm]
        exact List.mem_append_left _ hp
  have hlinear : ((v.getStr "derived_from").bind Hash.fromHex).toList = [p] := by
    rw [show (v.getStr "derived_from").bind Hash.fromHex = some p from h]
    rfl
  unfold supersededParents
  rw [hlinear]
  exact hkeep _ _ (List.mem_singleton_self p)

/-- The one parent of a grain of the namespace. -/
theorem Plain.mem_parents {ns : String} (h : st.Plain C ns) {g : GrainRow}
    (hg : g ∈ st.grainsIn ns) {v : DeserializedGrain} (hv : g.view C = some v) {p : Hash} :
    p ∈ g.parents C ↔ derivedHash v = some p := by
  have hparents : g.parents C = supersededParents v := by
    rw [GrainRow.parents, hv]
    rfl
  rw [hparents]
  exact ⟨h.single g hg v hv p, derived_mem_parents⟩

theorem Good.mem_parentIn (h : st.Good C) {ns : String} (hp : st.Plain C ns)
    {v : DeserializedGrain} {y : Hash} :
    y ∈ st.parentIn C ns v ↔ derivedHash v = some y ∧ ∃ gy ∈ st.grainsIn ns, gy.hash = y := by
  unfold parentIn
  rw [Option.mem_toList, Option.filter_eq_some_iff]
  refine and_congr_right fun _ => ?_
  unfold get
  constructor
  · intro hy
    cases hfind : st.db.grainByHash y with
    | none => simp [hfind] at hy
    | some gy =>
      obtain ⟨hgy, hhash⟩ := h.grainByHash_iff.1 hfind
      obtain ⟨vy, hvy⟩ := h.viewed hgy
      simp only [hfind, GrainRow.view_eq_some.1 hvy, decide_eq_true_eq] at hy
      exact ⟨gy, h.mem_grainsIn_of_spells hgy hvy hy, hhash⟩
  · rintro ⟨gy, hgy, hhash⟩
    obtain ⟨vy, hvy⟩ := h.viewed (mem_grainsIn.1 hgy).1
    rw [h.grainByHash_iff.2 ⟨(mem_grainsIn.1 hgy).1, hhash⟩]
    simp only [GrainRow.view_eq_some.1 hvy, decide_eq_true_eq]
    exact hp.spelled gy hgy vy hvy

theorem Good.mem_childrenIn (h : st.Good C) {ns : String} (hp : st.Plain C ns) {x y : Hash} :
    y ∈ childrenIn ns ((st.grainsDerivedFrom C x).toOption.getD []) ↔
      ∃ gy ∈ st.grainsIn ns, gy.hash = y ∧ x ∈ gy.parents C := by
  obtain ⟨children, hchildren, hforall⟩ := h.grainsDerivedFrom_eq x
  rw [hchildren]
  simp only [Except.toOption, Option.getD_some, childrenIn, List.mem_map, List.mem_filter,
    decide_eq_true_eq]
  constructor
  · rintro ⟨c, ⟨hc, hns⟩, rfl⟩
    obtain ⟨g, hg, hview⟩ := forall₂_exists_left hforall c hc
    obtain ⟨hg, v, hv, hparent⟩ := h.mem_derivedRows.1 hg
    obtain rfl : v = c := by
      rw [hv] at hview
      exact Option.some.inj hview
    have hin := h.mem_grainsIn_of_spells hg hv hns
    exact ⟨g, hin, (hp.addressed g hin v hv).symm, (hp.mem_parents hin hv).2 hparent⟩
  · rintro ⟨g, hin, rfl, hparent⟩
    have hg := (mem_grainsIn.1 hin).1
    obtain ⟨v, hv⟩ := h.viewed hg
    have hrow := h.mem_derivedRows.2 ⟨hg, v, hv, (hp.mem_parents hin hv).1 hparent⟩
    obtain ⟨c, hc, hview⟩ := forall₂_exists_right hforall g hrow
    obtain rfl : v = c := by
      rw [hv] at hview
      exact Option.some.inj hview
    exact ⟨v, ⟨hc, hp.spelled g hin v hv⟩, hp.addressed g hin v hv⟩

/-- **The walk follows the links** of the namespace from a grain of it. -/
theorem Good.mem_walkNbrs (h : st.Good C) {ns : String} (hp : st.Plain C ns) {gx : GrainRow}
    (hx : gx ∈ st.grainsIn ns) {y : Hash} :
    y ∈ st.walkNbrs C ns gx.hash ↔ y ∈ st.linksOf C ns gx.hash := by
  have hgx := (mem_grainsIn.1 hx).1
  obtain ⟨v, hv⟩ := h.viewed hgx
  have hfind := h.grainByHash_iff.2 ⟨hgx, rfl⟩
  have hget : st.get C gx.hash = .ok v := by
    rw [get, hfind]
    exact GrainRow.view_eq_some.1 hv
  have hlinks : y ∈ st.linksOf C ns gx.hash ↔ ∃ gy ∈ st.grainsIn ns, gy.hash = y ∧
      (y ∈ gx.parents C ∨ gx.hash ∈ gy.parents C) := by
    unfold linksOf
    rw [List.mem_map]
    simp only [List.mem_filter, hfind, Option.any_some, Bool.decide_or, Bool.or_eq_true,
      decide_eq_true_eq]
    constructor
    · rintro ⟨gy, ⟨hgy, hlink⟩, rfl⟩
      exact ⟨gy, hgy, rfl, hlink⟩
    · rintro ⟨gy, hgy, rfl, hlink⟩
      exact ⟨gy, ⟨hgy, hlink⟩, rfl⟩
  rw [hlinks, walkNbrs, hget]
  rw [List.mem_append, h.mem_parentIn hp, h.mem_childrenIn hp, hp.mem_parents hx hv]
  constructor
  · rintro (⟨hparent, gy, hgy, hhash⟩ | ⟨gy, hgy, hhash, hchild⟩)
    · exact ⟨gy, hgy, hhash, .inl hparent⟩
    · exact ⟨gy, hgy, hhash, .inr hchild⟩
  · rintro ⟨gy, hgy, hhash, hparent | hchild⟩
    · exact .inl ⟨hparent, gy, hgy, hhash⟩
    · exact .inr ⟨gy, hgy, hhash, hchild⟩

theorem Good.walk_iff (h : st.Good C) {ns : String} (hp : st.Plain C ns) {gx : GrainRow}
    (hx : gx ∈ st.grainsIn ns) {n : ℕ} {y : Hash} :
    Walk (st.walkNbrs C ns) gx.hash n y ↔ Walk (st.linksOf C ns) gx.hash n y := by
  -- the grains met are grains of the namespace
  have hstored : ∀ {n y}, Walk (st.linksOf C ns) gx.hash n y →
      ∃ gy ∈ st.grainsIn ns, gy.hash = y := by
    intro n y hwalk
    cases hwalk with
    | refl => exact ⟨gx, hx, rfl⟩
    | step _ hlink =>
      obtain ⟨gy, hgy, rfl⟩ := List.mem_map.1 hlink
      exact ⟨gy, (List.mem_filter.1 hgy).1, rfl⟩
  constructor
  · intro hwalk
    induction hwalk with
    | refl => exact .refl
    | step _ hlink ih =>
      obtain ⟨gb, hgb, rfl⟩ := hstored ih
      exact .step ih ((h.mem_walkNbrs hp hgb).1 hlink)
  · intro hwalk
    induction hwalk with
    | refl => exact .refl
    | step hwalk hlink ih =>
      obtain ⟨gb, hgb, rfl⟩ := hstored hwalk
      exact .step ih ((h.mem_walkNbrs hp hgb).2 hlink)

/-- **Where every grain of the namespace has the parent of its `derived_from` and no
other**, the runs reported are those within reach. -/
theorem Good.runsTouching_exact (h : st.Good C) {ns : String} (hp : st.Plain C ns)
    {gx : GrainRow} (hx : gx ∈ st.grainsIn ns) (depth : ℕ) :
    ∃ runs, st.runsTouching C ns gx.hash depth = .ok runs ∧
      st.TouchesOk C ns gx.hash depth runs := by
  obtain ⟨runs, hruns, hmem, hnodup, hordered⟩ := h.runsTouching_walk ns gx.hash depth
  refine ⟨runs, hruns, ⟨?_, hnodup, ?_⟩⟩
  · simpa only [h.walk_iff hp hx] using hmem
  · simpa only [h.walk_iff hp hx] using hordered

/-! ## The yield of a run -/

/-- What the loop over the children keeps: distinct grains, all seen and none of the
run. -/
structure Kept (inRun seen : List Hash) (out : List DeserializedGrain) : Prop where
  seen : ∀ x, x ∈ seen ↔ x ∈ inRun ∨ x ∈ out.map DeserializedGrain.hash
  nodup : (out.map DeserializedGrain.hash).Nodup
  outside : ∀ v ∈ out, v.hash ∉ inRun

theorem Kept.push {inRun seen : List Hash} {out : List DeserializedGrain}
    (h : Kept inRun seen out) {c : DeserializedGrain} (hrun : c.hash ∉ inRun)
    (hseen : c.hash ∉ seen) : Kept inRun (c.hash :: seen) (out ++ [c]) where
  seen x := by
    rw [List.mem_cons, h.seen, List.map_append, List.mem_append, List.map_singleton,
      List.mem_singleton]
    tauto
  nodup := by
    rw [List.map_append, List.map_singleton, List.nodup_append]
    refine ⟨h.nodup, List.nodup_singleton _, ?_⟩
    rintro x hx y hy rfl
    rw [List.mem_singleton] at hy
    exact hseen ((h.seen _).2 (.inr (hy ▸ hx)))
  outside v hv := by
    rcases List.mem_append.1 hv with hv | hv
    · exact h.outside v hv
    · rw [List.mem_singleton.1 hv]
      exact hrun

/-- What is kept of some children: as many as the limit, or every one not of the run. -/
structure Took (limit : ℕ) (inRun : List Hash) (cs out out' : List DeserializedGrain) :
    Prop where
  bounded : out'.length ≤ limit
  taken : ∀ v ∈ out', v ∈ out ∨ v ∈ cs
  all : out'.length < limit → (∀ v ∈ out, v ∈ out') ∧
    ∀ c ∈ cs, c.hash ∈ inRun ∨ c.hash ∈ out'.map DeserializedGrain.hash

theorem Took.cons {limit : ℕ} {inRun : List Hash} {c : DeserializedGrain}
    {cs out out₁ out' : List DeserializedGrain} (h : Took limit inRun cs out₁ out')
    (hfrom : ∀ v ∈ out₁, v ∈ out ∨ v = c) (hkept : ∀ v ∈ out, v ∈ out₁)
    (hc : c.hash ∈ inRun ∨ c.hash ∈ out₁.map DeserializedGrain.hash) :
    Took limit inRun (c :: cs) out out' where
  bounded := h.bounded
  taken v hv := by
    rcases h.taken v hv with hv | hv
    · rcases hfrom v hv with hv | rfl
      · exact .inl hv
      · exact .inr List.mem_cons_self
    · exact .inr (List.mem_cons_of_mem _ hv)
  all hlt := by
    obtain ⟨hold, hcs⟩ := h.all hlt
    refine ⟨fun v hv => hold v (hkept v hv), List.forall_mem_cons.2 ⟨?_, hcs⟩⟩
    refine hc.imp_right fun hmem => ?_
    obtain ⟨v, hv, heq⟩ := List.mem_map.1 hmem
    exact List.mem_map.2 ⟨v, hold v hv, heq⟩

theorem keepChildren_spec {limit : ℕ} {inRun : List Hash} {cs : List DeserializedGrain}
    {seen : List Hash} {out : List DeserializedGrain} (h : Kept inRun seen out)
    (hlt : out.length < limit) {seen' : List Hash} {out' : List DeserializedGrain} {b : Bool}
    (hkeep : keepChildren limit inRun cs seen out = (seen', out', b)) :
    Kept inRun seen' out' ∧ Took limit inRun cs out out' ∧
      (b = true → out'.length = limit) ∧ (b = false → out'.length < limit) := by
  induction cs generalizing seen out with
  | nil =>
    cases hkeep
    exact ⟨h, ⟨hlt.le, fun _ hv => .inl hv, fun _ => ⟨fun _ hv => hv, fun _ hc => nomatch hc⟩⟩,
      Bool.noConfusion, fun _ => hlt⟩
  | cons c cs ih =>
    rw [keepChildren] at hkeep
    by_cases hnew : c.hash ∉ inRun ∧ c.hash ∉ seen
    · rw [if_pos hnew] at hkeep
      have hpush := h.push hnew.1 hnew.2
      have hlast : c.hash ∈ (out ++ [c]).map DeserializedGrain.hash :=
        List.mem_map_of_mem (List.mem_append_right _ (List.mem_singleton_self c))
      have hfrom : ∀ v ∈ out ++ [c], v ∈ out ∨ v = c := fun v hv =>
        (List.mem_append.1 hv).imp_right List.mem_singleton.1
      by_cases hfull : limit ≤ (out ++ [c]).length
      · rw [if_pos hfull] at hkeep
        cases hkeep
        have hlen : (out ++ [c]).length = limit := by
          rw [List.length_append, List.length_singleton] at hfull ⊢
          omega
        refine ⟨hpush, ⟨hlen.le, fun v hv => ?_, fun hlt => ?_⟩, fun _ => hlen, Bool.noConfusion⟩
        · rcases hfrom v hv with hv | rfl
          · exact .inl hv
          · exact .inr List.mem_cons_self
        · exact absurd hlen hlt.ne
      · rw [if_neg hfull] at hkeep
        obtain ⟨hkept, htook, hrest⟩ := ih hpush (not_le.1 hfull) hkeep
        exact ⟨hkept, htook.cons hfrom (fun _ hv => List.mem_append_left _ hv) (.inr hlast), hrest⟩
    · rw [if_neg hnew] at hkeep
      obtain ⟨hkept, htook, hrest⟩ := ih h hlt hkeep
      have hc : c.hash ∈ inRun ∨ c.hash ∈ out.map DeserializedGrain.hash := by
        by_contra hno
        rw [not_or] at hno
        exact hnew ⟨hno.1, fun hseen => ((h.seen _).1 hseen).elim hno.1 hno.2⟩
      exact ⟨hkept, htook.cons (fun _ hv => .inl hv) (fun _ hv => hv) hc, hrest⟩

theorem Took.append {limit : ℕ} {inRun : List Hash}
    {cs cs' out out₁ out' : List DeserializedGrain} (h : Took limit inRun cs out out₁)
    (hlt : out₁.length < limit) (h' : Took limit inRun cs' out₁ out') :
    Took limit inRun (cs ++ cs') out out' where
  bounded := h'.bounded
  taken v hv := by
    rw [List.mem_append]
    rcases h'.taken v hv with hv | hv
    · exact (h.taken v hv).imp_right .inl
    · exact .inr (.inr hv)
  all hlt' := by
    obtain ⟨hold, hcs⟩ := h.all hlt
    obtain ⟨hold', hcs'⟩ := h'.all hlt'
    refine ⟨fun v hv => hold' v (hold v hv), fun c hc => ?_⟩
    rcases List.mem_append.1 hc with hc | hc
    · refine (hcs c hc).imp_right fun hmem => ?_
      obtain ⟨v, hv, heq⟩ := List.mem_map.1 hmem
      exact List.mem_map.2 ⟨v, hold' v hv, heq⟩
    · exact hcs' c hc

/-- The children of the grains of a trace, in the order they are visited. -/
def childrenOf (C : Core G) (st : DejaDB) (gs : List DeserializedGrain) :
    List DeserializedGrain :=
  gs.flatMap fun g => (st.grainsDerivedFrom C g.hash).toOption.getD []

/-- **The loop over a trace** keeps of the children what is not of the run, up to the
limit. -/
theorem Good.yieldFrom_spec (h : st.Good C) {limit : ℕ} {inRun : List Hash}
    (gs : List DeserializedGrain) {seen : List Hash} {out : List DeserializedGrain}
    (hkept : Kept inRun seen out) (hlt : out.length < limit) :
    ∃ out' seen', st.yieldFrom C limit inRun gs seen out = .ok out' ∧ Kept inRun seen' out' ∧
      Took limit inRun (st.childrenOf C gs) out out' := by
  induction gs generalizing seen out with
  | nil =>
    exact ⟨out, seen, rfl, hkept,
      ⟨hlt.le, fun _ hv => .inl hv, fun _ => ⟨fun _ hv => hv, fun _ hc => nomatch hc⟩⟩⟩
  | cons g gs ih =>
    obtain ⟨children, hchildren, -⟩ := h.grainsDerivedFrom_eq g.hash
    have hof : st.childrenOf C (g :: gs) = children ++ st.childrenOf C gs := by
      rw [childrenOf, List.flatMap_cons, hchildren]
      rfl
    rw [hof]
    rcases hkeep : keepChildren limit inRun children seen out with ⟨seen₁, out₁, b⟩
    obtain ⟨hkept₁, htook, hfull, hroom⟩ := keepChildren_spec hkept hlt hkeep
    cases b with
    | true =>
      refine ⟨out₁, seen₁, ?_, hkept₁, ⟨htook.bounded, fun v hv => ?_, fun hlt => ?_⟩⟩
      · rw [yieldFrom, hchildren]
        simp only [bind, Except.bind, hkeep]
        rfl
      · exact (htook.taken v hv).imp_right fun hc => List.mem_append_left _ hc
      · exact absurd (hfull rfl) hlt.ne
    | false =>
      obtain ⟨out', seen', hyield, hkept', htook'⟩ := ih hkept₁ (hroom rfl)
      refine ⟨out', seen', ?_, hkept', htook.append (hroom rfl) htook'⟩
      rw [yieldFrom, hchildren]
      simp only [bind, Except.bind, hkeep]
      exact hyield

/-- The children of the grains of a run are the stored grains derived from one. -/
theorem Good.mem_childrenOf (h : st.Good C) {ns runId : String} {limit : ℕ}
    (hp : st.Plain C ns) (hfits : st.Fits ns runId limit) {trace : List DeserializedGrain}
    (htrace : List.Forall₂ (fun g v => g.view C = some v) (st.runHits ns runId) trace)
    {c : DeserializedGrain} :
    c ∈ st.childrenOf C trace ↔ ∃ g ∈ st.grainsIn ns, g.view C = some c ∧
      ∃ p ∈ st.runHits ns runId, p.hash ∈ g.parents C := by
  -- a trace grain reads the children of its row
  have hread : ∀ {p : GrainRow} {v : DeserializedGrain}, p ∈ st.runHits ns runId →
      p.view C = some v → (c ∈ (st.grainsDerivedFrom C v.hash).toOption.getD [] ↔
        ∃ g ∈ st.grainsIn ns, g.view C = some c ∧ p.hash ∈ g.parents C) := by
    intro p v hrun hv
    rw [hp.addressed p (h.mem_grainsIn_of_run hrun) v hv]
    obtain ⟨children, hchildren, hforall⟩ := h.grainsDerivedFrom_eq p.hash
    rw [hchildren]
    simp only [Except.toOption, Option.getD_some]
    constructor
    · intro hc
      obtain ⟨g, hg, hview⟩ := forall₂_exists_left hforall c hc
      have hin := hfits.home p hrun g hg
      obtain ⟨-, v, hv, hparent⟩ := h.mem_derivedRows.1 hg
      exact ⟨g, hin, hview, (hp.mem_parents hin hv).2 hparent⟩
    · rintro ⟨g, hin, hview, hparent⟩
      have hrow := h.mem_derivedRows.2
        ⟨(mem_grainsIn.1 hin).1, c, hview, (hp.mem_parents hin hview).1 hparent⟩
      obtain ⟨c', hc', hview'⟩ := forall₂_exists_right hforall g hrow
      rw [hview] at hview'
      cases hview'
      exact hc'
  unfold childrenOf
  rw [List.mem_flatMap]
  constructor
  · rintro ⟨v, hv, hc⟩
    obtain ⟨p, hrun, hview⟩ := forall₂_exists_left htrace v hv
    obtain ⟨g, hin, hgview, hparent⟩ := (hread hrun hview).1 hc
    exact ⟨g, hin, hgview, p, hrun, hparent⟩
  · rintro ⟨g, hin, hgview, p, hrun, hparent⟩
    obtain ⟨v, hv, hview⟩ := forall₂_exists_right htrace p hrun
    exact ⟨v, hv, (hread hrun hview).2 ⟨g, hin, hgview, hparent⟩⟩

theorem Good.mem_inRun (h : st.Good C) {ns runId : String} (hp : st.Plain C ns)
    {trace : List DeserializedGrain}
    (htrace : List.Forall₂ (fun g v => g.view C = some v) (st.runHits ns runId) trace)
    {g : GrainRow} (hg : g ∈ st.grainsIn ns) :
    g.hash ∈ trace.map DeserializedGrain.hash ↔ g ∈ st.runHits ns runId := by
  rw [List.mem_map]
  constructor
  · rintro ⟨v, hv, heq⟩
    obtain ⟨q, hq, hview⟩ := forall₂_exists_left htrace v hv
    have hin := h.mem_grainsIn_of_run hq
    have hhash : q.hash = g.hash := by rw [← hp.addressed q hin v hview, heq]
    rwa [← h.rowsOk.eq_of_hash (mem_grainsIn.1 hin).1 (mem_grainsIn.1 hg).1 hhash]
  · intro hrun
    obtain ⟨v, hv, hview⟩ := forall₂_exists_right htrace g hrun
    exact ⟨v, hv, hp.addressed g hg v hview⟩

/-- Distinct grains of a list that are as many as the list are all of it. -/
theorem mem_of_length_le {α : Type} {xs : List α} (hnodup : xs.Nodup) (ys : List α)
    (hsub : ∀ x ∈ xs, x ∈ ys) (hlen : ys.length ≤ xs.length) {y : α} (hy : y ∈ ys) : y ∈ xs :=
  ((hnodup.subperm hsub).perm_of_length_le hlen).mem_iff.2 hy

/-- **Where the run fits in its trace and its children are of its namespace**, the yield
is the grains derived from the run and not part of it. -/
theorem Good.runYield_exact (h : st.Good C) {ns runId : String} {limit : ℕ}
    (hp : st.Plain C ns) (hfits : st.Fits ns runId limit) (hpos : 0 < limit) :
    ∃ out, st.runYield C ns runId limit = .ok out ∧ st.YieldOk C ns runId limit out := by
  obtain ⟨trace, htrace, hforall⟩ := mapM_viewed (st.runHits ns runId)
    fun g hg => h.viewed (mem_grainsIn.1 (h.mem_grainsIn_of_run hg)).1
  have hrunTrace : st.runTrace C ns runId limit = .ok trace := by
    rw [runTrace_eq_hits, List.take_of_length_le hfits.short]
    exact htrace
  have hstart : Kept (trace.map DeserializedGrain.hash) (trace.map DeserializedGrain.hash) [] :=
    ⟨fun x => by simp, List.nodup_nil, fun _ hv => nomatch hv⟩
  obtain ⟨out, seen, hyield, hkept, htook⟩ := h.yieldFrom_spec trace hstart hpos
  have hmemYields : ∀ {g : GrainRow}, g ∈ st.yields C ns runId ↔ g ∈ st.grainsIn ns ∧
      g ∉ st.runHits ns runId ∧ ∃ p ∈ st.runHits ns runId, p.hash ∈ g.parents C := by
    intro g
    simp [yields, List.mem_filter]
  have hsound : ∀ v ∈ out, ∃ g ∈ st.yields C ns runId, g.view C = some v := by
    intro v hv
    have hchild := (htook.taken v hv).resolve_left (fun hnil => nomatch hnil)
    obtain ⟨g, hin, hview, hparent⟩ := (h.mem_childrenOf hp hfits hforall).1 hchild
    refine ⟨g, hmemYields.2 ⟨hin, fun hrun => ?_, hparent⟩, hview⟩
    refine hkept.outside v hv ?_
    rw [hp.addressed g hin v hview]
    exact (h.mem_inRun hp hforall hin).2 hrun
  refine ⟨out, ?_, ⟨htook.bounded, hkept.nodup, hsound, fun hfew _ g hg => ?_⟩⟩
  · rw [runYield, hrunTrace]
    exact hyield
  · obtain ⟨hin, houtside, hparent⟩ := hmemYields.1 hg
    obtain ⟨v, hv⟩ := h.viewed (mem_grainsIn.1 hin).1
    have hhash := hp.addressed g hin v hv
    have hmem : g.hash ∈ out.map DeserializedGrain.hash := by
      rcases htook.bounded.lt_or_eq with hlt | hfull
      · have hchild := (h.mem_childrenOf hp hfits hforall).2 ⟨g, hin, hv, hparent⟩
        rcases (htook.all hlt).2 v hchild with hrun | hout
        · rw [hhash] at hrun
          exact absurd ((h.mem_inRun hp hforall hin).1 hrun) houtside
        · rwa [hhash] at hout
      · -- a full answer leaves no room for a yield it lacks
        refine mem_of_length_le hkept.nodup ((st.yields C ns runId).map GrainRow.hash)
          (fun x hx => ?_) ?_ (List.mem_map_of_mem hg)
        · obtain ⟨v', hv', rfl⟩ := List.mem_map.1 hx
          obtain ⟨g', hg', hview'⟩ := hsound v' hv'
          rw [hp.addressed g' (hmemYields.1 hg').1 v' hview']
          exact List.mem_map_of_mem hg'
        · rwa [List.length_map, List.length_map, hfull]
    obtain ⟨v', hv', heq⟩ := List.mem_map.1 hmem
    obtain ⟨g', hg', hview'⟩ := hsound v' hv'
    have hin' := (hmemYields.1 hg').1
    have hsame : g' = g := h.rowsOk.eq_of_hash (mem_grainsIn.1 hin').1 (mem_grainsIn.1 hin).1
      (by rw [← hp.addressed g' hin' v' hview', heq])
    exact ⟨v', hv', hsame ▸ hview'⟩

theorem runYield_zero (ns runId : String) : st.runYield C ns runId 0 = .ok [] := by
  rw [runYield, runTrace_eq_hits, Nat.zero_min, List.take_zero]
  rfl

theorem yieldOk_zero (ns runId : String) : st.YieldOk C ns runId 0 [] where
  bounded := le_rfl
  nodup := List.nodup_nil
  sound _ hv := nomatch hv
  complete hfew _ g hg := by
    rw [List.length_eq_zero_iff.1 (Nat.le_zero.1 hfew)] at hg
    exact nomatch hg

end DejaDB

/-- The sample codec for grains of runs: a grain spells its namespace, and one with a
content was recorded during the run of that name. -/
def runCore : Core SampleBody :=
  { sampleCore with
    decodePayload := fun payload => (Sample.decode payload).map fun fields =>
      fields ++ ("namespace", .str "shared") ::
        (fields.filter fun f => f.1 = "content").map fun f => ("run_id", f.2) }

/-- Two grains of the run `a`, and a fact distilled from the first of them. -/
def distilled : DejaDB := (createStore runCore none fun _ => 9).steps runCore
  [.add ⟨.fact, none, none, ⟨1, 5, 1, 2, 3, 1, 0⟩⟩,
    .add ⟨.fact, none, none, ⟨2, 6, 4, 2, 3, 1, 0⟩⟩,
    .add ⟨.fact, some (Hash.ofByte 1).toHex, none, ⟨3, 7, 5, 2, 3, 0, 0⟩⟩]

theorem distilled_reachable : Reachable runCore distilled :=
  Reachable.steps ⟨none, fun _ => 9, [], rfl⟩ _

theorem distilled_plain : distilled.Plain runCore "shared" where
  addressed := by decide +kernel
  spelled := by decide +kernel
  single := by decide +kernel

end Deja
