import Deja.Lib.Bfs
import Deja.Spec.Rows

/-!
# Bounded graph search

`related` and `path` walk the current edges of a file breadth first.  A query reads at
most 64 edges of a node and relation, and the search stops where it has found enough.
What `related` returns is sound, in order and complete (`RelatedOk`) but for a cap of
zero, which is looked at only after the first term was found, and for terms that the
limit of 64 edges moves away; `path` returns a shortest
chain (`PathOk`) but for a term asked for from itself, which is never found
(`related_path_iff`).
-/

namespace Deja

open Bfs

variable {G : Type} {C : Core G}

/-! ## Edges -/

/-- `Direction`. -/
inductive Direction where
  | out | in_ | both
  deriving DecidableEq

/-- The order in which a query that asks for none returns its rows. -/
structure Scan where
  order : List ℤ → List ℤ
  perm : ∀ l, (order l).Perm l

/-- The order the rows were inserted in. -/
def Scan.stored : Scan := ⟨id, fun l => .refl l⟩

namespace Tables

variable (t : Tables)

/-- `SELECT o FROM triples WHERE ns=? AND s=? AND p=? AND cur=1`. -/
def objectsOf (ns node p : ℤ) : List ℤ :=
  (t.triples.filter fun r => r.ns = ns ∧ r.s = node ∧ r.p = p ∧ r.cur).map TripleRow.o

/-- `SELECT s FROM osp WHERE ns=? AND o=? AND p=? AND cur=1`. -/
def subjectsOf (ns node p : ℤ) : List ℤ :=
  (t.osp.filter fun r => r.ns = ns ∧ r.o = node ∧ r.p = p ∧ r.cur).map OspRow.s

/-- The edges of a node, a list for each query of the search. -/
def edgeLists (dir : Direction) (ns : ℤ) (rels : List ℤ) (node : ℤ) : List (List ℤ) :=
  rels.flatMap fun p =>
    (if dir = .out ∨ dir = .both then [t.objectsOf ns node p] else []) ++
      (if dir = .in_ ∨ dir = .both then [t.subjectsOf ns node p] else [])

/-- All current edges of a node. -/
def edgesOf (dir : Direction) (ns : ℤ) (rels : List ℤ) (node : ℤ) : List ℤ :=
  (t.edgeLists dir ns rels node).flatten

/-- The edges of a node the search reads. -/
def readEdges (scan : Scan) (dir : Direction) (ns : ℤ) (rels : List ℤ) (node : ℤ) : List ℤ :=
  (t.edgeLists dir ns rels node).flatMap fun l => (scan.order l).take 64

end Tables

/-! ## The searches -/

namespace DejaDB

variable (st : DejaDB)

/-- The relations the dictionary knows. -/
def relIds (relations : List String) : List ℤ := relations.filterMap st.termLookup

/-- The loop of `related`. -/
def relatedSearch (scan : Scan) (ns start : ℤ) (rels : List ℤ) (dir : Direction)
    (depth cap : ℕ) : Search ℤ :=
  (search (fun s => min cap 512 ≤ s.tree.length) (st.db.readEdges scan dir ns rels)
    (min depth 4) start).1

/-- `related`. -/
def related (scan : Scan) (ns start : String) (relations : List String) (dir : Direction)
    (depth cap : ℕ) : List String :=
  match st.termLookup ns, st.termLookup start with
  | some nsId, some startId =>
    if (st.relIds relations).isEmpty then []
    else
      ((st.relatedSearch scan nsId startId (st.relIds relations) dir depth cap).tree.map
        Prod.fst).filterMap st.termStr
  | _, _ => []

/-- The loop of `path`: it stops where it has found the target, or too much. -/
def pathSearch (scan : Scan) (ns a b : ℤ) (rels : List ℤ) (maxDepth : ℕ) : Search ℤ :=
  (search (fun s => s.tree.getLast?.any (·.1 = b) || 2048 < s.seen.length)
    (st.db.readEdges scan .out ns rels) (min maxDepth 6) a).1

/-- `path`. -/
def path (scan : Scan) (ns source target : String) (relations : List String) (maxDepth : ℕ) :
    Option (List String) :=
  match st.termLookup ns, st.termLookup source, st.termLookup target with
  | some nsId, some a, some b =>
    if (st.relIds relations).isEmpty then none
    else
      let found := st.pathSearch scan nsId a b (st.relIds relations) maxDepth
      if b ∈ found.tree.map Prod.fst then
        some ((b :: backtrack found.tree a (min maxDepth 6) b).reverse.filterMap st.termStr)
      else none
  | _, _, _ => none

/-! ## What they are for -/

/-- `y` is reached from `x` by `n` edges of the given lists. -/
def HopsOver (edges : ℤ → List ℤ → ℤ → List ℤ) (ns : String) (relations : List String) (n : ℕ)
    (x y : String) : Prop :=
  ∃ nsId a b, st.termLookup ns = some nsId ∧ st.termLookup x = some a ∧
    st.termLookup y = some b ∧ Walk (edges nsId (st.relIds relations)) a n b

/-- `y` is reached from `x` by `n` current edges. -/
def Hops (dir : Direction) : String → List String → ℕ → String → String → Prop :=
  st.HopsOver (st.db.edgesOf dir)

/-- `y` is reached from `x` by `n` of the edges a search reads. -/
def ReadHops (scan : Scan) (dir : Direction) : String → List String → ℕ → String → String → Prop :=
  st.HopsOver (st.db.readEdges scan dir)

/-- A node has at most 64 edges of each relation. -/
def Narrow (dir : Direction) (ns : String) (relations : List String) (x : String) : Prop :=
  ∀ nsId a, st.termLookup ns = some nsId → st.termLookup x = some a →
    ∀ l ∈ st.db.edgeLists dir nsId (st.relIds relations) a, l.length ≤ 64

/-- The limit of 64 edges moves no term away: one that the edges read lead to within the
depth is no farther by them than by all edges. -/
def Unmoved (scan : Scan) (ns start : String) (relations : List String) (dir : Direction)
    (depth : ℕ) : Prop :=
  ∀ t m n, m ≤ min depth 4 → st.ReadHops scan dir ns relations m start t →
    st.Hops dir ns relations n start t → ∃ k ≤ n, st.ReadHops scan dir ns relations k start t

/-- What `related` promises. -/
structure RelatedOk (ns start : String) (relations : List String)
    (dir : Direction) (depth cap : ℕ) (out : List String) : Prop where
  distinct : out.Nodup
  others : start ∉ out
  near : ∀ t ∈ out, ∃ n ≤ min depth 4, st.Hops dir ns relations n start t
  ordered : out.Pairwise fun t t' => ∀ n', st.Hops dir ns relations n' start t' →
    ∃ n ≤ n', st.Hops dir ns relations n start t
  bounded : out.length ≤ cap
  complete : (∀ x ∈ start :: out, st.Narrow dir ns relations x) → out.length < min cap 512 →
    ∀ t n, t ≠ start → n ≤ min depth 4 → st.Hops dir ns relations n start t → t ∈ out

/-- Nothing kept the search of a path from what it looks for: the nodes it saw are
narrow, and not too many. -/
def Unhindered (scan : Scan) (ns source target : String) (relations : List String)
    (maxDepth : ℕ) : Prop :=
  ∀ nsId a b, st.termLookup ns = some nsId → st.termLookup source = some a →
    st.termLookup target = some b →
      (st.pathSearch scan nsId a b (st.relIds relations) maxDepth).seen.length ≤ 2048 ∧
        ∀ x ∈ (st.pathSearch scan nsId a b (st.relIds relations) maxDepth).seen,
          ∀ l ∈ st.db.edgeLists .out nsId (st.relIds relations) x, l.length ≤ 64

/-- What `path` promises. -/
structure PathOk (scan : Scan) (ns source target : String) (relations : List String)
    (maxDepth : ℕ) (out : Option (List String)) : Prop where
  ends : ∀ c, out = some c → c.head? = some source ∧ c.getLast? = some target
  joined : ∀ c, out = some c → c.IsChain fun x y => st.Hops .out ns relations 1 x y
  short : ∀ c, out = some c → c.length ≤ min maxDepth 6 + 1
  finds : st.Unhindered scan ns source target relations maxDepth →
    ∀ n ≤ min maxDepth 6, st.Hops .out ns relations n source target →
      ∃ c, out = some c ∧ c.length ≤ n + 1

end DejaDB

/-! ## Edges and terms -/

section Edges

variable {t : Tables} {scan : Scan} {dir : Direction} {ns : ℤ} {rels : List ℤ} {x y : ℤ}

theorem Tables.mem_edgesOf :
    y ∈ t.edgesOf dir ns rels x ↔ ∃ l ∈ t.edgeLists dir ns rels x, y ∈ l := List.mem_flatten

theorem Tables.edgesOf_of_read (h : y ∈ t.readEdges scan dir ns rels x) :
    y ∈ t.edgesOf dir ns rels x := by
  obtain ⟨l, hl, hy⟩ := List.mem_flatMap.1 h
  exact mem_edgesOf.2 ⟨l, hl, (scan.perm l).mem_iff.1 (List.mem_of_mem_take hy)⟩

/-- All edges of a narrow node are read. -/
theorem Tables.read_of_edgesOf (hnarrow : ∀ l ∈ t.edgeLists dir ns rels x, l.length ≤ 64)
    (h : y ∈ t.edgesOf dir ns rels x) : y ∈ t.readEdges scan dir ns rels x := by
  obtain ⟨l, hl, hy⟩ := mem_edgesOf.1 h
  refine List.mem_flatMap.2 ⟨l, hl, ?_⟩
  rw [List.take_of_length_le ((scan.perm l).length_eq.trans_le (hnarrow l hl))]
  exact (scan.perm l).mem_iff.2 hy

/-- The other end of an edge is in a stored row. -/
theorem Tables.edge_stored (h : y ∈ t.edgesOf dir ns rels x) :
    (∃ r ∈ t.triples, r.o = y) ∨ ∃ r ∈ t.osp, r.s = y := by
  obtain ⟨l, hl, hy⟩ := mem_edgesOf.1 h
  obtain ⟨p, -, hl⟩ := List.mem_flatMap.1 hl
  rcases List.mem_append.1 hl with hl | hl
  · split_ifs at hl
    · cases List.mem_singleton.1 hl
      obtain ⟨r, hr, rfl⟩ := List.mem_map.1 hy
      exact .inl ⟨r, (List.mem_filter.1 hr).1, rfl⟩
    · cases hl
  · split_ifs at hl
    · cases List.mem_singleton.1 hl
      obtain ⟨r, hr, rfl⟩ := List.mem_map.1 hy
      exact .inr ⟨r, (List.mem_filter.1 hr).1, rfl⟩
    · cases hl

end Edges

variable {st : DejaDB}

theorem DictOk.termStr_eq_some (h : DictOk st) {id : ℤ} {x : String} :
    st.termStr id = some x ↔ st.termLookup x = some id := by
  unfold DejaDB.termStr DejaDB.termLookup
  rw [Option.map_eq_some_iff]
  constructor
  · rintro ⟨e, he, rfl⟩
    have hid : e.2 = id := by simpa using List.find?_some he
    subst hid
    exact Assoc.lookup_of_mem h.keys (List.mem_of_find?_eq_some he)
  · intro hx
    have hmem := Assoc.mem_of_lookup hx
    cases hf : st.dict.find? fun e => e.2 = id with
    | none =>
      have hno := List.find?_eq_none.1 hf _ hmem
      simp at hno
    | some e =>
      have hid : e.2 = id := by simpa using List.find?_some hf
      subst hid
      have he := Assoc.lookup_of_mem h.keys (List.mem_of_find?_eq_some hf)
      exact ⟨e, rfl, h.injective he hx⟩

theorem Linked.terms_of_spo {view : DeserializedGrain} {pr : GrainPrep}
    (h : Linked C st view pr) {s p o : ℤ} (hspo : pr.spo = some (s, p, o)) :
    (∃ x, st.termLookup x = some s) ∧ ∃ x, st.termLookup x = some o := by
  have henc := h.spo
  unfold GrainPrep.spo at hspo
  unfold DejaDB.EncodesSpo at henc
  cases hgv : (extractView view pr.created).spo with
  | none =>
    rw [hgv] at henc
    rw [henc.1] at hspo
    cases hspo
  | some x =>
    rw [hgv] at henc
    obtain ⟨si, pi, oi, hs, hp, ho, hsj, -, hob⟩ := henc
    rw [hs, hp, ho] at hspo
    cases hspo
    exact ⟨⟨_, hsj⟩, _, hob⟩

theorem Linked.terms_of_link {view : DeserializedGrain} {pr : GrainPrep}
    (h : Linked C st view pr) {l : ℤ × ℤ × ℤ} (hl : l ∈ pr.links) :
    (∃ x, st.termLookup x = some l.1) ∧ ∃ x, st.termLookup x = some l.2.2 := by
  have hlinks := h.links
  unfold DejaDB.EncodesLinks at hlinks
  generalize pr.links = ids at hlinks hl
  generalize (extractView view pr.created).links = names at hlinks
  induction hlinks with
  | nil => cases hl
  | @cons src y links ids hone _ ih =>
    rcases List.mem_cons.1 hl with rfl | hl
    · exact ⟨⟨_, hone.1⟩, _, hone.2.2⟩
    · exact ih hl

/-- The ids in the rows of a file are those of terms. -/
theorem DejaDB.Good.term_of_edge (h : st.Good C) {dir : Direction} {ns : ℤ} {rels : List ℤ}
    {x y : ℤ} (hedge : y ∈ st.db.edgesOf dir ns rels x) : ∃ t, st.termLookup t = some y := by
  rcases Tables.edge_stored hedge with ⟨r, hr, rfl⟩ | ⟨r, hr, rfl⟩
  · obtain ⟨g, hg, hseq⟩ := h.rowsOk.owned.triples r hr
    obtain ⟨pr, ⟨view, hlinked⟩, hof⟩ := h.rowsOk.spelled g hg
    obtain ⟨z, hz, rfl⟩ := hof.mem_triples.1 ⟨hr, hseq.symm⟩
    rcases GrainPrep.mem_tripleRows.1 hz with ⟨s, p, o, hspo, rfl⟩ | ⟨l, hl, rfl⟩
    · exact (hlinked.terms_of_spo hspo).2
    · exact (hlinked.terms_of_link hl).2
  · obtain ⟨g, hg, hseq⟩ := h.rowsOk.owned.osp r hr
    obtain ⟨pr, ⟨view, hlinked⟩, hof⟩ := h.rowsOk.spelled g hg
    have hmem : r ∈ st.db.rows.osp.filter fun x => x.seq = g.seq :=
      List.mem_filter.2 ⟨hr, by simpa using hseq.symm⟩
    rw [hof.osp] at hmem
    obtain ⟨z, hz, rfl⟩ := List.mem_map.1 hmem
    rcases List.mem_append.1 hz with hz | hz
    · cases hspo : pr.spo with
      | none =>
        rw [hspo] at hz
        cases hz
      | some e =>
        obtain ⟨s, p, o⟩ := e
        simp only [hspo] at hz
        split_ifs at hz
        · cases List.mem_singleton.1 hz
          exact (hlinked.terms_of_spo hspo).1
        · cases hz
    · obtain ⟨l, hl, rfl⟩ := List.mem_map.1 hz
      exact (hlinked.terms_of_link hl).1

/-! ## Found terms -/

section Found

variable {scan : Scan} {dir : Direction} {ns a : ℤ} {rels : List ℤ} {depth : ℕ}
  {s : Search ℤ}

/-- The nodes a search found are those of terms. -/
theorem DejaDB.Good.term_of_found (h : st.Good C)
    (hf : Found (st.db.readEdges scan dir ns rels) a depth s) {x : ℤ}
    (hx : x ∈ s.tree.map Prod.fst) : ∃ t, st.termStr x = some t := by
  obtain ⟨e, he, rfl⟩ := List.mem_map.1 hx
  obtain ⟨m, -, -, -, hnbr⟩ := hf.parent e he
  obtain ⟨t, ht⟩ := h.term_of_edge (Tables.edgesOf_of_read hnbr)
  exact ⟨t, h.dictOk.termStr_eq_some.2 ht⟩

end Found

/-- The term of an id. -/
def DejaDB.name (st : DejaDB) (id : ℤ) : String := (st.termStr id).getD ""

theorem DictOk.lookup_name (h : DictOk st) {x : ℤ} (hx : ∃ t, st.termStr x = some t) :
    st.termLookup (st.name x) = some x := by
  obtain ⟨t, ht⟩ := hx
  unfold DejaDB.name
  rw [ht]
  exact h.termStr_eq_some.1 ht

/-- Ids that all are those of terms are rendered one by one. -/
theorem filterMap_termStr {ids : List ℤ} (h : ∀ x ∈ ids, ∃ t, st.termStr x = some t) :
    ids.filterMap st.termStr = ids.map st.name := by
  rw [← List.filterMap_eq_map]
  refine List.filterMap_congr fun x hx => ?_
  obtain ⟨t, ht⟩ := h x hx
  simp [DejaDB.name, ht]

/-! ## Related terms -/

section Related

variable {scan : Scan} {ns start : String} {relations : List String} {dir : Direction}
  {depth cap : ℕ} {nsId a : ℤ}

theorem readEdges_nil (t : Tables) (scan : Scan) (dir : Direction) (ns x : ℤ) :
    t.readEdges scan dir ns [] x = [] := rfl

theorem DejaDB.relatedSearch_found (st : DejaDB) (scan : Scan) (ns start : ℤ) (rels : List ℤ)
    (dir : Direction) (depth cap : ℕ) : Found (st.db.readEdges scan dir ns rels) start (min depth 4)
      (st.relatedSearch scan ns start rels dir depth cap) := search_found ..

/-- What `related` returns are the terms its search found. -/
theorem DejaDB.Good.related_eq (h : st.Good C) (hns : st.termLookup ns = some nsId)
    (hstart : st.termLookup start = some a) :
    st.related scan ns start relations dir depth cap =
      ((st.relatedSearch scan nsId a (st.relIds relations) dir depth cap).tree.map
        Prod.fst).map st.name := by
  have hf := st.relatedSearch_found scan nsId a (st.relIds relations) dir depth cap
  unfold DejaDB.related
  rw [hns, hstart]
  simp only
  split_ifs with hempty
  · have hnil : (st.relatedSearch scan nsId a (st.relIds relations) dir depth cap).tree = [] := by
      rw [List.eq_nil_iff_forall_not_mem]
      intro e he
      obtain ⟨m, -, -, -, hnbr⟩ := hf.parent e he
      rw [List.isEmpty_iff.1 hempty, readEdges_nil] at hnbr
      cases hnbr
    rw [hnil]
    rfl
  · exact filterMap_termStr fun x hx => h.term_of_found hf hx

theorem DejaDB.related_unknown
    (hno : ∀ nsId a, st.termLookup ns = some nsId → st.termLookup start = some a → False) :
    st.related scan ns start relations dir depth cap = [] := by
  unfold DejaDB.related
  cases hns : st.termLookup ns with
  | none => rfl
  | some nsId =>
    cases hstart : st.termLookup start with
    | none => rfl
    | some a => exact (hno nsId a hns hstart).elim

/-- Walks from a narrow part of the graph take edges that are read. -/
theorem DejaDB.read_walk {rels : List ℤ} {ns a : ℤ} {n : ℕ} {y : ℤ} {seen : List ℤ} {depth : ℕ}
    (hnarrow : ∀ x ∈ seen, ∀ l ∈ st.db.edgeLists dir ns rels x, l.length ≤ 64)
    (hseen : ∀ m < depth, ∀ x, Walk (st.db.readEdges scan dir ns rels) a m x → x ∈ seen)
    (hle : n ≤ depth) (hwalk : Walk (st.db.edgesOf dir ns rels) a n y) :
    Walk (st.db.readEdges scan dir ns rels) a n y := by
  induction hwalk with
  | refl => exact .refl
  | @step n b c _ hc ih =>
    have hb := ih (by omega)
    exact .step hb (Tables.read_of_edgesOf (hnarrow b (hseen n (by omega) b hb)) hc)

theorem DejaDB.Good.relatedOk (h : st.Good C) (hcap : 0 < cap)
    (hunmoved : st.Unmoved scan ns start relations dir depth) :
    st.RelatedOk ns start relations dir depth cap
      (st.related scan ns start relations dir depth cap) := by
  by_cases hknown : ∃ nsId a, st.termLookup ns = some nsId ∧ st.termLookup start = some a
  case neg =>
    rw [DejaDB.related_unknown fun nsId a hns hstart => hknown ⟨nsId, a, hns, hstart⟩]
    refine ⟨List.nodup_nil, List.not_mem_nil, fun _ ht => (nomatch ht), List.Pairwise.nil,
      Nat.zero_le _, ?_⟩
    rintro - - t n - - ⟨nsId, a, b, hns, hstart, -⟩
    exact (hknown ⟨nsId, a, hns, hstart⟩).elim
  obtain ⟨nsId, a, hns, hstart⟩ := hknown
  rw [h.related_eq hns hstart]
  have hf := st.relatedSearch_found scan nsId a (st.relIds relations) dir depth cap
  have hname : ∀ x ∈ (st.relatedSearch scan nsId a (st.relIds relations) dir depth cap).tree.map
      Prod.fst, st.termLookup (st.name x) = some x := fun x hx =>
    h.dictOk.lookup_name (h.term_of_found hf hx)
  have hlen : (st.relatedSearch scan nsId a (st.relIds relations) dir depth cap).tree.length ≤
      min cap 512 := search_length (by omega)
  have hcomplete : (st.relatedSearch scan nsId a (st.relIds relations) dir depth cap).tree.length <
      min cap 512 → ∀ m ≤ min depth 4, ∀ x,
        Walk (st.db.readEdges scan dir nsId (st.relIds relations)) a m x →
          x ∈ (st.relatedSearch scan nsId a (st.relIds relations) dir depth cap).seen := by
    intro hroom m hm x hwalk
    refine search_complete ?_ hm hwalk
    by_contra hstop
    have hstopped := search_stopped (Bool.eq_true_of_not_eq_false hstop)
    rw [decide_eq_true_eq] at hstopped
    exact absurd hroom (not_lt.2 hstopped)
  generalize st.relatedSearch scan nsId a (st.relIds relations) dir depth cap = s
    at hf hname hlen hcomplete
  refine ⟨?_, ?_, ?_, ?_, ?_, ?_⟩
  · refine List.Nodup.map_on (fun x hx y hy hxy => ?_) (List.nodup_cons.1 hf.nodup).2
    have hx' := hname x hx
    rw [hxy, hname y hy] at hx'
    exact (Option.some.inj hx').symm
  · intro hmem
    obtain ⟨x, hx, hxstart⟩ := List.mem_map.1 hmem
    have hx' := hname x hx
    rw [hxstart, hstart] at hx'
    cases hx'
    exact (List.nodup_cons.1 hf.nodup).1 hx
  · intro t ht
    obtain ⟨x, hx, rfl⟩ := List.mem_map.1 ht
    obtain ⟨e, he, rfl⟩ := List.mem_map.1 hx
    obtain ⟨m, hm, -, hdist, -⟩ := hf.parent e he
    exact ⟨m + 1, hm, nsId, a, e.1, hns, hstart, hname _ hx,
      hdist.1.mono fun _ _ => Tables.edgesOf_of_read⟩
  · rw [List.map_map, List.pairwise_map]
    refine hf.ordered.imp_of_mem fun {e e'} he he' hord => ?_
    rintro n' ⟨nsId', a', b', hns', hstart', hb', hwalk⟩
    cases hns.symm.trans hns'
    cases hstart.symm.trans hstart'
    have hb := hname e'.1 (List.mem_map_of_mem he')
    cases hb.symm.trans hb'
    obtain ⟨m, -, -, hdist, -⟩ := hf.parent e he
    obtain ⟨m', hm', -, hdist', -⟩ := hf.parent e' he'
    have hle : m' + 1 ≤ n' := by
      obtain ⟨k, hk, nsId', a', b', hns', hstart', hb', hread⟩ :=
        hunmoved _ (m' + 1) n' hm' ⟨nsId, a, e'.1, hns, hstart, hb, hdist'.1⟩
          ⟨nsId, a, e'.1, hns, hstart, hb, hwalk⟩
      cases hns.symm.trans hns'
      cases hstart.symm.trans hstart'
      cases hb.symm.trans hb'
      by_contra hlt
      exact hdist'.2 k (by omega) hread
    exact ⟨m + 1, (hord _ _ hdist hdist').trans hle, nsId, a, e.1, hns, hstart,
      hname _ (List.mem_map_of_mem he), hdist.1.mono fun _ _ => Tables.edgesOf_of_read⟩
  · rw [List.length_map, List.length_map]
    omega
  · rintro hnarrow hroom t n hne hn ⟨nsId', a', b, hns', hstart', hb, hwalk⟩
    cases hns.symm.trans hns'
    cases hstart.symm.trans hstart'
    rw [List.length_map, List.length_map] at hroom
    have hlists : ∀ x ∈ s.seen, ∀ l ∈ st.db.edgeLists dir nsId (st.relIds relations) x,
        l.length ≤ 64 := by
      intro x hx
      rcases List.mem_cons.1 ((hf.seen x).1 hx) with rfl | hmem
      · exact hnarrow start (List.mem_cons_self ..) nsId x hns hstart
      · exact hnarrow _ (List.mem_cons_of_mem _ (List.mem_map_of_mem hmem)) nsId x hns
          (hname x hmem)
    have hread := DejaDB.read_walk hlists (fun m hm x => hcomplete hroom m hm.le x) hn hwalk
    rcases List.mem_cons.1 ((hf.seen b).1 (hcomplete hroom n hn b hread)) with rfl | hmem
    · exact absurd (h.dictOk.injective hb hstart) hne
    · rw [← h.dictOk.injective (hname b hmem) hb]
      exact List.mem_map_of_mem hmem

/-- With a cap of zero, `related` returns the first term it finds. -/
theorem DejaDB.Good.related_zero (h : st.Good C) (hns : st.termLookup ns = some nsId)
    (hstart : st.termLookup start = some a) :
    st.related scan ns start relations dir depth 0 =
      (if min depth 4 = 0 then []
        else ((st.db.readEdges scan dir nsId (st.relIds relations) a).find? (· ≠ a)).toList).map
          st.name := by
  rw [h.related_eq hns hstart]
  unfold DejaDB.relatedSearch
  rw [search_at_once fun s => by simp]

/-- Where there is a term to find, `related` is within its cap only if that leaves room
for a term. -/
theorem DejaDB.Good.room_of_bounded (h : st.Good C)
    (hlen : (st.related scan ns start relations dir depth cap).length ≤ cap) :
    0 < cap ∨ depth = 0 ∨ ∀ t, st.ReadHops scan dir ns relations 1 start t → t = start := by
  by_contra! hno
  obtain ⟨hcap, hdepth, t, ⟨nsId, a, b, hns, hstart, hb, hwalk⟩, hne⟩ := hno
  obtain rfl : cap = 0 := by omega
  cases hwalk with
  | step hprev hb' =>
  cases hprev
  rw [h.related_zero hns hstart, if_neg (by omega), List.length_map] at hlen
  have hfind : (st.db.readEdges scan dir nsId (st.relIds relations) a).find? (· ≠ a) = none := by
    cases hf : (st.db.readEdges scan dir nsId (st.relIds relations) a).find? (· ≠ a) with
    | none => rfl
    | some x =>
      rw [hf] at hlen
      cases hlen
  refine hne (h.dictOk.injective hb ?_)
  have hsame := List.find?_eq_none.1 hfind b hb'
  rw [decide_eq_true_eq, not_not] at hsame
  exact hsame ▸ hstart

/-- With a cap of zero and no term to find, nothing is returned. -/
theorem DejaDB.Good.related_none (h : st.Good C)
    (hnone : depth = 0 ∨ ∀ t, st.ReadHops scan dir ns relations 1 start t → t = start) :
    st.related scan ns start relations dir depth 0 = [] := by
  by_cases hknown : ∃ nsId a, st.termLookup ns = some nsId ∧ st.termLookup start = some a
  case neg =>
    exact DejaDB.related_unknown fun nsId a hns hstart => hknown ⟨nsId, a, hns, hstart⟩
  obtain ⟨nsId, a, hns, hstart⟩ := hknown
  rw [h.related_zero hns hstart]
  split_ifs with hzero
  · rfl
  rw [List.find?_eq_none.2]
  · rfl
  intro x hx
  rw [decide_eq_true_eq, not_not]
  obtain ⟨t, ht⟩ := h.term_of_edge (Tables.edgesOf_of_read hx)
  have hback := hnone.resolve_left (by omega) t ⟨nsId, a, x, hns, hstart, ht, .step .refl hx⟩
  rw [hback, hstart] at ht
  exact (Option.some.inj ht).symm

/-- Without a term to find, `related` keeps its promise under any cap. -/
theorem DejaDB.Good.relatedOk_of (h : st.Good C)
    (hroom : 0 < cap ∨ depth = 0 ∨ ∀ t, st.ReadHops scan dir ns relations 1 start t → t = start)
    (hunmoved : st.Unmoved scan ns start relations dir depth) :
    st.RelatedOk ns start relations dir depth cap
      (st.related scan ns start relations dir depth cap) := by
  rcases Nat.eq_zero_or_pos cap with rfl | hcap
  · rw [h.related_none (hroom.resolve_left (lt_irrefl 0))]
    exact ⟨List.nodup_nil, List.not_mem_nil, fun _ ht => (nomatch ht), List.Pairwise.nil, le_rfl,
      fun _ hroom => absurd hroom (by simp)⟩
  · exact h.relatedOk hcap hunmoved

/-- In a file of few rows every edge is read. -/
theorem DejaDB.unmoved_of_few (htriples : st.db.triples.length ≤ 64)
    (hosp : st.db.osp.length ≤ 64) : st.Unmoved scan ns start relations dir depth := by
  rintro t m n - - ⟨nsId, a, b, hns, hstart, hb, hwalk⟩
  have hnarrow : ∀ x, ∀ l ∈ st.db.edgeLists dir nsId (st.relIds relations) x, l.length ≤ 64 := by
    intro x l hl
    obtain ⟨p, -, hl⟩ := List.mem_flatMap.1 hl
    rcases List.mem_append.1 hl with hl | hl
    · split_ifs at hl
      · rw [List.mem_singleton.1 hl, Tables.objectsOf, List.length_map]
        exact (List.length_filter_le ..).trans htriples
      · cases hl
    · split_ifs at hl
      · rw [List.mem_singleton.1 hl, Tables.subjectsOf, List.length_map]
        exact (List.length_filter_le ..).trans hosp
      · cases hl
  exact ⟨n, le_rfl, nsId, a, b, hns, hstart, hb,
    hwalk.mono fun x _ hy => Tables.read_of_edgesOf (hnarrow x) hy⟩

end Related

/-! ## Paths -/

section Path

variable {scan : Scan} {ns source target : String} {relations : List String} {maxDepth : ℕ}
  {nsId a b : ℤ}

theorem DejaDB.pathSearch_found (st : DejaDB) (scan : Scan) (ns a b : ℤ) (rels : List ℤ)
    (maxDepth : ℕ) :
    Found (st.db.readEdges scan .out ns rels) a (min maxDepth 6)
      (st.pathSearch scan ns a b rels maxDepth) := search_found ..

/-- What `path` returns is the way back of its search. -/
theorem DejaDB.path_eq (hns : st.termLookup ns = some nsId) (ha : st.termLookup source = some a)
    (hb : st.termLookup target = some b) :
    st.path scan ns source target relations maxDepth =
      if b ∈ (st.pathSearch scan nsId a b (st.relIds relations) maxDepth).tree.map Prod.fst then
        some ((b :: backtrack (st.pathSearch scan nsId a b (st.relIds relations) maxDepth).tree a
          (min maxDepth 6) b).reverse.filterMap st.termStr)
      else none := by
  have hf := st.pathSearch_found scan nsId a b (st.relIds relations) maxDepth
  unfold DejaDB.path
  rw [hns, ha, hb]
  simp only
  split_ifs with hempty hmem
  · obtain ⟨e, he, rfl⟩ := List.mem_map.1 hmem
    obtain ⟨m, -, -, -, hnbr⟩ := hf.parent e he
    rw [List.isEmpty_iff.1 hempty, readEdges_nil] at hnbr
    cases hnbr
  · rfl
  · rfl
  · rfl

theorem DejaDB.path_known {c : List String}
    (h : st.path scan ns source target relations maxDepth = some c) :
    ∃ nsId a b, st.termLookup ns = some nsId ∧ st.termLookup source = some a ∧
      st.termLookup target = some b := by
  unfold DejaDB.path at h
  split at h
  · rename_i nsId a b hns ha hb
    exact ⟨nsId, a, b, hns, ha, hb⟩
  · cases h

/-- The way back to the source, in terms. -/
theorem DejaDB.Good.path_found (h : st.Good C) (hns : st.termLookup ns = some nsId)
    (ha : st.termLookup source = some a) (hb : st.termLookup target = some b) {m : ℕ}
    (hm : m < min maxDepth 6)
    (hdist : Dist (st.db.readEdges scan .out nsId (st.relIds relations)) a (m + 1) b)
    (hmem : b ∈ (st.pathSearch scan nsId a b (st.relIds relations) maxDepth).tree.map Prod.fst) :
    ∃ c, st.path scan ns source target relations maxDepth = some c ∧ c.length = m + 2 ∧
      c.head? = some source ∧ c.getLast? = some target ∧
        c.IsChain fun x y => st.Hops .out ns relations 1 x y := by
  have hf := st.pathSearch_found scan nsId a b (st.relIds relations) maxDepth
  rw [DejaDB.path_eq hns ha hb, if_pos hmem]
  have hseen := (hf.seen b).2 (List.mem_cons_of_mem _ hmem)
  obtain ⟨hlen, hlast, hchain⟩ := hf.backtrack hdist hseen (Nat.succ_le_of_lt hm)
  have hterm : ∀ x ∈ (st.pathSearch scan nsId a b (st.relIds relations) maxDepth).seen,
      ∃ t, st.termStr x = some t := by
    intro x hx
    rcases List.mem_cons.1 ((hf.seen x).1 hx) with rfl | hx
    · exact ⟨source, h.dictOk.termStr_eq_some.2 ha⟩
    · exact h.term_of_found hf hx
  generalize (st.pathSearch scan nsId a b (st.relIds relations) maxDepth) = s
    at hf hseen hlen hlast hchain hterm
  have hall : ∀ x ∈ b :: backtrack s.tree a (min maxDepth 6) b, x ∈ s.seen := by
    intro x hx
    cases hback : backtrack s.tree a (min maxDepth 6) b with
    | nil =>
      rw [hback] at hx
      rwa [List.mem_singleton.1 hx]
    | cons y l =>
      rw [hback] at hx hchain
      exact hchain.induction (· ∈ s.seen) _ (fun _ _ hxy _ => hxy.2.2) (fun _ => hseen) x hx
  have hname : ∀ {x : ℤ} {t : String}, x ∈ s.seen → st.termLookup t = some x → st.name x = t :=
    fun hx ht => h.dictOk.injective (h.dictOk.lookup_name (hterm _ hx)) ht
  rw [filterMap_termStr fun x hx => hterm x (hall x (List.mem_reverse.1 hx))]
  refine ⟨_, rfl, ?_, ?_, ?_, ?_⟩
  · rw [List.length_map, List.length_reverse, hlen]
  · rw [List.head?_map, List.head?_reverse, List.getLast?_eq_some_getLast (List.cons_ne_nil _ _),
      hlast, Option.map_some, hname ?_ ha]
    exact hlast ▸ hall _ (List.getLast_mem _)
  · rw [List.getLast?_map, List.getLast?_reverse, List.head?_cons, Option.map_some,
      hname hseen hb]
  · rw [List.isChain_map, List.isChain_reverse]
    refine hchain.imp fun x y hxy => ?_
    exact ⟨nsId, y, x, hns, h.dictOk.lookup_name (hterm y hxy.2.2),
      h.dictOk.lookup_name (hterm x hxy.2.1), .step .refl (Tables.edgesOf_of_read hxy.1)⟩

/-- A search that was not hindered finds the target, by a shortest way. -/
theorem DejaDB.Good.path_finds (h : st.Good C) (hne : source ≠ target)
    (hfree : st.Unhindered scan ns source target relations maxDepth) {n : ℕ}
    (hn : n ≤ min maxDepth 6) (hops : st.Hops .out ns relations n source target) :
    ∃ c, st.path scan ns source target relations maxDepth = some c ∧ c.length ≤ n + 1 := by
  obtain ⟨nsId, a, b, hns, ha, hb, hwalk⟩ := hops
  obtain ⟨hroom, hnarrow⟩ := hfree nsId a b hns ha hb
  have hab : b ≠ a := by
    rintro rfl
    exact hne (h.dictOk.injective ha hb)
  have hf := st.pathSearch_found scan nsId a b (st.relIds relations) maxDepth
  have hmem : b ∈ (st.pathSearch scan nsId a b (st.relIds relations) maxDepth).tree.map
      Prod.fst := by
    by_contra hno
    -- neither the target nor too many nodes were found, so nothing stopped the search
    have hfull : ∀ j ≤ min maxDepth 6, ∀ x,
        Walk (st.db.readEdges scan .out nsId (st.relIds relations)) a j x →
          x ∈ (st.pathSearch scan nsId a b (st.relIds relations) maxDepth).seen := by
      intro j hj x hx
      refine search_complete ?_ hj hx
      by_contra hstop
      have hstopped := search_stopped (Bool.eq_true_of_not_eq_false hstop)
      rw [Bool.or_eq_true, decide_eq_true_eq] at hstopped
      rcases hstopped with hfound | hmany
      · obtain ⟨e, he, heb⟩ := (Option.any_eq_true _ _).1 hfound
        exact hno (List.mem_map.2 ⟨e, List.mem_of_getLast? he, by simpa using heb⟩)
      · exact absurd hroom (not_le.2 hmany)
    have hread := DejaDB.read_walk hnarrow (fun j hj => hfull j hj.le) hn hwalk
    rcases List.mem_cons.1 ((hf.seen b).1 (hfull n hn b hread)) with hb | hb
    · exact hab hb
    · exact hno hb
  obtain ⟨e, he, rfl⟩ := List.mem_map.1 hmem
  obtain ⟨m, hm, -, hdist, -⟩ := hf.parent e he
  obtain ⟨c, hc, hlen, -⟩ := h.path_found hns ha hb hm hdist hmem
  refine ⟨c, hc, ?_⟩
  rw [hlen]
  by_contra hshort
  have hnear : ∀ j < n, ∀ x, Walk (st.db.readEdges scan .out nsId (st.relIds relations)) a j x →
      x ∈ (st.pathSearch scan nsId a e.1 (st.relIds relations) maxDepth).seen := by
    intro j hj x hx
    obtain ⟨j', hj', hx'⟩ := hx.dist
    exact hf.nearer e he j' (m + 1) hdist (by omega) x hx'
  exact hdist.2 n (by omega) (DejaDB.read_walk hnarrow hnear le_rfl hwalk)

theorem DejaDB.path_self :
    st.path scan ns source source relations maxDepth = none := by
  cases hc : st.path scan ns source source relations maxDepth with
  | none => rfl
  | some c =>
    obtain ⟨nsId, a, b, hns, ha, hb⟩ := DejaDB.path_known hc
    cases ha.symm.trans hb
    have hf := st.pathSearch_found scan nsId a a (st.relIds relations) maxDepth
    rw [DejaDB.path_eq hns ha ha, if_neg (List.nodup_cons.1 hf.nodup).1] at hc
    cases hc

/-- `path` keeps its promise exactly where it is not asked for the way from a known term
to itself, or was hindered. -/
theorem DejaDB.Good.pathOk_iff (h : st.Good C) :
    st.PathOk scan ns source target relations maxDepth
        (st.path scan ns source target relations maxDepth) ↔
      source ≠ target ∨ ¬st.Hops .out ns relations 0 source source ∨
        ¬st.Unhindered scan ns source target relations maxDepth := by
  constructor
  · intro hok
    by_contra! hno
    obtain ⟨rfl, hknown, hfree⟩ := hno
    obtain ⟨c, hc, -⟩ := hok.finds hfree 0 (Nat.zero_le _) hknown
    rw [DejaDB.path_self] at hc
    cases hc
  · intro hcond
    by_cases hne : source = target
    · subst hne
      rw [DejaDB.path_self]
      refine ⟨fun _ hc => (nomatch hc), fun _ hc => (nomatch hc), fun _ hc => (nomatch hc), ?_⟩
      rintro hfree n - ⟨nsId, a, b, hns, ha, -⟩
      rcases hcond with hcond | hcond | hcond
      · exact absurd rfl hcond
      · exact absurd ⟨nsId, a, a, hns, ha, ha, .refl⟩ hcond
      · exact absurd hfree hcond
    · have hshape : ∀ c, st.path scan ns source target relations maxDepth = some c →
          ∃ m < min maxDepth 6, c.length = m + 2 ∧ c.head? = some source ∧
            c.getLast? = some target ∧ c.IsChain fun x y => st.Hops .out ns relations 1 x y := by
        intro c hc
        obtain ⟨nsId, a, b, hns, ha, hb⟩ := DejaDB.path_known hc
        have hf := st.pathSearch_found scan nsId a b (st.relIds relations) maxDepth
        have hmem : b ∈ (st.pathSearch scan nsId a b (st.relIds relations) maxDepth).tree.map
            Prod.fst := by
          by_contra hno
          rw [DejaDB.path_eq hns ha hb, if_neg hno] at hc
          cases hc
        obtain ⟨e, he, rfl⟩ := List.mem_map.1 hmem
        obtain ⟨m, hm, -, hdist, -⟩ := hf.parent e he
        obtain ⟨c', hc', hrest⟩ := h.path_found hns ha hb hm hdist hmem
        cases hc.symm.trans hc'
        exact ⟨m, hm, hrest⟩
      refine ⟨fun c hc => ?_, fun c hc => ?_, fun c hc => ?_, fun hfree n hn hops =>
        h.path_finds hne hfree hn hops⟩
      · obtain ⟨m, -, -, hhead, hlast, -⟩ := hshape c hc
        exact ⟨hhead, hlast⟩
      · obtain ⟨m, -, -, -, -, hchain⟩ := hshape c hc
        exact hchain
      · obtain ⟨m, hm, hlen, -⟩ := hshape c hc
        omega

end Path

/-- **Bounded search keeps its promises** but for a cap of zero, for terms the limit of 64
edges moves away, and for a path from a term to itself. -/
theorem related_path_iff (h : Reachable C st) (scan : Scan) (ns source target : String)
    (relations : List String) (dir : Direction) (depth cap : ℕ) :
    (st.Unmoved scan ns source relations dir depth →
      (st.RelatedOk ns source relations dir depth cap
          (st.related scan ns source relations dir depth cap) ↔
        0 < cap ∨ depth = 0 ∨ ∀ t, st.ReadHops scan dir ns relations 1 source t → t = source)) ∧
    ((st.related scan ns source relations dir depth cap).length ≤ cap →
      0 < cap ∨ depth = 0 ∨ ∀ t, st.ReadHops scan dir ns relations 1 source t → t = source) ∧
    (st.PathOk scan ns source target relations depth
        (st.path scan ns source target relations depth) ↔
      source ≠ target ∨ ¬st.Hops .out ns relations 0 source source ∨
        ¬st.Unhindered scan ns source target relations depth) :=
  ⟨fun hunmoved => ⟨fun hok => h.good.room_of_bounded hok.bounded, fun hroom =>
    h.good.relatedOk_of hroom hunmoved⟩, h.good.room_of_bounded, h.good.pathOk_iff⟩

/-! ### A few edges -/

/-- The facts `a b c`, `a b d`, `c b e` and `e b a`. -/
def edgeRun : List (Op SampleBody) :=
  [.add (sampleFact 1 5 1 2 3), .add (sampleFact 2 6 1 2 4), .add (sampleFact 3 7 3 2 5),
    .add (sampleFact 4 8 5 2 1)]

/-- A store with a fork and a cycle. -/
def edgeStore : DejaDB := sampleStore.steps sampleCore edgeRun

theorem related_path_edgeStore :
    edgeStore.RelatedOk "shared" "a" ["b"] .out 3 9
        (edgeStore.related .stored "shared" "a" ["b"] .out 3 9) ∧
      edgeStore.PathOk .stored "shared" "a" "e" ["b"] 3
        (edgeStore.path .stored "shared" "a" "e" ["b"] 3) ∧
      edgeStore.related .stored "shared" "a" ["b"] .out 3 9 = ["c", "d", "e"] ∧
      edgeStore.path .stored "shared" "a" "e" ["b"] 3 = some ["a", "c", "e"] := by
  obtain ⟨hrelated, -, hpath⟩ := related_path_iff (sampleStore_reachable.steps edgeRun)
    .stored "shared" "a" "e" ["b"] .out 3 9
  exact ⟨(hrelated (DejaDB.unmoved_of_few (by decide +kernel) (by decide +kernel))).2
    (.inl (by decide)), hpath.2 (.inl (by decide)), by decide +kernel, by decide +kernel⟩

/-- **A cap of zero lets one term through.** -/
theorem related_exceeds_cap :
    ¬∀ (G : Type) (C : Core G) (st : DejaDB), Reachable C st → ∀ (scan : Scan)
      (ns source target : String) (relations : List String) (dir : Direction) (depth cap : ℕ),
        st.RelatedOk ns source relations dir depth cap
            (st.related scan ns source relations dir depth cap) ∧
          st.PathOk scan ns source target relations depth
            (st.path scan ns source target relations depth) := by
  intro hclaim
  have hok := (hclaim _ sampleCore edgeStore (sampleStore_reachable.steps _) .stored "shared" "a"
    "c" ["b"] .out 1 0).1.bounded
  have hone : edgeStore.related .stored "shared" "a" ["b"] .out 1 0 = ["c"] := by decide +kernel
  rw [hone] at hok
  exact Nat.not_succ_le_zero 0 hok

end Deja
