import Deja.Cal.Graph

/-!
# ADD WORKFLOW: the graph that is stored

The JSON map between the parser and the builder loses nothing of a graph.  So what is stored is the
graph that is written, wherever the text is read, its bindings name nodes and agree, and its
repeat counts are `u32`.
-/

namespace Deja.Graph

/-! ## First mentions -/

theorem ensureNode_mem (nodes : List String) (a n : String) :
    n ∈ ensureNode nodes a ↔ n ∈ nodes ∨ n = a := by
  unfold ensureNode
  split_ifs with ha
  · constructor
    · exact .inl
    · rintro (h | rfl)
      · exact h
      · exact ha
  · rw [List.mem_append, List.mem_singleton]

/-- The names in the order of their first mention, each once. -/
theorem ensureNodes_spec (l : List String) :
    (l.foldl ensureNode []).Nodup ∧ (∀ n, n ∈ l.foldl ensureNode [] ↔ n ∈ l) ∧
      (l.foldl ensureNode []).Pairwise fun a b => l.idxOf a < l.idxOf b := by
  induction l using List.reverseRecOn with
  | nil => exact ⟨List.nodup_nil, fun n => Iff.rfl, .nil⟩
  | append_singleton l a ih =>
    obtain ⟨hnodup, hmem, horder⟩ := ih
    have hkept : (l.foldl ensureNode []).Pairwise fun x y =>
        (l ++ [a]).idxOf x < (l ++ [a]).idxOf y := by
      refine horder.imp_of_mem fun hx hy hlt => ?_
      rwa [List.idxOf_append_of_mem ((hmem _).1 hx), List.idxOf_append_of_mem ((hmem _).1 hy)]
    rw [List.foldl_append, List.foldl_cons, List.foldl_nil]
    refine ⟨?_, fun n => by rw [ensureNode_mem, hmem, List.mem_append, List.mem_singleton], ?_⟩
    · unfold ensureNode
      split_ifs with ha
      · exact hnodup
      · exact List.nodup_append'.2 ⟨hnodup, List.nodup_singleton a,
          fun x hx hxa => ha (List.mem_singleton.1 hxa ▸ hx)⟩
    · unfold ensureNode
      split_ifs with ha
      · exact hkept
      · rw [List.pairwise_append]
        refine ⟨hkept, List.pairwise_singleton _ _, fun x hx y hy => ?_⟩
        have hnew : a ∉ l := fun h => ha ((hmem a).2 h)
        rw [List.mem_singleton.1 hy, List.idxOf_append_of_mem ((hmem x).1 hx),
          List.idxOf_append_of_notMem hnew]
        exact (List.idxOf_lt_length_iff.2 ((hmem x).1 hx)).trans_le (Nat.le_add_right _ _)

/-! ## The edges of a text -/

theorem mem_edges {t : Text} {e : GraphEdge} : e ∈ t.chains.flatMap Chain.edges ↔
    ∃ c ∈ t.chains, ∃ x ∈ c.sides.zip c.arrows, e.src ∈ x.1.texts ∧ e.dst ∈ x.2.target.texts ∧
      e.cond = x.2.cond ∧ e.repeats = x.2.repeats.map saturate := by
  simp only [List.mem_flatMap, Chain.edges, drawArrows, arrowEdges, List.mem_map]
  constructor
  · rintro ⟨c, hc, x, hx, s, hs, d, hd, rfl⟩
    exact ⟨c, hc, x, hx, hs, hd, rfl, rfl⟩
  · rintro ⟨c, hc, x, hx, hs, hd, hcond, hrepeats⟩
    refine ⟨c, hc, x, hx, e.src, hs, e.dst, hd, ?_⟩
    rw [← hcond, ← hrepeats]

/-- The edges as they are meant. -/
theorem edges_pairs (t : Text) :
    (t.chains.flatMap Chain.edges).map (fun e => (e.src, e.dst, e.cond)) =
      t.chains.flatMap Chain.pairs := by
  simp only [Chain.edges, drawArrows, arrowEdges, List.map_flatMap, List.map_map]
  rfl

/-- The ends of the edges are mentioned. -/
theorem edge_mentioned {t : Text} {e : GraphEdge} (he : e ∈ t.chains.flatMap Chain.edges) :
    e.src ∈ t.mentions ∧ e.dst ∈ t.mentions := by
  obtain ⟨c, hc, x, hx, hs, hd, -, -⟩ := mem_edges.1 he
  obtain ⟨hside, harrow⟩ := List.of_mem_zip (a := x.1) (b := x.2) hx
  have htarget : x.2.target ∈ c.sides := List.mem_cons_of_mem _ (List.mem_map_of_mem harrow)
  exact ⟨List.mem_flatMap.2 ⟨c, hc, List.mem_flatMap.2 ⟨x.1, hside, hs⟩⟩,
    List.mem_flatMap.2 ⟨c, hc, List.mem_flatMap.2 ⟨x.2.target, htarget, hd⟩⟩⟩

/-- The repeat counts that edges carry for a node. -/
def given (edges : List GraphEdge) (n : String) : List ℕ :=
  edges.filterMap fun e => if e.dst = n then e.repeats.map UInt32.toNat else none

theorem texts_ne_nil (side : Side) : ∃ s, s ∈ side.texts := by
  cases side with
  | node n => exact ⟨n.text, List.mem_singleton_self _⟩
  | group first rest => exact ⟨first.text, List.mem_cons_self⟩

/-- The counts the edges carry are the ones that are written, cut at the largest `u32`. -/
theorem mem_given {t : Text} {n : String} {k : ℕ} :
    k ∈ given (t.chains.flatMap Chain.edges) n ↔ ∃ k' ∈ t.counts n, k = (saturate k').toNat := by
  have hgiven : k ∈ given (t.chains.flatMap Chain.edges) n ↔
      ∃ e ∈ t.chains.flatMap Chain.edges, e.dst = n ∧ e.repeats.map UInt32.toNat = some k := by
    rw [given, List.mem_filterMap]
    refine exists_congr fun e => and_congr_right fun _ => ?_
    split_ifs with hdst
    · exact (and_iff_right hdst).symm
    · exact ⟨nofun, fun h => absurd h.1 hdst⟩
  have hcounts : ∀ k', k' ∈ t.counts n ↔
      ∃ c ∈ t.chains, ∃ a ∈ c.arrows, n ∈ a.target.texts ∧ a.repeats = some k' := by
    intro k'
    simp only [Text.counts, List.mem_flatMap]
    refine exists_congr fun c => and_congr_right fun _ => exists_congr fun a =>
      and_congr_right fun _ => ?_
    split_ifs with hn
    · rw [and_iff_right hn, Option.mem_toList]
    · exact ⟨nofun, fun h => absurd h.1 hn⟩
  rw [hgiven]
  constructor
  · rintro ⟨e, he, hdst, hrepeats⟩
    obtain ⟨c, hc, x, hx, -, hd, -, hx'⟩ := mem_edges.1 he
    rw [hx', Option.map_map, Option.map_eq_some_iff] at hrepeats
    obtain ⟨k', hk', rfl⟩ := hrepeats
    rw [hdst] at hd
    exact ⟨k', (hcounts k').2 ⟨c, hc, x.2, (List.of_mem_zip (a := x.1) (b := x.2) hx).2, hd, hk'⟩,
      rfl⟩
  · rintro ⟨k', hk', rfl⟩
    obtain ⟨c, hc, a, ha, hn, hrepeats⟩ := (hcounts k').1 hk'
    have hzip : a ∈ (c.sides.zip c.arrows).map Prod.snd := by
      rw [List.map_snd_zip]
      · exact ha
      · rw [Chain.sides, List.length_cons, List.length_map]
        exact Nat.le_succ _
    obtain ⟨x, hx, rfl⟩ := List.mem_map.1 hzip
    obtain ⟨s, hs⟩ := texts_ne_nil x.1
    refine ⟨⟨s, n, x.2.cond, x.2.repeats.map saturate⟩,
      mem_edges.2 ⟨c, hc, x, hx, hs, hn, rfl, rfl⟩, rfl, ?_⟩
    simp only
    rw [hrepeats]
    rfl

/-! ## The retries -/

theorem max?_concat (l : List ℕ) (k : ℕ) :
    (l ++ [k]).max? = some (l.max?.elim k fun m => max m k) := by
  cases l with
  | nil => rfl
  | cons a l =>
    rw [List.cons_append, List.max?_cons', List.max?_cons', List.foldl_append]
    rfl

theorem toNat_max (a b : UInt32) : (max a b).toNat = max a.toNat b.toNat := by
  have hmax : max a b = if a ≤ b then b else a := rfl
  rw [hmax]
  split_ifs with h
  · rw [max_eq_right (UInt32.le_iff_toNat_le.1 h)]
  · rw [max_eq_left (Nat.le_of_not_le fun hle => h (UInt32.le_iff_toNat_le.2 hle))]

theorem asU64_toNat (r : UInt32) : asU64 (.int r.toNat) = some r.toNat := by
  have hlt := r.toNat_lt
  rw [asU64, if_pos ⟨Int.natCast_nonneg _, by omega⟩, Int.toNat_natCast]

theorem given_u32 {edges : List GraphEdge} {n : String} {k : ℕ} (h : k ∈ given edges n) :
    ∃ r : UInt32, k = r.toNat := by
  obtain ⟨e, -, he⟩ := List.mem_filterMap.1 h
  split_ifs at he
  obtain ⟨r, -, rfl⟩ := Option.map_eq_some_iff.1 he
  exact ⟨r, rfl⟩

/-- One more edge. -/
theorem retriesMap_concat (edges : List GraphEdge) (e : GraphEdge) :
    retriesMap (edges ++ [e]) = match e.repeats with
      | some r => mergeRetry (retriesMap edges) e.dst r
      | none => retriesMap edges := by
  rw [retriesMap, List.foldl_append]
  rfl

/-- The retries hold the largest count of each node. -/
theorem lookup_retriesMap (edges : List GraphEdge) (n : String) :
    (retriesMap edges).lookup n = ((given edges n).max?).map fun k => .int k := by
  induction edges using List.reverseRecOn with
  | nil => rfl
  | append_singleton edges e ih =>
    have hgiven : given (edges ++ [e]) n = given edges n ++
        (if e.dst = n then e.repeats.map UInt32.toNat else none).toList := by
      rw [given, List.filterMap_append]
      congr 1
    rw [retriesMap_concat, hgiven]
    cases hrepeats : e.repeats with
    | none =>
      rw [Option.map_none, ite_self, Option.toList_none, List.append_nil]
      exact ih
    | some r =>
      simp only [mergeRetry]
      rw [Sorted.lookup_insert]
      by_cases hdst : e.dst = n
      · rw [if_pos hdst.symm, if_pos hdst, Option.map_some, Option.toList_some, max?_concat,
          Option.map_some, hdst, ih]
        refine congrArg some ?_
        cases hmax : (given edges n).max? with
        | none => rfl
        | some k =>
          obtain ⟨r', rfl⟩ := given_u32 (List.max?_mem hmax)
          rw [Option.map_some, Option.bind_some, asU64_toNat, Option.elim_some]
          simp only
          rw [UInt32.ofNat_toNat, toNat_max]
      · rw [if_neg fun h => hdst h.symm, if_neg hdst, Option.toList_none, List.append_nil]
        exact ih

theorem keys_retriesMap (edges : List GraphEdge) : Sorted.Keys (retriesMap edges) ∧
    ∀ k ∈ (retriesMap edges).map Prod.fst, ∃ e ∈ edges, e.dst = k := by
  induction edges using List.reverseRecOn with
  | nil => exact ⟨.nil, fun k hk => nomatch hk⟩
  | append_singleton edges e ih =>
    have hold : ∀ k, (∃ e' ∈ edges, e'.dst = k) → ∃ e' ∈ edges ++ [e], e'.dst = k := by
      rintro k ⟨e', he', hdst⟩
      exact ⟨e', List.mem_append_left _ he', hdst⟩
    rw [retriesMap_concat]
    cases e.repeats with
    | none => exact ⟨ih.1, fun k hk => hold k (ih.2 k hk)⟩
    | some r =>
      refine ⟨Sorted.keys_insert ih.1, fun k hk => ?_⟩
      rcases Sorted.mem_keys_insert.1 hk with rfl | hk
      · exact ⟨e, List.mem_append_right _ (List.mem_singleton_self e), rfl⟩
      · exact hold k (ih.2 k hk)

/-! ## The builder -/

theorem firstDuplicate_none {nodes seen : List String} (h : nodes.Nodup)
    (hnew : ∀ n ∈ nodes, n ∉ seen) : firstDuplicate seen nodes = none := by
  induction nodes generalizing seen with
  | nil => rfl
  | cons n nodes ih =>
    rw [List.nodup_cons] at h
    rw [List.forall_mem_cons] at hnew
    rw [firstDuplicate, if_neg hnew.1]
    refine ih h.2 fun m hm => ?_
    rw [List.mem_cons, not_or]
    exact ⟨fun heq => h.1 (heq ▸ hm), hnew.2 m hm⟩

theorem filterMap_str (nodes : List String) :
    (nodes.map Json.str).filterMap Json.asStr = nodes := by
  induction nodes with
  | nil => rfl
  | cons n nodes ih =>
    rw [List.map_cons, List.filterMap_cons_some (f := Json.asStr) rfl, ih]

/-- An edge goes through its object. -/
theorem buildEdge_edgeJson {nodes : List String} {e : GraphEdge} (hsrc : e.src ∈ nodes)
    (hdst : e.dst ∈ nodes) (i : ℕ) :
    buildEdge nodes i (edgeJson e) = .ok ⟨e.src, e.dst, e.cond, none⟩ := by
  obtain ⟨src, dst, cond, repeats⟩ := e
  have hfields : ∀ key, (Sorted.ofList ([("src", Json.str src), ("dst", .str dst)] ++
      (cond.map fun c => ("cond", Json.str c)).toList)).lookup key =
        ([("src", Json.str src), ("dst", .str dst)] ++
          (cond.map fun c => ("cond", Json.str c)).toList).reverse.lookup key :=
    Sorted.lookup_ofList _
  rw [edgeJson, buildEdge, asObject]
  simp only [hfields]
  cases cond <;> simp [List.lookup_cons, Json.asStr, hsrc, hdst]

theorem buildEdges_edgeJson {nodes : List String} {edges : List GraphEdge}
    (h : ∀ e ∈ edges, e.src ∈ nodes ∧ e.dst ∈ nodes) (i : ℕ) :
    buildEdges nodes i (edges.map edgeJson) =
      .ok (edges.map fun e => ⟨e.src, e.dst, e.cond, none⟩) := by
  induction edges generalizing i with
  | nil => rfl
  | cons e edges ih =>
    rw [List.forall_mem_cons] at h
    rw [List.map_cons, buildEdges, buildEdge_edgeJson h.1.1 h.1.2, ok_bind, ih h.2, ok_bind,
      List.map_cons]

variable {ν : Type}

/-- Entries under known keys are taken over. -/
theorem buildEntries_ok {nodes : List String} (field : String) {read : Json → Option ν}
    {entries : List (String × Json)} (hkeys : ∀ x ∈ entries, x.1 ∈ nodes)
    (hread : ∀ x ∈ entries, (read x.2).isSome = true) (hnodup : (entries.map Prod.fst).Nodup)
    (m : StringMap ν) : ∃ m', buildEntries nodes field read m entries = .ok m' ∧
      ∀ k, m'.entries.lookup k = match entries.lookup k with
        | some v => read v
        | none => m.entries.lookup k := by
  induction entries generalizing m with
  | nil => exact ⟨m, rfl, fun k => rfl⟩
  | cons x entries ih =>
    obtain ⟨key, v⟩ := x
    rw [List.forall_mem_cons] at hkeys hread
    rw [List.map_cons, List.nodup_cons] at hnodup
    obtain ⟨y, hy⟩ := Option.isSome_iff_exists.1 hread.1
    obtain ⟨m', hbuild, hlookup⟩ := ih hkeys.2 hread.2 hnodup.2 (insertEntry m key y)
    refine ⟨m', ?_, fun k => ?_⟩
    · have hmem : ¬ key ∉ nodes := not_not.2 hkeys.1
      simp only at hy
      rw [buildEntries, if_neg hmem, hy]
      exact hbuild
    · rw [hlookup k, Sorted.lookup_cons_ite]
      simp only
      by_cases hk : k = key
      · rw [if_pos hk, hk, Sorted.lookup_eq_none.2 hnodup.1]
        simp only
        rw [insertEntry, Assoc.lookup_insert_self]
        exact hy.symm
      · rw [if_neg hk]
        cases entries.lookup k with
        | some v => rfl
        | none => exact Assoc.lookup_insert_of_ne hk _ _

/-- A key that is no node is refused. -/
theorem buildEntries_unknown {nodes : List String} (field : String) (read : Json → Option ν)
    {entries : List (String × Json)} (hkey : ∃ x ∈ entries, x.1 ∉ nodes) (m : StringMap ν) :
    ∃ e, buildEntries nodes field read m entries = .error e := by
  induction entries generalizing m with
  | nil =>
    obtain ⟨x, hx, -⟩ := hkey
    exact nomatch hx
  | cons x entries ih =>
    obtain ⟨key, v⟩ := x
    rw [buildEntries]
    by_cases hmem : key ∉ nodes
    · rw [if_pos hmem]
      exact ⟨_, rfl⟩
    · have hrest : ∃ x ∈ entries, x.1 ∉ nodes := by
        obtain ⟨y, hy, hno⟩ := hkey
        rcases List.mem_cons.1 hy with rfl | hy
        · exact absurd hno hmem
        · exact ⟨y, hy, hno⟩
      rw [if_neg hmem]
      cases read v with
      | some y => exact ih hrest _
      | none => exact ih hrest _

/-- The binding of a node is that of the last clause. -/
theorem bindMap_eq (binds : List BindClause) : bindMap binds =
    Sorted.ofList (binds.map fun b => (b.node, .str ("sha256:" ++ b.hash))) := by
  rw [bindMap, Sorted.ofList, List.foldl_map]

/-- The fields that the builder reads. -/
theorem lookup_workflowFields (wf : AddWorkflowStmt) (ns : Option String) :
    (workflowFields wf ns).lookup "nodes" = some (.arr (wf.nodes.map .str)) ∧
      (workflowFields wf ns).lookup "edges" = some (.arr (wf.edges.map edgeJson)) ∧
      (((workflowFields wf ns).lookup "bindings").bind asObject).getD [] = bindMap wf.bindings ∧
      (((workflowFields wf ns).lookup "retries").bind asObject).getD [] = retriesMap wf.edges ∧
      ((workflowFields wf ns).lookup "trigger").bind Json.asStr = wf.trigger ∧
      (workflowFields wf ns).lookup "add_reason" = none := by
  unfold workflowFields
  simp only [Sorted.lookup_ofList]
  have hbinds : wf.bindings = [] → bindMap wf.bindings = [] := by
    intro h
    rw [h]
    rfl
  generalize bindMap wf.bindings = binds at *
  generalize retriesMap wf.edges = retries at *
  cases wf.trigger <;> cases ns <;> by_cases hb : wf.bindings = [] <;>
    by_cases hr : retries = [] <;>
    simp [hb, hr, hbinds, List.lookup_cons, asObject, Json.asStr]

/-- No extra field is called after the reason. -/
theorem lookup_extra (fields : List (String × Json)) (h : fields.lookup "add_reason" = none) :
    (collectExtraFields fields).lookup "add_reason" = none := by
  rw [Sorted.lookup_eq_none] at h ⊢
  intro hmem
  obtain ⟨x, hx, hkey⟩ := List.mem_map.1 hmem
  exact h (List.mem_map.2 ⟨x, List.mem_of_mem_filter hx, hkey⟩)

/-- The graph of a statement goes through the JSON map. -/
theorem executeAddWorkflow_ok {wf : AddWorkflowStmt} (ns : Option String) (hnodup : wf.nodes.Nodup)
    (hedges : ∀ e ∈ wf.edges, e.src ∈ wf.nodes ∧ e.dst ∈ wf.nodes)
    (hbinds : ∀ b ∈ wf.bindings, b.node ∈ wf.nodes) :
    ∃ g, executeAddWorkflow ns wf = .ok g ∧ g.workflow.nodes = wf.nodes ∧
      g.workflow.edges = wf.edges.map (fun e => ⟨e.src, e.dst, e.cond, none⟩) ∧
      (∀ n, g.workflow.bindings.entries.lookup n = ((bindMap wf.bindings).lookup n).bind
        Json.asStr) ∧
      (∀ n, (g.workflow.retries.entries.lookup n).map UInt32.toNat = (given wf.edges n).max?) ∧
      g.workflow.trigger = wf.trigger ∧ g.extraFields.lookup "add_reason" = none := by
  obtain ⟨hnodes, hedge, hbind, hretry, htrigger, hreason⟩ := lookup_workflowFields wf ns
  obtain ⟨hsorted, hkeys⟩ := keys_retriesMap wf.edges
  have hbindEntry : ∀ x ∈ bindMap wf.bindings, ∃ b ∈ wf.bindings,
      x = (b.node, .str ("sha256:" ++ b.hash)) := by
    intro x hx
    rw [bindMap_eq] at hx
    obtain ⟨b, hb, rfl⟩ := List.mem_map.1 (Sorted.mem_of_mem_ofList hx)
    exact ⟨b, hb, rfl⟩
  have hbindKeys : Sorted.Keys (bindMap wf.bindings) := by
    rw [bindMap_eq]
    exact Sorted.keys_ofList _
  have hbindNode : ∀ x ∈ bindMap wf.bindings, x.1 ∈ wf.nodes := by
    intro x hx
    obtain ⟨b, hb, rfl⟩ := hbindEntry x hx
    exact hbinds b hb
  have hbindRead : ∀ x ∈ bindMap wf.bindings, (Json.asStr x.2).isSome = true := by
    intro x hx
    obtain ⟨b, -, rfl⟩ := hbindEntry x hx
    rfl
  have hretryNode : ∀ x ∈ retriesMap wf.edges, x.1 ∈ wf.nodes := by
    intro x hx
    obtain ⟨e, he, hdst⟩ := hkeys x.1 (List.mem_map_of_mem hx)
    rw [← hdst]
    exact (hedges e he).2
  have hretryRead : ∀ x ∈ retriesMap wf.edges,
      ((asU64 x.2).map UInt32.ofNat).isSome = true := by
    intro x hx
    have hlookup := Assoc.lookup_of_mem hsorted.nodup hx
    rw [lookup_retriesMap] at hlookup
    obtain ⟨k, hk, hval⟩ := Option.map_eq_some_iff.1 hlookup
    obtain ⟨r, rfl⟩ := given_u32 (List.max?_mem hk)
    rw [← hval, asU64_toNat]
    rfl
  obtain ⟨bindings, hbindings, hbindLookup⟩ := buildEntries_ok "bindings" hbindNode hbindRead
    hbindKeys.nodup ⟨[], List.nodup_nil⟩
  obtain ⟨retries, hretries, hretryLookup⟩ := @buildEntries_ok _ _ "retries"
    (fun v => (asU64 v).map UInt32.ofNat) _ hretryNode hretryRead hsorted.nodup
    ⟨[], List.nodup_nil⟩
  have hbuild : buildWorkflow (workflowFields wf ns) = .ok ⟨wf.nodes,
      wf.edges.map fun e => ⟨e.src, e.dst, e.cond, none⟩, bindings, retries, wf.trigger⟩ := by
    have hnames : (((workflowFields wf ns).lookup "nodes").bind Json.asArray).map
        (List.filterMap Json.asStr) = some wf.nodes := by
      rw [hnodes, Option.bind_some, Json.asArray, Option.map_some, filterMap_str]
    have harcs : (((workflowFields wf ns).lookup "edges").bind Json.asArray).getD [] =
        wf.edges.map edgeJson := by
      rw [hedge]
      rfl
    unfold buildWorkflow
    simp only [hnames, Option.getD_some, harcs, hbind, hretry, htrigger]
    rw [firstDuplicate_none hnodup (fun n _ => List.not_mem_nil)]
    simp only
    rw [buildEdges_edgeJson hedges, ok_bind, hbindings, ok_bind, hretries, ok_bind]
  refine ⟨_, by rw [executeAddWorkflow, hbuild, ok_bind], rfl, rfl, fun n => ?_, fun n => ?_, rfl,
    lookup_extra _ hreason⟩
  · simp only
    rw [hbindLookup n]
    cases (bindMap wf.bindings).lookup n <;> rfl
  · simp only
    rw [hretryLookup n, lookup_retriesMap]
    cases hmax : (given wf.edges n).max? with
    | none => rfl
    | some k =>
      obtain ⟨r, rfl⟩ := given_u32 (List.max?_mem hmax)
      rw [Option.map_some]
      simp only
      rw [asU64_toNat, Option.map_some, Option.map_some, UInt32.ofNat_toNat]

/-- A binding of a node that is not in the graph is refused. -/
theorem executeAddWorkflow_refused {wf : AddWorkflowStmt} (ns : Option String)
    (hbind : ∃ b ∈ wf.bindings, b.node ∉ wf.nodes) :
    ∃ e, executeAddWorkflow ns wf = .error e := by
  obtain ⟨hnodes, -, hbinds, -⟩ := lookup_workflowFields wf ns
  have hnames : (((workflowFields wf ns).lookup "nodes").bind Json.asArray).map
      (List.filterMap Json.asStr) = some wf.nodes := by
    rw [hnodes, Option.bind_some, Json.asArray, Option.map_some, filterMap_str]
  have hkey : ∃ x ∈ bindMap wf.bindings, x.1 ∉ wf.nodes := by
    obtain ⟨b, hb, hno⟩ := hbind
    have hmem : b.node ∈ (bindMap wf.bindings).map Prod.fst := by
      rw [bindMap_eq, Sorted.mem_keys_ofList, List.map_map]
      exact List.mem_map.2 ⟨b, hb, rfl⟩
    obtain ⟨x, hx, hkey⟩ := List.mem_map.1 hmem
    exact ⟨x, hx, hkey ▸ hno⟩
  have hbuild : ∃ e, buildWorkflow (workflowFields wf ns) = .error e := by
    unfold buildWorkflow
    simp only [hnames, Option.getD_some, hbinds]
    cases firstDuplicate [] wf.nodes with
    | some n => exact ⟨_, rfl⟩
    | none =>
      simp only
      cases buildEdges wf.nodes 0
          (((workflowFields wf ns).lookup "edges").bind Json.asArray |>.getD []) with
      | error e => exact ⟨e, rfl⟩
      | ok edges =>
        obtain ⟨e, he⟩ := buildEntries_unknown "bindings" Json.asStr hkey ⟨[], List.nodup_nil⟩
        rw [ok_bind, he]
        exact ⟨e, rfl⟩
  obtain ⟨e, he⟩ := hbuild
  refine ⟨e, ?_⟩
  rw [executeAddWorkflow, he]
  rfl

/-! ## The stored graph -/

/-- The texts that `ADD WORKFLOW` stores as they are written, the reason apart. -/
structure Text.Plain (t : Text) : Prop where
  nonempty : t.chains ≠ []
  starts : ∀ c ∈ t.chains, c.Starts
  repeats : ∀ c ∈ t.chains, ∀ a ∈ c.arrows, ∀ n, a.repeats = some n → 0 < n ∧ n < 2 ^ 32
  reason_le : t.reason.utf8ByteSize ≤ maxReasonLength
  bound : ∀ b ∈ t.binds, b.1.text ∈ t.mentions
  agree : ∀ b ∈ t.binds, ∀ b' ∈ t.binds, b.1.text = b'.1.text → b.2 = b'.2

theorem Text.Plain.readable {t : Text} (h : t.Plain) : t.Readable where
  nonempty := h.nonempty
  read c hc := ⟨h.starts c hc, fun a ha hzero => absurd (h.repeats c hc a ha 0 hzero).1 (by decide)⟩
  reason_le := h.reason_le

/-- What is stored of a readable text whose bindings name nodes of the graph. -/
theorem runAddWorkflow_readable {t : Text} (h : t.Readable) (ns : Option String)
    (hbound : ∀ b ∈ t.binds, b.1.text ∈ t.mentions) :
    ∃ g, runAddWorkflow ns t.tokens = some g ∧
      g.workflow.nodes = t.mentions.foldl ensureNode [] ∧
      g.workflow.edges.map (fun e => (e.src, e.dst, e.cond)) = t.chains.flatMap Chain.pairs ∧
      (∀ n, g.workflow.bindings.entries.lookup n =
        ((bindMap (t.binds.map fun b => ⟨b.1.text, b.2⟩)).lookup n).bind Json.asStr) ∧
      (∀ n, (g.workflow.retries.entries.lookup n).map UInt32.toNat =
        (given (t.chains.flatMap Chain.edges) n).max?) ∧
      g.workflow.trigger = t.trigger ∧ g.extraFields.lookup "add_reason" = none := by
  obtain ⟨hnodup, hmem, -⟩ := ensureNodes_spec t.mentions
  obtain ⟨g, hg, hnodes, hedges, hrest⟩ := @executeAddWorkflow_ok t.stmt ns hnodup
    (fun e he => by
      have hmentioned := edge_mentioned he
      exact ⟨(hmem _).2 hmentioned.1, (hmem _).2 hmentioned.2⟩)
    (fun b hb => by
      obtain ⟨b', hb', rfl⟩ := List.mem_map.1 hb
      exact (hmem _).2 (hbound b' hb'))
  refine ⟨g, ?_, hnodes, ?_, hrest⟩
  · rw [runAddWorkflow, parseAddWorkflow_tokens h]
    simp only
    rw [hg]
    rfl
  · rw [hedges, List.map_map, ← edges_pairs]
    rfl

/-- What is not readable, or binds what is no node, is not stored. -/
theorem runAddWorkflow_some {t : Text} {ns : Option String} {g : StoredWorkflow}
    (h : runAddWorkflow ns t.tokens = some g) :
    t.Readable ∧ ∀ b ∈ t.binds, b.1.text ∈ t.mentions := by
  have hread : t.Readable := by
    by_contra hno
    obtain ⟨e, he⟩ := parseAddWorkflow_refused hno
    rw [runAddWorkflow, he] at h
    exact nomatch h
  refine ⟨hread, ?_⟩
  by_contra hno
  push Not at hno
  obtain ⟨b, hb, hnode⟩ := hno
  obtain ⟨e, he⟩ := @executeAddWorkflow_refused t.stmt ns
    ⟨⟨b.1.text, b.2⟩, List.mem_map.2 ⟨b, hb, rfl⟩, fun hmem =>
      hnode (((ensureNodes_spec t.mentions).2.1 _).1 hmem)⟩
  rw [runAddWorkflow, parseAddWorkflow_tokens hread] at h
  simp only at h
  rw [he] at h
  exact nomatch h

theorem saturate_toNat (n : ℕ) : (saturate n).toNat = min n (2 ^ 32 - 1) := by
  rw [saturate, UInt32.toNat_ofNat']
  omega

/-- The bindings are those of the clauses exactly where the clauses agree. -/
theorem bindings_iff (binds : List (Name × String)) :
    (∀ n h, ((bindMap (binds.map fun b => ⟨b.1.text, b.2⟩)).lookup n).bind Json.asStr = some h ↔
      ∃ b ∈ binds, b.1.text = n ∧ h = "sha256:" ++ b.2) ↔
      ∀ b ∈ binds, ∀ b' ∈ binds, b.1.text = b'.1.text → b.2 = b'.2 := by
  have hentries : ∀ n, ((bindMap (binds.map fun b => ⟨b.1.text, b.2⟩)).lookup n) =
      (binds.map fun b => (b.1.text, Json.str ("sha256:" ++ b.2))).reverse.lookup n := by
    intro n
    rw [bindMap_eq, Sorted.lookup_ofList, List.map_map]
    rfl
  constructor
  · intro h b hb b' hb' heq
    have hone := (h b.1.text _).2 ⟨b, hb, rfl, rfl⟩
    have htwo := (h b.1.text _).2 ⟨b', hb', heq.symm, rfl⟩
    rw [hone] at htwo
    exact String.append_right_inj _ |>.1 (Option.some.inj htwo)
  · intro hagree n h
    rw [hentries]
    constructor
    · intro hsome
      obtain ⟨v, hv, hstr⟩ := Option.bind_eq_some_iff.1 hsome
      obtain ⟨b, hb, heq⟩ := List.mem_map.1 (List.mem_reverse.1 (Assoc.mem_of_lookup hv))
      obtain ⟨rfl, rfl⟩ := Prod.mk.inj heq
      exact ⟨b, hb, rfl, (Option.some.inj hstr).symm⟩
    · rintro ⟨b, hb, rfl, rfl⟩
      cases hlookup : (binds.map fun b => (b.1.text, Json.str ("sha256:" ++ b.2))).reverse.lookup
          b.1.text with
      | none =>
        refine absurd ?_ (Sorted.lookup_eq_none.1 hlookup)
        rw [List.map_reverse, List.mem_reverse, List.map_map]
        exact List.mem_map.2 ⟨b, hb, rfl⟩
      | some v =>
        obtain ⟨b', hb', heq⟩ := List.mem_map.1 (List.mem_reverse.1 (Assoc.mem_of_lookup hlookup))
        obtain ⟨hnode, rfl⟩ := Prod.mk.inj heq
        rw [hagree b hb b' hb' hnode.symm]
        rfl

/-- **`ADD WORKFLOW` stores the graph that is written exactly for the plain texts**, and with it
the reason only where there is none. -/
theorem addWorkflow_exact (t : Text) (ns : Option String) :
    ((∃ g, runAddWorkflow ns t.tokens = some g ∧ Draws t g) ↔ t.Plain) ∧
      ((∃ g, runAddWorkflow ns t.tokens = some g ∧ Draws t g ∧ KeepsReason t g) ↔
        t.Plain ∧ t.reason = "") := by
  obtain ⟨hnodup, hmem, horder⟩ := ensureNodes_spec t.mentions
  have hdraws : ∀ g, runAddWorkflow ns t.tokens = some g → Draws t g → t.Plain := by
    intro g hg hdraw
    obtain ⟨hread, hbound⟩ := runAddWorkflow_some hg
    obtain ⟨g', hg', -, -, hbinds, hretries, -, -⟩ := runAddWorkflow_readable hread ns hbound
    rw [hg] at hg'
    cases hg'
    refine ⟨hread.nonempty, fun c hc => (hread.read c hc).1, fun c hc a ha n hn => ⟨?_, ?_⟩,
      hread.reason_le, hbound, ?_⟩
    · have hzero := (hread.read c hc).2 a ha
      rw [hn] at hzero
      exact Nat.pos_of_ne_zero fun h => hzero (congrArg some h)
    · obtain ⟨d, hd⟩ := texts_ne_nil a.target
      have hcount : n ∈ t.counts d := by
        simp only [Text.counts, List.mem_flatMap]
        refine ⟨c, hc, a, ha, ?_⟩
        rw [if_pos hd, hn]
        exact List.mem_singleton_self n
      obtain ⟨k, hk⟩ : ∃ k, (t.counts d).max? = some k := by
        cases hmax : (t.counts d).max? with
        | none =>
          rw [List.max?_eq_none_iff.1 hmax] at hcount
          exact nomatch hcount
        | some k => exact ⟨k, rfl⟩
      have hgreatest := List.max?_eq_some_iff.1 hk
      have hstored := (hdraw.retries d k).2 hgreatest
      obtain ⟨r, -, rfl⟩ := Option.map_eq_some_iff.1 hstored
      exact (hgreatest.2 n hcount).trans_lt r.toNat_lt
    · refine (bindings_iff t.binds).1 fun n h => ?_
      rw [← hbinds n]
      exact hdraw.bindings n h
  have hplain : t.Plain → ∃ g, runAddWorkflow ns t.tokens = some g ∧ Draws t g ∧
      g.extraFields.lookup "add_reason" = none := by
    intro hplain
    obtain ⟨g, hg, hnodes, hedges, hbinds, hretries, htrigger, hreason⟩ :=
      runAddWorkflow_readable hplain.readable ns hplain.bound
    refine ⟨g, hg, ⟨?_, ?_, ?_, hedges, fun n k => ?_, fun n h => ?_, htrigger⟩, hreason⟩
    · rw [hnodes]
      exact hnodup
    · rw [hnodes]
      exact hmem
    · rw [hnodes]
      exact horder
    · have hsame : ∀ k', k' ∈ given (t.chains.flatMap Chain.edges) n ↔ k' ∈ t.counts n := by
        have hsmall : ∀ k' ∈ t.counts n, (saturate k').toNat = k' := by
          intro k' hk'
          simp only [Text.counts, List.mem_flatMap] at hk'
          obtain ⟨c, hc, a, ha, hmem⟩ := hk'
          split_ifs at hmem
          · have hlt := (hplain.repeats c hc a ha k' (Option.mem_toList.1 hmem)).2
            rw [saturate_toNat]
            omega
          · exact nomatch hmem
        intro k'
        rw [mem_given]
        constructor
        · rintro ⟨k, hk, rfl⟩
          rw [hsmall k hk]
          exact hk
        · exact fun hk => ⟨k', hk, (hsmall k' hk).symm⟩
      rw [hretries n, List.max?_eq_some_iff]
      simp only [hsame]
    · rw [hbinds n]
      exact (bindings_iff t.binds).2 hplain.agree n h
  refine ⟨⟨fun ⟨g, hg, hdraw⟩ => hdraws g hg hdraw, fun h => ?_⟩, ⟨?_, ?_⟩⟩
  · obtain ⟨g, hg, hdraw, -⟩ := hplain h
    exact ⟨g, hg, hdraw⟩
  · rintro ⟨g, hg, hdraw, hkeeps⟩
    have h := hdraws g hg hdraw
    obtain ⟨g', hg', -, hnone⟩ := hplain h
    rw [hg] at hg'
    cases hg'
    refine ⟨h, ?_⟩
    by_contra hreason
    rw [KeepsReason, hnone, if_neg hreason] at hkeeps
    exact nomatch hkeeps
  · rintro ⟨h, hreason⟩
    obtain ⟨g, hg, hdraw, hnone⟩ := hplain h
    refine ⟨g, hg, hdraw, ?_⟩
    rw [KeepsReason, hnone, if_pos hreason]

/-- A release that is approved before it is deployed. -/
def approval : Text where
  name := "release"
  trigger := none
  chains := [⟨.node (.word .approve), [⟨.node (.bare "deploy"), none, none⟩]⟩]
  binds := []
  because := false
  reason := ""

/-- A chain that begins with one of the words only `parse_node_name` knows is refused, also where
no reason is lost. -/
theorem approval_refused : runAddWorkflow none approval.tokens = none ∧
    ¬∀ t ns, ∃ g, runAddWorkflow ns t.tokens = some g ∧ Draws t g ∧ KeepsReason t g := by
  have hrefused : runAddWorkflow none approval.tokens = none := rfl
  refine ⟨hrefused, fun h => ?_⟩
  obtain ⟨g, hg, -⟩ := h approval none
  rw [hrefused] at hg
  exact nomatch hg

end Deja.Graph
