import Deja.Erase.Wiped

/-!
# What a bulk erasure leaves alone

Dictionary and vocabulary ids are shared across grains and namespaces.  An
erasure that went through keeps every row of the grains it did not select, keeps
the strings those rows refer to, and every read finds a survivor exactly when it
did before (`erasure_spares_survivors`).

The reads are compared before their limits: `recallHits`, `threadHits`,
`runHits` and `searchHits` are the rows the store's reads cut off and decode
(`recallGrains_eq_hits`, `threadTail_eq_hits`, `runTrace_eq_hits`,
`searchText_eq_hits`).
-/

namespace Deja

open Run

variable {G : Type} {C : Core G}

/-! ## Reads before their limits -/

namespace DejaDB

variable (st : DejaDB)

/-- The grains `recall` finds, newest first. -/
def recallHits (ns subject : String) (relation : Option String) : List GrainRow :=
  match st.termLookup ns, st.termLookup subject with
  | some nsId, some sId =>
    match relation with
    | none => st.db.recallRows fun r => r.ns = nsId ∧ r.s = sId
    | some rel =>
      match st.termLookup rel with
      | none => []
      | some pId => st.db.recallRows fun r => r.ns = nsId ∧ r.s = sId ∧ r.p = pId
  | _, _ => []

/-- The grains `thread_tail` finds, newest first. -/
def threadHits (ns session : String) : List GrainRow :=
  match st.termLookup ns, st.termLookup session with
  | some nsId, some sessId => st.db.threadTailRows nsId sessId
  | _, _ => []

/-- The grains `run_trace` finds, newest first. -/
def runHits (ns runId : String) : List GrainRow :=
  match st.termLookup ns, st.termLookup runId with
  | some nsId, some run => st.db.runTraceRows nsId run
  | _, _ => []

/-- The sequence numbers `search_text` finds, best first. -/
def searchHits (C : Core G) (score : Scorer) (ns query : String) (includeSuperseded : Bool) :
    List ℤ :=
  if !st.indexText then []
  else
    match st.termLookup ns with
    | none => []
    | some nsId =>
      let ranked := st.rankedSeqs score nsId (tokenize C query)
      if includeSuperseded then ranked else ranked.filter st.db.isLive

variable {st}

theorem recallGrains_eq_hits (ns subject : String) (relation : Option String) (k : ℕ) :
    st.recallGrains C ns subject relation k =
      ((st.recallHits ns subject relation).take k).mapM fun g => C.deserializeBlob g.blob := by
  have hnil : (Except.ok [] : Except DejaDbError (List DeserializedGrain)) =
      (([] : List GrainRow).take k).mapM fun g => C.deserializeBlob g.blob := by
    rw [List.take_nil, List.mapM_nil]
    rfl
  unfold recallGrains recallHits
  cases st.termLookup ns with
  | none => exact hnil
  | some nsId =>
    cases st.termLookup subject with
    | none => exact hnil
    | some sId =>
      cases relation with
      | none => rfl
      | some rel =>
        simp only
        cases st.termLookup rel with
        | none => exact hnil
        | some pId => rfl

theorem threadTail_eq_hits (ns session : String) (n : ℕ) :
    st.threadTail C ns session n =
      ((st.threadHits ns session).take n).reverse.mapM fun g => C.deserializeBlob g.blob := by
  unfold threadTail threadHits
  cases st.termLookup ns <;> cases st.termLookup session <;>
    simp only [List.take_nil, List.reverse_nil, List.mapM_nil] <;> rfl

theorem runTrace_eq_hits (ns runId : String) (limit : ℕ) :
    st.runTrace C ns runId limit =
      ((st.runHits ns runId).take (min limit 1024)).mapM fun g => C.deserializeBlob g.blob := by
  unfold runTrace runHits
  cases st.termLookup ns <;> cases st.termLookup runId <;>
    simp only [List.take_nil, List.mapM_nil] <;> rfl

/-- A search with a limit no shorter than its candidates. -/
theorem searchText_eq_hits {score : Scorer} {ns query : String} {k : ℕ} {all : Bool}
    (hk : ∀ nsId, st.termLookup ns = some nsId →
      (st.rankedSeqs score nsId (tokenize C query)).length ≤ k) :
    st.searchText C score ns query k all = st.searchHits C score ns query all := by
  unfold searchText searchHits
  cases hon : st.indexText with
  | false => simp
  | true =>
    cases hns : st.termLookup ns with
    | none => simp
    | some nsId =>
      have hlen := hk nsId hns
      simp only [Bool.not_true, Bool.false_eq_true, false_or, if_false]
      split_ifs with hk0 hall hall
      · rw [hk0, Nat.le_zero, List.length_eq_zero_iff] at hlen
        rw [hlen]
      · rw [hk0, Nat.le_zero, List.length_eq_zero_iff] at hlen
        rw [hlen]
        rfl
      · exact List.take_of_length_le hlen
      · rw [List.take_of_length_le (by omega : _ ≤ 4 * k)]
        exact List.take_of_length_le ((List.length_filter_le _ _).trans hlen)

end DejaDB

/-! ## Who is found -/

namespace Tables

variable {t : Tables}

theorem grainBySeq_iff (h : (t.grains.map GrainRow.seq).Nodup) {seq : ℤ} {g : GrainRow} :
    t.grainBySeq seq = some g ↔ g ∈ t.grains ∧ g.seq = seq := by
  unfold grainBySeq
  constructor
  · intro hg
    exact ⟨List.mem_of_find?_eq_some hg, by simpa using List.find?_some hg⟩
  · rintro ⟨hg, rfl⟩
    cases hf : t.grains.find? fun x => x.seq = g.seq with
    | none => exact absurd (List.find?_eq_none.1 hf g hg) (by simp)
    | some g' =>
      have hseq : g'.seq = g.seq := by simpa using List.find?_some hf
      rw [List.inj_on_of_nodup_map h (List.mem_of_find?_eq_some hf) hg hseq]

theorem mem_recallRows (h : (t.grains.map GrainRow.seq).Nodup) {wanted : TripleRow → Bool}
    {g : GrainRow} : g ∈ t.recallRows wanted ↔
      g ∈ t.grains ∧ ∃ r ∈ t.triples, r.cur ∧ wanted r ∧ r.seq = g.seq := by
  simp only [recallRows, List.mem_filterMap, (List.perm_insertionSort _ _).mem_iff,
    List.mem_filter, Bool.and_eq_true, grainBySeq_iff h]
  exact ⟨fun ⟨r, ⟨hr, hc, hw⟩, hg, hs⟩ => ⟨hg, r, hr, hc, hw, hs.symm⟩,
    fun ⟨hg, r, hr, hc, hw, hs⟩ => ⟨r, ⟨hr, hc, hw⟩, hg, hs.symm⟩⟩

theorem mem_threadTailRows (h : (t.grains.map GrainRow.seq).Nodup) {ns session : ℤ}
    {g : GrainRow} : g ∈ t.threadTailRows ns session ↔
      g ∈ t.grains ∧ ∃ r ∈ t.threadIdx, (r.ns = ns ∧ r.session = session) ∧ r.seq = g.seq := by
  simp only [threadTailRows, List.mem_filterMap, (List.perm_insertionSort _ _).mem_iff,
    List.mem_filter, decide_eq_true_eq, grainBySeq_iff h]
  exact ⟨fun ⟨r, ⟨hr, hw⟩, hg, hs⟩ => ⟨hg, r, hr, hw, hs.symm⟩,
    fun ⟨hg, r, hr, hw, hs⟩ => ⟨r, ⟨hr, hw⟩, hg, hs.symm⟩⟩

theorem mem_runTraceRows (h : (t.grains.map GrainRow.seq).Nodup) {ns run : ℤ} {g : GrainRow} :
    g ∈ t.runTraceRows ns run ↔
      g ∈ t.grains ∧ ∃ r ∈ t.runIdx, (r.ns = ns ∧ r.run = run) ∧ r.seq = g.seq := by
  simp only [runTraceRows, List.mem_filterMap, (List.perm_insertionSort _ _).mem_iff,
    List.mem_filter, decide_eq_true_eq, grainBySeq_iff h]
  exact ⟨fun ⟨r, ⟨hr, hw⟩, hg, hs⟩ => ⟨hg, r, hr, hw, hs.symm⟩,
    fun ⟨hg, r, hr, hw, hs⟩ => ⟨r, ⟨hr, hw⟩, hg, hs.symm⟩⟩

end Tables

namespace DejaDB

variable {st : DejaDB}

theorem mem_recallHits (h : (st.db.grains.map GrainRow.seq).Nodup) {ns subject : String}
    {relation : Option String} {g : GrainRow} : g ∈ st.recallHits ns subject relation ↔
      g ∈ st.db.grains ∧ ∃ r ∈ st.db.triples, r.cur ∧ r.seq = g.seq ∧
        st.termLookup ns = some r.ns ∧ st.termLookup subject = some r.s ∧
        ∀ rel, relation = some rel → st.termLookup rel = some r.p := by
  unfold recallHits
  cases hns : st.termLookup ns with
  | none => simp
  | some nsId =>
    cases hs : st.termLookup subject with
    | none => simp
    | some sId =>
      cases relation with
      | none =>
        simp only [Tables.mem_recallRows h, decide_eq_true_eq, Option.some.injEq]
        refine and_congr_right fun _ => exists_congr fun r => and_congr_right fun _ =>
          and_congr_right fun _ => ?_
        constructor
        · rintro ⟨⟨rfl, rfl⟩, hseq⟩
          exact ⟨hseq, rfl, rfl, fun rel hrel => by cases hrel⟩
        · rintro ⟨hseq, rfl, rfl, -⟩
          exact ⟨⟨rfl, rfl⟩, hseq⟩
      | some rel =>
        cases hp : st.termLookup rel with
        | none =>
          simp only [hp, List.not_mem_nil, false_iff]
          rintro ⟨-, r, -, -, -, -, -, hrel⟩
          cases hp.symm.trans (hrel rel rfl)
        | some pId =>
          simp only [hp, Tables.mem_recallRows h, decide_eq_true_eq, Option.some.injEq]
          refine and_congr_right fun _ => exists_congr fun r => and_congr_right fun _ =>
            and_congr_right fun _ => ?_
          constructor
          · rintro ⟨⟨rfl, rfl, rfl⟩, hseq⟩
            exact ⟨hseq, rfl, rfl, fun rel' hrel => by rw [← hrel, hp]⟩
          · rintro ⟨hseq, rfl, rfl, hrel⟩
            exact ⟨⟨rfl, rfl, (Option.some_inj.1 (hp.symm.trans (hrel rel rfl))).symm⟩, hseq⟩

theorem mem_threadHits (h : (st.db.grains.map GrainRow.seq).Nodup) {ns session : String}
    {g : GrainRow} : g ∈ st.threadHits ns session ↔
      g ∈ st.db.grains ∧ ∃ r ∈ st.db.threadIdx, r.seq = g.seq ∧
        st.termLookup ns = some r.ns ∧ st.termLookup session = some r.session := by
  unfold threadHits
  cases hns : st.termLookup ns with
  | none => simp
  | some nsId =>
    cases hs : st.termLookup session with
    | none => simp
    | some sId =>
      simp only [Tables.mem_threadTailRows h, Option.some.injEq]
      refine and_congr_right fun _ => exists_congr fun r => and_congr_right fun _ => ?_
      rw [and_comm, eq_comm (a := r.ns), eq_comm (a := r.session)]

theorem mem_runHits (h : (st.db.grains.map GrainRow.seq).Nodup) {ns runId : String}
    {g : GrainRow} : g ∈ st.runHits ns runId ↔
      g ∈ st.db.grains ∧ ∃ r ∈ st.db.runIdx, r.seq = g.seq ∧
        st.termLookup ns = some r.ns ∧ st.termLookup runId = some r.run := by
  unfold runHits
  cases hns : st.termLookup ns with
  | none => simp
  | some nsId =>
    cases hs : st.termLookup runId with
    | none => simp
    | some sId =>
      simp only [Tables.mem_runTraceRows h, Option.some.injEq]
      refine and_congr_right fun _ => exists_congr fun r => and_congr_right fun _ => ?_
      rw [and_comm, eq_comm (a := r.ns), eq_comm (a := r.run)]

/-- The candidates of a query are the indexed documents with one of its tokens. -/
theorem mem_rankedSeqs (score : Scorer) (nsId : ℤ) (terms : List String) (seq : ℤ) :
    seq ∈ st.rankedSeqs score nsId terms ↔
      (∃ x ∈ st.db.ftsPost, x.seq = seq ∧ x.ns = nsId ∧
        ∃ token ∈ terms, ⟨x.term, token⟩ ∈ st.db.ftsVocab) ∧
      ∃ d ∈ st.db.ftsDoc, d.seq = seq := by
  simp only [rankedSeqs, (List.perm_insertionSort _ _).mem_iff, List.mem_dedup, List.mem_flatMap,
    List.mem_map, Tables.postingsOf, List.mem_filter, decide_eq_true_eq]
  constructor
  · rintro ⟨token, htoken, _, ⟨x, ⟨hx, hns⟩, v, ⟨hv, hvx, hvt⟩, d, ⟨hd, hds⟩, rfl⟩, rfl⟩
    have hrow : v = ⟨x.term, token⟩ := by rw [← hvx, ← hvt]
    exact ⟨⟨x, hx, rfl, hns, token, htoken, by rwa [← hrow]⟩, d, hd, hds⟩
  · rintro ⟨⟨x, hx, rfl, hns, token, htoken, hv⟩, d, hd, hds⟩
    exact ⟨token, htoken, _, ⟨x, ⟨hx, hns⟩, _, ⟨hv, rfl, rfl⟩, d, ⟨hd, hds⟩, rfl⟩, rfl⟩

theorem mem_searchHits {score : Scorer} {ns query : String} {all : Bool} {seq : ℤ} :
    seq ∈ st.searchHits C score ns query all ↔ st.indexText ∧
      (∃ x ∈ st.db.ftsPost, x.seq = seq ∧ st.termLookup ns = some x.ns ∧
        ∃ token ∈ tokenize C query, ⟨x.term, token⟩ ∈ st.db.ftsVocab) ∧
      (∃ d ∈ st.db.ftsDoc, d.seq = seq) ∧ (all = false → st.db.isLive seq) := by
  unfold searchHits
  cases hon : st.indexText with
  | false => simp
  | true =>
    cases hns : st.termLookup ns with
    | none => simp
    | some nsId =>
      have hranked := st.mem_rankedSeqs score nsId (tokenize C query) seq
      simp only [Option.some.injEq, Bool.not_true, Bool.false_eq_true, if_false, true_and]
      cases all with
      | true =>
        simp only [if_true, hranked, Bool.true_eq_false, false_imp_iff, and_true,
          eq_comm (a := nsId)]
      | false =>
        simp only [Bool.false_eq_true, if_false, List.mem_filter, hranked, true_imp_iff,
          eq_comm (a := nsId), and_assoc]

end DejaDB

/-! ## Survivors -/

section Survivors

variable {a b : DejaDB} {dead ids gone : List ℤ}

/-- A row kept by an erasure. -/
theorem mem_kept {α : Type} {key : α → ℤ} {l l' : List α}
    (h : l' = l.filter fun r => key r ∉ dead) {x : α} : x ∈ l' ↔ x ∈ l ∧ key x ∉ dead := by
  rw [h, List.mem_filter, decide_eq_true_eq]

/-- A row that stays keeps what it refers to. -/
theorem DejaDB.Erased.lookup (h : a.Erased dead ids gone b) (hok : DictOk a) {x : String}
    {id : ℤ} (href : b.db.termReferenced id = true) :
    b.termLookup x = some id ↔ a.termLookup x = some id := by
  have hlookup : b.termLookup x = some id ↔ a.termLookup x = some id ∧ id ∉ gone := by
    rw [DejaDB.termLookup, h.dict, Assoc.lookup_filter hok.keys, decide_eq_true_eq]
    rfl
  rw [hlookup, and_iff_left]
  exact fun hgone => Bool.noConfusion ((h.file.free id hgone).symm.trans href)

/-- The rows of a grain are filed under its namespace. -/
theorem DejaDB.RowsOk.ns_of_row (h : a.RowsOk C) {g : GrainRow} (hg : g ∈ a.db.grains) :
    (∀ x ∈ a.db.triples, x.seq = g.seq → x.ns = g.ns) ∧
      (∀ x ∈ a.db.threadIdx, x.seq = g.seq → x.ns = g.ns) ∧
      ∀ x ∈ a.db.runIdx, x.seq = g.seq → x.ns = g.ns := by
  obtain ⟨pr, -, hof⟩ := h.spelled g hg
  have hns : g.ns = pr.nsId := by rw [hof.row]; rfl
  refine ⟨fun x hx hs => ?_, fun x hx hs => ?_, fun x hx hs => ?_⟩
  · obtain ⟨y, hy, rfl⟩ := hof.mem_triples.1 ⟨hx, hs⟩
    rcases GrainPrep.mem_tripleRows.1 hy with ⟨s, p, o, -, rfl⟩ | ⟨l, -, rfl⟩ <;> exact hns.symm
  · have hmem : x ∈ a.db.rows.threadIdx.filter (fun x => x.seq = g.seq) :=
      List.mem_filter.2 ⟨hx, by simpa using hs⟩
    rw [hof.threadIdx] at hmem
    obtain ⟨y, -, rfl⟩ := Option.map_eq_some_iff.1 (Option.mem_toList.1 hmem)
    exact hns.symm
  · have hmem : x ∈ a.db.rows.runIdx.filter (fun x => x.seq = g.seq) :=
      List.mem_filter.2 ⟨hx, by simpa using hs⟩
    rw [hof.runIdx] at hmem
    obtain ⟨y, -, rfl⟩ := Option.map_eq_some_iff.1 (Option.mem_toList.1 hmem)
    exact hns.symm

/-- What a grain that stays is found by stays. -/
theorem DejaDB.Erased.lookup_ns (h : a.Erased dead ids gone b) (hok : DictOk a) {g : GrainRow}
    (hg : g ∈ b.db.grains) {x : String} :
    b.termLookup x = some g.ns ↔ a.termLookup x = some g.ns :=
  h.lookup hok (Tables.termReferenced_iff.2 (.inr (.inr (.inr ⟨g, hg, rfl⟩))))

variable (h : a.Erased dead ids gone b) (hok : DictOk a) (hrows : a.RowsOk C)
  (hrows' : b.RowsOk C) {g : GrainRow} (hg : g ∈ b.db.grains)
include h hok hrows hrows' hg

theorem DejaDB.Erased.recall (ns subject : String) (relation : Option String) :
    g ∈ b.recallHits ns subject relation ↔ g ∈ a.recallHits ns subject relation := by
  obtain ⟨hga, hs⟩ := (mem_kept h.file.grains).1 hg
  rw [mem_recallHits hrows'.seqs, mem_recallHits hrows.seqs, and_iff_right hg, and_iff_right hga]
  refine exists_congr fun r => ?_
  constructor
  · rintro ⟨hr, hcur, hseq, hns, hsj, hrel⟩
    have href := fun id hid => Tables.termReferenced_iff.2
      (Or.inl (b := (∃ x ∈ b.db.threadIdx, x.session = id) ∨ _) ⟨r, hr, hid⟩)
    rw [(hrows'.ns_of_row hg).1 r hr hseq] at hns ⊢
    exact ⟨((mem_kept h.file.triples).1 hr).1, hcur, hseq, (h.lookup_ns hok hg).1 hns,
      (h.lookup hok (href _ (.inl rfl))).1 hsj,
      fun rel hr' => (h.lookup hok (href _ (.inr (.inl rfl)))).1 (hrel rel hr')⟩
  · rintro ⟨hr, hcur, hseq, hns, hsj, hrel⟩
    have hr' : r ∈ b.db.triples := (mem_kept h.file.triples).2 ⟨hr, by rwa [hseq]⟩
    have href := fun id hid => Tables.termReferenced_iff.2
      (Or.inl (b := (∃ x ∈ b.db.threadIdx, x.session = id) ∨ _) ⟨r, hr', hid⟩)
    rw [(hrows'.ns_of_row hg).1 r hr' hseq] at hns ⊢
    exact ⟨hr', hcur, hseq, (h.lookup_ns hok hg).2 hns,
      (h.lookup hok (href _ (.inl rfl))).2 hsj,
      fun rel hr'' => (h.lookup hok (href _ (.inr (.inl rfl)))).2 (hrel rel hr'')⟩

theorem DejaDB.Erased.thread (ns session : String) :
    g ∈ b.threadHits ns session ↔ g ∈ a.threadHits ns session := by
  obtain ⟨hga, hs⟩ := (mem_kept h.file.grains).1 hg
  rw [mem_threadHits hrows'.seqs, mem_threadHits hrows.seqs, and_iff_right hg, and_iff_right hga]
  refine exists_congr fun r => ?_
  rw [mem_kept h.file.threadIdx, and_assoc]
  refine and_congr_right fun hr => ?_
  rw [and_iff_right_of_imp fun hx => by rw [hx.1]; exact hs]
  refine and_congr_right fun hseq => ?_
  have hr' : r ∈ b.db.threadIdx := (mem_kept h.file.threadIdx).2 ⟨hr, by rwa [hseq]⟩
  rw [(hrows'.ns_of_row hg).2.1 r hr' hseq, h.lookup_ns hok hg,
    h.lookup hok (Tables.termReferenced_iff.2 (.inr (.inl ⟨r, hr', rfl⟩)))]

theorem DejaDB.Erased.run (ns runId : String) :
    g ∈ b.runHits ns runId ↔ g ∈ a.runHits ns runId := by
  obtain ⟨hga, hs⟩ := (mem_kept h.file.grains).1 hg
  rw [mem_runHits hrows'.seqs, mem_runHits hrows.seqs, and_iff_right hg, and_iff_right hga]
  refine exists_congr fun r => ?_
  rw [mem_kept h.file.runIdx, and_assoc]
  refine and_congr_right fun hr => ?_
  rw [and_iff_right_of_imp fun hx => by rw [hx.1]; exact hs]
  refine and_congr_right fun hseq => ?_
  have hr' : r ∈ b.db.runIdx := (mem_kept h.file.runIdx).2 ⟨hr, by rwa [hseq]⟩
  rw [(hrows'.ns_of_row hg).2.2 r hr' hseq, h.lookup_ns hok hg,
    h.lookup hok (Tables.termReferenced_iff.2 (.inr (.inr (.inl ⟨r, hr', rfl⟩))))]

omit hrows in
/-- Postings carry the namespace of their grain, so a search resolves it before
and after. -/
theorem DejaDB.Erased.search {E : Embedder → Prop} (htexts : TextOk C E b.db) (score : Scorer)
    (ns query : String) (all : Bool) :
    g.seq ∈ b.searchHits C score ns query all ↔ g.seq ∈ a.searchHits C score ns query all := by
  obtain ⟨hga, hs⟩ := (mem_kept h.file.grains).1 hg
  have hpostns : ∀ x ∈ b.db.ftsPost, x.seq = g.seq → x.ns = g.ns := fun x hx hseq => by
    obtain ⟨g', hg', hgs', hns, -⟩ := htexts.post x hx
    rw [← hns, hrows'.eq_of_seq hg' hg (hgs'.trans hseq)]
  have hlive : b.db.isLive g.seq = a.db.isLive g.seq := by
    rw [Bool.eq_iff_iff]
    simp only [Tables.isLive, List.any_eq_true, decide_eq_true_eq, mem_kept h.file.grains]
    exact ⟨fun ⟨x, hx, hxs⟩ => ⟨x, hx.1, hxs⟩,
      fun ⟨x, hx, hxs⟩ => ⟨x, ⟨hx, by rw [hxs.1]; exact hs⟩, hxs⟩⟩
  rw [mem_searchHits, mem_searchHits, h.indexText, hlive]
  refine and_congr_right fun _ => and_congr (exists_congr fun x => ?_)
    (and_congr_left fun _ => exists_congr fun d => ?_)
  · constructor
    · rintro ⟨hx, hseq, hns, token, htoken, hv⟩
      rw [hpostns x hx hseq] at hns ⊢
      exact ⟨((mem_kept h.file.ftsPost).1 hx).1, hseq, (h.lookup_ns hok hg).1 hns, token, htoken,
        h.file.vocab.subset hv⟩
    · rintro ⟨hx, hseq, hns, token, htoken, hv⟩
      have hx' : x ∈ b.db.ftsPost := (mem_kept h.file.ftsPost).2 ⟨hx, by rwa [hseq]⟩
      rw [hpostns x hx' hseq] at hns ⊢
      exact ⟨hx', hseq, (h.lookup_ns hok hg).2 hns, token, htoken,
        h.file.tokens _ hv ⟨x, hx', rfl⟩⟩
  · rw [mem_kept h.file.ftsDoc, and_assoc]
    refine and_congr_right fun _ => and_iff_right_of_imp fun hds => ?_
    rw [hds]
    exact hs

end Survivors

/-! ## The bulk erasures -/

/-- A call of `forget_subject_with` or of `forget_older_than_capped`. -/
inductive BulkErase where
  | subject (ns subject : String) (textMentions : Bool)
  | olderThan (ns : Option String) (cutoffMs : ℤ) (gtype : Option GrainType) (limit : Option ℕ)

namespace BulkErase

/-- Run the call. -/
def run (C : Core G) : BulkErase → StoreM ErasureReport
  | .subject ns s m => forgetSubjectWith C ns s m
  | .olderThan ns cutoff gt limit => forgetOlderThanCapped C ns cutoff gt limit

/-- The call as an operation of a run. -/
def op : BulkErase → Op G
  | .subject ns s m => .forgetSubject ns s m
  | .olderThan ns cutoff gt limit => .forgetOlderThan ns cutoff gt limit

theorem step_eq {e : BulkErase} {a b : DejaDB} {rep : ErasureReport} (h : e.run C a = .ok rep b) :
    a.step C e.op = b := by
  have hquiet : (e.op : Op G).run C = quiet (e.run C) := by cases e <;> rfl
  rw [DejaDB.step, DejaDB.after, hquiet]
  unfold after quiet
  rw [bind_apply, h]
  rfl

/-- A call that returned erased the grains at some numbers and reports them. -/
theorem run_ok {e : BulkErase} {a b : DejaDB} {rep : ErasureReport} (h : e.run C a = .ok rep b) :
    ∃ seqs ids gone : List ℤ,
      a.Erased ((a.db.grains.filter fun g => g.seq ∈ seqs).map GrainRow.seq) ids gone b ∧
      rep.erasedHashes = (a.db.grains.filter fun g => g.seq ∈ seqs).map fun g => g.hash.toHex := by
  have hnone : rep = ErasureReport.empty → b = a → ∃ seqs ids gone : List ℤ,
      a.Erased ((a.db.grains.filter fun g => g.seq ∈ seqs).map GrainRow.seq) ids gone b ∧
      rep.erasedHashes = (a.db.grains.filter fun g => g.seq ∈ seqs).map fun g => g.hash.toHex := by
    rintro rfl rfl
    have hnil : (b.db.grains.filter fun g => g.seq ∈ ([] : List ℤ)) = [] :=
      List.filter_eq_nil_iff.2 fun _ _ => by simp
    refine ⟨[], [], [], ?_⟩
    rw [hnil]
    exact ⟨.refl b, rfl⟩
  have herase : ∀ sel, eraseWhere C sel a = .ok rep b → ∃ seqs ids gone : List ℤ,
      a.Erased ((a.db.grains.filter fun g => g.seq ∈ seqs).map GrainRow.seq) ids gone b ∧
      rep.erasedHashes = (a.db.grains.filter fun g => g.seq ∈ seqs).map fun g => g.hash.toHex := by
    intro sel hsel
    obtain ⟨ids, seqs, s, gone, -, herased, hrep⟩ := eraseWhere_ok hsel
    exact ⟨seqs, ids, gone, herased, hrep⟩
  cases e with
  | subject ns s m =>
    obtain ⟨u, a₁, hcheck, h₁⟩ := bind_eq_ok.1 h
    rcases checkSubjectSelector_apply (C := C) "forget_subject" s m a with hc | ⟨e, hc⟩
    · rw [hc] at hcheck
      cases hcheck
      obtain ⟨a₂, a₃, hget, h₂⟩ := bind_eq_ok.1 h₁
      cases hget
      cases hns : a.termLookup ns with
      | none =>
        rw [hns] at h₂
        obtain ⟨hrep, hb⟩ := pure_eq_ok.1 h₂
        exact hnone hrep.symm hb.symm
      | some nsId =>
        rw [hns] at h₂
        exact herase _ h₂
    · rw [hc] at hcheck
      cases hcheck
  | olderThan ns cutoff gt limit =>
    simp only [run, forgetOlderThanCapped] at h
    split_ifs at h
    · obtain ⟨hrep, hb⟩ := pure_eq_ok.1 h
      exact hnone hrep.symm hb.symm
    · cases ns with
      | none => exact herase _ h
      | some n =>
        obtain ⟨a₂, a₃, hget, h₂⟩ := bind_eq_ok.1 h
        cases hget
        cases hns : a.termLookup n with
        | none =>
          rw [hns] at h₂
          obtain ⟨hrep, hb⟩ := pure_eq_ok.1 h₂
          exact hnone hrep.symm hb.symm
        | some nsId =>
          rw [hns] at h₂
          exact herase _ h₂

end BulkErase

/-- What an erasure that reported `rep` owes the grains it did not select. -/
structure DejaDB.Spares (C : Core G) (a b : DejaDB) (rep : ErasureReport) : Prop where
  grains : ∀ g, g ∈ b.db.grains ↔ g ∈ a.db.grains ∧ g.hash.toHex ∉ rep.erasedHashes
  terms : ∀ r ∈ a.db.terms, b.db.termReferenced r.id → r ∈ b.db.terms
  resolves : b.RowsOk C
  tokens : ∀ x ∈ b.db.ftsPost, ∃ r ∈ b.db.ftsVocab, r.id = x.term
  recallGrains : ∀ g ∈ b.db.grains, ∀ ns subject relation,
    g ∈ b.recallHits ns subject relation ↔ g ∈ a.recallHits ns subject relation
  threadTail : ∀ g ∈ b.db.grains, ∀ ns session,
    g ∈ b.threadHits ns session ↔ g ∈ a.threadHits ns session
  runTrace : ∀ g ∈ b.db.grains, ∀ ns runId, g ∈ b.runHits ns runId ↔ g ∈ a.runHits ns runId
  searchText : ∀ g ∈ b.db.grains, ∀ score ns query all,
    g.seq ∈ b.searchHits C score ns query all ↔ g.seq ∈ a.searchHits C score ns query all

/-- **A bulk erasure does not damage survivors.**  In every reachable state a
call that succeeds keeps every row of the grains it did not select, the strings
and tokens they refer to, and the reads that find them. -/
theorem erasure_spares_survivors {a b : DejaDB} {rep : ErasureReport} (ha : Reachable C a)
    (e : BulkErase) (h : e.run C a = .ok rep b) : a.Spares C b rep := by
  have hb : Reachable C b := by
    rw [← BulkErase.step_eq h]
    exact ha.steps [e.op]
  obtain ⟨seqs, ids, gone, herased, hrep⟩ := BulkErase.run_ok h
  have hgood := ha.good
  have htexts := hb.textOk
  refine ⟨fun g => ?_, fun r hr href => ?_, hb.good.rowsOk, fun x hx => ?_,
    fun g hg => herased.recall hgood.dictOk hgood.rowsOk hb.good.rowsOk hg,
    fun g hg => herased.thread hgood.dictOk hgood.rowsOk hb.good.rowsOk hg,
    fun g hg => herased.run hgood.dictOk hgood.rowsOk hb.good.rowsOk hg,
    fun g hg => herased.search hgood.dictOk hb.good.rowsOk hg htexts⟩
  · rw [mem_kept herased.file.grains, hrep]
    refine and_congr_right fun hg => not_congr ?_
    simp only [List.mem_map, List.mem_filter, decide_eq_true_eq]
    constructor
    · rintro ⟨g', ⟨hg', hs'⟩, hseq⟩
      exact ⟨g', ⟨hg', hs'⟩, by rw [hgood.rowsOk.eq_of_seq hg' hg hseq]⟩
    · rintro ⟨g', ⟨hg', hs'⟩, hhash⟩
      exact ⟨g', ⟨hg', hs'⟩, by
        rw [hgood.rowsOk.eq_of_hash hg' hg (Hash.toHex_injective hhash)]⟩
  · rw [herased.file.terms]
    refine List.mem_map.2 ⟨r, hr, scrubRow_of_notMem fun hgone => ?_⟩
    exact Bool.noConfusion ((herased.file.free r.id hgone).symm.trans href)
  · obtain ⟨g, -, -, -, s, term, -, -, hrow⟩ := htexts.post x hx
    exact ⟨_, hrow, rfl⟩

/-- Two facts of one namespace that share a relation and an object. -/
def neighbours : DejaDB := sampleStore.steps sampleCore
  [.add (sampleFact 1 5 1 2 3), .add (sampleFact 2 5 4 2 3)]

theorem exists_ok_of_all {ε σ α : Type} {x : EStateM.Result ε σ α} {p : α → σ → Bool}
    (h : (match x with
      | .ok v s => p v s
      | .error _ _ => false) = true) : ∃ v s, x = .ok v s ∧ p v s := by
  cases x with
  | ok v s => exact ⟨v, s, rfl, h⟩
  | error e s => cases h

/-- Erasing one of two neighbours spares the other. -/
theorem erasure_spares_neighbour : ∃ rep b,
    (BulkErase.subject "shared" "a" false).run sampleCore neighbours = .ok rep b ∧
      b.db.grains.length = 1 ∧ neighbours.Spares sampleCore b rep := by
  obtain ⟨rep, b, hrun, hone⟩ := exists_ok_of_all
    (x := (BulkErase.subject "shared" "a" false).run sampleCore neighbours)
    (p := fun _ b => b.db.grains.length = 1) (by decide +kernel)
  exact ⟨rep, b, hrun, by simpa using hone,
    erasure_spares_survivors (sampleStore_reachable.steps _) _ hrun⟩

end Deja
