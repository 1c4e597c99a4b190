import Deja.Lib.Best
import Deja.Index.Coherent

/-!
# The best live matches

A superseded grain keeps its postings, so a search ranks the versions nobody asks
for along with the live ones and drops them afterwards.  It ranks everything,
keeps the first `4k`, drops what is superseded and returns the first `k` of what
is left.  That is the best `k` live matches unless too many matching grains rank
ahead of one of them.
-/

namespace Deja

open Run Best


variable {G : Type} {C : Core G} {st : DejaDB}

/-! ## The two ways to fetch the postings -/

namespace Tables

variable (t : Tables)

/-- The rows of the postings query: a token with its posting. -/
def postingRows (ns : ℤ) (wanted : String → Bool) : List (String × Posting) :=
  (t.ftsPost.filter fun p => p.ns = ns).flatMap fun p =>
    (t.ftsVocab.filter fun v => v.id = p.term ∧ wanted v.term).flatMap fun v =>
      (t.ftsDoc.filter fun d => d.seq = p.seq).map fun d => (v.term, p.seq, p.tf, max d.len 1)

/-- One query a distinct token. -/
def probedRows (ns : ℤ) (terms : List String) : List (String × Posting) :=
  terms.dedup.flatMap fun t' => t.postingRows ns (· = t')

/-- One query for all distinct tokens. -/
def batchedRows (ns : ℤ) (terms : List String) : List (String × Posting) :=
  t.postingRows ns (· ∈ terms.dedup)

end Tables

/-- `by_term`: the postings of a token. -/
def byTerm (rows : List (String × Posting)) (term : String) : List Posting :=
  (rows.filter fun r => r.1 = term).map Prod.snd

theorem byTerm_append (rows rows' : List (String × Posting)) (term : String) :
    byTerm (rows ++ rows') term = byTerm rows term ++ byTerm rows' term := by
  rw [byTerm, List.filter_append, List.map_append]
  rfl

theorem byTerm_flatMap {α : Type} (l : List α) (f : α → List (String × Posting)) (term : String) :
    byTerm (l.flatMap f) term = l.flatMap fun x => byTerm (f x) term := by
  induction l with
  | nil => rfl
  | cons x l ih => rw [List.flatMap_cons, byTerm_append, ih, List.flatMap_cons]

/-- Rows of one token are its own or nobody's. -/
theorem byTerm_map (docs : List DocRow) (f : DocRow → Posting) (token term : String) :
    byTerm (docs.map fun d => (token, f d)) term = if token = term then docs.map f else [] := by
  unfold byTerm
  rw [List.filter_map, List.map_map]
  split_ifs with h
  · rw [List.filter_eq_self.2 fun d _ => by simpa using h]
    rfl
  · rw [List.filter_eq_nil_iff.2 fun d _ => by simpa using h]
    rfl

/-- The rows of a query by token. -/
theorem byTerm_postingRows (t : Tables) (ns : ℤ) (wanted : String → Bool) (term : String) :
    byTerm (t.postingRows ns wanted) term =
      if wanted term then t.postingsOf ns term else [] := by
  have hvocab : ∀ (vocab : List TermRow) (p : PostRow),
      ((vocab.filter fun v => v.id = p.term ∧ wanted v.term).flatMap fun v =>
        if v.term = term then (t.ftsDoc.filter fun d => d.seq = p.seq).map fun d =>
          (p.seq, p.tf, max d.len 1) else []) =
      if wanted term then (vocab.filter fun v => v.id = p.term ∧ v.term = term).flatMap fun _ =>
        (t.ftsDoc.filter fun d => d.seq = p.seq).map fun d => (p.seq, p.tf, max d.len 1)
      else [] := by
    intro vocab p
    induction vocab with
    | nil => simp
    | cons v vocab ih =>
      rw [List.filter_cons, List.filter_cons]
      by_cases hid : v.id = p.term
      · by_cases hterm : v.term = term
        · subst hterm
          by_cases hw : wanted v.term = true
          · rw [if_pos hw] at ih ⊢
            rw [if_pos (decide_eq_true ⟨hid, hw⟩), if_pos (decide_eq_true ⟨hid, rfl⟩),
              List.flatMap_cons, List.flatMap_cons, if_pos rfl, ih]
          · rw [if_neg hw] at ih ⊢
            rw [if_neg (by simp [hw]), ih]
        · have hskip : ¬decide (v.id = p.term ∧ v.term = term) = true := by simp [hterm]
          rw [if_neg hskip, ← ih]
          by_cases hw : wanted v.term = true
          · rw [if_pos (decide_eq_true ⟨hid, hw⟩), List.flatMap_cons, if_neg hterm, List.nil_append]
          · rw [if_neg (by simp [hw])]
      · have hskip : ∀ q : Prop, [Decidable q] → ¬decide (v.id = p.term ∧ q) = true := by
          intro q _
          simp [hid]
        rw [if_neg (hskip _), if_neg (hskip _), ih]
  unfold Tables.postingRows Tables.postingsOf
  rw [byTerm_flatMap]
  simp only [byTerm_flatMap, byTerm_map, hvocab]
  split_ifs with hw
  · rfl
  · induction t.ftsPost.filter fun p => decide (p.ns = ns) <;> simp_all

/-- **The two ways to fetch the postings agree**, and give the postings of every
query token. -/
theorem fetches_agree (t : Tables) (ns : ℤ) (terms : List String) {term : String}
    (hterm : term ∈ terms) : byTerm (t.probedRows ns terms) term = t.postingsOf ns term ∧
      byTerm (t.batchedRows ns terms) term = t.postingsOf ns term := by
  have hmem : term ∈ terms.dedup := List.mem_dedup.2 hterm
  constructor
  · unfold Tables.probedRows
    rw [byTerm_flatMap]
    simp only [byTerm_postingRows, decide_eq_true_eq]
    have hone : ∀ l : List String, l.Nodup → term ∈ l →
        (l.flatMap fun t' => if term = t' then t.postingsOf ns term else []) =
          t.postingsOf ns term := by
      intro l hnodup hl
      induction l with
      | nil => cases hl
      | cons x l ih =>
        rw [List.nodup_cons] at hnodup
        rw [List.flatMap_cons]
        by_cases hx : term = x
        · have hrest : (l.flatMap fun t' =>
              if term = t' then t.postingsOf ns term else []) = [] := by
            rw [List.flatMap_eq_nil_iff]
            intro y hy
            rw [if_neg]
            rintro rfl
            exact hnodup.1 (hx ▸ hy)
          rw [if_pos hx, hrest, List.append_nil]
        · rw [if_neg hx, List.nil_append]
          exact ih hnodup.2 ((List.mem_cons.1 hl).resolve_left hx)
    exact hone _ (List.nodup_dedup _) hmem
  · unfold Tables.batchedRows
    rw [byTerm_postingRows, if_pos (decide_eq_true hmem)]

/-! ## What a search should find -/

/-- The text of the grain has one of the tokens. -/
def GrainRow.Matches (C : Core G) (terms : List String) (g : GrainRow) : Bool :=
  (wordsOf C g.blob).1.any fun w => w.1 ∈ terms

/-- The grains of a namespace that match a query, superseded ones among them. -/
def DejaDB.matching (C : Core G) (st : DejaDB) (ns query : String) : List GrainRow :=
  match st.termLookup ns with
  | none => []
  | some nsId => st.db.grains.filter fun g => g.ns = nsId ∧ g.Matches C (tokenize C query)

/-- The score the search gives a candidate. -/
def DejaDB.scoreOf (C : Core G) (st : DejaDB) (score : Scorer) (ns query : String) : ℤ → ℤ :=
  score st.ftsDocs st.ftsTotalLen (tokenize C query)
    (st.db.postingsOf ((st.termLookup ns).getD 0))

/-- The live matches of a query, best score first, ties newest first. -/
def DejaDB.bestLive (C : Core G) (st : DejaDB) (score : Scorer) (ns query : String) : List ℤ :=
  rank (st.scoreOf C score ns query)
    (((st.matching C ns query).filter fun g => g.svt.isNone).map GrainRow.seq)

/-- A word of a grain's text is one of its postings, and the other way round. -/
theorem matches_iff_posts {g : GrainRow} (hexact : st.db.Exact C g) (hvocab : VocabOk st)
    (terms : List String) : g.Matches C terms = true ↔ ∃ x ∈ st.db.ftsPost,
      x.seq = g.seq ∧ x.ns = g.ns ∧
        ∃ token ∈ terms, (⟨x.term, token⟩ : TermRow) ∈ st.db.ftsVocab := by
  unfold GrainRow.Matches
  rw [List.any_eq_true]
  constructor
  · rintro ⟨w, hw, hterm⟩
    obtain ⟨x, hx, hvoc, hxns, -⟩ := forall₂_exists_right hexact.posts w hw
    obtain ⟨hxmem, hseq⟩ := List.mem_filter.1 hx
    exact ⟨x, hxmem, of_decide_eq_true hseq, hxns, w.1, of_decide_eq_true hterm, hvoc⟩
  · rintro ⟨x, hx, hseq, -, token, htoken, hvoc⟩
    have hat : x ∈ st.db.postsAt g.seq := List.mem_filter.2 ⟨hx, decide_eq_true hseq⟩
    obtain ⟨w, hw, hvoc', -⟩ := forall₂_exists_left hexact.posts x hat
    have hrow := row_eq_of_id hvocab.ids hvoc hvoc' rfl
    have hword : token = w.1 := congrArg TermRow.term hrow
    exact ⟨w, hw, decide_eq_true (hword ▸ htoken)⟩

/-- The candidates of a query are the grains that match it. -/
theorem mem_rankedSeqs_iff (hgood : st.Good C) (hcoh : st.Coherent C []) (score : Scorer)
    (nsId : ℤ) (terms : List String) (seq : ℤ) : seq ∈ st.rankedSeqs score nsId terms ↔
      ∃ g ∈ st.db.grains, g.seq = seq ∧ g.ns = nsId ∧ g.Matches C terms = true := by
  have hexact : ∀ g ∈ st.db.grains, st.db.Exact C g := fun g hg =>
    (hcoh.rows g hg).resolve_right fun h => List.not_mem_nil h.1
  rw [DejaDB.mem_rankedSeqs]
  constructor
  · rintro ⟨⟨x, hx, hseq, hns, token, htoken, hvoc⟩, -⟩
    obtain ⟨g, hg, hgx⟩ := hcoh.posts x hx
    have hat : x ∈ st.db.postsAt g.seq := List.mem_filter.2 ⟨hx, decide_eq_true hgx.symm⟩
    obtain ⟨w, -, -, hxns, -⟩ := forall₂_exists_left (hexact g hg).posts x hat
    exact ⟨g, hg, hgx.trans hseq, hxns.symm.trans hns,
      (matches_iff_posts (hexact g hg) hgood.vocabOk terms).2
        ⟨x, hx, hgx.symm, hxns, token, htoken, hvoc⟩⟩
  · rintro ⟨g, hg, rfl, rfl, hmatch⟩
    obtain ⟨x, hx, hseq, hns, token, htoken, hvoc⟩ :=
      (matches_iff_posts (hexact g hg) hgood.vocabOk terms).1 hmatch
    refine ⟨⟨x, hx, hseq, hns, token, htoken, hvoc⟩, ?_⟩
    have hdocs := (hexact g hg).docs
    have hwords : (wordsOf C g.blob).1.isEmpty = false := by
      obtain ⟨w, hw, -⟩ := List.any_eq_true.1 hmatch
      cases hlist : (wordsOf C g.blob).1 with
      | nil =>
        rw [hlist] at hw
        cases hw
      | cons y l => rfl
    have hmem : (⟨g.seq, (wordsOf C g.blob).2⟩ : DocRow) ∈ st.db.docsAt g.seq := by
      rw [hdocs, docRows, hwords]
      exact List.mem_singleton_self _
    exact ⟨_, (List.mem_filter.1 hmem).1, rfl⟩

/-- Whether a stored grain is live is said by its row. -/
theorem isLive_seq (hgood : st.Good C) {g : GrainRow} (hg : g ∈ st.db.grains) :
    st.db.isLive g.seq = g.svt.isNone := by
  unfold Tables.isLive
  rw [Bool.eq_iff_iff, List.any_eq_true]
  constructor
  · rintro ⟨g', hg', hcond⟩
    obtain ⟨hseq, hlive⟩ := of_decide_eq_true hcond
    rw [← hgood.rowsOk.eq_of_seq hg' hg hseq]
    exact hlive
  · exact fun hlive => ⟨g, hg, decide_eq_true ⟨rfl, hlive⟩⟩

theorem mem_matching {ns query : String} {g : GrainRow} : g ∈ st.matching C ns query ↔
    g ∈ st.db.grains ∧ st.termLookup ns = some g.ns ∧ g.Matches C (tokenize C query) = true := by
  unfold DejaDB.matching
  cases st.termLookup ns with
  | none => simp
  | some nsId =>
    simp only [List.mem_filter, decide_eq_true_eq, Option.some.injEq]
    rw [eq_comm (a := nsId)]

theorem matching_seqs_nodup (hgood : st.Good C) (ns query : String) :
    ((st.matching C ns query).map GrainRow.seq).Nodup := by
  have hsub : (st.matching C ns query).Sublist st.db.grains := by
    unfold DejaDB.matching
    cases st.termLookup ns with
    | none => exact List.nil_sublist _
    | some nsId => exact List.filter_sublist
  exact (hsub.map GrainRow.seq).nodup hgood.rowsOk.seqs

/-- The ranking a search cuts: every match, the superseded ones among them. -/
theorem rankedSeqs_eq (hgood : st.Good C) (hcoh : st.Coherent C []) (score : Scorer)
    {ns query : String} {nsId : ℤ} (hns : st.termLookup ns = some nsId) :
    st.rankedSeqs score nsId (tokenize C query) =
      rank (st.scoreOf C score ns query) ((st.matching C ns query).map GrainRow.seq) := by
  have hscore : st.scoreOf C score ns query =
      score st.ftsDocs st.ftsTotalLen (tokenize C query) (st.db.postingsOf nsId) := by
    unfold DejaDB.scoreOf
    rw [hns]
    rfl
  refine eq_of_mem_iff ?_
    (rank_pairwise (matching_seqs_nodup hgood ns query)) fun seq => ?_
  · rw [hscore]
    exact rank_pairwise (List.nodup_dedup _)
  · rw [mem_rankedSeqs_iff hgood hcoh, mem_rank, List.mem_map]
    constructor
    · rintro ⟨g, hg, hseq, rfl, hmatch⟩
      exact ⟨g, mem_matching.2 ⟨hg, hns, hmatch⟩, hseq⟩
    · rintro ⟨g, hg, hseq⟩
      obtain ⟨hg, hgns, hmatch⟩ := mem_matching.1 hg
      rw [hns] at hgns
      exact ⟨g, hg, hseq, (Option.some.inj hgns).symm, hmatch⟩

/-- The live matches in order are the live part of the ranking. -/
theorem bestLive_eq (hgood : st.Good C) (score : Scorer) (ns query : String) :
    st.bestLive C score ns query = (rank (st.scoreOf C score ns query)
      ((st.matching C ns query).map GrainRow.seq)).filter st.db.isLive := by
  have hnodup := matching_seqs_nodup hgood ns query
  refine eq_of_mem_iff (rank_pairwise (hnodup.sublist (List.filter_sublist.map _)))
    ((rank_pairwise hnodup).sublist List.filter_sublist) fun seq => ?_
  rw [DejaDB.bestLive, mem_rank, List.mem_filter, mem_rank, List.mem_map, List.mem_map]
  constructor
  · rintro ⟨g, hg, rfl⟩
    obtain ⟨hg, hlive⟩ := List.mem_filter.1 hg
    exact ⟨⟨g, hg, rfl⟩, by rw [isLive_seq hgood (mem_matching.1 hg).1]; exact hlive⟩
  · rintro ⟨⟨g, hg, rfl⟩, hlive⟩
    rw [isLive_seq hgood (mem_matching.1 hg).1] at hlive
    exact ⟨g, List.mem_filter.2 ⟨hg, hlive⟩, rfl⟩

/-- **A search returns the best `k` live matches** exactly when fewer than `4k`
matches, superseded ones counted, rank ahead of each of them. -/
theorem search_best_iff (h : Reachable C st) (hon : st.indexText = true)
    (hcoh : st.Coherent C []) (score : Scorer) (ns query : String) (k : ℕ) :
    st.searchText C score ns query k false = (st.bestLive C score ns query).take k ↔
      ∀ x ∈ (st.bestLive C score ns query).take k, ((st.matching C ns query).countP fun g =>
        Outranks (st.scoreOf C score ns query) g.seq x) < 4 * k := by
  have hgood := h.good
  have hsorted : (rank (st.scoreOf C score ns query)
      ((st.matching C ns query).map GrainRow.seq)).Pairwise
        (Outranks (st.scoreOf C score ns query)) :=
    rank_pairwise (matching_seqs_nodup hgood ns query)
  have hahead : ∀ x ∈ (st.bestLive C score ns query).take k,
      (((st.matching C ns query).countP fun g =>
        Outranks (st.scoreOf C score ns query) g.seq x) < 4 * k ↔
      x ∈ (rank (st.scoreOf C score ns query)
        ((st.matching C ns query).map GrainRow.seq)).take (4 * k)) := by
    intro x hx
    have hmem := List.mem_of_mem_take hx
    rw [bestLive_eq hgood] at hmem
    rw [mem_take_iff_countP not_outranks_self (fun _ _ => Outranks.asymm) hsorted
      (List.mem_filter.1 hmem).1, (rank_perm _).countP_eq, List.countP_map]
    rfl
  cases hns : st.termLookup ns with
  | none =>
    have hnone : st.bestLive C score ns query = [] := by
      unfold DejaDB.bestLive DejaDB.matching
      rw [hns]
      rfl
    rw [hnone]
    unfold DejaDB.searchText
    rw [hns]
    simp
  | some nsId =>
    have hsearch : st.searchText C score ns query k false =
        (((rank (st.scoreOf C score ns query) ((st.matching C ns query).map GrainRow.seq)).take
          (4 * k)).filter st.db.isLive).take k := by
      unfold DejaDB.searchText
      rw [hns, ← rankedSeqs_eq hgood hcoh score hns]
      simp only [hon, Bool.not_true, Bool.false_eq_true, false_or, if_false]
      split_ifs with hk
      · rw [hk, List.take_zero]
      · rfl
    have hnodup : (rank (st.scoreOf C score ns query)
        ((st.matching C ns query).map GrainRow.seq)).Nodup :=
      (rank_perm _).nodup_iff.2 (matching_seqs_nodup hgood ns query)
    rw [hsearch, bestLive_eq hgood, take_filter_take_iff hnodup, ← bestLive_eq hgood]
    exact forall₂_congr fun x hx => (hahead x hx).symm

/-! ## Too many old versions -/

/-- A fact about `c`, and a chain of four more with a version on top that drops the
word. -/
def buriedOps : List (Op SampleBody) :=
  [.add (sampleFact 1 5 1 2 3), .add (sampleFact 2 5 4 5 3),
    .supersede (Hash.ofByte 2) (sampleFact 3 6 4 5 3),
    .supersede (Hash.ofByte 3) (sampleFact 4 7 4 5 3),
    .supersede (Hash.ofByte 4) (sampleFact 5 8 4 5 3),
    .supersede (Hash.ofByte 5) (sampleFact 6 9 4 5 6)]

/-- The file they leave. -/
def buried : DejaDB := sampleStore.steps sampleCore buriedOps

theorem buried_coherent : buried.Coherent sampleCore [] := by
  refine run_coherent sampleCore none (fun _ => 9) buriedOps rfl fun op hop => ?_
  simp only [buriedOps, List.mem_cons, List.not_mem_nil, or_false] at hop
  rcases hop with rfl | rfl | rfl | rfl | rfl | rfl <;> trivial

theorem buried_indexText : buried.indexText = true := by decide +kernel

/-- Asked for two matches the search finds the one there is. -/
theorem search_best_buried :
    buried.searchText sampleCore (fun _ _ _ _ _ => 0) "shared" "c" 2 false =
      (buried.bestLive sampleCore (fun _ _ _ _ _ => 0) "shared" "c").take 2 :=
  (search_best_iff (sampleStore_reachable.steps buriedOps) buried_indexText buried_coherent
    (fun _ _ _ _ _ => 0) "shared" "c" 2).2 (by decide +kernel)

/-- Asked for one match the search finds none: four superseded versions rank ahead
of the live one. -/
theorem search_misses_buried : ¬ ∀ (st : DejaDB) (score : Scorer) (ns query : String) (k : ℕ),
    Reachable sampleCore st → st.indexText = true → st.Coherent sampleCore [] →
      st.searchText sampleCore score ns query k false =
        (st.bestLive sampleCore score ns query).take k := by
  intro h
  have hone := h buried (fun _ _ _ _ _ => 0) "shared" "c" 1
    (sampleStore_reachable.steps buriedOps) buried_indexText buried_coherent
  have hdiffer : buried.searchText sampleCore (fun _ _ _ _ _ => 0) "shared" "c" 1 false ≠
      (buried.bestLive sampleCore (fun _ _ _ _ _ => 0) "shared" "c").take 1 := by decide +kernel
  exact hdiffer hone

end Deja
