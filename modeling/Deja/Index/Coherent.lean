import Deja.Index.Reopened

/-!
# Postings, document rows and their counters

While text is indexed inline, the rows of a grain are those of its text and the two
counters of the handle are those of the table.  A bundle import writes no rows: what
it brought has none until the next rebuild.

* `Tables.Exact` — the rows of a grain are exactly those of its text.
* `DejaDB.Coherent` — what the index holds, the imported grains without rows aside.
* `run_coherent` — every state of a run is coherent.
* `import_leaves_unindexed` — an imported grain has no rows.
-/

namespace Deja

open Run

variable {G : Type} {C : Core G} {t t' : Tables} {S : ℤ → Prop}

/-! ## The rows of a grain -/

/-- The tokens of a blob's text with their frequencies, and their number; nothing
for a blob without text. -/
def wordsOf (C : Core G) (blob : Bytes) : List (String × ℤ) × ℤ :=
  match (C.deserializeBlob blob).toOption.bind (projectedText C) with
  | some s => tokenFreqs C s
  | none => ([], 0)

/-- The postings of a grain. -/
def Tables.postsAt (t : Tables) (seq : ℤ) : List PostRow := t.ftsPost.filter fun x => x.seq = seq

/-- The document rows of a grain. -/
def Tables.docsAt (t : Tables) (seq : ℤ) : List DocRow := t.ftsDoc.filter fun d => d.seq = seq

/-- A posting says how often a token occurs. -/
def Tables.Spells (t : Tables) (ns : ℤ) (word : String × ℤ) (x : PostRow) : Prop :=
  ⟨x.term, word.1⟩ ∈ t.ftsVocab ∧ x.ns = ns ∧ x.tf = word.2

/-- The document rows of a text: none without a token. -/
def docRows (seq : ℤ) (words : List (String × ℤ) × ℤ) : List DocRow :=
  if words.1.isEmpty then [] else [⟨seq, words.2⟩]

/-- The rows of a grain are exactly those of its text. -/
structure Tables.Exact (C : Core G) (t : Tables) (g : GrainRow) : Prop where
  posts : List.Forall₂ (t.Spells g.ns) (wordsOf C g.blob).1 (t.postsAt g.seq)
  docs : t.docsAt g.seq = docRows g.seq (wordsOf C g.blob)

/-- The grain has no rows. -/
structure Tables.Bare (t : Tables) (g : GrainRow) : Prop where
  posts : t.postsAt g.seq = []
  docs : t.docsAt g.seq = []

/-- The grain is indexed exactly, or it is at `S` and not indexed at all. -/
def Tables.RowedAt (C : Core G) (S : ℤ → Prop) (t : Tables) (g : GrainRow) : Prop :=
  t.Exact C g ∨ (S g.seq ∧ t.Bare g)

/-- Every grain is indexed exactly, those at `S` possibly not at all. -/
def Tables.Rowed (C : Core G) (S : ℤ → Prop) (t : Tables) : Prop :=
  ∀ g ∈ t.grains, t.RowedAt C S g

theorem wordsOf_of_text {blob : Bytes} {s : String} (h : TextOf C blob s) :
    wordsOf C blob = tokenFreqs C s := by
  obtain ⟨view, hview, hs⟩ := h
  unfold wordsOf
  rw [hview]
  show (match projectedText C view with
    | some s => tokenFreqs C s
    | none => ([], 0)) = _
  rw [hs]

theorem wordsOf_of_no_text {blob : Bytes} {view : DeserializedGrain}
    (hview : C.deserializeBlob blob = .ok view) (hnone : projectedText C view = none) :
    wordsOf C blob = ([], 0) := by
  unfold wordsOf
  rw [hview]
  show (match projectedText C view with
    | some s => tokenFreqs C s
    | none => ([], 0)) = _
  rw [hnone]

/-- A text without tokens has length zero. -/
theorem wordsOf_len_zero {blob : Bytes} (h : (wordsOf C blob).1 = []) : (wordsOf C blob).2 = 0 := by
  revert h
  unfold wordsOf
  cases (C.deserializeBlob blob).toOption.bind (projectedText C) with
  | none => exact fun _ => rfl
  | some s =>
    intro h
    simp only [tokenFreqs, List.map_eq_nil_iff, List.dedup_eq_nil] at h
    simp [tokenFreqs, h]

/-! ## Moves -/

/-- A move that keeps the rows of a grain, and every token a posting names. -/
theorem Tables.RowedAt.frame {g g' : GrainRow} (h : t.RowedAt C S g)
    (hg : g.seq = g'.seq ∧ g.ns = g'.ns ∧ g.blob = g'.blob)
    (hposts : t'.postsAt g'.seq = t.postsAt g'.seq) (hdocs : t'.docsAt g'.seq = t.docsAt g'.seq)
    (hvocab : ∀ r ∈ t.ftsVocab, (∃ x ∈ t'.ftsPost, x.term = r.id) → r ∈ t'.ftsVocab) :
    t'.RowedAt C S g' := by
  obtain ⟨hseq, hns, hblob⟩ := hg
  rcases h with hexact | ⟨hS, hbare⟩
  · left
    constructor
    · have hspells := hexact.posts
      rw [hns, hblob, hseq, ← hposts] at hspells
      obtain ⟨hlen, hget⟩ := List.forall₂_iff_get.1 hspells
      refine List.forall₂_iff_get.2 ⟨hlen, fun i h₁ h₂ => ?_⟩
      obtain ⟨hrow, hrest⟩ := hget i h₁ h₂
      exact ⟨hvocab _ hrow ⟨_, List.mem_of_mem_filter (List.get_mem _ ⟨i, h₂⟩), rfl⟩, hrest⟩
    · rw [hdocs, ← hseq, ← hblob]
      exact hexact.docs
  · right
    rw [← hseq] at hposts hdocs ⊢
    exact ⟨hS, hseq ▸ hposts.trans hbare.posts, hseq ▸ hdocs.trans hbare.docs⟩

/-- A move that keeps the rows of the grains that stay, and every token a posting
names. -/
theorem Tables.Rowed.frame (h : t.Rowed C S)
    (hgrains : ∀ g' ∈ t'.grains, ∃ g ∈ t.grains, g.seq = g'.seq ∧ g.ns = g'.ns ∧ g.blob = g'.blob)
    (hposts : ∀ g' ∈ t'.grains, t'.postsAt g'.seq = t.postsAt g'.seq)
    (hdocs : ∀ g' ∈ t'.grains, t'.docsAt g'.seq = t.docsAt g'.seq)
    (hvocab : ∀ r ∈ t.ftsVocab, (∃ x ∈ t'.ftsPost, x.term = r.id) → r ∈ t'.ftsVocab) :
    t'.Rowed C S := by
  intro g' hg'
  obtain ⟨g, hg, hsame⟩ := hgrains g' hg'
  exact (h g hg).frame hsame (hposts g' hg') (hdocs g' hg') hvocab

theorem Tables.Rowed.congr (h : t.Rowed C S) (hview : t'.textView = t.textView) :
    t'.Rowed C S := by
  simp only [textView, Prod.mk.injEq] at hview
  obtain ⟨hgrains, hpost, hdoc, hvocab⟩ := hview
  refine h.frame (fun g' hg' => ?_) (fun _ _ => ?_) (fun _ _ => ?_) ?_
  · have hmem := List.mem_map_of_mem (f := fun g : GrainRow => (g.seq, g.ns, g.blob)) hg'
    rw [hgrains] at hmem
    obtain ⟨g, hg, heq⟩ := List.mem_map.1 hmem
    simp only [Prod.mk.injEq] at heq
    exact ⟨g, hg, heq⟩
  · rw [postsAt, postsAt, hpost]
  · rw [docsAt, docsAt, hdoc]
  · rw [hvocab]
    exact fun r hr _ => hr

theorem Tables.Rowed.mono {S' : ℤ → Prop} (h : t.Rowed C S)
    (hS : ∀ g ∈ t.grains, S g.seq → S' g.seq) : t.Rowed C S' := fun g hg =>
  (h g hg).imp_right fun hbare => ⟨hS g hg hbare.1, hbare.2⟩

/-- The rows at a sequence number that is not erased stay. -/
theorem filter_seq_of_notMem {α : Type} {key : α → ℤ} {l : List α} {dead : List ℤ} {seq : ℤ}
    (h : seq ∉ dead) :
    (l.filter fun x => key x ∉ dead).filter (fun x => key x = seq) =
      l.filter fun x => key x = seq := by
  rw [List.filter_filter]
  refine List.filter_congr fun x _ => ?_
  by_cases hx : key x = seq
  · simp [hx, h]
  · simp [hx]

theorem Tables.Rowed.erase (h : t.Rowed C S) {dead : List ℤ}
    (hgrains : t'.grains = t.grains.filter fun g => g.seq ∉ dead)
    (hpost : t'.ftsPost = t.ftsPost.filter fun x => x.seq ∉ dead)
    (hdoc : t'.ftsDoc = t.ftsDoc.filter fun d => d.seq ∉ dead)
    (hvocab : ∀ r ∈ t.ftsVocab, (∃ x ∈ t'.ftsPost, x.term = r.id) → r ∈ t'.ftsVocab) :
    t'.Rowed C S := by
  have hstay : ∀ g' ∈ t'.grains, g' ∈ t.grains ∧ g'.seq ∉ dead := by
    intro g' hg'
    rw [hgrains] at hg'
    simpa using List.mem_filter.1 hg'
  refine h.frame (fun g' hg' => ⟨g', (hstay g' hg').1, rfl, rfl, rfl⟩) (fun g' hg' => ?_)
    (fun g' hg' => ?_) hvocab
  · rw [postsAt, hpost, filter_seq_of_notMem (hstay g' hg').2, postsAt]
  · rw [docsAt, hdoc, filter_seq_of_notMem (hstay g' hg').2, docsAt]

/-! ## The counters -/

/-- `COUNT(*), SUM(len)` of document rows. -/
def docStats (docs : List DocRow) : ℤ × ℤ := ((docs.length : ℤ), (docs.map DocRow.len).sum)

theorem docStats_append (l m : List DocRow) : docStats (l ++ m) = docStats l + docStats m := by
  simp [docStats]

theorem docStats_filter (p : DocRow → Bool) (l : List DocRow) :
    docStats l = docStats (l.filter p) + docStats (l.filter fun d => !p d) := by
  induction l with
  | nil => rfl
  | cons d l ih =>
    have hcons : ∀ m, docStats (d :: m) = docStats [d] + docStats m := docStats_append [d]
    cases hp : p d with
    | true =>
      rw [hcons l, ih, List.filter_cons_of_pos hp, List.filter_cons_of_neg (by simp [hp]),
        hcons (l.filter p), add_assoc]
    | false =>
      rw [hcons l, ih, List.filter_cons_of_neg (by simp [hp]),
        List.filter_cons_of_pos (by simp [hp]), hcons (l.filter fun d => !p d), add_left_comm]

theorem docStats_nonneg {l : List DocRow} (h : ∀ d ∈ l, 0 ≤ d.len) :
    0 ≤ (docStats l).1 ∧ 0 ≤ (docStats l).2 := by
  refine ⟨Int.natCast_nonneg _, List.sum_nonneg fun x hx => ?_⟩
  obtain ⟨d, hd, rfl⟩ := List.mem_map.1 hx
  exact h d hd

theorem docStats_docRows {blob : Bytes} (seq : ℤ) :
    docStats (docRows seq (wordsOf C blob)) =
      ((if (wordsOf C blob).1.isEmpty then 0 else 1), (wordsOf C blob).2) := by
  unfold docRows
  split_ifs with hempty
  · rw [wordsOf_len_zero (List.isEmpty_iff.1 hempty)]
    rfl
  · simp [docStats]

theorem ftsDelta_cons (pr : GrainPrep) (preps : List GrainPrep) :
    ftsDelta (pr :: preps) = ftsDelta [pr] + ftsDelta preps := by
  simp only [ftsDelta, List.countP_cons, List.countP_nil, List.map_cons, List.map_nil,
    List.sum_cons, List.sum_nil, Prod.mk_add_mk, Nat.cast_add]
  congr 1 <;> ring

theorem TextOk.len_nonneg {E : Embedder → Prop} (h : TextOk C E t) : ∀ d ∈ t.ftsDoc, 0 ≤ d.len := by
  intro d hd
  obtain ⟨g, -, -, s, -, hlen⟩ := h.doc d hd
  rw [hlen]
  exact Int.natCast_nonneg _

/-! ## Inserts -/

/-- The encoded tokens of a prepared grain are those of its blob's text. -/
structure WordsPrep (C : Core G) (t : Tables) (pr : GrainPrep) : Prop where
  tokens : List.Forall₂ (fun x y => ⟨y.1, x.1⟩ ∈ t.ftsVocab ∧ y.2 = x.2) (wordsOf C pr.blob).1
    pr.tokens
  docLen : pr.docLen = (wordsOf C pr.blob).2

theorem Prepared.wordsPrep {a : DejaDB} {view : DeserializedGrain} {pr : GrainPrep}
    (h : Prepared C a view pr) (hon : a.indexText = true) (hinline : a.ftsDeferred = false) :
    WordsPrep C a.db pr := by
  have htext : pr.text = projectedText C view := by
    rw [h.text, DejaDB.storedText, if_pos hon]
  have htokens := h.tokens
  unfold DejaDB.EncodesText at htokens
  rw [htext, hinline] at htokens
  cases hs : projectedText C view with
  | none =>
    rw [hs] at htokens
    have hwords := wordsOf_of_no_text h.decodes hs
    constructor
    · rw [hwords, htokens.1]
      exact .nil
    · rw [hwords, htokens.2]
  | some s =>
    rw [hs] at htokens
    have hwords := wordsOf_of_text ⟨view, h.decodes, hs⟩
    constructor
    · rw [hwords]
      exact htokens.1
    · rw [hwords, htokens.2]

theorem WordsPrep.isEmpty {pr : GrainPrep} (h : WordsPrep C t pr) :
    pr.tokens.isEmpty = (wordsOf C pr.blob).1.isEmpty := by
  have hlen := h.tokens.length_eq
  cases hw : (wordsOf C pr.blob).1 with
  | nil =>
    rw [hw] at hlen
    rw [List.eq_nil_of_length_eq_zero hlen.symm]
    rfl
  | cons x xs =>
    rw [hw] at hlen
    cases ht : pr.tokens with
    | nil =>
      rw [ht] at hlen
      cases hlen
    | cons => rfl

theorem WordsPrep.congr {pr : GrainPrep} (h : WordsPrep C t pr)
    (hvocab : t'.ftsVocab = t.ftsVocab) : WordsPrep C t' pr where
  tokens := by
    rw [hvocab]
    exact h.tokens
  docLen := h.docLen

/-- Where no grain is, no row is. -/
theorem TextOk.fresh {E : Embedder → Prop} (h : TextOk C E t) {seq : ℤ}
    (hfresh : ∀ g ∈ t.grains, g.seq ≠ seq) : t.postsAt seq = [] ∧ t.docsAt seq = [] := by
  constructor
  · refine List.filter_eq_nil_iff.2 fun x hx hxs => ?_
    obtain ⟨g, hg, hseq, -⟩ := h.post x hx
    exact hfresh g hg (hseq.trans (of_decide_eq_true hxs))
  · refine List.filter_eq_nil_iff.2 fun d hd hds => ?_
    obtain ⟨g, hg, hseq, -⟩ := h.doc d hd
    exact hfresh g hg (hseq.trans (of_decide_eq_true hds))

/-- A new grain with rows of its own. -/
theorem Tables.Rowed.insert {E : Embedder → Prop} {pr : GrainPrep} {seq : ℤ} {posts : List PostRow}
    {docs : List DocRow} (h : t.Rowed C S) (htext : TextOk C E t) (hins : t.Inserts pr seq t')
    (hpost : t'.ftsPost = t.ftsPost ++ posts) (hdoc : t'.ftsDoc = t.ftsDoc ++ docs)
    (hposts : ∀ x ∈ posts, x.seq = seq) (hdocs : ∀ d ∈ docs, d.seq = seq)
    (hnew : posts = t'.postsAt seq → docs = t'.docsAt seq → t'.RowedAt C S (pr.grainRow seq)) :
    t'.Rowed C S := by
  have hpostsAt : ∀ s, t'.postsAt s = t.postsAt s ++ if s = seq then posts else [] := fun s => by
    rw [postsAt, hpost]
    exact Rows.filter_append_block PostRow.seq hposts s
  have hdocsAt : ∀ s, t'.docsAt s = t.docsAt s ++ if s = seq then docs else [] := fun s => by
    rw [docsAt, hdoc]
    exact Rows.filter_append_block DocRow.seq hdocs s
  intro g hg
  rw [hins.grains] at hg
  rcases List.mem_append.1 hg with hg | hg
  · have hne : g.seq ≠ seq := hins.freshSeq g hg
    refine (h g hg).frame ⟨rfl, rfl, rfl⟩ ?_ ?_ fun r hr _ => by rw [hins.ftsVocab]; exact hr
    · rw [hpostsAt, if_neg hne, List.append_nil]
    · rw [hdocsAt, if_neg hne, List.append_nil]
  · obtain rfl := List.mem_singleton.1 hg
    obtain ⟨hnoPosts, hnoDocs⟩ := htext.fresh hins.freshSeq
    refine hnew ?_ ?_
    · rw [hpostsAt, hnoPosts, if_pos rfl, List.nil_append]
    · rw [hdocsAt, hnoDocs, if_pos rfl, List.nil_append]

theorem WordsPrep.spells {pr : GrainPrep} {seq : ℤ} (h : WordsPrep C t pr)
    (hvocab : t'.ftsVocab = t.ftsVocab) :
    List.Forall₂ (t'.Spells pr.nsId) (wordsOf C pr.blob).1 (pr.postRows seq) := by
  unfold GrainPrep.postRows
  rw [List.forall₂_map_right_iff]
  refine h.tokens.imp fun x y hxy => ⟨?_, rfl, hxy.2⟩
  rw [hvocab]
  exact hxy.1

/-- The document rows of an insert. -/
theorem Tables.insertPreppedOne_rows {E : Embedder → Prop} {pr : GrainPrep} {seq op hlc : ℤ}
    (htext : TextOk C E t) (hpr : WordsPrep C t pr)
    (htxn : t.insertPreppedOne pr seq op hlc = .ok t') :
    t'.ftsPost = t.ftsPost ++ pr.postRows seq ∧
      t'.ftsDoc = t.ftsDoc ++ docRows seq (wordsOf C pr.blob) := by
  obtain ⟨hins, -, -, hpost, hdoc, -, -⟩ := Tables.insertPreppedOne_ok htxn
  have hnoDocs : t.ftsDoc.filter (fun d => d.seq ≠ seq) = t.ftsDoc := by
    refine List.filter_eq_self.2 fun d hd => ?_
    obtain ⟨g, hg, hseq, -⟩ := htext.doc d hd
    simpa [hseq] using hins.freshSeq g hg
  rw [hpost, hdoc, insertPostings, docRows, ← hpr.isEmpty, ← hpr.docLen]
  split_ifs with hempty
  · rw [GrainPrep.postRows, List.isEmpty_iff.1 hempty]
    simp
  · exact ⟨rfl, by rw [hnoDocs]⟩

theorem Tables.Rowed.insertPreppedOne {E : Embedder → Prop} {pr : GrainPrep} {seq op hlc : ℤ}
    (h : t.Rowed C S) (htext : TextOk C E t) (hpr : WordsPrep C t pr)
    (htxn : t.insertPreppedOne pr seq op hlc = .ok t') :
    t'.Rowed C S ∧ docStats t'.ftsDoc = docStats t.ftsDoc + ftsDelta [pr] := by
  obtain ⟨hpost, hdoc⟩ := insertPreppedOne_rows htext hpr htxn
  have hins := (Tables.insertPreppedOne_ok htxn).1
  constructor
  · refine h.insert htext hins hpost hdoc (fun x hx => ?_) (fun d hd => ?_)
      fun hp hd => .inl ⟨?_, ?_⟩
    · obtain ⟨y, -, rfl⟩ := List.mem_map.1 hx
      rfl
    · unfold docRows at hd
      split_ifs at hd
      · cases hd
      · rw [List.mem_singleton.1 hd]
    · show List.Forall₂ _ _ (t'.postsAt seq)
      rw [← hp]
      exact hpr.spells hins.ftsVocab
    · exact hd.symm
  · rw [hdoc, docStats_append, docStats_docRows, ← hpr.isEmpty, ← hpr.docLen]
    cases hempty : pr.tokens.isEmpty <;> simp [ftsDelta, hempty]

theorem Tables.Rowed.insertPrepped {E : Embedder → Prop} {preps : List GrainPrep}
    {seq op hlc : ℤ} (h : t.Rowed C S) (htext : TextOk C E t)
    (hpreps : ∀ pr ∈ preps, TextPrep C E t pr ∧ WordsPrep C t pr)
    (hbelow : ∀ g ∈ t.grains, g.seq < seq)
    (htxn : t.insertPrepped preps seq op hlc = .ok t') :
    t'.Rowed C S ∧ docStats t'.ftsDoc = docStats t.ftsDoc + ftsDelta preps ∧
      ∀ g ∈ t'.grains, g.seq < seq + preps.length := by
  induction preps generalizing t seq op hlc with
  | nil =>
    cases htxn
    refine ⟨h, ?_, fun g hg => by simpa using hbelow g hg⟩
    simp [ftsDelta]
  | cons pr preps ih =>
    obtain ⟨t₁, hone, hrest⟩ := except_bind_ok htxn
    rw [List.forall_mem_cons] at hpreps
    have hins := (Tables.insertPreppedOne_ok hone).1
    obtain ⟨hrowed, hstats⟩ := h.insertPreppedOne htext hpreps.1.2 hone
    obtain ⟨hrowed', hstats', hbelow'⟩ := ih hrowed (htext.insertPreppedOne hpreps.1.1 hone)
      (fun x hx => ⟨(hpreps.2 x hx).1.congr hins.ftsVocab, (hpreps.2 x hx).2.congr hins.ftsVocab⟩)
      (fun g hg => by
        rw [hins.grains] at hg
        rcases List.mem_append.1 hg with hg | hg
        · have := hbelow g hg
          omega
        · rw [List.mem_singleton.1 hg]
          exact lt_add_one seq) hrest
    refine ⟨hrowed', ?_, fun g hg => ?_⟩
    · rw [hstats', hstats, ftsDelta_cons pr preps, add_assoc]
    · have := hbelow' g hg
      rw [List.length_cons]
      push_cast
      omega

/-! ## The index of a file -/

/-- The text index of a file: every grain is indexed, below the next sequence
number, and the statistics are those of the document rows. -/
structure Tables.KeepsIndex (C : Core G) (S : ℤ → Prop) (next : ℤ) (stats : ℤ × ℤ) (t : Tables) :
    Prop where
  rowed : t.Rowed C S
  below : ∀ g ∈ t.grains, g.seq < next
  stats : docStats t.ftsDoc = stats

namespace Tables.KeepsIndex

variable {next : ℤ} {stats : ℤ × ℤ} {E : Embedder → Prop}

theorem congr (h : t.KeepsIndex C S next stats) (hview : t'.textView = t.textView) :
    t'.KeepsIndex C S next stats where
  rowed := h.rowed.congr hview
  below g hg := by
    have hgrains : t'.grains.map (fun g => (g.seq, g.ns, g.blob)) =
        t.grains.map fun g => (g.seq, g.ns, g.blob) := congrArg Prod.fst hview
    have hmem := List.mem_map_of_mem (f := fun g : GrainRow => (g.seq, g.ns, g.blob)) hg
    rw [hgrains] at hmem
    obtain ⟨g₀, hg₀, heq⟩ := List.mem_map.1 hmem
    simp only [Prod.mk.injEq] at heq
    rw [← heq.1]
    exact h.below g₀ hg₀
  stats := by
    have hdoc : t'.ftsDoc = t.ftsDoc := congrArg (fun v => v.2.2.1) hview
    rw [hdoc]
    exact h.stats

theorem insertPrepped {preps : List GrainPrep} {op hlc : ℤ} (h : t.KeepsIndex C S next stats)
    (htext : TextOk C E t) (hpreps : ∀ pr ∈ preps, TextPrep C E t pr ∧ WordsPrep C t pr)
    (htxn : t.insertPrepped preps next op hlc = .ok t') :
    t'.KeepsIndex C S (next + preps.length) (stats + ftsDelta preps) := by
  obtain ⟨hrowed, hstats, hbelow⟩ := h.rowed.insertPrepped htext hpreps h.below htxn
  exact ⟨hrowed, hbelow, by rw [hstats, h.stats]⟩

theorem insertPreppedOne {pr : GrainPrep} {op hlc : ℤ} (h : t.KeepsIndex C S next stats)
    (htext : TextOk C E t) (hpr : TextPrep C E t pr ∧ WordsPrep C t pr)
    (htxn : t.insertPreppedOne pr next op hlc = .ok t') :
    t'.KeepsIndex C S (next + 1) (stats + ftsDelta [pr]) := by
  have hone : t.insertPrepped [pr] next op hlc = .ok t' := by
    unfold Tables.insertPrepped
    rw [htxn]
    rfl
  exact h.insertPrepped htext (fun pr' hpr' => by rw [List.mem_singleton.1 hpr']; exact hpr) hone

/-- An imported grain has no rows. -/
theorem insertBlobTxn {pr : GrainPrep} {op hlc : ℤ} {kind : OpKind}
    (h : t.KeepsIndex C S next stats) (htext : TextOk C E t) (hS : S next)
    (htxn : t.insertBlobTxn pr next op hlc kind = .ok t') :
    t'.KeepsIndex C S (next + 1) stats := by
  obtain ⟨hins, -, -, hpost, hdoc, -, -⟩ := Tables.insertBlobTxn_ok htxn
  have hpost' : t'.ftsPost = t.ftsPost ++ [] := by rw [hpost, List.append_nil]
  have hdoc' : t'.ftsDoc = t.ftsDoc ++ [] := by rw [hdoc, List.append_nil]
  constructor
  · exact h.rowed.insert htext hins hpost' hdoc' (fun x hx => nomatch hx) (fun d hd => nomatch hd)
      fun hp hd => .inr ⟨hS, hp.symm, hd.symm⟩
  · intro g hg
    rw [hins.grains] at hg
    rcases List.mem_append.1 hg with hg | hg
    · have := h.below g hg
      omega
    · rw [List.mem_singleton.1 hg]
      exact lt_add_one next
  · rw [hdoc]
    exact h.stats

/-- Grains go with their rows. -/
theorem erase {dead : List ℤ} {gone : ℤ × ℤ} (h : t.KeepsIndex C S next stats)
    (hgrains : t'.grains = t.grains.filter fun g => g.seq ∉ dead)
    (hpost : t'.ftsPost = t.ftsPost.filter fun x => x.seq ∉ dead)
    (hdoc : t'.ftsDoc = t.ftsDoc.filter fun d => d.seq ∉ dead)
    (hvocab : ∀ r ∈ t.ftsVocab, (∃ x ∈ t'.ftsPost, x.term = r.id) → r ∈ t'.ftsVocab)
    (hgone : gone = docStats (t.ftsDoc.filter fun d => d.seq ∈ dead)) :
    t'.KeepsIndex C S next (stats - gone) where
  rowed := h.rowed.erase hgrains hpost hdoc hvocab
  below g hg := by
    rw [hgrains] at hg
    exact h.below g (List.mem_of_mem_filter hg)
  stats := by
    have hsplit := docStats_filter (fun d => d.seq ∈ dead) t.ftsDoc
    rw [h.stats, ← hgone] at hsplit
    rw [hsplit, hdoc, add_sub_cancel_left]
    congr 1
    refine List.filter_congr fun d _ => ?_
    simp

theorem deleteSeq (h : t.KeepsIndex C S next stats) (seq : ℤ) :
    (t.deleteSeq seq).KeepsIndex C S next (stats - docStats (t.docsAt seq)) := by
  have hfilter : ∀ {α : Type} (key : α → ℤ) (l : List α),
      l.filter (fun x => key x ≠ seq) = l.filter fun x => key x ∉ [seq] := fun key l =>
    List.filter_congr fun x _ => by simp
  refine h.erase (hfilter GrainRow.seq _) (hfilter PostRow.seq _) (hfilter DocRow.seq _)
    (fun r hr _ => hr) ?_
  unfold docsAt
  congr 1
  exact List.filter_congr fun d _ => by simp

end Tables.KeepsIndex

theorem Tables.eraseTxn_docs {seqs ids : List ℤ} {op hlc : ℤ} {out : EraseOut}
    (htxn : t.eraseTxn seqs ids op hlc = .ok (out, t')) :
    t'.ftsDoc = t.ftsDoc.filter (fun d =>
      d.seq ∉ (t.grains.filter fun g => g.seq ∈ seqs).map GrainRow.seq) := by
  obtain ⟨t₁, t₂, htargets, ht₂, hscrub, -⟩ := eraseTxn_ok htxn
  rw [hscrub.file, ht₂]
  exact (reconcile_frame t₁ seqs _).ftsDoc.trans (eraseTargets_ok htargets).1.ftsDoc

theorem Tables.KeepsIndex.eraseTxn {next : ℤ} {stats : ℤ × ℤ} {seqs ids : List ℤ} {op hlc : ℤ}
    {out : EraseOut} (h : t.KeepsIndex C S next stats)
    (htxn : t.eraseTxn seqs ids op hlc = .ok (out, t')) :
    t'.KeepsIndex C S next (stats - (out.docs, out.lenSum)) := by
  obtain ⟨dead, hgrains, hpost, hdoc, -, hvocab⟩ := Tables.eraseTxn_texts htxn
  obtain ⟨-, -, -, -, -, -, hdocs, hlen⟩ := Tables.eraseTxn_ok htxn
  have hkept := h.erase hgrains hpost hdoc hvocab rfl
  refine ⟨hkept.rowed, hkept.below, ?_⟩
  have hsplit := docStats_filter (fun d => d.seq ∈ (t.grains.filter fun g => g.seq ∈ seqs).map
    GrainRow.seq) t.ftsDoc
  rw [h.stats] at hsplit
  rw [hsplit, hdocs, hlen, Tables.eraseTxn_docs htxn]
  refine Eq.trans ?_ (add_sub_cancel_left _ _).symm
  congr 1
  exact List.filter_congr fun d _ => decide_not

/-- The document row of a grain is the one a forget finds. -/
theorem Tables.Rowed.docsAt_of_find {g : GrainRow} (h : t.Rowed C S) (hg : g ∈ t.grains) :
    t.docsAt g.seq = (t.ftsDoc.find? fun d => d.seq = g.seq).toList := by
  rw [← List.head?_filter]
  show t.docsAt g.seq = (t.docsAt g.seq).head?.toList
  rcases h g hg with hexact | ⟨-, hbare⟩
  · rw [hexact.docs]
    unfold docRows
    split_ifs <;> rfl
  · rw [hbare.docs]
    rfl

/-! ## The handle -/

/-- A handle that indexes inline; imports may have left grains without rows at
`S`, and the sequence numbers from `n` on are those of new grains. -/
structure DejaDB.Keeps (C : Core G) (S : ℤ → Prop) (n : ℤ) (st : DejaDB) : Prop where
  texts : st.TextsOk C fun _ => True
  on : st.indexText = true
  inline : st.ftsDeferred = false
  floor : n ≤ st.nextSeq
  index : st.db.KeepsIndex C S st.nextSeq (st.ftsDocs, st.ftsTotalLen)

theorem Idle.keeps {n : ℤ} {a b : DejaDB} (h : Idle a b) (hI : a.Keeps C S n) : b.Keeps C S n where
  texts := h.textsOk hI.texts
  on := by
    rw [h.rest]
    exact hI.on
  inline := by
    rw [h.rest]
    exact hI.inline
  floor := hI.floor.trans h.nextSeq
  index := by
    have hgrains : b.db.grains = a.db.grains := by rw [h.file]
    have hpost : b.db.ftsPost = a.db.ftsPost := by rw [h.file]
    have hdoc : b.db.ftsDoc = a.db.ftsDoc := by rw [h.file]
    have hdocs : b.ftsDocs = a.ftsDocs := by rw [h.rest]
    have htotal : b.ftsTotalLen = a.ftsTotalLen := by rw [h.rest]
    refine ⟨hI.index.rowed.frame (fun g hg => ⟨g, by rw [← hgrains]; exact hg, rfl, rfl, rfl⟩)
      (fun _ _ => ?_) (fun _ _ => ?_) fun r hr _ => h.vocab.subset hr, fun g hg => ?_, ?_⟩
    · rw [Tables.postsAt, hpost, Tables.postsAt]
    · rw [Tables.docsAt, hdoc, Tables.docsAt]
    · rw [hgrains] at hg
      exact (hI.index.below g hg).trans_le h.nextSeq
    · rw [hdoc, hdocs, htotal]
      exact hI.index.stats

/-- Counters that were right stay right when documents go, never cut at zero. -/
theorem dropped_stats {a : DejaDB} {docs len : ℤ} {kept : List DocRow}
    (h : docStats kept = (a.ftsDocs, a.ftsTotalLen) - (docs, len))
    (hnonneg : ∀ d ∈ kept, 0 ≤ d.len) :
    docStats kept = ((a.dropped docs len).ftsDocs, (a.dropped docs len).ftsTotalLen) := by
  obtain ⟨h₁, h₂⟩ := docStats_nonneg hnonneg
  rw [h] at h₁ h₂ ⊢
  exact Prod.ext (max_eq_left h₁).symm (max_eq_left h₂).symm

/-! ## The text rebuild -/

/-- With every token in the vocabulary the rows of a grain are those of its text. -/
theorem rebuiltRows_exact {g : GrainRow} {y : List PostRow × List DocRow} {a b : DejaDB}
    (hok : VocabOk a) (hcol : ∀ s, g.text = some s ↔ TextOf C g.blob s)
    (hnone : g.text = none → wordsOf C g.blob = ([], 0))
    (hwarm : ∀ s, TextOf C g.blob s → ∀ token ∈ tokenize C s,
      ∃ id, (⟨id, token⟩ : TermRow) ∈ a.db.ftsVocab)
    (h : rebuiltRows C g a = .ok y b) :
    List.Forall₂ (a.db.Spells g.ns) (wordsOf C g.blob).1 y.1 ∧
      (∀ x ∈ y.1, x.seq = g.seq) ∧ y.2 = docRows g.seq (wordsOf C g.blob) := by
  cases htext : g.text with
  | none =>
    unfold rebuiltRows at h
    rw [htext] at h
    obtain ⟨rfl, -⟩ := pure_eq_ok.1 h
    rw [hnone htext]
    refine ⟨.nil, fun x hx => ?_, rfl⟩
    cases hx
  | some s =>
    have hs := (hcol s).1 htext
    obtain ⟨hposts, hdocs⟩ := rebuiltRows_eq hok htext h
    rw [wordsOf_of_text hs]
    have hall : List.Forall₂ (fun x p =>
        p = (⟨(a.db.vocabId x.1).getD 0, g.seq, g.ns, x.2⟩ : PostRow) ∧
          ⟨p.term, x.1⟩ ∈ a.db.ftsVocab) (tokenFreqs C s).1 y.1 := by
      rw [hposts]
      have hids : ∀ x ∈ (tokenFreqs C s).1, ∃ id, (⟨id, x.1⟩ : TermRow) ∈ a.db.ftsVocab := by
        intro x hx
        exact hwarm s hs x.1 (mem_tokenFreqs.2 ⟨x, hx, rfl⟩)
      revert hids
      generalize (tokenFreqs C s).1 = words
      intro hids
      induction words with
      | nil => exact .nil
      | cons x words ih =>
        rw [List.forall_mem_cons] at hids
        obtain ⟨id, hid⟩ := hids.1
        have hfound := vocabId_of_mem hok.strings hid
        rw [List.filterMap_cons]
        simp only [hfound, Option.map_some]
        refine .cons ⟨by rw [hfound]; rfl, hid⟩ (ih hids.2)
    refine ⟨hall.imp fun x p hp => ⟨hp.2, by rw [hp.1], by rw [hp.1]⟩, fun p hp => ?_, ?_⟩
    · obtain ⟨x, -, hx, -⟩ := forall₂_exists_left hall p hp
      rw [hx]
    · rw [hdocs, docRows]
      have hlen := hall.length_eq
      have hempty : y.1.isEmpty = (tokenFreqs C s).1.isEmpty := by
        rw [Bool.eq_iff_iff, List.isEmpty_iff_length_eq_zero, List.isEmpty_iff_length_eq_zero, hlen]
      rw [hempty]

/-- What the rows of several grains hold at the sequence number of one of them. -/
theorem flatMap_filter_seq {α β : Type} (f : α → List β) (key : β → ℤ)
    {R : GrainRow → α → Prop} {gs : List GrainRow} {ys : List α} (h : List.Forall₂ R gs ys)
    (hkey : ∀ g y, R g y → ∀ x ∈ f y, key x = g.seq) (hnodup : (gs.map GrainRow.seq).Nodup) :
    List.Forall₂ (fun g y => R g y ∧ (ys.flatMap f).filter (fun x => key x = g.seq) = f y)
      gs ys := by
  have hall : ∀ (gs₀ : List GrainRow) (ys₀ : List α), List.Forall₂ R gs₀ ys₀ → ∀ seq,
      seq ∉ gs₀.map GrainRow.seq → (ys₀.flatMap f).filter (fun x => key x = seq) = [] := by
    intro gs₀ ys₀ h₀ seq hseq
    refine List.filter_eq_nil_iff.2 fun x hx hxs => hseq ?_
    obtain ⟨y, hy, hxy⟩ := List.mem_flatMap.1 hx
    obtain ⟨g, hg, hR⟩ := forall₂_exists_left h₀ y hy
    have := hkey g y hR x hxy
    rw [← of_decide_eq_true hxs, this]
    exact List.mem_map_of_mem hg
  induction h with
  | nil => exact .nil
  | @cons g y gs ys hR hrest ih =>
    rw [List.map_cons, List.nodup_cons] at hnodup
    have hsame : (f y).filter (fun x => key x = g.seq) = f y :=
      List.filter_eq_self.2 fun x hx => decide_eq_true (hkey g y hR x hx)
    refine .cons ⟨hR, ?_⟩ ?_
    · rw [List.flatMap_cons, List.filter_append, hsame, hall gs ys hrest g.seq hnodup.1,
        List.append_nil]
    · have hother : ∀ g' ∈ gs, (f y).filter (fun x => key x = g'.seq) = [] := by
        intro g' hg'
        refine List.filter_eq_nil_iff.2 fun x hx hxs => hnodup.1 ?_
        rw [← hkey g y hR x hx, of_decide_eq_true hxs]
        exact List.mem_map_of_mem hg'
      have hih := ih hnodup.2
      refine List.forall₂_iff_get.2 ?_
      obtain ⟨hlen, hget⟩ := List.forall₂_iff_get.1 hih
      refine ⟨hlen, fun i h₁ h₂ => ⟨(hget i h₁ h₂).1, ?_⟩⟩
      rw [List.flatMap_cons, List.filter_append, hother _ (List.get_mem _ ⟨i, h₁⟩), List.nil_append]
      exact (hget i h₁ h₂).2

/-- **A rebuild on a warm vocabulary indexes every grain exactly.** -/
theorem rebuildTextBody_keeps {E : Embedder → Prop} {a b : DejaDB} {n : ℕ} {docs len next : ℤ}
    (htexts : TextOk C E a.db) (hgood : a.Good C) (hbelow : ∀ g ∈ a.db.grains, g.seq < next)
    (hwarm : a.db.Warm C) (htxn : rebuildTextBody C a = .ok (n, docs, len) b) :
    b.db.KeepsIndex C (fun _ => False) next (docs, len) := by
  obtain ⟨grains, rows, c, hgrains, hrows, hlooks, rfl, rfl, rfl⟩ := rebuildTextBody_ok htxn
  have hdb : c.db = a.db := by rw [hlooks.rest]
  have hmap := mapM_retext hgrains
  have hall := forall₂_of_mapM (R := Looks) (P := fun st => VocabOk st ∧ st.db = a.db)
    (Q := fun g y _ => ∃ st st', VocabOk st ∧ st.db = a.db ∧ rebuiltRows C g st = .ok y st')
    leads_rebuiltRows
    (fun _ _ hi hs => ⟨hi.vocabOk hs.1, by rw [hi.rest]; exact hs.2⟩) (fun _ _ _ _ _ hq => hq)
    (fun g y st st' hs hx => ⟨st, st', hs.1, hs.2, hx⟩) ⟨hgood.vocabOk, rfl⟩ hrows
  have hfacts : ∀ g ∈ grains, (∀ s, g.text = some s ↔ TextOf C g.blob s) ∧
      (g.text = none → wordsOf C g.blob = ([], 0)) ∧
      ∀ s, TextOf C g.blob s → ∀ token ∈ tokenize C s,
        ∃ id, (⟨id, token⟩ : TermRow) ∈ a.db.ftsVocab := by
    intro g hg
    rw [hmap] at hg
    obtain ⟨g₀, hg₀, rfl⟩ := List.mem_map.1 hg
    obtain ⟨o, ho, hspec⟩ := rebuildText_spec (hgood.decodes g₀ hg₀) (htexts.column g₀ hg₀)
    have htext : (rebuildText C g₀).toOption.getD none = o := by
      rw [ho]
      rfl
    refine ⟨fun s => ?_, fun hnone => ?_, hwarm g₀ hg₀⟩
    · rw [hspec s, ← htext]
    · obtain ⟨view, hview⟩ := hgood.decodes g₀ hg₀
      cases hs : projectedText C view with
      | none => exact wordsOf_of_no_text hview hs
      | some s =>
        have hsome := (hspec s).1 ⟨view, hview, hs⟩
        rw [← htext] at hsome
        exact absurd (hnone.symm.trans hsome) (by simp)
  have hrowsOf : List.Forall₂ (fun g (y : List PostRow × List DocRow) =>
      List.Forall₂ (a.db.Spells g.ns) (wordsOf C g.blob).1 y.1 ∧ (∀ x ∈ y.1, x.seq = g.seq) ∧
        y.2 = docRows g.seq (wordsOf C g.blob)) grains rows := by
    refine ((List.forall₂_and_left grains rows).2 ⟨hfacts, hall⟩).imp ?_
    rintro g y ⟨⟨hcol, hnone, htokens⟩, st, st', hok, hst, hrun⟩
    rw [← hst]
    rw [← hst] at htokens
    exact rebuiltRows_exact hok hcol hnone htokens hrun
  have hseqs : grains.map GrainRow.seq = a.db.grains.map GrainRow.seq := by
    rw [hmap, List.map_map]
    rfl
  have hnodup : (grains.map GrainRow.seq).Nodup := by
    rw [hseqs]
    exact hgood.rowsOk.seqs
  have hposts := flatMap_filter_seq Prod.fst PostRow.seq hrowsOf
    (fun g y hy => hy.2.1) hnodup
  have hdocs := flatMap_filter_seq Prod.snd DocRow.seq hposts
    (fun g y hy d hd => by
      rw [hy.1.2.2] at hd
      unfold docRows at hd
      split_ifs at hd
      · cases hd
      · rw [List.mem_singleton.1 hd]) hnodup
  constructor
  · intro g hg
    obtain ⟨y, -, ⟨⟨hspells, -, hdoc⟩, hp⟩, hd⟩ := forall₂_exists_right hdocs g hg
    refine .inl ⟨?_, hd.trans hdoc⟩
    show List.Forall₂ _ _ ((rows.flatMap Prod.fst).filter fun x => x.seq = g.seq)
    rw [hp]
    refine hspells.imp fun x p hxp => ⟨?_, hxp.2⟩
    show _ ∈ c.db.ftsVocab
    rw [hdb]
    exact hxp.1
  · intro g hg
    have hmem : g.seq ∈ grains.map GrainRow.seq := List.mem_map_of_mem hg
    rw [hseqs] at hmem
    obtain ⟨g₀, hg₀, hseq⟩ := List.mem_map.1 hmem
    rw [← hseq]
    exact hbelow g₀ hg₀
  · rfl

/-! ## Along a run -/

/-- An event that leaves the index inline. -/
def Event.Inline : Event → Prop
  | .defer | .reopen _ => False
  | _ => True

/-- **Every commit keeps the index**, an import of a grain at a number of `S`. -/
theorem Commit.keeps {n : ℤ} {ev : Event} {a b : DejaDB} (h : Commit C ev a b)
    (hgood : a.Good C) (hI : a.Keeps C S n) (hinline : ev.Inline)
    (hwarm : ev = .rebuildText → a.db.Warm C)
    (himport : ∀ op pr, ev = .insertBlob op pr → S a.nextSeq) : b.Keeps C S n := by
  have htexts := h.textsOk hgood.vocabOk (E := fun _ => True)
    (by cases ev <;> first | trivial | exact fun _ _ => trivial) hI.texts
  have hprep : ∀ pr ∈ ev.preps, TextPrep C (fun _ => True) a.db pr ∧ WordsPrep C a.db pr := by
    intro pr hpr
    obtain ⟨view, hv⟩ := h.prepared pr hpr
    exact ⟨hv.textPrep hI.texts.embedder, hv.wordsPrep hI.on hI.inline⟩
  have hfloor := hI.floor
  cases h with
  | insert prepared txn =>
    exact ⟨htexts, hI.on, hI.inline, by show n ≤ a.nextSeq + _; omega,
      hI.index.insertPrepped hI.texts.texts hprep txn⟩
  | @supersede _ old pr row _ now _ _ _ _ written prepared found txn =>
    refine ⟨htexts, hI.on, hI.inline, by show n ≤ a.nextSeq + _; omega, ?_⟩
    obtain ⟨-, t₁, hins, rfl⟩ := Tables.supersedeTxn_ok found txn
    refine (hI.index.insertPreppedOne hI.texts.texts (hprep _ (List.mem_singleton_self _))
      hins).congr ?_
    refine ((Tables.retireTip_frame (t₁.flipped row.seq old pr.hash now) row.key
      row.seq).textView).trans ?_
    show (((t₁.markSuperseded row.seq pr.hash now).markSupersedes pr.hash old).clearCur
      row.seq).textView = _
    rw [Tables.textView_clearCur, Tables.textView_markSupersedes, Tables.textView_markSuperseded]
  | merge written prepared tips txn =>
    refine ⟨htexts, hI.on, hI.inline, by show n ≤ a.nextSeq + _; omega, ?_⟩
    obtain ⟨t₁, hins, rfl⟩ := Tables.mergeTxn_ok txn
    exact (hI.index.insertPreppedOne hI.texts.texts (hprep _ (List.mem_singleton_self _))
      hins).congr (Tables.textView_closeTips _ _ _)
  | @forget _ hash row t len tick found txn =>
    have hnext : a.nextSeq + 0 = a.nextSeq := add_zero _
    obtain ⟨hlen, ht⟩ := Tables.forgetTxn_ok found txn
    have hview : t.textView = (a.db.deleteSeq row.seq).textView := by
      rw [ht]
      exact (Tables.retireTip_frame _ row.key row.seq).textView
    have hindex := (hI.index.deleteSeq row.seq).congr hview
    rw [hI.index.rowed.docsAt_of_find (List.mem_of_find?_eq_some found)] at hindex
    refine ⟨htexts, ?_, ?_, ?_, ?_⟩
    · cases len <;> exact hI.on
    · cases len <;> exact hI.inline
    · cases len <;> exact hfloor.trans_eq hnext.symm
    · cases hfind : a.db.ftsDoc.find? fun d => d.seq = row.seq with
      | none =>
        rw [hfind] at hlen hindex
        subst hlen
        show t.KeepsIndex C S (a.nextSeq + 0) (a.ftsDocs, a.ftsTotalLen)
        rw [hnext]
        exact ⟨hindex.rowed, hindex.below, hindex.stats.trans (sub_zero _)⟩
      | some d =>
        rw [hfind] at hlen hindex
        subst hlen
        show t.KeepsIndex C S (a.nextSeq + 0) ((a.dropped 1 d.len).ftsDocs,
          (a.dropped 1 d.len).ftsTotalLen)
        rw [hnext]
        refine ⟨hindex.rowed, hindex.below, dropped_stats ?_ htexts.texts.len_nonneg⟩
        rw [hindex.stats]
        simp [docStats]
  | @erase _ seqs ids out t tick txn =>
    have hnext : a.nextSeq + 0 = a.nextSeq := add_zero _
    obtain ⟨-, -, -, -, -, -, hdocs, hlen⟩ := Tables.eraseTxn_ok txn
    have hindex := hI.index.eraseTxn txn
    refine ⟨htexts, hI.on, hI.inline, hfloor.trans_eq hnext.symm, ?_⟩
    show t.KeepsIndex C S (a.nextSeq + 0) ((a.dropped out.docs out.lenSum).ftsDocs,
      (a.dropped out.docs out.lenSum).ftsTotalLen)
    rw [hnext]
    exact ⟨hindex.rowed, hindex.below, dropped_stats hindex.stats htexts.texts.len_nonneg⟩
  | @scrub _ ids gone t txn =>
    have hview : t.textView = a.db.textView := by
      rw [(Tables.scrubTerms_ok txn).file]
      rfl
    have hindex := hI.index.congr hview
    refine ⟨htexts, hI.on, hI.inline, hfloor, hindex.rowed, hindex.below, ?_⟩
    exact dropped_stats (a := a) (hindex.stats.trans (sub_zero _).symm) htexts.texts.len_nonneg
  | insertBlob prepared txn =>
    exact ⟨htexts, hI.on, hI.inline, by show n ≤ a.nextSeq + _; omega,
      hI.index.insertBlobTxn hI.texts.texts (himport _ _ rfl) txn⟩
  | flip =>
    exact ⟨htexts, hI.on, hI.inline, hfloor, hI.index.congr (Tables.textView_flipTxn _ _ _)⟩
  | log txn =>
    refine ⟨htexts, hI.on, hI.inline, by show n ≤ a.nextSeq + _; omega, ?_⟩
    obtain ⟨rfl, -⟩ := Tables.insertOp_ok txn
    show Tables.KeepsIndex C S (a.nextSeq + 0) _ _
    rw [add_zero]
    exact hI.index.congr rfl
  | @rebuildText _ b _ docs len on inline txn =>
    have hindex := rebuildTextBody_keeps hI.texts.texts hgood hI.index.below (hwarm rfl) txn
    obtain ⟨grains, rows, c, -, -, hlooks, hb, -, -⟩ := rebuildTextBody_ok txn
    have hnext : b.nextSeq = a.nextSeq := by
      rw [hb, hlooks.rest]
    refine ⟨htexts, ?_, ?_, ?_, ?_⟩
    · show b.indexText = true
      rw [hb, hlooks.rest]
      exact hI.on
    · show b.ftsDeferred = false
      rw [hb, hlooks.rest]
      exact hI.inline
    · show n ≤ b.nextSeq
      rw [hnext]
      exact hfloor
    · show b.db.KeepsIndex C S b.nextSeq (docs, len)
      rw [hnext]
      exact ⟨hindex.rowed.mono fun _ _ hfalse => hfalse.elim, hindex.below, hindex.stats⟩
  | undefer => exact ⟨htexts, hI.on, rfl, hfloor, hI.index⟩
  | setEmbedder => exact ⟨htexts, hI.on, hI.inline, hfloor, hI.index⟩
  | defer | reopen => exact hinline.elim

/-- The operations that keep the index inline: all but a deferral and a reopen. -/
def Op.Inline : Op G → Prop
  | .deferTextIndex | .reopen .. => False
  | _ => True

/-- The sequence numbers of the grains that imports brought since the last rebuild. -/
def importedSince (C : Core G) : DejaDB → List (Op G) → List ℤ → List ℤ
  | _, [], seqs => seqs
  | st, op :: ops, seqs => importedSince C (st.step C op) ops <|
    match op with
    | .importBundle .. => seqs ++ ((st.step C op).db.grains.map GrainRow.seq).filter fun s =>
        s ∉ st.db.grains.map GrainRow.seq
    | .rebuildTextIndex => []
    | _ => seqs

theorem Op.meets_inline {op : Op G} (h : op.Inline) (st : DejaDB) :
    op.Meets C (fun ev _ => ev.Inline) st := by
  have happend : ∀ x ∈ op.commits C st, op.Appends → x.1.Inline := by
    intro x hx hop
    have hev : x.1.Appends := hop.meets st x hx
    revert hev
    cases x.1 <;> first | exact fun _ => trivial | exact fun hev => hev.elim
  intro x hx
  cases op with
  | add | addBatch | addIfNovel | supersede | mergeHeads =>
    exact happend x hx trivial
  | importBundle data maxHlc =>
    have hev := Op.commits_issued x hx
    revert hev
    cases x.1 <;> first | exact fun _ => trivial | exact fun hev => hev.elim
  | forget | setEmbedder =>
    rw [List.mem_singleton.1 hx]
    trivial
  | rebuildTextIndex =>
    simp only [Op.commits, rebuildCommits] at hx
    split_ifs at hx
    · simp only [List.mem_cons, List.not_mem_nil, or_false] at hx
      rcases hx with rfl | rfl <;> trivial
    · cases hx
  | forgetSubject | forgetOlderThan =>
    rcases Op.bulk_commits hx trivial with hev | ⟨seqs, hev⟩ <;>
    · rw [hev]
      trivial
  | deferTextIndex | reopen => exact h.elim

/-- Only an import replays a grain. -/
theorem Op.insertBlob_imports {op : Op G} {st : DejaDB} {x : Attempt} (hx : x ∈ op.commits C st)
    {kind : OpKind} {pr : GrainPrep} (hev : x.1 = .insertBlob kind pr) :
    ∃ data maxHlc, op = .importBundle data maxHlc := by
  have h := Op.commits_issued x hx
  rw [hev] at h
  cases op with
  | importBundle data maxHlc => exact ⟨data, maxHlc, rfl⟩
  | setEmbedder => cases h
  | add | addBatch | addIfNovel | supersede | mergeHeads | forget | forgetSubject
  | forgetOlderThan | deferTextIndex | rebuildTextIndex | reopen => exact h.elim

theorem DejaDB.Keeps.mono {n m : ℤ} {S' : ℤ → Prop} {st : DejaDB} (h : st.Keeps C S n)
    (hS : ∀ s, S s → S' s) (hm : m ≤ st.nextSeq) : st.Keeps C S' m where
  texts := h.texts
  on := h.on
  inline := h.inline
  floor := hm
  index := ⟨h.index.rowed.mono fun _ _ hg => hS _ hg, h.index.below, h.index.stats⟩

/-- **An operation keeps the index**, an import up to the grains it brings. -/
theorem DejaDB.Keeps.step {n : ℤ} {st : DejaDB} (h : st.Keeps C S n) (hgood : st.Good C)
    {op : Op G} (hop : op.Inline)
    (himport : (∃ data maxHlc, op = .importBundle data maxHlc) → ∀ s, n ≤ s → S s) :
    (st.step C op).Good C ∧ (st.step C op).Keeps C S n := by
  have hmeets : op.Meets C (fun ev a => ev.Inline ∧ (ev = .rebuildText → a.db.Warm C) ∧
      ∀ kind pr, ev = .insertBlob kind pr → ∀ s, n ≤ s → S s) st := fun x hx =>
    ⟨op.meets_inline hop st x hx, op.meets_warm hgood h.texts.texts x hx,
      fun kind pr hev => himport (Op.insertBlob_imports hx hev)⟩
  exact (op.path hgood.toSound hmeets).keeps_good (I := fun st => st.Keeps C S n)
    (fun _ _ _ hidle hI => hidle.keeps hI)
    (fun ev a b hgood hΓ hcommit hI => hcommit.keeps hgood hI hΓ.1 hΓ.2.1
      fun kind pr hev => hΓ.2.2 kind pr hev _ hI.floor) hgood h

/-- A word of a blob is a token of its text. -/
theorem mem_wordsOf {blob : Bytes} {x : String × ℤ} (h : x ∈ (wordsOf C blob).1) :
    ∃ s, TextOf C blob s ∧ x.1 ∈ tokenize C s := by
  unfold wordsOf at h
  cases hview : C.deserializeBlob blob with
  | error e =>
    rw [hview] at h
    cases h
  | ok view =>
    rw [hview] at h
    cases hs : projectedText C view with
    | none =>
      simp only [Except.toOption, Option.bind_some, hs] at h
      cases h
    | some s =>
      simp only [Except.toOption, Option.bind_some, hs] at h
      exact ⟨s, ⟨view, hview, hs⟩, mem_tokenFreqs.2 ⟨x, h, rfl⟩⟩

/-- An index that covers the texts leaves no grain without its rows. -/
theorem Tables.Rowed.of_covers (h : t.Rowed C S) (hcovers : t.Covers C) :
    t.Rowed C fun _ => False := by
  intro g hg
  refine .inl ?_
  rcases h g hg with hexact | ⟨-, hbare⟩
  · exact hexact
  · have hnone : (wordsOf C g.blob).1 = [] := by
      by_contra hne
      obtain ⟨x, hx⟩ := List.exists_mem_of_ne_nil _ hne
      obtain ⟨s, hs, htoken⟩ := mem_wordsOf hx
      obtain ⟨⟨p, hp, hseq, -⟩, -⟩ := hcovers g hg s hs x.1 htoken
      have hmem : p ∈ t.postsAt g.seq := List.mem_filter.2 ⟨hp, decide_eq_true hseq⟩
      rw [hbare.posts] at hmem
      cases hmem
    constructor
    · rw [hnone, hbare.posts]
      exact .nil
    · rw [hbare.docs, docRows, hnone]
      rfl

/-- **After a rebuild every grain is indexed exactly.** -/
theorem DejaDB.Keeps.rebuilt {n : ℤ} {st : DejaDB} (h : st.Keeps C S n) (hgood : st.Good C) :
    (st.step C .rebuildTextIndex).Keeps C (fun _ => False) n := by
  have hop : (Op.rebuildTextIndex : Op G).Inline := trivial
  obtain ⟨-, hkeeps⟩ := h.step hgood hop (by
    rintro ⟨data, maxHlc, heq⟩
    cases heq)
  obtain ⟨k, st', hrun, hcovers, -⟩ := rebuildTextIndex_covers hgood h.texts.texts h.on
  have hstep : st.step C .rebuildTextIndex = st' := after_of_ok (bind_eq_ok.2 ⟨k, st', hrun, rfl⟩)
  rw [hstep] at hkeeps ⊢
  exact ⟨hkeeps.texts, hkeeps.on, hkeeps.inline, hkeeps.floor, hkeeps.index.rowed.of_covers hcovers,
    hkeeps.index.below, hkeeps.index.stats⟩

/-- **An import leaves no rows at most for the grains it brings.** -/
theorem DejaDB.Keeps.imported {n : ℤ} {st : DejaDB} {seqs : List ℤ} {data : Bytes}
    {maxHlc : Option ℤ} (h : st.Keeps C (· ∈ seqs) n) (hgood : st.Good C) :
    (st.step C (.importBundle data maxHlc)).Keeps C
      (· ∈ seqs ++ ((st.step C (.importBundle data maxHlc)).db.grains.map GrainRow.seq).filter
        fun s => s ∉ st.db.grains.map GrainRow.seq) n := by
  have hop : (Op.importBundle data maxHlc : Op G).Inline := trivial
  have hwide : st.Keeps C (fun s => s ∈ seqs ∨ st.nextSeq ≤ s) st.nextSeq :=
    h.mono (fun s hs => .inl hs) le_rfl
  obtain ⟨-, hkeeps⟩ := hwide.step hgood hop fun _ s hs => .inr hs
  refine ⟨hkeeps.texts, hkeeps.on, hkeeps.inline, h.floor.trans hkeeps.floor, ?_,
    hkeeps.index.below, hkeeps.index.stats⟩
  refine hkeeps.index.rowed.mono fun g hg hs => ?_
  rcases hs with hs | hs
  · exact List.mem_append_left _ hs
  · refine List.mem_append_right _ (List.mem_filter.2 ⟨List.mem_map_of_mem hg, ?_⟩)
    rw [decide_eq_true_eq]
    intro hold
    obtain ⟨g₀, hg₀, hseq⟩ := List.mem_map.1 hold
    have := h.index.below g₀ hg₀
    omega

theorem DejaDB.Keeps.steps {n : ℤ} {st : DejaDB} {seqs : List ℤ} {ops : List (Op G)}
    (h : st.Keeps C (· ∈ seqs) n) (hgood : st.Good C) (hops : ∀ op ∈ ops, op.Inline) :
    (st.steps C ops).Keeps C (· ∈ importedSince C st ops seqs) n := by
  induction ops generalizing st seqs with
  | nil => exact h
  | cons op ops ih =>
    rw [List.forall_mem_cons] at hops
    have hgood' : (st.step C op).Good C :=
      (h.mono (fun _ _ => trivial) h.floor |>.step (S := fun _ => True) hgood hops.1
        fun _ _ _ => trivial).1
    refine ih ?_ hgood' hops.2
    cases op with
    | importBundle data maxHlc => exact h.imported hgood
    | rebuildTextIndex => exact (h.rebuilt hgood).mono (fun _ hs => hs.elim) (h.rebuilt hgood).floor
    | add | addBatch | addIfNovel | supersede | mergeHeads | forget | forgetSubject
    | forgetOlderThan | setEmbedder | deferTextIndex | reopen =>
      refine (h.step hgood hops.1 ?_).2
      rintro ⟨data, maxHlc, heq⟩
      cases heq

/-! ## Every state of a run -/

/-- The index of a handle: the rows of every grain are those of its text, except
that a grain at `seqs` may have none; every row is of a stored grain; the counters
are `COUNT` and `SUM(len)` of the document rows. -/
structure DejaDB.Coherent (C : Core G) (seqs : List ℤ) (st : DejaDB) : Prop where
  rows : ∀ g ∈ st.db.grains, st.db.Exact C g ∨ g.seq ∈ seqs ∧ st.db.Bare g
  posts : ∀ x ∈ st.db.ftsPost, ∃ g ∈ st.db.grains, g.seq = x.seq
  docs : ∀ d ∈ st.db.ftsDoc, ∃ g ∈ st.db.grains, g.seq = d.seq
  stats : (st.ftsDocs, st.ftsTotalLen) = docStats st.db.ftsDoc

/-- **The text index is coherent in every state of a run**, the grains aside that
imports brought since the last rebuild: they may have no rows yet. -/
theorem run_coherent (C : Core G) (explicit : Option DejaDbOptions) (clock : ℕ → ℤ)
    (ops : List (Op G)) (hon : (createStore C explicit clock).indexText = true)
    (hops : ∀ op ∈ ops, op.Inline) :
    ((createStore C explicit clock).steps C ops).Coherent C
      (importedSince C (createStore C explicit clock) ops []) := by
  have hinit : (createStore C explicit clock).Keeps C (· ∈ ([] : List ℤ))
      (createStore C explicit clock).nextSeq := by
    refine ⟨createStore_textsOk C _ explicit clock, hon, ?_, le_rfl, ?_⟩ <;> rw [createStore_eq]
    · rfl
    · exact ⟨List.forall_mem_nil _, List.forall_mem_nil _, rfl⟩
  have hkeeps := hinit.steps (createStore_good C explicit clock) hops
  refine ⟨hkeeps.index.rowed, fun x hx => ?_, fun d hd => ?_, hkeeps.index.stats.symm⟩
  · obtain ⟨g, hg, hseq, -⟩ := hkeeps.texts.texts.post x hx
    exact ⟨g, hg, hseq⟩
  · obtain ⟨g, hg, hseq, -⟩ := hkeeps.texts.texts.doc d hd
    exact ⟨g, hg, hseq⟩

/-- A grain that was added and one that was imported. -/
def mixedOps : List (Op SampleBody) :=
  [.add (sampleFact 1 5 1 2 3),
    .importBundle ((sampleStore.step sampleCore (.add (sampleFact 2 5 1 2 4))).bundleSince 0) none]

theorem mixedOps_inline : ∀ op ∈ mixedOps, op.Inline := by
  intro op hop
  simp only [mixedOps, List.mem_cons, List.not_mem_nil, or_false] at hop
  rcases hop with rfl | rfl <;> trivial

theorem run_coherent_mixed : (sampleStore.steps sampleCore mixedOps).Coherent sampleCore
    (importedSince sampleCore sampleStore mixedOps []) :=
  run_coherent sampleCore none (fun _ => 9) mixedOps rfl mixedOps_inline

/-- **An imported grain has no rows**, though its text has tokens. -/
theorem import_leaves_unindexed : sampleStore.indexText = true ∧ (∀ op ∈ mixedOps, op.Inline) ∧
    ¬∀ g ∈ (sampleStore.steps sampleCore mixedOps).db.grains,
      (sampleStore.steps sampleCore mixedOps).db.Exact sampleCore g := by
  have hfew : ¬∀ g ∈ (sampleStore.steps sampleCore mixedOps).db.grains,
      (wordsOf sampleCore g.blob).1.length =
        ((sampleStore.steps sampleCore mixedOps).db.postsAt g.seq).length := by decide +kernel
  exact ⟨rfl, mixedOps_inline, fun hexact => hfew fun g hg => (hexact g hg).posts.length_eq⟩

end Deja
