import Deja.Spec.Appends
import Deja.Spec.Issued
import Deja.Spec.Texts

/-!
# An indexed grain is indexed whole

A grain with a document row has a posting for every token of its text:
`DocsPosted`.  Idle moves and commits keep it, so a reachable file has no half
indexed grain; what it may have is a grain without a document row.
-/

namespace Deja

open Run

variable {G : Type} {C : Core G} {E : Embedder → Prop}

/-! ## The invariant -/

/-- The grain has a posting for the token. -/
def Tables.Posts (t : Tables) (g : GrainRow) (token : String) : Prop :=
  ∃ x ∈ t.ftsPost, x.seq = g.seq ∧ x.ns = g.ns ∧ ⟨x.term, token⟩ ∈ t.ftsVocab

/-- The grain has a document row. -/
def Tables.Indexes (t : Tables) (g : GrainRow) : Prop := ∃ d ∈ t.ftsDoc, d.seq = g.seq

/-- A grain with a document row has a posting for every token of its text. -/
def Tables.DocsPosted (C : Core G) (t : Tables) : Prop :=
  ∀ g ∈ t.grains, t.Indexes g → ∀ s, TextOf C g.blob s → ∀ token ∈ tokenize C s, t.Posts g token

theorem TextOf.unique {blob : Bytes} {s s' : String} (h : TextOf C blob s)
    (h' : TextOf C blob s') : s = s' := by
  obtain ⟨view, hview, hs⟩ := h
  obtain ⟨view', hview', hs'⟩ := h'
  rw [hview] at hview'
  cases hview'
  rw [hs] at hs'
  exact Option.some.inj hs'

theorem mem_tokenFreqs {s token : String} :
    token ∈ tokenize C s ↔ ∃ x ∈ (tokenFreqs C s).1, x.1 = token := by
  simp [tokenFreqs]

/-- A prepared grain is indexed under all its tokens or under none. -/
def TokensPrep (C : Core G) (t : Tables) (pr : GrainPrep) : Prop :=
  pr.tokens ≠ [] → ∀ s, TextOf C pr.blob s → ∀ token ∈ tokenize C s,
    ∃ y ∈ pr.tokens, ⟨y.1, token⟩ ∈ t.ftsVocab

theorem Prepared.tokensPrep {a : DejaDB} {view : DeserializedGrain} {pr : GrainPrep}
    (h : Prepared C a view pr) : TokensPrep C a.db pr := by
  intro hne s hs token htoken
  have htokens := h.tokens
  unfold DejaDB.EncodesText at htokens
  split at htokens
  · rename_i s' hs' _
    have hproj : TextOf C pr.blob s' := by
      rw [h.text, DejaDB.storedText] at hs'
      split_ifs at hs'
      exact ⟨view, h.decodes, hs'⟩
    obtain rfl := hs.unique hproj
    obtain ⟨x, hx, rfl⟩ := mem_tokenFreqs.1 htoken
    obtain ⟨y, hy, hrow, -⟩ := forall₂_exists_right htokens.1 x hx
    exact ⟨y, hy, hrow⟩
  · exact absurd htokens.1 hne

/-! ## Moves -/

variable {t t' : Tables}

/-- A move that makes no document row, keeps the postings of the grains that
stay, and keeps every token a posting names. -/
theorem Tables.DocsPosted.frame (h : t.DocsPosted C)
    (hgrains : ∀ g' ∈ t'.grains, ∃ g ∈ t.grains, g.seq = g'.seq ∧ g.ns = g'.ns ∧ g.blob = g'.blob)
    (hdoc : ∀ d ∈ t'.ftsDoc, d ∈ t.ftsDoc)
    (hpost : ∀ x ∈ t.ftsPost, (∃ g' ∈ t'.grains, g'.seq = x.seq) → x ∈ t'.ftsPost)
    (hvocab : ∀ r ∈ t.ftsVocab, (∃ x ∈ t'.ftsPost, x.term = r.id) → r ∈ t'.ftsVocab) :
    t'.DocsPosted C := by
  intro g' hg' ⟨d, hd, hds⟩ s hs token htoken
  obtain ⟨g, hg, hseq, hns, hblob⟩ := hgrains g' hg'
  rw [← hblob] at hs
  obtain ⟨x, hx, hxs, hxn, hrow⟩ :=
    h g hg ⟨d, hdoc d hd, by rw [hds, hseq]⟩ s hs token htoken
  have hx' := hpost x hx ⟨g', hg', by rw [hxs, hseq]⟩
  exact ⟨x, hx', by rw [hxs, hseq], by rw [hxn, hns], hvocab _ hrow ⟨x, hx', rfl⟩⟩

/-- The columns the text index is read with. -/
def Tables.textView (t : Tables) :
    List (ℤ × ℤ × Bytes) × List PostRow × List DocRow × List TermRow :=
  (t.grains.map fun g => (g.seq, g.ns, g.blob), t.ftsPost, t.ftsDoc, t.ftsVocab)

theorem Tables.DocsPosted.congr (h : t.DocsPosted C) (hview : t'.textView = t.textView) :
    t'.DocsPosted C := by
  simp only [textView, Prod.mk.injEq] at hview
  obtain ⟨hgrains, hpost, hdoc, hvocab⟩ := hview
  refine h.frame (fun g' hg' => ?_) ?_ ?_ ?_
  · have hmem := List.mem_map_of_mem (f := fun g : GrainRow => (g.seq, g.ns, g.blob)) hg'
    rw [hgrains] at hmem
    obtain ⟨g, hg, heq⟩ := List.mem_map.1 hmem
    simp only [Prod.mk.injEq] at heq
    exact ⟨g, hg, heq⟩
  · rw [hdoc]
    exact fun d hd => hd
  · rw [hpost]
    exact fun x hx _ => hx
  · rw [hvocab]
    exact fun r hr _ => hr

namespace Tables

theorem textView_alter {f : GrainRow → GrainRow}
    (hf : ∀ g, (f g).seq = g.seq ∧ (f g).ns = g.ns ∧ (f g).blob = g.blob) :
    ({ t with grains := t.grains.map f } : Tables).textView = t.textView := by
  simp only [textView, List.map_map]
  congr 1
  refine List.map_congr_left fun g _ => ?_
  obtain ⟨hseq, hns, hblob⟩ := hf g
  simp only [Function.comp_apply, hseq, hns, hblob]

theorem SameButHeads.textView (h : t.SameButHeads t') : t'.textView = t.textView := by
  unfold Tables.textView
  rw [h.grains, h.ftsPost, h.ftsDoc, h.ftsVocab]

theorem textView_markSuperseded (seq : ℤ) (by_ : Hash) (now : ℤ) :
    (t.markSuperseded seq by_ now).textView = t.textView :=
  textView_alter fun g => by split_ifs <;> exact ⟨rfl, rfl, rfl⟩

theorem textView_markSupersedes (new old : Hash) :
    (t.markSupersedes new old).textView = t.textView :=
  textView_alter fun g => by split_ifs <;> exact ⟨rfl, rfl, rfl⟩

theorem textView_clearCur (seq : ℤ) : (t.clearCur seq).textView = t.textView := rfl

theorem textView_closeTip (tip merge : Hash) (now : ℤ) :
    (t.closeTip tip merge now).textView = t.textView := by
  unfold closeTip
  cases t.grainByHash tip with
  | none => rfl
  | some g =>
    simp only
    split_ifs
    · rw [textView_clearCur, textView_markSuperseded]
    · rfl

theorem textView_closeTips (tips : List Hash) (merge : Hash) (now : ℤ) :
    (tips.foldl (fun t tip => t.closeTip tip merge now) t).textView = t.textView := by
  induction tips generalizing t with
  | nil => rfl
  | cons tip tips ih => rw [List.foldl_cons, ih, textView_closeTip]

theorem textView_flipTxn (old new : Hash) (now : ℤ) :
    (t.flipTxn old new now).2.textView = t.textView := by
  unfold flipTxn
  cases t.grainByHash old with
  | none => rfl
  | some row =>
    simp only
    split_ifs
    · rfl
    · exact (registerFork_frame t new).textView
    · have hflip : (((t.markSuperseded row.seq new now).markSupersedes new old).clearCur
          row.seq).textView = t.textView := by
        rw [textView_clearCur, textView_markSupersedes, textView_markSuperseded]
      unfold flipLinear
      cases row.key with
      | none => exact hflip
      | some k => exact (deleteHead_frame _ k row.seq).textView.trans hflip

end Tables

/-! ## Transactions -/

/-- A new grain, with the postings of all its tokens if it gets a document row. -/
theorem Tables.DocsPosted.insert {pr : GrainPrep} {seq : ℤ} (h : t.DocsPosted C)
    (htext : TextOk C E t) (hpr : TokensPrep C t pr) (hins : t.Inserts pr seq t')
    (hold : ∀ x ∈ t.ftsPost, x ∈ t'.ftsPost)
    (hdoc : ∀ d ∈ t'.ftsDoc, d ∈ t.ftsDoc ∨ d.seq = seq ∧ pr.tokens ≠ [] ∧
      ∀ x ∈ pr.postRows seq, x ∈ t'.ftsPost) : t'.DocsPosted C := by
  intro g hg ⟨d, hd, hds⟩ s hs token htoken
  rw [hins.grains] at hg
  rcases List.mem_append.1 hg with hg | hg
  · have hd' : d ∈ t.ftsDoc :=
      (hdoc d hd).resolve_right fun hnew => hins.freshSeq g hg (by rw [← hds, hnew.1])
    obtain ⟨x, hx, hxs, hxn, hrow⟩ := h g hg ⟨d, hd', hds⟩ s hs token htoken
    exact ⟨x, hold x hx, hxs, hxn, by rw [hins.ftsVocab]; exact hrow⟩
  · obtain rfl := List.mem_singleton.1 hg
    rcases hdoc d hd with hd' | ⟨-, hne, hnew⟩
    · obtain ⟨g₀, hg₀, hseq, -⟩ := htext.doc d hd'
      exact absurd (hseq.trans hds) (hins.freshSeq g₀ hg₀)
    · obtain ⟨y, hy, hrow⟩ := hpr hne s hs token htoken
      refine ⟨_, hnew _ (List.mem_map_of_mem hy), rfl, rfl, ?_⟩
      rw [hins.ftsVocab]
      exact hrow

theorem Tables.DocsPosted.insertPreppedOne {pr : GrainPrep} {seq op hlc : ℤ}
    (h : t.DocsPosted C) (htext : TextOk C E t) (hpr : TokensPrep C t pr)
    (htxn : t.insertPreppedOne pr seq op hlc = .ok t') : t'.DocsPosted C := by
  obtain ⟨hins, -, -, hpost, hdoc, -, -⟩ := Tables.insertPreppedOne_ok htxn
  refine h.insert htext hpr hins (fun x hx => ?_) fun d hd => ?_
  · rw [hpost, Tables.insertPostings]
    split_ifs
    · exact hx
    · exact List.mem_append_left _ hx
  · rw [hdoc, Tables.insertPostings] at hd
    rw [hpost, Tables.insertPostings]
    split_ifs at hd ⊢ with hempty
    · exact .inl hd
    · rcases List.mem_append.1 hd with hd | hd
      · exact .inl (List.mem_of_mem_filter hd)
      · rw [List.mem_singleton.1 hd]
        exact .inr ⟨rfl, fun hnil => hempty (by rw [hnil]; rfl),
          fun x hx => List.mem_append_right _ hx⟩

theorem Tables.DocsPosted.insertPrepped {preps : List GrainPrep} {seq op hlc : ℤ}
    (h : t.DocsPosted C) (htext : TextOk C E t)
    (hpreps : ∀ pr ∈ preps, TextPrep C E t pr ∧ TokensPrep C t pr)
    (htxn : t.insertPrepped preps seq op hlc = .ok t') : t'.DocsPosted C := by
  induction preps generalizing t seq op hlc with
  | nil =>
    cases htxn
    exact h
  | cons pr preps ih =>
    obtain ⟨t₁, hone, hrest⟩ := except_bind_ok htxn
    rw [List.forall_mem_cons] at hpreps
    have hvocab := (Tables.insertPreppedOne_ok hone).1.ftsVocab
    refine ih (h.insertPreppedOne htext hpreps.1.2 hone)
      (htext.insertPreppedOne hpreps.1.1 hone) (fun x hx => ⟨(hpreps.2 x hx).1.congr hvocab, ?_⟩)
      hrest
    unfold TokensPrep
    rw [hvocab]
    exact (hpreps.2 x hx).2

theorem Tables.DocsPosted.deleteSeq (h : t.DocsPosted C) (seq : ℤ) :
    (t.deleteSeq seq).DocsPosted C := by
  refine h.frame (fun g hg => ⟨g, List.mem_of_mem_filter hg, rfl, rfl, rfl⟩)
    (fun d hd => List.mem_of_mem_filter hd) (fun x hx ⟨g, hg, hgx⟩ => ?_) fun r hr _ => hr
  have hne : g.seq ≠ seq := by simpa using (List.mem_filter.1 hg).2
  exact List.mem_filter.2 ⟨hx, by simpa [← hgx] using hne⟩

theorem Tables.DocsPosted.eraseTxn {seqs ids : List ℤ} {op hlc : ℤ} {out : EraseOut}
    (h : t.DocsPosted C) (htxn : t.eraseTxn seqs ids op hlc = .ok (out, t')) :
    t'.DocsPosted C := by
  obtain ⟨dead, hgrains, hpost, hdoc, -, hvocab⟩ := Tables.eraseTxn_texts htxn
  refine h.frame (fun g hg => ?_) (fun d hd => ?_) (fun x hx ⟨g, hg, hgx⟩ => ?_) hvocab
  · rw [hgrains] at hg
    exact ⟨g, List.mem_of_mem_filter hg, rfl, rfl, rfl⟩
  · rw [hdoc] at hd
    exact List.mem_of_mem_filter hd
  · rw [hgrains] at hg
    rw [hpost]
    refine List.mem_filter.2 ⟨hx, ?_⟩
    rw [← hgx]
    exact (List.mem_filter.1 hg).2

/-! ## The text rebuild -/

/-- Every token of every text is in the vocabulary. -/
def Tables.Warm (C : Core G) (t : Tables) : Prop :=
  ∀ g ∈ t.grains, ∀ s, TextOf C g.blob s → ∀ token ∈ tokenize C s,
    ∃ id, (⟨id, token⟩ : TermRow) ∈ t.ftsVocab

/-- Every grain is indexed under every token of its text. -/
def Tables.Covers (C : Core G) (t : Tables) : Prop :=
  ∀ g ∈ t.grains, ∀ s, TextOf C g.blob s → ∀ token ∈ tokenize C s,
    t.Posts g token ∧ t.Indexes g

theorem Tables.Covers.docsPosted (h : t.Covers C) : t.DocsPosted C :=
  fun g hg _ s hs token htoken => (h g hg s hs token htoken).1

/-- A rebuild reads the text of the blob, whether it is stored or projected. -/
theorem rebuildText_spec {g : GrainRow} (hdec : ∃ view, C.deserializeBlob g.blob = .ok view)
    (hcol : ∀ s, g.text = some s → TextOf C g.blob s) :
    ∃ o, rebuildText C g = .ok o ∧ ∀ s, TextOf C g.blob s ↔ o = some s := by
  unfold rebuildText
  cases htext : g.text with
  | some s =>
    refine ⟨some s, rfl, fun s' => ⟨fun hs' => ?_, fun h => ?_⟩⟩
    · rw [(hcol s htext).unique hs']
    · cases h
      exact hcol s htext
  | none =>
    obtain ⟨view, hview⟩ := hdec
    refine ⟨projectedText C view, by simp only [hview]; rfl, fun s => ⟨fun ⟨v, hv, hs⟩ => ?_,
      fun h => ⟨view, hview, h⟩⟩⟩
    rw [hview] at hv
    cases hv
    exact hs

/-- With every token in the vocabulary the rows of a grain cover its text. -/
theorem rebuiltRows_covers {g : GrainRow} {s : String} {y : List PostRow × List DocRow}
    {a b : DejaDB} (hok : VocabOk a) (htext : g.text = some s)
    (h : rebuiltRows C g a = .ok y b) {token : String} (htoken : token ∈ tokenize C s)
    (hwarm : ∃ id, (⟨id, token⟩ : TermRow) ∈ a.db.ftsVocab) :
    (∃ x ∈ y.1, x.seq = g.seq ∧ x.ns = g.ns ∧ ⟨x.term, token⟩ ∈ a.db.ftsVocab) ∧
      ∃ d ∈ y.2, d.seq = g.seq := by
  obtain ⟨hposts, hdocs⟩ := rebuiltRows_eq hok htext h
  obtain ⟨x, hx, rfl⟩ := mem_tokenFreqs.1 htoken
  obtain ⟨id, hid⟩ := hwarm
  have hrow : (⟨id, g.seq, g.ns, x.2⟩ : PostRow) ∈ y.1 := by
    rw [hposts]
    refine List.mem_filterMap.2 ⟨x, hx, ?_⟩
    rw [vocabId_of_mem hok.strings hid]
    rfl
  refine ⟨⟨_, hrow, rfl, rfl, hid⟩, ⟨g.seq, (tokenFreqs C s).2⟩, ?_, rfl⟩
  have hne : y.1.isEmpty = false := by
    cases hy : y.1 with
    | nil =>
      rw [hy] at hrow
      cases hrow
    | cons => rfl
  rw [hdocs, hne]
  exact List.mem_singleton_self _

/-- What a rebuild leaves, when the vocabulary was warmed first. -/
theorem rebuildTextBody_covers {a b : DejaDB} {n : ℕ} {docs len : ℤ} (htexts : TextOk C E a.db)
    (hok : VocabOk a) (hdec : ∀ g ∈ a.db.grains, ∃ view, C.deserializeBlob g.blob = .ok view)
    (hwarm : a.db.Warm C) (htxn : rebuildTextBody C a = .ok (n, docs, len) b) :
    b.db.Covers C := by
  obtain ⟨grains, rows, c, hgrains, hrows, hlooks, rfl, -, -⟩ := rebuildTextBody_ok htxn
  have hdb : c.db = a.db := by rw [hlooks.rest]
  have hmap := mapM_retext hgrains
  have hall := forall₂_of_mapM (R := Looks) (P := fun st => VocabOk st ∧ st.db = a.db)
    (Q := fun g y _ => ∃ st st', VocabOk st ∧ st.db = a.db ∧ rebuiltRows C g st = .ok y st')
    leads_rebuiltRows
    (fun _ _ hi hs => ⟨hi.vocabOk hs.1, by rw [hi.rest]; exact hs.2⟩) (fun _ _ _ _ _ hq => hq)
    (fun g y st st' hs hx => ⟨st, st', hs.1, hs.2, hx⟩) ⟨hok, rfl⟩ hrows
  intro g hg s hs token htoken
  obtain ⟨y, hy, st, st', hst, hdbst, hy'⟩ := forall₂_exists_right hall g hg
  have hg' : g ∈ grains := hg
  rw [hmap] at hg'
  obtain ⟨g₀, hg₀, rfl⟩ := List.mem_map.1 hg'
  obtain ⟨o, ho, hspec⟩ := rebuildText_spec (hdec g₀ hg₀) (htexts.column g₀ hg₀)
  have hos := (hspec s).1 hs
  have htext : (rebuildText C g₀).toOption.getD none = some s := by
    rw [ho, hos]
    rfl
  obtain ⟨⟨x, hx, hxs, hxn, hrow⟩, d, hd, hds⟩ := rebuiltRows_covers hst htext hy' htoken (by
    rw [hdbst]
    exact hwarm g₀ hg₀ s hs token htoken)
  refine ⟨⟨x, List.mem_flatMap.2 ⟨y, hy, hx⟩, hxs, hxn, ?_⟩, d, List.mem_flatMap.2 ⟨y, hy, hd⟩, hds⟩
  rw [hdbst] at hrow
  show _ ∈ c.db.ftsVocab
  rw [hdb]
  exact hrow

/-! ## The warm pass -/

theorem warmTokens_spec (xs : List (String × ℤ)) {st : DejaDB} (hok : VocabOk st) :
    ∃ st', (xs.forM fun x => do let _ ← ftsTermId x.1) st = .ok ⟨⟩ st' ∧ Interns st st' ∧
      ∀ x ∈ xs, ∃ id, (⟨id, x.1⟩ : TermRow) ∈ st'.db.ftsVocab := by
  induction xs generalizing st with
  | nil => exact ⟨st, rfl, Interns.refl st, fun x hx => nomatch hx⟩
  | cons x xs ih =>
    obtain ⟨id, st₁, h₁, hi₁, hmem⟩ := ftsTermId_spec x.1 st
    obtain ⟨st₂, h₂, hi₂, hall⟩ := ih (hi₁.vocabOk hok)
    refine ⟨st₂, ?_, hi₁.trans hi₂, fun y hy => ?_⟩
    · show ((do let _ ← ftsTermId x.1) >>= fun _ => xs.forM _) st = _
      rw [bind_apply, bind_apply, h₁]
      exact h₂
    · rcases List.mem_cons.1 hy with rfl | hy
      · exact ⟨id, hi₂.vocab.subset (hmem hok)⟩
      · exact hall y hy

/-- The warm pass over one row. -/
def warmRow (C : Core G) (g : GrainRow) : StoreM Unit := do
  match ← lift (rebuildText C g) with
  | some t => (tokenFreqs C t).1.forM fun x => do let _ ← ftsTermId x.1
  | none => pure ()

/-- The warm pass returns, with every token of the corpus in the vocabulary. -/
theorem warmVocab_spec (grains : List GrainRow) {st : DejaDB} (hok : VocabOk st)
    (hgrains : ∀ g ∈ grains, (∃ view, C.deserializeBlob g.blob = .ok view) ∧
      ∀ s, g.text = some s → TextOf C g.blob s) :
    ∃ st', warmVocab C grains st = .ok ⟨⟩ st' ∧ Interns st st' ∧
      ∀ g ∈ grains, ∀ s, TextOf C g.blob s → ∀ token ∈ tokenize C s,
        ∃ id, (⟨id, token⟩ : TermRow) ∈ st'.db.ftsVocab := by
  induction grains generalizing st with
  | nil => exact ⟨st, rfl, Interns.refl st, fun g hg => absurd hg List.not_mem_nil⟩
  | cons g grains ih =>
    rw [List.forall_mem_cons] at hgrains
    obtain ⟨o, ho, hspec⟩ := rebuildText_spec hgrains.1.1 hgrains.1.2
    have hone : ∃ st₁, warmRow C g st = .ok ⟨⟩ st₁ ∧ Interns st st₁ ∧
        ∀ s, o = some s → ∀ token ∈ tokenize C s,
          ∃ id, (⟨id, token⟩ : TermRow) ∈ st₁.db.ftsVocab := by
      unfold warmRow
      rw [ho]
      cases o with
      | none => exact ⟨st, rfl, Interns.refl st, fun s hs => by cases hs⟩
      | some t =>
        obtain ⟨st₁, h₁, hi₁, hall⟩ := warmTokens_spec (tokenFreqs C t).1 hok
        refine ⟨st₁, h₁, hi₁, fun s hs token htoken => ?_⟩
        cases hs
        obtain ⟨x, hx, rfl⟩ := mem_tokenFreqs.1 htoken
        exact hall x hx
    obtain ⟨st₁, h₁, hi₁, htokens⟩ := hone
    obtain ⟨st₂, h₂, hi₂, hall⟩ := ih (hi₁.vocabOk hok) hgrains.2
    refine ⟨st₂, ?_, hi₁.trans hi₂, fun x hx s hs token htoken => ?_⟩
    · unfold warmVocab
      show (warmRow C g >>= fun _ => warmVocab C grains) st = _
      exact bind_eq_ok.2 ⟨⟨⟩, st₁, h₁, h₂⟩
    · rcases List.mem_cons.1 hx with rfl | hx
      · obtain ⟨id, hid⟩ := htokens s ((hspec s).1 hs) token htoken
        exact ⟨id, hi₂.vocab.subset hid⟩
      · exact hall x hx s hs token htoken

/-! ## Along a run -/

/-- Every stored blob decodes. -/
theorem DejaDB.Good.decodes {st : DejaDB} (h : st.Good C) :
    ∀ g ∈ st.db.grains, ∃ view, C.deserializeBlob g.blob = .ok view := by
  intro g hg
  obtain ⟨pr, ⟨view, hview⟩, hof⟩ := h.rowsOk.spelled g hg
  have hblob : g.blob = pr.blob := congrArg GrainRow.blob hof.row
  exact ⟨view, by rw [hblob]; exact hview.decodes⟩

/-- **Every commit keeps indexed grains whole**, a rebuild if the vocabulary is
warm. -/
theorem Commit.docsPosted {ev : Event} {a b : DejaDB} (h : Commit C ev a b) (hgood : a.Good C)
    (htexts : a.TextsOk C E) (hI : a.db.DocsPosted C) (hwarm : ev = .rebuildText → a.db.Warm C) :
    b.db.DocsPosted C := by
  have hprep : ∀ pr ∈ ev.preps, TextPrep C E a.db pr ∧ TokensPrep C a.db pr := fun pr hpr => by
    obtain ⟨view, hv⟩ := h.prepared pr hpr
    exact ⟨hv.textPrep htexts.embedder, hv.tokensPrep⟩
  cases h with
  | insert prepared txn => exact hI.insertPrepped htexts.texts hprep txn
  | @supersede _ old pr row _ now _ _ _ _ written prepared found txn =>
    obtain ⟨-, t₁, hins, rfl⟩ := Tables.supersedeTxn_ok found txn
    refine (hI.insertPreppedOne htexts.texts (hprep _ (List.mem_singleton_self _)).2 hins).congr ?_
    refine ((Tables.retireTip_frame (t₁.flipped row.seq old pr.hash now) row.key
      row.seq).textView).trans ?_
    show (((t₁.markSuperseded row.seq pr.hash now).markSupersedes pr.hash old).clearCur
      row.seq).textView = _
    rw [Tables.textView_clearCur, Tables.textView_markSupersedes, Tables.textView_markSuperseded]
  | merge written prepared tips txn =>
    obtain ⟨t₁, hins, rfl⟩ := Tables.mergeTxn_ok txn
    exact (hI.insertPreppedOne htexts.texts (hprep _ (List.mem_singleton_self _)).2 hins).congr
      (Tables.textView_closeTips _ _ _)
  | @forget _ _ row _ _ _ found txn =>
    rw [DejaDB.droppedDoc_db]
    obtain ⟨-, rfl⟩ := Tables.forgetTxn_ok found txn
    exact (hI.deleteSeq row.seq).congr (Tables.retireTip_frame _ row.key row.seq).textView
  | erase txn => exact hI.eraseTxn txn
  | scrub txn =>
    refine hI.congr ?_
    simp only [DejaDB.evicted, DejaDB.dropped]
    rw [(Tables.scrubTerms_ok txn).file]
    rfl
  | insertBlob prepared txn =>
    obtain ⟨hins, -, -, hpost, hdoc, -, -⟩ := Tables.insertBlobTxn_ok txn
    exact hI.insert htexts.texts (hprep _ (List.mem_singleton_self _)).2 hins
      (fun x hx => by rw [← hpost] at hx; exact hx)
      fun d hd => .inl (by rw [← hdoc]; exact hd)
  | flip => exact hI.congr (Tables.textView_flipTxn _ _ _)
  | log txn =>
    obtain ⟨rfl, -⟩ := Tables.insertOp_ok txn
    exact hI.congr rfl
  | @rebuildText _ b _ _ _ on inline txn =>
    have := rebuildTextBody_covers htexts.texts hgood.vocabOk hgood.decodes (hwarm rfl) txn
    exact this.docsPosted
  | reopen => exact hI.congr rfl
  | defer | undefer | setEmbedder => exact hI

theorem Idle.docsPosted {a b : DejaDB} (h : Idle a b) (hI : a.db.DocsPosted C) :
    b.db.DocsPosted C := by
  refine hI.frame (fun g hg => ⟨g, ?_, rfl, rfl, rfl⟩) ?_ ?_ fun r hr _ => h.vocab.subset hr
  · rw [h.file] at hg
    exact hg
  · rw [h.file]
    exact fun d hd => hd
  · rw [h.file]
    exact fun x hx _ => hx

/-- A rebuild warms the vocabulary before it writes. -/
theorem rebuildCommits_warm {st : DejaDB} (hgood : st.Good C) (htexts : TextOk C E st.db) :
    ∀ x ∈ rebuildCommits C st, x.1 = .rebuildText → x.2.db.Warm C := by
  intro x hx hev
  obtain ⟨st', hwarm, hi, htokens⟩ := warmVocab_spec st.db.grains hgood.vocabOk fun g hg =>
    ⟨hgood.decodes g hg, htexts.column g hg⟩
  simp only [rebuildCommits] at hx
  split_ifs at hx
  · simp only [List.mem_cons, List.not_mem_nil, or_false] at hx
    rcases hx with rfl | rfl
    · cases hev
    · show (st.after (warmVocab C st.db.grains)).db.Warm C
      rw [DejaDB.after, after_of_ok hwarm]
      intro g hg
      rw [hi.file] at hg
      exact htokens g hg
  · cases hx

/-- The bulk erasures. -/
def Op.Bulk : Op G → Prop
  | .forgetSubject .. | .forgetOlderThan .. => True
  | _ => False

/-- A bulk erasure erases grains, or terms alone where it selected none. -/
theorem Op.bulk_commits {op : Op G} {st : DejaDB} {x : Attempt} (hx : x ∈ op.commits C st)
    (hop : op.Bulk) : x.1 = .scrub ∨ ∃ seqs, x.1 = .erase seqs := by
  have herase : ∀ {sel : ErasureSelector}, ∀ x ∈ eraseCommits C sel st,
      x.1 = .scrub ∨ ∃ seqs, x.1 = .erase seqs := by
    intro sel x hx
    unfold eraseCommits at hx
    cases hsel : selectTargets C sel st with
    | error e s =>
      rw [hsel] at hx
      cases hx
    | ok out s =>
      simp only [hsel] at hx
      split_ifs at hx <;> rw [List.mem_singleton.1 hx]
      · exact .inl rfl
      · exact .inr ⟨_, rfl⟩
  cases op with
  | forgetSubject ns s m =>
    simp only [Op.commits] at hx
    split at hx
    · exact herase x hx
    · cases hx
  | forgetOlderThan ns cutoff gt limit =>
    simp only [Op.commits] at hx
    split at hx
    · exact herase x hx
    · split at hx
      · exact herase x hx
      · cases hx
  | add | addBatch | addIfNovel | supersede | mergeHeads | forget | importBundle | deferTextIndex
  | rebuildTextIndex | setEmbedder | reopen => exact hop.elim

/-- Whatever an operation rebuilds, it warms first. -/
theorem Op.meets_warm (op : Op G) {st : DejaDB} (hgood : st.Good C) (htexts : TextOk C E st.db) :
    op.Meets C (fun ev a => ev = .rebuildText → a.db.Warm C) st := by
  have happend : ∀ x ∈ op.commits C st, op.Appends → x.1 ≠ .rebuildText := by
    intro x hx hop hev
    have h := hop.meets st x hx
    rw [hev] at h
    exact h
  intro x hx hev
  cases op with
  | rebuildTextIndex => exact rebuildCommits_warm hgood htexts x hx hev
  | reopen explicit clock =>
    simp only [Op.commits, reopenCommits] at hx
    rcases List.mem_cons.1 hx with rfl | hx
    · cases hev
    · have hopen : Commit C (.reopen explicit) st (freshHandle explicit clock st.db) := .reopen
      split_ifs at hx
      · refine rebuildCommits_warm (E := E) (hopen.good hgood) ?_ x hx hev
        exact htexts.congr rfl rfl rfl rfl (List.Subset.refl _)
      · cases hx
  | add | addBatch | addIfNovel | supersede | mergeHeads =>
    exact absurd hev (happend x hx trivial)
  | importBundle =>
    have h := Op.commits_issued x hx
    rw [hev] at h
    exact h.elim
  | setEmbedder e =>
    rw [List.mem_singleton.1 hx] at hev
    cases hev
  | forget | deferTextIndex =>
    rw [List.mem_singleton.1 hx] at hev
    cases hev
  | forgetSubject | forgetOlderThan =>
    rcases Op.bulk_commits hx trivial with h | ⟨seqs, h⟩ <;>
    · rw [h] at hev
      cases hev

/-- In every reachable file an indexed grain is indexed whole. -/
theorem Reachable.docsPosted {st : DejaDB} (h : Reachable C st) : st.db.DocsPosted C := by
  obtain ⟨explicit, clock, ops, rfl⟩ := h
  have hall : ∀ (ops : List (Op G)) (st : DejaDB), st.Good C →
      st.TextsOk C (fun _ => True) ∧ st.db.DocsPosted C → (st.steps C ops).db.DocsPosted C := by
    intro ops
    induction ops with
    | nil => exact fun st _ hI => hI.2
    | cons op ops ih =>
      intro st hgood hI
      obtain ⟨hgood', hI'⟩ := (op.path hgood.toSound (op.meets_warm hgood hI.1.texts)).keeps_good
        (I := fun st => st.TextsOk C (fun _ => True) ∧ st.db.DocsPosted C)
        (fun a b _ hidle hI => ⟨hidle.textsOk hI.1, hidle.docsPosted hI.2⟩)
        (fun ev a b hgood hwarm hcommit hI => ⟨hcommit.textsOk hgood.vocabOk
          (by cases ev <;> first | trivial | exact fun _ _ => trivial) hI.1,
          hcommit.docsPosted hgood hI.1 hI.2 hwarm⟩) hgood hI
      exact ih _ hgood' hI'
  refine hall ops _ (createStore_good C explicit clock) ⟨createStore_textsOk C _ explicit clock, ?_⟩
  rw [createStore_eq]
  exact List.forall_mem_nil _

end Deja
