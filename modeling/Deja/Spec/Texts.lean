import Deja.Spec.Rows

/-!
# What the text index and the embeddings say

Every posting, document row and embedding belongs to a stored grain and was
computed from the text of that grain's own blob: `TextOk`.  Idle moves and
commits keep it without any condition, and with it every posting names a token
of the vocabulary.
-/

namespace Deja

open Run

variable {G : Type} {C : Core G} {E : Embedder → Prop}

/-! ## The invariant -/

/-- The text indexed for the grain with this blob. -/
def TextOf (C : Core G) (blob : Bytes) (s : String) : Prop :=
  ∃ view, C.deserializeBlob blob = .ok view ∧ projectedText C view = some s

/-- A stored grain at `seq` whose namespace and blob satisfy `P`. -/
def Tables.At (t : Tables) (seq : ℤ) (P : ℤ → Bytes → Prop) : Prop :=
  ∃ g ∈ t.grains, g.seq = seq ∧ P g.ns g.blob

/-- The text column, the postings, the document rows and the embeddings come from
the blobs of stored grains; vectors come from the embedders `E`. -/
structure TextOk (C : Core G) (E : Embedder → Prop) (t : Tables) : Prop where
  column : ∀ g ∈ t.grains, ∀ s, g.text = some s → TextOf C g.blob s
  post : ∀ x ∈ t.ftsPost, t.At x.seq fun ns blob => ns = x.ns ∧ ∃ s term, TextOf C blob s ∧
    (term, x.tf) ∈ (tokenFreqs C s).1 ∧ ⟨x.term, term⟩ ∈ t.ftsVocab
  doc : ∀ d ∈ t.ftsDoc, t.At d.seq fun _ blob =>
    ∃ s, TextOf C blob s ∧ d.len = (tokenFreqs C s).2
  embedding : ∀ e ∈ t.embeddings, t.At e.seq fun _ blob =>
    ∃ m s, E m ∧ TextOf C blob s ∧ m s = .ok e.vec

/-- The text of a prepared grain is that of its blob. -/
structure TextPrep (C : Core G) (E : Embedder → Prop) (t : Tables) (pr : GrainPrep) : Prop where
  text : ∀ s, pr.text = some s → TextOf C pr.blob s
  tokens : ∀ y ∈ pr.tokens, ∃ s term, TextOf C pr.blob s ∧ (term, y.2) ∈ (tokenFreqs C s).1 ∧
    ⟨y.1, term⟩ ∈ t.ftsVocab
  docLen : pr.tokens ≠ [] → ∃ s, TextOf C pr.blob s ∧ pr.docLen = (tokenFreqs C s).2
  embedding : ∀ v, pr.embedding = some v → ∃ m s, E m ∧ TextOf C pr.blob s ∧ m s = .ok v

/-! ## Moves -/

variable {t t' : Tables}

theorem Tables.At.mono {seq : ℤ} {P Q : ℤ → Bytes → Prop} (h : t.At seq P)
    (hkeep : ∀ g ∈ t.grains, g.seq = seq →
      ∃ g' ∈ t'.grains, g'.seq = seq ∧ g'.ns = g.ns ∧ g'.blob = g.blob)
    (hPQ : ∀ ns blob, P ns blob → Q ns blob) : t'.At seq Q := by
  obtain ⟨g, hg, hseq, hP⟩ := h
  obtain ⟨g', hg', hseq', hns, hblob⟩ := hkeep g hg hseq
  exact ⟨g', hg', hseq', by rw [hns, hblob]; exact hPQ _ _ hP⟩

/-- Grains at `seqs` go with their rows, the others keep their text; a token goes
when no posting names it. -/
theorem TextOk.shrink (h : TextOk C E t) (seqs : List ℤ)
    (hkeep : ∀ g ∈ t.grains, g.seq ∉ seqs →
      ∃ g' ∈ t'.grains, g'.seq = g.seq ∧ g'.ns = g.ns ∧ g'.blob = g.blob)
    (hcol : ∀ g' ∈ t'.grains, ∃ g ∈ t.grains, g'.blob = g.blob ∧ g'.text = g.text)
    (hpost : ∀ x ∈ t'.ftsPost, x ∈ t.ftsPost ∧ x.seq ∉ seqs)
    (hdoc : ∀ x ∈ t'.ftsDoc, x ∈ t.ftsDoc ∧ x.seq ∉ seqs)
    (hemb : ∀ x ∈ t'.embeddings, x ∈ t.embeddings ∧ x.seq ∉ seqs)
    (hvocab : ∀ r ∈ t.ftsVocab, (∃ x ∈ t'.ftsPost, x.term = r.id) → r ∈ t'.ftsVocab) :
    TextOk C E t' where
  column g' hg' s hs := by
    obtain ⟨g, hg, hblob, htext⟩ := hcol g' hg'
    rw [hblob]
    exact h.column g hg s (by rw [← htext, hs])
  post x hx := by
    obtain ⟨hmem, hseq⟩ := hpost x hx
    refine (h.post x hmem).mono (fun g hg hgs => ?_) fun ns blob => ?_
    · rw [← hgs] at hseq ⊢
      exact hkeep g hg hseq
    · rintro ⟨hns, s, term, hs, hterm, hrow⟩
      exact ⟨hns, s, term, hs, hterm, hvocab _ hrow ⟨x, hx, rfl⟩⟩
  doc d hd := by
    obtain ⟨hmem, hseq⟩ := hdoc d hd
    refine (h.doc d hmem).mono (fun g hg hgs => ?_) fun _ _ hP => hP
    rw [← hgs] at hseq ⊢
    exact hkeep g hg hseq
  embedding e he := by
    obtain ⟨hmem, hseq⟩ := hemb e he
    refine (h.embedding e hmem).mono (fun g hg hgs => ?_) fun _ _ hP => hP
    rw [← hgs] at hseq ⊢
    exact hkeep g hg hseq

/-- A rewrite of grain rows that leaves sequence number, namespace, blob and text
alone. -/
theorem TextOk.alter (h : TextOk C E t) {f : GrainRow → GrainRow}
    (hf : ∀ g, (f g).seq = g.seq ∧ (f g).ns = g.ns ∧ (f g).blob = g.blob ∧ (f g).text = g.text)
    (hgrains : t'.grains = t.grains.map f) (hpost : t'.ftsPost = t.ftsPost)
    (hdoc : t'.ftsDoc = t.ftsDoc) (hemb : t'.embeddings = t.embeddings)
    (hvocab : t.ftsVocab ⊆ t'.ftsVocab) : TextOk C E t' := by
  refine h.shrink [] (fun g hg _ => ⟨f g, ?_, (hf g).1, (hf g).2.1, (hf g).2.2.1⟩)
    (fun g' hg' => ?_) ?_ ?_ ?_ fun r hr _ => hvocab hr
  · rw [hgrains]
    exact List.mem_map_of_mem hg
  · rw [hgrains] at hg'
    obtain ⟨g, hg, rfl⟩ := List.mem_map.1 hg'
    exact ⟨g, hg, (hf g).2.2.1, (hf g).2.2.2⟩
  · rw [hpost]
    exact fun x hx => ⟨hx, List.not_mem_nil⟩
  · rw [hdoc]
    exact fun x hx => ⟨hx, List.not_mem_nil⟩
  · rw [hemb]
    exact fun x hx => ⟨hx, List.not_mem_nil⟩

/-- A file whose text tables are the same, up to new tokens. -/
theorem TextOk.congr (h : TextOk C E t) (hgrains : t'.grains = t.grains)
    (hpost : t'.ftsPost = t.ftsPost) (hdoc : t'.ftsDoc = t.ftsDoc)
    (hemb : t'.embeddings = t.embeddings) (hvocab : t.ftsVocab ⊆ t'.ftsVocab) : TextOk C E t' :=
  h.alter (f := id) (fun _ => ⟨rfl, rfl, rfl, rfl⟩) (by rw [hgrains, List.map_id]) hpost hdoc hemb
    hvocab

theorem TextOk.insert {pr : GrainPrep} {seq : ℤ} (h : TextOk C E t) (hpr : TextPrep C E t pr)
    (hgrains : t'.grains = t.grains ++ [pr.grainRow seq])
    (hpost : ∀ x ∈ t'.ftsPost, x ∈ t.ftsPost ∨ x ∈ pr.postRows seq)
    (hdoc : ∀ x ∈ t'.ftsDoc, x ∈ t.ftsDoc ∨ pr.tokens ≠ [] ∧ x = ⟨seq, pr.docLen⟩)
    (hemb : t'.embeddings = t.embeddings ++ pr.embeddingRows seq)
    (hvocab : t'.ftsVocab = t.ftsVocab) : TextOk C E t' := by
  have hkeep : ∀ {s : ℤ}, ∀ g ∈ t.grains, g.seq = s →
      ∃ g' ∈ t'.grains, g'.seq = s ∧ g'.ns = g.ns ∧ g'.blob = g.blob := fun g hg hs =>
    ⟨g, by rw [hgrains]; exact List.mem_append_left _ hg, hs, rfl, rfl⟩
  have hnew : pr.grainRow seq ∈ t'.grains := by
    rw [hgrains]
    exact List.mem_append_right _ (List.mem_singleton_self _)
  refine ⟨fun g hg => ?_, fun x hx => ?_, fun d hd => ?_, fun e he => ?_⟩
  · rw [hgrains] at hg
    rcases List.mem_append.1 hg with hg | hg
    · exact h.column g hg
    · rw [List.mem_singleton.1 hg]
      exact hpr.text
  · rcases hpost x hx with hx | hx
    · rw [hvocab]
      exact (h.post x hx).mono hkeep fun _ _ hP => hP
    · obtain ⟨y, hy, rfl⟩ := List.mem_map.1 hx
      rw [hvocab]
      exact ⟨_, hnew, rfl, rfl, hpr.tokens y hy⟩
  · rcases hdoc d hd with hd | ⟨htokens, rfl⟩
    · exact (h.doc d hd).mono hkeep fun _ _ hP => hP
    · exact ⟨_, hnew, rfl, hpr.docLen htokens⟩
  · rw [hemb] at he
    rcases List.mem_append.1 he with he | he
    · exact (h.embedding e he).mono hkeep fun _ _ hP => hP
    · obtain ⟨v, hv, rfl⟩ := Option.map_eq_some_iff.1 (Option.mem_toList.1 he)
      exact ⟨_, hnew, rfl, hpr.embedding v hv⟩

/-! ## Prepared grains -/

theorem Prepared.textPrep {a : DejaDB} {view : DeserializedGrain} {pr : GrainPrep}
    (h : Prepared C a view pr) (hE : ∀ m, a.embedder = some m → E m) :
    TextPrep C E a.db pr := by
  have htext : ∀ s, pr.text = some s → TextOf C pr.blob s := fun s hs => by
    rw [h.text, DejaDB.storedText] at hs
    split_ifs at hs
    exact ⟨view, h.decodes, hs⟩
  have htokens := h.tokens
  unfold DejaDB.EncodesText at htokens
  refine ⟨htext, ?_, ?_, fun v hv => ?_⟩
  · split at htokens
    · rename_i s hs _
      intro y hy
      obtain ⟨x, hx, hrow, hfreq⟩ := forall₂_exists_left htokens.1 y hy
      exact ⟨s, x.1, htext s hs, by rw [hfreq]; exact hx, hrow⟩
    · rw [htokens.1]
      exact fun y hy => absurd hy List.not_mem_nil
  · split at htokens
    · rename_i s hs _
      exact fun _ => ⟨s, htext s hs, htokens.2⟩
    · exact fun hne => absurd htokens.1 hne
  · obtain ⟨m, s, hm, hs, hv⟩ := h.embedding v hv
    exact ⟨m, s, hE m hm, ⟨view, h.decodes, hs⟩, hv⟩

theorem TextPrep.congr {pr : GrainPrep} (h : TextPrep C E t pr)
    (hvocab : t'.ftsVocab = t.ftsVocab) : TextPrep C E t' pr where
  text := h.text
  tokens := by
    rw [hvocab]
    exact h.tokens
  docLen := h.docLen
  embedding := h.embedding

/-! ## Transactions -/

namespace Tables

variable {pr : GrainPrep} {seq op hlc : ℤ}

theorem insertPreppedOne_embeddings (h : t.insertPreppedOne pr seq op hlc = .ok t') :
    t'.embeddings = t.embeddings ++ pr.embeddingRows seq := by
  obtain ⟨t₁, hgrain, h₁⟩ := except_bind_ok h
  obtain ⟨t₂, hrows, h₂⟩ := except_bind_ok h₁
  obtain ⟨rfl, -⟩ := insertGrain_ok hgrain
  obtain ⟨rfl, -⟩ := insertOp_ok h₂
  rw [insertIndexRows_ok hrows]
  unfold insertPostings collapseHeads
  cases pr.spo <;> split_ifs <;> rfl

theorem insertBlobTxn_embeddings {kind : OpKind}
    (h : t.insertBlobTxn pr seq op hlc kind = .ok t') :
    t'.embeddings = t.embeddings ++ pr.embeddingRows seq := by
  obtain ⟨t₁, hgrain, h₁⟩ := except_bind_ok h
  obtain ⟨t₂, hrows, h₂⟩ := except_bind_ok h₁
  obtain ⟨rfl, -⟩ := insertGrain_ok hgrain
  obtain ⟨rfl, -⟩ := insertOp_ok h₂
  rw [insertIndexRows_ok hrows, unionHeads_frame]

theorem SameButHeads.embeddings (h : t.SameButHeads t') : t'.embeddings = t.embeddings := by
  rw [h]

theorem SameButHeads.ftsPost (h : t.SameButHeads t') : t'.ftsPost = t.ftsPost := by rw [h]

theorem SameButHeads.ftsDoc (h : t.SameButHeads t') : t'.ftsDoc = t.ftsDoc := by rw [h]

theorem eraseTargets_embeddings {targets : List GrainRow}
    (h : t.eraseTargets targets op hlc = .ok t') :
    t'.embeddings = t.embeddings.filter fun r => r.seq ∉ targets.map GrainRow.seq := by
  induction targets generalizing t op hlc with
  | nil =>
    cases h
    simp
  | cons g gs ih =>
    unfold eraseTargets at h
    obtain ⟨t₁, hop, h₁⟩ := except_bind_ok h
    obtain ⟨ht₁, -⟩ := insertOp_ok hop
    rw [ih h₁, ht₁]
    have hdel : ∀ k, ((t.deleteSeq g.seq).deleteHead k g.seq).embeddings =
        t.embeddings.filter fun r => r.seq ≠ g.seq := fun k => rfl
    cases hkey : g.key with
    | none => exact filter_notMem_cons t.embeddings EmbeddingRow.seq _ _
    | some k => exact filter_notMem_cons t.embeddings EmbeddingRow.seq _ _

end Tables

theorem TextOk.insertPreppedOne {pr : GrainPrep} {seq op hlc : ℤ} (h : TextOk C E t)
    (hpr : TextPrep C E t pr) (htxn : t.insertPreppedOne pr seq op hlc = .ok t') :
    TextOk C E t' := by
  obtain ⟨hins, -, -, hpost, hdoc, -, -⟩ := Tables.insertPreppedOne_ok htxn
  refine h.insert hpr hins.grains (fun x hx => ?_) (fun d hd => ?_)
    (Tables.insertPreppedOne_embeddings htxn) hins.ftsVocab
  · rw [hpost, Tables.insertPostings] at hx
    split_ifs at hx
    · exact .inl hx
    · exact List.mem_append.1 hx
  · rw [hdoc, Tables.insertPostings] at hd
    split_ifs at hd with hempty
    · exact .inl hd
    · rcases List.mem_append.1 hd with hd | hd
      · exact .inl (List.mem_of_mem_filter hd)
      · exact .inr ⟨fun hnil => hempty (by rw [hnil]; rfl), List.mem_singleton.1 hd⟩

theorem TextOk.insertPrepped {preps : List GrainPrep} {seq op hlc : ℤ} (h : TextOk C E t)
    (hpreps : ∀ pr ∈ preps, TextPrep C E t pr)
    (htxn : t.insertPrepped preps seq op hlc = .ok t') : TextOk C E t' := by
  induction preps generalizing t seq op hlc with
  | nil =>
    cases htxn
    exact h
  | cons pr preps ih =>
    obtain ⟨t₁, hone, hrest⟩ := except_bind_ok htxn
    rw [List.forall_mem_cons] at hpreps
    have hvocab := (Tables.insertPreppedOne_ok hone).1.ftsVocab
    exact ih (h.insertPreppedOne hpreps.1 hone) (fun x hx => (hpreps.2 x hx).congr hvocab) hrest

theorem TextOk.sameButHeads (h : TextOk C E t) (hsame : t.SameButHeads t') : TextOk C E t' :=
  h.congr hsame.grains hsame.ftsPost hsame.ftsDoc hsame.embeddings
    (by rw [hsame.ftsVocab]; exact List.Subset.refl _)

theorem TextOk.markSuperseded (h : TextOk C E t) (seq : ℤ) (by_ : Hash) (now : ℤ) :
    TextOk C E (t.markSuperseded seq by_ now) :=
  h.alter (fun g => by split_ifs <;> exact ⟨rfl, rfl, rfl, rfl⟩) rfl rfl rfl rfl
    (List.Subset.refl _)

theorem TextOk.markSupersedes (h : TextOk C E t) (new old : Hash) :
    TextOk C E (t.markSupersedes new old) :=
  h.alter (fun g => by split_ifs <;> exact ⟨rfl, rfl, rfl, rfl⟩) rfl rfl rfl rfl
    (List.Subset.refl _)

theorem TextOk.clearCur (h : TextOk C E t) (seq : ℤ) : TextOk C E (t.clearCur seq) :=
  h.congr rfl rfl rfl rfl (List.Subset.refl _)

theorem TextOk.closeTip (h : TextOk C E t) (tip merge : Hash) (now : ℤ) :
    TextOk C E (t.closeTip tip merge now) := by
  unfold Tables.closeTip
  cases t.grainByHash tip with
  | none => exact h
  | some g =>
    simp only
    split_ifs
    · exact (h.markSuperseded g.seq merge now).clearCur g.seq
    · exact h

theorem TextOk.closeTips (h : TextOk C E t) (tips : List Hash) (merge : Hash) (now : ℤ) :
    TextOk C E (tips.foldl (fun t tip => t.closeTip tip merge now) t) := by
  induction tips generalizing t with
  | nil => exact h
  | cons tip tips ih => exact ih (h.closeTip tip merge now)

theorem TextOk.flipTxn (h : TextOk C E t) (old new : Hash) (now : ℤ) :
    TextOk C E (t.flipTxn old new now).2 := by
  unfold Tables.flipTxn
  cases t.grainByHash old with
  | none => exact h
  | some row =>
    simp only
    split_ifs
    · exact h
    · exact h.sameButHeads (Tables.registerFork_frame t new)
    · unfold Tables.flipLinear
      have hflip := ((h.markSuperseded row.seq new now).markSupersedes new old).clearCur row.seq
      cases row.key with
      | none => exact hflip
      | some k => exact hflip.sameButHeads (Tables.deleteHead_frame _ k row.seq)

theorem TextOk.deleteSeq (h : TextOk C E t) (seq : ℤ) : TextOk C E (t.deleteSeq seq) := by
  have hmem : ∀ {α : Type} {key : α → ℤ} {l : List α} {x : α},
      x ∈ l.filter (fun r => key r ≠ seq) → x ∈ l ∧ key x ∉ [seq] := fun hx => by
    simpa using List.mem_filter.1 hx
  refine h.shrink [seq] (fun g hg hs => ⟨g, ?_, rfl, rfl, rfl⟩) (fun g hg => ⟨g, ?_, rfl, rfl⟩)
    (fun x hx => hmem hx) (fun x hx => hmem hx) (fun x hx => hmem hx) fun r hr _ => hr
  · exact List.mem_filter.2 ⟨hg, by simpa using hs⟩
  · exact List.mem_of_mem_filter hg

/-- The text tables after an erasure. -/
theorem Tables.eraseTxn_texts {seqs ids : List ℤ} {op hlc : ℤ} {out : EraseOut}
    (htxn : t.eraseTxn seqs ids op hlc = .ok (out, t')) :
    ∃ dead : List ℤ, t'.grains = t.grains.filter (fun g => g.seq ∉ dead) ∧
      t'.ftsPost = t.ftsPost.filter (fun x => x.seq ∉ dead) ∧
      t'.ftsDoc = t.ftsDoc.filter (fun d => d.seq ∉ dead) ∧
      t'.embeddings = t.embeddings.filter (fun e => e.seq ∉ dead) ∧
      ∀ r ∈ t.ftsVocab, (∃ x ∈ t'.ftsPost, x.term = r.id) → r ∈ t'.ftsVocab := by
  obtain ⟨t₁, t₂, htargets, ht₂, hscrub, -⟩ := Tables.eraseTxn_ok htxn
  obtain ⟨he, -, -, -, -, hvocab⟩ := Tables.eraseTargets_ok htargets
  have hrec := Tables.reconcile_frame t₁ seqs
    ((t.grains.filter fun g => g.seq ∈ seqs).filterMap GrainRow.key).dedup
  have hsame : ∀ {α : Type} (f : Tables → α), (∀ a b : Tables, a.SameButHeads b → f b = f a) →
      (∀ (a : Tables) v, f { a with ftsVocab := v } = f a) →
      (∀ (a : Tables) v, f { a with terms := v } = f a) → f t' = f t₁ := by
    intro α f hheads hv hterms
    rw [hscrub.file, hterms, ht₂]
    exact (hv _ _).trans (hheads _ _ hrec)
  have hpost := hsame Tables.ftsPost (fun _ _ h => h.ftsPost) (fun _ _ => rfl) fun _ _ => rfl
  refine ⟨(t.grains.filter fun g => g.seq ∈ seqs).map GrainRow.seq, ?_, ?_, ?_, ?_, ?_⟩
  · rw [hsame Tables.grains (fun _ _ h => h.grains) (fun _ _ => rfl) fun _ _ => rfl, he.grains]
  · rw [hpost, he.ftsPost]
  · rw [hsame Tables.ftsDoc (fun _ _ h => h.ftsDoc) (fun _ _ => rfl) fun _ _ => rfl, he.ftsDoc]
  · rw [hsame Tables.embeddings (fun _ _ h => h.embeddings) (fun _ _ => rfl) fun _ _ => rfl,
      Tables.eraseTargets_embeddings htargets]
  · intro r hr ⟨x, hx, hxr⟩
    rw [hscrub.file, ht₂]
    refine List.mem_filter.2 ⟨?_, ?_⟩
    · rw [hrec.ftsVocab, hvocab]
      exact hr
    · rw [decide_eq_true_eq]
      rintro ⟨-, hall⟩
      rw [hpost, ← hrec.ftsPost] at hx
      have := List.all_eq_true.1 hall x hx
      simp [hxr] at this

theorem TextOk.eraseTxn {seqs ids : List ℤ} {op hlc : ℤ} {out : EraseOut} (h : TextOk C E t)
    (htxn : t.eraseTxn seqs ids op hlc = .ok (out, t')) : TextOk C E t' := by
  obtain ⟨dead, hgrains, hpost, hdoc, hembs, hvocab⟩ := Tables.eraseTxn_texts htxn
  have hmem : ∀ {α : Type} {key : α → ℤ} {l : List α} {x : α},
      x ∈ l.filter (fun r => key r ∉ dead) → x ∈ l ∧ key x ∉ dead := fun hx => by
    simpa using List.mem_filter.1 hx
  refine h.shrink dead (fun g hg hs => ⟨g, ?_, rfl, rfl, rfl⟩) (fun g hg => ⟨g, ?_, rfl, rfl⟩)
    (fun x hx => ?_) (fun x hx => ?_) (fun x hx => ?_) hvocab
  · rw [hgrains]
    exact List.mem_filter.2 ⟨hg, by simpa using hs⟩
  · rw [hgrains] at hg
    exact List.mem_of_mem_filter hg
  · rw [hpost] at hx
    exact hmem hx
  · rw [hdoc] at hx
    exact hmem hx
  · rw [hembs] at hx
    exact hmem hx

/-! ## The text rebuild -/

/-- The rows of a grain with text: a posting for each token with an id, and a
document row if there is a posting. -/
theorem rebuiltRows_eq {g : GrainRow} {s : String} {y : List PostRow × List DocRow}
    {a b : DejaDB} (hok : VocabOk a) (htext : g.text = some s)
    (h : rebuiltRows C g a = .ok y b) :
    y.1 = (tokenFreqs C s).1.filterMap (fun x =>
        (a.db.vocabId x.1).map fun id => (⟨id, g.seq, g.ns, x.2⟩ : PostRow)) ∧
      y.2 = if y.1.isEmpty then [] else [⟨g.seq, (tokenFreqs C s).2⟩] := by
  unfold rebuiltRows at h
  simp only [htext] at h
  obtain ⟨posts, b₁, hposts, h₁⟩ := bind_eq_ok.1 h
  obtain ⟨rfl, -⟩ := pure_eq_ok.1 h₁
  have hall := forall₂_of_mapM (R := Looks) (P := fun st => VocabOk st ∧ st.db = a.db)
    (Q := fun (x : String × ℤ) y _ =>
      y = (a.db.vocabId x.1).map fun id => (⟨id, g.seq, g.ns, x.2⟩ : PostRow))
    (fun x => leads_bind (leads_looks_ftsTermLookup x.1) fun id => leads_pure _)
    (fun _ _ hi hs => ⟨hi.vocabOk hs.1, by rw [hi.rest]; exact hs.2⟩) (fun _ _ _ _ _ hq => hq)
    (fun (x : String × ℤ) y st st' hs hx => by
      obtain ⟨id, s₁, hid, hx⟩ := bind_eq_ok.1 hx
      obtain ⟨rfl, rfl⟩ := pure_eq_ok.1 hx
      rw [ftsTermLookup_ok hs.1 hid, hs.2]) ⟨hok, rfl⟩ hposts
  refine ⟨?_, rfl⟩
  rw [eq_map_of_forall₂ hall, List.filterMap_map]
  rfl

/-- The rows a rebuild writes for one grain. -/
def RebuiltFrom (C : Core G) (vocab : List TermRow) (g : GrainRow)
    (y : List PostRow × List DocRow) : Prop :=
  (∀ x ∈ y.1, x.seq = g.seq ∧ x.ns = g.ns ∧ ∃ s term, g.text = some s ∧
    (term, x.tf) ∈ (tokenFreqs C s).1 ∧ ⟨x.term, term⟩ ∈ vocab) ∧
  ∀ d ∈ y.2, d.seq = g.seq ∧ ∃ s, g.text = some s ∧ d.len = (tokenFreqs C s).2

theorem rebuiltRows_ok {g : GrainRow} {y : List PostRow × List DocRow} {a b : DejaDB}
    (hok : VocabOk a) (h : rebuiltRows C g a = .ok y b) : RebuiltFrom C a.db.ftsVocab g y := by
  cases htext : g.text with
  | none =>
    unfold rebuiltRows at h
    rw [htext] at h
    obtain ⟨rfl, -⟩ := pure_eq_ok.1 h
    exact ⟨List.forall_mem_nil _, List.forall_mem_nil _⟩
  | some s =>
    obtain ⟨hposts, hdocs⟩ := rebuiltRows_eq hok htext h
    refine ⟨fun x hx => ?_, fun d hd => ?_⟩
    · rw [hposts] at hx
      obtain ⟨x', hx', hq⟩ := List.mem_filterMap.1 hx
      obtain ⟨id, hid, rfl⟩ := Option.map_eq_some_iff.1 hq
      exact ⟨rfl, rfl, s, x'.1, htext, hx', vocabId_some hid⟩
    · rw [hdocs] at hd
      split_ifs at hd
      · cases hd
      · rw [List.mem_singleton.1 hd]
        exact ⟨rfl, s, htext, rfl⟩

/-- A row whose text column is rewritten by a rebuild. -/
theorem textOf_rebuildText {g : GrainRow} {s : String}
    (hcol : ∀ s, g.text = some s → TextOf C g.blob s)
    (h : (rebuildText C g).toOption.getD none = some s) : TextOf C g.blob s := by
  unfold rebuildText at h
  cases htext : g.text with
  | some t =>
    rw [htext] at h
    cases h
    exact hcol s htext
  | none =>
    rw [htext] at h
    cases hview : C.deserializeBlob g.blob with
    | error e =>
      rw [hview] at h
      cases h
    | ok view =>
      rw [hview] at h
      exact ⟨view, hview, h⟩

theorem TextOk.rebuildTextBody {a b : DejaDB} {n : ℕ} {docs len : ℤ} (h : TextOk C E a.db)
    (hok : VocabOk a) (htxn : rebuildTextBody C a = .ok (n, docs, len) b) : TextOk C E b.db := by
  obtain ⟨grains, rows, c, hgrains, hrows, hlooks, rfl, -, -⟩ := rebuildTextBody_ok htxn
  have hdb : c.db = a.db := by rw [hlooks.rest]
  have hmap := mapM_retext hgrains
  have hcol : ∀ g ∈ grains, ∀ s, g.text = some s → TextOf C g.blob s := by
    intro g hg s hs
    rw [hmap] at hg
    obtain ⟨g₀, hg₀, rfl⟩ := List.mem_map.1 hg
    exact textOf_rebuildText (g := g₀) (h.column g₀ hg₀) hs
  have hall := forall₂_of_mapM (R := Looks) (P := fun st => VocabOk st ∧ st.db = a.db)
    (Q := fun g y _ => RebuiltFrom C a.db.ftsVocab g y) leads_rebuiltRows
    (fun _ _ hi hs => ⟨hi.vocabOk hs.1, by rw [hi.rest]; exact hs.2⟩) (fun _ _ _ _ _ hq => hq)
    (fun g y st st' hs hx => by rw [← hs.2]; exact rebuiltRows_ok hs.1 hx) ⟨hok, rfl⟩ hrows
  refine ⟨hcol, fun x hx => ?_, fun d hd => ?_, ?_⟩
  · obtain ⟨y, hy, hxy⟩ := List.mem_flatMap.1 hx
    obtain ⟨g, hg, hq, -⟩ := forall₂_exists_left hall y hy
    obtain ⟨hseq, hns, s, term, hs, hterm, hvocab⟩ := hq x hxy
    refine ⟨g, hg, hseq.symm, hns.symm, s, term, hcol g hg s hs, hterm, ?_⟩
    show _ ∈ c.db.ftsVocab
    rw [hdb]
    exact hvocab
  · obtain ⟨y, hy, hdy⟩ := List.mem_flatMap.1 hd
    obtain ⟨g, hg, -, hq⟩ := forall₂_exists_left hall y hy
    obtain ⟨hseq, s, hs, hlen⟩ := hq d hdy
    exact ⟨g, hg, hseq.symm, s, hcol g hg s hs, hlen⟩
  · intro e he
    have he : e ∈ a.db.embeddings := by
      rw [← hdb]
      exact he
    refine (h.embedding e he).mono (fun g hg hs => ?_) fun _ _ hP => hP
    refine ⟨{ g with text := (rebuildText C g).toOption.getD none }, ?_, hs, rfl, rfl⟩
    show _ ∈ grains
    rw [hmap]
    exact List.mem_map.2 ⟨g, hg, rfl⟩

/-! ## Along a run -/

/-- The text tables are right, and the embedder in use is one of `E`. -/
structure DejaDB.TextsOk (C : Core G) (E : Embedder → Prop) (st : DejaDB) : Prop where
  texts : TextOk C E st.db
  embedder : ∀ m, st.embedder = some m → E m

/-- Only embedders of `E` are installed. -/
def Event.Installs (E : Embedder → Prop) : Event → Prop
  | .setEmbedder e => ∀ m, e = some m → E m
  | _ => True

theorem Idle.textsOk {a b : DejaDB} (h : Idle a b) (hok : a.TextsOk C E) : b.TextsOk C E where
  texts := by
    refine hok.texts.congr ?_ ?_ ?_ ?_ h.vocab.subset <;> rw [h.file]
  embedder := by
    rw [h.rest]
    exact hok.embedder

theorem Commit.embedder {ev : Event} {a b : DejaDB} (h : Commit C ev a b) :
    b.embedder = a.embedder ∨ (∃ e, ev = .setEmbedder e ∧ b.embedder = e) ∨
      b.embedder = none := by
  cases h with
  | setEmbedder => exact .inr (.inl ⟨_, rfl, rfl⟩)
  | reopen => exact .inr (.inr rfl)
  | @forget _ _ _ _ len => cases len <;> exact .inl rfl
  | rebuildText on inline txn =>
    obtain ⟨grains, rows, c, -, -, hlooks, rfl, -, -⟩ := rebuildTextBody_ok txn
    refine .inl ?_
    show c.embedder = _
    rw [hlooks.rest]
  | insert | supersede | merge | erase | scrub | insertBlob | flip | log | defer | undefer =>
    exact .inl rfl

theorem TextOk.supersedeTxn {old : Hash} {row : GrainRow} {pr : GrainPrep} {n : Slots}
    (h : TextOk C E t) (hpr : TextPrep C E t pr) (found : t.grainByHash old = some row)
    (htxn : t.supersedeTxn old row.key pr n = .ok t') : TextOk C E t' := by
  obtain ⟨-, t₁, hins, rfl⟩ := Tables.supersedeTxn_ok found htxn
  have hflip := (((h.insertPreppedOne hpr hins).markSuperseded row.seq pr.hash n.now).markSupersedes
    pr.hash old).clearCur row.seq
  exact (hflip.sameButHeads (Tables.retireTip_frame _ row.key row.seq)).congr rfl rfl rfl rfl
    (List.Subset.refl _)

theorem TextOk.mergeTxn {tips : List Hash} {pr : GrainPrep} {n : Slots} (h : TextOk C E t)
    (hpr : TextPrep C E t pr) (htxn : t.mergeTxn tips pr n = .ok t') : TextOk C E t' := by
  obtain ⟨t₁, hins, rfl⟩ := Tables.mergeTxn_ok htxn
  exact ((h.insertPreppedOne hpr hins).closeTips tips pr.hash n.now).congr rfl rfl rfl rfl
    (List.Subset.refl _)

theorem TextOk.forgetTxn {hash : Hash} {row : GrainRow} {op hlc : ℤ} {len : Option ℤ}
    (h : TextOk C E t) (found : t.grainByHash hash = some row)
    (htxn : t.forgetTxn hash row.key op hlc = .ok (len, t')) : TextOk C E t' := by
  obtain ⟨-, rfl⟩ := Tables.forgetTxn_ok found htxn
  exact ((h.deleteSeq row.seq).sameButHeads (Tables.retireTip_frame _ row.key row.seq)).congr
    rfl rfl rfl rfl (List.Subset.refl _)

theorem TextOk.insertBlobTxn {pr : GrainPrep} {seq op hlc : ℤ} {kind : OpKind}
    (h : TextOk C E t) (hpr : TextPrep C E t pr)
    (htxn : t.insertBlobTxn pr seq op hlc kind = .ok t') : TextOk C E t' := by
  obtain ⟨hins, -, -, hpost, hdoc, -, -⟩ := Tables.insertBlobTxn_ok htxn
  exact h.insert hpr hins.grains (fun x hx => .inl (by rw [← hpost]; exact hx))
    (fun d hd => .inl (by rw [← hdoc]; exact hd)) (Tables.insertBlobTxn_embeddings htxn)
    hins.ftsVocab

theorem Commit.texts {ev : Event} {a b : DejaDB} (h : Commit C ev a b) (hvocab : VocabOk a)
    (hok : a.TextsOk C E) : TextOk C E b.db := by
  have hprep : ∀ pr ∈ ev.preps, TextPrep C E a.db pr := fun pr hpr => by
    obtain ⟨view, hv⟩ := h.prepared pr hpr
    exact hv.textPrep hok.embedder
  cases h with
  | insert prepared txn => exact hok.texts.insertPrepped hprep txn
  | supersede written prepared found txn =>
    exact hok.texts.supersedeTxn (hprep _ (List.mem_singleton_self _)) found txn
  | merge written prepared tips txn =>
    exact hok.texts.mergeTxn (hprep _ (List.mem_singleton_self _)) txn
  | forget found txn =>
    rw [DejaDB.droppedDoc_db]
    exact hok.texts.forgetTxn found txn
  | erase txn => exact hok.texts.eraseTxn txn
  | scrub txn =>
    refine hok.texts.congr ?_ ?_ ?_ ?_ ?_ <;> simp only [DejaDB.evicted, DejaDB.dropped] <;>
      rw [(Tables.scrubTerms_ok txn).file]
    exact List.Subset.refl _
  | insertBlob prepared txn =>
    exact hok.texts.insertBlobTxn (hprep _ (List.mem_singleton_self _)) txn
  | flip => exact hok.texts.flipTxn _ _ _
  | log txn =>
    obtain ⟨rfl, -⟩ := Tables.insertOp_ok txn
    exact hok.texts.congr rfl rfl rfl rfl (List.Subset.refl _)
  | @rebuildText _ b _ _ _ on inline txn =>
    have := hok.texts.rebuildTextBody hvocab txn
    exact this
  | reopen => exact hok.texts.congr rfl rfl rfl rfl (List.Subset.refl _)
  | defer | undefer | setEmbedder => exact hok.texts

/-- **Every commit keeps the text tables right**, whatever the embedder. -/
theorem Commit.textsOk {ev : Event} {a b : DejaDB} (h : Commit C ev a b) (hvocab : VocabOk a)
    (hE : ev.Installs E) (hok : a.TextsOk C E) : b.TextsOk C E where
  texts := h.texts hvocab hok
  embedder m hm := by
    rcases h.embedder with he | ⟨e, rfl, he⟩ | he
    · exact hok.embedder m (by rw [← he]; exact hm)
    · exact hE m (by rw [← he]; exact hm)
    · rw [he] at hm
      cases hm

theorem createStore_textsOk (C : Core G) (E : Embedder → Prop) (explicit : Option DejaDbOptions)
    (clock : ℕ → ℤ) : (createStore C explicit clock).TextsOk C E := by
  rw [createStore_eq]
  refine ⟨⟨?_, ?_, ?_, ?_⟩, fun m hm => nomatch hm⟩ <;> exact List.forall_mem_nil _

/-- In every reachable state the text tables come from the stored blobs. -/
theorem Reachable.textOk {st : DejaDB} (h : Reachable C st) : TextOk C (fun _ => True) st.db := by
  obtain ⟨explicit, clock, ops, rfl⟩ := h
  refine (run_keeps (I := fun st => st.TextsOk C fun _ => True)
    (fun _ _ _ hidle hI => hidle.textsOk hI) (fun ev _ _ hgood _ hcommit hI =>
      hcommit.textsOk hgood.vocabOk ?_ hI) (createStore_textsOk C _ explicit clock)
    (meets_true _ ops)).2.texts
  cases ev with
  | setEmbedder e => exact fun _ _ => trivial
  | insert | supersede | merge | forget | erase | scrub | insertBlob | flip | log | defer
  | undefer | rebuildText | reopen => trivial

end Deja
