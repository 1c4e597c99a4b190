import Deja.Erase.Survivors
import Deja.Index.Posted

/-!
# What a search finds after a reopen

An open rebuilds the BM25 index when no document is indexed and some text is
stored.  The check reads aggregate counts, so a grain written under a deferral
stays out of the index for good once another grain has a document row.

* `DejaDB.finds_iff` — a search finds the texts exactly when every grain with a
  token has a document row.
* `finishOpen_fresh`, `finishOpen_healed` — the two ways an open goes.
* `reopened_finds_iff` — when the reopened store finds every text.
-/

namespace Deja

open Run

variable {G : Type} {C : Core G} {E : Embedder → Prop} {st : DejaDB}

/-! ## Searching by a token -/

/-- The text of the grain has a token. -/
def GrainRow.Worded (C : Core G) (g : GrainRow) : Prop :=
  ∃ s, TextOf C g.blob s ∧ tokenize C s ≠ []

/-- Whether a text has a token is found by projecting it. -/
instance GrainRow.decidableWorded (g : GrainRow) : Decidable (g.Worded C) :=
  decidable_of_iff (((C.deserializeBlob g.blob).toOption.bind (projectedText C)).any
      fun s => !(tokenize C s).isEmpty) <| by
    unfold GrainRow.Worded TextOf
    cases C.deserializeBlob g.blob with
    | error e => simp [Except.toOption]
    | ok view =>
      simp only [Except.toOption, Option.bind_some, Except.ok.injEq, exists_eq_left']
      cases projectedText C view <;> simp

instance Tables.decidableIndexes (t : Tables) (g : GrainRow) : Decidable (t.Indexes g) :=
  inferInstanceAs (Decidable (∃ d ∈ t.ftsDoc, d.seq = g.seq))

/-- A search for any token of its text finds every grain, the superseded ones
among all, and whatever the scores. -/
def DejaDB.FindsTexts (C : Core G) (st : DejaDB) : Prop :=
  ∀ g ∈ st.db.grains, ∀ s, TextOf C g.blob s → ∀ token ∈ tokenize C s,
    ∀ ns, st.termLookup ns = some g.ns → ∀ query, token ∈ tokenize C query →
      ∀ score k all, st.db.grains.length ≤ k → (all = false → g.svt = none) →
        g.seq ∈ st.searchText C score ns query k all

/-- There are no more candidates than grains. -/
theorem rankedSeqs_length_le (htexts : TextOk C E st.db) (score : Scorer) (nsId : ℤ)
    (terms : List String) :
    (st.rankedSeqs score nsId terms).length ≤ st.db.grains.length := by
  have hnodup : (st.rankedSeqs score nsId terms).Nodup :=
    (List.perm_insertionSort _ _).nodup_iff.2 (List.nodup_dedup _)
  have hsub : st.rankedSeqs score nsId terms ⊆ st.db.grains.map GrainRow.seq := by
    intro seq hseq
    obtain ⟨-, d, hd, rfl⟩ := (DejaDB.mem_rankedSeqs score nsId terms seq).1 hseq
    obtain ⟨g, hg, hgs, -⟩ := htexts.doc d hd
    exact List.mem_map.2 ⟨g, hg, hgs⟩
  have hle := (List.subperm_of_subset hnodup hsub).length_le
  rw [List.length_map] at hle
  exact hle

theorem searchText_eq_of_le (htexts : TextOk C E st.db) {score : Scorer} {ns query : String}
    {k : ℕ} {all : Bool} (hk : st.db.grains.length ≤ k) :
    st.searchText C score ns query k all = st.searchHits C score ns query all :=
  DejaDB.searchText_eq_hits fun nsId _ => (rankedSeqs_length_le htexts score nsId _).trans hk

/-- Every grain lies in a namespace with a name. -/
theorem DejaDB.Good.named (h : st.Good C) {g : GrainRow} (hg : g ∈ st.db.grains) :
    ∃ ns, st.termLookup ns = some g.ns := by
  obtain ⟨pr, ⟨view, hview⟩, hof⟩ := h.rowsOk.spelled g hg
  have hns : g.ns = pr.nsId := congrArg GrainRow.ns hof.row
  exact ⟨_, by rw [hns]; exact hview.ns⟩

/-- A covering index finds every text. -/
theorem finds_of_covers (htexts : TextOk C E st.db) (hon : st.indexText = true)
    (h : st.db.Covers C) : st.FindsTexts C := by
  intro g hg s hs token htoken ns hns query hquery score k all hk hall
  rw [searchText_eq_of_le htexts hk, DejaDB.mem_searchHits]
  obtain ⟨⟨x, hx, hxs, hxn, hrow⟩, hdoc⟩ := h g hg s hs token htoken
  refine ⟨hon, ⟨x, hx, hxs, by rw [hxn]; exact hns, token, hquery, hrow⟩, hdoc, fun hlive => ?_⟩
  refine List.any_eq_true.2 ⟨g, hg, ?_⟩
  rw [hall hlive]
  simp

/-- **What a search finds** is what has a document row. -/
theorem DejaDB.finds_iff (hgood : st.Good C) (htexts : TextOk C E st.db)
    (hdocs : st.db.DocsPosted C) (hon : st.indexText = true) :
    st.FindsTexts C ↔ ∀ g ∈ st.db.grains, g.Worded C → st.db.Indexes g := by
  constructor
  · rintro h g hg ⟨s, hs, hne⟩
    obtain ⟨token, htoken⟩ := List.exists_mem_of_ne_nil _ hne
    obtain ⟨ns, hns⟩ := hgood.named hg
    have hfound := h g hg s hs token htoken ns hns s htoken (fun _ _ _ _ _ => 0) _ true le_rfl
      fun h => nomatch h
    rw [searchText_eq_of_le htexts le_rfl, mem_searchHits] at hfound
    exact hfound.2.2.1
  · intro h
    refine finds_of_covers htexts hon fun g hg s hs token htoken => ?_
    have hdoc := h g hg ⟨s, hs, List.ne_nil_of_mem htoken⟩
    exact ⟨hdocs g hg hdoc s hs token htoken, hdoc⟩

/-! ## The text rebuild returns -/

theorem rebuiltRows_total (g : GrainRow) (a : DejaDB) : ∃ y b, rebuiltRows C g a = .ok y b := by
  unfold rebuiltRows
  cases g.text with
  | none => exact ⟨_, _, rfl⟩
  | some s =>
    obtain ⟨posts, b, hposts⟩ := mapM_total (f := fun x : String × ℤ => do
      let id ← ftsTermLookup x.1
      pure (id.map fun id => (⟨id, g.seq, g.ns, x.2⟩ : PostRow))) (fun x a => by
        obtain ⟨id, b, hid⟩ := ftsTermLookup_total x.1 a
        exact ⟨_, b, bind_eq_ok.2 ⟨id, b, hid, rfl⟩⟩) (tokenFreqs C s).1 a
    exact ⟨_, b, bind_eq_ok.2 ⟨posts, b, hposts, rfl⟩⟩

theorem rebuildTextBody_total {a : DejaDB} (htexts : TextOk C E a.db)
    (hdec : ∀ g ∈ a.db.grains, ∃ view, C.deserializeBlob g.blob = .ok view) :
    ∃ out b, rebuildTextBody C a = .ok out b := by
  have hmap : ∃ grains, (a.db.grains.mapM fun g =>
      (rebuildText C g).map fun t => { g with text := t }) = .ok grains := by
    refine except_mapM_total fun g hg => ?_
    obtain ⟨o, ho, -⟩ := rebuildText_spec (hdec g hg) (htexts.column g hg)
    rw [ho]
    exact ⟨_, rfl⟩
  obtain ⟨grains, hgrains⟩ := hmap
  obtain ⟨rows, c, hrows⟩ := mapM_total (rebuiltRows_total (C := C)) grains a
  exact ⟨_, _, bind_eq_ok.2 ⟨a, a, rfl, bind_eq_ok.2 ⟨grains, a, lift_eq_ok.2 ⟨hgrains, rfl⟩,
    bind_eq_ok.2 ⟨rows, c, hrows, rfl⟩⟩⟩⟩

/-- **A rebuild covers every text.** -/
theorem rebuildTextIndex_covers (hgood : st.Good C) (htexts : TextOk C E st.db)
    (hon : st.indexText = true) :
    ∃ n st', rebuildTextIndex C st = .ok n st' ∧ st'.db.Covers C ∧ st'.indexText = true := by
  obtain ⟨a, hwarm, hi, htokens⟩ := warmVocab_spec st.db.grains hgood.vocabOk fun g hg =>
    ⟨hgood.decodes g hg, htexts.column g hg⟩
  have ha : a.db.grains = st.db.grains := by rw [hi.file]
  have htexts' : TextOk C E a.db := by
    refine htexts.congr ?_ ?_ ?_ ?_ hi.vocab.subset <;> rw [hi.file]
  have hdec : ∀ g ∈ a.db.grains, ∃ view, C.deserializeBlob g.blob = .ok view := by
    rw [ha]
    exact hgood.decodes
  have hok : VocabOk { a with ftsDeferred := false } :=
    ⟨(hi.vocabOk hgood.vocabOk).stored, (hi.vocabOk hgood.vocabOk).ids,
      (hi.vocabOk hgood.vocabOk).strings⟩
  obtain ⟨⟨n, docs, len⟩, b, hbody⟩ := rebuildTextBody_total
    (a := { a with ftsDeferred := false }) htexts' hdec
  have hcovers := rebuildTextBody_covers (a := { a with ftsDeferred := false }) htexts' hok hdec
    (fun g hg => htokens g (by rw [← ha]; exact hg)) hbody
  obtain ⟨grains, rows, c, -, -, hlooks, hb, -, -⟩ := rebuildTextBody_ok hbody
  refine ⟨n, { b with ftsDocs := docs, ftsTotalLen := len }, ?_, hcovers, ?_⟩
  · unfold rebuildTextIndex
    refine bind_eq_ok.2 ⟨st, st, rfl, ?_⟩
    rw [hon]
    refine bind_eq_ok.2 ⟨⟨⟩, a, hwarm, bind_eq_ok.2 ⟨⟨⟩, { a with ftsDeferred := false }, rfl, ?_⟩⟩
    refine bind_eq_ok.2 ⟨(n, docs, len), b, ?_, rfl⟩
    unfold atomically
    rw [hbody]
  · show b.indexText = true
    rw [hb]
    show c.indexText = true
    rw [hlooks.rest]
    show a.indexText = true
    rw [hi.rest]
    exact hon

/-! ## The two ways an open goes -/

section Open

variable {explicit : Option DejaDbOptions} {clock : ℕ → ℤ}

/-- An open that finds the text index in order makes the handle anew. -/
theorem finishOpen_fresh (hlink : st.db.info.linkIndex = some linkIndexVersion)
    (hstale : (freshHandle explicit clock st.db).textIndexStale = false) :
    finishOpen C explicit clock st.db = .ok () (freshHandle explicit clock st.db) := by
  have hcur : (freshHandle explicit clock st.db).db.info.linkIndex = some linkIndexVersion := hlink
  unfold finishOpen healIndexes
  refine bind_eq_ok.2 ⟨_, _, rfl, ?_⟩
  simp only [hstale, hcur, ne_eq, not_true_eq_false, if_false, Bool.false_eq_true]
  rfl

/-- An open that finds no document indexed leaves an index that covers the
texts. -/
theorem finishOpen_healed (hgood : st.Good C) (htexts : TextOk C E st.db)
    (hstale : (freshHandle explicit clock st.db).textIndexStale = true) :
    ∃ opened, finishOpen C explicit clock st.db = .ok () opened ∧ opened.db.Covers C ∧
      opened.indexText = true := by
  have hopen : Commit C (.reopen explicit) st (freshHandle explicit clock st.db) := .reopen
  have hon : (freshHandle explicit clock st.db).indexText = true := by
    simp only [DejaDB.textIndexStale, Bool.and_eq_true] at hstale
    exact hstale.1.1
  obtain ⟨n, opened, hrebuild, hcovers, hon'⟩ := rebuildTextIndex_covers (C := C) (E := E)
    (hopen.good hgood) (htexts.congr rfl rfl rfl rfl (List.Subset.refl _)) hon
  have hcur : (freshHandle explicit clock st.db).db.info.linkIndex = some linkIndexVersion :=
    hgood.link
  refine ⟨opened, ?_, hcovers, hon'⟩
  unfold finishOpen healIndexes
  refine bind_eq_ok.2 ⟨_, _, rfl, ?_⟩
  simp only [hstale, hcur, ne_eq, not_true_eq_false, if_false, if_true]
  exact bind_eq_ok.2 ⟨n, opened, hrebuild, rfl⟩

theorem textIndexStale_iff (hon : (st.db.info.resolve explicit).indexText = true) :
    (freshHandle explicit clock st.db).textIndexStale = true ↔
      st.db.ftsDoc = [] ∧ ∃ g ∈ st.db.grains, g.text.isSome := by
  have hfresh : (freshHandle explicit clock st.db).indexText = true := hon
  have hdocs : (freshHandle explicit clock st.db).ftsDocs = (st.db.ftsDoc.length : ℤ) := rfl
  have hgrains : (freshHandle explicit clock st.db).db.grains = st.db.grains := rfl
  simp only [DejaDB.textIndexStale, hfresh, hdocs, hgrains, Bool.true_and, Bool.and_eq_true,
    decide_eq_true_eq, Nat.cast_eq_zero, List.length_eq_zero_iff, List.countP_pos_iff]
  exact and_comm

end Open

/-! ## After a reopen -/

theorem Reachable.reopened (h : Reachable C st) {explicit : Option DejaDbOptions} {clock : ℕ → ℤ}
    {opened : DejaDB} (hopened : finishOpen C explicit clock st.db = .ok () opened) :
    Reachable C opened := by
  have heq : st.step C (.reopen explicit clock) = opened := after_of_ok hopened
  rw [← heq]
  exact h.steps [.reopen explicit clock]

/-- An open that keeps the text index finds what has a document row already. -/
theorem reopened_kept (h : Reachable C st) {explicit : Option DejaDbOptions} {clock : ℕ → ℤ}
    (hon : (st.db.info.resolve explicit).indexText = true)
    (hkept : ¬ (st.db.ftsDoc = [] ∧ ∃ g ∈ st.db.grains, g.text.isSome)) {opened : DejaDB}
    (hopened : finishOpen C explicit clock st.db = .ok () opened) :
    opened.FindsTexts C ↔ ∀ g ∈ st.db.grains, g.Worded C → st.db.Indexes g := by
  have hstale : (freshHandle explicit clock st.db).textIndexStale = false := by
    rw [Bool.eq_false_iff, Ne, textIndexStale_iff hon]
    exact hkept
  have hfresh := finishOpen_fresh (C := C) h.good.link hstale
  rw [hfresh] at hopened
  cases hopened
  have hreach := h.reopened hfresh
  exact DejaDB.finds_iff hreach.good hreach.textOk hreach.docsPosted hon

/-- **When a reopened store finds every text**: when the file it opens has no
document row at all and some text stored, or has one for every grain with a
token. -/
theorem reopened_finds_iff (h : Reachable C st) {explicit : Option DejaDbOptions} {clock : ℕ → ℤ}
    (hon : (st.db.info.resolve explicit).indexText = true) :
    ∃ opened, finishOpen C explicit clock st.db = .ok () opened ∧
      (opened.FindsTexts C ↔
        (st.db.ftsDoc = [] ∧ ∃ g ∈ st.db.grains, g.text.isSome) ∨
          ∀ g ∈ st.db.grains, g.Worded C → st.db.Indexes g) := by
  by_cases hempty : st.db.ftsDoc = [] ∧ ∃ g ∈ st.db.grains, g.text.isSome
  · have hstale : (freshHandle explicit clock st.db).textIndexStale = true :=
      (textIndexStale_iff hon).2 hempty
    obtain ⟨opened, hopened, hcovers, hon'⟩ := finishOpen_healed h.good h.textOk hstale
    refine ⟨opened, hopened, fun _ => .inl hempty, fun _ => ?_⟩
    exact finds_of_covers (h.reopened hopened).textOk hon' hcovers
  · have hstale : (freshHandle explicit clock st.db).textIndexStale = false := by
      rw [Bool.eq_false_iff, Ne, textIndexStale_iff hon]
      exact hempty
    have hopened := finishOpen_fresh (C := C) h.good.link hstale
    refine ⟨_, hopened, ?_⟩
    rw [reopened_kept h hon hempty hopened, or_iff_right hempty]

/-- A file whose every grain was written under a deferral. -/
def deferred : DejaDB := sampleStore.steps sampleCore
  [.deferTextIndex, .add (sampleFact 1 5 1 2 3)]

/-- Its grains are all found after the open. -/
theorem reopened_finds_deferred : ∃ opened,
    finishOpen sampleCore none (fun _ => 9) deferred.db = .ok () opened ∧
      opened.FindsTexts sampleCore := by
  have hreach : Reachable sampleCore deferred := sampleStore_reachable.steps _
  have hon : (deferred.db.info.resolve none).indexText = true := by decide +kernel
  have hempty : deferred.db.ftsDoc = [] ∧ ∃ g ∈ deferred.db.grains, g.text.isSome := by
    decide +kernel
  obtain ⟨opened, hopened, hiff⟩ := reopened_finds_iff hreach hon
  exact ⟨opened, hopened, hiff.2 (.inl hempty)⟩

/-- A grain written before a deferral and one written under it. -/
def halfIndexed : DejaDB := sampleStore.steps sampleCore
  [.add (sampleFact 1 5 1 2 3), .deferTextIndex, .add (sampleFact 2 5 4 5 6)]

/-- The grain written under the deferral is not found after the open. -/
theorem deferral_leaves_gap :
    ¬ ∀ (st : DejaDB) (explicit : Option DejaDbOptions) (clock : ℕ → ℤ),
      Reachable sampleCore st → (st.db.info.resolve explicit).indexText = true →
        ∃ opened, finishOpen sampleCore explicit clock st.db = .ok () opened ∧
          opened.FindsTexts sampleCore := by
  intro h
  have hreach : Reachable sampleCore halfIndexed := sampleStore_reachable.steps _
  have hon : (halfIndexed.db.info.resolve none).indexText = true := by decide +kernel
  have hdocs : halfIndexed.db.ftsDoc ≠ [] := by decide +kernel
  have hgap : ¬ ∀ g ∈ halfIndexed.db.grains, g.Worded sampleCore → halfIndexed.db.Indexes g := by
    decide +kernel
  obtain ⟨opened, hopened, hfinds⟩ := h halfIndexed none (fun _ => 9) hreach hon
  exact hgap ((reopened_kept hreach hon (fun h => hdocs h.1) hopened).1 hfinds)

end Deja
