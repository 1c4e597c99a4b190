import Deja.Spec.Texts

/-!
# What a bulk erasure does

`selectIdentity` answers the same grains whoever asks: `Tables.Selects` is the
selection as a property of the file, and `selectIdentity_ok` says that a call
computes it.

`Tables.Wiped` is the file after an erasure that went through: the selected
grains are gone with their rows, terms nothing uses any more are replaced by
placeholders, tokens without a posting are dropped, and everything else is as
before (`eraseWhere_ok`).
-/

namespace Deja

open Run

variable {G : Type} {C : Core G}

/-! ## The selection -/

namespace Tables

variable (t : Tables)

/-- The text indexed for the grain at `seq` has the token. -/
def Mentions (nsId : ℤ) (token : String) (seq : ℤ) : Prop :=
  ∃ x ∈ t.ftsPost, x.seq = seq ∧ x.ns = nsId ∧ ⟨x.term, token⟩ ∈ t.ftsVocab

/-- A row of the grain at `seq` references one of the ids as subject, object,
session or run. -/
def References (nsId : ℤ) (ids : List ℤ) (seq : ℤ) : Prop :=
  (∃ x ∈ t.triples, x.seq = seq ∧ x.ns = nsId ∧ (x.s ∈ ids ∨ x.o ∈ ids)) ∨
    (∃ x ∈ t.threadIdx, x.seq = seq ∧ x.ns = nsId ∧ x.session ∈ ids) ∨
    ∃ x ∈ t.runIdx, x.seq = seq ∧ x.ns = nsId ∧ x.run ∈ ids

/-- An identity selects the grain at `seq`. -/
def Selects (C : Core G) (nsId : ℤ) (subject : String) (textMentions : Bool) (seq : ℤ) : Prop :=
  t.References nsId (t.identityIds C subject) seq ∨
    textMentions ∧ (tokenize C subject).dedup ≠ [] ∧
      ∀ token ∈ (tokenize C subject).dedup, t.Mentions nsId token seq

variable {t}

theorem mem_identitySeqs {nsId : ℤ} {ids : List ℤ} {seq : ℤ} :
    seq ∈ t.identitySeqs nsId ids ↔ t.References nsId ids seq := by
  simp only [identitySeqs, References, List.mem_append, List.mem_map, List.mem_filter,
    decide_eq_true_eq]
  constructor
  · rintro ((⟨x, ⟨hx, hns, hid⟩, rfl⟩ | ⟨x, ⟨hx, hns, hid⟩, rfl⟩) | ⟨x, ⟨hx, hns, hid⟩, rfl⟩)
    · exact .inl ⟨x, hx, rfl, hns, hid⟩
    · exact .inr (.inl ⟨x, hx, rfl, hns, hid⟩)
    · exact .inr (.inr ⟨x, hx, rfl, hns, hid⟩)
  · rintro (⟨x, hx, rfl, hns, hid⟩ | ⟨x, hx, rfl, hns, hid⟩ | ⟨x, hx, rfl, hns, hid⟩)
    · exact .inl (.inl ⟨x, ⟨hx, hns, hid⟩, rfl⟩)
    · exact .inl (.inr ⟨x, ⟨hx, hns, hid⟩, rfl⟩)
    · exact .inr ⟨x, ⟨hx, hns, hid⟩, rfl⟩

theorem not_references_nil {nsId seq : ℤ} : ¬t.References nsId [] seq := by
  rintro (⟨x, -, -, -, hid⟩ | ⟨x, -, -, -, hid⟩ | ⟨x, -, -, -, hid⟩) <;> simp at hid

theorem mem_identityIds {subject : String} {id : ℤ} :
    id ∈ t.identityIds C subject ↔ ∃ r ∈ t.terms, r.id = id ∧ namesIdentity C subject r.term := by
  simp only [identityIds, List.mem_map, List.mem_filter]
  exact ⟨fun ⟨r, ⟨hr, hn⟩, hid⟩ => ⟨r, hr, hid, hn⟩, fun ⟨r, hr, hid, hn⟩ => ⟨r, ⟨hr, hn⟩, hid⟩⟩

/-- The grains of a namespace under one token, given its id. -/
def tokenSeqs (t : Tables) (nsId : ℤ) : Option ℤ → List ℤ
  | some id => (t.ftsPost.filter fun r => r.term = id ∧ r.ns = nsId).map PostRow.seq
  | none => []

theorem mem_tokenSeqs (hs : (t.ftsVocab.map TermRow.term).Nodup) (nsId : ℤ) (token : String)
    (seq : ℤ) :
    seq ∈ t.tokenSeqs nsId (t.vocabId token) ↔ t.Mentions nsId token seq := by
  cases hv : t.vocabId token with
  | none =>
    simp only [tokenSeqs, List.not_mem_nil, false_iff]
    rintro ⟨x, -, -, -, hrow⟩
    cases hv.symm.trans (vocabId_of_mem hs hrow)
  | some id =>
    simp only [tokenSeqs, List.mem_map, List.mem_filter, decide_eq_true_eq]
    constructor
    · rintro ⟨x, ⟨hx, rfl, hns⟩, hseq⟩
      exact ⟨x, hx, hseq, hns, vocabId_some hv⟩
    · rintro ⟨x, hx, hseq, hns, hrow⟩
      have hid : some x.term = some id := (vocabId_of_mem hs hrow).symm.trans hv
      exact ⟨x, ⟨hx, Option.some_inj.1 hid, hns⟩, hseq⟩

end Tables

theorem mentioning_ok {nsId : ℤ} {ts : List String} {a b : DejaDB} {seqs : List ℤ}
    (hok : VocabOk a) (h : mentioning nsId ts a = .ok seqs b) (s : ℤ) :
    s ∈ seqs ↔ ts ≠ [] ∧ ∀ t ∈ ts, a.db.Mentions nsId t s := by
  induction ts generalizing a b seqs with
  | nil =>
    obtain ⟨rfl, -⟩ := pure_eq_ok.1 h
    simp
  | cons t ts ih =>
    obtain ⟨id, a₁, hid, h₁⟩ := bind_eq_ok.1 h
    obtain ⟨a₂, a₃, hget, h₂⟩ := bind_eq_ok.1 h₁
    cases hget
    have hlooks := (leads_looks_ftsTermLookup t).of_ok hid
    have hdb : a₁.db = a.db := by rw [hlooks.rest]
    have hseqs := Tables.mem_tokenSeqs hok.strings nsId t s
    rw [← ftsTermLookup_ok hok hid, ← hdb] at hseqs
    cases ts with
    | nil =>
      obtain ⟨rfl, -⟩ := pure_eq_ok.1 h₂
      refine Iff.trans hseqs ?_
      simp [hdb]
    | cons t' ts =>
      simp only at h₂
      split_ifs at h₂ with hempty
      · obtain ⟨rfl, -⟩ := pure_eq_ok.1 h₂
        have hnil : a₁.db.tokenSeqs nsId id = [] := List.isEmpty_iff.1 hempty
        have hnone : ¬a₁.db.Mentions nsId t s := fun hm => by
          have hmem := hseqs.2 hm
          rw [hnil] at hmem
          cases hmem
        rw [hdb] at hnone
        simp [hnone]
      · obtain ⟨rest, a₄, hrest, h₃⟩ := bind_eq_ok.1 h₂
        obtain ⟨rfl, -⟩ := pure_eq_ok.1 h₃
        have ih := ih (hlooks.vocabOk hok) hrest
        rw [List.mem_filter, decide_eq_true_eq]
        show s ∈ a₁.db.tokenSeqs nsId id ∧ _ ↔ _
        rw [hseqs, ih, hdb]
        simp

/-- **The selection, whoever asks.**  `select_identity` answers the dictionary
ids of the identity and the grains it selects, and only warms the vocabulary
cache. -/
theorem selectIdentity_ok {nsId : ℤ} {subject : String} {textMentions : Bool} {a b : DejaDB}
    {ids seqs : List ℤ} (hok : VocabOk a)
    (h : selectIdentity C nsId subject textMentions a = .ok (ids, seqs) b) :
    ids = a.db.identityIds C subject ∧
      ∀ s, s ∈ seqs ↔ a.db.Selects C nsId subject textMentions s := by
  obtain ⟨a₀, a₁, hget, h₁⟩ := bind_eq_ok.1 h
  cases hget
  have hbase : ∀ s, s ∈ (if (a.db.identityIds C subject).isEmpty then []
      else a.db.identitySeqs nsId (a.db.identityIds C subject)) ↔
        a.db.References nsId (a.db.identityIds C subject) s := by
    intro s
    split_ifs with hempty
    · rw [List.isEmpty_iff.1 hempty]
      exact ⟨(fun hs => nomatch hs), fun hs => absurd hs Tables.not_references_nil⟩
    · exact Tables.mem_identitySeqs
  cases textMentions with
  | false =>
    obtain ⟨heq, -⟩ := pure_eq_ok.1 h₁
    cases heq
    refine ⟨rfl, fun s => (hbase s).trans ?_⟩
    simp [Tables.Selects]
  | true =>
    obtain ⟨mentioned, a₂, hm, h₂⟩ := bind_eq_ok.1 h₁
    obtain ⟨heq, -⟩ := pure_eq_ok.1 h₂
    cases heq
    refine ⟨rfl, fun s => ?_⟩
    rw [List.mem_append, hbase, mentioning_ok hok hm s]
    simp [Tables.Selects]

theorem mentioning_total (nsId : ℤ) (ts : List String) (a : DejaDB) :
    ∃ seqs b, mentioning nsId ts a = .ok seqs b := by
  induction ts generalizing a with
  | nil => exact ⟨_, _, rfl⟩
  | cons t ts ih =>
    obtain ⟨id, b, hb⟩ := ftsTermLookup_total t a
    unfold mentioning
    rw [bind_apply, hb]
    simp only [bind_apply, get_apply]
    cases ts with
    | nil => exact ⟨_, _, rfl⟩
    | cons t' ts =>
      simp only
      split_ifs
      · exact ⟨_, _, rfl⟩
      · obtain ⟨rest, c, hc⟩ := ih b
        rw [bind_apply, hc]
        exact ⟨_, _, rfl⟩

/-- A selection never fails. -/
theorem selectIdentity_total (nsId : ℤ) (subject : String) (textMentions : Bool) (a : DejaDB) :
    ∃ ids seqs b, selectIdentity C nsId subject textMentions a = .ok (ids, seqs) b := by
  unfold selectIdentity
  rw [bind_apply, get_apply]
  cases textMentions with
  | false => exact ⟨_, _, _, rfl⟩
  | true =>
    obtain ⟨seqs, b, hb⟩ := mentioning_total nsId (tokenize C subject).dedup a
    simp only [if_true, bind_apply, hb]
    exact ⟨_, _, _, rfl⟩

/-! ## The scrub -/

theorem scrubRow_of_notMem {gone : List ℤ} {r : TermRow} (h : r.id ∉ gone) :
    Tables.scrubRow gone r = r := by
  rw [Tables.scrubRow, if_neg h]

theorem Tables.scrubTerm_gone {t t' : Tables} {id : ℤ} {gone : Bool}
    (h : t.scrubTerm id = .ok (gone, t')) (hfree : t.termReferenced id = false) {r : TermRow}
    (hr : r ∈ t.terms) (hid : r.id = id) (herased : isErasedTerm r.term = false) : gone = true := by
  unfold scrubTerm at h
  have hany : (t.terms.any fun r => r.id = id ∧ !isErasedTerm r.term) = true :=
    List.any_eq_true.2 ⟨r, hr, by simp [hid, herased]⟩
  rw [if_neg (by simp [hfree]), if_pos hany] at h
  split_ifs at h
  cases h
  rfl

/-- A candidate nothing references is scrubbed, unless its string is a
placeholder already. -/
theorem Tables.scrubTerms_gone {t t' : Tables} {ids gone : List ℤ}
    (h : t.scrubTerms ids = .ok (gone, t')) {id : ℤ} (hmem : id ∈ ids)
    (hfree : t.termReferenced id = false) {r : TermRow} (hr : r ∈ t.terms) (hid : r.id = id)
    (herased : isErasedTerm r.term = false) : id ∈ gone := by
  induction ids generalizing t gone with
  | nil => cases hmem
  | cons x ids ih =>
    obtain ⟨⟨g, t₁⟩, hone, h₁⟩ := except_bind_ok h
    obtain ⟨⟨rest, t₂⟩, hrest, h₂⟩ := except_bind_ok h₁
    cases h₂
    by_cases hx : id = x
    · subst hx
      rw [scrubTerm_gone hone hfree hr hid herased]
      exact List.mem_cons_self
    · have hs := scrubTerm_ok hone
      have hr₁ : r ∈ t₁.terms := by
        rw [hs.file]
        refine List.mem_map.2 ⟨r, hr, scrubRow_of_notMem ?_⟩
        split_ifs <;> simp [hid, hx]
      have hin : id ∈ rest := by
        refine ih hrest ((List.mem_cons.1 hmem).resolve_left hx) ?_ hr₁
        rw [hs.file]
        exact hfree
      split_ifs
      · exact List.mem_cons_of_mem _ hin
      · exact hin

/-! ## The file after an erasure -/

/-- `t'` is `t` after the grains at `dead` were erased, with `ids` among the terms
to scrub and `gone` those that were. -/
structure Tables.Wiped (t : Tables) (dead ids gone : List ℤ) (t' : Tables) : Prop where
  grains : t'.grains = t.grains.filter fun r => r.seq ∉ dead
  triples : t'.triples = t.triples.filter fun r => r.seq ∉ dead
  osp : t'.osp = t.osp.filter fun r => r.seq ∉ dead
  threadIdx : t'.threadIdx = t.threadIdx.filter fun r => r.seq ∉ dead
  runIdx : t'.runIdx = t.runIdx.filter fun r => r.seq ∉ dead
  ftsPost : t'.ftsPost = t.ftsPost.filter fun r => r.seq ∉ dead
  ftsDoc : t'.ftsDoc = t.ftsDoc.filter fun r => r.seq ∉ dead
  terms : t'.terms = t.terms.map (scrubRow gone)
  free : ∀ id ∈ gone, t'.termReferenced id = false
  swept : ∀ id ∈ ids, t'.termReferenced id = false → ∀ r ∈ t.terms, r.id = id →
    isErasedTerm r.term = false → id ∈ gone
  vocab : t'.ftsVocab.Sublist t.ftsVocab
  tokens : ∀ r ∈ t.ftsVocab, (∃ x ∈ t'.ftsPost, x.term = r.id) → r ∈ t'.ftsVocab

theorem filter_notMem_nil {α : Type} (l : List α) (f : α → ℤ) :
    l.filter (fun r => f r ∉ ([] : List ℤ)) = l :=
  List.filter_eq_self.2 fun _ _ => by simp

theorem Tables.Wiped.of_scrub {t t' : Tables} {ids gone : List ℤ}
    (h : t.scrubTerms ids = .ok (gone, t')) : t.Wiped [] ids gone t' := by
  have hs := scrubTerms_ok h
  have hfree := hs.free
  have hswept := fun id hid hf r hr => @scrubTerms_gone _ _ _ _ h id hid hf r hr
  rw [hs.file]
  exact ⟨(filter_notMem_nil _ _).symm, (filter_notMem_nil _ _).symm, (filter_notMem_nil _ _).symm,
    (filter_notMem_nil _ _).symm, (filter_notMem_nil _ _).symm, (filter_notMem_nil _ _).symm,
    (filter_notMem_nil _ _).symm, rfl, hfree, hswept, List.Sublist.refl _, fun r hr _ => hr⟩

theorem Tables.Wiped.of_erase {t t' : Tables} {seqs ids : List ℤ} {op hlc : ℤ} {out : EraseOut}
    (h : t.eraseTxn seqs ids op hlc = .ok (out, t')) :
    t.Wiped ((t.grains.filter fun g => g.seq ∈ seqs).map GrainRow.seq) ids out.scrubbed t' ∧
      out.report.erasedHashes = (t.grains.filter fun g => g.seq ∈ seqs).map fun g =>
        g.hash.toHex := by
  obtain ⟨t₁, htargets, h₁⟩ := except_bind_ok h
  obtain ⟨⟨scrubbed, t₃⟩, hscrub, h₂⟩ := except_bind_ok h₁
  cases h₂
  refine ⟨?_, rfl⟩
  obtain ⟨he, -, -, -, hterms, hvocab⟩ := eraseTargets_ok htargets
  have hframe := reconcile_frame t₁ seqs ((t.grains.filter fun g => g.seq ∈ seqs).filterMap
    GrainRow.key).dedup
  have hs := scrubTerms_ok hscrub
  have hfile := hs.file
  have hfree := hs.free
  have hswept := fun id hid hf r hr => @scrubTerms_gone _ _ _ _ hscrub id hid hf r hr
  unfold SameButHeads at hframe
  unfold sweepVocab at hfile hfree hswept
  rw [hframe] at hfile hfree hswept
  rw [hfile]
  refine ⟨he.grains, he.triples, he.osp, he.threadIdx, he.runIdx, he.ftsPost, he.ftsDoc, ?_, hfree,
    fun id hid hf r hr => hswept id ?_ hf r (by rw [← hterms] at hr; exact hr), ?_,
    fun r hr ⟨x, hx, hxr⟩ => ?_⟩
  · exact congrArg (List.map (scrubRow scrubbed)) hterms
  · refine (List.perm_insertionSort _ _).mem_iff.2 (List.mem_dedup.2 ?_)
    simp only [List.mem_append]
    exact .inl (.inr hid)
  · exact List.filter_sublist.trans (by rw [hvocab])
  · refine List.mem_filter.2 ⟨by rw [hvocab]; exact hr, ?_⟩
    rw [decide_eq_true_eq]
    rintro ⟨-, hall⟩
    have := List.all_eq_true.1 hall x hx
    simp [hxr] at this

theorem Tables.Wiped.refl (t : Tables) : t.Wiped [] [] [] t := .of_scrub rfl

/-- `b` is `a` after the grains at `dead` were erased: the file wiped, the
scrubbed terms evicted from the dictionary cache. -/
structure DejaDB.Erased (a : DejaDB) (dead ids gone : List ℤ) (b : DejaDB) : Prop where
  file : a.db.Wiped dead ids gone b.db
  dict : b.dict = a.dict.filter fun x => x.2 ∉ gone
  indexText : b.indexText = a.indexText
  ftsDeferred : b.ftsDeferred = a.ftsDeferred

theorem DejaDB.Erased.refl (a : DejaDB) : a.Erased [] [] [] a where
  file := .refl a.db
  dict := (List.filter_eq_self.2 fun _ _ => by simp).symm
  indexText := rfl
  ftsDeferred := rfl

/-- The handle after an erasure that went through: the selection, the file, the
dictionary cache and the report. -/
theorem eraseWhere_ok {sel : ErasureSelector} {a b : DejaDB} {rep : ErasureReport}
    (h : eraseWhere C sel a = .ok rep b) :
    ∃ ids seqs s gone, selectTargets C sel a = .ok (ids, seqs) s ∧
      a.Erased ((a.db.grains.filter fun g => g.seq ∈ seqs).map GrainRow.seq) ids gone b ∧
      rep.erasedHashes = (a.db.grains.filter fun g => g.seq ∈ seqs).map fun g => g.hash.toHex := by
  obtain ⟨out, a₁, hbody, h₁⟩ := bind_eq_ok.1 h
  unfold atomically at hbody
  cases hb : eraseBody C sel a with
  | error e s =>
    rw [hb] at hbody
    cases hbody
  | ok out' s' =>
    rw [hb] at hbody
    cases hbody
    obtain ⟨u, a₂, hdrop, h₂⟩ := bind_eq_ok.1 h₁
    rw [dropStats_apply] at hdrop
    cases hdrop
    obtain ⟨u, a₃, hset, h₃⟩ := bind_eq_ok.1 h₂
    rw [modify_apply] at hset
    cases hset
    obtain ⟨rfl, rfl⟩ := pure_eq_ok.1 h₃
    obtain ⟨ids, seqs, s, hsel, hlooks, hcase⟩ := eraseBody_ok hb
    have hdb : s.db = a.db := by rw [hlooks.rest]
    have hdict : s.dict = a.dict := by rw [hlooks.rest]
    have htext : s.indexText = a.indexText := by rw [hlooks.rest]
    have hdef : s.ftsDeferred = a.ftsDeferred := by rw [hlooks.rest]
    refine ⟨ids, seqs, s, out.scrubbed, hsel, ?_⟩
    rw [← hdb]
    rcases hcase with ⟨hemp, gone, t, hscrub, -, -, rfl, -, hrep, rfl⟩ | ⟨-, t, tick, htxn, rfl⟩
    · have hnone : (s.db.grains.filter fun g => g.seq ∈ seqs) = [] := by
        refine List.filter_eq_nil_iff.2 fun g _ => ?_
        rw [List.isEmpty_iff, List.dedup_eq_nil] at hemp
        simp [hemp]
      rw [hnone]
      refine ⟨⟨?_, ?_, htext, hdef⟩, hrep⟩
      · rw [← hdb]
        exact .of_scrub hscrub
      · rw [← hdict]
        rfl
    · obtain ⟨hw, hrep⟩ := Tables.Wiped.of_erase htxn
      simp only [List.mem_dedup] at hw hrep
      refine ⟨⟨?_, ?_, htext, hdef⟩, hrep⟩
      · rw [← hdb]
        exact hw
      · rw [← hdict]
        rfl

end Deja
