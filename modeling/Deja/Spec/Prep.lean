import Deja.Store.Prep

/-!
# What preparing a grain does

Preparation interns terms and tokens and reads the clock, nothing else:
`Interns` says so, and it is what every program of the preparation moves the
handle along.  `Prepared` says what the result is: the fields of the blob, under
the ids the dictionaries give them.
-/

namespace Deja

variable {G : Type} {C : Core G}

/-! ## The dictionaries -/

/-- The dictionary cache and the `terms` table agree: cached pairs are rows, ids
and terms are unique, and the next id is fresh. -/
structure DictOk (st : DejaDB) : Prop where
  keys : (st.dict.map Prod.fst).Nodup
  stored : ∀ x id, st.dict.lookup x = some id → ⟨id, x⟩ ∈ st.db.terms
  ids : (st.db.terms.map TermRow.id).Nodup
  strings : (st.db.terms.map TermRow.term).Nodup
  below : ∀ r ∈ st.db.terms, r.id < st.nextTerm

/-- The vocabulary cache and the `fts_vocab` table agree. -/
structure VocabOk (st : DejaDB) : Prop where
  stored : ∀ x id, st.ftsVocab.lookup x = some id → ⟨id, x⟩ ∈ st.db.ftsVocab
  ids : (st.db.ftsVocab.map TermRow.id).Nodup
  strings : (st.db.ftsVocab.map TermRow.term).Nodup

/-- Two rows with one id are one row. -/
theorem row_eq_of_id {rows : List TermRow} (h : (rows.map TermRow.id).Nodup) {a b : TermRow}
    (ha : a ∈ rows) (hb : b ∈ rows) (hab : a.id = b.id) : a = b :=
  List.inj_on_of_nodup_map h ha hb hab

/-- Two rows with one term are one row. -/
theorem row_eq_of_term {rows : List TermRow} (h : (rows.map TermRow.term).Nodup) {a b : TermRow}
    (ha : a ∈ rows) (hb : b ∈ rows) (hab : a.term = b.term) : a = b :=
  List.inj_on_of_nodup_map h ha hb hab

/-- Different terms have different ids. -/
theorem DictOk.injective {st : DejaDB} (h : DictOk st) {x y : String} {id : ℤ}
    (hx : st.dict.lookup x = some id) (hy : st.dict.lookup y = some id) : x = y :=
  congrArg TermRow.term (row_eq_of_id h.ids (h.stored x id hx) (h.stored y id hy) rfl)

/-! ## Interning -/

/-- `st'` is `st` after interning: terms and tokens were appended, the caches
kept what they had, the clock moved, and the dictionaries still agree. -/
structure Interns (st st' : DejaDB) : Prop where
  terms : st.db.terms <+: st'.db.terms
  vocab : st.db.ftsVocab <+: st'.db.ftsVocab
  file : st'.db = { st.db with terms := st'.db.terms, ftsVocab := st'.db.ftsVocab }
  dict : ∀ x id, st.dict.lookup x = some id → st'.dict.lookup x = some id
  cache : ∀ x id, st.ftsVocab.lookup x = some id → st'.ftsVocab.lookup x = some id
  rest : st' = { st with
    db := st'.db
    dict := st'.dict
    nextTerm := st'.nextTerm
    ftsVocab := st'.ftsVocab
    tick := st'.tick }
  dictOk : DictOk st → DictOk st'
  vocabOk : VocabOk st → VocabOk st'

namespace Interns

theorem refl (st : DejaDB) : Interns st st where
  terms := List.prefix_refl _
  vocab := List.prefix_refl _
  file := rfl
  dict _ _ h := h
  cache _ _ h := h
  rest := rfl
  dictOk h := h
  vocabOk h := h

theorem trans {a b c : DejaDB} (hab : Interns a b) (hbc : Interns b c) : Interns a c where
  terms := hab.terms.trans hbc.terms
  vocab := hab.vocab.trans hbc.vocab
  file := by rw [hbc.file, hab.file]
  dict x id h := hbc.dict x id (hab.dict x id h)
  cache x id h := hbc.cache x id (hab.cache x id h)
  rest := by rw [hbc.rest, hab.rest]
  dictOk h := hbc.dictOk (hab.dictOk h)
  vocabOk h := hbc.vocabOk (hab.vocabOk h)

instance : Std.Refl Interns := ⟨refl⟩

instance : IsTrans DejaDB Interns := ⟨fun _ _ _ => trans⟩

/-- A clock reading interns nothing. -/
theorem of_tick (st : DejaDB) (n : ℕ) : Interns st { st with tick := n } where
  terms := List.prefix_refl _
  vocab := List.prefix_refl _
  file := rfl
  dict _ _ h := h
  cache _ _ h := h
  rest := rfl
  dictOk h := ⟨h.keys, h.stored, h.ids, h.strings, h.below⟩
  vocabOk h := ⟨h.stored, h.ids, h.strings⟩

end Interns

open Run

theorem leads_nowMs : Leads Interns nowMs := fun st => Interns.of_tick st (st.tick + 1)

theorem insertTerm_ok {t t' : Tables} {r : TermRow} (h : t.insertTerm r = .ok t') :
    t' = { t with terms := t.terms ++ [r] } ∧ (∀ x ∈ t.terms, x.id ≠ r.id) ∧
      ∀ x ∈ t.terms, x.term ≠ r.term := by
  unfold Tables.insertTerm at h
  split_ifs at h with hid hterm
  cases h
  refine ⟨rfl, fun x hx => ?_, fun x hx => ?_⟩
  · intro heq
    exact hid (List.any_eq_true.2 ⟨x, hx, by simpa using heq⟩)
  · intro heq
    exact hterm (List.any_eq_true.2 ⟨x, hx, by simpa using heq⟩)

theorem termId_spec (term : String) (st : DejaDB) :
    (∃ st', termId term st = .ok st.nextTerm st' ∧ st.dict.lookup term = none ∧
      st' = { st with
        db := { st.db with terms := st.db.terms ++ [⟨st.nextTerm, term⟩] }
        dict := Assoc.insert term st.nextTerm st.dict
        nextTerm := st.nextTerm + 1 } ∧ (∀ x ∈ st.db.terms, x.term ≠ term)) ∨
    (∃ id, termId term st = .ok id st ∧ st.dict.lookup term = some id) ∨
    (∃ e, termId term st = .error e { st with nextTerm := st.nextTerm + 1 }) := by
  unfold termId
  cases hd : st.dict.lookup term with
  | some id => exact .inr (.inl ⟨id, rfl, rfl⟩)
  | none =>
    cases hi : st.db.insertTerm ⟨st.nextTerm, term⟩ with
    | error e => exact .inr (.inr ⟨e, by simp [hi]⟩)
    | ok db =>
      obtain ⟨rfl, -, hterm⟩ := insertTerm_ok hi
      exact .inl ⟨_, by simp only [hi], rfl, rfl, hterm⟩

theorem leads_termId (term : String) : Leads Interns (termId term) := by
  intro st
  rcases termId_spec term st with ⟨st', h, hd, rfl, hterm⟩ | ⟨id, h, -⟩ | ⟨e, h⟩
  · rw [after_of_ok h]
    refine ⟨List.prefix_append _ _, List.prefix_refl _, rfl, fun x id hx => ?_, fun _ _ h => h,
      rfl, fun hok => ⟨Assoc.nodup_keys_insert hok.keys, fun x id hx => ?_, ?_, ?_,
      fun r hr => ?_⟩, fun h => ⟨h.1, h.2, h.3⟩⟩
    · have hne : x ≠ term := by
        rintro rfl
        rw [hd] at hx
        cases hx
      rw [Assoc.lookup_insert_of_ne hne, hx]
    · rw [Assoc.lookup_insert] at hx
      split_ifs at hx with hxt
      · cases hx
        subst hxt
        simp
      · exact List.mem_append_left _ (hok.stored x id hx)
    · rw [List.map_append, List.nodup_append]
      refine ⟨hok.ids, List.nodup_singleton _, fun a ha b hb => ?_⟩
      obtain ⟨r, hr, rfl⟩ := List.mem_map.1 ha
      rw [List.map_singleton, List.mem_singleton] at hb
      rw [hb]
      exact (hok.below r hr).ne
    · rw [List.map_append, List.nodup_append]
      refine ⟨hok.strings, List.nodup_singleton _, fun a ha b hb => ?_⟩
      obtain ⟨r, hr, rfl⟩ := List.mem_map.1 ha
      rw [List.map_singleton, List.mem_singleton] at hb
      rw [hb]
      exact hterm r hr
    · rcases List.mem_append.1 hr with hr | hr
      · have := hok.below r hr
        show r.id < st.nextTerm + 1
        omega
      · rw [List.mem_singleton.1 hr]
        show st.nextTerm < st.nextTerm + 1
        omega
  · rw [after_of_ok h]
    exact Interns.refl st
  · rw [after_of_error h]
    refine ⟨List.prefix_refl _, List.prefix_refl _, rfl, fun _ _ h => h, fun _ _ h => h, rfl,
      fun hok => ⟨hok.keys, hok.stored, hok.ids, hok.strings, fun r hr => ?_⟩,
      fun h => ⟨h.1, h.2, h.3⟩⟩
    have := hok.below r hr
    show r.id < st.nextTerm + 1
    omega

/-- An interned term has the id it was answered. -/
theorem termId_ok {term : String} {st st' : DejaDB} {id : ℤ} (h : termId term st = .ok id st') :
    st'.dict.lookup term = some id := by
  rcases termId_spec term st with ⟨st₁, h₁, -, rfl, -⟩ | ⟨id₁, h₁, hd⟩ | ⟨e, h₁⟩
  · rw [h₁] at h
    cases h
    exact Assoc.lookup_insert_self _ _ _
  · rw [h₁] at h
    cases h
    exact hd
  · rw [h₁] at h
    cases h

/-! ## The vocabulary -/

theorem vocabId_some {t : Tables} {term : String} {id : ℤ} (h : t.vocabId term = some id) :
    ⟨id, term⟩ ∈ t.ftsVocab := by
  unfold Tables.vocabId at h
  obtain ⟨r, hr, rfl⟩ := Option.map_eq_some_iff.1 h
  have hterm : r.term = term := by simpa using List.find?_some hr
  subst hterm
  exact List.mem_of_find?_eq_some hr

theorem vocabId_of_mem {t : Tables} {r : TermRow} (hs : (t.ftsVocab.map TermRow.term).Nodup)
    (h : r ∈ t.ftsVocab) : t.vocabId r.term = some r.id := by
  unfold Tables.vocabId
  cases hf : t.ftsVocab.find? fun x => x.term = r.term with
  | none => exact absurd (List.find?_eq_none.1 hf r h) (by simp)
  | some x =>
    have hx : x.term = r.term := by simpa using List.find?_some hf
    rw [row_eq_of_term hs (List.mem_of_find?_eq_some hf) h hx]
    rfl

theorem internVocab_mem (t : Tables) (term : String) :
    ∃ r ∈ (t.internVocab term).ftsVocab, r.term = term := by
  unfold Tables.internVocab
  split_ifs with h
  · simpa using h
  · exact ⟨_, List.mem_append_right _ (List.mem_singleton_self _), rfl⟩

theorem le_foldl_max {l : List ℤ} {a : ℤ} : a ≤ l.foldl max a ∧ ∀ x ∈ l, x ≤ l.foldl max a := by
  induction l generalizing a with
  | nil => exact ⟨le_refl a, by simp⟩
  | cons y l ih =>
    rw [List.foldl_cons]
    obtain ⟨h1, h2⟩ := ih (a := max a y)
    refine ⟨le_trans (le_max_left a y) h1, fun x hx => ?_⟩
    rcases List.mem_cons.1 hx with rfl | hx
    · exact le_trans (le_max_right a x) h1
    · exact h2 x hx

theorem internVocab_interns (st : DejaDB) (term : String) :
    Interns st { st with db := st.db.internVocab term } := by
  unfold Tables.internVocab
  split_ifs with h
  · exact Interns.refl st
  · refine ⟨List.prefix_refl _, List.prefix_append _ _, rfl, fun _ _ h => h, fun _ _ h => h, rfl,
      fun hok => ⟨hok.keys, hok.stored, hok.ids, hok.strings, hok.below⟩, fun hok => ⟨?_, ?_, ?_⟩⟩
    · exact fun x id hx => List.mem_append_left _ (hok.stored x id hx)
    · rw [List.map_append, List.nodup_append]
      refine ⟨hok.ids, List.nodup_singleton _, fun a ha b hb => ?_⟩
      rw [List.map_singleton, List.mem_singleton] at hb
      subst hb
      exact (Int.lt_add_one_of_le (le_foldl_max.2 a ha)).ne
    · rw [List.map_append, List.nodup_append]
      refine ⟨hok.strings, List.nodup_singleton _, fun a ha b hb => ?_⟩
      obtain ⟨r, hr, rfl⟩ := List.mem_map.1 ha
      rw [List.map_singleton, List.mem_singleton] at hb
      subst hb
      intro heq
      exact h (List.any_eq_true.2 ⟨r, hr, by simpa using heq⟩)

/-- Caching a pair that is a row of the table. -/
theorem cacheVocab_interns {st : DejaDB} {term : String} {id : ℤ}
    (hc : st.ftsVocab.lookup term = none) (hid : ⟨id, term⟩ ∈ st.db.ftsVocab) :
    Interns st { st with ftsVocab := Assoc.insert term id st.ftsVocab } := by
  refine ⟨List.prefix_refl _, List.prefix_refl _, rfl, fun _ _ h => h, fun x i hx => ?_, rfl,
    fun hok => ⟨hok.keys, hok.stored, hok.ids, hok.strings, hok.below⟩,
    fun hok => ⟨fun x i hx => ?_, hok.ids, hok.strings⟩⟩
  · have hne : x ≠ term := by
      rintro rfl
      rw [hc] at hx
      cases hx
    rw [Assoc.lookup_insert_of_ne hne, hx]
  · rw [Assoc.lookup_insert] at hx
    split_ifs at hx with hxt
    · cases hx
      subst hxt
      exact hid
    · exact hok.stored x i hx

theorem ftsTermId_spec (term : String) (st : DejaDB) :
    ∃ id st', ftsTermId term st = .ok id st' ∧ Interns st st' ∧
      (VocabOk st → ⟨id, term⟩ ∈ st'.db.ftsVocab) := by
  unfold ftsTermId
  cases hc : st.ftsVocab.lookup term with
  | some id => exact ⟨id, st, rfl, Interns.refl st, fun hok => hok.stored term id hc⟩
  | none =>
    have hi := internVocab_interns st term
    cases hv : (st.db.internVocab term).vocabId term with
    | none =>
      obtain ⟨r, hr, rfl⟩ := internVocab_mem st.db term
      have hnone : ((st.db.internVocab r.term).ftsVocab.find? fun x => x.term = r.term) = none := by
        simpa [Tables.vocabId] using hv
      exact absurd (List.find?_eq_none.1 hnone r hr) (by simp)
    | some id =>
      have hmem := vocabId_some hv
      refine ⟨id, _, by simp only [hv]; exact rfl, hi.trans (cacheVocab_interns ?_ ?_),
        fun _ => hmem⟩
      · exact hc
      · exact hmem

theorem leads_ftsTermId (term : String) : Leads Interns (ftsTermId term) := by
  intro st
  obtain ⟨id, st', h, hi, -⟩ := ftsTermId_spec term st
  rw [after_of_ok h]
  exact hi

theorem ftsTermId_ok {term : String} {st st' : DejaDB} {id : ℤ} (hok : VocabOk st)
    (h : ftsTermId term st = .ok id st') : ⟨id, term⟩ ∈ st'.db.ftsVocab := by
  obtain ⟨id₁, st₁, h₁, -, hmem⟩ := ftsTermId_spec term st
  rw [h₁] at h
  cases h
  exact hmem hok

theorem leads_ftsTermLookup (term : String) : Leads Interns (ftsTermLookup term) := by
  intro st
  unfold after ftsTermLookup
  cases hc : st.ftsVocab.lookup term with
  | some id => exact Interns.refl st
  | none =>
    cases hv : st.db.vocabId term with
    | some id => exact cacheVocab_interns hc (vocabId_some hv)
    | none => exact Interns.refl st

/-- A lookup always answers. -/
theorem ftsTermLookup_total (term : String) (st : DejaDB) :
    ∃ id st', ftsTermLookup term st = .ok id st' := by
  unfold ftsTermLookup
  cases st.ftsVocab.lookup term with
  | some id => exact ⟨_, _, rfl⟩
  | none => cases hv : st.db.vocabId term <;> simp

/-- A lookup answers the id of the token's row. -/
theorem ftsTermLookup_ok {term : String} {st st' : DejaDB} {id : Option ℤ} (hok : VocabOk st)
    (h : ftsTermLookup term st = .ok id st') : id = st.db.vocabId term := by
  unfold ftsTermLookup at h
  cases hc : st.ftsVocab.lookup term with
  | some i =>
    rw [hc] at h
    cases h
    exact (vocabId_of_mem hok.strings (hok.stored term i hc)).symm
  | none =>
    rw [hc] at h
    cases hv : st.db.vocabId term with
    | some i =>
      simp only [hv] at h
      cases h
      rfl
    | none =>
      simp only [hv] at h
      cases h
      rfl

/-! ## The prepared grain -/

/-- An optional term and its optional id agree. -/
def DejaDB.EncodesOpt (st : DejaDB) : Option String → Option ℤ → Prop
  | some x, some id => st.dict.lookup x = some id
  | none, none => True
  | _, _ => False

/-- The triple columns spell the triple of the grain. -/
def DejaDB.EncodesSpo (st : DejaDB) (gv : GrainView) (s p o : Option ℤ) : Prop :=
  match gv.spo with
  | some (sj, rl, ob) =>
    ∃ si pi oi, s = some si ∧ p = some pi ∧ o = some oi ∧ st.dict.lookup sj = some si ∧
      st.dict.lookup rl = some pi ∧ st.dict.lookup ob = some oi
  | none => s = none ∧ p = none ∧ o = none

/-- Whether a grain's own triple is indexed by object. -/
def DejaDB.IndexesObject (st : DejaDB) (gv : GrainView) : Bool :=
  gv.spo.any fun x => x.2.1 == "mg:harness" || st.entityRels.contains x.2.1

/-- The encoded links spell the links of the grain at `hash`. -/
def DejaDB.EncodesLinks (st : DejaDB) (hash : Hash) (links : List (String × String))
    (ids : List (ℤ × ℤ × ℤ)) : Prop :=
  List.Forall₂ (fun l y => st.dict.lookup hash.toHex = some y.1 ∧
    st.dict.lookup l.1 = some y.2.1 ∧ st.dict.lookup l.2 = some y.2.2) links ids

/-- The encoded tokens spell the token frequencies of the stored text, while the
index is written inline; they are empty otherwise. -/
def DejaDB.EncodesText (C : Core G) (st : DejaDB) (text : Option String) (tokens : List (ℤ × ℤ))
    (len : ℤ) : Prop :=
  match text, st.ftsDeferred with
  | some t, false =>
    List.Forall₂ (fun x y => ⟨y.1, x.1⟩ ∈ st.db.ftsVocab ∧ y.2 = x.2) (tokenFreqs C t).1 tokens ∧
      len = (tokenFreqs C t).2
  | _, _ => tokens = [] ∧ len = 0

/-- `pr` is its blob's grain under the dictionaries of `st`, its text and its
tokens aside. -/
structure Linked (C : Core G) (st : DejaDB) (view : DeserializedGrain) (pr : GrainPrep) :
    Prop where
  decodes : C.deserializeBlob pr.blob = .ok view
  created : ∀ c, view.getI64 "created_at" = some c → pr.created = c
  gtype : pr.gtype = view.grainType.ordinal
  ns : st.dict.lookup (extractView view pr.created).ns = some pr.nsId
  spo : st.EncodesSpo (extractView view pr.created) pr.s pr.p pr.o
  session : st.EncodesOpt (extractView view pr.created).session pr.session
  links : st.EncodesLinks pr.hash (extractView view pr.created).links pr.links
  run : st.EncodesOpt (extractView view pr.created).run pr.run
  parent : pr.parent = (extractView view pr.created).parentHash
  corpusExport : pr.corpusExport = (extractView view pr.created).corpusExport

/-- `pr` is its blob's grain prepared under the dictionaries of `st`. -/
structure Prepared (C : Core G) (st : DejaDB) (view : DeserializedGrain) (pr : GrainPrep) : Prop
    extends Linked C st view pr where
  osp : pr.osp = st.IndexesObject (extractView view pr.created)
  text : pr.text = st.storedText (projectedText C view)
  tokens : st.EncodesText C pr.text pr.tokens pr.docLen
  embedding : ∀ v, pr.embedding = some v →
    ∃ e text, st.embedder = some e ∧ projectedText C view = some text ∧ e text = .ok v

/-! ## The programs of the preparation -/

theorem leads_lift {α : Type} (x : Except DejaDbError α) : Leads Interns (lift x) := by
  cases x with
  | ok a => exact leads_pure a
  | error e => exact leads_throw e

theorem lift_eq_ok {α : Type} {x : Except DejaDbError α} {a : α} {st st' : DejaDB} :
    lift x st = .ok a st' ↔ x = .ok a ∧ st = st' := by
  cases x with
  | ok b =>
    rw [show lift (.ok b) st = (pure b : StoreM α) st from rfl, pure_eq_ok]
    exact ⟨fun ⟨h, h'⟩ => ⟨by rw [h], h'⟩, fun ⟨h, h'⟩ => ⟨by cases h; rfl, h'⟩⟩
  | error e =>
    rw [show lift (.error e) st = (throw e : StoreM α) st from rfl, throw_apply]
    exact ⟨fun h => (nomatch h), fun h => (nomatch h.1)⟩

theorem lift_eq_error {α : Type} {x : Except DejaDbError α} {e : DejaDbError} {st st' : DejaDB} :
    lift x st = .error e st' ↔ x = .error e ∧ st = st' := by
  cases x with
  | ok b =>
    rw [show lift (.ok b) st = (pure b : StoreM α) st from rfl, pure_apply]
    exact ⟨fun h => (nomatch h), fun h => (nomatch h.1)⟩
  | error e' =>
    rw [show lift (.error e') st = (throw e' : StoreM α) st from rfl, throw_apply]
    exact ⟨fun h => by cases h; exact ⟨rfl, rfl⟩, fun ⟨h, h'⟩ => by cases h; rw [h']⟩

theorem leads_createdAtOf (view : DeserializedGrain) : Leads Interns (createdAtOf view) := by
  unfold createdAtOf
  cases view.getI64 "created_at" with
  | some c => exact leads_pure c
  | none => exact leads_nowMs

theorem createdAtOf_ok {view : DeserializedGrain} {st st' : DejaDB} {c : ℤ}
    (h : createdAtOf view st = .ok c st') : ∀ d, view.getI64 "created_at" = some d → c = d := by
  intro d hd
  rw [createdAtOf, hd] at h
  exact (pure_eq_ok.1 h).1.symm

theorem leads_termIdOpt (x : Option String) : Leads Interns (termIdOpt x) := by
  cases x with
  | some x => exact leads_bind (leads_termId x) fun id => leads_pure _
  | none => exact leads_pure none

theorem termIdOpt_ok {x : Option String} {st st' : DejaDB} {id : Option ℤ}
    (h : termIdOpt x st = .ok id st') : st'.EncodesOpt x id := by
  cases x with
  | some x =>
    obtain ⟨i, st₁, hi, h⟩ := bind_eq_ok.1 h
    obtain ⟨rfl, rfl⟩ := pure_eq_ok.1 h
    exact termId_ok hi
  | none =>
    obtain ⟨rfl, rfl⟩ := pure_eq_ok.1 h
    trivial

theorem leads_encodeSpo (gv : GrainView) : Leads Interns (encodeSpo gv) := by
  unfold encodeSpo
  split
  · exact leads_bind (leads_termId _) fun s => leads_bind (leads_termId _) fun p =>
      leads_bind (leads_termId _) fun o => leads_bind leads_get fun st => leads_pure _
  · exact leads_pure _

theorem encodeSpo_ok {gv : GrainView} {st st' : DejaDB}
    {x : Option ℤ × Option ℤ × Option ℤ × Bool} (h : encodeSpo gv st = .ok x st') :
    st'.EncodesSpo gv x.1 x.2.1 x.2.2.1 ∧ x.2.2.2 = st'.IndexesObject gv := by
  unfold DejaDB.EncodesSpo DejaDB.IndexesObject
  unfold encodeSpo at h
  cases hspo : gv.spo with
  | none =>
    rw [hspo] at h
    obtain ⟨rfl, rfl⟩ := pure_eq_ok.1 h
    exact ⟨⟨rfl, rfl, rfl⟩, rfl⟩
  | some y =>
    obtain ⟨sj, rl, ob⟩ := y
    rw [hspo] at h
    obtain ⟨s, st₁, hs, h⟩ := bind_eq_ok.1 h
    obtain ⟨p, st₂, hp, h⟩ := bind_eq_ok.1 h
    obtain ⟨o, st₃, ho, h⟩ := bind_eq_ok.1 h
    obtain ⟨st₄, st₅, hst, h⟩ := bind_eq_ok.1 h
    cases hst
    obtain ⟨rfl, rfl⟩ := pure_eq_ok.1 h
    have h₂ := (leads_termId rl).of_ok hp
    have h₃ := (leads_termId ob).of_ok ho
    exact ⟨⟨s, p, o, rfl, rfl, rfl, h₃.dict _ _ (h₂.dict _ _ (termId_ok hs)),
      h₃.dict _ _ (termId_ok hp), termId_ok ho⟩, rfl⟩

theorem leads_tokenId (x : String × ℤ) :
    Leads Interns (do pure (← ftsTermId x.1, x.2) : StoreM (ℤ × ℤ)) :=
  leads_bind (leads_ftsTermId x.1) fun _ => leads_pure _

theorem leads_encodeTokens (t : String) : Leads Interns (encodeTokens C t) :=
  leads_bind (leads_mapM leads_tokenId _) fun _ => leads_pure _

theorem leads_encodeText (text : Option String) : Leads Interns (encodeText C text) := by
  refine leads_bind leads_get fun st => ?_
  cases text with
  | none => exact leads_pure _
  | some t =>
    cases st.ftsDeferred with
    | false => exact leads_encodeTokens t
    | true => exact leads_pure _

theorem encodeText_ok {text : Option String} {st st' : DejaDB} {x : List (ℤ × ℤ) × ℤ}
    (hok : VocabOk st) (h : encodeText C text st = .ok x st') :
    st'.EncodesText C text x.1 x.2 := by
  have hdef : st'.ftsDeferred = st.ftsDeferred := by rw [((leads_encodeText text).of_ok h).rest]
  obtain ⟨st₀, st₁, hst, h⟩ := bind_eq_ok.1 h
  cases hst
  unfold DejaDB.EncodesText
  rw [hdef]
  cases text with
  | none =>
    obtain ⟨rfl, rfl⟩ := pure_eq_ok.1 h
    exact ⟨rfl, rfl⟩
  | some t =>
    cases hd : st.ftsDeferred with
    | true =>
      rw [hd] at h
      obtain ⟨rfl, rfl⟩ := pure_eq_ok.1 h
      exact ⟨rfl, rfl⟩
    | false =>
      rw [hd] at h
      obtain ⟨ids, st₂, hids, h⟩ := bind_eq_ok.1 h
      obtain ⟨rfl, rfl⟩ := pure_eq_ok.1 h
      refine ⟨forall₂_of_mapM (R := Interns) (P := VocabOk)
        (Q := fun x y s => (⟨y.1, x.1⟩ : TermRow) ∈ s.db.ftsVocab ∧ y.2 = x.2)
        leads_tokenId (fun _ _ hi => hi.vocabOk) ?_ ?_ hok hids, rfl⟩
      · exact fun x y s s' hi hq => ⟨hi.vocab.subset hq.1, hq.2⟩
      · intro x y s s' hs hx
        obtain ⟨id, s₁, hid, hx⟩ := bind_eq_ok.1 hx
        obtain ⟨rfl, rfl⟩ := pure_eq_ok.1 hx
        exact ⟨ftsTermId_ok hs hid, rfl⟩

theorem leads_embedText (text : Option String) : Leads Interns (embedText text) := by
  refine leads_bind leads_get fun st => ?_
  cases st.embedder with
  | none => exact leads_pure _
  | some e =>
    cases text with
    | none => exact leads_pure _
    | some t => exact leads_bind (leads_lift (e t)) fun v => leads_pure _

theorem embedText_ok {text : Option String} {st st' : DejaDB} {x : Option (List UInt32)}
    (h : embedText text st = .ok x st') :
    ∀ v, x = some v → ∃ e t, st.embedder = some e ∧ text = some t ∧ e t = .ok v := by
  obtain ⟨st₁, st₂, hget, h⟩ := bind_eq_ok.1 h
  cases hget
  cases he : st.embedder with
  | none =>
    rw [he] at h
    obtain ⟨rfl, -⟩ := pure_eq_ok.1 h
    exact fun v hv => nomatch hv
  | some e =>
    cases text with
    | none =>
      rw [he] at h
      obtain ⟨rfl, -⟩ := pure_eq_ok.1 h
      exact fun v hv => nomatch hv
    | some t =>
      rw [he] at h
      obtain ⟨v, st₃, hv, h⟩ := bind_eq_ok.1 h
      obtain ⟨rfl, -⟩ := pure_eq_ok.1 h
      intro w hw
      cases hw
      exact ⟨e, t, rfl, rfl, (lift_eq_ok.1 hv).1⟩

theorem leads_encodeLink (self : ℤ) (l : String × String) :
    Leads Interns (do
      let rel ← termId l.1
      let target ← termId l.2
      pure (self, rel, target) : StoreM (ℤ × ℤ × ℤ)) :=
  leads_bind (leads_termId l.1) fun _ => leads_bind (leads_termId l.2) fun _ => leads_pure _

theorem leads_encodeLinks (hash : Hash) (links : List (String × String)) :
    Leads Interns (encodeLinks hash links) := by
  unfold encodeLinks
  split_ifs
  · exact leads_pure _
  · exact leads_bind (leads_termId _) fun self => leads_mapM (leads_encodeLink self) links

theorem encodeLinks_ok {hash : Hash} {links : List (String × String)} {st st' : DejaDB}
    {ids : List (ℤ × ℤ × ℤ)} (h : encodeLinks hash links st = .ok ids st') :
    st'.EncodesLinks hash links ids := by
  unfold encodeLinks at h
  split_ifs at h with hemp
  · obtain ⟨rfl, -⟩ := pure_eq_ok.1 h
    rw [List.isEmpty_iff.1 hemp]
    exact .nil
  · obtain ⟨self, st₁, hself, h⟩ := bind_eq_ok.1 h
    refine forall₂_of_mapM (R := Interns)
      (P := fun s => s.dict.lookup hash.toHex = some self)
      (Q := fun l y s => s.dict.lookup hash.toHex = some y.1 ∧
        s.dict.lookup l.1 = some y.2.1 ∧ s.dict.lookup l.2 = some y.2.2)
      (leads_encodeLink self) (fun _ _ hi => hi.dict _ _) ?_ ?_ (termId_ok hself) h
    · exact fun l y s s' hi hq =>
        ⟨hi.dict _ _ hq.1, hi.dict _ _ hq.2.1, hi.dict _ _ hq.2.2⟩
    · intro l y s s' hs hy
      obtain ⟨rel, s₁, hrel, hy⟩ := bind_eq_ok.1 hy
      obtain ⟨target, s₂, htarget, hy⟩ := bind_eq_ok.1 hy
      obtain ⟨rfl, rfl⟩ := pure_eq_ok.1 hy
      have h₁ := (leads_termId l.1).of_ok hrel
      have h₂ := (leads_termId l.2).of_ok htarget
      exact ⟨h₂.dict _ _ (h₁.dict _ _ hs), h₂.dict _ _ (termId_ok hrel), termId_ok htarget⟩

/-- `b` still resolves every term `a` resolves, and to the same id. -/
def DejaDB.Resolves (a b : DejaDB) : Prop :=
  ∀ x id, a.dict.lookup x = some id → b.dict.lookup x = some id

theorem DejaDB.EncodesOpt.mono {a b : DejaDB} (hd : a.Resolves b) {x : Option String}
    {id : Option ℤ}
    (h : a.EncodesOpt x id) : b.EncodesOpt x id := by
  cases x with
  | none => cases id <;> exact h
  | some x =>
    cases id with
    | none => exact h
    | some id => exact hd _ _ h

theorem DejaDB.EncodesSpo.mono {a b : DejaDB} (hd : a.Resolves b) {gv : GrainView}
    {s p o : Option ℤ} (h : a.EncodesSpo gv s p o) : b.EncodesSpo gv s p o := by
  unfold DejaDB.EncodesSpo at h ⊢
  cases hspo : gv.spo with
  | none =>
    rw [hspo] at h
    exact h
  | some x =>
    rw [hspo] at h
    obtain ⟨si, pi, oi, hs, hp, ho, hsj, hrl, hob⟩ := h
    exact ⟨si, pi, oi, hs, hp, ho, hd _ _ hsj, hd _ _ hrl, hd _ _ hob⟩

theorem DejaDB.EncodesLinks.mono {a b : DejaDB} (hd : a.Resolves b) {hash : Hash}
    {links : List (String × String)} {ids : List (ℤ × ℤ × ℤ)}
    (h : a.EncodesLinks hash links ids) : b.EncodesLinks hash links ids :=
  h.imp fun _ _ hq => ⟨hd _ _ hq.1, hd _ _ hq.2.1, hd _ _ hq.2.2⟩

theorem Linked.mono {a b : DejaDB} (hd : a.Resolves b)
    {view : DeserializedGrain} {pr : GrainPrep} (h : Linked C a view pr) : Linked C b view pr where
  decodes := h.decodes
  created := h.created
  gtype := h.gtype
  ns := hd _ _ h.ns
  spo := h.spo.mono hd
  session := h.session.mono hd
  links := h.links.mono hd
  run := h.run.mono hd
  parent := h.parent
  corpusExport := h.corpusExport

theorem DejaDB.EncodesText.mono {st st' : DejaDB} (hi : Interns st st') {text : Option String}
    {tokens : List (ℤ × ℤ)} {len : ℤ} (h : st.EncodesText C text tokens len) :
    st'.EncodesText C text tokens len := by
  have hdef : st'.ftsDeferred = st.ftsDeferred := by rw [hi.rest]
  unfold DejaDB.EncodesText at h ⊢
  rw [hdef]
  cases text with
  | none => exact h
  | some t =>
    cases hd : st.ftsDeferred with
    | true =>
      rw [hd] at h
      exact h
    | false =>
      rw [hd] at h
      exact ⟨h.1.imp fun _ _ hq => ⟨hi.vocab.subset hq.1, hq.2⟩, h.2⟩

theorem leads_prepFromBlob (blob : Bytes) (hash : Hash) :
    Leads Interns (prepFromBlob C blob hash) :=
  leads_bind (leads_lift _) fun view =>
  leads_bind (leads_createdAtOf view) fun _ =>
  leads_bind (leads_termId _) fun _ =>
  leads_bind (leads_encodeSpo _) fun _ =>
  leads_bind (leads_termIdOpt _) fun _ =>
  leads_bind leads_get fun _ =>
  leads_bind (leads_encodeText _) fun _ =>
  leads_bind (leads_embedText _) fun _ =>
  leads_bind (leads_encodeLinks _ _) fun _ =>
  leads_bind (leads_termIdOpt _) fun _ => leads_pure _

/-- **Preparation.**  A prepared grain carries the bytes and the address it was
given, and its fields spell the blob under the dictionaries left behind. -/
theorem prepFromBlob_ok {blob : Bytes} {hash : Hash} {st st' : DejaDB} {pr : GrainPrep}
    (hok : VocabOk st) (h : prepFromBlob C blob hash st = .ok pr st') :
    pr.blob = blob ∧ pr.hash = hash ∧ ∃ view, Prepared C st' view pr := by
  obtain ⟨view, st₁, hview, h⟩ := bind_eq_ok.1 h
  obtain ⟨created, st₂, hcreated, h⟩ := bind_eq_ok.1 h
  obtain ⟨nsId, st₃, hns, h⟩ := bind_eq_ok.1 h
  obtain ⟨spo, st₄, hspo, h⟩ := bind_eq_ok.1 h
  obtain ⟨session, st₅, hsession, h⟩ := bind_eq_ok.1 h
  obtain ⟨st₆, st₆', hget, h⟩ := bind_eq_ok.1 h
  obtain ⟨tokens, st₇, htokens, h⟩ := bind_eq_ok.1 h
  obtain ⟨embedding, st₈, hembedding, h⟩ := bind_eq_ok.1 h
  obtain ⟨links, st₉, hlinks, h⟩ := bind_eq_ok.1 h
  obtain ⟨run, st₁₀, hrun, h⟩ := bind_eq_ok.1 h
  obtain ⟨rfl, rfl⟩ := pure_eq_ok.1 h
  cases hget
  have i₁₀ := (leads_termIdOpt _).of_ok hrun
  have i₉ := ((leads_encodeLinks _ _).of_ok hlinks).trans i₁₀
  have i₈ := ((leads_embedText _).of_ok hembedding).trans i₉
  have i₇ := ((leads_encodeText _).of_ok htokens).trans i₈
  have i₅ := ((leads_termIdOpt _).of_ok hsession).trans i₇
  have i₄ := ((leads_encodeSpo _).of_ok hspo).trans i₅
  have htext : st₅.indexText = st₁₀.indexText := by rw [i₇.rest]
  have hsame : st₅.storedText (projectedText C view) = st₁₀.storedText (projectedText C view) := by
    rw [DejaDB.storedText, DejaDB.storedText, htext]
  have hok₅ : VocabOk st₅ :=
    ((leads_termIdOpt _).of_ok hsession).vocabOk <| ((leads_encodeSpo _).of_ok hspo).vocabOk <|
      ((leads_termId _).of_ok hns).vocabOk <| ((leads_createdAtOf view).of_ok hcreated).vocabOk <|
        ((leads_lift _).of_ok hview).vocabOk hok
  have hrels : st₁₀.entityRels = st₄.entityRels := by rw [i₅.rest]
  have hosp : spo.2.2.2 = st₁₀.IndexesObject (extractView view created) := by
    rw [(encodeSpo_ok hspo).2, DejaDB.IndexesObject, DejaDB.IndexesObject, hrels]
  refine ⟨rfl, rfl, view, ⟨⟨(lift_eq_ok.1 hview).1, createdAtOf_ok hcreated, rfl,
    i₄.dict _ _ (termId_ok hns), (encodeSpo_ok hspo).1.mono i₅.dict,
    (termIdOpt_ok hsession).mono i₇.dict, (encodeLinks_ok hlinks).mono i₁₀.dict,
    termIdOpt_ok hrun, rfl, rfl⟩, hosp, hsame, (encodeText_ok hok₅ htokens).mono i₈,
    fun v hv => ?_⟩⟩
  obtain ⟨e, t, he, ht, hv⟩ := embedText_ok hembedding v hv
  exact ⟨e, t, by rw [← he, i₈.rest], ht, hv⟩

theorem Prepared.mono {a b : DejaDB} (hi : Interns a b) {view : DeserializedGrain}
    {pr : GrainPrep} (h : Prepared C a view pr) : Prepared C b view pr where
  toLinked := h.toLinked.mono hi.dict
  osp := by
    rw [h.osp, DejaDB.IndexesObject, DejaDB.IndexesObject, hi.rest]
  text := by
    rw [h.text, DejaDB.storedText, DejaDB.storedText, hi.rest]
  tokens := h.tokens.mono hi
  embedding v hv := by
    rw [hi.rest]
    exact h.embedding v hv

/-- A prepared grain carries the bytes and the address it was given, and its
bytes decode. -/
theorem prepFromBlob_bytes {blob : Bytes} {hash : Hash} {st st' : DejaDB} {pr : GrainPrep}
    (h : prepFromBlob C blob hash st = .ok pr st') :
    pr.blob = blob ∧ pr.hash = hash ∧ ∃ view, C.deserializeBlob blob = .ok view := by
  obtain ⟨view, st₁, hview, h⟩ := bind_eq_ok.1 h
  obtain ⟨created, st₂, -, h⟩ := bind_eq_ok.1 h
  obtain ⟨nsId, st₃, -, h⟩ := bind_eq_ok.1 h
  obtain ⟨spo, st₄, -, h⟩ := bind_eq_ok.1 h
  obtain ⟨session, st₅, -, h⟩ := bind_eq_ok.1 h
  obtain ⟨st₆, st₆', -, h⟩ := bind_eq_ok.1 h
  obtain ⟨tokens, st₇, -, h⟩ := bind_eq_ok.1 h
  obtain ⟨embedding, st₈, -, h⟩ := bind_eq_ok.1 h
  obtain ⟨links, st₉, -, h⟩ := bind_eq_ok.1 h
  obtain ⟨run, st₁₀, -, h⟩ := bind_eq_ok.1 h
  obtain ⟨rfl, -⟩ := pure_eq_ok.1 h
  exact ⟨rfl, rfl, view, (lift_eq_ok.1 hview).1⟩

end Deja
