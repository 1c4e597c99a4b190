import Deja.Spec.Commits

/-!
# Operations as paths of commits

`Path C Γ a b`: the handle gets from `a` to `b` by idle moves and commits that
all meet the guard `Γ`.  Every operation of the store is such a path, its
commits listed by `Op.commits`; so an invariant that idle moves and guarded
commits keep holds after every run of guarded operations
(`Path.keeps`, `Op.path`, `run_keeps`).
-/

namespace Deja

open Run

variable {G : Type} {C : Core G}

/-! ## The dictionaries along a commit -/

theorem VocabOk.of_eq {a b : DejaDB} (h : VocabOk a) (hcache : b.ftsVocab = a.ftsVocab)
    (hrows : b.db.ftsVocab = a.db.ftsVocab) : VocabOk b where
  stored x id hx := by
    rw [hcache] at hx
    rw [hrows]
    exact h.stored x id hx
  ids := by
    rw [hrows]
    exact h.ids
  strings := by
    rw [hrows]
    exact h.strings

theorem DictOk.of_eq {a b : DejaDB} (h : DictOk a) (hdict : b.dict = a.dict)
    (hrows : b.db.terms = a.db.terms) (hnext : b.nextTerm = a.nextTerm) : DictOk b where
  keys := by
    rw [hdict]
    exact h.keys
  stored x id hx := by
    rw [hdict] at hx
    rw [hrows]
    exact h.stored x id hx
  ids := by
    rw [hrows]
    exact h.ids
  strings := by
    rw [hrows]
    exact h.strings
  below r hr := by
    rw [hrows] at hr
    rw [hnext]
    exact h.below r hr

/-- Sweeping the vocabulary keeps it in order, if the cache is dropped whenever
a row went. -/
theorem VocabOk.sweep {a : DejaDB} (h : VocabOk a) {b : DejaDB} {keep : TermRow → Bool}
    {removed : ℕ} (hrows : b.db.ftsVocab = a.db.ftsVocab.filter keep)
    (hremoved : removed = a.db.ftsVocab.length - b.db.ftsVocab.length)
    (hcache : b.ftsVocab = if 0 < removed then [] else a.ftsVocab) : VocabOk b where
  stored x id hx := by
    rw [hcache] at hx
    split_ifs at hx with hr
    · simp at hx
    · have hlen : a.db.ftsVocab.length ≤ (a.db.ftsVocab.filter keep).length := by
        rw [hrows] at hremoved
        omega
      rw [hrows, List.Sublist.eq_of_length_le List.filter_sublist hlen]
      exact h.stored x id hx
  ids := by
    rw [hrows]
    exact h.ids.sublist (List.filter_sublist.map _)
  strings := by
    rw [hrows]
    exact h.strings.sublist (List.filter_sublist.map _)

/-- Scrubbing terms and evicting them from the cache keeps the dictionary in
order. -/
theorem DictOk.scrub {a b : DejaDB} {t : Tables} {gone : List ℤ} (h : DictOk a)
    (hterms : t.terms = a.db.terms) (hs : t.Scrubs gone b.db)
    (hdict : b.dict = a.dict.filter fun x => x.2 ∉ gone) (hnext : b.nextTerm = a.nextTerm) :
    DictOk b where
  keys := by
    rw [hdict]
    exact h.keys.sublist (List.filter_sublist.map _)
  stored x id hx := by
    rw [hdict, Assoc.lookup_filter h.keys] at hx
    obtain ⟨hx, hkeep⟩ := hx
    rw [hs.file, hterms]
    refine List.mem_map.2 ⟨⟨id, x⟩, h.stored x id hx, ?_⟩
    rw [Tables.scrubRow, if_neg]
    simpa using hkeep
  ids := by
    rw [hs.file, hterms]
    simpa [Function.comp_def] using h.ids
  strings := hs.strings (by rw [hterms]; exact h.ids) (by rw [hterms]; exact h.strings)
  below r hr := by
    rw [hs.file, hterms] at hr
    obtain ⟨r₀, hr₀, rfl⟩ := List.mem_map.1 hr
    rw [hnext, Tables.scrubRow_id]
    exact h.below r₀ hr₀

theorem lt_foldl_succ {rows : List TermRow} {a : ℤ} :
    a ≤ rows.foldl (fun n r => max n (r.id + 1)) a ∧
      ∀ r ∈ rows, r.id < rows.foldl (fun n r => max n (r.id + 1)) a := by
  induction rows generalizing a with
  | nil => exact ⟨le_refl a, by simp⟩
  | cons y rows ih =>
    rw [List.foldl_cons]
    obtain ⟨h1, h2⟩ := ih (a := max a (y.id + 1))
    refine ⟨le_trans (le_max_left _ _) h1, fun r hr => ?_⟩
    rcases List.mem_cons.1 hr with rfl | hr
    · have := le_trans (le_max_right a (r.id + 1)) h1
      omega
    · exact h2 r hr

/-- An open reads the dictionary off the file. -/
theorem DictOk.reopen {a : DejaDB} (h : DictOk a) (explicit : Option DejaDbOptions)
    (clock : ℕ → ℤ) : DictOk (freshHandle explicit clock a.db) where
  keys := Assoc.nodup_keys_ofRows _ _ _
  stored x id hx := by
    obtain ⟨r, hr, rfl, rfl⟩ := (Assoc.lookup_ofRows _ _ h.strings).1 hx
    exact hr
  ids := h.ids
  strings := h.strings
  below := lt_foldl_succ.2

theorem leads_rebuiltRows (g : GrainRow) : Leads Looks (rebuiltRows C g) := by
  unfold rebuiltRows
  cases g.text with
  | none => exact leads_pure _
  | some t =>
    refine leads_bind (leads_mapM (fun x => ?_) _) fun posts => leads_pure _
    exact leads_bind (leads_looks_ftsTermLookup x.1) fun id => leads_pure _

/-- The text rebuild writes `text`, `fts_post` and `fts_doc`, and warms the
vocabulary cache. -/
theorem rebuildTextBody_ok {a b : DejaDB} {n : ℕ} {docs len : ℤ}
    (h : rebuildTextBody C a = .ok (n, docs, len) b) :
    ∃ grains rows c, (a.db.grains.mapM fun g =>
        (rebuildText C g).map fun t => { g with text := t }) = .ok grains ∧
      grains.mapM (rebuiltRows C) a = .ok rows c ∧ Looks a c ∧
      b = { c with db := { c.db with
        grains := grains
        ftsPost := rows.flatMap Prod.fst
        ftsDoc := rows.flatMap Prod.snd } } ∧
      docs = ((rows.flatMap Prod.snd).length : ℤ) ∧
      len = ((rows.flatMap Prod.snd).map DocRow.len).sum := by
  obtain ⟨a₁, a₂, hget, h₁⟩ := bind_eq_ok.1 h
  cases hget
  obtain ⟨grains, a₃, hgrains, h₂⟩ := bind_eq_ok.1 h₁
  obtain ⟨hmap, rfl⟩ := lift_eq_ok.1 hgrains
  obtain ⟨rows, c, hrows, h₃⟩ := bind_eq_ok.1 h₂
  obtain ⟨u, c₁, hset, h₄⟩ := bind_eq_ok.1 h₃
  rw [modify_apply] at hset
  cases hset
  obtain ⟨hout, rfl⟩ := pure_eq_ok.1 h₄
  cases hout
  exact ⟨grains, rows, c, hmap, hrows, (leads_mapM leads_rebuiltRows grains).of_ok hrows, rfl,
    rfl, rfl⟩

/-- A failed text rebuild leaves the cache warmed and nothing else. -/
theorem rebuildTextBody_error {a b : DejaDB} {e : DejaDbError}
    (h : rebuildTextBody C a = .error e b) : Looks a b := by
  rcases bind_eq_error.1 h with h₁ | ⟨a₁, a₂, hget, h₁⟩
  · cases h₁
  cases hget
  rcases bind_eq_error.1 h₁ with h₂ | ⟨grains, a₃, hgrains, h₂⟩
  · obtain ⟨-, rfl⟩ := lift_eq_error.1 h₂
    exact refl_of Looks a
  obtain ⟨-, rfl⟩ := lift_eq_ok.1 hgrains
  rcases bind_eq_error.1 h₂ with h₃ | ⟨rows, c, hrows, h₃⟩
  · exact (leads_mapM leads_rebuiltRows grains).of_error h₃
  · obtain ⟨u, c₁, hset, h₄⟩ := (bind_eq_error.1 h₃).resolve_left (by
      rw [modify_apply]
      exact fun h => nomatch h)
    cases h₄

theorem closeTips_dicts (t : Tables) (tips : List Hash) (merge : Hash) (now : ℤ) :
    (tips.foldl (fun t tip => t.closeTip tip merge now) t).info = t.info ∧
      (tips.foldl (fun t tip => t.closeTip tip merge now) t).terms = t.terms ∧
      (tips.foldl (fun t tip => t.closeTip tip merge now) t).ftsVocab = t.ftsVocab := by
  rw [Tables.closeTips_frame]
  exact ⟨rfl, rfl, rfl⟩

theorem flipTxn_frame (t : Tables) (old new : Hash) (now : ℤ) :
    (t.flipTxn old new now).2 = { t with
      grains := (t.flipTxn old new now).2.grains
      triples := (t.flipTxn old new now).2.triples
      osp := (t.flipTxn old new now).2.osp
      heads := (t.flipTxn old new now).2.heads
      entityLatest := (t.flipTxn old new now).2.entityLatest } := by
  unfold Tables.flipTxn
  cases t.grainByHash old with
  | none => rfl
  | some row =>
    simp only
    split_ifs
    · rfl
    · rw [Tables.registerFork_frame t new]
    · unfold Tables.flipLinear
      cases row.key <;> rfl

/-- The declarations, the dictionary tables, the caches and the next id after a
commit that is neither an erasure, nor a rebuild, nor an open are those before it. -/
theorem Commit.dicts {ev : Event} {a b : DejaDB} (h : Commit C ev a b) :
    (b.db.info = a.db.info ∧ b.db.terms = a.db.terms ∧ b.db.ftsVocab = a.db.ftsVocab ∧
      b.dict = a.dict ∧ b.ftsVocab = a.ftsVocab ∧ b.nextTerm = a.nextTerm) ∨
    (∃ seqs, ev = .erase seqs) ∨ ev = .scrub ∨ ev = .rebuildText ∨
      (∃ explicit, ev = .reopen explicit) := by
  cases h with
  | insert prepared txn =>
    obtain ⟨hinfo, hterms, hvocab⟩ := Tables.insertPrepped_dicts txn
    exact .inl ⟨hinfo, hterms, hvocab, rfl, rfl, rfl⟩
  | @supersede _ old pr row _ now _ _ _ _ written prepared found txn =>
    obtain ⟨-, t₁, hins, rfl⟩ := Tables.supersedeTxn_ok found txn
    obtain ⟨hins, -⟩ := Tables.insertPreppedOne_ok hins
    have hframe := Tables.retireTip_frame (t₁.flipped row.seq old pr.hash now) row.key row.seq
    exact .inl ⟨hframe.info.trans hins.info, hframe.terms.trans hins.terms,
      hframe.ftsVocab.trans hins.ftsVocab, rfl, rfl, rfl⟩
  | merge written prepared tips txn =>
    obtain ⟨t₁, hins, rfl⟩ := Tables.mergeTxn_ok txn
    obtain ⟨hins, -⟩ := Tables.insertPreppedOne_ok hins
    have hclose := closeTips_dicts t₁
    exact .inl ⟨(hclose _ _ _).1.trans hins.info, (hclose _ _ _).2.1.trans hins.terms,
      (hclose _ _ _).2.2.trans hins.ftsVocab, rfl, rfl, rfl⟩
  | @forget _ _ row _ len _ found txn =>
    obtain ⟨-, rfl⟩ := Tables.forgetTxn_ok found txn
    have hframe := Tables.retireTip_frame (a.db.deleteSeq row.seq) row.key row.seq
    cases len <;> exact .inl ⟨hframe.info, hframe.terms, hframe.ftsVocab, rfl, rfl, rfl⟩
  | erase txn => exact .inr (.inl ⟨_, rfl⟩)
  | scrub txn => exact .inr (.inr (.inl rfl))
  | insertBlob prepared txn =>
    obtain ⟨hins, -⟩ := Tables.insertBlobTxn_ok txn
    exact .inl ⟨hins.info, hins.terms, hins.ftsVocab, rfl, rfl, rfl⟩
  | flip =>
    refine .inl ⟨?_, ?_, ?_, rfl, rfl, rfl⟩
    · rw [flipTxn_frame]
    · rw [flipTxn_frame]
    · rw [flipTxn_frame]
  | log txn =>
    obtain ⟨rfl, -⟩ := Tables.insertOp_ok txn
    exact .inl ⟨rfl, rfl, rfl, rfl, rfl, rfl⟩
  | defer on => exact .inl ⟨rfl, rfl, rfl, rfl, rfl, rfl⟩
  | undefer => exact .inl ⟨rfl, rfl, rfl, rfl, rfl, rfl⟩
  | rebuildText on inline txn => exact .inr (.inr (.inr (.inl rfl)))
  | setEmbedder => exact .inl ⟨rfl, rfl, rfl, rfl, rfl, rfl⟩
  | reopen => exact .inr (.inr (.inr (.inr ⟨_, rfl⟩)))

theorem sweepVocab_filter (t : Tables) (candidates : List ℤ) :
    ∃ keep : TermRow → Bool, (t.sweepVocab candidates).ftsVocab = t.ftsVocab.filter keep :=
  ⟨_, rfl⟩

/-- The tables between the deletions of an erasure and its term sweep. -/
theorem eraseTxn_dicts {t t' : Tables} {seqs ids : List ℤ} {op hlc : ℤ} {out : EraseOut}
    (h : t.eraseTxn seqs ids op hlc = .ok (out, t')) :
    ∃ (t₂ : Tables) (keep : TermRow → Bool), t₂.info = t.info ∧ t₂.terms = t.terms ∧
      t₂.ftsVocab = t.ftsVocab.filter keep ∧ t₂.Scrubs out.scrubbed t' ∧
      out.report.vocabRemoved = t.ftsVocab.length - t₂.ftsVocab.length := by
  obtain ⟨t₁, t₂, htargets, rfl, hscrub, hremoved, -, -⟩ := Tables.eraseTxn_ok h
  obtain ⟨herases, -, -, -, hterms, hvocab⟩ := Tables.eraseTargets_ok htargets
  obtain ⟨keep, hkeep⟩ := sweepVocab_filter (t₁.reconcile seqs ((t.grains.filter fun g =>
    g.seq ∈ seqs).filterMap GrainRow.key).dedup)
      ((t.ftsPost.filter fun r => r.seq ∈ seqs).map PostRow.term).dedup
  refine ⟨_, keep, ?_, ?_, hkeep.trans ?_, hscrub, hremoved⟩
  · exact (Tables.reconcile_frame _ _ _).info.trans herases.info
  · exact (Tables.reconcile_frame _ _ _).terms.trans hterms
  · rw [(Tables.reconcile_frame _ _ _).ftsVocab, hvocab]

theorem Commit.vocabOk {ev : Event} {a b : DejaDB} (h : Commit C ev a b) (hok : VocabOk a) :
    VocabOk b := by
  rcases h.dicts with ⟨-, -, hrows, -, hcache, -⟩ | ⟨seqs, rfl⟩ | rfl | rfl | ⟨explicit, rfl⟩
  · exact hok.of_eq hcache hrows
  · cases h with
    | erase txn =>
      obtain ⟨t₂, keep, -, -, hvocab, hscrub, hremoved⟩ := eraseTxn_dicts txn
      have hsame := congrArg Tables.ftsVocab hscrub.file
      refine hok.sweep (hsame.trans hvocab) (hremoved.trans ?_) ?_
      · exact congrArg (a.db.ftsVocab.length - ·) (congrArg List.length hsame).symm
      · simp only [DejaDB.evicted, decide_eq_true_eq]
        rfl
  · cases h with
    | scrub txn =>
      have hsame := congrArg Tables.ftsVocab (Tables.scrubTerms_ok txn).file
      exact hok.of_eq rfl hsame
  · cases h with
    | rebuildText on inline txn =>
      obtain ⟨grains, rows, c, -, -, hlooks, rfl, -, -⟩ := rebuildTextBody_ok txn
      exact (hlooks.vocabOk hok).of_eq rfl rfl
  · cases h with
    | reopen => exact ⟨(fun x id hx => nomatch hx), hok.ids, hok.strings⟩

theorem Commit.dictOk {ev : Event} {a b : DejaDB} (h : Commit C ev a b) (hok : DictOk a) :
    DictOk b := by
  rcases h.dicts with ⟨-, hrows, -, hdict, -, hnext⟩ | ⟨seqs, rfl⟩ | rfl | rfl | ⟨explicit, rfl⟩
  · exact hok.of_eq hdict hrows hnext
  · cases h with
    | erase txn =>
      obtain ⟨t₂, keep, -, hterms, -, hscrub, -⟩ := eraseTxn_dicts txn
      exact hok.scrub hterms hscrub rfl rfl
  · cases h with
    | scrub txn => exact hok.scrub rfl (Tables.scrubTerms_ok txn) rfl rfl
  · cases h with
    | rebuildText on inline txn =>
      obtain ⟨grains, rows, c, -, -, hlooks, rfl, -, -⟩ := rebuildTextBody_ok txn
      exact (hlooks.idle.dictOk hok).of_eq rfl rfl rfl
  · cases h with
    | reopen => exact hok.reopen _ _

/-- A commit leaves the link stamp alone. -/
theorem Commit.link {ev : Event} {a b : DejaDB} (h : Commit C ev a b) :
    b.db.info.linkIndex = a.db.info.linkIndex := by
  rcases h.dicts with ⟨hinfo, -⟩ | ⟨seqs, rfl⟩ | rfl | rfl | ⟨explicit, rfl⟩
  · rw [hinfo]
  · cases h with
    | erase txn =>
      obtain ⟨t₂, keep, hinfo, -, -, hscrub, -⟩ := eraseTxn_dicts txn
      rw [← hinfo]
      exact congrArg (fun t => t.info.linkIndex) hscrub.file
  · cases h with
    | scrub txn => exact congrArg (fun t => t.info.linkIndex) (Tables.scrubTerms_ok txn).file
  · cases h with
    | rebuildText on inline txn =>
      obtain ⟨grains, rows, c, -, -, hlooks, rfl, -, -⟩ := rebuildTextBody_ok txn
      rw [hlooks.rest]
  · cases h with
    | reopen => rfl

/-! ## Paths -/

/-- From `a` to `b` by idle moves and commits that meet the guard `Γ`. -/
inductive Path (C : Core G) (Γ : Event → DejaDB → Prop) : DejaDB → DejaDB → Prop where
  | idle {a b : DejaDB} (h : Idle a b) : Path C Γ a b
  | commit {ev : Event} {a b : DejaDB} (guard : Γ ev a) (h : Commit C ev a b) : Path C Γ a b
  | trans {a b c : DejaDB} (hab : Path C Γ a b) (hbc : Path C Γ b c) : Path C Γ a c

namespace Path

variable {Γ : Event → DejaDB → Prop}

theorem refl (a : DejaDB) : Path C Γ a a := .idle (.refl a)

/-- **Invariants along a path.**  What idle moves and guarded commits keep holds
at the end if it held at the start. -/
theorem keeps {I : DejaDB → Prop} (hidle : ∀ a b, Idle a b → I a → I b)
    (hcommit : ∀ ev a b, Γ ev a → Commit C ev a b → I a → I b) {a b : DejaDB}
    (h : Path C Γ a b) (hI : I a) : I b := by
  induction h with
  | idle h => exact hidle _ _ h hI
  | commit guard h => exact hcommit _ _ _ guard h hI
  | trans _ _ hab hbc => exact hbc (hab hI)

theorem vocabOk {a b : DejaDB} (h : Path C Γ a b) (hok : VocabOk a) : VocabOk b :=
  h.keeps (fun _ _ h => h.vocabOk) (fun _ _ _ _ h => h.vocabOk) hok

theorem dictOk {a b : DejaDB} (h : Path C Γ a b) (hok : DictOk a) : DictOk b :=
  h.keeps (fun _ _ h => h.dictOk) (fun _ _ _ _ h => h.dictOk) hok

theorem link {a b : DejaDB} (h : Path C Γ a b)
    (hlink : a.db.info.linkIndex = some linkIndexVersion) :
    b.db.info.linkIndex = some linkIndexVersion :=
  h.keeps (I := fun st => st.db.info.linkIndex = some linkIndexVersion)
    (fun a b h hI => by rw [h.file]; exact hI) (fun _ _ _ _ h hI => h.link.trans hI) hlink

end Path

/-! ## Operations -/

/-- The operations of a run. -/
inductive Op (G : Type) where
  | add (g : Grain G)
  | addBatch (gs : List (Grain G))
  | addIfNovel (g : Grain G)
  | supersede (old : Hash) (g : Grain G)
  | mergeHeads (ns subject relation : String) (g : Grain G)
  | forget (hash : Hash)
  | forgetSubject (ns subject : String) (textMentions : Bool)
  | forgetOlderThan (ns : Option String) (cutoffMs : ℤ) (gtype : Option GrainType)
      (limit : Option ℕ)
  | importBundle (data : Bytes) (maxHlc : Option ℤ)
  | deferTextIndex
  | rebuildTextIndex
  | setEmbedder (e : Option Embedder)
  | reopen (explicit : Option DejaDbOptions) (clock : ℕ → ℤ)

/-- A program with its answer dropped. -/
def quiet {α : Type} (x : StoreM α) : StoreM Unit := do let _ ← x

/-- Run an operation. -/
def Op.run (C : Core G) : Op G → StoreM Unit
  | .add g => quiet (Deja.add C g)
  | .addBatch gs => quiet (Deja.addBatch C gs)
  | .addIfNovel g => quiet (Deja.addIfNovel C g)
  | .supersede old g => quiet (Deja.supersede C old g)
  | .mergeHeads ns s r g => quiet (Deja.mergeHeads C ns s r g)
  | .forget hash => Deja.forget hash
  | .forgetSubject ns s m => quiet (forgetSubjectWith C ns s m)
  | .forgetOlderThan ns cutoff gt limit => quiet (forgetOlderThanCapped C ns cutoff gt limit)
  | .importBundle data maxHlc => quiet (importBundleUntil C data maxHlc)
  | .deferTextIndex => quiet Deja.deferTextIndex
  | .rebuildTextIndex => quiet (Deja.rebuildTextIndex C)
  | .setEmbedder e => modify fun st => { st with embedder := e }
  | .reopen explicit clock => fun st => finishOpen C explicit clock st.db

/-- The handle after an operation, whether it returned or failed. -/
def DejaDB.step (C : Core G) (st : DejaDB) (op : Op G) : DejaDB := st.after (op.run C)

/-- The handle after a run of operations. -/
def DejaDB.steps (C : Core G) (st : DejaDB) (ops : List (Op G)) : DejaDB :=
  ops.foldl (fun st op => st.step C op) st

/-! ## The commits of an operation -/

/-- A commit an operation attempts, with the handle it starts from. -/
abbrev Attempt := Event × DejaDB

/-- What the transaction of `add_batch` is given. -/
def addBatchCommits (C : Core G) (gs : List (Grain G)) (st : DejaDB) : List Attempt :=
  match prepNovel C [] gs st with
  | .ok (_, preps) st₁ => [(.insert preps, st₁.stamped preps)]
  | .error _ _ => []

/-- What the transaction of `add_if_novel` is given: nothing where the value is
the current one. -/
def addIfNovelCommits (C : Core G) (g : Grain G) (st : DejaDB) : List Attempt :=
  match probeView C g st with
  | .ok gv st₁ =>
    if (st₁.novelProbe gv).isSome then []
    else
      match prepGrain C g st₁ with
      | .ok pr st₂ => [(.insert [pr], st₂.stamped [pr])]
      | .error _ _ => []
  | .error _ _ => []

/-- What the transaction of `supersede` is given: nothing where the old grain is
not here or not current. -/
def supersedeCommits (C : Core G) (old : Hash) (g : Grain G) (st : DejaDB) : List Attempt :=
  if (st.db.grainByHash old).any fun row => row.svt.isNone then
    match prepGrain C { g with derivedFrom := some old.toHex } st with
    | .ok pr st₁ => [(.supersede old pr, st₁)]
    | .error _ _ => []
  else []

/-- What the transaction of `merge_heads` is given: nothing where the key has no
fork. -/
def mergeCommits (C : Core G) (ns subject relation : String) (g : Grain G) (st : DejaDB) :
    List Attempt :=
  match st.keyOf ns subject relation with
  | none => []
  | some k =>
    match (st.db.headsOf k).map HeadRow.hash with
    | first :: second :: rest =>
      match prepGrain C { g with
        derivedFrom := some first.toHex
        context := some (mergeContext g.context (first :: second :: rest)) } st with
      | .ok pr st₁ => [(.merge k pr, st₁)]
      | .error _ _ => []
    | _ => []

/-- What the transaction of `insert_blob` is given. -/
def blobCommits (C : Core G) (op : OpKind) (blob : Bytes) (hash : Hash) (st : DejaDB) :
    List Attempt :=
  match prepFromBlob C blob hash st with
  | .ok pr st₁ => [(.insertBlob op pr, st₁)]
  | .error _ _ => []

/-- The flips of a superseding grain, parent by parent. -/
def flipCommits (hash : Hash) : List Hash → DejaDB → List Attempt
  | [], _ => []
  | old :: olds, st =>
    (.flip old hash, st) :: flipCommits hash olds (st.after (applySupersedeFlip old hash))

/-- The flips the bytes of a superseding grain ask for. -/
def supersededCommits (C : Core G) (blob : Bytes) (hash : Hash) (st : DejaDB) : List Attempt :=
  match C.deserializeBlob blob with
  | .ok view => flipCommits hash (supersededParents view) st
  | .error _ => []

/-- The commits of an `ADD` record. -/
def importAddCommits (C : Core G) (r : BundleRecord) (st : DejaDB) : List Attempt :=
  if st.has r.hash ∨ r.blob.isEmpty then [] else blobCommits C .add r.blob r.hash st

/-- The commits of a `SUPERSEDE` record. -/
def importSupersedeCommits (C : Core G) (r : BundleRecord) (st : DejaDB) : List Attempt :=
  match st.db.grainByHash r.hash with
  | some g =>
    let bytes := if r.blob.isEmpty then g.blob else r.blob
    supersededCommits C bytes r.hash st ++
      [(.log r.hash r.hlc, st.after (flipSuperseded C bytes r.hash))]
  | none =>
    if r.blob.isEmpty then []
    else blobCommits C .supersede r.blob r.hash st ++
      supersededCommits C r.blob r.hash
        (st.after (insertBlob C r.blob r.hash .supersede r.hlc))

/-- The commits one bundle record asks for. -/
def recordCommits (C : Core G) (r : BundleRecord) (st : DejaDB) : List Attempt :=
  if r.op = 1 then importAddCommits C r st
  else if r.op = 2 then importSupersedeCommits C r st
  else if r.op = 3 then [(.forget r.hash, st)]
  else []

/-- The commits the records of a bundle ask for, up to the first that fails. -/
def recordsCommits (C : Core G) (maxHlc : Option ℤ) : List BundleRecord → DejaDB → List Attempt
  | [], _ => []
  | r :: rs, st =>
    if maxHlc.any (· < r.hlc) then recordsCommits C maxHlc rs st
    else recordCommits C r st ++
      match importRecord C r st with
      | .ok _ st' => recordsCommits C maxHlc rs st'
      | .error _ _ => []

/-- What a bulk erasure is given: the selected grains, or nothing but terms. -/
def eraseCommits (C : Core G) (sel : ErasureSelector) (st : DejaDB) : List Attempt :=
  match selectTargets C sel st with
  | .ok (_, seqs) st₁ =>
    if seqs.dedup.isEmpty then [(.scrub, st₁)] else [(.erase seqs.dedup, st₁)]
  | .error _ _ => []

/-- The commits of a text rebuild. -/
def rebuildCommits (C : Core G) (st : DejaDB) : List Attempt :=
  let st₁ := st.after (warmVocab C st.db.grains)
  if st.indexText then [(.undefer, st₁), (.rebuildText, { st₁ with ftsDeferred := false })] else []

/-- The commits of an open: the handle is made anew, and a stale text index is
rebuilt. -/
def reopenCommits (C : Core G) (explicit : Option DejaDbOptions) (clock : ℕ → ℤ) (st : DejaDB) :
    List Attempt :=
  let st₁ := freshHandle explicit clock st.db
  (.reopen explicit, st) :: if st₁.textIndexStale then rebuildCommits C st₁ else []

/-- The commits of an operation, each with the handle it starts from. -/
def Op.commits (C : Core G) (st : DejaDB) : Op G → List Attempt
  | .add g => addBatchCommits C [g] st
  | .addBatch gs => addBatchCommits C gs st
  | .addIfNovel g => addIfNovelCommits C g st
  | .supersede old g => supersedeCommits C old g st
  | .mergeHeads ns s r g => mergeCommits C ns s r g st
  | .forget hash => [(.forget hash, st)]
  | .forgetSubject ns s m =>
    match checkSubjectSelector C "forget_subject" s m st, st.termLookup ns with
    | .ok _ _, some nsId => eraseCommits C (.identity nsId s m) st
    | _, _ => []
  | .forgetOlderThan ns cutoff gt limit =>
    match ns with
    | none => eraseCommits C (.olderThan none cutoff (gt.map GrainType.ordinal) limit) st
    | some n =>
      match st.termLookup n with
      | some nsId =>
        eraseCommits C (.olderThan (some nsId) cutoff (gt.map GrainType.ordinal) limit) st
      | none => []
  | .importBundle data maxHlc =>
    match parseBundle data with
    | .ok (records, _) => recordsCommits C maxHlc records st
    | .error _ => []
  | .deferTextIndex => [(.defer, st)]
  | .rebuildTextIndex => rebuildCommits C st
  | .setEmbedder e => [(.setEmbedder e, st)]
  | .reopen explicit clock => reopenCommits C explicit clock st

/-- Every commit of an operation meets the guard. -/
def Op.Meets (C : Core G) (Γ : Event → DejaDB → Prop) (st : DejaDB) (op : Op G) : Prop :=
  ∀ x ∈ op.commits C st, Γ x.1 x.2

/-! ## Programs as paths -/

section Programs

variable {Γ : Event → DejaDB → Prop}

theorem path_of_leads {α : Type} {x : StoreM α} (h : Leads Interns x) (st : DejaDB) :
    Path C Γ st (st.after x) :=
  .idle (.of_interns (h st))

theorem path_bind {α β : Type} {x : StoreM α} {f : α → StoreM β} {st : DejaDB}
    (hx : Path C Γ st (st.after x))
    (hf : ∀ a s, x st = .ok a s → Path C Γ s (s.after (f a))) :
    Path C Γ st (st.after (x >>= f)) := by
  unfold DejaDB.after after at hx ⊢
  rw [bind_apply]
  cases h : x st with
  | error e s =>
    rw [h] at hx
    exact hx
  | ok a s =>
    rw [h] at hx
    exact hx.trans (hf a s h)

theorem path_quiet {α : Type} {x : StoreM α} {st : DejaDB} (h : Path C Γ st (st.after x)) :
    Path C Γ st (st.after (quiet x)) :=
  path_bind h fun _ s _ => .refl s

theorem leads_prepGrain (g : Grain G) : Leads Interns (prepGrain C g) :=
  leads_bind (leads_lift _) fun x => leads_prepFromBlob x.1 x.2

theorem prepGrain_ok {g : Grain G} {st st' : DejaDB} {pr : GrainPrep} (hok : VocabOk st)
    (h : prepGrain C g st = .ok pr st') : Written C g pr ∧ ∃ view, Prepared C st' view pr := by
  obtain ⟨⟨blob, hash⟩, st₁, hlift, h₁⟩ := bind_eq_ok.1 h
  obtain ⟨hser, rfl⟩ := lift_eq_ok.1 hlift
  obtain ⟨rfl, rfl, view, hview⟩ := prepFromBlob_ok hok h₁
  exact ⟨hser, view, hview⟩

theorem leads_prepNovel (seen : List Hash) (gs : List (Grain G)) :
    Leads Interns (prepNovel C seen gs) := by
  induction gs generalizing seen with
  | nil => exact leads_pure _
  | cons g gs ih =>
    refine leads_bind (leads_lift _) fun x => leads_bind leads_get fun st => ?_
    split_ifs
    · exact leads_bind (ih _) fun y => leads_pure _
    · exact leads_bind (leads_prepFromBlob _ _) fun pr => leads_bind (ih _) fun y => leads_pure _

theorem prepNovel_ok {seen : List Hash} {gs : List (Grain G)} {st st' : DejaDB}
    {hashes : List Hash} {preps : List GrainPrep} (hok : VocabOk st)
    (h : prepNovel C seen gs st = .ok (hashes, preps) st') :
    ∀ pr ∈ preps, (∃ g, Written C g pr) ∧ ∃ view, Prepared C st' view pr := by
  induction gs generalizing seen st hashes preps with
  | nil =>
    obtain ⟨heq, -⟩ := pure_eq_ok.1 h
    cases heq
    simp
  | cons g gs ih =>
    obtain ⟨⟨blob, hash⟩, st₁, hlift, h₁⟩ := bind_eq_ok.1 h
    obtain ⟨hser, rfl⟩ := lift_eq_ok.1 hlift
    obtain ⟨st₂, st₃, hget, h₂⟩ := bind_eq_ok.1 h₁
    cases hget
    split_ifs at h₂
    · obtain ⟨⟨hs, ps⟩, st₄, hrest, h₃⟩ := bind_eq_ok.1 h₂
      obtain ⟨heq, rfl⟩ := pure_eq_ok.1 h₃
      cases heq
      exact ih hok hrest
    · obtain ⟨pr, st₄, hpr, h₃⟩ := bind_eq_ok.1 h₂
      obtain ⟨⟨hs, ps⟩, st₅, hrest, h₄⟩ := bind_eq_ok.1 h₃
      obtain ⟨heq, rfl⟩ := pure_eq_ok.1 h₄
      cases heq
      obtain ⟨rfl, rfl, view, hview⟩ := prepFromBlob_ok hok hpr
      have hok₄ := ((leads_prepFromBlob _ _).of_ok hpr).vocabOk hok
      intro x hx
      rcases List.mem_cons.1 hx with rfl | hx
      · exact ⟨⟨g, hser⟩, view, hview.mono ((leads_prepNovel _ _).of_ok hrest)⟩
      · exact ih hok₄ hrest x hx

/-- Preparation does not depend on the stamp. -/
theorem Prepared.stamped {a : DejaDB} {view : DeserializedGrain} {pr : GrainPrep}
    (h : Prepared C a view pr) (preps : List GrainPrep) : Prepared C (a.stamped preps) view pr := by
  have hdef : (a.stamped preps).ftsDeferred = a.ftsDeferred := by rw [(stamped_idle a preps).rest]
  have hvocab : (a.stamped preps).db.ftsVocab = a.db.ftsVocab := by
    unfold DejaDB.stamped DejaDB.after after stampMinReader
    rw [modify_apply]
    simp only
    split_ifs <;> rfl
  refine ⟨h.toLinked.mono (stamped_idle a preps).dict, ?_, ?_, ?_, ?_⟩
  · rw [h.osp, DejaDB.IndexesObject, DejaDB.IndexesObject, (stamped_idle a preps).rest]
  · rw [h.text, DejaDB.storedText, DejaDB.storedText, (stamped_idle a preps).rest]
  · have htok := h.tokens
    unfold DejaDB.EncodesText at htok ⊢
    rw [hdef, hvocab]
    exact htok
  · rw [(stamped_idle a preps).rest]
    exact h.embedding

theorem stamped_next (a : DejaDB) (preps : List GrainPrep) :
    (a.stamped preps).nextSeq = a.nextSeq ∧ (a.stamped preps).nextOp = a.nextOp := by
  unfold DejaDB.stamped DejaDB.after after stampMinReader
  rw [modify_apply]
  simp only
  split_ifs <;> exact ⟨rfl, rfl⟩

/-- The tail of an add: reserve, stamp, insert, count. -/
theorem insert_path {α : Type} {a : DejaDB} {preps : List GrainPrep} (r : α)
    (hpreps : ∀ pr ∈ preps, (∃ g, Written C g pr) ∧ ∃ view, Prepared C a view pr)
    (hΓ : Γ (.insert preps) (a.stamped preps)) :
    Path C Γ a (a.after (do
      let (firstSeq, firstOp, hlc0) ← reserveFor preps.length
      stampMinReader preps
      withTxn fun t => (t.insertPrepped preps firstSeq firstOp hlc0).map fun t => ((), t)
      bumpStats preps
      pure r)) := by
  obtain ⟨hseq, hop⟩ := stamped_next a preps
  unfold DejaDB.after after
  rw [bind_apply, reserveFor_apply]
  simp only [bind_apply, stampMinReader_apply, stamped_counters, withTxn]
  have hidle : Idle (a.stamped preps) { a.stamped preps with
      nextSeq := a.nextSeq + preps.length
      nextOp := a.nextOp + preps.length
      hlcLast := a.nextHlcValue + preps.length - 1
      tick := a.tick + 1 } := by
    refine .of_counters _ ?_ ?_ ?_ _
    · rw [hseq]
      omega
    · rw [hop]
      omega
    · rw [stamped_hlcLast]
      exact hlcLast_le_block a _
  refine (Path.idle (stamped_idle a preps)).trans ?_
  cases htxn : (a.stamped preps).db.insertPrepped preps a.nextSeq a.nextOp a.nextHlcValue with
  | error e => exact .idle hidle
  | ok t =>
    rw [← hseq, ← hop, ← stamped_nextHlcValue a preps] at htxn
    have hcommit : Commit C (.insert preps) (a.stamped preps) (((a.stamped preps).committed t
        preps.length preps.length ((a.stamped preps).nextHlcValue + preps.length - 1)
        (a.tick + 1)).withStats preps) :=
      .insert (fun pr hpr => ⟨(hpreps pr hpr).1,
        (hpreps pr hpr).2.imp fun v hv => hv.stamped preps⟩) htxn
    simp only [DejaDB.committed, hseq, hop, stamped_nextHlcValue] at hcommit
    exact .commit hΓ hcommit

theorem addBatch_path {gs : List (Grain G)} {st : DejaDB} (hok : VocabOk st)
    (hΓ : ∀ x ∈ addBatchCommits C gs st, Γ x.1 x.2) :
    Path C Γ st (st.after (addBatch C gs)) := by
  refine path_bind (path_of_leads (leads_prepNovel [] gs) st) ?_
  rintro ⟨hashes, preps⟩ s h
  simp only
  split_ifs
  · exact .refl s
  · refine insert_path hashes (prepNovel_ok hok h) (hΓ (.insert preps, s.stamped preps) ?_)
    rw [addBatchCommits, h]
    exact List.mem_singleton_self _

theorem add_path {g : Grain G} {st : DejaDB} (hok : VocabOk st)
    (hΓ : ∀ x ∈ addBatchCommits C [g] st, Γ x.1 x.2) : Path C Γ st (st.after (add C g)) := by
  refine path_bind (addBatch_path hok hΓ) fun hashes s _ => ?_
  cases hashes <;> exact .refl s

theorem leads_probeView (g : Grain G) : Leads Interns (probeView C g) :=
  leads_bind (leads_lift _) fun _ => leads_bind (leads_lift _) fun view =>
    leads_bind (leads_createdAtOf view) fun _ => leads_pure _

/-- Preparing and reserving: the preparation failed, or the counters moved on by
one grain. -/
theorem prepAndReserve_cases (C : Core G) (g : Grain G) (st : DejaDB) :
    (∃ e s, prepGrain C g st = .error e s ∧ prepAndReserve C g st = .error e s) ∨
    ∃ pr s, prepGrain C g st = .ok pr s ∧
      prepAndReserve C g st = .ok (pr, s.nextSeq, s.nextOp, s.nextHlcValue) { s with
        nextSeq := s.nextSeq + 1
        nextOp := s.nextOp + 1
        hlcLast := s.nextHlcValue
        tick := s.tick + 1 } := by
  unfold prepAndReserve
  rw [bind_apply]
  cases h : prepGrain C g st with
  | error e s => exact .inl ⟨e, s, rfl, rfl⟩
  | ok pr s =>
    refine .inr ⟨pr, s, rfl, ?_⟩
    simp only [bind_apply, reserveFor_apply, Nat.cast_one, add_sub_cancel_right]
    rfl

theorem leads_prepGrain_error {g : Grain G} {st s : DejaDB} {e : DejaDbError}
    (h : prepGrain C g st = .error e s) : Path C Γ st s :=
  .idle (.of_interns ((leads_prepGrain g).of_error h))

theorem leads_prepGrain_ok {g : Grain G} {st s : DejaDB} {pr : GrainPrep}
    (h : prepGrain C g st = .ok pr s) : Path C Γ st s :=
  .idle (.of_interns ((leads_prepGrain g).of_ok h))

/-- The tail of a supersession or a merge: reserve the closing record, run the
transaction, count. -/
theorem close_path {α : Type} (a : DejaDB) (pr : GrainPrep) (r : α)
    (body : Slots → Tables → Except DejaDbError Tables)
    (hcommit : ∀ t wall now tick, body ⟨a.nextSeq, a.nextOp, a.nextHlcValue, a.nextOp + 1,
        advanceHlc a.nextHlcValue wall, now⟩ a.db = .ok t →
      Path C Γ a ((a.committed t 1 2 (advanceHlc a.nextHlcValue wall) tick).withStats [pr])) :
    Path C Γ a (DejaDB.after { a with
        nextSeq := a.nextSeq + 1
        nextOp := a.nextOp + 1
        hlcLast := a.nextHlcValue
        tick := a.tick + 1 } (do
      let now ← nowMs
      let (opClose, hlcClose) ← reserveOp
      withTxn fun t =>
        (body ⟨a.nextSeq, a.nextOp, a.nextHlcValue, opClose, hlcClose, now⟩ t).map fun t => ((), t)
      bumpStats [pr]
      pure r)) := by
  unfold DejaDB.after after
  simp only [bind_apply, nowMs, reserveOp_apply, withTxn]
  have hlast := (lt_nextHlcValue a).trans
    (lt_advanceHlc a.nextHlcValue (a.clock (a.tick + 1 + 1)))
  cases htxn : body ⟨a.nextSeq, a.nextOp, a.nextHlcValue, a.nextOp + 1,
      advanceHlc a.nextHlcValue (a.clock (a.tick + 1 + 1)), a.clock (a.tick + 1)⟩ a.db with
  | error e =>
    simp only [DejaDB.nextHlcValue] at htxn hlast ⊢
    rw [htxn]
    exact .idle (.of_counters a (by omega) (by omega) hlast.le _)
  | ok t =>
    have hpath := hcommit t (a.clock (a.tick + 1 + 1)) (a.clock (a.tick + 1))
      (a.tick + 1 + 1 + 1) htxn
    simp only [DejaDB.nextHlcValue] at htxn hpath ⊢
    rw [htxn]
    rw [DejaDB.committed, show a.nextOp + 2 = a.nextOp + 1 + 1 by ring] at hpath
    exact hpath

theorem supersede_path {old : Hash} {g : Grain G} {st : DejaDB} (hok : VocabOk st)
    (hΓ : ∀ x ∈ supersedeCommits C old g st, Γ x.1 x.2) :
    Path C Γ st (st.after (supersede C old g)) := by
  unfold DejaDB.after after supersede
  rw [bind_apply, get_apply]
  simp only
  cases hrow : st.db.grainByHash old with
  | none => exact .refl st
  | some row =>
    simp only
    by_cases hsvt : row.svt.isSome
    · rw [if_pos hsvt]
      exact .refl st
    · rw [if_neg hsvt, bind_apply]
      rcases prepAndReserve_cases C { g with derivedFrom := some old.toHex } st with
        ⟨e, s, hprep, hres⟩ | ⟨pr, s, hprep, hres⟩
      · rw [hres]
        exact leads_prepGrain_error hprep
      · rw [hres]
        refine (leads_prepGrain_ok hprep).trans (close_path s pr pr.hash
          (fun n t => t.supersedeTxn old row.key pr n) fun t wall now tick htxn => ?_)
        obtain ⟨hwritten, view, hprepared⟩ := prepGrain_ok hok hprep
        have hdb : s.db.grainByHash old = some row := by
          rw [Tables.grainByHash, ((leads_prepGrain _).of_ok hprep).file]
          exact hrow
        refine .commit (hΓ (.supersede old pr, s) ?_) (.supersede hwritten hprepared hdb htxn)
        rw [supersedeCommits, hrow, if_pos (by simpa using hsvt), hprep]
        exact List.mem_singleton_self _

theorem mergeHeads_path {ns subject relation : String} {g : Grain G} {st : DejaDB}
    (hok : VocabOk st) (hΓ : ∀ x ∈ mergeCommits C ns subject relation g st, Γ x.1 x.2) :
    Path C Γ st (st.after (mergeHeads C ns subject relation g)) := by
  unfold DejaDB.after after mergeHeads
  rw [bind_apply, get_apply]
  simp only
  cases hkey : st.keyOf ns subject relation with
  | none =>
    rw [show st.heads ns subject relation = [] by rw [DejaDB.heads, hkey]]
    exact .refl st
  | some k =>
    have hheads : (st.heads ns subject relation).map Prod.fst =
        (st.db.headsOf k).map HeadRow.hash := by
      rw [DejaDB.heads, hkey]
      simp
    rw [hheads]
    match htips : (st.db.headsOf k).map HeadRow.hash with
    | [] => exact .refl st
    | [_] => exact .refl st
    | first :: second :: rest =>
      simp only
      rw [bind_apply]
      rcases prepAndReserve_cases C { g with
          derivedFrom := some first.toHex
          context := some (mergeContext g.context (first :: second :: rest)) } st with
        ⟨e, s, hprep, hres⟩ | ⟨pr, s, hprep, hres⟩
      · rw [hres]
        exact leads_prepGrain_error hprep
      · rw [hres]
        refine (leads_prepGrain_ok hprep).trans (close_path s pr pr.hash
          (fun n t => t.mergeTxn (first :: second :: rest) pr n) fun t wall now tick htxn => ?_)
        obtain ⟨hwritten, view, hprepared⟩ := prepGrain_ok hok hprep
        have hdb : (s.db.headsOf k).map HeadRow.hash = first :: second :: rest := by
          rw [Tables.headsOf, ((leads_prepGrain _).of_ok hprep).file]
          exact htips
        refine .commit (hΓ (.merge k pr, s) ?_) (.merge hwritten hprepared hdb htxn)
        rw [mergeCommits, hkey]
        simp only [htips, hprep]
        exact List.mem_singleton_self _

theorem addIfNovel_path {g : Grain G} {st : DejaDB} (hok : VocabOk st)
    (hΓ : ∀ x ∈ addIfNovelCommits C g st, Γ x.1 x.2) :
    Path C Γ st (st.after (addIfNovel C g)) := by
  refine path_bind (path_of_leads (leads_probeView g) st) fun gv s hgv => ?_
  have hok : VocabOk s := ((leads_probeView g).of_ok hgv).vocabOk hok
  unfold DejaDB.after after
  rw [bind_apply, get_apply]
  simp only
  cases hprobe : s.novelProbe gv with
  | some h => exact .refl s
  | none =>
    simp only
    rw [bind_apply]
    rcases prepAndReserve_cases C g s with ⟨e, s₁, hprep, hres⟩ | ⟨pr, s₁, hprep, hres⟩
    · rw [hres]
      exact leads_prepGrain_error hprep
    · rw [hres]
      refine (leads_prepGrain_ok hprep).trans ((Path.idle (stamped_idle s₁ [pr])).trans ?_)
      obtain ⟨hseq, hop⟩ := stamped_next s₁ [pr]
      simp only [bind_apply, stampMinReader_apply, stamped_counters, withTxn]
      have hidle : Idle (s₁.stamped [pr]) { s₁.stamped [pr] with
          nextSeq := s₁.nextSeq + 1
          nextOp := s₁.nextOp + 1
          hlcLast := s₁.nextHlcValue
          tick := s₁.tick + 1 } := by
        refine .of_counters _ (by omega) (by omega) ?_ _
        rw [stamped_hlcLast]
        exact (lt_nextHlcValue s₁).le
      cases htxn : (s₁.stamped [pr]).db.addIfNovelTxn pr s₁.nextSeq s₁.nextOp s₁.nextHlcValue with
      | error e => exact .idle hidle
      | ok out =>
        obtain ⟨existing, t⟩ := out
        rcases Tables.addIfNovelTxn_ok htxn with ⟨hsome, rfl⟩ | ⟨rfl, hins⟩
        · obtain ⟨h, rfl⟩ := Option.isSome_iff_exists.1 hsome
          exact .idle hidle
        · obtain ⟨hwritten, hprepared⟩ := prepGrain_ok hok hprep
          rw [← hseq, ← hop, ← stamped_nextHlcValue s₁ [pr]] at hins
          have hcommit := @Commit.insert _ C _ _ _ (s₁.tick + 1) (fun x hx => by
            obtain rfl := List.mem_singleton.1 hx
            exact ⟨⟨g, hwritten⟩, hprepared.imp fun v hv => hv.stamped [x]⟩) hins
          simp only [DejaDB.committed, hseq, hop, stamped_nextHlcValue, List.length_singleton,
            Nat.cast_one, add_sub_cancel_right] at hcommit
          refine .commit (hΓ (.insert [pr], s₁.stamped [pr]) ?_) hcommit
          rw [addIfNovelCommits, hgv]
          simp only [hprobe, Option.isSome_none, Bool.false_eq_true, if_false, hprep]
          exact List.mem_singleton_self _

theorem forget_path {hash : Hash} {st : DejaDB} (hΓ : Γ (.forget hash) st) :
    Path C Γ st (st.after (forget hash)) := by
  unfold DejaDB.after after forget
  rw [bind_apply, get_apply]
  simp only
  cases hrow : st.db.grainByHash hash with
  | none => exact .refl st
  | some row =>
    simp only
    rw [bind_apply, reserveOp_apply]
    simp only [bind_apply, withTxn]
    cases htxn : st.db.forgetTxn hash row.key st.nextOp st.nextHlcValue with
    | error e =>
      exact .idle (.of_counters st (le_refl _) (by omega) (lt_nextHlcValue st).le _)
    | ok out =>
      obtain ⟨len, t⟩ := out
      have hcommit : Commit C (.forget hash) st
          ((st.committed t 0 1 st.nextHlcValue (st.tick + 1)).droppedDoc len) := .forget hrow htxn
      rw [DejaDB.committed, add_zero] at hcommit
      cases len <;> exact .commit hΓ hcommit

theorem leads_looks_mentioning (nsId : ℤ) (ts : List String) :
    Leads Looks (mentioning nsId ts) := by
  induction ts with
  | nil => exact leads_pure _
  | cons t ts ih =>
    refine leads_bind (leads_looks_ftsTermLookup t) fun id => leads_bind leads_get fun st => ?_
    cases ts with
    | nil => exact leads_pure _
    | cons t' ts =>
      simp only
      split_ifs
      · exact leads_pure _
      · exact leads_bind ih fun rest => leads_pure _

theorem leads_looks_selectTargets (sel : ErasureSelector) :
    Leads Looks (selectTargets C sel) := by
  cases sel with
  | identity nsId subject textMentions =>
    refine leads_bind leads_get fun st => ?_
    split_ifs
    · exact leads_bind (leads_looks_mentioning nsId _) fun _ => leads_pure _
    · exact leads_pure _
  | olderThan nsId cutoffMs gtype limit => exact leads_bind leads_get fun st => leads_pure _

/-- The closure of an erasure that failed left the file as it was. -/
theorem eraseBody_error {sel : ErasureSelector} {a b : DejaDB} {e : DejaDbError}
    (h : eraseBody C sel a = .error e b) : Idle a b ∧ b.db = a.db := by
  rcases bind_eq_error.1 h with h₁ | ⟨⟨ids, seqs⟩, a₁, hsel, h₁⟩
  · have hlooks := (leads_looks_selectTargets sel).of_error h₁
    exact ⟨hlooks.idle, by rw [hlooks.rest]⟩
  · have hlooks := (leads_looks_selectTargets sel).of_ok hsel
    have hdb : a₁.db = a.db := by rw [hlooks.rest]
    simp only at h₁
    split_ifs at h₁
    · rcases bind_eq_error.1 h₁ with h₂ | ⟨gone, a₂, -, h₂⟩
      · obtain rfl := withTxn_error h₂
        exact ⟨hlooks.idle, hdb⟩
      · cases h₂
    · rw [bind_apply, reserveTombstones_apply] at h₁
      obtain rfl := withTxn_error h₁
      exact ⟨hlooks.idle.trans
        (.of_counters a₁ (le_refl _) (by omega) (hlcLast_le_block a₁ _) _), hdb⟩

/-- The closure of an erasure that went through: terms were scrubbed where
nothing was selected, else the selected grains were erased. -/
theorem eraseBody_ok {sel : ErasureSelector} {a b : DejaDB} {out : EraseOut}
    (h : eraseBody C sel a = .ok out b) : ∃ ids seqs s, selectTargets C sel a = .ok (ids, seqs) s ∧
      Looks a s ∧
      ((seqs.dedup.isEmpty ∧ ∃ gone t, s.db.scrubTerms ids = .ok (gone, t) ∧
        out.docs = 0 ∧ out.lenSum = 0 ∧ out.scrubbed = gone ∧ out.report.vocabRemoved = 0 ∧
        out.report.erasedHashes = [] ∧ b = { s with db := t }) ∨
      (¬seqs.dedup.isEmpty ∧ ∃ t tick,
        s.db.eraseTxn seqs.dedup ids s.nextOp s.nextHlcValue = .ok (out, t) ∧
        b = s.committed t 0 seqs.dedup.length (s.nextHlcValue + seqs.dedup.length - 1) tick)) := by
  obtain ⟨⟨ids, seqs⟩, s, hsel, h₁⟩ := bind_eq_ok.1 h
  refine ⟨ids, seqs, s, hsel, (leads_looks_selectTargets sel).of_ok hsel, ?_⟩
  simp only at h₁
  split_ifs at h₁ with hemp
  · obtain ⟨gone, s₁, hscrub, h₂⟩ := bind_eq_ok.1 h₁
    obtain ⟨t, ht, rfl⟩ := withTxn_ok hscrub
    obtain ⟨rfl, rfl⟩ := pure_eq_ok.1 h₂
    exact .inl ⟨hemp, gone, t, ht, rfl, rfl, rfl, rfl, rfl, rfl⟩
  · rw [bind_apply, reserveTombstones_apply] at h₁
    obtain ⟨t, ht, rfl⟩ := withTxn_ok h₁
    refine .inr ⟨hemp, t, s.tick + 1, ht, ?_⟩
    rw [DejaDB.committed, add_zero]

theorem eraseWhere_path {sel : ErasureSelector} {st : DejaDB}
    (hΓ : ∀ x ∈ eraseCommits C sel st, Γ x.1 x.2) :
    Path C Γ st (st.after (eraseWhere C sel)) := by
  unfold DejaDB.after after eraseWhere
  rw [bind_apply, atomically]
  cases h : eraseBody C sel st with
  | error e s =>
    obtain ⟨hidle, hdb⟩ := eraseBody_error h
    simp only [← hdb]
    exact .idle hidle
  | ok out s =>
    obtain ⟨ids, seqs, s₁, hsel, hlooks, hcase⟩ := eraseBody_ok h
    refine (Path.idle hlooks.idle).trans ?_
    rw [eraseCommits, hsel] at hΓ
    simp only at hΓ
    rcases hcase with ⟨hemp, gone, t, htxn, hdocs, hlen, hgone, hremoved, -, rfl⟩ |
      ⟨hemp, t, tick, htxn, rfl⟩
    · rw [if_pos hemp] at hΓ
      simp only [bind_apply, dropStats_apply, modify_apply, pure_apply, hdocs, hlen, hgone,
        hremoved]
      exact .commit (hΓ _ (List.mem_singleton_self _)) (.scrub htxn)
    · rw [if_neg hemp] at hΓ
      have hcommit : Commit C (.erase seqs.dedup) s₁
          (((s₁.committed t 0 seqs.dedup.length (s₁.nextHlcValue + seqs.dedup.length - 1)
            tick).dropped out.docs out.lenSum).evicted out.scrubbed
            (0 < out.report.vocabRemoved)) := .erase htxn
      simp only [DejaDB.evicted, decide_eq_true_eq] at hcommit
      exact .commit (hΓ _ (List.mem_singleton_self _)) hcommit

theorem checkSubjectSelector_apply (op subject : String) (textMentions : Bool) (st : DejaDB) :
    checkSubjectSelector C op subject textMentions st = .ok ⟨⟩ st ∨
      ∃ e, checkSubjectSelector C op subject textMentions st = .error e st := by
  unfold checkSubjectSelector
  rw [bind_apply, get_apply]
  simp only
  split_ifs
  · exact .inr ⟨_, rfl⟩
  · exact .inr ⟨_, rfl⟩
  · exact .inl rfl

theorem forgetSubjectWith_path {ns subject : String} {textMentions : Bool} {st : DejaDB}
    (hΓ : ∀ x ∈ (Op.forgetSubject ns subject textMentions : Op G).commits C st, Γ x.1 x.2) :
    Path C Γ st (st.after (forgetSubjectWith C ns subject textMentions)) := by
  unfold DejaDB.after after forgetSubjectWith
  simp only [Op.commits] at hΓ
  rw [bind_apply]
  rcases checkSubjectSelector_apply (C := C) "forget_subject" subject textMentions st with
    h | ⟨e, h⟩
  · rw [h] at hΓ ⊢
    simp only
    rw [bind_apply, get_apply]
    simp only
    cases hns : st.termLookup ns with
    | none => exact .refl st
    | some nsId =>
      rw [hns] at hΓ
      exact eraseWhere_path hΓ
  · rw [h]
    exact .refl st

theorem forgetOlderThanCapped_path {ns : Option String} {cutoff : ℤ} {gt : Option GrainType}
    {limit : Option ℕ} {st : DejaDB}
    (hΓ : ∀ x ∈ (Op.forgetOlderThan ns cutoff gt limit : Op G).commits C st, Γ x.1 x.2) :
    Path C Γ st (st.after (forgetOlderThanCapped C ns cutoff gt limit)) := by
  unfold DejaDB.after after forgetOlderThanCapped
  split_ifs
  · exact .refl st
  · cases ns with
    | none => exact eraseWhere_path hΓ
    | some n =>
      simp only [Op.commits] at hΓ
      simp only
      rw [bind_apply, get_apply]
      simp only
      cases hns : st.termLookup n with
      | none => exact .refl st
      | some nsId =>
        rw [hns] at hΓ
        exact eraseWhere_path hΓ

/-! ## Import as paths -/

theorem insertBlob_path {blob : Bytes} {hash : Hash} {op : OpKind} {hlc : ℤ} {st : DejaDB}
    (hok : VocabOk st) (hΓ : ∀ x ∈ blobCommits C op blob hash st, Γ x.1 x.2) :
    Path C Γ st (st.after (insertBlob C blob hash op hlc)) := by
  refine path_bind (path_of_leads (leads_prepFromBlob blob hash) st) fun pr s hprep => ?_
  obtain ⟨-, -, view, hview⟩ := prepFromBlob_ok hok hprep
  unfold DejaDB.after after
  simp only [bind_apply, get_apply, set_apply, withTxn]
  cases htxn : s.db.insertBlobTxn pr s.nextSeq s.nextOp hlc op with
  | error e => exact .idle (.of_counters s (by omega) (by omega) (le_max_left _ _) _)
  | ok t =>
    refine .commit (hΓ (.insertBlob op pr, s) ?_) (.insertBlob hview htxn)
    rw [blobCommits, hprep]
    exact List.mem_singleton_self _

theorem applySupersedeFlip_path {old new : Hash} {st : DejaDB} (hΓ : Γ (.flip old new) st) :
    Path C Γ st (st.after (applySupersedeFlip old new)) := by
  obtain ⟨now, tick, h⟩ := applySupersedeFlip_apply old new st
  rw [DejaDB.after, after_of_ok h]
  exact .commit hΓ .flip

theorem flipParents_path {hash : Hash} {olds : List Hash} {st : DejaDB}
    (hΓ : ∀ x ∈ flipCommits hash olds st, Γ x.1 x.2) :
    Path C Γ st (st.after (flipParents hash olds)) := by
  induction olds generalizing st with
  | nil => exact .refl st
  | cons old olds ih =>
    rw [flipCommits, List.forall_mem_cons] at hΓ
    refine path_bind (applySupersedeFlip_path hΓ.1) fun changed s hs => ?_
    have hs' : st.after (applySupersedeFlip old hash) = s := after_of_ok hs
    rw [hs'] at hΓ
    exact path_bind (ih hΓ.2) fun rest s _ => .refl s

theorem flipSuperseded_path {blob : Bytes} {hash : Hash} {st : DejaDB}
    (hΓ : ∀ x ∈ supersededCommits C blob hash st, Γ x.1 x.2) :
    Path C Γ st (st.after (flipSuperseded C blob hash)) := by
  unfold flipSuperseded
  unfold supersededCommits at hΓ
  cases hview : C.deserializeBlob blob with
  | error e => exact .refl st
  | ok view =>
    rw [hview] at hΓ
    exact flipParents_path hΓ

theorem logOp_path {hash : Hash} {hlc : ℤ} {st : DejaDB} (hΓ : Γ (.log hash hlc) st) :
    Path C Γ st (st.after (logOp .supersede hash hlc)) := by
  unfold DejaDB.after after logOp
  simp only [bind_apply, get_apply, set_apply, withTxn]
  cases htxn : st.db.insertOp ⟨st.nextOp, hlc, .supersede, hash⟩ with
  | error e => exact .idle (.of_counters st (le_refl _) (by omega) (le_refl _) _)
  | ok t =>
    have hcommit : Commit C (.log hash hlc) st (st.committed t 0 1 st.hlcLast st.tick) :=
      .log htxn
    rw [DejaDB.committed, add_zero] at hcommit
    exact .commit hΓ hcommit

theorem importAdd_path {r : BundleRecord} {st : DejaDB} (hok : VocabOk st)
    (hΓ : ∀ x ∈ importAddCommits C r st, Γ x.1 x.2) :
    Path C Γ st (st.after (importAdd C r)) := by
  unfold DejaDB.after after importAdd
  unfold importAddCommits at hΓ
  rw [bind_apply, get_apply]
  simp only
  split_ifs at hΓ ⊢ with h
  · exact .refl st
  · exact path_bind (insertBlob_path hok hΓ) fun _ s _ => .refl s

theorem importSupersede_path {r : BundleRecord} {st : DejaDB} (hok : VocabOk st)
    (hΓ : ∀ x ∈ importSupersedeCommits C r st, Γ x.1 x.2) :
    Path C Γ st (st.after (importSupersede C r)) := by
  unfold DejaDB.after after importSupersede
  unfold importSupersedeCommits at hΓ
  rw [bind_apply, get_apply]
  simp only
  cases hrow : st.db.grainByHash r.hash with
  | some g =>
    rw [hrow] at hΓ
    have hbytes : (if r.blob.isEmpty then (some g).map GrainRow.blob else some r.blob) =
        some (if r.blob.isEmpty then g.blob else r.blob) := by
      split_ifs <;> rfl
    rw [hbytes]
    simp only [Option.isSome_some, if_true]
    rw [List.forall_mem_append, List.forall_mem_singleton] at hΓ
    refine path_bind (flipSuperseded_path hΓ.1) fun changed s hs => ?_
    have hs' := after_of_ok hs
    rw [DejaDB.after, hs'] at hΓ
    cases changed
    · exact .refl s
    · exact path_bind (logOp_path hΓ.2) fun _ s _ => .refl s
  | none =>
    rw [hrow] at hΓ
    simp only [Option.isSome_none, Bool.false_eq_true, if_false, Option.map_none] at hΓ ⊢
    by_cases hemp : r.blob.isEmpty
    · rw [if_pos hemp]
      exact .refl st
    · rw [if_neg hemp, List.forall_mem_append] at hΓ
      rw [if_neg hemp]
      refine path_bind (insertBlob_path hok hΓ.1) fun _ s hs => ?_
      have hs' := after_of_ok hs
      rw [DejaDB.after, hs'] at hΓ
      exact path_bind (flipSuperseded_path hΓ.2) fun _ s _ => .refl s

theorem importForget_after (r : BundleRecord) (st : DejaDB) :
    st.after (importForget r) = st.after (forget r.hash) := by
  unfold DejaDB.after after importForget
  cases forget r.hash st with
  | ok _ s => rfl
  | error e s => cases e <;> rfl

theorem importRecord_path {r : BundleRecord} {st : DejaDB} (hok : VocabOk st)
    (hΓ : ∀ x ∈ recordCommits C r st, Γ x.1 x.2) :
    Path C Γ st (st.after (importRecord C r)) := by
  unfold importRecord
  unfold recordCommits at hΓ
  split_ifs at hΓ ⊢
  · exact importAdd_path hok hΓ
  · exact importSupersede_path hok hΓ
  · rw [importForget_after]
    exact forget_path (hΓ _ (List.mem_singleton_self _))
  · exact .refl st

theorem importRecords_path {maxHlc : Option ℤ} {stats : ImportStats} {rs : List BundleRecord}
    {st : DejaDB} (hok : VocabOk st) (hΓ : ∀ x ∈ recordsCommits C maxHlc rs st, Γ x.1 x.2) :
    Path C Γ st (st.after (importRecords C maxHlc stats rs)) := by
  induction rs generalizing st stats with
  | nil => exact .refl st
  | cons r rs ih =>
    unfold importRecords
    unfold recordsCommits at hΓ
    split_ifs at hΓ ⊢
    · exact ih hok hΓ
    · rw [List.forall_mem_append] at hΓ
      have hpath := importRecord_path hok hΓ.1
      refine path_bind hpath fun applied s hs => ?_
      rw [hs] at hΓ
      rw [DejaDB.after, after_of_ok hs] at hpath
      exact ih (hpath.vocabOk hok) hΓ.2

theorem importBundleUntil_path {data : Bytes} {maxHlc : Option ℤ} {st : DejaDB}
    (hok : VocabOk st)
    (hΓ : ∀ x ∈ (Op.importBundle data maxHlc : Op G).commits C st, Γ x.1 x.2) :
    Path C Γ st (st.after (importBundleUntil C data maxHlc)) := by
  refine path_bind (path_of_leads (leads_lift _) st) ?_
  rintro ⟨records, err⟩ s hs
  obtain ⟨hparse, rfl⟩ := lift_eq_ok.1 hs
  simp only [Op.commits, hparse] at hΓ
  refine path_bind (importRecords_path hok hΓ) fun stats s _ => ?_
  cases err <;> exact .refl s

/-! ## Maintenance as paths -/

theorem deferTextIndex_path {st : DejaDB} (hΓ : Γ .defer st) :
    Path C Γ st (st.after deferTextIndex) := by
  unfold DejaDB.after after deferTextIndex
  rw [bind_apply, get_apply]
  simp only
  split_ifs with h
  · exact .refl st
  · rw [not_or] at h
    exact .commit hΓ (.defer (by simpa using h.1))

theorem leads_warmVocab (grains : List GrainRow) : Leads Interns (warmVocab C grains) := by
  refine leads_forM (fun g => leads_bind (leads_lift _) fun text => ?_) grains
  cases text with
  | none => exact leads_pure _
  | some t =>
    exact leads_forM (fun x : String × ℤ => leads_bind (leads_ftsTermId x.1) fun _ =>
      leads_pure _) _

theorem rebuildTextIndex_path {st : DejaDB} (hΓ : ∀ x ∈ rebuildCommits C st, Γ x.1 x.2) :
    Path C Γ st (st.after (rebuildTextIndex C)) := by
  unfold DejaDB.after after rebuildTextIndex
  rw [bind_apply, get_apply]
  simp only
  cases hon : st.indexText with
  | false => exact .refl st
  | true =>
    simp only [rebuildCommits, hon, if_true] at hΓ
    simp only [Bool.not_true, Bool.false_eq_true, if_false]
    refine path_bind (path_of_leads (leads_warmVocab st.db.grains) st) fun _ s hs => ?_
    have hlead := (leads_warmVocab st.db.grains).of_ok hs
    rw [DejaDB.after, after_of_ok hs] at hΓ
    refine (Path.commit (hΓ _ (List.mem_cons_self ..)) .undefer).trans ?_
    unfold DejaDB.after after
    simp only [bind_apply, modify_apply, atomically]
    cases hbody : rebuildTextBody C { s with ftsDeferred := false } with
    | error e b =>
      have hlooks := rebuildTextBody_error hbody
      have hdb : b.db = s.db := by rw [hlooks.rest]
      have hb : { b with db := s.db } = b := by rw [← hdb]
      show Path C Γ _ { b with db := s.db }
      rw [hb]
      exact .idle hlooks.idle
    | ok out b =>
      obtain ⟨n, docs, len⟩ := out
      exact .commit (hΓ _ (List.mem_cons_of_mem _ (List.mem_singleton_self _)))
        (.rebuildText (by rw [hlead.rest]; exact hon) rfl hbody)

/-- An open of a file whose link indexes are current. -/
theorem reopen_path {explicit : Option DejaDbOptions} {clock : ℕ → ℤ} {st : DejaDB}
    (hlink : st.db.info.linkIndex = some linkIndexVersion)
    (hΓ : ∀ x ∈ reopenCommits C explicit clock st, Γ x.1 x.2) :
    Path C Γ st (st.after fun st => finishOpen C explicit clock st.db) := by
  rw [reopenCommits, List.forall_mem_cons] at hΓ
  have hopen : Commit C (.reopen explicit) st (freshHandle explicit clock st.db) := .reopen
  refine (Path.commit hΓ.1 hopen).trans ?_
  show Path C Γ _ ((freshHandle explicit clock st.db).after (healIndexes C))
  unfold healIndexes
  refine path_bind (.refl _) fun s₁ s₂ hget => ?_
  cases hget
  have hrest : ∀ s : DejaDB, Path C Γ s (s.after (do
      if (freshHandle explicit clock st.db).db.info.linkIndex ≠ some linkIndexVersion then
        if (freshHandle explicit clock st.db).db.grains.isEmpty then stampLinkIndex
        else let _ ← rebuildLinkIndexes C)) := by
    intro s
    have hcur : (freshHandle explicit clock st.db).db.info.linkIndex = some linkIndexVersion :=
      hlink
    rw [if_neg (not_not.2 hcur)]
    exact .refl s
  cases hstale : (freshHandle explicit clock st.db).textIndexStale with
  | false => exact hrest _
  | true =>
    simp only [hstale, if_true] at hΓ
    exact path_bind (rebuildTextIndex_path hΓ.2) fun _ s _ => hrest s

/-! ## Every operation is a path -/

/-- A handle an operation may start from: its vocabulary cache is in order and
the link indexes of its file are current. -/
structure DejaDB.Sound (st : DejaDB) : Prop where
  vocabOk : VocabOk st
  link : st.db.info.linkIndex = some linkIndexVersion

/-- **An operation is a path.**  If every commit it attempts meets the guard, the
handle moves by idle moves and guarded commits. -/
theorem Op.path {op : Op G} {st : DejaDB} (hok : st.Sound) (h : op.Meets C Γ st) :
    Path C Γ st (st.step C op) := by
  cases op with
  | add g => exact path_quiet (add_path hok.vocabOk h)
  | addBatch gs => exact path_quiet (addBatch_path hok.vocabOk h)
  | addIfNovel g => exact path_quiet (addIfNovel_path hok.vocabOk h)
  | supersede old g => exact path_quiet (supersede_path hok.vocabOk h)
  | mergeHeads ns s r g => exact path_quiet (mergeHeads_path hok.vocabOk h)
  | forget hash => exact forget_path (h _ (List.mem_singleton_self _))
  | forgetSubject ns s m => exact path_quiet (forgetSubjectWith_path h)
  | forgetOlderThan ns cutoff gt limit => exact path_quiet (forgetOlderThanCapped_path h)
  | importBundle data maxHlc => exact path_quiet (importBundleUntil_path hok.vocabOk h)
  | deferTextIndex => exact path_quiet (deferTextIndex_path (h _ (List.mem_singleton_self _)))
  | rebuildTextIndex => exact path_quiet (rebuildTextIndex_path h)
  | setEmbedder e => exact .commit (h _ (List.mem_singleton_self _)) .setEmbedder
  | reopen explicit clock => exact reopen_path hok.link h

end Programs

/-! ## Runs -/

variable {Γ : Event → DejaDB → Prop}

/-- Every commit of every operation of a run meets the guard. -/
def Meets (C : Core G) (Γ : Event → DejaDB → Prop) : DejaDB → List (Op G) → Prop
  | _, [] => True
  | st, op :: ops => op.Meets C Γ st ∧ Meets C Γ (st.step C op) ops

/-- The guard is checked by running the operations. -/
instance Meets.decidable [∀ ev a, Decidable (Γ ev a)] (st : DejaDB) :
    ∀ ops : List (Op G), Decidable (Meets C Γ st ops)
  | [] => .isTrue trivial
  | op :: ops =>
    have := Meets.decidable (st.step C op) ops
    have : Decidable (op.Meets C Γ st) :=
      inferInstanceAs (Decidable (∀ x ∈ op.commits C st, Γ x.1 x.2))
    inferInstanceAs (Decidable (_ ∧ _))

/-- **Runs are paths.** -/
theorem steps_path {ops : List (Op G)} {st : DejaDB} (hok : st.Sound) (h : Meets C Γ st ops) :
    Path C Γ st (st.steps C ops) := by
  induction ops generalizing st with
  | nil => exact .refl st
  | cons op ops ih =>
    have hstep := Op.path hok h.1
    exact hstep.trans (ih ⟨hstep.vocabOk hok.vocabOk, hstep.link hok.link⟩ h.2)

/-- A newly created file is empty but for its declarations. -/
theorem createStore_eq (C : Core G) (explicit : Option DejaDbOptions) (clock : ℕ → ℤ) :
    createStore C explicit clock = { freshHandle explicit clock Tables.empty with
      db := { Tables.empty with info := { Meta.empty with
        textIndex := some (Meta.empty.resolve explicit).indexText
        entityRelations := some (Meta.empty.resolve explicit).entityRelations
        linkIndex := some linkIndexVersion } } } := by
  have hstale : (freshHandle explicit clock Tables.empty).textIndexStale = false := by
    simp [DejaDB.textIndexStale, freshHandle, Tables.empty]
  unfold createStore DejaDB.after after healIndexes
  rw [bind_apply, get_apply]
  simp only
  rw [hstale]
  rfl

/-- The empty file has its dictionaries in order. -/
theorem createStore_ok (C : Core G) (explicit : Option DejaDbOptions) (clock : ℕ → ℤ) :
    VocabOk (createStore C explicit clock) ∧ DictOk (createStore C explicit clock) := by
  rw [createStore_eq]
  refine ⟨⟨?_, ?_, ?_⟩, ⟨?_, ?_, ?_, ?_, ?_⟩⟩ <;>
    simp [freshHandle, Tables.empty, Assoc.ofRows]

end Deja
