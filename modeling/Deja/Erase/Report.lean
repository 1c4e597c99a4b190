import Deja.Erase.Survivors

/-!
# Show me everything, then delete it

`subject_report_with` and `forget_subject_with` share one selection, so the
report shows exactly what the erasure then takes, and nothing is left for a
second report (`subject_erasure_complete`).  The strings of the identity go with
it once nothing refers to them, if the namespace is known and the string does
not look like a placeholder.
-/

namespace Deja

open Run

variable {G : Type} {C : Core G}

/-! ## The report -/

/-- The check of the subject selector passes or fails by the subject and two
switches of the handle. -/
theorem checkSubjectSelector_ok_iff {op subject : String} {textMentions : Bool} {a : DejaDB} :
    checkSubjectSelector C op subject textMentions a = .ok ⟨⟩ a ↔
      ¬subject.toList.all C.isWhitespace ∧ ¬(textMentions ∧ (!a.indexText ∨ a.ftsDeferred)) := by
  unfold checkSubjectSelector
  rw [bind_apply, get_apply]
  simp only
  split_ifs with hblank htext
  · exact iff_of_false (fun h => nomatch h) fun h => h.1 hblank
  · exact iff_of_false (fun h => nomatch h) fun h => h.2 htext
  · exact iff_of_true rfl ⟨hblank, htext⟩

/-- A report that returned: nothing for an unknown namespace, else the decoded
grains of the selection. -/
theorem subjectReportWith_ok {ns subject : String} {textMentions : Bool} {a b : DejaDB}
    {report : SubjectReport} (hok : VocabOk a)
    (h : subjectReportWith C ns subject textMentions a = .ok report b) :
    Looks a b ∧ checkSubjectSelector C "subject_report" subject textMentions a = .ok ⟨⟩ a ∧
      ((a.termLookup ns = none ∧ report = SubjectReport.empty) ∨
      ∃ nsId seqs, a.termLookup ns = some nsId ∧
        (∀ s, s ∈ seqs ↔ a.db.Selects C nsId subject textMentions s) ∧
        ((a.db.grainsAt seqs).mapM fun g => C.deserializeBlob g.blob) = .ok report.grains) := by
  obtain ⟨u, a₁, hcheck, h₁⟩ := bind_eq_ok.1 h
  rcases checkSubjectSelector_apply (C := C) "subject_report" subject textMentions a with
    hc | ⟨e, hc⟩
  · rw [hc] at hcheck
    cases hcheck
    obtain ⟨a₂, a₃, hget, h₂⟩ := bind_eq_ok.1 h₁
    cases hget
    cases hns : a.termLookup ns with
    | none =>
      rw [hns] at h₂
      obtain ⟨rfl, rfl⟩ := pure_eq_ok.1 h₂
      exact ⟨refl_of Looks a, hc, .inl ⟨rfl, rfl⟩⟩
    | some nsId =>
      rw [hns] at h₂
      obtain ⟨⟨ids, seqs⟩, a₄, hsel, h₃⟩ := bind_eq_ok.1 h₂
      have hlooks := (leads_looks_selectTargets (C := C)
        (.identity nsId subject textMentions)).of_ok hsel
      have hdb : a₄.db = a.db := by rw [hlooks.rest]
      obtain ⟨a₅, a₆, hget, h₄⟩ := bind_eq_ok.1 h₃
      cases hget
      obtain ⟨grains, a₇, hlift, h₅⟩ := bind_eq_ok.1 h₄
      obtain ⟨hgrains, rfl⟩ := lift_eq_ok.1 hlift
      obtain ⟨rfl, rfl⟩ := pure_eq_ok.1 h₅
      rw [hdb] at hgrains
      exact ⟨hlooks, hc, .inr ⟨nsId, seqs, rfl, (selectIdentity_ok hok hsel).2, hgrains⟩⟩
  · rw [hc] at hcheck
    cases hcheck

/-- A report on a store where the identity selects no stored grain. -/
theorem subjectReportWith_nil {ns subject : String} {textMentions : Bool} {a : DejaDB}
    (hok : VocabOk a)
    (hcheck : checkSubjectSelector C "subject_report" subject textMentions a = .ok ⟨⟩ a)
    (hnone : ∀ nsId, a.termLookup ns = some nsId → ∀ g ∈ a.db.grains,
      ¬a.db.Selects C nsId subject textMentions g.seq) :
    ∃ report b, subjectReportWith C ns subject textMentions a = .ok report b ∧
      report.grains = [] := by
  unfold subjectReportWith
  rw [bind_apply, hcheck]
  simp only [bind_apply, get_apply]
  cases hns : a.termLookup ns with
  | none => exact ⟨_, _, rfl, rfl⟩
  | some nsId =>
    obtain ⟨ids, seqs, s, hsel⟩ := selectIdentity_total (C := C) nsId subject textMentions a
    have hlooks := (leads_looks_selectTargets (C := C)
      (.identity nsId subject textMentions)).of_ok hsel
    have hdb : s.db = a.db := by rw [hlooks.rest]
    have hempty : s.db.grainsAt seqs = [] := by
      refine List.eq_nil_iff_forall_not_mem.2 fun g hg => ?_
      rw [Tables.grainsAt, (List.perm_insertionSort _ _).mem_iff, List.mem_filter, hdb] at hg
      exact hnone nsId hns g hg.1 (((selectIdentity_ok hok hsel).2 g.seq).1 (by simpa using hg.2))
    simp only [bind_apply, hsel, get_apply, hempty, List.mapM_nil]
    exact ⟨_, _, rfl, rfl⟩

/-! ## Nothing is left -/

/-- What is selected after an erasure was selected before it. -/
theorem DejaDB.Erased.selects {a b : DejaDB} {dead ids gone : List ℤ}
    (h : a.Erased dead ids gone b) {nsId seq : ℤ} {subject : String} {textMentions : Bool}
    (hs : b.db.Selects C nsId subject textMentions seq) :
    a.db.Selects C nsId subject textMentions seq := by
  have hids : ∀ id, b.db.termReferenced id → id ∈ b.db.identityIds C subject →
      id ∈ a.db.identityIds C subject := by
    intro id href hid
    obtain ⟨r', hr', hrid, hname⟩ := Tables.mem_identityIds.1 hid
    rw [h.file.terms] at hr'
    obtain ⟨r, hr, rfl⟩ := List.mem_map.1 hr'
    rw [Tables.scrubRow_id] at hrid
    have hkept : r.id ∉ gone := fun hgone => by
      rw [hrid] at hgone
      exact Bool.noConfusion ((h.file.free id hgone).symm.trans href)
    rw [scrubRow_of_notMem hkept] at hname
    exact Tables.mem_identityIds.2 ⟨r, hr, hrid, hname⟩
  rcases hs with href | ⟨htm, hne, hall⟩
  · refine .inl ?_
    rcases href with ⟨x, hx, hseq, hns, hid⟩ | ⟨x, hx, hseq, hns, hid⟩ | ⟨x, hx, hseq, hns, hid⟩
    · have hused : ∀ id, (x.s = id ∨ x.p = id ∨ x.o = id) → b.db.termReferenced id := fun id hid =>
        Tables.termReferenced_iff.2 (.inl ⟨x, hx, hid⟩)
      refine .inl ⟨x, ((mem_kept h.file.triples).1 hx).1, hseq, hns, hid.imp ?_ ?_⟩
      · exact hids _ (hused _ (.inl rfl))
      · exact hids _ (hused _ (.inr (.inr rfl)))
    · exact .inr (.inl ⟨x, ((mem_kept h.file.threadIdx).1 hx).1, hseq, hns,
        hids _ (Tables.termReferenced_iff.2 (.inr (.inl ⟨x, hx, rfl⟩))) hid⟩)
    · exact .inr (.inr ⟨x, ((mem_kept h.file.runIdx).1 hx).1, hseq, hns,
        hids _ (Tables.termReferenced_iff.2 (.inr (.inr (.inl ⟨x, hx, rfl⟩)))) hid⟩)
  · refine .inr ⟨htm, hne, fun token htoken => ?_⟩
    obtain ⟨x, hx, hseq, hns, hrow⟩ := hall token htoken
    exact ⟨x, ((mem_kept h.file.ftsPost).1 hx).1, hseq, hns, h.file.vocab.subset hrow⟩

/-- A string of the identity nothing refers to any more is a placeholder now, and
resolves no longer. -/
theorem DejaDB.Erased.scrubbed {a b : DejaDB} {dead ids gone : List ℤ}
    (h : a.Erased dead ids gone b) (hok : DictOk a) {r : TermRow} (hr : r ∈ a.db.terms)
    (hid : r.id ∈ ids) (hfree : b.db.termReferenced r.id = false)
    (hplain : isErasedTerm r.term = false) :
    ⟨r.id, erasedTerm r.id⟩ ∈ b.db.terms ∧ b.termLookup r.term = none := by
  have hgone := h.file.swept r.id hid hfree r hr rfl hplain
  constructor
  · rw [h.file.terms]
    refine List.mem_map.2 ⟨r, hr, ?_⟩
    rw [Tables.scrubRow, if_pos hgone]
  · cases hl : b.termLookup r.term with
    | none => rfl
    | some id =>
      rw [DejaDB.termLookup, h.dict, Assoc.lookup_filter hok.keys] at hl
      have hrow := row_eq_of_term hok.strings (hok.stored _ _ hl.1) hr rfl
      have hkeep : id ∉ gone := by simpa using hl.2
      exact absurd (by rw [← hrow] at hgone; exact hgone) hkeep

/-- What a report and the erasure after it owe the subject. -/
structure Complete (C : Core G) (ns subject : String) (textMentions : Bool) (a b : DejaDB)
    (report : SubjectReport) (rep : ErasureReport) : Prop where
  /-- The erased grains are the reported ones, and so are their addresses where
  the grains are stored under those of their blobs. -/
  shown : ∃ gs : List GrainRow, (∀ g ∈ gs, g ∈ a.db.grains) ∧
    (gs.mapM fun g => C.deserializeBlob g.blob) = .ok report.grains ∧
    rep.erasedHashes.Perm (gs.map fun g => g.hash.toHex) ∧
    ((∀ g ∈ gs, g.hash = C.contentAddress g.blob) →
      rep.erasedHashes.Perm (report.grains.map fun v => v.hash.toHex))
  /-- A second report shows nothing. -/
  nothing : ∃ report' b', subjectReportWith C ns subject textMentions b = .ok report' b' ∧
    report'.grains = []
  /-- The strings of the identity nothing refers to are gone. -/
  strings : (a.termLookup ns).isSome → ∀ r ∈ a.db.terms, namesIdentity C subject r.term →
    isErasedTerm r.term = false → b.db.termReferenced r.id = false →
      ⟨r.id, erasedTerm r.id⟩ ∈ b.db.terms ∧ b.termLookup r.term = none

/-- The addresses of decoded grains that are stored under those of their blobs. -/
theorem map_hash_of_mapM {gs : List GrainRow} {vs : List DeserializedGrain}
    (h : (gs.mapM fun g => C.deserializeBlob g.blob) = .ok vs)
    (hstored : ∀ g ∈ gs, g.hash = C.contentAddress g.blob) :
    (vs.map fun v => v.hash.toHex) = gs.map fun g => g.hash.toHex := by
  induction gs generalizing vs with
  | nil =>
    rw [List.mapM_nil] at h
    cases h
    rfl
  | cons g gs ih =>
    rw [List.mapM_cons] at h
    obtain ⟨v, hv, h₁⟩ := except_bind_ok h
    obtain ⟨rest, hrest, h₂⟩ := except_bind_ok h₁
    cases h₂
    rw [List.forall_mem_cons] at hstored
    rw [List.map_cons, List.map_cons, ih hrest hstored.2, hstored.1, C.deserializeBlob_hash hv]

/-- **Report and erasure are one selection, and the erasure is complete.** -/
theorem subject_erasure_complete {a a' b : DejaDB} {ns subject : String} {textMentions : Bool}
    {report : SubjectReport} {rep : ErasureReport} (ha : Reachable C a)
    (hreport : subjectReportWith C ns subject textMentions a = .ok report a')
    (hforget : forgetSubjectWith C ns subject textMentions a' = .ok rep b) :
    Complete C ns subject textMentions a b report rep := by
  obtain ⟨hlooks, hcheck, hshown⟩ := subjectReportWith_ok ha.good.vocabOk hreport
  have hdb : a'.db = a.db := by rw [hlooks.rest]
  have hdict : a'.dict = a.dict := by rw [hlooks.rest]
  have hvocab := hlooks.vocabOk ha.good.vocabOk
  have hdictOk := hlooks.idle.dictOk ha.good.dictOk
  have hvocab' : VocabOk b := by
    have hpath : Path C (fun _ _ => True) a'
        (a'.after (forgetSubjectWith C ns subject textMentions)) :=
      forgetSubjectWith_path fun _ _ => trivial
    rw [DejaDB.after, after_of_ok hforget] at hpath
    exact hpath.vocabOk hvocab
  have hpass : ∀ {c : DejaDB}, c.indexText = a.indexText → c.ftsDeferred = a.ftsDeferred →
      checkSubjectSelector C "subject_report" subject textMentions c = .ok ⟨⟩ c := by
    intro c hi hd
    rw [checkSubjectSelector_ok_iff] at hcheck ⊢
    rw [hi, hd]
    exact hcheck
  obtain ⟨u, a₁, hcheck', h₁⟩ := bind_eq_ok.1 hforget
  rcases checkSubjectSelector_apply (C := C) "forget_subject" subject textMentions a' with
    hc | ⟨e, hc⟩
  · rw [hc] at hcheck'
    cases hcheck'
    obtain ⟨a₂, a₃, hget, h₂⟩ := bind_eq_ok.1 h₁
    cases hget
    have hns : a'.termLookup ns = a.termLookup ns := by
      rw [DejaDB.termLookup, hdict]
      rfl
    rw [hns] at h₂
    rcases hshown with ⟨hunknown, rfl⟩ | ⟨nsId, seqs, hknown, hseqs, hgrains⟩
    · rw [hunknown] at h₂
      obtain ⟨rfl, rfl⟩ := pure_eq_ok.1 h₂
      refine ⟨⟨[], List.forall_mem_nil _, rfl, .refl _, fun _ => .refl _⟩, ?_, fun hsome => ?_⟩
      · refine subjectReportWith_nil hvocab' (hpass (by rw [hlooks.rest]) (by rw [hlooks.rest]))
          fun nsId h => ?_
        rw [hns, hunknown] at h
        cases h
      · rw [hunknown] at hsome
        cases hsome
    · rw [hknown] at h₂
      obtain ⟨ids, seqs', s, gone, hsel, herased, hrep⟩ := eraseWhere_ok h₂
      obtain ⟨hids, hseqs'⟩ := selectIdentity_ok hvocab hsel
      rw [hdb] at hids hseqs' hrep
      have hsame : ∀ s, s ∈ seqs' ↔ s ∈ seqs := fun s => (hseqs' s).trans (hseqs s).symm
      have hperm : rep.erasedHashes.Perm ((a.db.grainsAt seqs).map fun g => g.hash.toHex) := by
        rw [hrep]
        refine List.Perm.map _ ?_
        simp only [hsame]
        exact (List.perm_insertionSort _ _).symm
      refine ⟨⟨_, fun g hg => ?_, hgrains, hperm, fun hstored => ?_⟩, ?_,
        fun _ r hr hname hplain hfree => ?_⟩
      · rw [Tables.grainsAt, (List.perm_insertionSort _ _).mem_iff] at hg
        exact List.mem_of_mem_filter hg
      · rw [map_hash_of_mapM hgrains hstored]
        exact hperm
      · refine subjectReportWith_nil hvocab' (hpass ?_ ?_) fun nsId' h g hg hs => ?_
        · rw [herased.indexText, hlooks.rest]
        · rw [herased.ftsDeferred, hlooks.rest]
        · rw [DejaDB.termLookup, herased.dict, Assoc.lookup_filter hdictOk.keys] at h
          have hid : some nsId' = some nsId := by
            rw [← hknown, ← hns]
            exact h.1.symm
          cases hid
          have hbefore := herased.selects hs
          rw [hdb] at hbefore
          obtain ⟨hga, hdead⟩ := (mem_kept herased.file.grains).1 hg
          refine hdead (List.mem_map.2 ⟨g, List.mem_filter.2 ⟨hga, ?_⟩, rfl⟩)
          simpa using (hseqs' g.seq).2 hbefore
      · refine herased.scrubbed hdictOk (by rw [hdb]; exact hr) ?_ hfree hplain
        rw [hids]
        exact Tables.mem_identityIds.2 ⟨r, hr, rfl, hname⟩
  · rw [hc] at hcheck'
    cases hcheck'

/-- Two calls that return, decided by running them. -/
theorem exists_ok_ok_of_all {ε σ α β : Type} {x : EStateM.Result ε σ α}
    {y : σ → EStateM.Result ε σ β} {p : α → σ → β → σ → Bool}
    (h : (match x with
      | .ok v s => match y s with
        | .ok w t => p v s w t
        | .error _ _ => false
      | .error _ _ => false) = true) :
    ∃ v s w t, x = .ok v s ∧ y s = .ok w t ∧ p v s w t := by
  cases x with
  | ok v s =>
    obtain ⟨w, t, hy, hp⟩ := exists_ok_of_all h
    exact ⟨v, s, w, t, rfl, hy, hp⟩
  | error e s => cases h

/-- A report and the erasure after it, on a store with two neighbours. -/
theorem neighbour_erased : ∃ report a' rep b,
    subjectReportWith sampleCore "shared" "a" false neighbours = .ok report a' ∧
      forgetSubjectWith sampleCore "shared" "a" false a' = .ok rep b ∧
      report.grains.length = 1 ∧
      Complete sampleCore "shared" "a" false neighbours b report rep := by
  obtain ⟨report, a', rep, b, hreport, hforget, hone⟩ := exists_ok_ok_of_all
    (x := subjectReportWith sampleCore "shared" "a" false neighbours)
    (y := forgetSubjectWith sampleCore "shared" "a" false)
    (p := fun report _ _ _ => decide (report.grains.length = 1)) (by decide +kernel)
  exact ⟨report, a', rep, b, hreport, hforget, of_decide_eq_true hone,
    subject_erasure_complete (sampleStore_reachable.steps _) hreport hforget⟩

/-! ## What stays -/

/-- A fact that was forgotten on its own: its words are still in the dictionary. -/
def forgotten : DejaDB := sampleStore.steps sampleCore
  [.add (sampleFact 1 5 1 2 3), .forget (Hash.ofByte 1)]

/-- A fact imported under an address that is not that of its blob. -/
def misfiled : DejaDB := sampleStore.steps sampleCore
  [.importBundle (bundleMagic ++ encodeRecord
    ⟨1, 5, Hash.ofByte 9, (sampleCore.encodeGrain (sampleFact 1 5 1 2 3)).toOption.getD []⟩) none]

/-- The words of the sample codec, with one that looks like a placeholder. -/
def disguise (x : String × Json) : String × Json :=
  (x.1, if x.2.asStr = some "a" then .str "\u0001erased:x" else x.2)

/-- The sample codec over these words. -/
def placeholderCore : Core SampleBody :=
  { sampleCore with
    decodePayload := fun b => (sampleCore.decodePayload b).map fun fields =>
      fields.map disguise }

/-- A fact about a subject that looks like a placeholder. -/
def disguised : DejaDB := (createStore placeholderCore none fun _ => 9).steps placeholderCore
  [.add (sampleFact 1 5 1 2 3)]

/-- The string `x` still resolves, though nothing refers to it. -/
def DejaDB.Lingers (st : DejaDB) (x : String) : Bool :=
  (st.termLookup x).any fun id => !st.db.termReferenced id

/-- An erasure in an unknown namespace scrubs no string, one of a subject that
looks like a placeholder leaves its string, and a grain imported under a foreign
address is reported under another address than it is erased under. -/
theorem subject_erasure_leaves :
    (Reachable sampleCore forgotten ∧ ∃ rep b,
      forgetSubjectWith sampleCore "zz" "a" false forgotten = .ok rep b ∧ b.Lingers "a") ∧
    (Reachable placeholderCore disguised ∧ ∃ rep b,
      forgetSubjectWith placeholderCore "shared" "\u0001erased:x" false disguised = .ok rep b ∧
        b.Lingers "\u0001erased:x") ∧
    Reachable sampleCore misfiled ∧ ∃ report a' rep b,
      subjectReportWith sampleCore "shared" "a" false misfiled = .ok report a' ∧
        forgetSubjectWith sampleCore "shared" "a" false a' = .ok rep b ∧
        (report.grains.map fun v => v.hash) = [Hash.ofByte 1] ∧
        rep.erasedHashes = [(Hash.ofByte 9).toHex] := by
  refine ⟨⟨sampleStore_reachable.steps _, ?_⟩, ⟨⟨none, _, _, rfl⟩, ?_⟩,
    sampleStore_reachable.steps _, ?_⟩
  · exact exists_ok_of_all (x := forgetSubjectWith sampleCore "zz" "a" false forgotten)
      (p := fun _ b => b.Lingers "a") (by decide +kernel)
  · exact exists_ok_of_all
      (x := forgetSubjectWith placeholderCore "shared" "\u0001erased:x" false disguised)
      (p := fun _ b => b.Lingers "\u0001erased:x") (by decide +kernel)
  · obtain ⟨report, a', rep, b, hreport, hforget, hp⟩ := exists_ok_ok_of_all
      (x := subjectReportWith sampleCore "shared" "a" false misfiled)
      (y := forgetSubjectWith sampleCore "shared" "a" false)
      (p := fun report _ rep _ => decide ((report.grains.map fun v => v.hash) = [Hash.ofByte 1] ∧
        rep.erasedHashes = [(Hash.ofByte 9).toHex])) (by decide +kernel)
    obtain ⟨hshown, herased⟩ := of_decide_eq_true hp
    exact ⟨report, a', rep, b, hreport, hforget, hshown, herased⟩

end Deja
