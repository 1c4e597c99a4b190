import Deja.Telemetry.Sidecar
import Deja.Erase.Wiped
import Deja.Core.Sample

/-!
# When an erasure reaches the telemetry sidecar

* `Telemetry.Clean` — nothing in the sidecar references an erased grain, has the
  identity as its subject, or asks about it.
* `Telemetry.scrubbed` — the sidecar after the scrubs of an erasure.
* `Observed.Reached` — what must hold before `forget_subject` for that.
* `forgetSubject_clean_iff` — the two are the same.
* `unknown_namespace_keeps_trace` — an erasure in a namespace the store never saw
  leaves the traces of the subject where they are.
-/

namespace Deja

open Run

variable {G : Type} {C : Core G} {fold : Char → Char} {subject : String}

/-! ## Traces -/

/-- A query text contains the subject. -/
def AsksAbout (subject query : String) : Prop := subject.toList <:+: query.toList

/-- A buffered event has the identity as its subject or asks about it. -/
def RecallEvent.Traces (C : Core G) (subject : String) (ev : RecallEvent) : Prop :=
  (∃ s, ev.subject = some s ∧ namesIdentity C subject s = true) ∨
    ∃ q, ev.query = some q ∧ AsksAbout subject q

/-- A row of the ring log has the identity as its subject or asks about it. -/
def LogRow.Traces (C : Core G) (subject : String) (r : LogRow) : Prop :=
  namesIdentity C subject r.subject = true ∨ AsksAbout subject r.query

/-- A query rollup samples a question about the identity, or its key is that of
recalls of the identity or of such a question. -/
def QueryRow.Traces (C : Core G) (subject : String) (r : QueryRow) : Prop :=
  AsksAbout subject r.sample ∨ ∃ ns s relation q, r.qkey = RecallEvent.joinKey ns s relation q ∧
    (namesIdentity C subject s = true ∨ AsksAbout subject q)

/-- Nothing references the erased grains, given in hex, and nothing traces the
identity. -/
structure Telemetry.Clean (C : Core G) (subject : String) (erased : List String)
    (tel : Telemetry) : Prop where
  access : ∀ r ∈ tel.access, r.hash ∉ erased
  log : ∀ r ∈ tel.log, ¬r.Traces C subject ∧
    ∀ hex ∈ erased, ¬hex.toList <:+: r.topHashes.toList
  queries : ∀ r ∈ tel.queries, ¬r.Traces C subject
  buf : ∀ ev ∈ tel.buf, ¬ev.Traces C subject ∧ ∀ h ∈ ev.hashes, h.toHex ∉ erased

/-! ## Folds of scrubs -/

namespace Telemetry

theorem foldl_scrub (hashes : List Hash) (tel : Telemetry) :
    hashes.foldl (fun tel h => tel.scrub fold h) tel = { tel with
      buf := tel.buf.filter fun ev => ∀ h ∈ hashes, h ∉ ev.hashes
      access := tel.access.filter fun r => ∀ h ∈ hashes, r.hash ≠ h.toHex
      log := tel.log.filter fun r => ∀ h ∈ hashes,
        ¬Like.matchesPattern fold (Like.containing h.toHex.toList) r.topHashes.toList } := by
  induction hashes generalizing tel with
  | nil => simp
  | cons h hashes ih =>
    rw [List.foldl_cons, ih, scrub]
    simp only [List.filter_filter, Telemetry.mk.injEq, true_and, and_true]
    refine ⟨?_, ?_, ?_⟩ <;>
    · refine List.filter_congr fun x _ => ?_
      simp [Bool.and_comm]

theorem foldl_scrubSubject (names : List String) (tel : Telemetry) :
    names.foldl (fun tel name => tel.scrubSubject fold name) tel = { tel with
      buf := tel.buf.filter fun ev => ∀ name ∈ names, ev.subject ≠ some name ∧
        ¬ev.query.any fun q => name.toList <:+: q.toList
      log := tel.log.filter fun r => ∀ name ∈ names, ¬(r.subject = name ∨
        Like.matchesPattern fold (Like.containing name.toList) r.query.toList)
      queries := tel.queries.filter fun r => ∀ name ∈ names,
        ¬(Like.matchesPattern fold (Like.containing name.toList) r.qkey.toList ∨
          Like.matchesPattern fold (Like.containing name.toList) r.sample.toList) } := by
  induction names generalizing tel with
  | nil => simp
  | cons name names ih =>
    rw [List.foldl_cons, ih, scrubSubject]
    simp only [List.filter_filter, Telemetry.mk.injEq, true_and, and_true]
    refine ⟨?_, ?_, ?_⟩ <;>
    · refine List.filter_congr fun x _ => ?_
      simp [Bool.and_comm]

end Telemetry

/-! ## The identity and its names -/

theorem prefix_of_namesIdentity {s : String} (h : namesIdentity C subject s = true) :
    subject.toList <+: s.toList := by
  unfold namesIdentity at h
  rcases Bool.or_eq_true_iff.1 h with heq | hkey
  · rw [of_decide_eq_true heq]
  · exact List.isPrefixOf_iff_prefix.1 (Bool.and_eq_true_iff.1 hkey).1

theorem namesIdentity_self : namesIdentity C subject subject = true := by
  simp [namesIdentity]

theorem subject_mem_identityNames (t : Tables) : subject ∈ t.identityNames C subject := by
  unfold Tables.identityNames
  by_cases hmem : subject ∈
      (t.terms.filter fun r => namesIdentity C subject r.term).map TermRow.term
  · rw [if_pos hmem]
    exact hmem
  · rw [if_neg hmem]
    exact List.mem_append_right _ (List.mem_singleton_self subject)

theorem namesIdentity_of_mem {t : Tables} {name : String}
    (h : name ∈ t.identityNames C subject) : namesIdentity C subject name = true := by
  have hterm : ∀ {x : String},
      x ∈ (t.terms.filter fun r => namesIdentity C subject r.term).map TermRow.term →
        namesIdentity C subject x = true := by
    intro x hx
    obtain ⟨r, hr, rfl⟩ := List.mem_map.1 hx
    exact (List.mem_filter.1 hr).2
  unfold Tables.identityNames at h
  dsimp only at h
  split_ifs at h
  · exact hterm h
  · rcases List.mem_append.1 h with h | h
    · exact hterm h
    · rw [List.mem_singleton.1 h]
      exact namesIdentity_self

/-- The key of a rollup embeds its parts. -/
theorem infix_joinKey (ns s relation q : String) :
    s.toList <:+: (RecallEvent.joinKey ns s relation q).toList ∧
      q.toList <:+: (RecallEvent.joinKey ns s relation q).toList := by
  simp only [RecallEvent.joinKey, String.toList_append]
  refine ⟨⟨ns.toList ++ "\u0001".toList, "\u0001".toList ++ relation.toList ++ "\u0001".toList ++
    q.toList, by simp⟩, ⟨ns.toList ++ "\u0001".toList ++ s.toList ++ "\u0001".toList ++
    relation.toList ++ "\u0001".toList, [], by simp⟩⟩

/-- A rollup that traces the identity is one the scrub matches. -/
theorem QueryRow.Traces.matched {r : QueryRow} (h : r.Traces C subject) :
    Like.matchesPattern fold (Like.containing subject.toList) r.qkey.toList = true ∨
      Like.matchesPattern fold (Like.containing subject.toList) r.sample.toList = true := by
  rcases h with hsample | ⟨ns, s, relation, q, hkey, hs | hq⟩
  · exact .inr (Like.matches_of_infix fold hsample)
  · rw [hkey]
    exact .inl (Like.matches_of_infix fold
      ((prefix_of_namesIdentity hs).isInfix.trans (infix_joinKey ns s relation q).1))
  · rw [hkey]
    exact .inl (Like.matches_of_infix fold (hq.trans (infix_joinKey ns s relation q).2))

/-! ## What an erasure reports -/

/-- The hashes of a report are those of the grains the selection erases. -/
theorem forgetSubjectWith_hashes {ns : String} {mentions : Bool} {a b : DejaDB}
    {report : ErasureReport} (h : forgetSubjectWith C ns subject mentions a = .ok report b) :
    report.erasedHashes = match a.termLookup ns with
      | none => []
      | some nsId => (a.erased C (.identity nsId subject mentions)).map fun g => g.hash.toHex := by
  obtain ⟨u, s₁, hcheck, h₁⟩ := bind_eq_ok.1 h
  rcases checkSubjectSelector_apply (C := C) "forget_subject" subject mentions a with
    hok | ⟨e, herr⟩
  · rw [hok] at hcheck
    cases hcheck
    obtain ⟨st, s₂, hget, h₂⟩ := bind_eq_ok.1 h₁
    rw [get_apply] at hget
    cases hget
    cases hns : a.termLookup ns with
    | none =>
      rw [hns] at h₂
      cases h₂
      rfl
    | some nsId =>
      rw [hns] at h₂
      obtain ⟨ids, seqs, s, gone, hsel, -, hrep⟩ := eraseWhere_ok h₂
      have hdb : s.db = a.db := by rw [((leads_looks_selectTargets _).of_ok hsel).rest]
      have herased : a.erased C (.identity nsId subject mentions) =
          a.db.grains.filter fun g => g.seq ∈ seqs.dedup := by
        unfold DejaDB.erased
        rw [hsel]
        simp only [hdb]
      simp only [hrep, herased, List.mem_dedup]
  · rw [herr] at hcheck
    cases hcheck

/-! ## When the sidecar is clean -/

/-- What must hold before `forget_subject`.  In an unknown namespace nothing may
trace the identity; in a known one, a recall of a partition key must be of a key in
the dictionary, ask about the subject, or have surfaced an erased grain. -/
def Observed.Reached (C : Core G) (fold : Char → Char) (ns subject : String)
    (textMentions : Bool) (o : Observed) : Prop :=
  match o.db.termLookup ns with
  | none => (∀ r ∈ o.tel.log, ¬r.Traces C subject) ∧ (∀ r ∈ o.tel.queries, ¬r.Traces C subject) ∧
      ∀ ev ∈ o.tel.buf, ¬ev.Traces C subject
  | some nsId =>
    let erased := o.db.erased C (.identity nsId subject textMentions)
    let names := o.db.db.identityNames C subject
    (∀ r ∈ o.tel.log, namesIdentity C subject r.subject = true → r.subject ∈ names ∨
      Like.matchesPattern fold (Like.containing subject.toList) r.query.toList = true ∨
        ∃ g ∈ erased, Like.matchesPattern fold (Like.containing g.hash.toHex.toList)
          r.topHashes.toList = true) ∧
    ∀ ev ∈ o.tel.buf, ∀ s, ev.subject = some s → namesIdentity C subject s = true →
      s ∈ names ∨ (∃ q, ev.query = some q ∧ AsksAbout subject q) ∨
        ∃ g ∈ erased, g.hash ∈ ev.hashes

section

variable {names : List String} {erased : List GrainRow}

/-- The sidecar once every erased hash and every name is scrubbed. -/
def Telemetry.scrubbed (fold : Char → Char) (names : List String) (erased : List GrainRow)
    (tel : Telemetry) : Telemetry :=
  names.foldl (fun tel name => tel.scrubSubject fold name)
    ((erased.map GrainRow.hash).foldl (fun tel h => tel.scrub fold h) tel)

/-- Only the subject counts among the names: the others extend it. -/
theorem no_name_matches_iff (hself : subject ∈ names)
    (hnames : ∀ name ∈ names, namesIdentity C subject name = true) (t : List Char) :
    (∀ name ∈ names, ¬Like.matchesPattern fold (Like.containing name.toList) t = true) ↔
      ¬Like.matchesPattern fold (Like.containing subject.toList) t = true := by
  constructor
  · intro h
    exact h subject hself
  · intro h name hname hmatch
    exact h (Like.matches_mono fold (prefix_of_namesIdentity (hnames name hname)).isInfix hmatch)

theorem mem_scrubbed_access {tel : Telemetry} {r : AccessRow} :
    r ∈ (tel.scrubbed fold names erased).access ↔
      r ∈ tel.access ∧ ∀ g ∈ erased, r.hash ≠ g.hash.toHex := by
  rw [Telemetry.scrubbed, Telemetry.foldl_scrub, Telemetry.foldl_scrubSubject]
  simp

theorem mem_scrubbed_log {tel : Telemetry} {r : LogRow} :
    r ∈ (tel.scrubbed fold names erased).log ↔ r ∈ tel.log ∧
      (∀ g ∈ erased, ¬Like.matchesPattern fold (Like.containing g.hash.toHex.toList)
        r.topHashes.toList = true) ∧ r.subject ∉ names ∧
      ∀ name ∈ names, ¬Like.matchesPattern fold (Like.containing name.toList)
        r.query.toList = true := by
  rw [Telemetry.scrubbed, Telemetry.foldl_scrub, Telemetry.foldl_scrubSubject]
  simp only [List.mem_filter, decide_eq_true_eq, List.mem_map, not_or, and_assoc,
    forall_exists_index, and_imp, forall_apply_eq_imp_iff₂]
  constructor
  · rintro ⟨hr, hhash, hname⟩
    exact ⟨hr, hhash, fun hmem => (hname _ hmem).1 rfl, fun name hmem => (hname name hmem).2⟩
  · rintro ⟨hr, hhash, hnot, hname⟩
    exact ⟨hr, hhash, fun name hmem => ⟨fun heq => hnot (heq ▸ hmem), hname name hmem⟩⟩

theorem mem_scrubbed_queries {tel : Telemetry} {r : QueryRow} :
    r ∈ (tel.scrubbed fold names erased).queries ↔ r ∈ tel.queries ∧ ∀ name ∈ names,
      ¬(Like.matchesPattern fold (Like.containing name.toList) r.qkey.toList = true ∨
        Like.matchesPattern fold (Like.containing name.toList) r.sample.toList = true) := by
  rw [Telemetry.scrubbed, Telemetry.foldl_scrub, Telemetry.foldl_scrubSubject]
  simp only [List.mem_filter, decide_eq_true_eq]

theorem mem_scrubbed_buf {tel : Telemetry} {ev : RecallEvent} :
    ev ∈ (tel.scrubbed fold names erased).buf ↔ ev ∈ tel.buf ∧
      (∀ g ∈ erased, g.hash ∉ ev.hashes) ∧
      (∀ s, ev.subject = some s → s ∉ names) ∧
      ∀ q, ev.query = some q → ∀ name ∈ names, ¬AsksAbout name q := by
  rw [Telemetry.scrubbed, Telemetry.foldl_scrub, Telemetry.foldl_scrubSubject]
  simp only [List.mem_filter, decide_eq_true_eq, List.mem_map, and_assoc, Option.any_eq_true,
    forall_exists_index, and_imp, forall_apply_eq_imp_iff₂, not_exists, not_and, AsksAbout]
  constructor
  · rintro ⟨hev, hhash, hname⟩
    exact ⟨hev, hhash, fun s hs hmem => (hname s hmem).1 hs,
      fun q hq name hmem => (hname name hmem).2 q hq⟩
  · rintro ⟨hev, hhash, hnot, hname⟩
    exact ⟨hev, hhash, fun name hmem => ⟨fun heq => hnot name heq hmem,
      fun q hq => hname q hq name hmem⟩⟩

/-- Which traces are left once every erased hash and every name is scrubbed. -/
theorem clean_scrubbed_iff (hself : subject ∈ names)
    (hnames : ∀ name ∈ names, namesIdentity C subject name = true) (tel : Telemetry) :
    (tel.scrubbed fold names erased).Clean C subject (erased.map fun g => g.hash.toHex) ↔
      (∀ r ∈ tel.log, namesIdentity C subject r.subject = true → r.subject ∈ names ∨
        Like.matchesPattern fold (Like.containing subject.toList) r.query.toList = true ∨
          ∃ g ∈ erased, Like.matchesPattern fold (Like.containing g.hash.toHex.toList)
            r.topHashes.toList = true) ∧
      ∀ ev ∈ tel.buf, ∀ s, ev.subject = some s → namesIdentity C subject s = true →
        s ∈ names ∨ (∃ q, ev.query = some q ∧ AsksAbout subject q) ∨
          ∃ g ∈ erased, g.hash ∈ ev.hashes := by
  have hmatch : ∀ t, (∀ name ∈ names, ¬Like.matchesPattern fold (Like.containing name.toList) t =
      true) ↔ ¬Like.matchesPattern fold (Like.containing subject.toList) t = true :=
    no_name_matches_iff hself hnames
  have hasks : ∀ {name q : String}, name ∈ names → AsksAbout name q → AsksAbout subject q :=
    fun hname hq => (prefix_of_namesIdentity (hnames _ hname)).isInfix.trans hq
  constructor
  · intro hclean
    constructor
    · intro r hr hid
      by_contra hkept
      push Not at hkept
      obtain ⟨hname, hquery, hhash⟩ := hkept
      refine (hclean.log r (mem_scrubbed_log.2 ⟨hr, ?_, hname, ?_⟩)).1 (.inl hid)
      · simpa using hhash
      · exact (hmatch _).2 (by simpa using hquery)
    · intro ev hev s hs hid
      by_contra hkept
      push Not at hkept
      obtain ⟨hname, hquery, hhash⟩ := hkept
      refine (hclean.buf ev (mem_scrubbed_buf.2 ⟨hev, hhash, ?_, ?_⟩)).1 (.inl ⟨s, hs, hid⟩)
      · intro s' hs'
        obtain rfl : s = s' := Option.some.inj (hs.symm.trans hs')
        exact hname
      · intro q hq name hmem habout
        exact hquery q hq (hasks hmem habout)
  · rintro ⟨hlog, hbuf⟩
    constructor
    · intro r hr hmem
      obtain ⟨g, hg, hhash⟩ := List.mem_map.1 hmem
      exact (mem_scrubbed_access.1 hr).2 g hg hhash.symm
    · intro r hr
      obtain ⟨hr, hhash, hname, hquery⟩ := mem_scrubbed_log.1 hr
      have hsubject := (hmatch _).1 hquery
      constructor
      · rintro (hid | habout)
        · rcases hlog r hr hid with hin | hq | ⟨g, hg, hh⟩
          · exact hname hin
          · exact hsubject hq
          · exact hhash g hg hh
        · exact hsubject (Like.matches_of_infix fold habout)
      · intro hex hmem hin
        obtain ⟨g, hg, rfl⟩ := List.mem_map.1 hmem
        exact hhash g hg (Like.matches_of_infix fold hin)
    · intro r hr htraces
      exact (mem_scrubbed_queries.1 hr).2 subject hself htraces.matched
    · intro ev hev
      obtain ⟨hev, hhash, hname, hquery⟩ := mem_scrubbed_buf.1 hev
      constructor
      · rintro (⟨s, hs, hid⟩ | ⟨q, hq, habout⟩)
        · rcases hbuf ev hev s hs hid with hin | ⟨q, hq, habout⟩ | ⟨g, hg, hh⟩
          · exact hname s hs hin
          · exact hquery q hq subject hself habout
          · exact hhash g hg hh
        · exact hquery q hq subject hself habout
      · intro h hh hmem
        obtain ⟨g, hg, heq⟩ := List.mem_map.1 hmem
        exact hhash g hg (Hash.toHex_injective heq ▸ hh)

end

/-- **When erasure reaches the sidecar.**  After a `forget_subject` that returned,
the sidecar is clean exactly if the condition held before. -/
theorem forgetSubject_clean_iff (C : Core G) (fold : Char → Char) (ns subject : String)
    (textMentions : Bool) (o : Observed) (report : ErasureReport)
    (h : (o.forgetSubject C fold ns subject textMentions).1 = .ok report) :
    (o.forgetSubject C fold ns subject textMentions).2.tel.Clean C subject report.erasedHashes ↔
      o.Reached C fold ns subject textMentions := by
  unfold Observed.forgetSubject at h ⊢
  cases hrun : forgetSubjectWith C ns subject textMentions o.db with
  | error e st =>
    rw [hrun] at h
    cases h
  | ok rep st =>
    have hhashes := forgetSubjectWith_hashes hrun
    rw [hrun] at h
    cases hns : o.db.termLookup ns with
    | none =>
      simp only [hns] at h hhashes ⊢
      cases h
      rw [hhashes]
      unfold Observed.Reached
      rw [hns]
      constructor
      · intro hclean
        exact ⟨fun r hr => (hclean.log r hr).1, hclean.queries, fun ev hev => (hclean.buf ev hev).1⟩
      · rintro ⟨hlog, hqueries, hbuf⟩
        exact ⟨fun _ _ => List.not_mem_nil, fun r hr => ⟨hlog r hr, nofun⟩, hqueries,
          fun ev hev => ⟨hbuf ev hev, fun _ _ => List.not_mem_nil⟩⟩
    | some nsId =>
      simp only [hns] at h hhashes ⊢
      cases h
      rw [hhashes]
      unfold Observed.Reached
      rw [hns]
      dsimp only
      exact clean_scrubbed_iff (subject_mem_identityNames _)
        (fun _ hname => namesIdentity_of_mem hname) o.tel

/-! ## An unknown namespace -/

/-- A store and a sidecar with a question about "a", flushed once and buffered once. -/
def askedAbout (db : DejaDB) : Observed :=
  let ev : RecallEvent := ⟨5, none, "shared", some "a", none, some "where is a", 0, 7, []⟩
  ⟨db, (((Telemetry.new .full).record ev).flush sampleCore 6).record ev⟩

/-- **An erasure in a namespace the store never saw returns, and leaves the traces
of the subject where they are.** -/
theorem unknown_namespace_keeps_trace :
    ((askedAbout sampleStore).forgetSubject sampleCore id "shared" "a" false).1 =
        .ok ErasureReport.empty ∧
      ¬((askedAbout sampleStore).forgetSubject sampleCore id "shared" "a" false).2.tel.Clean
        sampleCore "a" [] := by
  refine ⟨rfl, fun hclean => ?_⟩
  have hev : (⟨5, none, "shared", some "a", none, some "where is a", 0, 7, []⟩ : RecallEvent) ∈
      ((askedAbout sampleStore).forgetSubject sampleCore id "shared" "a" false).2.tel.buf :=
    List.mem_singleton_self _
  exact (hclean.buf _ hev).1 (.inl ⟨"a", rfl, namesIdentity_self⟩)

/-- A store that holds a grain about "a". -/
def storeAboutA : DejaDB := sampleStore.steps sampleCore [.add (sampleFact 1 5 1 2 3)]

/-- There the condition holds, and the erasure leaves the sidecar clean. -/
theorem forgetSubject_clean_known :
    ∃ report, ((askedAbout storeAboutA).forgetSubject sampleCore id "shared" "a" false).1 =
        .ok report ∧
      ((askedAbout storeAboutA).forgetSubject sampleCore id "shared" "a" false).2.tel.Clean
        sampleCore "a" report.erasedHashes := by
  have hns : (askedAbout storeAboutA).db.termLookup "shared" = some 1 := by decide +kernel
  have hname : "a" ∈ (askedAbout storeAboutA).db.db.identityNames sampleCore "a" := by
    decide +kernel
  have hlog : ∀ r ∈ (askedAbout storeAboutA).tel.log, r.subject = "a" := by decide +kernel
  have hbuf : ∀ ev ∈ (askedAbout storeAboutA).tel.buf, ev.subject = some "a" := by decide +kernel
  have hok : (match forgetSubjectWith sampleCore "shared" "a" false
        (askedAbout storeAboutA).db with
      | .ok _ _ => true
      | .error _ _ => false) = true := by decide +kernel
  -- Only these facts are needed of the run: the store itself stays folded.
  generalize askedAbout storeAboutA = o at *
  have hreached : o.Reached sampleCore id "shared" "a" false := by
    unfold Observed.Reached
    rw [hns]
    refine ⟨fun r hr _ => .inl ?_, fun ev hev s hs _ => .inl ?_⟩
    · rw [hlog r hr]
      exact hname
    · obtain rfl : "a" = s := Option.some.inj ((hbuf ev hev).symm.trans hs)
      exact hname
  cases hrun : forgetSubjectWith sampleCore "shared" "a" false o.db with
  | error e st =>
    rw [hrun] at hok
    cases hok
  | ok report st =>
    have hfst : (o.forgetSubject sampleCore id "shared" "a" false).1 = .ok report := by
      unfold Observed.forgetSubject
      rw [hrun, hns]
    exact ⟨report, hfst, (forgetSubject_clean_iff sampleCore id "shared" "a" false o report
      hfst).2 hreached⟩

end Deja
