import Deja.Loop.Reading

/-!
# The gates of the model's findings

What a finding of the model has passed when `verify_drafts` lets it through
(`llm_gates_iff`): the structural checks always, and the verdict of the `verify`
reply; the verdict of the `ground` reply only selects what `verify` is asked about,
so a reply that keeps a draft it was not asked about lets it through.
-/

namespace Deja.Loop

open Prog

/-! ## Routing -/

section Routing

variable (H : Host) (llm ground : LlmBackend) (validated : List ValidDraft)
  (evidence : List EvidenceItem) (nowMs : ℤ)

/-- The last verdict of a `verify` reply that keeps an index. -/
def lastKept (raw : String) (i : ℕ) : Option VerifyResult :=
  ((H.parseVerify raw).filter (·.keep)).reverse.find? (·.id = i)

/-- The `ground` reply marks an index supported. -/
def Supported (i : ℕ) : Prop :=
  ∃ raw, ground.complete (groundRequest validated evidence) = .ok raw ∧
    ∃ g ∈ H.parseGround raw, g.supported ∧ g.id = i

/-- The `verify` reply keeps an index with a confidence at the floor. -/
def KeptFirmly (i : ℕ) : Prop :=
  ∃ raw raw', ground.complete (groundRequest validated evidence) = .ok raw ∧
    llm.complete (verifyRequest validated evidence (groundedIds H raw)) = .ok raw' ∧
      ∃ v ∈ H.parseVerify raw', v.keep ∧ v.id = i ∧ minLlmConfidence ≤ v.confidence

/-- Every recommendation let through is of a draft that was found supported and
was kept. -/
def VerifyGated : Prop :=
  ∀ x ∈ routedDrafts H llm ground validated evidence nowMs,
    (∃ v conf, validated[x.1]? = some v ∧ x.2 = stampLlm H llm.model v conf nowMs) ∧
      Supported H ground validated evidence x.1 ∧ KeptFirmly H llm ground validated evidence x.1

variable {H llm ground validated evidence nowMs}

theorem mem_groundedIds {raw : String} {i : ℕ} :
    i ∈ groundedIds H raw ↔ ∃ g ∈ H.parseGround raw, g.supported ∧ g.id = i := by
  simp only [groundedIds, List.mem_map, List.mem_filter, and_assoc]

theorem floor_le_clampUnit {x : ℚ} : minLlmConfidence ≤ clampUnit x ↔ minLlmConfidence ≤ x := by
  unfold clampUnit minLlmConfidence
  split_ifs with h₀ h₁
  · constructor <;> intro h <;> linarith
  · constructor <;> intro h <;> linarith
  · exact Iff.rfl

/-- The verdict on an index is its last kept one. -/
theorem lookup_verdicts (raw : String) (i : ℕ) :
    (verdicts H raw).lookup i = (lastKept H raw i).map fun v => clampUnit v.confidence := by
  unfold verdicts lastKept
  rw [Sorted.lookup_ofList, ← List.map_reverse]
  induction ((H.parseVerify raw).filter (·.keep)).reverse with
  | nil => rfl
  | cons v vs ih =>
    rw [List.map_cons, Sorted.lookup_cons_ite, List.find?_cons]
    by_cases hi : v.id = i
    · simp [hi]
    · simp only [hi, decide_false, Ne.symm hi, if_false]
      exact ih

theorem lastKept_some {raw : String} {i : ℕ} {v : VerifyResult} (h : lastKept H raw i = some v) :
    v ∈ H.parseVerify raw ∧ v.keep ∧ v.id = i := by
  have hmem := List.mem_of_find?_eq_some h
  have hid := List.find?_some h
  rw [List.mem_reverse, List.mem_filter] at hmem
  exact ⟨hmem.1, hmem.2, by simpa using hid⟩

/-- The routing loop lets through the drafts whose last kept verdict is at the
floor. -/
theorem mem_route {model raw : String} {x : ℕ × Recommendation} :
    x ∈ route H model validated (verdicts H raw) nowMs ↔
      ∃ d v, validated[x.1]? = some d ∧ lastKept H raw x.1 = some v ∧
        minLlmConfidence ≤ v.confidence ∧
          x.2 = stampLlm H model d (clampUnit v.confidence) nowMs := by
  unfold route
  rw [List.mem_filterMap]
  constructor
  · rintro ⟨⟨d, i⟩, hmem, hx⟩
    rw [List.mem_zipIdx_iff_getElem?] at hmem
    simp only [lookup_verdicts] at hx
    cases hv : lastKept H raw i with
    | none =>
      simp only [hv, Option.map_none] at hx
      cases hx
    | some v =>
      simp only [hv, Option.map_some] at hx
      split_ifs at hx with hfloor
      cases hx
      exact ⟨d, v, hmem, hv, floor_le_clampUnit.1 hfloor, rfl⟩
  · rintro ⟨d, v, hd, hv, hfloor, hx⟩
    refine ⟨(d, x.1), List.mem_zipIdx_iff_getElem?.2 hd, ?_⟩
    simp only [lookup_verdicts, hv, Option.map_some, floor_le_clampUnit.2 hfloor, if_true]
    rw [← hx]

/-- What is let through, in terms of the two replies. -/
theorem mem_routedDrafts {x : ℕ × Recommendation} :
    x ∈ routedDrafts H llm ground validated evidence nowMs ↔
      ∃ raw raw', ground.complete (groundRequest validated evidence) = .ok raw ∧
        groundedIds H raw ≠ [] ∧
        llm.complete (verifyRequest validated evidence (groundedIds H raw)) = .ok raw' ∧
        x ∈ route H llm.model validated (verdicts H raw') nowMs := by
  unfold routedDrafts
  cases hground : ground.complete (groundRequest validated evidence) with
  | error e => simp
  | ok raw =>
    by_cases hempty : groundedIds H raw = []
    · simp [hempty]
    · cases hverify : llm.complete (verifyRequest validated evidence (groundedIds H raw)) with
      | error e => simp [hempty, hverify]
      | ok raw' => simp [hempty, hverify]

/-- The replies under which every draft let through is supported: one of the two
calls failed or found nothing, or no draft that is kept at the floor is missing
from the supported ones. -/
def RepliesAgree (H : Host) (llm ground : LlmBackend) (validated : List ValidDraft)
    (evidence : List EvidenceItem) : Prop :=
  ∀ raw raw', ground.complete (groundRequest validated evidence) = .ok raw →
    groundedIds H raw ≠ [] →
      llm.complete (verifyRequest validated evidence (groundedIds H raw)) = .ok raw' →
        ∀ i < validated.length, ∀ v, lastKept H raw' i = some v →
          minLlmConfidence ≤ v.confidence → i ∈ groundedIds H raw

theorem verifyGated_iff : VerifyGated H llm ground validated evidence nowMs ↔
    RepliesAgree H llm ground validated evidence := by
  constructor
  · intro h raw raw' hground hsome hverify i hi v hv hfloor
    have hrouted : (i, stampLlm H llm.model validated[i] (clampUnit v.confidence) nowMs) ∈
        routedDrafts H llm ground validated evidence nowMs :=
      mem_routedDrafts.2 ⟨raw, raw', hground, hsome, hverify,
        mem_route.2 ⟨validated[i], v, List.getElem?_eq_getElem hi, hv, hfloor, rfl⟩⟩
    obtain ⟨-, ⟨raw₁, hground₁, hsupported⟩, -⟩ := h _ hrouted
    rw [hground] at hground₁
    cases hground₁
    exact mem_groundedIds.2 hsupported
  · intro h x hx
    obtain ⟨raw, raw', hground, hsome, hverify, hx⟩ := mem_routedDrafts.1 hx
    obtain ⟨d, v, hd, hv, hfloor, hstamp⟩ := mem_route.1 hx
    obtain ⟨hmem, hkeep, hid⟩ := lastKept_some hv
    obtain ⟨hi, -⟩ := List.getElem?_eq_some_iff.1 hd
    refine ⟨⟨d, _, hd, hstamp⟩, ⟨raw, hground, ?_⟩,
      ⟨raw, raw', hground, hverify, v, hmem, hkeep, hid, hfloor⟩⟩
    exact mem_groundedIds.1 (h raw raw' hground hsome hverify x.1 hi v hv hfloor)

end Routing

/-! ## The structural checks -/

/-- A finding of the model as it may be stored: it cites the bundle and nothing
else, is about a memory or query surface and changes nothing by itself. -/
structure Advisory (r : Recommendation) (bundle : List GrainHash) : Prop where
  cites : r.evidence ≠ []
  bundled : ∀ h ∈ r.evidence, h ∈ bundle
  target : ∃ t, TargetRef.parse r.targetRef = .ok t ∧
    (t.targetClass = .memory ∨ t.targetClass = .query)
  harmless : r.destructive = false
  data : ∃ d, r.proposal = .data d

/-- A target is parsed from its own text. -/
theorem TargetRef.parse_asString {s : String} {t : TargetRef} (h : TargetRef.parse s = .ok t) :
    TargetRef.parse t.asString = .ok t := by
  unfold TargetRef.parse at h
  cases hs : Text.splitOnce [':'] s.toList with
  | none =>
    rw [hs] at h
    cases h
  | some x =>
    obtain ⟨scheme, rest⟩ := x
    simp only [hs] at h
    split_ifs at h with hempty hknown
    cases h
    have hcolon : ':' ∉ scheme := by
      have hschemes : ∀ k ∈ TargetRef.knownSchemes, ':' ∉ k.toList := by decide
      simpa using hschemes _ hknown
    have htext : (TargetRef.mk (String.ofList scheme) (String.ofList rest)).asString.toList =
        scheme ++ [':'] ++ rest := by
      simp [TargetRef.asString]
    unfold TargetRef.parse
    rw [htext, Text.splitOnce_append hcolon]
    simp only [hempty, hknown, if_false, if_true]

theorem validateDraft_some {bundle : List GrainHash} {d : LlmDraft} {v : ValidDraft}
    (h : validateDraft bundle d = some v) :
    v.cited ≠ [] ∧ (∀ x ∈ v.cited, x ∈ bundle) ∧ ∃ t, TargetRef.parse v.target = .ok t ∧
      (t.targetClass = .memory ∨ t.targetClass = .query) := by
  unfold validateDraft at h
  cases hparse : TargetRef.parse d.target with
  | error e =>
    simp only [hparse, ite_self] at h
    cases h
  | ok t =>
    simp only [hparse] at h
    split_ifs at h with hcited hclass
    cases h
    refine ⟨hcited, fun x hx => ?_, t, TargetRef.parse_asString hparse, hclass⟩
    simpa using (List.mem_filter.1 hx).2

/-- Whatever the replies are, `discover` finds only advisory findings. -/
theorem propose_advisory {H : Host} {llm ground : LlmBackend} {candidates : List Recommendation}
    {evidence : List EvidenceItem} {rejected approved : List String} {nowMs : ℤ}
    {r : Recommendation}
    (h : r ∈ propose H llm ground candidates evidence rejected approved nowMs) :
    r.origin = .llm llm.model ∧ Advisory r (evidence.map EvidenceItem.hash) := by
  unfold propose at h
  split_ifs at h with hempty
  · cases h
  · split at h
    · cases h
    · obtain ⟨x, hx, rfl⟩ := List.mem_map.1 h
      obtain ⟨raw, raw', -, -, -, hroute⟩ := mem_routedDrafts.1 hx
      obtain ⟨d, v, hd, -, -, hstamp⟩ := mem_route.1 hroute
      obtain ⟨y, -, hvalid⟩ := List.mem_filterMap.1 (List.mem_of_getElem? hd)
      obtain ⟨hcites, hbundled, htarget⟩ := validateDraft_some hvalid
      rw [hstamp]
      exact ⟨rfl, hcites, hbundled, htarget, rfl, _, rfl⟩

/-! ## What a run stores of the model -/

/-- A finding of the model as a run may store it: advisory over a bundle `discover`
asked about, and out of reach of the policy. -/
def Contained (E : Engine) (nowMs : ℤ) (r : Recommendation) : Prop :=
  (∃ bundle r', SameButGuidance r' r ∧ Found E nowMs bundle r' ∧ Advisory r bundle) ∧
    canAutoApply E r = pure false

/-- Whatever the calls answer, the run stores of the model only what is contained. -/
def StoresContained {α : Type} (E : Engine) (nowMs : ℤ) (p : Eng α) : Prop :=
  Calls (fun c => ∀ r model, c = .putRec r → r.origin = .llm model → Contained E nowMs r) p

theorem canAutoApply_llm {E : Engine} {r : Recommendation} {model : String}
    (h : r.origin = .llm model) : canAutoApply E r = pure false := by
  have hgrant : autoApplyGranted E r = false := by
    simp [autoApplyGranted, h, Origin.autoApplyEligible]
  simp [canAutoApply, hgrant]

theorem Drawn.contained {E : Engine} {nowMs : ℤ} {r : Recommendation} {model : String}
    (h : Drawn E nowMs r) (hmodel : r.origin = .llm model) : Contained E nowMs r := by
  obtain ⟨r', hsame, hfrom⟩ := h
  have horigin : r'.origin = .llm model := by
    rw [hsame] at hmodel
    exact hmodel
  rcases hfrom with hstamped | ⟨bundle, hfound⟩
  · exact absurd horigin (hstamped.origin model)
  · refine ⟨⟨bundle, r', hsame, hfound, ?_⟩, canAutoApply_llm hmodel⟩
    obtain ⟨llm, ground, candidates, evidence, rejected, approved, -, rfl, hmem⟩ := hfound
    obtain ⟨-, hadvisory⟩ := propose_advisory hmem
    rw [hsame]
    exact ⟨hadvisory.cites, hadvisory.bundled, hadvisory.target, hadvisory.harmless,
      hadvisory.data⟩

section Stores

variable {E : Engine} {opts : RunOptions} {nowMs : ℤ}

theorem Call.IsRead.stores {c : Call} (h : c.IsRead) (r : Recommendation) (model : String)
    (hc : c = .putRec r) (_ : r.origin = .llm model) : Contained E nowMs r := by
  rw [hc] at h
  exact h.elim

/-- A call that puts no recommendation. -/
theorem writes_contained {c : Call} (hc : ∀ r, c ≠ .putRec r) :
    StoresContained E nowMs (ask c : Eng c.Reply) :=
  Yields.ask fun r _ hr _ => absurd hr (hc r)

theorem storeOne_contained {p : LoopPersisted} {r : Recommendation} (hr : Drawn E nowMs r) :
    StoresContained E nowMs (storeOne E opts nowMs p r) := by
  have hput : StoresContained E nowMs (Eng.putRec r) := Yields.ask fun r' model hr' hmodel => by
    cases hr'
    exact hr.contained hmodel
  refine Calls.seq hput fun h => ?_
  refine Calls.seq (writes_contained fun _ hr' => nomatch hr') fun head => ?_
  refine Calls.seq ((canAutoApply_reads r).weaken fun c hc => hc.stores) fun granted => ?_
  split_ifs
  · refine Calls.seq ?_ fun p' => Calls.ret
    have hexecute : StoresContained E nowMs (executeAuto r.proposal) := by
      cases r.proposal with
      | cal cal => exact Calls.seq (writes_contained fun _ hr' => nomatch hr') fun _ => Calls.ret
      | edit f b d => exact Calls.ret
      | data d => exact Calls.ret
    exact Calls.seq hexecute fun created =>
      Calls.seq (writes_contained fun _ hr' => nomatch hr') fun head => Calls.ret
  · exact Calls.ret

theorem storeAll_contained {p : LoopPersisted} {rs : List Recommendation}
    (hrs : ∀ r ∈ rs, Drawn E nowMs r) : StoresContained E nowMs (storeAll E opts nowMs p rs) := by
  induction rs generalizing p with
  | nil => exact Calls.ret
  | cons r rs ih =>
    obtain ⟨hr, hrs⟩ := List.forall_mem_cons.1 hrs
    exact Calls.seq (storeOne_contained hr) fun x => Calls.seq (ih hrs) fun y => Calls.ret

/-- A run stores of the model only what is contained. -/
theorem run_contained : StoresContained E nowMs (run E opts nowMs) := by
  refine Calls.seq (loadState_reads.weaken fun c hc => hc.stores) fun p => ?_
  refine Calls.seq ((countNew_reads _).weaken fun c hc => hc.stores) fun x => ?_
  obtain ⟨newGrains, newErrors⟩ := x
  simp only
  split
  · exact Calls.ret
  · refine Calls.seq ((measureOutcomes_yields p).calls.weaken fun c hc => hc.stores) fun y => ?_
    refine Yields.bind (analysisPass_yields.weaken (fun c hc => hc.stores) fun _ h => h)
      fun pass hpass => ?_
    refine Calls.seq (storeAll_contained hpass) fun z => ?_
    exact Calls.seq (writes_contained fun _ hr' => nomatch hr') fun _ => Calls.ret

end Stores

/-! ## The two halves -/

/-- **The gates of the model.**  What a run stores of the model is contained, and
everything `verify_drafts` lets through was found supported and kept exactly when
no draft kept at the floor is missing from the supported ones. -/
theorem llm_gates_iff (E : Engine) (llm ground : LlmBackend) (validated : List ValidDraft)
    (evidence : List EvidenceItem) (nowMs : ℤ) :
    (VerifyGated E.host llm ground validated evidence nowMs ∧
      ∀ opts, StoresContained E nowMs (run E opts nowMs)) ↔
        RepliesAgree E.host llm ground validated evidence :=
  ⟨fun h => verifyGated_iff.1 h.1, fun h => ⟨verifyGated_iff.2 h, fun _ => run_contained⟩⟩

/-! ### A draft nobody asked about -/

/-- The text of a `ground` reply. -/
def strayGround : String := "\x7b\"results\":[\x7b\"id\":0,\"supported\":true\x7d]\x7d"

/-- The text of a `verify` reply. -/
def strayVerify : String :=
  "\x7b\"results\":[\x7b\"id\":1,\"keep\":true,\"confidence\":1.0\x7d]\x7d"

/-- The parser of the replies, and characters of which none is white space. -/
def strayHost : Host where
  unicode := ⟨fun _ => false, id⟩
  replies := {
    discover := fun _ => none
    enrich := fun _ => none
    ground := fun s => if s = strayGround then some [⟨0, true, ""⟩] else none
    verify := fun s => if s = strayVerify then some [⟨1, true, 1, ""⟩] else none }
  render := Summary.templateId

/-- A backend that supports the first draft and keeps the second. -/
def strayBackend : LlmBackend where
  model := "m"
  complete
    | .ground _ => .ok strayGround
    | .verify _ => .ok strayVerify
    | _ => .error (.llmBackend "no reply")

/-- A draft over one grain. -/
def strayDraft (summary : String) : ValidDraft :=
  ⟨⟨summary, "entity:a/b", "", ["h"], 1⟩, "entity:a/b", ["h"]⟩

/-- **An unsupported draft is let through.**  The second draft is not marked
supported and not sent to `verify`, whose reply names it all the same. -/
theorem unsupported_let_through :
    ¬∀ (H : Host) (llm ground : LlmBackend) (validated : List ValidDraft)
      (evidence : List EvidenceItem) (nowMs : ℤ),
        VerifyGated H llm ground validated evidence nowMs := by
  intro h
  have hgated := h strayHost strayBackend strayBackend [strayDraft "a", strayDraft "b"]
    [⟨"h", "fact", "a b c"⟩] 0
  have hrouted : (1, stampLlm strayHost "m" (strayDraft "b") (clampUnit 1) 0) ∈
      routedDrafts strayHost strayBackend strayBackend [strayDraft "a", strayDraft "b"]
        [⟨"h", "fact", "a b c"⟩] 0 := by
    refine mem_routedDrafts.2 ⟨strayGround, strayVerify, rfl, ?_, rfl, ?_⟩
    · decide
    · exact mem_route.2 ⟨strayDraft "b", ⟨1, true, 1, ""⟩, rfl, rfl, by norm_num [minLlmConfidence],
        rfl⟩
  obtain ⟨-, ⟨raw, hground, hsupported⟩, -⟩ := hgated _ hrouted
  cases hground
  have hzero : groundedIds strayHost strayGround = [0] := by decide
  have hone := mem_groundedIds.2 hsupported
  rw [hzero] at hone
  exact absurd hone (by decide)

end Deja.Loop
