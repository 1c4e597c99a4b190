import Deja.Lib.Run
import Deja.Loop.Run

/-!
# What a run does before it writes

Everything up to the last phase only reads, so a memory is the same before and
after it (`analysisPass_yields`, `measureOutcomes_yields`).  What the analysis pass
hands to the last phase are drafts of the analyzers and findings of the model, the
latter with at most their guidance set since.
-/

namespace Deja.Loop

open Prog

/-! ## Reads -/

section Reads

variable {t : String} {ns : Option String} {opts : ReadOpts} {h : GrainHash}

theorem grainsOfType_reads : Calls Call.IsRead (Eng.grainsOfType t ns opts) := Yields.ask trivial

theorem grain_reads : Calls Call.IsRead (Eng.grain h) := Yields.ask trivial

theorem recommendations_reads : Calls Call.IsRead Eng.recommendations := Yields.ask trivial

theorem loadState_reads : Calls Call.IsRead Eng.loadState := Yields.ask trivial

theorem loadRec_reads : Calls Call.IsRead (Eng.loadRec h) := by
  refine .call trivial fun r => ?_
  match r with
  | .ok (some r) => exact .ok trivial
  | .ok none => exact .error _
  | .error e => exact .error _

theorem Calls.catching {α : Type} {Q : Call → Prop} {p : Eng α} (hp : Calls Q p) :
    Calls Q p.catching :=
  (Yields.catching hp).calls

theorem countNewOf_reads (opts : ReadOpts) (ts : List String) :
    Calls Call.IsRead (countNewOf opts ts) := by
  induction ts with
  | nil => exact .pure trivial
  | cons t ts ih =>
    exact grainsOfType_reads.bind fun gs _ => Yields.bind ih fun x _ => .pure trivial

theorem countNew_reads (watermark : Option ℤ) : Calls Call.IsRead (countNew watermark) :=
  countNewOf_reads _ _

end Reads

/-! ## Measurements -/

/-- A loop state that differs in its measurements only. -/
structure LoopPersisted.MeasuredFrom (p p' : LoopPersisted) : Prop where
  eq : p' = { p with outcomes := p'.outcomes, measured := p'.measured }

theorem LoopPersisted.MeasuredFrom.refl (p : LoopPersisted) : p.MeasuredFrom p := ⟨rfl⟩

theorem LoopPersisted.MeasuredFrom.addOutcome {p p' : LoopPersisted} {o : OutcomeResult}
    (h : (p.addOutcome o).MeasuredFrom p') : p.MeasuredFrom p' := by
  obtain ⟨h⟩ := h
  exact ⟨by rw [h]; rfl⟩

variable {E : Engine} {nowMs : ℤ}

theorem measureDue_yields
    (due : List (GrainHash × AppliedRecord × MetricSnapshot × ℤ)) (p : LoopPersisted) :
    Yields Call.IsRead (fun x => p.MeasuredFrom x.1) (measureDue E nowMs due p) := by
  induction due generalizing p with
  | nil => exact .pure (.refl p)
  | cons x due ih =>
    refine (E.measureMetric_reads _ _).bind fun current _ => ?_
    cases current with
    | none => exact ih p
    | some current =>
      exact (ih _).bind fun y hy => .pure hy.addOutcome

theorem measureOutcomes_yields (p : LoopPersisted) :
    Yields Call.IsRead (fun x => p.MeasuredFrom x.1) (measureOutcomes E p nowMs) :=
  measureDue_yields _ p

/-! ## Analyzers -/

/-- A recommendation an analyzer drafted, as the engine stamps it. -/
structure Stamped (E : Engine) (nowMs : ℤ) (r : Recommendation) : Prop where
  byAnalyzer : ∃ a ∈ E.analyzers, ∃ params d, stamp E.host a.manifest params d nowMs = .ok r

theorem stamp_origin {H : Host} {m : AnalyzerManifest} {params : JsonMap} {d : RecDraft}
    {r : Recommendation} (h : stamp H m params d nowMs = .ok r) (model : String) :
    r.origin ≠ .llm model := by
  unfold stamp at h
  split at h
  · cases h
  · cases h
    simp only
    split_ifs <;> simp

theorem Stamped.origin {r : Recommendation} (h : Stamped E nowMs r) (model : String) :
    r.origin ≠ .llm model := by
  obtain ⟨a, -, params, d, hstamp⟩ := h
  exact stamp_origin hstamp model

theorem stampAll_stamped {a : Analyzer} (ha : a ∈ E.analyzers) (params : JsonMap)
    (ds : List RecDraft) :
    ∀ r ∈ (stampAll E.host a.manifest params nowMs ds).candidates, Stamped E nowMs r := by
  induction ds with
  | nil => exact fun r hr => nomatch hr
  | cons d ds ih =>
    intro r hr
    cases hstamp : stamp E.host a.manifest params d nowMs with
    | error e =>
      simp only [stampAll, hstamp] at hr
      exact ih r hr
    | ok r' =>
      simp only [stampAll, hstamp, List.mem_cons] at hr
      rcases hr with rfl | hr
      · exact ⟨a, ha, params, d, hstamp⟩
      · exact ih r hr

variable {p : LoopPersisted} {opts : RunOptions} {watermark : Option ℤ}
  {outcomes : List OutcomeInput}

theorem runAnalyzer_yields {a : Analyzer} (ha : a ∈ E.analyzers) :
    Yields Call.IsRead (fun x => ∀ r ∈ x.candidates, Stamped E nowMs r)
      (runAnalyzer E p opts watermark nowMs outcomes a) := by
  have hskip : ∀ c : SkipCause, Yields (R := Call.Reply) (ε := Error) Call.IsRead
      (fun x : Drafted => ∀ r ∈ x.candidates, Stamped E nowMs r)
      (pure ⟨[], [], [(a.manifest.id, c)]⟩) := fun c => .pure fun r hr => nomatch hr
  unfold runAnalyzer
  simp only
  split
  · exact hskip _
  split
  · exact hskip _
  · split
    · exact hskip _
    · split
      · exact hskip _
      · refine Yields.bind (Calls.catching (a.reads _)) fun x _ => ?_
        cases x with
        | error e => exact hskip _
        | ok drafts => exact .pure (stampAll_stamped ha _ drafts)

theorem runAnalyzers_yields {as : List Analyzer} (has : ∀ a ∈ as, a ∈ E.analyzers) :
    Yields Call.IsRead (fun x => ∀ r ∈ x.candidates, Stamped E nowMs r)
      (runAnalyzers E p opts watermark nowMs outcomes as) := by
  induction as with
  | nil => exact .pure fun r hr => nomatch hr
  | cons a as ih =>
    obtain ⟨ha, has⟩ := List.forall_mem_cons.1 has
    refine (runAnalyzer_yields ha).bind fun x hx => (ih has).bind fun xs hxs => .pure ?_
    intro r hr
    rcases List.mem_append.1 hr with hr | hr
    · exact hx r hr
    · exact hxs r hr

/-! ## The gate of the policy -/

theorem supersedeIsValueIdentical_reads (line : String) :
    Calls Call.IsRead (supersedeIsValueIdentical E line) := by
  unfold supersedeIsValueIdentical
  split
  · exact Calls.ret
  · split_ifs
    · exact Calls.ret
    · refine Calls.seq (Calls.catching grain_reads) fun y => ?_
      match y with
      | .ok (some g) => exact Calls.ret
      | .ok none => exact Calls.ret
      | .error e => exact Calls.ret

theorem allIdentical_reads (ls : List String) : Calls Call.IsRead (allIdentical E ls) := by
  induction ls with
  | nil => exact Calls.ret
  | cons l ls ih =>
    refine Calls.seq (supersedeIsValueIdentical_reads l) fun x => ?_
    split_ifs
    · exact ih
    · exact Calls.ret

/-- The gate only reads. -/
theorem canAutoApply_reads (r : Recommendation) : Calls Call.IsRead (canAutoApply E r) := by
  unfold canAutoApply
  split
  · split
    · exact allIdentical_reads _
    · exact Calls.ret
  · exact Calls.ret

/-! ## The model -/

theorem gatherCited_reads (hs : List GrainHash) (evidence : List EvidenceItem) :
    Calls Call.IsRead (gatherCited hs evidence) := by
  induction hs generalizing evidence with
  | nil => exact .pure trivial
  | cons h hs ih =>
    unfold gatherCited
    split_ifs
    · exact ih _
    · refine Yields.bind (Calls.catching grain_reads) fun x _ => ?_
      match x with
      | .ok (some g) => exact ih _
      | .ok none => exact ih _
      | .error e => exact ih _

theorem gatherRecent_reads (opts : ReadOpts) (scans : List (String × Option String))
    (evidence : List EvidenceItem) : Calls Call.IsRead (gatherRecent opts scans evidence) := by
  induction scans generalizing evidence with
  | nil => exact .pure trivial
  | cons x scans ih =>
    obtain ⟨t, ns⟩ := x
    refine Yields.bind (Calls.catching grainsOfType_reads) fun x _ => ?_
    cases x with
    | error e => exact ih _
    | ok recent =>
      simp only
      split_ifs
      · exact .pure trivial
      · exact ih _

theorem llmHistory_reads : Calls Call.IsRead (llmHistory E) := by
  refine Yields.bind (Calls.catching ?_) fun x _ => ?_
  · exact loadState_reads.bind fun p _ => recommendations_reads.bind fun recs _ => .pure trivial
  · cases x with
    | error e => exact .pure trivial
    | ok y => exact .pure trivial

/-- A finding of the model, over some bundle of evidence. -/
def Found (E : Engine) (nowMs : ℤ) (bundle : List GrainHash) (r : Recommendation) : Prop :=
  ∃ llm ground candidates evidence rejected approved, E.llm = some llm ∧
    bundle = evidence.map EvidenceItem.hash ∧
      r ∈ propose E.host llm ground candidates evidence rejected approved nowMs

theorem discover_yields {candidates : List Recommendation} {namespaces : List String} :
    Yields Call.IsRead (fun rs => ∃ bundle, ∀ r ∈ rs, Found E nowMs bundle r)
      (discover E candidates watermark namespaces nowMs) := by
  unfold discover
  cases hllm : E.llm with
  | none => exact .pure ⟨[], fun r hr => nomatch hr⟩
  | some llm =>
    refine (gatherCited_reads _ _).bind fun cited _ => ?_
    refine (gatherRecent_reads _ _ _).bind fun evidence _ => ?_
    split_ifs
    · exact .pure ⟨[], fun r hr => nomatch hr⟩
    · refine llmHistory_reads.bind fun x _ => .pure ?_
      exact ⟨_, fun r hr => ⟨llm, _, candidates, evidence, _, _, hllm, rfl, hr⟩⟩

/-! ## Dropping what is known -/

/-- What is kept is above the floor, neither known nor in cooldown, and of keys
not seen before. -/
theorem survivors_fresh (E : Engine) (p : LoopPersisted) (nowMs : ℤ)
    (existing seen : List String) (rs : List Recommendation) :
    (∀ r ∈ survivors E p existing nowMs seen rs, r.dedupKey ∉ existing ∧ r.dedupKey ∉ seen ∧
      inCooldown p nowMs r.dedupKey = false) ∧
    ((survivors E p existing nowMs seen rs).map Recommendation.dedupKey).Nodup := by
  induction rs generalizing seen with
  | nil => exact ⟨fun r hr => (nomatch hr), List.nodup_nil⟩
  | cons r rs ih =>
    unfold survivors
    split_ifs with hfloor hseen hknown
    · exact ih seen
    · exact ih seen
    · obtain ⟨ih, hnodup⟩ := ih (r.dedupKey :: seen)
      refine ⟨fun x hx => ?_, hnodup⟩
      obtain ⟨hexisting, hnew, hcool⟩ := ih x hx
      exact ⟨hexisting, fun h => hnew (List.mem_cons_of_mem _ h), hcool⟩
    · rw [not_or, Bool.not_eq_true] at hknown
      obtain ⟨ih, hnodup⟩ := ih (r.dedupKey :: seen)
      constructor
      · intro x hx
        rcases List.mem_cons.1 hx with rfl | hx
        · exact ⟨hknown.1, hseen, hknown.2⟩
        · obtain ⟨hexisting, hnew, hcool⟩ := ih x hx
          exact ⟨hexisting, fun h => hnew (List.mem_cons_of_mem _ h), hcool⟩
      · rw [List.map_cons, List.nodup_cons]
        refine ⟨fun hmem => ?_, hnodup⟩
        obtain ⟨x, hx, hkey⟩ := List.mem_map.1 hmem
        exact (ih x hx).2.1 (hkey ▸ List.mem_cons_self)

theorem survivors_sublist (existing : List String) (seen : List String)
    (rs : List Recommendation) : (survivors E p existing nowMs seen rs).Sublist rs := by
  induction rs generalizing seen with
  | nil => exact .slnil
  | cons r rs ih =>
    unfold survivors
    split_ifs
    · exact (ih _).cons r
    · exact (ih _).cons r
    · exact (ih _).cons r
    · exact (ih _).cons_cons r

/-- The same recommendation up to its guidance. -/
def SameButGuidance (r r' : Recommendation) : Prop := r' = { r with guidance := r'.guidance }

theorem SameButGuidance.refl (r : Recommendation) : SameButGuidance r r := rfl

theorem SameButGuidance.trans {r r' r'' : Recommendation} (h : SameButGuidance r r')
    (h' : SameButGuidance r' r'') : SameButGuidance r r'' := by
  unfold SameButGuidance at *
  rw [h', h]

theorem SameButGuidance.forall₂_trans {l m n : List Recommendation}
    (h : List.Forall₂ SameButGuidance l m) (h' : List.Forall₂ SameButGuidance m n) :
    List.Forall₂ SameButGuidance l n := by
  induction h generalizing n with
  | nil => exact h'
  | cons hx _ ih =>
    cases h' with
    | cons hy hrest => exact .cons (hx.trans hy) (ih hrest)

theorem SameButGuidance.keys {l m : List Recommendation} (h : List.Forall₂ SameButGuidance l m) :
    m.map Recommendation.dedupKey = l.map Recommendation.dedupKey := by
  induction h with
  | nil => rfl
  | cons hx _ ih =>
    rw [List.map_cons, List.map_cons, ih, hx]

theorem mergeNote_same (H : Host) (note : EnrichNote) (rs : List Recommendation) :
    List.Forall₂ SameButGuidance rs (mergeNote H note rs) := by
  induction rs with
  | nil => exact .nil
  | cons r rs ih =>
    unfold mergeNote
    split_ifs
    · exact .cons rfl (List.forall₂_same.2 fun r _ => .refl r)
    · exact .cons (.refl r) ih

theorem mergeNotes_same (H : Host) (notes : List EnrichNote) (rs : List Recommendation) :
    List.Forall₂ SameButGuidance rs (mergeNotes H notes rs) := by
  induction notes generalizing rs with
  | nil => exact List.forall₂_same.2 fun r _ => .refl r
  | cons note notes ih =>
    rw [mergeNotes, List.foldl_cons]
    split_ifs
    · exact ih rs
    · exact SameButGuidance.forall₂_trans (mergeNote_same H note rs) (ih _)

theorem enrich_same (H : Host) (llm : LlmBackend) (rs : List Recommendation) :
    List.Forall₂ SameButGuidance rs (enrich H llm rs) := by
  unfold enrich
  split_ifs
  · exact List.forall₂_same.2 fun r _ => .refl r
  · split
    · exact List.forall₂_same.2 fun r _ => .refl r
    · exact mergeNotes_same _ _ _

/-! ## The whole pass -/

/-- What the analysis pass hands on: a recommendation of an analyzer or a finding
of the model, with perhaps another guidance. -/
def Drawn (E : Engine) (nowMs : ℤ) (r : Recommendation) : Prop :=
  ∃ r', SameButGuidance r' r ∧ (Stamped E nowMs r' ∨ ∃ bundle, Found E nowMs bundle r')

theorem analysisPass_yields :
    Yields Call.IsRead (fun x => ∀ r ∈ x.survivors, Drawn E nowMs r)
      (analysisPass E p opts watermark nowMs outcomes) := by
  refine recommendations_reads.bind fun recs _ => ?_
  refine (runAnalyzers_yields fun _ ha => ha).bind fun drafted hdrafted => ?_
  refine discover_yields.bind fun found hfound => .pure ?_
  obtain ⟨bundle, hfound⟩ := hfound
  have hkept : ∀ r ∈ survivors E p (existingDedupKeys p recs) nowMs []
      (drafted.candidates ++ found), Stamped E nowMs r ∨ ∃ bundle, Found E nowMs bundle r := by
    intro r hr
    rcases List.mem_append.1 ((survivors_sublist _ _ _).subset hr) with hr | hr
    · exact .inl (hdrafted r hr)
    · exact .inr ⟨bundle, hfound r hr⟩
  intro r hr
  simp only at hr
  cases hllm : E.llm with
  | none =>
    rw [hllm] at hr
    exact ⟨r, .refl r, hkept r hr⟩
  | some llm =>
    rw [hllm] at hr
    obtain ⟨r', hr', hsame⟩ := forall₂_exists_left (enrich_same _ _ _) r hr
    exact ⟨r', hsame, hkept r' hr'⟩

end Deja.Loop
