import Deja.Codec.Serialize

/-!
# The names of a grain's fields

Each type writes a fixed list of long names, followed by the common ones.  No
name occurs twice, and expanding the short form of a name gives the name back.
-/

namespace Deja

/-! ## The names of a type -/

/-- The long names of the type-specific fields. -/
def GrainType.names : GrainType → List String
  | fact => ["subject", "relation", "object"]
  | event =>
    ["content", "subject", "object", "role", "session_id", "parent_message_id",
      "content_blocks", "model_id", "stop_reason", "token_usage", "run_id"]
  | state => ["context", "plan", "history"]
  | workflow => ["nodes", "edges", "bindings", "retries", "trigger"]
  | tool =>
    ["tool_name", "kind", "input", "tool_content", "is_error", "error", "duration_ms",
      "parent_task_id", "tool_call_id", "call_batch_id", "tool_description", "input_schema",
      "output_schema", "strict", "async_mode", "executor_uri", "locked_params", "examples",
      "annotations", "spec_hash", "executor_kind", "status", "correlation_id",
      "expires_at_sec", "transient_definition_hash", "failure_cause", "failure_detail",
      "actor_execution_environment"]
  | observation =>
    ["observer_id", "observer_type", "subject", "object", "observer_model",
      "observation_mode", "observation_scope"]
  | goal =>
    ["description", "goal_state", "subject", "object", "priority", "criteria", "parent_goals",
      "state_reason", "satisfaction_evidence", "progress", "delegate_to", "delegate_from",
      "criteria_structured", "expiry_policy", "recurrence", "evidence_required",
      "rollback_on_failure", "allowed_transitions"]
  | reasoning =>
    ["premises", "conclusion", "inference_method", "alternatives_considered",
      "thinking_content", "thinking_redacted"]
  | consensus =>
    ["participating_observers", "threshold", "agreement_count", "dissent_count",
      "dissent_grains", "agreed_content"]
  | consent =>
    ["subject_did", "grantee_did", "scope", "is_withdrawal", "basis", "jurisdiction",
      "prior_consent", "witness_dids"]
  | recommendation =>
    ["target_ref", "analyzer", "summary", "dedup_key", "proposal_cal", "proposal_edit",
      "proposal_data", "severity", "metric_snapshot", "evidence_query"]
  | skill =>
    ["name", "description", "instructions", "when_to_use", "version", "allowed_tools",
      "resources", "dependencies", "input_modalities", "output_modalities", "domain",
      "holder_did", "proficiency", "practice_count", "last_practiced_at", "strategies",
      "transferable"]

/-- The long names every type shares, the context under its own. -/
def commonNames (context : String) : List String :=
  ["author_did", "confidence", "created_at", "namespace", "user_id", "structural_tags",
    "source_type", "importance", "temporal_type", "valid_from", "valid_to",
    "system_valid_from", "system_valid_to", "derived_from", "consolidation_level",
    "origin_did", "origin_namespace", "superseded_by", "verification_status",
    "embedding_text", context, "invalidation_policy", "content_refs", "embedding_refs",
    "provenance_chain", "related_to"]

namespace GrainType

/-- Where a type keeps the common context: a state's own context is in its way. -/
def contextName (ty : GrainType) : String :=
  if ty = .state then "common_context" else "context"

/-- Every long name of a type, in the order they are written. -/
def allNames (ty : GrainType) : List String :=
  "type" :: (ty.names ++ commonNames ty.contextName)

end GrainType

/-- The names with no short form. -/
def plainNames : List String :=
  ["content", "plan", "history", "nodes", "edges", "retries", "trigger"]

theorem Spelled.mem_iff {ss : List String} {ls : List (List Char)} (h : Spelled ss ls)
    {l : List Char} : String.ofList l ∈ ss ↔ l ∈ ls := by
  rw [h.eq]
  exact List.mem_map_of_injective fun _ _ => String.ofList_injective

namespace GrainType

set_option maxRecDepth 4000 in
theorem allNames_spelled (ty : GrainType) :
    ∃ ls, Spelled ty.allNames ls ∧ apartMod codeModulus 0 (ls.map code) = true := by
  cases ty
  all_goals
    apply Exists.intro
    constructor
    · simp only [allNames, names, commonNames, contextName, reduceCtorEq, if_false, if_true,
        List.cons_append, List.nil_append]
      repeat apply Spelled.cons
      exact .nil
    · decide +kernel

theorem allNames_nodup (ty : GrainType) : ty.allNames.Nodup := by
  obtain ⟨ls, hl, hcode⟩ := ty.allNames_spelled
  exact hl.nodup (apartMod_nodup hcode).1

theorem contextName_cases (ty : GrainType) :
    ty.contextName = "common_context" ∨ ty.contextName = "context" := by
  by_cases hstate : ty = .state
  · exact .inl (if_pos hstate)
  · exact .inr (if_neg hstate)

end GrainType

set_option maxRecDepth 4000 in
/-- The names spelled out beside the two columns of the field map: a plain name is in
neither column, and every other name is in the first. -/
theorem names_spelled : ∃ ps fs ss, Spelled plainNames ps ∧
    Spelled (fieldMap.map Prod.fst) fs ∧ Spelled (fieldMap.map Prod.snd) ss ∧
    (∀ l ∈ ps, l ∉ fs ∧ l ∉ ss) ∧
    (∀ ty : GrainType, ∃ ls, Spelled ty.names ls ∧ ∀ l ∈ ls, l ∈ ps ∨ l ∈ fs) ∧
    ∀ ty : GrainType, ∃ ls, Spelled ("type" :: commonNames ty.contextName) ls ∧
      ∀ l ∈ ls, l ∈ fs := by
  apply Exists.intro
  apply Exists.intro
  apply Exists.intro
  constructor
  · unfold plainNames
    repeat apply Spelled.cons
    exact .nil
  constructor
  · unfold fieldMap
    simp only [List.map_cons, List.map_nil]
    repeat apply Spelled.cons
    exact .nil
  constructor
  · unfold fieldMap
    simp only [List.map_cons, List.map_nil]
    repeat apply Spelled.cons
    exact .nil
  refine ⟨by decide +kernel, ?_, ?_⟩
  · intro ty
    cases ty
    all_goals
      apply Exists.intro
      constructor
      · unfold GrainType.names
        repeat apply Spelled.cons
        exact .nil
      decide +kernel
  · intro ty
    rcases ty.contextName_cases with hname | hname
    all_goals
      rw [hname]
      apply Exists.intro
      constructor
      · unfold commonNames
        repeat apply Spelled.cons
        exact .nil
      decide +kernel

theorem GrainType.names_mapped (ty : GrainType) : ∀ n ∈ ty.names,
    n ∈ plainNames ∨ n ∈ fieldMap.map Prod.fst := by
  obtain ⟨ps, fs, ss, hp, hf, -, -, hnames, -⟩ := names_spelled
  obtain ⟨ls, hl, hmapped⟩ := hnames ty
  intro n hn
  rw [hl.eq] at hn
  obtain ⟨l, hmem, rfl⟩ := List.mem_map.1 hn
  exact (hmapped l hmem).imp hp.mem_iff.2 hf.mem_iff.2

theorem commonNames_mapped (ty : GrainType) : ∀ n ∈ "type" :: commonNames ty.contextName,
    n ∈ fieldMap.map Prod.fst := by
  obtain ⟨ps, fs, ss, -, hf, -, -, -, hcommon⟩ := names_spelled
  obtain ⟨ls, hl, hmapped⟩ := hcommon ty
  intro n hn
  rw [hl.eq] at hn
  obtain ⟨l, hmem, rfl⟩ := List.mem_map.1 hn
  exact hf.mem_iff.2 (hmapped l hmem)

theorem plainNames_apart : ∀ n ∈ plainNames,
    n ∉ fieldMap.map Prod.fst ∧ n ∉ fieldMap.map Prod.snd := by
  obtain ⟨ps, fs, ss, hp, hf, hs, hapart, -, -⟩ := names_spelled
  intro n hn
  rw [hp.eq] at hn
  obtain ⟨l, hmem, rfl⟩ := List.mem_map.1 hn
  obtain ⟨hlong, hshort⟩ := hapart l hmem
  exact ⟨fun h => hlong (hf.mem_iff.1 h), fun h => hshort (hs.mem_iff.1 h)⟩

namespace GrainType

theorem allNames_mapped (ty : GrainType) : ∀ n ∈ ty.allNames,
    n ∈ plainNames ∨ n ∈ fieldMap.map Prod.fst := by
  intro n hn
  rw [allNames, List.mem_cons, List.mem_append, or_left_comm, ← List.mem_cons] at hn
  rcases hn with hname | hcommon
  · exact ty.names_mapped n hname
  · exact .inr (commonNames_mapped ty n hcommon)

/-- Writing a name in its short form and expanding it gives the name back. -/
theorem expand_compact {ty : GrainType} {n : String} (hn : n ∈ ty.allNames) :
    expandField (compactField n) = n := by
  rcases ty.allNames_mapped n hn with hplain | hmapped
  · obtain ⟨hlong, hshort⟩ := plainNames_apart n hplain
    have hkeep : compactField n = n := by
      rcases Table.shorten_cases fieldMap n with h | ⟨-, h⟩
      · exact absurd (List.mem_map_of_mem (f := Prod.fst) h) hlong
      · exact h
    rw [hkeep]
    rcases Table.lengthen_cases fieldMap n with h | ⟨-, h⟩
    · exact absurd (List.mem_map_of_mem (f := Prod.snd) h) hshort
    · exact h
  · exact fieldMap_table.lengthen_shorten hmapped

end GrainType

/-! ## The names a grain writes -/

theorem Body.fields_names (b : Body) (confidence : UInt64) :
    (b.fields confidence).map Prod.fst = b.grainType.names := by
  cases b <;> rfl

theorem written_sublist {α : Type} (entries : List (String × Option α)) :
    ((written entries).map Prod.fst).Sublist (entries.map Prod.fst) := by
  induction entries with
  | nil => exact List.Sublist.refl _
  | cons x entries ih =>
    obtain ⟨n, v⟩ := x
    cases v with
    | none => exact ih.cons n
    | some a => exact ih.cons_cons n

theorem contextName_fields (b : Body) (confidence : UInt64) :
    contextName (b.fields confidence) = b.grainType.contextName := by
  unfold contextName GrainType.contextName
  by_cases hstate : b.grainType = .state
  · cases b with
    | state g => exact if_pos (List.mem_cons_self ..)
    | _ => exact absurd hstate GrainType.noConfusion
  · rw [if_neg hstate, if_neg]
    intro hmem
    have hname := (written_sublist _).subset hmem
    rw [b.fields_names] at hname
    have hapart : ∀ ty : GrainType, ty ≠ .state → "context" ∉ ty.names := by
      intro ty hty
      cases ty with
      | state => exact absurd rfl hty
      | _ => decide +kernel
    exact hapart _ hstate hname

namespace TypedGrain

variable (g : TypedGrain) (nfc : String → String) (now : Int64)

theorem fields_names : (g.fields now).map Prod.fst = g.body.grainType.allNames := by
  rw [fields, GrainType.allNames, List.map_cons, List.map_append, g.body.fields_names,
    ← contextName_fields g.body g.common.confidence]
  rfl

theorem written_names_nodup : ((written (g.fields now)).map Prod.fst).Nodup :=
  (g.body.grainType.allNames_nodup).sublist (g.fields_names now ▸ written_sublist _)

theorem mem_allNames {x : String × Field} (hx : x ∈ written (g.fields now)) :
    x.1 ∈ g.body.grainType.allNames := by
  rw [← g.fields_names now]
  exact (written_sublist _).subset (List.mem_map_of_mem hx)

/-- No two fields share a short form. -/
theorem written_shorts_nodup : ((written (g.fields now)).map fun x => compactField x.1).Nodup := by
  have hexpand : ((written (g.fields now)).map fun x => compactField x.1).map expandField =
      (written (g.fields now)).map Prod.fst := by
    rw [List.map_map]
    exact List.map_congr_left fun x hx => GrainType.expand_compact (g.mem_allNames now hx)
  refine List.Nodup.of_map expandField ?_
  rw [hexpand]
  exact g.written_names_nodup now

theorem baseMap_perm : (g.baseMap nfc now).Perm
    ((written (g.fields now)).map fun x => (compactField x.1, x.2.value nfc)) := by
  refine Sorted.perm_ofList ?_
  rw [List.map_map]
  exact g.written_shorts_nodup now

end TypedGrain

end Deja
