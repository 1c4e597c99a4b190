import Deja.Core.Grain
import Deja.Lib.Assoc

/-!
# Field names

The tables that shorten the long OMS field names on the wire and expand them
again: the general table for the top level of a grain, and the narrow ones for
content references, embedding references, `related_to` links and workflow edges.
-/

namespace Deja

/-- `FIELD_MAP`: long names and their short forms. -/
def fieldMap : List (String × String) :=
  [("type", "t"), ("subject", "s"), ("relation", "r"), ("object", "o"), ("confidence", "c"),
   ("source_type", "st"), ("created_at", "ca"), ("temporal_type", "tt"), ("valid_from", "vf"),
   ("valid_to", "vt"), ("system_valid_from", "svf"), ("system_valid_to", "svt"),
   ("context", "ctx"), ("common_context", "cctx"), ("superseded_by", "sb"), ("importance", "im"),
   ("author_did", "adid"), ("namespace", "ns"), ("user_id", "user"), ("structural_tags", "tags"),
   ("derived_from", "df"), ("consolidation_level", "cl"), ("success_count", "sc"),
   ("failure_count", "fc"), ("provenance_chain", "pc"), ("origin_did", "odid"),
   ("origin_namespace", "ons"), ("content_refs", "cr"), ("embedding_refs", "er"),
   ("related_to", "rt"), ("_elided", "_e"), ("_disclosure_of", "_do"),
   ("invalidation_policy", "ip"), ("supersession_justification", "sj"),
   ("supersession_auth", "sa"), ("verification_status", "vstatus"), ("owner", "own"),
   ("category", "cat"), ("run_id", "rid"), ("role", "role"), ("access_count", "ac"),
   ("last_accessed_at", "laa"), ("timestamp_ms", "tms"), ("observer_did", "obsdid"),
   ("subject_did", "sdid"), ("session_id", "sid2"), ("entity_id", "eid"),
   ("epistemic_status", "epstat"), ("requires_human_review", "rhr"),
   ("processing_basis", "pbasis"), ("identity_state", "idst"), ("license", "lic"),
   ("trusted_timestamp", "tts"), ("invalidation_type", "itype"),
   ("invalidation_reason", "ireason"), ("invalidation_initiator", "iinit"),
   ("retention_policy", "rpol"), ("recall_priority", "rpri"), ("tool_name", "tn"),
   ("input", "inp"), ("tool_content", "cnt"), ("is_error", "iserr"), ("error", "err"),
   ("duration_ms", "dur"), ("parent_task_id", "ptid"), ("tool_phase", "aphase"),
   ("tool_call_id", "tcid"), ("call_batch_id", "cbid"), ("tool_type", "ttype"),
   ("tool_version", "tver"), ("execution_mode", "emode"), ("code", "code"), ("stdout", "stdout"),
   ("stderr", "stderr"), ("exit_code", "xcode"), ("interpreter_id", "iid"),
   ("error_type", "etype"), ("tool_description", "tdesc"), ("input_schema", "ischema"),
   ("strict", "strict"), ("async_mode", "amode"), ("output_schema", "osch"), ("kind", "aknd"),
   ("executor_uri", "axu"), ("locked_params", "lprm"), ("examples", "exmp"),
   ("annotations", "anno"), ("spec_hash", "shsh"), ("executor_kind", "exk"), ("status", "ast"),
   ("correlation_id", "acid"), ("expires_at_sec", "axp"), ("transient_definition_hash", "tdh"),
   ("failure_cause", "afc"), ("failure_detail", "afd"), ("actor_execution_environment", "aex"),
   ("int:base_url", "ib"), ("int:http_method", "ihm"), ("int:http_path", "ihp"),
   ("int:path_params", "ipp"), ("int:query_params", "iqp"), ("int:body_params", "ibp"),
   ("int:response_mapping", "irm"), ("int:auth_type", "iat"), ("int:auth_scopes", "ias"),
   ("int:read_only", "iro"), ("int:connector", "ic"), ("int:docs_url", "idu"),
   ("int:rate_limit", "irl"), ("int:category", "icat"), ("int:sunset_date", "isd"),
   ("int:content_type", "ict"), ("int:poll_interval_secs", "ipis"), ("int:cursor_field", "icf"),
   ("int:cursor_type", "icft"), ("int:webhook_path", "iwp"),
   ("int:webhook_secret_header", "iwsh"), ("int:cron_expression", "icron"),
   ("int:timezone", "itz"), ("int:config_schema", "icfg"), ("int:event_schema", "ievt"),
   ("observer_id", "oid"), ("observer_type", "otype"), ("frame_id", "fid"), ("sync_group", "sg"),
   ("observation_mode", "omode"), ("observation_scope", "oscope"), ("observer_model", "omdl"),
   ("compression_ratio", "ocmp"), ("description", "desc"), ("goal_state", "gs"),
   ("criteria", "crit"), ("criteria_structured", "crs"), ("priority", "pri"),
   ("parent_goals", "pgs"), ("state_reason", "sr"), ("satisfaction_evidence", "se"),
   ("progress", "prog"), ("delegate_to", "dto"), ("delegate_from", "dfo"),
   ("expiry_policy", "ep"), ("recurrence", "rec"), ("evidence_required", "evreq"),
   ("rollback_on_failure", "rof"), ("allowed_transitions", "atr"), ("target_ref", "tref"),
   ("analyzer", "anlz"), ("summary", "summ"), ("dedup_key", "ddk"), ("proposal_cal", "pcal"),
   ("proposal_edit", "pedit"), ("proposal_data", "pdata"), ("severity", "sev"),
   ("metric_snapshot", "msnap"), ("evidence_query", "evq"), ("rec_status", "rstat"),
   ("depends_on", "depg"), ("assigned_agent", "asgn"), ("expected_output", "expout"),
   ("output_grain", "outg"), ("deadline", "dline"), ("content_blocks", "cblocks"),
   ("model_id", "mdl"), ("stop_reason", "stopr"), ("token_usage", "toku"),
   ("parent_message_id", "pmid"), ("premises", "prem"), ("conclusion", "conc"),
   ("inference_method", "imethod"), ("alternatives_considered", "altc"),
   ("thinking_content", "think"), ("thinking_redacted", "tredact"),
   ("statistical_context", "statctx"), ("software_environment", "swenv"),
   ("parameter_set", "params"), ("random_seed", "rseed"), ("participating_observers", "pobs"),
   ("threshold", "thr"), ("agreement_count", "agrc"), ("dissent_count", "disc"),
   ("dissent_grains", "dgrains"), ("agreed_content", "acnt"), ("grantee_did", "gdid"),
   ("scope", "scope"), ("is_withdrawal", "isw"), ("basis", "basis"), ("jurisdiction", "jur"),
   ("prior_consent", "pcon"), ("witness_dids", "wdids"), ("name", "skname"),
   ("instructions", "instr"), ("when_to_use", "wtu"), ("version", "sver"),
   ("allowed_tools", "atls"), ("resources", "res"), ("dependencies", "deps"),
   ("input_modalities", "imod"), ("output_modalities", "omod"), ("domain", "dom"),
   ("holder_did", "hdid"), ("proficiency", "prof"), ("practice_count", "prcnt"),
   ("last_practiced_at", "lpa"), ("strategies", "strat"), ("transferable", "xfer"),
   ("embedding_text", "et"), ("scope_path", "scp"), ("scope_depth", "scd"),
   ("authorized_namespaces", "ans"), ("authorized_types", "atypes"),
   ("authorized_tools", "atools"), ("delegation_depth", "ddepth"), ("delegation_expiry", "dexp"),
   ("context_grains", "cgrains"), ("return_to", "retdid"), ("bindings", "bind")]

/-- `CONTENT_REF_FIELD_MAP`. -/
def contentRefFieldMap : List (String × String) :=
  [("uri", "u"), ("modality", "m"), ("mime_type", "mt"), ("size_bytes", "sz"), ("checksum", "ck"),
   ("metadata", "md")]

/-- `EMBEDDING_REF_FIELD_MAP`. -/
def embeddingRefFieldMap : List (String × String) :=
  [("vector_id", "vi"), ("model", "mo"), ("dimensions", "dm"), ("modality_source", "ms"),
   ("distance_metric", "di"), ("chunk_index", "ci"), ("chunk_text", "ct"),
   ("chunk_strategy", "cs"), ("chunk_overlap", "co")]

/-- `RELATED_TO_FIELD_MAP`. -/
def relatedToFieldMap : List (String × String) :=
  [("hash", "h"), ("relation_type", "rl"), ("weight", "w")]

/-- `WORKFLOW_EDGE_FIELD_MAP`. -/
def workflowEdgeFieldMap : List (String × String) := [("max_cycles", "mxc")]

/-! ## Lookups -/

/-- The short form of a name under a table; a name without one stays. -/
def shorten (table : List (String × String)) (name : String) : String :=
  (table.lookup name).getD name

/-- The long name of a short form under a table; a form without one stays. -/
def lengthen (table : List (String × String)) (short : String) : String :=
  ((table.map Prod.swap).lookup short).getD short

/-- `compact_field`. -/
def compactField (name : String) : String := shorten fieldMap name

/-- `expand_field`. -/
def expandField (short : String) : String := lengthen fieldMap short

/-- `expand_context_field`: only the `int:*` names are expanded. -/
def expandContextField (short : String) : String :=
  let long := expandField short
  if "int:".toList.isPrefixOf long.toList then long else short

/-- `compact_content_ref_field`. -/
def compactContentRefField (name : String) : String := shorten contentRefFieldMap name

/-- `compact_embedding_ref_field`. -/
def compactEmbeddingRefField (name : String) : String := shorten embeddingRefFieldMap name

/-- `compact_related_to_field`. -/
def compactRelatedToField (name : String) : String := shorten relatedToFieldMap name

/-- `compact_workflow_edge_field`. -/
def compactWorkflowEdgeField (name : String) : String := shorten workflowEdgeFieldMap name

/-- `expand_related_to_field`. -/
def expandRelatedToField (short : String) : String := lengthen relatedToFieldMap short

/-- `expand_workflow_edge_field`. -/
def expandWorkflowEdgeField (short : String) : String := lengthen workflowEdgeFieldMap short

/-! ## Tables without collisions -/

/-- A number for a word, its characters as digits. -/
def code (l : List Char) : ℕ := l.foldl (fun n c => 256 * n + c.toNat) 0

/-- The remainder of `c` marked among those already `seen`, as bits of a number. -/
def mark (m seen c : ℕ) : ℕ := seen ||| 1 <<< (c % m)

/-- No two of a list have one remainder, nor one that is already `seen`. -/
def apartMod (m : ℕ) : ℕ → List ℕ → Bool
  | _, [] => true
  | seen, c :: cs => !seen.testBit (c % m) && apartMod m (mark m seen c) cs

/-- `Spelled ss ls`: the strings `ss` have the characters `ls`. -/
inductive Spelled : List String → List (List Char) → Prop
  | nil : Spelled [] []
  | cons {l : List Char} {ss : List String} {ls : List (List Char)} (h : Spelled ss ls) :
      Spelled (String.ofList l :: ss) (l :: ls)

theorem Spelled.eq {ss : List String} {ls : List (List Char)} (h : Spelled ss ls) :
    ss = ls.map String.ofList := by
  induction h with
  | nil => rfl
  | cons _ ih =>
    rw [ih]
    rfl

theorem Spelled.nodup {ss : List String} {ls : List (List Char)} (h : Spelled ss ls)
    (hcode : (ls.map code).Nodup) : ss.Nodup := by
  rw [h.eq]
  exact (hcode.of_map _).map fun _ _ heq => String.ofList_injective heq

theorem testBit_mark (m seen c d : ℕ) : (mark m seen c).testBit (d % m) =
    (seen.testBit (d % m) || decide (c % m = d % m)) := by
  rw [mark, Nat.testBit_or, Nat.one_shiftLeft, Nat.testBit_two_pow]

theorem testBit_marks {m c : ℕ} {cs : List ℕ} (hc : c ∈ cs) (seen : ℕ) :
    (cs.foldl (mark m) seen).testBit (c % m) = true := by
  have hkeep : ∀ (ds : List ℕ) (seen : ℕ), seen.testBit (c % m) = true →
      (ds.foldl (mark m) seen).testBit (c % m) = true := by
    intro ds
    induction ds with
    | nil => exact fun _ h => h
    | cons d ds ih =>
      intro seen h
      exact ih _ (by rw [testBit_mark, h, Bool.true_or])
  induction cs generalizing seen with
  | nil => exact absurd hc List.not_mem_nil
  | cons d cs ih =>
    rcases List.mem_cons.1 hc with rfl | hc
    · exact hkeep cs _ (by rw [testBit_mark, decide_eq_true rfl, Bool.or_true])
    · exact ih hc _

theorem apartMod_nodup {m seen : ℕ} {cs : List ℕ} (h : apartMod m seen cs = true) :
    cs.Nodup ∧ ∀ c ∈ cs, seen.testBit (c % m) = false := by
  induction cs generalizing seen with
  | nil => exact ⟨List.nodup_nil, fun _ hc => absurd hc List.not_mem_nil⟩
  | cons c cs ih =>
    simp only [apartMod, Bool.and_eq_true, Bool.not_eq_true'] at h
    obtain ⟨hnodup, hfresh⟩ := ih h.2
    have hbits : ∀ d ∈ cs, seen.testBit (d % m) = false ∧ c % m ≠ d % m := by
      intro d hd
      have hbit := hfresh d hd
      rw [testBit_mark, Bool.or_eq_false_iff] at hbit
      exact ⟨hbit.1, of_decide_eq_false hbit.2⟩
    refine ⟨List.nodup_cons.2 ⟨fun hc => (hbits c hc).2 rfl, hnodup⟩, ?_⟩
    intro d hd
    rcases List.mem_cons.1 hd with rfl | hd
    · exact h.1
    · exact (hbits d hd).1

/-- A modulus under which no two codes of the names have one remainder. -/
def codeModulus : ℕ := 12886

set_option maxRecDepth 4000 in
/-- The long names and the short forms, spelled out; no two of a column have one
code, and a short form with the code of a long name stands beside that name. -/
theorem fieldMap_spelled : ∃ ls ss, Spelled (fieldMap.map Prod.fst) ls ∧
    Spelled (fieldMap.map Prod.snd) ss ∧ apartMod codeModulus 0 (ls.map code) = true ∧
    apartMod codeModulus 0 (ss.map code) = true ∧ ∀ p ∈ ls.zip ss, p.1 = p.2 ∨
      ((ls.map code).foldl (mark codeModulus) 0).testBit (code p.2 % codeModulus) = false := by
  apply Exists.intro
  apply Exists.intro
  constructor
  · unfold fieldMap
    simp only [List.map_cons, List.map_nil]
    repeat apply Spelled.cons
    exact .nil
  constructor
  · unfold fieldMap
    simp only [List.map_cons, List.map_nil]
    repeat apply Spelled.cons
    exact .nil
  decide +kernel

theorem fieldMap_longs : (fieldMap.map Prod.fst).Nodup := by
  obtain ⟨ls, ss, hl, -, hcode, -⟩ := fieldMap_spelled
  exact hl.nodup (apartMod_nodup hcode).1

theorem fieldMap_shorts : (fieldMap.map Prod.snd).Nodup := by
  obtain ⟨ls, ss, -, hs, -, hcode, -⟩ := fieldMap_spelled
  exact hs.nodup (apartMod_nodup hcode).1

/-- A short form that is a long name is its own. -/
theorem fieldMap_apart {p : String × String} (hp : p ∈ fieldMap)
    (h : p.2 ∈ fieldMap.map Prod.fst) : p.1 = p.2 := by
  obtain ⟨ls, ss, hl, hs, -, -, hapart⟩ := fieldMap_spelled
  have hzip : fieldMap = (ls.zip ss).map fun x => (String.ofList x.1, String.ofList x.2) := by
    have hmap : (ls.map String.ofList).zip (ss.map String.ofList) =
        (ls.zip ss).map (Prod.map String.ofList String.ofList) := List.zip_map
    rw [← hl.eq, ← hs.eq] at hmap
    exact (List.zip_of_prod rfl rfl).trans hmap
  rw [hzip] at hp
  obtain ⟨x, hx, rfl⟩ := List.mem_map.1 hp
  rw [hl.eq] at h
  obtain ⟨l, hl, heq⟩ := List.mem_map.1 h
  have hname : l = x.2 := String.ofList_injective heq
  rcases hapart x hx with hsame | hunmarked
  · rw [hsame]
  · rw [hname] at hl
    rw [testBit_marks (List.mem_map_of_mem hl)] at hunmarked
    cases hunmarked

/-! ## Shortening and expanding -/

/-- No two names have one short form, and a short form that is a name is its own. -/
structure Table (table : List (String × String)) : Prop where
  longs : (table.map Prod.fst).Nodup
  shorts : (table.map Prod.snd).Nodup
  apart : ∀ p ∈ table, p.2 ∈ table.map Prod.fst → p.1 = p.2

theorem fieldMap_table : Table fieldMap :=
  ⟨fieldMap_longs, fieldMap_shorts, fun _ hp h => fieldMap_apart hp h⟩

theorem contentRefFieldMap_table : Table contentRefFieldMap := by
  refine ⟨?_, ?_, ?_⟩ <;> decide +kernel

theorem embeddingRefFieldMap_table : Table embeddingRefFieldMap := by
  refine ⟨?_, ?_, ?_⟩ <;> decide +kernel

theorem relatedToFieldMap_table : Table relatedToFieldMap := by
  refine ⟨?_, ?_, ?_⟩ <;> decide +kernel

theorem workflowEdgeFieldMap_table : Table workflowEdgeFieldMap := by
  refine ⟨?_, ?_, ?_⟩ <;> decide +kernel

namespace Table

variable {table : List (String × String)} {s l : String}

theorem shorten_cases (table : List (String × String)) (s : String) :
    (s, shorten table s) ∈ table ∨ s ∉ table.map Prod.fst ∧ shorten table s = s := by
  unfold shorten
  cases h : table.lookup s with
  | some x => exact .inl (Assoc.mem_of_lookup h)
  | none =>
    refine .inr ⟨fun hs => ?_, rfl⟩
    obtain ⟨p, hp, rfl⟩ := List.mem_map.1 hs
    exact absurd (List.lookup_eq_none_iff.1 h p hp) (by simp)

theorem lengthen_cases (table : List (String × String)) (s : String) :
    (lengthen table s, s) ∈ table ∨ s ∉ table.map Prod.snd ∧ lengthen table s = s := by
  unfold lengthen
  cases h : (table.map Prod.swap).lookup s with
  | some x =>
    obtain ⟨p, hp, heq⟩ := List.mem_map.1 (Assoc.mem_of_lookup h)
    have : p = (x, s) := by rw [← Prod.swap_swap p, heq]; rfl
    exact .inl (this ▸ hp)
  | none =>
    refine .inr ⟨fun hs => ?_, rfl⟩
    obtain ⟨p, hp, rfl⟩ := List.mem_map.1 hs
    exact absurd (List.lookup_eq_none_iff.1 h p.swap (List.mem_map_of_mem hp)) (by simp)

theorem lengthen_of_mem (h : Table table) (hp : (l, s) ∈ table) : lengthen table s = l := by
  rcases lengthen_cases table s with hmem | ⟨hnot, -⟩
  · exact congrArg Prod.fst (List.inj_on_of_nodup_map h.shorts hmem hp rfl)
  · exact absurd (List.mem_map_of_mem (f := Prod.snd) hp) hnot

/-- A long name comes back. -/
theorem lengthen_shorten (h : Table table) (hs : s ∈ table.map Prod.fst) :
    lengthen table (shorten table s) = s := by
  rcases shorten_cases table s with hmem | ⟨hnot, -⟩
  · exact h.lengthen_of_mem hmem
  · exact absurd hs hnot

theorem shorten_shorten (h : Table table) (s : String) :
    shorten table (shorten table s) = shorten table s := by
  rcases shorten_cases table (shorten table s) with hmem | ⟨-, heq⟩
  · rcases shorten_cases table s with hs | ⟨-, hs⟩
    · have : s = shorten table s := h.apart _ hs (List.mem_map_of_mem (f := Prod.fst) hmem)
      rw [← this, ← this]
    · rw [hs, hs]
  · exact heq

theorem lengthen_lengthen (h : Table table) (s : String) :
    lengthen table (lengthen table s) = lengthen table s := by
  rcases lengthen_cases table s with hs | ⟨-, hs⟩
  · rcases lengthen_cases table (lengthen table s) with hmem | ⟨-, heq⟩
    · exact h.apart _ hmem (List.mem_map_of_mem (f := Prod.fst) hs)
    · exact heq
  · rw [hs, hs]

/-- Shortening and expanding again is idempotent. -/
theorem lengthen_shorten_idem (h : Table table) (s : String) :
    lengthen table (shorten table (lengthen table (shorten table s))) =
      lengthen table (shorten table s) := by
  rcases shorten_cases table s with hs | ⟨-, hs⟩
  · rw [h.lengthen_of_mem hs]
    exact h.lengthen_of_mem hs
  · rw [hs]
    rcases lengthen_cases table s with hl | ⟨-, hl⟩
    · exact h.lengthen_shorten (List.mem_map_of_mem (f := Prod.fst) hl)
    · rw [hl, hs, hl]

end Table

theorem expandField_idem (s : String) : expandField (expandField s) = expandField s :=
  fieldMap_table.lengthen_lengthen s

theorem expandContextField_idem (s : String) :
    expandContextField (expandContextField s) = expandContextField s := by
  by_cases hint : "int:".toList.isPrefixOf (expandField s).toList = true
  · have h₁ : expandContextField s = expandField s := by
      simp only [expandContextField, hint, if_true]
    have h₂ : expandContextField (expandField s) = expandField s := by
      simp only [expandContextField, expandField_idem, hint, if_true]
    rw [h₁, h₂]
  · have h₁ : expandContextField s = s := by
      simp only [expandContextField, hint, if_false, Bool.false_eq_true]
    rw [h₁, h₁]

/-- Compacting a context key and expanding it again is idempotent. -/
theorem contextKey_idem (s : String) :
    expandContextField (compactField (expandContextField (compactField s))) =
      expandContextField (compactField s) := by
  have hint : ∀ x, "int:".toList.isPrefixOf (expandField x).toList = true →
      expandContextField x = expandField x := fun x h => by
    simp only [expandContextField, h, if_true]
  have hother : ∀ x, ¬"int:".toList.isPrefixOf (expandField x).toList = true →
      expandContextField x = x := fun x h => by
    simp only [expandContextField, h, if_false, Bool.false_eq_true]
  by_cases h : "int:".toList.isPrefixOf (expandField (compactField s)).toList = true
  · have hidem := fieldMap_table.lengthen_shorten_idem s
    rw [hint _ h, hint _ (by rwa [expandField, compactField, expandField, compactField, hidem])]
    exact hidem
  · rw [hother _ h, compactField, compactField, fieldMap_table.shorten_shorten s]
    exact hother _ h

end Deja
