import Deja.Loop.Covered

/-!
# Contradiction sweep

The analyzer that flags subjects with two or more live objects under a relation that
should be single-valued.  It groups the live facts by namespace, subject and relation
and drafts one finding a group, whose target names the namespace and the subject only:
of two contradicted relations of one subject, one is stored (`relation_collapses`).
-/

namespace Deja.Loop

open Prog

/-! ## The analyzer -/

/-- `SEEDED_FUNCTIONAL`. -/
def seededFunctional : List String :=
  ["deploy_target", "lives_in", "reports_to", "status", "tier", "owner", "region", "assigned_to",
    "primary_email", "current_plan"]

/-- `AnalyzeCtx::grains_of_type`, at the namespaces that are left. -/
def grainsAcross (t : String) (opts : ReadOpts) : List String → Eng (List GrainRecord)
  | [] => pure []
  | ns :: rest => do
    let gs ← Eng.grainsOfType t (some ns) opts
    let more ← grainsAcross t opts rest
    pure (gs ++ more)

/-- `AnalyzeCtx::facts`: the live facts across the namespaces, all where none is
configured. -/
def facts (namespaces : List String) : Eng (List GrainRecord) :=
  if namespaces.isEmpty then Eng.grainsOfType "fact" none ⟨true, none⟩
  else grainsAcross "fact" ⟨true, none⟩ namespaces

theorem grainsAcross_reads (t : String) (opts : ReadOpts) (namespaces : List String) :
    Calls Call.IsRead (grainsAcross t opts namespaces) := by
  induction namespaces with
  | nil => exact Calls.ret
  | cons ns rest ih =>
    exact Calls.seq grainsOfType_reads fun gs => Calls.seq ih fun more => Calls.ret

theorem facts_reads (namespaces : List String) : Calls Call.IsRead (facts namespaces) := by
  unfold facts
  split_ifs
  · exact grainsOfType_reads
  · exact grainsAcross_reads _ _ _

namespace ContradictionSweep

section Sweep

-- `jsonText` and `shown` are an object and a value as `serde_json` writes them, `quoted`
-- is a text as `{:?}` does
variable (u : Unicode) (jsonText : JsonMap → String) (shown : Json → String)
  (quoted : String → String)

/-- `ParamSpec::validate` at `extra_relations`. -/
def validateExtra (v : Json) : Except Error Unit :=
  match v.asStr with
  | none => .error (.paramInvalid ("extra_relations: expected string, got " ++ shown v))
  | some s =>
    if 2000 < s.length then .error (.paramInvalid
      ("extra_relations: length " ++ toString s.length ++ " exceeds max " ++ toString 2000))
    else .ok ()

/-- `resolve_params`: an override of a parameter that is not declared is an error. -/
def resolveParams : JsonMap → Except Error JsonMap
  | overrides =>
    match overrides.find? (·.1 ≠ "extra_relations") with
    | some x => .error (.paramInvalid ("unknown parameter " ++ quoted x.1))
    | none =>
      match overrides.lookup "extra_relations" with
      | none => .ok [("extra_relations", .str "")]
      | some v => (validateExtra shown v).map fun _ => [("extra_relations", v)]

/-- The functional relations: the seeded ones and those of the `extra_relations`. -/
def functional (params : JsonMap) : List String :=
  let extra := ((params.lookup "extra_relations").bind Json.asStr).getD ""
  seededFunctional ++ ((Text.split ',' extra.toList).map fun r =>
    u.normalizeIdent (String.ofList r)).filter (· ≠ "")

/-- The group of a fact: its namespace, subject and relation, where the relation is
functional. -/
def groupKey (relations : List String) (g : GrainRecord) : Option (List String) :=
  match g.strField "subject", g.strField "relation" with
  | some s, some r =>
    if u.normalizeIdent r ∈ relations then
      some [u.normalizeIdent g.namespace_, u.normalizeIdent s, u.normalizeIdent r]
    else none
  | _, _ => none

/-- The facts by group, in the order of the groups. -/
def groups (relations : List String) (gs : List GrainRecord) :
    List (List String × List GrainRecord) :=
  gs.foldl (fun acc g =>
    match groupKey u relations g with
    | none => acc
    | some key => Sorted.insert key ((acc.lookup key).getD [] ++ [g]) acc) []

/-- Oldest first, then by hash. -/
def olderLe (a b : GrainRecord) : Bool :=
  if a.createdAtMs ≠ b.createdAtMs then a.createdAtMs < b.createdAtMs else a.hash ≤ b.hash

/-- `cal::supersede` at a fact. -/
def supersede (target : GrainHash) (fields : JsonMap) : String :=
  "SUPERSEDE " ++ target ++ " WITH fact " ++ jsonText fields

/-- The fields of the replacement: those of the newest fact. -/
def latestFields (latest : GrainRecord) : JsonMap :=
  (if latest.namespace_ = "" then [] else [("namespace", .str latest.namespace_)]) ++
    [("object", .str ((latest.strField "object").getD "")),
      ("relation", .str ((latest.strField "relation").getD "")),
      ("subject", .str ((latest.strField "subject").getD ""))]

/-- The finding of one group, if its objects differ. -/
def draft (ns subject relation : String) (members : List GrainRecord) : Option RecDraft :=
  let distinct := ((members.filterMap (·.strField "object")).map u.normalizeIdent).dedup
  if distinct.length < 2 then none
  else
    let members := members.insertionSort fun a b => olderLe a b
    members.getLast?.map fun latest => {
      targetRef := "entity:" ++ ns ++ "/" ++ subject
      actionKind := .flagContradiction
      summary := ⟨"contradiction.functional", [("count", .int distinct.length),
        ("relation", .str relation), ("subject", .str subject)]⟩
      severity := .medium
      proposal := .cal ("\n".intercalate (members.dropLast.map fun older =>
        supersede jsonText older.hash (latestFields latest)))
      evidence := (members.map GrainRecord.hash).take maxEvidence
      evidenceQuery := none
      metric := some {
        metric := "contradiction_recurrence"
        baseline := 0
        unit := "count"
        n := members.length
        window := "live"
        subject := some subject
        namespace_ := if ns = "" then none else some ns
        relation := some relation
        query := "RECALL facts WHERE subject = \"" ++ subject ++ "\" AND relation = \"" ++
          relation ++ "\" | COUNT DISTINCT object > 1"
        reviewAfterMs := 86400000
        horizonsMs := [86400000, 7 * 86400000, 30 * 86400000] }
      confidence := 4 / 5
      importance := 1 / 2 }

/-- The findings of the groups, by target. -/
def drafts (params : JsonMap) (gs : List GrainRecord) : List RecDraft :=
  ((groups u (functional u params) gs).filterMap fun x =>
    match x.1 with
    | [ns, subject, relation] => draft u jsonText ns subject relation x.2
    | _ => none).insertionSort fun a b => a.targetRef ≤ b.targetRef

/-- `ContradictionSweep`. -/
def analyzer : Analyzer where
  manifest := {
    id := "loop.contradiction_sweep/1"
    requires := []
    autoApply := .never
    trustClass := .builtin
    defaultOn := true
    resolveParams := resolveParams shown quoted }
  analyze ctx := do
    let gs ← facts ctx.namespaces
    pure (drafts u jsonText ctx.params gs)
  reads _ := Calls.seq (facts_reads _) fun _ => Calls.ret

end Sweep

end ContradictionSweep

/-! ### Two relations of one subject -/

/-- A fact about one subject. -/
def acmeFact (h relation object : String) : GrainRecord where
  hash := h
  grainType := "fact"
  namespace_ := "shared"
  createdAtMs := 0
  validToMs := none
  supersededBy := none
  fields := [("object", .str object), ("relation", .str relation), ("subject", .str "acme")]

/-- Two owners and two regions. -/
def acmeFacts : List GrainRecord :=
  [acmeFact "h1" "owner" "ann", acmeFact "h2" "owner" "bob", acmeFact "h3" "region" "us",
    acmeFact "h4" "region" "eu"]

/-- An engine with the sweep. -/
def sweepingEngine : Engine :=
  { bareEngine with
    analyzers := [ContradictionSweep.analyzer bareEngine.host.unicode (fun _ => "") (fun _ => "")
      id] }

/-- The address of a recommendation: the first grain it cites. -/
def citedHash (r : Recommendation) : GrainHash := r.evidence.headD ""

/-- A substrate with these facts. -/
def acmeSubstrate : Substrate Unit :=
  { plainSubstrate citedHash fun a => a.recHash with
    grainsOfType := fun t _ _ _ => if t = "fact" then acmeFacts else [] }

/-- What it answers. -/
def acmeAnswer (c : Call) (m : Memory Unit) : Except Error c.Reply × Memory Unit :=
  match c with
  | .grainsOfType t _ _ => (.ok (if t = "fact" then acmeFacts else []), m)
  | c => plainAnswer citedHash (fun a => a.recHash) c m

theorem acme_performs (c : Call) (m : Memory Unit) :
    acmeSubstrate.Performs c m (acmeAnswer c m).1 (acmeAnswer c m).2 := by
  cases c with
  | grainsOfType t ns opts => exact ⟨rfl, .inl rfl⟩
  | grain h => exact ⟨rfl, .inl rfl⟩
  | heads ns => exact ⟨rfl, .inl rfl⟩
  | telemetry ns => exact ⟨rfl, .inl rfl⟩
  | recommendations => exact ⟨rfl, .inl rfl⟩
  | recommendation h => exact ⟨rfl, .inl rfl⟩
  | loadState => exact ⟨rfl, .inl rfl⟩
  | putRec r => exact .inl ⟨rfl, rfl⟩
  | putAudit a => exact .inl ⟨rfl, rfl⟩
  | executeCal text => exact ⟨rfl, rfl⟩
  | retract h reason => exact ⟨rfl, rfl⟩
  | storeState p => exact .inl ⟨rfl, rfl⟩

/-- What the sweep drafts there. -/
def acmeDrafted : Drafted :=
  match ((runAnalyzers sweepingEngine .empty openOptions none 0 [] sweepingEngine.analyzers).exec
    acmeAnswer untouched).1 with
  | .ok drafted => drafted
  | .error _ => ⟨[], [], []⟩

/-- The rest of the run. -/
def acmeRest : Except Error RunResult × Memory Unit :=
  (runDrafted sweepingEngine openOptions 0 .empty .empty 0 0 [] acmeDrafted).exec acmeAnswer
    untouched

/-- Every draft is covered: an open recommendation of its analyzer cites a grain it
cites, or its key is in cooldown. -/
def DraftsCovered (U : Type) (E : Engine) (S : Substrate U) (opts : RunOptions) (nowMs : ℤ)
    (m m' : Memory U) (res : RunResult) : Prop :=
  ∀ drafted, RanOn E S opts nowMs m drafted res m' → ∀ r ∈ drafted.candidates,
    (∃ x ∈ m'.recs, x.2.analyzer = r.analyzer ∧ m'.state.opens x.1 = true ∧
      ∃ h ∈ r.evidence, h ∈ x.2.evidence) ∨ inCooldown m'.state nowMs r.dedupKey = true

end Deja.Loop
