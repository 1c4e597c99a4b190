import Deja.Cal.Registry
import Deja.Cal.Statement
import Deja.Spec.Rows

/-!
# Executing a query

The dispatch of the executor over a memory: the store and the host's saved
queries and templates.  An arm that contains no statement is given by what it
may call: a reading arm answers from the memory as it is, an arm of the evolving
statements is a list of appending operations of the store, the arms of the
control and destructive statements are any programs.  Everything that runs a
statement inside another is spelled out.

`exec` counts the nesting of calls: a saved query can run a saved query, so the
recursion has no other bound.
-/

namespace Deja.Cal

open Run

variable {G B : Type}

/-! ## Results -/

/-- A grain as a query answers it. -/
structure GrainResult where
  hash : String
  grainType : String
  fields : List (String × Json)

/-- What a statement answers. -/
inductive Payload where
  | grains (grains : List GrainResult)
  | assembled (grains : List GrainResult)
  | existence (found : Bool)
  | history (versions : ℕ)
  | count (count : ℕ)
  | batch (results : List (String × Payload))
  | unsupported (statement message : String)
  | other (kind : String)

/-- `extract_grains`. -/
def extractGrains : Payload → List GrainResult
  | .grains gs | .assembled gs => gs
  | _ => []

/-- The test of `execute_coalesce`. -/
def Payload.isNonEmpty : Payload → Bool
  | .grains gs => !gs.isEmpty
  | .existence found => found
  | .history versions => versions != 0
  | .count n => 0 < n
  | _ => true

/-- `union_grains`, `intersect_grains`, `except_grains`. -/
def SetOp.apply (left right : List GrainResult) : SetOp → List GrainResult
  | .union => left ++ right.filter fun g => !(left.map GrainResult.hash).contains g.hash
  | .intersect => left.filter fun g => (right.map GrainResult.hash).contains g.hash
  | .except => left.filter fun g => !(right.map GrainResult.hash).contains g.hash

/-- The refusals of the executor. -/
inductive CalError where
  | insufficientScope (required statement : String)
  | tier1NotEnabled (statement : String)
  | queryNotFound (name : String)
  | invalidQueryBody (detail : String)
  | body (e : BodyError)
  | assembleDuplicateLabel (label : String)
  | tooManyLetBindings (count max : ℕ)
  | duplicateParameter (name : String)
  | stackOverflow
  | other (detail : String)

/-- `Display` of an error, as far as it ends in a payload. -/
def CalError.message : CalError → String
  | .insufficientScope required statement =>
    "requires scope " ++ required ++ " for " ++ statement
  | .tier1NotEnabled statement => statement ++ " requires tier 1"
  | .queryNotFound name => "saved query not found: " ++ name
  | .invalidQueryBody detail => "invalid query body: " ++ detail
  | .body (.writeInQueryBody stmt) => stmt ++ " in a saved query body"
  | .body .recursiveQuery => "RUN in a saved query body"
  | .assembleDuplicateLabel label => "duplicate label: " ++ label
  | .tooManyLetBindings _ _ => "too many LET bindings"
  | .duplicateParameter name => "duplicate parameter: " ++ name
  | .stackOverflow => "stack overflow"
  | .other detail => detail

/-! ## The memory and the arms -/

/-- What a query reads and writes. -/
structure Memory where
  db : DejaDB
  host : Host

/-- A step of the executor. -/
abbrev CalM := EStateM CalError Memory

/-- The operations of the store that add and supersede. -/
inductive Append (G : Type) where
  | add (g : Grain G)
  | addBatch (gs : List (Grain G))
  | addIfNovel (g : Grain G)
  | supersede (old : Hash) (g : Grain G)
  | mergeHeads (ns subject relation : String) (g : Grain G)

/-- The operation of the store. -/
def Append.op : Append G → Op G
  | .add g => .add g
  | .addBatch gs => .addBatch gs
  | .addIfNovel g => .addIfNovel g
  | .supersede old g => .supersede old g
  | .mergeHeads ns subject relation g => .mergeHeads ns subject relation g

/-- `HARNESS_NS`. -/
def harnessNs : String := "agent:harness"

/-- The namespace a blob's grain says it is in. -/
def blobNs (C : Core G) (blob : Bytes) : Option String :=
  match C.deserializeBlob blob with
  | .ok view => some ((view.getStr "namespace").getD "shared")
  | .error _ => none

/-- An assembly manifest: an observation written into the harness namespace. -/
structure Manifest (C : Core G) where
  grain : Grain G
  harness : ∀ blob hash, C.serializeGrain grain = .ok (blob, hash) →
    blobNs C blob = some harnessNs

/-- What the enclosing query gives a statement. -/
structure Context (B : Type) where
  withOptions : List B
  clauses : Option B
  letValues : List (String × List String)

/-- The query a nested statement runs under: pipeline and format stay outside. -/
def Context.surrogate (ctx : Context B) : Context B := { ctx with clauses := none }

/-- The configuration of the executor the dispatch reads. -/
structure CalExecutorConfig where
  tier1Enabled : Bool
  allowDestructiveOps : Bool
  callerScopes : List String

/-- What the dispatch calls: the arms without statements inside, the composing
of results, and the parser of a saved query's text. -/
structure Arms (C : Core G) (B : Type) where
  read : LeafKind → B → Context B → Memory → Except CalError Payload
  append : LeafKind → B → Context B → Memory → List (Append G) × Except CalError Payload
  control : LeafKind → B → Context B → CalM Payload
  destroy : LeafKind → B → Context B → CalM Payload
  /-- `execute_recall` up to its `CONTRADICTIONS` clause. -/
  recallGrains : B → Context B → Memory → Except CalError (List GrainResult)
  /-- The rest of `execute_recall`: the clause and the grains of its scope. -/
  finishRecall : B → Bool → Option (List GrainResult) → List GrainResult → Context B → Memory →
    Except CalError Payload
  /-- `apply_assemble_post_merge_options` and the format, over the merged sources. -/
  assembleMany : B → List (String × List GrainResult) → Context B → Memory →
    Except CalError Payload
  assembleOne : B → List GrainResult → Context B → Memory → Except CalError Payload
  getAll : List String → Memory → List GrainResult
  assembleOptions : B → List B
  manifest : B → Payload → Memory → Option (Manifest C)
  plan : Statement B → Context B → Memory → Except CalError Payload
  /-- Pipeline and format. -/
  finish : B → Payload → Memory → Except CalError Payload
  validate : Query B → Except CalError Unit
  substitute : QueryEntry → B → Except CalError String
  parse : String → Except String (Query B)
  mergeOptions : List B → List B → List B
  mergeClauses : B → Option B → B

variable {C : Core G} (arms : Arms C B) (cfg : CalExecutorConfig) (L : Shipped) (scan : ScanOrder)

/-- Answer from the memory as it is. -/
def reading {α : Type} (f : Memory → Except CalError α) : CalM α := fun m =>
  match f m with
  | .ok a => .ok a m
  | .error e => .error e m

/-! ## Scopes -/

/-- `statement_type_name` of the statements without statements inside. -/
def LeafKind.name : LeafKind → String
  | .exists => "exists"
  | .history => "history"
  | .describe => "describe"
  | .entityAt => "entity_at"
  | .runTrace => "run_trace"
  | .runsTouching => "runs_touching"
  | .derivedFrom => "derived_from"
  | .showForks => "show_forks"
  | .related => "related"
  | .novelty => "novelty"
  | .reportSubject => "report_subject"
  | .showGrants => "show_grants"
  | .add => "add"
  | .addWorkflow => "add_workflow"
  | .supersede => "supersede"
  | .supersedeWorkflow => "supersede_workflow"
  | .accumulate => "accumulate"
  | .revert => "revert"
  | .remember => "remember"
  | .merge => "merge"
  | .defineTemplate => "define_template"
  | .dropTemplate => "drop_template"
  | .defineQuery => "define_query"
  | .dropQuery => "drop_query"
  | .grant => "grant"
  | .revoke => "revoke"
  | .approve => "approve"
  | .reject => "reject"
  | .applyRec => "apply"
  | .rollbackRec => "rollback"
  | .runLoop => "run_loop"
  | .forget => "forget"
  | .purge => "purge"

/-- `statement_type_name`. -/
def Statement.typeName : Statement B → String
  | .leaf k _ => k.name
  | .recallStmt _ => "recall"
  | .setOp .. => "set_op"
  | .assemble .. => "assemble"
  | .explain _ => "explain"
  | .batch .. => "batch"
  | .coalesce .. => "coalesce"
  | .runQuery .. => "run_query"

/-- `required_scope_for_statement`. -/
def Statement.requiredScope : Statement B → String
  | .leaf k _ =>
    match k.classify with
    | .read => "read"
    | .evolve => "write"
    | .control | .destructive => "admin"
  | _ => "read"

/-- `check_caller_scope`. -/
def checkCallerScope (s : Statement B) : Except CalError Unit :=
  let scopes := cfg.callerScopes
  if scopes.isEmpty || scopes.contains "admin" || scopes.contains s.requiredScope ||
      (s.requiredScope == "read" && scopes.contains "write") then .ok ()
  else .error (.insufficientScope s.requiredScope s.typeName)

/-! ## The arms without statements inside -/

/-- What an arm calls on the facade. -/
inductive Arm where
  | read | append | inert | control | destroy
  deriving DecidableEq

/-- The arm of a statement.  `REVERT` only answers that it is not defined yet. -/
def LeafKind.arm : LeafKind → Arm
  | .exists | .history | .describe | .entityAt | .runTrace | .runsTouching | .derivedFrom
  | .showForks | .related | .novelty | .reportSubject | .showGrants => .read
  | .add | .addWorkflow | .supersede | .supersedeWorkflow | .accumulate | .remember | .merge =>
    .append
  | .revert => .inert
  | .defineTemplate | .dropTemplate | .defineQuery | .dropQuery | .grant | .revoke | .approve
  | .reject | .applyRec | .rollbackRec | .runLoop => .control
  | .forget | .purge => .destroy

/-- Run the appending operations of an arm, and answer. -/
def appending (f : Memory → List (Append G) × Except CalError Payload) : CalM Payload := fun m =>
  let m' : Memory := { m with db := m.db.steps C ((f m).1.map Append.op) }
  match (f m).2 with
  | .ok p => .ok p m'
  | .error e => .error e m'

/-- The arms of `execute_statement` without statements inside. -/
def execLeaf (k : LeafKind) (body : B) (ctx : Context B) : CalM Payload :=
  match k.arm with
  | .read => reading (arms.read k body ctx)
  | .append =>
    if cfg.tier1Enabled then appending (C := C) (arms.append k body ctx)
    else throw (.tier1NotEnabled k.name)
  | .inert => pure (.unsupported k.name "Tier 1 REVERT semantics are not yet defined.")
  | .control =>
    if (k = .grant ∨ k = .revoke) ∧ ¬ cfg.tier1Enabled then throw (.tier1NotEnabled k.name)
    else if (k = .dropTemplate ∨ k = .dropQuery) ∧ ¬ cfg.allowDestructiveOps then
      pure (.unsupported k.name "Destructive operations are disabled for this session.")
    else arms.control k body ctx
  | .destroy =>
    if cfg.allowDestructiveOps then arms.destroy k body ctx
    else pure (.unsupported k.name "Destructive operations are disabled for this session.")

/-! ## The arms with statements inside -/

section Nested

variable (run : Statement B → Context B → CalM Payload)

/-- `execute_recall`. -/
def execRecall (ctx : Context B) : RecallStmt B → CalM Payload
  | .mk body contradictions inner => do
    let grains ← reading (arms.recallGrains body ctx)
    match contradictions, inner with
    | true, some s =>
      let p ← run s ctx.surrogate
      -- a sub-query that yields no grains selects no keys
      let scope := match p with
        | .grains gs => gs
        | _ => []
      reading (arms.finishRecall body true (some scope) grains ctx)
    | c, _ => reading (arms.finishRecall body c none grains ctx)

/-- A nested statement, for its grains. -/
def execGrains (ctx : Context B) (s : Statement B) : CalM (List GrainResult) := do
  let p ← run s ctx.surrogate
  pure (extractGrains p)

/-- `execute_set_op`. -/
def execSetOp (op : SetOp) (operands : List (Statement B)) (ctx : Context B) : CalM Payload := do
  match ← operands.mapM (execGrains run ctx) with
  | [] => pure (.grains [])
  | first :: rest => pure (.grains (rest.foldl (fun acc next => op.apply acc next) first))

/-- `execute_source`: a source with options of its own runs under them. -/
def execSource (ctx : Context B) : NamedSource B → CalM (String × List GrainResult)
  | .mk label query withOptions => do
    let gs ← execGrains run
      { ctx with withOptions := if withOptions.isEmpty then ctx.withOptions else withOptions } query
    pure (label, gs)

/-- `record_assembly_manifest`. -/
def recordManifest (body : B) (p : Payload) : CalM Unit := fun m =>
  match arms.manifest body p m with
  | none => .ok () m
  | some mf => .ok () { m with db := m.db.step C (.add mf.grain) }

/-- The single-source path of `execute_assemble`. -/
def execAssembleOne (body : B) (gs : List GrainResult) (ctx : Context B) : CalM Payload := do
  let p ← reading (arms.assembleOne body gs ctx)
  recordManifest arms body p
  pure p

/-- `execute_assemble`. -/
def execAssemble (body : B) (streaming : Bool) (source : Source B)
    (sources : Option (List (NamedSource B))) (ctx₀ : Context B) : CalM Payload := do
  let ctx := { ctx₀ with withOptions := ctx₀.withOptions ++ arms.assembleOptions body }
  if streaming then pure (.other "stream_assemble")
  else match sources with
    | some srcs => do
      let results ← srcs.mapM (execSource run ctx)
      let p ← reading (arms.assembleMany body results ctx)
      recordManifest arms body p
      pure p
    | none =>
      match source with
      | .query r => do
        let gs ← execGrains run ctx (.recallStmt r)
        execAssembleOne arms body gs ctx
      | .hashes hashes => do
        let gs ← reading fun m => .ok (arms.getAll hashes m)
        execAssembleOne arms body gs ctx
      | .parameter name =>
        pure (.unsupported "assemble" ("Parameter source $" ++ name ++ " is not yet supported"))

/-- `unwrap_or_else`: an entry that failed answers with its error. -/
def orUnsupported (s : Statement B) (x : CalM Payload) : CalM Payload := fun m =>
  match x m with
  | .ok p m' => .ok p m'
  | .error e m' => .ok (.unsupported s.typeName e.message) m'

/-- `execute_batch_entry`. -/
def execBatchEntry : BatchEntry B → CalM Payload
  | .mk s withOptions clauses => do
    let p ← orUnsupported s (run s ⟨withOptions, some clauses, []⟩)
    reading (arms.finish clauses p)

/-- The labelled entries of a batch, after those with the labels `seen`. -/
def execLabeled : List String → List (String × BatchEntry B) → CalM (List (String × Payload))
  | _, [] => pure []
  | seen, (label, e) :: rest =>
    if label ∈ seen then throw (.assembleDuplicateLabel label)
    else do
      let p ← execBatchEntry arms run e
      let ps ← execLabeled (label :: seen) rest
      pure ((label, p) :: ps)

/-- `execute_batch`. -/
def execBatch (statements : List (BatchEntry B)) :
    Option (List (String × BatchEntry B)) → CalM Payload
  | some labeled => do
    let results ← execLabeled arms run [] labeled
    pure (.batch results)
  | none => do
    let results ← statements.mapM (execBatchEntry arms run)
    pure (.batch (results.zipIdx.map fun x => (toString x.2, x.1)))

/-- The branches of a coalesce, up to the first that answers something. -/
def firstHit (ctx : Context B) : List (Statement B) → CalM (Option Payload)
  | [] => pure none
  | s :: rest => do
    let p ← run s ctx.surrogate
    if p.isNonEmpty then pure (some p) else firstHit ctx rest

/-- `execute_coalesce`. -/
def execCoalesce (body : B) (branches : List (Statement B)) (elseBranch : Option (Statement B))
    (ctx : Context B) : CalM Payload :=
  if branches.isEmpty then do
    match ← execRecall arms run ctx (.mk body false none) with
    | .grains gs => pure (.grains (gs.take 1))
    | p => pure p
  else do
    match ← firstHit run ctx branches with
    | some p => pure p
    | none =>
      match elseBranch with
      | some s => run s ctx.surrogate
      | none => pure (.grains [])

/-- `execute_run_query`.  The body's own `LET` bindings are not evaluated. -/
def execRunQuery (name : String) (bindings : B) (ctx : Context B) : CalM Payload := do
  let m ← get
  match (m.host.liveQueries L scan).lookup name with
  | none => throw (.queryNotFound name)
  | some entry => do
    let text ← reading fun _ => arms.substitute entry bindings
    match arms.parse text with
    | .error detail => throw (.invalidQueryBody detail)
    | .ok parsed =>
      match checkReadOnlyStatement parsed.statement with
      | .error e => throw (.body e)
      | .ok _ =>
        run parsed.statement ⟨arms.mergeOptions parsed.withOptions ctx.withOptions,
          some (arms.mergeClauses parsed.clauses ctx.clauses), []⟩

end Nested

/-- `execute_statement`, `fuel` calls deep at most. -/
def exec : ℕ → Statement B → Context B → CalM Payload
  | 0, _, _ => throw .stackOverflow
  | fuel + 1, s, ctx => do
    reading fun _ => checkCallerScope cfg s
    match s with
    | .leaf k body => execLeaf arms cfg k body ctx
    | .recallStmt r => execRecall arms (exec fuel) ctx r
    | .setOp op operands => execSetOp (exec fuel) op operands ctx
    | .assemble body streaming source sources =>
      execAssemble arms (exec fuel) body streaming source sources ctx
    | .explain inner => reading (arms.plan inner ctx)
    | .batch statements labeled => execBatch arms (exec fuel) statements labeled
    | .coalesce body branches elseBranch =>
      execCoalesce arms (exec fuel) body branches elseBranch ctx
    | .runQuery name bindings => execRunQuery arms L scan (exec fuel) name bindings ctx

/-! ## Whole queries -/

/-- `MAX_LET_BINDINGS`. -/
def maxLetBindings : ℕ := 5

/-- `MAX_GRAINS_PER_LET`. -/
def maxGrainsPerLet : ℕ := 1000

/-- The values of a binding. -/
def Extractor.values (gs : List GrainResult) : Extractor → List String
  | .subjects => gs.filterMap fun g => (g.fields.lookup "subject").bind Json.asStr
  | .objects => gs.filterMap fun g => (g.fields.lookup "object").bind Json.asStr
  | .hashes => gs.map GrainResult.hash

/-- The loop of `LetScope::evaluate`. -/
def evaluateLets (fuel : ℕ) :
    List (LetBinding B) → List (String × List String) → CalM (List (String × List String))
  | [], values => pure values
  | b :: rest, values =>
    if (values.lookup b.name).isSome then throw (.duplicateParameter b.name)
    else do
      let p ← exec arms cfg L scan fuel b.source ⟨[], none, values⟩
      let gs := (extractGrains p).take maxGrainsPerLet
      evaluateLets fuel rest (Assoc.insert b.name (b.extractor.values gs) values)

/-- `execute`, from the parsed query on; `execute_parsed` is the same. -/
def execute (fuel : ℕ) (q : Query B) : CalM Payload := do
  if maxLetBindings < q.letBindings.length then
    throw (.tooManyLetBindings q.letBindings.length maxLetBindings)
  let values ← evaluateLets arms cfg L scan fuel q.letBindings []
  reading fun _ => arms.validate q
  let p ← exec arms cfg L scan fuel q.statement ⟨q.withOptions, some q.clauses, values⟩
  reading (arms.finish q.clauses p)

end Deja.Cal
