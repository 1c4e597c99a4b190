import Deja.Codec.Types
import Deja.Lib.Assoc

/-!
# ADD WORKFLOW

The graph syntax over the tokens of the lexer, and the grain that the executor builds of what the
parser has read: the graph goes through a JSON map, which the builder of the grain reads again.
-/

namespace Deja.Graph

/-! ## Tokens -/

/-- The keywords a node name can be. -/
inductive NodeWord where
  | run | query | approve | reject | apply | rollback | grant | revoke | show | merge | related
  | novelty | remember | entity
  deriving DecidableEq

/-- `Token::description` of a keyword. -/
def NodeWord.description : NodeWord → String
  | run => "RUN"
  | query => "QUERY"
  | approve => "APPROVE"
  | reject => "REJECT"
  | apply => "APPLY"
  | rollback => "ROLLBACK"
  | grant => "GRANT"
  | revoke => "REVOKE"
  | .show => "SHOW"
  | merge => "MERGE"
  | related => "RELATED"
  | novelty => "NOVELTY"
  | remember => "REMEMBER"
  | entity => "ENTITY"

/-- The node name a keyword is. -/
def NodeWord.name : NodeWord → String
  | run => "run"
  | query => "query"
  | w => w.description.toLower

/-- The tokens of the lexer, as far as the graph syntax tells them apart.  A number carries its
text and what `as u32` makes of it. -/
inductive Token where
  | ident (s : String)
  | stringLiteral (s : String)
  | hashLiteral (digest : String)
  | numberLiteral (text : String) (asU32 : UInt32)
  | word (w : NodeWord)
  | on | when | bind | with | reason | because | arrow | asterisk | lParen | rParen | comma | eq
  | extractEventDate | autoRelate | extractMemories | syncOption
  | other (description : String)
  deriving DecidableEq

/-- `Token::description`. -/
def Token.description : Token → String
  | ident s => s
  | stringLiteral s => "\"" ++ s ++ "\""
  | hashLiteral digest => "sha256:" ++ digest
  | numberLiteral text _ => text
  | word w => w.description
  | on => "ON"
  | when => "WHEN"
  | bind => "BIND"
  | .with => "WITH"
  | reason => "REASON"
  | because => "BECAUSE"
  | arrow => "->"
  | asterisk => "*"
  | lParen => "("
  | rParen => ")"
  | comma => ","
  | eq => "="
  | extractEventDate => "EXTRACT_EVENT_DATE"
  | autoRelate => "AUTO_RELATE"
  | extractMemories => "EXTRACT_MEMORIES"
  | syncOption => "SYNC"
  | other description => description

/-- What stands at the front of the text. -/
def found : List Token → String
  | [] => "<end of query>"
  | t :: _ => t.description

/-- The refusals of the parser; `rounds` is a loop that runs out of rounds. -/
inductive ParseError where
  | unexpectedToken (expected found : String) (suggestion : Option String)
  | missingReason
  | reasonTooLong (length max : ℕ)
  | nestingTooDeep (depth max : ℕ)
  | rounds
  deriving DecidableEq

/-- A step of the parser: a value read off the front of the text, and the rest of the text. -/
abbrev Parse : Type → Type := Except ParseError

/-- `MAX_NESTING_DEPTH`. -/
def maxNestingDepth : ℕ := 8

/-- `MAX_REASON_LENGTH`. -/
def maxReasonLength : ℕ := 500

/-! ## Names and groups -/

/-- `parse_string_literal`. -/
def parseStringLiteral : List Token → Parse (String × List Token)
  | .stringLiteral s :: ts => .ok (s, ts)
  | t :: _ => .error (.unexpectedToken "string literal" t.description
      (some "string values must be enclosed in double quotes"))
  | [] => .error (.unexpectedToken "string literal" "<end of query>" none)

/-- `parse_hash_literal`. -/
def parseHashLiteral : List Token → Parse (String × List Token)
  | .hashLiteral digest :: ts => .ok (digest, ts)
  | t :: _ => .error (.unexpectedToken "hash literal (sha256:...)" t.description
      (some "hash literals use the format sha256:<hex digits>"))
  | [] => .error (.unexpectedToken "hash literal (sha256:...)" "<end of query>" none)

/-- The suggestion where a node name is missing. -/
def nameSuggestion : Token → String
  | .reason | .because =>
    "expected node name after '->' — the arrow is dangling. " ++
      "Add a target node: a -> b REASON \"...\""
  | .rParen => "parallel group must contain at least one node — e.g.: (build, test)"
  | _ => "reserved words (ON, WHEN, BIND, REASON) must be quoted to use as node names"

/-- `parse_node_name`. -/
def parseNodeName : List Token → Parse (String × List Token)
  | .ident s :: ts => .ok (s, ts)
  | .word w :: ts => .ok (w.name, ts)
  | .stringLiteral s :: ts => .ok (s, ts)
  | t :: _ => .error (.unexpectedToken "node name (identifier or quoted string)" t.description
      (some (nameSuggestion t)))
  | [] => .error (.unexpectedToken "node name after '->'" "<end of query>"
      (some "the arrow is dangling — add a target node: a -> b"))

/-- The names of a group after the first. -/
def groupNames : ℕ → List Token → Parse (List String × List Token)
  | rounds, .comma :: ts =>
    match rounds with
    | 0 => .error .rounds
    | rounds + 1 => do
      let (name, ts) ← parseNodeName ts
      let (names, ts) ← groupNames rounds ts
      .ok (name :: names, ts)
  | _, ts => .ok ([], ts)

/-- `parse_node_or_group`. -/
def parseNodeOrGroup (depth : ℕ) : List Token → Parse (List String × List Token)
  | .lParen :: ts =>
    if maxNestingDepth < depth + 1 then .error (.nestingTooDeep (depth + 1) maxNestingDepth)
    else do
      let (first, ts) ← parseNodeName ts
      let (names, ts) ← groupNames ts.length ts
      match ts with
      | .rParen :: ts => .ok (first :: names, ts)
      | ts => .error (.unexpectedToken "')' to close parallel group" (found ts)
          (some "close the parallel group with ')' — e.g.: (build, test) -> deploy"))
  | ts => do
    let (name, ts) ← parseNodeName ts
    .ok ([name], ts)

/-! ## Chains -/

/-- `GraphEdge`. -/
structure GraphEdge where
  src : String
  dst : String
  cond : Option String
  repeats : Option UInt32
  deriving DecidableEq

/-- The nodes and edges read so far. -/
structure WorkflowGraph where
  nodes : List String
  edges : List GraphEdge
  deriving DecidableEq

/-- `ensure_node`. -/
def ensureNode (nodes : List String) (name : String) : List String :=
  if name ∈ nodes then nodes else nodes ++ [name]

/-- The condition of an arrow. -/
def parseWhen : List Token → Parse (Option String × List Token)
  | .when :: ts => do
    let (cond, ts) ← parseStringLiteral ts
    .ok (some cond, ts)
  | ts => .ok (none, ts)

/-- The repeat count of an arrow. -/
def parseRepeat : List Token → Parse (Option UInt32 × List Token)
  | .asterisk :: .numberLiteral _ n :: ts =>
    if n = 0 then
      .error (.unexpectedToken "repeat count >= 1" "0"
        (some "repeat count must be at least 1 — e.g.: a -> b * 1"))
    else .ok (some n, ts)
  | .asterisk :: ts => .error (.unexpectedToken "number after '*' for retry count" (found ts)
      (some "* N sets the retry count — e.g.: a -> b * 3"))
  | ts => .ok (none, ts)

/-- Every source to every target. -/
def arrowEdges (sources targets : List String) (cond : Option String) (repeats : Option UInt32) :
    List GraphEdge :=
  sources.flatMap fun s => targets.map fun t => ⟨s, t, cond, repeats⟩

/-- The arrows of a chain, from the sources of the first on. -/
def parseArrows (depth : ℕ) :
    ℕ → List String → WorkflowGraph → List Token → Parse (WorkflowGraph × List Token)
  | rounds, sources, g, .arrow :: ts =>
    match rounds with
    | 0 => .error .rounds
    | rounds + 1 =>
      if ts.head? = some .arrow then
        .error (.unexpectedToken "node name after '->'" "another '->'"
          (some "remove the extra '->' — chain nodes with single arrows: a -> b -> c"))
      else do
        let (targets, ts) ← parseNodeOrGroup depth ts
        let (cond, ts) ← parseWhen ts
        let (repeats, ts) ← parseRepeat ts
        parseArrows depth rounds targets ⟨targets.foldl ensureNode g.nodes,
          g.edges ++ arrowEdges sources targets cond repeats⟩ ts
  | _, _, g, ts => .ok (g, ts)

/-- `is_graph_line_start`. -/
def isGraphLineStart : List Token → Bool
  | .ident _ :: _ | .stringLiteral _ :: _ | .lParen :: _ | .word .run :: _ | .word .query :: _ =>
    true
  | _ => false

/-- The chains of a graph. -/
def parseChains (depth : ℕ) : ℕ → WorkflowGraph → List Token → Parse (WorkflowGraph × List Token)
  | rounds, g, ts =>
    if isGraphLineStart ts then
      match rounds with
      | 0 => .error .rounds
      | rounds + 1 => do
        let (sources, ts) ← parseNodeOrGroup depth ts
        let (g, ts) ← parseArrows depth ts.length sources
          ⟨sources.foldl ensureNode g.nodes, g.edges⟩ ts
        parseChains depth rounds g ts
    else .ok (g, ts)

/-- `parse_workflow_graph`. -/
def parseWorkflowGraph (depth : ℕ) (ts : List Token) : Parse (WorkflowGraph × List Token) := do
  let (g, rest) ← parseChains depth ts.length ⟨[], []⟩ ts
  if rest.head? = some .when then
    .error (.unexpectedToken "'->' edge before WHEN condition" "WHEN"
      (some "WHEN must follow a -> edge, not a node — e.g.: a -> b WHEN \"condition\""))
  else if rest.head? = some .arrow ∧ isGraphLineStart ts then
    .error (.unexpectedToken "node name after '->'" (found rest)
      (some "expected a node name or parallel group after '->'"))
  else if ¬isGraphLineStart ts then
    .error (.unexpectedToken "at least one node in workflow graph" (found rest)
      (some "workflow body must contain node names and arrows, e.g.: build -> test -> deploy"))
  else .ok (g, rest)

/-! ## The statement -/

/-- `BindClause`. -/
structure BindClause where
  node : String
  hash : String
  deriving DecidableEq

/-- `expect_exact`. -/
def expectExact (expected : Token) : List Token → Parse (Unit × List Token)
  | t :: ts =>
    if t = expected then .ok ((), ts)
    else .error (.unexpectedToken expected.description t.description none)
  | [] => .error (.unexpectedToken expected.description "<end of query>" none)

/-- The `BIND` clauses. -/
def parseBinds : ℕ → List Token → Parse (List BindClause × List Token)
  | rounds, .bind :: ts =>
    match rounds with
    | 0 => .error .rounds
    | rounds + 1 => do
      let (node, ts) ← parseNodeName ts
      let ((), ts) ← expectExact .eq ts
      let (hash, ts) ← parseHashLiteral ts
      let (binds, ts) ← parseBinds rounds ts
      .ok (⟨node, hash⟩ :: binds, ts)
  | _, ts => .ok ([], ts)

/-- An option of `WITH`; an unknown one is a warning. -/
inductive AddWithOption where
  | extractEventDate | autoRelate | extractMemories | sync | occurrence
  | unknown (option : String)
  deriving DecidableEq

/-- `parse_add_with_option`. -/
def parseAddWithOption : List Token → Parse (AddWithOption × List Token)
  | .extractEventDate :: ts => .ok (.extractEventDate, ts)
  | .autoRelate :: ts => .ok (.autoRelate, ts)
  | .extractMemories :: ts => .ok (.extractMemories, ts)
  | .syncOption :: ts => .ok (.sync, ts)
  | .ident w :: ts => .ok (if w.toLower = "occurrence" then .occurrence else .unknown w, ts)
  | t :: ts => .ok (.unknown t.description, ts)
  | [] => .error (.unexpectedToken
      "ADD WITH option (extract_event_date, auto_relate, extract_memories, sync)"
      "<end of query>" none)

/-- The options after the first. -/
def withOptions : ℕ → List Token → Parse (List AddWithOption × List Token)
  | rounds, .comma :: ts =>
    match rounds with
    | 0 => .error .rounds
    | rounds + 1 => do
      let (option, ts) ← parseAddWithOption ts
      let (options, ts) ← withOptions rounds ts
      .ok (option :: options, ts)
  | _, ts => .ok ([], ts)

/-- The `WITH` clause. -/
def parseWith : List Token → Parse (List AddWithOption × List Token)
  | .with :: ts => do
    let (option, ts) ← parseAddWithOption ts
    let (options, ts) ← withOptions ts.length ts
    .ok (option :: options, ts)
  | ts => .ok ([], ts)

/-- `parse_reason_clause`. -/
def parseReasonClause : List Token → Parse (String × List Token)
  | .reason :: ts | .because :: ts => do
    let (reason, ts) ← parseStringLiteral ts
    if maxReasonLength < reason.utf8ByteSize then
      .error (.reasonTooLong reason.utf8ByteSize maxReasonLength)
    else .ok (reason, ts)
  | _ => .error .missingReason

/-- The trigger of a workflow. -/
def parseTrigger : List Token → Parse (Option String × List Token)
  | .on :: ts => do
    let (trigger, ts) ← parseStringLiteral ts
    .ok (some trigger, ts)
  | ts => .ok (none, ts)

/-- `AddWorkflowStmt`. -/
structure AddWorkflowStmt where
  name : String
  trigger : Option String
  nodes : List String
  edges : List GraphEdge
  bindings : List BindClause
  reason : String
  withOptions : List AddWithOption

/-- `parse_add_workflow`, after the word `workflow`. -/
def parseAddWorkflow (depth : ℕ) (ts : List Token) : Parse (AddWorkflowStmt × List Token) := do
  let (name, ts) ← parseStringLiteral ts
  let (trigger, ts) ← parseTrigger ts
  let (g, ts) ← parseWorkflowGraph depth ts
  let (bindings, ts) ← parseBinds ts.length ts
  let (options, ts) ← parseWith ts
  let (reason, ts) ← parseReasonClause ts
  .ok (⟨name, trigger, g.nodes, g.edges, bindings, reason, options⟩, ts)

/-! ## The fields of the grain -/

/-- `Value::as_u64`. -/
def asU64 : Json → Option ℕ
  | .int i => if 0 ≤ i ∧ i < 2 ^ 64 then some i.toNat else none
  | _ => none

/-- `Value::as_object`. -/
def asObject : Json → Option (List (String × Json))
  | .obj fields => some fields
  | _ => none

/-- An edge as an object; the repeat count is not stored in it. -/
def edgeJson (e : GraphEdge) : Json :=
  .obj (Sorted.ofList ([("src", .str e.src), ("dst", .str e.dst)] ++
    (e.cond.map fun c => ("cond", .str c)).toList))

/-- The bindings as an object. -/
def bindMap (binds : List BindClause) : List (String × Json) :=
  binds.foldl (fun m b => Sorted.insert b.node (.str ("sha256:" ++ b.hash)) m) []

/-- The largest repeat count of a node so far and one more. -/
def mergeRetry (m : List (String × Json)) (dst : String) (r : UInt32) : List (String × Json) :=
  let merged := match (m.lookup dst).bind asU64 with
    | some prev => max (UInt32.ofNat prev) r
    | none => r
  Sorted.insert dst (.int merged.toNat) m

/-- The retries as an object. -/
def retriesMap (edges : List GraphEdge) : List (String × Json) :=
  edges.foldl (fun m e => match e.repeats with
    | some r => mergeRetry m e.dst r
    | none => m) []

/-- The fields that the executor hands to the builder, with the namespace it injects. -/
def workflowFields (wf : AddWorkflowStmt) (writeNamespace : Option String) :
    List (String × Json) :=
  Sorted.ofList ([("name", .str wf.name)] ++ (wf.trigger.map fun t => ("trigger", .str t)).toList ++
    [("nodes", .arr (wf.nodes.map .str)), ("edges", .arr (wf.edges.map edgeJson))] ++
    (if wf.bindings = [] then [] else [("bindings", .obj (bindMap wf.bindings))]) ++
    (if retriesMap wf.edges = [] then [] else [("retries", .obj (retriesMap wf.edges))]) ++
    (writeNamespace.map fun ns => ("namespace", .str ns)).toList)

/-! ## The builder -/

/-- An insertion into a `HashMap`. -/
def insertEntry {ν : Type} (m : StringMap ν) (k : String) (v : ν) : StringMap ν :=
  ⟨Assoc.insert k v m.entries, Assoc.nodup_keys_insert m.keys⟩

/-- The first name that comes twice. -/
def firstDuplicate : List String → List String → Option String
  | _, [] => none
  | seen, n :: nodes => if n ∈ seen then some n else firstDuplicate (n :: seen) nodes

/-- One edge of the builder. -/
def buildEdge (nodes : List String) (i : ℕ) (v : Json) : Except DejaDbError WorkflowEdge :=
  match asObject v with
  | none => .error (.validation ("workflow edges[" ++ toString i ++ "] must be an object"))
  | some obj =>
    match (obj.lookup "src").bind Json.asStr with
    | none => .error (.validation ("workflow edges[" ++ toString i ++ "] requires string 'src'"))
    | some src =>
      match (obj.lookup "dst").bind Json.asStr with
      | none => .error (.validation ("workflow edges[" ++ toString i ++ "] requires string 'dst'"))
      | some dst =>
        if src ∉ nodes then
          .error (.validation ("workflow edges[" ++ toString i ++ "].src '" ++ src ++
            "' does not reference a known node"))
        else if dst ∉ nodes then
          .error (.validation ("workflow edges[" ++ toString i ++ "].dst '" ++ dst ++
            "' does not reference a known node"))
        else .ok ⟨src, dst, (obj.lookup "cond").bind Json.asStr,
          ((obj.lookup "max_cycles").bind asU64).map UInt32.ofNat⟩

/-- The edges of the builder, from an index on. -/
def buildEdges (nodes : List String) : ℕ → List Json → Except DejaDbError (List WorkflowEdge)
  | _, [] => .ok []
  | i, v :: vs => do
    let e ← buildEdge nodes i v
    let es ← buildEdges nodes (i + 1) vs
    .ok (e :: es)

/-- The entries of an object whose keys must be nodes. -/
def buildEntries {ν : Type} (nodes : List String) (field : String) (read : Json → Option ν) :
    StringMap ν → List (String × Json) → Except DejaDbError (StringMap ν)
  | m, [] => .ok m
  | m, (k, v) :: rest =>
    if k ∉ nodes then
      .error (.validation ("workflow " ++ field ++ " key '" ++ k ++
        "' does not reference a known node"))
    else
      match read v with
      | some x => buildEntries nodes field read (insertEntry m k x) rest
      | none => buildEntries nodes field read m rest

/-- `build_workflow_from_json`. -/
def buildWorkflow (fields : List (String × Json)) : Except DejaDbError Workflow := do
  let nodes := (((fields.lookup "nodes").bind Json.asArray).map (List.filterMap Json.asStr)).getD []
  match firstDuplicate [] nodes with
  | some n => .error (.validation ("workflow nodes contain duplicate ID: '" ++ n ++ "'"))
  | none => do
    let edges ← buildEdges nodes 0 (((fields.lookup "edges").bind Json.asArray).getD [])
    let bindings ← buildEntries nodes "bindings" Json.asStr ⟨[], List.nodup_nil⟩
      (((fields.lookup "bindings").bind asObject).getD [])
    let retries ← buildEntries nodes "retries" (fun v => (asU64 v).map UInt32.ofNat)
      ⟨[], List.nodup_nil⟩ (((fields.lookup "retries").bind asObject).getD [])
    .ok ⟨nodes, edges, bindings, retries, (fields.lookup "trigger").bind Json.asStr⟩

/-- `COMMON_KNOWN_FIELDS`. -/
def commonKnownFields : List String :=
  ["namespace", "user_id", "confidence", "source_type", "created_at", "importance",
    "embedding_text", "tags", "structural_tags", "temporal_type", "valid_from", "valid_to",
    "system_valid_from", "system_valid_to", "author_did", "origin_did", "origin_namespace",
    "derived_from", "consolidation_level", "success_count", "failure_count", "superseded_by",
    "verification_status", "context", "invalidation_policy", "content_refs", "embedding_refs",
    "provenance_chain", "related_to", "supersession_justification", "supersession_auth", "type",
    "grain_type"]

/-- `Value::is_null`. -/
def isNull : Json → Bool
  | .null => true
  | _ => false

/-- `collect_extra_fields` for a workflow. -/
def collectExtraFields (fields : List (String × Json)) : List (String × Json) :=
  fields.filter fun x => !isNull x.2 && !commonKnownFields.contains x.1 &&
    !(["nodes", "edges", "bindings", "retries", "trigger"].contains x.1)

/-- What is stored of a workflow: the graph, the namespace and the fields it does not know. -/
structure StoredWorkflow where
  workflow : Workflow
  namespace_ : Option String
  extraFields : List (String × Json)

/-- The arm of the executor, as far as the builder. -/
def executeAddWorkflow (writeNamespace : Option String) (wf : AddWorkflowStmt) :
    Except DejaDbError StoredWorkflow := do
  let fields := workflowFields wf writeNamespace
  let workflow ← buildWorkflow fields
  .ok ⟨workflow, (fields.lookup "namespace").bind Json.asStr, collectExtraFields fields⟩

end Deja.Graph
