import Deja.Authz.Session
import Deja.Core.Grain

/-!
# Writes through the facade

The write operations of a session.  Each checks a verb on a namespace and then
builds grains; a grain built from a field map gets its namespace from the field
map, by the serializer, and not from the check.

* `writeNs` — the namespace the check asks about.
* `landingNs` — the namespace the stored grain reads back with.
* `Write.run` — the operations over the stored rows.
-/

namespace Deja.Authz

/-- `AUTHZ_NS`. -/
def authzNs : String := "agent:authz"

/-- `HARNESS_NS`. -/
def harnessNamespace : String := "agent:harness"

/-- `REL_PERMITS`. -/
def relPermits : String := "mg:permits"

/-! ## Field maps -/

/-- `serde_json::Map`. -/
abbrev Fields := List (String × Json)

/-- The string under a key. -/
def Fields.getStr (fields : Fields) (key : String) : Option String :=
  (fields.lookup key).bind Json.asStr

/-- `write_ns`: the `namespace` field, else the session default, else `shared`. -/
def writeNs (default : Option String) (fields : Fields) : String :=
  ((fields.getStr "namespace").orElse fun _ => default).getD "shared"

/-- The namespace a grain built from a field map reads back with.  The builder
sets it from a string under `namespace` only.  A field it does not know is
written as it stands, so a field `ns`, which is the short key of the namespace,
is read back as the namespace where the builder set none. -/
def landingNs (nfc : String → String) (fields : Fields) : String :=
  match fields.getStr "namespace" with
  | some ns => nfc ns
  | none =>
    match fields.getStr "ns" with
    | some ns => nfc ns
    | none => "shared"

/-! ## Grains and files -/

/-- A triple a grain is found under. -/
structure Spo where
  subject : String
  relation : String
  object : String
  deriving DecidableEq

/-- A built grain: its address, the namespace and the triple it reads back with. -/
structure Built (H : Type) where
  hash : H
  ns : String
  spo : Option Spo

/-- A stored grain. -/
structure FileRow (H : Type) where
  grain : Built H
  current : Bool

/-- The object of a row, where it is a current grant of a principal. -/
def FileRow.permit {H : Type} (r : FileRow H) (principal : String) : Option String :=
  match r.grain.spo with
  | some t =>
    if r.current && r.grain.ns == authzNs && t.subject == principal && t.relation == relPermits
    then some t.object else none
  | none => none

/-- The stored grains, oldest first. -/
structure GrainFile (H : Type) where
  rows : List (FileRow H)

/-- The refusals of a write. -/
inductive WriteError (H : Type) where
  | denied (d : Denied)
  | nullBytes (field : String)
  | build (detail : String)
  | validation (detail : String)
  | notFound (h : H)
  | supersessionConflict (h : H)
  | storage

namespace GrainFile

variable {H : Type} [DecidableEq H]

/-- A grain of this address is stored. -/
def has (f : GrainFile H) (h : H) : Bool := f.rows.any fun r => r.grain.hash == h

/-- `add`: a stored address adds nothing. -/
def add (f : GrainFile H) (g : Built H) : GrainFile H :=
  if f.has g.hash then f else ⟨f.rows ++ [⟨g, true⟩]⟩

/-- `add_batch`. -/
def addBatch (f : GrainFile H) (gs : List (Built H)) : GrainFile H := gs.foldl add f

/-- Close the rows of some addresses. -/
def close (hashes : List H) (f : GrainFile H) : GrainFile H :=
  ⟨f.rows.map fun r => if r.grain.hash ∈ hashes then { r with current := false } else r⟩

/-- The stored grain of an address. -/
def get (f : GrainFile H) (h : H) : Option (FileRow H) := f.rows.find? fun r => r.grain.hash == h

/-- `supersede`. -/
def supersede (f : GrainFile H) (old : H) (g : Built H) : Except (WriteError H) (GrainFile H) :=
  match f.get old with
  | none => .error (.notFound old)
  | some r =>
    if !r.current then .error (.supersessionConflict old)
    else if f.has g.hash then .error .storage
    else .ok (close [old] ⟨f.rows ++ [⟨g, true⟩]⟩)

/-- The open tips of a key. -/
def tips (f : GrainFile H) (ns subject relation : String) : List H :=
  (f.rows.filter fun r => r.current && r.grain.ns == ns &&
    r.grain.spo.any fun t => t.subject == subject && t.relation == relation).map
    fun r => r.grain.hash

/-- `merge_heads`. -/
def mergeHeads (f : GrainFile H) (ns subject relation : String) (g : Built H) :
    Except (WriteError H) (GrainFile H) :=
  let tips := f.tips ns subject relation
  if tips.length < 2 then .error (.validation "merge_heads needs an open fork")
  else if f.has g.hash then .error .storage
  else .ok (close tips ⟨f.rows ++ [⟨g, true⟩]⟩)

/-- The objects of the current grants of a principal, newest first, at most 256. -/
def permits (f : GrainFile H) (principal : String) : List String :=
  (f.rows.filterMap fun r => r.permit principal).reverse.take 256

/-- `DejaDB::authz_grants`. -/
def authzGrants (f : GrainFile H) (principal : String) : List Grant :=
  (f.permits principal).filterMap fun object => (Grant.fromObjectString object).toOption

/-- A session bound to the file gets the verb on the namespace. -/
def Grants (f : GrainFile H) (principal : String) (v : Verb) (ns : String) : Prop :=
  (AuthzSet.restricted principal (f.authzGrants principal)).allows v ns = true

end GrainFile

/-! ## The operations -/

/-- What the operations call: the arms of the builder, which check the fields of
a type and give address and triple; the other constructors; the parser.  A grain
without a time of its own is stamped with the clock, the first argument. -/
structure WriteArms (H : Type) where
  nfc : String → String
  build : ℤ → Option H → String → Fields → Except String (H × Option Spo)
  /-- The grain `capture` writes into a namespace. -/
  event : ℤ → String → String → Fields → H × Option Spo
  merged : ℤ → List H → String → Spo → H
  /-- The probe of `add_if_novel`: the value is the current one. -/
  known : GrainFile H → Built H → Bool
  parseJson : String → Except String Json
  config : Json → H
  configHex : H → String
  link : ℤ → Spo → H

/-- A session: its rights and its default namespace. -/
structure Facade where
  session : AuthzSet
  namespace_ : Option String

/-- The write operations.  `now` is the clock, read for each grain of a batch;
`id` is the fresh identity of an occurrence. -/
inductive Write (H : Type) where
  | add (now : ℤ) (grainType : String) (fields : Fields)
  | addBatch (entries : List (ℤ × String × Fields))
  | addIfNovel (now : ℤ) (grainType : String) (fields : Fields)
  | supersede (now : ℤ) (old : H) (grainType : String) (fields : Fields)
  | merge (now : ℤ) (subject relation object because : String)
  | remember (now : ℤ) (content : String) (attrs : Fields)
  | recordToolCall (now : ℤ) (ns toolName : String) (input : Option String) (result : String)
      (isError : Bool) (thread callId : Option String) (id : String)
  | recordRunManifest (now : ℤ) (runId configJson : String)

section Run

variable {H : Type} [DecidableEq H] (A : WriteArms H) (F : Facade)

/-- `build_grain_from_json`. -/
def buildGrainFromJson (now : ℤ) (old : Option H) (grainType : String) (fields : Fields) :
    Except (WriteError H) (Built H) :=
  match fields.find? fun x => x.2.asStr.any fun s => '\x00' ∈ s.toList with
  | some x => .error (.nullBytes x.1)
  | none =>
    match A.build now old grainType fields with
    | .error e => .error (.build e)
    | .ok (hash, spo) => .ok ⟨hash, landingNs A.nfc fields, spo⟩

/-- `check_verb`. -/
def Facade.checkVerb (verb : Verb) (ns : String) : Except (WriteError H) Unit :=
  match F.session.check verb ns with
  | .error d => .error (.denied d)
  | .ok u => .ok u

/-- `cal_add`. -/
def calAdd (now : ℤ) (grainType : String) (fields : Fields) (f : GrainFile H) :
    Except (WriteError H) (GrainFile H) := do
  F.checkVerb .write (writeNs F.namespace_ fields)
  let g ← buildGrainFromJson A now none grainType fields
  pure (f.add g)

/-- Every check, then every grain. -/
def buildBatch : List (ℤ × String × Fields) → Except (WriteError H) (List (Built H))
  | [] => .ok []
  | (now, grainType, fields) :: rest => do
    let g ← buildGrainFromJson A now none grainType fields
    let gs ← buildBatch rest
    pure (g :: gs)

/-- The checks of `cal_add_batch`. -/
def checkBatch : List (ℤ × String × Fields) → Except (WriteError H) Unit
  | [] => .ok ()
  | (_, _, fields) :: rest => do
    F.checkVerb .write (writeNs F.namespace_ fields)
    checkBatch rest

/-- The checks of `cal_supersede`: the namespace of the old grain, and that of
the new one where it differs. -/
def checkSupersede (old : H) (fields : Fields) (f : GrainFile H) : Except (WriteError H) Unit :=
  if F.session.owner then .ok ()
  else
    match f.get old with
    | none => .error (.notFound old)
    | some r => do
      F.checkVerb .supersede r.grain.ns
      if writeNs F.namespace_ fields ≠ r.grain.ns then
        F.checkVerb .supersede (writeNs F.namespace_ fields)
      else pure ()

/-- The fields of `record_tool_call`. -/
def toolFields (ns toolName : String) (input : Option Json) (result : String) (isError : Bool)
    (thread : Option String) (callId : String) : Fields :=
  [("tool_name", .str toolName)] ++ (input.map fun j => ("input", j)).toList ++
    [("content", .str result), ("is_error", .bool isError), ("namespace", .str ns)] ++
    (thread.map fun t => ("session_id", .str t)).toList ++ [("tool_call_id", .str callId)]

/-- An operation of a session on a file. -/
def Write.run (f : GrainFile H) : Write H → Except (WriteError H) (GrainFile H)
  | .add now grainType fields => calAdd A F now grainType fields f
  | .addBatch entries => do
    checkBatch F entries
    let gs ← buildBatch A entries
    pure (f.addBatch gs)
  | .addIfNovel now grainType fields => do
    F.checkVerb .write (writeNs F.namespace_ fields)
    let g ← buildGrainFromJson A now none grainType fields
    pure (if A.known f g then f else f.add g)
  | .supersede now old grainType fields => do
    checkSupersede F old fields f
    let g ← buildGrainFromJson A now (some old) grainType fields
    f.supersede old g
  | .merge now subject relation object because => do
    let ns := F.namespace_.getD "shared"
    F.checkVerb .supersede ns
    let spo : Spo := ⟨subject, relation, object⟩
    f.mergeHeads ns subject relation
      ⟨A.merged now (f.tips ns subject relation) because spo, A.nfc ns, some spo⟩
  | .remember now content attrs => do
    let ns := F.namespace_.getD "shared"
    F.checkVerb .write ns
    let (hash, spo) := A.event now ns content attrs
    pure (f.add ⟨hash, A.nfc ns, spo⟩)
  | .recordToolCall now ns toolName input result isError thread callId id => do
    let input ← match input with
      | none => pure none
      | some text =>
        match A.parseJson text with
        | .error e => .error (.validation ("record_tool_call input must be valid JSON: " ++ e))
        | .ok j => pure (some j)
    calAdd A F now "tool" (toolFields ns toolName input result isError thread (callId.getD id)) f
  | .recordRunManifest now runId configJson => do
    F.checkVerb .write harnessNamespace
    if trim runId.toList = [] then
      .error (.validation "record_run_manifest requires a non-empty run_id")
    else
      match A.parseJson configJson with
      | .error e => .error (.validation ("run manifest config must be valid JSON: " ++ e))
      | .ok (.obj o) =>
        let config := A.config (.obj o)
        let spo : Spo := ⟨"run:" ++ runId, "mg:harness", A.configHex config⟩
        pure (f.addBatch
          [⟨config, harnessNamespace, none⟩, ⟨A.link now spo, harnessNamespace, some spo⟩])
      | .ok _ => .error (.validation "run manifest config must be a JSON object")

/-- The file an operation leaves: a refused one leaves it as it is. -/
def Write.after (f : GrainFile H) (op : Write H) : GrainFile H :=
  match op.run A F f with
  | .ok f' => f'
  | .error _ => f

/-- The file after a sequence of operations. -/
def GrainFile.afterWrites (ops : List (Write H)) (f : GrainFile H) : GrainFile H :=
  ops.foldl (fun f op => op.after A F f) f

end Run

end Deja.Authz
