import Deja.Authz.Session
import Deja.Core.Grain
import Deja.Lib.Mirror

/-!
# Saved queries and templates

The host keeps the saved queries and the templates in two registries, loaded
once from the rows of the file's `meta` table and changed with it from then on.
A definition is checked in memory first and written second; when the write
fails the registry is rolled back.  A row is held as the record its JSON text was
made of; a number that JSON cannot write is written as `null`, and such a row is not
read back.

* `QueryRegistry`, `TemplateRegistry` — the two registries and their checks.
* `rehydrateQueries`, `rehydrateTemplates` — what a fresh host loads.
* `defineQuery`, `dropQuery`, `defineTemplate`, `dropTemplate` — the four
  operations, each with the outcome of its metadata write.
-/

namespace Deja.Cal

open Deja.Authz

/-! ## Names -/

/-- `u8::is_ascii_alphanumeric`, a space, a hyphen or an underscore. -/
def isNameChar (c : Char) : Bool :=
  c.isAlphanum || c == ' ' || c == '-' || c == '_'

/-- `str::eq_ignore_ascii_case`. -/
def eqIgnoreAsciiCase (a b : String) : Bool :=
  a.toList.map Char.toLower == b.toList.map Char.toLower

/-- No two spaces in a row. -/
def noDoubleSpace : List Char → Bool
  | ' ' :: ' ' :: _ => false
  | _ :: cs => noDoubleSpace cs
  | [] => true

/-- `is_valid_template_name`. -/
def isValidTemplateName (name : String) : Bool :=
  name.utf8ByteSize ≤ 64 && trim name.toList == name.toList && noDoubleSpace name.toList &&
    match name.toList with
    | [] => false
    | c :: cs => c.isAlpha && cs.all isNameChar

/-- A character of an agent slug. -/
def isSlugChar (c : Char) : Bool := c.isLower || c.isDigit || c == '-'

/-- `is_valid_slug`. -/
def isValidSlug (s : List Char) : Bool :=
  2 ≤ s.length && s.length ≤ 64 && s.head? != some '-' && s.getLast? != some '-' &&
    s.all isSlugChar

/-- `is_valid_agent_query_name`: `agent/<slug>/<suffix>`. -/
def isValidAgentQueryName (name : String) : Bool :=
  match name.toList with
  | 'a' :: 'g' :: 'e' :: 'n' :: 't' :: '/' :: rest =>
    let slug := rest.takeWhile (· != '/')
    match rest.dropWhile (· != '/') with
    | [] => false
    | _ :: suffix =>
      isValidSlug slug && suffix != [] && suffix.length ≤ 16 &&
        suffix.all fun c => c.isLower || c == '_'
  | _ => false

/-- `QueryRegistry::is_valid_name`. -/
def isValidQueryName (name : String) : Bool :=
  trim name.toList == name.toList && noDoubleSpace name.toList &&
    ((match name.toList with
      | [] => false
      | c :: cs => c.isAlpha && cs.length ≤ 63 && cs.all isNameChar) ||
    isValidAgentQueryName name)

/-! ## Saved queries -/

/-- A literal or a parameter of a CAL text; a number is its bit pattern. -/
inductive Value where
  | string (value : String)
  | number (bits : UInt64)
  | boolean (value : Bool)
  | array (values : List Value)
  | hash (value : String)
  | parameter (name : String)

/-- `f64::is_finite`, of a bit pattern. -/
def isFiniteNumber (bits : UInt64) : Bool := (bits >>> 52) &&& 0x7FF != 0x7FF

mutual

/-- The JSON text of the value is read back: its numbers are finite. -/
def Value.readable : Value → Bool
  | .number bits => isFiniteNumber bits
  | .array values => Value.allReadable values
  | .string _ => true
  | .boolean _ => true
  | .hash _ => true
  | .parameter _ => true

/-- All values are read back. -/
def Value.allReadable : List Value → Bool
  | [] => true
  | v :: values => v.readable && Value.allReadable values

end

/-- A declared parameter of a saved query. -/
structure QueryParam where
  name : String
  default : Option Value

/-- A saved query in memory. -/
structure QueryEntry where
  body : String
  description : String
  params : List QueryParam
  builtin : Bool

/-- A saved query in the file. -/
structure PersistedQuery where
  body : String
  description : String
  params : List QueryParam

/-- `serde_json::from_str` reads the row. -/
def PersistedQuery.readable (p : PersistedQuery) : Bool :=
  p.params.all fun q => q.default.all Value.readable

/-- The refusals of the query registry. -/
inductive QueryError where
  | invalidName (name : String)
  | bodyTooLarge (size max : ℕ)
  | tooManyParameters (count max : ℕ)
  | alreadyExists (name : String)
  | tooMany (count max : ℕ)
  | cannotDeleteBuiltin (name : String)
  | notFound (name : String)

/-- `MAX_QUERIES_PER_NAMESPACE`. -/
def maxQueries : ℕ := 100

/-- `MAX_QUERY_BODY_SIZE`. -/
def maxQueryBodySize : ℕ := 8192

/-- `MAX_QUERY_PARAMS`. -/
def maxQueryParams : ℕ := 10

/-- The queries the library ships. -/
def builtinQueryNames : List String :=
  ["Customer Support Context", "Conversation Resume", "User Profile Briefing",
    "Knowledge Researcher", "Task Executor", "Meeting Debrief", "Recommendation Context",
    "Compliance Audit", "Creative Collaborator", "Scoped Namespace Context", "agent_context",
    "Account 360 Context", "Meeting Context", "Meeting Cross Query", "Support CoPilot Context",
    "Sales Playbook Context", "Policy Library Context", "RFP Questionnaire Context"]

/-- The saved queries by name. -/
abbrev QueryRegistry := List (String × QueryEntry)

namespace QueryRegistry

/-- `QueryRegistry::register_full`. -/
def register (reg : QueryRegistry) (name : String) (p : PersistedQuery) :
    Except QueryError QueryRegistry :=
  if !isValidQueryName name then .error (.invalidName name)
  else if maxQueryBodySize < p.body.utf8ByteSize then
    .error (.bodyTooLarge p.body.utf8ByteSize maxQueryBodySize)
  else if maxQueryParams < p.params.length then
    .error (.tooManyParameters p.params.length maxQueryParams)
  else if (reg.lookup name).any (·.builtin) then .error (.alreadyExists name)
  else if maxQueries ≤ reg.length then .error (.tooMany reg.length maxQueries)
  else .ok (Assoc.insert name ⟨p.body, p.description, p.params, false⟩ reg)

/-- `QueryRegistry::delete`. -/
def delete (reg : QueryRegistry) (name : String) : Except QueryError QueryRegistry :=
  match reg.lookup name with
  | none => .error (.notFound name)
  | some e => if e.builtin then .error (.cannotDeleteBuiltin name) else .ok (Assoc.erase name reg)

end QueryRegistry

/-- What the file keeps of a saved query. -/
def QueryEntry.persisted (e : QueryEntry) : PersistedQuery := ⟨e.body, e.description, e.params⟩

/-! ## Templates -/

/-- One filter of a variable's pipeline. -/
structure Filter where
  name : String
  arg : Option String

/-- A node of a parsed template. -/
inductive TemplateNode where
  | text (s : String)
  | variable (name : String) (filters : List Filter)
  | each (collection : String) (body : List TemplateNode)
  | condition (field : String) (ifBody elseBody : List TemplateNode)
  | invertedSection (field : String) (body : List TemplateNode)
  | grainTypeBlock (grainType : String) (body : List TemplateNode)
  | comment (s : String)

/-- The six sections of a sectioned template; an undefined one is inherited. -/
structure TemplateSections where
  header : Option (List TemplateNode)
  element : Option (List TemplateNode)
  elementSummary : Option (List TemplateNode)
  elementOmit : Option (List TemplateNode)
  sourceBreak : Option (List TemplateNode)
  footer : Option (List TemplateNode)

/-- `TemplateSections::inherit_from`. -/
def TemplateSections.inheritFrom (child parent : TemplateSections) : TemplateSections where
  header := child.header <|> parent.header
  element := child.element <|> parent.element
  elementSummary := child.elementSummary <|> parent.elementSummary
  elementOmit := child.elementOmit <|> parent.elementOmit
  sourceBreak := child.sourceBreak <|> parent.sourceBreak
  footer := child.footer <|> parent.footer

/-- A parsed template: its text, and its nodes or its sections. -/
structure Template where
  source : String
  nodes : List TemplateNode
  sections : Option TemplateSections

/-- A registered template. -/
structure TemplateEntry where
  template : Template
  builtin : Bool
  parent : Option String
  description : String
  grainTypes : List String

/-- A template in the file. -/
structure PersistedTemplate where
  source : String
  description : String
  parent : Option String
  grainTypes : List String

/-- What the file keeps of a template. -/
def TemplateEntry.persisted (e : TemplateEntry) : PersistedTemplate :=
  ⟨e.template.source, e.description, e.parent, e.grainTypes⟩

/-- The refusals of the template registry. -/
inductive TemplateError where
  | invalidName (name : String)
  | builtinImmutable (name : String)
  | cannotExtendData (name : String)
  | parentNotFound (name parent : String)
  | inheritanceDepth (name : String)
  | tooMany (count max : ℕ)
  | syntaxError (detail : String)
  | notFound (name : String)

/-- `MAX_TEMPLATES`. -/
def maxTemplates : ℕ := 50

/-- The templates the library ships. -/
def builtinTemplateNames : List String :=
  ["structured", "readable", "compact", "triples", "progressive", "llm_system_prompt", "llm_chat",
    "weekly_standup", "toon"]

/-- The templates by name. -/
abbrev TemplateRegistry := List (String × TemplateEntry)

/-- What the two registries are given: the texts the library ships, and the
parser of a template's body. -/
structure Shipped where
  query : String → PersistedQuery
  template : String → Template × String
  parse : String → Except TemplateError (List TemplateNode × Option TemplateSections)

variable (L : Shipped)

/-- `QueryRegistry::new`. -/
def QueryRegistry.new : QueryRegistry :=
  builtinQueryNames.map fun n =>
    (n, ⟨(L.query n).body, (L.query n).description, (L.query n).params, true⟩)

/-- `TemplateRegistry::new`. -/
def TemplateRegistry.new : TemplateRegistry :=
  builtinTemplateNames.map fun n => (n, ⟨(L.template n).1, true, none, (L.template n).2, []⟩)

/-- `parse_template_any`. -/
def parseTemplateAny (source : String) : Except TemplateError Template :=
  (L.parse source).map fun b => ⟨source, b.1, b.2⟩

namespace TemplateRegistry

/-- The checks of `register` on the template to extend. -/
def checkParent (reg : TemplateRegistry) (name : String) :
    Option String → Except TemplateError Unit
  | none => .ok ()
  | some p =>
    if eqIgnoreAsciiCase p "data" then .error (.cannotExtendData name)
    else match reg.lookup p with
      | none => .error (.parentNotFound name p)
      | some e => if e.parent.isSome then .error (.inheritanceDepth name) else .ok ()

/-- How many templates are not built in. -/
def customCount (reg : TemplateRegistry) : ℕ := (reg.filter fun x => !x.2.builtin).length

/-- `TemplateRegistry::register`, then `set_grain_types`. -/
def register (reg : TemplateRegistry) (name : String) (p : PersistedTemplate) :
    Except TemplateError TemplateRegistry :=
  if !isValidTemplateName name then .error (.invalidName name)
  else if (reg.lookup name).any (·.builtin) then .error (.builtinImmutable name)
  else match reg.checkParent name p.parent with
    | .error e => .error e
    | .ok () =>
      -- redefining a template does not grow the set, so the cap is not asked
      if (reg.lookup name).isNone && maxTemplates ≤ reg.customCount then
        .error (.tooMany reg.customCount maxTemplates)
      else (parseTemplateAny L p.source).map fun t =>
        Assoc.insert name ⟨t, false, p.parent, p.description, p.grainTypes⟩ reg

/-- `TemplateRegistry::delete`. -/
def delete (reg : TemplateRegistry) (name : String) : Except TemplateError TemplateRegistry :=
  match reg.lookup name with
  | none => .error (.notFound name)
  | some e => if e.builtin then .error (.builtinImmutable name) else .ok (Assoc.erase name reg)

end TemplateRegistry

/-! ## Inheritance -/

section Merge

variable (grainType : String) (body : List TemplateNode)

/-- The first block for the grain type inside an `each` body, replaced. -/
def replaceInner : List TemplateNode → Option (List TemplateNode)
  | [] => none
  | .grainTypeBlock gt b :: rest =>
    if gt = grainType then some (.grainTypeBlock gt body :: rest)
    else (replaceInner rest).map (.grainTypeBlock gt b :: ·)
  | n :: rest => (replaceInner rest).map (n :: ·)

/-- The first block for the grain type, replaced. -/
def replaceBlock : List TemplateNode → Option (List TemplateNode)
  | [] => none
  | .grainTypeBlock gt b :: rest =>
    if gt = grainType then some (.grainTypeBlock gt body :: rest)
    else (replaceBlock rest).map (.grainTypeBlock gt b :: ·)
  | .each c b :: rest =>
    match replaceInner grainType body b with
    | some b' => some (.each c b' :: rest)
    | none => (replaceBlock rest).map (.each c b :: ·)
  | n :: rest => (replaceBlock rest).map (n :: ·)

end Merge

/-- One node of the child, merged into the parent's nodes. -/
def mergeNode (nodes : List TemplateNode) : TemplateNode → List TemplateNode
  | .grainTypeBlock gt body =>
    (replaceBlock gt body nodes).getD (nodes ++ [.grainTypeBlock gt body])
  | _ => nodes

/-- `merge_templates`. -/
def mergeTemplates (parent child : Template) : Template :=
  match child.sections with
  | some cs =>
    { source := child.source, nodes := []
      sections := some ((parent.sections.map cs.inheritFrom).getD cs) }
  | none =>
    { source := child.source, nodes := child.nodes.foldl mergeNode parent.nodes, sections := none }

/-- `resolve_inheritance`. -/
def resolveInheritance (e : TemplateEntry) (reg : TemplateRegistry) : Template :=
  match e.parent with
  | none =>
    if e.template.sections.isSome && !e.builtin then
      match reg.lookup "readable" with
      | some r => mergeTemplates r.template e.template
      | none => e.template
    else e.template
  | some p =>
    match reg.lookup p with
    | some pe => mergeTemplates pe.template e.template
    | none => e.template

/-! ## The host over its file -/

/-- The order in which `SELECT k, v FROM meta WHERE k LIKE …` lists its rows:
there is no `ORDER BY`, so any order, every row once. -/
structure ScanOrder where
  rows {ν : Type} : List (String × ν) → List (String × ν)
  perm {ν : Type} (l : List (String × ν)) : (rows l).Perm l

/-- The `qry:` and `tpl:` rows of the `meta` table. -/
structure MetaRows where
  queries : List (String × PersistedQuery)
  templates : List (String × PersistedTemplate)

/-- A host: its registries, loaded on first use, and its file. -/
structure Host where
  queries : Option QueryRegistry
  templates : Option TemplateRegistry
  file : MetaRows

/-- A host over a new file. -/
def Host.create : Host := ⟨none, none, ⟨[], []⟩⟩

/-- The registry with one entry more, where it registers. -/
def loadQuery (reg : QueryRegistry) (row : String × PersistedQuery) : QueryRegistry :=
  match reg.register row.1 row.2 with
  | .ok reg' => reg'
  | .error _ => reg

/-- One row of the loop of `with_queries`: a row that is not read, or does not
register, is noted and skipped. -/
def readQuery (reg : QueryRegistry) (row : String × PersistedQuery) : QueryRegistry :=
  if row.2.readable then loadQuery reg row else reg

/-- One row of the loop of `with_templates`. -/
def loadTemplate (reg : TemplateRegistry) (row : String × PersistedTemplate) : TemplateRegistry :=
  match reg.register L row.1 row.2 with
  | .ok reg' => reg'
  | .error _ => reg

variable (scan : ScanOrder)

/-- The saved queries a fresh host loads. -/
def rehydrateQueries (rows : List (String × PersistedQuery)) : QueryRegistry :=
  (scan.rows rows).foldl readQuery (QueryRegistry.new L)

/-- The templates a fresh host loads. -/
def rehydrateTemplates (rows : List (String × PersistedTemplate)) : TemplateRegistry :=
  (scan.rows rows).foldl (loadTemplate L) (TemplateRegistry.new L)

/-- `with_queries`. -/
def Host.liveQueries (h : Host) : QueryRegistry :=
  h.queries.getD (rehydrateQueries L scan h.file.queries)

/-- `with_templates`. -/
def Host.liveTemplates (h : Host) : TemplateRegistry :=
  h.templates.getD (rehydrateTemplates L scan h.file.templates)

/-- The refusals of the four operations. -/
inductive HostError where
  | authz (d : Denied)
  | query (e : QueryError)
  | template (e : TemplateError)
  | internal (name : String)
  | metadata (e : DejaDbError)

/-- `snapshot_template`: what the file should hold of a custom template. -/
def snapshotTemplate (reg : TemplateRegistry) (name : String) : Option PersistedTemplate :=
  ((reg.lookup name).filter (!·.builtin)).map TemplateEntry.persisted

/-- `snapshot_query`. -/
def snapshotQuery (reg : QueryRegistry) (name : String) : Option PersistedQuery :=
  (reg.lookup name).map QueryEntry.persisted

/-- The registry with the entry as it was, where there was one. -/
def restoreQuery (reg : QueryRegistry) (name : String) : Option PersistedQuery → QueryRegistry
  | none => reg
  | some prev => loadQuery reg (name, prev)

/-- The registry with the entry as it was, where there was one. -/
def restoreTemplate (reg : TemplateRegistry) (name : String) :
    Option PersistedTemplate → TemplateRegistry
  | none => reg
  | some prev => loadTemplate L reg (name, prev)

/-- `let _ = reg.delete(name)`. -/
def dropped {ν ε : Type} (delete : List (String × ν) → String → Except ε (List (String × ν)))
    (reg : List (String × ν)) (name : String) : List (String × ν) :=
  match delete reg name with
  | .ok reg' => reg'
  | .error _ => reg

variable (s : AuthzSet)

/-- `define_query`.  `disk` is the failure of the metadata write, if it fails. -/
def defineQuery (name body : String) (description : Option String) (params : List QueryParam)
    (disk : Option DejaDbError) (h : Host) : Except HostError Unit × Host :=
  match s.check .admin "*" with
  | .error d => (.error (.authz d), h)
  | .ok () =>
    let reg := h.liveQueries L scan
    let existing := snapshotQuery reg name
    match reg.register name ⟨body, description.getD "", params⟩ with
    | .error e => (.error (.query e), { h with queries := some reg })
    | .ok reg₁ =>
      match snapshotQuery reg₁ name with
      | none => (.error (.internal name), { h with queries := some reg₁ })
      | some p =>
        match disk with
        | some e =>
          (.error (.metadata e),
            { h with queries := some (restoreQuery (dropped QueryRegistry.delete reg₁ name) name
                existing) })
        | none =>
          (.ok (), { h with
            queries := some reg₁
            file := { h.file with queries := Assoc.insert name p h.file.queries } })

/-- `drop_query`. -/
def dropQuery (name : String) (disk : Option DejaDbError) (h : Host) :
    Except HostError Unit × Host :=
  match s.check .admin "*" with
  | .error d => (.error (.authz d), h)
  | .ok () =>
    let reg := h.liveQueries L scan
    let existing := snapshotQuery reg name
    match reg.delete name with
    | .error e => (.error (.query e), { h with queries := some reg })
    | .ok reg₁ =>
      match disk with
      | some e =>
        (.error (.metadata e), { h with queries := some (restoreQuery reg₁ name existing) })
      | none =>
        (.ok (), { h with
          queries := some reg₁
          file := { h.file with queries := Assoc.erase name h.file.queries } })

/-- `define_template`. -/
def defineTemplate (name source : String) (description parent : Option String)
    (grainTypes : List String) (disk : Option DejaDbError) (h : Host) :
    Except HostError Unit × Host :=
  match s.check .admin "*" with
  | .error d => (.error (.authz d), h)
  | .ok () =>
    let reg := h.liveTemplates L scan
    let existing := snapshotTemplate reg name
    let p : PersistedTemplate := ⟨source, description.getD "", parent, grainTypes⟩
    match reg.register L name p with
    | .error e => (.error (.template e), { h with templates := some reg })
    | .ok reg₁ =>
      match disk with
      | some e =>
        (.error (.metadata e),
          { h with templates := some (restoreTemplate L (dropped TemplateRegistry.delete reg₁ name)
              name existing) })
      | none =>
        (.ok (), { h with
          templates := some reg₁
          file := { h.file with templates := Assoc.insert name p h.file.templates } })

/-- `drop_template`. -/
def dropTemplate (name : String) (disk : Option DejaDbError) (h : Host) :
    Except HostError Unit × Host :=
  match s.check .admin "*" with
  | .error d => (.error (.authz d), h)
  | .ok () =>
    let reg := h.liveTemplates L scan
    let existing := snapshotTemplate reg name
    match reg.delete name with
    | .error e => (.error (.template e), { h with templates := some reg })
    | .ok reg₁ =>
      match disk with
      | some e =>
        (.error (.metadata e), { h with templates := some (restoreTemplate L reg₁ name existing) })
      | none =>
        (.ok (), { h with
          templates := some reg₁
          file := { h.file with templates := Assoc.erase name h.file.templates } })

/-! ## Histories -/

/-- One call of the host, by a session, with the outcome of its write. -/
inductive Call where
  | defineQuery (name body : String) (description : Option String) (params : List QueryParam)
  | dropQuery (name : String)
  | defineTemplate (name source : String) (description parent : Option String)
      (grainTypes : List String)
  | dropTemplate (name : String)

/-- A call, who makes it, and how its metadata write ends. -/
structure Event where
  session : AuthzSet
  call : Call
  disk : Option DejaDbError

/-- One event. -/
def Event.run (ev : Event) (h : Host) : Except HostError Unit × Host :=
  match ev.call with
  | .defineQuery name body description params =>
    Cal.defineQuery L scan ev.session name body description params ev.disk h
  | .dropQuery name => Cal.dropQuery L scan ev.session name ev.disk h
  | .defineTemplate name source description parent grainTypes =>
    Cal.defineTemplate L scan ev.session name source description parent grainTypes ev.disk h
  | .dropTemplate name => Cal.dropTemplate L scan ev.session name ev.disk h

/-- The host after a history. -/
def Host.after (h : Host) (evs : List Event) : Host := evs.foldl (fun h ev => (ev.run L scan h).2) h

@[simp] theorem Host.after_nil (h : Host) : h.after L scan [] = h := rfl

@[simp] theorem Host.after_concat (h : Host) (evs : List Event) (ev : Event) :
    h.after L scan (evs ++ [ev]) = (ev.run L scan (h.after L scan evs)).2 := by
  simp [Host.after]

end Deja.Cal
