import Deja.Core.Grain

/-!
# Tool schemas: the portable subset

The structural check of a tool's schema and the strip of the vendor extensions
that runs before it.  A `Json.obj` lists the members of a map in key order.
The compiler of regular expressions is a parameter.

The two walks are separate recursions: the check steps from an object to the
values of `properties` and to an object or the elements of an array under `items`
and `additionalProperties`; the strip steps into every array it meets.
-/

namespace Deja.Schema

/-- `MAX_SCHEMA_DEPTH`. -/
def maxSchemaDepth : ℕ := 16

/-- `ALLOWED_KEYWORDS`. -/
def allowedKeywords : List String :=
  ["type", "properties", "required", "enum", "description", "items", "additionalProperties",
    "default", "minimum", "maximum", "exclusiveMinimum", "exclusiveMaximum", "minItems",
    "maxItems", "minLength", "maxLength", "pattern", "format", "multipleOf", "maxProperties",
    "minProperties", "examples", "const", "title"]

/-- `ALLOWED_FORMATS`. -/
def allowedFormats : List String := ["date-time", "date", "time", "email", "uri", "uuid"]

/-- The failures of the structural check. -/
inductive SchemaSubsetError where
  | notObject
  | bannedKeyword (k : String)
  | badFormatValue (v : String)
  | tooDeep (depth : ℕ)
  | patternInvalid (e : String)
  deriving DecidableEq

/-! ## The strip -/

/-- A vendor-extension key: `x-*` or `$comment`. -/
def isVendor (k : String) : Bool := ['x', '-'].isPrefixOf k.toList || k == "$comment"

mutual

/-- `strip_vendor_extensions_at`. -/
def stripAt : ℕ → Json → Json
  | depth, .obj map =>
    if maxSchemaDepth < depth then .obj map else .obj (stripMembers depth map)
  | depth, .arr items =>
    if maxSchemaDepth < depth then .arr items else .arr (stripItems (depth + 1) items)
  | _, v => v

/-- The elements of an array. -/
def stripItems : ℕ → List Json → List Json
  | _, [] => []
  | depth, v :: items => stripAt depth v :: stripItems depth items

/-- The members of an object: the vendor keys go, three of the others are stepped
into. -/
def stripMembers : ℕ → List (String × Json) → List (String × Json)
  | _, [] => []
  | depth, (k, v) :: map =>
    if isVendor k then stripMembers depth map
    else
      (k,
        if k = "properties" then
          match v with
          | .obj props => .obj (stripProps (depth + 1) props)
          | v => v
        else if k = "items" ∨ k = "additionalProperties" then stripAt (depth + 1) v
        else v) :: stripMembers depth map

/-- The values of `properties`. -/
def stripProps : ℕ → List (String × Json) → List (String × Json)
  | _, [] => []
  | depth, (name, sub) :: props => (name, stripAt depth sub) :: stripProps depth props

end

/-- `strip_vendor_extensions`. -/
def stripVendorExtensions (schema : Json) : Json := stripAt 0 schema

/-! ## The structural check -/

section Visit

-- `RegexBuilder::build` under the size limit, with the text of its error
variable (build : String → Except String Unit)

/-- What the check asks of one member, its sub-schemas apart. -/
def checkKeyword (k : String) (v : Json) : Except SchemaSubsetError Unit :=
  if k ∉ allowedKeywords then .error (.bannedKeyword k)
  else if k = "format" then
    match v with
    | .str s => if s ∈ allowedFormats then .ok () else .error (.badFormatValue s)
    | _ => .ok ()
  else if k = "pattern" then
    match v with
    | .str p => (build p).mapError .patternInvalid
    | _ => .ok ()
  else .ok ()

mutual

/-- `SchemaValidator::visit`. -/
def visit : ℕ → Json → Except SchemaSubsetError Unit
  | depth, .obj obj =>
    if maxSchemaDepth < depth then .error (.tooDeep depth) else visitMembers depth obj
  | depth, _ => if maxSchemaDepth < depth then .error (.tooDeep depth) else .ok ()

/-- The loop over the members of an object. -/
def visitMembers : ℕ → List (String × Json) → Except SchemaSubsetError Unit
  | _, [] => .ok ()
  | depth, (k, v) :: obj =>
    checkKeyword build k v >>= fun _ =>
      (if k = "properties" then
        match v with
        | .obj props => visitProps (depth + 1) props
        | _ => .ok ()
      else if k = "items" ∨ k = "additionalProperties" then
        match v with
        | .obj sub => visit (depth + 1) (.obj sub)
        | .arr items => visitItems (depth + 1) items
        | _ => .ok ()
      else .ok ()) >>= fun _ => visitMembers depth obj

/-- The elements of an array under `items` or `additionalProperties`. -/
def visitItems : ℕ → List Json → Except SchemaSubsetError Unit
  | _, [] => .ok ()
  | depth, v :: items => visit depth v >>= fun _ => visitItems depth items

/-- The values of `properties`. -/
def visitProps : ℕ → List (String × Json) → Except SchemaSubsetError Unit
  | _, [] => .ok ()
  | depth, (_, sub) :: props => visit depth sub >>= fun _ => visitProps depth props

end

/-- `SchemaValidator::validate`. -/
def validate (schema : Json) : Except SchemaSubsetError Unit :=
  match schema with
  | .obj obj =>
    if (obj.lookup "type").bind Json.asStr = some "object" then visit build 0 schema
    else .error .notObject
  | _ => .error .notObject

end Visit

end Deja.Schema
