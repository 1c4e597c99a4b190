import Deja.Core.Number
import Deja.Schema.Subset

/-!
# Instances and their schemas

`validate_instance` as the code computes it, and beside it what a schema means: the
keywords of JSON Schema that the subset supports, over exact numbers.  The regular
expressions are a parameter of both.

A keyword whose value has a shape JSON Schema does not give it means nothing, and so
does a schema that is neither an object nor a boolean.
-/

namespace Deja.Schema

/-- The `regex` crate: compiling a pattern under the size limit and searching a text. -/
structure Regex where
  build : String → Except String Unit
  isMatch : String → String → Bool

/-- `InstanceErrorKind`. -/
inductive InstanceErrorKind where
  | shape
  | type
  | required
  | size
  deriving DecidableEq

/-- The members of a schema or an object. -/
abbrev Members := List (String × Json)

/-! ## The code -/

/-- Fail with `e` unless `ok`. -/
def require (ok : Bool) (e : InstanceErrorKind) : Except InstanceErrorKind Unit :=
  if ok then .ok () else .error e

/-- The names under `type`: a string or an array of strings. -/
def typeNames : Json → List String
  | .str s => [s]
  | .arr xs => xs.filterMap Json.asStr
  | _ => []

/-- One name of `type_matches`; an unknown name matches everything. -/
def matchesName (inst : Json) (t : String) : Bool :=
  if t = "object" then inst.asObject.isSome
  else if t = "array" then inst.asArray.isSome
  else if t = "string" then inst.asStr.isSome
  else if t = "integer" then inst.isInteger
  else if t = "number" then inst.asF64.isSome
  else if t = "boolean" then inst.asBool.isSome
  else if t = "null" then Json.eqValue false inst .null
  else true

/-- `type_matches`. -/
def typeMatches (inst : Json) (types : List String) : Bool := types.any (matchesName inst)

/-- The check of `type`. -/
def typeAllows (sch : Members) (inst : Json) : Bool :=
  match sch.lookup "type" with
  | some t => (typeNames t).isEmpty || typeMatches inst (typeNames t)
  | none => true

/-- The check of `const`. -/
def constAllows (sch : Members) (inst : Json) : Bool :=
  match sch.lookup "const" with
  | some c => Json.eqValue false c inst
  | none => true

/-- The check of `enum`. -/
def enumAllows (sch : Members) (inst : Json) : Bool :=
  match sch.lookup "enum" with
  | some (.arr members) => members.any fun m => Json.eqValue false m inst
  | _ => true

/-- `type`, `const` and `enum`. -/
def checkAny (sch : Members) (inst : Json) : Except InstanceErrorKind Unit :=
  require (typeAllows sch inst) .type >>= fun _ =>
  require (constAllows sch inst) .type >>= fun _ =>
  require (enumAllows sch inst) .type

/-- `minItems`, `minLength`, `minProperties`: the count under `key` is reached. -/
def atLeast (sch : Members) (key : String) (len : ℕ) : Bool :=
  match (sch.lookup key).bind Json.asU64 with
  | some min => min ≤ len
  | none => true

/-- `maxItems`, `maxLength`, `maxProperties`: the count under `key` is not passed. -/
def atMost (sch : Members) (key : String) (len : ℕ) : Bool :=
  match (sch.lookup key).bind Json.asU64 with
  | some max => len ≤ max
  | none => true

/-- The check of `required`. -/
def hasRequired (sch obj : Members) : Bool :=
  match sch.lookup "required" with
  | some (.arr req) => (req.filterMap Json.asStr).all fun k => (obj.lookup k).isSome
  | _ => true

/-- The keywords of objects, the sub-schemas apart. -/
def checkObject (sch obj : Members) : Except InstanceErrorKind Unit :=
  require (hasRequired sch obj) .required >>= fun _ =>
  require (atLeast sch "minProperties" obj.length) .size >>= fun _ =>
  require (atMost sch "maxProperties" obj.length) .size

/-- The keywords of arrays, `items` apart. -/
def checkArray (sch : Members) (arr : List Json) : Except InstanceErrorKind Unit :=
  require (atLeast sch "minItems" arr.length) .size >>= fun _ =>
  require (atMost sch "maxItems" arr.length) .size

/-- The check of `pattern`; a pattern that does not compile refuses every text. -/
def patternAllows (R : Regex) (sch : Members) (s : String) : Bool :=
  match (sch.lookup "pattern").bind Json.asStr with
  | some pat =>
    match R.build pat with
    | .ok () => R.isMatch pat s
    | .error _ => false
  | none => true

/-- The keywords of strings. -/
def checkString (R : Regex) (sch : Members) (s : String) : Except InstanceErrorKind Unit :=
  require (atLeast sch "minLength" s.length) .size >>= fun _ =>
  require (atMost sch "maxLength" s.length) .size >>= fun _ =>
  require (patternAllows R sch s) .shape

/-- A numeric bound under `key`, compared as doubles. -/
def bounded (sch : Members) (key : String) (within : ℚ → Bool) : Bool :=
  match (sch.lookup key).bind Json.asF64 with
  | some b => within b
  | none => true

/-- `multipleOf`, up to a tolerance on the quotient as a double; the difference
of an infinite quotient and its rounding is no number, and passes. -/
def onGrid (x step : ℚ) : Bool :=
  if 0 < step then
    match divF64 x step with
    | some ratio => |ratio - round ratio| ≤ f64Value 0x3E112E0BE826D695
    | none => true
  else true

/-- The keywords of numbers; `x` is the number as a double. -/
def checkNumber (sch : Members) (x : ℚ) : Except InstanceErrorKind Unit :=
  require (bounded sch "minimum" fun b => b ≤ x) .size >>= fun _ =>
  require (bounded sch "maximum" fun b => x ≤ b) .size >>= fun _ =>
  require (bounded sch "exclusiveMinimum" fun b => b < x) .size >>= fun _ =>
  require (bounded sch "exclusiveMaximum" fun b => x < b) .size >>= fun _ =>
  require (bounded sch "multipleOf" fun step => onGrid x step) .size

/-- What every level does first: the depth, a schema that is no object, and the keywords
for every type. -/
def atSchema (depth : ℕ) (schema inst : Json) (rest : Members → Except InstanceErrorKind Unit) :
    Except InstanceErrorKind Unit :=
  if maxSchemaDepth < depth then .error .shape
  else
    match schema with
    | .obj sch => checkAny sch inst >>= fun _ => rest sch
    | _ => .ok ()

section Code

variable (R : Regex)

mutual

/-- `validate_instance_rec`. -/
def validateRec : ℕ → Json → Json → Except InstanceErrorKind Unit
  | depth, .obj obj, schema => atSchema depth schema (.obj obj) fun sch =>
      checkObject sch obj >>= fun _ => validateMembers depth sch obj
  | depth, .arr arr, schema => atSchema depth schema (.arr arr) fun sch =>
      checkArray sch arr >>= fun _ =>
        match sch.lookup "items" with
        | some (.obj items) => validateItems depth items arr
        | _ => .ok ()
  | depth, .str s, schema => atSchema depth schema (.str s) fun sch => checkString R sch s
  | depth, .int i, schema => atSchema depth schema (.int i) fun sch => checkNumber sch (roundInt i)
  | depth, .float bits, schema =>
      atSchema depth schema (.float bits) fun sch => checkNumber sch (f64Value bits)
  | depth, .bool b, schema => atSchema depth schema (.bool b) fun _ => .ok ()
  | depth, .null, schema => atSchema depth schema .null fun _ => .ok ()

/-- The loop over the members of an object. -/
def validateMembers : ℕ → Members → Members → Except InstanceErrorKind Unit
  | _, _, [] => .ok ()
  | depth, sch, (k, v) :: obj =>
    (match ((sch.lookup "properties").bind Json.asObject).bind (List.lookup k) with
    | some sub => validateRec (depth + 1) v sub
    | none =>
      match sch.lookup "additionalProperties" with
      | some (.bool false) => .error .shape
      | some (.obj sub) => validateRec (depth + 1) v (.obj sub)
      | _ => .ok ()) >>= fun _ => validateMembers depth sch obj

/-- The loop over the elements of an array. -/
def validateItems : ℕ → Members → List Json → Except InstanceErrorKind Unit
  | _, _, [] => .ok ()
  | depth, items, v :: arr =>
    validateRec (depth + 1) v (.obj items) >>= fun _ => validateItems depth items arr

end

/-- `validate_instance`. -/
def validateInstance (inst schema : Json) : Except InstanceErrorKind Unit :=
  validateRec R 0 inst schema

end Code

/-! ## The meaning of a schema -/

/-- An instance of a named type; a name JSON Schema does not know means nothing. -/
def OfType (inst : Json) (t : String) : Prop :=
  if t = "integer" then ∃ z : ℤ, inst.numValue = some (z : ℚ)
  else if t = "number" then ∃ q, inst.numValue = some q
  else matchesName inst t = true

/-- The keywords for every type. -/
structure AnyKeywords (sch : Members) (inst : Json) : Prop where
  type : ∀ t, sch.lookup "type" = some t → typeNames t ≠ [] → ∃ n ∈ typeNames t, OfType inst n
  const : ∀ c, sch.lookup "const" = some c → Json.eqValue true c inst = true
  enum : ∀ ms, sch.lookup "enum" = some (.arr ms) → ∃ m ∈ ms, Json.eqValue true m inst = true

/-- The number of things is at least the count under `key`. -/
def AtLeast (sch : Members) (key : String) (len : ℕ) : Prop :=
  ∀ n : ℕ, (sch.lookup key).bind Json.numValue = some (n : ℚ) → n ≤ len

/-- The number of things is at most the count under `key`. -/
def AtMost (sch : Members) (key : String) (len : ℕ) : Prop :=
  ∀ n : ℕ, (sch.lookup key).bind Json.numValue = some (n : ℚ) → len ≤ n

/-- The keywords of objects, the sub-schemas apart. -/
structure ObjectKeywords (sch obj : Members) : Prop where
  required : ∀ req, sch.lookup "required" = some (.arr req) →
    ∀ k, .str k ∈ req → ∃ v, (k, v) ∈ obj
  minProperties : AtLeast sch "minProperties" obj.length
  maxProperties : AtMost sch "maxProperties" obj.length

/-- The keywords of arrays, `items` apart. -/
structure ArrayKeywords (sch : Members) (arr : List Json) : Prop where
  minItems : AtLeast sch "minItems" arr.length
  maxItems : AtMost sch "maxItems" arr.length

/-- The keywords of strings. -/
structure StringKeywords (R : Regex) (sch : Members) (s : String) : Prop where
  minLength : AtLeast sch "minLength" s.length
  maxLength : AtMost sch "maxLength" s.length
  pattern : ∀ p, sch.lookup "pattern" = some (.str p) → R.isMatch p s = true

/-- The exact value of the number under `key`. -/
def boundAt (sch : Members) (key : String) : Option ℚ := (sch.lookup key).bind Json.numValue

/-- The keywords of numbers. -/
structure NumberKeywords (sch : Members) (x : ℚ) : Prop where
  minimum : ∀ b, boundAt sch "minimum" = some b → b ≤ x
  maximum : ∀ b, boundAt sch "maximum" = some b → x ≤ b
  exclusiveMinimum : ∀ b, boundAt sch "exclusiveMinimum" = some b → b < x
  exclusiveMaximum : ∀ b, boundAt sch "exclusiveMaximum" = some b → x < b
  multipleOf : ∀ b, boundAt sch "multipleOf" = some b → 0 < b → ∃ k : ℤ, x = k * b

section Meaning

variable (R : Regex)

/-- A schema object constrains, `true` accepts, `false` refuses. -/
def Under (schema inst : Json) (rest : Members → Prop) : Prop :=
  match schema with
  | .obj sch => AnyKeywords sch inst ∧ rest sch
  | .bool b => b = true
  | _ => True

mutual

/-- **An instance is valid under a schema.** -/
def Valid : Json → Json → Prop
  | .obj obj, schema => Under schema (.obj obj) fun sch =>
      ObjectKeywords sch obj ∧ ValidMembers sch obj
  | .arr arr, schema => Under schema (.arr arr) fun sch =>
      ArrayKeywords sch arr ∧
        match sch.lookup "items" with
        | some (.arr subs) => ValidTuple subs arr
        | some sub => ValidItems sub arr
        | none => True
  | .str s, schema => Under schema (.str s) fun sch => StringKeywords R sch s
  | .int i, schema => Under schema (.int i) fun sch => NumberKeywords sch i
  | .float bits, schema => Under schema (.float bits) fun sch => NumberKeywords sch (f64Value bits)
  | .bool b, schema => Under schema (.bool b) fun _ => True
  | .null, schema => Under schema .null fun _ => True

/-- `properties`, and `additionalProperties` for the members it does not name. -/
def ValidMembers : Members → Members → Prop
  | _, [] => True
  | sch, (k, v) :: obj =>
    (match ((sch.lookup "properties").bind Json.asObject).bind (List.lookup k) with
    | some sub => Valid v sub
    | none =>
      match sch.lookup "additionalProperties" with
      | some sub => Valid v sub
      | none => True) ∧ ValidMembers sch obj

/-- One schema under `items`: every element is valid under it. -/
def ValidItems : Json → List Json → Prop
  | _, [] => True
  | sub, v :: arr => Valid v sub ∧ ValidItems sub arr

/-- An array under `items`: each element is valid under the schema in its place. -/
def ValidTuple : List Json → List Json → Prop
  | _, [] => True
  | [], _ :: _ => True
  | sub :: subs, v :: arr => Valid v sub ∧ ValidTuple subs arr

end

end Meaning

end Deja.Schema
