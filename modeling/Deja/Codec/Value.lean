import Mathlib.Data.String.Basic
import Deja.Codec.FieldMap
import Deja.Lib.Sorted

/-!
# The payload of a blob

The msgpack value a payload decodes to, its framing guard, and the conversion to
JSON that expands the field names the writer shortened.

The msgpack layer itself (`rmpv`) and Unicode normalization are parameters, the
structure `Codec`.
-/

namespace Deja

/-! ## Values -/

/-- `rmpv::Value`.  A string whose bytes are not UTF-8 is kept apart. -/
inductive Value where
  | nil
  | boolean (b : Bool)
  | integer (i : ℤ)
  | f32 (bits : UInt32)
  | f64 (bits : UInt64)
  | string (s : String)
  | invalid (raw : Bytes)
  | binary (b : Bytes)
  | array (xs : List Value)
  | map (pairs : List (Value × Value))
  | ext (type : ℤ) (data : Bytes)

/-- `f64::is_finite`: the exponent is not all ones. -/
def isFinite (bits : UInt64) : Bool := (bits >>> 52) &&& 0x7FF ≠ 0x7FF

/-- `f32 as f64`, on the bit patterns. -/
def widen (bits : UInt32) : UInt64 :=
  let n := bits.toNat
  let sign := n / 2 ^ 31
  let exp := n / 2 ^ 23 % 2 ^ 8
  let frac := n % 2 ^ 23
  if exp = 255 then UInt64.ofNat (sign * 2 ^ 63 + 2047 * 2 ^ 52 + frac * 2 ^ 29)
  else if exp = 0 then
    if frac = 0 then UInt64.ofNat (sign * 2 ^ 63)
    else
      -- a subnormal becomes normal: its leading one moves out of the fraction
      let top := Nat.log2 frac
      UInt64.ofNat (sign * 2 ^ 63 + (top + 874) * 2 ^ 52 + (frac - 2 ^ top) * 2 ^ (52 - top))
  else UInt64.ofNat (sign * 2 ^ 63 + (exp + 896) * 2 ^ 52 + frac * 2 ^ 29)

/-- What the codec takes from elsewhere: the msgpack reader and writer, Unicode
normalization form C, and SHA-256. -/
structure Codec where
  /-- `rmpv::decode::read_value`: the value at the front and the bytes after it. -/
  readValue : Bytes → Except DejaDbError (Value × Bytes)
  /-- `rmpv::encode::write_value`. -/
  writeValue : Value → Except DejaDbError Bytes
  /-- `s.nfc().collect()`. -/
  nfc : String → String
  /-- SHA-256. -/
  sha256 : Bytes → Hash

/-! ## The framing guard -/

/-- `MAX_MSGPACK_DEPTH`. -/
def maxMsgpackDepth : ℕ := 256

/-- A big-endian number. -/
def fromBE (b : Bytes) : ℕ := b.foldl (fun n x => 256 * n + x.toNat) 0

/-- `skip`: advance past `n` bytes that must be there. -/
def skipBytes (n : ℕ) (rest : Bytes) : Except DejaDbError Bytes :=
  if n ≤ rest.length then .ok (rest.drop n) else .error (.format "truncated msgpack payload")

/-- `len_prefixed`: an `n`-byte length and the bytes after it. -/
def lenPrefixed (n : ℕ) (rest : Bytes) : Except DejaDbError (ℕ × Bytes) :=
  (skipBytes n rest).map fun after => (fromBE (rest.take n), after)

/-- `push_container`: `count` child elements, each at least one byte long. -/
def pushContainer (stack : List ℕ) (rest : Bytes) (count : ℕ) : Except DejaDbError (List ℕ) :=
  if maxMsgpackDepth ≤ stack.length then .error (.format "msgpack nesting too deep")
  else if rest.length < count then .error (.format "msgpack container length exceeds payload")
  else .ok (count :: stack)

/-- A run of bytes behind an `n`-byte length, with `extra` bytes of type. -/
def skipPrefixed (n extra : ℕ) (stack : List ℕ) (rest : Bytes) :
    Except DejaDbError (List ℕ × Bytes) := do
  let (len, rest) ← lenPrefixed n rest
  pure (stack, ← skipBytes (len + extra) rest)

/-- A container behind an `n`-byte count, `per` elements a unit. -/
def pushPrefixed (n per : ℕ) (stack : List ℕ) (rest : Bytes) :
    Except DejaDbError (List ℕ × Bytes) := do
  let (count, rest) ← lenPrefixed n rest
  pure (← pushContainer stack rest (count * per), rest)

/-- What the guard does at a marker: the stack and the bytes after the value's
framing. -/
def guardMarker (marker : ℕ) (stack : List ℕ) (rest : Bytes) :
    Except DejaDbError (List ℕ × Bytes) :=
  let scalar (n : ℕ) : Except DejaDbError (List ℕ × Bytes) :=
    (skipBytes n rest).map fun rest => (stack, rest)
  if marker ≤ 0x7F ∨ 0xE0 ≤ marker ∨ marker = 0xC0 ∨ marker = 0xC2 ∨ marker = 0xC3 then
    .ok (stack, rest)
  else if marker = 0xC1 then .error (.format "invalid msgpack marker 0xc1")
  else if marker ≤ 0x8F then
    (pushContainer stack rest (marker % 16 * 2)).map fun stack => (stack, rest)
  else if marker ≤ 0x9F then
    (pushContainer stack rest (marker % 16)).map fun stack => (stack, rest)
  else if marker ≤ 0xBF then scalar (marker % 32)
  else
    match marker with
    | 0xCC | 0xD0 => scalar 1
    | 0xCD | 0xD1 => scalar 2
    | 0xCA | 0xCE | 0xD2 => scalar 4
    | 0xCB | 0xCF | 0xD3 => scalar 8
    | 0xD9 | 0xC4 => skipPrefixed 1 0 stack rest
    | 0xDA | 0xC5 => skipPrefixed 2 0 stack rest
    | 0xDB | 0xC6 => skipPrefixed 4 0 stack rest
    | 0xC7 => skipPrefixed 1 1 stack rest
    | 0xC8 => skipPrefixed 2 1 stack rest
    | 0xC9 => skipPrefixed 4 1 stack rest
    | 0xD4 => scalar 2
    | 0xD5 => scalar 3
    | 0xD6 => scalar 5
    | 0xD7 => scalar 9
    | 0xD8 => scalar 17
    | 0xDC => pushPrefixed 2 1 stack rest
    | 0xDD => pushPrefixed 4 1 stack rest
    | 0xDE => pushPrefixed 2 2 stack rest
    | _ => pushPrefixed 4 2 stack rest

/-- The walk of the guard.  Every turn pops a level or reads a marker, and a
marker pushes at most one level, so `fuel` of twice the length and two suffices. -/
def guardWalk : ℕ → List ℕ → Bytes → Except DejaDbError Unit
  | _, [], _ => .ok ()
  | 0, _ :: _, _ => .error (.format "truncated msgpack payload")
  | fuel + 1, 0 :: stack, rest => guardWalk fuel stack rest
  | _ + 1, (_ + 1) :: _, [] => .error (.format "truncated msgpack payload")
  | fuel + 1, (n + 1) :: stack, marker :: rest => do
    let (stack, rest) ← guardMarker marker.toNat (n :: stack) rest
    guardWalk fuel stack rest

/-- `guard_msgpack_shape`. -/
def guardMsgpackShape (buf : Bytes) : Except DejaDbError Unit :=
  guardWalk (2 * buf.length + 2) [1] buf

/-! ## Msgpack to JSON -/

/-- Which key table applies to the map being decoded. -/
inductive KeyMode where
  | omsTop
  | contextTop
  | verbatim
  | workflowEdgeArray
  | workflowEdgeMap
  | relatedToArray
  | relatedToMap
  deriving DecidableEq

namespace KeyMode

/-- The mode of the elements of an array. -/
def element : KeyMode → KeyMode
  | workflowEdgeArray => workflowEdgeMap
  | relatedToArray => relatedToMap
  | _ => verbatim

/-- The name a raw key stands for. -/
def key : KeyMode → String → String
  | omsTop, raw => expandField raw
  | contextTop, raw => expandContextField raw
  | workflowEdgeMap, raw => expandWorkflowEdgeField raw
  | relatedToMap, raw => expandRelatedToField raw
  | _, raw => raw

/-- The mode of the value under an expanded name. -/
def child : KeyMode → String → KeyMode
  | omsTop, name =>
    if name = "context" ∨ name = "common_context" then contextTop
    else if name = "edges" then workflowEdgeArray
    else if name = "related_to" then relatedToArray
    else verbatim
  | _, _ => verbatim

end KeyMode

/-- The raw key of a map entry. -/
def Value.asKey : Value → Except DejaDbError String
  | .string s => .ok s
  | .invalid _ => .ok ""
  | _ => .error (.format "map key must be string")

mutual

/-- `msgpack_to_json`. -/
def msgpackToJson : KeyMode → Value → Except DejaDbError Json
  | _, .nil => .ok .null
  | _, .boolean b => .ok (.bool b)
  | _, .integer i =>
    if -(2 ^ 63) ≤ i ∧ i < 2 ^ 64 then .ok (.int i) else .error (.format "integer out of range")
  | _, .f32 bits =>
    if isFinite (widen bits) then .ok (.float (widen bits)) else .error (.format "invalid float")
  | _, .f64 bits =>
    if isFinite bits then .ok (.float bits) else .error (.format "invalid float (NaN/Inf)")
  | _, .string s => .ok (.str s)
  | _, .invalid _ => .ok (.str "")
  | _, .binary b => .ok (.str (String.ofList (hexEncode b)))
  | m, .array xs => (elementsToJson m.element xs).map .arr
  | m, .map pairs => (pairsToJson m pairs).map fun fields => .obj (Sorted.ofList fields)
  | _, .ext _ _ => .error (.format "ext type not supported")

/-- The elements of an array. -/
def elementsToJson : KeyMode → List Value → Except DejaDbError (List Json)
  | _, [] => .ok []
  | m, x :: xs => do
    let y ← msgpackToJson m x
    let ys ← elementsToJson m xs
    pure (y :: ys)

/-- The entries of a map, keys expanded; inserted in order, so that the last
entry of a name stays. -/
def pairsToJson : KeyMode → List (Value × Value) → Except DejaDbError (List (String × Json))
  | _, [] => .ok []
  | m, (k, v) :: pairs => do
    let raw ← k.asKey
    let y ← msgpackToJson (m.child (m.key raw)) v
    let ys ← pairsToJson m pairs
    pure ((m.key raw, y) :: ys)

end

/-! ## The header -/

/-- The 9-byte fixed header of a blob. -/
structure MgHeader where
  version : UInt8
  flags : UInt8
  grainType : UInt8
  nsHash : UInt8 × UInt8
  createdAtSec : UInt8 × UInt8 × UInt8 × UInt8
  deriving DecidableEq

/-- `MgHeader::from_bytes`. -/
def MgHeader.fromBytes : Bytes → Except DejaDbError MgHeader
  | v :: f :: t :: n₀ :: n₁ :: s₀ :: s₁ :: s₂ :: s₃ :: _ =>
    if v ≠ 0x01 then .error (.format "unsupported version")
    else .ok ⟨v, f, t, (n₀, n₁), (s₀, s₁, s₂, s₃)⟩
  | _ => .error (.format "header must be at least 9 bytes")

/-- `MgHeader::to_bytes`. -/
def MgHeader.toBytes (h : MgHeader) : Bytes :=
  [h.version, h.flags, h.grainType, h.nsHash.1, h.nsHash.2, h.createdAtSec.1, h.createdAtSec.2.1,
    h.createdAtSec.2.2.1, h.createdAtSec.2.2.2]

/-! ## Reading a blob -/

namespace Codec

variable (K : Codec)

/-- The payload of a blob: exactly one msgpack value, a map. -/
def decodePayload (payload : Bytes) : Except DejaDbError (List (String × Json)) := do
  guardMsgpackShape payload
  let (value, rest) ← K.readValue payload
  if ¬rest.isEmpty then
    .error (.format "non-canonical blob: trailing byte(s) after the grain payload")
  else
    match ← msgpackToJson .omsTop value with
    | .obj fields => .ok fields
    | _ => .error (.format "payload must be a map")

/-- `deserialize_blob`: the header and the grain.  A COSE envelope (first byte
`0x84`) is refused, the `signing` feature being off. -/
def deserializeBlob (blob : Bytes) : Except DejaDbError (MgHeader × DeserializedGrain) := do
  if blob.head? = some 0x84 then
    throw (.format "blob is a COSE Sign1 envelope but the 'signing' feature is not enabled")
  if blob.length < 10 then throw (.format "blob too short (minimum 10 bytes)")
  if Core.maxGrainBytes < blob.length then throw (.format "blob too large")
  let header ← MgHeader.fromBytes (blob.take 9)
  match GrainType.fromByte header.grainType with
  | none => throw (.format "unknown grain type byte")
  | some ty =>
    let fields ← K.decodePayload (blob.drop 9)
    pure (header, ⟨ty, fields, K.sha256 blob⟩)

end Codec

end Deja
