import Mathlib.Data.List.Lex
import Mathlib.Data.Prod.Lex
import Mathlib.Tactic

/-!
# Grains, content addresses and the codec the store is built on

`dejadb-core` as the store sees it: byte strings, 32-byte content addresses
with their hex spelling, the JSON values a grain body holds, the errors the
store raises, and the two codec entry points `serialize_grain` and
`deserialize_blob`.

What the codec takes from elsewhere is a parameter, the structure `Core`:
SHA-256, the msgpack layer below the 9-byte header, and the Unicode tables of
the standard library.
-/

namespace Deja

/-! ## Bytes and content addresses -/

/-- A byte string. -/
abbrev Bytes := List UInt8

/-- A content-addressed SHA-256 hash: exactly 32 bytes. -/
structure Hash where
  bytes : Bytes
  length_eq : bytes.length = 32
  deriving DecidableEq

namespace Hash

/-- The bytes as numbers: what `memcmp` compares. -/
def ranks (h : Hash) : List ℕ := h.bytes.map UInt8.toNat

theorem ranks_injective : Function.Injective ranks := by
  rintro ⟨a, ha⟩ ⟨b, hb⟩ h
  have hab : a = b := List.map_injective_iff.2 (fun x y hxy => UInt8.toNat_inj.1 hxy) h
  subst hab
  rfl

/-- Hashes are ordered byte by byte, as a `BLOB` column and a byte slice are. -/
instance : LinearOrder Hash := LinearOrder.lift' ranks ranks_injective

/-- `Hash::try_from_bytes` on a slice of at least 32 bytes keeps the first 32. -/
def tryFromBytes (b : Bytes) : Option Hash :=
  if h : 32 ≤ b.length then some ⟨b.take 32, by simp [h]⟩ else none

/-- A hash whose first byte is `n` and whose other bytes are zero. -/
def ofByte (n : UInt8) : Hash := ⟨n :: List.replicate 31 0, by simp⟩

end Hash

/-! ## Hexadecimal -/

/-- One lower-case hex digit. -/
def hexDigit (n : ℕ) : Char := Char.ofNat (if n < 10 then 48 + n else 87 + n)

/-- The value of a hex digit of either case. -/
def hexVal (c : Char) : Option ℕ :=
  if '0' ≤ c ∧ c ≤ '9' then some (c.toNat - 48)
  else if 'a' ≤ c ∧ c ≤ 'f' then some (c.toNat - 87)
  else if 'A' ≤ c ∧ c ≤ 'F' then some (c.toNat - 55)
  else none

/-- `hex::encode`. -/
def hexEncode (b : Bytes) : List Char :=
  b.flatMap fun x => [hexDigit (x.toNat / 16), hexDigit (x.toNat % 16)]

/-- `hex::decode`: two digits a byte, of either case; `none` on an odd length or
a character that is no digit. -/
def hexDecode : List Char → Option Bytes
  | [] => some []
  | [_] => none
  | a :: b :: rest =>
    match hexVal a, hexVal b, hexDecode rest with
    | some x, some y, some bs => some (UInt8.ofNat (16 * x + y) :: bs)
    | _, _, _ => none

theorem hexVal_hexDigit : ∀ n < 16, hexVal (hexDigit n) = some n := by decide

theorem hexDecode_hexEncode (b : Bytes) : hexDecode (hexEncode b) = some b := by
  induction b with
  | nil => rfl
  | cons x xs ih =>
    have hx : x.toNat < 256 := x.toNat_lt
    have h1 := hexVal_hexDigit (x.toNat / 16) (by omega)
    have h2 := hexVal_hexDigit (x.toNat % 16) (by omega)
    have h3 : 16 * (x.toNat / 16) + x.toNat % 16 = x.toNat := Nat.div_add_mod _ _
    rw [show hexEncode (x :: xs) = hexDigit (x.toNat / 16) :: hexDigit (x.toNat % 16) ::
      hexEncode xs from rfl, hexDecode, h1, h2, ih]
    simp [h3]

namespace Hash

/-- `Hash::to_hex`. -/
def toHex (h : Hash) : String := String.ofList (hexEncode h.bytes)

/-- `Hash::from_hex`: `none` where the source answers `Err`. -/
def fromHex (s : String) : Option Hash :=
  match hexDecode s.toList with
  | some b => if h : b.length = 32 then some ⟨b, h⟩ else none
  | none => none

@[simp] theorem fromHex_toHex (h : Hash) : fromHex h.toHex = some h := by
  simp [fromHex, toHex, String.toList_ofList, hexDecode_hexEncode, h.length_eq]

theorem toHex_injective : Function.Injective toHex := by
  intro a b h
  have := congrArg fromHex h
  simpa using this

end Hash

/-! ## Errors -/

/-- The errors of `dejadb-core` the store raises or tests for. -/
inductive DejaDbError where
  | notFound (h : Hash)
  | supersessionConflict (h : Hash)
  | format (m : String)
  | validation (m : String)
  | serialization (m : String)
  | storage (m : String)
  deriving DecidableEq

/-! ## Grain bodies -/

/-- A JSON value.  Integers are kept exact; a float is its bit pattern. -/
inductive Json where
  | null
  | bool (b : Bool)
  | int (i : ℤ)
  | float (bits : UInt64)
  | str (s : String)
  | arr (xs : List Json)
  | obj (fields : List (String × Json))

namespace Json

/-- `Value::get` with a string key. -/
def get (v : Json) (k : String) : Option Json :=
  match v with
  | .obj fs => fs.lookup k
  | _ => none

/-- `Value::as_str`. -/
def asStr : Json → Option String
  | .str s => some s
  | _ => none

/-- `Value::as_bool`. -/
def asBool : Json → Option Bool
  | .bool b => some b
  | _ => none

/-- `Value::as_i64`: integers within the 64-bit range. -/
def asI64 : Json → Option ℤ
  | .int i => if -(2 ^ 63) ≤ i ∧ i < 2 ^ 63 then some i else none
  | _ => none

/-- `Value::as_array`. -/
def asArray : Json → Option (List Json)
  | .arr xs => some xs
  | _ => none

end Json

/-- The grain types, in the order of the enum: the `gtype` column is the
ordinal. -/
inductive GrainType where
  | fact | event | state | workflow | tool | observation | goal | reasoning
  | consensus | consent | skill | recommendation
  deriving DecidableEq

namespace GrainType

/-- All grain types, in declaration order. -/
def all : List GrainType :=
  [fact, event, state, workflow, tool, observation, goal, reasoning, consensus, consent, skill,
    recommendation]

/-- `grain_type as u8`. -/
def ordinal (t : GrainType) : ℤ := (all.idxOf t : ℤ)

/-- The type byte of the `.mg` header: `0x01` for the first type and so on. -/
def typeByte (t : GrainType) : UInt8 := UInt8.ofNat (all.idxOf t + 1)

/-- `GrainType::from_byte`. -/
def fromByte (b : UInt8) : Option GrainType := all.find? fun t => t.typeByte = b

end GrainType

/-- A grain read back from its blob: type, body fields under their long names,
and the content address computed from the bytes. -/
structure DeserializedGrain where
  grainType : GrainType
  fields : List (String × Json)
  hash : Hash

namespace DeserializedGrain

/-- `fields.get`. -/
def get (g : DeserializedGrain) (field : String) : Option Json := g.fields.lookup field

/-- `DeserializedGrain::get_str`. -/
def getStr (g : DeserializedGrain) (field : String) : Option String :=
  (g.get field).bind Json.asStr

/-- `DeserializedGrain::get_i64`. -/
def getI64 (g : DeserializedGrain) (field : String) : Option ℤ := (g.get field).bind Json.asI64

end DeserializedGrain

/-- A typed grain about to be written: what the store reads or sets on it
(`common_mut().derived_from`, `common_mut().context`), and the rest. -/
structure Grain (G : Type) where
  grainType : GrainType
  derivedFrom : Option String
  context : Option Json
  body : G

/-! ## The codec -/

/-- What the store takes from outside: SHA-256, the payload layer of the codec,
and the character tables of the standard library. -/
structure Core (G : Type) where
  /-- `content_address`: SHA-256 of the blob. -/
  contentAddress : Bytes → Hash
  /-- The msgpack payload after the header, expanded to its long field names. -/
  decodePayload : Bytes → Except DejaDbError (List (String × Json))
  /-- Header and payload of a typed grain. -/
  encodeGrain : Grain G → Except DejaDbError Bytes
  /-- `char::is_alphanumeric`. -/
  isAlphanumeric : Char → Bool
  /-- `char::is_whitespace`. -/
  isWhitespace : Char → Bool
  /-- `str::to_lowercase`. -/
  toLowercase : List Char → List Char

variable {G : Type}

namespace Core

/-- The largest accepted `.mg` blob. -/
def maxGrainBytes : ℕ := 16 * 1024 * 1024

/-- `deserialize_blob`.  A COSE envelope (first byte `0x84`) is refused: the
`signing` feature is off in the builds of the store. -/
def deserializeBlob (C : Core G) (blob : Bytes) : Except DejaDbError DeserializedGrain :=
  if blob.head? = some 0x84 then
    .error (.format "blob is a COSE Sign1 envelope but the 'signing' feature is not enabled")
  else if blob.length < 10 then .error (.format "blob too short (minimum 10 bytes)")
  else if maxGrainBytes < blob.length then .error (.format "blob too large")
  else if blob.head? ≠ some 0x01 then .error (.format "unsupported version")
  else
    match GrainType.fromByte (blob.getD 2 0) with
    | none => .error (.format "unknown grain type byte")
    | some ty =>
      match C.decodePayload (blob.drop 9) with
      | .error e => .error e
      | .ok fields => .ok ⟨ty, fields, C.contentAddress blob⟩

/-- `serialize_grain`: the blob and its content address. -/
def serializeGrain (C : Core G) (g : Grain G) : Except DejaDbError (Bytes × Hash) :=
  match C.encodeGrain g with
  | .error e => .error e
  | .ok blob => .ok (blob, C.contentAddress blob)

/-- The hash of a grain read back is the address of its bytes. -/
theorem deserializeBlob_hash {C : Core G} {blob : Bytes} {v : DeserializedGrain}
    (h : C.deserializeBlob blob = .ok v) : v.hash = C.contentAddress blob := by
  unfold deserializeBlob at h
  split_ifs at h
  split at h
  · cases h
  · split at h
    · cases h
    · cases h
      rfl

/-- The address of a written grain is the address of its bytes. -/
theorem serializeGrain_hash {C : Core G} {g : Grain G} {blob : Bytes} {hash : Hash}
    (h : C.serializeGrain g = .ok (blob, hash)) : hash = C.contentAddress blob := by
  unfold serializeGrain at h
  split at h
  · cases h
  · cases h
    rfl

end Core

end Deja
