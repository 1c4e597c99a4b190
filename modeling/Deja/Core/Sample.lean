import Deja.Core.Grain

/-!
# A small codec

A concrete instance of `Core` to run the model on: one-letter words, one-byte
timestamps, and an address whose first byte is a tag the grain carries.  It reads
back what it writes, the provenance fields included, as the msgpack codec does.
-/

namespace Deja

/-- The body of a sample grain.  A word is the index of a letter, `0` stands for
an absent field. -/
structure SampleBody where
  tag : UInt8
  created : UInt8
  subject : UInt8
  relation : UInt8
  object : UInt8
  text : UInt8
  link : UInt8
  deriving DecidableEq

namespace Sample

/-- The word an index stands for. -/
def word (n : UInt8) : String := String.singleton (Char.ofNat (96 + n.toNat))

/-- A string field that is there unless its word index is `0`. -/
def strField (name : String) (n : UInt8) : List (String × Json) :=
  if n = 0 then [] else [(name, .str (word n))]

/-- A length byte and the bytes of a list of hashes. -/
def encodeHashes (hs : List Hash) : Bytes := UInt8.ofNat hs.length :: hs.flatMap Hash.bytes

/-- Read `n` hashes off the front. -/
def takeHashes : ℕ → Bytes → Option (List Hash × Bytes)
  | 0, b => some ([], b)
  | n + 1, b => do
    let h ← Hash.tryFromBytes b
    let (hs, rest) ← takeHashes n (b.drop 32)
    pure (h :: hs, rest)

/-- Read a length byte and as many hashes. -/
def decodeHashes : Bytes → Option (List Hash × Bytes)
  | [] => none
  | n :: b => takeHashes n.toNat b

/-- The hashes of the `merge_parents` of a context. -/
def mergeParents (context : Option Json) : List Hash :=
  (((context.bind (·.get "merge_parents")).bind Json.asArray).getD []).filterMap fun j =>
    j.asStr.bind Hash.fromHex

/-- The header of a sample blob: version, flags, type byte and six zero bytes. -/
def header (t : GrainType) : Bytes := [1, 0, t.typeByte, 0, 0, 0, 0, 0, 0]

/-- Header, body bytes, parent and merge parents. -/
def encode (g : Grain SampleBody) : Except DejaDbError Bytes :=
  .ok (header g.grainType ++
    [g.body.tag, g.body.created, g.body.subject, g.body.relation, g.body.object, g.body.text,
      g.body.link] ++
    encodeHashes (g.derivedFrom.bind Hash.fromHex).toList ++
    encodeHashes (mergeParents g.context))

/-- The fields a payload spells. -/
def fieldsOf (b : SampleBody) (parents merged : List Hash) : List (String × Json) :=
  [("created_at", .int b.created.toNat)] ++
  strField "subject" b.subject ++ strField "relation" b.relation ++
  strField "object" b.object ++ strField "content" b.text ++
  (if b.link = 0 then []
    else [("related_to",
      .arr [.obj [("relation_type", .str (word b.link)), ("hash", .str (word b.link))]])]) ++
  (parents.map fun h => ("derived_from", .str h.toHex)) ++
  (if merged.isEmpty then []
    else [("context", .obj [("merge_parents", .arr (merged.map fun h => .str h.toHex))])])

/-- Read a payload back. -/
def decode : Bytes → Except DejaDbError (List (String × Json))
  | tag :: created :: s :: r :: o :: x :: l :: rest =>
    match decodeHashes rest with
    | none => .error (.serialization "bad parent")
    | some (parents, rest) =>
      match decodeHashes rest with
      | none => .error (.serialization "bad merge parents")
      | some (merged, _) => .ok (fieldsOf ⟨tag, created, s, r, o, x, l⟩ parents merged)
  | _ => .error (.serialization "short payload")

end Sample

/-- The sample codec.  The address of a blob is its tag, so two grains with
different tags never collide. -/
def sampleCore : Core SampleBody where
  contentAddress blob := Hash.ofByte (blob.getD 9 0)
  decodePayload := Sample.decode
  encodeGrain := Sample.encode
  isAlphanumeric := Char.isAlphanum
  isWhitespace := Char.isWhitespace
  toLowercase := List.map Char.toLower

/-- A fact `(s, r, o)` with a tag and a timestamp. -/
def sampleFact (tag created s r o : UInt8) : Grain SampleBody :=
  ⟨.fact, none, none, ⟨tag, created, s, r, o, 0, 0⟩⟩

end Deja
