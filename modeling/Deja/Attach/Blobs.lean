import Deja.Spec.Runs

/-!
# Attachments

The content-addressed blobs beside a memory: the `.blobs` directory of a file
memory or the `blobs` table, their sealing (`blobcrypt`), and the three places
that reclaim them.  `forget` and the bulk erasures reclaim the attachments of the
grains they erased, `gc_blobs` whatever no stored grain names.

AES-256-GCM and what the operating system makes of a path are parameters, the
structure `Host`; SHA-256 is `Core.contentAddress`.  Left out are failures of the
disk and of the random source.
-/

namespace Deja

/-! ## Outside the program -/

/-- The random nonce of a sealed blob. -/
structure Nonce where
  bytes : Bytes
  length_eq : bytes.length = 12

/-- The cipher and the file system. -/
structure Host where
  /-- AES-256-GCM: key, nonce, associated data, plaintext. -/
  encrypt : Bytes → Bytes → String → Bytes → Bytes
  /-- Its inverse: key, nonce, associated data, ciphertext. -/
  decrypt : Bytes → Bytes → String → Bytes → Option Bytes
  /-- The shard and file of the blob directory that the path `shard/rest` leads to;
  `none` where it leads elsewhere. -/
  resolve : String → String → Option (String × String)

/-! ## Sealing -/

/-- `BLOB_MAGIC`. -/
def blobMagic : Bytes := [0x4D, 0x47, 0x42, 0x2D, 0x42, 0x4C, 0x4F, 0x42, 0x31]

/-- `NONCE_LEN`. -/
def nonceLen : ℕ := 12

/-- What fails with the blobs. -/
inductive BlobError where
  | deja (e : DejaDbError)
  | crypto (m : String)
  deriving DecidableEq

variable (H : Host)

/-- `seal`. -/
def sealBlob (key : Bytes) (nonce : Nonce) (hexAddr : String) (plaintext : Bytes) : Bytes :=
  blobMagic ++ nonce.bytes ++ H.encrypt key nonce.bytes hexAddr plaintext

/-- `is_sealed`. -/
def isSealed (bytes : Bytes) : Bool :=
  blobMagic.length + nonceLen ≤ bytes.length && bytes.take blobMagic.length = blobMagic

/-- `open`. -/
def openBlob (key : Bytes) (hexAddr : String) (sealed : Bytes) : Except BlobError Bytes :=
  if ¬isSealed sealed then .error (.crypto "not an encrypted blob")
  else
    let nonce := (sealed.drop blobMagic.length).take nonceLen
    match H.decrypt key nonce hexAddr (sealed.drop (blobMagic.length + nonceLen)) with
    | some bytes => .ok bytes
    | none =>
      .error (.crypto "blob decryption failed — wrong key, or the blob was tampered with")

/-- `read_maybe_sealed`. -/
def readMaybeSealed (key : Option Bytes) (hexAddr : String) (raw : Bytes) :
    Except BlobError Bytes :=
  if ¬isSealed raw then .ok raw
  else
    match key with
    | some k => openBlob H k hexAddr raw
    | none => .error (.crypto "this attachment is encrypted; reopen the memory with its key")

/-- `write_bytes`. -/
def writeBytes (key : Option Bytes) (nonce : Nonce) (hexAddr : String) (plaintext : Bytes) :
    Bytes :=
  match key with
  | some k => sealBlob H k nonce hexAddr plaintext
  | none => plaintext

/-! ## Names -/

/-- The scheme of an attachment. -/
def casScheme : String := "cas://sha256:"

/-- `str::strip_prefix`. -/
def stripScheme (uri : String) : Option String :=
  if casScheme.toList.isPrefixOf uri.toList then
    some (String.ofList (uri.toList.drop casScheme.length))
  else none

/-- The string of the first of two fields that has one. -/
def uriOf (r : Json) : Option String :=
  ((r.get "uri").bind Json.asStr).or ((r.get "u").bind Json.asStr)

/-- `cas_hexes`: the attachments a grain refers to. -/
def casHexes (view : DeserializedGrain) : List String :=
  (((view.get "content_refs").bind Json.asArray).getD []).filterMap fun r =>
    (uriOf r).bind stripScheme

/-- `&hex[..2]` and `&hex[2..]`; `none` where the byte offset 2 is past the end or
inside a character, and the slice panics. -/
def splitShard (hex : String) : Option (String × String) :=
  match hex.toList with
  | [] => none
  | a :: rest =>
    if a.utf8Size = 2 then some (String.ofList [a], String.ofList rest)
    else
      match rest with
      | [] => none
      | b :: rest =>
        if a.utf8Size = 1 ∧ b.utf8Size = 1 then
          some (String.ofList [a, b], String.ofList rest)
        else none

/-- `fs_blob_path`: the file a name leads to. -/
def fsBlobPath (hex : String) : Option (String × String) :=
  (splitShard hex).bind fun p => H.resolve p.1 p.2

/-- `char::is_ascii_hexdigit`. -/
def isHexDigit (c : Char) : Bool := (hexVal c).isSome

/-- Sixty-four hex digits of either case.  A hex digit is one byte, so bytes and
characters are counted alike. -/
def isHexName (hex : String) : Bool := hex.toList.length = 64 && hex.toList.all isHexDigit

/-! ## The store -/

/-- `BlobStore`: the files of the directory by shard and name, or the rows of the
table by digest. -/
inductive BlobStore where
  | fs (files : List ((String × String) × Bytes))
  | table (rows : List (Bytes × Bytes))

/-- A memory with its attachments. -/
structure Memory where
  db : DejaDB
  blobKey : Option Bytes
  blobs : BlobStore

/-- The stored bytes under a name. -/
def BlobStore.read (hex : String) : BlobStore → Option Bytes
  | .fs files => (fsBlobPath H hex).bind fun p => (files.find? fun f => f.1 = p).map Prod.snd
  | .table rows =>
    (hexDecode hex.toList).bind fun raw => (rows.find? fun r => r.1 = raw).map Prod.snd

/-- What is stored under a digest, unless something is. -/
def BlobStore.put (digest : Hash) (stored : Bytes) : BlobStore → BlobStore
  | .fs files =>
    match fsBlobPath H digest.toHex with
    | some p => .fs (if files.any fun f => f.1 = p then files else files ++ [(p, stored)])
    | none => .fs files
  | .table rows =>
    .table (if rows.any fun r => r.1 = digest.bytes then rows
      else rows ++ [(digest.bytes, stored)])

variable {G : Type} (C : Core G)

/-- `put_blob`: the memory and the URI. -/
def Memory.putBlob (m : Memory) (nonce : Nonce) (bytes : Bytes) : Memory × String :=
  let digest := C.contentAddress bytes
  let stored := writeBytes H m.blobKey nonce digest.toHex bytes
  ({ m with blobs := m.blobs.put H digest stored }, casScheme ++ digest.toHex)

/-- `get_blob`. -/
def Memory.getBlob (m : Memory) (uri : String) : Except BlobError Bytes :=
  match stripScheme uri with
  | none => .error (.deja (.validation ("not a cas uri: " ++ uri)))
  | some hex =>
    if ¬isHexName hex then .error (.deja (.validation ("malformed cas uri: " ++ uri)))
    else
      match m.blobs.read H hex with
      | none => .error (.deja (.storage ("blob missing: " ++ uri)))
      | some raw => do
        let bytes ← readMaybeSealed H m.blobKey hex raw
        if (C.contentAddress bytes).toHex ≠ hex then
          throw (.deja (.storage ("blob corrupt: " ++ uri)))
        pure bytes

/-- One file of the migration: sealed under its name unless it is sealed or no
attachment. -/
def encryptFile (key : Bytes) (nonce : Nonce) (f : (String × String) × Bytes) :
    (String × String) × Bytes :=
  let hex := f.1.1 ++ f.1.2
  if isHexName hex && !isSealed f.2 then (f.1, sealBlob H key nonce hex f.2) else f

/-- The files in directory order, each with a nonce of its own. -/
def encryptFiles (key : Bytes) : (ℕ → Nonce) → List ((String × String) × Bytes) →
    List ((String × String) × Bytes)
  | _, [] => []
  | nonces, f :: files =>
    encryptFile H key (nonces 0) f :: encryptFiles key (fun i => nonces (i + 1)) files

/-- `encrypt_blobs`: the memory, the blobs encrypted and those that were. -/
def Memory.encryptBlobs (m : Memory) (nonces : ℕ → Nonce) :
    Except BlobError (Memory × ℕ × ℕ) :=
  match m.blobKey, m.blobs with
  | none, _ => .error (.deja (.validation ("encrypt_blobs needs an encrypted memory — open it " ++
      "with its key (open_encrypted / --passphrase-env) first")))
  | some _, .table _ => .error (.deja (.validation ("blob encryption is file-backend-only; on " ++
      "postgres the blobs table is covered by the database's own encryption at rest")))
  | some key, .fs files =>
    let names := files.filter fun f => isHexName (f.1.1 ++ f.1.2)
    .ok ({ m with blobs := .fs (encryptFiles H key nonces files) },
      names.countP fun f => !isSealed f.2, names.countP fun f => isSealed f.2)

/-! ## Reclamation -/

/-- The attachments a stored grain refers to; a blob that does not read back
refers to none. -/
def casNames (blob : Bytes) : List String :=
  match C.deserializeBlob blob with
  | .ok view => casHexes view
  | .error _ => []

/-- The attachments some stored grain refers to. -/
def Tables.referenced (t : Tables) : List String := t.grains.flatMap fun g => casNames C g.blob

/-- `gc_blobs`: the memory and the number of blobs removed. -/
def Memory.gcBlobs (m : Memory) : Memory × ℕ :=
  let referenced := m.db.db.referenced C
  match m.blobs with
  | .fs files =>
    let kept := files.filter fun f => f.1.1 ++ f.1.2 ∈ referenced
    ({ m with blobs := .fs kept }, files.length - kept.length)
  | .table rows =>
    let kept := rows.filter fun r => String.ofList (hexEncode r.1) ∈ referenced
    ({ m with blobs := .table kept }, rows.length - kept.length)

/-- Remove the files some names lead to.  A name that cannot be split panics, and
the names after it are not reached. -/
def removeFiles : List String → List ((String × String) × Bytes) →
    List ((String × String) × Bytes)
  | [], files => files
  | hex :: names, files =>
    match splitShard hex with
    | none => files
    | some p =>
      removeFiles names
        (match H.resolve p.1 p.2 with
        | some q => files.filter fun f => f.1 ≠ q
        | none => files)

/-- The blobs after the attachments of erased grains were reclaimed: those no
stored grain refers to any more. -/
def BlobStore.reclaim (candidates referenced : List String) : BlobStore → BlobStore
  | .fs files => .fs (removeFiles H
      ((candidates.dedup.insertionSort (· ≤ ·)).filter (· ∉ referenced)) files)
  | .table rows => .table (rows.filter fun r =>
      ¬candidates.any fun hex => hex ∉ referenced ∧ hexDecode hex.toList = some r.1)

/-- The grains a bulk erasure erases. -/
def DejaDB.erased (st : DejaDB) (sel : ErasureSelector) : List GrainRow :=
  match selectTargets C sel st with
  | .ok (_, seqs) st => st.db.grains.filter fun g => g.seq ∈ seqs.dedup
  | .error _ _ => []

/-- The grains an operation erases. -/
def Op.targets (st : DejaDB) : Op G → List GrainRow
  | .forget hash => (st.db.grainByHash hash).toList
  | .forgetSubject ns subject textMentions =>
    match st.termLookup ns with
    | some nsId => st.erased C (.identity nsId subject textMentions)
    | none => []
  | .forgetOlderThan ns cutoffMs gtype limit =>
    match ns with
    | none => st.erased C (.olderThan none cutoffMs (gtype.map GrainType.ordinal) limit)
    | some n =>
      match st.termLookup n with
      | some nsId =>
        st.erased C (.olderThan (some nsId) cutoffMs (gtype.map GrainType.ordinal) limit)
      | none => []
  | _ => []

/-- An operation of the store.  Where it goes through, the attachments of the
grains it erased are reclaimed against the grains it left. -/
def Memory.write (m : Memory) (op : Op G) : Memory :=
  match op.run C m.db with
  | .ok _ st =>
    let candidates := (op.targets C m.db).flatMap fun g => casNames C g.blob
    { m with db := st, blobs := m.blobs.reclaim H candidates (st.db.referenced C) }
  | .error _ st => { m with db := st }

/-! ## Runs -/

/-- The operations of a run.  A memory is reopened with the key it has. -/
inductive MemoryOp (G : Type) where
  | putBlob (nonce : Nonce) (bytes : Bytes)
  | encryptBlobs (nonces : ℕ → Nonce)
  | gcBlobs
  | add (g : Grain G)
  | supersede (old : Hash) (g : Grain G)
  | forget (hash : Hash)
  | forgetSubject (ns subject : String) (textMentions : Bool)
  | forgetOlderThan (ns : Option String) (cutoffMs : ℤ) (gtype : Option GrainType)
      (limit : Option ℕ)
  | reopen (explicit : Option DejaDbOptions) (clock : ℕ → ℤ)

/-- The memory after an operation, whether it returned or failed. -/
def Memory.step (m : Memory) : MemoryOp G → Memory
  | .putBlob nonce bytes => (m.putBlob H C nonce bytes).1
  | .encryptBlobs nonces =>
    match m.encryptBlobs H nonces with
    | .ok (m, _) => m
    | .error _ => m
  | .gcBlobs => (m.gcBlobs C).1
  | .add g => m.write H C (.add g)
  | .supersede old g => m.write H C (.supersede old g)
  | .forget hash => m.write H C (.forget hash)
  | .forgetSubject ns s mentions => m.write H C (.forgetSubject ns s mentions)
  | .forgetOlderThan ns cutoff gt limit => m.write H C (.forgetOlderThan ns cutoff gt limit)
  | .reopen explicit clock => m.write H C (.reopen explicit clock)

/-- The memory after a run. -/
def Memory.steps (m : Memory) (ops : List (MemoryOp G)) : Memory :=
  ops.foldl (fun m op => m.step H C op) m

/-- A newly created memory without attachments: in files or in a table, in the
clear or under a key. -/
def createMemory (explicit : Option DejaDbOptions) (clock : ℕ → ℤ) (inFiles : Bool)
    (key : Option Bytes) : Memory :=
  ⟨createStore C explicit clock, key, if inFiles then .fs [] else .table []⟩

end Deja
