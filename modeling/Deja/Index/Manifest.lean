import Deja.Authz.Audit
import Deja.Cal.Execute
import Deja.Codec.RoundTrip
import Mathlib.Data.List.Destutter

/-!
# The manifest of a corpus export

An export is recorded as an observation.  This module says which grain that is, how the
store's codec reads and writes it, and that what the manifest says comes back: its fields
and the keys of its context are spelled as the reader spells them, so only the strings an
export is given may change, by normalization.

SHA-256 of the export id and of the selector is a parameter of its own.
-/

namespace Deja

/-! ## The codec as the store uses it -/

mutual

/-- Whether a value is one of `serde_json`. -/
def Json.decSerde : (j : Json) → Decidable j.Serde
  | .null => .isTrue trivial
  | .bool _ => .isTrue trivial
  | .str _ => .isTrue trivial
  | .int _ => inferInstanceAs (Decidable (_ ∧ _))
  | .float bits => inferInstanceAs (Decidable (isFinite bits = true))
  | .arr xs => Json.decSerdeAll xs
  | .obj fields =>
    @instDecidableAnd _ _ (inferInstanceAs (Decidable (List.Pairwise (· < ·) _)))
      (Json.decSerdeFields fields)

/-- Whether all elements are values. -/
def Json.decSerdeAll : (xs : List Json) → Decidable (Json.SerdeAll xs)
  | [] => .isTrue trivial
  | x :: xs => @instDecidableAnd _ _ (Json.decSerde x) (Json.decSerdeAll xs)

/-- Whether all fields are values. -/
def Json.decSerdeFields : (fields : List (String × Json)) → Decidable (Json.SerdeFields fields)
  | [] => .isTrue trivial
  | (_, v) :: fields => @instDecidableAnd _ _ (Json.decSerde v) (Json.decSerdeFields fields)

end

instance : DecidablePred Json.Serde := Json.decSerde

/-- A typed grain, and the clock when it is written. -/
structure DatedGrain where
  grain : TypedGrain
  nowMs : Int64

/-- A typed grain as it is handed to the store. -/
def DatedGrain.toGrain (d : DatedGrain) : Grain DatedGrain :=
  ⟨d.grain.body.grainType, d.grain.common.derivedFrom, d.grain.common.context.map JsonValue.json, d⟩

/-- The typed grain with what the store set on it. -/
def Grain.typed (g : Grain DatedGrain) : Option TypedGrain :=
  let common := { g.body.grain.common with derivedFrom := g.derivedFrom }
  match g.context with
  | none => some { g.body.grain with common := { common with context := none } }
  | some j =>
    if h : j.Serde then some { g.body.grain with common := { common with context := some ⟨j, h⟩ } }
    else none

/-- The character tables of the standard library. -/
structure CharTables where
  isAlphanumeric : Char → Bool
  isWhitespace : Char → Bool
  toLowercase : List Char → List Char

namespace Codec

/-- The codec in the place the store has for it. -/
def core (K : Codec) (T : CharTables) : Core DatedGrain where
  contentAddress := K.sha256
  decodePayload := K.decodePayload
  encodeGrain g :=
    match g.typed with
    | none => .error (.format "context is no JSON value")
    | some typed => (K.serializeGrain typed g.body.nowMs).map Prod.fst
  isAlphanumeric := T.isAlphanumeric
  isWhitespace := T.isWhitespace
  toLowercase := T.toLowercase

variable {K : Codec} {T : CharTables}

theorem header_of_fromBytes {b : Bytes} {header : MgHeader}
    (h : MgHeader.fromBytes b = .ok header) :
    b.head? = some 0x01 ∧ b.getD 2 0 = header.grainType := by
  unfold MgHeader.fromBytes at h
  split at h
  · split_ifs at h with hversion
    cases h
    exact ⟨by rw [List.head?_cons, not_not.1 hversion], rfl⟩
  · cases h

theorem core_deserializeBlob {blob : Bytes} {header : MgHeader} {view : DeserializedGrain}
    (h : K.deserializeBlob blob = .ok (header, view)) :
    (K.core T).deserializeBlob blob = .ok view := by
  by_cases hcose : blob.head? = some 0x84
  · simp [deserializeBlob, hcose, bind, Except.bind] at h
  by_cases hshort : blob.length < 10
  · simp [deserializeBlob, hcose, hshort, bind, Except.bind] at h
  by_cases hlarge : Core.maxGrainBytes < blob.length
  · simp [deserializeBlob, hcose, hshort, hlarge, bind, Except.bind] at h
  cases hfrom : MgHeader.fromBytes (blob.take 9) with
  | error e => simp [deserializeBlob, hcose, hshort, hlarge, hfrom, bind, Except.bind] at h
  | ok header' =>
    obtain ⟨hhead, htype⟩ := header_of_fromBytes hfrom
    rw [List.head?_take, if_neg (by decide)] at hhead
    rw [List.getD_eq_getElem?_getD, List.getElem?_take_of_lt (by decide)] at htype
    cases hgt : GrainType.fromByte header'.grainType with
    | none =>
      simp [deserializeBlob, hcose, hshort, hlarge, hfrom, hgt, bind, Except.bind] at h
    | some ty =>
      cases hpayload : K.decodePayload (blob.drop 9) with
      | error e =>
        simp [deserializeBlob, hcose, hshort, hlarge, hfrom, hgt, hpayload, bind, Except.bind] at h
      | ok fields =>
        simp [deserializeBlob, hcose, hshort, hlarge, hfrom, hgt, hpayload, bind, Except.bind,
          pure, Except.pure] at h
        obtain ⟨-, rfl⟩ := h
        simp [Core.deserializeBlob, core, hshort, hlarge, hhead, htype, hgt, hpayload]

theorem typed_toGrain (d : DatedGrain) : d.toGrain.typed = some d.grain := by
  obtain ⟨⟨body, common⟩, now⟩ := d
  unfold DatedGrain.toGrain Grain.typed
  cases hcontext : common.context with
  | none =>
    simp only [Option.map_none]
    rw [← hcontext]
  | some j =>
    simp only [Option.map_some, j.serde, dite_true]
    change some (TypedGrain.mk body { common with context := some j }) = _
    rw [← hcontext]

theorem core_serializeGrain {d : DatedGrain} {blob : Bytes} {hash : Hash}
    (h : (K.core T).serializeGrain d.toGrain = .ok (blob, hash)) :
    K.serializeGrain d.grain d.nowMs = .ok (blob, hash) := by
  unfold Core.serializeGrain core at h
  simp only [typed_toGrain] at h
  have hnow : d.toGrain.body.nowMs = d.nowMs := rfl
  rw [hnow] at h
  cases hser : K.serializeGrain d.grain d.nowMs with
  | error e =>
    rw [hser] at h
    cases h
  | ok x =>
    obtain ⟨blob', hash'⟩ := x
    rw [hser] at h
    cases h
    obtain ⟨-, rfl, -⟩ := TypedGrain.serializeGrain_ok hser
    rfl

end Codec

/-! ## Recording an export -/

/-- What `record_corpus_export` is called with. -/
structure CorpusExport where
  selector : String
  destination : String
  recipient : Option String
  exportedAtMs : Int64
  subjectFingerprints : List String
  sourceHashes : List String

/-- `sort` and `dedup`. -/
def sortDedup (xs : List String) : List String :=
  (xs.insertionSort fun a b => a ≤ b).destutter (· ≠ ·)

/-- `i64::to_le_bytes`. -/
def toLeBytes (n : Int64) : Bytes :=
  (List.range 8).map fun i => UInt8.ofNat (n.toInt / 256 ^ i % 256).toNat

/-- SHA-256 as the registry uses it: all of it, and its first twelve bytes. -/
structure Sha256 where
  digest : Bytes → Bytes
  short : Bytes → Bytes

namespace CorpusExport

variable (S : Sha256) (e : CorpusExport)

/-- `id_material`: the fields, run together. -/
def idMaterial : Bytes :=
  utf8 e.selector ++ utf8 e.destination ++ (e.recipient.map utf8).getD [] ++
    toLeBytes e.exportedAtMs ++ (sortDedup e.sourceHashes).flatMap utf8

/-- `export_id`. -/
def exportId : String := "export:" ++ String.ofList (hexEncode (S.short e.idMaterial))

/-- `selector_digest`. -/
def selectorDigest : String := String.ofList (hexEncode (S.digest (utf8 e.selector)))

/-- The fields of the context of a manifest, in the order of its keys. -/
def contextFields : List (String × Json) :=
  [("corpus_export", .bool true), ("destination", .str e.destination),
    ("exported_at_ms", .int e.exportedAtMs.toInt),
    ("recipient", (e.recipient.map Json.str).getD .null), ("registry_status", .str "active"),
    ("selector_kind", .str "cal_read"), ("selector_sha256", .str (e.selectorDigest S)),
    ("source_count", .int (UInt64.ofNat (sortDedup e.sourceHashes).length).toNat),
    ("subject_fingerprints", .arr ((sortDedup e.subjectFingerprints).map Json.str))]

theorem contextFields_keys : Sorted.Keys (e.contextFields S) := by
  show List.Pairwise (· < ·) ["corpus_export", "destination", "exported_at_ms", "recipient",
    "registry_status", "selector_kind", "selector_sha256", "source_count", "subject_fingerprints"]
  decide

/-- The context of a manifest. -/
def context : JsonValue where
  json := .obj (e.contextFields S)
  serde := by
    refine ⟨e.contextFields_keys S, Json.serdeFields_iff.2 ?_⟩
    have hcount := (UInt64.ofNat (sortDedup e.sourceHashes).length).toNat_lt
    have hlow := e.exportedAtMs.le_toInt
    have hhigh := e.exportedAtMs.toInt_lt
    have hrecipient : ((e.recipient.map Json.str).getD .null).Serde := by
      cases e.recipient <;> trivial
    have hprints : Json.SerdeAll ((sortDedup e.subjectFingerprints).map Json.str) :=
      Json.serdeAll_iff.2 (List.forall_mem_map.2 fun _ _ => trivial)
    simp only [contextFields, List.forall_mem_cons, List.not_mem_nil, Json.Serde, false_imp_iff,
      implies_true, and_true, true_and]
    refine ⟨?_, hrecipient, ?_, hprints⟩ <;> omega

/-- The observation of an export. -/
def observation : TypedGrain :=
  ⟨.observation {
      observerId := "deja:corpus"
      observerType := "corpus_export"
      subject := some (e.exportId S)
      object := some "openai_chat_jsonl"
      observerModel := none
      frameId := none
      syncGroup := none
      observationMode := none
      observationScope := none
      compressionRatio := none },
    { bareCommon with
      namespace_ := some Cal.harnessNs
      createdAt := some e.exportedAtMs
      context := some (e.context S)
      relatedTo := (sortDedup e.sourceHashes).map fun hash => ⟨hash, "mg:corpus_source", none⟩ }⟩

/-- The manifest of an export.  Its creation time is set, so the clock is not read. -/
def manifest : Grain DatedGrain := DatedGrain.toGrain ⟨e.observation S, e.exportedAtMs⟩

/-- `record_corpus_export`. -/
def record (C : Core DatedGrain) : StoreM Hash := add C (e.manifest S)

/-! ## What a manifest says -/

/-- The texts of an export are in normal form. -/
structure Normal (nfc : String → String) : Prop where
  destination : nfc e.destination = e.destination
  recipient : ∀ r, e.recipient = some r → nfc r = r
  fingerprints : ∀ f ∈ e.subjectFingerprints, nfc f = f
  sources : ∀ s ∈ e.sourceHashes, nfc s = s

/-- The links of a manifest. -/
def links : List Json :=
  (sortDedup e.sourceHashes).map fun hash =>
    .obj [("hash", .str hash), ("relation_type", .str "mg:corpus_source")]

/-- What is set on a manifest. -/
def stated : List (String × Json) :=
  [("type", .str "observation"), ("observer_id", .str "deja:corpus"),
    ("observer_type", .str "corpus_export"), ("subject", .str (e.exportId S)),
    ("object", .str "openai_chat_jsonl"), ("confidence", .float 0x3FF0000000000000),
    ("created_at", .int e.exportedAtMs.toInt), ("namespace", .str Cal.harnessNs),
    ("context", .obj (e.contextFields S))] ++
  if e.sourceHashes = [] then [] else [("related_to", .arr e.links)]

variable {S : Sha256} {e : CorpusExport} {nfc : String → String} {now : Int64}

theorem mem_destutter {x : String} (l : List String) : x ∈ l.destutter (· ≠ ·) ↔ x ∈ l := by
  refine ⟨fun h => (List.destutter_sublist _ l).subset h, fun h => ?_⟩
  have hcons : ∀ (l : List String) (a : String), x ∈ a :: l → x ∈ l.destutter' (· ≠ ·) a := by
    intro l
    induction l with
    | nil => exact fun a h => h
    | cons b l ih =>
      intro a h
      by_cases hab : a ≠ b
      · rw [List.destutter'_cons_pos _ hab]
        rcases List.mem_cons.1 h with rfl | h
        · exact List.mem_cons_self
        · exact List.mem_cons_of_mem _ (ih b h)
      · rw [List.destutter'_cons_neg _ hab]
        obtain rfl := not_not.1 hab
        refine ih a ?_
        rcases List.mem_cons.1 h with rfl | h
        · exact List.mem_cons_self
        · exact h
  cases l with
  | nil => exact h
  | cons a l => exact hcons l a h

theorem mem_sortDedup {x : String} {xs : List String} : x ∈ sortDedup xs ↔ x ∈ xs := by
  rw [sortDedup, mem_destutter, (List.perm_insertionSort _ _).mem_iff]

theorem ascii_hexEncode (b : Bytes) : ∀ c ∈ hexEncode b, c.toNat < 128 := by
  intro c hc
  obtain ⟨x, -, hc⟩ := List.mem_flatMap.1 hc
  have hdigit : ∀ n < 16, (hexDigit n).toNat < 128 := by decide
  have hx := x.toNat_lt
  simp only [List.mem_cons, List.not_mem_nil, or_false] at hc
  rcases hc with rfl | rfl
  · exact hdigit _ (by omega)
  · exact hdigit _ (by omega)

theorem nfc_hex (hascii : FixesAscii nfc) (b : Bytes) :
    nfc (String.ofList (hexEncode b)) = String.ofList (hexEncode b) :=
  hascii _ (by simpa using ascii_hexEncode b)

theorem nfc_exportId (hascii : FixesAscii nfc) : nfc (e.exportId S) = e.exportId S := by
  refine hascii _ fun c hc => ?_
  rw [exportId, String.toList_append, List.mem_append] at hc
  rcases hc with hc | hc
  · exact ascii_of_all (s := "export:") (by decide) c hc
  · rw [String.toList_ofList] at hc
    exact ascii_hexEncode _ c hc

theorem sort_of_keys {ν : Type} {d : List (String × ν)} (h : Sorted.Keys d) :
    Sorted.sort d = d := by
  rw [Sorted.sort_eq_ofList h.nodup, Sorted.ofList_of_keys h]

/-- The context says what it is given. -/
theorem context_normalized (hascii : FixesAscii nfc) (h : e.Normal nfc) :
    (e.context S).json.normalized nfc = .obj (e.contextFields S) := by
  have hrecipient : ((e.recipient.map Json.str).getD .null).normalized nfc =
      (e.recipient.map Json.str).getD .null := by
    cases hr : e.recipient with
    | none => rfl
    | some r => simp [Json.normalized, h.recipient r hr]
  have hprints : ∀ l : List String, (∀ f ∈ l, nfc f = f) →
      Json.normalizedAll nfc (l.map Json.str) = l.map Json.str := by
    intro l hl
    induction l with
    | nil => rfl
    | cons f l ih =>
      rw [List.forall_mem_cons] at hl
      simp [Json.normalizedAll, Json.normalized, hl.1, ih hl.2]
  have hfields : Json.normalizedFields nfc (e.contextFields S) = e.contextFields S := by
    simp only [contextFields, Json.normalizedFields, hrecipient, Json.normalized, h.destination,
      hprints _ fun f hf => h.fingerprints f (mem_sortDedup.1 hf), selectorDigest, nfc_hex hascii]
    simp only [hascii _ (ascii_of_all (s := "corpus_export") (by decide)),
      hascii _ (ascii_of_all (s := "destination") (by decide)),
      hascii _ (ascii_of_all (s := "exported_at_ms") (by decide)),
      hascii _ (ascii_of_all (s := "recipient") (by decide)),
      hascii _ (ascii_of_all (s := "registry_status") (by decide)),
      hascii _ (ascii_of_all (s := "active") (by decide)),
      hascii _ (ascii_of_all (s := "selector_kind") (by decide)),
      hascii _ (ascii_of_all (s := "cal_read") (by decide)),
      hascii _ (ascii_of_all (s := "selector_sha256") (by decide)),
      hascii _ (ascii_of_all (s := "source_count") (by decide)),
      hascii _ (ascii_of_all (s := "subject_fingerprints") (by decide))]
  rw [context, Json.normalized, hfields, sort_of_keys (e.contextFields_keys S)]

/-- The links say what they are given. -/
theorem links_mean (hascii : FixesAscii nfc) (h : e.Normal nfc) :
    (((e.observation S).common.relatedTo.map RelatedTo.fields).map (recordMeans nfc)) =
      e.links := by
  show (((sortDedup e.sourceHashes).map fun hash =>
    (⟨hash, "mg:corpus_source", none⟩ : RelatedTo)).map RelatedTo.fields).map (recordMeans nfc) = _
  rw [List.map_map, List.map_map]
  refine List.map_congr_left fun hash hhash => ?_
  have hkeys : Sorted.Keys
      [("hash", Json.str hash), ("relation_type", .str "mg:corpus_source")] := by
    show List.Pairwise (· < ·) ["hash", "relation_type"]
    decide
  have hmeans : recordMeans nfc (RelatedTo.fields ⟨hash, "mg:corpus_source", none⟩) =
      .obj (Sorted.sort [("hash", .str (nfc hash)), ("relation_type",
        .str (nfc "mg:corpus_source"))]) := rfl
  show recordMeans nfc (RelatedTo.fields ⟨hash, "mg:corpus_source", none⟩) = _
  rw [hmeans, h.sources hash (mem_sortDedup.1 hhash),
    hascii _ (ascii_of_all (s := "mg:corpus_source") (by decide)), sort_of_keys hkeys]

theorem sortDedup_eq_nil {xs : List String} : sortDedup xs = [] ↔ xs = [] := by
  rw [List.eq_nil_iff_forall_not_mem, List.eq_nil_iff_forall_not_mem]
  exact forall_congr' fun x => not_congr mem_sortDedup

/-- The fields of a manifest that are written. -/
theorem written_fields (now : Int64) : written ((e.observation S).fields now) =
    [("type", .atom (.name "observation")), ("observer_id", .text "deja:corpus"),
      ("observer_type", .text "corpus_export"), ("subject", .text (e.exportId S)),
      ("object", .text "openai_chat_jsonl"), ("confidence", .f64 0x3FF0000000000000),
      ("created_at", .i64 e.exportedAtMs), ("namespace", .text Cal.harnessNs),
      ("context", .context (e.context S))] ++
    if e.sourceHashes = [] then [] else [("related_to", .records compactRelatedToField
      ((e.observation S).common.relatedTo.map RelatedTo.fields))] := by
  have hfields : written ((e.observation S).fields now) =
      [("type", .atom (.name "observation")), ("observer_id", .text "deja:corpus"),
        ("observer_type", .text "corpus_export"), ("subject", .text (e.exportId S)),
        ("object", .text "openai_chat_jsonl"), ("confidence", .f64 0x3FF0000000000000),
        ("created_at", .i64 e.exportedAtMs), ("namespace", .text Cal.harnessNs),
        ("context", .context (e.context S))] ++
      written [("related_to", ifAny (e.observation S).common.relatedTo fun l =>
        Field.records compactRelatedToField (l.map RelatedTo.fields))] := rfl
  rw [hfields, ifAny]
  have hempty : (e.observation S).common.relatedTo.isEmpty = decide (e.sourceHashes = []) := by
    rw [Bool.eq_iff_iff, List.isEmpty_iff, decide_eq_true_eq, ← sortDedup_eq_nil]
    exact List.map_eq_nil_iff
  rw [hempty]
  by_cases hnone : e.sourceHashes = []
  · simp [hnone, written]
  · simp [hnone, written]

/-- What is set on a manifest, as the store reads it. -/
theorem setFields_eq (hascii : FixesAscii nfc) (h : e.Normal nfc) :
    (e.observation S).setFields nfc now = Sorted.sort (e.stated S) := by
  have hunwritten : written ((e.observation S).fields now ++ (e.observation S).unwritten) =
      written ((e.observation S).fields now) := by
    rw [written, List.filterMap_append]
    exact List.append_nil _
  have hextra : (e.observation S).common.extraFields.entries = [] := rfl
  rw [TypedGrain.setFields, hunwritten, hextra, List.map_nil, List.append_nil, written_fields,
    stated]
  have hmeans : (Field.records compactRelatedToField
      ((e.observation S).common.relatedTo.map RelatedTo.fields)).means nfc = .arr e.links := by
    rw [Field.means, links_mean hascii h]
  refine congrArg Sorted.sort ?_
  rw [List.map_append]
  congr 1
  · simp only [List.map_cons, List.map_nil, Field.text, Field.f64, Field.i64, Field.means,
      Atom.means, nfc_exportId hascii, context_normalized hascii h]
    simp only [hascii _ (ascii_of_all (s := "deja:corpus") (by decide)),
      hascii _ (ascii_of_all (s := "corpus_export") (by decide)),
      hascii _ (ascii_of_all (s := "openai_chat_jsonl") (by decide)),
      hascii _ (ascii_of_all (s := Cal.harnessNs) (by decide))]
  · by_cases hnone : e.sourceHashes = []
    · simp [hnone]
    · simp only [hnone, if_false, List.map_cons, List.map_nil, hmeans]

/-- The keys of the context are spelled as the reader spells them. -/
theorem contextKeys_kept : ∀ k ∈ (e.contextFields S).map Prod.fst,
    expandContextField (compactField k) = k := by
  show ∀ k ∈ ["corpus_export", "destination", "exported_at_ms", "recipient", "registry_status",
    "selector_kind", "selector_sha256", "source_count", "subject_fingerprints"], _
  decide +kernel

/-- A manifest is kept: the reader expands every key the serializer shortened. -/
theorem kept (hascii : FixesAscii nfc) : (e.observation S).Kept nfc now where
  unwritten := rfl
  fields := by
    have hkeys : (e.contextFields S).map (fun x => nfc x.1) =
        (e.contextFields S).map Prod.fst := by
      simp only [contextFields, List.map_cons, List.map_nil]
      simp only [hascii _ (ascii_of_all (s := "corpus_export") (by decide)),
        hascii _ (ascii_of_all (s := "destination") (by decide)),
        hascii _ (ascii_of_all (s := "exported_at_ms") (by decide)),
        hascii _ (ascii_of_all (s := "recipient") (by decide)),
        hascii _ (ascii_of_all (s := "registry_status") (by decide)),
        hascii _ (ascii_of_all (s := "selector_kind") (by decide)),
        hascii _ (ascii_of_all (s := "selector_sha256") (by decide)),
        hascii _ (ascii_of_all (s := "source_count") (by decide)),
        hascii _ (ascii_of_all (s := "subject_fingerprints") (by decide))]
    have hcontext : (Field.context (e.context S)).Kept nfc (KeyMode.omsTop.child "context") := by
      refine ⟨?_, ?_, ?_⟩
      · rw [hkeys]
        exact (e.contextFields_keys S).nodup
      · have hnames : ∀ k ∈ (e.contextFields S).map Prod.fst,
            expandContextField (compactField k) = k := contextKeys_kept
        intro x hx
        have hx' := List.mem_map_of_mem (f := fun x => nfc x.1) hx
        rw [hkeys] at hx'
        exact hnames _ hx'
      · have hrecipient : ((e.recipient.map Json.str).getD .null).Kept nfc .verbatim := by
          cases e.recipient <;> trivial
        have hprints : Json.KeptAll nfc .verbatim ((sortDedup e.subjectFingerprints).map .str) :=
          Json.keptAll_iff.2 (List.forall_mem_map.2 fun _ _ => trivial)
        simp only [contextFields, List.forall_mem_cons]
        exact ⟨trivial, trivial, trivial, hrecipient, trivial, trivial, trivial, trivial, hprints,
          List.forall_mem_nil _⟩
    have hlinks : (Field.records compactRelatedToField
        ((e.observation S).common.relatedTo.map RelatedTo.fields)).Kept nfc
          (KeyMode.omsTop.child "related_to") := by
      intro r hr
      obtain ⟨link, hlink, rfl⟩ := List.mem_map.1 hr
      obtain ⟨hash, -, rfl⟩ := List.mem_map.1 hlink
      have hwritten : written (RelatedTo.fields ⟨hash, "mg:corpus_source", none⟩) =
          [("hash", .text hash), ("relation_type", .text "mg:corpus_source")] := rfl
      rw [RecordKept, hwritten]
      simp only [List.forall_mem_cons]
      exact ⟨⟨by decide, trivial⟩, ⟨by decide, trivial⟩, List.forall_mem_nil _⟩
    rw [written_fields]
    intro x hx
    rcases List.mem_append.1 hx with hx | hx
    · simp only [List.mem_cons, List.not_mem_nil, or_false] at hx
      rcases hx with rfl | rfl | rfl | rfl | rfl | rfl | rfl | rfl | rfl
      · trivial
      · trivial
      · trivial
      · trivial
      · trivial
      · exact (by decide : isFinite 0x3FF0000000000000 = true)
      · trivial
      · trivial
      · exact hcontext
    · split_ifs at hx
      · cases hx
      · rw [List.mem_singleton.1 hx]
        exact hlinks
  extraApart := List.nodup_nil
  extraFree x hx := absurd hx List.not_mem_nil
  extraKeys x hx := absurd hx List.not_mem_nil
  extra x hx := absurd hx List.not_mem_nil

/-- A grain says what an export was recorded with. -/
structure Says (S : Sha256) (e : CorpusExport) (view : DeserializedGrain) : Prop where
  grainType : view.grainType = .observation
  subject : view.getStr "subject" = some (e.exportId S)
  context : view.get "context" = some (.obj (e.contextFields S))
  relatedTo : view.get "related_to" = if e.sourceHashes = [] then none else some (.arr e.links)

/-- **A manifest reads back as it was written.** -/
theorem manifest_says {K : Codec} {T : CharTables} (hlawful : K.Lawful)
    (hidem : ∀ s, K.nfc (K.nfc s) = K.nfc s) (hascii : FixesAscii K.nfc) (h : e.Normal K.nfc)
    {blob : Bytes} {hash : Hash}
    (hok : (K.core T).serializeGrain (e.manifest S) = .ok (blob, hash)) :
    ∃ view, (K.core T).deserializeBlob blob = .ok view ∧ e.Says S view := by
  obtain ⟨header, view, hread, htype, -, hfields⟩ :=
    serializeGrain_roundTrip_iff K hlawful hidem _ _ blob hash (Codec.core_serializeGrain hok)
  have hfields := hfields.2 (kept hascii)
  have hstated := @setFields_eq S e K.nfc e.exportedAtMs hascii h
  rw [show (DatedGrain.mk (e.observation S) e.exportedAtMs).grain = e.observation S from rfl,
    hstated] at hfields
  have hnodup : ((e.stated S).map Prod.fst).Nodup := by
    rw [stated]
    by_cases hnone : e.sourceHashes = []
    · rw [if_pos hnone]
      exact (by decide : ["type", "observer_id", "observer_type", "subject", "object",
        "confidence", "created_at", "namespace", "context"].Nodup)
    · rw [if_neg hnone]
      exact (by decide : ["type", "observer_id", "observer_type", "subject", "object",
        "confidence", "created_at", "namespace", "context", "related_to"].Nodup)
  have hget : ∀ k, view.get k = (e.stated S).lookup k := by
    intro k
    rw [DeserializedGrain.get, hfields, Sorted.sort_eq_ofList hnodup, Sorted.lookup_ofList]
    refine Option.ext fun v => ?_
    rw [Sorted.lookup_eq_some_iff (Sorted.nodup_reverse_keys hnodup),
      Sorted.lookup_eq_some_iff hnodup, List.mem_reverse]
  refine ⟨view, Codec.core_deserializeBlob hread, htype, ?_, ?_, ?_⟩
  · rw [DeserializedGrain.getStr, hget]
    rfl
  · rw [hget]
    rfl
  · rw [hget, stated]
    split_ifs <;> rfl

end CorpusExport

end Deja
