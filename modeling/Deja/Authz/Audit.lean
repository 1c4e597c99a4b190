import Deja.Codec.Canonical
import Deja.Spec.Texts

/-!
# Audit records

`audit_observation` builds the record of one destructive execution.  The counter
that keeps two records apart goes into the frame id, which the serializer does
not write, so records are told apart by what else they say
(`audit_addresses_iff`).
-/

namespace Deja

/-! ## The record -/

/-- A call of `audit_observation`. -/
structure AuditCall where
  principal : String
  verb : String
  target : String
  because : Option String
  count : UInt64
  nowMs : Int64
  deriving DecidableEq

/-- `AUTHZ_NS`. -/
def authzNs : String := "agent:authz"

/-- `observer_kind`: what the label of a principal implies. -/
def observerKind (principal : String) : String :=
  if ["agent:", "bot:", "job:", "svc:", "engine:"].any fun p =>
    p.toList.isPrefixOf principal.toList then "agent" else "human"

namespace AuditCall

/-- The fields of the context of a record, in the order of its keys. -/
def contextFields (c : AuditCall) : List (String × Json) :=
  [("audit", .str "tier2"), ("because", .str (c.because.getD "")),
    ("grains_erased", .int c.count.toNat), ("subject_ref", .str "sha256-64/hex"),
    ("target", .str c.target), ("verb", .str c.verb)]

/-- The context of a record. -/
def context (c : AuditCall) : JsonValue where
  json := .obj c.contextFields
  serde := by
    refine ⟨?_, Json.serdeFields_iff.2 ?_⟩
    · show List.Pairwise (· < ·)
        ["audit", "because", "grains_erased", "subject_ref", "target", "verb"]
      decide
    · have hcount := c.count.toNat_lt
      simp only [contextFields, List.forall_mem_cons, List.not_mem_nil, Json.Serde, false_imp_iff,
        implies_true, and_true, true_and]
      omega

/-- `audit_observation`, at a reading of the process counter. -/
def observation (c : AuditCall) (seq : UInt64) : TypedGrain :=
  ⟨.observation {
      observerId := c.principal
      observerType := observerKind c.principal
      subject := some c.target
      object := some c.verb
      observerModel := none
      frameId := some ("tier2:" ++ toString c.nowMs ++ ":" ++ toString seq)
      syncGroup := none
      observationMode := none
      observationScope := none
      compressionRatio := none },
    { bareCommon with
      -- the derived `Default` of the common part has no confidence
      confidence := 0
      namespace_ := some authzNs
      createdAt := some c.nowMs
      context := some c.context }⟩

end AuditCall

/-- The records of a sequence of calls in one process; the counter wraps. -/
def auditObservations : UInt64 → List AuditCall → List TypedGrain
  | _, [] => []
  | seq, c :: cs => c.observation seq :: auditObservations (seq + 1) cs

/-! ## What a record says -/

/-- Two calls whose records say the same: all but the counter, with strings
normalized and no reason as an empty one. -/
structure AuditCall.Alike (nfc : String → String) (a b : AuditCall) : Prop where
  principal : nfc a.principal = nfc b.principal
  kind : observerKind a.principal = observerKind b.principal
  verb : nfc a.verb = nfc b.verb
  target : nfc a.target = nfc b.target
  because : nfc (a.because.getD "") = nfc (b.because.getD "")
  count : a.count = b.count
  nowMs : a.nowMs = b.nowMs

/-- Unicode normalization leaves ASCII alone. -/
def FixesAscii (nfc : String → String) : Prop :=
  ∀ s : String, (∀ c ∈ s.toList, c.toNat < 128) → nfc s = s

theorem ascii_of_all {s : String} (h : (s.toList.all fun c => c.toNat < 128) = true) :
    ∀ c ∈ s.toList, c.toNat < 128 := by
  intro c hc
  exact of_decide_eq_true (List.all_eq_true.1 h c hc)

section Written

variable {nfc : String → String} {now : Int64} {a b : AuditCall} {i j : UInt64}

/-- The entries of the context on the wire. -/
theorem context_value (hascii : FixesAscii nfc) (a : AuditCall) :
    jsonToMsgpackWithKeyCompaction nfc a.context.json = btreeToMsgpackMap (Sorted.ofList
      [("audit", .string "tier2"), ("because", .string (nfc (a.because.getD ""))),
        ("grains_erased", .integer a.count.toNat), ("subject_ref", .string "sha256-64/hex"),
        ("target", .string (nfc a.target)), ("verb", .string (nfc a.verb))]) := by
  simp only [AuditCall.context, AuditCall.contextFields, jsonToMsgpackWithKeyCompaction,
    fieldsToMsgpack, jsonToMsgpack, nfcString, List.map_cons, List.map_nil]
  rw [hascii "audit" (ascii_of_all (by decide)), hascii "because" (ascii_of_all (by decide)),
    hascii "grains_erased" (ascii_of_all (by decide)),
    hascii "subject_ref" (ascii_of_all (by decide)), hascii "target" (ascii_of_all (by decide)),
    hascii "verb" (ascii_of_all (by decide)), hascii "tier2" (ascii_of_all (by decide)),
    hascii "sha256-64/hex" (ascii_of_all (by decide))]
  rfl

/-- The fields of a record that are written: all but its frame id. -/
theorem written_observation (a : AuditCall) (i : UInt64) (now : Int64) :
    written ((a.observation i).fields now) =
      [("type", .atom (.name "observation")), ("observer_id", .text a.principal),
        ("observer_type", .text (observerKind a.principal)), ("subject", .text a.target),
        ("object", .text a.verb), ("confidence", .f64 0), ("created_at", .i64 a.nowMs),
        ("namespace", .text authzNs), ("context", .context a.context)] := rfl

/-- Alike calls have one map. -/
theorem AuditCall.Alike.wireMap_eq (hascii : FixesAscii nfc) (h : a.Alike nfc b) :
    (a.observation i).wireMap nfc now = (b.observation j).wireMap nfc now := by
  have hcontext := context_value hascii a
  rw [h.because, h.count, h.target, h.verb, ← context_value hascii b] at hcontext
  have hextra : ∀ (c : AuditCall) (k : UInt64), (c.observation k).wireMap nfc now =
      Sorted.ofList ((written ((c.observation k).fields now)).map fun x =>
        (compactField x.1, x.2.value nfc)) := fun c k => by
    rw [TypedGrain.wireMap, show (c.observation k).common.extraFields.entries = [] from rfl,
      List.foldl_nil, TypedGrain.baseMap]
  rw [hextra, hextra, written_observation, written_observation]
  simp only [List.map_cons, List.map_nil, Field.value, Field.text, Field.i64, Atom.value, nfcString,
    h.principal, h.kind, h.target, h.verb, h.nowMs, hcontext]

/-- Calls whose records have one map are alike. -/
theorem alike_of_wireMap_eq (hascii : FixesAscii nfc)
    (h : (a.observation i).wireMap nfc now = (b.observation j).wireMap nfc now) :
    a.Alike nfc b := by
  have hvalue : ∀ {n : String} {f f' : Field},
      (n, f) ∈ written ((a.observation i).fields now) →
      (n, f') ∈ written ((b.observation j).fields now) → f.value nfc = f'.value nfc := by
    intro n f f' hf hf'
    have hleft := TypedGrain.lookup_wireMap nfc hf
    rw [h, TypedGrain.lookup_wireMap nfc hf'] at hleft
    exact (Option.some.inj hleft).symm
  rw [written_observation, written_observation] at hvalue
  have htext : ∀ {n s s' : String},
      (n, Field.text s) ∈ written ((a.observation i).fields now) →
      (n, Field.text s') ∈ written ((b.observation j).fields now) → nfc s = nfc s' := by
    intro n s s' hs hs'
    rw [written_observation] at hs hs'
    exact Value.string.inj (hvalue hs hs')
  rw [written_observation, written_observation] at htext
  have hkind : ∀ c : AuditCall, nfc (observerKind c.principal) = observerKind c.principal := by
    intro c
    refine hascii _ (ascii_of_all ?_)
    unfold observerKind
    split_ifs <;> decide
  have hcontext : jsonToMsgpackWithKeyCompaction nfc a.context.json =
      jsonToMsgpackWithKeyCompaction nfc b.context.json :=
    @hvalue "context" (.context a.context) (.context b.context) (by simp) (by simp)
  rw [context_value hascii, context_value hascii] at hcontext
  have hlookup := fun k => congrArg (List.lookup k) (btreeToMsgpackMap_injective hcontext)
  simp only [Sorted.lookup_ofList] at hlookup
  have hbecause := hlookup "because"
  have hcount := hlookup "grains_erased"
  have hnow := @hvalue "created_at" (.i64 a.nowMs) (.i64 b.nowMs) (by simp) (by simp)
  refine ⟨?_, ?_, ?_, ?_, ?_, ?_, ?_⟩
  · exact @htext "observer_id" a.principal b.principal (by simp) (by simp)
  · rw [← hkind a, ← hkind b]
    exact @htext "observer_type" _ _ (by simp) (by simp)
  · exact @htext "object" _ _ (by simp) (by simp)
  · exact @htext "subject" _ _ (by simp) (by simp)
  · simpa [List.lookup_cons] using hbecause
  · have hnat : a.count.toNat = b.count.toNat := by simpa [List.lookup_cons] using hcount
    exact UInt64.toNat_inj.1 hnat
  · exact Int64.toInt_inj.1 (Value.integer.inj hnow)

end Written

/-! ## Addresses -/

section Address

variable {K : Codec} {now : Int64}

/-- The serializer takes an alike record for the same. -/
theorem AuditCall.Alike.serialize_eq {a b : AuditCall} (hascii : FixesAscii K.nfc)
    (h : a.Alike K.nfc b) (i j : UInt64) :
    K.serializeGrain (a.observation i) now = K.serializeGrain (b.observation j) now := by
  have hflags : Codec.headerFlags (a.observation i).common =
      Codec.headerFlags (b.observation j).common := by
    simp only [Codec.headerFlags, AuditCall.observation, bareCommon]
    rfl
  have hcreated : (a.observation i).createdAt now = (b.observation j).createdAt now := h.nowMs
  have hns : ∀ (c : AuditCall) (k : UInt64),
      (c.observation k).common.namespace_ = some authzNs := fun _ _ => rfl
  have htype : ∀ (c : AuditCall) (k : UInt64),
      (c.observation k).body.grainType = .observation := fun _ _ => rfl
  refine TypedGrain.serializeGrain_congr ?_ (h.wireMap_eq hascii)
  rw [Codec.header, Codec.header, hflags, hcreated, hns, hns, htype, htype]

theorem MgHeader.toBytes_length (h : MgHeader) : h.toBytes.length = 9 := rfl

theorem alike_of_blob_eq {a b : AuditCall} {i j : UInt64} {blob : Bytes} {hash hash' : Hash}
    (hlawful : K.Lawful) (hascii : FixesAscii K.nfc)
    (ha : K.serializeGrain (a.observation i) now = .ok (blob, hash))
    (hb : K.serializeGrain (b.observation j) now = .ok (blob, hash')) : a.Alike K.nfc b := by
  obtain ⟨-, -, -, payload, hpayload, hguard, hblob⟩ := TypedGrain.serializeGrain_ok ha
  obtain ⟨-, -, -, payload', hpayload', hguard', hblob'⟩ := TypedGrain.serializeGrain_ok hb
  rw [hblob] at hblob'
  obtain ⟨-, rfl⟩ := List.append_inj hblob'
    (((K.header _ now).toBytes_length).trans (K.header _ now).toBytes_length.symm)
  have hread := hlawful _ _ hpayload hguard
  rw [hlawful _ _ hpayload' hguard'] at hread
  exact alike_of_wireMap_eq hascii
    (btreeToMsgpackMap_injective (Prod.ext_iff.1 (Except.ok.inj hread)).1).symm

/-- SHA-256 does not collide on the blobs of these records. -/
def CollisionFree (K : Codec) (now : Int64) (gs : List TypedGrain) : Prop :=
  ∀ g ∈ gs, ∀ g' ∈ gs, ∀ blob blob' hash, K.serializeGrain g now = .ok (blob, hash) →
    K.serializeGrain g' now = .ok (blob', hash) → blob = blob'

/-- The content addresses of the records are pairwise distinct. -/
def AddressesApart (K : Codec) (now : Int64) (gs : List TypedGrain) : Prop :=
  gs.Pairwise fun g g' => ∀ blob blob' hash hash', K.serializeGrain g now = .ok (blob, hash) →
    K.serializeGrain g' now = .ok (blob', hash') → hash ≠ hash'

theorem mem_auditObservations {seq : UInt64} {calls : List AuditCall} {g : TypedGrain}
    (h : g ∈ auditObservations seq calls) : ∃ c ∈ calls, ∃ i, g = c.observation i := by
  induction calls generalizing seq with
  | nil => cases h
  | cons c cs ih =>
    rcases List.mem_cons.1 h with rfl | h
    · exact ⟨c, List.mem_cons_self, seq, rfl⟩
    · obtain ⟨d, hd, i, hi⟩ := ih h
      exact ⟨d, List.mem_cons_of_mem _ hd, i, hi⟩

theorem observation_mem (seq : UInt64) {calls : List AuditCall} {c : AuditCall} (h : c ∈ calls) :
    ∃ i, c.observation i ∈ auditObservations seq calls := by
  induction calls generalizing seq with
  | nil => cases h
  | cons d ds ih =>
    rcases List.mem_cons.1 h with rfl | h
    · exact ⟨seq, List.mem_cons_self⟩
    · exact (ih (seq + 1) h).imp fun i hi => List.mem_cons_of_mem _ hi

/-- No two of the calls that can be written at all say the same. -/
def CallsApart (K : Codec) (now : Int64) (calls : List AuditCall) : Prop :=
  calls.Pairwise fun a b => a.Alike K.nfc b → ∀ x, K.serializeGrain (a.observation 0) now ≠ .ok x

/-- The addresses are apart exactly when the calls are. -/
theorem addressesApart_iff (hlawful : K.Lawful) (hascii : FixesAscii K.nfc) {seq : UInt64}
    {calls : List AuditCall} (hsha : CollisionFree K now (auditObservations seq calls)) :
    AddressesApart K now (auditObservations seq calls) ↔ CallsApart K now calls := by
  induction calls generalizing seq with
  | nil => exact iff_of_true .nil .nil
  | cons c cs ih =>
    rw [AddressesApart, CallsApart, auditObservations, List.pairwise_cons, List.pairwise_cons]
    refine and_congr ⟨fun h d hd halike x hx => ?_,
      fun h g hg blob blob' hash hash' hblob hblob' => ?_⟩
      (ih fun g hg g' hg' => hsha g (List.mem_cons_of_mem _ hg) g' (List.mem_cons_of_mem _ hg'))
    · obtain ⟨i, hi⟩ := observation_mem (seq + 1) hd
      obtain ⟨blob, hash⟩ := x
      refine h _ hi blob blob hash hash ?_ ?_ rfl
      · rw [← hx]
        exact (AuditCall.Alike.mk rfl rfl rfl rfl rfl rfl rfl).serialize_eq hascii _ _
      · rw [← hx]
        exact (halike.serialize_eq hascii _ _).symm
    · rintro rfl
      obtain ⟨d, hd, i, rfl⟩ := mem_auditObservations hg
      obtain rfl := hsha _ List.mem_cons_self _ (List.mem_cons_of_mem _ hg) _ _ _ hblob hblob'
      refine h d hd (alike_of_blob_eq hlawful hascii hblob hblob') (blob, hash) ?_
      rw [← hblob]
      exact (AuditCall.Alike.mk rfl rfl rfl rfl rfl rfl rfl).serialize_eq hascii _ _

end Address

/-! ## Records in a store -/

section Store

open Run Tables

variable {G : Type} {C : Core G}

theorem Interns.hasGrain {a b : DejaDB} (h : Interns a b) (x : Hash) :
    b.db.hasGrain x = a.db.hasGrain x := by
  rw [h.file]
  rfl

theorem Tables.hasGrain_iff_hash {t : Tables} {x : Hash} :
    t.hasGrain x ↔ x ∈ t.grains.map GrainRow.hash := by
  simp only [hasGrain, List.any_eq_true, decide_eq_true_eq, List.mem_map]

/-- An add that returns has stored its grain and no other. -/
theorem add_ok {g : Grain G} {st st' : DejaDB} {hash : Hash} (hok : VocabOk st)
    (h : add C g st = .ok hash st') : (∃ blob, C.serializeGrain g = .ok (blob, hash)) ∧
      ∀ x, st'.db.hasGrain x ↔ x = hash ∨ st.db.hasGrain x := by
  obtain ⟨hashes, st₁, hbatch, h₁⟩ := bind_eq_ok.1 h
  obtain ⟨⟨hs, preps⟩, st₂, hnovel, h₂⟩ := bind_eq_ok.1 hbatch
  have hidle : ∀ x, st₂.db.hasGrain x = st.db.hasGrain x := fun x =>
    ((leads_prepNovel _ _).of_ok hnovel).hasGrain x
  obtain ⟨⟨blob, address⟩, st₃, hlift, h₃⟩ := bind_eq_ok.1 hnovel
  obtain ⟨hser, rfl⟩ := lift_eq_ok.1 hlift
  obtain ⟨st₄, st₅, hget, h₄⟩ := bind_eq_ok.1 h₃
  cases hget
  simp only at h₄
  split_ifs at h₄ with hold
  · -- stored before: nothing is written
    cases h₄
    simp only [List.isEmpty_nil, if_true] at h₂
    cases h₂
    cases h₁
    refine ⟨⟨blob, hser⟩, fun x => ⟨.inr, ?_⟩⟩
    rintro (rfl | hx)
    · simpa [DejaDB.has] using hold
    · exact hx
  · obtain ⟨pr, st₆, hprep, h₅⟩ := bind_eq_ok.1 h₄
    obtain ⟨-, rfl, -⟩ := prepFromBlob_ok hok hprep
    cases h₅
    simp only [List.isEmpty_cons, Bool.false_eq_true, if_false] at h₂
    obtain ⟨⟨seq, op, hlc⟩, st₇, hreserve, h₆⟩ := bind_eq_ok.1 h₂
    have hreserved : st₇.db = st₂.db := by
      cases hreserve
      rfl
    obtain ⟨u, st₈, hstamp, h₇⟩ := bind_eq_ok.1 h₆
    obtain ⟨u', st₉, htxn, h₈⟩ := bind_eq_ok.1 h₇
    obtain ⟨u'', st₁₀, hbump, h₉⟩ := bind_eq_ok.1 h₈
    cases h₉
    cases h₁
    refine ⟨⟨blob, hser⟩, fun x => ?_⟩
    obtain ⟨t, hbody, rfl⟩ := withTxn_ok htxn
    obtain ⟨seq, op, hlc, hbody⟩ : ∃ seq op hlc,
        (st₈.db.insertPrepped [pr] seq op hlc).map (fun t => ((), t)) = .ok (u', t) :=
      ⟨_, _, _, hbody⟩
    cases hinsert : st₈.db.insertPrepped [pr] seq op hlc with
    | error e =>
      rw [hinsert] at hbody
      cases hbody
    | ok t' =>
      rw [hinsert] at hbody
      cases hbody
      obtain ⟨t₁, hone, hrest⟩ := except_bind_ok hinsert
      cases hrest
      obtain ⟨hins, -⟩ := insertPreppedOne_ok hone
      cases hbump
      have hold : ∀ x, st₈.db.hasGrain x = st.db.hasGrain x := by
        intro x
        have hidle' := stamped_idle st₇ [pr]
        rw [DejaDB.stamped, DejaDB.after, after_of_ok hstamp] at hidle'
        rw [← hidle x, ← hreserved, hidle'.file]
        rfl
      rw [← hold x, Tables.hasGrain_iff_hash, Tables.hasGrain_iff_hash, hins.grains,
        List.map_append, List.mem_append, or_comm]
      exact or_congr List.mem_singleton Iff.rfl

theorem Reachable.add {g : Grain G} {st st' : DejaDB} {hash : Hash} (hreach : Reachable C st)
    (h : add C g st = .ok hash st') : Reachable C st' := by
  have hstep : st.steps C [.add g] = st' := by
    refine after_of_ok (a := ()) ?_
    show quiet (Deja.add C g) st = _
    exact bind_eq_ok.2 ⟨hash, st', h, rfl⟩
  rw [← hstep]
  exact hreach.steps [.add g]

/-- Adds that return have stored their grains and no other. -/
theorem adds_ok {gs : List (Grain G)} {st st' : DejaDB} {hashes : List Hash}
    (hreach : Reachable C st) (h : gs.mapM (add C) st = .ok hashes st') :
    Reachable C st' ∧
      List.Forall₂ (fun g hash => ∃ blob, C.serializeGrain g = .ok (blob, hash)) gs hashes ∧
      ∀ x, st'.db.hasGrain x ↔ x ∈ hashes ∨ st.db.hasGrain x := by
  induction gs generalizing st hashes with
  | nil =>
    rw [List.mapM_nil] at h
    obtain ⟨rfl, rfl⟩ := pure_eq_ok.1 h
    exact ⟨hreach, .nil, fun x => by simp⟩
  | cons g gs ih =>
    rw [List.mapM_cons] at h
    obtain ⟨hash, st₁, hadd, h⟩ := bind_eq_ok.1 h
    obtain ⟨hashes', st₂, hrest, h⟩ := bind_eq_ok.1 h
    obtain ⟨rfl, rfl⟩ := pure_eq_ok.1 h
    obtain ⟨hser, hstored⟩ := add_ok hreach.good.vocabOk hadd
    obtain ⟨hreach', hsers, hstored'⟩ := ih (hreach.add hadd) hrest
    refine ⟨hreach', .cons hser hsers, fun x => ?_⟩
    rw [hstored', hstored, List.mem_cons, or_left_comm, or_assoc]

/-- The stored grains whose address is among `hashes`. -/
def DejaDB.storedAmong (st : DejaDB) (hashes : List Hash) : List GrainRow :=
  st.db.grains.filter fun g => g.hash ∈ hashes

/-- Distinct stored addresses name as many grains as there are of them. -/
theorem Reachable.storedAmong_length {st : DejaDB} {hashes : List Hash} (h : Reachable C st)
    (hnodup : hashes.Nodup) (hstored : ∀ x ∈ hashes, st.db.hasGrain x) :
    (st.storedAmong hashes).length = hashes.length := by
  have hperm : ((st.storedAmong hashes).map GrainRow.hash).Perm hashes := by
    refine (List.perm_ext_iff_of_nodup ?_ hnodup).2 fun x => ?_
    · exact h.good.rowsOk.hashes.sublist (List.filter_sublist.map _)
    · simp only [DejaDB.storedAmong, List.mem_map, List.mem_filter, decide_eq_true_eq]
      constructor
      · rintro ⟨g, ⟨-, hg⟩, rfl⟩
        exact hg
      · intro hx
        obtain ⟨g, hg, rfl⟩ := List.mem_map.1 (Tables.hasGrain_iff_hash.1 (hstored x hx))
        exact ⟨g, ⟨hg, hx⟩, rfl⟩
  rw [← List.length_map GrainRow.hash, hperm.length_eq]

end Store

/-! ## One record an execution -/

/-- No two records are written under one address, and adding each of them leaves
as many stored grains as there are records. -/
def Kept (K : Codec) (now : Int64) (gs : List TypedGrain) : Prop :=
  AddressesApart K now gs ∧
    ∀ (G : Type) (C : Core G) (st : DejaDB), Reachable C st → ∀ adds : List (Grain G),
      List.Forall₂ (fun g x => C.serializeGrain x = K.serializeGrain g now) gs adds →
        ∀ hashes st', adds.mapM (add C) st = .ok hashes st' →
          (st'.storedAmong hashes).length = gs.length

theorem AddressesApart.kept {K : Codec} {now : Int64} {gs : List TypedGrain}
    (h : AddressesApart K now gs) : Kept K now gs := by
  refine ⟨h, fun G C st hreach adds hadds hashes st' hrun => ?_⟩
  obtain ⟨hreach', hsers, hstored⟩ := adds_ok hreach hrun
  have hnodup : hashes.Nodup := by
    clear hrun hstored
    induction hadds generalizing hashes with
    | nil =>
      cases hsers
      exact List.nodup_nil
    | @cons g x gs adds hx hadds ih =>
      cases hsers with
      | @cons _ hash _ hashes hser hsers =>
        obtain ⟨hhead, htail⟩ := List.pairwise_cons.1 h
        refine List.nodup_cons.2 ⟨fun hmem => ?_, ih htail hashes hsers⟩
        obtain ⟨y, hy, blob', hser'⟩ := forall₂_exists_left hsers hash hmem
        obtain ⟨g', hg', hy'⟩ := forall₂_exists_left hadds y hy
        obtain ⟨blob, hser⟩ := hser
        exact hhead g' hg' blob blob' hash hash (hx ▸ hser) (hy' ▸ hser') rfl
  rw [hreach'.storedAmong_length hnodup fun x hx => (hstored x).2 (.inl hx),
    ← hsers.length_eq, ← hadds.length_eq]

/-- **Audit records that say something else are apart.**  The records of a
sequence of calls keep an address each exactly when no two calls that can be
written are alike; the counter in the frame id plays no part. -/
theorem audit_addresses_iff (K : Codec) (hlawful : K.Lawful) (hascii : FixesAscii K.nfc)
    (now : Int64) (seq : UInt64) (calls : List AuditCall)
    (hsha : CollisionFree K now (auditObservations seq calls)) :
    Kept K now (auditObservations seq calls) ↔ CallsApart K now calls :=
  ⟨fun h => (addressesApart_iff hlawful hascii hsha).1 h.1,
    fun h => ((addressesApart_iff hlawful hascii hsha).2 h).kept⟩

/-! ### The same call twice -/

/-- A forget of one grain. -/
def forgetCall (principal : String) : AuditCall where
  principal := principal
  verb := "forget"
  target := "t"
  because := none
  count := 1
  nowMs := 0

/-- The payload of its record. -/
def forgetPayload (principal : Bytes) : Bytes :=
  [137, 161, 99, 203, 0, 0, 0, 0, 0, 0, 0, 0, 162, 99, 97, 0, 163, 99, 116, 120, 134, 165, 97, 117,
   100, 105, 116, 165, 116, 105, 101, 114, 50, 167, 98, 101, 99, 97, 117, 115, 101, 160, 173, 103,
   114, 97, 105, 110, 115, 95, 101, 114, 97, 115, 101, 100, 1, 171, 115, 117, 98, 106, 101, 99,
   116, 95, 114, 101, 102, 173, 115, 104, 97, 50, 53, 54, 45, 54, 52, 47, 104, 101, 120, 166, 116,
   97, 114, 103, 101, 116, 161, 116, 164, 118, 101, 114, 98, 166, 102, 111, 114, 103, 101, 116,
   162, 110, 115, 171, 97, 103, 101, 110, 116, 58, 97, 117, 116, 104, 122, 161, 111, 166, 102, 111,
   114, 103, 101, 116, 163, 111, 105, 100, 163] ++ principal ++
  [165, 111, 116, 121, 112, 101, 165, 104, 117, 109, 97, 110, 161, 115, 161, 116, 161, 116, 171,
   111, 98, 115, 101, 114, 118, 97, 116, 105, 111, 110]

/-- The payloads of the forgets of two people. -/
def annPayload : Bytes := forgetPayload [97, 110, 110]

def bobPayload : Bytes := forgetPayload [98, 111, 98]

theorem forgetPayload_length (name : Bytes) : (forgetPayload name).length = name.length + 163 := by
  rw [forgetPayload, List.length_append, List.length_append]
  change 133 + name.length + 30 = _
  omega

/-- SHA-256 of the blob of the one and of the other. -/
def annDigest : Hash :=
  ⟨[241, 42, 244, 247, 2, 96, 177, 145, 168, 167, 13, 252, 23, 81, 151, 171, 18, 3, 14, 10, 94,
    115, 142, 169, 243, 239, 7, 165, 232, 56, 46, 74], rfl⟩

def bobDigest : Hash :=
  ⟨[29, 100, 110, 245, 122, 78, 93, 212, 100, 255, 136, 217, 223, 220, 197, 55, 83, 2, 169, 212,
    204, 56, 251, 200, 128, 148, 220, 13, 171, 89, 165, 195], rfl⟩

/-- SHA-256 of the namespace and of the two blobs. -/
def forgetDigests (b : Bytes) : Hash :=
  if b = [97, 103, 101, 110, 116, 58, 97, 117, 116, 104, 122] then
    ⟨[117, 228, 161, 186, 174, 164, 7, 217, 191, 141, 179, 188, 149, 30, 104, 165, 51, 118, 216, 59,
      66, 187, 212, 112, 165, 8, 206, 214, 36, 7, 160, 45], rfl⟩
  else if b.drop 9 = annPayload then annDigest
  else bobDigest

/-- What is written of a forget. -/
def forgetValue (principal : String) : Value :=
  btreeToMsgpackMap (((forgetCall principal).observation 0).wireMap id 0)

open Classical in
/-- The codec of the records of two forgets. -/
noncomputable def forgetCodec : Codec where
  readValue b :=
    if b = annPayload then .ok (forgetValue "ann", [])
    else if b = bobPayload then .ok (forgetValue "bob", [])
    else .error (.serialization "msgpack decode error")
  writeValue w :=
    if w = forgetValue "ann" then .ok annPayload
    else if w = forgetValue "bob" then .ok bobPayload
    else .error (.serialization "msgpack encode error")
  nfc := id
  sha256 := forgetDigests

theorem forgetCodec_lawful : forgetCodec.Lawful := by
  intro w b hwrite _
  simp only [forgetCodec] at hwrite ⊢
  split_ifs at hwrite with hann hbob
  · cases hwrite
    rw [if_pos rfl, hann]
  · cases hwrite
    rw [if_neg (by decide), if_pos rfl, hbob]

/-- The text written under the observer's key. -/
def observerOf : Value → Option String
  | .map pairs => pairs.findSome? fun
    | (.string "oid", .string s) => some s
    | _ => none
  | _ => none

theorem forgetValue_ne : forgetValue "bob" ≠ forgetValue "ann" := by
  intro heq
  have hobserver := congrArg observerOf heq
  revert hobserver
  decide +kernel

theorem forgetCodec_writes_ann : forgetCodec.writeValue (forgetValue "ann") = .ok annPayload :=
  if_pos rfl

theorem forgetCodec_writes_bob : forgetCodec.writeValue (forgetValue "bob") = .ok bobPayload :=
  (if_neg forgetValue_ne).trans (if_pos rfl)

theorem forgetDigests_blob {header : Bytes} (h : header.length = 9) (name : Bytes) :
    forgetDigests (header ++ forgetPayload name) =
      if forgetPayload name = annPayload then annDigest else bobDigest := by
  have hlong : header ++ forgetPayload name ≠
      [97, 103, 101, 110, 116, 58, 97, 117, 116, 104, 122] := by
    intro heq
    have hlen := congrArg List.length heq
    rw [List.length_append, h, forgetPayload_length] at hlen
    change 9 + (name.length + 163) = 11 at hlen
    omega
  rw [forgetDigests, if_neg hlong, ← h, List.drop_left]

/-- The record of a forget whose payload is written. -/
theorem forgetCall_serialize {principal : String} {name : Bytes}
    (hwrite : forgetCodec.writeValue (forgetValue principal) = .ok (forgetPayload name))
    (hname : name.length = 3) (hguard : guardMsgpackShape (forgetPayload name) = .ok ())
    (hfinite : (forgetValue principal).allFinite = true) :
    ∃ blob, forgetCodec.serializeGrain ((forgetCall principal).observation 0) 0 =
      .ok (blob, if forgetPayload name = annPayload then annDigest else bobDigest) := by
  refine ⟨(forgetCodec.header ((forgetCall principal).observation 0) 0).toBytes ++
    forgetPayload name, ?_⟩
  rw [← forgetDigests_blob (MgHeader.toBytes_length
    (forgetCodec.header ((forgetCall principal).observation 0) 0)) name]
  have hsize : ¬Core.maxGrainBytes <
      ((forgetCodec.header ((forgetCall principal).observation 0) 0).toBytes ++
        forgetPayload name).length := by
    rw [List.length_append, MgHeader.toBytes_length, forgetPayload_length, hname]
    decide
  have hwrite' : forgetCodec.writeValue (btreeToMsgpackMap
      (((forgetCall principal).observation 0).wireMap forgetCodec.nfc 0)) =
        .ok (forgetPayload name) := hwrite
  have hfinite' : (btreeToMsgpackMap
      (((forgetCall principal).observation 0).wireMap forgetCodec.nfc 0)).allFinite = true :=
    hfinite
  rw [Codec.serializeGrain]
  simp only [hfinite', not_true_eq_false, if_false, hwrite', hguard, hsize, bind, Except.bind,
    pure, Except.pure]
  rfl

theorem bobPayload_ne : bobPayload ≠ annPayload := by decide

theorem annCall_serialize : ∃ blob,
    forgetCodec.serializeGrain ((forgetCall "ann").observation 0) 0 = .ok (blob, annDigest) := by
  have hser := forgetCall_serialize forgetCodec_writes_ann rfl (by decide +kernel)
    (by decide +kernel)
  rwa [← annPayload, if_pos rfl] at hser

theorem bobCall_serialize : ∃ blob,
    forgetCodec.serializeGrain ((forgetCall "bob").observation 0) 0 = .ok (blob, bobDigest) := by
  have hser := forgetCall_serialize forgetCodec_writes_bob rfl (by decide +kernel)
    (by decide +kernel)
  rwa [← bobPayload, if_neg bobPayload_ne] at hser

/-- The forgets of two people in one millisecond. -/
def forgets : List AuditCall := [forgetCall "ann", forgetCall "bob"]

theorem forgets_apart : CallsApart forgetCodec 0 forgets := by
  refine List.pairwise_pair.2 fun halike => ?_
  have hprincipal : "ann" = "bob" := halike.principal
  exact absurd hprincipal (by decide)

theorem forgets_collisionFree (seq : UInt64) :
    CollisionFree forgetCodec 0 (auditObservations seq forgets) := by
  obtain ⟨x, hann⟩ := annCall_serialize
  obtain ⟨y, hbob⟩ := bobCall_serialize
  have hone : ∀ g ∈ auditObservations seq forgets,
      forgetCodec.serializeGrain g 0 = .ok (x, annDigest) ∨
        forgetCodec.serializeGrain g 0 = .ok (y, bobDigest) := by
    intro g hg
    obtain ⟨c, hc, i, rfl⟩ := mem_auditObservations hg
    rw [(AuditCall.Alike.mk rfl rfl rfl rfl rfl rfl rfl : c.Alike forgetCodec.nfc c).serialize_eq
      (fun _ _ => rfl) i 0]
    rcases List.mem_pair.1 hc with rfl | rfl
    · exact .inl hann
    · exact .inr hbob
  intro g hg g' hg' blob blob' hash hblob hblob'
  rcases hone g hg with h | h <;> rcases hone g' hg' with h' | h' <;>
    rw [h] at hblob <;> rw [h'] at hblob' <;> cases hblob
  · cases hblob'
    rfl
  · exact absurd (Prod.mk.inj (Except.ok.inj hblob')).2 (by decide)
  · exact absurd (Prod.mk.inj (Except.ok.inj hblob')).2 (by decide)
  · cases hblob'
    rfl

/-- Two forgets are two records. -/
theorem audit_addresses_forget :
    Kept forgetCodec 0 (auditObservations 0 forgets) :=
  (audit_addresses_iff forgetCodec forgetCodec_lawful (fun _ _ => rfl) 0 0 forgets
    (forgets_collisionFree 0)).2 forgets_apart

/-- **Two forgets in one millisecond share a record.**  SHA-256 has no collision to
blame: the two blobs are equal. -/
theorem audit_records_collapse :
    ¬∀ (K : Codec), K.Lawful → FixesAscii K.nfc → ∀ (now : Int64) (seq : UInt64)
      (calls : List AuditCall), CollisionFree K now (auditObservations seq calls) →
        Kept K now (auditObservations seq calls) := by
  intro h
  have hascii : FixesAscii forgetCodec.nfc := fun _ _ => rfl
  have halike : (forgetCall "ann").Alike forgetCodec.nfc (forgetCall "ann") :=
    ⟨rfl, rfl, rfl, rfl, rfl, rfl, rfl⟩
  have hsame : ∀ i j, forgetCodec.serializeGrain ((forgetCall "ann").observation i) 0 =
      forgetCodec.serializeGrain ((forgetCall "ann").observation j) 0 := fun i j =>
    halike.serialize_eq hascii i j
  obtain ⟨blob, hser⟩ := annCall_serialize
  have hsha : CollisionFree forgetCodec 0
      (auditObservations 0 [forgetCall "ann", forgetCall "ann"]) := by
    intro g hg g' hg' b b' x hb hb'
    obtain ⟨c, hc, i, rfl⟩ := mem_auditObservations hg
    obtain ⟨d, hd, j, rfl⟩ := mem_auditObservations hg'
    simp only [List.mem_cons, List.not_mem_nil, or_false, or_self] at hc hd
    subst hc hd
    rw [hsame i j, hb'] at hb
    cases hb
    rfl
  have hkept := h forgetCodec forgetCodec_lawful hascii 0 0
    [forgetCall "ann", forgetCall "ann"] hsha
  refine (List.pairwise_cons.1 hkept.1).1 _ List.mem_cons_self blob blob annDigest annDigest ?_ ?_
    rfl
  · exact hser
  · rw [← hser]
    exact hsame _ _

end Deja
