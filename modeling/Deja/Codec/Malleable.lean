import Deja.Codec.Value
import Deja.Lib.Run

/-!
# What the reader forgets

Two payloads that decode to one field map need not be one byte string.  `Alike`
lists what `msgpack_to_json` forgets about a value: how a float is stored, that a
string was a binary or no UTF-8, the order of the entries of a map, and every
entry that a later one of the same expanded name overwrites.  What the msgpack
reader forgets already (the width of a length or an integer) shows as equal
values.

`msgpackToJson_eq_iff` shows that nothing else is forgotten, and
`deserializeBlob_injective_iff` says for which pairs of blobs the address is
therefore unique.
-/

namespace Deja

/-! ## Values that read alike -/

namespace Value

/-- The float a value stands for. -/
def number : Value → Option UInt64
  | .f32 bits => some (widen bits)
  | .f64 bits => some bits
  | _ => none

/-- The text a value stands for. -/
def text : Value → Option String
  | .string s => some s
  | .invalid _ => some ""
  | .binary b => some (String.ofList (hexEncode b))
  | _ => none

theorem text_of_number {v : Value} {x : UInt64} (h : v.number = some x) : v.text = none := by
  cases v with
  | f32 | f64 => rfl
  | _ => cases h

/-- The values directly inside a value, keys aside. -/
def children : Value → List Value
  | .array xs => xs
  | .map pairs => pairs.map Prod.snd
  | _ => []

theorem sizeOf_children {v w : Value} (h : w ∈ v.children) : sizeOf w < sizeOf v := by
  cases v with
  | array xs =>
    have hlt : sizeOf w < sizeOf xs := List.sizeOf_lt_of_mem h
    simp only [array.sizeOf_spec]
    omega
  | map pairs =>
    obtain ⟨p, hp, rfl⟩ := List.mem_map.1 h
    have hlt := List.sizeOf_lt_of_mem hp
    have hp2 : sizeOf p = 1 + sizeOf p.1 + sizeOf p.2 := by cases p; rfl
    simp only [map.sizeOf_spec]
    omega
  | _ => exact nomatch h

/-- Induction over the values inside a value. -/
theorem induction {P : Value → Prop} (h : ∀ v, (∀ w ∈ v.children, P w) → P v) (v : Value) :
    P v :=
  h v fun w _ => induction h w
termination_by sizeOf v
decreasing_by exact sizeOf_children ‹_›

end Value

/-- The value under a name: that of the last entry whose key stands for it. -/
def lastUnder (m : KeyMode) (name : String) : List (Value × Value) → Option Value
  | [] => none
  | (k, v) :: pairs =>
    match lastUnder m name pairs with
    | some w => some w
    | none => if k.asKey.toOption.map m.key = some name then some v else none

/-- Two values the reader does not tell apart. -/
inductive Alike : KeyMode → Value → Value → Prop
  | nil (m : KeyMode) : Alike m .nil .nil
  | boolean (m : KeyMode) (b : Bool) : Alike m (.boolean b) (.boolean b)
  | integer (m : KeyMode) (i : ℤ) : Alike m (.integer i) (.integer i)
  | number {m : KeyMode} {v w : Value} {x : UInt64} (hv : v.number = some x)
      (hw : w.number = some x) : Alike m v w
  | text {m : KeyMode} {v w : Value} {s : String} (hv : v.text = some s)
      (hw : w.text = some s) : Alike m v w
  | array {m : KeyMode} {xs ys : List Value} (length : xs.length = ys.length)
      (h : ∀ (i : ℕ) x y, xs[i]? = some x → ys[i]? = some y → Alike m.element x y) :
      Alike m (.array xs) (.array ys)
  | map {m : KeyMode} {ps qs : List (Value × Value)}
      (names : ∀ name, lastUnder m name ps = none ↔ lastUnder m name qs = none)
      (h : ∀ name v w, lastUnder m name ps = some v → lastUnder m name qs = some w →
        Alike (m.child name) v w) : Alike m (.map ps) (.map qs)

/-! ## What a value reads as -/

/-- `Reads m v j`: the JSON `j` is what `v` says under the key mode `m`. -/
inductive Reads : KeyMode → Value → Json → Prop
  | nil (m : KeyMode) : Reads m .nil .null
  | boolean (m : KeyMode) (b : Bool) : Reads m (.boolean b) (.bool b)
  | integer (m : KeyMode) (i : ℤ) : Reads m (.integer i) (.int i)
  | number {m : KeyMode} {v : Value} {x : UInt64} (h : v.number = some x) : Reads m v (.float x)
  | text {m : KeyMode} {v : Value} {s : String} (h : v.text = some s) : Reads m v (.str s)
  | array {m : KeyMode} {xs : List Value} {js : List Json} (length : xs.length = js.length)
      (h : ∀ (i : ℕ) x j, xs[i]? = some x → js[i]? = some j → Reads m.element x j) :
      Reads m (.array xs) (.arr js)
  | map {m : KeyMode} {ps : List (Value × Value)} {fields : List (String × Json)}
      (sorted : Sorted.Keys fields)
      (names : ∀ name, lastUnder m name ps = none ↔ fields.lookup name = none)
      (h : ∀ name v j, lastUnder m name ps = some v → fields.lookup name = some j →
        Reads (m.child name) v j) : Reads m (.map ps) (.obj fields)

theorem elementsToJson_cons {m : KeyMode} {x : Value} {xs : List Value} {js : List Json}
    (h : elementsToJson m (x :: xs) = .ok js) :
    ∃ j rest, msgpackToJson m x = .ok j ∧ elementsToJson m xs = .ok rest ∧ js = j :: rest := by
  rw [elementsToJson] at h
  cases hx : msgpackToJson m x with
  | error e =>
    rw [hx] at h
    cases h
  | ok j =>
    cases hxs : elementsToJson m xs with
    | error e =>
      rw [hx, hxs] at h
      cases h
    | ok rest =>
      rw [hx, hxs] at h
      exact ⟨j, rest, rfl, rfl, (Except.ok.inj h).symm⟩

theorem elementsToJson_ok {m : KeyMode} {xs : List Value} {js : List Json}
    (h : elementsToJson m xs = .ok js) :
    xs.length = js.length ∧
      ∀ (i : ℕ) x j, xs[i]? = some x → js[i]? = some j → msgpackToJson m x = .ok j := by
  induction xs generalizing js with
  | nil =>
    cases h
    exact ⟨rfl, by simp⟩
  | cons x xs ih =>
    obtain ⟨j, rest, hx, hxs, rfl⟩ := elementsToJson_cons h
    obtain ⟨hlen, hall⟩ := ih hxs
    refine ⟨by simp [hlen], fun i y k hy hk => ?_⟩
    cases i with
    | zero =>
      cases hy
      cases hk
      exact hx
    | succ i => exact hall i y k hy hk

theorem pairsToJson_cons {m : KeyMode} {k v : Value} {pairs : List (Value × Value)}
    {fields : List (String × Json)} (h : pairsToJson m ((k, v) :: pairs) = .ok fields) :
    ∃ raw j rest, k.asKey = .ok raw ∧ msgpackToJson (m.child (m.key raw)) v = .ok j ∧
      pairsToJson m pairs = .ok rest ∧ fields = (m.key raw, j) :: rest := by
  rw [pairsToJson] at h
  cases hk : k.asKey with
  | error e =>
    rw [hk] at h
    cases h
  | ok raw =>
    cases hv : msgpackToJson (m.child (m.key raw)) v with
    | error e =>
      simp only [hk, bind, Except.bind, hv] at h
      cases h
    | ok j =>
      cases hrest : pairsToJson m pairs with
      | error e =>
        simp only [hk, bind, Except.bind, hv, hrest] at h
        cases h
      | ok rest =>
        simp only [hk, bind, Except.bind, hv, hrest] at h
        exact ⟨raw, j, rest, rfl, hv, rfl, (Except.ok.inj h).symm⟩

theorem lookup_reverse_cons {k name : String} {j : Json} {fields : List (String × Json)} :
    ((k, j) :: fields).reverse.lookup name =
      (fields.reverse.lookup name).or (if name = k then some j else none) := by
  rw [List.reverse_cons, List.lookup_append, Sorted.lookup_cons_ite]
  rfl

/-- Under every name the conversion keeps the last entry. -/
theorem pairsToJson_ok {m : KeyMode} {pairs : List (Value × Value)}
    {fields : List (String × Json)} (h : pairsToJson m pairs = .ok fields) (name : String) :
    (lastUnder m name pairs = none ↔ fields.reverse.lookup name = none) ∧
      ∀ v j, lastUnder m name pairs = some v → fields.reverse.lookup name = some j →
        msgpackToJson (m.child name) v = .ok j := by
  induction pairs generalizing fields with
  | nil =>
    cases h
    exact ⟨⟨fun _ => rfl, fun _ => rfl⟩, fun v j hv => nomatch hv⟩
  | cons p pairs ih =>
    obtain ⟨k, v⟩ := p
    obtain ⟨raw, j, rest, hk, hv, hrest, rfl⟩ := pairsToJson_cons h
    obtain ⟨hnone, hsome⟩ := ih hrest
    rw [lookup_reverse_cons, lastUnder]
    cases hlast : lastUnder m name pairs with
    | some w =>
      cases hlook : rest.reverse.lookup name with
      | none => rw [hnone.2 hlook] at hlast; cases hlast
      | some j' =>
        refine ⟨by simp, fun v' k' hv' hk' => ?_⟩
        cases hv'
        cases hk'
        exact hsome w j' hlast hlook
    | none =>
      rw [hnone.1 hlast]
      simp only [hk, Except.toOption, Option.map_some, Option.some.injEq, Option.none_or]
      by_cases hname : m.key raw = name
      · subst hname
        rw [if_pos rfl, if_pos rfl]
        refine ⟨by simp, fun v' k' hv' hk' => ?_⟩
        cases hv'
        cases hk'
        exact hv
      · rw [if_neg hname, if_neg (Ne.symm hname)]
        exact ⟨⟨fun _ => rfl, fun _ => rfl⟩, fun v' k' hv' => nomatch hv'⟩

theorem lastUnder_mem {m : KeyMode} {name : String} {pairs : List (Value × Value)} {v : Value}
    (h : lastUnder m name pairs = some v) : v ∈ pairs.map Prod.snd := by
  induction pairs with
  | nil => cases h
  | cons p pairs ih =>
    rw [lastUnder] at h
    cases hlast : lastUnder m name pairs with
    | some w =>
      rw [hlast] at h
      exact List.mem_cons_of_mem _ (ih (hlast.trans h))
    | none =>
      rw [hlast] at h
      simp only [Option.ite_none_right_eq_some, Option.some.injEq] at h
      rw [← h.2]
      exact List.mem_cons_self

/-- The conversion computes what a value reads as. -/
theorem msgpackToJson_reads {v : Value} : ∀ {m : KeyMode} {j : Json},
    msgpackToJson m v = .ok j → Reads m v j := by
  induction v using Value.induction with
  | h v ih =>
    intro m j h
    cases v with
    | nil =>
      cases h
      exact .nil m
    | boolean b =>
      cases h
      exact .boolean m b
    | integer i =>
      rw [msgpackToJson] at h
      split_ifs at h
      cases h
      exact .integer m i
    | f32 bits | f64 bits =>
      rw [msgpackToJson] at h
      split_ifs at h
      cases h
      exact .number rfl
    | string s | invalid s | binary s =>
      cases h
      exact .text rfl
    | array xs =>
      rw [msgpackToJson] at h
      obtain ⟨js, hjs, rfl⟩ := except_map_ok h
      obtain ⟨hlen, hall⟩ := elementsToJson_ok hjs
      exact .array hlen fun i x j hx hj => ih x (List.mem_of_getElem? hx) (hall i x j hx hj)
    | map pairs =>
      rw [msgpackToJson] at h
      obtain ⟨fields, hfields, rfl⟩ := except_map_ok h
      refine .map (Sorted.keys_ofList fields) (fun name => ?_) fun name v j hv hj => ?_
      · rw [Sorted.lookup_ofList]
        exact (pairsToJson_ok hfields name).1
      · rw [Sorted.lookup_ofList] at hj
        exact ih v (lastUnder_mem hv) ((pairsToJson_ok hfields name).2 v j hv hj)
    | ext type data => cases h

/-! ## Alike exactly when read alike -/

/-- Values that read as one JSON value are alike. -/
theorem Reads.alike {v : Value} : ∀ {m : KeyMode} {w : Value} {j : Json},
    Reads m v j → Reads m w j → Alike m v w := by
  induction v using Value.induction with
  | h v ih =>
    intro m w j hv hw
    cases hv with
    | nil =>
      cases hw
      exact .nil m
    | boolean _ b =>
      cases hw
      exact .boolean m b
    | integer _ i =>
      cases hw
      exact .integer m i
    | number hx =>
      cases hw with
      | number hy => exact .number hx hy
    | text hs =>
      cases hw with
      | text ht => exact .text hs ht
    | @array _ xs js hlen hxs =>
      cases hw with
      | array hlen' hys =>
        refine .array (hlen.trans hlen'.symm) fun i x y hx hy => ?_
        obtain ⟨hi, -⟩ := List.getElem?_eq_some_iff.1 hx
        have hj : js[i]? = some js[i] := List.getElem?_eq_getElem (hlen ▸ hi)
        exact ih x (List.mem_of_getElem? hx) (hxs i x _ hx hj) (hys i y _ hy hj)
    | @map _ ps fields _ hnames hps =>
      cases hw with
      | map _ hnames' hqs =>
        refine .map (fun name => (hnames name).trans (hnames' name).symm)
          fun name x y hx hy => ?_
        cases hlook : fields.lookup name with
        | none => rw [(hnames name).2 hlook] at hx; cases hx
        | some j => exact ih x (lastUnder_mem hx) (hps name x j hx hlook) (hqs name y j hy hlook)

theorem Reads.of_number {m : KeyMode} {v : Value} {j : Json} {x : UInt64} (hr : Reads m v j)
    (h : v.number = some x) : j = .float x := by
  cases hr with
  | number hx =>
    rw [h] at hx
    cases hx
    rfl
  | text hs => rw [Value.text_of_number h] at hs; cases hs
  | nil | boolean | integer | array | map => exact nomatch h

theorem Reads.of_text {m : KeyMode} {v : Value} {j : Json} {s : String} (hr : Reads m v j)
    (h : v.text = some s) : j = .str s := by
  cases hr with
  | text hs =>
    rw [h] at hs
    cases hs
    rfl
  | number hx => rw [Value.text_of_number hx] at h; cases h
  | nil | boolean | integer | array | map => exact nomatch h

/-- Alike values read as one JSON value. -/
theorem Alike.reads {v w : Value} {m : KeyMode} (h : Alike m v w) : ∀ {j k : Json},
    Reads m v j → Reads m w k → j = k := by
  induction h with
  | nil m =>
    intro j k hv hw
    cases hv with
    | nil =>
      cases hw with
      | nil => rfl
      | number h | text h => exact nomatch h
    | number h | text h => exact nomatch h
  | boolean m b =>
    intro j k hv hw
    cases hv with
    | boolean =>
      cases hw with
      | boolean => rfl
      | number h | text h => exact nomatch h
    | number h | text h => exact nomatch h
  | integer m i =>
    intro j k hv hw
    cases hv with
    | integer =>
      cases hw with
      | integer => rfl
      | number h | text h => exact nomatch h
    | number h | text h => exact nomatch h
  | number hx hy =>
    intro j k hv hw
    rw [hv.of_number hx, hw.of_number hy]
  | text hx hy =>
    intro j k hv hw
    rw [hv.of_text hx, hw.of_text hy]
  | array length h ih =>
    intro j k hv hw
    cases hv with
    | number h | text h => exact nomatch h
    | array hlen hxs =>
      cases hw with
      | number h | text h => exact nomatch h
      | array hlen' hys =>
        refine congrArg Json.arr (List.ext_getElem (hlen.symm.trans (length.trans hlen'))
          fun i hi hi' => ?_)
        have hx := List.getElem?_eq_getElem (hlen ▸ hi)
        have hy := List.getElem?_eq_getElem (hlen' ▸ hi')
        exact ih i _ _ hx hy (hxs i _ _ hx (List.getElem?_eq_getElem hi))
          (hys i _ _ hy (List.getElem?_eq_getElem hi'))
  | @map m ps qs names h ih =>
    intro j k hv hw
    cases hv with
    | number h | text h => exact nomatch h
    | @map _ _ fields sorted hnames hps =>
      cases hw with
      | number h | text h => exact nomatch h
      | @map _ _ fields' sorted' hnames' hqs =>
        refine congrArg Json.obj (Sorted.ext sorted sorted' fun name => ?_)
        cases hlp : lastUnder m name ps with
        | none => rw [(hnames name).1 hlp, (hnames' name).1 ((names name).1 hlp)]
        | some v =>
          cases hlq : lastUnder m name qs with
          | none => rw [(names name).2 hlq] at hlp; cases hlp
          | some w =>
            cases hj : fields.lookup name with
            | none => rw [(hnames name).2 hj] at hlp; cases hlp
            | some j =>
              cases hk : fields'.lookup name with
              | none => rw [(hnames' name).2 hk] at hlq; cases hlq
              | some k =>
                rw [ih name v w hlp hlq (hps name v j hlp hj) (hqs name w k hlq hk)]

/-- **Two readable values give one JSON value exactly when they are alike.** -/
theorem msgpackToJson_eq_iff {m : KeyMode} {v w : Value} {j k : Json}
    (hv : msgpackToJson m v = .ok j) (hw : msgpackToJson m w = .ok k) : j = k ↔ Alike m v w := by
  have hj := msgpackToJson_reads hv
  have hk := msgpackToJson_reads hw
  constructor
  · rintro rfl
    exact hj.alike hk
  · intro halike
    exact halike.reads hj hk

/-! ## Blobs -/

namespace Codec

variable {K : Codec}

/-- `K.Holds blob x`: the blob is accepted and its payload is the value `x`. -/
def Holds (K : Codec) (blob : Bytes) (x : Value) : Prop :=
  (∃ out, K.deserializeBlob blob = .ok out) ∧ K.readValue (blob.drop 9) = .ok (x, [])

theorem decodePayload_ok {payload : Bytes} {fields : List (String × Json)}
    (h : K.decodePayload payload = .ok fields) :
    ∃ x, K.readValue payload = .ok (x, []) ∧ msgpackToJson .omsTop x = .ok (.obj fields) := by
  unfold decodePayload at h
  cases hguard : guardMsgpackShape payload with
  | error e =>
    rw [hguard] at h
    cases h
  | ok _ =>
    cases hread : K.readValue payload with
    | error e =>
      rw [hguard, hread] at h
      cases h
    | ok out =>
      obtain ⟨x, rest⟩ := out
      simp only [hguard, hread, bind, Except.bind] at h
      cases rest with
      | cons b rest => cases h
      | nil =>
        refine ⟨x, rfl, ?_⟩
        cases hjson : msgpackToJson .omsTop x with
        | error e =>
          rw [hjson] at h
          cases h
        | ok j =>
          rw [hjson] at h
          cases j with
          | obj fs => rw [Except.ok.inj h]
          | _ => cases h

theorem MgHeader.fromBytes_ok {b : Bytes} {header : MgHeader}
    (h : MgHeader.fromBytes b = .ok header) : b.take 9 = header.toBytes := by
  unfold MgHeader.fromBytes at h
  split at h
  · split_ifs at h
    cases h
    rfl
  · cases h

/-- What an accepted blob is: its header, its value and its fields. -/
theorem deserializeBlob_ok {blob : Bytes} {header : MgHeader} {view : DeserializedGrain}
    (h : K.deserializeBlob blob = .ok (header, view)) :
    blob.take 9 = header.toBytes ∧ ∃ x, K.readValue (blob.drop 9) = .ok (x, []) ∧
      msgpackToJson .omsTop x = .ok (.obj view.fields) := by
  unfold deserializeBlob at h
  simp only [bind, Except.bind, throw, throwThe, MonadExceptOf.throw, pure, Except.pure] at h
  split_ifs at h
  cases hheader : MgHeader.fromBytes (blob.take 9) with
  | error e =>
    rw [hheader] at h
    cases h
  | ok header' =>
    simp only [hheader] at h
    cases htype : GrainType.fromByte header'.grainType with
    | none =>
      simp only [htype] at h
      cases h
    | some ty =>
      simp only [htype] at h
      cases hfields : K.decodePayload (blob.drop 9) with
      | error e =>
        rw [hfields] at h
        cases h
      | ok fields =>
        rw [hfields] at h
        cases h
        have htake := MgHeader.fromBytes_ok hheader
        rw [List.take_take, min_self] at htake
        exact ⟨htake, decodePayload_ok hfields⟩

theorem MgHeader.toBytes_injective {a b : MgHeader} (h : a.toBytes = b.toBytes) : a = b := by
  obtain ⟨v, f, t, n, s⟩ := a
  obtain ⟨v', f', t', n', s'⟩ := b
  simp only [MgHeader.toBytes, List.cons.injEq, and_true] at h
  obtain ⟨rfl, rfl, rfl, h₀, h₁, h₂, h₃, h₄, h₅⟩ := h
  rw [Prod.ext h₀ h₁, Prod.ext h₂ (Prod.ext h₃ (Prod.ext h₄ h₅))]

/-- **When an address is unique.**  Two accepted blobs with one header and one
field map are one blob exactly if that is so of two blobs with one header and
alike payload values. -/
theorem deserializeBlob_injective_iff (K : Codec) (b₁ b₂ : Bytes) :
    (∀ h₁ v₁ h₂ v₂, K.deserializeBlob b₁ = .ok (h₁, v₁) → K.deserializeBlob b₂ = .ok (h₂, v₂) →
        h₁ = h₂ → v₁.fields = v₂.fields → b₁ = b₂) ↔
      ∀ x₁ x₂, K.Holds b₁ x₁ → K.Holds b₂ x₂ → b₁.take 9 = b₂.take 9 →
        Alike .omsTop x₁ x₂ → b₁ = b₂ := by
  constructor
  · rintro h x₁ x₂ ⟨⟨⟨h₁, v₁⟩, hb₁⟩, hx₁⟩ ⟨⟨⟨h₂, v₂⟩, hb₂⟩, hx₂⟩ hheader halike
    obtain ⟨hh₁, y₁, hy₁, hj₁⟩ := deserializeBlob_ok hb₁
    obtain ⟨hh₂, y₂, hy₂, hj₂⟩ := deserializeBlob_ok hb₂
    rw [hx₁] at hy₁
    rw [hx₂] at hy₂
    cases hy₁
    cases hy₂
    have hfields := (msgpackToJson_eq_iff hj₁ hj₂).2 halike
    exact h h₁ v₁ h₂ v₂ hb₁ hb₂
      (MgHeader.toBytes_injective (hh₁.symm.trans (hheader.trans hh₂))) (Json.obj.inj hfields)
  · intro h h₁ v₁ h₂ v₂ hb₁ hb₂ hheader hfields
    obtain ⟨hh₁, x₁, hx₁, hj₁⟩ := deserializeBlob_ok hb₁
    obtain ⟨hh₂, x₂, hx₂, hj₂⟩ := deserializeBlob_ok hb₂
    refine h x₁ x₂ ⟨⟨_, hb₁⟩, hx₁⟩ ⟨⟨_, hb₂⟩, hx₂⟩ (by rw [hh₁, hh₂, hheader]) ?_
    exact (msgpackToJson_eq_iff hj₁ hj₂).1 (by rw [hfields])

/-! ## Two spellings of one grain -/

/-- A codec that reads the two shortest spellings of the empty map. -/
def emptyMaps : Codec where
  readValue
    | 0x80 :: rest => .ok (.map [], rest)
    | 0xDE :: 0 :: 0 :: rest => .ok (.map [], rest)
    | _ => .error (.serialization "msgpack decode error")
  writeValue _ := .ok [0x80]
  nfc s := s
  sha256 b := Hash.ofByte (UInt8.ofNat b.length)

/-- The header of a fact. -/
def factHeader : Bytes := [1, 0, 1, 0, 0, 0, 0, 0, 0]

/-- The map length may be written in one byte or in three. -/
theorem long_length_is_malleable :
    ¬∀ b₁ b₂ h₁ v₁ h₂ v₂, emptyMaps.deserializeBlob b₁ = .ok (h₁, v₁) →
      emptyMaps.deserializeBlob b₂ = .ok (h₂, v₂) → h₁ = h₂ → v₁.fields = v₂.fields →
        b₁ = b₂ := by
  intro h
  have heq := h (factHeader ++ [0x80]) (factHeader ++ [0xDE, 0, 0])
    ⟨1, 0, 1, (0, 0), (0, 0, 0, 0)⟩ ⟨.fact, [], emptyMaps.sha256 (factHeader ++ [0x80])⟩
    ⟨1, 0, 1, (0, 0), (0, 0, 0, 0)⟩ ⟨.fact, [], emptyMaps.sha256 (factHeader ++ [0xDE, 0, 0])⟩
    rfl rfl rfl rfl
  exact absurd heq (by decide)

end Codec

end Deja
