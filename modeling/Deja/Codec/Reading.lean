import Deja.Codec.Canonical

/-!
# When a field comes back

For every kind of field: reading what the serializer wrote gives what the field
means exactly if the field is kept.  A map of fields is one application of
`got_map_kept_iff`, with the fact that shortening and expanding a key twice is
doing it once.
-/

namespace Deja

variable {nfc : String → String}

/-! ## JSON -/

namespace Json

/-- The values directly inside a value. -/
def children : Json → List Json
  | .arr xs => xs
  | .obj fields => fields.map Prod.snd
  | _ => []

theorem sizeOf_children {v w : Json} (h : w ∈ v.children) : sizeOf w < sizeOf v := by
  cases v with
  | arr xs =>
    have : sizeOf w < sizeOf xs := List.sizeOf_lt_of_mem h
    simp only [arr.sizeOf_spec]
    omega
  | obj fields =>
    obtain ⟨x, hx, rfl⟩ := List.mem_map.1 h
    have := List.sizeOf_lt_of_mem hx
    obtain ⟨k, v⟩ := x
    simp only [obj.sizeOf_spec, Prod.mk.sizeOf_spec] at this ⊢
    omega
  | _ => exact nomatch h

/-- Induction over the values inside a value. -/
theorem induction {P : Json → Prop} (h : ∀ v, (∀ w ∈ v.children, P w) → P v) (v : Json) : P v :=
  h v fun w _ => induction h w
termination_by sizeOf v
decreasing_by exact sizeOf_children ‹_›

theorem normalizedAll_eq_map (xs : List Json) :
    normalizedAll nfc xs = xs.map (normalized nfc) := by
  induction xs with
  | nil => rfl
  | cons x xs ih =>
    rw [normalizedAll, ih]
    rfl

theorem normalizedFields_eq_map (fields : List (String × Json)) :
    normalizedFields nfc fields = fields.map fun x => (nfc x.1, x.2.normalized nfc) := by
  induction fields with
  | nil => rfl
  | cons x fields ih =>
    obtain ⟨k, v⟩ := x
    rw [normalizedFields, ih]
    rfl

end Json

/-- What `serde_json` can hold is written as a value the reader accepts. -/
theorem jsonToMsgpack_sane {j : Json} : j.Serde →
    (jsonToMsgpack nfc j).Sane ∧ (jsonToMsgpack nfc j).allFinite = true := by
  induction j using Json.induction with
  | h j ih =>
    intro hserde
    cases j with
    | null => exact ⟨trivial, rfl⟩
    | bool b => exact ⟨trivial, rfl⟩
    | int i => exact ⟨hserde, rfl⟩
    | float bits => exact ⟨trivial, hserde⟩
    | str s => exact ⟨trivial, rfl⟩
    | arr xs =>
      have hserde := Json.serdeAll_iff.1 hserde
      rw [jsonToMsgpack, jsonsToMsgpack_eq_map]
      refine ⟨Value.saneAll_iff.2 ?_, Value.allFiniteList_iff.2 ?_⟩
      · exact List.forall_mem_map.2 fun x hx => (ih x hx (hserde x hx)).1
      · exact List.forall_mem_map.2 fun x hx => (ih x hx (hserde x hx)).2
    | obj fields =>
      have hserde := Json.serdeFields_iff.1 hserde.2
      have hall : ∀ x ∈ Sorted.ofList (fieldsToMsgpack nfc fields),
          x.2.Sane ∧ x.2.allFinite = true := fun x hx => by
        have hx := Sorted.mem_of_mem_ofList hx
        rw [fieldsToMsgpack_eq_map] at hx
        obtain ⟨y, hy, rfl⟩ := List.mem_map.1 hx
        exact ih y.2 (List.mem_map_of_mem hy) (hserde y hy)
      exact ⟨btree_sane fun x hx => (hall x hx).1, btree_allFinite.2 fun x hx => (hall x hx).2⟩

theorem KeyMode.key_idem (m : KeyMode) (s : String) : m.key (m.key s) = m.key s := by
  cases m with
  | omsTop => exact expandField_idem s
  | contextTop => exact expandContextField_idem s
  | workflowEdgeMap => exact workflowEdgeFieldMap_table.lengthen_lengthen s
  | relatedToMap => exact relatedToFieldMap_table.lengthen_lengthen s
  | verbatim => rfl
  | workflowEdgeArray => rfl
  | relatedToArray => rfl

/-- A JSON value comes back normalized exactly if its keys do. -/
theorem got_json_iff {j : Json} : j.Serde → ∀ m : KeyMode,
    got m (jsonToMsgpack nfc j) = j.normalized nfc ↔ j.Kept nfc m := by
  induction j using Json.induction with
  | h j ih =>
    intro hserde m
    cases j with
    | null => exact iff_of_true rfl trivial
    | bool b => exact iff_of_true rfl trivial
    | int i => exact iff_of_true (got_of_ok (if_pos hserde)) trivial
    | float bits => exact iff_of_true (got_of_ok (if_pos hserde)) trivial
    | str s => exact iff_of_true rfl trivial
    | arr xs =>
      have hserde := Json.serdeAll_iff.1 hserde
      rw [jsonToMsgpack, jsonsToMsgpack_eq_map, got_array fun x hx => ?_, Json.normalized,
        Json.normalizedAll_eq_map, Json.arr.injEq, List.map_map, Json.Kept, Json.keptAll_iff,
        List.map_inj_left]
      · exact forall₂_congr fun x hx => ih x hx (hserde x hx) m.element
      · obtain ⟨y, hy, rfl⟩ := List.mem_map.1 hx
        exact jsonToMsgpack_sane (hserde y hy)
    | obj fields =>
      have hserde := Json.serdeFields_iff.1 hserde.2
      have hsane : ∀ x ∈ fields, (jsonToMsgpack nfc x.2).Sane := fun x hx =>
        (jsonToMsgpack_sane (hserde x hx)).1
      rw [jsonToMsgpack, fieldsToMsgpack_eq_map, Json.normalized, Json.normalizedFields_eq_map,
        got_map_kept_iff hsane ?_ ?_, Json.Kept, Json.keptFields_iff]
      · refine and_congr_right fun _ => and_congr_right fun _ => forall₂_congr fun x hx => ?_
        exact ih x.2 (List.mem_map_of_mem hx) (hserde x hx) _
      · intro x hx
        obtain ⟨y, hy, rfl⟩ := List.mem_map.1 (Sorted.mem_of_mem_ofList hx)
        exact (jsonToMsgpack_sane (hserde y hy)).2
      · exact Sorted.fixed_of_perm m.key_idem

/-! ## Atoms -/

theorem int64_inRange (i : Int64) : -(2 ^ 63) ≤ i.toInt ∧ i.toInt < 2 ^ 64 := by
  have h₁ := i.le_toInt
  have h₂ := i.toInt_lt
  omega

theorem uint64_inRange (n : UInt64) : -(2 ^ 63) ≤ (n.toNat : ℤ) ∧ (n.toNat : ℤ) < 2 ^ 64 := by
  have := n.toNat_lt
  omega

theorem uint32_inRange (n : UInt32) : -(2 ^ 63) ≤ (n.toNat : ℤ) ∧ (n.toNat : ℤ) < 2 ^ 64 := by
  have := n.toNat_lt
  omega

theorem got_integer {m : KeyMode} {i : ℤ} (h : -(2 ^ 63) ≤ i ∧ i < 2 ^ 64) :
    got m (.integer i) = .int i :=
  got_of_ok (if_pos h)

theorem Atom.value_sane (a : Atom) : (a.value nfc).Sane := by
  cases a with
  | text | name | flag | f64 | binary => trivial
  | texts l => exact Value.saneAll_iff.2 (List.forall_mem_map.2 fun _ _ => trivial)
  | i64 i => exact int64_inRange i
  | u64 n => exact uint64_inRange n
  | u32 n => exact uint32_inRange n
  | json j => exact (jsonToMsgpack_sane j.serde).1
  | jsons l =>
    exact Value.saneAll_iff.2 (List.forall_mem_map.2 fun j _ => (jsonToMsgpack_sane j.serde).1)

theorem got_atom_iff (m : KeyMode) (a : Atom) :
    got m (a.value nfc) = a.means nfc ↔ a.Kept nfc m := by
  cases a with
  | text | name | flag | binary => exact iff_of_true rfl trivial
  | texts l =>
    refine iff_of_true ?_ trivial
    have hall : ∀ x ∈ l.map (nfcString nfc), x.Sane ∧ x.allFinite = true :=
      List.forall_mem_map.2 fun _ _ => ⟨trivial, rfl⟩
    rw [Atom.value, got_array hall, List.map_map]
    rfl
  | i64 i => exact iff_of_true (got_integer (int64_inRange i)) trivial
  | u64 n => exact iff_of_true (got_integer (uint64_inRange n)) trivial
  | u32 n => exact iff_of_true (got_integer (uint32_inRange n)) trivial
  | f64 bits =>
    by_cases h : isFinite bits = true
    · exact iff_of_true (got_of_ok (if_pos h)) h
    · refine iff_of_false (fun heq => ?_) h
      have hnull : got m (.f64 bits) = .null := by
        rw [got, msgpackToJson, if_neg h]
        rfl
      exact Json.noConfusion (hnull.symm.trans heq)
  | json j => exact got_json_iff j.serde m
  | jsons l =>
    have hall : ∀ x ∈ l.map fun j => jsonToMsgpack nfc j.json, x.Sane ∧ x.allFinite = true :=
      List.forall_mem_map.2 fun j _ => jsonToMsgpack_sane j.serde
    rw [Atom.value, got_array hall, List.map_map, Atom.means, Json.arr.injEq, List.map_inj_left]
    exact forall₂_congr fun j _ => got_json_iff j.serde _

/-! ## Records, tables and contexts -/

/-- A field whose parts have distinct names, in a place where the reader expands
what the writer shortened. -/
def Field.Regular (m : KeyMode) : Field → Prop
  | atom _ => True
  | context _ => m = .contextTop
  | table l => m = .verbatim ∧ (l.map Prod.fst).Nodup
  | record l => m = .verbatim ∧ (l.map Prod.fst).Nodup
  | records short l =>
    (∀ s, m.element.key (short (m.element.key (short s))) = m.element.key (short s)) ∧
      ∀ r ∈ l, (r.map Prod.fst).Nodup

theorem recordValue_sane (short : String → String) (entries : List (String × Option Atom)) :
    (recordValue nfc short entries).Sane := by
  refine btree_sane fun x hx => ?_
  obtain ⟨y, -, rfl⟩ := List.mem_map.1 (Sorted.mem_of_mem_ofList hx)
  exact y.2.value_sane

theorem got_record_iff {m : KeyMode} {short : String → String}
    {entries : List (String × Option Atom)} (hnames : (entries.map Prod.fst).Nodup)
    (hidem : ∀ s, m.key (short (m.key (short s))) = m.key (short s))
    (hfinite : (recordValue nfc short entries).allFinite = true) :
    got m (recordValue nfc short entries) = recordMeans nfc entries ↔
      RecordKept nfc m short entries := by
  have hwritten : ((written entries).map Prod.fst).Nodup :=
    hnames.sublist (written_sublist entries)
  have hiff := @got_map_kept_iff (String × Atom) m (written entries) (fun x => short x.1)
    Prod.fst (fun x => x.2.value nfc) (fun x => x.2.means nfc) (fun x _ => x.2.value_sane)
    (btree_allFinite.1 hfinite) (Sorted.fixed_of_perm (f := fun s => m.key (short s)) hidem)
  rw [recordValue, recordMeans, hiff, and_iff_right hwritten, ← forall₂_and, RecordKept]
  exact forall₂_congr fun x _ => and_congr_right fun _ => got_atom_iff _ x.2

theorem got_context_iff {j : Json} (hserde : j.Serde) :
    got .contextTop (jsonToMsgpackWithKeyCompaction nfc j) = j.normalized nfc ↔
      ContextKept nfc j := by
  cases j with
  | obj fields =>
    have hserde := Json.serdeFields_iff.1 hserde.2
    rw [jsonToMsgpackWithKeyCompaction, fieldsToMsgpack_eq_map, List.map_map, Json.normalized,
      Json.normalizedFields_eq_map]
    refine (@got_map_kept_iff (String × Json) .contextTop fields
      (fun x => compactField (nfc x.1)) (fun x => nfc x.1) (fun x => jsonToMsgpack nfc x.2)
      (fun x => x.2.normalized nfc) (fun x hx => (jsonToMsgpack_sane (hserde x hx)).1) ?_
      (Sorted.fixed_of_perm (f := fun s => expandContextField (compactField s))
        contextKey_idem)).trans ?_
    · intro x hx
      obtain ⟨y, hy, rfl⟩ := List.mem_map.1 (Sorted.mem_of_mem_ofList hx)
      exact (jsonToMsgpack_sane (hserde y hy)).2
    · refine and_congr_right fun _ => and_congr_right fun _ => forall₂_congr fun x hx => ?_
      exact got_json_iff (hserde x hx) .verbatim
  | _ => exact got_json_iff hserde .contextTop

theorem got_table_iff (hidem : ∀ s, nfc (nfc s) = nfc s) {l : List (String × Atom)}
    (hkeys : (l.map Prod.fst).Nodup)
    (hfinite : ((Field.table l).value nfc).allFinite = true) :
    got .verbatim ((Field.table l).value nfc) = (Field.table l).means nfc ↔
      (Field.table l).Kept nfc .verbatim := by
  have hfixed : (l.map fun x => x.1).Perm (l.map fun x => nfc x.1) → ∀ x ∈ l, x.1 = nfc x.1 :=
    fun hp x hx => (Sorted.fixed_of_perm hidem hp.symm x hx).symm
  have hiff := @got_map_kept_iff (String × Atom) .verbatim l Prod.fst (fun x => nfc x.1)
    (fun x => x.2.value nfc) (fun x => x.2.means nfc) (fun x _ => x.2.value_sane)
    (btree_allFinite.1 hfinite) hfixed
  rw [Field.value, Field.means, hiff, Field.Kept]
  constructor
  · rintro ⟨-, hkey, hvalue⟩ x hx
    exact ⟨(hkey x hx).symm, (got_atom_iff _ x.2).1 (hvalue x hx)⟩
  · intro h
    refine ⟨?_, fun x hx => (h x hx).1.symm, fun x hx => (got_atom_iff _ x.2).2 (h x hx).2⟩
    rwa [List.map_congr_left fun x hx => (h x hx).1]

theorem Field.value_sane {f : Field} : (f.value nfc).Sane := by
  cases f with
  | atom a => exact a.value_sane
  | context j =>
    cases hj : j.json with
    | obj fields =>
      have hserde := Json.serdeFields_iff.1 (hj ▸ j.serde : Json.Serde (.obj fields)).2
      rw [Field.value, hj, jsonToMsgpackWithKeyCompaction, fieldsToMsgpack_eq_map, List.map_map]
      refine btree_sane fun x hx => ?_
      obtain ⟨y, hy, rfl⟩ := List.mem_map.1 (Sorted.mem_of_mem_ofList hx)
      exact (jsonToMsgpack_sane (hserde y hy)).1
    | _ =>
      rw [Field.value, hj, jsonToMsgpackWithKeyCompaction]
      · rw [← hj]
        exact (jsonToMsgpack_sane j.serde).1
      · exact fun _ => Json.noConfusion
  | table l =>
    refine btree_sane fun x hx => ?_
    obtain ⟨y, -, rfl⟩ := List.mem_map.1 (Sorted.mem_of_mem_ofList hx)
    exact y.2.value_sane
  | record l => exact recordValue_sane id l
  | records short l =>
    exact Value.saneAll_iff.2 (List.forall_mem_map.2 fun r _ => recordValue_sane short r)

/-- **A field comes back as what it means exactly if it is kept.** -/
theorem got_field_iff (hidem : ∀ s, nfc (nfc s) = nfc s) {m : KeyMode} {f : Field}
    (hregular : f.Regular m) (hfinite : (f.value nfc).allFinite = true) :
    got m (f.value nfc) = f.means nfc ↔ f.Kept nfc m := by
  cases f with
  | atom a => exact got_atom_iff m a
  | context j =>
    obtain rfl : m = .contextTop := hregular
    exact got_context_iff j.serde
  | table l =>
    obtain ⟨rfl, hkeys⟩ := hregular
    exact got_table_iff hidem hkeys hfinite
  | record l =>
    obtain ⟨rfl, hnames⟩ := hregular
    exact got_record_iff hnames (fun _ => rfl) hfinite
  | records short l =>
    obtain ⟨hshort, hnames⟩ := hregular
    have hfinite : ∀ r ∈ l, (recordValue nfc short r).allFinite = true :=
      List.forall_mem_map.1 (Value.allFiniteList_iff.1 hfinite)
    have hall : ∀ x ∈ l.map (recordValue nfc short), x.Sane ∧ x.allFinite = true :=
      List.forall_mem_map.2 fun r hr => ⟨recordValue_sane short r, hfinite r hr⟩
    rw [Field.value, got_array hall, List.map_map, Field.means, Json.arr.injEq,
      List.map_inj_left]
    exact forall₂_congr fun r hr => got_record_iff (hnames r hr) hshort (hfinite r hr)

end Deja
