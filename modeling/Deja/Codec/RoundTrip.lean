import Deja.Codec.Reading

/-!
# The round trip of a grain

`TypedGrain.setFields` is what is set on a grain, under the long names and
normalized.  Reading the blob of a grain gives exactly these fields when the
grain is `Kept`: nothing is set that the serializer has no arm for, every field
is kept, and the extra keys are distinct, free and their own long names.
-/

namespace Deja

variable {nfc : String → String}

/-! ## What is set -/

/-- Fields of a body the serializer has no arm for. -/
def Body.unwritten : Body → List (String × Option Field)
  | observation g =>
    [("frame_id", g.frameId.map .text), ("sync_group", g.syncGroup.map .text),
      ("compression_ratio", g.compressionRatio.map .f64)]
  | _ => []

/-- Common fields the serializer has no arm for. -/
def GrainCommon.unwritten (c : GrainCommon) : List (String × Option Field) :=
  [("success_count", c.successCount.map .u32), ("failure_count", c.failureCount.map .u32),
    ("supersession_justification", c.supersessionJustification.map .text),
    ("supersession_auth", c.supersessionAuth.map .jsons)]

namespace TypedGrain

/-- All fields the serializer has no arm for. -/
def unwritten (g : TypedGrain) : List (String × Option Field) :=
  g.body.unwritten ++ g.common.unwritten

/-- What is set on the grain: its fields under their long names, and the extra
fields under their own. -/
def setFields (nfc : String → String) (now : Int64) (g : TypedGrain) : List (String × Json) :=
  Sorted.sort ((written (g.fields now ++ g.unwritten)).map (fun x => (x.1, x.2.means nfc)) ++
    g.common.extraFields.entries.map fun x => (nfc x.1, x.2.json.normalized nfc))

/-- Writing and reading keeps the grain. -/
structure Kept (nfc : String → String) (now : Int64) (g : TypedGrain) : Prop where
  unwritten : written g.unwritten = []
  fields : ∀ x ∈ written (g.fields now), x.2.Kept nfc (KeyMode.omsTop.child x.1)
  extraApart : (g.common.extraFields.entries.map fun x => nfc x.1).Nodup
  extraFree : ∀ x ∈ g.common.extraFields.entries,
    nfc x.1 ∉ (written (g.fields now)).map Prod.fst
  extraKeys : ∀ x ∈ g.common.extraFields.entries, expandField (nfc x.1) = nfc x.1
  extra : ∀ x ∈ g.common.extraFields.entries,
    x.2.json.Kept nfc (KeyMode.omsTop.child (nfc x.1))

end TypedGrain

/-! ## The fields of a grain are regular -/

/-- A field, where it is set, is regular in its place. -/
def Shaped (x : String × Option Field) : Prop :=
  ∀ f, x.2 = some f → f.Regular (KeyMode.omsTop.child x.1)

theorem shaped_none (n : String) : Shaped (n, none) := fun _ h => nomatch h

theorem shaped_some {n : String} {f : Field} (h : f.Regular (KeyMode.omsTop.child n)) :
    Shaped (n, some f) := fun _ hf => Option.some.inj hf ▸ h

theorem shaped_map {α : Type} {n : String} {o : Option α} {k : α → Field}
    (h : ∀ a, (k a).Regular (KeyMode.omsTop.child n)) : Shaped (n, o.map k) := fun f hf => by
  obtain ⟨a, -, rfl⟩ := Option.map_eq_some_iff.1 hf
  exact h a

theorem shaped_ifAny {α : Type} {n : String} {l : List α} {k : List α → Field}
    (h : (k l).Regular (KeyMode.omsTop.child n)) : Shaped (n, ifAny l k) := by
  unfold ifAny
  split
  · exact shaped_none n
  · exact shaped_some h

theorem shaped_bind {α : Type} {n : String} {o : Option α} {k : α → Option Field}
    (h : ∀ a, Shaped (n, k a)) : Shaped (n, o.bind k) := fun f hf => by
  obtain ⟨a, -, ha⟩ := Option.bind_eq_some_iff.1 hf
  exact h a f ha

theorem shaped_ite {n : String} {p : Prop} [Decidable p] {o o' : Option Field}
    (h : Shaped (n, o)) (h' : Shaped (n, o')) : Shaped (n, if p then o else o') := by
  split
  · exact h
  · exact h'

theorem nodup_fst_map {ν : Type} {μ : Type} {l : List (String × ν)} {f : ν → μ}
    (h : (l.map Prod.fst).Nodup) : ((l.map fun x => (x.1, f x.2)).map Prod.fst).Nodup := by
  rw [List.map_map]
  exact h

theorem body_shaped (b : Body) (confidence : UInt64) : ∀ x ∈ b.fields confidence, Shaped x := by
  cases b with
  | workflow g =>
    simp only [Body.fields, List.forall_mem_cons]
    refine ⟨shaped_some trivial, shaped_ifAny ⟨?_, ?_⟩, shaped_ifAny ⟨rfl, ?_⟩,
      shaped_ifAny ⟨rfl, ?_⟩, shaped_map fun _ => trivial, List.forall_mem_nil _⟩
    · exact workflowEdgeFieldMap_table.lengthen_shorten_idem
    · exact List.forall_mem_map.2 fun e _ =>
        (by decide : ["src", "dst", "cond", "max_cycles"].Nodup)
    · exact nodup_fst_map g.bindings.keys
    · exact nodup_fst_map g.retries.keys
  | recommendation g =>
    simp only [Body.fields, List.forall_mem_cons]
    refine ⟨shaped_some trivial, shaped_some ⟨rfl, ?_⟩, shaped_some ⟨rfl, ?_⟩,
      shaped_some trivial, ?_, ?_, ?_, shaped_map fun _ => trivial, shaped_map fun _ => trivial,
      shaped_map fun _ => trivial, List.forall_mem_nil _⟩
    · exact (by decide : ["id", "params"].Nodup)
    · exact (by decide : ["template_id", "args"].Nodup)
    · cases g.proposal with
      | cal text => exact shaped_some trivial
      | _ => exact shaped_none _
    · cases g.proposal with
      | edit value => exact shaped_some trivial
      | _ => exact shaped_none _
    · cases g.proposal with
      | data value => exact shaped_some trivial
      | _ => exact shaped_none _
  | _ =>
    simp only [Body.fields, List.forall_mem_cons]
    repeat' first
      | apply And.intro
      | exact shaped_some trivial
      | exact shaped_map fun _ => trivial
      | exact shaped_ifAny trivial
      | exact shaped_bind fun _ => shaped_ifAny trivial
      | exact shaped_bind fun _ => shaped_ite (shaped_none _) (shaped_some trivial)
      | exact shaped_ite (shaped_none _) (shaped_some trivial)
      | exact shaped_ite (shaped_some trivial) (shaped_none _)
      | exact List.forall_mem_nil _

theorem common_shaped (c : GrainCommon) (typeFields : List (String × Option Field))
    (createdAt : Int64) : ∀ x ∈ c.fields typeFields createdAt, Shaped x := by
  have hcontext : KeyMode.omsTop.child (contextName typeFields) = .contextTop := by
    unfold contextName
    split <;> rfl
  simp only [GrainCommon.fields, List.forall_mem_cons]
  refine ⟨shaped_map fun _ => trivial, shaped_some trivial, shaped_some trivial,
    shaped_map fun _ => trivial, shaped_map fun _ => trivial, shaped_ifAny trivial,
    shaped_map fun _ => trivial, shaped_map fun _ => trivial, shaped_map fun _ => trivial,
    shaped_map fun _ => trivial, shaped_map fun _ => trivial, shaped_map fun _ => trivial,
    shaped_map fun _ => trivial, shaped_map fun _ => trivial, shaped_map fun _ => trivial,
    shaped_map fun _ => trivial, shaped_map fun _ => trivial, shaped_map fun _ => trivial,
    shaped_map fun _ => trivial, shaped_map fun _ => trivial, shaped_map fun _ => hcontext,
    shaped_map fun _ => ⟨rfl, ?_⟩, shaped_ifAny ⟨?_, ?_⟩, shaped_ifAny ⟨?_, ?_⟩,
    shaped_ifAny trivial, shaped_ifAny ⟨?_, ?_⟩, List.forall_mem_nil _⟩
  · exact (by decide : ["authorized", "fallback_mode", "locked_until", "mode",
      "protection_reason", "scope", "threshold"].Nodup)
  · exact contentRefFieldMap_table.shorten_shorten
  · exact List.forall_mem_map.2 fun r _ => (by decide : ["checksum", "metadata", "mime_type",
      "modality", "size_bytes", "uri"].Nodup)
  · exact embeddingRefFieldMap_table.shorten_shorten
  · exact List.forall_mem_map.2 fun r _ => (by decide : ["distance_metric", "dimensions",
      "model", "modality_source", "vector_id"].Nodup)
  · exact relatedToFieldMap_table.lengthen_shorten_idem
  · exact List.forall_mem_map.2 fun r _ => (by decide : ["hash", "relation_type",
      "weight"].Nodup)

theorem mem_written {α : Type} {entries : List (String × Option α)} {x : String × α}
    (h : x ∈ written entries) : (x.1, some x.2) ∈ entries := by
  obtain ⟨y, hy, hyx⟩ := List.mem_filterMap.1 h
  obtain ⟨a, ha, rfl⟩ := Option.map_eq_some_iff.1 hyx
  rwa [← ha]

theorem TypedGrain.fields_regular (g : TypedGrain) (now : Int64) :
    ∀ x ∈ written (g.fields now), x.2.Regular (KeyMode.omsTop.child x.1) := by
  intro x hx
  have hmem := mem_written hx
  rw [fields, List.mem_cons, List.mem_append] at hmem
  rcases hmem with htype | hbody | hcommon
  · obtain ⟨n, f⟩ := x
    cases htype
    trivial
  · exact body_shaped _ _ _ hbody _ rfl
  · exact common_shaped _ _ _ _ hcommon _ rfl

/-! ## Every extra field is added -/

variable (nfc) in
theorem length_foldl_addExtra_le (map : List (String × Value)) (l : List (String × JsonValue)) :
    (l.foldl (TypedGrain.addExtra nfc) map).length ≤ map.length + l.length := by
  induction l generalizing map with
  | nil => exact le_rfl
  | cons x l ih =>
    refine (ih _).trans ?_
    have hx : (TypedGrain.addExtra nfc map x).length ≤ map.length + 1 := by
      rw [addExtra_eq]
      split
      · exact Sorted.length_insert_le _ _ _
      · exact Nat.le_succ _
    rw [List.length_cons]
    omega

/-- Where the map grows by every extra field, each is in it. -/
theorem foldl_addExtra_full {map : List (String × Value)} {l : List (String × JsonValue)}
    (hkeys : Sorted.Keys map)
    (h : map.length + l.length ≤ (l.foldl (TypedGrain.addExtra nfc) map).length) :
    l.foldl (TypedGrain.addExtra nfc) map = Sorted.ofList (map ++ l.map (extraEntry nfc)) := by
  induction l generalizing map with
  | nil =>
    rw [List.foldl_nil, List.map_nil, List.append_nil]
    exact (Sorted.ofList_of_keys hkeys).symm
  | cons x l ih =>
    rw [List.foldl_cons, List.length_cons] at h
    have hle := length_foldl_addExtra_le nfc (TypedGrain.addExtra nfc map x) l
    rw [List.foldl_cons]
    by_cases hx : accepted map (nfc x.1) = true
    · rw [addExtra_eq, if_pos hx] at h hle ⊢
      have hlen := Sorted.length_insert_le (nfc x.1) (jsonToMsgpack nfc x.2.json) map
      rw [ih (Sorted.keys_insert hkeys) (by omega), List.map_cons, Sorted.ofList_append,
        Sorted.ofList_append, Sorted.ofList_of_keys hkeys,
        Sorted.ofList_of_keys (Sorted.keys_insert hkeys)]
      rfl
    · rw [addExtra_eq, if_neg hx] at h hle
      omega

theorem mem_foldl_addExtra {map : List (String × Value)} {l : List (String × JsonValue)}
    {e : String × Value} (h : e ∈ l.foldl (TypedGrain.addExtra nfc) map) :
    e ∈ map ∨ e ∈ l.map (extraEntry nfc) := by
  induction l generalizing map with
  | nil => exact .inl h
  | cons x l ih =>
    rcases ih h with hmap | hl
    · rw [addExtra_eq] at hmap
      split at hmap
      · rcases Sorted.mem_of_mem_insert hmap with rfl | hmap
        · exact .inr (List.mem_cons_self ..)
        · exact .inl hmap
      · exact .inl hmap
    · exact .inr (List.mem_cons_of_mem _ hl)

namespace TypedGrain

variable (g : TypedGrain) (now : Int64)

theorem wireMap_sane : ∀ e ∈ g.wireMap nfc now, e.2.Sane := by
  intro e he
  rcases mem_foldl_addExtra he with hbase | hextra
  · obtain ⟨x, -, rfl⟩ := List.mem_map.1 (Sorted.mem_of_mem_ofList hbase)
    exact Field.value_sane
  · obtain ⟨x, -, rfl⟩ := List.mem_map.1 hextra
    exact (jsonToMsgpack_sane x.2.serde).1

/-! ## Entry by entry -/

/-- A field or an extra field. -/
abbrev Entry := (String × Field) ⊕ (String × JsonValue)

/-- The entries of the payload. -/
def entries : List Entry :=
  (written (g.fields now)).map Sum.inl ++ g.common.extraFields.entries.map Sum.inr

/-- The key an entry is written under. -/
def Entry.wire (nfc : String → String) : Entry → String
  | .inl x => compactField x.1
  | .inr x => nfc x.1

/-- The name an entry has. -/
def Entry.name (nfc : String → String) : Entry → String
  | .inl x => x.1
  | .inr x => nfc x.1

/-- The value written for an entry. -/
def Entry.value (nfc : String → String) : Entry → Value
  | .inl x => x.2.value nfc
  | .inr x => jsonToMsgpack nfc x.2.json

/-- What an entry means. -/
def Entry.means (nfc : String → String) : Entry → Json
  | .inl x => x.2.means nfc
  | .inr x => x.2.json.normalized nfc

theorem entries_map {α : Type} (f : Entry → α) :
    (g.entries now).map f = (written (g.fields now)).map (fun x => f (.inl x)) ++
      g.common.extraFields.entries.map fun x => f (.inr x) := by
  rw [entries, List.map_append, List.map_map, List.map_map]
  rfl

/-- Where every extra field is added, the payload is the entries. -/
theorem wireMap_full (h : (g.baseMap nfc now).length + g.common.extraFields.entries.length ≤
      (g.wireMap nfc now).length) :
    g.wireMap nfc now =
      Sorted.ofList ((g.entries now).map fun i => (Entry.wire nfc i, Entry.value nfc i)) := by
  have hkeys : Sorted.Keys (g.baseMap nfc now) := Sorted.keys_ofList _
  rw [wireMap, foldl_addExtra_full hkeys h, baseMap, Sorted.ofList_ofList_append, entries_map]
  rfl

/-- The names come back: a field's always, an extra key where it is not a short form. -/
theorem expand_entries
    (h : ((g.entries now).map fun i => expandField (Entry.wire nfc i)).Perm
      ((g.entries now).map (Entry.name nfc))) :
    ∀ i ∈ g.entries now, expandField (Entry.wire nfc i) = Entry.name nfc i := by
  rw [entries_map, entries_map] at h
  have hfields : ∀ x ∈ written (g.fields now), expandField (compactField x.1) = x.1 :=
    fun x hx => GrainType.expand_compact (g.mem_allNames now hx)
  have hextra : ∀ x ∈ g.common.extraFields.entries, expandField (nfc x.1) = nfc x.1 := by
    refine Sorted.fixed_of_perm expandField_idem ?_
    have hsame := List.map_congr_left (f := fun x : String × Field =>
      expandField (Entry.wire nfc (.inl x))) (g := fun x => Entry.name nfc (.inl x)) hfields
    rw [hsame] at h
    exact (List.perm_append_left_iff _).1 h
  intro i hi
  rcases List.mem_append.1 hi with hi | hi
  · obtain ⟨x, hx, rfl⟩ := List.mem_map.1 hi
    exact hfields x hx
  · obtain ⟨x, hx, rfl⟩ := List.mem_map.1 hi
    exact hextra x hx

theorem field_allFinite (hfinite : (btreeToMsgpackMap (g.wireMap nfc now)).allFinite = true)
    {x : String × Field} (hx : x ∈ written (g.fields now)) : (x.2.value nfc).allFinite = true :=
  btree_allFinite.1 hfinite _ (Assoc.mem_of_lookup (lookup_wireMap nfc hx))

/-- The entries come back under their names exactly if the names are distinct,
each is found again, and each value means what was set. -/
theorem got_entries_iff (hfinite : (btreeToMsgpackMap (g.wireMap nfc now)).allFinite = true)
    (hwire : g.wireMap nfc now =
      Sorted.ofList ((g.entries now).map fun i => (Entry.wire nfc i, Entry.value nfc i))) :
    got .omsTop (btreeToMsgpackMap (g.wireMap nfc now)) =
        .obj (Sorted.sort ((g.entries now).map fun i => (Entry.name nfc i, Entry.means nfc i))) ↔
      ((g.entries now).map (Entry.name nfc)).Nodup ∧
        (∀ i ∈ g.entries now, expandField (Entry.wire nfc i) = Entry.name nfc i) ∧
          ∀ i ∈ g.entries now,
            got (KeyMode.omsTop.child (Entry.name nfc i)) (Entry.value nfc i) =
              Entry.means nfc i := by
  have hsane : ∀ i ∈ g.entries now, (Entry.value nfc i).Sane := by
    rintro (x | x) -
    · exact Field.value_sane
    · exact (jsonToMsgpack_sane x.2.serde).1
  rw [hwire] at hfinite ⊢
  exact got_map_kept_iff (m := .omsTop) hsane (btree_allFinite.1 hfinite) (g.expand_entries now)

theorem setFields_eq (h : written g.unwritten = []) :
    g.setFields nfc now =
      Sorted.sort ((g.entries now).map fun i => (Entry.name nfc i, Entry.means nfc i)) := by
  rw [setFields, entries_map, written, List.filterMap_append]
  rw [written] at h
  rw [h, List.append_nil]
  rfl

variable (nfc) in
theorem baseMap_length : (g.baseMap nfc now).length = (written (g.fields now)).length := by
  rw [(g.baseMap_perm nfc now).length_eq, List.length_map]

variable {g now}

/-- Where the payload reads as what is set, nothing was left out. -/
theorem full_of_got (hfinite : (btreeToMsgpackMap (g.wireMap nfc now)).allFinite = true)
    (h : got .omsTop (btreeToMsgpackMap (g.wireMap nfc now)) = .obj (g.setFields nfc now)) :
    written g.unwritten = [] ∧
      (g.baseMap nfc now).length + g.common.extraFields.entries.length ≤
        (g.wireMap nfc now).length := by
  have hall : ∀ e ∈ g.wireMap nfc now, e.2.Sane ∧ e.2.allFinite = true := fun e he =>
    ⟨g.wireMap_sane now e he, btree_allFinite.1 hfinite e he⟩
  rw [got_map hall] at h
  have hlen := congrArg List.length (Json.obj.inj h)
  rw [setFields, (Sorted.perm_sort _).length_eq, List.length_append, List.length_map,
    List.length_map, written, List.filterMap_append, List.length_append] at hlen
  have hread := Sorted.length_ofList_le ((g.wireMap nfc now).map fun x =>
    (KeyMode.omsTop.key x.1, got (KeyMode.omsTop.child (KeyMode.omsTop.key x.1)) x.2))
  rw [List.length_map] at hread
  have hwire : (g.wireMap nfc now).length ≤
      (g.baseMap nfc now).length + g.common.extraFields.entries.length :=
    length_foldl_addExtra_le nfc _ _
  have hbase := g.baseMap_length nfc now
  rw [written] at hbase
  refine ⟨List.eq_nil_of_length_eq_zero ?_, ?_⟩
  · rw [written]
    omega
  · omega

/-- A key that is its own long name survives shortening. -/
theorem expand_compact_key {k : String} (hk : expandField k = k) :
    expandField (compactField k) = k := by
  rcases Table.shorten_cases fieldMap k with hmem | ⟨-, hkeep⟩
  · exact fieldMap_table.lengthen_of_mem hmem
  · rw [compactField, hkeep, hk]

/-- Distinct extra keys that are their own long names have apart short forms. -/
theorem Kept.shorts_apart (h : g.Kept nfc now) :
    (g.common.extraFields.entries.map fun x => compactField (nfc x.1)).Nodup := by
  refine List.Nodup.of_map expandField ?_
  rw [List.map_map]
  have hsame := List.map_congr_left (f := fun x : String × JsonValue =>
    expandField (compactField (nfc x.1))) (g := fun x => nfc x.1) fun x hx =>
      expand_compact_key (h.extraKeys x hx)
  exact hsame ▸ h.extraApart

/-- Of a kept grain every extra field is added. -/
theorem Kept.full (h : g.Kept nfc now) :
    (g.baseMap nfc now).length + g.common.extraFields.entries.length ≤
      (g.wireMap nfc now).length := by
  have hkeys : Sorted.Keys (g.baseMap nfc now) := Sorted.keys_ofList _
  have hfree : ∀ x ∈ g.common.extraFields.entries, ∀ k, expandField k = nfc x.1 →
      k ∉ (g.baseMap nfc now).map Prod.fst := by
    intro x hx k hk hmem
    obtain ⟨e, he, rfl⟩ := List.mem_map.1 hmem
    obtain ⟨f, hf, rfl⟩ := List.mem_map.1 ((g.baseMap_perm nfc now).mem_iff.1 he)
    refine h.extraFree x hx (hk ▸ ?_)
    exact (GrainType.expand_compact (g.mem_allNames now hf)).symm ▸ List.mem_map_of_mem hf
  have hadded : added nfc (g.baseMap nfc now) g.common.extraFields.entries =
      g.common.extraFields.entries.map (extraEntry nfc) := by
    refine List.filter_eq_self.2 (List.forall_mem_map.2 fun x hx => accepted_iff.2 ⟨?_, ?_⟩)
    · exact hfree x hx _ (h.extraKeys x hx)
    · exact hfree x hx _ (expand_compact_key (h.extraKeys x hx))
  have hwire := foldl_addExtra nfc hkeys h.shorts_apart
  have hperm := Sorted.perm_ofList (nodup_added hkeys h.shorts_apart)
  rw [wireMap, hwire, hperm.length_eq, hadded, List.length_append, List.length_map]

/-- **The payload reads as what is set exactly if the grain is kept.** -/
theorem got_setFields_iff (hidem : ∀ s, nfc (nfc s) = nfc s)
    (hfinite : (btreeToMsgpackMap (g.wireMap nfc now)).allFinite = true) :
    got .omsTop (btreeToMsgpackMap (g.wireMap nfc now)) = .obj (g.setFields nfc now) ↔
      g.Kept nfc now := by
  have hfield : ∀ x ∈ written (g.fields now),
      (got (KeyMode.omsTop.child x.1) (x.2.value nfc) = x.2.means nfc ↔
        x.2.Kept nfc (KeyMode.omsTop.child x.1)) := fun x hx =>
    got_field_iff hidem (g.fields_regular now x hx) (g.field_allFinite now hfinite hx)
  constructor
  · intro h
    obtain ⟨hunwritten, hfull⟩ := full_of_got hfinite h
    rw [g.setFields_eq now hunwritten] at h
    obtain ⟨hnames, hkeys, hvalues⟩ :=
      (g.got_entries_iff now hfinite (g.wireMap_full now hfull)).1 h
    rw [entries_map, List.nodup_append] at hnames
    obtain ⟨-, hextra, hapart⟩ := hnames
    refine ⟨hunwritten, fun x hx => (hfield x hx).1 ?_, hextra, fun x hx hmem => ?_,
      fun x hx => ?_, fun x hx => (got_json_iff x.2.serde _).1 ?_⟩
    · exact hvalues (.inl x) (List.mem_append_left _ (List.mem_map_of_mem hx))
    · exact hapart _ hmem _ (List.mem_map_of_mem hx) rfl
    · exact hkeys (.inr x) (List.mem_append_right _ (List.mem_map_of_mem hx))
    · exact hvalues (.inr x) (List.mem_append_right _ (List.mem_map_of_mem hx))
  · intro h
    rw [g.setFields_eq now h.unwritten, g.got_entries_iff now hfinite (g.wireMap_full now h.full),
      entries_map, List.nodup_append]
    refine ⟨⟨g.written_names_nodup now, h.extraApart, ?_⟩, ?_, ?_⟩
    · intro n hn n' hn'
      obtain ⟨x, hx, rfl⟩ := List.mem_map.1 hn'
      rintro rfl
      exact h.extraFree x hx hn
    · intro i hi
      rcases List.mem_append.1 hi with hi | hi
      · obtain ⟨x, hx, rfl⟩ := List.mem_map.1 hi
        exact GrainType.expand_compact (g.mem_allNames now hx)
      · obtain ⟨x, hx, rfl⟩ := List.mem_map.1 hi
        exact h.extraKeys x hx
    · intro i hi
      rcases List.mem_append.1 hi with hi | hi
      · obtain ⟨x, hx, rfl⟩ := List.mem_map.1 hi
        exact (hfield x hx).2 (h.fields x hx)
      · obtain ⟨x, hx, rfl⟩ := List.mem_map.1 hi
        exact (got_json_iff x.2.serde _).2 (h.extra x hx)

end TypedGrain

/-! ## The blob is read -/

theorem fromByte_typeByte (t : GrainType) : GrainType.fromByte t.typeByte = some t := by
  cases t <;> decide

theorem payload_ne_nil {payload : Bytes} (h : guardMsgpackShape payload = .ok ()) :
    payload ≠ [] := by
  rintro rfl
  cases h

/-- A written blob is accepted, and its fields are what the payload reads as. -/
theorem deserializeBlob_of_serializeGrain {K : Codec} (hlawful : K.Lawful) {g : TypedGrain}
    {now : Int64} {blob : Bytes} {hash : Hash}
    (hok : K.serializeGrain g now = .ok (blob, hash)) :
    ∃ fields, got .omsTop (btreeToMsgpackMap (g.wireMap K.nfc now)) = .obj fields ∧
      K.deserializeBlob blob = .ok (K.header g now, ⟨g.body.grainType, fields, hash⟩) := by
  obtain ⟨hfinite, rfl, hsize, payload, hpayload, hguard, rfl⟩ := TypedGrain.serializeGrain_ok hok
  have hread := hlawful _ _ hpayload hguard
  have hsane : (btreeToMsgpackMap (g.wireMap K.nfc now)).Sane := btree_sane (g.wireMap_sane now)
  have hjson := msgpackToJson_got (m := .omsTop) hsane hfinite
  have hall : ∀ e ∈ g.wireMap K.nfc now, e.2.Sane ∧ e.2.allFinite = true := fun e he =>
    ⟨g.wireMap_sane now e he, btree_allFinite.1 hfinite e he⟩
  refine ⟨_, got_map hall, ?_⟩
  rw [got_map hall] at hjson
  have hdecode : K.decodePayload payload = .ok (Sorted.ofList ((g.wireMap K.nfc now).map fun x =>
      (KeyMode.omsTop.key x.1, got (KeyMode.omsTop.child (KeyMode.omsTop.key x.1)) x.2))) := by
    simp only [Codec.decodePayload, hguard, hread, bind, Except.bind, hjson, List.isEmpty_nil,
      not_true_eq_false, if_false]
  have hlong : ¬((K.header g now).toBytes ++ payload).length < 10 := by
    have := List.length_pos_iff.2 (payload_ne_nil hguard)
    rw [List.length_append]
    change ¬9 + payload.length < 10
    omega
  have hdrop : ((K.header g now).toBytes ++ payload).drop 9 = payload := rfl
  have hheader : MgHeader.fromBytes (((K.header g now).toBytes ++ payload).take 9) =
      .ok (K.header g now) := rfl
  have hhead : ¬((K.header g now).toBytes ++ payload).head? = some 0x84 := by
    change ¬some (0x01 : UInt8) = some 0x84
    decide
  have htype : GrainType.fromByte (K.header g now).grainType = some g.body.grainType :=
    fromByte_typeByte _
  simp only [Codec.deserializeBlob, hhead, hlong, not_lt.2 hsize, if_false, bind, Except.bind,
    pure, Except.pure, hheader, htype, hdrop, hdecode]

/-! ## When a grain comes back -/

/-- **When the round trip holds.**  A blob that is written is read back with its
type and hash, and its fields are what was set exactly if the grain is kept. -/
theorem serializeGrain_roundTrip_iff (K : Codec) (hlawful : K.Lawful)
    (hidem : ∀ s, K.nfc (K.nfc s) = K.nfc s) (g : TypedGrain) (now : Int64) (blob : Bytes)
    (hash : Hash) (hok : K.serializeGrain g now = .ok (blob, hash)) :
    ∃ header view, K.deserializeBlob blob = .ok (header, view) ∧
      view.grainType = g.body.grainType ∧ view.hash = hash ∧
        (view.fields = g.setFields K.nfc now ↔ g.Kept K.nfc now) := by
  obtain ⟨fields, hgot, hblob⟩ := deserializeBlob_of_serializeGrain hlawful hok
  refine ⟨_, _, hblob, rfl, rfl, ?_⟩
  rw [← TypedGrain.got_setFields_iff hidem (TypedGrain.serializeGrain_ok hok).1, hgot,
    Json.obj.injEq]

/-! ## A context key that comes back renamed -/

/-- A fact whose context has the key `subject`. -/
def factWithContext : TypedGrain :=
  ⟨.fact ⟨"ann", "likes", "tea"⟩,
    { bareCommon with context := some (.object [("subject", some (.u32 1))]) }⟩

/-- Its payload. -/
def contextPayload : Bytes :=
  [135, 161, 99, 203, 63, 240, 0, 0, 0, 0, 0, 0, 162, 99, 97, 0, 163, 99, 116, 120, 129, 161,
   115, 1, 161, 111, 163, 116, 101, 97, 161, 114, 165, 108, 105, 107, 101, 115, 161, 115, 163,
   97, 110, 110, 161, 116, 164, 102, 97, 99, 116]

/-- SHA-256 of its blob. -/
def contextDigest : Hash :=
  ⟨[242, 186, 224, 89, 108, 233, 245, 3, 217, 17, 27, 177, 127, 229, 29, 180, 213, 186, 243,
     141, 233, 60, 62, 93, 152, 96, 126, 158, 139, 240, 189, 53], rfl⟩

/-- A codec that knows it. -/
noncomputable def contextCodec : Codec :=
  singleCodec id (fun _ => contextDigest)
    (btreeToMsgpackMap (factWithContext.wireMap id 0)) contextPayload

theorem factWithContext_finite :
    (btreeToMsgpackMap (factWithContext.wireMap id 0)).allFinite = true := by
  decide +kernel

theorem factWithContext_serialize :
    contextCodec.serializeGrain factWithContext 0 =
      .ok ((contextCodec.header factWithContext 0).toBytes ++ contextPayload, contextDigest) := by
  have hwrite : contextCodec.writeValue (btreeToMsgpackMap
      (factWithContext.wireMap contextCodec.nfc 0)) = .ok contextPayload := if_pos rfl
  have hsize : ¬Core.maxGrainBytes <
      ((contextCodec.header factWithContext 0).toBytes ++ contextPayload).length := by
    rw [List.length_append]
    change ¬Core.maxGrainBytes < 9 + contextPayload.length
    decide
  have hfinite : (btreeToMsgpackMap
      (factWithContext.wireMap contextCodec.nfc 0)).allFinite = true := factWithContext_finite
  have hguard : guardMsgpackShape contextPayload = .ok () := by decide +kernel
  simp only [Codec.serializeGrain, hfinite, not_true_eq_false, if_false, hwrite, hguard, hsize,
    bind, Except.bind, pure, Except.pure]
  rfl

/-- The key is shortened on the wire and the reader does not expand it there. -/
theorem factWithContext_not_kept : ¬factWithContext.Kept id 0 := by
  intro h
  have hmem : ("context", Field.context (.object [("subject", some (.u32 1))])) ∈
      written (factWithContext.fields 0) := by
    simp [TypedGrain.fields, factWithContext, bareCommon, GrainCommon.fields, contextName,
      Body.fields, written]
  obtain ⟨-, hkeys, -⟩ := h.fields _ hmem
  have hkey := hkeys ("subject", .int 1) (List.mem_singleton_self _)
  exact absurd hkey (by decide +kernel)

/-- The fact is read back, but not with the fields that were set. -/
theorem serializeGrain_roundTrip_context :
    ∃ header view, contextCodec.deserializeBlob
        ((contextCodec.header factWithContext 0).toBytes ++ contextPayload) =
          .ok (header, view) ∧
      view.fields ≠ factWithContext.setFields id 0 := by
  obtain ⟨header, view, hblob, -, -, hiff⟩ := serializeGrain_roundTrip_iff contextCodec
    singleCodec_lawful (fun _ => rfl) factWithContext 0 _ _ factWithContext_serialize
  exact ⟨header, view, hblob, fun h => factWithContext_not_kept (hiff.1 h)⟩

/-- **A context key is renamed.**  Not every grain that is written comes back with
the fields that were set. -/
theorem context_key_renamed :
    ¬∀ (g : TypedGrain) blob hash, contextCodec.serializeGrain g 0 = .ok (blob, hash) →
      ∃ header view, contextCodec.deserializeBlob blob = .ok (header, view) ∧
        view.grainType = g.body.grainType ∧ view.hash = hash ∧
          view.fields = g.setFields contextCodec.nfc 0 := by
  intro h
  obtain ⟨header, view, hblob, -, -, hfields⟩ := h _ _ _ factWithContext_serialize
  obtain ⟨fields, hgot, hread⟩ :=
    deserializeBlob_of_serializeGrain (K := contextCodec) singleCodec_lawful
      factWithContext_serialize
  rw [hread] at hblob
  cases hblob
  refine factWithContext_not_kept ((TypedGrain.got_setFields_iff (fun _ => rfl)
    factWithContext_finite).1 ?_)
  exact hgot.trans (congrArg Json.obj hfields)

end Deja
