import Deja.Codec.Fields
import Deja.Codec.Names

/-!
# One address for one grain

`TypedGrain.Like` relates grains that differ only in the Unicode composition of
their strings and keys and in the iteration order of their maps.  Such grains
have one blob when no object has two keys of one normalized form, and the places
that use a raw string agree: the header's namespace hash and flags, and the keys
of the tables a workflow carries.
-/

namespace Deja

variable (nfc : String → String)

/-! ## Alike up to composition -/

/-- JSON values alike up to the composition of strings and keys. -/
inductive Json.Like : Json → Json → Prop
  | refl (j : Json) : Like j j
  | str {s t : String} (h : nfc s = nfc t) : Like (.str s) (.str t)
  | arr {xs ys : List Json} (hlen : xs.length = ys.length)
      (hval : ∀ (i : ℕ) x y, xs[i]? = some x → ys[i]? = some y → Like x y) :
      Like (.arr xs) (.arr ys)
  | obj {fields fields' : List (String × Json)} (matched : List (String × Json))
      (hperm : fields'.Perm matched)
      (hkey : fields.map (fun x => nfc x.1) = matched.map fun x => nfc x.1)
      (hval : ∀ (i : ℕ) x y, fields[i]? = some x → matched[i]? = some y → Like x.2 y.2) :
      Like (.obj fields) (.obj fields')

/-- Atoms alike up to composition. -/
def Atom.Like : Atom → Atom → Prop
  | text s, text t => nfc s = nfc t
  | texts l, texts m => l.map nfc = m.map nfc
  | json j, json k => j.json.Like nfc k.json
  | jsons l, jsons m => List.Forall₂ (fun j k => j.json.Like nfc k.json) l m
  | a, b => a = b

/-- Named values alike, name by name. -/
def RecordLike : List (String × Option Atom) → List (String × Option Atom) → Prop :=
  List.Forall₂ fun x y => x.1 = y.1 ∧ Option.Rel (Atom.Like nfc) x.2 y.2

/-- Fields alike up to composition and the order of tables. -/
def Field.Like : Field → Field → Prop
  | atom a, atom b => a.Like nfc b
  | context j, context k => j.json.Like nfc k.json
  | table l, table m =>
    ∃ matched, m.Perm matched ∧
      List.Forall₂ (fun x y => nfc x.1 = nfc y.1 ∧ x.2.Like nfc y.2) l matched
  | record l, record m => RecordLike nfc l m
  | records short l, records short' m => short = short' ∧ List.Forall₂ (RecordLike nfc) l m
  | _, _ => False

/-- Grains alike: one type and creation time, every field and extra field alike. -/
structure TypedGrain.Like (now : Int64) (g g' : TypedGrain) : Prop where
  grainType : g.body.grainType = g'.body.grainType
  createdAt : g.createdAt now = g'.createdAt now
  fields : List.Forall₂ (fun x y => x.1 = y.1 ∧ Option.Rel (Field.Like nfc) x.2 y.2)
    (g.fields now) (g'.fields now)
  extra : ∃ matched, g'.common.extraFields.entries.Perm matched ∧
    List.Forall₂ (fun x y => nfc x.1 = nfc y.1 ∧ x.2.json.Like nfc y.2.json)
      g.common.extraFields.entries matched

/-! ## Keys that stay apart -/

/-- The objects of an atom keep their keys apart. -/
def Atom.Settled : Atom → Prop
  | json j => j.json.Kept nfc .verbatim
  | jsons l => ∀ j ∈ l, j.json.Kept nfc .verbatim
  | _ => True

/-- The objects of a record keep their keys apart. -/
def RecordSettled (entries : List (String × Option Atom)) : Prop :=
  ∀ x ∈ written entries, x.2.Settled nfc

/-- A context object keeps its keys apart, shortened too. -/
def ContextSettled : Json → Prop
  | .obj fields => (fields.map fun x => compactField (nfc x.1)).Nodup ∧
      ∀ x ∈ fields, x.2.Kept nfc .verbatim
  | other => other.Kept nfc .verbatim

/-- The objects of a field keep their keys apart. -/
def Field.Settled : Field → Prop
  | atom a => a.Settled nfc
  | context j => ContextSettled nfc j.json
  | table l => (l.map fun x => nfc x.1).Nodup ∧ ∀ x ∈ l, x.2.Settled nfc
  | record l => RecordSettled nfc l
  | records _ l => ∀ r ∈ l, RecordSettled nfc r

/-- No object of the grain has two keys of one normalized form, the extra fields
and the context none of one short form. -/
structure TypedGrain.Settled (now : Int64) (g : TypedGrain) : Prop where
  fields : ∀ x ∈ written (g.fields now), x.2.Settled nfc
  extraKeys : (g.common.extraFields.entries.map fun x => compactField (nfc x.1)).Nodup
  extra : ∀ x ∈ g.common.extraFields.entries, x.2.json.Kept nfc .verbatim

/-- The keys a field writes as they are. -/
def Field.rawKeys : Field → List String
  | table l => l.map Prod.fst
  | _ => []

/-- What is taken from raw strings agrees: the namespace bytes and the flags of
the header, and the keys of tables. -/
structure TypedGrain.SameRaw (K : Codec) (now : Int64) (g g' : TypedGrain) : Prop where
  nsHash : K.nsHash g.common.namespace_ = K.nsHash g'.common.namespace_
  flags : Codec.headerFlags g.common = Codec.headerFlags g'.common
  tables : List.Forall₂ (fun x y => ∀ k, k ∈ x.2.rawKeys ↔ k ∈ y.2.rawKeys)
    (written (g.fields now)) (written (g'.fields now))

/-! ## Alike values are written alike -/

variable {nfc}

theorem fieldsToMsgpack_eq_map (fields : List (String × Json)) :
    fieldsToMsgpack nfc fields = fields.map fun x => (nfc x.1, jsonToMsgpack nfc x.2) := by
  induction fields with
  | nil => rfl
  | cons x fields ih =>
    obtain ⟨k, v⟩ := x
    rw [fieldsToMsgpack, ih]
    rfl

theorem jsonsToMsgpack_eq_map (xs : List Json) :
    jsonsToMsgpack nfc xs = xs.map (jsonToMsgpack nfc) := by
  induction xs with
  | nil => rfl
  | cons x xs ih =>
    rw [jsonsToMsgpack, ih]
    rfl

theorem Json.keptAll_iff {m : KeyMode} {xs : List Json} :
    Json.KeptAll nfc m xs ↔ ∀ x ∈ xs, x.Kept nfc m := by
  induction xs with
  | nil => simp [Json.KeptAll]
  | cons x xs ih => rw [Json.KeptAll, ih, List.forall_mem_cons]

theorem Json.keptFields_iff {m : KeyMode} {fields : List (String × Json)} :
    Json.KeptFields nfc m fields ↔ ∀ x ∈ fields, x.2.Kept nfc (m.child (nfc x.1)) := by
  induction fields with
  | nil => simp [Json.KeptFields]
  | cons x fields ih =>
    obtain ⟨k, v⟩ := x
    rw [Json.KeptFields, ih, List.forall_mem_cons]

/-- Under any renaming of the normalized keys that keeps them apart, matched
entries make one map. -/
theorem ofList_matched {ν : Type} {μ : Type} {fields fields' matched : List (String × ν)}
    (key : String → String) {value : ν → μ} (hperm : fields'.Perm matched)
    (hkey : fields.map (fun x => nfc x.1) = matched.map fun x => nfc x.1)
    (hval : fields.map (fun x => value x.2) = matched.map fun x => value x.2)
    (hnodup : (fields.map fun x => key (nfc x.1)).Nodup) :
    Sorted.ofList (fields.map fun x => (key (nfc x.1), value x.2)) =
      Sorted.ofList (fields'.map fun x => (key (nfc x.1), value x.2)) := by
  have hsame : (fields.map fun x => (key (nfc x.1), value x.2)) =
      matched.map fun x => (key (nfc x.1), value x.2) := by
    have hzip := congrArg₂ (List.zipWith fun k v => (key k, v)) hkey hval
    rw [List.zipWith_map, List.zipWith_map, List.zipWith_self, List.zipWith_self] at hzip
    exact hzip
  refine Sorted.ofList_eq_of_perm ?_ (hsame ▸ (hperm.map _).symm)
  rw [List.map_map]
  exact hnodup

theorem map_eq_of_getElem {α β : Type} {f : α → β} {g : α → β} {xs ys : List α}
    (hlen : xs.length = ys.length)
    (h : ∀ (i : ℕ) x y, xs[i]? = some x → ys[i]? = some y → f x = g y) : xs.map f = ys.map g := by
  refine List.ext_getElem (by rw [List.length_map, List.length_map, hlen]) fun i hi hi' => ?_
  rw [List.length_map] at hi hi'
  rw [List.getElem_map, List.getElem_map]
  exact h i _ _ (List.getElem?_eq_getElem hi) (List.getElem?_eq_getElem hi')

theorem map_eq_of_forall₂ {α β γ : Type} {R : α → β → Prop} {f : α → γ} {g : β → γ}
    {l : List α} {m : List β} (h : List.Forall₂ R l m)
    (hR : ∀ x ∈ l, ∀ y ∈ m, R x y → f x = g y) : l.map f = m.map g := by
  induction h with
  | nil => rfl
  | @cons x y l m hxy _ ih =>
    rw [List.map_cons, List.map_cons, hR x (List.mem_cons_self ..) y (List.mem_cons_self ..) hxy,
      ih fun x hx y hy => hR x (List.mem_cons_of_mem _ hx) y (List.mem_cons_of_mem _ hy)]

theorem map_fst_length {ν : Type} {f : String → String} {l m : List (String × ν)}
    (h : l.map (fun x => f x.1) = m.map fun x => f x.1) : l.length = m.length := by
  have := congrArg List.length h
  rwa [List.length_map, List.length_map] at this

/-- Alike JSON values whose keys stay apart are written as one value. -/
theorem Json.Like.toMsgpack_eq {j k : Json} (h : j.Like nfc k) :
    j.Kept nfc .verbatim → jsonToMsgpack nfc j = jsonToMsgpack nfc k := by
  induction h with
  | refl j => exact fun _ => rfl
  | str h =>
    intro _
    rw [jsonToMsgpack, jsonToMsgpack, nfcString, nfcString, h]
  | arr hlen _ ih =>
    intro hkept
    have hkept := Json.keptAll_iff.1 hkept
    rw [jsonToMsgpack, jsonToMsgpack, jsonsToMsgpack_eq_map, jsonsToMsgpack_eq_map]
    exact congrArg Value.array (map_eq_of_getElem hlen fun i x y hx hy =>
      ih i x y hx hy (hkept x (List.mem_of_getElem? hx)))
  | obj matched hperm hkey _ ih =>
    rintro ⟨hnodup, -, hkept⟩
    have hkept := Json.keptFields_iff.1 hkept
    rw [jsonToMsgpack, jsonToMsgpack, fieldsToMsgpack_eq_map, fieldsToMsgpack_eq_map]
    refine congrArg btreeToMsgpackMap (ofList_matched id hperm hkey ?_ hnodup)
    exact map_eq_of_getElem (map_fst_length hkey) fun i x y hx hy =>
      ih i x y hx hy (hkept x (List.mem_of_getElem? hx))

/-- The same of a context, whose keys are shortened as well. -/
theorem Json.Like.context_eq {j k : Json} (h : j.Like nfc k) (hsettled : ContextSettled nfc j) :
    jsonToMsgpackWithKeyCompaction nfc j = jsonToMsgpackWithKeyCompaction nfc k := by
  have hlike := h
  cases h with
  | refl j => rfl
  | str h => exact hlike.toMsgpack_eq hsettled
  | arr _ _ => exact hlike.toMsgpack_eq hsettled
  | obj matched hperm hkey hval =>
    obtain ⟨hnodup, hkept⟩ := hsettled
    rw [jsonToMsgpackWithKeyCompaction, jsonToMsgpackWithKeyCompaction, fieldsToMsgpack_eq_map,
      fieldsToMsgpack_eq_map, List.map_map, List.map_map]
    refine congrArg btreeToMsgpackMap (ofList_matched compactField hperm hkey ?_ hnodup)
    exact map_eq_of_getElem (map_fst_length hkey) fun i x y hx hy =>
      (hval i x y hx hy).toMsgpack_eq (hkept x (List.mem_of_getElem? hx))

theorem Atom.Like.value_eq {a b : Atom} (h : a.Like nfc b) (hsettled : a.Settled nfc) :
    a.value nfc = b.value nfc := by
  cases a with
  | text s =>
    cases b with
    | text t => exact congrArg Value.string h
    | _ => simp only [Like, reduceCtorEq] at h
  | texts l =>
    cases b with
    | texts m =>
      have hstring := congrArg (List.map Value.string) (show l.map nfc = m.map nfc from h)
      rw [List.map_map, List.map_map] at hstring
      exact congrArg Value.array hstring
    | _ => simp only [Like, reduceCtorEq] at h
  | json j =>
    cases b with
    | json k => exact Json.Like.toMsgpack_eq h hsettled
    | _ => simp only [Like, reduceCtorEq] at h
  | jsons l =>
    cases b with
    | jsons m =>
      exact congrArg Value.array (map_eq_of_forall₂ h fun j hj k _ hjk =>
        hjk.toMsgpack_eq (hsettled j hj))
    | _ => simp only [Like, reduceCtorEq] at h
  | _ =>
    cases b <;> exact congrArg (value nfc) h

theorem written_forall₂ {α : Type} {R : α → α → Prop} {l m : List (String × Option α)}
    (h : List.Forall₂ (fun x y => x.1 = y.1 ∧ Option.Rel R x.2 y.2) l m) :
    List.Forall₂ (fun x y => x.1 = y.1 ∧ R x.2 y.2) (written l) (written m) := by
  induction h with
  | nil => exact .nil
  | @cons x y l m hxy _ ih =>
    obtain ⟨n, v⟩ := x
    obtain ⟨n', w⟩ := y
    obtain ⟨rfl, hvw⟩ := hxy
    cases hvw with
    | none => exact ih
    | some hvw => exact .cons ⟨rfl, hvw⟩ ih

theorem RecordLike.value_eq {l m : List (String × Option Atom)} {short : String → String}
    (h : RecordLike nfc l m) (hsettled : RecordSettled nfc l) :
    recordValue nfc short l = recordValue nfc short m := by
  refine congrArg (btreeToMsgpackMap ∘ Sorted.ofList) ?_
  exact map_eq_of_forall₂ (written_forall₂ h) fun x hx y _ hxy =>
    Prod.ext (congrArg short hxy.1) (hxy.2.value_eq (hsettled x hx))

/-- Tables with one set of raw keys, alike and with their keys apart. -/
theorem table_value_eq {l m : List (String × Atom)} (h : (Field.table l).Like nfc (.table m))
    (hsettled : (Field.table l).Settled nfc)
    (hraw : ∀ k, k ∈ l.map Prod.fst ↔ k ∈ m.map Prod.fst) :
    (Field.table l).value nfc = (Field.table m).value nfc := by
  obtain ⟨matched, hperm, hlike⟩ := h
  obtain ⟨hnodup, hatoms⟩ := hsettled
  -- the matched entries have the raw keys of `l`: no other key has that form
  have hsame : l.map (fun x => (x.1, x.2.value nfc)) =
      matched.map fun x => (x.1, x.2.value nfc) := by
    refine map_eq_of_forall₂ hlike fun x hx y hy hxy => ?_
    refine Prod.ext ?_ (hxy.2.value_eq (hatoms x hx))
    have hraw := (hraw y.1).2 (List.mem_map_of_mem (hperm.mem_iff.2 hy))
    obtain ⟨z, hz, hzy⟩ := List.mem_map.1 hraw
    rw [← hzy, List.inj_on_of_nodup_map hnodup hz hx (by rw [hzy, hxy.1])]
  refine congrArg btreeToMsgpackMap ?_
  rw [hsame]
  refine Sorted.ofList_eq_of_perm ?_ (hperm.map _).symm
  rw [← hsame, List.map_map]
  exact List.Nodup.of_map nfc (by rwa [List.map_map])

theorem Field.Like.value_eq {f f' : Field} (h : f.Like nfc f') (hsettled : f.Settled nfc)
    (hraw : ∀ k, k ∈ f.rawKeys ↔ k ∈ f'.rawKeys) : f.value nfc = f'.value nfc := by
  cases f with
  | atom a =>
    cases f' with
    | atom b => exact Atom.Like.value_eq h hsettled
    | _ => exact h.elim
  | context j =>
    cases f' with
    | context k => exact Json.Like.context_eq h hsettled
    | _ => exact h.elim
  | table l =>
    cases f' with
    | table m => exact table_value_eq h hsettled hraw
    | _ => exact h.elim
  | record l =>
    cases f' with
    | record m => exact RecordLike.value_eq h hsettled
    | _ => exact h.elim
  | records short l =>
    cases f' with
    | records short' m =>
      obtain ⟨rfl, h⟩ := h
      exact congrArg Value.array (map_eq_of_forall₂ h fun r hr s _ hrs =>
        hrs.value_eq (hsettled r hr))
    | _ => exact h.elim

/-! ## Extra fields whose keys stay apart -/

/-- An extra field of this key is added: no known field has the key or its short
form. -/
def accepted (map : List (String × Value)) (k : String) : Bool :=
  (map.lookup k).isNone && (map.lookup (compactField k)).isNone

theorem accepted_iff {map : List (String × Value)} {k : String} :
    accepted map k ↔ k ∉ map.map Prod.fst ∧ compactField k ∉ map.map Prod.fst := by
  rw [accepted, Bool.and_eq_true, Option.isNone_iff_eq_none, Option.isNone_iff_eq_none,
    Sorted.lookup_eq_none, Sorted.lookup_eq_none]

/-- The wire entry of an extra field. -/
def extraEntry (nfc : String → String) (x : String × JsonValue) : String × Value :=
  (nfc x.1, jsonToMsgpack nfc x.2.json)

theorem addExtra_eq (map : List (String × Value)) (x : String × JsonValue) :
    TypedGrain.addExtra nfc map x =
      if accepted map (nfc x.1) then Sorted.insert (nfc x.1) (jsonToMsgpack nfc x.2.json) map
      else map := by
  unfold TypedGrain.addExtra accepted
  simp only [Bool.and_eq_true, Option.isNone_iff_eq_none, Option.isSome_iff_ne_none]
  by_cases h : map.lookup (nfc x.1) = none ∧ map.lookup (compactField (nfc x.1)) = none
  · rw [if_pos h, if_neg (by tauto)]
  · rw [if_neg h, if_pos (by tauto)]

/-- What the extra fields add to a map. -/
def added (nfc : String → String) (map : List (String × Value))
    (l : List (String × JsonValue)) : List (String × Value) :=
  (l.map (extraEntry nfc)).filter fun e => accepted map e.1

variable (nfc) in
/-- Extra fields with apart short forms do not stand in each other's way. -/
theorem foldl_addExtra {map : List (String × Value)} (hkeys : Sorted.Keys map)
    {l : List (String × JsonValue)} (hapart : (l.map fun x => compactField (nfc x.1)).Nodup) :
    l.foldl (TypedGrain.addExtra nfc) map = Sorted.ofList (map ++ added nfc map l) := by
  induction l using List.reverseRecOn with
  | nil =>
    rw [added, List.map_nil, List.filter_nil, List.append_nil]
    exact (Sorted.ofList_of_keys hkeys).symm
  | append_singleton l x ih =>
    rw [List.map_append, List.nodup_append] at hapart
    obtain ⟨hl, -, hx⟩ := hapart
    have hx : ∀ y ∈ l, compactField (nfc y.1) ≠ compactField (nfc x.1) := fun y hy =>
      hx _ (List.mem_map_of_mem hy) _ (List.mem_singleton_self _)
    have hkey : ∀ k, (k = nfc x.1 ∨ k = compactField (nfc x.1)) →
        (k ∈ (Sorted.ofList (map ++ added nfc map l)).map Prod.fst ↔ k ∈ map.map Prod.fst) := by
      intro k hk
      rw [Sorted.mem_keys_ofList, List.map_append, List.mem_append, or_iff_left_iff_imp]
      intro hmem
      obtain ⟨e, he, rfl⟩ := List.mem_map.1 hmem
      obtain ⟨y, hy, rfl⟩ := List.mem_map.1 (List.mem_of_mem_filter he)
      refine absurd ?_ (hx y hy)
      rcases hk with hk | hk
      · exact congrArg compactField hk
      · exact (congrArg compactField hk).trans (fieldMap_table.shorten_shorten _)
    have hacc : accepted (Sorted.ofList (map ++ added nfc map l)) (nfc x.1) =
        accepted map (nfc x.1) := by
      rw [Bool.eq_iff_iff, accepted_iff, accepted_iff, hkey _ (.inl rfl), hkey _ (.inr rfl)]
    have hadded : added nfc map (l ++ [x]) =
        added nfc map l ++ [extraEntry nfc x].filter fun e => accepted map e.1 := by
      rw [added, List.map_append, List.filter_append]
      rfl
    rw [List.foldl_append, List.foldl_cons, List.foldl_nil, ih hl, addExtra_eq, hacc, hadded,
      ← List.append_assoc]
    by_cases hax : accepted map (nfc x.1) = true
    · rw [if_pos hax, List.filter_cons_of_pos (p := fun e => accepted map e.1)
        (a := extraEntry nfc x) hax]
      exact (Sorted.ofList_concat (map ++ _) (extraEntry nfc x)).symm
    · rw [if_neg hax, List.filter_cons_of_neg (p := fun e => accepted map e.1)
        (a := extraEntry nfc x) hax,
        List.filter_nil, List.append_nil]

/-- The known and the added keys of a map are distinct. -/
theorem nodup_added {map : List (String × Value)} (hkeys : Sorted.Keys map)
    {l : List (String × JsonValue)} (hapart : (l.map fun x => compactField (nfc x.1)).Nodup) :
    ((map ++ added nfc map l).map Prod.fst).Nodup := by
  rw [List.map_append, List.nodup_append]
  refine ⟨hkeys.nodup, ?_, fun k hk k' hk' => ?_⟩
  · refine ((List.filter_sublist (p := fun e : String × Value => accepted map e.1)).map _).nodup ?_
    rw [List.map_map]
    exact List.Nodup.of_map compactField (by rwa [List.map_map])
  · obtain ⟨e, he, rfl⟩ := List.mem_map.1 hk'
    rintro rfl
    exact (accepted_iff.1 (List.mem_filter.1 he).2).1 hk

namespace TypedGrain

variable {K : Codec} {now : Int64} {g g' : TypedGrain}

/-! ## One map -/

theorem baseMap_eq (hlike : g.Like nfc now g')
    (hsettled : ∀ x ∈ written (g.fields now), x.2.Settled nfc)
    (htables : List.Forall₂ (fun x y => ∀ k, k ∈ x.2.rawKeys ↔ k ∈ y.2.rawKeys)
      (written (g.fields now)) (written (g'.fields now))) :
    g.baseMap nfc now = g'.baseMap nfc now := by
  have hboth : List.Forall₂
      (fun x y : String × Field => (x.1 = y.1 ∧ x.2.Like nfc y.2) ∧
        ∀ k, k ∈ x.2.rawKeys ↔ k ∈ y.2.rawKeys)
      (written (g.fields now)) (written (g'.fields now)) := by
    have hfields := written_forall₂ hlike.fields
    rw [List.forall₂_iff_get] at hfields htables ⊢
    exact ⟨hfields.1, fun i h h' => ⟨hfields.2 i h h', htables.2 i h h'⟩⟩
  refine congrArg Sorted.ofList (map_eq_of_forall₂ hboth fun x hx y _ hxy => ?_)
  exact Prod.ext (congrArg compactField hxy.1.1) (hxy.1.2.value_eq (hsettled x hx) hxy.2)

theorem wireMap_eq (hlike : g.Like nfc now g') (hsettled : g.Settled nfc now)
    (htables : List.Forall₂ (fun x y => ∀ k, k ∈ x.2.rawKeys ↔ k ∈ y.2.rawKeys)
      (written (g.fields now)) (written (g'.fields now))) :
    g.wireMap nfc now = g'.wireMap nfc now := by
  obtain ⟨matched, hperm, hextra⟩ := hlike.extra
  have hentries : g.common.extraFields.entries.map (extraEntry nfc) =
      matched.map (extraEntry nfc) :=
    map_eq_of_forall₂ hextra fun x hx y _ hxy =>
      Prod.ext hxy.1 (hxy.2.toMsgpack_eq (hsettled.extra x hx))
  have hshorts := congrArg (List.map fun e : String × Value => compactField e.1) hentries
  rw [List.map_map, List.map_map] at hshorts
  have hapart' : (g'.common.extraFields.entries.map fun x => compactField (nfc x.1)).Nodup :=
    ((hperm.map _).nodup_iff).2 (hshorts ▸ hsettled.extraKeys)
  have hkeys : Sorted.Keys (g.baseMap nfc now) := Sorted.keys_ofList _
  rw [wireMap, wireMap, ← baseMap_eq hlike hsettled.fields htables,
    foldl_addExtra nfc hkeys hapart', foldl_addExtra nfc hkeys hsettled.extraKeys]
  refine Sorted.ofList_eq_of_perm (nodup_added hkeys hsettled.extraKeys) ?_
  refine List.Perm.append_left _ (List.Perm.filter _ ?_)
  rw [hentries]
  exact (hperm.map _).symm

/-! ## One blob -/

/-- The fields the header and the map of a grain come from are all the blob
depends on. -/
theorem serializeGrain_congr (hheader : K.header g now = K.header g' now)
    (hmap : g.wireMap K.nfc now = g'.wireMap K.nfc now) :
    K.serializeGrain g now = K.serializeGrain g' now := by
  rw [Codec.serializeGrain, Codec.serializeGrain, hheader, hmap]

theorem header_eq (hlike : g.Like nfc now g')
    (hns : K.nsHash g.common.namespace_ = K.nsHash g'.common.namespace_)
    (hflags : Codec.headerFlags g.common = Codec.headerFlags g'.common) :
    K.header g now = K.header g' now := by
  rw [Codec.header, Codec.header, hflags, hns, hlike.grainType, hlike.createdAt]

/-- A blob that is written: the header, and the payload of the map. -/
theorem serializeGrain_ok {blob : Bytes} {hash : Hash}
    (h : K.serializeGrain g now = .ok (blob, hash)) :
    (btreeToMsgpackMap (g.wireMap K.nfc now)).allFinite = true ∧ hash = K.sha256 blob ∧
      blob.length ≤ Core.maxGrainBytes ∧
        ∃ payload, K.writeValue (btreeToMsgpackMap (g.wireMap K.nfc now)) = .ok payload ∧
          guardMsgpackShape payload = .ok () ∧ blob = (K.header g now).toBytes ++ payload := by
  unfold Codec.serializeGrain at h
  simp only [bind, Except.bind, throw, throwThe, MonadExceptOf.throw, pure, Except.pure] at h
  split_ifs at h with hfinite
  cases hpayload : K.writeValue (btreeToMsgpackMap (g.wireMap K.nfc now)) with
  | error e =>
    simp only [hpayload] at h
    cases h
  | ok payload =>
    simp only [hpayload] at h
    split_ifs at h with hsize
    cases hguard : guardMsgpackShape payload with
    | error e =>
      simp only [hguard] at h
      cases h
    | ok u =>
      simp only [hguard, Except.ok.injEq, Prod.mk.injEq] at h
      obtain ⟨rfl, rfl⟩ := h
      exact ⟨hfinite, rfl, not_lt.1 hsize, payload, rfl, hguard, rfl⟩

end TypedGrain

/-- What is written within the framing limits is read back, with nothing after it. -/
def Codec.Lawful (K : Codec) : Prop :=
  ∀ v payload, K.writeValue v = .ok payload → guardMsgpackShape payload = .ok () →
    K.readValue payload = .ok (v, [])

theorem btreeToMsgpackMap_injective : Function.Injective btreeToMsgpackMap := by
  intro l m h
  refine List.map_injective_iff.2 ?_ (Value.map.inj h)
  rintro ⟨k, v⟩ ⟨k', v'⟩ heq
  simp only [Prod.mk.injEq, Value.string.injEq] at heq
  exact Prod.ext heq.1 heq.2

/-- A known field keeps its entry when extra fields are added. -/
theorem lookup_foldl_addExtra {map : List (String × Value)} {l : List (String × JsonValue)}
    {k : String} {v : Value} (h : map.lookup k = some v) :
    (l.foldl (TypedGrain.addExtra nfc) map).lookup k = some v := by
  induction l generalizing map with
  | nil => exact h
  | cons x l ih =>
    refine ih ?_
    rw [addExtra_eq]
    by_cases hacc : accepted map (nfc x.1) = true
    · rw [if_pos hacc, Sorted.lookup_insert, if_neg, h]
      rintro rfl
      have hnone := (accepted_iff.1 hacc).1
      rw [← Sorted.lookup_eq_none, h] at hnone
      cases hnone
    · rw [if_neg hacc, h]

namespace TypedGrain

variable {K : Codec} {now : Int64} {g g' : TypedGrain}

variable (nfc) in
/-- The wire entry of a known field. -/
theorem lookup_wireMap {x : String × Field} (hx : x ∈ written (g.fields now)) :
    (g.wireMap nfc now).lookup (compactField x.1) = some (x.2.value nfc) := by
  refine lookup_foldl_addExtra ((Sorted.lookup_eq_some_iff (Sorted.keys_ofList _).nodup).2 ?_)
  exact (g.baseMap_perm nfc now).mem_iff.2 (List.mem_map.2 ⟨x, hx, rfl⟩)

/-- Alike fields with one value have one set of raw keys. -/
theorem rawKeys_of_value_eq {f f' : Field} (h : f.Like nfc f')
    (hvalue : f.value nfc = f'.value nfc) (k : String) : k ∈ f.rawKeys ↔ k ∈ f'.rawKeys := by
  cases f with
  | table l =>
    cases f' with
    | table m =>
      have hmap := btreeToMsgpackMap_injective hvalue
      have hkeys : k ∈ _ ↔ k ∈ _ := Iff.of_eq (congrArg (k ∈ List.map Prod.fst ·) hmap)
      rw [Sorted.mem_keys_ofList, Sorted.mem_keys_ofList, List.map_map, List.map_map] at hkeys
      exact hkeys
    | _ => exact h.elim
  | _ =>
    cases f' with
    | table m => exact h.elim
    | _ => exact Iff.rfl

/-- One blob has one namespace hash, one flags byte and one set of raw keys. -/
theorem sameRaw_of_blob_eq (hlawful : K.Lawful) (hlike : g.Like K.nfc now g') {blob : Bytes}
    {hash hash' : Hash} (hg : K.serializeGrain g now = .ok (blob, hash))
    (hg' : K.serializeGrain g' now = .ok (blob, hash')) : g.SameRaw K now g' := by
  obtain ⟨-, -, -, payload, hpayload, hguard, hblob⟩ := serializeGrain_ok hg
  obtain ⟨-, -, -, payload', hpayload', hguard', hblob'⟩ := serializeGrain_ok hg'
  rw [hblob] at hblob'
  obtain ⟨hheader, rfl⟩ := List.append_inj hblob' rfl
  have hheader := Codec.MgHeader.toBytes_injective hheader
  have hread := hlawful _ _ hpayload hguard
  rw [hlawful _ _ hpayload' hguard'] at hread
  have hmap : g'.wireMap K.nfc now = g.wireMap K.nfc now :=
    btreeToMsgpackMap_injective (Prod.ext_iff.1 (Except.ok.inj hread)).1
  refine ⟨congrArg MgHeader.nsHash hheader, congrArg MgHeader.flags hheader, ?_⟩
  have hfields := written_forall₂ hlike.fields
  rw [List.forall₂_iff_get] at hfields ⊢
  refine ⟨hfields.1, fun i hi hi' => ?_⟩
  obtain ⟨hname, hxy⟩ := hfields.2 i hi hi'
  refine rawKeys_of_value_eq hxy ?_
  have hx := lookup_wireMap K.nfc (List.get_mem (written (g.fields now)) ⟨i, hi⟩)
  have hy := lookup_wireMap K.nfc (List.get_mem (written (g'.fields now)) ⟨i, hi'⟩)
  rw [hmap, ← hname, hx] at hy
  exact Option.some.inj hy

end TypedGrain

/-! ## The order of a `HashMap` -/

/-- Entries in another order are written as one value. -/
theorem table_value_of_perm {l m : List (String × Atom)} (hperm : m.Perm l)
    (hnodup : (l.map Prod.fst).Nodup) :
    (Field.table m).value nfc = (Field.table l).value nfc := by
  refine congrArg btreeToMsgpackMap (Sorted.ofList_eq_of_perm ?_ (hperm.map _))
  rw [List.map_map]
  exact ((hperm.map _).nodup_iff).2 hnodup

theorem ifAny_table_of_perm {ν : Type} {atom : ν → Atom} {l m : StringMap ν}
    (hperm : m.entries.Perm l.entries) :
    (ifAny m.entries fun l => .table (l.map fun x => (x.1, atom x.2))).map (Field.value nfc) =
      (ifAny l.entries fun l => .table (l.map fun x => (x.1, atom x.2))).map
        (Field.value nfc) := by
  unfold ifAny
  rw [hperm.isEmpty_eq]
  split
  · rfl
  · refine congrArg some (table_value_of_perm (hperm.map _) ?_)
    rw [List.map_map]
    exact l.keys

theorem written_map_value (fields : List (String × Option Field)) :
    ((written fields).map fun x => (compactField x.1, x.2.value nfc)) =
      (written (fields.map fun x => (x.1, x.2.map (Field.value nfc)))).map
        fun x => (compactField x.1, x.2) := by
  rw [written, written, List.filterMap_map, List.map_filterMap, List.map_filterMap]
  refine List.filterMap_congr fun x _ => ?_
  simp only [Function.comp_apply, Option.map_map]
  rfl

theorem commonFields_congr (c : GrainCommon) (createdAt : Int64) (b b' : Body)
    (h : b.grainType = b'.grainType) :
    c.fields (b.fields c.confidence) createdAt = c.fields (b'.fields c.confidence) createdAt := by
  have hname : contextName (b.fields c.confidence) = contextName (b'.fields c.confidence) := by
    rw [contextName_fields, contextName_fields, h]
  rw [GrainCommon.fields, GrainCommon.fields, hname]

/-- The bindings and retries of a workflow may come in any order. -/
theorem workflow_order (K : Codec) (now : Int64) (w : Workflow) (c : GrainCommon)
    (bindings : StringMap String) (retries : StringMap UInt32)
    (hbindings : bindings.entries.Perm w.bindings.entries)
    (hretries : retries.entries.Perm w.retries.entries) :
    K.serializeGrain ⟨.workflow { w with bindings := bindings, retries := retries }, c⟩ now =
      K.serializeGrain ⟨.workflow w, c⟩ now := by
  refine TypedGrain.serializeGrain_congr rfl (congrArg
    (fun base => c.extraFields.entries.foldl (TypedGrain.addExtra K.nfc) base) ?_)
  refine congrArg Sorted.ofList ?_
  rw [written_map_value, written_map_value, TypedGrain.fields, TypedGrain.fields]
  refine congrArg (List.map _ ∘ written) ?_
  rw [commonFields_congr c _ (.workflow { w with bindings := bindings, retries := retries })
    (.workflow w) rfl]
  simp only [Body.fields, List.map_cons, List.map_append]
  rw [ifAny_table_of_perm hbindings, ifAny_table_of_perm hretries]
  rfl

/-! ## When two grains have one blob -/

/-- **When the address is canonical.**  Of two alike grains the first of which is
written, the second has its blob only if what is taken from raw strings agrees;
that is enough where keys stay apart.  The order of a `HashMap` never shows. -/
theorem serializeGrain_canonical (K : Codec) (hlawful : K.Lawful) (now : Int64) :
    (∀ g g' : TypedGrain, g.Like K.nfc now g' → ∀ blob hash,
      K.serializeGrain g now = .ok (blob, hash) →
        (K.serializeGrain g' now = .ok (blob, hash) → g.SameRaw K now g') ∧
          (g.Settled K.nfc now → g.SameRaw K now g' →
            K.serializeGrain g' now = .ok (blob, hash))) ∧
      ∀ (w : Workflow) (c : GrainCommon) (bindings : StringMap String)
        (retries : StringMap UInt32), bindings.entries.Perm w.bindings.entries →
        retries.entries.Perm w.retries.entries →
          K.serializeGrain ⟨.workflow { w with bindings := bindings, retries := retries }, c⟩
            now = K.serializeGrain ⟨.workflow w, c⟩ now := by
  refine ⟨fun g g' hlike blob hash hg => ⟨fun hg' => ?_, fun hsettled hraw => ?_⟩,
    fun w c bindings retries => workflow_order K now w c bindings retries⟩
  · exact TypedGrain.sameRaw_of_blob_eq hlawful hlike hg hg'
  · rw [← hg]
    exact (TypedGrain.serializeGrain_congr (TypedGrain.header_eq hlike hraw.nsHash hraw.flags)
      (TypedGrain.wireMap_eq hlike hsettled hraw.tables)).symm

/-! ## Two spellings of one namespace -/

/-- A common part with nothing set. -/
def bareCommon : GrainCommon where
  namespace_ := none
  userId := none
  tags := []
  confidence := 0x3FF0000000000000
  sourceType := none
  importance := none
  temporalType := none
  validFrom := none
  validTo := none
  systemValidFrom := none
  systemValidTo := none
  contentRefs := []
  embeddingRefs := []
  provenanceChain := []
  relatedTo := []
  authorDid := none
  originDid := none
  originNamespace := none
  derivedFrom := none
  consolidationLevel := none
  successCount := none
  failureCount := none
  supersededBy := none
  verificationStatus := none
  context := none
  invalidationPolicy := none
  supersessionJustification := none
  supersessionAuth := none
  createdAt := some 0
  embeddingText := none
  extraFields := ⟨[], .nil⟩

/-- A fact in a namespace. -/
def factIn (ns : String) : TypedGrain :=
  ⟨.fact ⟨"ann", "likes", "tea"⟩, { bareCommon with namespace_ := some ns }⟩

/-- Composes the one letter the example uses. -/
def composeAcute (s : String) : String := if s = "e\u0301" then "\u00E9" else s

/-- The payload of `factIn` under either spelling. -/
def factPayload : Bytes :=
  [135, 161, 99, 203, 63, 240, 0, 0, 0, 0, 0, 0, 162, 99, 97, 0, 162, 110, 115, 162, 195, 169,
   161, 111, 163, 116, 101, 97, 161, 114, 165, 108, 105, 107, 101, 115, 161, 115, 163, 97, 110,
   110, 161, 116, 164, 102, 97, 99, 116]

/-- SHA-256 of the two spellings of the letter, and of the two blobs. -/
def acuteDigests (b : Bytes) : Hash :=
  if b = [195, 169] then
    ⟨[74, 153, 85, 126, 64, 51, 195, 83, 157, 226, 235, 101, 71, 32, 23, 202, 213, 249, 85, 127,
       122, 6, 37, 160, 159, 28, 63, 110, 43, 166, 156, 76], rfl⟩
  else if b = [101, 204, 129] then
    ⟨[191, 18, 118, 123, 15, 42, 86, 178, 25, 0, 117, 186, 232, 22, 159, 101, 110, 60, 232, 214,
       53, 125, 74, 255, 24, 75, 198, 199, 234, 72, 249, 246], rfl⟩
  else if b = [1, 0, 1, 74, 153, 0, 0, 0, 0] ++ factPayload then
    ⟨[21, 157, 57, 174, 207, 20, 42, 227, 95, 218, 29, 150, 132, 240, 19, 198, 231, 78, 218,
       173, 161, 111, 124, 30, 180, 20, 87, 254, 38, 10, 60, 26], rfl⟩
  else
    ⟨[210, 79, 178, 15, 167, 144, 200, 245, 85, 200, 182, 31, 185, 44, 49, 152, 67, 185, 221,
       77, 88, 57, 118, 26, 168, 189, 243, 245, 60, 225, 69, 139], rfl⟩

open Classical in
/-- A codec that knows one value and its payload. -/
noncomputable def singleCodec (nfc : String → String) (sha256 : Bytes → Hash) (v : Value)
    (payload : Bytes) : Codec where
  readValue b :=
    if b = payload then .ok (v, []) else .error (.serialization "msgpack decode error")
  writeValue w :=
    if w = v then .ok payload else .error (.serialization "msgpack encode error")
  nfc := nfc
  sha256 := sha256

theorem singleCodec_lawful {nfc : String → String} {sha256 : Bytes → Hash} {v : Value}
    {payload : Bytes} : (singleCodec nfc sha256 v payload).Lawful := by
  intro w b hwrite _
  simp only [singleCodec] at hwrite ⊢
  split_ifs at hwrite with hw
  cases hwrite
  rw [if_pos rfl, hw]

/-- The codec of `factIn`. -/
noncomputable def acuteCodec : Codec :=
  singleCodec composeAcute acuteDigests
    (btreeToMsgpackMap ((factIn "\u00E9").wireMap composeAcute 0)) factPayload

theorem factIn_like : (factIn "\u00E9").Like composeAcute 0 (factIn "e\u0301") := by
  refine ⟨rfl, rfl, ?_, [], .nil, .nil⟩
  repeat' first
    | exact .nil
    | refine .cons ⟨rfl, ?_⟩ ?_
    | exact .none
    | exact .some rfl

theorem factIn_wireMap :
    (factIn "e\u0301").wireMap composeAcute 0 = (factIn "\u00E9").wireMap composeAcute 0 := by
  refine congrArg Sorted.ofList ?_
  rfl

theorem factIn_finite :
    (btreeToMsgpackMap ((factIn "\u00E9").wireMap composeAcute 0)).allFinite = true := by
  decide +kernel

/-- Both spellings are written, behind their own headers. -/
theorem factIn_serialize {ns : String} (hns : ns = "\u00E9" ∨ ns = "e\u0301") :
    acuteCodec.serializeGrain (factIn ns) 0 =
      .ok ((acuteCodec.header (factIn ns) 0).toBytes ++ factPayload,
        acuteCodec.sha256 ((acuteCodec.header (factIn ns) 0).toBytes ++ factPayload)) := by
  have hmap : (factIn ns).wireMap acuteCodec.nfc 0 = (factIn "\u00E9").wireMap composeAcute 0 := by
    rcases hns with rfl | rfl
    · rfl
    · exact factIn_wireMap
  have hwrite : acuteCodec.writeValue
      (btreeToMsgpackMap ((factIn "\u00E9").wireMap composeAcute 0)) = .ok factPayload := if_pos rfl
  have hsize : ¬Core.maxGrainBytes <
      ((acuteCodec.header (factIn ns) 0).toBytes ++ factPayload).length := by
    rw [List.length_append]
    change ¬Core.maxGrainBytes < 9 + factPayload.length
    decide
  have hguard : guardMsgpackShape factPayload = .ok () := by decide +kernel
  rw [Codec.serializeGrain, hmap]
  simp only [factIn_finite, not_true_eq_false, if_false, hwrite, hguard, hsize, bind, Except.bind,
    pure, Except.pure]

theorem acute_nsHash :
    acuteCodec.nsHash (some "\u00E9") ≠ acuteCodec.nsHash (some "e\u0301") := by
  simp only [Codec.nsHash, acuteCodec, singleCodec]
  decide +kernel

/-- Composed and decomposed, the second spelling of a namespace has a blob of its own. -/
theorem serializeGrain_canonical_acute :
    acuteCodec.serializeGrain (factIn "e\u0301") 0 ≠
      .ok ((acuteCodec.header (factIn "\u00E9") 0).toBytes ++ factPayload,
        acuteCodec.sha256 ((acuteCodec.header (factIn "\u00E9") 0).toBytes ++ factPayload)) :=
  fun h => acute_nsHash (((serializeGrain_canonical acuteCodec singleCodec_lawful 0).1
    (factIn "\u00E9") (factIn "e\u0301") factIn_like _ _ (factIn_serialize (.inl rfl))).1 h).nsHash

/-- **A namespace has two addresses.**  Grains alike up to composition are written
as different blobs. -/
theorem namespace_spelling_splits :
    ¬∀ g g' : TypedGrain, g.Like composeAcute 0 g' → ∀ blob blob' hash hash',
      acuteCodec.serializeGrain g 0 = .ok (blob, hash) →
        acuteCodec.serializeGrain g' 0 = .ok (blob', hash') → blob = blob' := by
  intro h
  have heq := h (factIn "\u00E9") (factIn "e\u0301") factIn_like _ _ _ _
    (factIn_serialize (.inl rfl)) (factIn_serialize (.inr rfl))
  have hheader := Codec.MgHeader.toBytes_injective (List.append_inj heq rfl).1
  exact acute_nsHash (congrArg MgHeader.nsHash hheader)

end Deja
