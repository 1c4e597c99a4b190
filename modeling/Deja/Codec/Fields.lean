import Deja.Codec.Malleable
import Deja.Codec.Serialize

/-!
# What a field reads back as

`Json.normalized`, `Atom.means` and `Field.means` say what a field of a grain means
once its strings are normalized; they name no short key.  `Json.Kept`,
`Atom.Kept` and `Field.Kept` say when the reader gives exactly that back for what
the serializer wrote: the keys of every object are distinct after normalization,
and writing and reading a key is the identity on them.
-/

namespace Deja

variable (nfc : String → String)

/-! ## What the fields mean -/

mutual

/-- A JSON value with its strings and keys normalized; no key is merged. -/
def Json.normalized : Json → Json
  | .str s => .str (nfc s)
  | .arr xs => .arr (Json.normalizedAll xs)
  | .obj fields => .obj (Sorted.sort (Json.normalizedFields fields))
  | j => j

/-- The elements of an array. -/
def Json.normalizedAll : List Json → List Json
  | [] => []
  | x :: xs => x.normalized :: Json.normalizedAll xs

/-- The fields of an object. -/
def Json.normalizedFields : List (String × Json) → List (String × Json)
  | [] => []
  | (k, v) :: fields => (nfc k, v.normalized) :: Json.normalizedFields fields

end

/-- What an atom means. -/
def Atom.means : Atom → Json
  | text s => .str (nfc s)
  | name s => .str s
  | texts l => .arr (l.map fun s => .str (nfc s))
  | flag b => .bool b
  | i64 i => .int i.toInt
  | u64 n => .int n.toNat
  | u32 n => .int n.toNat
  | f64 bits => .float bits
  | binary b => .str (String.ofList (hexEncode b))
  | json j => j.json.normalized nfc
  | jsons l => .arr (l.map fun j => j.json.normalized nfc)

/-- A record under its long names. -/
def recordMeans (entries : List (String × Option Atom)) : Json :=
  .obj (Sorted.sort ((written entries).map fun x => (x.1, x.2.means nfc)))

/-- What a field means. -/
def Field.means : Field → Json
  | atom a => a.means nfc
  | context j => j.json.normalized nfc
  | table entries => .obj (Sorted.sort (entries.map fun x => (nfc x.1, x.2.means nfc)))
  | record entries => recordMeans nfc entries
  | records _ l => .arr (l.map (recordMeans nfc))

/-! ## When they are kept -/

mutual

/-- Under a key mode, writing and reading keeps the value. -/
def Json.Kept : KeyMode → Json → Prop
  | m, .arr xs => Json.KeptAll m.element xs
  | m, .obj fields =>
    (fields.map fun x => nfc x.1).Nodup ∧ (∀ x ∈ fields, m.key (nfc x.1) = nfc x.1) ∧
      Json.KeptFields m fields
  | _, _ => True

/-- All elements are kept. -/
def Json.KeptAll : KeyMode → List Json → Prop
  | _, [] => True
  | m, x :: xs => x.Kept m ∧ Json.KeptAll m xs

/-- The values of all fields are kept. -/
def Json.KeptFields : KeyMode → List (String × Json) → Prop
  | _, [] => True
  | m, (k, v) :: fields => v.Kept (m.child (nfc k)) ∧ Json.KeptFields m fields

end

/-- Writing and reading keeps the atom. -/
def Atom.Kept (m : KeyMode) : Atom → Prop
  | f64 bits => isFinite bits
  | json j => j.json.Kept nfc m
  | jsons l => ∀ j ∈ l, j.json.Kept nfc m.element
  | _ => True

/-- Writing and reading keeps the record: its short keys are expanded again. -/
def RecordKept (m : KeyMode) (short : String → String) (entries : List (String × Option Atom)) :
    Prop :=
  ∀ x ∈ written entries, m.key (short x.1) = x.1 ∧ x.2.Kept nfc (m.child x.1)

/-- The keys of a context object survive compaction. -/
def ContextKept : Json → Prop
  | .obj fields =>
    (fields.map fun x => nfc x.1).Nodup ∧
      (∀ x ∈ fields, expandContextField (compactField (nfc x.1)) = nfc x.1) ∧
        ∀ x ∈ fields, x.2.Kept nfc .verbatim
  | other => other.Kept nfc .contextTop

/-- Writing and reading keeps the field. -/
def Field.Kept (m : KeyMode) : Field → Prop
  | atom a => a.Kept nfc m
  | context j => ContextKept nfc j.json
  | table entries => ∀ x ∈ entries, nfc x.1 = x.1 ∧ x.2.Kept nfc .verbatim
  | record entries => RecordKept nfc m id entries
  | records short l => ∀ r ∈ l, RecordKept nfc m.element short r

/-! ## Reading succeeds -/

mutual

/-- Values the reader accepts, floats aside. -/
def Value.Sane : Value → Prop
  | .integer i => -(2 ^ 63) ≤ i ∧ i < 2 ^ 64
  | .array xs => Value.SaneAll xs
  | .map pairs => Value.SanePairs pairs
  | .ext _ _ => False
  | _ => True

/-- All elements. -/
def Value.SaneAll : List Value → Prop
  | [] => True
  | x :: xs => x.Sane ∧ Value.SaneAll xs

/-- Keys are strings and values are sane. -/
def Value.SanePairs : List (Value × Value) → Prop
  | [] => True
  | (k, v) :: pairs => (∃ s, k = .string s) ∧ v.Sane ∧ Value.SanePairs pairs

end

namespace Value

theorem saneAll_iff {xs : List Value} : SaneAll xs ↔ ∀ x ∈ xs, x.Sane := by
  induction xs with
  | nil => simp [SaneAll]
  | cons x xs ih => rw [SaneAll, ih, List.forall_mem_cons]

theorem sanePairs_iff {pairs : List (Value × Value)} :
    SanePairs pairs ↔ ∀ x ∈ pairs, (∃ s, x.1 = .string s) ∧ x.2.Sane := by
  induction pairs with
  | nil => simp [SanePairs]
  | cons x pairs ih =>
    obtain ⟨k, v⟩ := x
    rw [SanePairs, ih, List.forall_mem_cons, and_assoc]

theorem allFiniteList_iff {xs : List Value} : allFiniteList xs ↔ ∀ x ∈ xs, x.allFinite := by
  induction xs with
  | nil => simp [allFiniteList]
  | cons x xs ih => rw [allFiniteList, Bool.and_eq_true, ih, List.forall_mem_cons]

theorem allFinitePairs_iff {pairs : List (Value × Value)} :
    allFinitePairs pairs ↔ ∀ x ∈ pairs, x.2.allFinite := by
  induction pairs with
  | nil => simp [allFinitePairs]
  | cons x pairs ih =>
    obtain ⟨k, v⟩ := x
    rw [allFinitePairs, Bool.and_eq_true, ih, List.forall_mem_cons]

end Value

theorem elementsToJson_exists {m : KeyMode} {xs : List Value}
    (h : ∀ x ∈ xs, ∃ j, msgpackToJson m x = .ok j) : ∃ js, elementsToJson m xs = .ok js := by
  induction xs with
  | nil => exact ⟨[], rfl⟩
  | cons x xs ih =>
    rw [List.forall_mem_cons] at h
    obtain ⟨⟨j, hj⟩, hxs⟩ := h
    obtain ⟨js, hjs⟩ := ih hxs
    exact ⟨j :: js, by rw [elementsToJson, hj, hjs]; rfl⟩

theorem pairsToJson_exists {m : KeyMode} {pairs : List (Value × Value)}
    (h : ∀ x ∈ pairs, (∃ s, x.1 = .string s) ∧ ∀ m, ∃ j, msgpackToJson m x.2 = .ok j) :
    ∃ fields, pairsToJson m pairs = .ok fields := by
  induction pairs with
  | nil => exact ⟨[], rfl⟩
  | cons x pairs ih =>
    obtain ⟨k, v⟩ := x
    rw [List.forall_mem_cons] at h
    obtain ⟨⟨⟨s, rfl⟩, hv⟩, hrest⟩ := h
    obtain ⟨j, hj⟩ := hv (m.child (m.key s))
    obtain ⟨fields, hfields⟩ := ih hrest
    refine ⟨(m.key s, j) :: fields, ?_⟩
    simp only [pairsToJson, Value.asKey, bind, Except.bind, hj, hfields]
    rfl

/-- A sane value with finite floats is read under every key mode. -/
theorem msgpackToJson_exists {v : Value} : v.Sane → v.allFinite → ∀ m, ∃ j,
    msgpackToJson m v = .ok j := by
  induction v using Value.induction with
  | h v ih =>
    intro hsane hfinite m
    cases v with
    | nil | boolean | string | invalid | binary => exact ⟨_, rfl⟩
    | integer i => exact ⟨.int i, if_pos hsane⟩
    | f32 bits => exact ⟨.float (widen bits), if_pos hfinite⟩
    | f64 bits => exact ⟨.float bits, if_pos hfinite⟩
    | array xs =>
      have hsane := Value.saneAll_iff.1 hsane
      have hfinite := Value.allFiniteList_iff.1 hfinite
      obtain ⟨js, hjs⟩ := @elementsToJson_exists m.element xs fun x hx =>
        ih x hx (hsane x hx) (hfinite x hx) m.element
      exact ⟨.arr js, by rw [msgpackToJson, hjs]; rfl⟩
    | map pairs =>
      have hsane := Value.sanePairs_iff.1 hsane
      have hfinite := Value.allFinitePairs_iff.1 hfinite
      obtain ⟨fields, hfields⟩ := pairsToJson_exists (m := m) fun x hx =>
        ⟨(hsane x hx).1, ih x.2 (List.mem_map_of_mem hx) (hsane x hx).2 (hfinite x hx)⟩
      exact ⟨.obj (Sorted.ofList fields), by rw [msgpackToJson, hfields]; rfl⟩
    | ext type data => exact hsane.elim

/-! ## What reading gives -/

/-- What the reader makes of a value; `null` where it fails. -/
def got (m : KeyMode) (v : Value) : Json := (msgpackToJson m v).toOption.getD .null

theorem got_of_ok {m : KeyMode} {v : Value} {j : Json} (h : msgpackToJson m v = .ok j) :
    got m v = j := by
  rw [got, h]
  rfl

theorem msgpackToJson_got {m : KeyMode} {v : Value} (hsane : v.Sane) (hfinite : v.allFinite) :
    msgpackToJson m v = .ok (got m v) := by
  obtain ⟨j, hj⟩ := msgpackToJson_exists hsane hfinite m
  rw [got_of_ok hj, hj]

theorem elementsToJson_got {m : KeyMode} {xs : List Value}
    (h : ∀ x ∈ xs, x.Sane ∧ x.allFinite) : elementsToJson m xs = .ok (xs.map (got m)) := by
  induction xs with
  | nil => rfl
  | cons x xs ih =>
    rw [List.forall_mem_cons] at h
    rw [elementsToJson, msgpackToJson_got h.1.1 h.1.2, ih h.2]
    rfl

theorem pairsToJson_got {m : KeyMode} {map : List (String × Value)}
    (h : ∀ x ∈ map, x.2.Sane ∧ x.2.allFinite) :
    pairsToJson m (map.map fun x => (.string x.1, x.2)) =
      .ok (map.map fun x => (m.key x.1, got (m.child (m.key x.1)) x.2)) := by
  induction map with
  | nil => rfl
  | cons x map ih =>
    rw [List.forall_mem_cons] at h
    simp only [List.map_cons, pairsToJson, Value.asKey, bind, Except.bind,
      msgpackToJson_got h.1.1 h.1.2, ih h.2]
    rfl

theorem got_map {m : KeyMode} {map : List (String × Value)}
    (h : ∀ x ∈ map, x.2.Sane ∧ x.2.allFinite) :
    got m (btreeToMsgpackMap map) =
      .obj (Sorted.ofList (map.map fun x => (m.key x.1, got (m.child (m.key x.1)) x.2))) :=
  got_of_ok (by rw [btreeToMsgpackMap, msgpackToJson, pairsToJson_got h]; rfl)

theorem got_array {m : KeyMode} {xs : List Value} (h : ∀ x ∈ xs, x.Sane ∧ x.allFinite) :
    got m (.array xs) = .arr (xs.map (got m.element)) :=
  got_of_ok (by rw [msgpackToJson, elementsToJson_got h]; rfl)

theorem btree_sane {map : List (String × Value)} (h : ∀ x ∈ map, x.2.Sane) :
    (btreeToMsgpackMap map).Sane := by
  refine Value.sanePairs_iff.2 fun x hx => ?_
  obtain ⟨y, hy, rfl⟩ := List.mem_map.1 hx
  exact ⟨⟨y.1, rfl⟩, h y hy⟩

theorem btree_allFinite {map : List (String × Value)} :
    (btreeToMsgpackMap map).allFinite ↔ ∀ x ∈ map, x.2.allFinite := by
  rw [btreeToMsgpackMap, Value.allFinite, Value.allFinitePairs_iff]
  exact List.forall_mem_map

/-- **A map written under other keys and read back**, entry by entry. -/
theorem got_map_eq_iff {ι : Type} {m : KeyMode} {l : List ι} {wire name : ι → String}
    {value : ι → Value} {want : ι → Json} (hsane : ∀ i ∈ l, (value i).Sane)
    (hfinite : ∀ x ∈ Sorted.ofList (l.map fun i => (wire i, value i)), x.2.allFinite) :
    got m (btreeToMsgpackMap (Sorted.ofList (l.map fun i => (wire i, value i)))) =
        .obj (Sorted.sort (l.map fun i => (name i, want i))) ↔
      (l.map name).Nodup ∧
        (l.map fun i => (m.key (wire i), got (m.child (m.key (wire i))) (value i))).Perm
          (l.map fun i => (name i, want i)) := by
  have hall : ∀ x ∈ Sorted.ofList (l.map fun i => (wire i, value i)),
      x.2.Sane ∧ x.2.allFinite := fun x hx => by
    obtain ⟨i, hi, rfl⟩ := List.mem_map.1 (Sorted.mem_of_mem_ofList hx)
    exact ⟨hsane i hi, hfinite _ hx⟩
  have hvalue := Sorted.ofList_map_value (l.map fun i => (wire i, i)) fun _ i => value i
  rw [List.map_map] at hvalue
  have hread := Sorted.read_eq_sort_iff l wire name m.key
    (fun i => got (m.child (m.key (wire i))) (value i)) want
  rw [got_map hall, Json.obj.injEq, ← hread]
  refine Eq.congr_left (congrArg Sorted.ofList ?_)
  rw [show (l.map fun i => (wire i, value i)) =
    l.map ((fun x : String × ι => (x.1, value x.2)) ∘ fun i => (wire i, i)) from rfl, hvalue,
    List.map_map]
  refine List.map_congr_left fun x hx => ?_
  obtain ⟨i, -, rfl⟩ := List.mem_map.1 (Sorted.mem_of_mem_ofList hx)
  rfl

/-- The same where expanding and shortening is idempotent: every key and every
value is kept. -/
theorem got_map_kept_iff {ι : Type} {m : KeyMode} {l : List ι} {wire name : ι → String}
    {value : ι → Value} {want : ι → Json} (hsane : ∀ i ∈ l, (value i).Sane)
    (hfinite : ∀ x ∈ Sorted.ofList (l.map fun i => (wire i, value i)), x.2.allFinite)
    (hfixed : (l.map fun i => m.key (wire i)).Perm (l.map name) →
      ∀ i ∈ l, m.key (wire i) = name i) :
    got m (btreeToMsgpackMap (Sorted.ofList (l.map fun i => (wire i, value i)))) =
        .obj (Sorted.sort (l.map fun i => (name i, want i))) ↔
      (l.map name).Nodup ∧ (∀ i ∈ l, m.key (wire i) = name i) ∧
        ∀ i ∈ l, got (m.child (name i)) (value i) = want i := by
  rw [got_map_eq_iff hsane hfinite]
  refine and_congr_right fun hname => ?_
  constructor
  · intro hp
    have hkeys := hp.map Prod.fst
    rw [List.map_map, List.map_map] at hkeys
    have hkey := hfixed hkeys
    refine ⟨hkey, fun i hi => ?_⟩
    rw [← hkey i hi]
    exact Sorted.values_of_perm hname hkey hp i hi
  · rintro ⟨hkey, hvalue⟩
    refine List.Perm.of_eq (List.map_congr_left fun i hi => ?_)
    rw [hkey i hi, hvalue i hi]

end Deja
