import Deja.Schema.Instance

/-!
# The instance check and the meaning of schemas

Both sides ask one thing at every keyword the instance check comes across: the code its
reading of the keyword, JSON Schema the keyword's meaning (`readings`).  They agree on
an instance where no keyword is read differently, where one refuses in both readings, or
where one is read too strictly and another too leniently, and nowhere else
(`validateInstance_iff`).

The structural check of the schema provides that every pattern compiles and that the
depth is never exceeded.
-/

namespace Deja.Schema

/-! ## Keywords and how they are read -/

/-- What the code asks at a keyword, and what the keyword means. -/
structure Reading where
  code : Prop
  meaning : Prop

/-- A keyword read as it is meant. -/
abbrev asMeant (p : Prop) : Reading := ⟨p, p⟩

/-- A keyword the code passes over. -/
abbrev ignored (p : Prop) : Reading := ⟨True, p⟩

/-- A whole number is an `integer`; the code wants it written as one. -/
def typeReading (sch : Members) (inst : Json) : Reading where
  code := ∀ t, sch.lookup "type" = some t → typeNames t ≠ [] →
    ∃ n ∈ typeNames t, matchesName inst n = true
  meaning := ∀ t, sch.lookup "type" = some t → typeNames t ≠ [] → ∃ n ∈ typeNames t, OfType inst n

/-- Constants are equal by value; to the code an integer is no float. -/
def constReading (sch : Members) (inst : Json) : Reading where
  code := ∀ c, sch.lookup "const" = some c → Json.eqValue false c inst = true
  meaning := ∀ c, sch.lookup "const" = some c → Json.eqValue true c inst = true

/-- The same for a list of constants. -/
def enumReading (sch : Members) (inst : Json) : Reading where
  code := ∀ ms, sch.lookup "enum" = some (.arr ms) → ∃ m ∈ ms, Json.eqValue false m inst = true
  meaning := ∀ ms, sch.lookup "enum" = some (.arr ms) → ∃ m ∈ ms, Json.eqValue true m inst = true

/-- A count under `key`; the code wants it written as an integer of 64 bits. -/
def countReading (sch : Members) (key : String) (within : ℕ → Prop) : Reading where
  code := ∀ n, (sch.lookup key).bind Json.asU64 = some n → within n
  meaning := ∀ n : ℕ, (sch.lookup key).bind Json.numValue = some (n : ℚ) → within n

/-- A number under `key`; the code compares as doubles. -/
def boundReading (sch : Members) (key : String) (asDoubles exactly : ℚ → Prop) : Reading where
  code := ∀ d, (sch.lookup key).bind Json.asF64 = some d → asDoubles d
  meaning := ∀ b, boundAt sch key = some b → exactly b

/-- The keywords for every type. -/
def anyReadings (sch : Members) (inst : Json) : List Reading :=
  [typeReading sch inst, constReading sch inst, enumReading sch inst]

/-- The keywords of numbers; `x` is the number and `d` its double. -/
def numberReadings (sch : Members) (x d : ℚ) : List Reading :=
  [boundReading sch "minimum" (fun b => b ≤ d) fun b => b ≤ x,
    boundReading sch "maximum" (fun b => d ≤ b) fun b => x ≤ b,
    boundReading sch "exclusiveMinimum" (fun b => b < d) fun b => b < x,
    boundReading sch "exclusiveMaximum" (fun b => d < b) fun b => x < b,
    boundReading sch "multipleOf" (fun b => onGrid d b = true) fun b => 0 < b → ∃ k : ℤ, x = k * b]

/-- The code passes over the schema `false`. -/
def readingsUnder (schema inst : Json) (rest : Members → List Reading) : List Reading :=
  match schema with
  | .obj sch => anyReadings sch inst ++ rest sch
  | .bool b => [ignored (b = true)]
  | _ => []

section Readings

variable (R : Regex)

mutual

/-- The keywords met by an instance. -/
def readings : Json → Json → List Reading
  | .obj obj, schema => readingsUnder schema (.obj obj) fun sch =>
      asMeant (∀ req, sch.lookup "required" = some (.arr req) →
          ∀ k, .str k ∈ req → ∃ v, (k, v) ∈ obj) ::
        countReading sch "minProperties" (· ≤ obj.length) ::
        countReading sch "maxProperties" (obj.length ≤ ·) :: memberReadings sch obj
  | .arr arr, schema => readingsUnder schema (.arr arr) fun sch =>
      countReading sch "minItems" (· ≤ arr.length) ::
        countReading sch "maxItems" (arr.length ≤ ·) ::
        match sch.lookup "items" with
        | some (.obj items) => itemReadings items arr
        | some (.arr subs) => [ignored (ValidTuple R subs arr)]
        | some (.bool b) => [ignored (b = true ∨ arr = [])]
        | _ => []
  | .str s, schema => readingsUnder schema (.str s) fun sch =>
      [countReading sch "minLength" (· ≤ s.length), countReading sch "maxLength" (s.length ≤ ·),
        asMeant (∀ p, sch.lookup "pattern" = some (.str p) → R.isMatch p s = true)]
  | .int i, schema => readingsUnder schema (.int i) fun sch => numberReadings sch i (roundInt i)
  | .float bits, schema => readingsUnder schema (.float bits) fun sch =>
      numberReadings sch (f64Value bits) (f64Value bits)
  | .bool b, schema => readingsUnder schema (.bool b) fun _ => []
  | .null, schema => readingsUnder schema .null fun _ => []

/-- The members of an object. -/
def memberReadings : Members → Members → List Reading
  | _, [] => []
  | sch, (k, v) :: obj =>
    (match ((sch.lookup "properties").bind Json.asObject).bind (List.lookup k) with
    | some sub => readings v sub
    | none =>
      match sch.lookup "additionalProperties" with
      | some (.obj sub) => readings v (.obj sub)
      | some (.bool b) => [asMeant (b = true)]
      | _ => []) ++ memberReadings sch obj

/-- The elements of an array. -/
def itemReadings : Members → List Json → List Reading
  | _, [] => []
  | items, v :: arr => readings v (.obj items) ++ itemReadings items arr

end

end Readings

/-- Among the keywords met none is read differently, or one refuses in both readings, or
one is read too strictly and another too leniently. -/
def ReadAlike (rs : List Reading) : Prop :=
  (∀ r ∈ rs, r.code ↔ r.meaning) ∨ (∃ r ∈ rs, ¬ r.code ∧ ¬ r.meaning) ∨
    (∃ r ∈ rs, ¬ r.code ∧ r.meaning) ∧ ∃ r ∈ rs, r.code ∧ ¬ r.meaning

theorem readAlike_iff (rs : List Reading) :
    ((∀ r ∈ rs, r.code) ↔ ∀ r ∈ rs, r.meaning) ↔ ReadAlike rs := by
  constructor
  · intro h
    by_cases hall : ∀ r ∈ rs, r.code ↔ r.meaning
    · exact .inl hall
    · -- one side refuses at a keyword read differently, so both refuse somewhere
      have hcode : ¬ ∀ r ∈ rs, r.code := fun hc =>
        hall fun r hr => iff_of_true (hc r hr) (h.1 hc r hr)
      have hmeaning : ¬ ∀ r ∈ rs, r.meaning := fun hm => hcode (h.2 hm)
      push Not at hcode hmeaning
      obtain ⟨r, hr, hrc⟩ := hcode
      obtain ⟨q, hq, hqm⟩ := hmeaning
      by_cases hrm : r.meaning
      · by_cases hqc : q.code
        · exact .inr (.inr ⟨⟨r, hr, hrc, hrm⟩, q, hq, hqc, hqm⟩)
        · exact .inr (.inl ⟨q, hq, hqc, hqm⟩)
      · exact .inr (.inl ⟨r, hr, hrc, hrm⟩)
  · rintro (hall | ⟨r, hr, hrc, hrm⟩ | ⟨⟨r, hr, hrc, -⟩, q, hq, -, hqm⟩)
    · exact forall₂_congr hall
    · exact iff_of_false (fun h => hrc (h r hr)) fun h => hrm (h r hr)
    · exact iff_of_false (fun h => hrc (h r hr)) fun h => hqm (h q hq)

/-! ## One level -/

theorem require_ok {b : Bool} {e : InstanceErrorKind} : require b e = .ok () ↔ b = true := by
  cases b <;> simp [require]

/-- Two checks in a row succeed when both do. -/
theorem inTurn_ok {E : Type} {x y : Except E Unit} :
    (x >>= fun _ => y) = .ok () ↔ x = .ok () ∧ y = .ok () := by
  cases x with
  | error e => simp [bind, Except.bind]
  | ok u => simp [bind, Except.bind]

theorem typeAllows_iff {sch : Members} {inst : Json} :
    typeAllows sch inst = true ↔ (typeReading sch inst).code := by
  unfold typeAllows typeReading
  cases sch.lookup "type" with
  | none => simp
  | some t =>
    simp only [Bool.or_eq_true, List.isEmpty_iff, typeMatches, List.any_eq_true, Option.some.injEq,
      forall_eq', ← or_iff_not_imp_left]

theorem constAllows_iff {sch : Members} {inst : Json} :
    constAllows sch inst = true ↔ (constReading sch inst).code := by
  unfold constAllows constReading
  cases sch.lookup "const" <;> simp

theorem enumAllows_iff {sch : Members} {inst : Json} :
    enumAllows sch inst = true ↔ (enumReading sch inst).code := by
  unfold enumAllows enumReading
  cases sch.lookup "enum" with
  | none => simp
  | some v => cases v <;> simp

theorem checkAny_iff {sch : Members} {inst : Json} :
    checkAny sch inst = .ok () ↔ ∀ r ∈ anyReadings sch inst, r.code := by
  unfold checkAny
  rw [inTurn_ok, inTurn_ok, require_ok, require_ok, require_ok, typeAllows_iff, constAllows_iff,
    enumAllows_iff]
  simp [anyReadings]

theorem anyKeywords_iff {sch : Members} {inst : Json} :
    AnyKeywords sch inst ↔ ∀ r ∈ anyReadings sch inst, r.meaning := by
  simp only [anyReadings, List.forall_mem_cons, List.not_mem_nil, false_imp_iff, implies_true,
    and_true]
  exact ⟨fun h => ⟨h.type, h.const, h.enum⟩, fun h => ⟨h.1, h.2.1, h.2.2⟩⟩

theorem atLeast_iff {sch : Members} {key : String} {len : ℕ} :
    atLeast sch key len = true ↔ (countReading sch key (· ≤ len)).code := by
  unfold atLeast countReading
  cases (sch.lookup key).bind Json.asU64 <;> simp

theorem atMost_iff {sch : Members} {key : String} {len : ℕ} :
    atMost sch key len = true ↔ (countReading sch key (len ≤ ·)).code := by
  unfold atMost countReading
  cases (sch.lookup key).bind Json.asU64 <;> simp

theorem lookup_isSome_iff {obj : Members} {k : String} :
    (obj.lookup k).isSome = true ↔ ∃ v, (k, v) ∈ obj := by
  induction obj with
  | nil => simp
  | cons x obj ih =>
    obtain ⟨l, v⟩ := x
    rw [List.lookup_cons]
    by_cases hk : k = l
    · subst hk
      simp
    · have hne : (k == l) = false := by simpa using hk
      simp [hne, ih, hk]

theorem mem_filterMap_asStr {req : List Json} {k : String} :
    k ∈ req.filterMap Json.asStr ↔ Json.str k ∈ req := by
  rw [List.mem_filterMap]
  constructor
  · rintro ⟨v, hv, hs⟩
    cases v <;> simp only [Json.asStr, Option.some.injEq, reduceCtorEq] at hs
    subst hs
    exact hv
  · intro hv
    exact ⟨.str k, hv, rfl⟩

theorem hasRequired_iff {sch obj : Members} : hasRequired sch obj = true ↔
    ∀ req, sch.lookup "required" = some (.arr req) → ∀ k, .str k ∈ req → ∃ v, (k, v) ∈ obj := by
  unfold hasRequired
  cases hr : sch.lookup "required" with
  | none => simp
  | some v =>
    cases v with
    | arr req =>
      simp only [List.all_eq_true, mem_filterMap_asStr, lookup_isSome_iff, Option.some.injEq,
        Json.arr.injEq, forall_eq']
    | _ => simp

theorem checkObject_iff {sch obj : Members} : checkObject sch obj = .ok () ↔
    (∀ req, sch.lookup "required" = some (.arr req) → ∀ k, .str k ∈ req → ∃ v, (k, v) ∈ obj) ∧
      (countReading sch "minProperties" (· ≤ obj.length)).code ∧
      (countReading sch "maxProperties" (obj.length ≤ ·)).code := by
  unfold checkObject
  rw [inTurn_ok, inTurn_ok, require_ok, require_ok, require_ok, hasRequired_iff, atLeast_iff,
    atMost_iff]

theorem objectKeywords_iff {sch obj : Members} : ObjectKeywords sch obj ↔
    (∀ req, sch.lookup "required" = some (.arr req) → ∀ k, .str k ∈ req → ∃ v, (k, v) ∈ obj) ∧
      (countReading sch "minProperties" (· ≤ obj.length)).meaning ∧
      (countReading sch "maxProperties" (obj.length ≤ ·)).meaning :=
  ⟨fun h => ⟨h.required, h.minProperties, h.maxProperties⟩, fun h => ⟨h.1, h.2.1, h.2.2⟩⟩

theorem checkArray_iff {sch : Members} {arr : List Json} : checkArray sch arr = .ok () ↔
    (countReading sch "minItems" (· ≤ arr.length)).code ∧
      (countReading sch "maxItems" (arr.length ≤ ·)).code := by
  unfold checkArray
  rw [inTurn_ok, require_ok, require_ok, atLeast_iff, atMost_iff]

theorem arrayKeywords_iff {sch : Members} {arr : List Json} : ArrayKeywords sch arr ↔
    (countReading sch "minItems" (· ≤ arr.length)).meaning ∧
      (countReading sch "maxItems" (arr.length ≤ ·)).meaning :=
  ⟨fun h => ⟨h.minItems, h.maxItems⟩, fun h => ⟨h.1, h.2⟩⟩

/-- The pattern of a schema compiles. -/
def Compiles (R : Regex) (sch : Members) : Prop :=
  ∀ p, sch.lookup "pattern" = some (.str p) → R.build p = .ok ()

theorem patternAllows_iff {R : Regex} {sch : Members} {s : String} (hc : Compiles R sch) :
    patternAllows R sch s = true ↔
      ∀ p, sch.lookup "pattern" = some (.str p) → R.isMatch p s = true := by
  unfold patternAllows
  cases hp : sch.lookup "pattern" with
  | none => simp
  | some v =>
    cases v with
    | str p => simp [Json.asStr, hc p hp]
    | _ => simp [Json.asStr]

theorem checkString_iff {R : Regex} {sch : Members} {s : String} (hc : Compiles R sch) :
    checkString R sch s = .ok () ↔
      (countReading sch "minLength" (· ≤ s.length)).code ∧
        (countReading sch "maxLength" (s.length ≤ ·)).code ∧
        ∀ p, sch.lookup "pattern" = some (.str p) → R.isMatch p s = true := by
  unfold checkString
  rw [inTurn_ok, inTurn_ok, require_ok, require_ok, require_ok, atLeast_iff, atMost_iff,
    patternAllows_iff hc]

theorem stringKeywords_iff {R : Regex} {sch : Members} {s : String} : StringKeywords R sch s ↔
    (countReading sch "minLength" (· ≤ s.length)).meaning ∧
      (countReading sch "maxLength" (s.length ≤ ·)).meaning ∧
      ∀ p, sch.lookup "pattern" = some (.str p) → R.isMatch p s = true :=
  ⟨fun h => ⟨h.minLength, h.maxLength, h.pattern⟩, fun h => ⟨h.1, h.2.1, h.2.2⟩⟩

theorem bounded_iff {sch : Members} {key : String} {within : ℚ → Bool} (exactly : ℚ → Prop) :
    bounded sch key within = true ↔
      (boundReading sch key (fun b => within b = true) exactly).code := by
  unfold bounded boundReading
  cases (sch.lookup key).bind Json.asF64 <;> simp

theorem checkNumber_iff {sch : Members} {x d : ℚ} :
    checkNumber sch d = .ok () ↔ ∀ r ∈ numberReadings sch x d, r.code := by
  unfold checkNumber
  rw [inTurn_ok, inTurn_ok, inTurn_ok, inTurn_ok, require_ok, require_ok, require_ok, require_ok,
    require_ok, bounded_iff fun b => b ≤ x, bounded_iff fun b => x ≤ b, bounded_iff fun b => b < x,
    bounded_iff fun b => x < b, bounded_iff fun b => 0 < b → ∃ k : ℤ, x = k * b]
  simp [numberReadings, boundReading]

theorem numberKeywords_iff {sch : Members} {x d : ℚ} :
    NumberKeywords sch x ↔ ∀ r ∈ numberReadings sch x d, r.meaning := by
  simp only [numberReadings, List.forall_mem_cons, List.not_mem_nil, false_imp_iff, implies_true,
    and_true]
  exact ⟨fun h => ⟨h.minimum, h.maximum, h.exclusiveMinimum, h.exclusiveMaximum, h.multipleOf⟩,
    fun h => ⟨h.1, h.2.1, h.2.2.1, h.2.2.2.1, h.2.2.2.2⟩⟩

/-! ## What the structural check provides -/

/-- The members of a schema passed the structural check at a depth. -/
structure Accepted (R : Regex) (depth : ℕ) (sch : Members) : Prop where
  compiles : Compiles R sch
  property : ∀ props, sch.lookup "properties" = some (.obj props) → ∀ k sub,
    props.lookup k = some sub → visit R.build (depth + 1) sub = .ok ()
  under : ∀ k ∈ ["items", "additionalProperties"], ∀ sub, sch.lookup k = some (.obj sub) →
    visit R.build (depth + 1) (.obj sub) = .ok ()

theorem visit_depth {build : String → Except String Unit} {depth : ℕ} {schema : Json}
    (h : visit build depth schema = .ok ()) : ¬ maxSchemaDepth < depth := by
  intro hd
  cases schema <;> simp [visit, hd] at h

theorem visitProps_ok {build : String → Except String Unit} {depth : ℕ} {props : Members}
    (h : visitProps build depth props = .ok ()) {k : String} {sub : Json}
    (hk : props.lookup k = some sub) : visit build depth sub = .ok () := by
  induction props with
  | nil => simp at hk
  | cons x props ih =>
    obtain ⟨l, v⟩ := x
    rw [visitProps, inTurn_ok] at h
    rw [List.lookup_cons] at hk
    by_cases hkl : k = l
    · subst hkl
      simp only [beq_self_eq_true, Option.some.injEq] at hk
      rw [← hk]
      exact h.1
    · have hne : (k == l) = false := by simpa using hkl
      rw [hne] at hk
      exact ih h.2 hk

theorem checkKeyword_pattern {build : String → Except String Unit} {p : String}
    (h : checkKeyword build "pattern" (.str p) = .ok ()) : build p = .ok () := by
  unfold checkKeyword at h
  rw [if_neg (by decide), if_neg (by decide), if_pos rfl] at h
  simp only at h
  cases hb : build p with
  | error e => rw [hb] at h; cases h
  | ok u => rfl

theorem visitMembers_cons {build : String → Except String Unit} {depth : ℕ} {k : String} {v : Json}
    {obj : Members} (h : visitMembers build depth ((k, v) :: obj) = .ok ()) :
    checkKeyword build k v = .ok () ∧ visitMembers build depth obj = .ok () := by
  cases v <;> (simp only [visitMembers, inTurn_ok] at h; exact ⟨h.1, h.2.2⟩)

theorem visitMembers_accepted {R : Regex} {depth : ℕ} {sch : Members}
    (h : visitMembers R.build depth sch = .ok ()) : Accepted R depth sch := by
  -- what holds of the first member under a key holds of the one `lookup` finds
  have hmem : ∀ (sch : Members), visitMembers R.build depth sch = .ok () → ∀ k v,
      sch.lookup k = some v → checkKeyword R.build k v = .ok () ∧
        (k = "properties" → ∀ props, v = .obj props →
          visitProps R.build (depth + 1) props = .ok ()) ∧
        (k = "items" ∨ k = "additionalProperties" → ∀ sub, v = .obj sub →
          visit R.build (depth + 1) (.obj sub) = .ok ()) := by
    intro sch
    induction sch with
    | nil => intro _ k v hk; simp at hk
    | cons x sch ih =>
      intro h k v hk
      obtain ⟨l, w⟩ := x
      rw [List.lookup_cons] at hk
      by_cases hkl : k = l
      · subst hkl
        simp only [beq_self_eq_true, Option.some.injEq] at hk
        subst hk
        refine ⟨(visitMembers_cons h).1, ?_, ?_⟩
        · rintro rfl props rfl
          rw [visitMembers, inTurn_ok, inTurn_ok] at h
          simpa using h.2.1
        · rintro hk sub rfl
          have hp : k ≠ "properties" := by
            rcases hk with rfl | rfl <;> decide
          rw [visitMembers, inTurn_ok, inTurn_ok] at h
          simpa [hp, hk] using h.2.1
      · have hne : (k == l) = false := by simpa using hkl
        rw [hne] at hk
        exact ih (visitMembers_cons h).2 k v hk
  refine ⟨fun p hp => checkKeyword_pattern (hmem sch h _ _ hp).1, ?_, ?_⟩
  · intro props hp k sub hk
    exact visitProps_ok ((hmem sch h _ _ hp).2.1 rfl props rfl) hk
  · intro k hk sub hs
    exact (hmem sch h _ _ hs).2.2 (by simpa using hk) sub rfl

/-! ## Every level -/

section Levels

variable {R : Regex}

/-- A level accepts where the keywords for every type and the rest of it do. -/
theorem atSchema_iff {depth : ℕ} {schema inst : Json}
    {code : Members → Except InstanceErrorKind Unit} {rest : Members → List Reading}
    (hv : visit R.build depth schema = .ok ())
    (hrest : ∀ sch, Accepted R depth sch → (code sch = .ok () ↔ ∀ r ∈ rest sch, r.code)) :
    atSchema depth schema inst code = .ok () ↔ ∀ r ∈ readingsUnder schema inst rest, r.code := by
  have hd := visit_depth hv
  unfold atSchema
  rw [if_neg hd]
  cases schema with
  | obj sch =>
    rw [visit, if_neg hd] at hv
    simp only [readingsUnder, List.forall_mem_append, inTurn_ok, checkAny_iff,
      hrest sch (visitMembers_accepted hv)]
  | _ => simp [readingsUnder]

theorem under_iff {schema inst : Json} {meaning : Members → Prop} {rest : Members → List Reading}
    (hrest : ∀ sch, meaning sch ↔ ∀ r ∈ rest sch, r.meaning) :
    Under schema inst meaning ↔ ∀ r ∈ readingsUnder schema inst rest, r.meaning := by
  cases schema with
  | obj sch =>
    simp only [Under, readingsUnder, List.forall_mem_append, anyKeywords_iff, hrest sch]
  | _ => simp [Under, readingsUnder]

theorem valid_bool (inst : Json) (b : Bool) : Valid R inst (.bool b) ↔ b = true := by
  cases inst <;> simp [Valid, Under]

theorem validItems_bool (arr : List Json) (b : Bool) :
    ValidItems R (.bool b) arr ↔ b = true ∨ arr = [] := by
  induction arr with
  | nil => simp [ValidItems]
  | cons v arr ih =>
    rw [ValidItems, valid_bool, ih]
    simpa using Or.inl

/-- What is no schema constrains nothing. -/
theorem valid_of_no_schema {schema : Json} (hobj : ∀ sch, schema ≠ .obj sch)
    (hbool : ∀ b, schema ≠ .bool b) (inst : Json) : Valid R inst schema := by
  cases schema with
  | obj sch => exact absurd rfl (hobj sch)
  | bool b => exact absurd rfl (hbool b)
  | _ => cases inst <;> simp [Valid, Under]

theorem validItems_of_all {sub : Json} (h : ∀ v, Valid R v sub) (arr : List Json) :
    ValidItems R sub arr := by
  induction arr with
  | nil => simp [ValidItems]
  | cons v arr ih =>
    rw [ValidItems]
    exact ⟨h v, ih⟩

mutual

/-- **The check accepts what passes the code's reading of every keyword met.** -/
theorem validateRec_iff : ∀ (inst : Json) (depth : ℕ) (schema : Json),
    visit R.build depth schema = .ok () →
      (validateRec R depth inst schema = .ok () ↔ ∀ r ∈ readings R inst schema, r.code)
  | .obj obj, depth, schema, hv => by
    rw [validateRec, readings]
    refine atSchema_iff hv fun sch hacc => ?_
    rw [inTurn_ok, checkObject_iff, validateMembers_iff obj depth sch hacc]
    simp only [List.forall_mem_cons, and_assoc]
  | .arr arr, depth, schema, hv => by
    rw [validateRec, readings]
    refine atSchema_iff hv fun sch hacc => ?_
    rw [inTurn_ok, checkArray_iff]
    simp only [List.forall_mem_cons, and_assoc]
    refine and_congr_right fun _ => and_congr_right fun _ => ?_
    cases hi : sch.lookup "items" with
    | none => simp
    | some sub =>
      cases sub with
      | obj items => exact validateItems_iff arr depth items (hacc.under "items" (by simp) items hi)
      | _ => simp
  | .str s, depth, schema, hv => by
    rw [validateRec, readings]
    refine atSchema_iff hv fun sch hacc => ?_
    rw [checkString_iff hacc.compiles]
    simp
  | .int i, depth, schema, hv => by
    rw [validateRec, readings]
    exact atSchema_iff hv fun sch _ => checkNumber_iff
  | .float bits, depth, schema, hv => by
    rw [validateRec, readings]
    exact atSchema_iff hv fun sch _ => checkNumber_iff
  | .bool b, depth, schema, hv => by
    rw [validateRec, readings]
    exact atSchema_iff hv fun sch _ => by simp
  | .null, depth, schema, hv => by
    rw [validateRec, readings]
    exact atSchema_iff hv fun sch _ => by simp

theorem validateMembers_iff : ∀ (obj : Members) (depth : ℕ) (sch : Members),
    Accepted R depth sch →
      (validateMembers R depth sch obj = .ok () ↔ ∀ r ∈ memberReadings R sch obj, r.code)
  | [], _, _, _ => by simp [validateMembers, memberReadings]
  | (k, v) :: obj, depth, sch, hacc => by
    rw [validateMembers, memberReadings, inTurn_ok, validateMembers_iff obj depth sch hacc,
      List.forall_mem_append]
    refine and_congr_left fun _ => ?_
    cases hsub : ((sch.lookup "properties").bind Json.asObject).bind (List.lookup k) with
    | some sub =>
      obtain ⟨props, hprops, hk⟩ := Option.bind_eq_some_iff.1 hsub
      obtain ⟨w, hw, hobj⟩ := Option.bind_eq_some_iff.1 hprops
      cases w with
      | obj fields =>
        simp only [Json.asObject, Option.some.injEq] at hobj
        subst hobj
        exact validateRec_iff v (depth + 1) sub (hacc.property fields hw k sub hk)
      | _ => simp [Json.asObject] at hobj
    | none =>
      cases hadd : sch.lookup "additionalProperties" with
      | none => simp
      | some sub =>
        cases sub with
        | obj sub =>
          exact validateRec_iff v (depth + 1) (.obj sub)
            (hacc.under "additionalProperties" (by simp) sub hadd)
        | bool b => cases b <;> simp
        | _ => simp

theorem validateItems_iff : ∀ (arr : List Json) (depth : ℕ) (items : Members),
    visit R.build (depth + 1) (.obj items) = .ok () →
      (validateItems R depth items arr = .ok () ↔ ∀ r ∈ itemReadings R items arr, r.code)
  | [], _, _, _ => by simp [validateItems, itemReadings]
  | v :: arr, depth, items, hv => by
    rw [validateItems, itemReadings, inTurn_ok, validateRec_iff v (depth + 1) (.obj items) hv,
      validateItems_iff arr depth items hv, List.forall_mem_append]

end

mutual

/-- **An instance is valid when it passes the meaning of every keyword met.** -/
theorem valid_iff : ∀ inst schema : Json,
    Valid R inst schema ↔ ∀ r ∈ readings R inst schema, r.meaning
  | .obj obj, schema => by
    rw [Valid, readings]
    refine under_iff fun sch => ?_
    rw [objectKeywords_iff, validMembers_iff obj sch]
    simp only [List.forall_mem_cons, and_assoc]
  | .arr arr, schema => by
    rw [Valid, readings]
    refine under_iff fun sch => ?_
    rw [arrayKeywords_iff]
    simp only [List.forall_mem_cons, and_assoc]
    refine and_congr_right fun _ => and_congr_right fun _ => ?_
    cases sch.lookup "items" with
    | none => simp
    | some sub =>
      cases sub with
      | obj items => exact validItems_iff arr items
      | arr subs => simp
      | bool b => simpa using validItems_bool arr b
      | _ => simpa using validItems_of_all (valid_of_no_schema (by simp) (by simp)) arr
  | .str s, schema => by
    rw [Valid, readings]
    refine under_iff fun sch => ?_
    rw [stringKeywords_iff]
    simp
  | .int i, schema => by
    rw [Valid, readings]
    exact under_iff fun sch => numberKeywords_iff
  | .float bits, schema => by
    rw [Valid, readings]
    exact under_iff fun sch => numberKeywords_iff
  | .bool b, schema => by
    rw [Valid, readings]
    exact under_iff fun sch => by simp
  | .null, schema => by
    rw [Valid, readings]
    exact under_iff fun sch => by simp

theorem validMembers_iff : ∀ (obj sch : Members),
    ValidMembers R sch obj ↔ ∀ r ∈ memberReadings R sch obj, r.meaning
  | [], _ => by simp [ValidMembers, memberReadings]
  | (k, v) :: obj, sch => by
    rw [ValidMembers, memberReadings, validMembers_iff obj sch, List.forall_mem_append]
    refine and_congr_left fun _ => ?_
    cases ((sch.lookup "properties").bind Json.asObject).bind (List.lookup k) with
    | some sub => exact valid_iff v sub
    | none =>
      cases sch.lookup "additionalProperties" with
      | none => simp
      | some sub =>
        cases sub with
        | obj sub => exact valid_iff v (.obj sub)
        | bool b => simp [valid_bool]
        | _ => simpa using valid_of_no_schema (by simp) (by simp) v

theorem validItems_iff : ∀ (arr : List Json) (items : Members),
    ValidItems R (.obj items) arr ↔ ∀ r ∈ itemReadings R items arr, r.meaning
  | [], _ => by simp [ValidItems, itemReadings]
  | v :: arr, items => by
    rw [ValidItems, itemReadings, valid_iff v (.obj items), validItems_iff arr items,
      List.forall_mem_append]

end

end Levels

theorem visit_of_validate {R : Regex} {schema : Json} (h : validate R.build schema = .ok ()) :
    visit R.build 0 schema = .ok () := by
  unfold validate at h
  split at h
  · split_ifs at h
    exact h
  · cases h

/-- **The instance check accepts exactly the valid instances** of an accepted schema
where the keywords it meets are read alike, and only there. -/
theorem validateInstance_iff {R : Regex} {schema inst : Json}
    (haccepted : validate R.build schema = .ok ()) :
    (validateInstance R inst schema = .ok () ↔ Valid R inst schema) ↔
      ReadAlike (readings R inst schema) := by
  rw [← readAlike_iff, ← valid_iff, ← validateRec_iff inst 0 schema (visit_of_validate haccepted)]
  rfl

/-- Regular expressions that always compile and match. -/
def anyRegex : Regex := ⟨fun _ => .ok (), fun _ _ => true⟩

/-- A schema of an object with one property, under the schema `sub`. -/
def oneProperty (sub : Json) : Json :=
  .obj [("properties", .obj [("count", sub)]), ("type", .str "object")]

/-- A member the schema requires is missing: both refuse, and the schema `false` under
the other is never reached. -/
theorem validateInstance_iff_missing :
    validateInstance anyRegex (.obj [("count", .int 1)])
        (.obj [("properties", .obj [("count", .bool false)]),
          ("required", .arr [.str "x"]), ("type", .str "object")]) = .ok () ↔
      Valid anyRegex (.obj [("count", .int 1)])
        (.obj [("properties", .obj [("count", .bool false)]),
          ("required", .arr [.str "x"]), ("type", .str "object")]) := by
  have hmissing : ¬ ∀ req : List Json, List.lookup "required"
      [("properties", Json.obj [("count", .bool false)]), ("required", .arr [.str "x"]),
        ("type", .str "object")] = some (.arr req) →
      ∀ k, Json.str k ∈ req → ∃ v : Json, (k, v) ∈ [("count", Json.int 1)] := by
    intro h
    obtain ⟨v, hv⟩ := h [.str "x"] rfl "x" (by simp)
    simp at hv
  refine (validateInstance_iff (by decide)).2 (.inr (.inl ⟨asMeant _, ?_, hmissing, hmissing⟩))
  simp [readings, readingsUnder]

/-- The schema `false` lets the code accept what no instance satisfies, and the number
`1.0` is refused as an integer. -/
theorem validateInstance_not_valid :
    (validate anyRegex.build (oneProperty (.bool false)) = .ok () ∧
      validateInstance anyRegex (.obj [("count", .int 1)]) (oneProperty (.bool false)) = .ok () ∧
      ¬ Valid anyRegex (.obj [("count", .int 1)]) (oneProperty (.bool false))) ∧
    (validate anyRegex.build (oneProperty (.obj [("type", .str "integer")])) = .ok () ∧
      validateInstance anyRegex (.obj [("count", .float 0x3FF0000000000000)])
        (oneProperty (.obj [("type", .str "integer")])) = .error .type ∧
      Valid anyRegex (.obj [("count", .float 0x3FF0000000000000)])
        (oneProperty (.obj [("type", .str "integer")]))) := by
  refine ⟨⟨by decide, by decide, ?_⟩, by decide, by decide, ?_⟩
  · simp [oneProperty, Valid, Under, ValidMembers, Json.asObject]
  · have hone : f64Value 0x3FF0000000000000 = ((1 : ℤ) : ℚ) := by decide +kernel
    have hinteger : AnyKeywords [("type", .str "integer")] (.float 0x3FF0000000000000) :=
      ⟨fun t ht _ => by
        simp only [List.lookup_cons, beq_self_eq_true, Option.some.injEq] at ht
        subst ht
        exact ⟨"integer", by simp [typeNames], 1, by simp [Json.numValue, hone]⟩,
        by simp [List.lookup_cons], by simp [List.lookup_cons]⟩
    have hnumber : NumberKeywords [("type", .str "integer")] (f64Value 0x3FF0000000000000) := by
      constructor <;> simp [boundAt, List.lookup_cons]
    have hobject : AnyKeywords [("properties", .obj [("count", .obj [("type", .str "integer")])]),
        ("type", .str "object")] (.obj [("count", .float 0x3FF0000000000000)]) :=
      ⟨fun t ht _ => by
        have hobj : t = .str "object" := by simpa [List.lookup_cons] using ht.symm
        subst hobj
        exact ⟨"object", by simp [typeNames], by simp [OfType, matchesName, Json.asObject]⟩,
        by simp [List.lookup_cons], by simp [List.lookup_cons]⟩
    have hkeys : ObjectKeywords [("properties", .obj [("count", .obj [("type", .str "integer")])]),
        ("type", .str "object")] [("count", .float 0x3FF0000000000000)] := by
      constructor <;> simp [AtLeast, AtMost, List.lookup_cons]
    simp [oneProperty, Valid, Under, ValidMembers, Json.asObject, hobject, hkeys, hinteger, hnumber]

end Deja.Schema
