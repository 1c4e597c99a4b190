import Deja.Schema.Subset

/-!
# The strip of vendor extensions

The strip and the structural check count the depth of a node differently: an array
under `items` costs the strip two levels and the check one, and the strip steps
into arrays the check does not visit.

`prune` removes the vendor members of the objects a predicate reaches, where an
object is known by how many keywords and how many array elements lie above it.
The strip and the removal the documentation promises are both instances of it, and
two instances agree on a value exactly when their predicates agree at its vendor
members (`prune_eq_iff`).
-/

namespace Deja.Schema

/-! ## What the strip is for -/

mutual

/-- A schema without the vendor members in keyword position, down to the depth the
check visits. -/
def cleanAt : ℕ → Json → Json
  | depth, .obj obj =>
    if maxSchemaDepth < depth then .obj obj else .obj (cleanMembers depth obj)
  | _, v => v

/-- The members of an object the check visits. -/
def cleanMembers : ℕ → List (String × Json) → List (String × Json)
  | _, [] => []
  | depth, (k, v) :: obj =>
    if isVendor k then cleanMembers depth obj
    else
      (k,
        if k = "properties" then
          match v with
          | .obj props => .obj (cleanProps (depth + 1) props)
          | v => v
        else if k = "items" ∨ k = "additionalProperties" then
          match v with
          | .obj sub => cleanAt (depth + 1) (.obj sub)
          | .arr items => .arr (cleanItems (depth + 1) items)
          | v => v
        else v) :: cleanMembers depth obj

/-- The elements of an array under `items` or `additionalProperties`. -/
def cleanItems : ℕ → List Json → List Json
  | _, [] => []
  | depth, v :: items => cleanAt depth v :: cleanItems depth items

/-- The values of `properties`. -/
def cleanProps : ℕ → List (String × Json) → List (String × Json)
  | _, [] => []
  | depth, (name, sub) :: props => (name, cleanAt depth sub) :: cleanProps depth props

end

/-- What the strip promises of one schema. -/
structure StripExact (build : String → Except String Unit) (schema : Json) : Prop where
  /-- The vendor members in keyword position are gone, and nothing else changed. -/
  exact : stripVendorExtensions schema = cleanAt 0 schema
  /-- A second strip changes nothing. -/
  idem : stripVendorExtensions (stripVendorExtensions schema) = stripVendorExtensions schema
  /-- The check finds no vendor key in what is left. -/
  unbanned : ∀ k, isVendor k = true →
    validate build (stripVendorExtensions schema) ≠ .error (.bannedKeyword k)

/-! ## Pruning -/

section Prune

/-- Which objects lose their vendor members: `kw` holds where every array above the
object stands directly under `items` or `additionalProperties`, `n` counts the
keywords above it and `a` the array elements. -/
abbrev Reach := Bool → ℕ → ℕ → Bool

variable (r : Reach)

mutual

/-- A value without the vendor members of the objects in reach. -/
def prune (kw : Bool) (n a : ℕ) : Json → Json
  | .obj obj => .obj (pruneMembers kw n a obj)
  | .arr items => .arr (pruneItems false n (a + 1) items)
  | v => v

/-- The members of an object. -/
def pruneMembers (kw : Bool) (n a : ℕ) : List (String × Json) → List (String × Json)
  | [] => []
  | (k, v) :: obj =>
    if isVendor k && r kw n a then pruneMembers kw n a obj
    else (k, pruneUnder kw n a k v) :: pruneMembers kw n a obj

/-- The value of the member `k`. -/
def pruneUnder (kw : Bool) (n a : ℕ) (k : String) : Json → Json
  | .obj sub =>
    if k = "properties" then .obj (pruneProps kw (n + 1) a sub)
    else if k = "items" ∨ k = "additionalProperties" then .obj (pruneMembers kw (n + 1) a sub)
    else .obj sub
  | .arr items =>
    if k = "items" ∨ k = "additionalProperties" then .arr (pruneItems kw (n + 1) (a + 1) items)
    else .arr items
  | v => v

/-- The elements of an array. -/
def pruneItems (kw : Bool) (n a : ℕ) : List Json → List Json
  | [] => []
  | v :: items => prune kw n a v :: pruneItems kw n a items

/-- The values of `properties`. -/
def pruneProps (kw : Bool) (n a : ℕ) : List (String × Json) → List (String × Json)
  | [] => []
  | (name, sub) :: props => (name, prune kw n a sub) :: pruneProps kw n a props

end

end Prune

/-! ## Where two prunings agree -/

section Agree

variable (r s : Reach)

mutual

/-- At every vendor member below a value the two predicates say the same. -/
def Agree (kw : Bool) (n a : ℕ) : Json → Prop
  | .obj obj => AgreeMembers kw n a obj
  | .arr items => AgreeItems false n (a + 1) items
  | _ => True

/-- The members of an object. -/
def AgreeMembers (kw : Bool) (n a : ℕ) : List (String × Json) → Prop
  | [] => True
  | (k, v) :: obj =>
    (isVendor k = true → r kw n a = s kw n a) ∧ AgreeUnder kw n a k v ∧ AgreeMembers kw n a obj

/-- The value of the member `k`. -/
def AgreeUnder (kw : Bool) (n a : ℕ) (k : String) : Json → Prop
  | .obj sub =>
    if k = "properties" then AgreeProps kw (n + 1) a sub
    else if k = "items" ∨ k = "additionalProperties" then AgreeMembers kw (n + 1) a sub
    else True
  | .arr items =>
    if k = "items" ∨ k = "additionalProperties" then AgreeItems kw (n + 1) (a + 1) items
    else True
  | _ => True

/-- The elements of an array. -/
def AgreeItems (kw : Bool) (n a : ℕ) : List Json → Prop
  | [] => True
  | v :: items => Agree kw n a v ∧ AgreeItems kw n a items

/-- The values of `properties`. -/
def AgreeProps (kw : Bool) (n a : ℕ) : List (String × Json) → Prop
  | [] => True
  | (_, sub) :: props => Agree kw n a sub ∧ AgreeProps kw n a props

end

end Agree

section

variable {r s : Reach}

/-- A vendor key is none of the keywords with sub-schemas. -/
theorem isVendor_ne {k : String} (hk : isVendor k = true) :
    k ≠ "properties" ∧ k ≠ "items" ∧ k ≠ "additionalProperties" := by
  refine ⟨?_, ?_, ?_⟩ <;> (rintro rfl; revert hk; decide)

theorem agreeUnder_vendor {k : String} (hk : isVendor k = true) (kw : Bool) (n a : ℕ)
    (v : Json) : AgreeUnder r s kw n a k v := by
  obtain ⟨hp, hi, ha⟩ := isVendor_ne hk
  cases v <;> simp [AgreeUnder, hp, hi, ha]

theorem length_pruneMembers_le (kw : Bool) (n a : ℕ) (obj : List (String × Json)) :
    (pruneMembers r kw n a obj).length ≤ obj.length := by
  induction obj with
  | nil => simp [pruneMembers]
  | cons x obj ih =>
    obtain ⟨k, v⟩ := x
    rw [pruneMembers]
    split_ifs
    · exact Nat.le_succ_of_le ih
    · simpa using ih

theorem length_pruneMembers {kw : Bool} {n a : ℕ} (h : r kw n a = false)
    (obj : List (String × Json)) : (pruneMembers r kw n a obj).length = obj.length := by
  induction obj with
  | nil => simp [pruneMembers]
  | cons x obj ih =>
    obtain ⟨k, v⟩ := x
    rw [pruneMembers, if_neg (by simp [h])]
    simpa using ih

/-- Where one predicate drops a vendor member and the other keeps it, the results have
different lengths. -/
theorem pruneMembers_ne {kw : Bool} {n a : ℕ} (hs : s kw n a = false)
    (obj : List (String × Json)) (x : String × Json) :
    pruneMembers r kw n a obj ≠ x :: pruneMembers s kw n a obj := by
  intro h
  have hlen := congrArg List.length h
  rw [List.length_cons, length_pruneMembers hs] at hlen
  have hle := length_pruneMembers_le (r := r) kw n a obj
  omega

mutual

/-- **Two prunings agree on a value exactly when their predicates agree at its vendor
members.** -/
theorem prune_eq_iff : ∀ (v : Json) (kw : Bool) (n a : ℕ),
    prune r kw n a v = prune s kw n a v ↔ Agree r s kw n a v
  | .obj obj, kw, n, a => by
    simp only [prune, Agree, Json.obj.injEq]
    exact pruneMembers_eq_iff obj kw n a
  | .arr items, kw, n, a => by
    simp only [prune, Agree, Json.arr.injEq]
    exact pruneItems_eq_iff items false n (a + 1)
  | .null, _, _, _ => by simp [prune, Agree]
  | .bool _, _, _, _ => by simp [prune, Agree]
  | .int _, _, _, _ => by simp [prune, Agree]
  | .float _, _, _, _ => by simp [prune, Agree]
  | .str _, _, _, _ => by simp [prune, Agree]

theorem pruneMembers_eq_iff : ∀ (obj : List (String × Json)) (kw : Bool) (n a : ℕ),
    pruneMembers r kw n a obj = pruneMembers s kw n a obj ↔ AgreeMembers r s kw n a obj
  | [], _, _, _ => by simp [pruneMembers, AgreeMembers]
  | (k, v) :: obj, kw, n, a => by
    have hrest := pruneMembers_eq_iff obj kw n a
    have hunder := pruneUnder_eq_iff v kw n a k
    rw [pruneMembers, pruneMembers, AgreeMembers]
    by_cases hk : isVendor k = true
    · -- a vendor member: both keep it, both drop it, or the lengths differ
      have hv := agreeUnder_vendor (r := r) (s := s) hk kw n a v
      rcases hr : r kw n a with _ | _ <;> rcases hs : s kw n a with _ | _
      · simp [hunder, hrest]
      · simp only [hk, Bool.and_false, Bool.and_true, if_true, if_false, Bool.false_eq_true]
        constructor
        · intro h
          exact absurd h.symm (pruneMembers_ne hr obj _)
        · rintro ⟨h, -⟩
          cases h trivial
      · simp only [hk, Bool.and_false, Bool.and_true, if_true, if_false, Bool.false_eq_true]
        constructor
        · intro h
          exact absurd h (pruneMembers_ne hs obj _)
        · rintro ⟨h, -⟩
          cases h trivial
      · simp [hk, hrest, hv]
    · simp [hk, hunder, hrest]

theorem pruneUnder_eq_iff : ∀ (v : Json) (kw : Bool) (n a : ℕ) (k : String),
    pruneUnder r kw n a k v = pruneUnder s kw n a k v ↔ AgreeUnder r s kw n a k v
  | .obj sub, kw, n, a, k => by
    have hprops := pruneProps_eq_iff sub kw (n + 1) a
    have hsub := pruneMembers_eq_iff sub kw (n + 1) a
    rw [pruneUnder, pruneUnder, AgreeUnder]
    split_ifs <;> simp [hprops, hsub]
  | .arr items, kw, n, a, k => by
    have hitems := pruneItems_eq_iff items kw (n + 1) (a + 1)
    rw [pruneUnder, pruneUnder, AgreeUnder]
    split_ifs <;> simp [hitems]
  | .null, _, _, _, _ => by simp [pruneUnder, AgreeUnder]
  | .bool _, _, _, _, _ => by simp [pruneUnder, AgreeUnder]
  | .int _, _, _, _, _ => by simp [pruneUnder, AgreeUnder]
  | .float _, _, _, _, _ => by simp [pruneUnder, AgreeUnder]
  | .str _, _, _, _, _ => by simp [pruneUnder, AgreeUnder]

theorem pruneItems_eq_iff : ∀ (items : List Json) (kw : Bool) (n a : ℕ),
    pruneItems r kw n a items = pruneItems s kw n a items ↔ AgreeItems r s kw n a items
  | [], _, _, _ => by simp [pruneItems, AgreeItems]
  | v :: items, kw, n, a => by
    rw [pruneItems, pruneItems, AgreeItems, List.cons.injEq, prune_eq_iff v kw n a,
      pruneItems_eq_iff items kw n a]

theorem pruneProps_eq_iff : ∀ (props : List (String × Json)) (kw : Bool) (n a : ℕ),
    pruneProps r kw n a props = pruneProps s kw n a props ↔ AgreeProps r s kw n a props
  | [], _, _, _ => by simp [pruneProps, AgreeProps]
  | (name, sub) :: props, kw, n, a => by
    rw [pruneProps, pruneProps, AgreeProps, List.cons.injEq, Prod.mk.injEq,
      prune_eq_iff sub kw n a, pruneProps_eq_iff props kw n a]
    simp

end

/-! ## Values out of reach, and values pruned already -/

/-- No object from here on is in reach. -/
def Beyond (r : Reach) (kw : Bool) (n a : ℕ) : Prop :=
  ∀ kw' n' a', (kw' = true → kw = true) → n ≤ n' → a ≤ a' → r kw' n' a' = false

theorem Beyond.mono {kw kw' : Bool} {n n' a a' : ℕ} (h : Beyond r kw n a)
    (hkw : kw' = true → kw = true) (hn : n ≤ n') (ha : a ≤ a') : Beyond r kw' n' a' :=
  fun kw'' _ _ hkw' hn' ha' =>
    h kw'' _ _ (fun e => hkw (hkw' e)) (hn.trans hn') (ha.trans ha')

theorem Beyond.here {kw : Bool} {n a : ℕ} (h : Beyond r kw n a) : r kw n a = false :=
  h kw n a id le_rfl le_rfl

mutual

/-- A value out of reach stays as it is. -/
theorem prune_beyond : ∀ (v : Json) {kw : Bool} {n a : ℕ}, Beyond r kw n a →
    prune r kw n a v = v
  | .obj obj, kw, n, a, h => by rw [prune, pruneMembers_beyond obj h]
  | .arr items, kw, n, a, h => by
    rw [prune, pruneItems_beyond items (h.mono (by simp) le_rfl (Nat.le_succ a))]
  | .null, _, _, _, _ => by simp [prune]
  | .bool _, _, _, _, _ => by simp [prune]
  | .int _, _, _, _, _ => by simp [prune]
  | .float _, _, _, _, _ => by simp [prune]
  | .str _, _, _, _, _ => by simp [prune]

theorem pruneMembers_beyond : ∀ (obj : List (String × Json)) {kw : Bool} {n a : ℕ},
    Beyond r kw n a → pruneMembers r kw n a obj = obj
  | [], _, _, _, _ => by simp [pruneMembers]
  | (k, v) :: obj, kw, n, a, h => by
    rw [pruneMembers, if_neg (by simp [h.here]), pruneUnder_beyond v h,
      pruneMembers_beyond obj h]

theorem pruneUnder_beyond : ∀ (v : Json) {kw : Bool} {n a : ℕ} {k : String},
    Beyond r kw n a → pruneUnder r kw n a k v = v
  | .obj sub, kw, n, a, k, h => by
    have hnext : Beyond r kw (n + 1) a := h.mono id (Nat.le_succ n) le_rfl
    rw [pruneUnder, pruneProps_beyond sub hnext, pruneMembers_beyond sub hnext, ite_self, ite_self]
  | .arr items, kw, n, a, k, h => by
    have hnext : Beyond r kw (n + 1) (a + 1) := h.mono id (Nat.le_succ n) (Nat.le_succ a)
    rw [pruneUnder, pruneItems_beyond items hnext, ite_self]
  | .null, _, _, _, _, _ => by simp [pruneUnder]
  | .bool _, _, _, _, _, _ => by simp [pruneUnder]
  | .int _, _, _, _, _, _ => by simp [pruneUnder]
  | .float _, _, _, _, _, _ => by simp [pruneUnder]
  | .str _, _, _, _, _, _ => by simp [pruneUnder]

theorem pruneItems_beyond : ∀ (items : List Json) {kw : Bool} {n a : ℕ},
    Beyond r kw n a → pruneItems r kw n a items = items
  | [], _, _, _, _ => by simp [pruneItems]
  | v :: items, kw, n, a, h => by
    rw [pruneItems, prune_beyond v h, pruneItems_beyond items h]

theorem pruneProps_beyond : ∀ (props : List (String × Json)) {kw : Bool} {n a : ℕ},
    Beyond r kw n a → pruneProps r kw n a props = props
  | [], _, _, _, _ => by simp [pruneProps]
  | (name, sub) :: props, kw, n, a, h => by
    rw [pruneProps, prune_beyond sub h, pruneProps_beyond props h]

end

mutual

/-- A pruned value is pruned already. -/
theorem prune_prune : ∀ (v : Json) (kw : Bool) (n a : ℕ),
    prune r kw n a (prune r kw n a v) = prune r kw n a v
  | .obj obj, kw, n, a => by rw [prune, prune, pruneMembers_pruneMembers obj]
  | .arr items, kw, n, a => by rw [prune, prune, pruneItems_pruneItems items]
  | .null, _, _, _ => by simp [prune]
  | .bool _, _, _, _ => by simp [prune]
  | .int _, _, _, _ => by simp [prune]
  | .float _, _, _, _ => by simp [prune]
  | .str _, _, _, _ => by simp [prune]

theorem pruneMembers_pruneMembers : ∀ (obj : List (String × Json)) (kw : Bool) (n a : ℕ),
    pruneMembers r kw n a (pruneMembers r kw n a obj) = pruneMembers r kw n a obj
  | [], _, _, _ => by simp [pruneMembers]
  | (k, v) :: obj, kw, n, a => by
    rw [pruneMembers]
    by_cases h : (isVendor k && r kw n a) = true
    · rw [if_pos h, pruneMembers_pruneMembers obj]
    · rw [if_neg h, pruneMembers, if_neg h, pruneUnder_pruneUnder v, pruneMembers_pruneMembers obj]

theorem pruneUnder_pruneUnder : ∀ (v : Json) (kw : Bool) (n a : ℕ) (k : String),
    pruneUnder r kw n a k (pruneUnder r kw n a k v) = pruneUnder r kw n a k v
  | .obj sub, kw, n, a, k => by
    rw [pruneUnder]
    split_ifs with hp hi
    · rw [pruneUnder, if_pos hp, pruneProps_pruneProps sub]
    · rw [pruneUnder, if_neg hp, if_pos hi, pruneMembers_pruneMembers sub]
    · rw [pruneUnder, if_neg hp, if_neg hi]
  | .arr items, kw, n, a, k => by
    rw [pruneUnder]
    split_ifs with hi
    · rw [pruneUnder, if_pos hi, pruneItems_pruneItems items]
    · rw [pruneUnder, if_neg hi]
  | .null, _, _, _, _ => by simp [pruneUnder]
  | .bool _, _, _, _, _ => by simp [pruneUnder]
  | .int _, _, _, _, _ => by simp [pruneUnder]
  | .float _, _, _, _, _ => by simp [pruneUnder]
  | .str _, _, _, _, _ => by simp [pruneUnder]

theorem pruneItems_pruneItems : ∀ (items : List Json) (kw : Bool) (n a : ℕ),
    pruneItems r kw n a (pruneItems r kw n a items) = pruneItems r kw n a items
  | [], _, _, _ => by simp [pruneItems]
  | v :: items, kw, n, a => by
    rw [pruneItems, pruneItems, prune_prune v, pruneItems_pruneItems items]

theorem pruneProps_pruneProps : ∀ (props : List (String × Json)) (kw : Bool) (n a : ℕ),
    pruneProps r kw n a (pruneProps r kw n a props) = pruneProps r kw n a props
  | [], _, _, _ => by simp [pruneProps]
  | (name, sub) :: props, kw, n, a => by
    rw [pruneProps, pruneProps, prune_prune sub, pruneProps_pruneProps props]

end

end

/-! ## The strip and the removal as prunings -/

/-- The objects the strip reaches. -/
def stripReach : Reach := fun _ n a => n + a ≤ maxSchemaDepth

/-- The objects the check visits. -/
def keywordReach : Reach := fun kw n _ => kw && decide (n ≤ maxSchemaDepth)

theorem beyond_stripReach {kw : Bool} {n a : ℕ} (h : maxSchemaDepth < n + a) :
    Beyond stripReach kw n a := by
  intro _ n' a' _ hn ha
  simp only [stripReach, decide_eq_false_iff_not]
  omega

theorem beyond_keywordReach {kw : Bool} {n a : ℕ} (h : kw = true → maxSchemaDepth < n) :
    Beyond keywordReach kw n a := by
  intro kw' n' _ hkw hn _
  simp only [keywordReach, Bool.and_eq_false_iff, decide_eq_false_iff_not]
  by_cases hk : kw' = true
  · have := h (hkw hk)
    exact .inr (by omega)
  · exact .inl (by simpa using hk)

mutual

/-- The strip is the pruning by the depth it counts. -/
theorem stripAt_eq_prune : ∀ (v : Json) (kw : Bool) (n a : ℕ),
    stripAt (n + a) v = prune stripReach kw n a v
  | .obj obj, kw, n, a => by
    by_cases h : maxSchemaDepth < n + a
    · rw [stripAt, if_pos h, prune_beyond _ (beyond_stripReach h)]
    · rw [stripAt, if_neg h, prune, stripMembers_eq_prune obj kw n a (by omega)]
  | .arr items, kw, n, a => by
    by_cases h : maxSchemaDepth < n + a
    · rw [stripAt, if_pos h, prune_beyond _ (beyond_stripReach h)]
    · rw [stripAt, if_neg h, prune, ← stripItems_eq_prune items false n (a + 1), Nat.add_assoc]
  | .null, _, _, _ => by simp [prune, stripAt]
  | .bool _, _, _, _ => by simp [prune, stripAt]
  | .int _, _, _, _ => by simp [prune, stripAt]
  | .float _, _, _, _ => by simp [prune, stripAt]
  | .str _, _, _, _ => by simp [prune, stripAt]

theorem stripMembers_eq_prune : ∀ (obj : List (String × Json)) (kw : Bool) (n a : ℕ),
    n + a ≤ maxSchemaDepth → stripMembers (n + a) obj = pruneMembers stripReach kw n a obj
  | [], _, _, _, _ => by simp [stripMembers, pruneMembers]
  | (k, .obj sub) :: obj, kw, n, a, h => by
    have hprops := stripProps_eq_prune sub kw (n + 1) a
    have hsub := stripAt_eq_prune (.obj sub) kw (n + 1) a
    rw [stripMembers, pruneMembers, stripMembers_eq_prune obj kw n a h, pruneUnder]
    rw [Nat.add_right_comm] at hprops hsub
    rw [prune] at hsub
    simp only [hprops, hsub, stripReach, h, decide_true, Bool.and_true]
  | (k, .arr items) :: obj, kw, n, a, h => by
    have hitems := stripItems_eq_prune items kw (n + 1) (a + 1)
    have hdeep : maxSchemaDepth < n + a + 1 → pruneItems stripReach kw (n + 1) (a + 1) items =
        items := fun hd => pruneItems_beyond items (beyond_stripReach (by omega))
    simp only [stripMembers, pruneMembers, stripMembers_eq_prune obj kw n a h, pruneUnder, stripAt,
      stripReach, h, decide_true, Bool.and_true]
    rw [show n + 1 + (a + 1) = n + a + 1 + 1 by omega] at hitems
    by_cases hd : maxSchemaDepth < n + a + 1
    · simp only [hd, hdeep hd, if_true, ite_self]
    · rw [if_neg hd, hitems]
      by_cases hp : k = "properties"
      · simp [hp]
      · simp only [hp, if_false]
  | (k, .null) :: obj, kw, n, a, h => by
    simp [stripMembers, pruneMembers, pruneUnder, stripAt, stripReach, h,
      stripMembers_eq_prune obj kw n a h]
  | (k, .bool _) :: obj, kw, n, a, h => by
    simp [stripMembers, pruneMembers, pruneUnder, stripAt, stripReach, h,
      stripMembers_eq_prune obj kw n a h]
  | (k, .int _) :: obj, kw, n, a, h => by
    simp [stripMembers, pruneMembers, pruneUnder, stripAt, stripReach, h,
      stripMembers_eq_prune obj kw n a h]
  | (k, .float _) :: obj, kw, n, a, h => by
    simp [stripMembers, pruneMembers, pruneUnder, stripAt, stripReach, h,
      stripMembers_eq_prune obj kw n a h]
  | (k, .str _) :: obj, kw, n, a, h => by
    simp [stripMembers, pruneMembers, pruneUnder, stripAt, stripReach, h,
      stripMembers_eq_prune obj kw n a h]

theorem stripItems_eq_prune : ∀ (items : List Json) (kw : Bool) (n a : ℕ),
    stripItems (n + a) items = pruneItems stripReach kw n a items
  | [], _, _, _ => by simp [stripItems, pruneItems]
  | v :: items, kw, n, a => by
    rw [stripItems, pruneItems, stripAt_eq_prune v kw n a, stripItems_eq_prune items kw n a]

theorem stripProps_eq_prune : ∀ (props : List (String × Json)) (kw : Bool) (n a : ℕ),
    stripProps (n + a) props = pruneProps stripReach kw n a props
  | [], _, _, _ => by simp [stripProps, pruneProps]
  | (name, sub) :: props, kw, n, a => by
    rw [stripProps, pruneProps, stripAt_eq_prune sub kw n a, stripProps_eq_prune props kw n a]

end

mutual

/-- The removal is the pruning in keyword position. -/
theorem cleanAt_eq_prune : ∀ (v : Json) (n a : ℕ), cleanAt n v = prune keywordReach true n a v
  | .obj obj, n, a => by
    by_cases h : maxSchemaDepth < n
    · rw [cleanAt, if_pos h, prune_beyond _ (beyond_keywordReach fun _ => h)]
    · rw [cleanAt, if_neg h, prune, cleanMembers_eq_prune obj n a (by omega)]
  | .arr items, n, a => by
    rw [prune, pruneItems_beyond items (beyond_keywordReach (by simp))]
    simp [cleanAt]
  | .null, _, _ => by simp [prune, cleanAt]
  | .bool _, _, _ => by simp [prune, cleanAt]
  | .int _, _, _ => by simp [prune, cleanAt]
  | .float _, _, _ => by simp [prune, cleanAt]
  | .str _, _, _ => by simp [prune, cleanAt]

theorem cleanMembers_eq_prune : ∀ (obj : List (String × Json)) (n a : ℕ), n ≤ maxSchemaDepth →
    cleanMembers n obj = pruneMembers keywordReach true n a obj
  | [], _, _, _ => by simp [cleanMembers, pruneMembers]
  | (k, .obj sub) :: obj, n, a, h => by
    have hprops := cleanProps_eq_prune sub (n + 1) a
    have hsub := cleanAt_eq_prune (.obj sub) (n + 1) a
    rw [prune] at hsub
    simp only [cleanMembers, pruneMembers, cleanMembers_eq_prune obj n a h, pruneUnder, hprops,
      hsub, keywordReach, h, decide_true, Bool.and_true]
  | (k, .arr items) :: obj, n, a, h => by
    have hitems := cleanItems_eq_prune items (n + 1) (a + 1)
    simp only [cleanMembers, pruneMembers, cleanMembers_eq_prune obj n a h, pruneUnder, hitems,
      keywordReach, h, decide_true, Bool.and_true]
    by_cases hp : k = "properties"
    · simp [hp]
    · simp only [hp, if_false]
  | (k, .null) :: obj, n, a, h => by
    simp [cleanMembers, pruneMembers, pruneUnder, keywordReach, h, cleanMembers_eq_prune obj n a h]
  | (k, .bool _) :: obj, n, a, h => by
    simp [cleanMembers, pruneMembers, pruneUnder, keywordReach, h, cleanMembers_eq_prune obj n a h]
  | (k, .int _) :: obj, n, a, h => by
    simp [cleanMembers, pruneMembers, pruneUnder, keywordReach, h, cleanMembers_eq_prune obj n a h]
  | (k, .float _) :: obj, n, a, h => by
    simp [cleanMembers, pruneMembers, pruneUnder, keywordReach, h, cleanMembers_eq_prune obj n a h]
  | (k, .str _) :: obj, n, a, h => by
    simp [cleanMembers, pruneMembers, pruneUnder, keywordReach, h, cleanMembers_eq_prune obj n a h]

theorem cleanItems_eq_prune : ∀ (items : List Json) (n a : ℕ),
    cleanItems n items = pruneItems keywordReach true n a items
  | [], _, _ => by simp [cleanItems, pruneItems]
  | v :: items, n, a => by
    rw [cleanItems, pruneItems, cleanAt_eq_prune v n a, cleanItems_eq_prune items n a]

theorem cleanProps_eq_prune : ∀ (props : List (String × Json)) (n a : ℕ),
    cleanProps n props = pruneProps keywordReach true n a props
  | [], _, _ => by simp [cleanProps, pruneProps]
  | (name, sub) :: props, n, a => by
    rw [cleanProps, pruneProps, cleanAt_eq_prune sub n a, cleanProps_eq_prune props n a]

end

/-! ## The check after the removal -/

section Check

variable {build : String → Except String Unit}

/-- A failure of two checks in a row is a failure of one of them. -/
theorem inTurn_ne {x y : Except SchemaSubsetError Unit} {e : SchemaSubsetError}
    (hx : x ≠ .error e) (hy : y ≠ .error e) : (x >>= fun _ => y) ≠ .error e := by
  cases x with
  | error e' => exact hx
  | ok u => exact hy

/-- A check of a member that is no vendor key does not report one. -/
theorem checkKeyword_unbanned {key k : String} {v : Json} (hk : isVendor k = true)
    (hkey : ¬ isVendor key = true) : checkKeyword build key v ≠ .error (.bannedKeyword k) := by
  intro h
  unfold checkKeyword at h
  by_cases hin : key ∉ allowedKeywords
  · rw [if_pos hin] at h
    cases h
    exact hkey hk
  rw [if_neg hin] at h
  by_cases hf : key = "format"
  · rw [if_pos hf] at h
    split at h
    · split_ifs at h
      cases h
    · cases h
  rw [if_neg hf] at h
  by_cases hp : key = "pattern"
  · rw [if_pos hp] at h
    split at h
    · rename_i p
      cases hb : build p with
      | error e => rw [hb] at h; cases h
      | ok u => rw [hb] at h; cases h
    · cases h
  · rw [if_neg hp] at h
    cases h

/-- A value that is no object is visited without looking inside. -/
theorem visit_leaf_unbanned {k : String} {v : Json} (hv : ∀ obj, v ≠ .obj obj) (n : ℕ) :
    visit build n v ≠ .error (.bannedKeyword k) := by
  cases v with
  | obj obj => exact absurd rfl (hv obj)
  | _ =>
    rw [visit]
    · split_ifs <;> simp
    · simp

mutual

/-- The check finds no vendor key in a cleaned schema. -/
theorem visit_unbanned {k : String} (hk : isVendor k = true) : ∀ (v : Json) (n : ℕ),
    visit build n (cleanAt n v) ≠ .error (.bannedKeyword k)
  | .obj obj, n => by
    rw [cleanAt]
    split_ifs with h
    · simp [visit, h]
    · rw [visit, if_neg h]
      exact visitMembers_unbanned hk obj n
  | .arr _, n => by simpa [cleanAt] using visit_leaf_unbanned (by simp) n
  | .null, n => by simpa [cleanAt] using visit_leaf_unbanned (by simp) n
  | .bool _, n => by simpa [cleanAt] using visit_leaf_unbanned (by simp) n
  | .int _, n => by simpa [cleanAt] using visit_leaf_unbanned (by simp) n
  | .float _, n => by simpa [cleanAt] using visit_leaf_unbanned (by simp) n
  | .str _, n => by simpa [cleanAt] using visit_leaf_unbanned (by simp) n

theorem visitMembers_unbanned {k : String} (hk : isVendor k = true) :
    ∀ (obj : List (String × Json)) (n : ℕ),
      visitMembers build n (cleanMembers n obj) ≠ .error (.bannedKeyword k)
  | [], n => by simp [cleanMembers, visitMembers]
  | (key, .obj sub) :: obj, n => by
    rw [cleanMembers]
    split_ifs with hv hp hi
    · exact visitMembers_unbanned hk obj n
    · rw [visitMembers, if_pos hp]
      exact inTurn_ne (checkKeyword_unbanned hk hv)
        (inTurn_ne (visitProps_unbanned hk sub (n + 1)) (visitMembers_unbanned hk obj n))
    · have hsub := visit_unbanned hk (.obj sub) (n + 1)
      -- the cleaned value is an object again, and the check steps into it
      obtain ⟨sub', hsub'⟩ : ∃ sub', cleanAt (n + 1) (.obj sub) = .obj sub' := by
        rw [cleanAt]
        split_ifs
        · exact ⟨_, rfl⟩
        · exact ⟨_, rfl⟩
      rw [hsub'] at hsub ⊢
      rw [visitMembers, if_neg hp, if_pos hi]
      exact inTurn_ne (checkKeyword_unbanned hk hv)
        (inTurn_ne hsub (visitMembers_unbanned hk obj n))
    · rw [visitMembers, if_neg hp, if_neg hi]
      exact inTurn_ne (checkKeyword_unbanned hk hv)
        (inTurn_ne (by simp) (visitMembers_unbanned hk obj n))
  | (key, .arr items) :: obj, n => by
    simp only [cleanMembers]
    split_ifs with hv hp hi
    · exact visitMembers_unbanned hk obj n
    · rw [visitMembers, if_pos hp]
      exact inTurn_ne (checkKeyword_unbanned hk hv)
        (inTurn_ne (by simp) (visitMembers_unbanned hk obj n))
    · rw [visitMembers, if_neg hp, if_pos hi]
      exact inTurn_ne (checkKeyword_unbanned hk hv)
        (inTurn_ne (visitItems_unbanned hk items (n + 1)) (visitMembers_unbanned hk obj n))
    · rw [visitMembers, if_neg hp, if_neg hi]
      exact inTurn_ne (checkKeyword_unbanned hk hv)
        (inTurn_ne (by simp) (visitMembers_unbanned hk obj n))
  | (key, .null) :: obj, n => by
    simp only [cleanMembers, ite_self]
    split_ifs with hv
    · exact visitMembers_unbanned hk obj n
    · simp only [visitMembers, ite_self]
      exact inTurn_ne (checkKeyword_unbanned hk hv) (visitMembers_unbanned hk obj n)
  | (key, .bool _) :: obj, n => by
    simp only [cleanMembers, ite_self]
    split_ifs with hv
    · exact visitMembers_unbanned hk obj n
    · simp only [visitMembers, ite_self]
      exact inTurn_ne (checkKeyword_unbanned hk hv) (visitMembers_unbanned hk obj n)
  | (key, .int _) :: obj, n => by
    simp only [cleanMembers, ite_self]
    split_ifs with hv
    · exact visitMembers_unbanned hk obj n
    · simp only [visitMembers, ite_self]
      exact inTurn_ne (checkKeyword_unbanned hk hv) (visitMembers_unbanned hk obj n)
  | (key, .float _) :: obj, n => by
    simp only [cleanMembers, ite_self]
    split_ifs with hv
    · exact visitMembers_unbanned hk obj n
    · simp only [visitMembers, ite_self]
      exact inTurn_ne (checkKeyword_unbanned hk hv) (visitMembers_unbanned hk obj n)
  | (key, .str _) :: obj, n => by
    simp only [cleanMembers, ite_self]
    split_ifs with hv
    · exact visitMembers_unbanned hk obj n
    · simp only [visitMembers, ite_self]
      exact inTurn_ne (checkKeyword_unbanned hk hv) (visitMembers_unbanned hk obj n)

theorem visitItems_unbanned {k : String} (hk : isVendor k = true) :
    ∀ (items : List Json) (n : ℕ),
      visitItems build n (cleanItems n items) ≠ .error (.bannedKeyword k)
  | [], n => by simp [cleanItems, visitItems]
  | v :: items, n => by
    rw [cleanItems, visitItems]
    exact inTurn_ne (visit_unbanned hk v n) (visitItems_unbanned hk items n)

theorem visitProps_unbanned {k : String} (hk : isVendor k = true) :
    ∀ (props : List (String × Json)) (n : ℕ),
      visitProps build n (cleanProps n props) ≠ .error (.bannedKeyword k)
  | [], n => by simp [cleanProps, visitProps]
  | (name, sub) :: props, n => by
    rw [cleanProps, visitProps]
    exact inTurn_ne (visit_unbanned hk sub n) (visitProps_unbanned hk props n)

end

theorem validate_unbanned {k : String} (hk : isVendor k = true) (schema : Json) :
    validate build (cleanAt 0 schema) ≠ .error (.bannedKeyword k) := by
  have hvisit : visit build 0 (cleanAt 0 schema) ≠ .error (.bannedKeyword k) :=
    visit_unbanned hk schema 0
  unfold validate
  split
  · split_ifs
    · exact hvisit
    · simp
  · simp

end Check

/-! ## The strip and the check -/

/-- At every vendor member the strip's count of the depth lets it through exactly when
the check would visit the object that holds it. -/
def Aligned (schema : Json) : Prop := Agree stripReach keywordReach true 0 0 schema

/-- **The strip is exact, is done after one run and leaves nothing the check bans**,
for the schemas whose vendor members both walks place alike. -/
theorem stripExact_iff (build : String → Except String Unit) (schema : Json) :
    StripExact build schema ↔ Aligned schema := by
  have hstrip : stripVendorExtensions schema = prune stripReach true 0 0 schema :=
    stripAt_eq_prune schema true 0 0
  have hclean : cleanAt 0 schema = prune keywordReach true 0 0 schema :=
    cleanAt_eq_prune schema 0 0
  have hiff : stripVendorExtensions schema = cleanAt 0 schema ↔ Aligned schema := by
    rw [hstrip, hclean]
    exact prune_eq_iff schema true 0 0
  constructor
  · intro h
    exact hiff.1 h.exact
  · intro h
    refine ⟨hiff.2 h, ?_, ?_⟩
    · calc stripVendorExtensions (stripVendorExtensions schema)
          = prune stripReach true 0 0 (stripVendorExtensions schema) :=
            stripAt_eq_prune _ true 0 0
        _ = prune stripReach true 0 0 (prune stripReach true 0 0 schema) := by rw [hstrip]
        _ = stripVendorExtensions schema := by rw [prune_prune, hstrip]
    · intro k hk
      rw [hiff.2 h]
      exact validate_unbanned hk schema

/-- `n` arrays under `items`, one in another, around an object with a vendor member. -/
def nestedItems : ℕ → Json
  | 0 => .obj [("x-resolve", .bool true)]
  | n + 1 => .obj [("items", .arr [nestedItems n])]

/-- Nine arrays under `items` put an object on the ninth level of the check and on the
eighteenth of the strip. -/
theorem deep_items_not_exact :
    ¬ StripExact (fun _ => .ok ())
      (.obj [("type", .str "object"), ("items", .arr [nestedItems 8])]) := by
  intro h
  exact h.unbanned "x-resolve" (by decide) (by decide)

end Deja.Schema
