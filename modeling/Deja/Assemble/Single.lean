import Deja.Assemble.Budget

/-!
# ASSEMBLE with one source

The executor assembles a single source itself: it filters what the query returned by
the comparisons of its WHERE clause, taken together, and keeps as many grains as the
budget says, whatever its unit.  Where the clause is a conjunction of comparisons that is
the filter of the condition tree (`flatMatches_eq`).  The engine for several sources
counts tokens, so the two agree where the counted grains are those that fit
(`single_source_law`).
-/

namespace Deja.Assemble

/-! ## Conditions -/

/-- A grain of a result, with its type. -/
structure TypedGrain extends CalGrainResult where
  grainType : String

/-- A value of a condition. -/
inductive CalValue (F : Type) where
  | string (value : String)
  | number (value : F)
  | boolean (value : Bool)
  | array (values : List (CalValue F))
  | hash (value : String)
  | parameter (name : String)

/-- How two values are compared. -/
inductive Comparator where
  | eq | notEq | gte | gt | lte | lt
  deriving DecidableEq

/-- The condition of a WHERE clause. -/
inductive Condition (F : Type) where
  | comparison (field : String) (comparator : Comparator) (value : CalValue F)
  | isIn (field : String) (values : List (CalValue F))
  | notIn (field : String) (values : List (CalValue F))
  | isNull (field : String)
  | isNotNull (field : String)
  | contains (field value : String)
  | startsWith (field value : String)
  | isCategory (field category : String)
  | and (left right : Condition F)
  | or (left right : Condition F)
  | not (inner : Condition F)

/-- The floating point operations of a comparison. -/
structure Floats (F : Type) where
  /-- `Value::as_f64`. -/
  asF64 : Json → Option F
  /-- The difference is below `f64::EPSILON`. -/
  near : F → F → Bool
  le : F → F → Bool
  lt : F → F → Bool

section Conditions

variable {F : Type} (fl : Floats F)

/-- A hash without its `sha256:`. -/
def stripHash (field : String) : CalValue F → CalValue F
  | .string v =>
    if field = "hash" ∧ ['s', 'h', 'a', '2', '5', '6', ':'].isPrefixOf v.toList then
      .string (String.ofList (v.toList.drop 7))
    else .string v
  | v => v

/-- The value a grain has for a field; its hash and its type are on the envelope. -/
def grainValue (g : TypedGrain) (field : String) : Option Json :=
  if field = "hash" then some (.str g.hash)
  else if field = "grain_type" then some (.str g.grainType)
  else g.fields.get field

/-- `grain_matches_condition` at `=`. -/
def matchesEq (g : TypedGrain) (field : String) : CalValue F → Bool
  | .string target => ((grainValue g field).bind Json.asStr).any (· = target)
  | .number target => ((grainValue g field).bind fl.asF64).any (fl.near · target)
  | .boolean target => ((grainValue g field).bind Json.asBool).any (· = target)
  | _ => false

/-- `grain_matches_condition` at an order. -/
def matchesOrder (g : TypedGrain) (field : String) (rel : F → F → Bool) : CalValue F → Bool
  | .number target => ((grainValue g field).bind fl.asF64).any (rel · target)
  | _ => false

/-- `grain_matches_condition`. -/
def grainMatchesCondition (g : TypedGrain) (field : String) (comparator : Comparator)
    (value : CalValue F) : Bool :=
  let value := stripHash field value
  match comparator with
  | .eq => matchesEq fl g field value
  | .notEq => !matchesEq fl g field (stripHash field value)
  | .gte => matchesOrder fl g field (fun n target => fl.le target n) value
  | .gt => matchesOrder fl g field (fun n target => fl.lt target n) value
  | .lte => matchesOrder fl g field fl.le value
  | .lt => matchesOrder fl g field fl.lt value

/-- `eq_ignore_ascii_case`. -/
def eqIgnoreAsciiCase (s t : String) : Bool :=
  s.toList.map Char.toLower = t.toList.map Char.toLower

/-- `grain_matches_condition_tree`. -/
def grainMatchesConditionTree (g : TypedGrain) : Condition F → Bool
  | .comparison field comparator value => grainMatchesCondition fl g field comparator value
  | .and left right => grainMatchesConditionTree g left && grainMatchesConditionTree g right
  | .or left right => grainMatchesConditionTree g left || grainMatchesConditionTree g right
  | .not inner => !grainMatchesConditionTree g inner
  | .isIn field values => values.any fun v => grainMatchesCondition fl g field .eq v
  | .notIn field values => !values.any fun v => grainMatchesCondition fl g field .eq v
  | .isNull field => (g.fields.get field).all fun
    | .null => true
    | _ => false
  | .isNotNull field => (g.fields.get field).any fun
    | .null => false
    | _ => true
  | .contains field value => ((g.fields.get field).bind Json.asStr).any fun s =>
    decide (value.toList <:+: s.toList)
  | .startsWith field value => ((g.fields.get field).bind Json.asStr).any fun s =>
    value.toList.isPrefixOf s.toList
  | .isCategory field category => ((g.fields.get field).bind Json.asStr).any fun s =>
    eqIgnoreAsciiCase s category

/-- `COMMON_FIELDS`. -/
def commonFieldNames : List String :=
  ["subject", "relation", "object", "namespace", "user_id", "confidence", "importance", "score",
    "tags", "type", "time", "hash", "contradicted", "verification_status", "source_type",
    "recall_priority", "epistemic_status", "query", "created_at", "content", "summary",
    "grain_type", "scope", "scope_path", "priority", "status"]

/-- `extract_type_specific_conditions`. -/
def extractTypeSpecificConditions : Condition F → List (String × Comparator × CalValue F)
  | .comparison field comparator value =>
    if field ∉ commonFieldNames ∨ field = "hash" then [(field, comparator, value)] else []
  | .and left right => extractTypeSpecificConditions left ++ extractTypeSpecificConditions right
  | .or left right => extractTypeSpecificConditions left ++ extractTypeSpecificConditions right
  | .not inner => extractTypeSpecificConditions inner
  | _ => []

/-- `collect_common_conditions`. -/
def collectCommonConditions : Condition F → List (String × Comparator × CalValue F)
  | .comparison field comparator value =>
    if field ∈ commonFieldNames then [(field, comparator, value)] else []
  | .and left right => collectCommonConditions left ++ collectCommonConditions right
  | _ => []

/-- The filter of the single-source path. -/
def flatMatches (c : Condition F) (g : TypedGrain) : Bool :=
  (extractTypeSpecificConditions c).all (fun x => grainMatchesCondition fl g x.1 x.2.1 x.2.2) &&
    (collectCommonConditions c).all fun x => grainMatchesCondition fl g x.1 x.2.1 x.2.2

/-- `execute_assemble`, the single-source path on what the query returned: the grains
included and the grains omitted. -/
def assembleSingle (grains : List TypedGrain) (whereClause : Option (Condition F))
    (budget : Option BudgetSpec) : List TypedGrain × List TypedGrain :=
  let filtered := match whereClause with
    | some c => grains.filter (flatMatches fl c)
    | none => grains
  match budget with
  | some b =>
    if b.tokens.toNat < filtered.length then
      (filtered.take b.tokens.toNat, filtered.drop b.tokens.toNat)
    else (filtered, [])
  | none => (filtered, [])

/-- A condition of comparisons joined by AND. -/
def IsConjunction : Condition F → Prop
  | .comparison _ _ _ => True
  | .and left right => IsConjunction left ∧ IsConjunction right
  | _ => False

/-- **Of a conjunction, the flattened filter is the tree's.** -/
theorem flatMatches_eq {c : Condition F} (hc : IsConjunction c) (g : TypedGrain) :
    flatMatches fl c g = grainMatchesConditionTree fl g c := by
  induction c with
  | comparison field comparator value =>
    unfold flatMatches extractTypeSpecificConditions collectCommonConditions
      grainMatchesConditionTree
    by_cases hcommon : field ∈ commonFieldNames
    · by_cases hhash : field = "hash"
      · simp [hhash, commonFieldNames]
      · simp [hcommon, hhash]
    · simp [hcommon]
  | and left right ihl ihr =>
    have hleft := ihl hc.1
    have hright := ihr hc.2
    unfold flatMatches at hleft hright ⊢
    rw [grainMatchesConditionTree, ← hleft, ← hright, extractTypeSpecificConditions,
      collectCommonConditions, List.all_append, List.all_append]
    simp only [Bool.and_assoc, Bool.and_left_comm]
  | _ => exact hc.elim

theorem assembleSingle_take (grains : List TypedGrain) (whereClause : Option (Condition F))
    (b : BudgetSpec) : ∃ filtered, assembleSingle fl grains whereClause none = (filtered, []) ∧
      assembleSingle fl grains whereClause (some b) =
        (filtered.take b.tokens.toNat, filtered.drop b.tokens.toNat) := by
  refine ⟨_, rfl, ?_⟩
  unfold assembleSingle
  simp only
  split_ifs with hlong
  · rfl
  · rw [List.take_of_length_le (by omega), List.drop_eq_nil_of_le (by omega)]

end Conditions

/-! ## One source in the engine -/

section One

variable {textLen : Json → ℕ} {n : ℕ} {gs : List CalGrainResult}

/-- The first `n` grains are the ones that fit `n` tokens. -/
structure CountFits (textLen : Json → ℕ) (n : ℕ) (gs : List CalGrainResult) : Prop where
  fits : cost textLen (gs.take n) ≤ n
  next : ∀ g, (gs.drop n).head? = some g →
    n < cost textLen (gs.take n) + estimateGrainTokens textLen g

theorem keepUnseen_of_nodup {seen : List String} (h : (gs.map CalGrainResult.hash).Nodup)
    (hseen : ∀ g ∈ gs, g.hash ∉ seen) : (keepUnseen seen gs).2 = gs := by
  induction gs generalizing seen with
  | nil => rfl
  | cons g gs ih =>
    obtain ⟨hg, hgs⟩ := List.nodup_cons.1 h
    obtain ⟨hfirst, hrest⟩ := List.forall_mem_cons.1 hseen
    rw [keepUnseen, if_neg hfirst]
    refine congrArg (g :: ·) (ih hgs fun x hx => ?_)
    rw [List.mem_cons, not_or]
    exact ⟨fun heq => hg (heq ▸ List.mem_map_of_mem hx), hrest x hx⟩

theorem countFits_prefix {k u : ℕ} (hn : 0 < n) (hfit : CountFits textLen n gs)
    (h : budgetPrefix textLen gs n = some (k, u)) : gs.take k = gs.take n := by
  have hhead : HeadFits textLen n gs := by
    cases gs with
    | nil => exact headFits_nil n
    | cons g gs =>
      have hfits := hfit.fits
      obtain ⟨m, rfl⟩ : ∃ m, n = m + 1 := ⟨n - 1, by omega⟩
      rw [List.take_succ_cons, cost_cons] at hfits
      exact headFits_cons.2 (by omega)
  obtain ⟨hk, -⟩ := budgetPrefix_eq_fitting h hhead
  have htake : gs.take (min n gs.length) = gs.take n := by
    rcases Nat.le_total n gs.length with hle | hle
    · rw [Nat.min_eq_left hle]
    · rw [Nat.min_eq_right hle, List.take_length, List.take_of_length_le hle]
  have hdrop : gs.drop (min n gs.length) = gs.drop n := by
    rcases Nat.le_total n gs.length with hle | hle
    · rw [Nat.min_eq_left hle]
    · rw [Nat.min_eq_right hle, List.drop_length, List.drop_eq_nil_of_le hle]
  have hmin : min n gs.length = fittingCount textLen n gs := by
    refine Fitting.eq_fitting (Nat.min_le_right _ _) ?_ fun g hg => ?_
    · rw [htake]
      exact hfit.fits
    · rw [htake]
      rw [hdrop] at hg
      exact hfit.next g hg
  rw [hk, ← hmin, htake]

theorem allocate_one (label : String) {n : ℕ} (hn : n < 2 ^ 32) :
    perSource [label] n none = [some n] := by
  have hround : roundU32 (n : ℚ≥0) = n := by
    have hfloor : ⌊(n : ℚ≥0) + 1 / 2⌋₊ = n := by
      rw [Nat.floor_eq_iff (by positivity)]
      constructor
      · exact le_self_add
      · gcongr
        rw [div_lt_one (by positivity)]
        norm_num
    rw [roundU32, hfloor]
    omega
  simp [perSource, allocateBudget, weights, defaultWeights, hround, Assoc.insert]

end One

/-- The engine with one source: its list is cut by the tokens. -/
theorem execute_one {Q E : Type} {label : String} {q : Q} {gs : List CalGrainResult}
    {textLen : Json → ℕ} {b : BudgetSpec} {a : Assembled}
    (hgs : (gs.map CalGrainResult.hash).Nodup) (hlen : gs.length ≤ maxGrainsPostDedup)
    (h : execute (E := E) textLen (fun _ => .ok gs) ⟨some [⟨label, q⟩], some b, none, []⟩ =
      .ok (.assembled a)) :
    ∃ k u, budgetPrefix textLen gs b.tokens.toNat = some (k, u) ∧ a.grains = gs.take k := by
  have hrun : runSources (E := E) (fun _ : NamedSource Q => .ok gs) [⟨label, q⟩] =
      .ok [(label, gs)] := rfl
  rw [execute_eq rfl (List.cons_ne_nil _ _) hrun] at h
  have hdedup : dedup [] none [(label, gs)] = [(label, gs)] := by
    simp only [dedup, extractDedupField, dedupByHash, dedupByHashFrom,
      keepUnseen_of_nodup hgs fun _ _ => List.not_mem_nil]
  have hcap : capGrains [(label, gs)] maxGrainsPostDedup = ([(label, gs)], []) := by
    unfold capGrains
    rw [if_pos (by simpa [totalCount] using hlen)]
  have hshares := allocate_one label (UInt32.toNat_lt b.tokens)
  unfold assembleResults at h
  simp only [hdedup, hcap, AssembleStmt.budgetTokens, Option.map_some, Option.getD_some,
    List.map_cons, List.map_nil, hshares, List.zip_cons_cons, List.zip_nil_left, trim,
    min_self] at h
  cases hcut : budgetPrefix textLen gs b.tokens.toNat with
  | none =>
    rw [hcut] at h
    cases h
  | some x =>
    obtain ⟨k, u⟩ := x
    refine ⟨k, u, rfl, ?_⟩
    rw [hcut] at h
    obtain ⟨total, -, ha⟩ := Option.map_eq_some_iff.1 h
    rw [← ha]
    exact List.append_nil _

/-- **One source.**  Of a conjunction, the single-source path includes the first `n`
grains that satisfy it and omits the others, whatever the unit of the budget; without a
WHERE clause the engine for several sources includes the same grains where the first `n`
of them are those that fit `n` tokens. -/
theorem single_source_law {F : Type} (fl : Floats F) (textLen : Json → ℕ)
    (grains : List TypedGrain) (b : BudgetSpec) :
    (∀ c, IsConjunction c → assembleSingle fl grains (some c) (some b) =
      ((grains.filter fun g => grainMatchesConditionTree fl g c).take b.tokens.toNat,
        (grains.filter fun g => grainMatchesConditionTree fl g c).drop b.tokens.toNat)) ∧
    ∀ (Q E : Type) (label : String) (q : Q) (a : Assembled), 0 < b.tokens.toNat →
      (grains.map fun g => g.hash).Nodup → grains.length ≤ maxGrainsPostDedup →
      CountFits textLen b.tokens.toNat (grains.map TypedGrain.toCalGrainResult) →
      execute (E := E) textLen (fun _ => .ok (grains.map TypedGrain.toCalGrainResult))
        ⟨some [⟨label, q⟩], some b, none, []⟩ = .ok (.assembled a) →
        a.grains = (assembleSingle fl grains none (some b)).1.map TypedGrain.toCalGrainResult := by
  refine ⟨fun c hc => ?_, fun Q E label q a hn hnodup hlen hfit hrun => ?_⟩
  · obtain ⟨filtered, hall, hbudget⟩ := assembleSingle_take fl grains (some c) b
    have hfiltered : filtered = grains.filter fun g => grainMatchesConditionTree fl g c :=
      (congrArg Prod.fst hall).symm.trans
        (List.filter_congr fun g _ => flatMatches_eq fl hc g)
    rw [hbudget, hfiltered]
  · obtain ⟨filtered, hall, hbudget⟩ := assembleSingle_take fl grains none b
    have hfiltered : grains = filtered := congrArg Prod.fst hall
    obtain ⟨k, u, hcut, ha⟩ := execute_one (by rw [List.map_map]; exact hnodup)
      (by rw [List.length_map]; exact hlen) hrun
    rw [ha, hbudget, ← hfiltered, countFits_prefix hn hfit hcut, List.map_take]

/-! ### On fixed grains -/

/-- Two grains. -/
def twoGrains : List TypedGrain := [⟨⟨"a", .null⟩, "fact"⟩, ⟨⟨"b", .null⟩, "fact"⟩]

/-- Numbers that are never read. -/
def noFloats : Floats Unit := ⟨fun _ => none, fun _ _ => false, fun _ _ => false, fun _ _ => false⟩

/-- A condition that both satisfy. -/
def notTrue : Condition Unit := .comparison "hash" .notEq (.boolean true)

/-- **A budget of tokens is counted in grains.** -/
theorem tokens_counted_as_grains :
    ¬∀ (F : Type) (fl : Floats F) (textLen : Json → ℕ) (grains : List TypedGrain)
      (c : Condition F) (b : BudgetSpec), b.unit = .tokens →
        ∃ k, (assembleSingle fl grains (some c) (some b)).1 =
          (grains.filter fun g => grainMatchesConditionTree fl g c).take k ∧
          (k = fittingCount textLen b.tokens.toNat ((grains.filter fun g =>
              grainMatchesConditionTree fl g c).map TypedGrain.toCalGrainResult) ∨
            fittingCount textLen b.tokens.toNat ((grains.filter fun g =>
              grainMatchesConditionTree fl g c).map TypedGrain.toCalGrainResult) = 0 ∧ k = 1) := by
  intro h
  obtain ⟨k, htake, hk⟩ := h Unit noFloats (fun _ => 40) twoGrains notTrue ⟨5, .tokens⟩ rfl
  have hincluded : (assembleSingle noFloats twoGrains (some notTrue)
    (some ⟨5, .tokens⟩)).1.length = 2 := by decide +kernel
  have hnone : fittingCount (fun _ => 40) (5 : UInt32).toNat ((twoGrains.filter fun g =>
    grainMatchesConditionTree noFloats g notTrue).map TypedGrain.toCalGrainResult) = 0 := by
    decide +kernel
  rw [htake, List.length_take] at hincluded
  rw [hnone] at hk
  omega

end Deja.Assemble
