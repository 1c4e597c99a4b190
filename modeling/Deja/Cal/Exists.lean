import Deja.Assemble.Single

/-!
# EXISTS beside RECALL

`EXISTS` sets up a recall of its own, with a limit of one and without what
`RECALL` does after it: no filter on the fields of a type, no spelling of a
subject as a DID.  A condition on the hash alone is answered by the store.

The facade reads four candidates for every grain it may return and filters them
afterwards.  Without a topic the candidates come from one list of the store, newest
first: the live grains of a type, or those about a subject.

* `exists_agrees_of` — where the two answer alike.
-/

namespace Deja.Cal

open Assemble

variable {F E : Type}

/-! ## The facade -/

/-- The parameters of a recall that a `WHERE` and an `ABOUT` clause set. -/
structure RecallParams (F : Type) where
  grainType : Option GrainType
  query : Option String
  subject : Option String
  relation : Option String
  object : Option String
  subjectIn : Option (List String)
  relationIn : Option (List String)
  objectIn : Option (List String)
  namespaceName : Option String
  namespaces : Option (List String)
  userId : Option String
  confidenceThreshold : Option F
  importanceThreshold : Option F
  temporalExpr : Option String
  includeContradicted : Option Bool
  entity : Option String
  scopePath : Option String
  tags : Option (List String)
  excludeTags : Option (List String)
  subjectContains : Option String
  objectContains : Option String
  limit : Option ℕ

/-- `RecallParams::default`, for a type and a topic. -/
def RecallParams.start (grainType : Option GrainType) (about : Option String) : RecallParams F where
  grainType := grainType
  query := about
  subject := none
  relation := none
  object := none
  subjectIn := none
  relationIn := none
  objectIn := none
  namespaceName := none
  namespaces := none
  userId := none
  confidenceThreshold := none
  importanceThreshold := none
  temporalExpr := none
  includeContradicted := none
  entity := none
  scopePath := none
  tags := none
  excludeTags := none
  subjectContains := none
  objectContains := none
  limit := none

/-- A session on a store, as the facade reads it. -/
structure Facade (F E : Type) where
  /-- the namespace of the session -/
  defaultNamespace : Option String
  /-- `check_verb` for a read of a namespace -/
  checkRead : String → Except E Unit
  /-- the refusal of a recall without type, subject and topic -/
  tooBroad : E
  /-- `recent_live`: the live grains of a type, newest first -/
  recentLive : String → GrainType → List Assemble.TypedGrain
  /-- the structural leg: the live grains about a subject, newest first -/
  about : String → String → Option String → List Assemble.TypedGrain
  /-- the fused legs of a topic, and the union over several subjects -/
  fused : RecallParams F → ℕ → Except E (List Assemble.TypedGrain)
  /-- the filters on a candidate -/
  keep : RecallParams F → Assemble.TypedGrain → Bool
  has : Hash → Except E Bool
  /-- a store has one row for a content address -/
  distinctLive : ∀ ns t, ((recentLive ns t).map fun g => g.hash).Nodup
  distinctAbout : ∀ ns subject relation, ((about ns subject relation).map fun g => g.hash).Nodup

/-- `RECALL_OVERFETCH`. -/
def recallOverfetch : ℕ := 4

/-- The parameters the legs and the filters read: the namespace of the session
stands in for none. -/
def Facade.effective (s : Facade F E) (p : RecallParams F) : RecallParams F :=
  { p with
    namespaceName := p.namespaceName.or s.defaultNamespace
    limit := none }

/-- A list that nothing is in. -/
def emptyIn (values : Option (List String)) : Bool := values = some []

/-- The subjects that anchor a recall. -/
def RecallParams.anchors (p : RecallParams F) : List String :=
  match p.subject, p.subjectIn with
  | some subject, _ => [subject]
  | none, some values => values
  | none, none => []

/-- The one list a recall without a topic reads. -/
def Facade.listed (s : Facade F E) (p : RecallParams F) : Option (List Assemble.TypedGrain) :=
  let ns := p.namespaceName.getD "shared"
  match p.query, p.anchors with
  | none, [] => p.grainType.map (s.recentLive ns)
  | none, [subject] => some (s.about ns subject p.relation)
  | _, _ => none

/-- The first `n` candidates. -/
def Facade.leg (s : Facade F E) (p : RecallParams F) (n : ℕ) :
    Except E (List Assemble.TypedGrain) := do
  s.checkRead (p.namespaceName.getD "*")
  match s.listed p with
  | some rows => .ok (rows.take n)
  | none => if p.query = none ∧ p.anchors = [] then .error s.tooBroad else s.fused p n

/-- The candidates among the first `n` that pass the filters. -/
def Facade.found (s : Facade F E) (p : RecallParams F) (n : ℕ) :
    Except E (List Assemble.TypedGrain) :=
  if emptyIn p.subjectIn || emptyIn p.relationIn || emptyIn p.objectIn then .ok []
  else (s.leg p n).map fun raw => raw.filter (s.keep p)

/-- `DejaDbFacade::recall`. -/
def Facade.recall (s : Facade F E) (p : RecallParams F) : Except E (List Assemble.TypedGrain) :=
  let k := min (p.limit.getD 16) 1000
  (s.found (s.effective p) (k * recallOverfetch)).map fun hits => hits.take k

/-! ## The executor -/

/-- The configuration and the tables the executor reads. -/
structure Executor (F : Type) where
  namespaceOverride : Option String
  userIdOverride : Option String
  defaultLimit : ℕ
  floats : Floats F
  /-- `f64::to_string`. -/
  numberText : F → String
  /-- `expand_category`. -/
  expandCategory : String → List String
  /-- `type_specific_fields`. -/
  typeSpecificFields : GrainType → List String

/-- The refusals of the two statements. -/
inductive RecallError (E : Type) where
  | unboundParameter (name : String)
  | incompatibleTypes
  | invalidHash (found : String)
  | fieldNotOnGrainType (field : String)
  | store (e : E)

/-- `value_to_string`. -/
def valueToString : CalValue F → Except (RecallError E) String
  | .string v => .ok v
  | .hash v => .ok v
  | .parameter name => .error (.unboundParameter name)
  | _ => .error .incompatibleTypes

/-- `value_to_f64`. -/
def valueToF64 : CalValue F → Except (RecallError E) F
  | .number v => .ok v
  | _ => .error .incompatibleTypes

/-- The strings among some values. -/
def stringsOf (values : List (CalValue F)) : List String :=
  values.filterMap fun
    | .string v => some v
    | _ => none

section Executor

variable (x : Executor F) (lets : List (String × List String))

/-- The texts of one value of an `IN`; a parameter stands for what it is bound to. -/
def inTexts : CalValue F → Except (RecallError E) (List String)
  | .string v => .ok [v]
  | .hash v => .ok [v]
  | .number n => .ok [x.numberText n]
  | .boolean b => .ok [if b then "true" else "false"]
  | .array inner => .ok (stringsOf inner)
  | .parameter name =>
    match lets.lookup name with
    | some bound => .ok bound
    | none => .error (.unboundParameter name)

/-- The texts of the values of an `IN`. -/
def inValues : List (CalValue F) → Except (RecallError E) (List String)
  | [] => .ok []
  | v :: values => do
    let texts ← inTexts x lets v
    let more ← inValues values
    .ok (texts ++ more)

/-- The arms of `apply_where_clause` for `field = value`. -/
def applyEq (field : String) (value : CalValue F) (p : RecallParams F) :
    Except (RecallError E) (RecallParams F) :=
  match field with
  | "subject" => (valueToString value).map fun v => { p with subject := some v }
  | "relation" => (valueToString value).map fun v => { p with relation := some v }
  | "object" => (valueToString value).map fun v => { p with object := some v }
  | "namespace" =>
    if x.namespaceOverride.isNone then
      (valueToString value).map fun v => { p with namespaceName := some v }
    else .ok p
  | "user_id" =>
    if x.userIdOverride.isNone then
      (valueToString value).map fun v => { p with userId := some v }
    else .ok p
  | "query" => (valueToString value).map fun v => { p with query := some v }
  | "time" => (valueToString value).map fun v => { p with temporalExpr := some v }
  | "contradicted" =>
    match value with
    | .boolean b => .ok { p with includeContradicted := some b }
    | _ => .ok p
  | "entity" => (valueToString value).map fun v => { p with entity := some v }
  | "scope_path" | "scope" => (valueToString value).map fun v => { p with scopePath := some v }
  | _ => .ok p

/-- The arms for `field >= value` and `field > value`. -/
def applyAtLeast (field : String) (value : CalValue F) (p : RecallParams F) :
    Except (RecallError E) (RecallParams F) :=
  match field with
  | "confidence" => (valueToF64 value).map fun v => { p with confidenceThreshold := some v }
  | "importance" => (valueToF64 value).map fun v => { p with importanceThreshold := some v }
  | _ => .ok p

/-- `apply_where_clause`, without its warnings.  Of an `OR` the left branch is
applied. -/
def applyWhereClause : Condition F → RecallParams F → Except (RecallError E) (RecallParams F)
  | .comparison field comparator value, p =>
    match comparator with
    | .eq => applyEq x field value p
    | .gte | .gt => applyAtLeast field value p
    | _ => .ok p
  | .and left right, p => do
    let q ← applyWhereClause left p
    applyWhereClause right q
  | .or left _, p => applyWhereClause left p
  | .isIn field values, p => do
    let texts ← inValues x lets values
    match field with
    | "subject" => .ok { p with subjectIn := some texts }
    | "relation" => .ok { p with relationIn := some texts }
    | "object" => .ok { p with objectIn := some texts }
    | "tags" => .ok { p with tags := some texts }
    | "namespace" =>
      .ok { p with namespaceName := texts.head?.or p.namespaceName, namespaces := some texts }
    | _ => .ok p
  | .notIn field values, p =>
    .ok (if field = "tags" then { p with excludeTags := some (stringsOf values) } else p)
  | .contains field value, p =>
    .ok (match field with
      | "subject" => { p with subjectContains := some value }
      | "object" => { p with objectContains := some value }
      | "content" | "summary" => { p with query := p.query.or (some value) }
      | _ => p)
  | .isCategory field category, p =>
    .ok (if field = "relation" ∧ x.expandCategory category ≠ [] then
      { p with relationIn := some (x.expandCategory category) } else p)
  | _, p => .ok p

/-- The parameters of a type, a condition and a topic. -/
def whereParams (grainType : Option GrainType) (c : Option (Condition F)) (about : Option String) :
    Except (RecallError E) (RecallParams F) :=
  match c with
  | some c => applyWhereClause x lets c (.start grainType about)
  | none => .ok (.start grainType about)

/-- `extract_hash_from_condition`. -/
def extractHashFromCondition : Option (Condition F) → Option String
  | some (.comparison "hash" .eq (.hash value)) => some value
  | _ => none

/-- The facade's answer or its refusal. -/
def fromStore {α : Type} : Except E α → Except (RecallError E) α
  | .ok a => .ok a
  | .error e => .error (.store e)

/-- `execute_exists`: whether there is one, and the hash it reports. -/
def executeExists (s : Facade F E) (grainType : Option GrainType) (c : Option (Condition F))
    (about : Option String) : Except (RecallError E) (Bool × String) := do
  let p ← whereParams x lets grainType c about
  match extractHashFromCondition c with
  | some hs =>
    match Hash.fromHex hs with
    | none => .error (.invalidHash hs)
    | some h => (fromStore (s.has h)).map fun found => (found, hs)
  | none =>
    let hits ← fromStore (s.recall { p with
      limit := some 1
      namespaceName := x.namespaceOverride.or p.namespaceName
      userId := x.userIdOverride.or p.userId })
    .ok (!hits.isEmpty, (hits.head?.map fun g => g.hash).getD "")

/-! ### RECALL -/

/-- The spellings of a subject as a DID. -/
def expandDid (value : String) : List String :=
  if ['d', 'i', 'd', ':'].isPrefixOf value.toList then [value] else [value, "did:" ++ value]

/-- A consent's subject is looked for under its DID too. -/
def expandConsents (p : RecallParams F) : RecallParams F :=
  let subjects : Option (List String) := match p.subject, p.subjectIn with
    | some v, some values => some (values ++ expandDid v)
    | some v, none => some (expandDid v)
    | none, values => values
  { p with
    subject := none
    subjectIn := subjects.map fun values => (values.flatMap expandDid).reverse.dedup.reverse }

/-- A membership test that is applied to the grains found. -/
structure SetCondition (F : Type) where
  field : String
  values : List (CalValue F)
  negated : Bool

/-- `extract_type_specific_set_conditions`. -/
def extractTypeSpecificSetConditions : Condition F → List (SetCondition F)
  | .isIn field values =>
    if field ∈ ["subject", "relation", "object", "tags", "namespace"] then []
    else [⟨field, values, false⟩]
  | .notIn field values => if field = "tags" then [] else [⟨field, values, true⟩]
  | .and left right | .or left right =>
    extractTypeSpecificSetConditions left ++ extractTypeSpecificSetConditions right
  | .not inner => extractTypeSpecificSetConditions inner
  | _ => []

/-- `grain_matches_set_condition`. -/
def grainMatchesSetCondition (g : Assemble.TypedGrain) (c : SetCondition F) : Bool :=
  let anyMatch := c.values.any fun v => grainMatchesCondition x.floats g c.field .eq v
  if c.negated then !anyMatch else anyMatch

/-- The fields the filters after a recall refer to. -/
def referencedFields (c : Condition F) : List String :=
  (extractTypeSpecificConditions c).map (fun t => t.1) ++
    (extractTypeSpecificSetConditions c).map fun t => t.field

/-- The first of these fields that grains of the type do not have. -/
def strangeField (grainType : Option GrainType) (c : Condition F) : Option String :=
  match grainType with
  | none => none
  | some t => (referencedFields c).find? fun f =>
    f ∉ x.typeSpecificFields t ∧ f ∉ commonFieldNames

/-- The filter after a recall. -/
def postFilter (c : Condition F) (g : Assemble.TypedGrain) : Bool :=
  ((extractTypeSpecificConditions c).all fun t =>
      grainMatchesCondition x.floats g t.1 t.2.1 t.2.2) &&
    (extractTypeSpecificSetConditions c).all fun t => grainMatchesSetCondition x g t

/-- `execute_recall` of a type, a condition and a topic, without other clauses. -/
def executeRecall (s : Facade F E) (grainType : Option GrainType) (c : Option (Condition F))
    (about : Option String) : Except (RecallError E) (List Assemble.TypedGrain) := do
  let p ← whereParams x lets grainType c about
  let q := if grainType = some .consent then expandConsents p else p
  let hits ← fromStore (s.recall { q with
    limit := some x.defaultLimit
    namespaceName := x.namespaceOverride.or (q.namespaceName.or s.defaultNamespace)
    userId := x.userIdOverride.or q.userId })
  match c with
  | none => .ok hits
  | some c =>
    match strangeField x grainType c with
    | some f => .error (.fieldNotOnGrainType f)
    | none => .ok (hits.filter (postFilter x c))

end Executor

/-! ## Where they agree -/

section Agree

variable (x : Executor F) (lets : List (String × List String)) (s : Facade F E)

/-- `EXISTS` finds something where `RECALL` does, and reports one of its grains. -/
structure ExistsAgrees (grainType : Option GrainType) (c : Option (Condition F))
    (about : Option String) : Prop where
  found : (∃ h, executeExists x lets s grainType c about = .ok (true, h)) ↔
    ∃ gs, executeRecall x lets s grainType c about = .ok gs ∧ gs ≠ []
  reported : ∀ h gs, executeExists x lets s grainType c about = .ok (true, h) →
    executeRecall x lets s grainType c about = .ok gs → h ∈ gs.map fun g => g.hash

/-- The parameters that both statements come to. -/
def settled (p : RecallParams F) : RecallParams F :=
  s.effective { p with
    namespaceName := x.namespaceOverride.or p.namespaceName
    userId := x.userIdOverride.or p.userId }

/-- `RECALL` refuses no field of the condition, and keeps the grain. -/
def RecallAnswers (grainType : Option GrainType) (c : Option (Condition F))
    (g : Assemble.TypedGrain) : Prop :=
  ∀ c', c = some c' → strangeField x grainType c' = none ∧ postFilter x c' g = true

/-- What is found among the first `n` candidates; a refusal finds nothing. -/
def Facade.hits (p : RecallParams F) (n : ℕ) : List Assemble.TypedGrain :=
  (s.found p n).toOption.getD []

/-- Of what `EXISTS` finds among four candidates and `RECALL` among four for each
grain of its limit: the first grain for `EXISTS` is the first for `RECALL`, which
answers it; where there is none for `EXISTS`, `RECALL` answers none. -/
def FirstFits (grainType : Option GrainType) (c : Option (Condition F)) (p : RecallParams F) :
    Prop :=
  let k := min x.defaultLimit 1000
  let far := (s.hits p (k * recallOverfetch)).take k
  match s.hits p recallOverfetch with
  | [] => ∀ g ∈ far, ¬ RecallAnswers x grainType c g
  | g :: _ => far.head? = some g ∧ RecallAnswers x grainType c g

theorem Option.or_or_self {α : Type} (a b c : Option α) :
    (a.or (b.or c)).or c = (a.or b).or c := by
  cases a <;> cases b <;> cases c <;> rfl

variable {x lets s}

/-- `EXISTS` answers with the first grain found among four candidates. -/
theorem executeExists_iff {grainType : Option GrainType} {c : Option (Condition F)}
    {about : Option String} {p : RecallParams F} (hhash : extractHashFromCondition c = none)
    (hp : whereParams (E := E) x lets grainType c about = .ok p) (h : String) :
    executeExists x lets s grainType c about = .ok (true, h) ↔
      ∃ g, (s.hits (settled x s p) recallOverfetch).head? = some g ∧ g.hash = h := by
  have heq : executeExists x lets s grainType c about =
      (fromStore (s.recall { p with
        limit := some 1
        namespaceName := x.namespaceOverride.or p.namespaceName
        userId := x.userIdOverride.or p.userId })).map fun hits =>
          (!hits.isEmpty, (hits.head?.map fun g => g.hash).getD "") := by
    simp only [executeExists, hp, hhash, bind, Except.bind]
    cases fromStore (E := E) (s.recall _) <;> rfl
  have hrecall : s.recall { p with
        limit := some 1
        namespaceName := x.namespaceOverride.or p.namespaceName
        userId := x.userIdOverride.or p.userId } =
      (s.found (settled x s p) recallOverfetch).map fun hits => hits.take 1 := rfl
  rw [heq, hrecall, Facade.hits]
  cases s.found (settled x s p) recallOverfetch with
  | error e => simp [fromStore, Except.map, Except.toOption]
  | ok hits => cases hits <;> simp [fromStore, Except.map, Except.toOption]

/-- What `RECALL` answers from it: its field check, and its filter. -/
theorem executeRecall_eq {grainType : Option GrainType} {c : Option (Condition F)}
    {about : Option String} {p : RecallParams F}
    (hdid : grainType = some .consent → expandConsents p = p)
    (hp : whereParams (E := E) x lets grainType c about = .ok p) :
    executeRecall x lets s grainType c about =
      (fromStore (s.found (settled x s p) (min x.defaultLimit 1000 * recallOverfetch))).bind
        fun far => match c with
          | none => .ok (far.take (min x.defaultLimit 1000))
          | some c => match strangeField x grainType c with
            | some f => .error (.fieldNotOnGrainType f)
            | none => .ok ((far.take (min x.defaultLimit 1000)).filter (postFilter x c)) := by
  have hsame : (if grainType = some .consent then expandConsents p else p) = p := by
    split_ifs with h
    · exact hdid h
    · rfl
  have heffective : s.effective { p with
      limit := some x.defaultLimit
      namespaceName := x.namespaceOverride.or (p.namespaceName.or s.defaultNamespace)
      userId := x.userIdOverride.or p.userId } = settled x s p := by
    simp only [Facade.effective, settled, Option.or_or_self]
  simp only [executeRecall, hp, bind, Except.bind, hsame, Facade.recall, heffective,
    Option.getD_some]
  cases s.found (settled x s p) (min x.defaultLimit 1000 * recallOverfetch) <;> rfl

/-- `RECALL` returns a grain exactly when it is found and answered. -/
theorem mem_executeRecall {grainType : Option GrainType} {c : Option (Condition F)}
    {about : Option String} {p : RecallParams F}
    (hdid : grainType = some .consent → expandConsents p = p)
    (hp : whereParams (E := E) x lets grainType c about = .ok p) (g : Assemble.TypedGrain) :
    (∃ gs, executeRecall x lets s grainType c about = .ok gs ∧ g ∈ gs) ↔
      g ∈ (s.hits (settled x s p) (min x.defaultLimit 1000 * recallOverfetch)).take
        (min x.defaultLimit 1000) ∧ RecallAnswers x grainType c g := by
  rw [executeRecall_eq hdid hp, Facade.hits]
  cases s.found (settled x s p) (min x.defaultLimit 1000 * recallOverfetch) with
  | error e => simp [fromStore, Except.bind, Except.toOption]
  | ok far =>
    cases c with
    | none => simp [fromStore, Except.bind, Except.toOption, RecallAnswers]
    | some c =>
      cases hstrange : strangeField x grainType c with
      | some f => simp [fromStore, Except.bind, Except.toOption, RecallAnswers, hstrange]
      | none => simp [fromStore, Except.bind, Except.toOption, RecallAnswers, hstrange]

/-- What is found on one list of the store; nothing where an `IN` is empty or the
namespace may not be read. -/
theorem hits_listed {p : RecallParams F} {rows : List Assemble.TypedGrain}
    (hrows : s.listed p = some rows) :
    (∀ n, s.hits p n = []) ∨ ∀ n, s.hits p n = (rows.take n).filter (s.keep p) := by
  by_cases hempty : (emptyIn p.subjectIn || emptyIn p.relationIn || emptyIn p.objectIn) = true
  · exact .inl fun n => by simp [Facade.hits, Facade.found, hempty, Except.toOption]
  · cases hread : s.checkRead (p.namespaceName.getD "*") with
    | error e =>
      refine .inl fun n => ?_
      simp [Facade.hits, Facade.found, hempty, Facade.leg, hread, bind, Except.bind, Except.map,
        Except.toOption]
    | ok u =>
      refine .inr fun n => ?_
      simp [Facade.hits, Facade.found, hempty, Facade.leg, hread, hrows, bind, Except.bind,
        Except.map, Except.toOption]

/-- On one list of the store, what is found among fewer candidates comes first. -/
theorem hits_part {p : RecallParams F} {rows : List Assemble.TypedGrain}
    (hrows : s.listed p = some rows) {m n : ℕ} (h : m ≤ n) : s.hits p m <+: s.hits p n := by
  rcases hits_listed hrows with hnone | hfound
  · rw [hnone, hnone]
  · rw [hfound, hfound]
    exact (List.take_prefix_take_left h).filter (s.keep p)

/-- A list of the store has no two grains of one address. -/
theorem hits_distinct {p : RecallParams F} {rows : List Assemble.TypedGrain}
    (hrows : s.listed p = some rows) (n : ℕ) : ((s.hits p n).map fun g => g.hash).Nodup := by
  have hnodup : (rows.map fun g => g.hash).Nodup := by
    unfold Facade.listed at hrows
    dsimp only at hrows
    split at hrows
    · obtain ⟨t, -, rfl⟩ := Option.map_eq_some_iff.1 hrows
      exact s.distinctLive _ t
    · obtain rfl := Option.some.inj hrows
      exact s.distinctAbout _ _ _
    · cases hrows
  rcases hits_listed hrows with hnone | hfound
  · rw [hnone]
    exact List.nodup_nil
  · rw [hfound]
    exact hnodup.sublist ((List.filter_sublist.trans (List.take_sublist n rows)).map _)

end Agree

/-! ### On fixed sessions -/

/-- An executor whose events have a session. -/
def plainExecutor : Executor Unit where
  namespaceOverride := none
  userIdOverride := none
  defaultLimit := 50
  floats := noFloats
  numberText _ := ""
  expandCategory _ := []
  typeSpecificFields _ := ["session_id"]

/-- A session that finds these events. -/
def eventsFacade (events : List Assemble.TypedGrain)
    (distinct : (events.map fun g => g.hash).Nodup) : Facade Unit Unit where
  defaultNamespace := none
  checkRead _ := .ok ()
  tooBroad := ()
  recentLive _ _ := events
  about _ _ _ := []
  fused _ _ := .ok []
  keep _ _ := true
  has _ := .ok true
  distinctLive _ _ := distinct
  distinctAbout _ _ _ := List.nodup_nil

/-- An event of a session. -/
def eventOf (hash session : String) : Assemble.TypedGrain :=
  ⟨⟨hash, .obj [("session_id", .str session)]⟩, "event"⟩

/-- One event, of the session `y`. -/
def oneEvent : Facade Unit Unit := eventsFacade [eventOf "aa" "y"] (by decide)

end Deja.Cal
