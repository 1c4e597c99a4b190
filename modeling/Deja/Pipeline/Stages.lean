import Deja.Assemble.Single
import Deja.Pipeline.Compare

/-!
# Pipelines

The stages after `|`, one by one over a list of grains.  A payload that is no
plain list of grains passes every stage as it is, an assembled context too.

* `Meets` — what each stage is for.
* `Sound` — where a stage does what it is for.
-/

namespace Deja.Pipeline

open Assemble

variable {F A : Type}

/-! ## Stages and payloads -/

/-- A field of `PROJECT`, under its alias if it has one. -/
structure ProjectField where
  field : String
  aliasName : Option String

/-- The key a projected field gets. -/
def ProjectField.key (pf : ProjectField) : String := pf.aliasName.getD pf.field

/-- The stages of a pipeline. -/
inductive PipelineStage (F : Type) where
  | select (fields : List String)
  | orderBy (field : String) (descending : Bool)
  | limit (value : ℕ)
  | offset (value : ℕ)
  | count
  | first
  | subjects
  | objects
  | hashes
  | groupBy (field : String)
  | filter (condition : Condition F)
  | project (fields : List ProjectField)

/-- The payloads a pipeline gets or makes.  `A` is the rest of an assembled
context. -/
inductive CalResultPayload (A : Type) where
  | grains (grains : List Assemble.TypedGrain) (totalAvailable : Option ℕ)
  | assembled (grains : List Assemble.TypedGrain) (totalAvailable : Option ℕ) (rest : A)
  | count (count : ℕ)
  | other (kind : String)

/-! ## The helpers -/

section Helpers

variable (D : Display)

/-- `project_fields`, and the loop of `PROJECT`: what the fields have, under
the keys given, each insertion replacing an earlier one. -/
def projectFields (fields : Json) (selected : List (String × String)) : Json :=
  .obj (selected.foldl (fun out x =>
    match fields.get x.1 with
    | some v => Assoc.insert x.2 v out
    | none => out) [])

/-- The comparison of `ORDER BY`: an earlier element is not after a later one. -/
def notAfter (field : String) (descending : Bool) (a b : Assemble.TypedGrain) : Prop :=
  let cmp := compareJsonValues D (a.fields.get field) (b.fields.get field)
  (if descending then cmp.swap else cmp) ≠ .gt

instance (field : String) (descending : Bool) : DecidableRel (notAfter D field descending) :=
  fun a b => inferInstanceAs (Decidable ((if descending then
    (compareJsonValues D (a.fields.get field) (b.fields.get field)).swap else
    compareJsonValues D (a.fields.get field) (b.fields.get field)) ≠ .gt))

/-- What `SUBJECTS`, `OBJECTS` and `HASHES` make of a value. -/
def extracted (v : Json) : Assemble.TypedGrain := ⟨⟨"", .obj [("value", v)]⟩, "extracted"⟩

/-- The key a grain is grouped by; empty where it lacks the field. -/
def groupKey (field : String) (g : Assemble.TypedGrain) : String :=
  match g.fields.get field with
  | none => ""
  | some (.str s) => s
  | some v => D.text v

/-- The time `GROUP BY` sorts by. -/
def createdAtSec (g : Assemble.TypedGrain) : WithBot ℚ :=
  (g.fields.get "created_at_sec").bind Json.asF64

/-- The members of a group, sorted. -/
def groupMembers (field : String) (grains : List Assemble.TypedGrain) (key : String) :
    List Assemble.TypedGrain :=
  (grains.filter fun g => groupKey D field g = key).insertionSort fun a b =>
    createdAtSec a ≤ createdAtSec b

/-- The earliest time of a group: its first member's. -/
def earliest (members : List Assemble.TypedGrain) : WithBot ℚ := members.head?.bind createdAtSec

/-- The groups in the order of their keys. -/
def groupsByKey (field : String) (grains : List Assemble.TypedGrain) :
    List (String × List Assemble.TypedGrain) :=
  ((grains.map (groupKey D field)).dedup.insertionSort (· ≤ ·)).map fun key =>
    (key, groupMembers D field grains key)

/-- `group_grains_by_field`: the groups by their earliest time, the one without
a key moved to the end. -/
def groupGrainsByField (grains : List Assemble.TypedGrain) (field : String) :
    List Assemble.TypedGrain :=
  let groups := (groupsByKey D field grains).insertionSort fun a b => earliest a.2 ≤ earliest b.2
  ((groups.filter fun g => g.1 ≠ "") ++ groups.filter fun g => g.1 = "").flatMap Prod.snd

/-- One stage of `apply_pipeline`, under the limit of the configuration. -/
def applyStage (fl : Floats F) (maxLimit : ℕ) :
    CalResultPayload A → PipelineStage F → CalResultPayload A
  | .grains gs total, stage =>
    let counted (gs : List Assemble.TypedGrain) : CalResultPayload A := .grains gs (some gs.length)
    match stage with
    | .limit value => counted (gs.take (min value maxLimit))
    | .offset value => counted (gs.drop value)
    | .count => .count gs.length
    | .first => .grains (gs.take 1) (some 1)
    | .orderBy field descending => counted (gs.insertionSort (notAfter D field descending))
    | .select fields =>
      counted (gs.map fun g =>
        { g with fields := projectFields g.fields (fields.map fun f => (f, f)) })
    | .project fields =>
      counted (gs.map fun g =>
        { g with fields := projectFields g.fields (fields.map fun pf => (pf.field, pf.key)) })
    | .subjects => counted (gs.filterMap fun g => (g.fields.get "subject").map extracted)
    | .objects => counted (gs.filterMap fun g => (g.fields.get "object").map extracted)
    | .hashes => counted (gs.map fun g => extracted (.str g.hash))
    | .groupBy field => .grains (groupGrainsByField D gs field) total
    | .filter condition => counted (gs.filter fun g => grainMatchesConditionTree fl g condition)
  | other, _ => other

/-- `apply_pipeline`: the payload, and the field the grains are grouped by. -/
def applyPipeline (fl : Floats F) (maxLimit : ℕ) (payload : CalResultPayload A)
    (stages : List (PipelineStage F)) : CalResultPayload A × Option String :=
  stages.foldl (fun st stage =>
    (applyStage D fl maxLimit st.1 stage,
      match st.1, stage with
      | .grains _ _, .groupBy field => some field
      | _, _ => st.2)) (payload, none)

end Helpers

/-! ## What the stages are for -/

/-- The grains of a payload that bears some, with the count it reports. -/
def CalResultPayload.bears : CalResultPayload A → Option (List Assemble.TypedGrain × Option ℕ)
  | .grains gs total => some (gs, total)
  | .assembled gs total _ => some (gs, total)
  | _ => none

/-- A total preorder. -/
structure TotalPreorder {α : Type} (r : α → α → Prop) : Prop where
  total : ∀ a b, r a b ∨ r b a
  trans : ∀ a b c, r a b → r b c → r a c

/-- A stable sort: what stood in order stays in order. -/
structure StableSort {α : Type} (r : α → α → Prop) (l out : List α) : Prop where
  preorder : TotalPreorder r
  perm : out.Perm l
  sorted : out.Pairwise r
  stable : ∀ c : List α, c.Pairwise r → c.Sublist l → c.Sublist out

/-- When a grain was created. -/
def creationTime (g : Assemble.TypedGrain) : WithBot ℤ :=
  (g.fields.get "created_at").bind Json.asI64

/-- `a` was not created after `b`. -/
def NotLater (a b : Assemble.TypedGrain) : Prop := creationTime a ≤ creationTime b

/-- What `GROUP BY` is for: the grains of each value of the field side by side,
members in the order of their creation, groups in the order of their earliest
members, those that lack the field last. -/
structure Grouped (field : String) (gs out : List Assemble.TypedGrain) : Prop where
  perm : out.Perm gs
  groups : ∃ groups : List (Option Json × List Assemble.TypedGrain),
    out = groups.flatMap Prod.snd ∧ (groups.map Prod.fst).Nodup ∧
    (∀ p ∈ groups, p.2 ≠ [] ∧ (∀ g ∈ p.2, g.fields.get field = p.1) ∧ p.2.Pairwise NotLater) ∧
    groups.Pairwise fun p q => p.1 ≠ none ∧
      (q.1 ≠ none → ∃ g ∈ p.2, ∀ h ∈ q.2, NotLater g h)

/-- The fields of a grain restricted to some of them, each under its key:
nothing selected is lost, and nothing else is kept. -/
def Restricted (selected : List (String × String)) (g out : Assemble.TypedGrain) : Prop :=
  out.hash = g.hash ∧ out.grainType = g.grainType ∧
    (∀ x ∈ selected, ∀ v, g.fields.get x.1 = some v → out.fields.get x.2 = some v) ∧
    ∀ k v, out.fields.get k = some v → ∃ x ∈ selected, x.2 = k ∧ g.fields.get x.1 = some v

/-- What a stage is for, on a list. -/
def StageMeets (D : Display) (fl : Floats F) (maxLimit : ℕ) (gs out : List Assemble.TypedGrain) :
    PipelineStage F → Prop
  | .limit value => out = gs.take (min value maxLimit)
  | .offset value => out = gs.drop value
  | .count => False
  | .first => out = gs.take 1
  | .orderBy field descending => StableSort (notAfter D field descending) gs out
  | .select fields => List.Forall₂ (Restricted (fields.map fun f => (f, f))) gs out
  | .project fields => List.Forall₂ (Restricted (fields.map fun pf => (pf.field, pf.key))) gs out
  | .subjects => out.map (fun g => g.fields.get "value") =
      (gs.map fun g => g.fields.get "subject").filter Option.isSome
  | .objects => out.map (fun g => g.fields.get "value") =
      (gs.map fun g => g.fields.get "object").filter Option.isSome
  | .hashes => out.map (fun g => g.fields.get "value") = gs.map fun g => some (.str g.hash)
  | .groupBy field => Grouped field gs out
  | .filter condition => out = gs.filter fun g => grainMatchesConditionTree fl g condition

/-- What a stage makes of a payload: of one that bears grains the list the
stage is for, with its length, or the number of them; any other payload passes
as it is. -/
def Meets (D : Display) (fl : Floats F) (maxLimit : ℕ) (p : CalResultPayload A)
    (stage : PipelineStage F) (out : CalResultPayload A) : Prop :=
  match p.bears with
  | none => out = p
  | some (gs, _) =>
    match stage with
    | .count => out = .count gs.length
    | stage => ∃ gs', out.bears = some (gs', some gs'.length) ∧
        StageMeets D fl maxLimit gs gs' stage

/-- The composition of the stages, from left to right. -/
def Composes (D : Display) (fl : Floats F) (maxLimit : ℕ) :
    CalResultPayload A → List (PipelineStage F) → CalResultPayload A → Prop
  | p, [], out => out = p
  | p, stage :: stages, out =>
    ∃ next, Meets D fl maxLimit p stage next ∧ Composes D fl maxLimit next stages out

/-! ## Where they do it -/

/-- The grains `GROUP BY` can group: those that look alike to it have one value
of the field, a value that looks like none is none, and the time it sorts by is
in the order of the creation. -/
structure Groupable (D : Display) (field : String) (gs : List Assemble.TypedGrain) : Prop where
  alike : ∀ g ∈ gs, ∀ h ∈ gs, groupKey D field g = groupKey D field h →
    g.fields.get field = h.fields.get field
  lacking : ∀ g ∈ gs, groupKey D field g = "" → g.fields.get field = none
  times : ∀ g ∈ gs, ∀ h ∈ gs, createdAtSec g ≤ createdAtSec h → NotLater g h

/-- What a stage does as it is meant to: one on a plain list, `FIRST` of a list
that has one, `PROJECT` that gives no two values one key, `GROUP BY` of a list
it can group and whose count is not stale. -/
def Sound (D : Display) : CalResultPayload A → PipelineStage F → Prop
  | .assembled _ _ _, _ => False
  | .grains gs _, .first => gs ≠ []
  | .grains gs _, .project fields => ∀ g ∈ gs, ∀ pf ∈ fields, ∀ pf' ∈ fields, pf.key = pf'.key →
      ∀ v v', g.fields.get pf.field = some v → g.fields.get pf'.field = some v' → v = v'
  | .grains gs total, .groupBy field => total = some gs.length ∧ Groupable D field gs
  | _, _ => True

/-- Every stage of a pipeline is sound on what the stages before it made. -/
def SoundRun (D : Display) (fl : Floats F) (maxLimit : ℕ) :
    CalResultPayload A → List (PipelineStage F) → Prop
  | _, [] => True
  | p, stage :: stages =>
    Sound D p stage ∧ SoundRun D fl maxLimit (applyStage D fl maxLimit p stage) stages

end Deja.Pipeline
