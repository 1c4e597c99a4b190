import Mathlib.Data.NNRat.Floor
import Mathlib.Algebra.Order.Floor.Div
import Mathlib.Data.List.Sort
import Deja.Core.Grain
import Deja.Lib.Mirror

/-!
# The ASSEMBLE engine

Several sources, one context: each source runs, duplicates are dropped, the
result is capped, every source is given a share of the token budget by its
weight, and each list is trimmed to its share.

Weights are exact non-negative rationals; the quotients of `allocate_budget`
and `cap_grains` are exact too.  A `u32` sum that does not fit ends the run
(`none`), as it does where overflow is checked.  The clock is not read: no run
is timed out.  `textLen` is the length in bytes of the JSON text of a grain's
fields.
-/

namespace Deja.Assemble

/-- `MAX_GRAINS_POST_DEDUP`. -/
def maxGrainsPostDedup : ℕ := 2000

/-- `DEFAULT_BUDGET_TOKENS`. -/
def defaultBudgetTokens : UInt32 := 4000

/-! ## Statements and results -/

/-- A grain of a result, as far as assembling reads it. -/
structure CalGrainResult where
  hash : String
  fields : Json

/-- `PRIORITY label: weight`. -/
structure PrioritySpec where
  label : String
  weight : ℚ≥0

/-- Unit for the `BUDGET` clause. -/
inductive BudgetUnit where
  | tokens | grains
  deriving DecidableEq

/-- `BUDGET <n> [tokens|grains]`. -/
structure BudgetSpec where
  tokens : UInt32
  unit : BudgetUnit

/-- `WITH dedup(field)`. -/
structure DedupOption where
  field : Option String

/-- `label: (query)`; a query is whatever the executor runs. -/
structure NamedSource (Q : Type) where
  label : String
  query : Q

/-- The clauses of a multi-source `ASSEMBLE` the engine reads. -/
structure AssembleStmt (Q : Type) where
  sources : Option (List (NamedSource Q))
  budget : Option BudgetSpec
  priority : Option (List PrioritySpec)
  assembleWith : List DedupOption

/-- The labelled lists the engine passes from step to step. -/
abbrev SourceResults := List (String × List CalGrainResult)

/-- Metadata about a single source in the result. -/
structure SourceMeta where
  label : String
  tokensAllocated : ℕ
  tokensUsed : ℕ
  grainCount : ℕ
  omitted : List CalGrainResult

/-- The `Assembled` payload. -/
structure Assembled where
  grains : List CalGrainResult
  sources : List SourceMeta
  totalTokens : ℕ
  budgetLimit : Option ℕ
  progressive : Bool
  totalAvailable : Option ℕ

/-- The payloads `execute` returns. -/
inductive Payload where
  | grains (grains : List CalGrainResult) (totalAvailable : Option ℕ)
  | assembled (a : Assembled)

/-- The ways a run ends without a payload. -/
inductive CalError (E : Type) where
  | budgetExceeded (detail : String)
  | source (e : E)
  | overflow

/-! ## Dedup -/

/-- The field of the first `WITH` option, `_hash` when it names none. -/
def extractDedupField : List DedupOption → Option String
  | [] => none
  | opt :: _ => some (opt.field.getD "_hash")

/-- The text a grain is compared by. -/
def fieldVal (dedupField : String) (grain : CalGrainResult) : String :=
  if dedupField = "_hash" then grain.hash
  else ((grain.fields.get dedupField).bind Json.asStr).getD ""

/-- The rank of every label, 0 for the highest priority: by weight where there
is a `PRIORITY` clause, in source order otherwise.  The last entry of a label
stands. -/
def priorityMap (priority : Option (List PrioritySpec)) (labels : List String) :
    List (String × ℕ) :=
  let sorted : List String := match priority with
    | some specs =>
      (specs.insertionSort fun a b : PrioritySpec => b.weight ≤ a.weight).map PrioritySpec.label
    | none => labels
  sorted.zipIdx.foldl (fun m e => Assoc.insert e.1 e.2 m) []

/-- The rank of one label; `usize::MAX`, which no index reaches, is `⊤`. -/
def rankOf (priority : Option (List PrioritySpec)) (labels : List String) (label : String) :
    WithTop ℕ :=
  match (priorityMap priority labels).lookup label with
  | some rank => rank
  | none => ⊤

/-- One grain of the loop over all grains: kept under its label the first time
its value is seen. -/
def dedupStep (dedupField : String) (st : List String × SourceResults)
    (e : WithTop ℕ × String × CalGrainResult) : List String × SourceResults :=
  let value := fieldVal dedupField e.2.2
  if value ∈ st.1 then st
  else (value :: st.1, Assoc.insert e.2.1 ((st.2.lookup e.2.1).getD [] ++ [e.2.2]) st.2)

/-- Give each label, in source order, what is still filed under it. -/
def rebuild : List String → SourceResults → SourceResults
  | [], _ => []
  | label :: labels, deduped =>
    (label, (deduped.lookup label).getD []) :: rebuild labels (Assoc.erase label deduped)

/-- Every grain with the rank and the label of its source, highest priority
first. -/
def rankedGrains (priority : Option (List PrioritySpec)) (results : SourceResults) :
    List (WithTop ℕ × String × CalGrainResult) :=
  let labels := results.map Prod.fst
  let all := results.flatMap fun s => s.2.map fun g => (rankOf priority labels s.1, s.1, g)
  all.insertionSort fun a b => a.1 ≤ b.1

/-- Dedup by a specific field: the copy from the highest-priority source is
kept. -/
def dedupAcrossSources (results : SourceResults) (dedupField : String)
    (priority : Option (List PrioritySpec)) : SourceResults :=
  let deduped := ((rankedGrains priority results).foldl (dedupStep dedupField) ([], [])).2
  rebuild (results.map Prod.fst) deduped

/-- The filter of one source: the hashes seen and the grains kept. -/
def keepUnseen (seen : List String) : List CalGrainResult → List String × List CalGrainResult
  | [] => (seen, [])
  | g :: gs =>
    if g.hash ∈ seen then keepUnseen seen gs
    else
      let r := keepUnseen (g.hash :: seen) gs
      (r.1, g :: r.2)

/-- Exact duplicate removal by hash, in source order, past the hashes seen. -/
def dedupByHashFrom (seen : List String) : SourceResults → SourceResults
  | [] => []
  | (label, grains) :: rest =>
    let r := keepUnseen seen grains
    (label, r.2) :: dedupByHashFrom r.1 rest

/-- `dedup_by_hash`. -/
def dedupByHash (results : SourceResults) : SourceResults := dedupByHashFrom [] results

/-- Step 2 of `execute`. -/
def dedup (assembleWith : List DedupOption) (priority : Option (List PrioritySpec))
    (results : SourceResults) : SourceResults :=
  match extractDedupField assembleWith with
  | some field => dedupAcrossSources results field priority
  | none => dedupByHash results

/-! ## The cap -/

/-- The number of grains in all the lists. -/
def totalCount (results : SourceResults) : ℕ := (results.map fun s => s.2.length).sum

/-- What the cap leaves of a list of `len` out of `total` grains. -/
def capOf (total maxTotal len : ℕ) : ℕ := min (max ((len * maxTotal) ⌈/⌉ total) 1) len

/-- Cap the total across all sources.  The tails go to a map by label, where a
later one of the same label replaces the earlier one. -/
def capGrains (results : SourceResults) (maxTotal : ℕ) : SourceResults × SourceResults :=
  let total := totalCount results
  if total ≤ maxTotal then (results, [])
  else
    (results.map fun s => (s.1, s.2.take (capOf total maxTotal s.2.length)),
      results.foldl (fun omitted s =>
        let tail := s.2.drop (capOf total maxTotal s.2.length)
        if tail.isEmpty then omitted else Assoc.insert s.1 tail omitted) [])

/-! ## Budget allocation -/

/-- The default weights of `n` sources. -/
def defaultWeights : ℕ → List ℚ≥0
  | 0 => []
  | 1 => [1]
  | 2 => [13 / 20, 7 / 20]
  | 3 => [1 / 2, 3 / 10, 1 / 5]
  | 4 => [2 / 5, 7 / 25, 1 / 5, 3 / 25]
  | n =>
    let raw := (List.range n).map fun i => (3 / 5 : ℚ≥0) ^ i
    raw.map (· / raw.sum)

/-- The weight a `PRIORITY` clause gives a label: its first entry for it, zero
without one. -/
def specWeight (specs : List PrioritySpec) (label : String) : ℚ≥0 :=
  ((specs.find? fun s => s.label = label).map (·.weight)).getD 0

/-- The weights of the sources, which sum to one. -/
def weights (priority : Option (List PrioritySpec)) (labels : List String) : List ℚ≥0 :=
  match priority with
  | some specs =>
    let w := labels.map (specWeight specs)
    if 0 < w.sum then w.map (· / w.sum) else defaultWeights labels.length
  | none => defaultWeights labels.length

/-- `.round() as u32`: half away from zero, saturating. -/
def roundU32 (q : ℚ≥0) : ℕ := min ⌊q + 1 / 2⌋₊ (2 ^ 32 - 1)

/-- Token allocation by label; the last source of a label stands. -/
def allocateBudget (labels : List String) (totalBudget : ℕ)
    (priority : Option (List PrioritySpec)) : List (String × ℕ) :=
  (labels.zip (weights priority labels)).foldl
    (fun m e => Assoc.insert e.1 (roundU32 (e.2 * totalBudget)) m) []

/-- The allocations in source order. -/
def perSource (labels : List String) (totalBudget : ℕ) (priority : Option (List PrioritySpec)) :
    List (Option ℕ) :=
  labels.map fun l => (allocateBudget labels totalBudget priority).lookup l

/-! ## Budget trimming -/

/-- `u32` addition, `none` where it overflows. -/
def u32Add (a b : ℕ) : Option ℕ := if a + b < 2 ^ 32 then some (a + b) else none

section Trim

variable (textLen : Json → ℕ)

/-- A quarter of the text, at least one; the cast keeps the low 32 bits. -/
def estimateGrainTokens (g : CalGrainResult) : ℕ := max (textLen g.fields / 4) 1 % 2 ^ 32

/-- The loop of `budget_prefix` from `kept` grains and `tokensUsed` tokens. -/
def budgetPrefixFrom (budget : ℕ) : ℕ → ℕ → List CalGrainResult → Option (ℕ × ℕ)
  | kept, tokensUsed, [] => some (kept, tokensUsed)
  | kept, tokensUsed, g :: gs =>
    match u32Add tokensUsed (estimateGrainTokens textLen g) with
    | none => none
    | some sum =>
      -- the first grain is kept whatever it costs
      if budget < sum ∧ 0 < kept then some (kept, tokensUsed)
      else budgetPrefixFrom budget (kept + 1) sum gs

/-- How many grains are kept, and the tokens they use. -/
def budgetPrefix (grains : List CalGrainResult) (budget : ℕ) : Option (ℕ × ℕ) :=
  budgetPrefixFrom textLen budget 0 0 grains

/-- The trim loop: for each source its metadata and the grains kept. -/
def trim (sourceCount : ℕ) : ℕ → SourceResults → List ((String × List CalGrainResult) × Option ℕ) →
    Option (List (SourceMeta × List CalGrainResult))
  | _, _, [] => some []
  | remaining, capped, ((label, grains), share) :: rest =>
    let allocated := share.getD (remaining / max sourceCount 1)
    let effective := min allocated remaining
    match budgetPrefix textLen grains effective with
    | none => none
    | some (keep, used) =>
      let capTail := (capped.lookup label).getD []
      let entry : SourceMeta :=
        { label := label
          tokensAllocated := effective
          tokensUsed := used
          grainCount := (grains.take keep).length
          omitted := grains.drop keep ++ capTail }
      (trim sourceCount (remaining - used) (Assoc.erase label capped) rest).map
        ((entry, grains.take keep) :: ·)

/-- A `u32` sum in order. -/
def u32Sum : List ℕ → Option ℕ := List.foldlM u32Add 0

/-- Steps 2 to 6 of `execute`, on what the sources returned. -/
def assembleResults (assembleWith : List DedupOption) (priority : Option (List PrioritySpec))
    (budgetTokens : ℕ) (results : SourceResults) : Option Assembled :=
  let deduped := dedup assembleWith priority results
  let (capped, cappedOmitted) := capGrains deduped maxGrainsPostDedup
  let shares := perSource (capped.map Prod.fst) budgetTokens priority
  match trim textLen capped.length budgetTokens cappedOmitted (capped.zip shares) with
  | none => none
  | some out =>
    let finalGrains := out.flatMap Prod.snd
    (u32Sum (out.map fun o => o.1.tokensUsed)).map fun total =>
      { grains := finalGrains
        sources := out.map Prod.fst
        totalTokens := total
        budgetLimit := some budgetTokens
        progressive := false
        totalAvailable := some finalGrains.length }

/-- The token budget of a statement. -/
def AssembleStmt.budgetTokens {Q : Type} (stmt : AssembleStmt Q) : ℕ :=
  ((stmt.budget.map (·.tokens)).getD defaultBudgetTokens).toNat

/-- Run each source in order; the first that fails ends the run. -/
def runSources {Q E : Type} (executeSource : NamedSource Q → Except E (List CalGrainResult)) :
    List (NamedSource Q) → Except E SourceResults
  | [] => .ok []
  | s :: rest => do
    let grains ← executeSource s
    let more ← runSources executeSource rest
    .ok ((s.label, grains) :: more)

/-- `AssembleEngine::execute`. -/
def execute {Q E : Type} (executeSource : NamedSource Q → Except E (List CalGrainResult))
    (stmt : AssembleStmt Q) : Except (CalError E) Payload :=
  match stmt.sources with
  | none => .error (.budgetExceeded "ASSEMBLE engine requires multi-source syntax")
  | some [] => .ok (.grains [] (some 0))
  | some sources =>
    match runSources executeSource sources with
    | .error e => .error (.source e)
    | .ok results =>
      match assembleResults textLen stmt.assembleWith stmt.priority stmt.budgetTokens results with
      | none => .error .overflow
      | some a => .ok (.assembled a)

end Trim

end Deja.Assemble
